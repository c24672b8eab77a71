import SchemaTypes.Proofs.Paragraphs

/-!
# Code between comments

`Text.withoutComments` deletes the block comments of a text: the lines from one that says `/**` to
the next one that says `*/`, apart from blanks at the ends. Two texts are the same code if they
differ in whole comments in front of their lines only; this stays when they are indented, stacked
and joined, as long as every line of code has a sign on it that a comment does not start with.

A comment can be mistaken for code by somebody who looks for a bar between blanks in the whole text.
So the comments that are spoken of here have none.
-/

namespace SchemaTypes.Text

/-! ## Lines -/

theorem lines_of_oneLine {t : String} (h : OneLine t) : lines t = [t] := by
  unfold lines
  rw [fields_of_not_mem h, List.map_singleton, String.ofList_toList]

theorem oneLine_of_mem_lines {t l : String} (h : l ∈ lines t) : OneLine l := by
  obtain ⟨cs, hcs, rfl⟩ := List.mem_map.mp h
  exact lacks_ofList.mpr (not_mem_of_mem_fields _ _ _ hcs)

theorem lines_stack (t u : String) : lines (t ++ "\n" ++ u) = lines t ++ lines u := by
  have htext : (t ++ "\n" ++ u).toList = t.toList ++ '\n' :: u.toList := by simp
  unfold lines
  rw [htext, fields_append_cons, List.map_append]

theorem unlines_cons (l : String) {ls : List String} (h : ls ≠ []) :
    unlines (l :: ls) = l ++ "\n" ++ unlines ls := by
  cases ls with
  | nil => exact absurd rfl h
  | cons l' ls => rfl

theorem unlines_concat (l : String) {ls : List String} (h : ls ≠ []) :
    unlines (ls ++ [l]) = unlines ls ++ "\n" ++ l := by
  induction ls with
  | nil => exact absurd rfl h
  | cons k ks ih =>
    by_cases hks : ks = []
    · rw [hks]
      rfl
    · rw [List.cons_append, unlines_cons k (by simp), unlines_cons k hks, ih hks]
      simp only [String.append_assoc]

/-- The lines of a text that is made of lines. -/
theorem lines_unlines {ls : List String} (hne : ls ≠ []) (h : ∀ l ∈ ls, OneLine l) :
    lines (unlines ls) = ls := by
  induction ls with
  | nil => exact absurd rfl hne
  | cons l rest ih =>
    have hl := lines_of_oneLine (h l List.mem_cons_self)
    by_cases hrest : rest = []
    · rw [hrest]
      exact hl
    · have hlines := ih hrest fun u hu => h u (List.mem_cons_of_mem l hu)
      rw [unlines_cons l hrest, lines_stack, hl, hlines]
      rfl

/-- The last line of a text and the first line of what follows it are one line. -/
theorem lines_append {t u l first : String} {front rest : List String} (ht : lines t = front ++ [l])
    (hu : lines u = first :: rest) : lines (t ++ u) = front ++ (l ++ first) :: rest := by
  have hjoin : unlines (front ++ [l]) ++ unlines (first :: rest) =
      unlines (front ++ (l ++ first) :: rest) := by
    clear ht hu
    induction front with
    | nil =>
      by_cases hrest : rest = []
      · rw [hrest]
        rfl
      · rw [List.nil_append, List.nil_append, unlines_cons first hrest, unlines_cons _ hrest]
        simp only [unlines, join, String.append_assoc]
    | cons f front ih =>
      rw [List.cons_append, List.cons_append, unlines_cons f (by simp), unlines_cons f (by simp),
        String.append_assoc, ih]
  have htext : t ++ u = unlines (front ++ (l ++ first) :: rest) := by
    rw [← unlines_lines t, ← unlines_lines u, ht, hu, hjoin]
  rw [htext]
  refine lines_unlines (by simp) fun k hk => ?_
  have hfront : ∀ k ∈ front ++ [l], OneLine k := fun k hk =>
    oneLine_of_mem_lines (t := t) (by rwa [ht])
  have hrest : ∀ k ∈ first :: rest, OneLine k := fun k hk =>
    oneLine_of_mem_lines (t := u) (by rwa [hu])
  rcases List.mem_append.mp hk with hk | hk
  · exact hfront k (List.mem_append_left _ hk)
  · rcases List.mem_cons.mp hk with rfl | hk
    · exact (hfront l (by simp)).append (hrest first List.mem_cons_self)
    · exact hrest k (List.mem_cons_of_mem _ hk)

/-! ## What a line contains -/

theorem contains_iff_isInfix {pattern text : String} :
    contains pattern text = true ↔ pattern.toList <:+: text.toList := by
  unfold contains
  rw [Option.isSome_iff_exists]
  constructor
  · rintro ⟨rest, h⟩
    obtain ⟨front, hfront⟩ := exists_of_afterList? h
    exact ⟨front, rest, hfront.symm⟩
  · rintro ⟨front, rest, h⟩
    rw [← h]
    exact Option.isSome_iff_exists.mp (afterList?_isSome front pattern.toList rest)

section Fields

variable {α : Type} [DecidableEq α] {sep : α} {cs first p : List α} {others : List (List α)}

theorem first_field_isPrefix (h : fields sep cs = first :: others) : first <+: cs := by
  induction cs generalizing first others with
  | nil =>
    cases h
    exact List.prefix_rfl
  | cons a rest ih =>
    unfold fields at h
    split at h
    · cases h
      exact List.nil_prefix
    · cases hrest : fields sep rest with
      | nil => exact absurd hrest (fields_ne_nil sep rest)
      | cons g gs =>
        rw [hrest] at h
        cases h
        exact List.cons_prefix_cons.mpr ⟨rfl, ih hrest⟩

/-- A stretch without separators at the front is in the first field. -/
theorem isPrefix_first_field (hp : sep ∉ p) (h : p <+: cs) (hcs : fields sep cs = first :: others) :
    p <+: first := by
  induction p generalizing cs first others with
  | nil => exact List.nil_prefix
  | cons a p ih =>
    obtain ⟨hsep, hp⟩ := not_or.mp (mt List.mem_cons.mpr hp)
    obtain ⟨rest, rfl⟩ := h
    rw [List.cons_append, fields, if_neg (Ne.symm hsep)] at hcs
    cases hrest : fields sep (p ++ rest) with
    | nil => exact absurd hrest (fields_ne_nil sep _)
    | cons g gs =>
      rw [hrest] at hcs
      cases hcs
      exact List.cons_prefix_cons.mpr ⟨rfl, ih hp (List.prefix_append p rest) hrest⟩

/-- What has no separators in it is in one of the fields, if it is there at all. -/
theorem isInfix_iff_fields (hp : sep ∉ p) : p <:+: cs ↔ ∃ f ∈ fields sep cs, p <:+: f := by
  induction cs with
  | nil => simp [fields]
  | cons a rest ih =>
    rw [List.infix_cons_iff, ih]
    cases hrest : fields sep rest with
    | nil => exact absurd hrest (fields_ne_nil sep rest)
    | cons first others =>
      -- A separator opens an empty field in front of the others; any other sign joins the first.
      by_cases ha : a = sep
      · subst ha
        rw [fields, if_pos rfl, hrest]
        constructor
        · rintro (h | ⟨f, hf, h⟩)
          · exact ⟨[], List.mem_cons_self, (isPrefix_first_field hp h (by
              rw [fields, if_pos rfl])).isInfix⟩
          · exact ⟨f, List.mem_cons_of_mem _ hf, h⟩
        · rintro ⟨f, hf, h⟩
          rcases List.mem_cons.mp hf with rfl | hf
          · rw [List.infix_nil.mp h]
            exact .inl List.nil_prefix
          · exact .inr ⟨f, hf, h⟩
      · have hcons : fields sep (a :: rest) = (a :: first) :: others := by
          rw [fields, if_neg ha, hrest]
        rw [hcons]
        constructor
        · rintro (h | ⟨f, hf, h⟩)
          · exact ⟨_, List.mem_cons_self, (isPrefix_first_field hp h hcons).isInfix⟩
          · rcases List.mem_cons.mp hf with rfl | hf
            · exact ⟨_, List.mem_cons_self, List.infix_cons h⟩
            · exact ⟨f, List.mem_cons_of_mem _ hf, h⟩
        · rintro ⟨f, hf, h⟩
          rcases List.mem_cons.mp hf with rfl | hf
          · rcases List.infix_cons_iff.mp h with h | h
            · exact .inl (h.trans (List.cons_prefix_cons.mpr ⟨rfl, first_field_isPrefix hrest⟩))
            · exact .inr ⟨first, List.mem_cons_self, h⟩
          · exact .inr ⟨f, List.mem_cons_of_mem _ hf, h⟩

end Fields

/-- A text contains what one of its lines contains, and nothing else that is on one line. -/
theorem contains_iff_lines {pattern text : String} (h : OneLine pattern) :
    contains pattern text = true ↔ ∃ l ∈ lines text, contains pattern l = true := by
  simp only [contains_iff_isInfix]
  rw [isInfix_iff_fields h]
  unfold lines
  simp

/-! ## Stripping -/

/-- Blanks in front of a line make no difference once it is stripped. -/
theorem strip_margin (l : String) : strip ("  " ++ l) = strip l := by
  unfold strip stripList
  rw [String.toList_append]
  rfl

/-- What is left of a line was on it. -/
theorem mem_of_mem_strip {l : String} {c : Char} (h : c ∈ (strip l).toList) : c ∈ l.toList :=
  (strip_isInfix l).mem h

/-- Only blanks are stripped off. -/
theorem mem_strip {l : String} {c : Char} (hc : isBlank c = false) (h : c ∈ l.toList) :
    c ∈ (strip l).toList := by
  have hdrop : ∀ cs : List Char, c ∈ cs → c ∈ dropBlank cs := by
    intro cs hcs
    rw [← List.takeWhile_append_dropWhile (p := isBlank) (l := cs)] at hcs
    rcases List.mem_append.mp hcs with hfront | hback
    · rw [List.all_eq_true.mp List.all_takeWhile c hfront] at hc
      cases hc
    · exact hback
  unfold strip stripList
  rw [String.toList_ofList, List.mem_reverse]
  exact hdrop _ (List.mem_reverse.mpr (hdrop _ h))

/-! ## Lines of code and lines of comments -/

/-- A character that is neither blank nor a sign at the ends of comments. -/
def IsSolid (c : Char) : Prop :=
  isBlank c = false ∧ c ≠ '/' ∧ c ≠ '*'

instance (c : Char) : Decidable (IsSolid c) :=
  inferInstanceAs (Decidable (isBlank c = false ∧ c ≠ '/' ∧ c ≠ '*'))

/-- A line of code: if there is a star on it, there is something solid too. -/
structure IsCode (l : String) : Prop where
  oneLine : OneLine l
  solid : Lacks '*' l ∨ ∃ c ∈ l.toList, IsSolid c

instance (l : String) : Decidable (IsCode l) :=
  haveI : Decidable (∃ c ∈ l.toList, IsSolid c) := List.decidableBEx IsSolid l.toList
  decidable_of_iff (OneLine l ∧ (Lacks '*' l ∨ ∃ c ∈ l.toList, IsSolid c))
    ⟨fun h => ⟨h.1, h.2⟩, fun h => ⟨h.oneLine, h.solid⟩⟩

theorem isCode_empty : IsCode "" := by
  decide

theorem IsCode.append {l m : String} (hl : IsCode l) (hm : IsCode m) : IsCode (l ++ m) := by
  refine ⟨hl.oneLine.append hm.oneLine, ?_⟩
  rcases hl.solid with hl | ⟨c, hc, hsolid⟩
  · rcases hm.solid with hm | ⟨c, hc, hsolid⟩
    · exact .inl (hl.append hm)
    · exact .inr ⟨c, by simp [hc], hsolid⟩
  · exact .inr ⟨c, by simp [hc], hsolid⟩

theorem IsCode.join {sep : String} (hsep : IsCode sep) {texts : List String}
    (h : ∀ t ∈ texts, IsCode t) : IsCode (join sep texts) := by
  induction texts with
  | nil => exact isCode_empty
  | cons t rest ih =>
    cases rest with
    | nil => exact h t List.mem_cons_self
    | cons t' rest =>
      rw [join_cons_cons]
      exact ((h t List.mem_cons_self).append hsep).append
        (ih fun u hu => h u (List.mem_cons_of_mem t hu))

/-- No comment starts at a line of code. -/
theorem IsCode.strip_ne {l : String} (h : IsCode l) : strip l ≠ "/**" := by
  intro hstrip
  rcases h.solid with hlacks | ⟨c, hc, hblank, hslash, hstar⟩
  · exact hlacks (mem_of_mem_strip (by rw [hstrip]; decide))
  · have hmem := mem_strip hblank hc
    rw [hstrip] at hmem
    simp [hslash, hstar] at hmem

/-- The bar of a union. -/
def bar : String := " | "

/-- A line of a comment without a bar, which makes none behind a margin either. -/
structure IsAside (l : String) : Prop where
  oneLine : OneLine l
  unbarred : contains bar l = false
  first : l.toList.head? ≠ some '|'

theorem IsAside.margin {l : String} (h : IsAside l) : IsAside ("  " ++ l) := by
  have hlist : ("  " ++ l).toList = ' ' :: ' ' :: l.toList := by simp
  refine ⟨Lacks.append (by decide) h.oneLine, ?_, ?_⟩
  · rw [Bool.eq_false_iff, Ne, contains_iff_isInfix]
    rw [hlist, List.infix_cons_iff, List.infix_cons_iff]
    rintro (hfront | hfront | hinside)
    · obtain ⟨rest, hrest⟩ := hfront
      cases hrest
    · -- a bar that starts in the margin goes on with the first character of the line
      obtain ⟨rest, hrest⟩ := hfront
      have htail : '|' :: ' ' :: rest = l.toList := (List.cons.inj hrest).2
      exact h.first (by rw [← htail]; rfl)
    · have hbarred := contains_iff_isInfix.mpr hinside
      rw [h.unbarred] at hbarred
      cases hbarred
  · rw [hlist]
    simp

/-- The lines of a comment, or none. -/
inductive Aside : List String → Prop
  | none : Aside []
  | comment {opening closing : String} {inner : List String} (hopening : strip opening = "/**")
      (hinner : ∀ l ∈ inner, strip l ≠ "*/") (hclosing : strip closing = "*/")
      (h : ∀ l ∈ opening :: (inner ++ [closing]), IsAside l) :
      Aside (opening :: (inner ++ [closing]))

theorem Aside.isAside {ks : List String} (h : Aside ks) : ∀ l ∈ ks, IsAside l := by
  cases h with
  | none => simp
  | comment _ _ _ h => exact h

theorem Aside.margin {ks : List String} (h : Aside ks) : Aside (ks.map ("  " ++ ·)) := by
  cases h with
  | none => exact .none
  | @comment opening closing inner hopening hinner hclosing h =>
    rw [List.map_cons, List.map_append, List.map_singleton]
    refine .comment ?_ (fun l hl => ?_) ?_ fun l hl => ?_
    · rw [strip_margin, hopening]
    · obtain ⟨m, hm, rfl⟩ := List.mem_map.mp hl
      rw [strip_margin]
      exact hinner m hm
    · rw [strip_margin, hclosing]
    · rw [← List.map_singleton, ← List.map_append, ← List.map_cons] at hl
      obtain ⟨m, hm, rfl⟩ := List.mem_map.mp hl
      exact (h m hm).margin

/-! ## The same code -/

/-- Lines that are the same apart from comments, each in front of a line of code. -/
inductive SameCode : List String → List String → Prop
  | nil : SameCode [] []
  | cons {ks ks' ls ls' : List String} {l : String} (hks : Aside ks) (hks' : Aside ks')
      (hl : IsCode l) (h : SameCode ls ls') : SameCode (ks ++ l :: ls) (ks' ++ l :: ls')

namespace SameCode

variable {ls ls' ms ms' : List String}

theorem code (l : String) (hl : IsCode l) (h : SameCode ls ls') : SameCode (l :: ls) (l :: ls') :=
  .cons .none .none hl h

theorem eq_nil (h : SameCode [] ls') : ls' = [] := by
  generalize hnil : ([] : List String) = ls at h
  cases h with
  | nil => rfl
  | cons => simp at hnil

theorem append (hl : SameCode ls ls') (hm : SameCode ms ms') :
    SameCode (ls ++ ms) (ls' ++ ms') := by
  induction hl with
  | nil => exact hm
  | cons hks hks' hl _ ih =>
    rw [List.append_assoc, List.append_assoc, List.cons_append, List.cons_append]
    exact .cons hks hks' hl ih

theorem margin (h : SameCode ls ls') :
    SameCode (ls.map ("  " ++ ·)) (ls'.map ("  " ++ ·)) := by
  induction h with
  | nil => exact .nil
  | cons hks hks' hl _ ih =>
    rw [List.map_append, List.map_append, List.map_cons, List.map_cons]
    exact .cons hks.margin hks'.margin (IsCode.append (by decide) hl) ih

theorem oneLine (h : SameCode ls ls') : (∀ l ∈ ls, OneLine l) ∧ ∀ l ∈ ls', OneLine l := by
  induction h with
  | nil => simp
  | cons hks hks' hl _ ih =>
    simp only [List.mem_append, List.mem_cons]
    constructor
    · rintro m (hm | rfl | hm)
      · exact (hks.isAside m hm).oneLine
      · exact hl.oneLine
      · exact ih.1 m hm
    · rintro m (hm | rfl | hm)
      · exact (hks'.isAside m hm).oneLine
      · exact hl.oneLine
      · exact ih.2 m hm

/-- The same code has the same bars. -/
theorem exists_bar_iff (h : SameCode ls ls') :
    (∃ l ∈ ls, contains bar l = true) ↔ ∃ l ∈ ls', contains bar l = true := by
  have hnone : ∀ {ks : List String}, Aside ks → ∀ l ∈ ks, contains bar l ≠ true := by
    intro ks hks l hl hbar
    rw [(hks.isAside l hl).unbarred] at hbar
    cases hbar
  have hcons : ∀ {ks ls : List String} {l : String}, Aside ks →
      ((∃ m ∈ ks ++ l :: ls, contains bar m = true) ↔
        contains bar l = true ∨ ∃ m ∈ ls, contains bar m = true) := by
    intro ks ls l hks
    constructor
    · rintro ⟨m, hm, hbar⟩
      rcases List.mem_append.mp hm with hm | hm
      · exact absurd hbar (hnone hks m hm)
      · rcases List.mem_cons.mp hm with rfl | hm
        · exact .inl hbar
        · exact .inr ⟨m, hm, hbar⟩
    · rintro (hbar | ⟨m, hm, hbar⟩)
      · exact ⟨l, by simp, hbar⟩
      · exact ⟨m, by simp [hm], hbar⟩
  induction h with
  | nil => exact Iff.rfl
  | cons hks hks' hl _ ih =>
    rw [hcons hks, hcons hks']
    exact or_congr_right ih

/-- The last line can be changed, and more can follow, in both at once. -/
theorem exists_last (h : SameCode ls ls') (hne : ls ≠ []) :
    ∃ front front' l, ls = front ++ [l] ∧ ls' = front' ++ [l] ∧ IsCode l ∧
      ∀ m ms ms', IsCode m → SameCode ms ms' →
        SameCode (front ++ m :: ms) (front' ++ m :: ms') := by
  induction h with
  | nil => exact absurd rfl hne
  | @cons ks ks' rest rest' l hks hks' hl h ih =>
    by_cases hrest : rest = []
    · subst hrest
      obtain rfl := h.eq_nil
      exact ⟨ks, ks', l, rfl, rfl, hl, fun m ms ms' hm hms => .cons hks hks' hm hms⟩
    · obtain ⟨front, front', last, rfl, rfl, hlast, hnext⟩ := ih hrest
      refine ⟨ks ++ l :: front, ks' ++ l :: front', last, by simp, by simp, hlast,
        fun m ms ms' hm hms => ?_⟩
      rw [List.append_assoc, List.append_assoc, List.cons_append, List.cons_append]
      exact .cons hks hks' hl (hnext m ms ms' hm hms)

end SameCode

/-! ## Texts of the same code -/

/-- Texts that are the same code and start with it. -/
structure SameText (t t' : String) : Prop where
  exists_lines : ∃ first rest rest', lines t = first :: rest ∧ lines t' = first :: rest' ∧
    IsCode first ∧ SameCode rest rest'

namespace SameText

variable {t t' u u' : String}

theorem sameCode (h : SameText t t') : SameCode (lines t) (lines t') := by
  obtain ⟨first, rest, rest', ht, ht', hfirst, hrest⟩ := h
  rw [ht, ht']
  exact .code first hfirst hrest

/-- A line of code is the same code as itself. -/
theorem refl (h : IsCode t) : SameText t t :=
  ⟨t, [], [], lines_of_oneLine h.oneLine, lines_of_oneLine h.oneLine, h, .nil⟩

theorem append (ht : SameText t t') (hu : SameText u u') : SameText (t ++ u) (t' ++ u') := by
  obtain ⟨first, rest, rest', ht, ht', hfirst, hrest⟩ := ht
  obtain ⟨next, more, more', hu, hu', hnext, hmore⟩ := hu
  by_cases hnil : rest = []
  · subst hnil
    rw [hrest.eq_nil] at ht'
    have hone : lines t = [] ++ [first] := ht
    have hone' : lines t' = [] ++ [first] := ht'
    exact ⟨first ++ next, more, more', lines_append hone hu, lines_append hone' hu',
      hfirst.append hnext, hmore⟩
  · obtain ⟨front, front', l, rfl, rfl, hl, hlast⟩ := hrest.exists_last hnil
    rw [← List.cons_append] at ht ht'
    exact ⟨first, _, _, lines_append ht hu, lines_append ht' hu', hfirst,
      hlast (l ++ next) more more' (hl.append hnext) hmore⟩

theorem join {sep : String} (hsep : IsCode sep) {ts ts' : List String}
    (h : List.Forall₂ SameText ts ts') : SameText (join sep ts) (join sep ts') := by
  induction h with
  | nil => exact refl isCode_empty
  | cons ht hts ih =>
    cases hts with
    | nil => exact ht
    | cons ht' hts =>
      rw [join_cons_cons, join_cons_cons]
      exact (ht.append (refl hsep)).append ih

/-- Lines of the same code between two lines of code. -/
theorem enclose {opening closing : String} (hopening : IsCode opening) (hclosing : IsCode closing)
    {ls ls' : List String} (h : SameCode ls ls') :
    SameText (unlines (opening :: ls ++ [closing])) (unlines (opening :: ls' ++ [closing])) := by
  have hall : SameCode (opening :: ls ++ [closing]) (opening :: ls' ++ [closing]) :=
    (h.append (.code closing hclosing .nil)).code opening hopening
  exact ⟨opening, ls ++ [closing], ls' ++ [closing], lines_unlines (by simp) hall.oneLine.1,
    lines_unlines (by simp) hall.oneLine.2, hopening, h.append (.code closing hclosing .nil)⟩

/-- Texts of the same code have a bar, or they have none. -/
theorem contains_bar (h : SameText t t') : contains bar t = contains bar t' := by
  rw [Bool.eq_iff_iff, contains_iff_lines (by decide), contains_iff_lines (by decide)]
  exact h.sameCode.exists_bar_iff

/-- Comments may stand in front of texts of the same code. -/
theorem behind {c c' : String} {ks ks' : List String} (hc : lines c = ks ++ [""])
    (hc' : lines c' = ks' ++ [""]) (hks : Aside ks) (hks' : Aside ks') (h : SameText t t') :
    SameCode (lines (c ++ t)) (lines (c' ++ t')) := by
  obtain ⟨first, rest, rest', ht, ht', hfirst, hrest⟩ := h
  rw [lines_append hc ht, lines_append hc' ht', String.empty_append]
  exact .cons hks hks' hfirst hrest

end SameText

/-! ## Deleting comments -/

/-- Lines without comments; `inside` says whether a comment is open. -/
def outsideComments : Bool → List String → List String
  | _, [] => []
  | true, l :: rest => outsideComments (strip l != "*/") rest
  | false, l :: rest =>
    if strip l = "/**" then outsideComments true rest else l :: outsideComments false rest

/-- A text without its comments: the lines from one that is `/**` without blanks at its ends to the
next one that is `*/`. -/
def withoutComments (text : String) : String :=
  unlines (outsideComments false (lines text))

/-- A comment is deleted. -/
theorem outsideComments_aside {ks : List String} (h : Aside ks) (ls : List String) :
    outsideComments false (ks ++ ls) = outsideComments false ls := by
  cases h with
  | none => rfl
  | @comment opening closing inner hopening hinner hclosing _ =>
    have hinside : outsideComments true (inner ++ [closing] ++ ls) = outsideComments false ls := by
      clear * - hinner hclosing
      induction inner with
      | nil =>
        rw [List.nil_append, List.singleton_append, outsideComments, hclosing]
        rfl
      | cons l inner ih =>
        have hopen : (strip l != "*/") = true := by simpa using hinner l List.mem_cons_self
        rw [List.cons_append, List.cons_append, outsideComments, hopen]
        exact ih fun m hm => hinner m (List.mem_cons_of_mem l hm)
    rw [List.cons_append, outsideComments, if_pos hopening, hinside]

/-- The same code is the same without comments. -/
theorem SameCode.outsideComments_eq {ls ls' : List String} (h : SameCode ls ls') :
    outsideComments false ls = outsideComments false ls' := by
  induction h with
  | nil => rfl
  | cons hks hks' hl _ ih =>
    rw [outsideComments_aside hks, outsideComments_aside hks', outsideComments, outsideComments,
      if_neg hl.strip_ne, if_neg hl.strip_ne, ih]

theorem SameText.withoutComments_eq {t t' : String} (h : SameText t t') :
    withoutComments t = withoutComments t' :=
  congrArg unlines h.sameCode.outsideComments_eq

end SchemaTypes.Text
