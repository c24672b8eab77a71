import SchemaTypes.Proofs.DocumentedTypes
import SchemaTypes.Proofs.Escaping

/-!
# Block comments

A block comment cannot be closed from inside. What is added to it is escaped, so there is no `*/` in
it; a title is cut off and stripped after that, which makes no new one; and on every line the blank
of the lead keeps the star of the lead away from what follows it. So the only `*/` in a finished
block comment is the one on its last line.

`Comment.ofFragments` is the comment that some fragments make when they are added one by one.
-/

namespace SchemaTypes

namespace Comment

open Text (OneLine unlines indentLines)

/-! ## Comments of some fragments -/

/-- The comment that some fragments make, in order. -/
def ofFragments (style : Style) (fragments : List String) : Comment :=
  fragments.foldl add (empty style)

theorem ofFragments_append (style : Style) (fragments others : List String) :
    ofFragments style (fragments ++ others) = others.foldl add (ofFragments style fragments) :=
  List.foldl_append

/-- The lines of some fragments, in order, each behind the lead of a style. -/
def linesOf (style : Style) (fragments : List String) : List String :=
  fragments.flatMap fun f => indentLines style.lead (style.text f)

/-- Adding fragments keeps the style, and the lines that are there. -/
theorem foldl_add (c : Comment) (fragments : List String) :
    fragments.foldl add c = ⟨c.style, c.lines ++ linesOf c.style fragments⟩ := by
  induction fragments generalizing c with
  | nil => simp [linesOf]
  | cons f rest ih =>
    rw [List.foldl_cons, ih, linesOf, linesOf, List.flatMap_cons, ← List.append_assoc]
    rfl

theorem ofFragments_eq (style : Style) (fragments : List String) :
    ofFragments style fragments = ⟨style, linesOf style fragments⟩ :=
  foldl_add (empty style) fragments

theorem linesOf_eq_map (style : Style) (fragments : List String) :
    linesOf style fragments =
      (fragments.flatMap fun f => Text.lines (style.text f)).map (style.lead ++ ·) := by
  rw [List.map_flatMap]
  rfl

theorem linesOf_ne_nil (style : Style) {fragments : List String} (h : fragments ≠ []) :
    linesOf style fragments ≠ [] := by
  obtain ⟨f, rest, rfl⟩ := List.exists_cons_of_ne_nil h
  rw [linesOf, List.flatMap_cons]
  refine List.append_ne_nil_of_left_ne_nil ?_ _
  unfold indentLines Text.lines
  simp [Text.fields_ne_nil]

theorem oneLine_of_mem_linesOf {style : Style} {fragments : List String} {l : String}
    (h : l ∈ linesOf style fragments) : OneLine l := by
  obtain ⟨f, -, hl⟩ := List.mem_flatMap.mp h
  exact Text.oneLine_of_mem_indentLines (by cases style <;> decide) hl

/-- A block comment with lines, as a text. -/
theorem text_block {ls : List String} (hne : ls ≠ []) :
    text ⟨.block, ls⟩ = "/**\n" ++ unlines ls ++ "\n */\n" := by
  cases ls with
  | nil => exact absurd rfl hne
  | cons l ls => rfl

/-! ## Texts in block comments -/

/-- A text in which no block comment ends. -/
def Endless (text : String) : Prop :=
  Text.contains "*/" text = false

theorem endless_iff {text : String} : Endless text ↔ ¬ ['*', '/'] <:+: text.toList := by
  have hend : "*/".toList = ['*', '/'] := by decide
  unfold Endless
  rw [Bool.eq_false_iff, Ne, Text.contains_iff_isInfix, hend]

/-- No comment ends in a text if none ends on any of its lines. -/
theorem endless_iff_lines {text : String} : Endless text ↔ ∀ l ∈ Text.lines text, Endless l := by
  have honeLine : OneLine "*/" := by decide
  unfold Endless
  rw [Bool.eq_false_iff, Ne, Text.contains_iff_lines honeLine]
  simp

theorem Endless.of_isInfix {t u : String} (h : Endless t) (hinside : u.toList <:+: t.toList) :
    Endless u :=
  endless_iff.mpr fun hend => endless_iff.mp h (hend.trans hinside)

theorem endless_replace (text : String) : Endless (Text.replace "*/" "*\\/" text) := by
  rw [endless_iff, replace_end, String.toList_ofList]
  exact not_isInfix_escaped text.toList

theorem Endless.strip {t : String} (h : Endless t) : Endless (Text.strip t) :=
  h.of_isInfix (Text.strip_isInfix t)

theorem Endless.stack {t u : String} (ht : Endless t) (hu : Endless u) :
    Endless (t ++ "\n" ++ u) := by
  rw [endless_iff_lines] at ht hu ⊢
  rw [Text.lines_stack]
  exact List.forall_mem_append.mpr ⟨ht, hu⟩

/-- No comment ends in the text of a fragment, whatever the fragment holds. -/
theorem endless_blockText (fragment : String) : Endless (blockText fragment) := by
  have hsafe := endless_replace fragment
  unfold blockText
  dsimp only
  split
  · next title htitle =>
    unfold Text.afterStart? at htitle
    split at htitle
    · obtain rfl := Option.some.inj htitle
      have htitle : Endless (String.ofList
          ((Text.replace "*/" "*\\/" fragment).toList.drop titleMarker.toList.length)) := by
        refine hsafe.of_isInfix ?_
        rw [String.toList_ofList]
        exact (List.drop_suffix _ _).isInfix
      have hrule := htitle.strip.stack (u := "---") (by unfold Endless; decide)
      rwa [String.append_assoc] at hrule
    · cases htitle
  · split
    · unfold Endless
      decide
    · exact hsafe

/-- The lead of a line makes no end of a comment with what follows it. -/
theorem Endless.lead {l : String} (h : Endless l) : Endless (" * " ++ l) := by
  rw [endless_iff] at h ⊢
  rw [String.toList_append]
  change ¬ ['*', '/'] <:+: ' ' :: '*' :: ' ' :: l.toList
  rw [List.infix_cons_iff, List.infix_cons_iff, List.infix_cons_iff]
  simp [List.cons_prefix_cons, h]

/-- Every line of a fragment stands behind the lead, and no comment ends there. -/
theorem endless_of_mem_linesOf {fragments : List String} {l : String}
    (h : l ∈ linesOf .block fragments) : " * ".toList <+: l.toList ∧ Endless l := by
  obtain ⟨f, -, hl⟩ := List.mem_flatMap.mp h
  obtain ⟨rest, hrest, rfl⟩ := List.mem_map.mp hl
  refine ⟨?_, (endless_iff_lines.mp (endless_blockText f) rest hrest).lead⟩
  rw [String.toList_append]
  exact List.prefix_append _ _

/-! ## One end -/

/-- An end of a comment behind a text in which there is none, in front of a line feed, is the only
one. -/
theorem eq_of_append_end {t front back : String} (ht : Endless t)
    (h : t ++ "*/" ++ "\n" = front ++ "*/" ++ back) : front = t ∧ back = "\n" := by
  suffices hlists : ∀ x f b : List Char, ¬ ['*', '/'] <:+: x →
      x ++ ['*', '/', '\n'] = f ++ '*' :: '/' :: b → f = x ∧ b = ['\n'] by
    have hsame := congrArg String.toList h
    simp only [String.toList_append, List.append_assoc] at hsame
    obtain ⟨hfront, hback⟩ := hlists _ _ _ (endless_iff.mp ht) hsame
    exact ⟨String.toList_inj.mp hfront, String.toList_inj.mp hback⟩
  intro x f b hx h
  rcases List.append_eq_append_iff.mp h with ⟨rest, rfl, hrest⟩ | ⟨rest, rfl, hrest⟩
  · -- the other end would have to start inside of this one or behind it
    rcases rest with _ | ⟨a, _ | ⟨b, rest⟩⟩
    · simpa [eq_comm] using hrest
    · simp at hrest
    · have hlength := congrArg List.length hrest
      simp only [List.length_append, List.length_cons, List.length_nil] at hlength
      omega
  · -- or in front of it, where there is none
    rcases rest with _ | ⟨a, _ | ⟨b, rest⟩⟩
    · simpa using hrest
    · simp at hrest
    · obtain ⟨rfl, rfl, -⟩ : '*' = a ∧ '/' = b ∧ _ := by simpa using hrest
      exact absurd ⟨f, rest, by simp⟩ hx

/-- No comment ends in front of the end of a block comment. -/
theorem endless_before_end {ls : List String} (hne : ls ≠ []) (honeLine : ∀ l ∈ ls, OneLine l)
    (h : ∀ l ∈ ls, Endless l) : Endless ("/**\n" ++ unlines ls ++ "\n ") := by
  have hls : Endless (unlines ls) := by
    rw [endless_iff_lines, Text.lines_unlines hne honeLine]
    exact h
  have hfirst : Endless "/**" := by unfold Endless; decide
  have hlast : Endless " " := by unfold Endless; decide
  have hstack := (hfirst.stack hls).stack hlast
  rwa [String.append_assoc] at hstack

/-- A block comment without fragments is empty. Any other one is a line `/**`, the lines of its
fragments behind ` * `, and a line ` */`, which holds the only `*/` in it. -/
theorem ofFragments_block_ends_once (fragments : List String) :
    (fragments = [] ∧ (ofFragments .block fragments).text = "") ∨
      (fragments ≠ [] ∧ ∃ inner, inner ≠ [] ∧
        Text.lines (ofFragments .block fragments).text = "/**" :: (inner ++ [" */", ""]) ∧
        (∀ l ∈ inner, " * ".toList <+: l.toList) ∧
        ∀ front back, (ofFragments .block fragments).text = front ++ "*/" ++ back ↔
          front = "/**\n" ++ unlines inner ++ "\n " ∧ back = "\n") := by
  rw [ofFragments_eq]
  by_cases hempty : fragments = []
  · exact .inl ⟨hempty, by rw [hempty]; rfl⟩
  · have hne := linesOf_ne_nil .block hempty
    have honeLine : ∀ l ∈ linesOf .block fragments, OneLine l := fun l => oneLine_of_mem_linesOf
    have hbefore := endless_before_end hne honeLine fun l hl => (endless_of_mem_linesOf hl).2
    refine .inr ⟨hempty, linesOf .block fragments, hne, ?_,
      fun l hl => (endless_of_mem_linesOf hl).1, fun front back => ?_⟩
    · rw [lines_block hne honeLine, List.cons_append, List.append_assoc]
      rfl
    · have htext : text ⟨.block, linesOf .block fragments⟩ =
          "/**\n" ++ unlines (linesOf .block fragments) ++ "\n " ++ "*/" ++ "\n" := by
        rw [text_block hne]
        simp only [String.append_assoc]
        rfl
      rw [htext]
      constructor
      · exact eq_of_append_end hbefore
      · rintro ⟨rfl, rfl⟩
        rfl

end Comment

end SchemaTypes
