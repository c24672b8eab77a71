import SchemaTypes.Proofs.BlockComments

/-!
# Line comments

A line comment reaches as far as its line, and a line of TypeScript ends at a line feed, a carriage
return, both in a row, a line separator or a paragraph separator. Texts are cut into lines at line
feeds alone. So what a fragment holds behind another line end leaves the comment, unless two slashes
happen to stand there, or the line end is a carriage return right in front of a line feed.

`sourceLines` are the lines of code as TypeScript has them, and `Commented` says that every one of
them is a comment. A line comment is `Commented` exactly when its fragments stay on their lines.
-/

namespace SchemaTypes

namespace Comment

open Text (OneLine unlines indentLines)

/-! ## Lines of code -/

/-- Whether a line of code ends at a character. -/
def isLineEnd (c : Char) : Bool :=
  c = '\n' || c = '\r' || c = '\u2028' || c = '\u2029'

/-- The lines of some code; a carriage return and a line feed in a row are one end. -/
def sourceLines : List Char → List (List Char)
  | [] => [[]]
  | c :: rest =>
    if isLineEnd c then
      if c = '\r' ∧ rest.head? = some '\n' then sourceLines rest else [] :: sourceLines rest
    else
      match sourceLines rest with
      | [] => [[c]]
      | first :: others => (c :: first) :: others

/-- What a line comment starts with. -/
def slashes : List Char := ['/', '/']

/-- Whether each of some lines is a comment; the last one may be empty instead. -/
def Commented (ls : List (List Char)) : Prop :=
  (∀ l ∈ ls.dropLast, slashes <+: l) ∧ ∀ l ∈ ls.getLast?, l = [] ∨ slashes <+: l

/-- Whether a line stays behind the slashes in front of it: at every line end in it there are
slashes, or it is a carriage return that belongs to the end of the line itself. -/
def Staying (l : List Char) : Prop :=
  ∀ c back, c :: back <:+ l → isLineEnd c = true → (c = '\r' ∧ back = []) ∨ slashes <+: back

variable {cs rest : List Char} {c : Char}

theorem isLineEnd_of_mem_slashes : ∀ d ∈ slashes, isLineEnd d = false := by
  simp [slashes, isLineEnd]

theorem sourceLines_ne_nil (cs : List Char) : sourceLines cs ≠ [] := by
  induction cs with
  | nil => exact List.cons_ne_nil _ _
  | cons c rest ih =>
    rw [sourceLines]
    split
    · split
      · exact ih
      · exact List.cons_ne_nil _ _
    · split <;> exact List.cons_ne_nil _ _

/-- A character in the middle of a line. -/
theorem sourceLines_cons {first : List Char} {others : List (List Char)}
    (hc : isLineEnd c = false) (h : sourceLines rest = first :: others) :
    sourceLines (c :: rest) = (c :: first) :: others := by
  rw [sourceLines, if_neg (by simp [hc]), h]

/-- A line end that stands for itself. -/
theorem sourceLines_end (hc : isLineEnd c = true) (hpair : ¬ (c = '\r' ∧ rest.head? = some '\n')) :
    sourceLines (c :: rest) = [] :: sourceLines rest := by
  rw [sourceLines, if_pos hc, if_neg hpair]

/-- A carriage return in front of a line feed. -/
theorem sourceLines_pair (h : rest.head? = some '\n') :
    sourceLines ('\r' :: rest) = sourceLines rest := by
  rw [sourceLines, if_pos (by decide), if_pos ⟨rfl, h⟩]

theorem sourceLines_feed (rest : List Char) :
    sourceLines ('\n' :: rest) = [] :: sourceLines rest :=
  sourceLines_end (by decide) (by simp)

theorem commented_cons {l : List Char} {ls : List (List Char)} (hne : ls ≠ []) :
    Commented (l :: ls) ↔ slashes <+: l ∧ Commented ls := by
  obtain ⟨m, ms, rfl⟩ := List.exists_cons_of_ne_nil hne
  unfold Commented
  rw [List.dropLast_cons_cons, List.getLast?_cons_cons, List.forall_mem_cons, and_assoc]

theorem commented_append {ks ls : List (List Char)} (hne : ls ≠ []) :
    Commented (ks ++ ls) ↔ (∀ l ∈ ks, slashes <+: l) ∧ Commented ls := by
  induction ks with
  | nil => simp
  | cons k ks ih =>
    rw [List.cons_append, commented_cons (List.append_ne_nil_of_right_ne_nil ks hne), ih,
      List.forall_mem_cons, and_assoc]

theorem staying_nil : Staying [] := fun c back h => by simp at h

theorem staying_cons :
    Staying (c :: rest) ↔
      (isLineEnd c = true → (c = '\r' ∧ rest = []) ∨ slashes <+: rest) ∧ Staying rest := by
  constructor
  · exact fun h => ⟨h c rest (List.suffix_refl _),
      fun d back hback => h d back (hback.trans (List.suffix_cons c rest))⟩
  · rintro ⟨hhead, hrest⟩ d back hback
    rcases List.suffix_cons_iff.mp hback with heq | hback
    · obtain ⟨rfl, rfl⟩ := List.cons.inj heq
      exact hhead
    · exact hrest d back hback

/-- A line end in a line is no nearer with more text in front. -/
theorem staying_append {front : List Char} (h : ∀ c ∈ front, isLineEnd c = false) :
    Staying (front ++ rest) ↔ Staying rest := by
  induction front with
  | nil => rfl
  | cons c front ih =>
    obtain ⟨hc, hfront⟩ := List.forall_mem_cons.mp h
    rw [List.cons_append, staying_cons, ih hfront]
    simp [hc]

/-- A text without line ends stands in front of a line end only if it is empty. -/
theorem isPrefix_end_iff {p : List Char} (hp : ∀ d ∈ p, isLineEnd d = false)
    (hc : isLineEnd c = true) : p <+: c :: rest ↔ p <+: [] := by
  cases p with
  | nil => simp
  | cons d p =>
    have hne : d ≠ c := fun hd => by simp [← hd, hp d] at hc
    simp [List.cons_prefix_cons, hne]

/-! ## Lines of a comment -/

/-- What a line without line feeds gives, in front of a line feed: one line that starts as it does,
and one more behind each line end in it. -/
theorem sourceLines_append_feed {x : List Char} (hx : '\n' ∉ x) (y : List Char) :
    ∃ first others, sourceLines (x ++ '\n' :: y) = first :: (others ++ sourceLines y) ∧
      (∀ p : List Char, (∀ d ∈ p, isLineEnd d = false) → (p <+: first ↔ p <+: x)) ∧
      ((∀ l ∈ others, slashes <+: l) ↔ Staying x) := by
  induction x with
  | nil =>
    exact ⟨[], [], sourceLines_feed y, fun p _ => Iff.rfl, by simp [staying_nil]⟩
  | cons c x ih =>
    obtain ⟨hc, hx⟩ := not_or.mp (mt List.mem_cons.mpr hx)
    obtain ⟨first, others, hlines, hfirst, hothers⟩ := ih hx
    by_cases hend : isLineEnd c = true
    · have hstart : ∀ p : List Char, (∀ d ∈ p, isLineEnd d = false) → (p <+: [] ↔ p <+: c :: x) :=
        fun p hp => (isPrefix_end_iff hp hend).symm
      have hhead : (x ++ '\n' :: y).head? = some '\n' ↔ x = [] := by
        cases x with
        | nil => simp
        | cons d x => simp [Ne.symm (List.ne_of_not_mem_cons hx)]
      by_cases hpair : c = '\r' ∧ x = []
      · -- the end of the line is a carriage return and a line feed
        obtain ⟨rfl, rfl⟩ := hpair
        refine ⟨[], [], ?_, hstart, by simp [staying_cons, staying_nil]⟩
        rw [List.cons_append, sourceLines_pair (hhead.mpr rfl)]
        exact sourceLines_feed y
      · refine ⟨[], first :: others, ?_, hstart, ?_⟩
        · rw [List.cons_append, sourceLines_end hend (by rwa [hhead]), hlines]
          rfl
        · rw [List.forall_mem_cons, hfirst slashes isLineEnd_of_mem_slashes, hothers, staying_cons]
          simp [hend, hpair]
    · have hend : isLineEnd c = false := by simpa using hend
      refine ⟨c :: first, others, sourceLines_cons hend hlines, fun p hp => ?_, ?_⟩
      · cases p with
        | nil => simp
        | cons d p =>
          rw [List.cons_prefix_cons, List.cons_prefix_cons,
            hfirst p (List.forall_mem_cons.mp hp).2]
      · rw [hothers, staying_cons]
        simp [hend]

/-- Lines that are ended by line feeds are comments if each of them is one and stays one. -/
theorem commented_sourceLines_iff {ls : List String} (honeLine : ∀ l ∈ ls, OneLine l) :
    Commented (sourceLines (ls.flatMap fun l => l.toList ++ ['\n'])) ↔
      ∀ l ∈ ls, slashes <+: l.toList ∧ Staying l.toList := by
  induction ls with
  | nil => simp [Commented, sourceLines]
  | cons l ls ih =>
    obtain ⟨hl, hls⟩ := List.forall_mem_cons.mp honeLine
    obtain ⟨first, others, hlines, hfirst, hothers⟩ :=
      sourceLines_append_feed hl (ls.flatMap fun l => l.toList ++ ['\n'])
    have hne := sourceLines_ne_nil (ls.flatMap fun l => l.toList ++ ['\n'])
    rw [List.flatMap_cons, List.append_assoc, List.singleton_append, hlines,
      commented_cons (List.append_ne_nil_of_right_ne_nil others hne), commented_append hne,
      hfirst slashes isLineEnd_of_mem_slashes, hothers, ih hls, List.forall_mem_cons, and_assoc]

/-- A line comment, as a text: each line has a line feed behind it. -/
theorem toList_text_line (ls : List String) :
    (text ⟨.line, ls⟩).toList = ls.flatMap fun l => l.toList ++ ['\n'] := by
  cases ls with
  | nil => rfl
  | cons l ls =>
    change (unlines (l :: ls) ++ "\n").toList = _
    induction ls generalizing l with
    | nil => simp [unlines, Text.join]
    | cons m ls ih =>
      rw [Text.unlines_cons l (List.cons_ne_nil _ _), String.append_assoc, String.toList_append,
        ih, List.flatMap_cons, String.toList_append]
      rfl

/-- The lines of a line comment are those of its fragments behind two slashes, and an empty one. It
holds all of its text, as TypeScript has lines, exactly if the lines of its fragments stay behind
the slashes. -/
theorem ofFragments_line_commented_iff (fragments : List String) :
    Text.lines (ofFragments .line fragments).text =
        (fragments.flatMap Text.lines).map ("// " ++ ·) ++ [""] ∧
      (Commented (sourceLines (ofFragments .line fragments).text.toList) ↔
        ∀ f ∈ fragments, ∀ l ∈ Text.lines f, Staying l.toList) := by
  have honeLine : ∀ l ∈ linesOf .line fragments, OneLine l := fun l => oneLine_of_mem_linesOf
  have hlead : ∀ l : String,
      (slashes <+: ("// " ++ l).toList ∧ Staying ("// " ++ l).toList) ↔ Staying l.toList := by
    intro l
    have hinner : ∀ c ∈ "// ".toList, isLineEnd c = false := by simp [isLineEnd]
    rw [String.toList_append, staying_append hinner]
    exact and_iff_right ⟨' ' :: l.toList, rfl⟩
  have hlines : linesOf .line fragments = (fragments.flatMap Text.lines).map ("// " ++ ·) :=
    linesOf_eq_map .line fragments
  rw [ofFragments_eq]
  refine ⟨by rw [lines_line honeLine, hlines], ?_⟩
  rw [toList_text_line, commented_sourceLines_iff honeLine, hlines]
  simp only [List.forall_mem_map, hlead, List.forall_mem_flatMap]

/-- A carriage return takes the text behind it out of the comment. -/
theorem ofFragments_line_carriage_return :
    (ofFragments .line ["a\rb"]).text = "// a\rb\n" ∧
      sourceLines (ofFragments .line ["a\rb"]).text.toList = ["// a".toList, ['b'], []] ∧
      ¬ Commented (sourceLines (ofFragments .line ["a\rb"]).text.toList) := by
  refine ⟨rfl, by decide, ?_⟩
  unfold Commented
  decide

end Comment

end SchemaTypes
