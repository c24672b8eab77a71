/-!
# Lines of text

A text is split at line feeds and at nothing else, so a text with `n` line feeds has `n + 1` lines
and is their join. `indentLines` puts a margin in front of every line, `hang` in front of every
line but the first.
-/

namespace SchemaTypes.Text

/-- The stretches of a list between the occurrences of a separator. -/
def fields {α : Type} [DecidableEq α] (sep : α) : List α → List (List α)
  | [] => [[]]
  | a :: rest =>
    if a = sep then
      [] :: fields sep rest
    else
      match fields sep rest with
      | [] => [[a]]
      | first :: others => (a :: first) :: others

/-- The lines of a text. -/
def lines (text : String) : List String :=
  (fields '\n' text.toList).map String.ofList

/-- Joins texts with a separator between any two of them. -/
def join (sep : String) : List String → String
  | [] => ""
  | [t] => t
  | t :: rest => t ++ sep ++ join sep rest

/-- One text of lines. -/
def unlines (ls : List String) : String :=
  join "\n" ls

/-- The lines of a text, each behind a margin. -/
def indentLines (margin text : String) : List String :=
  (lines text).map (margin ++ ·)

/-- A text with a margin before each of its lines but the first. -/
def hang (margin text : String) : String :=
  match lines text with
  | [] => ""
  | first :: others => unlines (first :: others.map (margin ++ ·))

/-! ## Splitting and joining -/

theorem join_cons_cons (sep t t' : String) (rest : List String) :
    join sep (t :: t' :: rest) = t ++ sep ++ join sep (t' :: rest) := rfl

theorem fields_ne_nil {α : Type} [DecidableEq α] (sep : α) (l : List α) :
    fields sep l ≠ [] := by
  cases l with
  | nil => simp [fields]
  | cons a rest =>
    unfold fields
    split
    · simp
    · split <;> simp

/-- Nothing but the separators is lost. -/
theorem intercalate_fields {α : Type} [DecidableEq α] (sep : α) (l : List α) :
    List.intercalate [sep] (fields sep l) = l := by
  induction l with
  | nil => rfl
  | cons a rest ih =>
    have hne := fields_ne_nil sep rest
    unfold fields
    split
    · next h =>
      cases hs : fields sep rest with
      | nil => exact absurd hs hne
      | cons first others =>
        rw [hs] at ih
        simp [List.intercalate, List.intersperse] at ih ⊢
        simp [h, ih]
    · cases hs : fields sep rest with
      | nil => exact absurd hs hne
      | cons first others =>
        rw [hs] at ih
        cases others with
        | nil => simpa [List.intercalate] using ih
        | cons second more => simpa [List.intercalate, List.intersperse] using ih

/-- No stretch holds a separator. -/
theorem not_mem_of_mem_fields {α : Type} [DecidableEq α] (sep : α) (l part : List α)
    (h : part ∈ fields sep l) : sep ∉ part := by
  induction l generalizing part with
  | nil => simp_all [fields]
  | cons a rest ih =>
    unfold fields at h
    split at h
    · rcases List.mem_cons.1 h with rfl | h
      · simp
      · exact ih part h
    · next hne =>
      cases hs : fields sep rest with
      | nil => exact absurd hs (fields_ne_nil sep rest)
      | cons first others =>
        rw [hs] at h ih
        rcases List.mem_cons.1 h with rfl | h
        · have hf := ih first (by simp)
          simp [hf, Ne.symm hne]
        · exact ih part (by simp [h])

theorem fields_of_not_mem {α : Type} [DecidableEq α] {sep : α} {l : List α} (h : sep ∉ l) :
    fields sep l = [l] := by
  induction l with
  | nil => rfl
  | cons a l ih =>
    rw [List.mem_cons, not_or] at h
    simp only [fields, if_neg (Ne.symm h.1), ih h.2]

/-- Every separator is a cut. -/
theorem fields_append_cons {α : Type} [DecidableEq α] (sep : α) (front back : List α) :
    fields sep (front ++ sep :: back) = fields sep front ++ fields sep back := by
  induction front with
  | nil => simp [fields]
  | cons a front ih =>
    simp only [List.cons_append, fields, ih]
    split
    · rfl
    · cases hs : fields sep front with
      | nil => exact absurd hs (fields_ne_nil sep front)
      | cons first others => rfl

end SchemaTypes.Text
