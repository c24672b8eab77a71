/-!
# Finding and replacing

Both functions look for the leftmost occurrence of a pattern and go on behind it, so occurrences
that overlap an earlier one do not count. They work on lists of characters; `replace`, `contains`
and `after?` are their forms on texts.
-/

namespace SchemaTypes.Text

/-- Replaces the pattern `old` in a list that starts inside or behind an occurrence: `skip` items
are still to be dropped. The empty pattern occurs before every item and at the end. -/
def replaceFrom {α : Type} [DecidableEq α] (old new : List α) : Nat → List α → List α
  | _, [] => if old = [] then new else []
  | skip + 1, _ :: rest => replaceFrom old new skip rest
  | 0, a :: rest =>
    if old = [] then
      new ++ a :: replaceFrom old new 0 rest
    else if old.isPrefixOf (a :: rest) then
      new ++ replaceFrom old new (old.length - 1) rest
    else
      a :: replaceFrom old new 0 rest

/-- What follows the first occurrence of a pattern. -/
def afterList? {α : Type} [DecidableEq α] (pattern : List α) : List α → Option (List α)
  | [] => if pattern = [] then some [] else none
  | a :: rest =>
    if pattern.isPrefixOf (a :: rest) then
      some ((a :: rest).drop pattern.length)
    else
      afterList? pattern rest

/-- A text with every occurrence of `old` replaced by `new`. -/
def replace (old new text : String) : String :=
  String.ofList (replaceFrom old.toList new.toList 0 text.toList)

/-- The text behind the first occurrence of a pattern. -/
def after? (pattern text : String) : Option String :=
  (afterList? pattern.toList text.toList).map String.ofList

/-- Whether a pattern occurs in a text. -/
def contains (pattern text : String) : Bool :=
  (afterList? pattern.toList text.toList).isSome

/-- The text behind a pattern that it starts with. -/
def afterStart? (pattern text : String) : Option String :=
  if pattern.toList.isPrefixOf text.toList then
    some (String.ofList (text.toList.drop pattern.toList.length))
  else
    none

/-- The first occurrence splits the list. -/
theorem exists_of_afterList? {α : Type} [DecidableEq α] {pattern l rest : List α}
    (h : afterList? pattern l = some rest) : ∃ front, l = front ++ pattern ++ rest := by
  induction l with
  | nil =>
    simp only [afterList?] at h
    split at h <;> simp_all
  | cons a tail ih =>
    simp only [afterList?] at h
    split at h
    · next hp =>
      obtain ⟨t, ht⟩ := List.isPrefixOf_iff_prefix.1 hp
      refine ⟨[], ?_⟩
      rw [← ht, List.drop_left] at h
      simp [← ht, ← Option.some.inj h]
    · obtain ⟨front, hf⟩ := ih h
      exact ⟨a :: front, by simp [hf]⟩

/-- A pattern that stands in a list is found. -/
theorem afterList?_isSome {α : Type} [DecidableEq α] (front pattern rest : List α) :
    (afterList? pattern (front ++ pattern ++ rest)).isSome = true := by
  induction front with
  | nil =>
    cases pattern with
    | nil => cases rest <;> simp [afterList?]
    | cons a tail => simp [afterList?, List.isPrefixOf_iff_prefix]
  | cons a front ih =>
    rw [List.cons_append, List.cons_append, afterList?]
    split
    · rfl
    · exact ih

/-- A text between two others occurs in the text of all three. -/
theorem contains_append (front pattern rest : String) :
    contains pattern (front ++ pattern ++ rest) = true := by
  unfold contains
  rw [String.toList_append, String.toList_append]
  exact afterList?_isSome front.toList pattern.toList rest.toList

end SchemaTypes.Text
