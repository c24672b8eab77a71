import SchemaTypes.Json.Equality
import SchemaTypes.Table

/-!
# The memo of declarations

While declarations are written, a `Memo` keeps for every name whether its declaration is still in
progress or done, and the text once it is done. Names keep the order in which they first came up.
-/

namespace SchemaTypes.Declaration

/-- How far the declaration of a name is. -/
inductive Progress where
  | inProgress
  | done (text : String)
deriving DecidableEq, Repr

/-- The names that have come up, with the progress of their declarations. -/
structure Memo (κ : Type) where
  entries : List (κ × Progress) := []
deriving Repr

namespace Memo

variable {κ : Type} [BEq κ]

/-- Notes that the declaration of a name is in progress. -/
def start (m : Memo κ) (name : κ) : Memo κ :=
  ⟨Table.put name .inProgress m.entries⟩

/-- Notes that the declaration of a name is done. -/
def finish (m : Memo κ) (name : κ) (text : String) : Memo κ :=
  ⟨Table.put name (.done text) m.entries⟩

/-- The progress of a name, if it has come up. -/
def progress? (m : Memo κ) (name : κ) : Option Progress :=
  m.entries.lookup name

/-- Whether a name has come up. -/
def contains (m : Memo κ) (name : κ) : Bool :=
  Table.contains name m.entries

/-- The text of a name whose declaration is done. -/
def get? (m : Memo κ) (name : κ) : Option String :=
  match m.progress? name with
  | some (.done text) => some text
  | _ => none

/-- Whether the declaration of a name is in progress. -/
def isInProgress (m : Memo κ) (name : κ) : Bool :=
  match m.progress? name with
  | some .inProgress => true
  | _ => false

/-- How many names have come up. -/
def size (m : Memo κ) : Nat :=
  m.entries.length

/-- The declarations that are done, in the order in which their names came up. -/
def items (m : Memo κ) : List (κ × String) :=
  m.entries.filterMap fun e =>
    match e.2 with
    | .done text => some (e.1, text)
    | .inProgress => none

/-! ## What the operations do to the names -/

section Names

variable (m : Memo κ) (name other : κ) (text : String)

theorem contains_eq_isSome : m.contains name = (m.progress? name).isSome := rfl

theorem isInProgress_iff : m.isInProgress name = true ↔ m.progress? name = some .inProgress := by
  unfold isInProgress
  split <;> simp_all

variable [LawfulBEq κ]

@[simp] theorem progress?_start_self : (m.start name).progress? name = some .inProgress :=
  Table.lookup_put_self name Progress.inProgress m.entries

@[simp] theorem progress?_finish_self :
    (m.finish name text).progress? name = some (.done text) :=
  Table.lookup_put_self name (Progress.done text) m.entries

variable {name other}

theorem progress?_start_of_ne (h : other ≠ name) :
    (m.start name).progress? other = m.progress? other :=
  Table.lookup_put_of_ne h Progress.inProgress m.entries

theorem progress?_finish_of_ne (h : other ≠ name) :
    (m.finish name text).progress? other = m.progress? other :=
  Table.lookup_put_of_ne h (Progress.done text) m.entries

variable (name other)

/-- A name is in progress after its start, and otherwise as before. -/
theorem isInProgress_start :
    (m.start name).isInProgress other = true ↔ other = name ∨ m.isInProgress other = true := by
  rw [isInProgress_iff, isInProgress_iff]
  by_cases h : other = name
  · simp [h]
  · simp [h, progress?_start_of_ne m h]

/-- A name is not in progress after its end, and otherwise as before. -/
theorem isInProgress_finish :
    (m.finish name text).isInProgress other = true ↔
      other ≠ name ∧ m.isInProgress other = true := by
  rw [isInProgress_iff, isInProgress_iff]
  by_cases h : other = name
  · simp [h]
  · simp [h, progress?_finish_of_ne m text h]

theorem contains_start :
    (m.start name).contains other = true ↔ other = name ∨ m.contains other = true := by
  rw [contains_eq_isSome, contains_eq_isSome]
  by_cases h : other = name
  · simp [h]
  · simp [h, progress?_start_of_ne m h]

theorem contains_finish :
    (m.finish name text).contains other = true ↔ other = name ∨ m.contains other = true := by
  rw [contains_eq_isSome, contains_eq_isSome]
  by_cases h : other = name
  · simp [h]
  · simp [h, progress?_finish_of_ne m text h]

end Names

end Memo

/-- Whether a value is a text in progress. Only texts are ever looked for among the names in
progress. -/
def Memo.isTextInProgress (m : Memo Json) (name : Json) : Bool :=
  match name with
  | .str s => m.isInProgress (.str s)
  | _ => false

/-- A view of the names in progress that was taken of a memo. It keeps none of them, but looks for a
name in the memo as it is `now`, when it is asked. -/
def Memo.view (_taken : Memo Json) (name : Json) (now : Memo Json) : Bool :=
  now.isTextInProgress name

end SchemaTypes.Declaration
