import SchemaTypes.Failure

/-!
# Steps that may fail

A step works on a state and ends with a value or a failure. Either way the state stays as the step
left it: what was done before a failure is not undone.
-/

namespace SchemaTypes

/-- A step on a state of type `σ` with a result of type `α`. -/
abbrev Step (σ α : Type) := σ → Except Failure α × σ

namespace Step

variable {σ τ α β : Type}

/-- A step that only gives a result. -/
def ofExcept (result : Except Failure α) : Step σ α :=
  fun s => (result, s)

/-- One step after another, unless the first one fails. -/
def andThen (first : Step σ α) (next : α → Step σ β) : Step σ β := fun s =>
  match first s with
  | (.ok a, s) => next a s
  | (.error e, s) => (.error e, s)

/-- A step on a part of a state. -/
def on (get : σ → τ) (set : τ → σ → σ) (step : Step τ α) : Step σ α := fun s =>
  let (result, t) := step (get s)
  (result, set t s)

end Step

end SchemaTypes
