import SchemaTypes.Declaration.Basic
import SchemaTypes.Declaration.Memo
import SchemaTypes.Formatter.Basic

/-!
# Expansion of references into declarations

Writing a declaration meets references. An expansion declares the target of each of them as well,
before it goes on, and reports every declaration it has got: a reference that is already declared is
reported again from the memo, one whose declaration is in progress is left alone, since it must come
from inside that declaration. So mutual references come to an end, and every name is declared once.

If nobody listens to the reports, no referenced declaration is made.
-/

namespace SchemaTypes.Declaration

/-- What stays the same during an expansion. -/
structure Expansion (φ : Type) where
  document : Json
  options : Options := {}
  /-- The options for the formatter, if there is a formatter. -/
  formatting : Option Formatter.Setting := none
  formatter : Formatter φ

namespace Expansion

/-- What changes during an expansion. -/
structure State (φ : Type) where
  memo : Memo String := {}
  /-- The declarations reported so far, in order. -/
  reported : List (String × String) := []
  formatter : φ

namespace State

variable {φ : Type}

/-- Notes that a declaration is in progress. -/
def start (s : State φ) (name : String) : State φ :=
  { s with memo := s.memo.start name }

/-- Notes that a declaration is in progress, unless its name has come up before. -/
def enter (s : State φ) (name : String) : State φ :=
  if s.memo.contains name then s else s.start name

/-- Notes that a declaration is done. -/
def finish (s : State φ) (name text : String) : State φ :=
  { s with memo := s.memo.finish name text }

/-- Reports a declaration. -/
def report (s : State φ) (name text : String) : State φ :=
  { s with reported := s.reported ++ [(name, text)] }

end State

variable {φ : Type}

/-- Tells the listener of a declaration. -/
def tell (x : Expansion φ) (name text : String) : Step (State φ) Unit := fun s =>
  match x.options.listener with
  | .nobody => (.ok (), s)
  | .somebody answer => (answer s.reported (name, text), s.report name text)
  | .deaf v => (.error (.notAction v), s)

/-- Declares the target of a reference that has not come up before, by `nested`, and reports it. -/
def declareTarget (x : Expansion φ) (nested : String → Json → Step (State φ) String)
    (reference : Json) (name : String) : Step (State φ) Unit := fun s =>
  let s := s.start name
  match Reference.targetOf x.document reference with
  | .error e => (.error e, s)
  | .ok schema =>
    match nested name schema s with
    | (.ok text, s) => x.tell name text s
    | (.error e, s) => (.error e, s)

/-- Takes note of a reference, declaring targets with `nested`. -/
def meet (x : Expansion φ) (nested : String → Json → Step (State φ) String) (reference : Json) :
    Step (State φ) Unit := fun s =>
  if x.options.listener.isPresent then
    match Reference.displayNameOf reference with
    | .error e => (.error e, s)
    | .ok name =>
      match s.memo.progress? name with
      | some (.done text) => x.tell name text s
      | some .inProgress => (.ok (), s)
      | none => x.declareTarget nested reference name s
  else
    (.ok (), s)

/-- The host of the renderings in an expansion. The names under way are those that the memo has in
progress at the moment of asking. -/
def host (x : Expansion φ) (nested : String → Json → Step (State φ) String) : Host (State φ) where
  meet := x.meet nested
  underWay := fun name s => s.memo.isInProgress name
  format := fun code options =>
    Step.on State.formatter (fun f s => { s with formatter := f }) (x.formatter code options)

/-- Declares a schema under a name, declaring targets with `nested`. -/
def declareWith (x : Expansion φ) (nested : String → Json → Step (State φ) String) (name : String)
    (schema : Json) : Step (State φ) String := fun s =>
  let rendering := ofSchema x.document x.options x.formatting name schema
  match rendering.run (x.host nested) (s.enter name) with
  | (.ok text, s) => (.ok text, s.finish name text)
  | (.error e, s) => (.error e, s)

/-- Declares a schema under a name. Declarations are nested less than `bound` deep. -/
def declare (x : Expansion φ) : Nat → String → Json → Step (State φ) String
  | 0, _, _ => Step.ofExcept (.error .boundExceeded)
  | bound + 1, name, schema => x.declareWith (x.declare bound) name schema

/-- Declares a schema under a name, and the targets of all references that are met. -/
def run (x : Expansion φ) (name : String) (schema : Json) : Step (State φ) String :=
  x.declare (Expression.nestingBound x.document schema) name schema

end Expansion

end SchemaTypes.Declaration
