import SchemaTypes.Expression.Links
import SchemaTypes.Reference.Snapshots
import SchemaTypes.Step

/-!
# Libraries of targets

The targets of references and their trees are kept once they were looked up; failures are not kept.
A `Library` holds them, and `Library.follow` follows a chain of references with it.
-/

namespace SchemaTypes.Expression

open Schema (Node)

/-- The targets of references that were resolved before, and the trees of those that were read. -/
structure Library where
  targets : Reference.Snapshots
  nodes : List (String × Node) := []

namespace Library

/-- A library of a document in which nothing was looked up yet. -/
def ofDocument (document : Json) : Library := { targets := .ofDocument document }

/-- The tree of the target of a reference, kept or read. A target is kept even if it is no
schema. -/
def lookUpText (reference : String) : Step Library Node := fun l =>
  match l.nodes.lookup reference with
  | some node => (.ok node, l)
  | none =>
    let (schema, targets) := l.targets.resolveText reference
    match schema >>= fun v => Node.ofJson v reference with
    | .ok node => (.ok node, { targets, nodes := l.nodes ++ [(reference, node)] })
    | .error e => (.error e, { l with targets })

/-- The tree of the target of the value of a `$ref` member. -/
def lookUp (target : Json) : Step Library Node :=
  if target.isContainer then
    Step.ofExcept (.error (.notKey target))
  else
    match target.asText with
    | .error e => Step.ofExcept (.error e)
    | .ok reference => lookUpText reference

/-- Follows a chain of references with a library, apart from those `seen` before. -/
def follow : Nat → List String → Node → Step Library Node
  | bound, seen, .reference info target =>
    if target.isContainer then
      Step.ofExcept (.error (.notKey target))
    else
      match target.asText with
      | .error e => Step.ofExcept (.error e)
      | .ok reference =>
        if reference ∈ seen then
          Step.ofExcept (.ok (.reference info target))
        else
          match bound with
          | 0 => Step.ofExcept (.error .boundExceeded)
          | bound + 1 => (lookUpText reference).andThen (follow bound (reference :: seen))
  | _, _, node => Step.ofExcept (.ok node)

/-- A library of a document after some values were looked up, with success or not. -/
def after (document : Json) (earlier : List Json) : Library :=
  earlier.foldl (fun l target => (lookUp target l).2) (ofDocument document)

end Library

end SchemaTypes.Expression
