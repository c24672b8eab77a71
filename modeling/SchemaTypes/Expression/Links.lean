import SchemaTypes.Reference
import SchemaTypes.Schema.Reading

/-!
# Following references

A reference may lead to another reference, and so on. `follow` goes along such a chain up to the
first node that is none, or up to a reference that was followed before: chains may run in circles.

Every link of a chain is a `$ref` of the document, so the number of these bounds its length.
-/

namespace SchemaTypes

mutual

/-- The texts of all `$ref` members in a value, at any depth. -/
def Json.references : Json → List String
  | .arr items => itemReferences items
  | .obj members => memberReferences members
  | _ => []

/-- The texts of all `$ref` members in some values. -/
def Json.itemReferences : List Json → List String
  | [] => []
  | v :: rest => v.references ++ itemReferences rest

/-- The texts of all `$ref` members among some members and inside of them. -/
def Json.memberReferences : List (String × Json) → List String
  | [] => []
  | (key, v) :: rest =>
    (match key, v with
      | "$ref", .str reference => [reference]
      | _, _ => []) ++ v.references ++ memberReferences rest

end

namespace Expression

/-- The schema tree of the target of a reference. -/
def targetNode (document target : Json) : Except Failure Schema.Node := do
  let reference ← target.asText
  let schema ← Reference.target document reference
  Schema.Node.ofJson schema reference

/-- Follows a chain of references, apart from those `seen` before. `bound` limits its length. -/
def follow (document : Json) : Nat → List String → Schema.Node → Except Failure Schema.Node
  | bound, seen, .reference info target =>
    if target.isContainer then
      .error (.notKey target)
    else do
      let reference ← target.asText
      if reference ∈ seen then
        return .reference info target
      match bound with
      | 0 => .error .boundExceeded
      | bound + 1 =>
        let node ← targetNode document target
        follow document bound (reference :: seen) node
  | _, _, node => .ok node

/-- The number of different `$ref` texts in a document, and one more for the first link. -/
def linkBound (document : Json) : Nat :=
  document.references.eraseDups.length + 1

/-- The node that a node describes: itself, unless it is a reference. -/
def described (document : Json) (node : Schema.Node) : Except Failure Schema.Node :=
  match node with
  | .reference _ _ => follow document (linkBound document) [] node
  | _ => .ok node

end Expression

end SchemaTypes
