import SchemaTypes.Reference
import SchemaTypes.Table

/-!
# Targets of references in a changing document

While a document changes, the target of a reference is kept as it was when the reference was first
resolved; failures are not kept. Only the reference to the whole document always leads to the
document as it is. References that are written differently are different references.
-/

namespace SchemaTypes.Reference

/-- A document with the targets of references that were resolved before. -/
structure Snapshots where
  document : Json
  taken : List (String × Json) := []

namespace Snapshots

/-- A document of which no reference was resolved yet. -/
def ofDocument (document : Json) : Snapshots := { document }

/-- The reference to the whole document. -/
def whole : String := "#"

/-- The target of a reference, kept or resolved. -/
def resolveText (s : Snapshots) (reference : String) : Except Failure Json × Snapshots :=
  match s.taken.lookup reference with
  | some v => (.ok v, s)
  | none =>
    match target s.document reference with
    | .error e => (.error e, s)
    | .ok v =>
      (.ok v, if reference = whole then s else { s with taken := s.taken ++ [(reference, v)] })

/-- The target of the value of a `$ref` member. -/
def resolve (s : Snapshots) (value : Json) : Except Failure Json × Snapshots :=
  if value.isContainer then
    (.error (.notKey value), s)
  else
    match value.asText with
    | .error e => (.error e, s)
    | .ok reference => s.resolveText reference

/-- Sets a top-level member of the document. -/
def setMember (s : Snapshots) (key : String) (v : Json) : Snapshots :=
  match s.document with
  | .obj members => { s with document := .obj (Table.put key v members) }
  | _ => s

end Snapshots

end SchemaTypes.Reference
