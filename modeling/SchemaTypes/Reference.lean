import SchemaTypes.Failure
import SchemaTypes.Text.Percent

/-!
# References

A schema refers to another one by `#` and a percent-encoded pointer into the same document. What a
reference is called and what it leads to are separate questions: the display name is read off the
last segment of the text alone, the target needs the document.
-/

namespace SchemaTypes.Reference

/-- The last of the stretches that slashes cut a text into. -/
def lastSegment (reference : String) : String :=
  String.ofList ((Text.fields '/' reference.toList).getLastD [])

/-- The name under which the target of a reference is known: the last segment of the pointer,
decoded. -/
def displayName (reference : String) : String :=
  Pointer.unescape (Text.percentDecode (lastSegment reference))

/-- The schema object that a reference leads to in a document. -/
def target (document : Json) (reference : String) : Except Failure Json :=
  match Text.afterStart? "#" reference with
  | none => .error (.unresolvable reference .notLocal)
  | some encoded =>
    match Pointer.resolve document (Text.percentDecode encoded) with
    | .error problem => .error (.unresolvable reference problem)
    | .ok (.value (.obj members)) => .ok (.obj members)
    | .ok place => .error (.unresolvable reference (.notObject place.found))

/-! ## References as they stand in a document -/

/-- The display name of the value of a `$ref` member. -/
def displayNameOf (value : Json) : Except Failure String :=
  value.asText.map displayName

/-- The target of the value of a `$ref` member. -/
def targetOf (document value : Json) : Except Failure Json :=
  value.asText >>= target document

/-- A reference within the same document, to a path of member names. -/
def ofPath (path : List String) : String :=
  "#" ++ String.join (path.map fun token => "/" ++ Pointer.escape token)

end SchemaTypes.Reference
