import SchemaTypes.Json.Basic

/-!
# Documentation of a schema

The members of a schema object that describe it for a reader and have no part in its type.
-/

namespace SchemaTypes

/-- A title, a description and a deprecation mark. Titles and descriptions that count as false are
the same as none. -/
structure Documentation where
  title : Json := .null
  description : Json := .null
  deprecated : Bool := false

/-- The documentation that a schema object holds. -/
def Documentation.ofSchema (schema : Json) : Documentation where
  title := (schema.memberD "title").orNull
  description := (schema.memberD "description").orNull
  deprecated := (schema.memberD "deprecated").truthy

end SchemaTypes
