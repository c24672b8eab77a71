import SchemaTypes.Json.Printer

/-!
# Property keys

A property is written under its bare name if the name is an identifier of ASCII letters, digits, `_`
and `$`, and in JSON quotes otherwise.
-/

namespace SchemaTypes.Expression

/-- Whether a character can start an identifier. -/
def isIdentifierStart (c : Char) : Bool :=
  c.isAlpha || c = '_' || c = '$'

/-- Whether a character can go on an identifier. -/
def isIdentifierPart (c : Char) : Bool :=
  isIdentifierStart c || c.isDigit

/-- Whether a text is an identifier. -/
def isIdentifier (name : String) : Bool :=
  match name.toList with
  | [] => false
  | c :: cs => isIdentifierStart c && cs.all isIdentifierPart

/-- A name as the key of a property. -/
def propertyKey (name : String) : String :=
  if isIdentifier name then name else Json.quote name

end SchemaTypes.Expression
