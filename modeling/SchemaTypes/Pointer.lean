import SchemaTypes.Decimal.Numeral
import SchemaTypes.Json.Basic
import SchemaTypes.Text.Lines
import SchemaTypes.Text.Search

/-!
# Pointers into a document

A pointer is a text `/token/token/…` that leads from a document to a value inside it, member by
member and index by index. Inside a token `~1` stands for `/` and `~0` for `~`; the empty pointer
leads to the document itself.

`Pointer.resolve` walks along a pointer and says where it ends, or which `Problem` stops it.
-/

namespace SchemaTypes.Pointer

/-! ## Tokens -/

/-- A token as it is written in a pointer. -/
def escape (token : String) : String :=
  Text.replace "/" "~1" (Text.replace "~" "~0" token)

/-- The token that a written token stands for. -/
def unescape (written : String) : String :=
  Text.replace "~0" "~" (Text.replace "~1" "/" written)

/-- The first tilde in a pointer that starts no escape, together with the character behind it. -/
def badEscape? : List Char → Option (List Char)
  | [] => none
  | [c] => if c = '~' then some [c] else none
  | c :: d :: rest =>
    if c = '~' ∧ d ≠ '0' ∧ d ≠ '1' then some [c, d] else badEscape? (d :: rest)

/-- The list index that a token writes: decimal digits without a leading zero. -/
def index? (token : String) : Option Nat :=
  match token.toList with
  | ['0'] => some 0
  | c :: cs =>
    if c ≠ '0' ∧ (c :: cs).all Char.isDigit then
      some (Decimal.Numeral.value (c :: cs))
    else
      none
  | [] => none

/-! ## Walking -/

/-- Where a walk stands: at a value, or behind the last item of a list. -/
inductive Place where
  | value (v : Json)
  | pastEnd

/-- What is found at a place. -/
inductive Found where
  | value (kind : Json.Kind)
  | pastEnd
deriving DecidableEq, Repr

/-- What is found at a place. -/
def Place.found : Place → Found
  | .value v => .value v.kind
  | .pastEnd => .pastEnd

/-- Why a reference leads to no schema object. -/
inductive Problem where
  /-- The reference is to another document. -/
  | notLocal
  /-- A tilde starts no escape. -/
  | badEscape (written : String)
  /-- The pointer does not start with a slash. -/
  | noSlash
  /-- An object has no such member. -/
  | noMember (token : String)
  /-- The walk would go into a text. -/
  | insideText (token : String)
  /-- A token for a list is no index. -/
  | badIndex (token : String)
  /-- A list has no such index. -/
  | indexOutOfBounds (token : String)
  /-- A list has no such index, which has more digits than an index can have. -/
  | indexTooLong (digits : Nat)
  /-- The walk would go into a value that holds no others. -/
  | noContainer (found : Found)
  /-- The walk ends at something else than an object. -/
  | notObject (found : Found)
deriving DecidableEq, Repr

/-- What is wrong with an index that a list does not have. No list is so long that it would have one
with too many digits. -/
def noItem (token : String) : Problem :=
  if token.length > Decimal.Numeral.limit then
    .indexTooLong token.length
  else
    .indexOutOfBounds token

/-- One step of a walk. -/
def step (token : String) : Place → Except Problem Place
  | .value (.obj members) =>
    match members.lookup token with
    | some v => .ok (.value v)
    | none => .error (.noMember token)
  | .value (.str _) => .error (.insideText token)
  | .value (.arr items) =>
    if token = "-" then
      .ok .pastEnd
    else
      match index? token with
      | none => .error (.badIndex token)
      | some i =>
        match items[i]? with
        | some v => .ok (.value v)
        | none => .error (noItem token)
  | place => .error (.noContainer place.found)

/-- Walks along some tokens. -/
def walk : List String → Place → Except Problem Place
  | [], place => .ok place
  | token :: rest, place => step token place >>= walk rest

/-- The place that a pointer leads to in a document. -/
def resolve (document : Json) (pointer : String) : Except Problem Place :=
  match badEscape? pointer.toList with
  | some written => .error (.badEscape (String.ofList written))
  | none =>
    match Text.fields '/' pointer.toList with
    | [] :: written => walk (written.map (unescape ∘ String.ofList)) (.value document)
    | _ => .error .noSlash

/-! ## Wording -/

/-- The name of what is found where something else is wanted. -/
def Found.name : Found → String
  | .value .null => "NoneType"
  | .value .bool => "bool"
  | .value .int => "int"
  | .value .float => "float"
  | .value .str => "str"
  | .value .arr => "list"
  | .value .obj => "dict"
  | .pastEnd => "EndOfList"

/-- The name with its home, where it is not one of the basic kinds. -/
def Found.qualifiedName : Found → String
  | .pastEnd => "jsonpointer.EndOfList"
  | found => found.name

/-- A problem in words. -/
def Problem.message : Problem → String
  | .notLocal => "only local references are supported"
  | .badEscape written => "Found invalid escape " ++ written
  | .noSlash => "Location must start with /"
  | .noMember token => "member '" ++ token ++ "' not found"
  | .insideText token =>
    "Cannot apply token '" ++ token ++ "' to non-container type <class 'str'>"
  | .badIndex token => "'" ++ token ++ "' is not a valid sequence index"
  | .indexOutOfBounds token => "index '" ++ token ++ "' is out of bounds"
  | .indexTooLong digits => "Invalid sequence index: " ++ Decimal.Numeral.tooLong digits
  | .noContainer found =>
    "Document '<class '" ++ found.qualifiedName ++
      "'>' does not support indexing, must be mapping/sequence or support __getitem__"
  | .notObject found => "target is a " ++ found.name ++ ", not a schema object"

end SchemaTypes.Pointer
