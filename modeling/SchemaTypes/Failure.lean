import SchemaTypes.Json.Display
import SchemaTypes.Pointer

/-!
# Failures

Everything that can go wrong, by its cause. A value of the wrong kind is no failure in itself: it
becomes one where the value is used, and the constructors say for what use it was unfit.
`Failure.message` has the wording.
-/

namespace SchemaTypes

/-- Why something could not be done. -/
inductive Failure where
  /-- A reference leads to no schema object. -/
  | unresolvable (reference : String) (problem : Pointer.Problem)
  /-- A formatted text does not contain the alias whose body is wanted. -/
  | noAliasBody (text : String)
  /-- The type for unrecognised schemas is none of the two that are allowed. -/
  | badDefaultType (given : Json)
  /-- There is no such style of comments. -/
  | badCommentStyle (given : Json)
  /-- There is no formatter of this name. -/
  | unknownFormatter (name : Json)
  /-- Schemas were asked for that the document does not name. -/
  | missingSchemas (names : List String)
  /-- A text is taken apart or searched, and the value is none. -/
  | notText (given : Json)
  /-- Members are wanted of a value that is no object, or options of a value that holds none. -/
  | notObject (given : Json)
  /-- A sequence is wanted of a value that stands for none. -/
  | notSequence (given : Json)
  /-- A list or an object cannot be a key. -/
  | notKey (given : Json)
  /-- A value that is no text is to be joined with one. -/
  | notJoinable (given : Json)
  /-- A formatter is to be run with a value that holds no options. -/
  | notOptions (given : Json)
  /-- Something is to be done by a value, which can do nothing. -/
  | notAction (given : Json)
  /-- There is no setting of this name. -/
  | unknownSetting (key : String)
  /-- A setting is wanted that was taken away. -/
  | missingSetting (key : String)
  /-- The setting of this name cannot be changed. -/
  | fixedSetting (key : String)
  /-- The setting of this name cannot have this value. -/
  | unfitSetting (key : String) (given : Json)
  /-- A file is to be opened, but its path was not given. -/
  | noPath
  /-- A text is not JSON. -/
  | malformedJson
  /-- A text is JSON, but for an integer with more digits than are read. -/
  | tooManyDigits (count : Nat)
  /-- The bytes of a file are no text. -/
  | notDecodable
  /-- A text holds half of a surrogate pair, which no bytes encode. -/
  | notEncodable
  /-- A file, a directory on the way to it, or a program is missing. -/
  | missingFile (path : String)
  /-- The path to be opened is a directory. -/
  | isDirectory (path : String)
  /-- A file stands on the way to the path to be opened. -/
  | notDirectory (path : String)
  /-- A path, or a step of it, is longer than paths and steps can be. -/
  | pathTooLong (path : String)
  /-- A path to be opened holds the null character, which no path can hold. -/
  | nullInPath
  /-- The right to do it is missing. -/
  | notPermitted
  /-- A recursion went deeper than its bound. -/
  | boundExceeded

/-- A failure in words. -/
def Failure.message : Failure → String
  | .unresolvable reference problem =>
    "Cannot resolve $ref '" ++ reference ++ "': " ++ problem.message
  | .noAliasBody text =>
    "Formatter output does not contain a 'type Ts = ' body: " ++ Text.quoted text
  | .badDefaultType given =>
    "default_type must be one of ('unknown', 'any'), got " ++ given.shown
  | .badCommentStyle given => given.shown ++ " is not a valid CommentStyle"
  | .unknownFormatter name => "Unknown formatter: " ++ name.display
  | .missingSchemas names => "Schemas not found in document: " ++ Text.join ", " names
  | .notText given => "not a text: " ++ given.shown
  | .notObject given => "not an object: " ++ given.shown
  | .notSequence given => "not a sequence: " ++ given.shown
  | .notKey given => "not usable as a key: " ++ given.shown
  | .notJoinable given => "not to be joined with a text: " ++ given.shown
  | .notOptions given => "not formatter options: " ++ given.shown
  | .notAction given => "not able to do anything: " ++ given.shown
  | .unknownSetting key => "unknown setting: " ++ key
  | .missingSetting key => "missing setting: " ++ key
  | .fixedSetting key => "setting that cannot be changed: " ++ key
  | .unfitSetting key given => "not a value of the setting " ++ key ++ ": " ++ given.shown
  | .noPath => "no path given"
  | .malformedJson => "malformed JSON"
  | .tooManyDigits count => Decimal.Numeral.tooLong count
  | .notDecodable => "not UTF-8"
  | .notEncodable => "surrogates not allowed"
  | .missingFile path => "no such file: " ++ path
  | .isDirectory path => "is a directory: " ++ path
  | .notDirectory path => "not a directory on the way: " ++ path
  | .pathTooLong path => "path too long: " ++ path
  | .nullInPath => "embedded null byte"
  | .notPermitted => "permission denied"
  | .boundExceeded => "recursion bound exceeded"

/-- A value of the kind that is wanted, or else the one that was given in its place. -/
abbrev OrMisfit (α : Type) := Except Json α

namespace Json

/-- The text that a value is, or else a failure to use it as one. -/
def asText : Json → Except Failure String
  | str s => .ok s
  | v => .error (.notText v)

/-- A value where a text is wanted that is joined with others. -/
def orMisfit : Json → OrMisfit String
  | str s => .ok s
  | v => .error v

/-- The sequence that a value stands for. -/
def entries (v : Json) : Except Failure (List Json) :=
  match v.entries? with
  | some vs => .ok vs
  | none => .error (.notSequence v)

/-- The members of an object. -/
def members : Json → Except Failure (List (String × Json))
  | obj ms => .ok ms
  | v => .error (.notObject v)

end Json

end SchemaTypes
