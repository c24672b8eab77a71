import SchemaTypes.Comment

/-!
# Settings of a type expression

How one schema is written as a type. Settings come from outside with values of any kind. Some are
checked when they are read; of the others a value of the wrong kind is kept, and it is a failure
only if the setting is used.
-/

namespace SchemaTypes

/-- The type that is written for a schema that is not recognised. -/
inductive DefaultType where
  | unknown
  | any
deriving DecidableEq, Repr

namespace DefaultType

/-- The name of the type. -/
def name : DefaultType → String
  | unknown => "unknown"
  | any => "any"

/-- The type of a given name. -/
def ofJson : Json → OrMisfit DefaultType
  | .str "unknown" => .ok unknown
  | .str "any" => .ok any
  | v => .error v

/-- A type that is to be used. -/
def check (type : OrMisfit DefaultType) : Except Failure DefaultType :=
  type.mapError .badDefaultType

end DefaultType

namespace Expression

/-- How a schema is written as a type expression. -/
structure Settings where
  /-- Inlines referenced schemas instead of naming them. -/
  deep : Bool := true
  defaultType : DefaultType := .unknown
  /-- The style of the comments above properties. -/
  style : OrMisfit Comment.Style := .ok .line
  /-- What is put in front of every line but the first. -/
  preText : OrMisfit String := .ok ""
  /-- One level of indentation inside records and tuples. -/
  indent : OrMisfit String := .ok "  "

namespace Settings

/-- The keys of settings. One more is the place of somebody who watches the references that are met:
it has no effect, since whoever carries out a rendering is its watcher, and where there is such a
`watched` rendering it is refused as a second one. -/
def keys (watched : Bool) : List String :=
  ["deep", "default_type", "comment_style", "pre_text", "indent"] ++
    if watched then [] else ["on_ref"]

/-- The style of comments that a value gives. A text has to name one at once. -/
def styleOfJson (v : Json) : Except Failure (OrMisfit Comment.Style) :=
  match v with
  | .str _ => Except.ok <$> Comment.Style.check (Comment.Style.ofJson v)
  | v => .ok (Comment.Style.ofJson v)

/-- The settings that some members give. -/
def ofMembers (watched : Bool) (members : List (String × Json)) : Except Failure Settings := do
  if let some m := members.find? fun m => !(keys watched).contains m.1 then
    throw (.unknownSetting m.1)
  let given (key : String) := members.lookup key
  let base : Settings := {}
  let style ← match given "comment_style" with
    | some v => styleOfJson v
    | none => pure base.style
  let defaultType ← match given "default_type" with
    | some v => DefaultType.check (DefaultType.ofJson v)
    | none => pure base.defaultType
  return {
    deep := (given "deep").elim base.deep Json.truthy
    defaultType
    style
    preText := (given "pre_text").elim base.preText Json.orMisfit
    indent := (given "indent").elim base.indent Json.orMisfit }

end Settings

end Expression

end SchemaTypes
