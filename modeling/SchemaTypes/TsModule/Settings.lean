import SchemaTypes.Declaration.Basic

/-!
# Settings of a module

What is generated from a document, and how. The settings are read from an object, member by member;
they are kept as they were given, and they are written back as they are.

Beside the keys of settings a few keys are reserved. One of them puts the members of an object in
the place of all settings so far: two of the settings have no defaults then, and if one of these is
not among the members, it is missing. Two reserved keys refuse every value. Under another one a
value takes the place of the writer of the settings, so that these cannot be written any more. All
other keys are ignored.
-/

namespace SchemaTypes.TsModule

/-- How a module is generated from a document. -/
structure Settings where
  /-- The names of the schemas to declare; an empty list stands for all. -/
  schemas : Option Json := some (.arr [])
  deep : Json := .bool false
  exported : Json := .bool true
  defaultType : Json := .str "unknown"
  /-- Declares referenced schemas too. -/
  includeReferenced : Json := .bool true
  /-- Puts a comment at the top. -/
  addHeader : Json := .bool true
  formatter : Option Formatter.Setting := some (.options {})
  /-- A value that has taken the place of the writer of the settings. -/
  writer : Option Json := none

namespace Settings

/-! ## Reading -/

/-- The settings that an object replaces all others by. -/
def ofMembers (members : List (String × Json)) : Settings :=
  let given (key : String) := members.lookup key
  let base : Settings := {}
  { schemas := given "schemas"
    deep := (given "deep").getD base.deep
    exported := (given "export").getD base.exported
    defaultType := (given "default_type").getD base.defaultType
    includeReferenced := (given "include_referenced").getD base.includeReferenced
    addHeader := (given "add_generation_comment").getD base.addHeader
    formatter := (given "formatter").map .other
    writer := given "to_dict" }

/-- Sets the formatter. An object gives its options in any case; another value is only put in the
place of what is there. -/
def setFormatter (s : Settings) (v : Json) : Except Failure Settings := do
  match ← Formatter.Setting.ofJson v with
  | .options o => return { s with formatter := some (.options o) }
  | .other v => return { s with formatter := s.formatter.map fun _ => .other v }

/-- Sets the setting of a given key, or does what a reserved key asks for; other keys have no
effect. -/
def set (s : Settings) (key : String) (v : Json) : Except Failure Settings :=
  match key with
  | "schemas" => .ok { s with schemas := s.schemas.map fun _ => v }
  | "deep" => .ok { s with deep := v }
  | "export" => .ok { s with exported := v }
  | "default_type" => .ok { s with defaultType := v }
  | "include_referenced" => .ok { s with includeReferenced := v }
  | "add_generation_comment" => .ok { s with addHeader := v }
  | "formatter" => s.setFormatter v
  | "to_dict" => .ok { s with writer := some v }
  | "__dict__" =>
    match v with
    | .obj members => .ok (ofMembers members)
    | v => .error (.unfitSetting key v)
  | "__class__" => .error (.unfitSetting key v)
  | "__weakref__" => .error (.fixedSetting key)
  | _ => .ok s

/-- The settings that an object gives, the others having their defaults. -/
def ofJson (v : Json) : Except Failure Settings := do
  let members ← v.members
  members.foldlM (fun s m => s.set m.1 m.2) {}

/-! ## Use -/

/-- What stands for the names of the schemas to declare. -/
def toDeclare (s : Settings) : Except Failure Json :=
  s.schemas.elim (.error (.missingSetting "schemas")) .ok

/-- What stands for the options of the formatter. -/
def toFormat (s : Settings) : Except Failure Formatter.Setting :=
  s.formatter.elim (.error (.missingSetting "formatter")) .ok

/-- The options of the declarations in a module. -/
def declarations (s : Settings) : Declaration.Options where
  exported := s.exported.truthy
  deep := s.deep.truthy
  defaultType := DefaultType.ofJson s.defaultType
  listener := if s.includeReferenced.truthy then .keeper else .nobody

/-! ## Writing -/

/-- The settings as an object. -/
def toJson (s : Settings) : Except Failure Json := do
  if let some v := s.writer then
    throw (.notAction v)
  let schemas ← s.toDeclare
  let formatter ← (← s.toFormat).read
  return .obj [("schemas", schemas), ("deep", s.deep), ("export", s.exported),
    ("default_type", s.defaultType), ("include_referenced", s.includeReferenced),
    ("add_generation_comment", s.addHeader), ("formatter", formatter.toJson)]

/-- Whether settings that were written as an object are read back from it; they are compared by how
they are written. -/
def readsBack (written : Json) : Bool :=
  match ofJson written >>= toJson with
  | .ok again => again.text == written.text
  | .error _ => false

end Settings

end SchemaTypes.TsModule
