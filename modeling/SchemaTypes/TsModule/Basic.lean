import SchemaTypes.Declaration.Expansion
import SchemaTypes.TsModule.Settings

/-!
# Modules

A module declares the named schemas of a document. `pointers` finds them, `selected` says which of
them are wanted, `declarations` declares these and what they refer to, and `text` puts a header on
top.

Every wanted schema is expanded with a memo of its own. Of several declarations of one name the
first one is kept; referenced declarations come before the one that they were made for.
-/

namespace SchemaTypes

/-- What a module is generated from, with a formatter if there is one. -/
structure TsModule (φ : Type) where
  document : Json
  settings : TsModule.Settings := {}
  formatter : Option (Formatter φ) := none
  /-- The command line that the header quotes. -/
  commandLine : String := ""

namespace TsModule

/-! ## Named schemas -/

/-- The paths to the objects that hold the named schemas of a document. -/
def containers : List (List String) :=
  [["components", "schemas"], ["definitions"], ["$defs"]]

/-- The value at a path of member names. -/
def atPath (document : Json) (path : List String) : Json :=
  path.foldl Json.memberD document

/-- The names of the members of a value. -/
def memberNames : Json → List String
  | .obj members => Table.keys members
  | _ => []

/-- The named schemas of a document, with references to them. A name that several containers hold
refers to the first one. -/
def pointers (document : Json) : List (String × String) :=
  containers.foldl (fun table path =>
    (memberNames (atPath document path)).foldl (fun table name =>
      Table.putNew name (Reference.ofPath (path ++ [name])) table) table) []

/-! ## Selection -/

/-- Values that are asked for as names, but are not among the given ones. -/
def missing (names : List String) (wanted : List Json) : List Json :=
  wanted.filter fun v => !names.any (v.isText ·)

/-- The names to declare: those that are asked for, or all of them. -/
def selected (names : List String) (wanted : Json) : Except Failure (List String) :=
  if wanted.truthy then do
    let wanted ← wanted.entries
    if let some v := wanted.find? Json.isContainer then
      throw (.notKey v)
    let absent ← ((missing names wanted).mapM Json.orMisfit).mapError .notJoinable
    if absent.isEmpty then
      wanted.mapM Json.asText
    else
      throw (.missingSchemas absent)
  else
    .ok names

variable {φ : Type}

/-- The names to declare in a module. -/
def selectedNames (m : TsModule φ) : Except Failure (List String) :=
  m.settings.toDeclare >>= selected (Table.keys (pointers m.document))

/-! ## Declarations -/

/-- The expansions by which a module declares its schemas, under the setting for its formatter. -/
def expansion (m : TsModule φ) (setting : Formatter.Setting) : Declaration.Expansion φ where
  document := m.document
  options := m.settings.declarations
  formatting := m.formatter.map fun _ => setting
  formatter := m.formatter.getD fun code _ s => (.ok code, s)

/-- Adds a named schema and what it refers to, unless its name is declared already. -/
def addDeclaration (m : TsModule φ) (declared : List (String × String)) (name : String) :
    Step φ (List (String × String)) := fun f =>
  if Table.contains name declared then
    (.ok declared, f)
  else
    match Reference.target m.document (((pointers m.document).lookup name).getD "") with
    | .error e => (.error e, f)
    | .ok schema =>
      match m.settings.toFormat with
      | .error e => (.error e, f)
      | .ok setting =>
        match (m.expansion setting).run name schema { formatter := f } with
        | (.error e, s) => (.error e, s.formatter)
        | (.ok text, s) =>
          let declared := s.reported.foldl (fun table d => Table.putNew d.1 d.2 table) declared
          (.ok (Table.putNew name text declared), s.formatter)

/-- Adds several named schemas, one after the other. -/
def addDeclarations (m : TsModule φ) :
    List String → List (String × String) → Step φ (List (String × String))
  | [], declared => Step.ofExcept (.ok declared)
  | name :: rest, declared => (m.addDeclaration declared name).andThen (m.addDeclarations rest)

/-- The declarations of a module, under their names. -/
def declarations (m : TsModule φ) : Step φ (List (String × String)) :=
  match m.selectedNames with
  | .error e => Step.ofExcept (.error e)
  | .ok names => m.addDeclarations names []

/-! ## Text -/

/-- The comment at the top of a module. -/
def header (m : TsModule φ) : String :=
  if m.settings.addHeader.truthy then
    "// Generated by schema_to_ts 0.1.0" ++
      (if m.commandLine = "" then "" else " using: " ++ m.commandLine) ++
      "\n// Do not edit by hand."
  else
    ""

/-- The text of a module with a given header: one blank line stands between its parts. -/
def assemble (header : String) (declarations : List String) : String :=
  (if header = "" then "" else header ++ "\n\n") ++
    Text.join "\n" (declarations.map (· ++ "\n"))

/-- The text of a module. -/
def text (m : TsModule φ) : Step φ String :=
  m.declarations.andThen fun declared =>
    Step.ofExcept (.ok (assemble m.header (declared.map Prod.snd)))

end TsModule

end SchemaTypes
