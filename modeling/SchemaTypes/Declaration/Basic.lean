import SchemaTypes.Expression.Formatted

/-!
# Declarations

A schema under a name is declared as an interface if it is a record, and as an alias of its type
expression otherwise. Comments in declarations are in the block style.
-/

namespace SchemaTypes

namespace Declaration

/-- Who hears of the declarations of referenced schemas. -/
inductive Listener where
  /-- Nobody; then no referenced schema is declared. -/
  | nobody
  /-- Somebody who answers every report, maybe with a failure, by this one and those before. -/
  | somebody (answer : List (String × String) → String × String → Except Failure Unit)
  /-- A value in the place of a listener, to which nothing can be reported. -/
  | deaf (v : Json)

namespace Listener

/-- The listener that works on a state of its own whenever something is reported. -/
def ofStep {σ : Type} (hear : String × String → Step σ Unit) (start : σ) : Listener :=
  somebody fun reported report =>
    (hear report (reported.foldl (fun s earlier => (hear earlier s).2) start)).1

/-- The listener who only takes note of reports. -/
def keeper : Listener :=
  ofStep (fun _ => Step.ofExcept (.ok ())) ()

/-- Whether there is anything in the place of a listener. -/
def isPresent : Listener → Bool
  | nobody => false
  | somebody _ | deaf _ => true

/-- What a listener answers to a report, after some others. -/
def answer : Listener → List (String × String) → String × String → Except Failure Unit
  | nobody, _, _ => .ok ()
  | somebody answer, reported, report => answer reported report
  | deaf v, _, _ => .error (.notAction v)

/-- The listener that a value stands for. -/
def ofJson : Json → Listener
  | .null => nobody
  | v => deaf v

end Listener

/-- How declarations are written. -/
structure Options where
  /-- Exports declarations. -/
  exported : Bool := false
  /-- Inlines referenced schemas instead of naming them. -/
  deep : Bool := false
  /-- The type of schemas that are not recognised. -/
  defaultType : OrMisfit DefaultType := .ok .unknown
  /-- Hears of the declarations of referenced schemas, where these are made. -/
  listener : Listener := .nobody

namespace Options

/-- The keys of options. -/
def keys : List String := ["export", "deep", "default_type", "on_ref_declaration"]

/-- The options that some members give. -/
def ofMembers (members : List (String × Json)) : Except Failure Options := do
  if let some m := members.find? fun m => !keys.contains m.1 then
    throw (.unknownSetting m.1)
  let given (key : String) := members.lookup key
  let base : Options := {}
  return {
    exported := (given "export").elim base.exported Json.truthy
    deep := (given "deep").elim base.deep Json.truthy
    defaultType := (given "default_type").elim base.defaultType DefaultType.ofJson
    listener := (given "on_ref_declaration").elim base.listener Listener.ofJson }

end Options

/-- The declaration of a type expression under a name. -/
def ofExpression (name expression : String) (exported isInterface : Bool) : String :=
  let body :=
    if isInterface then "interface " ++ name ++ " " ++ expression
    else "type " ++ name ++ " = " ++ expression
  if exported then "export " ++ body else body

/-- The settings of the type expressions in declarations. -/
def settings (options : Options) (defaultType : DefaultType) : Expression.Settings where
  deep := options.deep
  defaultType := defaultType
  style := .ok .block

/-- The declaration of a schema under a name. -/
def ofSchema (document : Json) (options : Options) (formatting : Option Formatter.Setting)
    (name : String) (schema : Json) : Rendering String := do
  let defaultType ← DefaultType.check options.defaultType
  let expression ← Expression.convert document (settings options defaultType) formatting schema
  let isInterface ← Schema.isRecord schema
  return ofExpression name expression options.exported isInterface

end Declaration

end SchemaTypes
