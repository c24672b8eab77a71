import SchemaTypes.Expression.Basic
import SchemaTypes.Text.Blank

/-!
# Formatted type expressions

A formatter takes whole statements, so a type expression goes to it as the body of an alias, and the
body is cut out of what comes back. It may then stand inside code that is indented: every line but
the first gets a text in front.
-/

namespace SchemaTypes.Expression

/-- An alias with the given body. -/
def aliasOf (body : String) : String :=
  "type Ts = " ++ body

/-- The body of the first alias in a text, without blanks at its ends. -/
def aliasBody? (text : String) : Option String :=
  (Text.after? "type Ts =" text).map Text.strip

/-- Puts a text in front of every line but the first, if there is more than one. -/
def hung (margin : OrMisfit String) (text : String) : Except Failure String :=
  match Text.lines text with
  | [_] => .ok text
  | _ => (margin.map (Text.hang · text)).mapError .notJoinable

/-- An alias after formatting. Without a formatter it stays as it is; a formatter is told to leave
statements without a terminator. -/
def formatAlias (formatting : Option Formatter.Setting) (text : String) : Rendering String :=
  match formatting with
  | none => pure text
  | some setting => do
    let options ← setting.forRun
    Rendering.format text { options with semicolons := .bool false }

/-- Formats a type expression and hangs it behind `preText`. -/
def formatted (preText : OrMisfit String) (formatting : Option Formatter.Setting)
    (expression : String) : Rendering String := do
  let text ← formatAlias formatting (aliasOf expression)
  match aliasBody? text with
  | none => .failed (.noAliasBody text)
  | some body => hung preText body

/-- A schema as a formatted type expression. The default type that stands for a schema that counts
as false is not formatted. -/
def convert (document : Json) (settings : Settings) (formatting : Option Formatter.Setting)
    (schema : Json) : Rendering String :=
  if schema.truthy then do
    let expression ← ofSchema document settings schema
    formatted settings.preText formatting expression
  else
    pure settings.defaultType.name

end SchemaTypes.Expression
