import SchemaTypes.Failure

/-!
# Formatter options

What a formatter of source text is told. The values are kept as they were given: they are checked by
nobody, and written back unchanged.
-/

namespace SchemaTypes.Formatter

/-- The options of a formatter. -/
structure Options where
  enabled : Json := .bool false
  name : Json := .str "prettier"
  semicolons : Json := .bool false
  printWidth : Json := .int 100
  tabWidth : Json := .int 2
  singleQuote : Json := .bool false
  command : Json := .arr [.str "prettier"]

namespace Options

/-- Sets the option of a given key. -/
def set (o : Options) (key : String) (v : Json) : Except Failure Options :=
  match key with
  | "enabled" => .ok { o with enabled := v }
  | "name" => .ok { o with name := v }
  | "semicolons" => .ok { o with semicolons := v }
  | "print_width" => .ok { o with printWidth := v }
  | "tab_width" => .ok { o with tabWidth := v }
  | "single_quote" => .ok { o with singleQuote := v }
  | "command" => .ok { o with command := v }
  | _ => .error (.unknownSetting key)

/-- The options that some members give, the others having their defaults. -/
def ofMembers (members : List (String × Json)) : Except Failure Options :=
  members.foldlM (fun o m => o.set m.1 m.2) {}

/-- The options as an object. -/
def toJson (o : Options) : Json :=
  .obj [("enabled", o.enabled), ("name", o.name), ("semicolons", o.semicolons),
    ("print_width", o.printWidth), ("tab_width", o.tabWidth), ("single_quote", o.singleQuote),
    ("command", o.command)]

end Options

/-- What stands in the place of formatter options: options, or a value that is none. -/
inductive Setting where
  | options (o : Options)
  | other (v : Json)

namespace Setting

/-- An object holds options; any other value stays as it is. -/
def ofJson : Json → Except Failure Setting
  | .obj members => options <$> Options.ofMembers members
  | v => .ok (other v)

/-- The options, where a single one is to be read or changed. -/
def read : Setting → Except Failure Options
  | options o => .ok o
  | other v => .error (.notObject v)

/-- The options that a formatter is run with. A value that counts as false leaves all of them at
their defaults, with formatting enabled. -/
def forRun : Setting → Except Failure Options
  | options o => .ok o
  | other v => if v.truthy then .error (.notOptions v) else .ok { enabled := .bool true }

end Setting

end SchemaTypes.Formatter
