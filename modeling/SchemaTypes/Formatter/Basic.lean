import SchemaTypes.Formatter.Options
import SchemaTypes.Step

/-!
# Formatters

A formatter takes source text and options and gives source text back. It may keep a state, such as
what it knows of the programs it runs, and it may fail.
-/

namespace SchemaTypes

/-- A formatter with a state of type `φ`. -/
abbrev Formatter (φ : Type) := String → Formatter.Options → Step φ String

namespace Formatter

/-- The formatters that can be asked for by name. -/
inductive Known where
  | prettier
deriving DecidableEq, Repr

/-- The formatter of a given name; nothing, or the name of none, asks for no formatter. -/
def Known.ofJson (name : Json) : Except Failure (Option Known) :=
  match name with
  | .null | .str "none" => .ok none
  | .str "prettier" => .ok (some .prettier)
  | .arr _ | .obj _ => .error (.notKey name)
  | _ => .error (.unknownFormatter name)

/-- The formatter that a setting asks for, if it enables formatting. -/
def Known.ofSetting (setting : Setting) : Except Failure (Option Known) := do
  let options ← setting.read
  if options.enabled.truthy then Known.ofJson options.name else return none

/-- The formatter that leaves every text as it is. -/
def identity : Formatter Unit :=
  fun code _ s => (.ok code, s)

end Formatter

end SchemaTypes
