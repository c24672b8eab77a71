import SchemaTypes.Command.Files
import SchemaTypes.Json.Equality

/-!
# Command lines in words

`Words.line` writes down a command line that leads to given values of its parameters: arguments
first, then the options that differ from their defaults. Names of files are shortened to their last
component, so that the line does not depend on where the files are.
-/

namespace SchemaTypes.Command.Words

/-- What kind of parameter an option is. -/
inductive OptionKind where
  /-- A pair of flags, one for yes and one for no. -/
  | switch (off : String)
  /-- A single flag. -/
  | flag
  /-- An option with a value. -/
  | single
  /-- An option that may be given several times. -/
  | multiple
deriving DecidableEq, Repr

/-- A parameter of a command. -/
inductive Param where
  | argument (name : String)
  | option (name flag : String) (default : Json) (kind : OptionKind)

/-- The name of a parameter. -/
def Param.name : Param → String
  | argument name => name
  | option name _ _ _ => name

/-- The name of the program. -/
def program : String := "schema_to_ts"

/-- Whether a value is none, an empty text or an empty list. -/
def isBlankValue : Json → Bool
  | .null | .str "" | .arr [] => true
  | _ => false

/-- A value as a word. -/
def word (fs : Files) (v : Json) : Except Failure String :=
  match v with
  | .str s => do return if ← fs.holds s then baseName s else s
  | v => .ok v.display

/-- The whole value of a parameter as a word; a list of values stands in round brackets. -/
def wholeWord (fs : Files) (v : Json) : Except Failure String :=
  match v with
  | .arr items => .ok (Json.shownTogether items)
  | v => word fs v

/-- The words for an option with a value that differs from its default. -/
def optionWords (fs : Files) (flag : String) (kind : OptionKind) (v : Json) :
    Except Failure (List String) :=
  match kind with
  | .switch off => .ok [if v.truthy then flag else off]
  | .flag => .ok [flag]
  | .single => do return [flag, ← wholeWord fs v]
  | .multiple => do
    let words ← (← v.entries).mapM (word fs)
    return words.flatMap fun w => [flag, w]

/-- The words for a parameter with a given value. -/
def paramWords (fs : Files) (p : Param) (v : Json) : Except Failure (List String) :=
  if isBlankValue v then
    .ok []
  else
    match p with
    | .argument _ => do return [← wholeWord fs v]
    | .option _ flag default kind =>
      if v.same default then .ok [] else optionWords fs flag kind v

/-- Whether a parameter is an argument. -/
def Param.isArgument : Param → Bool
  | argument _ => true
  | option .. => false

/-- The command line for the values of some parameters, among some files. Without values it is the
bare program. -/
def line (fs : Files) (params : List Param) (values : Json) : Except Failure String := do
  if !values.truthy then
    return program
  let words ← params.mapM fun p => paramWords fs p (values.memberD p.name)
  let (arguments, options) := (params.zip words).partition fun w => w.1.isArgument
  return Text.join " " (program :: (arguments ++ options).flatMap Prod.snd)

end SchemaTypes.Command.Words
