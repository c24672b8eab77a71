import SchemaTypes.Table
import SchemaTypes.Text.Search

/-!
# Arguments of the command

`Arguments.parse?` sorts the words of a command line into options and operands, which may stand in
any order. A long option may have its value behind `=`, a short one directly behind its letter;
otherwise the next word is the value, whatever it looks like. Two dashes end the options.
-/

namespace SchemaTypes.Command

/-- The options that not every value is allowed for. -/
inductive CheckedOption where
  /-- The configuration file. -/
  | config
  /-- The type for schemas that are not recognised. -/
  | defaultType
deriving DecidableEq, Repr

/-- What a command line gives. Of a flag or a value that is given several times the last one
counts; names add up. -/
structure Arguments where
  names : List String := []
  /-- The options with values that are to be checked, in the order in which they first came up. -/
  checked : List (CheckedOption × String) := []
  deep : Option Bool := none
  exported : Option Bool := none
  formatted : Option Bool := none
  help : Bool := false
  operands : List String := []
deriving DecidableEq, Repr

namespace Arguments

/-- The configuration file, as it is written. -/
def config (a : Arguments) : Option String :=
  a.checked.lookup .config

/-- The type for schemas that are not recognised, as it is written. -/
def defaultType (a : Arguments) : Option String :=
  a.checked.lookup .defaultType

/-- What an option does. -/
inductive Effect where
  | flag (set : Arguments → Arguments)
  | value (set : String → Arguments → Arguments)

/-- Adds a name. -/
def addName (name : String) (a : Arguments) : Arguments :=
  { a with names := a.names ++ [name] }

/-- Sets an option whose value is to be checked. -/
def setChecked (option : CheckedOption) (value : String) (a : Arguments) : Arguments :=
  { a with checked := Table.put option value a.checked }

/-- The effect of a long option. -/
def longOption? : String → Option Effect
  | "--name" => some (.value addName)
  | "--config" => some (.value (setChecked .config))
  | "--default-type" => some (.value (setChecked .defaultType))
  | "--deep" => some (.flag fun a => { a with deep := some true })
  | "--no-deep" => some (.flag fun a => { a with deep := some false })
  | "--export" => some (.flag fun a => { a with exported := some true })
  | "--no-export" => some (.flag fun a => { a with exported := some false })
  | "--format" => some (.flag fun a => { a with formatted := some true })
  | "--no-format" => some (.flag fun a => { a with formatted := some false })
  | "--help" => some (.flag fun a => { a with help := true })
  | _ => none

/-- The effect of a short option; all of them take a value. -/
def shortOption? : Char → Option (String → Arguments → Arguments)
  | 'n' => some addName
  | 'c' => some (setChecked .config)
  | _ => none

/-- What a word of the command line is. -/
inductive Word where
  | operand
  | endOfOptions
  /-- A flag. -/
  | flag (set : Arguments → Arguments)
  /-- An option with its value in the same word. -/
  | withValue (set : Arguments → Arguments)
  /-- An option whose value is the next word. -/
  | needsValue (set : String → Arguments → Arguments)
  | invalid

/-- A word before and after its first `=`. -/
def splitValue (word : List Char) : List Char × Option String :=
  match word.dropWhile (· ≠ '=') with
  | [] => (word, none)
  | _ :: value => (word.takeWhile (· ≠ '='), some (String.ofList value))

/-- A word that starts with a single dash and is no long option. -/
def Word.ofShort : List Char → Word
  | '-' :: c :: value =>
    match shortOption? c with
    | none => .invalid
    | some set => if value = [] then .needsValue set else .withValue (set (String.ofList value))
  | _ => .invalid

/-- What a word of the command line is, as long as options have not ended. -/
def Word.ofString (word : String) : Word :=
  match word.toList with
  | ['-', '-'] => .endOfOptions
  | '-' :: c :: rest =>
    let (name, value?) := splitValue ('-' :: c :: rest)
    match longOption? (String.ofList name), value? with
    | some (.flag set), none => .flag set
    | some (.flag _), some _ => .invalid
    | some (.value set), none => .needsValue set
    | some (.value set), some value => .withValue (set value)
    | none, _ => if c = '-' then .invalid else .ofShort ('-' :: c :: rest)
  | _ => .operand

/-- Sorts the words of a command line, behind those already sorted. -/
def parseFrom? (a : Arguments) : List String → Option Arguments
  | [] => some a
  | word :: rest =>
    match Word.ofString word with
    | .operand => parseFrom? { a with operands := a.operands ++ [word] } rest
    | .endOfOptions => some { a with operands := a.operands ++ rest }
    | .flag set | .withValue set => parseFrom? (set a) rest
    | .needsValue set =>
      match rest with
      | [] => none
      | value :: rest => parseFrom? (set value a) rest
    | .invalid => none

/-- Sorts the words of a command line, unless they are not understood. -/
def parse? (words : List String) : Option Arguments :=
  parseFrom? {} words

end Arguments

end SchemaTypes.Command
