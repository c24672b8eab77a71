import SchemaTypes.Formatter.Basic
import SchemaTypes.Json.Equality
import SchemaTypes.Table

/-!
# Formatting with an external program

The formatter `prettier` is a program that reads source text and writes it formatted. Before a
command is used for the first time it is probed for its version; the outcome is kept, so every
command is probed once. A command that is not available leaves the text as it is, and so does a run
that ends badly.

How programs are run is a parameter: a `Runner`.
-/

namespace SchemaTypes.Formatter.Prettier

/-- How the run of a program ends. -/
inductive Outcome where
  | exited (status : Int) (output : String)
  | noProgram
  | notPermitted
  | timedOut
  | brokeOff
deriving DecidableEq, Repr

/-- The words of a command. -/
abbrev Command := List Json

/-- One who runs programs, with a state of type `ρ`. A program may be given an input. -/
abbrev Runner (ρ : Type) := Command → Option String → ρ → Outcome × ρ

/-- What is known of commands, and the state of the runner. -/
structure State (ρ : Type) where
  /-- Whether a command is available, for the commands that were probed. -/
  known : List (Command × Bool) := []
  runner : ρ

/-! ## Commands -/

/-- The command to be used: the formatter's own one, or else that of the options, or else the name
of the program. Commands that count as false are not given. -/
def baseCommand (own : Json) (options : Option Options) : Except Failure Command :=
  if own.truthy then
    own.entries
  else
    match options.map Options.command with
    | some command => if command.truthy then command.entries else .ok [.str "prettier"]
    | none => .ok [.str "prettier"]

/-- A number that is given as an option, if it does not count as false. -/
def sizeOption (name : String) (v : Json) : Command :=
  if v.truthy then [.str name, .str v.display] else []

/-- The command that formats its input. -/
def buildCommand (own : Json) (options : Option Options) : Except Failure Command := do
  let base ← baseCommand own options
  match options with
  | none => .error (.notObject .null)
  | some o =>
    return base ++ [.str "--stdin-filepath", .str "types.ts"] ++
      (if o.semicolons.truthy then [] else [.str "--no-semi"]) ++
      (if o.singleQuote.truthy then [.str "--single-quote"] else []) ++
      sizeOption "--print-width" o.printWidth ++ sizeOption "--tab-width" o.tabWidth

/-- A command of which a note can be kept: none of its words is a container. -/
def checkKey (command : Command) : Except Failure Unit :=
  match command.find? Json.isContainer with
  | some v => .error (.notKey v)
  | none => .ok ()

/-- A command that can be shown in a note: all of its words are texts. -/
def checkText (command : Command) : Except Failure Unit :=
  match command.find? (·.kind ≠ .str) with
  | some v => .error (.notJoinable v)
  | none => .ok ()

/-! ## Availability -/

variable {ρ : Type}

/-- What a probe that ended says of its command. A probe that was not permitted says nothing. -/
def Outcome.availability : Outcome → Except Failure Bool
  | exited status _ => .ok (status == 0)
  | noProgram | timedOut | brokeOff => .ok false
  | notPermitted => .error .notPermitted

/-- Probes a command and keeps the outcome. -/
def probe (runner : Runner ρ) (command : Command) : Step (State ρ) Bool := fun s =>
  let (outcome, r) := runner (command ++ [.str "--version"]) none s.runner
  let s := { s with runner := r }
  let checked : Except Failure Bool := do
    let available ← outcome.availability
    if !available then
      checkText command
    return available
  match checked with
  | .ok available => (.ok available, { s with known := s.known ++ [(command, available)] })
  | .error e => (.error e, s)

/-- Whether the command for some options is available; it is probed unless that is known. -/
def isAvailable (runner : Runner ρ) (own : Json) (options : Option Options) :
    Step (State ρ) Bool := fun s =>
  let command : Except Failure Command := do
    let command ← baseCommand own options
    checkKey command
    return command
  match command with
  | .error e => (.error e, s)
  | .ok command =>
    match s.known.lookup command with
    | some available => (.ok available, s)
    | none => probe runner command s

/-! ## Formatting -/

/-- What a run that formats `code` gives. A program that is missing or not permitted at this point
is a failure. -/
def Outcome.formatted (program : Command) (code : String) : Outcome → Except Failure String
  | exited status output => .ok (if status = 0 then output else code)
  | timedOut | brokeOff => .ok code
  | noProgram => .error (.missingFile ((program.headD .null).display))
  | notPermitted => .error .notPermitted

/-- Runs the formatting command for some options on code. -/
def formatNow (runner : Runner ρ) (own : Json) (code : String) (options : Option Options) :
    Step (State ρ) String := fun s =>
  match buildCommand own options with
  | .error e => (.error e, s)
  | .ok command =>
    let (outcome, r) := runner command (some code) s.runner
    (outcome.formatted command code, { s with runner := r })

/-- Formats code, if the command for the options is available. -/
def format (runner : Runner ρ) (own : Json) (code : String) (options : Option Options) :
    Step (State ρ) String :=
  (isAvailable runner own options).andThen fun available =>
    if available then formatNow runner own code options else Step.ofExcept (.ok code)

/-- The formatter that takes its command from the options. -/
def formatter (runner : Runner ρ) : Formatter (State ρ) :=
  fun code options => format runner .null code (some options)

end SchemaTypes.Formatter.Prettier
