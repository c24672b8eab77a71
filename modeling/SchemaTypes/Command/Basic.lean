import SchemaTypes.Command.Arguments
import SchemaTypes.Command.Saving
import SchemaTypes.Command.Words
import SchemaTypes.Formatter.Prettier
import SchemaTypes.Json.Reader
import SchemaTypes.TsModule.Basic

/-!
# The command

The command reads a document and perhaps a configuration file, generates a module and saves its text
in a file. `Command.run` does so on some files, step by step: the module is generated before the
output is opened.
-/

namespace SchemaTypes.Command

/-- How a command ends. -/
inductive Outcome where
  /-- It only explained itself. -/
  | explained
  /-- It did not accept its arguments. -/
  | refused
  | failed (cause : Failure)
  /-- It saved its module. -/
  | done

namespace Outcome

/-- The exit code of the program. -/
def exitCode : Outcome → Nat
  | explained => 0
  | refused => 2
  | failed _ => 1
  | done => 0

/-- How a command ends that was carried out. -/
def ofResult : Except Failure Unit → Outcome
  | .ok () => done
  | .error e => failed e

end Outcome

/-- Why arguments make no request. -/
inductive Objection where
  /-- They are not accepted. -/
  | usage
  /-- A path holds the null character. -/
  | nullInPath

/-- How a command ends whose arguments make no request. -/
def Objection.outcome : Objection → Outcome
  | usage => .refused
  | nullInPath => .failed .nullInPath

/-- What a command runs on. -/
structure Machine (φ : Type) where
  /-- The formatter that goes by the name of `prettier`. -/
  prettier : Formatter φ
  device : Device := {}
  /-- The stand-ins for halves of surrogate pairs. -/
  halves : Text.Halves

/-- A machine on which `prettier` is a program. -/
def Machine.ofRunner {ρ : Type} (runner : Formatter.Prettier.Runner ρ) (halves : Text.Halves) :
    Machine (Formatter.Prettier.State ρ) where
  prettier := Formatter.Prettier.formatter runner
  halves := halves

/-- What changes while a command runs. -/
structure World (φ : Type) where
  files : Files
  formatter : φ

/-- A command that is to be carried out. -/
structure Request where
  arguments : Arguments
  document : Option Path
  output : Option Path
  config : Option Path

namespace Request

/-- The path that a word means. -/
def pathOf (fs : Files) (word : String) : Except Objection Path :=
  if Files.hasNull word then .error .nullInPath else .ok (fs.resolve word)

/-- The path that a word means, if there is something. -/
def presentPath (fs : Files) (word : String) : Except Objection Path := do
  let path ← pathOf fs word
  if (fs.entry? path).isSome then return path else throw .usage

/-- Checks the value of an option: the configuration has to be there, and the default type is one of
two. -/
def checkOption (fs : Files) : CheckedOption → String → Except Objection Unit
  | .config, word => discard (presentPath fs word)
  | .defaultType, word => if word = "unknown" ∨ word = "any" then .ok () else .error .usage

/-- The request that arguments make. First the options are checked, in the order in which they came
up, then the operands: the document has to be there, and there are no more operands than two. -/
def ofArguments (fs : Files) (a : Arguments) : Except Objection Request := do
  a.checked.forM fun o => checkOption fs o.1 o.2
  let document ← a.operands[0]?.mapM (presentPath fs)
  let output ← a.operands[1]?.mapM (pathOf fs)
  if a.operands.length > 2 then
    throw .usage
  return { arguments := a, document, output, config := a.config.map fs.resolve }

/-! ## Reading -/

/-- The value in the file that a path leads to. -/
def readJson (halves : Text.Halves) (fs : Files) (path : Option Path) : Except Failure Json :=
  match path with
  | none => .error .noPath
  | some path => do Json.read halves (← fs.readText path)

/-! ## Settings -/

/-- Replaces the settings for which there are options on the command line. -/
def override (a : Arguments) (s : TsModule.Settings) : Except Failure TsModule.Settings := do
  let formatter ← match a.formatted with
    | none => pure s.formatter
    | some b => do
      let options ← (← s.toFormat).read
      pure (some (.options { options with enabled := .bool b }))
  return { s with
    schemas := if a.names = [] then s.schemas else some (.arr (a.names.map .str))
    deep := (a.deep.map Json.bool).getD s.deep
    exported := (a.exported.map Json.bool).getD s.exported
    defaultType := (a.defaultType.map Json.str).getD s.defaultType
    formatter }

/-- The settings of the module: those of the configuration file, under the options on the command
line. -/
def settings (halves : Text.Halves) (fs : Files) (r : Request) :
    Except Failure TsModule.Settings := do
  let base ← match r.config with
    | none => pure {}
    | some path => do TsModule.Settings.ofJson (← readJson halves fs (some path))
  override r.arguments base

/-! ## The command line in words -/

/-- The parameters of the command. -/
def params : List Words.Param :=
  [.option "names" "--name" .null .multiple,
    .option "config" "--config" .null .single,
    .option "deep" "--deep" .null (.switch "--no-deep"),
    .option "export" "--export" .null (.switch "--no-export"),
    .option "default_type" "--default-type" .null .single,
    .option "format_output" "--format" .null (.switch "--no-format"),
    .argument "path",
    .argument "output"]

/-- The values of the parameters in a request. -/
def values (r : Request) : Json :=
  let a := r.arguments
  let text (path : Option Path) : Json := path.elim .null (.str ·.text)
  .obj [("names", .arr (a.names.map .str)),
    ("config", text r.config),
    ("deep", a.deep.elim .null .bool),
    ("export", a.exported.elim .null .bool),
    ("default_type", a.defaultType.elim .null .str),
    ("format_output", a.formatted.elim .null .bool),
    ("path", text r.document),
    ("output", text r.output)]

/-- The command line that makes a request, in words. -/
def commandLine (fs : Files) (r : Request) : Except Failure String :=
  Words.line fs params r.values

/-! ## Generating and saving -/

variable {φ : Type}

/-- The formatter that settings ask for. -/
def formatter (prettier : Formatter φ) (s : TsModule.Settings) :
    Except Failure (Option (Formatter φ)) := do
  match ← Formatter.Known.ofSetting (← s.toFormat) with
  | none => return none
  | some .prettier => return some prettier

variable (machine : Machine φ)

/-- The module that a request asks for. -/
def toModule (fs : Files) (r : Request) : Except Failure (TsModule φ) := do
  let document ← readJson machine.halves fs r.document
  let settings ← r.settings machine.halves fs
  let commandLine ← r.commandLine fs
  let formatter ← formatter machine.prettier settings
  return { document, settings, formatter, commandLine }

/-- Generates the text of the module that a request asks for. -/
def generate (r : Request) : Step (World φ) String := fun w =>
  match r.toModule machine w.files with
  | .error e => (.error e, w)
  | .ok m => Step.on World.formatter (fun f w => { w with formatter := f }) m.text w

/-- Saves a text in the output of a request. -/
def save (r : Request) (text : String) : Step (World φ) Unit :=
  match r.output with
  | none => Step.ofExcept (.error .noPath)
  | some path =>
    Step.on World.files (fun fs w => { w with files := fs })
      (Files.save machine.device machine.halves path text)

/-- Generates the module that a request asks for and saves it. -/
def run (r : Request) : Step (World φ) Unit :=
  (r.generate machine).andThen (r.save machine)

end Request

/-! ## Running the command -/

variable {φ : Type}

/-- Carries out the command with the given words. -/
def run (machine : Machine φ) (words : List String) (w : World φ) : Outcome × World φ :=
  match Arguments.parse? words with
  | none => (.refused, w)
  | some a =>
    if a.help then
      (.explained, w)
    else
      match Request.ofArguments w.files a with
      | .error objection => (objection.outcome, w)
      | .ok r =>
        let (result, w) := r.run machine w
        (.ofResult result, w)

/-! ## Stand-ins -/

/-- Stand-ins for halves of surrogate pairs that do not occur in files and words: neither as they
are written, nor where JSON text or percent-encoding writes characters in other ways. -/
def freshHalves (fs : Files) (words : List String) : Text.Halves :=
  let written := words ++ fs.entries.filterMap fun e =>
    match e.2 with
    | .file bytes => Text.Utf8.text? bytes
    | .directory => none
  let read := written.filterMap fun text =>
    (Json.read (Text.Halves.block 0) text).toOption.map Json.text
  let texts := written ++ read
  Text.Halves.freshFor (texts ++ texts.map Text.percentDecode)

end SchemaTypes.Command
