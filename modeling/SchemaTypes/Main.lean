import SchemaTypes.Command.Basic

/-!
# The program

Looks at the files that the command line names, carries out the command on them, and writes those
that it has changed. No external formatter is run: every command counts as one that is not
installed.
-/

namespace SchemaTypes.Program

open Command

/-- What a path leads to on disk; a file that cannot be read is a directory. -/
def entry? (path : Path) : IO (Option Entry) := do
  try
    discard <| IO.FS.Handle.mk path.text .read
  catch _ => return none
  try
    let bytes ← IO.FS.readBinFile path.text
    return some (.file (bytes.toList.map UInt8.toNat))
  catch _ => return some .directory

/-- The paths that the words of a command line may mean. -/
def pathsOf (home : Files) (words : List String) : List Path :=
  let given := (Arguments.parse? words).getD {}
  let written := given.operands ++ given.config.toList ++ given.names ++ given.defaultType.toList
  let paths := written.map home.resolve
  paths ++ paths.flatMap Path.above

/-- The files that the words of a command line may mean, in the working directory. -/
def filesFor (words : List String) : IO Files := do
  let home := Files.components (← IO.currentDir).toString
  let here : Files := ⟨home, []⟩
  let entries ← (pathsOf here words).filterMapM fun path => do
    return (← entry? path).map (path, ·)
  return ⟨home, entries⟩

/-- The runner that never finds a program. -/
def noPrograms : Formatter.Prettier.Runner Unit :=
  fun _ _ s => (.noProgram, s)

end SchemaTypes.Program

/-- Carries out the command with the given words. -/
def main (words : List String) : IO UInt32 := do
  let files ← SchemaTypes.Program.filesFor words
  let machine := SchemaTypes.Command.Machine.ofRunner SchemaTypes.Program.noPrograms
    (SchemaTypes.Command.freshHalves files words)
  let (outcome, world) :=
    SchemaTypes.Command.run machine words ⟨files, { runner := () }⟩
  for (path, bytes) in world.files.changesSince files do
    IO.FS.writeBinFile path.text (bytes.map UInt8.ofNat).toByteArray
  match outcome with
  | .failed cause => IO.eprintln cause.message
  | .refused => IO.eprintln "usage: schema_to_ts [OPTIONS] PATH OUTPUT"
  | .explained => IO.println "usage: schema_to_ts [OPTIONS] PATH OUTPUT"
  | .done => pure ()
  return outcome.exitCode.toUInt32
