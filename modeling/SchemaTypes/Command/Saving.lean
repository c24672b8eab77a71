import SchemaTypes.Command.Files
import SchemaTypes.Step
import SchemaTypes.Text.Halves

/-!
# Saving a text

A text is saved in three steps. The file is opened, and then it is empty, whatever was in it; the
text is encoded; its bytes go into the file. Each of the steps may fail, and then the file stays as
it is at that point: nothing brings back what was in it before.
-/

namespace SchemaTypes.Command

/-- How a device takes what is written. Unless it is said otherwise, it takes everything. -/
structure Device where
  /-- Refuses to open files, for reasons that files do not show. -/
  opening : Path → Except Failure Unit := fun _ => .ok ()
  /-- Fails when some bytes go into a file, behind the first ones of them. -/
  loss? : Path → List Nat → Option (Nat × Failure) := fun _ _ => none

namespace Files

/-- Why no file can be opened at a path for writing, going by the files alone: there is a directory,
or something on the way to the path is none. -/
def obstacle? (fs : Files) (path : Path) : Option Failure :=
  if fs.isDirectory path then
    some (.isDirectory path.text)
  else
    (path.above.find? fun p => !fs.isDirectory p).map fun p =>
      if (fs.entry? p).isSome then .notDirectory path.text else .missingFile path.text

variable (device : Device)

/-- Opens a file for writing, which leaves nothing in it. -/
def openEmpty (path : Path) : Step Files Unit := fun fs =>
  match fs.obstacle? path with
  | some e => (.error e, fs)
  | none =>
    match device.opening path with
    | .error e => (.error e, fs)
    | .ok () => (.ok (), fs.write path [])

/-- Puts bytes into an empty file. -/
def fill (path : Path) (bytes : List Nat) : Step Files Unit := fun fs =>
  match device.loss? path bytes with
  | some (count, e) => (.error e, fs.write path (bytes.take count))
  | none => (.ok (), fs.write path bytes)

/-- The bytes of a text, unless it holds half of a surrogate pair. -/
def encode (halves : Text.Halves) (text : String) : Except Failure (List Nat) :=
  match halves.encode? text with
  | some bytes => .ok bytes
  | none => .error .notEncodable

/-- Saves a text in the file at a path. -/
def save (halves : Text.Halves) (path : Path) (text : String) : Step Files Unit :=
  (openEmpty device path).andThen fun _ =>
    (Step.ofExcept (encode halves text)).andThen (fill device path)

end Files

end SchemaTypes.Command
