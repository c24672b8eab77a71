import SchemaTypes.Failure
import SchemaTypes.Table
import SchemaTypes.Text.Utf8

/-!
# Files

The part of a file system that a command can see: bytes under their paths, and the directory in
which the command works. A path is the list of its components, from the root on. Directories need
not be listed: whatever lies on the way to a file, or to the working directory, is one.
-/

namespace SchemaTypes.Command

/-- An absolute path. -/
abbrev Path := List String

/-- The places on the way to a path, from the root on; the path itself is not among them. -/
def Path.above : Path → List Path
  | [] => []
  | component :: rest => [] :: (above rest).map (component :: ·)

/-- The text of an absolute path. -/
def Path.text (path : Path) : String :=
  "/" ++ Text.join "/" path

/-- What a path leads to. -/
inductive Entry where
  | file (bytes : List Nat)
  | directory
deriving DecidableEq, Repr

/-- Some files and directories, and the working directory. -/
structure Files where
  home : Path
  entries : List (Path × Entry)

namespace Files

variable (fs : Files)

/-- What a path leads to. -/
def entry? (path : Path) : Option Entry :=
  match fs.entries.lookup path with
  | some e => some e
  | none =>
    if path.isPrefixOf fs.home || fs.entries.any fun e => path.isPrefixOf e.1 then
      some .directory
    else
      none

/-- Whether a path leads to a directory. -/
def isDirectory (path : Path) : Bool :=
  fs.entry? path == some .directory

/-- The text of the file that a path leads to. -/
def readText (path : Path) : Except Failure String :=
  match fs.entry? path with
  | none => .error (.missingFile (Path.text path))
  | some .directory => .error (.isDirectory (Path.text path))
  | some (.file bytes) =>
    match Text.Utf8.text? bytes with
    | some text => .ok text
    | none => .error .notDecodable

/-- The files with some bytes under a path, whatever was there before. -/
def write (path : Path) (bytes : List Nat) : Files :=
  { fs with entries := Table.put path (.file bytes) fs.entries }

/-- The files that are not as they were before, with their bytes. -/
def changesSince (before : Files) : List (Path × List Nat) :=
  fs.entries.filterMap fun e =>
    match e.2 with
    | .file bytes => if before.entry? e.1 = some e.2 then none else some (e.1, bytes)
    | .directory => none

/-! ## Written paths -/

/-- Where a written path starts: at the root, or in the working directory. -/
def start (written : String) : Path :=
  if written.toList.head? = some '/' then [] else fs.home

/-- The components of a written path; the empty ones and the dots for "here" are left out. -/
def components (written : String) : List String :=
  ((Text.fields '/' written.toList).map String.ofList).filter fun c => c ≠ "" && c ≠ "."

/-- One step along a path, by its wording alone: two dots undo a step. -/
def descend (path : Path) (component : String) : Path :=
  if component = ".." then path.dropLast else path ++ [component]

/-- The absolute path that a written path means. -/
def resolve (written : String) : Path :=
  (components written).foldl descend (fs.start written)

/-! ## Following written paths -/

/-- The number of bytes that a component can have. -/
def componentLimit : Nat := 255

/-- The number of bytes that a path can have. -/
def pathLimit : Nat := 4095

/-- Whether a written path holds the null character. -/
def hasNull (written : String) : Bool :=
  written.toList.contains '\x00'

/-- A written path without what it says in vain. -/
def tidy (written : String) : String :=
  (if written.toList.head? = some '/' then "/" else "") ++ Text.join "/" (components written)

/-- The absolute path that some components lead to, if every step starts from a directory. No such
step can be taken by a component that is too long. -/
def walk : List String → Path → Except Failure (Option Path)
  | [], path => .ok (some path)
  | component :: rest, path =>
    if !fs.isDirectory path then
      .ok none
    else if component.utf8ByteSize > componentLimit then
      .error (.pathTooLong component)
    else
      walk rest (descend path component)

/-- Whether a written path leads to a file or a directory. A path with the null character leads
nowhere; any other one is followed, unless it is too long. -/
def holds (written : String) : Except Failure Bool :=
  if hasNull written then
    .ok false
  else if (tidy written).utf8ByteSize > pathLimit then
    .error (.pathTooLong written)
  else do
    match ← fs.walk (components written) (fs.start written) with
    | some path => return (fs.entry? path).isSome
    | none => return false

end Files

/-- The last component of a written path; there may be none. -/
def baseName (written : String) : String :=
  (Files.components written).getLastD ""

end SchemaTypes.Command
