import TypeLayout.Text.Blank
import TypeLayout.Text.Utf8

/-!
# Files

A tree of folders and files with a working folder, and paths into it. A path is walked
from its start: every folder on the way has to be there, and each way in which a path
can fail to lead to a file has its error.
-/

namespace TypeLayout

/-- Why a file could not be read, written or run. -/
inductive FileError where
  | notFound
  | notExecutable
  | permission
  | notFolder
  | isFolder
  | nameTooLong
  /-- A path holds the character that ends paths. -/
  | nulInPath
  /-- A program or an argument of it holds the character that ends arguments. -/
  | nulInArgument
  /-- The bytes of a file are not text. -/
  | notText
  /-- Another error of the system, with its number. -/
  | system (reason : String) (number : Nat)
deriving DecidableEq, Repr

/-- The text of an error of the system. -/
def FileError.message : FileError → String
  | notFound => "No such file or directory (os error 2)"
  | notExecutable => "Exec format error (os error 8)"
  | permission => "Permission denied (os error 13)"
  | notFolder => "Not a directory (os error 20)"
  | isFolder => "Is a directory (os error 21)"
  | nameTooLong => "File name too long (os error 36)"
  | nulInPath => "file name contained an unexpected NUL byte"
  | nulInArgument => "nul byte found in provided data"
  | notText => "stream did not contain valid UTF-8"
  | system reason number => s!"{reason} (os error {number})"

/-- A file. -/
structure File where
  content : List UInt8
  executable : Bool := false
deriving DecidableEq, Inhabited, Repr

/-- The files that stand for something else. -/
inductive Device where
  /-- Empty, and drops what is written to it. -/
  | null
  | output
  | errors
deriving DecidableEq, Inhabited, Repr

/-- A place in the tree: the names on the way to it from the root. -/
abbrev Location := List String

/-- What is at a place. -/
inductive Entry where
  | absent
  | folder
  | file (f : File)
  | device (d : Device)
deriving DecidableEq, Inhabited, Repr

/-- A tree of files. The root is a folder that is not listed. -/
structure FileTree where
  folders : List Location := [["dev"], ["tmp"]]
  files : List (Location × File) := []
  /-- The folder in which relative paths start. -/
  here : Location := ["tmp"]
deriving DecidableEq, Inhabited, Repr

namespace FileTree

/-- What is at a place. -/
def entry (t : FileTree) (place : Location) : Entry :=
  match place with
  | [] => .folder
  | ["dev", "null"] => .device .null
  | ["dev", "stdout"] => .device .output
  | ["dev", "stderr"] => .device .errors
  | _ =>
    match t.files.lookup place with
    | some f => .file f
    | none => if t.folders.contains place then .folder else .absent

/-- Puts a file at a place, instead of what was there. -/
def put (t : FileTree) (place : Location) (f : File) : FileTree :=
  if (t.files.lookup place).isSome then
    { t with files := t.files.map fun p => if p.1 = place then (place, f) else p }
  else
    { t with files := t.files ++ [(place, f)] }

/-- Adds a folder. -/
def addFolder (t : FileTree) (place : Location) : FileTree :=
  { t with folders := t.folders ++ [place] }

/-! ### Paths -/

/-- Walks the names of a path from a place, which is a folder as long as there are names
left. -/
def walk (t : FileTree) (place : Location) : List String → Except FileError Location
  | [] => .ok place
  | name :: more =>
    if name.utf8ByteSize > 255 then .error .nameTooLong
    else if name = "" || name = "." then t.walk place more
    else if name = ".." then t.walk place.dropLast more
    else
      let next := place ++ [name]
      if more.isEmpty then .ok next
      else
        match t.entry next with
        | .folder => t.walk next more
        | .absent => .error .notFound
        | .file _ | .device _ => .error .notFolder

/-- The place that a path leads to, which can be empty. -/
def locate (t : FileTree) (path : String) : Except FileError Location :=
  if path.toList.contains '\x00' then .error .nulInPath
  else if path = "" then .error .notFound
  else if path.utf8ByteSize > 4095 then .error .nameTooLong
  else
    let start := if path.toList.head? = some '/' then [] else t.here
    t.walk start ((Text.splitAt '/' path.toList).map String.ofList)

/-- A path that does not depend on the working folder. -/
def absolute (t : FileTree) (path : String) : String :=
  if path.toList.head? = some '/' then path
  else "/" ++ String.intercalate "/" (t.here ++ [path])

/-! ### Reading and writing -/

/-- The bytes that a path leads to. -/
def readBytes (t : FileTree) (path : String) : Except FileError (List UInt8) :=
  match t.locate path with
  | .error e => .error e
  | .ok place =>
    match t.entry place with
    | .absent => .error .notFound
    | .folder => .error .isFolder
    | .file f => .ok f.content
    | .device _ => .ok []

/-- The text that a path leads to. -/
def readText (t : FileTree) (path : String) : Except FileError String :=
  match t.readBytes path with
  | .error e => .error e
  | .ok bytes =>
    match Text.decodeUtf8? bytes with
    | some text => .ok text
    | none => .error .notText

/-- The place at which a path lets a file be written. A path that ends in a slash names
a folder. -/
def locateToWrite (t : FileTree) (path : String) : Except FileError Location :=
  let stem := Text.dropEnd (· == '/') path.toList
  match t.locate (if stem.isEmpty then path else String.ofList stem) with
  | .error e => .error e
  | .ok place =>
    if stem.length < path.length || t.entry place = .folder then .error .isFolder
    else .ok place

/-- Writes bytes where a path leads, instead of what was there. -/
def writeBytes (t : FileTree) (path : String) (bytes : List UInt8) :
    Except FileError FileTree :=
  match t.locateToWrite path with
  | .error e => .error e
  | .ok place =>
    match t.entry place with
    | .file f => .ok (t.put place { f with content := bytes })
    | .absent => .ok (t.put place { content := bytes })
    | .folder | .device _ => .ok t

/-- Writes text where a path leads, instead of what was there. -/
def writeText (t : FileTree) (path text : String) : Except FileError FileTree :=
  t.writeBytes path (Text.encodeUtf8 text)

end FileTree

end TypeLayout
