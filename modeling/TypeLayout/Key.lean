import TypeLayout.Element
import TypeLayout.Names
import TypeLayout.Text.Blank
import TypeLayout.Token.Number

/-!
# Requested names

The user lists the types to export: names divided by commas and newlines, each
with `struct`, `union` or `enum` in front of it if it is a tag, and comments from
`#` to the end of the line. `KeyList.parse` reads such a list; it refuses an entry
of any other shape and a name that is listed twice.
-/

namespace TypeLayout

/-- How a requested name is qualified. -/
inductive Qualifier where
  | plain
  | struct
  | union
  | enum
deriving DecidableEq, Inhabited, Repr

/-- The keyword that stands in front of a qualified name. -/
def Qualifier.keyword? : Qualifier → Option String
  | plain => none
  | struct => some "struct"
  | union => some "union"
  | enum => some "enum"

/-- A requested name. -/
structure Key where
  /-- The bare name, which also names the exported constant. -/
  name : NameId
  qualifier : Qualifier
  /-- The name as it is spelled among the types, such as `struct foo`. -/
  lookup : NameId
  /-- The node that the name has been resolved to. -/
  node : Option NodeId := none
  /-- The line of the list on which the name stands. -/
  line : Nat
deriving DecidableEq, Inhabited, Repr

/-- The requested names in the order in which they are listed. -/
structure KeyList where
  keys : List Key := []
deriving DecidableEq, Inhabited, Repr

/-- What can be wrong with an entry of a key list. -/
inductive KeyError where
  | invalidEntry (entry : String)
  | duplicate (entry : String)
deriving DecidableEq, Repr

/-- The text of an error. -/
def KeyError.message : KeyError → String
  | invalidEntry e => "Invalid key entry `" ++ e ++ "`"
  | duplicate e => "Key `" ++ e ++ "` is listed more than once"

namespace KeyList

/-- The key with a given registry spelling. -/
def find? (keys : KeyList) (lookup : NameId) : Option Key :=
  keys.keys.find? (·.lookup == lookup)

/-- Adds a key at the end, unless one with the same spelling is listed. -/
def insert? (keys : KeyList) (key : Key) : Option KeyList :=
  match keys.find? key.lookup with
  | some _ => none
  | none => some ⟨keys.keys ++ [key]⟩

/-- Whether a text is a name: a letter or an underscore, then letters, digits and
underscores. -/
def isName : List Char → Bool
  | [] => false
  | c :: cs => (isLetter c || c == '_') && cs.all isWordChar

/-- Reads the words of an entry. -/
def parseWords? (words : List (List Char)) : Option (Qualifier × String) :=
  let named (qualifier : Qualifier) (name : List Char) : Option (Qualifier × String) :=
    if isName name then some (qualifier, String.ofList name) else none
  match words with
  | [name] => named .plain name
  | [word, name] =>
    if word = "struct".toList then named .struct name
    else if word = "union".toList then named .union name
    else if word = "enum".toList then named .enum name
    else none
  | _ => none

/-- The registry spelling of a qualified name. -/
def lookupSpelling (qualifier : Qualifier) (name : String) : String :=
  match qualifier.keyword? with
  | some keyword => Names.tagSpelling keyword name
  | none => name

/-- Interns a qualified name as a key. -/
def makeKey (names : Names) (qualifier : Qualifier) (name : String) (line : Nat) : Key × Names :=
  let (id, names) := names.insert name
  let (lookup, names) := names.insert (lookupSpelling qualifier name)
  ({ name := id, qualifier, lookup, line }, names)

/-- Adds one entry, a text without blanks at its ends, to a list. -/
def addEntry (names : Names) (keys : KeyList) (line : Nat) (entry : List Char) :
    Except KeyError (KeyList × Names) :=
  match parseWords? (Text.words entry) with
  | none => .error (.invalidEntry (String.ofList entry))
  | some (qualifier, name) =>
    let (key, names) := makeKey names qualifier name line
    match keys.insert? key with
    | none => .error (.duplicate (String.ofList entry))
    | some keys => .ok (keys, names)

/-- The entries of one line. -/
def entries (line : List Char) : List (List Char) :=
  ((Text.splitAt ',' (line.takeWhile (· != '#'))).map Text.trim).filter (!·.isEmpty)

/-- The entries of a text, each with its line, counted from a given one. -/
def numberedEntries : Nat → List (List Char) → List (Nat × List Char)
  | _, [] => []
  | n, line :: lines => (entries line).map (n, ·) ++ numberedEntries (n + 1) lines

/-- Adds entries one after the other; the first that is refused is reported with
its line. -/
def addEntries (names : Names) (keys : KeyList) :
    List (Nat × List Char) → Except (Nat × KeyError) (KeyList × Names)
  | [] => .ok (keys, names)
  | (line, entry) :: more =>
    match addEntry names keys line entry with
    | .error e => .error (line, e)
    | .ok (keys, names) => addEntries names keys more

/-- Reads a key list. -/
def parse (names : Names) (text : String) : Except (Nat × KeyError) (KeyList × Names) :=
  addEntries names {} (numberedEntries 1 (Text.splitAt '\n' text.toList))

end KeyList

end TypeLayout
