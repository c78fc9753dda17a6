/-!
# JSON text

The values that a table dump consists of and their indented text: two blanks for
each level, one member or element a line, and `[]` or an empty pair of braces for
what is empty. In a string only the quote, the backslash and the control
characters below the blank are escaped.
-/

namespace TypeLayout.Text

/-- A JSON value without fractions. -/
inductive Json where
  | bool (b : Bool)
  | num (n : Nat)
  | str (s : String)
  | arr (elems : List Json)
  | obj (members : List (String × Json))

namespace Json

/-- A number below 256 as two hexadecimal digits after two zeros. -/
def controlEscape (n : Nat) : String :=
  let digits := Nat.toDigits 16 n
  "\\u00" ++ (if digits.length < 2 then "0" else "") ++ String.ofList digits

/-- What stands for a character inside a string. -/
def escape (c : Char) : String :=
  if c = '"' then "\\\""
  else if c = '\\' then "\\\\"
  else if c = '\x08' then "\\b"
  else if c = '\t' then "\\t"
  else if c = '\n' then "\\n"
  else if c = '\x0c' then "\\f"
  else if c = '\r' then "\\r"
  else if c.toNat < 0x20 then controlEscape c.toNat
  else c.toString

/-- A string with its quotes. -/
def quote (s : String) : String :=
  "\"" ++ String.join (s.toList.map escape) ++ "\""

/-- The start of a line at a level of nesting. -/
def indent (level : Nat) : String :=
  "\n" ++ String.ofList (List.replicate (2 * level) ' ')

/-- Pieces between brackets, one a line, at a level of nesting. -/
def block (left right : String) (level : Nat) (pieces : List String) : String :=
  if pieces.isEmpty then
    left ++ right
  else
    left ++ String.intercalate "," (pieces.map (indent (level + 1) ++ ·))
      ++ indent level ++ right

mutual

/-- The indented text of a value that stands at a level of nesting. -/
def pretty (level : Nat) : Json → String
  | bool b => if b then "true" else "false"
  | num n => toString n
  | str s => quote s
  | arr elems => block "[" "]" level (prettyElems (level + 1) elems)
  | obj members => block "\x7b" "\x7d" level (prettyMembers (level + 1) members)

/-- The texts of the elements of an array. -/
def prettyElems (level : Nat) : List Json → List String
  | [] => []
  | v :: vs => pretty level v :: prettyElems level vs

/-- The texts of the members of an object. -/
def prettyMembers (level : Nat) : List (String × Json) → List String
  | [] => []
  | (k, v) :: ms => (quote k ++ ": " ++ pretty level v) :: prettyMembers level ms

end

/-- The text of a value, which can always be written. -/
def serialize (v : Json) : Except String String := .ok (pretty 0 v)

end Json

end TypeLayout.Text
