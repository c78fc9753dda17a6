/-!
# Cells of the descriptor table

A cell is one entry of the table. Converters read it in *packed* form, as one
number: a count or an index shifted by eight bits, with a letter or an alignment in
the low byte.
-/

namespace TypeLayout

/-- One entry of the table. -/
inductive Cell where
  /-- The size in bytes of the node that starts here. -/
  | length (n : Nat)
  /-- Consecutive elements of one kind; `last` marks the last field of a node. -/
  | field (count : Nat) (code : Char) (last : Bool)
  /-- Where the node starts that the struct link before it leads to. -/
  | structRef (offset : Nat)
  /-- The jump slot of the union that the union link before it leads to, and the
  alignment of that union. -/
  | unionRef (index align : Nat)
deriving DecidableEq, Inhabited, Repr

namespace Cell

/-- A value moved up by eight bits, if 64 bits can hold it. -/
def shift? (value : Nat) : Option Nat :=
  if value < 0x100000000000000 then some (value <<< 8) else none

/-- The packed form of a cell, if 64 bits can hold it. The letter of the last field of
a node is in upper case. -/
def pack? : Cell → Option Nat
  | length n | structRef n => some n
  | field count code last =>
    let code := if last then code.toUpper else code
    (shift? count).map (· ||| code.toNat)
  | unionRef index align => (shift? index).map (· ||| align)

/-- The word for the letter of an element. -/
def codeWord (code : Char) : String :=
  if code = 'p' then "pointer"
  else if code = 'f' then "function"
  else if code = 's' then "struct"
  else if code = 'u' then "union"
  else if code = 'e' then "enum"
  else if code = 'c' then "int8"
  else if code = 'h' then "int16"
  else if code = 'i' then "int32"
  else if code = 'l' then "int64"
  else if code = 'r' then "float32"
  else if code = 'd' then "float64"
  else "?"

/-- A cell in words, for the comments of the C table. -/
def describe : Cell → String
  | length n => s!"length {n}"
  | field count code last =>
    s!"{count} x " ++ codeWord code ++ (if last then ", last" else "")
  | structRef offset => s!"-> {offset}"
  | unionRef index align => s!"jump {index} align {align}"

end Cell

end TypeLayout
