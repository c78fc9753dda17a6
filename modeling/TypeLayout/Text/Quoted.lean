import TypeLayout.Text.Hidden

/-!
# A character between quotes

How a message shows a single character: between single quotes, with the usual
short escapes, and by its number in braces when it is not shown as it is.
-/

namespace TypeLayout.Text

/-- The digits of a number in base sixteen, in lower case. -/
def hexDigits (n : Nat) : String := String.ofList (Nat.toDigits 16 n)

/-- What stands for a character between single quotes. -/
def escaped (c : Char) : String :=
  if c = '\x00' then "\\0"
  else if c = '\t' then "\\t"
  else if c = '\r' then "\\r"
  else if c = '\n' then "\\n"
  else if c = '\'' then "\\'"
  else if c = '\\' then "\\\\"
  else if isHidden c then "\\u\x7b" ++ hexDigits c.toNat ++ "\x7d"
  else c.toString

/-- A character between single quotes. -/
def quoted (c : Char) : String := "'" ++ escaped c ++ "'"

end TypeLayout.Text
