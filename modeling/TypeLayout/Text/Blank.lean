/-!
# Blank characters

The characters with the Unicode property `White_Space`, and the two ways in which
they divide text: trimming the ends and splitting into words.
-/

namespace TypeLayout.Text

/-- The characters with the property `White_Space`. -/
def isBlank (c : Char) : Bool :=
  let n := c.toNat
  (9 ≤ n && n ≤ 13) || n == 0x20 || n == 0x85 || n == 0xA0 || n == 0x1680
    || (0x2000 ≤ n && n ≤ 0x200A) || n == 0x2028 || n == 0x2029 || n == 0x202F
    || n == 0x205F || n == 0x3000

/-- The text without the characters of a class at its end. -/
def dropEnd (p : Char → Bool) (cs : List Char) : List Char :=
  (cs.reverse.dropWhile p).reverse

/-- The text without the blanks at its two ends. -/
def trim (cs : List Char) : List Char :=
  dropEnd isBlank (cs.dropWhile isBlank)

/-- The maximal runs of characters outside a class, in order. The accumulator
holds the run being read, last character first. -/
def splitRuns (p : Char → Bool) (run : List Char) : List Char → List (List Char)
  | [] => if run.isEmpty then [] else [run.reverse]
  | c :: cs =>
    if p c then
      if run.isEmpty then splitRuns p [] cs else run.reverse :: splitRuns p [] cs
    else
      splitRuns p (c :: run) cs

/-- The words of a text: its maximal runs of characters that are not blank. -/
def words (cs : List Char) : List (List Char) :=
  splitRuns isBlank [] cs

/-- The pieces of a text between the places where a character stands; one piece
more than there are such places. -/
def splitAt (sep : Char) : List Char → List (List Char)
  | [] => [[]]
  | c :: cs =>
    if c = sep then
      [] :: splitAt sep cs
    else
      match splitAt sep cs with
      | [] => [[c]]
      | piece :: pieces => (c :: piece) :: pieces

end TypeLayout.Text
