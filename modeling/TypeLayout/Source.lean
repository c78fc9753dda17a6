/-!
# Source text and the cursor that reads it

A `Cursor` stands somewhere in the declaration source. Besides the unread text it
knows its position, counted in characters, its line, whether a token has begun on
that line, and where the last few lines start, so that an error can be shown with
the source that leads up to it. There is one way to move, `Cursor.advance`, over
one character; every other motion repeats it.
-/

namespace TypeLayout

/-- One line of the source as it is shown under an error. -/
structure SourceLine where
  number : Nat
  text : String
deriving DecidableEq, Inhabited, Repr

/-- The place where a line of the source starts: its number and the text from
there on. -/
structure LineStart where
  number : Nat
  text : List Char
deriving DecidableEq, Inhabited, Repr

/-- The line that starts at a place, without its newline. -/
def LineStart.line (start : LineStart) : SourceLine :=
  ⟨start.number, String.ofList (start.text.takeWhile (· != '\n'))⟩

/-- How many lines are remembered when nothing else is asked for. -/
def defaultContextLines : Nat := 5

/-- A place in the source. -/
structure Cursor where
  /-- The text that has not been read. -/
  rest : List Char
  /-- How many characters have been read. -/
  position : Nat
  /-- The line the cursor is on, counted from one. -/
  line : Nat
  /-- No token has begun on the line so far. -/
  fresh : Bool
  /-- How many lines are remembered, the current one included. -/
  depth : Nat
  /-- The starts of the remembered lines, the current line first. -/
  recent : List LineStart
deriving DecidableEq, Inhabited, Repr

namespace Cursor

/-- A cursor at the start of a text. It remembers at least its own line. -/
def start (text : List Char) (depth : Nat) : Cursor where
  rest := text
  position := 0
  line := 1
  fresh := true
  depth := max depth 1
  recent := [⟨1, text⟩]

/-- One character further. Past a newline a new line starts, and the oldest
remembered one is given up when there are too many. -/
def advance (c : Cursor) : Cursor :=
  match c.rest with
  | [] => c
  | ch :: rest =>
    if ch = '\n' then
      { c with
        rest
        position := c.position + 1
        line := c.line + 1
        fresh := true
        recent := ⟨c.line + 1, rest⟩ :: c.recent.take (c.depth - 1) }
    else
      { c with rest, position := c.position + 1 }

/-- Some characters further. -/
def advanceBy : Nat → Cursor → Cursor
  | 0, c => c
  | n + 1, c => advanceBy n c.advance

/-- Over the rest of the line, up to its newline. -/
def toLineEnd (c : Cursor) : Cursor :=
  c.advanceBy (c.rest.takeWhile (· != '\n')).length

/-- The remembered lines, oldest first, ending with the line of the cursor. -/
def context (c : Cursor) : List SourceLine :=
  (c.recent.map LineStart.line).reverse

/-- What stands between this place and a later one, the last `back` characters
left out. -/
def textUntil (c later : Cursor) (back : Nat) : List Char :=
  c.rest.take (later.position - back - c.position)

/-! ### Motion reads the text -/

theorem rest_advance (c : Cursor) : c.advance.rest = c.rest.tail := by
  unfold advance
  split
  · simp_all
  · split <;> simp_all

theorem rest_advanceBy (n : Nat) (c : Cursor) : (c.advanceBy n).rest = c.rest.drop n := by
  induction n generalizing c with
  | zero => simp [advanceBy]
  | succ n ih => simp [advanceBy, ih, rest_advance]

theorem rest_toLineEnd (c : Cursor) :
    c.toLineEnd.rest = c.rest.dropWhile (· != '\n') := by
  rw [toLineEnd, rest_advanceBy]
  generalize c.rest = cs
  induction cs with
  | nil => rfl
  | cons ch cs ih =>
    by_cases h : (ch != '\n') = true <;> simp_all

end Cursor

/-- The text between two positions, counted in characters. -/
def sliceText (text : List Char) (start stop : Nat) : List Char :=
  (text.take stop).drop start

end TypeLayout
