import TypeLayout.Names
import TypeLayout.Source

/-!
# Tokens

The pieces of declaration source: identifiers, numeric constants, string and
character literals and single punctuation characters. What a token is, its
`Lexeme`, is kept apart from where it stands. A lexeme holds its text either as a
spelling or as the position of the spelling in a `Names` table; the second form is
what the tokens of a source and errors carry.
-/

namespace TypeLayout

/-- The written form of a numeric constant. -/
inductive NumberForm where
  | decimal
  | octal
  | hex
  | float
deriving DecidableEq, Inhabited, Repr

/-- The letters after a numeric constant, as in `10UL` or `1.5f`. -/
structure Suffix where
  unsigned : Bool := false
  long : Nat := 0
  float : Bool := false
deriving DecidableEq, Inhabited, Repr

/-- A numeric constant; its text is all of it, suffix included. -/
structure Number (τ : Type) where
  text : τ
  form : NumberForm
  suffix : Suffix
deriving DecidableEq, Inhabited, Repr

/-- What a token is. The text of a literal leaves out its quotes and keeps its
escapes as they are written. -/
inductive Lexeme (τ : Type) where
  | identifier (text : τ)
  | number (n : Number τ)
  | stringLiteral (text : τ)
  | charLiteral (text : τ)
  | punct (c : Char)
  | eof
deriving DecidableEq, Inhabited, Repr

namespace Lexeme

variable {τ : Type}

/-- The text that a lexeme carries. -/
def text? : Lexeme τ → Option τ
  | identifier s | stringLiteral s | charLiteral s => some s
  | number n => some n.text
  | punct _ | eof => none

/-- Whether a lexeme is the given punctuation character. -/
def isPunct (c : Char) : Lexeme τ → Bool
  | punct d => d == c
  | _ => false

/-- A lexeme the way it is written in the source. -/
def spelling : Lexeme String → String
  | identifier s => s
  | number n => n.text
  | stringLiteral s => "\"" ++ s ++ "\""
  | charLiteral s => "'" ++ s ++ "'"
  | punct c => c.toString
  | eof => ""

/-- A lexeme as messages name it, if its text can be spelled. -/
def describe? (spell? : τ → Option String) : Lexeme τ → Option String
  | identifier s => (spell? s).map ("identifier " ++ ·)
  | number n => (spell? n.text).map ("number " ++ ·)
  | stringLiteral s => (spell? s).map ("string literal \"" ++ · ++ "\"")
  | charLiteral s => (spell? s).map ("character literal '" ++ · ++ "'")
  | punct c => some ("'" ++ c.toString ++ "'")
  | eof => some "end of file"

/-- The lexeme with another text. -/
def map {σ : Type} (f : τ → σ) : Lexeme τ → Lexeme σ
  | identifier s => identifier (f s)
  | number n => number ⟨f n.text, n.form, n.suffix⟩
  | stringLiteral s => stringLiteral (f s)
  | charLiteral s => charLiteral (f s)
  | punct c => punct c
  | eof => eof

/-- The lexeme with its text interned. -/
def intern (names : Names) : Lexeme String → Lexeme NameId × Names
  | identifier s => let (id, names) := names.insert s; (identifier id, names)
  | number n => let (id, names) := names.insert n.text; (number ⟨id, n.form, n.suffix⟩, names)
  | stringLiteral s => let (id, names) := names.insert s; (stringLiteral id, names)
  | charLiteral s => let (id, names) := names.insert s; (charLiteral id, names)
  | punct c => (punct c, names)
  | eof => (eof, names)

end Lexeme

/-- A token and where it stands. -/
structure Token (τ : Type := String) where
  /-- The line on which the token begins. -/
  line : Nat
  lexeme : Lexeme τ
  /-- The place just past the token. -/
  after : Cursor
deriving DecidableEq, Inhabited, Repr

namespace Token

variable {τ : Type}

/-- Whether a token is the given punctuation character. -/
def isPunct (c : Char) (t : Token τ) : Bool := t.lexeme.isPunct c

/-- Whether a token is the end of the source. -/
def isEof [DecidableEq τ] (t : Token τ) : Bool := t.lexeme == .eof

/-- A token with its line, as messages name it. -/
def describe (t : Token) : String :=
  s!"L{t.line}: " ++ (t.lexeme.describe? some).getD ""

end Token

end TypeLayout
