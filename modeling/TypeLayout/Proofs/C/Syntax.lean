import TypeLayout.Declaration.Clause
import TypeLayout.Proofs.C.Types

/-!
# The syntax of C declarations

Units of struct and union definitions, enumerations and typedefs, as trees. The pieces of
the text (`Piece`) carry the proof that they are spelled right, words of a built-in type
that they go together, and what stands between parentheses or braces that it is balanced,
so that every tree can be written down.

`TranslationUnit.pieces` lists the pieces of a unit in order. A text is a writing of it
(`Written`) if it consists of these pieces with blanks anywhere between them, and at least
where two of them would run together.
-/

namespace TypeLayout.C

/-! ### Pieces of a text -/

/-- A word, a keyword or not. -/
structure Word where
  text : String
  starts : text.toList.head?.any startsIdentifier = true
  continues : text.toList.all isIdentifierChar = true

/-- A word that is not a keyword. -/
structure Ident extends Word where
  free : Keyword.of? text = none

/-- How an integer is written. -/
inductive Radix where
  | decimal
  | octal
  | hex (upper : Bool)
deriving DecidableEq, Repr

namespace Radix

/-- What a digit stands for more than the one after it. -/
def base : Radix → ℕ
  | decimal => 10
  | octal => 8
  | hex _ => 16

/-- What stands in front of the digits. -/
def lead : Radix → List Char
  | decimal => []
  | octal => ['0']
  | hex false => ['0', 'x']
  | hex true => ['0', 'X']

def isDigitOf : Radix → Char → Bool
  | decimal, c => isDigit c
  | octal, c => isDigit c && c != '8' && c != '9'
  | hex _, c => isHexDigit c

/-- The form of a constant that is written this way. -/
def form : Radix → NumberForm
  | decimal => .decimal
  | octal => .octal
  | hex _ => .hex

end Radix

/-- The letters of a suffix that make a constant unsigned. -/
def isU (c : Char) : Bool := c == 'u' || c == 'U'

/-- The letters of a suffix that make a constant long. -/
def isL (c : Char) : Bool := c == 'l' || c == 'L'

/-- An integer constant. A decimal one does not begin with a zero, unless it is nothing
else. -/
structure IntLiteral where
  radix : Radix
  digits : List Char
  suffix : List Char := []
  filled : digits ≠ []
  proper : digits.all radix.isDigitOf = true
  unpadded : radix = .decimal → digits.head? = some '0' → digits.length = 1
  letters : suffix.all (fun c => isU c || isL c) = true
  unsigned : suffix.countP isU ≤ 1
  long : suffix.countP isL ≤ 2

namespace IntLiteral

/-- The constant as it is written. -/
def text (n : IntLiteral) : List Char := n.radix.lead ++ n.digits ++ n.suffix

/-- **The value of a constant.** -/
def value (n : IntLiteral) : ℕ := Nat.ofDigits n.radix.base (n.digits.reverse.map digitValue)

/-- The constant as a token. -/
def number (n : IntLiteral) : Number String :=
  ⟨String.ofList n.text, n.radix.form,
    { unsigned := decide (0 < n.suffix.countP isU), long := n.suffix.countP isL }⟩

end IntLiteral

/-- The two sorts of quoted text. -/
inductive Quote where
  | string
  | char
deriving DecidableEq, Repr

def Quote.mark : Quote → Char
  | string => '"'
  | char => '\''

/-- A text can stand between quotes: it ends neither the literal nor the line, unless a
backslash takes what would along. -/
def isQuotable (quote : Char) : List Char → Bool
  | [] => true
  | '\\' :: _ :: cs => isQuotable quote cs
  | c :: cs => c != '\n' && c != quote && c != '\\' && isQuotable quote cs

/-- A punctuation character that begins nothing longer. -/
def isMark (c : Char) : Bool :=
  isPunctuation c && !startsIdentifier c && c != '"' && c != '\'' && c != '#'

/-- **A piece of a text.** -/
inductive Piece where
  | word (w : Word)
  | number (n : IntLiteral)
  | quoted (q : Quote) (text : List Char) (h : isQuotable q.mark text = true)
  | mark (c : Char) (h : isMark c = true)

namespace Piece

/-- A piece as it is written. -/
def text : Piece → List Char
  | word w => w.text.toList
  | number n => n.text
  | quoted q text _ => q.mark :: text ++ [q.mark]
  | mark c _ => [c]

/-- The token that a piece is. -/
def lexeme : Piece → Lexeme String
  | word w => .identifier w.text
  | number n => .number n.number
  | quoted .string text _ => .stringLiteral (String.ofList text)
  | quoted .char text _ => .charLiteral (String.ofList text)
  | mark c _ => .punct c

/-- What follows does not make a piece longer. -/
def Stops (rest : List Char) : Piece → Prop
  | word _ => rest.head?.any isIdentifierChar = false
  | number _ => rest.head?.any (fun c => isWordChar c || c == '.') = false
  | quoted _ _ _ => True
  | mark c _ => (c = '.' → rest.head?.any isDigit = false) ∧
      (c = '/' → rest.head?.any (fun d => d == '/' || d == '*') = false)

/-- A piece is a given punctuation character. -/
def is (c : Char) : Piece → Bool
  | mark d _ => d == c
  | _ => false

end Piece

/-- **The writings of some pieces**, with blanks in front of each and after the last. -/
inductive Written : List Piece → List Char → Prop
  | nil {blanks : List Char} (hb : blanks.all Text.isBlank = true) : Written [] blanks
  | cons {p : Piece} {ps : List Piece} {blanks rest : List Char}
    (hb : blanks.all Text.isBlank = true) (hs : p.Stops rest) (hw : Written ps rest) :
    Written (p :: ps) (blanks ++ (p.text ++ rest))

instance (rest : List Char) : (p : Piece) → Decidable (p.Stops rest)
  | .word _ | .number _ => inferInstanceAs (Decidable (_ = false))
  | .quoted _ _ _ => inferInstanceAs (Decidable True)
  | .mark c _ => inferInstanceAs (Decidable ((c = '.' → _) ∧ (c = '/' → _)))

/-- What the words of a built-in type can stand for. The last two have no size here: they
can be pointed to only. -/
inductive BaseType where
  | arithmetic (a : Arithmetic)
  | void
  | longDouble
deriving DecidableEq, Repr

/-- **The ways to write a built-in type**, each in any order. -/
def BaseType.ways : BaseType → List (List BaseWord)
  | arithmetic .char => [[.core .char]]
  | arithmetic .signedChar => [[.signed, .core .char]]
  | arithmetic .unsignedChar => [[.unsigned, .core .char]]
  | arithmetic .short =>
    [[.short], [.signed, .short], [.short, .core .int], [.signed, .short, .core .int]]
  | arithmetic .unsignedShort => [[.unsigned, .short], [.unsigned, .short, .core .int]]
  | arithmetic .int => [[.core .int], [.signed], [.signed, .core .int]]
  | arithmetic .unsignedInt => [[.unsigned], [.unsigned, .core .int]]
  | arithmetic .long =>
    [[.long], [.signed, .long], [.long, .core .int], [.signed, .long, .core .int]]
  | arithmetic .unsignedLong => [[.unsigned, .long], [.unsigned, .long, .core .int]]
  | arithmetic .longLong =>
    [[.long, .long], [.signed, .long, .long], [.long, .long, .core .int],
      [.signed, .long, .long, .core .int]]
  | arithmetic .unsignedLongLong =>
    [[.unsigned, .long, .long], [.unsigned, .long, .long, .core .int]]
  | arithmetic .float => [[.core .float]]
  | arithmetic .double => [[.core .double]]
  | arithmetic .bool => [[.core .bool]]
  | void => [[.core .void]]
  | longDouble => [[.long, .core .double]]

/-- A built-in type as it is written. -/
structure BaseSpec where
  type : BaseType
  words : List BaseWord
  valid : ∃ way ∈ type.ways, way.Perm words

/-- A word of a built-in type. -/
def wordOf : BaseWord → Word
  | .signed => ⟨"signed", by decide, by decide⟩
  | .unsigned => ⟨"unsigned", by decide, by decide⟩
  | .short => ⟨"short", by decide, by decide⟩
  | .long => ⟨"long", by decide, by decide⟩
  | .core .char => ⟨"char", by decide, by decide⟩
  | .core .int => ⟨"int", by decide, by decide⟩
  | .core .float => ⟨"float", by decide, by decide⟩
  | .core .double => ⟨"double", by decide, by decide⟩
  | .core .void => ⟨"void", by decide, by decide⟩
  | .core .bool => ⟨"_Bool", by decide, by decide⟩

def tagWord : TagKind → Word
  | .struct => ⟨"struct", by decide, by decide⟩
  | .union => ⟨"union", by decide, by decide⟩

def enumWord : Word := ⟨"enum", by decide, by decide⟩

def typedefWord : Word := ⟨"typedef", by decide, by decide⟩

/-! ### Declarations -/

/-- Brackets of a kind are balanced in some pieces, if `depth` more are open in front of
them. -/
def isBalanced (left right : Char) : ℕ → List Piece → Bool
  | depth, [] => depth == 0
  | 0, p :: ps => !p.is right && isBalanced left right (if p.is left then 1 else 0) ps
  | depth + 1, p :: ps =>
    isBalanced left right
      (if p.is left then depth + 2 else if p.is right then depth else depth + 1) ps

/-- Pieces that make no difference to a layout, between brackets of a kind. -/
structure Filler (left right : Char) where
  pieces : List Piece
  balanced : isBalanced left right 0 pieces = true

/-- What can stand after the name in a declarator. -/
inductive Tail where
  | array (n : IntLiteral)
  | function (params : Filler '(' ')')

/-- **Declarators**: stars, a name or another declarator in parentheses, and what stands
after it. -/
inductive Declr where
  | name (stars : ℕ) (name : Ident) (tails : List Tail)
  | paren (stars : ℕ) (inner : Declr) (tails : List Tail)

/-- An enumeration, with its values or without. -/
inductive EnumSpec where
  | tag (name : Ident)
  | body (name : Option Ident) (values : Filler '{' '}')

mutual

/-- **What can name a type**, or define one. -/
inductive Specifier where
  | base (b : BaseSpec)
  | named (name : Ident)
  | tag (kind : TagKind) (name : Ident)
  | enum (e : EnumSpec)
  | body (kind : TagKind) (name : Option Ident) (members : Members)

/-- The content of a body. A type without a declarator is an unnamed member if it is a body
without a tag, and declares none otherwise. -/
inductive Members where
  | nil
  | cons (type : Specifier) (declarators : List Declr) (more : Members)

end

/-- A declaration at file scope. -/
structure Declaration where
  typedef : Bool
  type : Specifier
  declarators : List Declr

/-- **A unit**: declarations one after the other. -/
structure TranslationUnit where
  declarations : List Declaration

/-! ### Pieces of declarations -/

def Tail.pieces : Tail → List Piece
  | array n => [.mark '[' (by decide), .number n, .mark ']' (by decide)]
  | function params => .mark '(' (by decide) :: params.pieces ++ [.mark ')' (by decide)]

def Declr.pieces : Declr → List Piece
  | .name stars x tails =>
    List.replicate stars (.mark '*' (by decide)) ++ .word x.toWord :: tails.flatMap Tail.pieces
  | .paren stars inner tails =>
    List.replicate stars (.mark '*' (by decide)) ++
      .mark '(' (by decide) :: inner.pieces ++ .mark ')' (by decide) :: tails.flatMap Tail.pieces

/-- Declarators with commas between them. -/
def declrPieces : List Declr → List Piece
  | [] => []
  | [d] => d.pieces
  | d :: ds => d.pieces ++ .mark ',' (by decide) :: declrPieces ds

/-- The tag after a keyword, if there is one. -/
def tagPieces (name : Option Ident) : List Piece := name.toList.map fun n => .word n.toWord

def EnumSpec.pieces : EnumSpec → List Piece
  | tag name => [.word enumWord, .word name.toWord]
  | body name values =>
    .word enumWord :: tagPieces name ++ .mark '{' (by decide) :: values.pieces ++
      [.mark '}' (by decide)]

mutual

def Specifier.pieces : Specifier → List Piece
  | .base b => b.words.map fun w => .word (wordOf w)
  | .named name => [.word name.toWord]
  | .tag kind name => [.word (tagWord kind), .word name.toWord]
  | .enum e => e.pieces
  | .body kind name members =>
    .word (tagWord kind) :: tagPieces name ++ .mark '{' (by decide) :: members.pieces ++
      [.mark '}' (by decide)]

def Members.pieces : Members → List Piece
  | .nil => []
  | .cons type ds more => type.pieces ++ declrPieces ds ++ .mark ';' (by decide) :: more.pieces

end

def Declaration.pieces (d : Declaration) : List Piece :=
  (if d.typedef then [.word typedefWord] else []) ++ d.type.pieces ++ declrPieces d.declarators ++
    [.mark ';' (by decide)]

/-- The pieces of a unit in order. -/
def TranslationUnit.pieces (u : TranslationUnit) : List Piece :=
  u.declarations.flatMap Declaration.pieces

end TypeLayout.C
