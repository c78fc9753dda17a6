import TypeLayout.Text.Blank
import TypeLayout.Text.Quoted
import TypeLayout.Token.Number

/-!
# Reading tokens

`nextToken` reads one token from a cursor, after the blanks, comments and
preprocessor line markers in front of it. A failure carries a cursor too, from
which reading can go on; `scan` stops at the first failure or at the end of the
text.

A line marker, such as `# 1 "file.h"`, is a `#` in front of every token of its
line. Blanks are those of Unicode; identifiers, numbers and punctuation are
ASCII.
-/

namespace TypeLayout

/-- What can be wrong with the text of a token. -/
inductive LexError where
  | unexpectedCharacter (c : Char)
  | unterminatedLiteral (quote : Char)
  | unterminatedComment
  | invalidNumber (text : String)
deriving DecidableEq, Repr

/-- The text of an error. -/
def LexError.message : LexError → String
  | unexpectedCharacter c => "Unexpected character " ++ Text.quoted c
  | unterminatedLiteral q => "Missing closing " ++ q.toString ++ " on literal"
  | unterminatedComment => "Block comment is never closed"
  | invalidNumber text => "Invalid numeric constant " ++ text

/-- A token that could not be read: the line on which it begins and the place
where reading would go on. -/
structure LexFault where
  line : Nat
  error : LexError
  after : Cursor
deriving DecidableEq, Repr

/-! ### Between tokens -/

/-- Reads the rest of a block comment that begins on the given line. -/
def skipComment (line : Nat) (c : Cursor) : Except LexFault Cursor :=
  match _h : c.rest with
  | [] => .error ⟨line, .unterminatedComment, c⟩
  | '*' :: '/' :: _ => .ok (c.advanceBy 2)
  | _ :: _ => skipComment line c.advance
termination_by c.rest.length
decreasing_by simp_all [Cursor.rest_advance]

theorem length_skipComment {line : Nat} {c d : Cursor} (h : skipComment line c = .ok d) :
    d.rest.length ≤ c.rest.length := by
  fun_induction skipComment line c with
  | case1 => simp at h
  | case2 c rest hc =>
    obtain rfl : c.advanceBy 2 = d := by simpa using h
    simp [Cursor.rest_advanceBy]
  | case3 c _ _ _ hc ih =>
    have := ih h
    simp only [Cursor.rest_advance, hc, List.tail_cons, List.length_cons] at this ⊢
    omega

theorem length_toLineEnd {c : Cursor} {ch : Char} {rest : List Char}
    (h : c.rest = ch :: rest) (hch : ch ≠ '\n') :
    c.toLineEnd.rest.length < c.rest.length := by
  rw [Cursor.rest_toLineEnd, h, List.dropWhile_cons_of_pos (by simpa using hch)]
  simp only [List.length_cons]
  have := (List.dropWhile_sublist (l := rest) (· != '\n')).length_le
  omega

/-- The place of the next token: past blanks, comments and line markers. -/
def skipTrivia (c : Cursor) : Except LexFault Cursor :=
  match _h : c.rest with
  | [] => .ok c
  | ch :: rest =>
    if Text.isBlank ch then
      skipTrivia c.advance
    else if _hm : ch = '#' ∧ c.fresh then
      skipTrivia c.toLineEnd
    else if _hl : ch = '/' ∧ rest.head? = some '/' then
      skipTrivia c.toLineEnd
    else if ch = '/' ∧ rest.head? = some '*' then
      match _hk : skipComment c.line (c.advanceBy 2) with
      | .error fault => .error fault
      | .ok d => skipTrivia d
    else
      .ok c
termination_by c.rest.length
decreasing_by
  · simp [Cursor.rest_advance, _h]
  · exact length_toLineEnd _h (by rintro rfl; simp at _hm)
  · exact length_toLineEnd _h (by rintro rfl; simp at _hl)
  · have := length_skipComment _hk
    simp only [Cursor.rest_advanceBy, List.length_drop] at this
    simp only [_h, List.length_cons] at this ⊢
    omega

/-! ### Tokens -/

/-- The characters that begin an identifier. -/
def startsIdentifier (c : Char) : Bool := isLetter c || c == '_' || c == '$'

/-- The characters that continue an identifier. -/
def isIdentifierChar (c : Char) : Bool := isLetter c || isDigit c || c == '_' || c == '$'

/-- The ASCII punctuation characters. -/
def isPunctuation (c : Char) : Bool :=
  let n := c.toNat
  (0x21 ≤ n && n ≤ 0x2F) || (0x3A ≤ n && n ≤ 0x40) || (0x5B ≤ n && n ≤ 0x60)
    || (0x7B ≤ n && n ≤ 0x7E)

/-- The rest of a literal after its opening quote. A backslash takes the next
character along whatever it is; a bare newline ends the literal too early. -/
def readLiteral (quote : Char) (line : Nat) (c : Cursor) : Except LexFault (List Char × Cursor) :=
  match _h : c.rest with
  | [] => .error ⟨line, .unterminatedLiteral quote, c⟩
  | ch :: rest =>
    if ch = '\n' then
      .error ⟨line, .unterminatedLiteral quote, c⟩
    else if ch = quote then
      .ok ([], c.advance)
    else if ch = '\\' then
      match _h' : rest with
      | [] => .error ⟨line, .unterminatedLiteral quote, c.advance⟩
      | e :: _ =>
        match readLiteral quote line c.advance.advance with
        | .error fault => .error fault
        | .ok (text, d) => .ok (ch :: e :: text, d)
    else
      match readLiteral quote line c.advance with
      | .error fault => .error fault
      | .ok (text, d) => .ok (ch :: text, d)
termination_by c.rest.length
decreasing_by
  all_goals
    simp only [Cursor.rest_advance, _h, List.tail_cons, List.length_cons]
    omega

/-- Reads the token that starts exactly at the cursor; `ch` is its first
character. -/
def readToken (c : Cursor) (ch : Char) : Except LexFault Token :=
  let token (lexeme : Lexeme String) (after : Cursor) : Except LexFault Token :=
    .ok ⟨c.line, lexeme, after⟩
  if startsNumber c.rest then
    match readNumber c.rest with
    | .constant text form suffix =>
      token (.number ⟨String.ofList text, form, suffix⟩) (c.advanceBy text.length)
    | .malformed text => .error ⟨c.line, .invalidNumber (String.ofList text), c⟩
    | .badOctal text =>
      .error ⟨c.line, .invalidNumber (String.ofList text), c.advanceBy text.length⟩
  else if startsIdentifier ch then
    let text := c.rest.takeWhile isIdentifierChar
    token (.identifier (String.ofList text)) (c.advanceBy text.length)
  else if ch = '"' ∨ ch = '\'' then
    match readLiteral ch c.line c.advance with
    | .error fault => .error fault
    | .ok (text, d) =>
      let text := String.ofList text
      token (if ch = '"' then .stringLiteral text else .charLiteral text) d
  else if isPunctuation ch then
    token (.punct ch) c.advance
  else
    .error ⟨c.line, .unexpectedCharacter ch, c⟩

/-- The next token, which is the end of the source once the text is used up. -/
def nextToken (c : Cursor) : Except LexFault Token :=
  match skipTrivia c with
  | .error fault => .error fault
  | .ok c =>
    match c.rest with
    | [] => .ok ⟨c.line, .eof, c⟩
    | ch :: _ => readToken { c with fresh := false } ch

/-! ### Every token takes text -/

theorem length_skipTrivia {c d : Cursor} (h : skipTrivia c = .ok d) :
    d.rest.length ≤ c.rest.length := by
  fun_induction skipTrivia c with
  | case1 c hc => simp_all
  | case2 c ch rest hc _ ih =>
    have := ih h
    simp only [Cursor.rest_advance, List.length_tail] at this
    omega
  | case3 c ch rest hc _ hm ih =>
    have := length_toLineEnd hc (by rintro rfl; simp at hm)
    have := ih h
    omega
  | case4 c ch rest hc _ _ hl ih =>
    have := length_toLineEnd hc (by rintro rfl; simp at hl)
    have := ih h
    omega
  | case5 => simp at h
  | case6 c ch rest hc _ _ _ _ e hk ih =>
    have h1 := ih h
    have h2 := length_skipComment hk
    simp only [Cursor.rest_advanceBy, List.length_drop] at h2
    omega
  | case7 => simp_all

theorem length_readLiteral {quote : Char} {line : Nat} {c d : Cursor} {text : List Char}
    (h : readLiteral quote line c = .ok (text, d)) : d.rest.length ≤ c.rest.length := by
  have step (e : Cursor) : e.advance.rest.length ≤ e.rest.length := by
    simp [Cursor.rest_advance]
  fun_induction readLiteral quote line c generalizing text d with
  | case1 | case2 | case4 | case5 | case7 => simp at h
  | case3 c =>
    obtain ⟨-, rfl⟩ : [] = text ∧ c.advance = d := by simpa using h
    exact step c
  | case6 c _ _ u e hr _ _ _ _ ih =>
    obtain ⟨-, rfl⟩ := Prod.mk.injEq .. ▸ Except.ok.inj h
    exact Nat.le_trans (ih hr) (Nat.le_trans (step _) (step _))
  | case8 c _ _ _ _ _ _ u e hr ih =>
    obtain ⟨-, rfl⟩ := Prod.mk.injEq .. ▸ Except.ok.inj h
    exact Nat.le_trans (ih hr) (step _)

theorem length_readToken {c : Cursor} {ch : Char} {rest : List Char} {t : Token}
    (hc : c.rest = ch :: rest) (h : readToken c ch = .ok t) :
    t.after.rest.length < c.rest.length := by
  have drop {n : Nat} (hn : 0 < n) : (c.advanceBy n).rest.length < c.rest.length := by
    simp only [Cursor.rest_advanceBy, List.length_drop, hc, List.length_cons]
    omega
  unfold readToken at h
  split at h
  · rename_i hs
    split at h
    · rename_i text form suffix hr
      obtain rfl := Except.ok.inj h
      exact drop (List.length_pos_iff.2 (readNumber_ne_nil hs hr))
    · simp at h
    · simp at h
  · split at h
    · rename_i hs
      obtain rfl := Except.ok.inj h
      have : isIdentifierChar ch = true := by
        simp only [startsIdentifier, isIdentifierChar, Bool.or_eq_true] at hs ⊢
        rcases hs with (hs | hs) | hs <;> simp [hs]
      exact drop (by simp [hc, this])
    · split at h
      · split at h
        · simp at h
        · rename_i hr
          obtain rfl := Except.ok.inj h
          have := length_readLiteral hr
          simp only [Cursor.rest_advance, hc, List.tail_cons, List.length_cons] at this ⊢
          omega
      · split at h
        · obtain rfl := Except.ok.inj h
          simp [Cursor.rest_advance, hc]
        · simp at h

theorem length_nextToken {c : Cursor} {t : Token} (h : nextToken c = .ok t)
    (ht : t.lexeme ≠ .eof) : t.after.rest.length < c.rest.length := by
  unfold nextToken at h
  split at h
  · simp at h
  · rename_i d hd
    have hle := length_skipTrivia hd
    split at h
    · obtain rfl := Except.ok.inj h
      exact absurd rfl ht
    · rename_i ch rest hr
      exact Nat.lt_of_lt_of_le (length_readToken (c := { d with fresh := false }) hr h) hle

/-! ### The whole source -/

/-- The tokens of a text up to its end or its first fault, and which of the two
comes after them; the end is a token of its own. -/
structure Scan where
  tokens : List Token
  ending : Except LexFault Token

/-- Reads every token. -/
def scan (c : Cursor) : Scan :=
  match _h : nextToken c with
  | .error fault => ⟨[], .error fault⟩
  | .ok t =>
    if _ht : t.lexeme = .eof then
      ⟨[], .ok t⟩
    else
      let more := scan t.after
      ⟨t :: more.tokens, more.ending⟩
termination_by c.rest.length
decreasing_by exact length_nextToken _h _ht

end TypeLayout
