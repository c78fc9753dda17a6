import TypeLayout.Token

/-!
# Numeric constants

A numeric constant is read in three parts. The body decides its form: `0x` makes
it hexadecimal, a leading zero octal, a point or an exponent a float. Then come the
suffix letters. What follows must not continue a word, so `12abc` is not a
constant; nor is an octal constant with an eight or a nine in it.
-/

namespace TypeLayout

/-- The ASCII digits. -/
def isDigit (c : Char) : Bool := '0' ≤ c && c ≤ '9'

/-- The ASCII letters. -/
def isLetter (c : Char) : Bool := ('a' ≤ c && c ≤ 'z') || ('A' ≤ c && c ≤ 'Z')

/-- The hexadecimal digits. -/
def isHexDigit (c : Char) : Bool :=
  isDigit c || ('a' ≤ c && c ≤ 'f') || ('A' ≤ c && c ≤ 'F')

/-- The characters that continue a word after a number. -/
def isWordChar (c : Char) : Bool := isLetter c || isDigit c || c == '_'

/-- Whether a text starts with a numeric constant: with a digit, or with a point
and a digit. -/
def startsNumber : List Char → Bool
  | '.' :: c :: _ => isDigit c
  | c :: _ => isDigit c
  | [] => false

/-- What was read of a constant, its form, and the text after it. -/
structure NumberBody where
  taken : List Char
  form : NumberForm
  rest : List Char

namespace NumberBody

/-- The digits at the start of a text. -/
def ofDigits (cs : List Char) : NumberBody :=
  let digits := cs.takeWhile isDigit
  let form := if digits.head? = some '0' && 1 < digits.length then .octal else .decimal
  ⟨digits, form, cs.dropWhile isDigit⟩

/-- Takes a point and the digits after it along. -/
def withFraction (b : NumberBody) : NumberBody :=
  match b.rest with
  | '.' :: cs => ⟨b.taken ++ '.' :: cs.takeWhile isDigit, .float, cs.dropWhile isDigit⟩
  | _ => b

/-- Takes an exponent along. The letter begins one only if a digit follows it,
after a sign or at once. -/
def withExponent (b : NumberBody) : NumberBody :=
  match b.rest with
  | e :: s :: cs =>
    if e = 'e' || e = 'E' then
      if isDigit s then
        ⟨b.taken ++ e :: s :: cs.takeWhile isDigit, .float, cs.dropWhile isDigit⟩
      else if (s = '+' || s = '-') && (cs.head?.any isDigit) then
        ⟨b.taken ++ e :: s :: cs.takeWhile isDigit, .float, cs.dropWhile isDigit⟩
      else b
    else b
  | _ => b

/-- The body of a constant that is not hexadecimal. -/
def decimal (cs : List Char) : NumberBody :=
  ((ofDigits cs).withFraction).withExponent

end NumberBody

/-- Reads suffix letters while they fit: one `u` unless the constant is a float,
two `l`, one `f` if it is. -/
def takeSuffix (form : NumberForm) (suffix : Suffix) : List Char → List Char × Suffix × List Char
  | [] => ([], suffix, [])
  | c :: cs =>
    let next (suffix : Suffix) :=
      let (taken, suffix, rest) := takeSuffix form suffix cs
      (c :: taken, suffix, rest)
    if (c = 'u' || c = 'U') && !suffix.unsigned && form != .float then
      next { suffix with unsigned := true }
    else if (c = 'l' || c = 'L') && suffix.long < 2 then
      next { suffix with long := suffix.long + 1 }
    else if (c = 'f' || c = 'F') && form == .float && !suffix.float then
      next { suffix with float := true }
    else
      ([], suffix, c :: cs)

/-- How reading a numeric constant ends. -/
inductive NumberReading where
  | constant (text : List Char) (form : NumberForm) (suffix : Suffix)
  /-- Not a constant; nothing counts as read. -/
  | malformed (text : List Char)
  /-- An octal constant with a digit that is not octal; all of it is read. -/
  | badOctal (text : List Char)

/-- Reads the numeric constant at the start of a text that `startsNumber`. -/
def readNumber (cs : List Char) : NumberReading :=
  let finish (b : NumberBody) : NumberReading :=
    let (letters, suffix, rest) := takeSuffix b.form {} b.rest
    let text := b.taken ++ letters
    if rest.head?.any isWordChar then
      .malformed (text ++ rest.takeWhile isWordChar)
    else if b.form == .octal && text.any fun c => c == '8' || c == '9' then
      .badOctal text
    else
      .constant text b.form suffix
  match cs with
  | '0' :: x :: digits =>
    if x = 'x' || x = 'X' then
      if (digits.takeWhile isHexDigit).isEmpty then
        .malformed ['0', x]
      else
        finish ⟨'0' :: x :: digits.takeWhile isHexDigit, .hex, digits.dropWhile isHexDigit⟩
    else
      finish (.decimal cs)
  | _ => finish (.decimal cs)

/-! ### A constant has at least one character -/

namespace NumberBody

theorem taken_withExponent {b : NumberBody} (h : b.taken ≠ []) : b.withExponent.taken ≠ [] := by
  unfold withExponent
  split
  · split
    · split
      · simp
      · split <;> simp [h]
    · exact h
  · exact h

theorem taken_withFraction {cs : List Char} (h : startsNumber cs) :
    (ofDigits cs).withFraction.taken ≠ [] := by
  unfold withFraction
  split
  · simp
  · rename_i hp
    unfold startsNumber at h
    split at h
    · rename_i c cs
      exact absurd (by simp [ofDigits, isDigit]) (hp (c :: cs))
    · simp [ofDigits, h]
    · simp at h

theorem taken_decimal {cs : List Char} (h : startsNumber cs) : (decimal cs).taken ≠ [] :=
  taken_withExponent (taken_withFraction h)

end NumberBody

theorem readNumber_ne_nil {cs text : List Char} {form : NumberForm} {suffix : Suffix}
    (hs : startsNumber cs) (h : readNumber cs = .constant text form suffix) : text ≠ [] := by
  unfold readNumber at h
  have taken {b : NumberBody} (hb : b.taken ≠ []) (letters : List Char) :
      b.taken ++ letters ≠ [] := by simp [hb]
  dsimp only at h
  split at h
  · split at h
    · split at h
      · simp at h
      · split at h
        · simp at h
        · split at h
          · simp at h
          · obtain ⟨rfl, -, -⟩ := NumberReading.constant.inj h
            simp
    · split at h
      · simp at h
      · split at h
        · simp at h
        · obtain ⟨rfl, -, -⟩ := NumberReading.constant.inj h
          exact taken (NumberBody.taken_decimal hs) _
  · split at h
    · simp at h
    · split at h
      · simp at h
      · obtain ⟨rfl, -, -⟩ := NumberReading.constant.inj h
        exact taken (NumberBody.taken_decimal hs) _

/-! ### Values -/

/-- The value of a digit in bases up to sixteen. -/
def digitValue (c : Char) : Nat :=
  if isDigit c then c.toNat - '0'.toNat
  else if 'a' ≤ c && c ≤ 'f' then c.toNat - 'a'.toNat + 10
  else c.toNat - 'A'.toNat + 10

/-- The value of a row of digits, the most significant first. -/
def digitsValue (base : Nat) (digits : List Char) : Nat :=
  digits.foldl (fun acc c => acc * base + digitValue c) 0

/-- The value of an integer constant that a signed word of 64 bits can hold. -/
def Number.value? (n : Number String) : Option Nat :=
  let digits := (n.text.toList.reverse.dropWhile ("uUlL".toList.contains ·)).reverse
  let value? (base : Nat) (digits : List Char) : Option Nat :=
    let v := digitsValue base digits
    if v < 0x8000000000000000 then some v else none
  match n.form with
  | .hex => value? 16 (digits.drop 2)
  | .octal => value? 8 (digits.drop 1)
  | .decimal => value? 10 digits
  | .float => none

end TypeLayout
