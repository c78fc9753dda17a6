/-!
# Text as bytes

The UTF-8 form of text, read either strictly or with a replacement character for each
run of bytes that starts no character. Such a run is as long as it can be while it still
agrees with the start of some character.
-/

namespace TypeLayout.Text

/-- The bytes of a text. -/
def encodeUtf8 (s : String) : List UInt8 := s.toUTF8.toList

/-- Reads the bytes that continue a character, the first of them within bounds of its
own. Gives the value of the character, if all of them are there, and how many belong to
it. -/
def continueUtf8 (lo hi : Nat) : Nat → Nat → List UInt8 → Option Nat × Nat
  | 0, value, _ => (some value, 0)
  | _ + 1, _, [] => (none, 0)
  | n + 1, value, b :: bs =>
    if lo ≤ b.toNat && b.toNat ≤ hi then
      let (value, taken) := continueUtf8 0x80 0xBF n (value * 64 + b.toNat % 64) bs
      (value, taken + 1)
    else
      (none, 0)

/-- Reads the character that starts with a byte: the character, if it is one, and how
many of the bytes behind the first belong to it. -/
def firstUtf8 (b : UInt8) (bs : List UInt8) : Option Char × Nat :=
  let n := b.toNat
  let (value, taken) :=
    if n < 0x80 then (some n, 0)
    else if n < 0xC2 then (none, 0)
    else if n < 0xE0 then continueUtf8 0x80 0xBF 1 (n % 32) bs
    else if n = 0xE0 then continueUtf8 0xA0 0xBF 2 (n % 16) bs
    else if n = 0xED then continueUtf8 0x80 0x9F 2 (n % 16) bs
    else if n < 0xF0 then continueUtf8 0x80 0xBF 2 (n % 16) bs
    else if n = 0xF0 then continueUtf8 0x90 0xBF 3 (n % 8) bs
    else if n < 0xF4 then continueUtf8 0x80 0xBF 3 (n % 8) bs
    else if n = 0xF4 then continueUtf8 0x80 0x8F 3 (n % 8) bs
    else (none, 0)
  (value.map Char.ofNat, taken)

/-- The characters of a sequence of bytes, after a number of bytes to pass over; `none`
for each run that starts no character. -/
def piecesUtf8 : Nat → List UInt8 → List (Option Char)
  | _, [] => []
  | skip + 1, _ :: bs => piecesUtf8 skip bs
  | 0, b :: bs =>
    let (char, taken) := firstUtf8 b bs
    char :: piecesUtf8 taken bs

/-- Reads bytes that are text throughout. -/
def decodeUtf8? (bs : List UInt8) : Option String :=
  ((piecesUtf8 0 bs).mapM id).map String.ofList

/-- Reads bytes as text, with a replacement character for what is not. -/
def decodeUtf8Lossy (bs : List UInt8) : String :=
  String.ofList ((piecesUtf8 0 bs).map (·.getD '�'))

end TypeLayout.Text
