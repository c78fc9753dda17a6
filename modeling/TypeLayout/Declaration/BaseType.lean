import TypeLayout.Declaration.Error
import TypeLayout.Declaration.Keyword

/-!
# Built-in types from their words

The words of a built-in type come in any order: `long unsigned int` is
`unsigned long`. They are collected one by one, which refuses most bad
combinations, and `BaseWords.spelling?` then gives the one spelling under which the
type is registered.
-/

namespace TypeLayout

/-- The words collected so far. -/
structure BaseWords where
  /-- Whether the type was called signed, if anything was said. -/
  signed : Option Bool := none
  short : Bool := false
  long : Nat := 0
  core : Option CoreType := none
deriving DecidableEq, Inhabited, Repr

namespace BaseWords

/-- No word has been collected. -/
def isEmpty (b : BaseWords) : Bool := b == {}

/-- Collects one more word. -/
def add (b : BaseWords) : BaseWord → Except (ParseError String) BaseWords
  | .signed =>
    if b.signed = some false then .error .signedAndUnsigned
    else .ok { b with signed := some true }
  | .unsigned =>
    if b.signed = some true then .error .signedAndUnsigned
    else .ok { b with signed := some false }
  | .short =>
    if b.short || 0 < b.long then .error .conflictingSpecifiers
    else .ok { b with short := true }
  | .long =>
    if b.short || 2 ≤ b.long then .error .conflictingSpecifiers
    else .ok { b with long := b.long + 1 }
  | .core c =>
    if b.core.isSome then .error .conflictingSpecifiers
    else .ok { b with core := some c }

/-- No error over a word mentions a name. -/
theorem error_add {b : BaseWords} {w : BaseWord} {e : ParseError String} (h : b.add w = .error e) :
    e = .signedAndUnsigned ∨ e = .conflictingSpecifiers := by
  cases w <;> simp only [add] at h <;> split at h <;> cases h <;> simp

/-- The spelling of the type without its sign. -/
def unsignedPart? (b : BaseWords) : Option String :=
  match b.core, b.short, b.long with
  | none, false, 0 | some .int, false, 0 => some "int"
  | none, true, 0 | some .int, true, 0 => some "short"
  | none, false, 1 | some .int, false, 1 => some "long"
  | none, false, 2 | some .int, false, 2 => some "long long"
  | some .double, false, 1 => some "long double"
  | some c, false, 0 => some c.spelling
  | _, _, _ => none

/-- The spelling under which the type is registered, unless the words do not go
together. -/
def spelling? (b : BaseWords) : Option String :=
  b.unsignedPart?.map fun core =>
    match b.signed with
    | some false => "unsigned " ++ core
    | some true => if core = "char" then "signed char" else core
    | none => core

end BaseWords

end TypeLayout
