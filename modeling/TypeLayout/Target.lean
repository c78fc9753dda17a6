import TypeLayout.Element

/-!
# Target machines

A layout is computed for one of two machine models. The target fixes the size and
the alignment of every scalar and how wide a cell of the emitted table is.
-/

namespace TypeLayout

/-- The machine whose layout is described. -/
inductive Target where
  /-- Pointers and `long` have four bytes, scalars of eight bytes are aligned to
  four. -/
  | bits32
  /-- Pointers and `long` have eight bytes, every scalar is aligned to its
  size. -/
  | bits64
deriving DecidableEq, Inhabited, Repr

namespace Target

/-- The target taken when none is asked for. -/
def standard : Target := bits64

/-- Reads a target from its word size. -/
def parse? : String → Option Target
  | "32" => some bits32
  | "64" => some bits64
  | _ => none

/-- The name of a target in dumps. -/
def name : Target → String
  | bits32 => "Bits32"
  | bits64 => "Bits64"

/-- The size of a pointer in bytes. -/
def pointerSize : Target → Nat
  | bits32 => 4
  | bits64 => 8

/-- The scalar that a C `long` is on the target. -/
def long : Target → Element
  | bits32 => .int32
  | bits64 => .int64

/-- The size of one scalar in bytes. A link has the size of the node it leads to,
so it has none here. -/
def scalarSize? (target : Target) : Element → Option Nat
  | .pointer => some target.pointerSize
  | .function => some 0
  | .enum => some 4
  | .int8 => some 1
  | .int16 => some 2
  | .int32 | .float32 => some 4
  | .int64 | .float64 => some 8
  | .structLink _ | .unionLink _ => none

/-- The alignment of one scalar in bytes: its size, except that eight-byte scalars
are aligned to four on the narrow target and a function occupies no place to
align. -/
def scalarAlign? (target : Target) (e : Element) : Option Nat :=
  match target, e with
  | bits32, .int64 | bits32, .float64 => some 4
  | _, .function => some 1
  | _, _ => target.scalarSize? e

/-- The largest value that a cell of the table can hold. -/
def cellMax : Target → Nat
  | bits32 => 0xffffffff
  | bits64 => 0xffffffffffffffff

/-- The C type of a cell of the emitted table. -/
def cellType : Target → String
  | bits32 => "unsigned int"
  | bits64 => "unsigned long long"

end Target

end TypeLayout
