/-!
# Numbers of 64 bits, and rounding up to an alignment

Counts, sizes and places are kept in 64 bits, and a sum that does not fit is taken modulo
`2 ^ 64` (`wrap`). Every byte offset in a layout is the previous end rounded up to an
alignment. An alignment of zero or one rounds nothing.
-/

namespace TypeLayout

/-- One more than the largest number that 64 bits hold. -/
def wordSize : Nat := 0x10000000000000000

/-- What 64 bits keep of a number. -/
def wrap (n : Nat) : Nat := n % wordSize

/-- The least multiple of `align` that is not below `value`, as long as it fits into 64
bits; `value` itself when `align` is at most one. -/
def alignUp (value align : Nat) : Nat :=
  if align ≤ 1 then value else wrap (value + align - 1) / align * align

end TypeLayout
