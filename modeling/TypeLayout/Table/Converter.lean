import TypeLayout.Table

/-!
# Converters of unions

Which member of a union is in use cannot be seen from its declaration, so a program
that converts values supplies a function for every slot of the jump table. The
registry is built from the slots of a table, in the order of their indices.
-/

namespace TypeLayout

/-- Tells from the bytes of a union which of its members is in use, if any is. -/
abbrev UnionConverter := List UInt8 → Option Nat

/-- The slots of a jump table: the union of each, and its converter once there is
one. -/
structure ConverterRegistry where
  slots : List (String × Option UnionConverter)

namespace ConverterRegistry

/-- A registry without converters for the slots of a table. -/
def ofSlots (slots : List JumpSlot) : ConverterRegistry :=
  ⟨(slots.mergeSort fun a b => a.index ≤ b.index).map fun s => (s.union, none)⟩

/-- The number of slots. -/
def size (r : ConverterRegistry) : Nat := r.slots.length

/-- Fills the slot with an index. -/
def register (r : ConverterRegistry) (index : Nat) (f : UnionConverter) :
    Except EmitError ConverterRegistry :=
  if index < r.size then .ok ⟨r.slots.modify index fun (union, _) => (union, some f)⟩
  else .error (.unknownJumpSlot index)

/-- Fills the first slot of a union. -/
def registerUnion (r : ConverterRegistry) (union : String) (f : UnionConverter) :
    Except EmitError ConverterRegistry :=
  match r.slots.findIdx? (·.1 == union) with
  | some index => r.register index f
  | none => .error (.unknownUnion union)

/-- The converter in a slot. -/
def get? (r : ConverterRegistry) (index : Nat) : Option UnionConverter :=
  (r.slots[index]?).bind (·.2)

/-- The unions that have no converter. -/
def unresolved (r : ConverterRegistry) : List String :=
  (r.slots.filter (·.2.isNone)).map (·.1)

end ConverterRegistry

end TypeLayout
