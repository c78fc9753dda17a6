import TypeLayout.Table
import TypeLayout.Text.Json

/-!
# The table as JSON

A dump for other programs: the cells as they are and in packed form, the exported
constants, and the jump slots. What writes JSON values as text is a library of its own,
and so a parameter here; `Text.Json.serialize` stands in for it.
-/

namespace TypeLayout

open Text (Json)

/-- A cell as a member named for what it is. -/
def Cell.toJson : Cell → Json
  | length n => .obj [("Length", .num n)]
  | field count code last =>
    .obj [("Field",
      .obj [("count", .num count), ("code", .str code.toString), ("last", .bool last)])]
  | structRef offset => .obj [("StructRef", .num offset)]
  | unionRef index align =>
    .obj [("UnionRef", .obj [("index", .num index), ("align", .num align)])]

/-- A constant. -/
def TableSymbol.toJson (s : TableSymbol) : Json :=
  .obj [("name", .str s.name), ("offset", .num s.offset), ("kind", .str s.kind.name)]

/-- A jump slot. -/
def JumpSlot.toJson (s : JumpSlot) : Json :=
  .obj [("index", .num s.index), ("union", .str s.union)]

/-- What writes a value as text, or tells why it cannot. -/
abbrev Serializer := Json → Except String String

/-- The value to dump for a table, with its cells in packed form. -/
def DescriptorTable.dump (t : DescriptorTable) (packed : List Nat) : Json :=
  .obj
    [("target", .str t.target.name),
     ("cells", .arr (t.cells.map Cell.toJson)),
     ("starts", .arr (t.starts.map fun (offset, name) => .arr [.num offset, .str name])),
     ("symbols", .arr (t.symbols.map TableSymbol.toJson)),
     ("jump_slots", .arr (t.jumpSlots.map JumpSlot.toJson)),
     ("packed", .arr (packed.map .num))]

/-- The dump of a table, unless a cell does not fit or the value cannot be written. -/
def DescriptorTable.toJson (serialize : Serializer) (t : DescriptorTable) :
    Except EmitError String :=
  t.packed.bind fun packed => (serialize (t.dump packed)).mapError .serialize

end TypeLayout
