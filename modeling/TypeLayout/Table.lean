import TypeLayout.Table.Cell
import TypeLayout.Target

/-!
# Descriptor tables

What a compilation produces: the cells, where each node starts among them, the
constants to export, and the slots of the jump table.
-/

namespace TypeLayout

/-- Why a table cannot be written or used. -/
inductive EmitError where
  /-- Two exported constants would have one name. -/
  | duplicateSymbol (name : String)
  /-- A value does not fit into a cell, or an offset collides with the mark that
  exported offsets carry. -/
  | cellOverflow (what : String) (value : Nat)
  | poisonedFunction (name : String)
  | unknownJumpSlot (index : Nat)
  | unknownUnion (name : String)
  | serialize (reason : String)
  /-- A node that is needed has no offset. -/
  | unassigned (node : NodeId)
  /-- A node that is needed has no name. -/
  | unnamed (node : NodeId)
  /-- The cells written so far do not end where the next node should start. -/
  | offsetMismatch (node : NodeId) (expected actual : Nat)
deriving DecidableEq, Repr

namespace EmitError

/-- Whether an error shows a defect of an earlier pass and not of the input. -/
def isInternal : EmitError → Bool
  | unassigned _ | unnamed _ | offsetMismatch .. | serialize _ => true
  | _ => false

/-- The text of an error. -/
def message : EmitError → String
  | duplicateSymbol name => "Constant " ++ name ++ " is exported twice"
  | cellOverflow what value => what ++ s!" ({value}) does not fit in a descriptor cell"
  | poisonedFunction name => name ++ " contains a function, which cannot be described"
  | unknownJumpSlot index => s!"There is no jump table slot {index}"
  | unknownUnion name => "No union named " ++ name ++ " needs a converter"
  | serialize reason => "Could not serialize the table: " ++ reason
  | unassigned node => s!"Internal: node {node.label} has no offset"
  | unnamed node => s!"Internal: node {node.label} has no name"
  | offsetMismatch node expected actual =>
    s!"Internal: node {node.label} was laid out at {expected} but written at {actual}"

end EmitError

/-- What an exported constant stands for. -/
inductive SymbolKind where
  | key
  | unionMember
deriving DecidableEq, Inhabited, Repr

/-- The name of a kind in dumps. -/
def SymbolKind.name : SymbolKind → String
  | key => "Key"
  | unionMember => "UnionMember"

/-- An exported constant: the name of a node and where it starts. -/
structure TableSymbol where
  name : String
  offset : Nat
  kind : SymbolKind
deriving DecidableEq, Inhabited, Repr

/-- A slot of the jump table and the union whose converter fills it. -/
structure JumpSlot where
  index : Nat
  union : String
deriving DecidableEq, Inhabited, Repr

/-- What a compilation produces. -/
structure DescriptorTable where
  target : Target
  cells : List Cell
  /-- The name of the node that starts at each offset. -/
  starts : List (Nat × String)
  symbols : List TableSymbol
  jumpSlots : List JumpSlot
deriving DecidableEq, Repr

namespace DescriptorTable

/-- The packed form of a cell that stands at an index, if the target's cells can hold
it. -/
def packCell (target : Target) (i : Nat) (c : Cell) : Except EmitError Nat :=
  let overflow (value : Nat) : Except EmitError Nat :=
    .error (.cellOverflow (s!"cell {i} (" ++ c.describe ++ ")") value)
  match c.pack? with
  | some value => if value ≤ target.cellMax then .ok value else overflow value
  | none => overflow 0xffffffffffffffff

/-- The packed forms of cells that stand from an index on. -/
def packFrom (target : Target) : Nat → List Cell → Except EmitError (List Nat)
  | _, [] => .ok []
  | i, c :: cs =>
    match packCell target i c with
    | .error err => .error err
    | .ok value =>
      match packFrom target (i + 1) cs with
      | .error err => .error err
      | .ok values => .ok (value :: values)

/-- The packed form of the table. -/
def packed (t : DescriptorTable) : Except EmitError (List Nat) := packFrom t.target 0 t.cells

end DescriptorTable

/-- The bit that is set in every exported offset, so that it can be told from a small
number. -/
def offsetMark : Nat := 0x80000000

end TypeLayout
