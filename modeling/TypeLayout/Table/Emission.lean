import TypeLayout.Session
import TypeLayout.Table

/-!
# Writing the table of a session

Every node that a requested type needs is written after what it links to, at the
offset it was given. A node is marked before what it links to is written, so it is
written once, and the depth of the recursion is at most the number of nodes.

The constants are checked last: their names must differ, and their offsets must
leave the mark free.
-/

namespace TypeLayout

/-- An error of the emission at a line. -/
abbrev EmitFault := Nat × EmitError

/-- A table in the making. -/
structure Draft where
  graph : Graph
  cells : List Cell := []
  starts : List (Nat × String) := []
  /-- The members of unions, in the order in which they were written. -/
  members : List NodeId := []
  jumpSlots : List JumpSlot := []

namespace Draft

/-- The offset that a node was given. -/
def offsetOf (d : Draft) (id : NodeId) : Except EmitFault Nat :=
  let n := d.graph.node id
  match n.offset with
  | some offset => .ok offset
  | none => .error (n.line, .unassigned id)

/-- The name that a node was given. -/
def nameOf (d : Draft) (names : Names) (id : NodeId) : Except EmitFault String :=
  let n := d.graph.node id
  match n.name with
  | some name => .ok (names.spell name)
  | none => .error (n.line, .unnamed id)

/-- What stands after the field of an item: where its link leads. -/
def linkCells (d : Draft) (line : Nat) (name : String) : Element → Except EmitFault (List Cell)
  | .structLink target => (d.offsetOf target).map fun offset => [.structRef offset]
  | .unionLink target =>
    let u := d.graph.node target
    match u.jump with
    | some index => .ok [.unionRef index u.align]
    | none => .error (line, .unassigned target)
  | .function => .error (line, .poisonedFunction name)
  | _ => .ok []

/-- The cells of the items of a node. -/
def itemCells (d : Draft) (line : Nat) (name : String) : List Item → Except EmitFault (List Cell)
  | [] => .ok []
  | item :: items =>
    match d.linkCells line name item.kind with
    | .error err => .error err
    | .ok link =>
      match d.itemCells line name items with
      | .error err => .error err
      | .ok more => .ok (.field item.count item.kind.code items.isEmpty :: link ++ more)

/-- Writes a node whose links have been written. -/
def write (d : Draft) (names : Names) (id : NodeId) : Except EmitFault Draft :=
  let n := d.graph.node id
  match d.nameOf names id with
  | .error err => .error err
  | .ok name =>
    match d.offsetOf id with
    | .error err => .error err
    | .ok offset =>
      if d.cells.length ≠ offset then
        .error (n.line, .offsetMismatch id offset d.cells.length)
      else
        let d := { d with starts := d.starts ++ [(offset, name)] }
        if n.isUnion then
          match n.jump with
          | none => .error (n.line, .unassigned id)
          | some index =>
            .ok { d with
              cells := d.cells ++ [.length n.length]
              jumpSlots := d.jumpSlots ++ [⟨index, name⟩] }
        else
          match d.itemCells n.line name n.items with
          | .error err => .error err
          | .ok cells => .ok { d with cells := d.cells ++ .length n.length :: cells }

/-- Runs an action for every element of a list, up to the first failure. -/
def forEach {α : Type} (f : Draft → α → Draft × Except EmitFault Unit) (d : Draft) :
    List α → Draft × Except EmitFault Unit
  | [] => (d, .ok ())
  | a :: as =>
    match f d a with
    | (d, .error err) => (d, .error err)
    | (d, .ok ()) => d.forEach f as

/-- Writes a node after all that it needs, following links at most `depth` deep. -/
def emit (names : Names) : (depth : Nat) → Draft → NodeId → Draft × Except EmitFault Unit
  | 0, d, _ => (d, .ok ())
  | depth + 1, d, id =>
    if (d.graph.node id).emitted then (d, .ok ())
    else
      let d := { d with graph := d.graph.modify id fun n => { n with emitted := true } }
      let n := d.graph.node id
      let needed :=
        if n.isUnion then
          d.forEach
            (fun d member =>
              match emit names depth d member with
              | (d, .error err) => (d, .error err)
              | (d, .ok ()) => ({ d with members := d.members ++ [member] }, .ok ()))
            n.members
        else
          d.forEach (emit names depth) (n.items.filterMap (·.kind.link?))
      match needed with
      | (d, .error err) => (d, .error err)
      | (d, .ok ()) =>
        match d.write names id with
        | .error err => (d, .error err)
        | .ok d => (d, .ok ())

/-- The constants of the requested types. -/
def keySymbols (d : Draft) : List (NodeId × String) → Except EmitFault (List TableSymbol)
  | [] => .ok []
  | (id, name) :: roots =>
    match d.offsetOf id with
    | .error err => .error err
    | .ok offset => (d.keySymbols roots).map (⟨name, offset, .key⟩ :: ·)

/-- The constants of members of unions. -/
def memberSymbols (d : Draft) (names : Names) :
    List NodeId → Except EmitFault (List TableSymbol)
  | [] => .ok []
  | id :: ids =>
    match d.nameOf names id with
    | .error err => .error err
    | .ok name =>
      match d.offsetOf id with
      | .error err => .error err
      | .ok offset => (d.memberSymbols names ids).map (⟨name, offset, .unionMember⟩ :: ·)

end Draft

/-- The first constant whose name has been used or whose offset collides with the
mark. -/
def checkSymbols (seen : List String) : List TableSymbol → Except EmitFault Unit
  | [] => .ok ()
  | s :: symbols =>
    if s.name ∈ seen then .error (0, .duplicateSymbol s.name)
    else if offsetMark ≤ s.offset then .error (0, .cellOverflow s.name s.offset)
    else checkSymbols (s.name :: seen) symbols

namespace Session

/-- The resolved keys with their names. -/
def roots (s : Session) : List (NodeId × String) :=
  s.keys.keys.filterMap fun key => key.node.map (·, s.names.spell key.name)

/-- Writes the table of a session. Whatever happens, the nodes that were reached stay
marked. -/
def emitTable (s : Session) : Session × Except EmitFault DescriptorTable :=
  let (d, done) := Draft.forEach (fun d (root, _) => Draft.emit s.names s.graph.size d root)
    { graph := s.graph } s.roots
  let s := { s with graph := d.graph }
  let checked : Except EmitFault (List TableSymbol) := do
    let () ← done
    let keys ← d.keySymbols s.roots
    let members ← d.memberSymbols s.names d.members
    let symbols := keys ++ members
    checkSymbols [] symbols
    .ok symbols
  match checked with
  | .error err => (s, .error err)
  | .ok symbols =>
    let jumpSlots := d.jumpSlots.mergeSort fun a b => a.index ≤ b.index
    let table : DescriptorTable :=
      { target := s.graph.target, cells := d.cells, starts := d.starts, symbols, jumpSlots }
    let s := s.note (.emitted d.cells.length symbols.length jumpSlots.length)
    match table.packed with
    | .error err => (s, .error (0, err))
    | .ok _ => (s, .ok table)

end Session

end TypeLayout
