import TypeLayout.Align
import TypeLayout.Names
import TypeLayout.Target

/-!
# The type graph

Every type that is declared becomes a *node*: its items if it is a struct or a
scalar, its members if it is a union, and its size and alignment in bytes. Nodes
are numbered in the order in which they are made and never go away; a node that
has been merged into another is only marked as removed, so a number stays good
for the whole compilation.

`Graph.appendItem`, `Graph.addMember` and `Graph.finish` build a node piece by
piece and keep its size up to date; `Graph.layout` computes the same placement
from a finished list of items.
-/

namespace TypeLayout

/-- What kind of type a node is. -/
inductive NodeKind where
  | base
  | struct
  | union
  | unionMember
  | enum
  | typedef
deriving DecidableEq, Inhabited, Repr

namespace NodeKind

/-- The name of a kind in dumps. -/
def name : NodeKind → String
  | base => "Base"
  | struct => "Struct"
  | union => "Union"
  | unionMember => "UnionMember"
  | enum => "Enum"
  | typedef => "Typedef"

/-- The word for a kind in messages. -/
def word : NodeKind → String
  | base => "type"
  | struct => "struct"
  | union => "union"
  | unionMember => "union member"
  | enum => "enum"
  | typedef => "typedef"

end NodeKind

/-- How far the definition of a node has come. -/
inductive NodeState where
  /-- The type has only been named. -/
  | incomplete
  /-- Its body is being read. -/
  | defining
  /-- Its body has been closed. -/
  | defined
deriving DecidableEq, Inhabited, Repr

/-- The name of a state in dumps. -/
def NodeState.name : NodeState → String
  | incomplete => "Incomplete"
  | defining => "Defining"
  | defined => "Defined"

/-- A type. -/
structure Node where
  /-- The name of the type. A type without one is given a name when offsets are
  assigned. -/
  name : Option NameId := none
  /-- The first declarator that used a type without a tag; it becomes the tail of
  the name that is made for the type. -/
  fragment : Option NameId := none
  kind : NodeKind
  state : NodeState
  isKey : Bool := false
  items : List Item := []
  /-- The members of a union. -/
  members : List NodeId := []
  /-- The size in bytes: up to the end of the last item while the body is read,
  padded to the alignment once it is closed. -/
  length : Nat := 0
  align : Nat := 1
  /-- How many items of other nodes link to this node. -/
  refs : Nat := 0
  /-- The first cell of the node in the descriptor table. -/
  offset : Option Nat := none
  /-- The slot of a union in the jump table. -/
  jump : Option Nat := none
  /-- The name was made when offsets were assigned. -/
  renamed : Bool := false
  emitted : Bool := false
  /-- The node has been merged into another one. -/
  removed : Bool := false
  line : Nat := 0
deriving DecidableEq, Repr

namespace Node

instance : Inhabited Node := ⟨{ kind := .base, state := .incomplete }⟩

def isDefined (n : Node) : Bool := n.state == .defined

def isUnion (n : Node) : Bool := n.kind == .union

/-- `void` is the only base type without an item. -/
def isVoid (n : Node) : Bool := n.kind == .base && n.items.isEmpty

/-- How many cells an item takes: one, and one more for what a link leads to. -/
def itemCells (i : Item) : Nat := if i.kind.link?.isSome then 2 else 1

/-- How many cells of the descriptor table items take together. -/
def itemsCells : List Item → Nat
  | [] => 0
  | i :: items => itemCells i + itemsCells items

/-- How many cells of the descriptor table the node takes: one for its length and
those of its items. A union has no items of its own. -/
def cellCount (n : Node) : Nat :=
  if n.isUnion then 1 else 1 + itemsCells n.items

end Node

/-- Where the items of a node start, where the last one ends, and the alignment
they need. -/
structure ItemLayout where
  offsets : List Nat
  stop : Nat
  align : Nat
deriving DecidableEq, Inhabited, Repr

/-- The nodes of a compilation for one target. -/
structure Graph where
  target : Target
  nodes : Array Node := #[]
deriving DecidableEq, Inhabited, Repr

namespace Graph

/-- The number of nodes. -/
def size (g : Graph) : Nat := g.nodes.size

/-- The node with a number; an empty incomplete one for a number that has not been
handed out. -/
def node (g : Graph) (id : NodeId) : Node := g.nodes.getD id default

/-- Changes the node with a number. -/
def modify (g : Graph) (id : NodeId) (f : Node → Node) : Graph :=
  { g with nodes := g.nodes.modify id f }

/-- Adds a node; its number is the old size of the graph. -/
def add (g : Graph) (n : Node) : Graph := { g with nodes := g.nodes.push n }

/-- The size of one element in bytes. -/
def elementSize (g : Graph) (e : Element) : Nat :=
  match e.link? with
  | some id => (g.node id).length
  | none => (g.target.scalarSize? e).getD 0

/-- The alignment of one element in bytes. -/
def elementAlign (g : Graph) (e : Element) : Nat :=
  match e.link? with
  | some id => (g.node id).align
  | none => (g.target.scalarAlign? e).getD 1

/-- A list of items with one more at its end, which is merged into the last one if
that is of the same kind. -/
def pushItem (items : List Item) (item : Item) : List Item :=
  match items.getLast? with
  | some last =>
    if last.kind = item.kind then
      items.dropLast ++ [⟨wrap (last.count + item.count), last.kind⟩]
    else
      items ++ [item]
  | none => [item]

/-- Whether an item would be merged into the last one of a list. -/
def mergesInto (items : List Item) (item : Item) : Bool :=
  items.getLast?.any (·.kind == item.kind)

/-- Adds an item to a node that is being defined. An item that is not merged into
the last one counts as a reference to the node it links to. -/
def appendItem (g : Graph) (id : NodeId) (item : Item) : Graph :=
  let size := g.elementSize item.kind
  let align := g.elementAlign item.kind
  let merged := mergesInto (g.node id).items item
  let g := g.modify id fun n =>
    { n with
      length := wrap (alignUp n.length align + size * item.count)
      align := max n.align align
      items := pushItem n.items item }
  match item.kind.link? with
  | some target =>
    if merged then g else g.modify target fun n => { n with refs := n.refs + 1 }
  | none => g

/-- Makes a node a member of a union, which is widened to hold it. -/
def addMember (g : Graph) (union member : NodeId) : Graph :=
  let m := g.node member
  g.modify union fun n =>
    { n with
      members := n.members ++ [member]
      length := max n.length m.length
      align := max n.align m.align }

/-- Closes the definition of a node and pads its size to its alignment. -/
def finish (g : Graph) (id : NodeId) : Graph :=
  g.modify id fun n => { n with length := alignUp n.length n.align, state := .defined }

/-- Adds a defined node that holds exactly one element. -/
def addScalar (g : Graph) (kind : NodeKind) (name : Option NameId) (e : Element) : Graph :=
  let id := g.size
  ((g.add { name, kind, state := .defining }).appendItem id ⟨1, e⟩).finish id

/-- Places items one after the other, from a given end and alignment on. -/
def layoutFrom (g : Graph) (stop align : Nat) : List Item → ItemLayout
  | [] => ⟨[], stop, align⟩
  | item :: items =>
    let a := g.elementAlign item.kind
    let start := alignUp stop a
    let stop := wrap (start + g.elementSize item.kind * item.count)
    let more := g.layoutFrom stop (max align a) items
    { more with offsets := start :: more.offsets }

/-- Places a list of items. -/
def layout (g : Graph) (items : List Item) : ItemLayout := g.layoutFrom 0 1 items

/-- A node as messages name it, such as `struct foo` or `anonymous union`. -/
def describe (g : Graph) (names : Names) (id : NodeId) : String :=
  let n := g.node id
  match n.name with
  | some name => n.kind.word ++ " " ++ names.spell name
  | none => "anonymous " ++ n.kind.word

/-! ### Reading a changed graph -/

section Modify

variable (g : Graph) (id j : NodeId) (f : Node → Node)

@[simp] theorem size_modify : (g.modify id f).size = g.size := by
  simp [modify, size]

variable {g id j}

theorem node_of_le (h : g.size ≤ id) : g.node id = default := by
  have hnone : g.nodes[id]? = none := Array.getElem?_eq_none h
  rw [node, Array.getD_eq_getD_getElem?, hnone, Option.getD_none]

theorem node_modify_self (h : id < g.size) : (g.modify id f).node id = f (g.node id) := by
  have hsome : g.nodes[id]? = some g.nodes[id] := Array.getElem?_eq_getElem h
  simp [node, modify, Array.getD_eq_getD_getElem?, Array.getElem?_modify, hsome]

theorem node_modify_of_ne (h : id ≠ j) : (g.modify id f).node j = g.node j := by
  simp [node, modify, Array.getD_eq_getD_getElem?, Array.getElem?_modify, h]

theorem node_modify (g : Graph) (id j : NodeId) (f : Node → Node) :
    (g.modify id f).node j = if id = j ∧ j < g.size then f (g.node j) else g.node j := by
  by_cases hne : id = j
  · subst hne
    by_cases hlt : id < g.size
    · rw [node_modify_self f hlt, if_pos ⟨rfl, hlt⟩]
    · rw [if_neg (fun h => hlt h.2), node_of_le (by simpa using hlt),
        node_of_le (by simpa using hlt)]
  · rw [node_modify_of_ne f hne, if_neg (fun h => hne h.1)]

/-- A change that keeps some field of every node keeps it in the graph. -/
theorem node_modify_field {α : Type} (field : Node → α) (hf : ∀ n, field (f n) = field n) :
    field ((g.modify id f).node j) = field (g.node j) := by
  rw [node_modify]
  split
  · exact hf _
  · rfl

end Modify

end Graph

end TypeLayout
