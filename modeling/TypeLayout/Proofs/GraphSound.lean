import TypeLayout.Proofs.GraphAccess
import TypeLayout.Proofs.Rounding
import TypeLayout.Proofs.Runs

/-!
# How a type graph is built

Whatever a source says, the graph only ever changes in a few ways: an empty node or a
node that holds one item is added, a body begins, grows and ends, an enumeration is
completed, or something is noted down that no layout looks at. `Graph.Build` lists
these ways, each with what is known when it happens. Facts about every graph that
declarations can produce are then facts about nine kinds of steps.

The fact proved here is `Graph.Sound`. Its heart is an order: the nodes that are
defined can be listed so that whatever a node needs stands before it. A link can only
be made to a node whose body has been closed, so a node is put at the end of the list
when it becomes defined. Numbers do not give such an order, since a tag gets its number
when it is first mentioned.
-/

namespace TypeLayout

variable {n n' : Node}

/-! ### What a node leads to -/

namespace Node

/-- The nodes that a node leads to: its members if it is a union, and what its items
link to otherwise. -/
def children (n : Node) : List NodeId :=
  if n.isUnion then n.members else n.items.filterMap (·.kind.link?)

/-- The number of items of a node that link to another one. A node that has been merged
into its user has none that count. -/
def linksTo (n : Node) (t : NodeId) : ℕ :=
  if n.removed then 0 else n.items.countP (·.kind.link? = some t)

/-- A node has no place in a table yet. -/
def Unplaced (n : Node) : Prop :=
  n.emitted = false ∧ n.renamed = false ∧ n.offset = none ∧ n.jump = none

/-- Nothing has been recorded about a node that only later passes record. -/
def Unmarked (n : Node) : Prop := n.removed = false ∧ n.Unplaced

end Node

namespace Graph

variable {e : Element} {g : Graph}

/-- The number of items that link to a node. -/
def uses (g : Graph) (t : NodeId) : ℕ := ∑ a ∈ Finset.range g.size, (g.node a).linksTo t

/-- A link leads to a defined node of its own kind. -/
def Leads (g : Graph) : Element → Prop
  | .structLink t => (g.node t).kind = .struct ∧ (g.node t).isDefined = true
  | .unionLink t => (g.node t).kind = .union ∧ (g.node t).isDefined = true
  | _ => True

/-- One more reference to the node that an element links to. -/
def retain (g : Graph) (e : Element) : Graph :=
  match e.link? with
  | some t => g.modify t fun n => { n with refs := n.refs + 1 }
  | none => g

theorem Leads.isDefined {t : NodeId} (h : g.Leads e) (he : e.link? = some t) :
    (g.node t).isDefined = true := by
  cases e <;> simp only [Element.link?, Option.some.injEq, reduceCtorEq] at he
  · exact he ▸ h.2
  · exact he ▸ h.2

theorem leads_of_link?_eq_none (he : e.link? = none) : g.Leads e := by
  cases e <;> simp_all [Element.link?, Leads]

/-- Links stay good while kinds are kept and defined nodes stay defined. -/
theorem Leads.mono {g' : Graph} (h : g.Leads e) (hk : ∀ id, (g.node id).isDefined = true →
      (g'.node id).kind = (g.node id).kind ∧ (g'.node id).isDefined = true) : g'.Leads e := by
  cases e with
  | structLink t => exact ⟨(hk t h.2).1.trans h.1, (hk t h.2).2⟩
  | unionLink t => exact ⟨(hk t h.2).1.trans h.1, (hk t h.2).2⟩
  | _ => trivial

end Graph

/-! ### The steps -/

namespace Node

/-- A node without content: a struct or union whose body has not ended, or a built-in
type that holds nothing. -/
structure Blank (n : Node) : Prop where
  items : n.items = []
  members : n.members = []
  length : n.length = 0
  align : n.align = 1
  refs : n.refs = 0
  unmarked : n.Unmarked
  kind : n.kind = .base ∧ n.state ≠ .defining ∨
    (n.kind = .struct ∨ n.kind = .union) ∧ n.state ≠ .defined

/-- A node that holds a single item. Only an enumeration can be such a node and still
be incomplete. -/
structure Holds (g : Graph) (item : Item) (n : Node) : Prop where
  items : n.items = [item]
  members : n.members = []
  align : n.align = max 1 (g.elementAlign item.kind)
  length : n.length = alignUp (wrap (g.elementSize item.kind * item.count)) n.align
  refs : n.refs = 0
  unmarked : n.Unmarked
  kind : n.kind = .base ∨ n.kind = .enum ∨ n.kind = .typedef ∨ n.kind = .unionMember
  state : n.state = .defined ∨ n.kind = .enum ∧ n.state = .incomplete

end Node

/-- The fields of a node that a layout depends on, and those that later passes fill
in. -/
structure Node.Same (n n' : Node) : Prop where
  kind : n'.kind = n.kind
  state : n'.state = n.state
  items : n'.items = n.items
  members : n'.members = n.members
  length : n'.length = n.length
  align : n'.align = n.align
  removed : n'.removed = n.removed
  emitted : n'.emitted = n.emitted
  renamed : n'.renamed = n.renamed
  offset : n'.offset = n.offset
  jump : n'.jump = n.jump

/-- One step in which declarations build a graph. -/
inductive Graph.Build (g : Graph) : Graph → Prop
  /-- A name or a line is noted. -/
  | label {id : NodeId} {f : Node → Node} (hf : ∀ n : Node, n.Same (f n) ∧ (f n).refs = n.refs) :
    Build g (g.modify id f)
  /-- A node without content is added. -/
  | blank {n : Node} (hn : n.Blank) : Build g (g.add n)
  /-- A node that holds one item is added. -/
  | hold {n : Node} {item : Item} (hn : n.Holds g item) (hk : n.kind ≠ .unionMember)
    (hl : g.Leads item.kind) : Build g ((g.retain item.kind).add n)
  /-- The body of a struct or union begins. -/
  | start {id : NodeId} {line : ℕ} (hs : (g.node id).state = .incomplete)
    (hk : (g.node id).kind = .struct ∨ (g.node id).kind = .union) :
    Build g (g.modify id fun n => { n with line, state := .defining })
  /-- A field is added to a struct. -/
  | append {id : NodeId} {item : Item} (hs : (g.node id).state = .defining)
    (hk : (g.node id).kind = .struct) (hl : g.Leads item.kind) : Build g (g.appendItem id item)
  /-- A member is added to a union, with a node of its own. -/
  | member {union : NodeId} {n : Node} {item : Item} (hn : n.Holds g item)
    (hm : n.kind = .unionMember) (hl : g.Leads item.kind)
    (hs : (g.node union).state = .defining) (hk : (g.node union).kind = .union) :
    Build g (((g.retain item.kind).add n).addMember union g.size)
  /-- The body of a struct or union ends. -/
  | finish {id : NodeId} (hs : (g.node id).state = .defining)
    (hk : (g.node id).kind = .struct ∨ (g.node id).kind = .union) : Build g (g.finish id)
  /-- An enumeration that was only named gets its values. -/
  | complete {id : NodeId} (hs : (g.node id).state = .incomplete)
    (hk : (g.node id).kind = .enum) :
    Build g (g.modify id fun n => { n with state := .defined })

/-! ### What holds of every graph that is built -/

/-- What holds of a single node. -/
structure Node.SoundIn (g : Graph) (n : Node) : Prop where
  leads : ∀ item ∈ n.items, g.Leads item.kind
  members : ∀ m ∈ n.members, (g.node m).kind = .unionMember ∧ (g.node m).isDefined = true
  union_items : n.kind = .union → n.items = []
  other_members : n.kind ≠ .union → n.members = []
  align : n.align ∈ [1, 2, 4, 8]
  padded : n.state ≠ .defining → n.align ∣ n.length
  simple : n.kind = .base ∨ n.kind = .enum ∨ n.kind = .typedef → n.items.length ≤ 1
  filled : n.kind = .enum ∨ n.kind = .typedef → n.items ≠ []
  body : n.state = .defining → n.kind = .struct ∨ n.kind = .union
  unplaced : n.Unplaced

namespace Graph

/-- **The order of definition**: the defined nodes, each after all that it needs. -/
structure OrderedBy (g : Graph) (order : List NodeId) : Prop where
  nodup : order.Nodup
  mem_iff : ∀ id, id ∈ order ↔ (g.node id).isDefined = true
  precedes : ∀ l id r, order = l ++ id :: r → ∀ b ∈ (g.node id).children, b ∈ l

/-- **What declarations build**: every node is sound, references are counted right, and
what a node needs was defined before it. -/
structure Sound (g : Graph) : Prop where
  nodes : ∀ id, (g.node id).SoundIn g
  kept : ∀ id, (g.node id).removed = false
  refs : ∀ id, (g.node id).refs = g.uses id
  ordered : ∃ order, g.OrderedBy order

/-- Defined nodes stay defined and keep their kind. -/
def Keeps (g g' : Graph) : Prop :=
  ∀ id, (g.node id).isDefined = true →
    (g'.node id).kind = (g.node id).kind ∧ (g'.node id).isDefined = true

end Graph

/-! ### Nodes one at a time -/

theorem Node.Same.children (h : n.Same n') : n'.children = n.children := by
  unfold Node.children Node.isUnion
  rw [h.kind, h.items, h.members]

theorem Node.Same.isDefined (h : n.Same n') : n'.isDefined = n.isDefined := by
  simp only [Node.isDefined, h.state]

theorem Node.Same.linksTo (h : n.Same n') (t : NodeId) : n'.linksTo t = n.linksTo t := by
  simp only [Node.linksTo, h.removed, h.items]

theorem Node.Same.unplaced (h : n.Same n') (hu : n.Unplaced) : n'.Unplaced := by
  obtain ⟨h1, h2, h3, h4⟩ := hu
  exact ⟨h.emitted.trans h1, h.renamed.trans h2, h.offset.trans h3, h.jump.trans h4⟩

namespace Node.SoundIn

variable {g g' : Graph} {n n' : Node} {b : NodeId}

theorem mono (h : n.SoundIn g) (hk : g.Keeps g') : n.SoundIn g' where
  leads item hi := (h.leads item hi).mono hk
  members m hm := by
    obtain ⟨hkind, hd⟩ := h.members m hm
    exact ⟨(hk m hd).1.trans hkind, (hk m hd).2⟩
  union_items := h.union_items
  other_members := h.other_members
  align := h.align
  padded := h.padded
  simple := h.simple
  filled := h.filled
  body := h.body
  unplaced := h.unplaced

theorem congr (h : n.SoundIn g) (hs : n.Same n') : n'.SoundIn g where
  leads := by rw [hs.items]; exact h.leads
  members := by rw [hs.members]; exact h.members
  union_items := by rw [hs.kind, hs.items]; exact h.union_items
  other_members := by rw [hs.kind, hs.members]; exact h.other_members
  align := by rw [hs.align]; exact h.align
  padded := by rw [hs.state, hs.align, hs.length]; exact h.padded
  simple := by rw [hs.kind, hs.items]; exact h.simple
  filled := by rw [hs.kind, hs.items]; exact h.filled
  body := by rw [hs.kind, hs.state]; exact h.body
  unplaced := hs.unplaced h.unplaced

/-- A union needs its members and any other node what its items link to; neither has
anything of the other sort. -/
theorem mem_children (h : n.SoundIn g) :
    b ∈ n.children ↔ b ∈ n.members ∨ ∃ item ∈ n.items, item.kind.link? = some b := by
  unfold children
  cases hu : n.isUnion with
  | true =>
    have hk : n.kind = .union := by simpa [Node.isUnion] using hu
    simp [h.union_items hk]
  | false =>
    have hk : n.kind ≠ .union := by simpa [Node.isUnion] using hu
    simp [h.other_members hk]

/-- All that a sound node needs is defined. -/
theorem isDefined_of_mem_children (h : n.SoundIn g) (hb : b ∈ n.children) :
    (g.node b).isDefined = true := by
  unfold children at hb
  split at hb
  · exact (h.members b hb).2
  · obtain ⟨item, hi, hl⟩ := List.mem_filterMap.mp hb
    exact (h.leads item hi).isDefined hl

end Node.SoundIn

/-- What stands for a number that has not been handed out is sound. -/
theorem soundIn_default (g : Graph) : (default : Node).SoundIn g where
  leads := by simp [default]
  members := by simp [default]
  union_items := by simp [default]
  other_members := by simp [default]
  align := by simp [default]
  padded := by simp [default]
  simple := by simp [default]
  filled := by simp [default]
  body := by simp [default]
  unplaced := by simp [default, Node.Unplaced]

end TypeLayout
