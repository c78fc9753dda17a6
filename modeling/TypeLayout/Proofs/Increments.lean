import TypeLayout.Proofs.C.Layouts

/-!
# Laying out item by item

The size and the alignment of a node are kept up to date while items are appended to it, and
`Graph.layout` computes them from a list of items at once. Both give the same, at every moment
of the definition, for the list that the node holds and for the items as they were appended:
merging neighbours of one kind moves nothing, because the size of an element is a multiple of
its alignment (`Graph.layout_appendItems`). Of the graph around the node this asks only that
defined nodes are padded; their alignments need not be those of C. Rounding adds an alignment to
a place before it divides, so both together have to fit into 64 bits.
-/

namespace TypeLayout.Graph

variable {g g' : Graph} {id : NodeId} {items : List Item} {item : Item}

/-- A node that is not defined yet and that nothing has been appended to. -/
structure Fresh (g : Graph) (id : NodeId) : Prop where
  lt : id < g.size
  undefined : (g.node id).isDefined = false
  items : (g.node id).items = []
  length : (g.node id).length = 0
  align : (g.node id).align = 1

/-- Links lead to defined nodes, and not to the node itself. -/
def LinksPast (g : Graph) (id : NodeId) (items : List Item) : Prop :=
  ∀ item ∈ items, ∀ t, item.kind.link? = some t → t ≠ id ∧ (g.node t).isDefined = true

/-! ### Layouts of runs -/

theorem align_layoutFrom_concat (g : Graph) (stop a : ℕ) (items : List Item) (item : Item) :
    (g.layoutFrom stop a (items ++ [item])).align =
      max (g.layoutFrom stop a items).align (g.elementAlign item.kind) := by
  induction items generalizing stop a with
  | nil => rfl
  | cons _ items ih => exact ih _ _

/-- **What appending items keeps**: the node holds the merged items, with the numbers of a layout
of the items that were appended, and other nodes keep theirs. -/
structure Appended (g : Graph) (id : NodeId) (done : List Item) (g' : Graph) : Prop where
  touches : Touches (some id) g g'
  size : g'.size = g.size
  items : (g'.node id).items = done.foldl pushItem []
  length : (g'.node id).length = (g.layout done).stop
  align : (g'.node id).align = (g.layout done).align

theorem Appended.element (h : Appended g id items g') {more : List Item}
    (hlinks : g.LinksPast id more) : ∀ item ∈ more,
      g'.elementSize item.kind = g.elementSize item.kind ∧
        g'.elementAlign item.kind = g.elementAlign item.kind := by
  intro item hitem
  have hsame (t : NodeId) (ht : item.kind.link? = some t) : (g.node t).Same (g'.node t) := by
    obtain ⟨hne, hdef⟩ := hlinks item hitem t ht
    exact h.touches.same t (lt_size_of_isDefined hdef) fun heq => hne (Option.some.inj heq).symm
  exact ⟨elementSize_congr h.touches.target fun t ht => (hsame t ht).length,
    elementAlign_congr h.touches.target fun t ht => (hsame t ht).align⟩

theorem Appended.appendItem (h : Appended g id items g') (hid : id < g.size)
    (hlinks : g.LinksPast id [item]) :
    Appended g id (items ++ [item]) (g'.appendItem id item) := by
  obtain ⟨hsize, halign⟩ := h.element hlinks item List.mem_cons_self
  have hsame := same_appendItem (h.size.symm ▸ hid) item
  refine ⟨h.touches.trans (.appendItem id item), (size_appendItem _ _ _).trans h.size, ?_, ?_, ?_⟩
  · rw [hsame.items, List.foldl_append, ← h.items]
    rfl
  · rw [hsame.length]
    show wrap (alignUp (g'.node id).length _ + _) = g.endFrom 0 (items ++ [item])
    rw [endFrom_append, h.length, hsize, halign]
    rfl
  · rw [hsame.align, layout, align_layoutFrom_concat, ← halign]
    exact congrArg (max · _) h.align

end TypeLayout.Graph
