import TypeLayout.Compile
import TypeLayout.Proofs.Unfolding

/-!
# Tables are faithful

A table that a compilation returns describes the graph that it leaves behind. Each node
that a requested one needs has its record at its offset, references lead back to the start
of a record, reading on from an exported offset ends and finds the items of the node, and
there is nothing else in the table (`DescriptorTable.Describes`).
-/

namespace TypeLayout

/-- A node is one of some nodes, or a link or a member leads to it from one of them. -/
def Graph.Needs (g : Graph) (roots : List NodeId) (id : NodeId) : Prop :=
  ∃ root ∈ roots, Relation.ReflTransGen (fun a b => b ∈ g.kids a) root id

/-- **A table describes a graph**, as far as some nodes of it need others. -/
structure DescriptorTable.Describes (t : DescriptorTable) (g : Graph) (roots : List NodeId) :
    Prop where
  /-- Each node has its record at its offset. -/
  placed : ∀ id, g.Needs roots id → ∃ front rear,
    t.cells = front ++ g.record g.places id ++ rear ∧ (g.node id).offset = some front.length
  /-- What a record refers to has a place. -/
  linked : ∀ id, g.Needs roots id → ∀ item ∈ (g.node id).items, ∀ b,
    (item.kind = .structLink b → (g.node b).offset.isSome = true) ∧
      (item.kind = .unionLink b → (g.node b).jump.isSome = true)
  /-- References lead back to the start of a record. -/
  backwards : ∀ i o : ℕ, t.cells[i]? = some (.structRef o) →
    o < i ∧ ∃ n, t.cells[o]? = some (.length n)
  /-- Reading from an offset ends and finds the items of the node. -/
  unfolds : ∀ id, g.Needs roots id → ∀ offset, (g.node id).offset = some offset →
    ∀ depth > offset, unfoldTo t.cells depth offset = some (g.tree id)
  /-- Only nodes that are needed are exported. -/
  exported : ∀ symbol ∈ t.symbols, ∃ id, g.Needs roots id ∧ (g.node id).offset = some symbol.offset
  /-- There is nothing else. -/
  complete : ∃ order : List NodeId, order.Nodup ∧ (∀ id, id ∈ order ↔ g.Needs roots id) ∧
    t.cells = order.flatMap (g.record g.places)

namespace Session

variable {g : Graph} {order : List NodeId} {s s' : Session} {d : Draft}

/-! ### Places in the order are places in the graph -/

/-- The nodes on the walk are those that are needed. -/
theorem LaidOut.mem_iff_needs (h : s.LaidOut g order) (id : NodeId) :
    id ∈ order ↔ g.Needs s.requested id := by
  refine ⟨fun hid => (h.walk.reaches hid).resolve_left (by simp), ?_⟩
  rintro ⟨root, hroot, hpath⟩
  induction hpath with
  | refl => exact h.walk.mem_of_mem_todo hroot
  | tail _ hb ih => exact h.mem_of_mem_children ih hb

section Final

variable (h : s.LaidOut g order) (hd : d.Written g order s order []) {id : NodeId}

include h hd

theorem shape_written (id : NodeId) : (g.node id).Shape (d.graph.node id) := by
  rw [hd.node id]
  exact (h.laid.shape id).trans ⟨rfl, rfl, rfl, rfl, rfl⟩

theorem offset_written (hid : id ∈ order) :
    (d.graph.node id).offset = some (g.offsetIn order id) := by
  rw [hd.node id]
  exact (h.laid.offset id).trans (if_pos hid)

theorem jump_written (hid : id ∈ order) (hu : (g.node id).isUnion = true) :
    (d.graph.node id).jump = some (g.jumpIn order id) := by
  rw [hd.node id]
  exact (h.laid.jump id).trans (if_pos ⟨hid, hu⟩)

theorem kids_written : d.graph.kids = g.kids := funext fun id =>
  (shape_written h hd id).children

/-- The cells after a field are the same, whether places are taken from the order or from
the nodes. -/
theorem linkCells_written {e : Element} (he : g.Leads e) (hmem : ∀ t, e.link? = some t → t ∈ order) :
    d.graph.linkCells d.graph.places e = g.linkCells (g.placesIn order) e := by
  cases e with
  | structLink t =>
    simp only [Graph.linkCells, Graph.places, Graph.placesIn, offset_written h hd (hmem t rfl),
      Option.getD_some]
  | unionLink t =>
    have hu : (g.node t).isUnion = true := by simp [Node.isUnion, he.1]
    simp only [Graph.linkCells, Graph.places, Graph.placesIn, jump_written h hd (hmem t rfl) hu,
      Option.getD_some, (shape_written h hd t).align]
  | _ => rfl

theorem record_written (hid : id ∈ order) :
    d.graph.record d.graph.places id = g.record (g.placesIn order) id := by
  have hnode := h.serves.settled.nodes id
  exact Graph.record_congr (shape_written h hd id) fun item hi =>
    linkCells_written h hd (hnode.leads item hi) fun t ht =>
      h.mem_of_mem_children hid (hnode.mem_children.mpr (Or.inr ⟨item, hi, ht⟩))

theorem records_written {l : List NodeId} (hl : l ⊆ order) :
    l.flatMap (d.graph.record d.graph.places) = l.flatMap (g.record (g.placesIn order)) :=
  List.flatMap_congr fun _ hid => record_written h hd (hl hid)

/-- **The records stand one after the other.** -/
theorem lined_written : d.graph.Lined d.graph.places order where
  above := by
    rw [kids_written h hd]
    exact h.lined.above
  describable id hid := by
    have hshape := shape_written h hd id
    rw [Graph.Describable, hshape.isUnion, hshape.members, hshape.items]
    exact h.clear id hid
  offset l id r hl := by
    rw [records_written h hd (hl ▸ List.subset_append_left _ _), ← h.lined.offset l id r hl]
    show ((d.graph.node id).offset).getD 0 = _
    rw [offset_written h hd (hl ▸ by simp)]
    rfl

theorem mem_order_iff (id : NodeId) : id ∈ order ↔ d.graph.Needs s.requested id := by
  rw [Graph.Needs, kids_written h hd]
  exact h.mem_iff_needs id

end Final

/-- **The trees of the nodes are given by each other.** -/
theorem tree_written (h : s.LaidOut g order) (hd : d.Written g order s order []) (id : NodeId) :
    d.graph.tree id = d.graph.nodeTree d.graph.places d.graph.tree (d.graph.node id) := by
  obtain ⟨rank, hr⟩ := h.serves.settled.ranked
  have hlt : ∀ id, ∀ b ∈ (d.graph.node id).children, rank b < rank id := fun id b hb =>
    hr.lt id b ((shape_written h hd id).children ▸ hb)
  have hle : ∀ id, rank id ≤ d.graph.size := fun id => by
    rw [hd.size, h.laid.size]
    exact hr.le_size id
  exact Graph.follow_eq (d.graph.local_nodeTree _) hlt hle _ id

/-- **A table that is not refused describes the graph.** -/
theorem describes_emitTable (h : s.LaidOut g order) {table : DescriptorTable}
    (hok : s.emitTable = (s', .ok table)) : table.Describes s'.graph s'.requested ∧
      ∀ id, s'.graph.tree id = s'.graph.nodeTree s'.graph.places s'.graph.tree (s'.graph.node id) := by
  obtain ⟨d, -, hd, hgraph, hkeys, table', -, hcells, hsymbols, -, -, hresult⟩ := exists_emitTable h
  rw [hok] at hgraph hkeys hresult
  obtain ⟨-, -, htable⟩ := of_checked hresult.symm
  subst htable
  have hrequested : s'.requested = s.requested := by rw [requested, hkeys, requested]
  have hlined := lined_written h hd
  have hmem := mem_order_iff h hd
  rw [← records_written h hd (List.Subset.refl _)] at hcells
  dsimp only at hgraph
  rw [hgraph, hrequested]
  refine ⟨⟨fun id hid => ?_, fun id hid item hi b => ?_, fun i o hi => ?_,
    fun id hid offset ho depth hdepth => ?_, fun symbol hs => ?_, ?_⟩, tree_written h hd⟩
  · rw [← hmem] at hid
    obtain ⟨front, r, heq, hlen⟩ := hlined.exists_split hid
    refine ⟨front, _, by rw [hcells, heq, List.append_assoc], ?_⟩
    rw [hlen, offset_written h hd hid]
    simp only [Graph.places, offset_written h hd hid, Option.getD_some]
  · rw [← hmem] at hid
    rw [(shape_written h hd id).items] at hi
    have hb (hl : item.kind.link? = some b) : b ∈ order := h.mem_of_mem_children hid
      ((h.serves.settled.nodes id).mem_children.mpr (Or.inr ⟨item, hi, hl⟩))
    have hleads := (h.serves.settled.nodes id).leads item hi
    refine ⟨fun hk => ?_, fun hk => ?_⟩
    · rw [offset_written h hd (hb (by rw [hk]; rfl))]
      rfl
    · rw [hk] at hleads
      rw [jump_written h hd (hb (by rw [hk]; rfl)) (by simp [Node.isUnion, hleads.1])]
      rfl
  · rw [hcells] at hi ⊢
    exact hlined.structRef_lt hi
  · have hplace : d.graph.places.offset id = offset := by simp [Graph.places, ho]
    rw [hcells, ← hplace]
    exact hlined.unfoldTo_eq (tree_written h hd) ((hmem id).mpr hid) (hplace ▸ hdepth)
  · rw [hsymbols] at hs
    obtain ⟨id, hid, ho⟩ := h.exists_of_mem_symbols hd hs
    exact ⟨id, (hmem id).mp hid, by rw [offset_written h hd hid, ho]⟩
  · exact ⟨order, h.nodup, hmem, hcells⟩

/-- A session that was laid out without an error. -/
theorem Fresh.exists_laidOut {optimize : Bool} (hs : s.Fresh)
    (h : s.layOut optimize = (s', .ok ())) : ∃ g order, LaidOut g order s' := by
  unfold layOut at h
  split at h
  · simp at h
  · rename_i s₁ hresolve
    have hresolved : (if optimize then s₁.inlineStructs.1 else s₁).Resolved := by
      split
      · exact (hs.resolved hresolve).inlineStructs
      · exact hs.resolved hresolve
    dsimp only at h
    obtain ⟨order, hw⟩ := hresolved.exists_walk
    have hends := hresolved.layout_ends hw
    generalize (if optimize then s₁.inlineStructs.1 else s₁) = s₂ at *
    split at h
    · simp at h
    · rename_i s₃ hassign
      rw [hassign] at hends
      obtain rfl := (Prod.mk.inj h).1
      exact ⟨s₂.graph, order, hends.2.1⟩

end Session

/-- **Tables are faithful.** A table that a compilation returns describes the graph that
the compilation leaves, where the trees of the nodes are given by each other. -/
theorem describes_compile {source : String} {names : Names} {keys : KeyList} {options : Options}
    {eval : Evaluator} {s : Session} {table : DescriptorTable}
    (h : (compile source names keys options eval .emit).result =
      .ok { session := some s, table := some table }) :
    table.Describes s.graph s.requested ∧
      ∀ id, s.graph.tree id = s.graph.nodeTree s.graph.places s.graph.tree (s.graph.node id) := by
  have hfresh := Session.fresh_readSource names keys options.target eval source options.contextLines
  unfold compile at h
  rw [if_neg (by decide)] at h
  dsimp only at h
  split at h
  · simp at h
  · rename_i s₁ hread
    rw [hread] at hfresh
    rw [if_neg (by decide)] at h
    split at h
    · simp at h
    · rename_i s₂ hlayout
      obtain ⟨g, order, hlaid⟩ := (hfresh.note _).exists_laidOut hlayout
      rw [if_neg (by decide)] at h
      split at h
      · simp at h
      · rename_i s₃ table' hemit
        simp only [Except.ok.injEq, Compilation.mk.injEq, Option.some.injEq] at h
        obtain ⟨rfl, rfl⟩ := h
        exact Session.describes_emitTable hlaid hemit

/-- The cells of the table that a compilation returned. -/
def Run.cells? (r : Run) : Option (List Cell) :=
  match r.result with
  | .ok ⟨some _, some table⟩ => some table.cells
  | _ => none

theorem Run.exists_of_cells? {r : Run} {cells : List Cell} (h : r.cells? = some cells) :
    ∃ s table, r.result = .ok { session := some s, table := some table } ∧ table.cells = cells := by
  unfold Run.cells? at h
  split at h
  · rename_i s table hr
    exact ⟨s, table, hr, Option.some.inj h⟩
  · simp at h

/-- A struct that holds an array of structs with a union in them. -/
theorem describes_compile_nested :
    let key := KeyList.makeKey {} .struct "s" 1
    let run := compile ("union u { int i; char c[3]; }; struct p { char x; union u v; };" ++
      "struct s { struct p a[2]; short b; };") key.2 ⟨[key.1]⟩ { optimize := false }
      (fun _ => .error .noCompiler) .emit
    ∃ s table, run.result = .ok { session := some s, table := some table } ∧
      table.cells = [.length 4, .field 1 'i' true, .length 3, .field 3 'c' true, .length 4,
        .length 8, .field 1 'c' false, .field 1 'u' true, .unionRef 0 4,
        .length 20, .field 2 's' false, .structRef 5, .field 1 'h' true] ∧
      table.Describes s.graph s.requested := by
  intro key run
  have hcells : run.cells? = some [.length 4, .field 1 'i' true, .length 3, .field 3 'c' true,
      .length 4, .length 8, .field 1 'c' false, .field 1 'u' true, .unionRef 0 4,
      .length 20, .field 2 's' false, .structRef 5, .field 1 'h' true] := by decide +kernel
  obtain ⟨s, table, hrun, hcells⟩ := Run.exists_of_cells? hcells
  exact ⟨s, table, hrun, hcells, (describes_compile hrun).1⟩

end TypeLayout
