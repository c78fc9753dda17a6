import TypeLayout.Proofs.Writing

/-!
# The table of a session

After the names have been looked up, laying a session out and writing its table go
through the same nodes in the same order (`Session.LaidOut`). Nothing can go wrong while
the cells are written. What is left are the checks at the end: the names of the exported
constants must differ, their offsets must stay below the mark, and every cell must fit
(`Session.exists_emitTable`).
-/

namespace TypeLayout

namespace Session

variable {g : Graph} {order : List NodeId} {s : Session} {id : NodeId}

/-! ### Before and after the layout -/

/-- Before the layout no node has a place. -/
theorem laid_nil (hs : s.graph.Settled) (hc : s.counters = (0, 0)) : Laid s.graph [] s := by
  obtain ⟨hoffset, hjump⟩ := Prod.mk.inj hc
  have hnone (id : NodeId) := (hs.nodes id).unplaced
  exact
    { target := rfl
      size := rfl
      shape := fun id => .refl _
      emitted := fun id => (hnone id).1
      offset := fun id => by simpa using (hnone id).2.2.1
      jump := fun id => by simpa using (hnone id).2.2.2
      nextOffset := hoffset
      nextJump := hjump
      named := by simp
      flawless := by simp }

theorem Resolved.laid (h : s.Resolved) : Laid s.graph [] s := laid_nil h.serves.settled h.counters

/-- **A session that has been laid out**: the nodes that the requested ones need have been
placed in the order of the walk from them, and all of them can be described. -/
structure LaidOut (g : Graph) (order : List NodeId) (s : Session) : Prop where
  serves : g.Serves s.requested
  walk : Walk g.kids [] s.requested order
  laid : Laid g order s
  clear : ∀ id ∈ order, g.Describable id

/-- **The layout fails exactly over the first flaw of what is requested.** -/
theorem Resolved.layout_ends (h : s.Resolved) (hw : Walk s.graph.kids [] s.requested order) :
    Ends (s.requested.findSome? s.graph.flaw)
      (fun s' => LaidOut s.graph order s' ∧ s'.keys = s.keys) s.assignOffsets := by
  obtain ⟨rank, hr⟩ := h.serves.settled.ranked
  have hlt : ∀ x, ∀ b ∈ s.graph.kids x, b < s.graph.size := fun x b hb =>
    Graph.lt_size_of_isDefined ((h.serves.settled.nodes x).isDefined_of_mem_children hb)
  refine (assignOffsets_ends hr hlt h.laid h.serves.isDefined hw).imp fun s' ⟨hlaid, hkeys⟩ => ?_
  have hrequested : s'.requested = s.requested := by rw [requested, hkeys, requested]
  exact ⟨⟨hrequested ▸ h.serves, hrequested ▸ hw, hlaid,
    fun id hid => (hr.flaw_eq_none_iff.mp (hlaid.flawless id hid)).1⟩, hkeys⟩

theorem Resolved.exists_walk (h : s.Resolved) : ∃ order, Walk s.graph.kids [] s.requested order := by
  obtain ⟨rank, hr⟩ := h.serves.settled.ranked
  exact Walk.exists_walk hr.lt [] s.requested

theorem map_roots (s : Session) : s.roots.map Prod.fst = s.requested := by
  rw [roots, List.map_filterMap, requested]
  refine List.filterMap_congr fun key _ => ?_
  cases key.node <;> rfl

/-! ### Constants -/

/-- The constants of the requested nodes. -/
def keySymbols (g : Graph) (order : List NodeId) (s : Session) : List TableSymbol :=
  s.roots.map fun (id, name) => ⟨name, g.offsetIn order id, .key⟩

/-- The constants of members of unions. -/
def memberSymbols (g : Graph) (order : List NodeId) (s : Session) (ids : List NodeId) :
    List TableSymbol :=
  ids.map fun id => ⟨s.spelled id, g.offsetIn order id, .unionMember⟩

end Session

namespace Draft

variable {g : Graph} {order done more : List NodeId} {s : Session} {d : Draft}

section Symbols

variable (hl : Session.Laid g order s) (hw : d.Written g order s done more)

include hl hw

theorem keySymbols_eq {roots : List (NodeId × String)} (h : ∀ p ∈ roots, p.1 ∈ order) :
    d.keySymbols roots = .ok (roots.map fun (id, name) => ⟨name, g.offsetIn order id, .key⟩) := by
  induction roots with
  | nil => rfl
  | cons p roots ih =>
    rw [keySymbols, offsetOf_eq hl hw (h p List.mem_cons_self),
      ih fun q hq => h q (List.mem_cons_of_mem _ hq)]
    rfl

theorem memberSymbols_eq {ids : List NodeId} (h : ∀ id ∈ ids, id ∈ order) :
    d.memberSymbols s.names ids = .ok (s.memberSymbols g order ids) := by
  induction ids with
  | nil => rfl
  | cons id ids ih =>
    have hid := h id List.mem_cons_self
    rw [memberSymbols, nameOf_eq hl hw hid, offsetOf_eq hl hw hid,
      ih fun x hx => h x (List.mem_cons_of_mem _ hx)]
    rfl

end Symbols

/-- The draft into which the requested nodes are written. -/
def ofRoots (s : Session) : Draft × Except EmitFault Unit :=
  Draft.forEach (fun d (root, _) => Draft.emit s.names s.graph.size d root) { graph := s.graph }
    s.roots

/-- **All nodes are written**, each after what it needs and at its offset. -/
theorem exists_ofRoots (h : s.LaidOut g order) :
    ∃ d, ofRoots s = (d, .ok ()) ∧ d.Written g order s order [] := by
  obtain ⟨rank, hr⟩ := h.serves.settled.ranked
  have hstart : ({ graph := s.graph } : Draft).Written g order s [] [] :=
    ⟨rfl, rfl, fun _ => rfl, by simp, rfl, .refl _, rfl, rfl⟩
  have hmarked : Marked rank g.size [] { graph := s.graph } := fun id _ => by
    simp [h.laid.emitted id]
  have hloop := exists_forEach (l := s.roots) (f := fun d p => Draft.emit s.names s.graph.size d p.1)
    (fun p : NodeId × String => p.1) (fun _ => []) (fun p hp d done done' more hd hm hw hpre => ?_)
    hstart hmarked (s.map_roots ▸ h.walk) (List.prefix_refl _) rfl
  · obtain ⟨d, heq, hd, -⟩ := hloop
    refine ⟨d, heq, ?_⟩
    rwa [List.flatMap_eq_nil_iff.mpr fun _ _ => rfl, List.append_nil] at hd
  · have hdefined : (g.node p.1).isDefined = true :=
      h.serves.isDefined p.1 (s.map_roots ▸ List.mem_map_of_mem hp)
    rw [List.append_nil, h.laid.size]
    exact exists_emit h.laid h.serves.settled hr h.clear (hr.lt_size p.1 hdefined) hd
      (hm.mono (hr.lt_size p.1 hdefined)) hw hpre

end Draft

namespace Session

variable {g : Graph} {order : List NodeId} {s : Session} {d : Draft} {id : NodeId}

theorem LaidOut.nodup (h : s.LaidOut g order) : order.Nodup := by
  obtain ⟨rank, hr⟩ := h.serves.settled.ranked
  exact h.walk.nodup hr.lt List.nodup_nil

theorem LaidOut.mem_of_mem_children (h : s.LaidOut g order) {b : NodeId} (hid : id ∈ order)
    (hb : b ∈ g.kids id) : b ∈ order := h.walk.mem_of_mem_kids hid hb

theorem LaidOut.mem_of_mem_members (h : s.LaidOut g order) (hd : d.Written g order s order [])
    (hid : id ∈ d.members) : id ∈ order := by
  have hmem := hd.members.subset hid
  rw [List.append_nil, List.mem_flatMap] at hmem
  obtain ⟨u, hu, hm⟩ := hmem
  exact h.mem_of_mem_children hu ((h.serves.settled.nodes u).mem_children.mpr (Or.inl hm))

/-- A constant stands for a node that has been placed. -/
theorem LaidOut.exists_of_mem_symbols (h : s.LaidOut g order) (hd : d.Written g order s order [])
    {symbol : TableSymbol} (hs : symbol ∈ s.keySymbols g order ++ s.memberSymbols g order d.members) :
    ∃ id ∈ order, g.offsetIn order id = symbol.offset := by
  rcases List.mem_append.mp hs with hs | hs
  · obtain ⟨p, hp, rfl⟩ := List.mem_map.mp hs
    exact ⟨p.1, h.walk.mem_of_mem_todo (s.map_roots ▸ List.mem_map_of_mem hp), rfl⟩
  · obtain ⟨id, hid, rfl⟩ := List.mem_map.mp hs
    exact ⟨id, h.mem_of_mem_members hd hid, rfl⟩

/-- The checks at the end, if they refuse nothing. -/
theorem of_checked {t table : DescriptorTable}
    (h : ((checkSymbols [] t.symbols).bind fun _ =>
      (t.packed.mapError fun e => ((0, e) : EmitFault)).map fun _ => t) = .ok table) :
    checkSymbols [] t.symbols = .ok () ∧ (∃ vs, t.packed = .ok vs) ∧ table = t := by
  cases hcheck : checkSymbols [] t.symbols with
  | error err => simp [hcheck, Except.bind] at h
  | ok _ =>
    rw [hcheck] at h
    cases hpack : t.packed with
    | error err => simp [hpack, Except.bind, Except.mapError, Except.map] at h
    | ok vs =>
      rw [hpack] at h
      exact ⟨rfl, ⟨vs, rfl⟩, (Except.ok.inj h).symm⟩

/-- **The table of a session that has been laid out** consists of the records of its nodes.
It is refused for its constants or its cells only. -/
theorem exists_emitTable (h : s.LaidOut g order) :
    ∃ d, Draft.ofRoots s = (d, .ok ()) ∧ d.Written g order s order [] ∧
      s.emitTable.1.graph = d.graph ∧
      s.emitTable.1.keys = s.keys ∧ ∃ table : DescriptorTable,
        table.target = g.target ∧ table.cells = order.flatMap (g.record (g.placesIn order)) ∧
        table.symbols = s.keySymbols g order ++ s.memberSymbols g order d.members ∧
        table.starts = d.starts ∧
        table.jumpSlots = d.jumpSlots.mergeSort (fun a b => a.index ≤ b.index) ∧
        s.emitTable.2 = (checkSymbols [] table.symbols).bind fun _ =>
          (table.packed.mapError fun e => (0, e)).map fun _ => table := by
  obtain ⟨d, hloop, hd⟩ := Draft.exists_ofRoots h
  have hkeys : d.keySymbols s.roots = .ok (s.keySymbols g order) :=
    Draft.keySymbols_eq h.laid hd fun p hp =>
      h.walk.mem_of_mem_todo (s.map_roots ▸ List.mem_map_of_mem hp)
  have hmembers : d.memberSymbols s.names d.members = .ok (s.memberSymbols g order d.members) :=
    Draft.memberSymbols_eq h.laid hd fun _ hm => h.mem_of_mem_members hd hm
  have hroots : ({ s with graph := d.graph } : Session).roots = s.roots := rfl
  have hdo (keys members : List TableSymbol) : (do
      let () ← (.ok () : Except EmitFault Unit)
      let keys ← (.ok keys : Except EmitFault (List TableSymbol))
      let members ← (.ok members : Except EmitFault (List TableSymbol))
      checkSymbols [] (keys ++ members)
      .ok (keys ++ members)) = (checkSymbols [] (keys ++ members)).map fun _ => keys ++ members := by
    show (checkSymbols [] (keys ++ members)).bind _ = _
    cases checkSymbols [] (keys ++ members) <;> rfl
  let table : DescriptorTable :=
    { target := d.graph.target, cells := d.cells, starts := d.starts,
      symbols := s.keySymbols g order ++ s.memberSymbols g order d.members,
      jumpSlots := d.jumpSlots.mergeSort fun a b => a.index ≤ b.index }
  have hgoal : s.emitTable.1.graph = d.graph ∧ s.emitTable.1.keys = s.keys ∧
      s.emitTable.2 = (checkSymbols [] table.symbols).bind fun _ =>
        (table.packed.mapError fun e => (0, e)).map fun _ => table := by
    unfold Draft.ofRoots at hloop
    unfold emitTable
    simp only [hloop, hroots, hkeys, hmembers, hdo]
    rw [show s.keySymbols g order ++ s.memberSymbols g order d.members = table.symbols from rfl]
    cases checkSymbols [] table.symbols with
    | error err => exact ⟨rfl, rfl, rfl⟩
    | ok _ =>
      simp only [Except.map, Except.bind, table]
      generalize DescriptorTable.packed _ = p
      cases p <;> exact ⟨rfl, rfl, rfl⟩
  exact ⟨d, hloop, hd, hgoal.1, hgoal.2.1, table, hd.target.trans h.laid.target, hd.cells, rfl, rfl,
    rfl, hgoal.2.2⟩

end Session

end TypeLayout
