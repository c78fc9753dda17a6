import TypeLayout.Proofs.Constants
import TypeLayout.Proofs.Converters
import TypeLayout.Proofs.MemberNames

/-!
# Jump slots can be addressed by name

A reference to a union holds a number, the slot of the union. The slots of a table are listed in
the order in which the unions are written, which is the order in which the layout counted them
(`Graph.map_jumpIn`), so a slot stands where its number says and carries the name of the union
that was linked.

Nothing checks that these names differ. What is checked are the exported constants, and unions
are not among them, unless they are asked for. But their members are: the first member of a union
`u` is exported as `u_0`, so two unions of one name would export one constant twice
(`Session.Passage.nodup_unions`). A converter can therefore be registered for the name of a union
just as for its slot.
-/

namespace TypeLayout

open List

namespace Graph

variable {g : Graph} {p : Places} {order : List NodeId}

/-! ### References among cells -/

/-- Where the reference to a union stands among fields. -/
theorem exists_of_unionRef {items : List Item} {j index align : ℕ}
    (h : (g.fieldCells p items)[j]? = some (.unionRef index align)) :
    ∃ (k count : ℕ) (u : NodeId), items[k]? = some ⟨count, .unionLink u⟩ ∧
      j = Node.itemsCells (items.take k) + 1 ∧ index = p.jump u ∧ align = (g.node u).align := by
  induction items generalizing j with
  | nil => simp [fieldCells] at h
  | cons item items ih =>
    have hcells : g.fieldCells p (item :: items) =
        .field item.count item.kind.code items.isEmpty ::
          (g.linkCells p item.kind ++ g.fieldCells p items) := rfl
    rw [hcells] at h
    cases j with
    | zero => simp at h
    | succ j =>
      rw [getElem?_cons_succ] at h
      have hlen := g.length_linkCells p item.kind
      by_cases hj : j < (g.linkCells p item.kind).length
      · rw [getElem?_append_left hj] at h
        obtain ⟨count, kind⟩ := item
        cases kind with
        | unionLink u =>
          obtain rfl : j = 0 := by simpa [linkCells] using hj
          simp only [linkCells, getElem?_cons_zero, Option.some.injEq,
            Cell.unionRef.injEq] at h
          exact ⟨0, count, u, rfl, rfl, h.1.symm, h.2.symm⟩
        | structLink t =>
          obtain rfl : j = 0 := by simpa [linkCells] using hj
          simp [linkCells] at h
        | _ => simp [linkCells] at hj
      · rw [getElem?_append_right (Nat.le_of_not_lt hj)] at h
        obtain ⟨k, count, u, hk, hpos, hindex, halign⟩ := ih h
        refine ⟨k + 1, count, u, hk, ?_, hindex, halign⟩
        rw [take_succ_cons, Node.itemsCells, Node.itemCells]
        split at hlen <;> simp_all <;> omega

end Graph

namespace Session

/-! ### The slots of a table -/

namespace Emits

variable {g : Graph} {order : List NodeId} {s : Session} {d : Draft} {table : DescriptorTable}
  (h : s.Emits g order d table)

include h

/-- The slots are in order before they are sorted. -/
theorem jumpSlots_eq : table.jumpSlots = (order.filter fun id => (g.node id).isUnion).map fun id =>
    ⟨g.jumpIn order id, s.spelled id⟩ := by
  rw [h.jumpSlots]
  refine mergeSort_of_pairwise (List.pairwise_map.mpr ?_)
  have hrange := @List.pairwise_le_range (g.unionsOf order)
  rw [← g.map_jumpIn h.laidOut.nodup] at hrange
  exact (List.pairwise_map.mp hrange).imp fun hle => decide_eq_true hle

/-- **A slot stands where its number says.** -/
theorem index_eq {i : ℕ} {slot : JumpSlot} (hi : table.jumpSlots[i]? = some slot) :
    slot.index = i := by
  rw [h.jumpSlots_eq, getElem?_map] at hi
  obtain ⟨u, hu, rfl⟩ := Option.map_eq_some_iff.mp hi
  exact ((g.getElem?_unions h.laidOut.nodup).mp hu).2.2

/-- **The slot of a union carries its name.** -/
theorem getElem?_jumpSlots {u : NodeId} (hu : u ∈ order) (hunion : (g.node u).isUnion = true) :
    table.jumpSlots[g.jumpIn order u]? = some ⟨g.jumpIn order u, s.spelled u⟩ := by
  rw [h.jumpSlots_eq, getElem?_map,
    (g.getElem?_unions h.laidOut.nodup).mpr ⟨hu, hunion, rfl⟩]
  rfl

end Emits

namespace Passage

variable {names : Names} {keys : KeyList} {target : Target} {order : List NodeId} {d : Draft}
  {table : DescriptorTable} {s s₁ s₂ : Session}
  (h : Passage names keys target order d table s s₁ s₂) {i : ℕ} {m u : NodeId}

include h

/-! ### Names of unions -/

/-- A member has one place in one union. -/
theorem place_unique {v : NodeId} {j : ℕ} (hu : u ∈ order) (hv : v ∈ order)
    (hi : (s.graph.node u).members[i]? = some m) (hj : (s.graph.node v).members[j]? = some m) :
    u = v ∧ i = j := by
  have hnodup := h.emits.nodup_spelled_members.of_map s₁.spelled
  obtain ⟨hone, hapart⟩ := List.nodup_flatMap.mp hnodup
  have huv : u = v := by
    by_contra hne
    have hsymm : Std.Symm (Function.onFun List.Disjoint fun id => (s.graph.node id).members) :=
      ⟨fun _ _ hab => hab.symm⟩
    exact hapart.forall hu hv hne (mem_of_getElem? hi) (mem_of_getElem? hj)
  subst huv
  have hlt := (List.getElem?_eq_some_iff.mp hi).1
  exact ⟨rfl, (getElem?_inj hlt (hone u hu)).mp (hi.trans hj.symm)⟩

/-- **A member is called after its own union.** -/
theorem spelled_member (hu : u ∈ order) (hm : (s.graph.node u).members[i]? = some m) :
    s₁.spelled m = s₁.spelled u ++ s!"_{i}" := by
  have hmem := mem_of_getElem? hm
  have horder : m ∈ order := h.emits.laidOut.mem_of_mem_children hu
    ((h.prepared.serves.settled.nodes u).mem_children.mpr (.inl hmem))
  have hkind : (s₁.graph.node m).kind = .unionMember := by
    rw [h.persists.kind_eq]
    exact ((h.prepared.serves.settled.nodes u).members m hmem).1
  have hrenamed : (s₁.graph.node m).renamed = true := by
    refine (h.persists.named h.prepared.named).placed m ?_ hkind
    rw [h.emits.laidOut.laid.offset m, if_pos horder]
    rfl
  have htitled := h.prepared.titled
  rw [h.assigned] at htitled
  obtain ⟨v, j, hv, -, -, hmem', htitle⟩ := htitled.title m hkind hrenamed
  rw [(h.persists.shape v).members] at hmem'
  have hvorder : v ∈ order := by
    rw [h.emits.laidOut.mem_iff_needs, requested, h.keys.1, ← requested]
    exact hv
  obtain ⟨rfl, rfl⟩ := h.place_unique hu hvorder hm hmem'
  exact htitle

/-- **The unions of a table have different names**, because their first members have. -/
theorem nodup_unions :
    ((order.filter fun id => (s.graph.node id).isUnion).map s₁.spelled).Nodup := by
  have hfirst {u : NodeId} (hu : u ∈ order.filter fun id => (s.graph.node id).isUnion) :
      ∃ m, (s.graph.node u).members[0]? = some m := by
    obtain ⟨horder, hunion⟩ := List.mem_filter.mp hu
    have hdescribable := h.emits.laidOut.clear u horder
    rw [Graph.Describable, if_pos hunion] at hdescribable
    exact ⟨_, getElem?_eq_getElem (List.length_pos_iff.mpr hdescribable)⟩
  refine Nodup.map_on (fun u hu v hv huv => ?_) (h.nodup.filter _)
  obtain ⟨m, hm⟩ := hfirst hu
  obtain ⟨m', hm'⟩ := hfirst hv
  have huorder := mem_of_mem_filter hu
  have hvorder := mem_of_mem_filter hv
  have hsame : s₁.spelled m = s₁.spelled m' := by
    rw [h.spelled_member huorder hm, h.spelled_member hvorder hm', huv]
  have hflat {w x : NodeId} (hw : w ∈ order) (hx : (s.graph.node w).members[0]? = some x) :
      x ∈ order.flatMap fun id => (s.graph.node id).members :=
    List.mem_flatMap.mpr ⟨w, hw, mem_of_getElem? hx⟩
  obtain rfl := inj_on_of_nodup_map h.emits.nodup_spelled_members (hflat huorder hm)
    (hflat hvorder hm') hsame
  exact (h.place_unique huorder hvorder hm hm').1

theorem addressable : JumpSlot.Addressable table.jumpSlots where
  index _ _ hi := h.emits.index_eq hi
  nodup := by
    rw [h.emits.jumpSlots_eq, map_map]
    exact h.nodup_unions

end Passage

end Session

/-! ### Tables -/

/-- **A reference to a union leads to its slot**: it stands after the field of an item that links
to the union, it holds the alignment of the union, and its slot carries the name of the union. -/
structure DescriptorTable.LinksUnion (t : DescriptorTable) (s : Session) (i index align : ℕ)
    (id u : NodeId) (k : ℕ) : Prop where
  needed : s.graph.Needs s.requested id
  item : ∃ count, (s.graph.node id).items[k]? = some ⟨count, .unionLink u⟩
  position : ∃ offset, (s.graph.node id).offset = some offset ∧
    i = offset + 1 + Node.itemsCells ((s.graph.node id).items.take k) + 1
  align_eq : align = (s.graph.node u).align
  jump : (s.graph.node u).jump = some index
  slot : ∃ name, (s.graph.node u).name = some name ∧
    t.jumpSlots[index]? = some ⟨index, s.names.spell name⟩

/-- **References lead to the slots of the unions that were linked.** -/
theorem Session.Passage.exists_linksUnion {names : Names} {keys : KeyList} {target : Target}
    {order : List NodeId} {d : Draft} {table : DescriptorTable} {s s₁ s₂ : Session}
    (h : Passage names keys target order d table s s₁ s₂) {i index align : ℕ}
    (hi : table.cells[i]? = some (.unionRef index align)) :
    ∃ id u k, table.LinksUnion s₂ i index align id u k := by
  rw [h.emits.cells] at hi
  obtain ⟨l, id, r, j, hl, rfl, hj⟩ := Graph.exists_of_getElem?_flatMap hi
  have hid : id ∈ order := hl ▸ by simp
  have hoffset := h.emits.laidOut.lined.offset l id r hl
  have hunion : (s.graph.node id).isUnion = false := by
    by_contra hu
    rw [Graph.record, if_pos (by simpa using hu)] at hj
    cases j <;> simp at hj
  rw [Graph.record, if_neg (by simp [hunion])] at hj
  cases j with
  | zero => simp at hj
  | succ j =>
    rw [getElem?_cons_succ] at hj
    obtain ⟨k, count, u, hk, rfl, rfl, rfl⟩ := Graph.exists_of_unionRef hj
    have hitem := mem_of_getElem? hk
    have hsound := h.prepared.serves.settled.nodes id
    have hu : u ∈ order := h.emits.laidOut.mem_of_mem_children hid
      (hsound.mem_children.mpr (.inr ⟨_, hitem, rfl⟩))
    have hkind : (s.graph.node u).isUnion = true := by
      have hleads := hsound.leads _ hitem
      simp [Node.isUnion, hleads.1]
    obtain ⟨name, hname, hspelled⟩ := h.exists_name hu
    refine ⟨id, u, k, (h.mem_order_iff id).mp hid, ⟨count, (h.shape id).items.symm ▸ hk⟩,
      ⟨_, h.offset hid, ?_⟩, (h.shape u).align.symm, h.jump hu hkind, name, hname, ?_⟩
    · have hplace : s.graph.offsetIn order id =
          (l.flatMap (s.graph.record (s.graph.placesIn order))).length := hoffset
      rw [(h.shape id).items, hplace]
      omega
    · rw [← hspelled]
      exact h.emits.getElem?_jumpSlots hu hkind

/-- **Jump slots match the table and can be addressed by name.** Every slot stands at its index;
every reference leads to the slot of the union that was linked; no two slots have one name. So
after any calls that register converters, by name or by index, to register one for the name of a
slot is to register it for the index of that slot, which fills this slot and leaves all others
alone; and the unions that are unresolved are those of the slots that no call was for, in the
order of their indices. -/
theorem jumpSlots_compile {source : String} {names : Names} {keys : KeyList} {options : Options}
    {eval : Evaluator} {stopAfter : Stage} {c : Compilation} {table : DescriptorTable}
    (h : (compile source names keys options eval stopAfter).result = .ok c)
    (ht : c.table = some table) :
    (∀ (i : ℕ) slot, table.jumpSlots[i]? = some slot → slot.index = i) ∧
    (∃ s, c.session = some s ∧ ∀ i index align, table.cells[i]? = some (.unionRef index align) →
      index < table.jumpSlots.length ∧ ∃ id u k, table.LinksUnion s i index align id u k) ∧
    (table.jumpSlots.map (·.union)).Nodup ∧
    ∀ calls : List Registration,
      let r := (ConverterRegistry.ofSlots table.jumpSlots).after calls
      (∀ i slot f, table.jumpSlots[i]? = some slot → r.registerUnion slot.union f = r.register i f ∧
        r.register i f = .ok ⟨r.slots.set i (slot.union, some f)⟩) ∧
      r.unresolved =
        (table.jumpSlots.filter fun slot => calls.all fun reg => !reg.fills slot).map
          (·.union) := by
  obtain ⟨order, d, s, s₁, s₂, hsession, hp⟩ := exists_passage h ht
  have haddress := hp.addressable
  refine ⟨haddress.index, ⟨s₂, hsession, fun i index align hi => ?_⟩, haddress.nodup,
    ConverterRegistry.after_ofSlots haddress⟩
  obtain ⟨id, u, k, hlinks⟩ := hp.exists_linksUnion hi
  obtain ⟨name, -, hslot⟩ := hlinks.slot
  exact ⟨(List.getElem?_eq_some_iff.mp hslot).1, id, u, k, hlinks⟩

/-- Two unions, the second of which has no name of its own: the struct around it becomes this
union. References to both stand at the end of the table. The first converter is registered by
index, between two calls that are refused, the second by name. -/
theorem jumpSlots_compile_two :
    let key := KeyList.makeKey {} .struct "s" 1
    let run := compile ("union u { int i; char c; }; struct w { union { int x; char y; } v; };" ++
      "struct s { union u a; struct w b; };") key.2 ⟨[key.1]⟩ {} (fun _ => .error .noCompiler) .emit
    let f : UnionConverter := fun _ => some 1
    let calls : List Registration := [.byIndex 7 f, .byIndex 0 f, .byName "x" f]
    ∃ c table session, run.result = .ok c ∧ c.table = some table ∧ c.session = some session ∧
      table.cells.drop 10 = [.length 8, .field 1 'u' false, .unionRef 0 4, .field 1 'u' true,
        .unionRef 1 4] ∧
      (∃ id u k, table.LinksUnion session 12 0 4 id u k) ∧
      (∃ id u k, table.LinksUnion session 14 1 4 id u k) ∧
      let r := (ConverterRegistry.ofSlots table.jumpSlots).after calls
      ∃ slot, table.jumpSlots[1]? = some slot ∧
        r.registerUnion slot.union f = .ok ⟨r.slots.set 1 (slot.union, some f)⟩ := by
  intro key run f calls
  have hcells : run.table?.map (fun t => t.cells.drop 10) = some [.length 8, .field 1 'u' false,
      .unionRef 0 4, .field 1 'u' true, .unionRef 1 4] := by decide +kernel
  obtain ⟨table, htable, hcells⟩ := Option.map_eq_some_iff.mp hcells
  obtain ⟨c, hrun, htable⟩ := Run.exists_of_table? htable
  obtain ⟨-, ⟨session, hsession, hrefs⟩, -, hcalls⟩ := jumpSlots_compile hrun htable
  have hcell (i : ℕ) : table.cells[10 + i]? = (table.cells.drop 10)[i]? := List.getElem?_drop.symm
  rw [hcells] at hcell
  obtain ⟨-, hfirst⟩ := hrefs 12 0 4 (hcell 2)
  obtain ⟨hlt, hsecond⟩ := hrefs 14 1 4 (hcell 4)
  have hslot := getElem?_eq_getElem hlt
  obtain ⟨hname, hset⟩ := (hcalls calls).1 1 _ f hslot
  exact ⟨c, table, session, hrun, htable, hsession, hcells, hfirst, hsecond, _, hslot,
    hname.trans hset⟩

end TypeLayout
