import TypeLayout.Proofs.Placing
import TypeLayout.Table.Emission

/-!
# Cells follow the walk

Writing goes through the graph a second time and marks a node when it enters it, not
when it leaves it. Since links do not run in a circle, a node that is entered but not
left is never met again, so the nodes are left in the same order as before
(`Draft.exists_emit`). Each node is then written where its offset says, and the cells
are the records of the nodes in that order, with nothing between them
(`Graph.record`, `Draft.Written`).
-/

namespace TypeLayout

open List

/-! ### What is written for a node -/

/-- Where nodes start, and the slots of unions. -/
structure Places where
  offset : NodeId → ℕ
  jump : NodeId → ℕ

namespace Graph

/-- The places that an order gives. -/
def placesIn (g : Graph) (order : List NodeId) : Places := ⟨g.offsetIn order, g.jumpIn order⟩

/-- The cell that stands after the field of a link. -/
def linkCells (g : Graph) (p : Places) : Element → List Cell
  | .structLink t => [.structRef (p.offset t)]
  | .unionLink t => [.unionRef (p.jump t) (g.node t).align]
  | _ => []

/-- The cells of items: one field for each, the last one marked, and one more cell after
the field of a link. -/
def fieldCells (g : Graph) (p : Places) : List Item → List Cell
  | [] => []
  | item :: items =>
    .field item.count item.kind.code items.isEmpty :: g.linkCells p item.kind ++
      g.fieldCells p items

/-- **The record of a node**: its size, and its fields unless it is a union. -/
def record (g : Graph) (p : Places) (id : NodeId) : List Cell :=
  .length (g.node id).length ::
    if (g.node id).isUnion then [] else g.fieldCells p (g.node id).items

/-- What is written for a node is seen from the node and from the cells after its fields. -/
theorem record_congr {g g' : Graph} {p p' : Places} {id : NodeId}
    (h : (g.node id).Shape (g'.node id))
    (hlink : ∀ item ∈ (g.node id).items, g'.linkCells p' item.kind = g.linkCells p item.kind) :
    g'.record p' id = g.record p id := by
  rw [record, record, h.length, h.isUnion, h.items]
  generalize (g.node id).items = items at hlink
  have hfields : g'.fieldCells p' items = g.fieldCells p items := by
    induction items with
    | nil => rfl
    | cons item items ih =>
      rw [fieldCells, fieldCells, hlink item mem_cons_self,
        ih fun x hx => hlink x (mem_cons_of_mem _ hx)]
  rw [hfields]

theorem length_linkCells (g : Graph) (p : Places) (e : Element) :
    (g.linkCells p e).length = if e.link?.isSome then 1 else 0 := by
  cases e <;> rfl

theorem length_fieldCells (g : Graph) (p : Places) (items : List Item) :
    (g.fieldCells p items).length = Node.itemsCells items := by
  induction items with
  | nil => rfl
  | cons item items ih =>
    rw [fieldCells, Node.itemsCells, Node.itemCells, length_append, length_cons,
      length_linkCells, ih]
    split <;> omega

theorem length_record (g : Graph) (p : Places) (id : NodeId) :
    (g.record p id).length = (g.node id).cellCount := by
  rw [record, Node.cellCount, length_cons]
  split
  · rfl
  · rw [length_fieldCells, Nat.add_comm]

theorem length_records (g : Graph) (p : Places) (l : List NodeId) :
    (l.flatMap (g.record p)).length = g.cellsOf l := by
  rw [length_flatMap, cellsOf]
  simp only [length_record]

end Graph

/-- The name of a node as text. -/
def Session.spelled (s : Session) (id : NodeId) : String :=
  ((s.graph.node id).name.map s.names.spell).getD ""

/-! ### A table in the making -/

namespace Draft

/-- **A draft in which the nodes of a list have been written.** The members that have
been recorded are those of the unions that were written, and some more. -/
structure Written (g : Graph) (order : List NodeId) (s : Session) (done more : List NodeId)
    (d : Draft) : Prop where
  target : d.graph.target = s.graph.target
  size : d.graph.size = s.graph.size
  node : ∀ id, d.graph.node id = { s.graph.node id with emitted := (d.graph.node id).emitted }
  marked : ∀ id ∈ done, (d.graph.node id).emitted = true
  cells : d.cells = done.flatMap (g.record (g.placesIn order))
  members : d.members.Perm ((done.flatMap fun id => (g.node id).members) ++ more)
  starts : d.starts = done.map fun id => (g.offsetIn order id, s.spelled id)
  jumpSlots : d.jumpSlots = (done.filter fun id => (g.node id).isUnion).map fun id =>
    ⟨g.jumpIn order id, s.spelled id⟩

/-- Up to a rank, exactly the nodes that were written are marked. -/
def Marked (rank : NodeId → ℕ) (r : ℕ) (done : List NodeId) (d : Draft) : Prop :=
  ∀ id, rank id < r → ((d.graph.node id).emitted = true ↔ id ∈ done)

/-- The nodes of a list are marked now, and no other is that was not before. -/
def Marks (done : List NodeId) (d d' : Draft) : Prop :=
  ∀ id, (d'.graph.node id).emitted = true ↔ (d.graph.node id).emitted = true ∨ id ∈ done

variable {g : Graph} {order done done' mid more : List NodeId} {s : Session} {d d' d'' : Draft}
  {id : NodeId} {rank : NodeId → ℕ} {r : ℕ}

theorem Written.marks (h : d.Written g order s done more) : Marks done d d := fun id =>
  ⟨Or.inl, fun hid => hid.elim (fun hid => hid) (h.marked id)⟩

theorem Marks.trans (h : Marks mid d d') (h' : Marks done' d' d'') (hsub : mid ⊆ done') :
    Marks done' d d'' := by
  intro id
  rw [h' id, h id, or_assoc]
  exact or_congr_right ⟨fun h => h.elim (fun h => hsub h) fun h => h, Or.inr⟩

theorem Marked.marks (h : Marked rank r done d) (hm : Marks done' d d') (hsub : done ⊆ done') :
    Marked rank r done' d' := by
  intro id hid
  rw [hm id, h id hid]
  exact ⟨fun h => h.elim (fun h => hsub h) fun h => h, Or.inr⟩

theorem Marked.mono {r' : ℕ} (h : Marked rank r done d) (hle : r' ≤ r) : Marked rank r' done d :=
  fun id hid => h id (lt_of_lt_of_le hid hle)

/-! ### Writing one node -/

/-- The cells of items do not depend on what has been noted about starts. -/
theorem itemCells_withStarts (d : Draft) (starts : List (ℕ × String)) (line : ℕ) (name : String)
    (items : List Item) :
    ({ d with starts } : Draft).itemCells line name items = d.itemCells line name items := by
  induction items with
  | nil => rfl
  | cons item items ih =>
    have hlink : ({ d with starts } : Draft).linkCells line name item.kind =
        d.linkCells line name item.kind := by
      cases item.kind <;> rfl
    simp only [itemCells, hlink, ih]

section Write

variable (hl : Session.Laid g order s) (hw : d.Written g order s done more)

include hl hw

theorem offsetOf_eq (hid : id ∈ order) : d.offsetOf id = .ok (g.offsetIn order id) := by
  have hoff : (d.graph.node id).offset = some (g.offsetIn order id) := by
    rw [hw.node id]
    exact (hl.offset id).trans (if_pos hid)
  simp only [offsetOf, hoff]

theorem nameOf_eq (hid : id ∈ order) : d.nameOf s.names id = .ok (s.spelled id) := by
  have hname : (d.graph.node id).name = (s.graph.node id).name := by rw [hw.node id]
  obtain ⟨name, hsome⟩ := Option.isSome_iff_exists.mp (hl.named id hid)
  simp only [nameOf, hname, hsome, Session.spelled, Option.map_some, Option.getD_some]

theorem linkCells_eq (line : ℕ) (name : String) {e : Element} (he : g.Leads e)
    (ht : ∀ t, e.link? = some t → t ∈ order) (hf : e ≠ .function) :
    d.linkCells line name e = .ok (g.linkCells (g.placesIn order) e) := by
  cases e with
  | structLink t =>
    simp only [linkCells, offsetOf_eq hl hw (ht t rfl)]
    rfl
  | unionLink t =>
    have hu : (g.node t).isUnion = true := by simp [Node.isUnion, he.1]
    have hjump : (d.graph.node t).jump = some (g.jumpIn order t) := by
      rw [hw.node t]
      exact (hl.jump t).trans (if_pos ⟨ht t rfl, hu⟩)
    have halign : (d.graph.node t).align = (g.node t).align := by
      rw [hw.node t]
      exact (hl.shape t).align
    simp only [linkCells, hjump, halign]
    rfl
  | function => exact absurd rfl hf
  | _ => rfl

theorem itemCells_eq (line : ℕ) (name : String) {items : List Item}
    (hi : ∀ item ∈ items, g.Leads item.kind ∧ (∀ t, item.kind.link? = some t → t ∈ order) ∧
      item.kind ≠ .function) :
    d.itemCells line name items = .ok (g.fieldCells (g.placesIn order) items) := by
  induction items with
  | nil => rfl
  | cons item items ih =>
    obtain ⟨hleads, ht, hf⟩ := hi item mem_cons_self
    rw [itemCells, linkCells_eq hl hw line name hleads ht hf,
      ih fun x hx => hi x (mem_cons_of_mem _ hx)]
    rfl

/-- **A node is written at its offset**, if all nodes before it have been written. -/
theorem exists_write (hg : g.Settled) (horder : done ++ [id] <+: order)
    (hnot : id ∉ done) (hmark : (d.graph.node id).emitted = true)
    (hkids : ∀ b ∈ g.kids id, b ∈ order) (hdesc : g.Describable id) {more' : List NodeId}
    (hmore : more.Perm ((g.node id).members ++ more')) :
    ∃ d', d.write s.names id = .ok d' ∧ d'.graph = d.graph ∧
      d'.Written g order s (done ++ [id]) more' := by
  have hid : id ∈ order := horder.subset (by simp)
  have hplace : d.cells.length = g.offsetIn order id := by
    obtain ⟨rest, hrest⟩ := horder
    rw [hw.cells, Graph.length_records, Graph.offsetIn, ← hrest, append_assoc,
      singleton_append, Graph.before_concat hnot]
  have hshape : (g.node id).Shape (d.graph.node id) := by
    rw [hw.node id]
    exact (hl.shape id).trans ⟨rfl, rfl, rfl, rfl, rfl⟩
  have hmembers : d.members.Perm (((done ++ [id]).flatMap fun id => (g.node id).members) ++ more') := by
    rw [flatMap_append, flatMap_singleton, append_assoc]
    exact hw.members.trans (hmore.append_left _)
  have hmarked : ∀ x ∈ done ++ [id], (d.graph.node x).emitted = true := by
    intro x hx
    rcases List.mem_append.mp hx with hx | hx
    · exact hw.marked x hx
    · rw [mem_singleton] at hx
      exact hx ▸ hmark
  have hcells (c : List Cell) (hc : c = g.record (g.placesIn order) id) :
      d.cells ++ c = (done ++ [id]).flatMap (g.record (g.placesIn order)) := by
    rw [hw.cells, hc, flatMap_append, flatMap_singleton]
  have hstarts : d.starts ++ [(g.offsetIn order id, s.spelled id)] =
      (done ++ [id]).map fun id => (g.offsetIn order id, s.spelled id) := by
    rw [hw.starts, map_append, map_singleton]
  simp only [write, nameOf_eq hl hw hid, offsetOf_eq hl hw hid, hplace, hshape.isUnion, hshape.length,
    hshape.items, ne_eq, not_true_eq_false, if_false]
  cases hu : (g.node id).isUnion with
  | true =>
    have hjump : (d.graph.node id).jump = some (g.jumpIn order id) := by
      rw [hw.node id]
      exact (hl.jump id).trans (if_pos ⟨hid, hu⟩)
    simp only [hjump, if_true]
    refine ⟨_, rfl, rfl, hw.target, hw.size, hw.node, hmarked, hcells _ ?_, hmembers, hstarts, ?_⟩
    · rw [Graph.record, if_pos hu]
    · simp only [hw.jumpSlots, filter_append, map_append, filter_cons, hu, if_true,
        filter_nil, map_cons, map_nil]
  | false =>
    rw [Graph.Describable, if_neg (by simp [hu])] at hdesc
    have hitems : ∀ item ∈ (g.node id).items, g.Leads item.kind ∧
        (∀ t, item.kind.link? = some t → t ∈ order) ∧ item.kind ≠ .function := fun item hi =>
      ⟨(hg.nodes id).leads item hi, fun t ht => hkids t ((hg.nodes id).mem_children.mpr
        (Or.inr ⟨item, hi, ht⟩)), hdesc.2 item hi⟩
    simp only [Bool.false_eq_true, if_false, itemCells_withStarts, itemCells_eq hl hw _ _ hitems]
    refine ⟨_, rfl, rfl, hw.target, hw.size, hw.node, hmarked, hcells _ ?_, hmembers, hstarts, ?_⟩
    · rw [Graph.record, if_neg (by simp [hu])]
    · simp only [hw.jumpSlots, filter_append, filter_cons, hu, Bool.false_eq_true,
        if_false, filter_nil, append_nil]

end Write

/-! ### Writing what a node needs -/

/-- A loop in which every element stands for a node writes all of them. -/
theorem exists_forEach {α : Type} {f : Draft → α → Draft × Except EmitFault Unit} (ids : α → NodeId)
    (pend : α → List NodeId) {l : List α}
    (hf : ∀ a ∈ l, ∀ d done done' more, d.Written g order s done more → Marked rank r done d →
      Walk g.kids done [ids a] done' → done' <+: order →
        ∃ d', f d a = (d', .ok ()) ∧ d'.Written g order s done' (more ++ pend a) ∧ Marks done' d d')
    (hd : d.Written g order s done more) (hm : Marked rank r done d)
    (hw : Walk g.kids done (l.map ids) done') (horder : done' <+: order)
    {result : Draft × Except EmitFault Unit} (hresult : d.forEach f l = result) :
    ∃ d', result = (d', .ok ()) ∧ d'.Written g order s done' (more ++ l.flatMap pend) ∧
      Marks done' d d' := by
  induction l generalizing d done more with
  | nil =>
    cases hw
    exact ⟨d, hresult.symm, by simpa using hd, hd.marks⟩
  | cons a l ih =>
    obtain ⟨mid, hone, hrest⟩ := Walk.of_append (l := [ids a]) hw
    obtain ⟨d₁, heq, hd₁, hm₁⟩ := hf a mem_cons_self d done mid more hd hm hone
      (hrest.isPrefix.trans horder)
    simp only [forEach, heq] at hresult
    obtain ⟨d₂, heq₂, hd₂, hm₂⟩ := ih (fun b hb => hf b (mem_cons_of_mem _ hb)) hd₁
      (hm.marks hm₁ hone.subset) hrest hresult
    refine ⟨d₂, heq₂, ?_, hm₁.trans hm₂ hrest.subset⟩
    rw [flatMap_cons, ← append_assoc]
    exact hd₂

/-- A node is marked as entered. -/
theorem Written.enter (hd : d.Written g order s done more) (hid : id < d.graph.size) :
    ({ d with graph := d.graph.modify id fun n => { n with emitted := true } } : Draft).Written g
      order s done more ∧
    ∀ x, (({ d with graph := d.graph.modify id fun n => { n with emitted := true } } :
      Draft).graph.node x).emitted = true ↔ (d.graph.node x).emitted = true ∨ x = id := by
  have hmark (x : NodeId) : ((d.graph.modify id fun n => { n with emitted := true }).node x).emitted =
      true ↔ (d.graph.node x).emitted = true ∨ x = id := by
    rcases eq_or_ne id x with rfl | hne
    · simp [Graph.node_modify_self _ hid]
    · simp [Graph.node_modify_of_ne _ hne, hne.symm]
  refine ⟨⟨hd.target, (Graph.size_modify _ _ _).trans hd.size, fun x => ?_,
    fun x hx => (hmark x).mpr (Or.inl (hd.marked x hx)), hd.cells, hd.members, hd.starts,
    hd.jumpSlots⟩, hmark⟩
  dsimp only
  rcases eq_or_ne id x with rfl | hne
  · rw [Graph.node_modify_self _ hid]
    conv_lhs => rw [hd.node id]
  · rw [Graph.node_modify_of_ne _ hne]
    exact hd.node x

theorem lt_size_of_mem (hl : Session.Laid g order s) (hid : id ∈ order) : id < s.graph.size := by
  by_contra hge
  have hoff := hl.offset id
  rw [if_pos hid, Graph.node_of_le (Nat.le_of_not_lt hge)] at hoff
  simp [default] at hoff

/-- After what a node needs the node itself is written. -/
theorem exists_finish (hl : Session.Laid g order s) (hg : g.Settled) {d₁ d₂ : Draft}
    (hmark : ∀ x, (d₁.graph.node x).emitted = true ↔ (d.graph.node x).emitted = true ∨ x = id)
    (hd₂ : d₂.Written g order s mid ((g.node id).members ++ more)) (hm₂ : Marks mid d₁ d₂)
    (hpre : mid ++ [id] <+: order) (hnot : id ∉ mid) (hkids : ∀ b ∈ g.kids id, b ∈ mid)
    (hdesc : g.Describable id) :
    ∃ d₃, d₂.write s.names id = .ok d₃ ∧ d₃.Written g order s (mid ++ [id]) more ∧
      Marks (mid ++ [id]) d d₃ := by
  have hentered : (d₂.graph.node id).emitted = true :=
    (hm₂ id).mpr (Or.inl ((hmark id).mpr (Or.inr rfl)))
  obtain ⟨d₃, heq, hgraph, hd₃⟩ := exists_write hl hd₂ hg hpre hnot hentered
    (fun b hb => hpre.subset (mem_append_left _ (hkids b hb))) hdesc (List.Perm.refl _)
  refine ⟨d₃, heq, hd₃, fun x => ?_⟩
  rw [hgraph, hm₂ x, hmark x, mem_append, mem_singleton, or_assoc, or_comm (a := x = id)]

/-- **Writing a node writes all that a walk from it leaves**, if it goes deep enough. -/
theorem exists_emit (hl : Session.Laid g order s) (hg : g.Settled) (hr : g.Ranked rank)
    (horder : ∀ id ∈ order, g.Describable id) {depth : ℕ} (hdepth : rank id < depth)
    (hd : d.Written g order s done more) (hm : Marked rank (rank id + 1) done d)
    (hw : Walk g.kids done [id] done') (hpre : done' <+: order) :
    ∃ d', emit s.names depth d id = (d', .ok ()) ∧ d'.Written g order s done' more ∧
      Marks done' d d' := by
  induction depth generalizing id d done done' more with
  | zero => exact absurd hdepth (Nat.not_lt_zero _)
  | succ depth ih =>
    unfold emit
    cases hw with
    | seen hmem hw =>
      cases hw
      rw [if_pos ((hm id (Nat.lt_succ_self _)).mpr hmem)]
      exact ⟨d, rfl, hd, hd.marks⟩
    | @fresh _ _ _ mid _ hnot hin hw =>
      cases hw
      have hunmarked : ¬ (d.graph.node id).emitted = true := fun h =>
        hnot ((hm id (Nat.lt_succ_self _)).mp h)
      have hid : id ∈ order := hpre.subset (by simp)
      obtain ⟨hd₁, hmark⟩ := hd.enter (hd.size ▸ lt_size_of_mem hl hid)
      rw [if_neg hunmarked]
      dsimp only at hmark ⊢
      generalize (d.graph.modify id fun n => { n with emitted := true }) = g₁ at *
      have hshape : (g.node id).Shape (g₁.node id) := by
        rw [hd₁.node id]
        exact (hl.shape id).trans ⟨rfl, rfl, rfl, rfl, rfl⟩
      -- Below the rank of the node its own mark does not count.
      have hm₁ : Marked rank (rank id) done { d with graph := g₁ } := fun x hx => by
        have hne : x ≠ id := fun he => Nat.lt_irrefl _ (he ▸ hx)
        rw [hmark x, or_iff_left hne, hm x (Nat.lt_succ_of_lt hx)]
      have hkid (b : NodeId) (hb : b ∈ g.kids id) (d : Draft) (done done' more : List NodeId)
          (hd : d.Written g order s done more) (hm : Marked rank (rank id) done d)
          (hw : Walk g.kids done [b] done') (hpre : done' <+: order) :=
        ih (lt_of_lt_of_le (hr.lt id b hb) (Nat.le_of_lt_succ hdepth)) hd
          (hm.mono (hr.lt id b hb)) hw hpre
      have hmid : id ∉ mid := hin.not_mem_of_kids hr.lt hnot
      have hneeds : ∀ b ∈ g.kids id, b ∈ mid := fun b hb => hin.mem_of_mem_todo hb
      have hpre' : mid <+: order := (prefix_append _ _).trans hpre
      rw [hshape.isUnion]
      cases hu : (g.node id).isUnion with
      | true =>
        have hkids : g.kids id = (g.node id).members := by
          rw [Graph.kids, Node.children, if_pos hu]
        rw [hkids] at hin
        rw [if_pos rfl, hshape.members]
        generalize hloop : Draft.forEach _ _ (g.node id).members = r
        have hwritten := exists_forEach (fun b => b) (fun b => [b])
          (fun b hb d done done' more hd hm hw hpre => ?_) hd₁ hm₁ (by rwa [map_id']) hpre' hloop
        · obtain ⟨d₂, rfl, hd₂, hm₂⟩ := hwritten
          have hmore : d₂.Written g order s mid ((g.node id).members ++ more) := by
            rw [flatMap_singleton'] at hd₂
            exact { hd₂ with members := hd₂.members.trans (List.perm_append_comm.append_left _) }
          obtain ⟨d₃, hwrite, hd₃, hm₃⟩ := exists_finish hl hg hmark hmore hm₂ hpre hmid hneeds
            (horder id hid)
          exact ⟨d₃, by simp only [hwrite], hd₃, hm₃⟩
        · obtain ⟨d', heq, hd', hm'⟩ := hkid b (hkids ▸ hb) d done done' more hd hm hw hpre
          refine ⟨{ d' with members := d'.members ++ [b] }, by simp only [heq], ?_, hm'⟩
          refine ⟨hd'.target, hd'.size, hd'.node, hd'.marked, hd'.cells, ?_, hd'.starts, hd'.jumpSlots⟩
          rw [← append_assoc]
          exact hd'.members.append_right [b]
      | false =>
        have hnone : (g.node id).members = [] :=
          (hg.nodes id).other_members (by simpa [Node.isUnion] using hu)
        have hkids : g.kids id = (g.node id).items.filterMap (·.kind.link?) := by
          rw [Graph.kids, Node.children, if_neg (by simp [hu])]
        rw [hkids] at hin
        rw [if_neg (by simp), hshape.items]
        generalize hloop : Draft.forEach _ _ ((g.node id).items.filterMap (·.kind.link?)) = r
        have hwritten := exists_forEach (fun b => b) (fun _ => [])
          (fun b hb d done done' more hd hm hw hpre => ?_) hd₁ hm₁ (by rwa [map_id']) hpre' hloop
        · obtain ⟨d₂, rfl, hd₂, hm₂⟩ := hwritten
          have hmore : d₂.Written g order s mid ((g.node id).members ++ more) := by
            rw [hnone, nil_append]
            rwa [List.flatMap_eq_nil_iff.mpr fun _ _ => rfl, append_nil] at hd₂
          obtain ⟨d₃, hwrite, hd₃, hm₃⟩ := exists_finish hl hg hmark hmore hm₂ hpre hmid hneeds
            (horder id hid)
          exact ⟨d₃, by simp only [hwrite], hd₃, hm₃⟩
        · rw [append_nil]
          exact hkid b (hkids ▸ hb) d done done' more hd hm hw hpre

end Draft

end TypeLayout
