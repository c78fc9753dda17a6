import TypeLayout.Proofs.GraphSound

/-!
# Building keeps a graph sound

Every step of `Graph.Build` changes one node, adds one, or counts a reference. The
file first says what such a change does to the three parts of `Graph.Sound`, and then
goes through the steps.

Alignments are one, two, four or eight, so the larger of two is a multiple of both;
that is why padding a body to its alignment also pads it for each of its fields.
-/

namespace TypeLayout

variable {a b : ℕ} {g : Graph} {n : Node}

/-! ### Alignments and sizes of elements -/

theorem max_mem_alignments (ha : a ∈ [1, 2, 4, 8]) (hb : b ∈ [1, 2, 4, 8]) :
    max a b ∈ [1, 2, 4, 8] := by
  rcases max_choice a b with h | h <;> rw [h] <;> assumption

theorem pos_of_mem_alignments (ha : a ∈ [1, 2, 4, 8]) : 0 < a := by
  simp only [List.mem_cons, List.not_mem_nil, or_false] at ha
  omega

/-- Alignments are powers of two, so sums that wrap around stay multiples of them. -/
theorem dvd_wordSize_of_mem_alignments (ha : a ∈ [1, 2, 4, 8]) : a ∣ wordSize := by
  simp only [List.mem_cons, List.not_mem_nil, or_false] at ha
  rcases ha with rfl | rfl | rfl | rfl <;> decide

theorem dvd_of_le_of_mem_alignments (ha : a ∈ [1, 2, 4, 8]) (hb : b ∈ [1, 2, 4, 8]) (hle : a ≤ b) :
    a ∣ b := by
  simp only [List.mem_cons, List.not_mem_nil, or_false] at ha hb
  rcases ha with rfl | rfl | rfl | rfl <;> rcases hb with rfl | rfl | rfl | rfl <;>
    omega

namespace Graph

variable {g g' : Graph} {id t : NodeId}

theorem elementAlign_mem (h : ∀ id, (g.node id).SoundIn g) (e : Element) :
    g.elementAlign e ∈ [1, 2, 4, 8] := by
  unfold elementAlign
  split
  · exact (h _).align
  · rename_i he
    cases e <;> simp only [Element.link?, reduceCtorEq] at he <;> cases g.target <;> decide

/-- **The size of an element is a multiple of its alignment.** Consecutive elements of
one kind therefore need no padding between them. -/
theorem elementAlign_dvd_elementSize (h : ∀ id, (g.node id).SoundIn g) {e : Element}
    (hl : g.Leads e) : g.elementAlign e ∣ g.elementSize e := by
  unfold elementAlign elementSize
  split
  · rename_i t he
    refine (h t).padded fun hs => ?_
    have hd := hl.isDefined he
    simp [Node.isDefined, hs] at hd
  · rename_i he
    cases e <;> simp only [Element.link?, reduceCtorEq] at he <;> cases g.target <;> decide

/-! ### Counting links -/

theorem linksTo_eq_zero (h : ∀ item ∈ n.items, item.kind.link? ≠ some t) : n.linksTo t = 0 := by
  unfold Node.linksTo
  split
  · rfl
  · exact List.countP_eq_zero.mpr fun item hi => by simpa using h item hi

theorem uses_congr (hs : g'.size = g.size)
    (hl : ∀ id, (g'.node id).linksTo t = (g.node id).linksTo t) : g'.uses t = g.uses t := by
  rw [uses, uses, hs]
  exact Finset.sum_congr rfl fun id _ => hl id

theorem uses_add (n : Node) (t : NodeId) : (g.add n).uses t = g.uses t + n.linksTo t := by
  rw [uses, size_add, Finset.sum_range_succ, node_add_self]
  refine congrArg (· + n.linksTo t) (Finset.sum_congr rfl fun id hid => ?_)
  rw [node_add_of_lt n (Finset.mem_range.mp hid)]

theorem uses_modify (hlt : id < g.size) (f : Node → Node) (t : NodeId) :
    (g.modify id f).uses t + (g.node id).linksTo t = g.uses t + (f (g.node id)).linksTo t := by
  have hmem : id ∈ Finset.range g.size := Finset.mem_range.mpr hlt
  have hold : g.uses t = (g.node id).linksTo t +
      ∑ a ∈ (Finset.range g.size).erase id, (g.node a).linksTo t :=
    (Finset.add_sum_erase _ _ hmem).symm
  have hnew : (g.modify id f).uses t = (f (g.node id)).linksTo t +
      ∑ a ∈ (Finset.range g.size).erase id, (g.node a).linksTo t := by
    rw [uses, size_modify, ← Finset.add_sum_erase _ _ hmem, node_modify_self f hlt]
    refine congrArg _ (Finset.sum_congr rfl fun a ha => ?_)
    rw [node_modify_of_ne f (Finset.ne_of_mem_erase ha).symm]
  omega

/-- Nothing links to a number that has not been handed out. -/
theorem uses_of_le (h : ∀ id, (g.node id).SoundIn g) (ht : g.size ≤ t) : g.uses t = 0 := by
  refine Finset.sum_eq_zero fun a _ => linksTo_eq_zero fun item hi hl => ?_
  have hlt := lt_size_of_isDefined (((h a).leads item hi).isDefined hl)
  exact absurd hlt (Nat.not_lt.mpr ht)

/-! ### The order of definition -/

namespace OrderedBy

variable {order : List NodeId}

/-- The order stays as it is while no node becomes defined. -/
theorem keep (ho : g.OrderedBy order)
    (hc : ∀ j ∈ order, (g'.node j).children = (g.node j).children)
    (hd : ∀ j, (g'.node j).isDefined = (g.node j).isDefined) : g'.OrderedBy order where
  nodup := ho.nodup
  mem_iff j := by rw [hd j]; exact ho.mem_iff j
  precedes l j r hl b hb := by
    rw [hc j (by simp [hl])] at hb
    exact ho.precedes l j r hl b hb

/-- **A node that becomes defined is put at the end of the order**: all that it needs
is in the order already. -/
theorem snoc (ho : g.OrderedBy order) (hid : (g.node id).isDefined = false)
    (hc : ∀ j ∈ order, (g'.node j).children = (g.node j).children)
    (hd : ∀ j, (g'.node j).isDefined = true ↔ (g.node j).isDefined = true ∨ j = id)
    (hnew : ∀ b ∈ (g'.node id).children, (g.node b).isDefined = true) :
    g'.OrderedBy (order ++ [id]) where
  nodup := by
    refine List.nodup_append.mpr ⟨ho.nodup, List.nodup_singleton id, fun a ha b hb hab => ?_⟩
    rw [List.mem_singleton] at hb
    rw [hab, hb, ho.mem_iff, hid] at ha
    exact absurd ha (by decide)
  mem_iff j := by rw [List.mem_append, List.mem_singleton, hd j, ho.mem_iff j]
  precedes l j r hl b hb := by
    rcases List.eq_nil_or_concat r with rfl | ⟨r, last, rfl⟩
    · obtain ⟨rfl, hj⟩ := List.append_inj' hl rfl
      obtain rfl : id = j := by simpa using hj
      exact (ho.mem_iff b).mpr (hnew b hb)
    · have hl' : order ++ [id] = (l ++ j :: r) ++ [last] := by simpa using hl
      have hl'' := (List.append_inj' hl' rfl).1
      rw [hc j (by simp [hl''])] at hb
      exact ho.precedes l j r hl'' b hb

end OrderedBy

/-! ### Changes of one node -/

theorem lt_size_of_state (h : (g.node id).state = .defining) : id < g.size := by
  by_contra hge
  rw [node_of_le (Nat.le_of_not_lt hge)] at h
  simp [default] at h

theorem lt_size_of_kind (h : (g.node id).kind ≠ .base) : id < g.size := by
  by_contra hge
  rw [node_of_le (Nat.le_of_not_lt hge)] at h
  simp [default] at h

theorem isDefined_eq_false (h : n.state ≠ .defined) : n.isDefined = false := by
  simpa [Node.isDefined] using h

section Change

variable {id : NodeId} {f : Node → Node}

/-- A node that is not defined can be changed in any way that keeps its kind. -/
theorem keeps_modify (hid : (g.node id).isDefined = false) : g.Keeps (g.modify id f) := by
  intro j hj
  have hne : id ≠ j := fun h => by simp [← h, hid] at hj
  rw [node_modify_of_ne f hne]
  exact ⟨rfl, hj⟩

theorem soundIn_modify (h : ∀ id, (g.node id).SoundIn g) (hid : (g.node id).isDefined = false)
    (hlt : id < g.size) (hnew : (f (g.node id)).SoundIn g) (j : NodeId) :
    ((g.modify id f).node j).SoundIn (g.modify id f) := by
  rcases eq_or_ne id j with rfl | hne
  · rw [node_modify_self f hlt]
    exact hnew.mono (keeps_modify hid)
  · rw [node_modify_of_ne f hne]
    exact (h j).mono (keeps_modify hid)

/-- A node that becomes defined is put at the end of the order; until then a change of
it leaves the order alone. -/
theorem ordered_modify (h : ∃ order, g.OrderedBy order) (hid : (g.node id).isDefined = false)
    (hlt : id < g.size) (hnew : (f (g.node id)).SoundIn g) :
    ∃ order, (g.modify id f).OrderedBy order := by
  obtain ⟨order, ho⟩ := h
  have hc : ∀ j ∈ order, ((g.modify id f).node j).children = (g.node j).children := by
    intro j hj
    have hne : id ≠ j := fun he => by simp [(ho.mem_iff j).mp hj, he] at hid
    rw [node_modify_of_ne f hne]
  cases hd : (f (g.node id)).isDefined with
  | false =>
    refine ⟨order, ho.keep hc fun j => ?_⟩
    rcases eq_or_ne id j with rfl | hne
    · rw [node_modify_self f hlt, hd, hid]
    · rw [node_modify_of_ne f hne]
  | true =>
    refine ⟨order ++ [id], ho.snoc hid hc (fun j => ?_) fun b hb => ?_⟩
    · rcases eq_or_ne id j with rfl | hne
      · simp [node_modify_self f hlt, hd]
      · simp [node_modify_of_ne f hne, hne.symm]
    · rw [node_modify_self f hlt] at hb
      exact hnew.isDefined_of_mem_children hb

/-- **A change of one node that is not defined**, as long as it keeps its links and is
sound afterwards. -/
theorem Sound.modify (h : g.Sound) (hid : (g.node id).isDefined = false) (hlt : id < g.size)
    (hnew : (f (g.node id)).SoundIn g) (hkept : ∀ n, (f n).removed = n.removed)
    (hrefs : ∀ n, (f n).refs = n.refs) (hlinks : ∀ n t, (f n).linksTo t = n.linksTo t) :
    (g.modify id f).Sound where
  nodes := soundIn_modify h.nodes hid hlt hnew
  kept j := (node_modify_field f Node.removed hkept).trans (h.kept j)
  refs t := by
    rw [node_modify_field f Node.refs hrefs, h.refs t]
    exact (uses_congr (size_modify g id f) fun j => node_modify_field f (·.linksTo t) (hlinks · t)).symm
  ordered := ordered_modify h.ordered hid hlt hnew

end Change

/-! ### Nodes that are added -/

section Add

variable {n : Node}

theorem keeps_add (n : Node) : g.Keeps (g.add n) := by
  intro j hj
  rw [node_add_of_lt n (lt_size_of_isDefined hj)]
  exact ⟨rfl, hj⟩

theorem soundIn_add (h : ∀ id, (g.node id).SoundIn g) (hnew : n.SoundIn g) (j : NodeId) :
    ((g.add n).node j).SoundIn (g.add n) := by
  rcases eq_or_ne j g.size with rfl | hne
  · rw [node_add_self]
    exact hnew.mono (keeps_add n)
  · rw [node_add_of_ne n hne]
    exact (h j).mono (keeps_add n)

theorem kept_add (h : ∀ id, (g.node id).removed = false) (hnew : n.removed = false) (j : NodeId) :
    ((g.add n).node j).removed = false := by
  rcases eq_or_ne j g.size with rfl | hne
  · rw [node_add_self]
    exact hnew
  · rw [node_add_of_ne n hne]
    exact h j

theorem ordered_add (h : ∃ order, g.OrderedBy order) (hnew : n.SoundIn g) :
    ∃ order, (g.add n).OrderedBy order := by
  obtain ⟨order, ho⟩ := h
  have hnot : (g.node g.size).isDefined = false := by
    rw [node_of_le (le_refl _)]
    rfl
  have hc : ∀ j ∈ order, ((g.add n).node j).children = (g.node j).children := fun j hj => by
    rw [node_add_of_lt n (lt_size_of_isDefined ((ho.mem_iff j).mp hj))]
  cases hd : n.isDefined with
  | false =>
    refine ⟨order, ho.keep hc fun j => ?_⟩
    rcases eq_or_ne j g.size with rfl | hne
    · rw [node_add_self, hd, hnot]
    · rw [node_add_of_ne n hne]
  | true =>
    refine ⟨order ++ [g.size], ho.snoc hnot hc (fun j => ?_) fun b hb => ?_⟩
    · rcases eq_or_ne j g.size with rfl | hne
      · simp [node_add_self, hd]
      · simp [node_add_of_ne n hne, hne]
    · rw [node_add_self] at hb
      exact hnew.isDefined_of_mem_children hb

end Add

/-! ### Changes that no layout looks at -/

/-- Two graphs whose nodes differ at most in names, lines, keys and references. -/
structure Alike (g g' : Graph) : Prop where
  target : g'.target = g.target
  size : g'.size = g.size
  same : ∀ id, (g.node id).Same (g'.node id)

namespace Alike

theorem refl (g : Graph) : g.Alike g :=
  ⟨rfl, rfl, fun _ => ⟨rfl, rfl, rfl, rfl, rfl, rfl, rfl, rfl, rfl, rfl, rfl⟩⟩

theorem modify (g : Graph) (id : NodeId) {f : Node → Node} (hf : ∀ n : Node, n.Same (f n)) :
    g.Alike (g.modify id f) := by
  refine ⟨rfl, size_modify g id f, fun j => ?_⟩
  rw [node_modify]
  split
  · exact hf _
  · exact (refl g).same j

theorem retain (g : Graph) (e : Element) : g.Alike (g.retain e) := by
  unfold Graph.retain
  split
  · exact modify g _ fun _ => ⟨rfl, rfl, rfl, rfl, rfl, rfl, rfl, rfl, rfl, rfl, rfl⟩
  · exact refl g

theorem keeps (h : g.Alike g') : g.Keeps g' := fun id hd =>
  ⟨(h.same id).kind, (h.same id).isDefined.trans hd⟩

theorem soundIn (h : g.Alike g') (hs : ∀ id, (g.node id).SoundIn g) (id : NodeId) :
    (g'.node id).SoundIn g' :=
  ((hs id).mono h.keeps).congr (h.same id)

theorem kept (h : g.Alike g') (hk : ∀ id, (g.node id).removed = false) (id : NodeId) :
    (g'.node id).removed = false :=
  (h.same id).removed.trans (hk id)

theorem ordered (h : g.Alike g') (ho : ∃ order, g.OrderedBy order) :
    ∃ order, g'.OrderedBy order := by
  obtain ⟨order, ho⟩ := ho
  exact ⟨order, ho.keep (fun j _ => (h.same j).children) fun j => (h.same j).isDefined⟩

theorem uses (h : g.Alike g') (t : NodeId) : g'.uses t = g.uses t :=
  uses_congr h.size fun id => (h.same id).linksTo t

theorem leads (h : g.Alike g') {e : Element} (hl : g.Leads e) : g'.Leads e := hl.mono h.keeps

end Alike

/-- The references to a node after one more link has been counted. -/
theorem refs_retain (g : Graph) (e : Element) (hlt : ∀ t, e.link? = some t → t < g.size) :
    ((g.retain e).node t).refs = (g.node t).refs + if e.link? = some t then 1 else 0 := by
  unfold Graph.retain
  split
  · rename_i t' he
    rcases eq_or_ne t' t with rfl | hne
    · rw [node_modify_self _ (hlt t' he), if_pos he]
    · rw [node_modify_of_ne _ hne, if_neg (by simpa [he] using hne)]
      rfl
  · rename_i he
    rw [if_neg (by simp [he])]
    rfl

end Graph

/-! ### The steps, one after the other -/

theorem Node.Blank.soundIn (h : n.Blank) : n.SoundIn g where
  leads := by simp [h.items]
  members := by simp [h.members]
  union_items _ := h.items
  other_members _ := h.members
  align := by simp [h.align]
  padded _ := by simp [h.length]
  simple _ := by simp [h.items]
  filled hk := by
    rcases hk with hk | hk <;> rcases h.kind with ⟨hb, -⟩ | ⟨hb | hb, -⟩ <;> simp_all
  body hs := by
    rcases h.kind with ⟨-, hne⟩ | ⟨hk, -⟩
    · exact absurd hs hne
    · exact hk
  unplaced := h.unmarked.2

theorem Node.Holds.soundIn {item : Item} (h : n.Holds g item) (hs : ∀ id, (g.node id).SoundIn g)
    (hl : g.Leads item.kind) : n.SoundIn g where
  leads := by simpa [h.items] using hl
  members := by simp [h.members]
  union_items hk := by rcases h.kind with hb | hb | hb | hb <;> simp [hk] at hb
  other_members _ := h.members
  align := by
    rw [h.align]
    exact max_mem_alignments (by simp) (Graph.elementAlign_mem hs item.kind)
  padded _ := by
    rw [h.length]
    refine dvd_alignUp _ ?_
    rw [h.align]
    exact lt_max_of_lt_left one_pos
  simple _ := by simp [h.items]
  filled _ := by simp [h.items]
  body hs := by rcases h.state with hd | ⟨-, hd⟩ <;> simp [hs] at hd
  unplaced := h.unmarked.2

/-- A node with one more item at its end, of the given size and alignment. -/
def Node.withItem (size align : ℕ) (item : Item) (n : Node) : Node :=
  { n with
    length := wrap (alignUp n.length align + size * item.count)
    align := max n.align align
    items := Graph.pushItem n.items item }

namespace Graph

variable {g g' : Graph} {id union : NodeId} {item : Item}

theorem appendItem_eq (g : Graph) (id : NodeId) (item : Item) :
    g.appendItem id item =
      let grown := g.modify id (Node.withItem (g.elementSize item.kind) (g.elementAlign item.kind) item)
      if mergesInto (g.node id).items item then grown else grown.retain item.kind := by
  unfold appendItem retain
  cases item.kind.link? with
  | none => exact (ite_self _).symm
  | some t => rfl

theorem linksTo_withItem {size align : ℕ} (hn : n.removed = false) (t : NodeId) :
    (n.withItem size align item).linksTo t =
      n.linksTo t + if mergesInto n.items item || !decide (item.kind.link? = some t) then 0 else 1 := by
  simp only [Node.linksTo, Node.withItem, hn, Bool.false_eq_true, if_false]
  exact countP_pushItem (fun e => decide (e.link? = some t)) n.items item

theorem soundIn_withItem (h : n.SoundIn g) (hs : ∀ id, (g.node id).SoundIn g)
    (hl : g.Leads item.kind) (hk : n.kind = .struct) (hd : n.state = .defining) :
    (n.withItem (g.elementSize item.kind) (g.elementAlign item.kind) item).SoundIn g where
  leads x hx := by
    rcases kind_of_mem_pushItem hx with ⟨y, hy, hyx⟩ | hx
    · exact hyx ▸ h.leads y hy
    · exact hx ▸ hl
  members := h.members
  union_items hu := by simp [Node.withItem, hk] at hu
  other_members := h.other_members
  align := max_mem_alignments h.align (elementAlign_mem hs item.kind)
  padded hnd := absurd hd hnd
  simple hb := by simp [Node.withItem, hk] at hb
  filled hb := by simp [Node.withItem, hk] at hb
  body _ := Or.inl hk
  unplaced := h.unplaced

/-- **A field added to a struct.** -/
theorem Sound.appendItem (h : g.Sound) (hs : (g.node id).state = .defining)
    (hk : (g.node id).kind = .struct) (hl : g.Leads item.kind) : (g.appendItem id item).Sound := by
  have hlt := lt_size_of_state hs
  have hid : (g.node id).isDefined = false := isDefined_eq_false (by simp [hs])
  have hnew := soundIn_withItem (h.nodes id) h.nodes hl hk hs
  have hremoved := h.kept id
  have hnodes := soundIn_modify h.nodes hid hlt hnew
  have hordered := ordered_modify h.ordered hid hlt hnew
  have hlinks := uses_modify hlt
    (Node.withItem (g.elementSize item.kind) (g.elementAlign item.kind) item)
  have hrefs : ∀ t, ((g.modify id (Node.withItem (g.elementSize item.kind)
      (g.elementAlign item.kind) item)).node t).refs = g.uses t := fun t => by
    rw [node_modify_field (Node.withItem _ _ item) Node.refs fun _ => rfl, h.refs t]
  have hkept (t : NodeId) : ((g.modify id (Node.withItem (g.elementSize item.kind)
      (g.elementAlign item.kind) item)).node t).removed = false :=
    (node_modify_field (Node.withItem _ _ item) Node.removed fun _ => rfl).trans (h.kept t)
  have hleads := (hl.mono (keeps_modify (f := Node.withItem (g.elementSize item.kind)
    (g.elementAlign item.kind) item) hid))
  rw [appendItem_eq]
  generalize g.modify id _ = grown at *
  cases hm : mergesInto (g.node id).items item with
  | true =>
    refine ⟨hnodes, hkept, fun t => ?_, hordered⟩
    have ht := hlinks t
    rw [linksTo_withItem hremoved, hm] at ht
    simp only [if_true, Bool.true_or, Nat.add_zero] at ht ⊢
    rw [hrefs t]
    omega
  | false =>
    have ha := Alike.retain grown item.kind
    refine ⟨ha.soundIn hnodes, ha.kept hkept, fun t => ?_, ha.ordered hordered⟩
    have ht := hlinks t
    rw [linksTo_withItem hremoved, hm] at ht
    rw [if_neg (by simp), ha.uses t, refs_retain grown item.kind fun t he => lt_size_of_isDefined (hleads.isDefined he), hrefs t]
    by_cases hlink : item.kind.link? = some t <;> simp [hlink] at ht ⊢ <;> omega

theorem Sound.addMember (h : g.Sound) {m : NodeId} (hs : (g.node union).state = .defining)
    (hk : (g.node union).kind = .union) (hm : (g.node m).kind = .unionMember)
    (hd : (g.node m).isDefined = true) : (g.addMember union m).Sound := by
  have hu := h.nodes union
  refine h.modify (isDefined_eq_false (by simp [hs])) (lt_size_of_state hs) ?_
    (fun _ => rfl) (fun _ => rfl) fun _ _ => rfl
  exact
    { leads := hu.leads
      members := fun x hx => by
        rcases List.mem_append.mp hx with hx | hx
        · exact hu.members x hx
        · obtain rfl := List.mem_singleton.mp hx
          exact ⟨hm, hd⟩
      union_items := hu.union_items
      other_members := fun hne => absurd hk hne
      align := max_mem_alignments hu.align (h.nodes m).align
      padded := fun hnd => absurd hs hnd
      simple := hu.simple
      filled := hu.filled
      body := hu.body
      unplaced := hu.unplaced }

theorem Sound.finish (h : g.Sound) (hs : (g.node id).state = .defining) : (g.finish id).Sound := by
  have hn := h.nodes id
  refine h.modify (isDefined_eq_false (by simp [hs])) (lt_size_of_state hs) ?_
    (fun _ => rfl) (fun _ => rfl) fun _ _ => rfl
  exact
    { leads := hn.leads
      members := hn.members
      union_items := hn.union_items
      other_members := hn.other_members
      align := hn.align
      padded := fun _ => dvd_alignUp _ (pos_of_mem_alignments hn.align)
      simple := hn.simple
      filled := hn.filled
      body := fun hd => by simp at hd
      unplaced := hn.unplaced }

/-- The state of a node can change while its length is padded. -/
theorem Sound.setState (h : g.Sound) (state : NodeState) {f : Node → Node}
    (hf : ∀ n : Node, Node.Same { n with state } (f n) ∧ (f n).refs = n.refs)
    (hs : (g.node id).state = .incomplete) (hlt : id < g.size)
    (hb : state = .defining → (g.node id).kind = .struct ∨ (g.node id).kind = .union) :
    (g.modify id f).Sound := by
  have hn := h.nodes id
  refine h.modify (isDefined_eq_false (by simp [hs])) hlt ?_ (fun n => (hf n).1.removed)
    (fun n => (hf n).2) fun n t => ((hf n).1.linksTo t)
  have hmid : ({ g.node id with state } : Node).SoundIn g :=
    { leads := hn.leads
      members := hn.members
      union_items := hn.union_items
      other_members := hn.other_members
      align := hn.align
      padded := fun _ => hn.padded (by simp [hs])
      simple := hn.simple
      filled := hn.filled
      body := hb
      unplaced := hn.unplaced }
  exact hmid.congr (hf _).1

theorem Sound.blank (h : g.Sound) (hn : n.Blank) : (g.add n).Sound := by
  refine ⟨soundIn_add h.nodes hn.soundIn, kept_add h.kept hn.unmarked.1, fun t => ?_,
    ordered_add h.ordered hn.soundIn⟩
  rw [uses_add, linksTo_eq_zero (by simp [hn.items]), Nat.add_zero]
  rcases eq_or_ne t g.size with rfl | hne
  · rw [node_add_self, hn.refs, uses_of_le h.nodes (le_refl _)]
  · rw [node_add_of_ne n hne, h.refs t]

/-- **A node that holds one item**, with the reference that its item makes. -/
theorem Sound.hold (h : g.Sound) (hn : n.Holds g item) (hl : g.Leads item.kind) :
    ((g.retain item.kind).add n).Sound := by
  have ha := Alike.retain g item.kind
  have hnew : n.SoundIn (g.retain item.kind) := (hn.soundIn h.nodes hl).mono ha.keeps
  have hnodes := ha.soundIn h.nodes
  have hlinks (t : NodeId) : n.linksTo t = if item.kind.link? = some t then 1 else 0 := by
    simp only [Node.linksTo, hn.unmarked.1, hn.items, List.countP_singleton]
    simp
  refine ⟨soundIn_add hnodes hnew, kept_add (ha.kept h.kept) hn.unmarked.1, fun t => ?_,
    ordered_add (ha.ordered h.ordered) hnew⟩
  rw [uses_add, ha.uses, hlinks]
  rcases eq_or_ne t g.size with rfl | hne
  · have hnot : item.kind.link? ≠ some g.size := fun he =>
      Nat.lt_irrefl _ (lt_size_of_isDefined (hl.isDefined he))
    rw [← ha.size, node_add_self, hn.refs, ha.size, uses_of_le h.nodes (le_refl _), if_neg hnot]
  · rw [node_add_of_ne n (by rw [ha.size]; exact hne),
      refs_retain g item.kind fun t he => lt_size_of_isDefined (hl.isDefined he), h.refs t]

/-- A member of a union, with the node that is made for it. -/
theorem Sound.member (h : g.Sound) (hn : n.Holds g item) (hm : n.kind = .unionMember)
    (hl : g.Leads item.kind) (hs : (g.node union).state = .defining)
    (hk : (g.node union).kind = .union) :
    (((g.retain item.kind).add n).addMember union g.size).Sound := by
  have ha := Alike.retain g item.kind
  have hold : ((g.retain item.kind).add n).node union = (g.retain item.kind).node union :=
    node_add_of_lt n (ha.size.symm ▸ lt_size_of_state hs)
  have hnew : ((g.retain item.kind).add n).node g.size = n := by
    rw [← ha.size, node_add_self]
  refine (h.hold hn hl).addMember ?_ ?_ ?_ ?_
  · rw [hold, (ha.same union).state, hs]
  · rw [hold, (ha.same union).kind, hk]
  · rw [hnew, hm]
  · rw [hnew]
    rcases hn.state with hd | ⟨henum, -⟩
    · simp [Node.isDefined, hd]
    · simp [hm] at henum

/-- **Building keeps a graph sound.** -/
theorem Sound.build (h : g.Sound) (hb : g.Build g') : g'.Sound := by
  cases hb with
  | @label id f hf =>
    have ha := Alike.modify g id fun n => (hf n).1
    refine ⟨ha.soundIn h.nodes, ha.kept h.kept, fun t => ?_, ha.ordered h.ordered⟩
    rw [node_modify_field f Node.refs fun n => (hf n).2, ha.uses, h.refs t]
  | blank hn => exact h.blank hn
  | hold hn _ hl => exact h.hold hn hl
  | start hs hk =>
    refine h.setState .defining
      (fun n => ⟨⟨rfl, rfl, rfl, rfl, rfl, rfl, rfl, rfl, rfl, rfl, rfl⟩, rfl⟩) hs ?_ fun _ => hk
    exact lt_size_of_kind (by rcases hk with hk | hk <;> simp [hk])
  | append hs hk hl => exact h.appendItem hs hk hl
  | member hn hm hl hs hk => exact h.member hn hm hl hs hk
  | finish hs => exact h.finish hs
  | complete hs hk =>
    refine h.setState .defined
      (fun n => ⟨⟨rfl, rfl, rfl, rfl, rfl, rfl, rfl, rfl, rfl, rfl, rfl⟩, rfl⟩) hs ?_ (by simp)
    exact lt_size_of_kind (by simp [hk])

/-- A graph without nodes is sound. -/
theorem sound_empty (target : Target) : ({ target } : Graph).Sound := by
  have hnode (id : NodeId) : ({ target } : Graph).node id = default := node_of_le (Nat.zero_le id)
  refine ⟨fun id => ?_, fun id => ?_, fun id => ?_, [], List.nodup_nil, fun id => ?_,
    fun l id r hl => ?_⟩
  · rw [hnode]
    exact soundIn_default _
  · rw [hnode]
    rfl
  · rw [hnode]
    rfl
  · rw [hnode]
    simp [Node.isDefined, default]
  · simp at hl

/-- **What declarations build is sound**, however many steps it took. -/
theorem Sound.builds (h : g.Sound) (hb : Relation.ReflTransGen Build g g') : g'.Sound := by
  induction hb with
  | refl => exact h
  | tail _ hstep ih => exact ih.build hstep

/-! ### How a node that holds one item comes about -/

theorem retain_add {e : Element} (hlt : ∀ t, e.link? = some t → t < g.size) :
    (g.add n).retain e = (g.retain e).add n := by
  unfold retain
  split
  · rename_i t he
    exact modify_add_of_lt _ _ (hlt t he)
  · rfl

/-- **Adding an empty node, giving it an item and closing it** adds a node that holds
the item. -/
theorem finish_appendItem_add (hi : n.items = []) (hl : n.length = 0) (ha : n.align = 1)
    (hleads : g.Leads item.kind) :
    ((g.add n).appendItem g.size item).finish g.size =
      (g.retain item.kind).add { n with
        items := [item]
        align := max 1 (g.elementAlign item.kind)
        length :=
          alignUp (wrap (g.elementSize item.kind * item.count)) (max 1 (g.elementAlign item.kind))
        state := .defined } := by
  have hlt : ∀ t, item.kind.link? = some t → t < g.size := fun t he =>
    lt_size_of_isDefined (hleads.isDefined he)
  have hsize : (g.add n).elementSize item.kind = g.elementSize item.kind :=
    elementSize_congr (target_add g n) fun t he => by rw [node_add_of_lt n (hlt t he)]
  have halign : (g.add n).elementAlign item.kind = g.elementAlign item.kind :=
    elementAlign_congr (target_add g n) fun t he => by rw [node_add_of_lt n (hlt t he)]
  rw [appendItem_eq, node_add_self, hi, hsize, halign, modify_add_self]
  rw [show mergesInto [] item = false from rfl]
  simp only [Bool.false_eq_true, if_false]
  rw [retain_add hlt, finish, ← (Alike.retain g item.kind).size, modify_add_self]
  simp only [Node.withItem, hi, hl, ha, alignUp_zero, Nat.zero_add]
  rfl

end Graph

end TypeLayout
