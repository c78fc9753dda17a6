import TypeLayout.Proofs.Extents

/-!
# Types without their structure

A struct inside a struct is only a way of writing: what counts in memory is which
scalar stands at which byte. `Graph.flat` lists exactly that for a node, with the places
in the order of the fields. A union stands in the list as one entry, since its bytes can
be read in more than one way; the entry holds the flat lists of its members.

The list is computed by following links. Where they do not run in a circle, the list of a
node is given by the lists of what it needs (`Graph.Settled.flat_eq`), and this determines
all lists (`Graph.Settled.flat_unique`).

Merging structs changes no list as long as sizes fit into 64 bits and no list is longer than
a count can tell: one step does not (`Graph.Exact.flat_merge`), so no sequence of steps does.
-/

namespace TypeLayout

open List

/-- What stands at a place of a type: a scalar, or a union with its size, its alignment
and the ways to read it. -/
inductive Leaf where
  | scalar (e : Element)
  | union (length align : ℕ) (members : List (List (ℕ × Leaf)))

/-- The leaves of a type with their places in bytes. -/
abbrev FlatList := List (ℕ × Leaf)

namespace Graph

variable {f : NodeId → FlatList}

/-- All places moved by a number of bytes. -/
def moved (by' : ℕ) (l : FlatList) : FlatList := l.map fun p => (by' + p.1, p.2)

/-- Equal elements of a size one after the other, from a place on. -/
def repeated (start size count : ℕ) (l : FlatList) : FlatList :=
  (List.range count).flatMap fun i => moved (start + size * i) l

/-- The leaves of one element, given those of the nodes. -/
def elementLeaves (leaves : NodeId → FlatList) (e : Element) : FlatList :=
  match e.link? with
  | some id => leaves id
  | none => [(0, .scalar e)]

/-- The leaves of an item that starts at a place. -/
def runLeaves (g : Graph) (leaves : NodeId → FlatList) (p : Item × ℕ) : FlatList :=
  repeated p.2 (g.elementSize p.1.kind) p.1.count (elementLeaves leaves p.1.kind)

/-- The leaves of items that are laid out one after the other. -/
def itemLeaves (g : Graph) (leaves : NodeId → FlatList) (items : List Item) : FlatList :=
  (items.zip (g.layout items).offsets).flatMap (g.runLeaves leaves)

/-- The leaves of a node, given those of the nodes that it needs. -/
def nodeLeaves (g : Graph) (leaves : NodeId → FlatList) (n : Node) : FlatList :=
  if n.isUnion then [(0, .union n.length n.align (n.members.map leaves))]
  else g.itemLeaves leaves n.items

/-- **The flat list of a node.** -/
def flat (g : Graph) : NodeId → FlatList := g.follow g.nodeLeaves []

/-! ### The lists determine each other -/

variable {g g' : Graph}

/-- The leaves of a node depend only on those of the nodes that it needs. -/
theorem local_nodeLeaves : Local g.nodeLeaves := by
  intro n f f' h
  unfold Node.children at h
  unfold nodeLeaves
  split
  · rename_i hu
    rw [if_pos hu] at h
    rw [map_congr_left h]
  · rename_i hu
    rw [if_neg hu] at h
    refine flatMap_congr fun p hp => ?_
    have hleaves : elementLeaves f p.1.kind = elementLeaves f' p.1.kind := by
      unfold elementLeaves
      split
      · rename_i t ht
        exact h t (List.mem_filterMap.mpr ⟨p.1, (of_mem_zip hp).1, ht⟩)
      · rfl
    rw [runLeaves, runLeaves, hleaves]

/-- **The list of a node is given by the lists of what it needs.** -/
theorem Settled.flat_eq (h : g.Settled) (id : NodeId) :
    g.flat id = g.nodeLeaves g.flat (g.node id) := by
  obtain ⟨rank, hr⟩ := h.ranked
  exact follow_eq local_nodeLeaves hr.lt hr.le_size [] id

/-- **Lists that are given by each other are the flat lists.** -/
theorem Settled.flat_unique (h : g.Settled) (hf : ∀ id, f id = g.nodeLeaves f (g.node id)) :
    g.flat = f := by
  obtain ⟨rank, hr⟩ := h.ranked
  exact hr.follow_unique local_nodeLeaves [] hf

/-! ### Items one after the other -/

section Items

variable {f : NodeId → FlatList} {items : List Item}

theorem moved_moved (a b : ℕ) (l : FlatList) : moved a (moved b l) = moved (a + b) l := by
  simp [moved, Nat.add_assoc]

theorem moved_repeated (a start size count : ℕ) (l : FlatList) :
    moved a (repeated start size count l) = repeated (a + start) size count l := by
  unfold repeated
  rw [moved, map_flatMap]
  refine flatMap_congr fun i _ => ?_
  rw [Nat.add_assoc]
  exact moved_moved a (start + size * i) l

theorem repeated_add (start size m n : ℕ) (l : FlatList) :
    repeated start size (m + n) l =
      repeated start size m l ++ repeated (start + size * m) size n l := by
  rw [repeated, range_add, flatMap_append, flatMap_map]
  refine congrArg _ (flatMap_congr fun i _ => ?_)
  rw [Nat.mul_add, Nat.add_assoc]

theorem repeated_one (start size : ℕ) (l : FlatList) : repeated start size 1 l = moved start l := by
  simp [repeated]

/-- The leaves of items that start after a place. -/
def leavesFrom (g : Graph) (f : NodeId → FlatList) (stop : ℕ) (items : List Item) : FlatList :=
  (items.zip (g.offsetsFrom stop items)).flatMap (g.runLeaves f)

theorem leavesFrom_singleton (g : Graph) (f : NodeId → FlatList) (stop : ℕ) (item : Item) :
    g.leavesFrom f stop [item] =
      g.runLeaves f (item, roundUp stop (g.elementAlign item.kind)) := by
  simp [leavesFrom, offsetsFrom]

/-- What follows a list of items starts where the list ends. -/
theorem leavesFrom_append (g : Graph) (f : NodeId → FlatList) (stop : ℕ) (items more : List Item) :
    g.leavesFrom f stop (items ++ more) =
      g.leavesFrom f stop items ++ g.leavesFrom f (g.stopFrom stop items) more := by
  rw [leavesFrom, offsetsFrom_append, zip_append (length_offsetsFrom g stop items).symm,
    flatMap_append]
  rfl

@[simp] theorem length_repeated (start size count : ℕ) (l : FlatList) :
    (repeated start size count l).length = count * l.length := by
  simp [repeated, moved, length_flatMap]

theorem repeated_nil (start size count : ℕ) : repeated start size count [] = [] :=
  eq_nil_of_length_eq_zero (by rw [length_repeated, length_nil, Nat.mul_zero])

/-- **Two neighbours of one kind and their sum have the same leaves**, since nothing has to be
left free between them. The sum may wrap around if the elements have no leaves. -/
theorem leavesFrom_merge {e : Element} (he : g.elementAlign e ∣ g.elementSize e)
    (ha : 0 < g.elementAlign e) {stop m n : ℕ} (hleaves : (m + n) * (elementLeaves f e).length < wordSize) :
    g.leavesFrom f stop [⟨wrap (m + n), e⟩] =
      g.leavesFrom f stop [⟨m, e⟩] ++ g.leavesFrom f (g.stopFrom stop [⟨m, e⟩]) [⟨n, e⟩] := by
  have hnext : roundUp (roundUp stop (g.elementAlign e) + g.elementSize e * m) (g.elementAlign e) =
      roundUp stop (g.elementAlign e) + g.elementSize e * m :=
    roundUp_of_dvd (dvd_add (dvd_roundUp stop ha) (he.mul_right m))
  rw [leavesFrom_singleton, leavesFrom_singleton, leavesFrom_singleton, stopFrom_cons, stopFrom_nil]
  simp only [runLeaves, hnext]
  rw [← repeated_add]
  rcases Nat.eq_zero_or_pos (elementLeaves f e).length with hnone | hsome
  · rw [List.length_eq_zero_iff.mp hnone, repeated_nil, repeated_nil]
  · rw [wrap_of_lt ((Nat.le_mul_of_pos_right _ hsome).trans_lt hleaves)]

/-- **Merging runs changes no leaf.** -/
theorem leavesFrom_coalesce
    (h : ∀ item ∈ items, g.elementAlign item.kind ∣ g.elementSize item.kind ∧
      0 < g.elementAlign item.kind) {stop : ℕ} (hfits : g.stopFrom stop items < wordSize)
    (hleaves : (g.leavesFrom f stop items).length < wordSize) :
    g.leavesFrom f stop (coalesce items).1 = g.leavesFrom f stop items := by
  induction items using List.reverseRecOn with
  | nil => rfl
  | append_singleton items item ih =>
    rw [leavesFrom_append, length_append] at hleaves
    rw [stopFrom_append] at hfits
    have hdvd := h item (by simp)
    replace h : ∀ x ∈ items, _ := fun x hx => h x (mem_append_left _ hx)
    have hfront := (g.le_stopFrom _ [item]).trans_lt hfits
    have hstop := stopFrom_coalesce h hfront
    replace ih := ih h hfront (by omega)
    rw [coalesce_concat, leavesFrom_append, ← ih, ← hstop]
    rw [← ih, ← hstop] at hleaves
    cases hm : mergesInto (coalesce items).1 item with
    | false =>
      dsimp only
      rw [pushItem_of_not_merges hm, leavesFrom_append]
    | true =>
      obtain ⟨init, last, hlast, hk, heq⟩ := pushItem_of_merges hm
      dsimp only
      rw [heq]
      rw [hlast] at hleaves ⊢
      have hsame : last = ⟨last.count, item.kind⟩ := by rw [← hk]
      rw [leavesFrom_append, stopFrom_append] at hleaves ⊢
      rw [leavesFrom_append, append_assoc, leavesFrom_merge hdvd.1 hdvd.2, ← hsame]
      rw [hsame, length_append, leavesFrom_singleton, leavesFrom_singleton, runLeaves,
        runLeaves, length_repeated, length_repeated] at hleaves
      dsimp only at hleaves
      rw [Nat.add_mul]
      omega

/-- Items that are laid out as from zero, but after a place, have leaves that are moved. -/
theorem leavesFrom_moved {stop by' : ℕ}
    (h : g.offsetsFrom stop items = (g.offsetsFrom 0 items).map (by' + ·)) :
    g.leavesFrom f stop items = moved by' (g.leavesFrom f 0 items) := by
  rw [leavesFrom, h, zip_map_right, flatMap_map, leavesFrom, moved, map_flatMap]
  exact flatMap_congr fun p _ => (moved_repeated by' p.2 _ _ _).symm

end Items

/-! ### Merging -/

variable {c t u : NodeId} {k : ℕ}

/-- The size and the alignment of elements stay as they are while those of the nodes
do. -/
theorem itemLeaves_map {r : Item → Item} (ht : g'.target = g.target)
    (hlen : ∀ id, (g'.node id).length = (g.node id).length)
    (hal : ∀ id, (g'.node id).align = (g.node id).align) (hr : ∀ item, (r item).count = item.count ∧
      ((r item).kind.link? = item.kind.link? ∧ (item.kind.link? = none → (r item).kind = item.kind)))
    (items : List Item) : g'.itemLeaves f (items.map r) = g.itemLeaves f items := by
  have hcases (item : Item) : (r item).kind = item.kind ∨
      ∃ id, (r item).kind.link? = some id ∧ item.kind.link? = some id := by
    cases hl : item.kind.link? with
    | none => exact Or.inl ((hr item).2.2 hl)
    | some id => exact Or.inr ⟨id, (hr item).2.1.trans hl, rfl⟩
  have hsize (item : Item) : g'.elementSize (r item).kind = g.elementSize item.kind := by
    rcases hcases item with heq | ⟨id, h, h'⟩
    · rw [heq]
      exact elementSize_congr ht fun t _ => hlen t
    · simp only [elementSize, h, h', hlen]
  have halign (item : Item) : g'.elementAlign (r item).kind = g.elementAlign item.kind := by
    rcases hcases item with heq | ⟨id, h, h'⟩
    · rw [heq]
      exact elementAlign_congr ht fun t _ => hal t
    · simp only [elementAlign, h, h', hal]
  have hleaves (item : Item) : elementLeaves f (r item).kind = elementLeaves f item.kind := by
    rcases hcases item with heq | ⟨id, h, h'⟩
    · rw [heq]
    · simp only [elementLeaves, h, h']
  rw [itemLeaves, layout, layoutFrom_map (fun item _ => ⟨(hr item).1, hsize item, halign item⟩),
    zip_map_left, flatMap_map]
  refine flatMap_congr fun p _ => ?_
  simp only [runLeaves, Prod.map, id, (hr p.1).1, hsize, hleaves]

/-- A node keeps its leaves if its items do and the rest of it stays. -/
theorem nodeLeaves_eq {n n' : Node} (hk : n'.kind = n.kind) (hlen : n'.length = n.length)
    (hal : n'.align = n.align) (hm : n'.members = n.members)
    (hi : g'.itemLeaves f n'.items = g.itemLeaves f n.items) :
    g'.nodeLeaves f n' = g.nodeLeaves f n := by
  unfold nodeLeaves Node.isUnion
  rw [hk, hlen, hal, hm, hi]

/-- The leaves of a node whose size is exact. -/
theorem Exact.itemLeaves_eq (h : g.Exact) (f : NodeId → FlatList) (id : NodeId) :
    g.itemLeaves f (g.node id).items = g.leavesFrom f 0 (g.node id).items := by
  rw [itemLeaves, (h.layout_eq id).1]
  rfl

/-- **Replacing an item by the items of its struct changes no leaf**, if all places stay as
they were. -/
theorem Splices.leavesFrom_spliced (h : g.Splices c t k) (he : g.Exact)
    (hl : g.keepsLayout c k t = true) (hf : f t = g.leavesFrom f 0 (g.node t).items) :
    g.leavesFrom f 0 (spliced (g.node c).items (g.node t).items k) =
      g.leavesFrom f 0 (g.node c).items := by
  obtain ⟨⟨hinner, hafter⟩, -⟩ := (h.keepsLayout_iff he).mp hl
  have hlink : g.leavesFrom f (g.stopBefore c k) [⟨1, .structLink t⟩] =
      moved (roundUp (g.stopBefore c k) (g.node t).align) (f t) := by
    rw [leavesFrom_singleton, runLeaves, repeated_one]
    rfl
  have hnext : g.stopFrom (g.stopBefore c k) [⟨1, .structLink t⟩] = g.stopBefore c (k + 1) := by
    rw [h.stopBefore_succ, stopFrom_cons, stopFrom_nil, Nat.mul_one]
    rfl
  have hrest : g.leavesFrom f (g.stopFrom (g.stopBefore c k) (g.node t).items)
      ((g.node c).items.drop (k + 1)) =
      g.leavesFrom f (g.stopBefore c (k + 1)) ((g.node c).items.drop (k + 1)) := by
    rw [leavesFrom, hafter]
    rfl
  conv_rhs => rw [eq_take_cons_drop h.item, ← singleton_append, leavesFrom_append,
    leavesFrom_append]
  rw [spliced, append_assoc, leavesFrom_append, leavesFrom_append]
  show _ ++ (g.leavesFrom f (g.stopBefore c k) _ ++ g.leavesFrom f (g.stopFrom (g.stopBefore c k) _) _)
    = _ ++ (g.leavesFrom f (g.stopBefore c k) _ ++ g.leavesFrom f (g.stopFrom (g.stopBefore c k) _) _)
  rw [leavesFrom_moved hinner, hrest, hlink, hnext, hf]

/-- **A splice keeps all flat lists**, if the container has fewer leaves than a count can
tell. -/
theorem Splices.flat_eq (h : g.Splices c t k) (he : g.Exact) (hl : g.keepsLayout c k t = true)
    (hleaves : (g.flat c).length < wordSize) : (g.splice c k t).flat = g.flat := by
  have hsame (items : List Item) : (g.splice c k t).itemLeaves g.flat items =
      g.itemLeaves g.flat items := by
    have hmap := itemLeaves_map (r := id) (f := g.flat) (target_splice (c := c) (t := t) (k := k))
      h.length_splice h.align_splice (fun _ => ⟨rfl, rfl, fun _ => rfl⟩) items
    rwa [map_id] at hmap
  have hitems {id : NodeId} (hu : (g.node id).kind ≠ .union) :
      g.flat id = g.leavesFrom g.flat 0 (g.node id).items := by
    rw [h.settled.flat_eq id, nodeLeaves, if_neg (by simpa [Node.isUnion] using hu),
      he.itemLeaves_eq]
  refine h.settled_splice.flat_unique fun id => (h.settled.flat_eq id).trans ?_
  rw [h.node id]
  refine Eq.symm (nodeLeaves_eq (by rfl) (by rfl) (by rfl) (by rfl) ?_)
  rw [hsame]
  rcases eq_or_ne id c with rfl | hne
  · rw [if_pos rfl, he.itemLeaves_eq]
    have hspliced := h.leavesFrom_spliced he hl (hitems (by simp [h.leads.1]))
    have hunion : (g.node id).kind ≠ .union := by rcases h.takes.kind with hk | hk <;> simp [hk]
    have hruns : g.leavesFrom g.flat 0 (g.spliceItems id k t).1 =
        g.leavesFrom g.flat 0 (spliced (g.node id).items (g.node t).items k) := by
      refine leavesFrom_coalesce (fun x hx => ⟨?_, h.settled.elementAlign_pos x.kind⟩)
        (h.stop_spliced_lt he) ?_
      · exact elementAlign_dvd_elementSize h.settled.nodes (h.leads_spliced x hx)
      · rwa [hspliced, ← hitems hunion]
    have hplaces : (g.layout (g.spliceItems id k t).1).offsets =
        g.offsetsFrom 0 (g.spliceItems id k t).1 := by
      refine (layoutFrom_eq (fun x _ => h.settled.elementAlign_dvd x.kind) ?_ 1).1
      rw [h.stopFrom_spliceItems he]
      exact h.stop_spliced_lt he
    rw [← hspliced, ← hruns, itemLeaves, hplaces]
    rfl
  · rw [if_neg hne]

theorem Adopts.flat_eq (h : g.Adopts c u) : (Inlining.adopt g c u).flat = g.flat := by
  refine h.settled_adopt.flat_unique fun id => (h.settled.flat_eq id).trans ?_
  rcases eq_or_ne id c with rfl | hne
  · -- The struct has the leaf of the union, at its first byte.
    have hunion : (g.node u).isUnion = true := by simp [Node.isUnion, h.leads.1]
    have hstruct : (g.node id).isUnion = false := by simp [Node.isUnion, h.kind]
    have hold : g.nodeLeaves g.flat (g.node id) = g.flat u := by
      rw [nodeLeaves, hstruct, h.items]
      show g.runLeaves g.flat (⟨1, .unionLink u⟩, alignUp 0 _) ++ [] = g.flat u
      rw [alignUp_zero, append_nil, runLeaves, repeated_one]
      simp [moved, elementLeaves, Element.link?]
    rw [hold, h.settled.flat_eq u, nodeLeaves, hunion, h.node id]
    simp [nodeLeaves, Node.isUnion, h.length, h.align]
  · rw [h.node id]
    simp only [hne, if_false]
    refine Eq.symm (nodeLeaves_eq (by rfl) (by rfl) (by rfl) (by rfl)
      (itemLeaves_map target_adopt h.length_adopt h.align_adopt (fun item => ?_) _))
    exact ⟨count_relink c item, link?_relink c item, relink_of_link?_eq_none c⟩

end Graph

end TypeLayout
