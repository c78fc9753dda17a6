import TypeLayout.Inlining
import TypeLayout.Proofs.Building

/-!
# The steps of merging

The optimizer looks at one node after the other and at one item after the other, but it
changes the graph in two ways only: the items of a struct take the place of the one
item that links to it, or a struct becomes the union that is its only item.
`Graph.Merge` is one such change, with everything that was checked before it, and the
whole pass is a sequence of them (`Graph.merges_inlineStructs`), which its log tells of
(`Graph.logged_inlineStructs`).

What the steps keep is `Graph.Settled`. It is weaker than what declarations build: a
node that has been merged into another one stays in the graph, marked as removed, and
only the nodes that are left have to be counted right.
-/

namespace TypeLayout.Graph

open List

/-! ### Merging runs in a list of items -/

variable {items : List Item} {item : Item} {order : List NodeId} {p p' : Inlining}

theorem coalesce_concat (items : List Item) (item : Item) :
    coalesce (items ++ [item]) =
      (pushItem (coalesce items).1 item,
        if mergesInto (coalesce items).1 item then (coalesce items).2 ++ item.kind.link?.toList
        else (coalesce items).2) := by
  rw [coalesce, foldl_append]
  rfl

theorem coalesce_ne_nil (h : items ≠ []) : (coalesce items).1 ≠ [] := by
  obtain ⟨init, last, rfl⟩ := (eq_nil_or_concat items).resolve_left h
  rw [concat_eq_append, coalesce_concat]
  exact pushItem_ne_nil _ _

theorem kind_of_mem_coalesce {x : Item} (hx : x ∈ (coalesce items).1) :
    ∃ y ∈ items, y.kind = x.kind := by
  induction items using List.reverseRecOn generalizing x with
  | nil => simp [coalesce] at hx
  | append_singleton items item ih =>
    rw [coalesce_concat] at hx
    rcases kind_of_mem_pushItem hx with ⟨y, hy, hyx⟩ | hx
    · obtain ⟨z, hz, hzy⟩ := ih hy
      exact ⟨z, mem_append_left _ hz, hzy.trans hyx⟩
    · exact ⟨item, by simp, hx.symm⟩

/-- Every link that is merged into its neighbour is listed. -/
theorem countP_coalesce (items : List Item) (t : NodeId) :
    (coalesce items).1.countP (·.kind.link? = some t) + (coalesce items).2.count t =
      items.countP (·.kind.link? = some t) := by
  induction items using List.reverseRecOn with
  | nil => rfl
  | append_singleton items item ih =>
    rw [coalesce_concat]
    have hpush := countP_pushItem (fun e => decide (e.link? = some t)) (coalesce items).1 item
    have hlist : item.kind.link?.toList.count t = if item.kind.link? = some t then 1 else 0 := by
      cases item.kind.link? <;> simp [count_singleton]
    rw [countP_append, countP_singleton, hpush, ← ih]
    cases mergesInto (coalesce items).1 item with
    | true =>
      rw [if_pos rfl, count_append, hlist]
      by_cases hl : item.kind.link? = some t
      · simp [hl]
        omega
      · simp [hl]
    | false =>
      by_cases hl : item.kind.link? = some t
      · simp [hl]
        omega
      · simp [hl]

/-! ### What a step leaves of a graph -/

variable {g g' : Graph} {c t u id : NodeId} {k : ℕ}

theorem node_releases (ids : List NodeId) (g : Graph) (id : NodeId) :
    (ids.foldl release g).node id =
      { g.node id with refs := (g.node id).refs - ids.count id } := by
  induction ids generalizing g with
  | nil => rfl
  | cons i ids ih =>
    rw [foldl_cons, ih, release]
    rcases eq_or_ne i id with rfl | hne
    · by_cases hlt : i < g.size
      · rw [node_modify_self _ hlt, count_cons_self, Nat.sub_sub, Nat.add_comm]
      · have hle : g.size ≤ i := Nat.le_of_not_lt hlt
        rw [node_of_le (by rwa [size_modify]), node_of_le hle]
        simp [default]
    · rw [node_modify_of_ne _ hne, count_cons_of_ne hne]

/-- The items of a container after item `k`, a link to a struct, has been replaced. -/
def spliceItems (g : Graph) (c : NodeId) (k : ℕ) (t : NodeId) : List Item × List NodeId :=
  coalesce (spliced (g.node c).items (g.node t).items k)

theorem node_splice (hc : c < g.size) (ht : t < g.size) (hne : t ≠ c) (id : NodeId) :
    (g.splice c k t).node id =
      { g.node id with
        items := if id = c then (g.spliceItems c k t).1 else (g.node id).items
        refs := (g.node id).refs - (g.spliceItems c k t).2.count id
        removed := decide (id = t) || (g.node id).removed } := by
  have hsize : ((g.spliceItems c k t).2.foldl release g).size = g.size := size_releases g _
  have heq : g.splice c k t = (((g.spliceItems c k t).2.foldl release g).modify c
      fun n => { n with items := (g.spliceItems c k t).1 }).modify t
        fun n => { n with removed := true } := rfl
  rw [heq]
  rcases eq_or_ne id t with rfl | hidt
  · rw [node_modify_self _ (by simpa [hsize] using ht), node_modify_of_ne _ hne.symm,
      node_releases]
    simp [hne]
  · rw [node_modify_of_ne _ hidt.symm]
    rcases eq_or_ne id c with rfl | hidc
    · rw [node_modify_self _ (by simpa [hsize] using hc), node_releases]
      simp [hidt]
    · rw [node_modify_of_ne _ hidc.symm, node_releases]
      simp [hidt, hidc]

theorem size_splice : (g.splice c k t).size = g.size := by
  simp [splice, size_releases]

theorem target_releases (ids : List NodeId) (g : Graph) :
    (ids.foldl release g).target = g.target := by
  induction ids generalizing g with
  | nil => rfl
  | cons i ids ih => exact ih (g.release i)

theorem target_splice : (g.splice c k t).target = g.target := target_releases _ g

/-- A change of all nodes, if it leaves what stands for missing numbers as it is. -/
theorem node_map (g : Graph) {f : Node → Node} (hf : f default = default) (id : NodeId) :
    ({ g with nodes := g.nodes.map f } : Graph).node id = f (g.node id) := by
  rw [node, node, Array.getD_eq_getD_getElem?, Array.getD_eq_getD_getElem?, Array.getElem?_map]
  cases g.nodes[id]? with
  | none => exact hf.symm
  | some n => rfl

theorem node_adopt (hc : c < g.size) (hu : u < g.size) (hne : u ≠ c) (id : NodeId) :
    (Inlining.adopt g c u).node id =
      { g.node id with
        kind := if id = c then .union else (g.node id).kind
        items := if id = c then [] else (g.node id).items.map (Inlining.relink c)
        members := if id = c then (g.node u).members else (g.node id).members
        removed := decide (id = u) || (g.node id).removed } := by
  rw [Inlining.adopt, node_map _ (f := fun n => { n with items := n.items.map (Inlining.relink c) })
    rfl]
  rcases eq_or_ne id u with rfl | hidu
  · rw [node_modify_self _ (by simpa using hu), node_modify_of_ne _ hne.symm]
    simp [hne]
  · rw [node_modify_of_ne _ hidu.symm]
    rcases eq_or_ne id c with rfl | hidc
    · rw [node_modify_self _ hc]
      simp [hidu]
    · rw [node_modify_of_ne _ hidc.symm]
      simp [hidu, hidc]

theorem size_adopt : (Inlining.adopt g c u).size = g.size := by
  simp [Inlining.adopt, size, modify]

theorem target_adopt : (Inlining.adopt g c u).target = g.target := rfl

@[simp] theorem link?_relink (c : NodeId) (item : Item) :
    (Inlining.relink c item).kind.link? = item.kind.link? := by
  unfold Inlining.relink
  split
  · rename_i h
    rw [h]
    rfl
  · rfl

theorem count_relink (c : NodeId) (item : Item) : (Inlining.relink c item).count = item.count := by
  unfold Inlining.relink
  split <;> rfl

theorem relink_of_link?_eq_none (c : NodeId) (h : item.kind.link? = none) :
    (Inlining.relink c item).kind = item.kind := by
  unfold Inlining.relink
  split
  · rename_i hk
    simp [hk, Element.link?] at h
  · rfl

/-! ### The pass as a sequence of steps -/

/-- A node that is not requested and that at most one item links to. -/
structure Spare (g : Graph) (t : NodeId) : Prop where
  refs : (g.node t).refs ≤ 1
  isKey : (g.node t).isKey = false
  kept : (g.node t).removed = false

/-- A node that other nodes can be merged into. -/
structure Takes (g : Graph) (c : NodeId) : Prop where
  isDefined : (g.node c).isDefined = true
  kept : (g.node c).removed = false
  kind : (g.node c).kind = .struct ∨ (g.node c).kind = .unionMember

/-- **One step of merging**, with what was checked before it. -/
inductive Merge (g : Graph) : Graph → Prop
  /-- A struct is put in the place of the item that links to it. -/
  | splice {c t : NodeId} {k : ℕ} (hc : g.Takes c) (ht : g.Spare t)
    (hi : (g.node c).items[k]? = some ⟨1, .structLink t⟩) (hne : (g.node t).items ≠ [])
    (hl : g.keepsLayout c k t = true) : Merge g (g.splice c k t)
  /-- A struct becomes the union that is its only item. -/
  | adopt {c u : NodeId} (hc : g.Takes c) (hu : g.Spare u) (hk : (g.node c).kind = .struct)
    (hi : (g.node c).items = [⟨1, .unionLink u⟩])
    (hlen : (g.node c).length = (g.node u).length) (hal : (g.node c).align = (g.node u).align) :
    Merge g (Inlining.adopt g c u)

theorem inlinable?_spec (h : g.inlinable? c item = some t) :
    item = ⟨1, .structLink t⟩ ∧ t ≠ c ∧ g.Spare t ∧ (g.node t).items ≠ [] := by
  unfold inlinable? at h
  split at h
  · dsimp only at h
    split at h
    · rename_i hif
      obtain rfl := Option.some.inj h
      obtain ⟨hne, -, hrefs, hkey, hkept, -, hitems⟩ := hif
      exact ⟨rfl, hne, ⟨hrefs, by simpa using hkey, by simpa using hkept⟩, hitems⟩
    · simp at h
  · simp at h

/-- A struct that others are merged into can go on taking them. -/
theorem Takes.splice (hc : g.Takes c) (ht : t < g.size) (hne : t ≠ c) :
    (g.splice c k t).Takes c := by
  have hnode := node_splice (k := k) (lt_size_of_isDefined hc.isDefined) ht hne c
  refine ⟨?_, ?_, ?_⟩ <;> rw [hnode]
  · exact hc.isDefined
  · simpa [hne.symm] using hc.kept
  · exact hc.kind

open Relation

/-- **One step of the pass**: a step of merging, which is counted and in the log, or an entry of
the log. -/
inductive LoggedMerge (p : Inlining) : Inlining → Prop
  | splice {c t : NodeId} {k : ℕ} (hc : p.graph.Takes c) (ht : p.graph.Spare t)
    (hi : (p.graph.node c).items[k]? = some ⟨1, .structLink t⟩)
    (hne : (p.graph.node t).items ≠ []) (hl : p.graph.keepsLayout c k t = true) :
    LoggedMerge p ⟨p.graph.splice c k t, { p.stats with inlined := p.stats.inlined + 1 },
      p.notices.push (.inlined t c k)⟩
  | adopt {c u : NodeId} (hc : p.graph.Takes c) (hu : p.graph.Spare u)
    (hk : (p.graph.node c).kind = .struct) (hi : (p.graph.node c).items = [⟨1, .unionLink u⟩])
    (hlen : (p.graph.node c).length = (p.graph.node u).length)
    (hal : (p.graph.node c).align = (p.graph.node u).align) :
    LoggedMerge p ⟨Inlining.adopt p.graph c u, { p.stats with adopted := p.stats.adopted + 1 },
      p.notices.push (.adopted c u)⟩
  | note (rejected : ℕ) (n : Notice) :
    LoggedMerge p ⟨p.graph, { p.stats with rejected }, p.notices.push n⟩

theorem LoggedMerge.merges (h : LoggedMerge p p') : ReflTransGen Merge p.graph p'.graph := by
  cases h with
  | splice hc ht hi hne hl => exact .single (.splice hc ht hi hne hl)
  | adopt hc hu hk hi hlen hal => exact .single (.adopt hc hu hk hi hlen hal)
  | note rejected n => exact .refl

theorem merges_of_logged (h : ReflTransGen LoggedMerge p p') :
    ReflTransGen Merge p.graph p'.graph := by
  induction h with
  | refl => exact .refl
  | tail _ hstep ih => exact ih.trans hstep.merges

theorem logged_inlineFrom (p : Inlining) (k : ℕ) (hc : p.graph.Takes c) :
    ReflTransGen LoggedMerge p (Inlining.inlineFrom c p k) ∧
      (Inlining.inlineFrom c p k).graph.Takes c := by
  fun_induction Inlining.inlineFrom c p k with
  | case1 p k hi => exact ⟨.refl, hc⟩
  | case2 p k item hi ht ih => exact ih hc
  | case3 p k item hi t ht hl ih =>
    obtain ⟨rfl, hne, hspare, hitems⟩ := inlinable?_spec ht
    obtain ⟨hsteps, htakes⟩ := ih (hc.splice (inlinable?_eq_some ht).2.2 hne)
    exact ⟨.head (.splice hc hspare hi hitems hl) hsteps, htakes⟩
  | case4 p k item hi t ht hl ih =>
    obtain ⟨hsteps, htakes⟩ := ih hc
    exact ⟨.head (.note _ _) hsteps, htakes⟩

theorem adoptable?_spec (hu : Inlining.adoptable? g c = some u) : g.Spare u ∧
    (g.node c).items = [⟨1, .unionLink u⟩] ∧ (g.node c).length = (g.node u).length ∧
      (g.node c).align = (g.node u).align := by
  unfold Inlining.adoptable? at hu
  dsimp only at hu
  split at hu
  · rename_i hi
    split at hu
    · rename_i hif
      obtain rfl := Option.some.inj hu
      obtain ⟨hrefs, hkey, hkept, hlen, hal⟩ := hif
      exact ⟨⟨hrefs, by simpa using hkey, by simpa using hkept⟩, hi, hlen, hal⟩
    · cases hu
  · cases hu

theorem logged_adoptUnion (p : Inlining) (hc : p.graph.Takes c) :
    ReflTransGen LoggedMerge p (Inlining.adoptUnion c p) := by
  unfold Inlining.adoptUnion
  split
  · rename_i hk
    split
    · exact .refl
    · rename_i u hu
      obtain ⟨hspare, hi, hlen, hal⟩ := adoptable?_spec hu
      exact .single (.adopt hc hspare hk hi hlen hal)
  · exact .refl

/-- A visit passes over a node that takes nothing. -/
theorem visit_cases (p : Inlining) (id : NodeId) : ¬ p.graph.Takes id ∧ p.visit id = p ∨
    p.graph.Takes id ∧ p.visit id = Inlining.adoptUnion id (p.inlineFrom id 0) := by
  unfold Inlining.visit
  dsimp only
  split
  · rename_i hgone
    exact .inl ⟨fun hc => by simp [hc.kept, hc.isDefined] at hgone, rfl⟩
  · rename_i hlive
    rw [not_or, not_not] at hlive
    split
    · exact .inr ⟨⟨hlive.2, by simpa using hlive.1, .inl ‹_›⟩, rfl⟩
    · exact .inr ⟨⟨hlive.2, by simpa using hlive.1, .inr ‹_›⟩, rfl⟩
    · rename_i hstruct hmember
      exact .inl ⟨fun hc => hc.kind.elim hstruct hmember, rfl⟩

theorem logged_visit (p : Inlining) (id : NodeId) : ReflTransGen LoggedMerge p (p.visit id) := by
  rcases visit_cases p id with ⟨-, heq⟩ | ⟨hc, heq⟩ <;> rw [heq]
  obtain ⟨hsteps, hc'⟩ := logged_inlineFrom p 0 hc
  exact hsteps.trans (logged_adoptUnion _ hc')

/-- **The pass is a sequence of steps.** -/
theorem logged_inlineStructs (g : Graph) :
    ReflTransGen LoggedMerge { graph := g } g.inlineStructs := by
  have hfold (ids : List NodeId) (p : Inlining) :
      ReflTransGen LoggedMerge p (ids.foldl Inlining.visit p) := by
    induction ids generalizing p with
    | nil => exact .refl
    | cons id ids ih => exact (logged_visit p id).trans (ih (p.visit id))
  exact (hfold (List.range g.size) { graph := g }).tail (.note _ _)

/-- **Merging is a sequence of steps.** -/
theorem merges_inlineStructs (g : Graph) : ReflTransGen Merge g g.inlineStructs.graph :=
  merges_of_logged g.logged_inlineStructs

/-! ### What the steps keep -/

/-- **A graph between two steps**: every node is sound, what is left needs nothing that
was removed, references to what is left are counted right, and links do not run in a
circle. -/
structure Settled (g : Graph) : Prop where
  nodes : ∀ id, (g.node id).SoundIn g
  live : ∀ id, (g.node id).removed = false → ∀ b ∈ (g.node id).children,
    (g.node b).removed = false
  refs : ∀ id, (g.node id).removed = false → (g.node id).refs = g.uses id
  ordered : ∃ order, g.OrderedBy order

theorem Sound.settled (h : g.Sound) : g.Settled :=
  ⟨h.nodes, fun _ _ b _ => h.kept b, fun id _ => h.refs id, h.ordered⟩

theorem not_linked_iff {n : Node} (hn : n.removed = false) :
    n.linksTo t = 0 ↔ ∀ item ∈ n.items, item.kind.link? ≠ some t := by
  simp [Node.linksTo, hn, countP_eq_zero]

/-- **Only one item links to a spare node.** -/
theorem Settled.only (h : g.Settled) (ht : g.Spare t) (hc : c < g.size)
    (hlink : (g.node c).linksTo t ≠ 0) :
    (g.node c).linksTo t = 1 ∧ ∀ x, x ≠ c → (g.node x).linksTo t = 0 := by
  have huses : g.uses t ≤ 1 := h.refs t ht.kept ▸ ht.refs
  have hsum : g.uses t = (g.node c).linksTo t +
      ∑ a ∈ (Finset.range g.size).erase c, (g.node a).linksTo t :=
    (Finset.add_sum_erase _ _ (Finset.mem_range.mpr hc)).symm
  refine ⟨by omega, fun x hx => ?_⟩
  have hzero : ∑ a ∈ (Finset.range g.size).erase c, (g.node a).linksTo t = 0 := by omega
  by_cases hlt : x < g.size
  · exact Finset.sum_eq_zero_iff.mp hzero x
      (Finset.mem_erase.mpr ⟨hx, Finset.mem_range.mpr hlt⟩)
  · rw [node_of_le (Nat.le_of_not_lt hlt)]
    rfl

/-- Nothing that is left needs a spare node, apart from the one that links to it. -/
theorem Settled.not_mem_children (h : g.Settled) (ht : g.Spare t) (hc : c < g.size)
    (hlink : (g.node c).linksTo t ≠ 0) (hk : (g.node t).kind ≠ .unionMember) {x : NodeId}
    (hx : (g.node x).removed = false) (hne : x ≠ c) : t ∉ (g.node x).children := by
  intro hmem
  rcases (h.nodes x).mem_children.mp hmem with hm | ⟨item, hi, hl⟩
  · exact hk ((h.nodes x).members t hm).1
  · exact (not_linked_iff hx).mp ((h.only ht hc hlink).2 x hne) item hi hl

/-- The order of definition stays good when a node needs what it needed before, or what
that needed. -/
theorem OrderedBy.relax (ho : g.OrderedBy order)
    (hd : ∀ j, (g'.node j).isDefined = (g.node j).isDefined)
    (hc : ∀ j, ∀ b ∈ (g'.node j).children, b ∈ (g.node j).children ∨
      ∃ t ∈ (g.node j).children, b ∈ (g.node t).children) : g'.OrderedBy order where
  nodup := ho.nodup
  mem_iff j := by rw [hd j]; exact ho.mem_iff j
  precedes l j r hl b hb := by
    rcases hc j b hb with hb | ⟨t, ht, hb⟩
    · exact ho.precedes l j r hl b hb
    · obtain ⟨l₁, l₂, rfl⟩ := append_of_mem (ho.precedes l j r hl t ht)
      have hl' : order = l₁ ++ t :: (l₂ ++ j :: r) := by simpa using hl
      exact mem_append_left _ (ho.precedes l₁ t _ hl' b hb)

/-- No node needs itself. -/
theorem Settled.irrefl (h : g.Settled) (hd : (g.node t).isDefined = true) :
    t ∉ (g.node t).children := by
  obtain ⟨order, ho⟩ := h.ordered
  obtain ⟨l, r, hl⟩ := append_of_mem ((ho.mem_iff t).mpr hd)
  intro hmem
  have hnodup := hl ▸ ho.nodup
  exact disjoint_of_nodup_append hnodup (ho.precedes l t r hl t hmem) mem_cons_self

/-- Numbers for the nodes by which what a node needs is smaller. -/
structure Ranked (g : Graph) (rank : NodeId → ℕ) : Prop where
  lt : ∀ id, ∀ b ∈ (g.node id).children, rank b < rank id
  le_size : ∀ id, rank id ≤ g.size
  lt_size : ∀ id, (g.node id).isDefined = true → rank id < g.size

theorem OrderedBy.length_le (ho : g.OrderedBy order) : order.length ≤ g.size := by
  have hsub : order ⊆ List.range g.size := fun id hid =>
    List.mem_range.mpr (lt_size_of_isDefined ((ho.mem_iff id).mp hid))
  simpa using (subperm_of_subset ho.nodup hsub).length_le

/-- **The place of a node in the order of definition is such a number.** -/
theorem Settled.ranked (h : g.Settled) : ∃ rank, g.Ranked rank := by
  obtain ⟨order, ho⟩ := h.ordered
  have hlt : ∀ id, (g.node id).isDefined = true → order.idxOf id < order.length := fun id hd =>
    idxOf_lt_length_of_mem ((ho.mem_iff id).mpr hd)
  refine ⟨order.idxOf, ⟨fun id b hb => ?_, fun id => ?_, fun id hd => ?_⟩⟩
  · cases hd : (g.node id).isDefined with
    | true =>
      obtain ⟨l, r, hl⟩ := append_of_mem ((ho.mem_iff id).mpr hd)
      have hbl := ho.precedes l id r hl b hb
      have hnot : id ∉ l := fun hmem =>
        disjoint_of_nodup_append (hl ▸ ho.nodup) hmem mem_cons_self
      rw [hl, idxOf_append_of_mem hbl, idxOf_append_of_notMem hnot, idxOf_cons_self,
        Nat.add_zero]
      exact idxOf_lt_length_of_mem hbl
    | false =>
      have hnot : id ∉ order := fun hmem => by simp [(ho.mem_iff id).mp hmem] at hd
      rw [idxOf_eq_length hnot]
      exact hlt b ((h.nodes id).isDefined_of_mem_children hb)
  · exact List.idxOf_le_length.trans ho.length_le
  · exact lt_of_lt_of_le (hlt id hd) ho.length_le

/-! ### Values that follow links -/

section Follow

variable {α : Type}

/-- A value of a node, computed from the values of what it needs, following links at most
`depth` deep. -/
def followTo (g : Graph) (step : (NodeId → α) → Node → α) (base : α) : (depth : ℕ) → NodeId → α
  | 0, _ => base
  | depth + 1, id => step (g.followTo step base depth) (g.node id)

/-- A value of a node, computed from the values of what it needs. -/
def follow (g : Graph) (step : (NodeId → α) → Node → α) (base : α) (id : NodeId) : α :=
  g.followTo step base (g.size + 1) id

/-- A computation looks at no values but those of what the node needs. -/
def Local (step : (NodeId → α) → Node → α) : Prop :=
  ∀ (n : Node) (f f' : NodeId → α), (∀ b ∈ n.children, f b = f' b) → step f n = step f' n

variable {step : (NodeId → α) → Node → α} {rank : NodeId → ℕ}

theorem followTo_eq_followTo (hl : Local step)
    (hlt : ∀ id, ∀ b ∈ (g.node id).children, rank b < rank id) (base : α) {depth depth' : ℕ}
    (hd : rank id < depth) (hd' : rank id < depth') :
    g.followTo step base depth id = g.followTo step base depth' id := by
  induction depth generalizing depth' id with
  | zero => exact absurd hd (Nat.not_lt_zero _)
  | succ depth ih =>
    cases depth' with
    | zero => exact absurd hd' (Nat.not_lt_zero _)
    | succ depth' =>
      rw [followTo, followTo]
      refine hl _ _ _ fun b hb => ?_
      have hless := hlt id b hb
      exact ih (by omega) (by omega)

/-- **The value of a node is given by the values of what it needs**, where links do not
run in a circle. -/
theorem follow_eq (hl : Local step) (hlt : ∀ id, ∀ b ∈ (g.node id).children, rank b < rank id)
    (hle : ∀ id, rank id ≤ g.size) (base : α) (id : NodeId) :
    g.follow step base id = step (g.follow step base) (g.node id) := by
  rw [follow, followTo]
  refine hl _ _ _ fun b hb => followTo_eq_followTo hl hlt base ?_ (Nat.lt_succ_of_le (hle b))
  exact lt_of_lt_of_le (hlt id b hb) (hle id)

/-- **Values that are given by each other** are the values that following links gives. -/
theorem Ranked.follow_unique (hr : g.Ranked rank) (hl : Local step) (base : α) {f : NodeId → α}
    (hf : ∀ id, f id = step f (g.node id)) : g.follow step base = f := by
  have hdeep (depth : ℕ) : ∀ id, rank id < depth → g.followTo step base depth id = f id := by
    induction depth with
    | zero => exact fun id hd => absurd hd (Nat.not_lt_zero _)
    | succ depth ih =>
      intro id hd
      rw [hf, followTo]
      exact hl _ _ _ fun b hb => ih b (lt_of_lt_of_le (hr.lt id b hb) (Nat.le_of_lt_succ hd))
  exact funext fun id => hdeep _ id (Nat.lt_succ_of_le (hr.le_size id))

end Follow

/-! ### A struct in the place of an item -/

section Splice

variable {item x : Item}

theorem mem_spliced {inner : List Item} (hx : x ∈ spliced items inner k) :
    x ∈ items ∨ x ∈ inner := by
  rw [spliced, mem_append, mem_append] at hx
  rcases hx with (hx | hx) | hx
  · exact Or.inl (mem_of_mem_take hx)
  · exact Or.inr hx
  · exact Or.inl (mem_of_mem_drop hx)

theorem eq_take_cons_drop (hk : items[k]? = some item) :
    items = items.take k ++ item :: items.drop (k + 1) := by
  obtain ⟨hlt, hget⟩ := List.getElem?_eq_some_iff.mp hk
  rw [← hget, getElem_cons_drop, take_append_drop]

theorem countP_spliced (p : Item → Bool) (inner : List Item) (hk : items[k]? = some item) :
    (spliced items inner k).countP p + (if p item then 1 else 0) =
      items.countP p + inner.countP p := by
  have hcount : items.countP p =
      (items.take k).countP p + ((items.drop (k + 1)).countP p + if p item then 1 else 0) := by
    conv_lhs => rw [eq_take_cons_drop hk]
    rw [countP_append, countP_cons]
  rw [spliced, countP_append, countP_append, hcount]
  omega

/-- An item of the container afterwards is of the kind of one that it or the struct had. -/
theorem mem_spliceItems (hx : x ∈ (g.spliceItems c k t).1) :
    (∃ y ∈ (g.node c).items, y.kind = x.kind) ∨ ∃ y ∈ (g.node t).items, y.kind = x.kind := by
  obtain ⟨y, hy, hyx⟩ := kind_of_mem_coalesce hx
  rcases mem_spliced hy with hy | hy
  · exact Or.inl ⟨y, hy, hyx⟩
  · exact Or.inr ⟨y, hy, hyx⟩

/-- What is known about the two nodes of a splice. -/
structure Splices (g : Graph) (c t : NodeId) (k : ℕ) : Prop where
  settled : g.Settled
  takes : g.Takes c
  spare : g.Spare t
  item : (g.node c).items[k]? = some ⟨1, .structLink t⟩
  filled : (g.node t).items ≠ []

namespace Splices

variable (h : g.Splices c t k) {x : NodeId}

include h

theorem mem : (⟨1, .structLink t⟩ : Item) ∈ (g.node c).items := mem_of_getElem? h.item

theorem leads : (g.node t).kind = .struct ∧ (g.node t).isDefined = true :=
  (h.settled.nodes c).leads _ h.mem

theorem lt_container : c < g.size := lt_size_of_isDefined h.takes.isDefined

theorem lt_target : t < g.size := lt_size_of_isDefined h.leads.2

theorem mem_children : t ∈ (g.node c).children :=
  (h.settled.nodes c).mem_children.mpr (Or.inr ⟨_, h.mem, rfl⟩)

theorem ne : t ≠ c := fun he => h.settled.irrefl h.leads.2 (he ▸ he ▸ h.mem_children)

theorem node (id : NodeId) : (g.splice c k t).node id =
    { g.node id with
      items := if id = c then (g.spliceItems c k t).1 else (g.node id).items
      refs := (g.node id).refs - (g.spliceItems c k t).2.count id
      removed := decide (id = t) || (g.node id).removed } :=
  node_splice h.lt_container h.lt_target h.ne id

theorem length_splice (id : NodeId) : ((g.splice c k t).node id).length = (g.node id).length := by
  rw [h.node id]

theorem align_splice (id : NodeId) : ((g.splice c k t).node id).align = (g.node id).align := by
  rw [h.node id]

theorem items_container : ((g.splice c k t).node c).items = (g.spliceItems c k t).1 := by
  rw [h.node c, if_pos rfl]

theorem kept_iff (x : NodeId) : ((g.splice c k t).node x).removed = false ↔
    x ≠ t ∧ (g.node x).removed = false := by
  rw [h.node x]
  simp

theorem linked : (g.node c).linksTo t ≠ 0 := fun hzero =>
  (not_linked_iff h.takes.kept).mp hzero _ h.mem rfl

theorem soundIn (id : NodeId) : ((g.splice c k t).node id).SoundIn (g.splice c k t) := by
  have hkeeps : g.Keeps (g.splice c k t) := fun j hj => by
    rw [h.node j]
    exact ⟨rfl, hj⟩
  have hid := (h.settled.nodes id).mono hkeeps
  have hkind := h.takes.kind
  rw [h.node id]
  rcases eq_or_ne id c with rfl | hne
  · rw [if_pos rfl]
    exact { hid with
      leads := fun x hx => by
        rcases mem_spliceItems hx with ⟨y, hy, hyx⟩ | ⟨y, hy, hyx⟩
        · exact hyx ▸ hid.leads y hy
        · exact hyx ▸ ((h.settled.nodes t).mono hkeeps).leads y hy
      union_items := by grind
      simple := by grind
      filled := by grind }
  · rw [if_neg hne]
    exact { hid with }

theorem children_of_ne (hne : id ≠ c) :
    ((g.splice c k t).node id).children = (g.node id).children := by
  rw [h.node id]
  simp [Node.children, Node.isUnion, hne]

/-- What the container needs afterwards it needed before, or the struct did. -/
theorem children_container {b : NodeId} (hb : b ∈ ((g.splice c k t).node c).children) :
    b ∈ (g.node c).children ∨ b ∈ (g.node t).children := by
  rcases (h.soundIn c).mem_children.mp hb with hm | ⟨x, hx, hl⟩
  · rw [h.node c] at hm
    exact Or.inl ((h.settled.nodes c).mem_children.mpr (Or.inl hm))
  · rw [h.items_container] at hx
    rcases mem_spliceItems hx with ⟨y, hy, hyx⟩ | ⟨y, hy, hyx⟩
    · exact Or.inl ((h.settled.nodes c).mem_children.mpr (Or.inr ⟨y, hy, hyx ▸ hl⟩))
    · exact Or.inr ((h.settled.nodes t).mem_children.mpr (Or.inr ⟨y, hy, hyx ▸ hl⟩))

/-- The links of the container afterwards, with those that were merged away. -/
theorem linksTo_container (x : NodeId) :
    ((g.splice c k t).node c).linksTo x + (g.spliceItems c k t).2.count x +
        (if t = x then 1 else 0) =
      (g.node c).linksTo x + (g.node t).linksTo x := by
  have hkept := (h.kept_iff c).mpr ⟨h.ne.symm, h.takes.kept⟩
  have hmerged := countP_coalesce (spliced (g.node c).items (g.node t).items k) x
  have hspliced := countP_spliced (fun y => decide (y.kind.link? = some x)) (g.node t).items h.item
  have hitem : (if decide ((Element.structLink t).link? = some x) = true then 1 else 0) =
      if t = x then 1 else 0 := by simp [Element.link?]
  rw [hitem] at hspliced
  rw [Node.linksTo, Node.linksTo, Node.linksTo, hkept, h.takes.kept, h.spare.kept,
    h.items_container, spliceItems]
  simp only [Bool.false_eq_true, if_false]
  omega

theorem linksTo_of_ne (hc : x ≠ c) (ht : x ≠ t) (y : NodeId) :
    ((g.splice c k t).node x).linksTo y = (g.node x).linksTo y := by
  rw [h.node x]
  simp [Node.linksTo, hc, ht]

/-- Nothing links to the struct any more. -/
theorem not_mem_children (hx : ((g.splice c k t).node x).removed = false) :
    t ∉ ((g.splice c k t).node x).children := by
  have hstruct : (g.node t).kind ≠ .unionMember := by simp [h.leads.1]
  rcases eq_or_ne x c with rfl | hne
  · intro hmem
    have hself : (g.node t).linksTo t = 0 := by
      refine (not_linked_iff h.spare.kept).mpr fun item hi hl => ?_
      exact h.settled.irrefl h.leads.2
        ((h.settled.nodes t).mem_children.mpr (Or.inr ⟨item, hi, hl⟩))
    have hone := (h.settled.only h.spare h.lt_container h.linked).1
    have hlinks := h.linksTo_container t
    rw [if_pos rfl, hself, hone] at hlinks
    have hzero : ((g.splice x k t).node x).linksTo t = 0 := by omega
    rcases (h.soundIn x).mem_children.mp hmem with hm | ⟨item, hi, hl⟩
    · rw [h.node x] at hm
      exact hstruct ((h.settled.nodes x).members t hm).1
    · exact (not_linked_iff hx).mp hzero item hi hl
  · rw [h.children_of_ne hne]
    exact h.settled.not_mem_children h.spare h.lt_container h.linked hstruct
      ((h.kept_iff x).mp hx).2 hne

/-- All links together, apart from those to the struct itself. -/
theorem uses_splice (hx : x ≠ t) :
    (g.splice c k t).uses x + (g.spliceItems c k t).2.count x = g.uses x := by
  have hc : c ∈ (Finset.range g.size).erase t :=
    Finset.mem_erase.mpr ⟨h.ne.symm, Finset.mem_range.mpr h.lt_container⟩
  have ht : t ∈ Finset.range g.size := Finset.mem_range.mpr h.lt_target
  have hold : g.uses x = (g.node t).linksTo x + ((g.node c).linksTo x +
      ∑ a ∈ ((Finset.range g.size).erase t).erase c, (g.node a).linksTo x) := by
    rw [uses, ← Finset.add_sum_erase _ _ ht, ← Finset.add_sum_erase _ _ hc]
  have hnew : (g.splice c k t).uses x = ((g.splice c k t).node c).linksTo x +
      ∑ a ∈ ((Finset.range g.size).erase t).erase c, (g.node a).linksTo x := by
    have hgone : ((g.splice c k t).node t).linksTo x = 0 := by
      rw [h.node t]
      simp [Node.linksTo]
    rw [uses, size_splice, ← Finset.add_sum_erase _ _ ht, ← Finset.add_sum_erase _ _ hc, hgone,
      Nat.zero_add]
    refine congrArg _ (Finset.sum_congr rfl fun a ha => ?_)
    rw [Finset.mem_erase, Finset.mem_erase] at ha
    exact h.linksTo_of_ne ha.1 ha.2.1 x
  have hlinks := h.linksTo_container x
  rw [if_neg hx.symm] at hlinks
  omega

/-- **A splice leaves a settled graph.** -/
theorem settled_splice : (g.splice c k t).Settled where
  nodes := h.soundIn
  live x hx b hb := by
    have hxg := ((h.kept_iff x).mp hx).2
    have hne : b ≠ t := by
      rintro rfl
      exact h.not_mem_children hx hb
    refine (h.kept_iff b).mpr ⟨hne, ?_⟩
    rcases eq_or_ne x c with rfl | hne
    · rcases h.children_container hb with hb | hb
      · exact h.settled.live x hxg b hb
      · exact h.settled.live t h.spare.kept b hb
    · rw [h.children_of_ne hne] at hb
      exact h.settled.live x hxg b hb
  refs x hx := by
    obtain ⟨hxt, hxg⟩ := (h.kept_iff x).mp hx
    have huses := h.uses_splice hxt
    have hrefs := h.settled.refs x hxg
    rw [h.node x]
    dsimp only
    omega
  ordered := by
    obtain ⟨order, ho⟩ := h.settled.ordered
    refine ⟨order, ho.relax (fun j => ?_) fun j b hb => ?_⟩
    · rw [h.node j]
      rfl
    · rcases eq_or_ne j c with rfl | hne
      · rcases h.children_container hb with hb | hb
        · exact Or.inl hb
        · exact Or.inr ⟨t, h.mem_children, hb⟩
      · rw [h.children_of_ne hne] at hb
        exact Or.inl hb

end Splices

end Splice

/-! ### A struct that becomes its only item -/

/-- What is known about the two nodes of an adoption. -/
structure Adopts (g : Graph) (c u : NodeId) : Prop where
  settled : g.Settled
  takes : g.Takes c
  spare : g.Spare u
  kind : (g.node c).kind = .struct
  items : (g.node c).items = [⟨1, .unionLink u⟩]
  length : (g.node c).length = (g.node u).length
  align : (g.node c).align = (g.node u).align

namespace Adopts

variable (h : g.Adopts c u)

include h

theorem mem : (⟨1, .unionLink u⟩ : Item) ∈ (g.node c).items := by simp [h.items]

theorem leads : (g.node u).kind = .union ∧ (g.node u).isDefined = true :=
  (h.settled.nodes c).leads _ h.mem

theorem lt_container : c < g.size := lt_size_of_isDefined h.takes.isDefined

theorem lt_union : u < g.size := lt_size_of_isDefined h.leads.2

theorem mem_children : u ∈ (g.node c).children :=
  (h.settled.nodes c).mem_children.mpr (Or.inr ⟨_, h.mem, rfl⟩)

theorem ne : u ≠ c := fun he => by simpa [he, h.kind] using h.leads.1

theorem node (id : NodeId) : (Inlining.adopt g c u).node id =
    { g.node id with
      kind := if id = c then .union else (g.node id).kind
      items := if id = c then [] else (g.node id).items.map (Inlining.relink c)
      members := if id = c then (g.node u).members else (g.node id).members
      removed := decide (id = u) || (g.node id).removed } :=
  node_adopt h.lt_container h.lt_union h.ne id

theorem length_adopt (id : NodeId) :
    ((Inlining.adopt g c u).node id).length = (g.node id).length := by
  rw [h.node id]

theorem align_adopt (id : NodeId) : ((Inlining.adopt g c u).node id).align = (g.node id).align := by
  rw [h.node id]

theorem kept_iff (x : NodeId) : ((Inlining.adopt g c u).node x).removed = false ↔
    x ≠ u ∧ (g.node x).removed = false := by
  rw [h.node x]
  simp

theorem linked : (g.node c).linksTo u ≠ 0 := fun hzero =>
  (not_linked_iff h.takes.kept).mp hzero _ h.mem rfl

/-- Other nodes stay of their kind. -/
theorem node_of_ne {j : NodeId} {kind : NodeKind} (hj : j ≠ c)
    (hk : (g.node j).kind = kind ∧ (g.node j).isDefined = true) :
    ((Inlining.adopt g c u).node j).kind = kind ∧
      ((Inlining.adopt g c u).node j).isDefined = true := by
  rw [h.node j, if_neg hj]
  exact hk

/-- A link leads to what it led to, under the kind that this has now. -/
theorem leads_relink (hl : g.Leads item.kind) :
    (Inlining.adopt g c u).Leads (Inlining.relink c item).kind := by
  unfold Inlining.relink
  split
  · rw [Leads, h.node c, if_pos rfl]
    exact ⟨rfl, h.takes.isDefined⟩
  · rename_i hne
    cases hk : item.kind with
    | structLink t =>
      rw [hk] at hl
      exact h.node_of_ne (fun he => hne (by rw [hk, he])) hl
    | unionLink t =>
      rw [hk] at hl
      exact h.node_of_ne (fun he => by simpa [he, h.kind] using hl.1) hl
    | _ => trivial

theorem soundIn (id : NodeId) : ((Inlining.adopt g c u).node id).SoundIn (Inlining.adopt g c u) := by
  have hid := h.settled.nodes id
  have hmember {m : NodeId} (hm : (g.node m).kind = .unionMember ∧ (g.node m).isDefined = true) :=
    h.node_of_ne (fun he => by simpa [he, h.kind] using hm.1) hm
  rw [h.node id]
  rcases eq_or_ne id c with rfl | hne
  · simp only [if_true]
    exact { hid with
      leads := by simp
      members := fun m hm => hmember ((h.settled.nodes u).members m hm)
      union_items := fun _ => rfl
      other_members := by simp
      simple := by simp
      filled := by simp
      body := fun _ => Or.inr rfl }
  · simp only [hne, if_false]
    exact { hid with
      leads := fun x hx => by
        obtain ⟨y, hy, rfl⟩ := List.mem_map.mp hx
        exact h.leads_relink (hid.leads y hy)
      members := fun m hm => hmember (hid.members m hm)
      union_items := fun hk => by simp [hid.union_items hk]
      simple := fun hk => by simpa using hid.simple hk
      filled := fun hk => by simpa using hid.filled hk }

theorem children_of_ne (hne : id ≠ c) :
    ((Inlining.adopt g c u).node id).children = (g.node id).children := by
  rw [h.node id]
  simp only [Node.children, Node.isUnion, hne, if_false, filterMap_map]
  simp

theorem children_container :
    ((Inlining.adopt g c u).node c).children = (g.node u).children := by
  rw [h.node c]
  simp [Node.children, Node.isUnion, h.leads.1]

theorem linksTo_eq {x y : NodeId} (hy : y ≠ u) :
    ((Inlining.adopt g c u).node x).linksTo y = (g.node x).linksTo y := by
  rcases eq_or_ne x u with rfl | hxu
  · have hempty := (h.settled.nodes x).union_items h.leads.1
    rw [h.node x]
    simp [Node.linksTo, hempty]
  · rcases eq_or_ne x c with rfl | hxc
    · rw [h.node x]
      simp [Node.linksTo, hxu, h.items, Element.link?, hy.symm]
    · rw [h.node x]
      simp [Node.linksTo, hxu, hxc, countP_map, Function.comp_def]

/-- **An adoption leaves a settled graph.** -/
theorem settled_adopt : (Inlining.adopt g c u).Settled where
  nodes := h.soundIn
  live x hx b hb := by
    obtain ⟨hxu, hxg⟩ := (h.kept_iff x).mp hx
    have hunion : (g.node u).kind ≠ .unionMember := by simp [h.leads.1]
    rw [h.kept_iff]
    rcases eq_or_ne x c with rfl | hne
    · rw [h.children_container] at hb
      refine ⟨?_, h.settled.live u h.spare.kept b hb⟩
      rintro rfl
      exact h.settled.irrefl h.leads.2 hb
    · rw [h.children_of_ne hne] at hb
      refine ⟨?_, h.settled.live x hxg b hb⟩
      rintro rfl
      exact h.settled.not_mem_children h.spare h.lt_container h.linked hunion hxg hne hb
  refs x hx := by
    obtain ⟨hxu, hxg⟩ := (h.kept_iff x).mp hx
    rw [uses_congr size_adopt fun y => h.linksTo_eq hxu, ← h.settled.refs x hxg, h.node x]
  ordered := by
    obtain ⟨order, ho⟩ := h.settled.ordered
    refine ⟨order, ho.relax (fun j => ?_) fun j b hb => ?_⟩
    · rw [h.node j]
      rfl
    · rcases eq_or_ne j c with rfl | hne
      · rw [h.children_container] at hb
        exact Or.inr ⟨u, h.mem_children, hb⟩
      · rw [h.children_of_ne hne] at hb
        exact Or.inl hb

end Adopts

/-- **A step of merging leaves a settled graph.** -/
theorem Settled.merge (h : g.Settled) (hm : g.Merge g') : g'.Settled := by
  cases hm with
  | splice hc ht hi hne hl => exact Splices.settled_splice ⟨h, hc, ht, hi, hne⟩
  | adopt hc hu hk hi hlen hal => exact Adopts.settled_adopt ⟨h, hc, hu, hk, hi, hlen, hal⟩

theorem Settled.merges (h : g.Settled) (hm : ReflTransGen Merge g g') : g'.Settled := by
  induction hm with
  | refl => exact h
  | tail _ hstep ih => exact ih.merge hstep

end TypeLayout.Graph
