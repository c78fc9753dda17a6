import TypeLayout.Proofs.Consistent
import TypeLayout.Proofs.Faithful

/-!
# Offsets tile the table

A session that has been laid out places its nodes one after the other: the cells of the
nodes that are needed are the cells of the table, each of them once, and the slots of the
unions among them are the slots of the jump table, each of them once (`Session.Tiled`). Both
are one fact about sums along an order without repetitions (`Graph.lt_sum_iff`), once with
the number of cells as weights and once with one for a union and zero for anything else.
-/

namespace TypeLayout

open List

namespace Graph

variable {g : Graph} {order : List NodeId} {a b id : NodeId}

/-! ### Sums along an order -/

theorem exists_before (hn : order.Nodup) (hb : b ∈ order) :
    ∃ r, order = before order b ++ b :: r := by
  obtain ⟨l, r, rfl⟩ := append_of_mem hb
  have hnot : b ∉ l := fun hmem =>
    disjoint_of_nodup_append hn hmem mem_cons_self
  exact ⟨r, by rw [before_concat hnot]⟩

/-- Of two nodes one stands before the other. -/
theorem mem_before_or (hn : order.Nodup) (ha : a ∈ order) (hb : b ∈ order) (hne : a ≠ b) :
    a ∈ before order b ∨ b ∈ before order a := by
  obtain ⟨r, hr⟩ := exists_before hn hb
  rw [hr, mem_append, mem_cons] at ha
  rcases ha with ha | ha | ha
  · exact .inl ha
  · exact absurd ha hne
  · obtain ⟨r₁, r₂, rfl⟩ := append_of_mem ha
    have hsplit : order = (before order b ++ b :: r₁) ++ a :: r₂ := by
      rw [append_assoc]
      exact hr
    have hnot : a ∉ before order b ++ b :: r₁ := fun hmem =>
      disjoint_of_nodup_append (hsplit ▸ hn) hmem mem_cons_self
    have hbefore : before order a = before order b ++ b :: r₁ := by
      conv_lhs => rw [hsplit]
      exact before_concat hnot r₂
    exact .inr (by simp [hbefore])

/-- Later nodes of an order have the earlier ones before them. -/
theorem pairwise_mem_before (hn : order.Nodup) : order.Pairwise fun a b => a ∈ before order b := by
  induction order using List.reverseRecOn with
  | nil => exact .nil
  | append_singleton order x ih =>
    obtain ⟨hinit, -, hdisjoint⟩ := List.nodup_append.mp hn
    have hx : x ∉ order := fun hmem => hdisjoint x hmem x (by simp) rfl
    refine List.pairwise_append.mpr ⟨?_, pairwise_singleton _ _, fun a ha b hb => ?_⟩
    · refine (ih hinit).imp_of_mem fun {a b} _ hb hab => ?_
      rwa [before_append_of_mem [x] hb]
    · obtain rfl := List.mem_singleton.mp hb
      rwa [before_concat hx []]

/-- What stands before a node ends before it starts. -/
theorem sum_before_le (hn : order.Nodup) (hb : b ∈ order) (ha : a ∈ before order b)
    (w : NodeId → ℕ) :
    ((before order a).map w).sum + w a ≤ ((before order b).map w).sum := by
  obtain ⟨r, hr⟩ := exists_before hn hb
  obtain ⟨l₁, l₂, hl⟩ := append_of_mem ha
  have hsplit : order = l₁ ++ a :: (l₂ ++ b :: r) := by
    rw [hl] at hr
    simpa using hr
  have hnot : a ∉ l₁ := fun hmem =>
    disjoint_of_nodup_append (hsplit ▸ hn) hmem mem_cons_self
  have hbefore : before order a = l₁ := by
    conv_lhs => rw [hsplit]
    exact before_concat hnot _
  rw [hbefore, hl]
  simp only [map_append, map_cons, sum_append, sum_cons]
  omega

/-- **Weights fill their sum**: each number below it falls to one of the nodes. -/
theorem lt_sum_iff (hn : order.Nodup) (w : NodeId → ℕ) (i : ℕ) :
    i < (order.map w).sum ↔ ∃ id ∈ order, ((before order id).map w).sum ≤ i ∧
      i < ((before order id).map w).sum + w id := by
  induction order using List.reverseRecOn with
  | nil => simp
  | append_singleton order x ih =>
    obtain ⟨hinit, -, hdisjoint⟩ := List.nodup_append.mp hn
    have hx : x ∉ order := fun hmem => hdisjoint x hmem x (by simp) rfl
    have hold {id : NodeId} (hid : id ∈ order) : before (order ++ [x]) id = before order id :=
      before_append_of_mem [x] hid
    have hlast : before (order ++ [x]) x = order := before_concat hx []
    rw [map_append, sum_append, map_singleton, sum_singleton]
    constructor
    · intro hi
      by_cases hlt : i < (order.map w).sum
      · obtain ⟨id, hid, hle, hlt⟩ := (ih hinit).mp hlt
        refine ⟨id, mem_append_left _ hid, ?_⟩
        rw [hold hid]
        exact ⟨hle, hlt⟩
      · refine ⟨x, by simp, ?_⟩
        rw [hlast]
        exact ⟨Nat.le_of_not_lt hlt, hi⟩
    · rintro ⟨id, hid, hle, hlt⟩
      rcases List.mem_append.mp hid with hid | hid
      · rw [hold hid] at hle hlt
        have := (ih hinit).mpr ⟨id, hid, hle, hlt⟩
        omega
      · obtain rfl := List.mem_singleton.mp hid
        rwa [hlast] at hlt

end Graph

namespace Session

variable {id : NodeId}

/-- **A tiled session**: the nodes that are needed share the cells and the slots out among
themselves. -/
structure Tiled (s : Session) : Prop where
  /-- Exactly the nodes that are needed have a place. -/
  placed : ∀ id, (s.graph.node id).offset.isSome = true ↔ s.graph.Needs s.requested id
  /-- Their cells are all cells of the table, -/
  cells : ∀ i, i < s.nextOffset ↔ ∃ id o, (s.graph.node id).offset = some o ∧
    o ≤ i ∧ i < o + (s.graph.node id).cellCount
  /-- each of them once. -/
  apart : ∀ a b o p, (s.graph.node a).offset = some o → (s.graph.node b).offset = some p → a ≠ b →
    o + (s.graph.node a).cellCount ≤ p ∨ p + (s.graph.node b).cellCount ≤ o
  /-- What a link or a member leads to comes before. -/
  backwards : ∀ a b o, (s.graph.node a).offset = some o → s.graph.Edge a b →
    ∃ p, (s.graph.node b).offset = some p ∧ p + (s.graph.node b).cellCount ≤ o
  /-- Exactly the unions that are needed have a slot. -/
  slotted : ∀ id, (s.graph.node id).jump.isSome = true ↔
    s.graph.Needs s.requested id ∧ (s.graph.node id).kind = .union
  /-- Their slots are all slots of the jump table, each of them once. -/
  slots : ∀ j, j < s.nextJump ↔ ∃ id, (s.graph.node id).jump = some j
  single : ∀ a b j, (s.graph.node a).jump = some j → (s.graph.node b).jump = some j → a = b

variable {g : Graph} {order : List NodeId} {s : Session}

theorem Laid.kids_eq (h : Laid g order s) : s.graph.kids = g.kids :=
  funext fun id => (h.shape id).children

theorem Laid.mem_of_offset (h : Laid g order s) {o : ℕ} (ho : (s.graph.node id).offset = some o) :
    id ∈ order ∧ o = g.offsetIn order id := by
  rw [h.offset id] at ho
  split at ho
  · rename_i hid
    exact ⟨hid, (Option.some.inj ho).symm⟩
  · cases ho

theorem Laid.mem_of_jump (h : Laid g order s) {j : ℕ} (hj : (s.graph.node id).jump = some j) :
    id ∈ order ∧ (g.node id).isUnion = true ∧ j = g.jumpIn order id := by
  rw [h.jump id] at hj
  split at hj
  · rename_i hid
    exact ⟨hid.1, hid.2, (Option.some.inj hj).symm⟩
  · cases hj

/-- **Nodes that are placed in an order tile the table**, if what they need stands before
them. -/
theorem Laid.tiled (h : Laid g order s) (hs : g.Settled) (hn : order.Nodup)
    (ha : Above g.kids order) (hm : ∀ id, id ∈ order ↔ g.Needs s.requested id) : s.Tiled := by
  have hneeds (id : NodeId) : s.graph.Needs s.requested id ↔ id ∈ order := by
    rw [hm, Graph.Needs, h.kids_eq]
    rfl
  have hcount (id : NodeId) : (s.graph.node id).cellCount = (g.node id).cellCount :=
    (h.shape id).cellCount
  have hoffset {id : NodeId} (hid : id ∈ order) :
      (s.graph.node id).offset = some (g.offsetIn order id) := (h.offset id).trans (if_pos hid)
  have hjump {id : NodeId} (hid : id ∈ order) (hu : (g.node id).isUnion = true) :
      (s.graph.node id).jump = some (g.jumpIn order id) := (h.jump id).trans (if_pos ⟨hid, hu⟩)
  have hends {a b : NodeId} (hb : b ∈ order) (hab : a ∈ Graph.before order b) :
      g.offsetIn order a + (g.node a).cellCount ≤ g.offsetIn order b :=
    Graph.sum_before_le hn hb hab fun id => (g.node id).cellCount
  have hslots {a b : NodeId} (hb : b ∈ order) (hab : a ∈ Graph.before order b) :
      g.jumpIn order a + (if (g.node a).isUnion then 1 else 0) ≤ g.jumpIn order b :=
    Graph.sum_before_le hn hb hab fun id => if (g.node id).isUnion then 1 else 0
  refine ⟨fun id => ?_, fun i => ?_, fun a b o p ho hp hne => ?_, fun a b o ho hab => ?_,
    fun id => ?_, fun j => ?_, fun a b j haj hbj => ?_⟩
  · rw [hneeds, h.offset id]
    split
    · rename_i hid
      exact iff_of_true rfl hid
    · rename_i hid
      exact iff_of_false (by simp) hid
  · rw [h.nextOffset, Graph.cellsOf, Graph.lt_sum_iff hn]
    constructor
    · rintro ⟨id, hid, hle, hlt⟩
      exact ⟨id, _, hoffset hid, hle, hcount id ▸ hlt⟩
    · rintro ⟨id, o, ho, hle, hlt⟩
      obtain ⟨hid, rfl⟩ := h.mem_of_offset ho
      exact ⟨id, hid, hle, hcount id ▸ hlt⟩
  · obtain ⟨ha, rfl⟩ := h.mem_of_offset ho
    obtain ⟨hb, rfl⟩ := h.mem_of_offset hp
    rw [hcount, hcount]
    exact (Graph.mem_before_or hn ha hb hne).imp (hends hb) (hends ha)
  · obtain ⟨hmem, rfl⟩ := h.mem_of_offset ho
    obtain ⟨r, hr⟩ := Graph.exists_before hn hmem
    have hkid : b ∈ g.kids a := by
      rw [Graph.Edge, (h.shape a).members, (h.shape a).items] at hab
      exact (hs.nodes a).mem_children.mpr hab
    have hbefore := ha _ a r hr b hkid
    have hb : b ∈ order := hr ▸ mem_append_left _ hbefore
    exact ⟨_, hoffset hb, hcount b ▸ hends hmem hbefore⟩
  · rw [hneeds, h.jump id, (h.shape id).kind]
    have hunion : (g.node id).isUnion = true ↔ (g.node id).kind = .union := by
      simp [Node.isUnion]
    split
    · rename_i hid
      exact iff_of_true rfl ⟨hid.1, hunion.mp hid.2⟩
    · rename_i hid
      exact iff_of_false (by simp) fun hid' => hid ⟨hid'.1, hunion.mpr hid'.2⟩
  · rw [h.nextJump, Graph.unionsOf, Graph.lt_sum_iff hn]
    constructor
    · rintro ⟨id, hid, hle, hlt⟩
      by_cases hu : (g.node id).isUnion = true
      · rw [if_pos hu] at hlt
        refine ⟨id, (hjump hid hu).trans (congrArg some ?_)⟩
        exact le_antisymm hle (Nat.le_of_lt_succ hlt)
      · rw [if_neg hu, Nat.add_zero] at hlt
        exact absurd hle (Nat.not_le_of_lt hlt)
    · rintro ⟨id, hj⟩
      obtain ⟨hid, hu, rfl⟩ := h.mem_of_jump hj
      refine ⟨id, hid, le_refl _, ?_⟩
      rw [if_pos hu]
      exact Nat.lt_succ_self _
  · obtain ⟨ha, hau, rfl⟩ := h.mem_of_jump haj
    obtain ⟨hb, hbu, hsame⟩ := h.mem_of_jump hbj
    by_contra hne
    rcases Graph.mem_before_or hn ha hb hne with hab | hba
    · have hle := hslots hb hab
      rw [if_pos hau] at hle
      omega
    · have hle := hslots ha hba
      rw [if_pos hbu] at hle
      omega

end Session

end TypeLayout
