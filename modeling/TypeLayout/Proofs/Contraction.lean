import TypeLayout.Proofs.Placing

/-!
# The walk after a step of merging

A step of merging takes one node away, which only one other node needed. The walk from
the requested nodes is then the old one without that node (`Contracts.walk`): what the node
needed is now needed by the other one, at the same place.

So no node moves up in the table (`Contracts.offsetIn_le`), and the cells that the step saves are
saved in the whole table (`Contracts.cellsOf_add_le`).
-/

namespace TypeLayout

open List

/-- A list without a node. -/
def without (t : NodeId) (l : List NodeId) : List NodeId := l.filter (· ≠ t)

section Without

variable {t x : NodeId} {l m : List NodeId}

theorem mem_without : x ∈ without t l ↔ x ∈ l ∧ x ≠ t := by simp [without]

theorem without_append (t : NodeId) (l m : List NodeId) :
    without t (l ++ m) = without t l ++ without t m :=
  filter_append _ _

theorem without_concat_of_ne (h : x ≠ t) (l : List NodeId) :
    without t (l ++ [x]) = without t l ++ [x] := by
  simp [without, h]

theorem without_concat_self (t : NodeId) (l : List NodeId) : without t (l ++ [t]) = without t l := by
  simp [without]

theorem without_of_not_mem (h : t ∉ l) : without t l = l :=
  List.filter_eq_self.mpr fun x hx => by simpa using fun he : x = t => h (he ▸ hx)

/-- A sum over the list without a node, if another node takes over what that node had but for
some of it. -/
theorem sum_without_add_le {c : NodeId} {w w' : NodeId → ℕ} {n : ℕ} (hne : c ≠ t)
    (hother : ∀ y, y ≠ c → y ≠ t → w' y = w y) (hc : w' c + n ≤ w c + w t)
    (hcount : l.count c ≤ l.count t) :
    ((without t l).map w').sum + l.count c * n ≤ (l.map w).sum := by
  have hall (l : List NodeId) : ((without t l).map w').sum + l.count t * w t + l.count c * n ≤
      (l.map w).sum + l.count c * w t := by
    induction l with
    | nil => simp [without]
    | cons y l ih =>
      unfold without at ih ⊢
      rcases eq_or_ne y t with rfl | hyt
      · simp [hne.symm, Nat.add_mul] at ih ⊢
        omega
      · rcases eq_or_ne y c with rfl | hyc
        · simp [hne, Nat.add_mul] at ih ⊢
          omega
        · simp [hyt, hyc, hother y hyc hyt] at ih ⊢
          omega
  have hmul : l.count c * w t ≤ l.count t * w t := Nat.mul_le_mul_right _ hcount
  have := hall l
  omega

end Without

/-! ### A node that only one other needs -/

/-- **A node is taken away that only one other needs**, and the other one needs what it
needed, at the same place. The rest of the nodes that count need what they needed. -/
structure Contracts (kids kids' : NodeId → List NodeId) (counts : NodeId → Prop)
    (rank : NodeId → ℕ) (c t : NodeId) (front rear : List NodeId) : Prop where
  split : kids c = front ++ t :: rear
  join : ∀ done done', Walk kids' done (front ++ kids t ++ rear) done' → Walk kids' done (kids' c) done'
  other : ∀ x, x ≠ c → x ≠ t → kids' x = kids x
  only : ∀ x, counts x → t ∈ kids x → x = c
  once : t ∉ front ∧ t ∉ rear
  closed : ∀ x, counts x → ∀ b ∈ kids x, counts b
  lt : ∀ x, ∀ b ∈ kids x, rank b < rank x

namespace Contracts

variable {kids kids' : NodeId → List NodeId} {counts : NodeId → Prop} {rank : NodeId → ℕ}
  {c t : NodeId} {front rear done todo done' : List NodeId}
  (h : Contracts kids kids' counts rank c t front rear)

include h

theorem mem_kids : t ∈ kids c := by
  rw [h.split]
  simp

theorem ne : c ≠ t := fun he => Nat.lt_irrefl (rank c) (he ▸ h.lt c t h.mem_kids)

/-- Below the other node nothing changes. -/
theorem transfer (hw : Walk kids done todo done')
    (htodo : ∀ x ∈ todo, counts x ∧ rank x < rank c ∧ x ≠ t) :
    Walk kids' (without t done) todo (without t done') ∧ (t ∈ done' → t ∈ done) := by
  have hbelow : ∀ x, counts x ∧ rank x < rank c ∧ x ≠ t →
      x ≠ c ∧ ∀ b ∈ kids x, counts b ∧ rank b < rank c ∧ b ≠ t := by
    rintro x ⟨hx, hlt, hne⟩
    have hxc : x ≠ c := fun he => Nat.lt_irrefl _ (he ▸ hlt)
    refine ⟨hxc, fun b hb => ⟨h.closed x hx b hb, (h.lt x b hb).trans hlt, ?_⟩⟩
    rintro rfl
    exact hxc (h.only x hx hb)
  induction hw with
  | nil => exact ⟨.nil, fun ht => ht⟩
  | @seen id done todo done' hmem _ ih =>
    obtain ⟨hw', hnew⟩ := ih fun x hx => htodo x (mem_cons_of_mem _ hx)
    exact ⟨.seen (mem_without.mpr ⟨hmem, (htodo id mem_cons_self).2.2⟩) hw', hnew⟩
  | @fresh id done todo mid done' hnot _ _ ihin ih =>
    have hid := htodo id mem_cons_self
    obtain ⟨hidc, hkids⟩ := hbelow id hid
    obtain ⟨hin', hnewin⟩ := ihin hkids
    obtain ⟨hw', hnew⟩ := ih fun x hx => htodo x (mem_cons_of_mem _ hx)
    rw [without_concat_of_ne hid.2.2] at hw'
    rw [← h.other id hidc hid.2.2] at hin'
    refine ⟨.fresh (fun hmem => hnot (mem_without.mp hmem).1) hin' hw', fun ht => hnewin ?_⟩
    exact (List.mem_append.mp (hnew ht)).resolve_right (by simpa using hid.2.2.symm)

/-- The walk through what the other node needs. -/
theorem exists_mid (hcounts : counts c) (ht : t ∉ done) (hw : Walk kids done (kids c) done') :
    ∃ mid, Walk kids (mid ++ [t]) rear done' ∧
      Walk kids' (without t done) (kids' c) (without t done') := by
  have hsub : ∀ x ∈ front ++ rear, counts x ∧ rank x < rank c ∧ x ≠ t := by
    intro x hx
    have hmem : x ∈ kids c := by
      rw [h.split]
      rcases List.mem_append.mp hx with hx | hx <;> simp [hx]
    refine ⟨h.closed c hcounts x hmem, h.lt c x hmem, ?_⟩
    rintro rfl
    exact (List.mem_append.mp hx).elim h.once.1 h.once.2
  have htkids : ∀ x ∈ kids t, counts x ∧ rank x < rank c ∧ x ≠ t := fun x hx =>
    ⟨h.closed t (h.closed c hcounts t h.mem_kids) x hx,
      (h.lt t x hx).trans (h.lt c t h.mem_kids), fun he => Nat.lt_irrefl _ (he ▸ h.lt t x hx)⟩
  rw [h.split] at hw
  obtain ⟨m₁, hfront, hw⟩ := hw.of_append
  obtain ⟨hfront', hnew⟩ := h.transfer hfront fun x hx => hsub x (mem_append_left _ hx)
  cases hw with
  | seen hmem _ => exact absurd (hnew hmem) ht
  | @fresh _ _ _ m₂ _ _ hin hrear =>
    obtain ⟨hin', -⟩ := h.transfer hin htkids
    obtain ⟨hrear', -⟩ := h.transfer hrear fun x hx => hsub x (mem_append_right _ hx)
    rw [without_concat_self] at hrear'
    exact ⟨m₂, hrear, h.join _ _ ((hfront'.trans hin').trans hrear')⟩

/-- **The walk after the step is the walk before it without the node.** -/
theorem walk (hw : Walk kids done todo done') (htodo : ∀ x ∈ todo, counts x ∧ x ≠ t)
    (hdone : t ∈ done → c ∈ done) :
    Walk kids' (without t done) todo (without t done') ∧ (t ∈ done' → c ∈ done') := by
  induction hw with
  | nil => exact ⟨.nil, hdone⟩
  | @seen id done todo done' hmem _ ih =>
    obtain ⟨hw', hnew⟩ := ih (fun x hx => htodo x (mem_cons_of_mem _ hx)) hdone
    exact ⟨.seen (mem_without.mpr ⟨hmem, (htodo id mem_cons_self).2⟩) hw', hnew⟩
  | @fresh id done todo mid done' hnot hin hw ihin ih =>
    obtain ⟨hcounts, hidt⟩ := htodo id mem_cons_self
    have hnot' : id ∉ without t done := fun hmem => hnot (mem_without.mp hmem).1
    have hrest : ∀ x ∈ todo, counts x ∧ x ≠ t := fun x hx => htodo x (mem_cons_of_mem _ hx)
    rw [without_concat_of_ne hidt] at ih
    rcases eq_or_ne id c with rfl | hidc
    · obtain ⟨_, -, hin'⟩ := h.exists_mid hcounts (fun ht => hnot (hdone ht)) hin
      obtain ⟨hw', hnew⟩ := ih hrest fun _ => by simp
      exact ⟨.fresh hnot' hin' hw', hnew⟩
    · have hkids : ∀ b ∈ kids id, counts b ∧ b ≠ t := fun b hb =>
        ⟨h.closed id hcounts b hb, fun he => hidc (h.only id hcounts (he ▸ hb))⟩
      obtain ⟨hin', hmid⟩ := ihin hkids hdone
      obtain ⟨hw', hnew⟩ := ih hrest fun ht => mem_append_left _ (hmid
        ((List.mem_append.mp ht).resolve_right (by simpa using hidt.symm)))
      rw [← h.other id hidc hidt] at hin'
      exact ⟨.fresh hnot' hin' hw', hnew⟩

/-- If nothing comes after the node among what the other one needs, the two stand side by
side. -/
theorem adjoins (hrear : rear = []) (hw : Walk kids done todo done')
    (htodo : ∀ x ∈ todo, counts x ∧ x ≠ t) (hdone : t ∈ done → c ∈ done)
    (hside : c ∈ done → ∃ l r, done = l ++ t :: c :: r) :
    c ∈ done' → ∃ l r, done' = l ++ t :: c :: r := by
  have hprefix {l m : List NodeId} (hpre : l <+: m) (hl : ∃ a b, l = a ++ t :: c :: b) :
      ∃ a b, m = a ++ t :: c :: b := by
    obtain ⟨a, b, rfl⟩ := hl
    obtain ⟨rest, rfl⟩ := hpre
    exact ⟨a, b ++ rest, by simp⟩
  induction hw with
  | nil => exact hside
  | seen _ _ ih => exact ih (fun x hx => htodo x (mem_cons_of_mem _ hx)) hdone hside
  | @fresh id done todo mid done' hnot hin hw ihin ih =>
    obtain ⟨hcounts, hidt⟩ := htodo id mem_cons_self
    have hrest : ∀ x ∈ todo, counts x ∧ x ≠ t := fun x hx => htodo x (mem_cons_of_mem _ hx)
    rcases eq_or_ne id c with rfl | hidc
    · obtain ⟨m, hlast, -⟩ := h.exists_mid hcounts (fun ht => hnot (hdone ht)) hin
      rw [hrear] at hlast
      cases hlast
      exact fun _ => hprefix hw.isPrefix ⟨m, [], by simp⟩
    · have hkids : ∀ b ∈ kids id, counts b ∧ b ≠ t := fun b hb =>
        ⟨h.closed id hcounts b hb, fun he => hidc (h.only id hcounts (he ▸ hb))⟩
      have hmid := (h.walk hin hkids hdone).2
      have hback {x : NodeId} (hx : x ∈ mid ++ [id]) (hne : x ≠ id) : x ∈ mid :=
        (List.mem_append.mp hx).resolve_right (by simpa using hne)
      refine ih hrest (fun ht => mem_append_left _ (hmid (hback ht hidt.symm))) fun hc => ?_
      exact hprefix (prefix_append _ _) (ihin hkids hdone hside (hback hc hidc.symm))

/-! ### Places -/

variable {roots order : List NodeId} {x : NodeId}

section Places

variable (hw : Walk kids [] roots order)

include hw

/-- Whoever stands in front of a place, the node does if the other one does. -/
theorem count_before_le (x : NodeId) :
    (Graph.before order x).count c ≤ (Graph.before order x).count t := by
  have hnodup : order.Nodup := hw.nodup h.lt nodup_nil
  by_cases hc : c ∈ Graph.before order x
  · obtain ⟨l, r, hl⟩ := append_of_mem hc
    have horder : order = l ++ c :: (r ++ order.drop (order.idxOf x)) := by
      rw [← cons_append, ← append_assoc, ← hl]
      exact (take_append_drop _ _).symm
    have ht : t ∈ l := hw.above (above_nil _) l c _ horder t h.mem_kids
    have htake : (Graph.before order x).Nodup := hnodup.sublist (take_sublist _ _)
    rw [count_eq_one_of_mem htake hc]
    exact List.count_pos_iff.mpr (hl ▸ mem_append_left _ ht)
  · rw [count_eq_zero_of_not_mem hc]
    exact Nat.zero_le _

theorem before_without (hx : x ∈ order) (hne : x ≠ t) :
    Graph.before (without t order) x = without t (Graph.before order x) := by
  have hnodup : order.Nodup := hw.nodup h.lt nodup_nil
  obtain ⟨l, r, rfl⟩ := append_of_mem hx
  have hnot : x ∉ l := fun hmem => disjoint_of_nodup_append hnodup hmem mem_cons_self
  have hsplit : without t (l ++ x :: r) = without t l ++ x :: without t r := by
    simp [without, hne]
  rw [hsplit, Graph.before_concat fun hmem => hnot (mem_without.mp hmem).1,
    Graph.before_concat hnot]

end Places

section Graphs

variable {g g' : Graph} (hg : Contracts g.kids g'.kids counts rank c t front rear)
  (hw : Walk g.kids [] roots order)

omit h

include hg hw

/-- **A node that goes leaves fewer cells**, if the other node takes over what it had but for some
of them. -/
theorem cellsOf_add_le {n : ℕ} (hroots : ∀ x ∈ roots, counts x ∧ x ≠ t)
    (hother : ∀ y, y ≠ c → y ≠ t → (g'.node y).cellCount = (g.node y).cellCount)
    (hc : (g'.node c).cellCount + n ≤ (g.node c).cellCount + (g.node t).cellCount) :
    g'.cellsOf (without t order) + order.count t * n ≤ g.cellsOf order := by
  have hnodup : order.Nodup := hw.nodup hg.lt nodup_nil
  -- The two nodes are both in the walk or both not.
  have hmem : t ∈ order ↔ c ∈ order :=
    ⟨(hg.walk hw hroots (by simp)).2, fun hc => hw.mem_of_mem_kids hc hg.mem_kids⟩
  have hcount : order.count c = order.count t := by
    rw [hnodup.count, hnodup.count]
    simp only [hmem]
  have hsum := sum_without_add_le hg.ne hother hc hcount.le
  rwa [hcount] at hsum

/-- **No node moves up**, if the other node takes over at most the cells of the node. -/
theorem offsetIn_le (hother : ∀ y, y ≠ c → y ≠ t → (g'.node y).cellCount = (g.node y).cellCount)
    (hc : (g'.node c).cellCount ≤ (g.node c).cellCount + (g.node t).cellCount)
    (hx : x ∈ order) (hne : x ≠ t) : g'.offsetIn (without t order) x ≤ g.offsetIn order x := by
  rw [Graph.offsetIn, hg.before_without hw hx hne]
  have hsum := sum_without_add_le (n := 0) hg.ne hother hc (hg.count_before_le hw x)
  rwa [Nat.mul_zero, Nat.add_zero] at hsum

end Graphs

end Contracts

end TypeLayout
