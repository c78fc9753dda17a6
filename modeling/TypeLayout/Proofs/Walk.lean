import TypeLayout.Proofs.Merging

/-!
# Depth-first walks

Two passes go through the graph from the requested nodes, first the one that assigns
offsets and then the one that writes cells. Each goes depth first and treats a node when
it leaves it, but they mark nodes in different ways: the first when a node is left, the
second when it is entered. `Walk` is the order that both follow, stated without any
marks: the nodes that have been left so far, the nodes to go to, and the nodes that have
been left in the end.

Where links do not run in a circle a walk exists from everywhere, there is only one, no
node is left twice, and all that a node needs is left before it.
-/

namespace TypeLayout

variable {id : NodeId} {kids : NodeId → List NodeId} {order : List NodeId}

/-- **A depth-first walk**: from the nodes `done` that have been left, through all nodes
of a list and what they need, to the nodes that have been left then. -/
inductive Walk (kids : NodeId → List NodeId) : List NodeId → List NodeId → List NodeId → Prop
  /-- There is nowhere to go. -/
  | nil {done : List NodeId} : Walk kids done [] done
  /-- A node has been left already. -/
  | seen {id : NodeId} {done todo done' : List NodeId} (h : id ∈ done)
    (hw : Walk kids done todo done') : Walk kids done (id :: todo) done'
  /-- A node is left after all that it needs. -/
  | fresh {id : NodeId} {done todo mid done' : List NodeId} (h : id ∉ done)
    (hin : Walk kids done (kids id) mid) (hw : Walk kids (mid ++ [id]) todo done') :
    Walk kids done (id :: todo) done'

namespace Walk

variable {kids kids' : NodeId → List NodeId} {done todo mid done' done'' l m : List NodeId}
  {id x : NodeId} {P : NodeId → Prop}

/-! ### Walks one after the other -/

theorem trans (h : Walk kids done l mid) (h' : Walk kids mid m done') :
    Walk kids done (l ++ m) done' := by
  induction h with
  | nil => exact h'
  | seen hmem _ ih => exact .seen hmem (ih h')
  | fresh hnot hin _ _ ih => exact .fresh hnot hin (ih h')

theorem of_append (h : Walk kids done (l ++ m) done') :
    ∃ mid, Walk kids done l mid ∧ Walk kids mid m done' := by
  induction l generalizing done with
  | nil => exact ⟨done, .nil, h⟩
  | cons id l ih =>
    cases h with
    | seen hmem hw =>
      obtain ⟨mid, hl, hm⟩ := ih hw
      exact ⟨mid, .seen hmem hl, hm⟩
    | fresh hnot hin hw =>
      obtain ⟨mid, hl, hm⟩ := ih hw
      exact ⟨mid, .fresh hnot hin hl, hm⟩

/-- What has been left stays in front. -/
theorem isPrefix (h : Walk kids done todo done') : done <+: done' := by
  induction h with
  | nil => exact List.prefix_refl _
  | seen _ _ ih => exact ih
  | fresh _ _ _ ihin ih => exact (ihin.trans (List.prefix_append _ _)).trans ih

theorem subset (h : Walk kids done todo done') : done ⊆ done' := h.isPrefix.subset

/-- All nodes of the list are left in the end. -/
theorem mem_of_mem_todo (h : Walk kids done todo done') (hid : id ∈ todo) : id ∈ done' := by
  induction h with
  | nil => simp at hid
  | seen hmem hw ih =>
    rcases List.mem_cons.mp hid with rfl | hid
    · exact hw.subset hmem
    · exact ih hid
  | fresh _ _ hw _ ih =>
    rcases List.mem_cons.mp hid with rfl | hid
    · exact hw.subset (by simp)
    · exact ih hid

/-- There is only one walk, whatever stands where it does not come to. -/
theorem unique_of_agree (h : Walk kids done todo done') (h' : Walk kids' done todo done'')
    (hkids : ∀ x, P x → kids' x = kids x ∧ ∀ b ∈ kids x, P b) (htodo : ∀ x ∈ todo, P x) :
    done' = done'' := by
  induction h generalizing done'' with
  | nil => cases h'; rfl
  | seen hmem _ ih =>
    cases h' with
    | seen _ hw => exact ih hw fun x hx => htodo x (List.mem_cons_of_mem _ hx)
    | fresh hnot => exact absurd hmem hnot
  | @fresh id _ _ _ _ hnot _ _ ihin ih =>
    cases h' with
    | seen hmem => exact absurd hmem hnot
    | fresh _ hin hw =>
      obtain ⟨heq, hclosed⟩ := hkids id (htodo id List.mem_cons_self)
      obtain rfl := ihin (heq ▸ hin) hclosed
      exact ih hw fun x hx => htodo x (List.mem_cons_of_mem _ hx)

theorem unique (h : Walk kids done todo done') (h' : Walk kids done todo done'') : done' = done'' :=
  h.unique_of_agree (P := fun _ => True) h' (by simp) (by simp)

/-- Going once more to a node of the list changes nothing. -/
theorem concat_iff (hid : id ∈ todo) :
    Walk kids done (todo ++ [id]) done' ↔ Walk kids done todo done' := by
  refine ⟨fun h => ?_, fun h => h.trans (.seen (h.mem_of_mem_todo hid) .nil)⟩
  obtain ⟨mid, hw, hlast⟩ := h.of_append
  cases hlast with
  | seen _ hnil =>
    cases hnil
    exact hw
  | fresh hnot => exact absurd (hw.mem_of_mem_todo hid) hnot

/-- A property of all nodes to go to that passes to what a node needs holds of all that
is left. -/
theorem forall_of_closed (h : Walk kids done todo done') (hkids : ∀ x, P x → ∀ b ∈ kids x, P b)
    (htodo : ∀ x ∈ todo, P x) : ∀ x ∈ done', x ∈ done ∨ P x := by
  induction h with
  | nil => exact fun x hx => Or.inl hx
  | seen _ _ ih => exact ih fun x hx => htodo x (List.mem_cons_of_mem _ hx)
  | @fresh id _ _ mid _ _ _ _ ihin ih =>
    have hid := htodo id List.mem_cons_self
    intro x hx
    rcases ih (fun x hx => htodo x (List.mem_cons_of_mem _ hx)) x hx with hx | hx
    · rcases List.mem_append.mp hx with hx | hx
      · exact ihin (hkids id hid) x hx
      · rw [List.mem_singleton] at hx
        exact Or.inr (hx ▸ hid)
    · exact Or.inr hx

/-- Only the nodes that can be reached are left. -/
theorem reaches (h : Walk kids done todo done') (hx : x ∈ done') :
    x ∈ done ∨ ∃ root ∈ todo, Relation.ReflTransGen (fun a b => b ∈ kids a) root x := by
  refine h.forall_of_closed (P := fun x => ∃ root ∈ todo,
    Relation.ReflTransGen (fun a b => b ∈ kids a) root x) ?_ ?_ x hx
  · rintro a ⟨root, hroot, hpath⟩ b hb
    exact ⟨root, hroot, hpath.tail hb⟩
  · exact fun root hroot => ⟨root, hroot, .refl⟩

/-! ### Walks without circles -/

variable {rank : NodeId → ℕ}

/-- What is left on the way is smaller than all that is greater than the nodes to go
to. -/
theorem rank_lt (hr : ∀ x, ∀ b ∈ kids x, rank b < rank x) (h : Walk kids done todo done') {r : ℕ}
    (htodo : ∀ x ∈ todo, rank x < r) (hx : x ∈ done') : x ∈ done ∨ rank x < r :=
  h.forall_of_closed (P := fun x => rank x < r) (fun x hx b hb => (hr x b hb).trans hx) htodo x hx

theorem not_mem_of_kids (hr : ∀ x, ∀ b ∈ kids x, rank b < rank x) (hid : id ∉ done)
    (h : Walk kids done (kids id) mid) : id ∉ mid := by
  intro hmem
  rcases h.rank_lt hr (hr id) hmem with hmem | hlt
  · exact hid hmem
  · exact Nat.lt_irrefl _ hlt

/-- No node is left twice. -/
theorem nodup (hr : ∀ x, ∀ b ∈ kids x, rank b < rank x) (h : Walk kids done todo done')
    (hdone : done.Nodup) : done'.Nodup := by
  induction h with
  | nil => exact hdone
  | seen _ _ ih => exact ih hdone
  | fresh hnot hin _ ihin ih =>
    refine ih (List.nodup_append.mpr ⟨ihin hdone, List.nodup_singleton _, fun a ha b hb hab => ?_⟩)
    rw [List.mem_singleton] at hb
    exact not_mem_of_kids hr hnot hin (hb ▸ hab ▸ ha)

/-- There is a walk from everywhere. -/
theorem exists_walk (hr : ∀ x, ∀ b ∈ kids x, rank b < rank x) (done todo : List NodeId) :
    ∃ done', Walk kids done todo done' := by
  have hbound (r : ℕ) : ∀ done todo : List NodeId, (∀ x ∈ todo, rank x < r) →
      ∃ done', Walk kids done todo done' := by
    induction r with
    | zero =>
      intro done todo htodo
      cases todo with
      | nil => exact ⟨done, .nil⟩
      | cons id todo => exact absurd (htodo id List.mem_cons_self) (Nat.not_lt_zero _)
    | succ r ih =>
      intro done todo
      induction todo generalizing done with
      | nil => exact fun _ => ⟨done, .nil⟩
      | cons id todo ihtodo =>
        intro htodo
        have hrest : ∀ x ∈ todo, rank x < r + 1 := fun x hx => htodo x (List.mem_cons_of_mem _ hx)
        by_cases hid : id ∈ done
        · obtain ⟨done', hw⟩ := ihtodo done hrest
          exact ⟨done', .seen hid hw⟩
        · have hkids : ∀ b ∈ kids id, rank b < r := fun b hb =>
            lt_of_lt_of_le (hr id b hb) (Nat.le_of_lt_succ (htodo id List.mem_cons_self))
          obtain ⟨mid, hin⟩ := ih done (kids id) hkids
          obtain ⟨done', hw⟩ := ihtodo (mid ++ [id]) hrest
          exact ⟨done', .fresh hid hin hw⟩
  refine hbound (todo.foldr (fun x r => max (rank x + 1) r) 0) done todo fun x hx => ?_
  induction todo with
  | nil => simp at hx
  | cons id todo ih =>
    rcases List.mem_cons.mp hx with rfl | hx
    · exact lt_of_lt_of_le (Nat.lt_succ_self _) (le_max_left _ _)
    · exact lt_of_lt_of_le (ih hx) (le_max_right _ _)

end Walk

/-- What a node of a list needs stands in front of it. -/
def Above (kids : NodeId → List NodeId) (order : List NodeId) : Prop :=
  ∀ l id r, order = l ++ id :: r → ∀ b ∈ kids id, b ∈ l

theorem above_nil (kids : NodeId → List NodeId) : Above kids [] := fun l id r hl => by simp at hl

theorem Above.snoc (h : Above kids order) (hid : ∀ b ∈ kids id, b ∈ order) :
    Above kids (order ++ [id]) := by
  intro l x r hl b hb
  rcases List.eq_nil_or_concat r with rfl | ⟨r, last, rfl⟩
  · obtain ⟨rfl, hx⟩ := List.append_inj' hl rfl
    obtain rfl : id = x := by simpa using hx
    exact hid b hb
  · have hl' : order ++ [id] = (l ++ x :: r) ++ [last] := by simpa using hl
    exact h l x r (List.append_inj' hl' rfl).1 b hb

/-- **All that a node needs is left before it.** -/
theorem Walk.above {done todo done' : List NodeId} (h : Walk kids done todo done')
    (hdone : Above kids done) : Above kids done' := by
  induction h with
  | nil => exact hdone
  | seen _ _ ih => exact ih hdone
  | fresh _ hin _ ihin ih => exact ih ((ihin hdone).snoc fun b hb => hin.mem_of_mem_todo hb)

theorem Walk.mem_of_mem_kids {roots : List NodeId} (h : Walk kids [] roots order) {b : NodeId}
    (hid : id ∈ order) (hb : b ∈ kids id) : b ∈ order := by
  obtain ⟨l, r, hl⟩ := List.append_of_mem hid
  rw [hl]
  exact List.mem_append_left _ (h.above (above_nil _) l id r hl b hb)

end TypeLayout
