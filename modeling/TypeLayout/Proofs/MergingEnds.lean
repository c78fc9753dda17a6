import TypeLayout.Proofs.Merging

/-!
# Merging ends

The loop over the items of a container does not always get on: after a splice it looks at the
same index again, in a list that may be longer than before. It ends all the same, on every graph,
also on one whose links run in circles or whose counts and lengths are wrong. A round that stays
at its index marks a node as removed that was not, and no mark is ever taken back; any other
round leaves the graph alone and goes to the next index (`Inlining.round?_cases`).

So no run of the pass goes on for ever: the nodes to come get fewer, while one of them is treated
the nodes that are left get fewer, and between two splices the items to come do
(`Inlining.weight_lt`). The runs that start with a graph lead to what the pass returns.
-/

namespace TypeLayout

/-- The nodes that have not been merged into others. -/
def Graph.left (g : Graph) : Finset NodeId :=
  (Finset.range g.size).filter fun id => (g.node id).removed = false

theorem Graph.left_splice_ssubset {g : Graph} {container target : NodeId} {item : Item} (k : ℕ)
    (h : g.inlinable? container item = some target) :
    (g.splice container k target).left ⊂ g.left := by
  obtain ⟨-, hkept, hlt⟩ := inlinable?_eq_some h
  have hsize : (g.splice container k target).size = g.size := by
    rw [splice_eq, size_modify, size_modify, size_releases]
  refine Finset.ssubset_iff_of_subset (fun id hid => ?_) |>.mpr ⟨target, ?_, ?_⟩
  · simp only [left, Finset.mem_filter, Finset.mem_range, hsize] at hid ⊢
    have hne : id ≠ target := by
      rintro rfl
      simp [removed_splice_self hlt] at hid
    rwa [removed_splice_of_ne hne] at hid
  · simpa [left, hlt] using hkept
  · simp [left, removed_splice_self hlt]

namespace Inlining

variable {container : NodeId} {p p' : Inlining} {k k' : ℕ}

/-! ### The rounds of the loop -/

/-- **One round** of the loop over the items of a container, at item `k`. There is none behind
the last item. -/
def round? (container : NodeId) (p : Inlining) (k : ℕ) : Option (Inlining × ℕ) :=
  (p.graph.node container).items[k]?.map fun item =>
    match p.graph.inlinable? container item with
    | none => (p, k + 1)
    | some target =>
      if p.graph.keepsLayout container k target then
        ({ graph := p.graph.splice container k target
           stats := { p.stats with inlined := p.stats.inlined + 1 }
           notices := p.notices.push (.inlined target container k) }, k)
      else
        ({ p with
           stats := { p.stats with rejected := p.stats.rejected + 1 }
           notices := p.notices.push (.wouldMove target container) }, k + 1)

/-- What a round can do. -/
theorem round?_cases (h : round? container p k = some (p', k')) :
    k < (p.graph.node container).items.length ∧
      (k' = k + 1 ∧ p'.graph = p.graph ∨
        k' = k ∧ ∃ item target, p.graph.inlinable? container item = some target ∧
          p'.graph = p.graph.splice container k target) := by
  obtain ⟨item, hitem, hround⟩ := Option.map_eq_some_iff.mp h
  refine ⟨(List.getElem?_eq_some_iff.mp hitem).1, ?_⟩
  split at hround
  · cases hround
    exact .inl ⟨rfl, rfl⟩
  · rename_i target htarget
    split at hround <;> cases hround
    · exact .inr ⟨rfl, item, target, htarget, rfl⟩
    · exact .inl ⟨rfl, rfl⟩

/-- The loop goes on after a round as if it had started there. -/
theorem inlineFrom_of_round? (h : round? container p k = some (p', k')) :
    inlineFrom container p k = inlineFrom container p' k' := by
  obtain ⟨item, hitem, hround⟩ := Option.map_eq_some_iff.mp h
  rw [inlineFrom]
  split
  · simp_all
  · rename_i item' hitem'
    obtain rfl : item = item' := Option.some.inj (hitem.symm.trans hitem')
    split <;> rename_i htarget <;> rw [htarget] at hround
    · cases hround
      rfl
    · dsimp only at hround
      split at hround <;> rename_i hkeeps <;> cases hround
      · rw [if_pos hkeeps]
      · rw [if_neg hkeeps]

theorem inlineFrom_of_last (h : round? container p k = none) : inlineFrom container p k = p := by
  have hnone : (p.graph.node container).items[k]? = none := Option.map_eq_none_iff.mp h
  rw [inlineFrom]
  split
  · rfl
  · simp_all

/-! ### The pass -/

/-- Where the pass is, with the nodes that are still to come: between two nodes, or at an item of
a container. -/
inductive Point where
  | between (rest : List NodeId)
  | item (container : NodeId) (k : ℕ) (rest : List NodeId)

/-- **One step of the pass.** -/
inductive Step : Inlining × Point → Inlining × Point → Prop
  /-- Nothing can be merged into a node. -/
  | skip {p : Inlining} {id : NodeId} {rest : List NodeId} (h : ¬ p.graph.Takes id) :
    Step (p, .between (id :: rest)) (p, .between rest)
  | enter {p : Inlining} {id : NodeId} {rest : List NodeId} (h : p.graph.Takes id) :
    Step (p, .between (id :: rest)) (p, .item id 0 rest)
  | round {p p' : Inlining} {container : NodeId} {k k' : ℕ} {rest : List NodeId}
    (h : round? container p k = some (p', k')) :
    Step (p, .item container k rest) (p', .item container k' rest)
  /-- After the last item, the container may become the union that it holds. -/
  | leave {p : Inlining} {container : NodeId} {k : ℕ} {rest : List NodeId}
    (h : round? container p k = none) :
    Step (p, .item container k rest) (adoptUnion container p, .between rest)

/-- Any number of steps. -/
abbrev Steps : Inlining × Point → Inlining × Point → Prop := Relation.ReflTransGen Step

/-- What gets less with every step. -/
def weight : Inlining × Point → ℕ ×ₗ ℕ ×ₗ ℕ
  | (_, .between rest) => toLex (2 * rest.length, toLex (0, 0))
  | (p, .item container k rest) =>
    toLex (2 * rest.length + 1,
      toLex (p.graph.left.card, (p.graph.node container).items.length - k))

/-- Passing a node over and leaving a container take it off the nodes to come, a splice takes one
off those that are left, and any other round gets on in the items. -/
theorem weight_lt {x x' : Inlining × Point} (h : Step x x') : weight x' < weight x := by
  cases h with
  | skip => exact Prod.Lex.left _ _ (Nat.mul_lt_mul_of_pos_left (Nat.lt_succ_self _) two_pos)
  | enter =>
    refine Prod.Lex.left _ _ ?_
    simp only [List.length_cons]
    omega
  | round h =>
    refine Prod.Lex.right _ ?_
    obtain ⟨hk, ⟨rfl, hgraph⟩ | ⟨rfl, item, target, htarget, hgraph⟩⟩ := round?_cases h
    · rw [hgraph]
      exact Prod.Lex.right _ (by omega)
    · rw [hgraph]
      exact Prod.Lex.left _ _ (Finset.card_lt_card (Graph.left_splice_ssubset _ htarget))
  | leave => exact Prod.Lex.left _ _ (Nat.lt_succ_self _)

/-- No run of the pass goes on for ever. -/
theorem wellFounded_step : WellFounded fun x' x => Step x x' :=
  Subrelation.wf (fun h => weight_lt h) (InvImage.wf weight wellFounded_lt)

/-- **The loop over the items of a container** ends behind the last one. -/
theorem exists_steps_inlineFrom (container : NodeId) (p : Inlining) (k : ℕ) (rest : List NodeId) :
    ∃ k', round? container (inlineFrom container p k) k' = none ∧
      Steps (p, .item container k rest) (inlineFrom container p k, .item container k' rest) := by
  generalize hx : (p, Point.item container k rest) = x
  induction x using wellFounded_step.induction generalizing p k with
  | _ x ih =>
    subst hx
    cases hround : round? container p k with
    | none =>
      rw [inlineFrom_of_last hround]
      exact ⟨k, hround, .refl⟩
    | some r =>
      have hstep : Step (p, .item container k rest) (r.1, .item container r.2 rest) := .round hround
      rw [inlineFrom_of_round? hround]
      obtain ⟨k', hlast, hsteps⟩ := ih _ hstep r.1 r.2 rfl
      exact ⟨k', hlast, .head hstep hsteps⟩

theorem steps_visit (p : Inlining) (id : NodeId) (rest : List NodeId) :
    Steps (p, .between (id :: rest)) (p.visit id, .between rest) := by
  by_cases htakes : p.graph.Takes id
  · have hvisit : p.visit id = adoptUnion id (inlineFrom id p 0) := by
      rcases htakes.kind with hk | hk <;> simp [visit, htakes.kept, htakes.isDefined, hk]
    obtain ⟨k', hlast, hsteps⟩ := exists_steps_inlineFrom id p 0 rest
    rw [hvisit]
    exact .head (.enter htakes) (hsteps.tail (.leave hlast))
  · have hvisit : p.visit id = p := by
      unfold visit
      dsimp only
      split
      · rfl
      · rename_i hif
        rw [not_or, not_not] at hif
        split
        · rename_i hk
          exact absurd ⟨hif.2, by simpa using hif.1, .inl hk⟩ htakes
        · rename_i hk
          exact absurd ⟨hif.2, by simpa using hif.1, .inr hk⟩ htakes
        · rfl
    rw [hvisit]
    exact .single (.skip htakes)

theorem steps_foldl_visit (p : Inlining) (ids : List NodeId) :
    Steps (p, .between ids) (ids.foldl visit p, .between []) := by
  induction ids generalizing p with
  | nil => exact .refl
  | cons id ids ih => exact (steps_visit p id ids).trans (ih (p.visit id))

end Inlining

/-- **Merging ends on every graph.** Each round of the loop over the items of a container marks a
node as removed that was not, and stays at its index, or it goes on to the next index in a list
of the same length; no mark is taken back. No run of the pass goes on for ever, wherever it
starts. The loop ends behind the last item, and the pass when no node is left to come, with what
`Graph.inlineStructs` returns. -/
theorem Graph.inlineStructs_ends :
    (∀ container p k p' k', Inlining.round? container p k = some (p', k') →
      (∀ id, (p.graph.node id).removed = true → (p'.graph.node id).removed = true) ∧
      (k' = k ∧ (∃ id, (p.graph.node id).removed = false ∧ (p'.graph.node id).removed = true) ∨
        k' = k + 1 ∧ (p'.graph.node container).items.length =
          (p.graph.node container).items.length)) ∧
    (WellFounded fun x' x => Inlining.Step x x') ∧
    (∀ container p k rest, ∃ k',
      (((p.inlineFrom container k).graph.node container).items.length ≤ k') ∧
      Inlining.Steps (p, .item container k rest)
        (p.inlineFrom container k, .item container k' rest)) ∧
    ∀ g : Graph, ∃ p, Inlining.Steps ({ graph := g }, .between (List.range g.size)) (p, .between []) ∧
      g.inlineStructs.graph = p.graph ∧ g.inlineStructs.stats = p.stats := by
  refine ⟨fun container p k p' k' h => ?_, Inlining.wellFounded_step,
    fun container p k rest => ?_, fun g => ?_⟩
  · obtain ⟨-, ⟨rfl, hgraph⟩ | ⟨rfl, item, target, htarget, hgraph⟩⟩ := Inlining.round?_cases h
    · rw [hgraph]
      exact ⟨fun _ hid => hid, .inr ⟨rfl, rfl⟩⟩
    · obtain ⟨-, hkept, hlt⟩ := inlinable?_eq_some htarget
      have hself : (p'.graph.node target).removed = true := hgraph ▸ removed_splice_self hlt
      refine ⟨fun id hid => ?_, .inl ⟨rfl, target, hkept, hself⟩⟩
      rcases eq_or_ne id target with rfl | hne
      · exact hself
      · rw [hgraph, removed_splice_of_ne hne]
        exact hid
  · obtain ⟨k', hlast, hsteps⟩ := Inlining.exists_steps_inlineFrom container p k rest
    exact ⟨k', List.getElem?_eq_none_iff.mp (Option.map_eq_none_iff.mp hlast), hsteps⟩
  · exact ⟨_, Inlining.steps_foldl_visit { graph := g } (List.range g.size), rfl, rfl⟩

end TypeLayout
