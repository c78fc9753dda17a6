import TypeLayout.Proofs.Faithful
import TypeLayout.Proofs.Flaws
import TypeLayout.Proofs.Shrinking

/-!
# What merging saves

Each step of merging takes one node away, and its container takes over what the node described.
Three cells are not needed any more: the length of the node and the link to it, which takes two. So
the table gets shorter by at least three cells for every node of it that has gone
(`Session.inlineStructs_saves_cells`), and by more where runs of elements meet. Nodes that are not
in the table may go as well; nothing is saved by them, but they are counted: there are as many
nodes that have gone as merges and adoptions in the statistics.
-/

namespace TypeLayout

namespace Graph

variable {g g' : Graph} {p p' : Inlining} {c t u : NodeId} {k : ℕ}
  {roots order gone : List NodeId}

/-! ### One step -/

/-- **A step takes one node away**, and three cells with it if the node was in the walk. -/
structure Drops (g g' : Graph) (t : NodeId) : Prop where
  kept : (g.node t).removed = false
  removed : ∀ x, (g'.node x).removed = true ↔ (g.node x).removed = true ∨ x = t
  walk : ∀ roots order, g.Serves roots → Walk g.kids [] roots order →
    g'.Serves roots ∧ Walk g'.kids [] roots (without t order) ∧
      g'.cellsOf (without t order) + order.count t * 3 ≤ g.cellsOf order

theorem Splices.drops (h : g.Splices c t k) (hl : g.keepsLayout c k t = true) :
    g.Drops (g.splice c k t) t where
  kept := h.spare.kept
  removed x := by
    rw [← Bool.not_eq_false, h.kept_iff x, not_and_or, Bool.not_eq_false, ne_eq, not_not, or_comm]
  walk roots order hs hw := by
    obtain ⟨rank, hr⟩ := h.settled.ranked
    have hcon := h.contracts hr
    have hroots := hs.kept_ne h.spare
    refine ⟨hs.merge (.splice h.takes h.spare h.item h.filled hl),
      (hcon.walk hw hroots (by simp)).1, ?_⟩
    exact hcon.cellsOf_add_le hw hroots (fun y hyc _ => h.cellCount_of_ne hyc) h.cellCount_add_le

theorem Adopts.drops (h : g.Adopts c u) : g.Drops (Inlining.adopt g c u) u where
  kept := h.spare.kept
  removed x := by
    rw [← Bool.not_eq_false, h.kept_iff x, not_and_or, Bool.not_eq_false, ne_eq, not_not, or_comm]
  walk roots order hs hw := by
    obtain ⟨rank, hr⟩ := h.settled.ranked
    have hcon := h.contracts hr
    have hroots := hs.kept_ne h.spare
    refine ⟨hs.merge (.adopt h.takes h.spare h.kind h.items h.length h.align),
      (hcon.walk hw hroots (by simp)).1, ?_⟩
    exact hcon.cellsOf_add_le hw hroots (fun y hyc _ => h.cellCount_of_ne hyc) h.cellCount_add_le

/-! ### The whole pass -/

/-- **The nodes that have gone**, some way into the pass: they are counted, and a walk goes on
without them and takes three cells less for each of them that was in it. -/
structure Sheds (g : Graph) (p : Inlining) (gone : List NodeId) : Prop where
  settled : p.graph.Settled
  nodup : gone.Nodup
  mem_iff : ∀ x, x ∈ gone ↔ (p.graph.node x).removed = true
  length : gone.length = p.stats.inlined + p.stats.adopted
  walk : ∀ roots order, g.Serves roots → Walk g.kids [] roots order →
    p.graph.Serves roots ∧ Walk p.graph.kids [] roots (order.filter (· ∉ gone)) ∧
      p.graph.cellsOf (order.filter (· ∉ gone)) + 3 * order.countP (· ∈ gone) ≤ g.cellsOf order

theorem Sheds.refl (hs : g.Settled) (hkept : ∀ x, (g.node x).removed = false) :
    g.Sheds { graph := g } [] where
  settled := hs
  nodup := List.nodup_nil
  mem_iff x := by simp [hkept x]
  length := rfl
  walk roots order hserves hw := by simpa using ⟨hserves, hw⟩

/-- A node that has gone is counted where it was left over before. -/
theorem countP_mem_cons (hnot : t ∉ gone) (order : List NodeId) :
    order.countP (· ∈ t :: gone) =
      (order.filter (· ∉ gone)).count t + order.countP (· ∈ gone) := by
  induction order with
  | nil => rfl
  | cons x order ih =>
    rw [List.countP_cons, List.countP_cons, ih]
    by_cases hgone : x ∈ gone
    · simp [hgone]
      omega
    · by_cases hx : x = t
      · simp [hx, hnot]
        omega
      · simp [hgone, hx]

/-- One more node has gone. -/
theorem Sheds.drop (h : g.Sheds p gone) (hd : p.graph.Drops g' t) (hs : g'.Settled)
    {stats : InliningStats}
    (hstats : stats.inlined + stats.adopted = p.stats.inlined + p.stats.adopted + 1)
    (notices : Array Notice) : g.Sheds ⟨g', stats, notices⟩ (t :: gone) where
  settled := hs
  nodup := by
    refine List.nodup_cons.mpr ⟨fun hmem => ?_, h.nodup⟩
    exact absurd ((h.mem_iff t).mp hmem) (by simp [hd.kept])
  mem_iff x := by rw [List.mem_cons, h.mem_iff, hd.removed, or_comm]
  length := by rw [List.length_cons, h.length, hstats]
  walk roots order hserves hw := by
    obtain ⟨hserves', hw', hcells⟩ := h.walk roots order hserves hw
    obtain ⟨hserves'', hw'', hcells'⟩ := hd.walk roots _ hserves' hw'
    have hwithout : without t (order.filter (· ∉ gone)) = order.filter (· ∉ t :: gone) := by
      rw [without, List.filter_filter]
      refine List.filter_congr fun x _ => ?_
      simp [not_or]
    have hnot : t ∉ gone := fun hmem => absurd ((h.mem_iff t).mp hmem) (by simp [hd.kept])
    have hcount := countP_mem_cons hnot order
    rw [hwithout] at hw'' hcells'
    refine ⟨hserves'', hw'', ?_⟩
    dsimp only
    omega

/-- **One step of the pass** takes at most one node away and counts it. -/
theorem Sheds.step (h : g.Sheds p gone) (hm : LoggedMerge p p') : ∃ gone', g.Sheds p' gone' := by
  have hsettled := h.settled.merges hm.merges
  cases hm with
  | @splice c t k hc ht hi hne hl =>
    have hs : p.graph.Splices c t k := ⟨h.settled, hc, ht, hi, hne⟩
    exact ⟨t :: gone, h.drop (hs.drops hl) hsettled (by simp only; omega) _⟩
  | @adopt c u hc hu hk hi hlen hal =>
    have ha : p.graph.Adopts c u := ⟨h.settled, hc, hu, hk, hi, hlen, hal⟩
    exact ⟨u :: gone, h.drop ha.drops hsettled (by simp only; omega) _⟩
  | note rejected n => exact ⟨gone, h.settled, h.nodup, h.mem_iff, h.length, h.walk⟩

/-- **The whole pass** counts the nodes that it takes away. -/
theorem Sheds.steps (h : g.Sheds p gone) (hm : Relation.ReflTransGen LoggedMerge p p') :
    ∃ gone', g.Sheds p' gone' := by
  induction hm with
  | refl => exact ⟨gone, h⟩
  | tail _ hstep ih =>
    obtain ⟨mid, hmid⟩ := ih
    exact hmid.step hstep

theorem exists_sheds_inlineStructs (h : g.Sound) : ∃ gone, g.Sheds g.inlineStructs gone :=
  (Sheds.refl h.settled h.kept).steps g.logged_inlineStructs

end Graph

namespace Session

variable {s s₁ s₂ : Session} {gone : List NodeId}

/-- A node that merging takes away. -/
def MergesAway (s : Session) (id : NodeId) : Prop :=
  (s.graph.node id).removed = false ∧ (s.inlineStructs.1.graph.node id).removed = true

theorem mergesAway_iff (hs : s.graph.Sound) (h : s.graph.Sheds s.graph.inlineStructs gone)
    (id : NodeId) : s.MergesAway id ↔ id ∈ gone := by
  rw [MergesAway, graph_inlineStructs, ← h.mem_iff id]
  exact and_iff_right (hs.kept id)

/-- The two layouts of a session, with structs as they are and with structs merged. -/
theorem Resolved.nextOffset_add_le (hr : s.Resolved) (hs : s.graph.Sound)
    (h : s.graph.Sheds s.graph.inlineStructs gone) (h₁ : s.assignOffsets = (s₁, .ok ()))
    (h₂ : s.inlineStructs.1.assignOffsets = (s₂, .ok ())) :
    s₂.nextOffset + 3 * {id | s.graph.Needs s.requested id ∧ s.MergesAway id}.ncard ≤
      s₁.nextOffset := by
  obtain ⟨order, hw⟩ := hr.exists_walk
  obtain ⟨-, hw', hcells⟩ := h.walk s.requested order hr.serves hw
  rw [← graph_inlineStructs, ← requested_inlineStructs] at hw'
  have hends := hr.layout_ends hw
  have hends' := hr.inlineStructs.layout_ends hw'
  rw [h₁] at hends
  rw [h₂] at hends'
  obtain ⟨-, hlaid, hkeys⟩ := hends
  obtain ⟨-, hlaid', -⟩ := hends'
  -- The nodes that are needed and go are those of the walk that have gone.
  have hset : {id | s.graph.Needs s.requested id ∧ s.MergesAway id} =
      ((order.filter (· ∈ gone)).toFinset : Set NodeId) := by
    ext id
    have hneeds := hlaid.mem_iff_needs id
    rw [requested, hkeys, ← requested] at hneeds
    simp only [Set.mem_ofPred_eq, ← hneeds, mergesAway_iff hs h, List.coe_toFinset,
      List.mem_filter, decide_eq_true_eq]
  have hnodup : (order.filter (· ∈ gone)).Nodup := hlaid.nodup.filter _
  rw [hset, Set.ncard_coe_finset, List.toFinset_card_of_nodup hnodup,
    ← List.countP_eq_length_filter, hlaid.laid.nextOffset, hlaid'.laid.nextOffset, graph_inlineStructs]
  exact hcells

/-- **Merging saves at least three cells for every type that it takes away.** After any sources
have been read and all requested names have been found, if the session can be laid out both with
structs as they are declared and with structs merged, the table is at least three cells shorter
with structs merged for every node that a requested one needs and that merging takes away. Whether
all names have been found or not, as many nodes are taken away as the statistics say that structs
were merged and unions adopted. -/
theorem inlineStructs_saves_cells (names : Names) (keys : KeyList) (target : Target)
    (sources : List (Evaluator × String × ℕ)) {s : Session} {found : Except LayoutError Unit}
    (h : ((start names keys target).readAll sources).resolveKeys = (s, found)) :
    (found = .ok () → ∀ s₁ s₂, s.assignOffsets = (s₁, .ok ()) →
        s.inlineStructs.1.assignOffsets = (s₂, .ok ()) →
        s₂.nextOffset + 3 * {id | s.graph.Needs s.requested id ∧ s.MergesAway id}.ncard ≤
          s₁.nextOffset) ∧
      {id | s.MergesAway id}.ncard = s.inlineStructs.2.inlined + s.inlineStructs.2.adopted := by
  have hfresh := ((idle_start names keys target).readAll sources).toFresh
  have hsound : s.graph.Sound := by
    have hsound := sound_resolveKeys hfresh.sound
    rwa [h] at hsound
  obtain ⟨gone, hgone⟩ := Graph.exists_sheds_inlineStructs hsound
  refine ⟨?_, ?_⟩
  · rintro rfl s₁ s₂ h₁ h₂
    exact (hfresh.resolved h).nextOffset_add_le hsound hgone h₁ h₂
  · have hset : {id | s.MergesAway id} = (gone.toFinset : Set NodeId) := by
      ext id
      simp only [Set.mem_ofPred_eq, mergesAway_iff hsound hgone, List.coe_toFinset]
    rw [hset, Set.ncard_coe_finset, List.toFinset_card_of_nodup hgone.nodup, hgone.length]
    rfl

/-- A struct becomes a union and is merged with another one into the requested struct, which saves
nine cells for three nodes. A fourth one goes that is not requested. -/
theorem inlineStructs_saves_cells_nested :
    let key := KeyList.makeKey {} .struct "outer" 1
    let source := "struct a { union { int i; char c; } u; }; struct b { struct a x; int n; };" ++
      "struct p { int n; }; struct outer { struct p z; struct b y; };" ++
      "struct q { int k; }; struct lone { char c; struct q w; };"
    let read := (start key.2 ⟨[key.1]⟩ .standard).readAll [(fun _ => .error .noCompiler, source, 1)]
    ∃ s s₁ s₂, read.resolveKeys = (s, .ok ()) ∧ s.assignOffsets = (s₁, .ok ()) ∧
      s.inlineStructs.1.assignOffsets = (s₂, .ok ()) ∧ s₁.nextOffset = 19 ∧ s₂.nextOffset = 10 ∧
      s₂.nextOffset + 3 * {id | s.graph.Needs s.requested id ∧ s.MergesAway id}.ncard ≤
        s₁.nextOffset ∧
      {id | s.MergesAway id}.ncard = 3 + 1 := by
  intro key source read
  have hrun : read.resolveKeys.2 = .ok () ∧ read.resolveKeys.1.assignOffsets.2 = .ok () ∧
      read.resolveKeys.1.inlineStructs.1.assignOffsets.2 = .ok () ∧
      read.resolveKeys.1.assignOffsets.1.nextOffset = 19 ∧
      read.resolveKeys.1.inlineStructs.1.assignOffsets.1.nextOffset = 10 ∧
      read.resolveKeys.1.inlineStructs.2.inlined = 3 ∧
      read.resolveKeys.1.inlineStructs.2.adopted = 1 := by decide +kernel
  generalize hs : read.resolveKeys = resolved at hrun ⊢
  obtain ⟨s, found⟩ := resolved
  obtain ⟨rfl, hplain, hmerged, hcells, hcells', hinlined, hadopted⟩ := hrun
  obtain ⟨hsaved, hcounted⟩ := inlineStructs_saves_cells key.2 ⟨[key.1]⟩ .standard _ hs
  have h₁ : s.assignOffsets = (s.assignOffsets.1, .ok ()) := by rw [← hplain]
  have h₂ : s.inlineStructs.1.assignOffsets = (s.inlineStructs.1.assignOffsets.1, .ok ()) := by
    rw [← hmerged]
  rw [hinlined, hadopted] at hcounted
  exact ⟨s, _, _, rfl, h₁, h₂, hcells, hcells', hsaved rfl _ _ h₁ h₂, hcounted⟩

end Session

end TypeLayout
