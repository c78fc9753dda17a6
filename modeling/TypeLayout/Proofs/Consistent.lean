import TypeLayout.Proofs.Requests
import TypeLayout.Proofs.Tidy

/-!
# Consistent sessions

What a session promises between any two passes (`Session.Consistent`): numbers of nodes are
in range wherever they are kept, links and members run in no circle, links of what is left
lead to what is left and is defined, references are counted right, runs are merged, members
belong to one union, sizes are padded, and a requested node is never merged into another
one.

It holds after any number of sources, those that could not be read included, after the
requested names have been looked up, found or not, and after merging
(`Session.consistent_passes`). There is nothing new to prove about the graph here; the file
collects what soundness and tidiness say, and adds what a session keeps around its graph.
-/

namespace TypeLayout

/-- A link or a member leads from one node to another. -/
def Graph.Edge (g : Graph) (a b : NodeId) : Prop :=
  b ∈ (g.node a).members ∨ ∃ item ∈ (g.node a).items, item.kind.link? = some b

/-- **A consistent graph.** -/
structure Graph.Consistent (g : Graph) : Prop where
  inRange : ∀ a b, g.Edge a b → a < g.size ∧ b < g.size
  /-- Links and members run in no circle. -/
  acyclic : WellFounded fun b a => g.Edge a b
  structLink : ∀ id, (g.node id).removed = false → ∀ item ∈ (g.node id).items, ∀ t,
    item.kind = .structLink t → (g.node t).kind = .struct ∧ (g.node t).isDefined = true ∧
      (g.node t).removed = false
  unionLink : ∀ id, (g.node id).removed = false → ∀ item ∈ (g.node id).items, ∀ t,
    item.kind = .unionLink t → (g.node t).kind = .union ∧ (g.node t).isDefined = true ∧
      (g.node t).removed = false
  refs : ∀ id, (g.node id).removed = false → (g.node id).refs = g.uses id
  runs : ∀ id, Graph.Compact (g.node id).items
  owned : g.Owned
  sized : ∀ id, (g.node id).isDefined = true →
    (g.node id).align ∈ [1, 2, 4, 8] ∧ (g.node id).align ∣ (g.node id).length

/-- **A consistent session**: its graph is consistent, the numbers that names are bound to
are in range, and so are those of the requested nodes, which are marked and left. -/
structure Session.Consistent (s : Session) : Prop where
  graph : s.graph.Consistent
  registry : ∀ b ∈ s.registry.bindings, b.node < s.graph.size
  keys : ∀ key ∈ s.keys.keys, ∀ id, key.node = some id →
    id < s.graph.size ∧ (s.graph.node id).isKey = true
  kept : ∀ id, (s.graph.node id).isKey = true → (s.graph.node id).removed = false

namespace Graph

variable {g g' : Graph}

theorem Settled.consistent (h : g.Settled) (ht : g.Tidy) : g.Consistent where
  inRange a b hab := by
    refine ⟨?_, lt_size_of_isDefined ((h.nodes a).isDefined_of_mem_children
      ((h.nodes a).mem_children.mpr hab))⟩
    by_contra hle
    rw [Edge, node_of_le (Nat.le_of_not_lt hle)] at hab
    simp [default] at hab
  acyclic := by
    obtain ⟨rank, hr⟩ := h.ranked
    refine Subrelation.wf (fun {b a} hab => ?_) (measure rank).wf
    exact hr.lt a b ((h.nodes a).mem_children.mpr hab)
  structLink id hid item hi t hk := by
    have hleads := (h.nodes id).leads item hi
    rw [hk] at hleads
    refine ⟨hleads.1, hleads.2, h.live id hid t ((h.nodes id).mem_children.mpr (.inr ⟨item, hi, ?_⟩))⟩
    rw [hk]
    rfl
  unionLink id hid item hi t hk := by
    have hleads := (h.nodes id).leads item hi
    rw [hk] at hleads
    refine ⟨hleads.1, hleads.2, h.live id hid t ((h.nodes id).mem_children.mpr (.inr ⟨item, hi, ?_⟩))⟩
    rw [hk]
    rfl
  refs := h.refs
  runs id := (ht.nodes id).runs
  owned := ht.owned
  sized id hid := by
    refine ⟨(h.nodes id).align, (h.nodes id).padded fun hs => ?_⟩
    simp [Node.isDefined, hs] at hid

/-! ### Requested nodes under merging -/

/-- What merging never changes: what is marked and what is defined, and which nodes are
members; and it removes nothing that is marked. -/
structure KeepsMarks (g g' : Graph) : Prop where
  size : g'.size = g.size
  isKey : ∀ id, (g'.node id).isKey = (g.node id).isKey
  isDefined : ∀ id, (g'.node id).isDefined = (g.node id).isDefined
  isMember : ∀ id, (g'.node id).kind = .unionMember ↔ (g.node id).kind = .unionMember
  kept : ∀ id, (g.node id).isKey = true → (g.node id).removed = false →
    (g'.node id).removed = false

theorem Settled.keepsMarks (h : g.Settled) (hm : g.Merge g') : g.KeepsMarks g' := by
  cases hm with
  | @splice c t k hc ht hi hne hl =>
    have hs : g.Splices c t k := ⟨h, hc, ht, hi, hne⟩
    refine ⟨size_splice, fun id => by rw [hs.node id], fun id => by rw [hs.node id]; rfl,
      fun id => by rw [hs.node id], fun id hkey hid => ?_⟩
    refine (hs.kept_iff id).mpr ⟨?_, hid⟩
    rintro rfl
    rw [ht.isKey] at hkey
    cases hkey
  | @adopt c u hc hu hk hi hlen hal =>
    have ha : g.Adopts c u := ⟨h, hc, hu, hk, hi, hlen, hal⟩
    refine ⟨size_adopt, fun id => by rw [ha.node id], fun id => by rw [ha.node id]; rfl,
      fun id => ?_, fun id hkey hid => ?_⟩
    · rw [ha.node id]
      by_cases hid : id = c
      · simp [hid, hk]
      · simp [hid]
    · refine (ha.kept_iff id).mpr ⟨?_, hid⟩
      rintro rfl
      rw [hu.isKey] at hkey
      cases hkey

theorem KeepsMarks.trans {g'' : Graph} (h : g.KeepsMarks g') (h' : g'.KeepsMarks g'') :
    g.KeepsMarks g'' where
  size := h'.size.trans h.size
  isKey id := (h'.isKey id).trans (h.isKey id)
  isDefined id := (h'.isDefined id).trans (h.isDefined id)
  isMember id := (h'.isMember id).trans (h.isMember id)
  kept id hkey hid := h'.kept id ((h.isKey id).trans hkey) (h.kept id hkey hid)

theorem Settled.keepsMarks_merges (h : g.Settled) (hm : Relation.ReflTransGen Merge g g') :
    g.KeepsMarks g' := by
  induction hm with
  | refl => exact ⟨rfl, fun _ => rfl, fun _ => rfl, fun _ => Iff.rfl, fun _ _ hid => hid⟩
  | tail hsteps hstep ih => exact ih.trans ((h.merges hsteps).keepsMarks hstep)

end Graph

namespace Session

variable {s s' : Session}

/-! ### Sources -/

/-- Sources read into one session, one after the other, whether they can be read or not. Each
has its own evaluator and its own number of lines for messages. -/
def readAll (s : Session) (sources : List (Evaluator × String × ℕ)) : Session :=
  sources.foldl (fun s (eval, source, contextLines) => (s.readSource eval source contextLines).1) s

/-- **Between two sources.** -/
structure Idle (s : Session) : Prop extends s.Ready {} where
  tidy : s.graph.Tidy

theorem Idle.advances (h : s.Idle) (ha : s.Advances s') : s'.Idle :=
  ⟨h.toReady.advances ha, h.tidy.builds h.sound ha.builds⟩

theorem idle_start (names : Names) (keys : KeyList) (target : Target) :
    (start names keys target).Idle :=
  ⟨ready_start names keys target, (Graph.tidy_empty target).builds (Graph.sound_empty target)
    (moves_start names keys target).builds⟩

theorem Idle.advances_readAll (h : s.Idle) (sources : List (Evaluator × String × ℕ)) :
    s.Advances (s.readAll sources) := by
  induction sources generalizing s with
  | nil => exact (Moves.refl s).advances
  | cons x sources ih =>
    obtain ⟨eval, source, contextLines⟩ := x
    have hread := advances_readSource h.toReady eval source contextLines
    exact hread.trans (ih (h.advances hread))

theorem Idle.readAll (h : s.Idle) (sources : List (Evaluator × String × ℕ)) :
    (s.readAll sources).Idle :=
  h.advances (h.advances_readAll sources)

/-- No name has been looked up. -/
def Unresolved (keys : KeyList) : Prop := ∀ key ∈ keys.keys, key.node = none

theorem Idle.consistent (h : s.Idle) (hk : Unresolved s.keys) : s.Consistent where
  graph := h.sound.settled.consistent h.tidy
  registry b hb := by
    obtain ⟨-, -, hlt, -⟩ := h.bound b hb
    exact hlt
  keys key hkey id hid := by
    rw [hk key hkey] at hid
    cases hid
  kept id _ := h.sound.kept id

/-! ### Looking names up -/

theorem Idle.settled_resolveKeys (h : s.Idle) : s.resolveKeys.1.graph.Settled ∧
    s.resolveKeys.1.graph.Tidy := by
  refine ⟨(sound_resolveKeys h.sound).settled, ?_⟩
  rw [graph_resolveKeys]
  exact h.tidy.builds h.sound (s.graph.builds_mark _)

/-- **Looking names up**, whether all of them are found or not. -/
theorem Idle.consistent_resolveKeys (h : s.Idle) (hk : Unresolved s.keys) :
    s.resolveKeys.1.Consistent where
  graph := h.settled_resolveKeys.1.consistent h.settled_resolveKeys.2
  registry b hb := by
    obtain ⟨notices, heq⟩ := s.exists_resolveKeys_eq
    rw [heq] at hb ⊢
    exact (s.graph.size_mark _).symm ▸ (h.consistent hk).registry b hb
  keys key hkey id hid := by
    rw [keys_resolveKeys] at hkey
    obtain ⟨key', hkey', rfl⟩ := List.mem_map.mp hkey
    have hfound : s.resolve? key' = some id := by simpa [hk key' hkey'] using hid
    have hlt : id < s.graph.size :=
      Graph.lt_size_of_isDefined (Option.filter_eq_some_iff.mp hfound).2
    rw [graph_resolveKeys, Graph.size_mark]
    exact ⟨hlt, Graph.isKey_mark hlt (.inr (List.mem_filterMap.mpr ⟨key', hkey', hfound⟩))⟩
  kept id _ := (sound_resolveKeys h.sound).kept id

/-! ### Merging -/

theorem Consistent.inlineStructs (h : s.Consistent) (hs : s.graph.Settled) (ht : s.graph.Tidy) :
    s.inlineStructs.1.Consistent := by
  have hmerges := s.graph.merges_inlineStructs
  have hmarks := hs.keepsMarks_merges hmerges
  rw [inlineStructs_eq]
  refine ⟨(hs.merges hmerges).consistent (ht.merges hs hmerges), fun b hb => ?_,
    fun key hkey id hid => ?_, fun id hkey => ?_⟩
  · exact hmarks.size.symm ▸ h.registry b hb
  · rw [hmarks.size, hmarks.isKey]
    exact h.keys key hkey id hid
  · rw [hmarks.isKey] at hkey
    exact hmarks.kept id hkey (h.kept id hkey)

/-- **Every pass leaves a consistent session**: reading any number of sources, the last of
which or any other may be refused, then looking the requested names up, then merging. -/
theorem consistent_passes (names : Names) {keys : KeyList} (target : Target)
    (hkeys : ∀ key ∈ keys.keys, key.node = none) (sources : List (Evaluator × String × ℕ)) :
    let read := (start names keys target).readAll sources
    read.Consistent ∧ read.resolveKeys.1.Consistent ∧
      read.resolveKeys.1.inlineStructs.1.Consistent := by
  intro read
  have hstart := idle_start names keys target
  have hread : read.Idle := hstart.readAll sources
  have hunresolved : Unresolved read.keys := by
    have hsame : (start names keys target).keys = keys :=
      (moves_start names keys target).keys
    rw [(hstart.advances_readAll sources).keys, hsame]
    exact hkeys
  obtain ⟨hsettled, htidy⟩ := hread.settled_resolveKeys
  have hresolved := hread.consistent_resolveKeys hunresolved
  exact ⟨hread.consistent hunresolved, hresolved, hresolved.inlineStructs hsettled htidy⟩

/-- The second source ends inside a union that uses what the first one declares. -/
theorem consistent_passes_refused :
    let key := KeyList.makeKey {} .struct "outer" 1
    let s := start key.2 ⟨[key.1]⟩ .standard
    let first := "struct inner { int n; }; struct outer { struct inner i; char t; };"
    let second := "union u \x7b struct outer o; union { char c; } v;"
    let eval : Evaluator := fun _ => .error .noCompiler
    let read := s.readAll [(eval, first, 1), (eval, second, 1)]
    (∀ k ∈ [key.1], k.node = none) ∧
      ((s.readSource eval first 1).1.readSource eval second 1).2.isOk = false ∧
      read.resolveKeys.2.isOk = true ∧ read.resolveKeys.1.inlineStructs.2.inlined = 1 ∧
      read.Consistent ∧ read.resolveKeys.1.Consistent ∧
        read.resolveKeys.1.inlineStructs.1.Consistent := by
  intro key s first second eval read
  have hkeys : ∀ k ∈ [key.1], k.node = none := by decide +kernel
  exact ⟨hkeys, by decide +kernel, by decide +kernel, by decide +kernel,
    consistent_passes key.2 .standard hkeys [(eval, first, 1), (eval, second, 1)]⟩

end Session

end TypeLayout
