import TypeLayout.Proofs.Merging
import TypeLayout.Proofs.SessionSound

/-!
# Requested nodes

Looking up the requested names marks the nodes that they stand for and changes nothing
else in the graph. If all of them are found, every requested node is defined. Merging
keeps it so: a marked node is never merged into another one.
-/

namespace TypeLayout

/-- A graph in which some nodes are marked as requested. -/
def Graph.mark (g : Graph) (ids : List NodeId) : Graph :=
  ids.foldl (fun g id => g.modify id fun n => { n with isKey := true }) g

namespace Graph

theorem builds_mark (g : Graph) (ids : List NodeId) :
    Relation.ReflTransGen Graph.Build g (g.mark ids) := by
  induction ids generalizing g with
  | nil => exact .refl
  | cons id ids ih =>
    refine .head (.label fun n => ?_) (ih _)
    exact ⟨⟨rfl, rfl, rfl, rfl, rfl, rfl, rfl, rfl, rfl, rfl, rfl⟩, rfl⟩

theorem size_mark (g : Graph) (ids : List NodeId) : (g.mark ids).size = g.size := by
  induction ids generalizing g with
  | nil => rfl
  | cons id ids ih => exact (ih _).trans (size_modify _ _ _)

theorem target_mark (g : Graph) (ids : List NodeId) : (g.mark ids).target = g.target := by
  induction ids generalizing g with
  | nil => rfl
  | cons id ids ih => exact ih _

/-- Marking nodes changes nothing else of them. -/
theorem node_mark_field {α : Type} (field : Node → α)
    (hf : ∀ n : Node, field { n with isKey := true } = field n) (g : Graph) (ids : List NodeId)
    (id : NodeId) : field ((g.mark ids).node id) = field (g.node id) := by
  induction ids generalizing g with
  | nil => rfl
  | cons x ids ih =>
    exact (ih _).trans (node_modify_field (fun n => { n with isKey := true }) field hf)

theorem isDefined_mark (g : Graph) (ids : List NodeId) (id : NodeId) :
    ((g.mark ids).node id).isDefined = (g.node id).isDefined :=
  node_mark_field Node.isDefined (fun _ => rfl) g ids id

theorem isKey_mark {g : Graph} {ids : List NodeId} {id : NodeId} (hid : id < g.size)
    (h : (g.node id).isKey = true ∨ id ∈ ids) : ((g.mark ids).node id).isKey = true := by
  induction ids generalizing g with
  | nil => exact h.resolve_right (by simp)
  | cons x ids ih =>
    refine ih (by simpa using hid) ?_
    rw [node_modify]
    split
    · exact Or.inl rfl
    · rename_i hne
      refine h.imp_right fun h => (List.mem_cons.mp h).resolve_left fun heq => hne ⟨heq.symm, ?_⟩
      exact heq ▸ hid

/-- **A graph that some nodes are wanted of**: it is settled, and these nodes are defined,
marked and not merged into others. -/
structure Serves (g : Graph) (roots : List NodeId) : Prop where
  settled : g.Settled
  isDefined : ∀ id ∈ roots, (g.node id).isDefined = true
  isKey : ∀ id ∈ roots, (g.node id).isKey = true
  kept : ∀ id ∈ roots, (g.node id).removed = false

variable {g g' : Graph} {roots : List NodeId}

/-- Nodes that are wanted are not spare. -/
theorem Serves.kept_ne (h : g.Serves roots) {t : NodeId} (ht : g.Spare t) :
    ∀ id ∈ roots, (g.node id).removed = false ∧ id ≠ t := by
  refine fun id hid => ⟨h.kept id hid, ?_⟩
  rintro rfl
  exact absurd (h.isKey id hid) (by simp [ht.isKey])

/-- A step of merging never takes away a node that is wanted. -/
theorem Serves.merge (h : g.Serves roots) (hm : g.Merge g') : g'.Serves roots := by
  have hsettled := h.settled.merge hm
  cases hm with
  | splice hc ht hi hne hl =>
    have hnode := Splices.node ⟨h.settled, hc, ht, hi, hne⟩
    refine ⟨hsettled, fun id hid => ?_, fun id hid => ?_, fun id hid => ?_⟩ <;> rw [hnode]
    · exact h.isDefined id hid
    · exact h.isKey id hid
    · simp [h.kept_ne ht id hid]
  | adopt hc hu hk hi hlen hal =>
    have hnode := Adopts.node ⟨h.settled, hc, hu, hk, hi, hlen, hal⟩
    refine ⟨hsettled, fun id hid => ?_, fun id hid => ?_, fun id hid => ?_⟩ <;> rw [hnode]
    · exact h.isDefined id hid
    · exact h.isKey id hid
    · simp [h.kept_ne hu id hid]

theorem Serves.merges (h : g.Serves roots) (hm : Relation.ReflTransGen Merge g g') :
    g'.Serves roots := by
  induction hm with
  | refl => exact h
  | tail _ hstep ih => exact ih.merge hstep

end Graph

namespace Session

/-! ### Looking names up -/

/-- Resolving the requested names marks the nodes that were found and binds the names to them.
A name that nothing was found for stays as it was. -/
theorem exists_resolveKeys_eq (s : Session) : ∃ notices, s.resolveKeys.1 = { s with
    graph := s.graph.mark (s.keys.keys.filterMap s.resolve?)
    keys := ⟨s.keys.keys.map fun key => { key with node := (s.resolve? key).or key.node }⟩
    notices } := by
  have hmark (ids : List NodeId) (s : Session) :
      ids.foldl markKey s = { s with graph := s.graph.mark ids } := by
    induction ids generalizing s with
    | nil => rfl
    | cons id ids ih => exact ih (s.markKey id)
  simp only [resolveKeys, hmark, List.filterMap_map, List.map_map]
  split <;> exact ⟨_, rfl⟩

theorem graph_resolveKeys (s : Session) :
    s.resolveKeys.1.graph = s.graph.mark (s.keys.keys.filterMap s.resolve?) := by
  obtain ⟨notices, h⟩ := s.exists_resolveKeys_eq
  rw [h]

theorem keys_resolveKeys (s : Session) : s.resolveKeys.1.keys.keys =
    s.keys.keys.map fun key => { key with node := (s.resolve? key).or key.node } := by
  obtain ⟨notices, h⟩ := s.exists_resolveKeys_eq
  rw [h]

theorem counters_resolveKeys (s : Session) : s.resolveKeys.1.counters = s.counters := by
  obtain ⟨notices, h⟩ := s.exists_resolveKeys_eq
  rw [h, counters, counters]

/-- The requested nodes. -/
def requested (s : Session) : List NodeId := s.keys.keys.filterMap (·.node)

variable {s s' : Session}


/-- If no name is missing, all of them lead to a node. -/
theorem exists_resolve? (h : s.resolveKeys = (s', .ok ())) {key : Key} (hkey : key ∈ s.keys.keys) :
    ∃ id, s.resolve? key = some id := by
  unfold resolveKeys at h
  dsimp only at h
  split at h
  · rename_i hempty
    refine Option.ne_none_iff_exists'.mp fun hnone => ?_
    have hmem : (key, s.resolve? key) ∈
        (s.keys.keys.map fun key => (key, s.resolve? key)).filter (·.2.isNone) :=
      List.mem_filter.mpr ⟨List.mem_map.mpr ⟨key, hkey, rfl⟩, by simp [hnone]⟩
    exact List.ne_nil_of_mem (List.mem_map_of_mem hmem) (List.isEmpty_iff.mp hempty)
  · exact absurd (Prod.mk.inj h).2 (by simp)

/-- If no name is missing, the requested nodes are those that were found. -/
theorem requested_resolveKeys (h : s.resolveKeys = (s', .ok ())) :
    s'.requested = s.keys.keys.filterMap s.resolve? ∧ s'.counters = s.counters := by
  obtain rfl : s.resolveKeys.1 = s' := congrArg Prod.fst h
  refine ⟨?_, counters_resolveKeys s⟩
  rw [requested, keys_resolveKeys, List.filterMap_map]
  refine List.filterMap_congr fun key hkey => ?_
  obtain ⟨id, hid⟩ := exists_resolve? h hkey
  simp [hid]

/-- **A session that can be laid out**: its graph has what is requested, and no node has
been placed. -/
structure Resolved (s : Session) : Prop where
  serves : s.graph.Serves s.requested
  counters : s.counters = (0, 0)

theorem sound_resolveKeys (h : s.graph.Sound) : s.resolveKeys.1.graph.Sound := by
  rw [graph_resolveKeys]
  exact h.builds (s.graph.builds_mark _)

theorem Fresh.resolved (hs : s.Fresh) (h : s.resolveKeys = (s', .ok ())) : s'.Resolved := by
  obtain ⟨hrequested, hcounters⟩ := requested_resolveKeys h
  have hgraph : s'.graph = s.graph.mark s'.requested := by
    rw [hrequested, ← graph_resolveKeys, h]
  have hsound : s'.graph.Sound := by
    have hsound := sound_resolveKeys hs.sound
    rwa [h] at hsound
  have hdefined : ∀ id ∈ s'.requested, (s.graph.node id).isDefined = true := by
    intro id hid
    rw [hrequested, List.mem_filterMap] at hid
    obtain ⟨key, -, hkey⟩ := hid
    exact (Option.filter_eq_some_iff.mp hkey).2
  refine ⟨⟨hsound.settled, fun id hid => ?_, fun id hid => ?_, fun id _ => hsound.kept id⟩,
    hcounters.trans hs.counters⟩
  · rw [hgraph, Graph.isDefined_mark]
    exact hdefined id hid
  · rw [hgraph]
    exact Graph.isKey_mark (Graph.lt_size_of_isDefined (hdefined id hid)) (Or.inr hid)

/-! ### Merging -/

theorem inlineStructs_eq (s : Session) : s.inlineStructs.1 = { s with
    graph := s.graph.inlineStructs.graph
    notices := s.notices ++ s.graph.inlineStructs.notices.toList } :=
  noteAll_eq _ _

theorem graph_inlineStructs (s : Session) : s.inlineStructs.1.graph = s.graph.inlineStructs.graph :=
  congrArg graph (inlineStructs_eq s)

theorem requested_inlineStructs (s : Session) : s.inlineStructs.1.requested = s.requested := by
  rw [requested, inlineStructs_eq, requested]

/-- Merging leaves a session that can be laid out. -/
theorem Resolved.inlineStructs (h : s.Resolved) : s.inlineStructs.1.Resolved := by
  rw [inlineStructs_eq]
  exact ⟨h.serves.merges s.graph.merges_inlineStructs, h.counters⟩

end Session

end TypeLayout
