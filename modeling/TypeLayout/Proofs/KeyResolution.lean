import TypeLayout.Proofs.Consistent

/-!
# What a requested name stands for

A requested name stands for the node that its registry spelling is bound to, if that node is
defined. A bare name whose spelling is bound to nothing stands for the defined one among its
tags, if exactly one of `struct`, `union` and `enum` has such a tag. `Session.Resolves` says so
without looking at how names are resolved.

Names are resolved one by one, and a name that stands for nothing does not keep the others from
being resolved. The main statement is `Session.resolveKeys_complete`: resolving fails exactly if
some name stands for nothing, the error lists these names in the order of the request, and failed
or not, the nodes that the other names stand for are bound to them and marked, and nothing else of
the graph changes.
-/

namespace TypeLayout

/-- Of a list without repetitions exactly one member is mapped to something. -/
theorem filterMap_eq_singleton_iff {α β : Type} {f : α → Option β} {l : List α} (hl : l.Nodup)
    {b : β} :
    l.filterMap f = [b] ↔ ∃ a ∈ l, f a = some b ∧ ∀ a' ∈ l, ∀ b', f a' = some b' → a' = a := by
  induction l with
  | nil => simp
  | cons x l ih =>
    obtain ⟨hx, hl⟩ := List.nodup_cons.mp hl
    cases hfx : f x with
    | none =>
      -- The first member counts for nothing, so the one in question is among the others.
      rw [List.filterMap_cons_none hfx, ih hl]
      constructor
      · rintro ⟨a, ha, hb, hsole⟩
        refine ⟨a, List.mem_cons_of_mem x ha, hb, fun a' ha' b' hb' => ?_⟩
        obtain rfl | ha' := List.mem_cons.mp ha'
        · simp [hfx] at hb'
        · exact hsole a' ha' b' hb'
      · rintro ⟨a, ha, hb, hsole⟩
        obtain rfl | ha := List.mem_cons.mp ha
        · simp [hfx] at hb
        · exact ⟨a, ha, hb, fun a' ha' => hsole a' (List.mem_cons_of_mem x ha')⟩
    | some c =>
      rw [List.filterMap_cons_some hfx, List.cons.injEq, List.filterMap_eq_nil_iff]
      constructor
      · rintro ⟨rfl, hnone⟩
        refine ⟨x, List.mem_cons_self, hfx, fun a' ha' b' hb' => ?_⟩
        obtain rfl | ha' := List.mem_cons.mp ha'
        · rfl
        · simp [hnone a' ha'] at hb'
      · rintro ⟨a, -, hb, hsole⟩
        obtain rfl : x = a := hsole x List.mem_cons_self c hfx
        refine ⟨Option.some.inj (hfx.symm.trans hb), fun a' ha' => ?_⟩
        by_contra hne
        obtain ⟨b', hb'⟩ := Option.ne_none_iff_exists'.mp hne
        exact hx (hsole a' (List.mem_cons_of_mem x ha') b' hb' ▸ ha')

namespace Graph

/-- Exactly the nodes of a list get a mark, and nothing else of them changes. -/
theorem node_mark {g : Graph} {ids : List NodeId} (hids : ∀ id ∈ ids, id < g.size) (id : NodeId) :
    (g.mark ids).node id =
      { g.node id with isKey := (g.node id).isKey || decide (id ∈ ids) } := by
  induction ids generalizing g with
  | nil => simp [mark]
  | cons x ids ih =>
    have hx : x < g.size := hids x List.mem_cons_self
    have hnode : (g.modify x fun n => { n with isKey := true }).node id =
        { g.node id with isKey := (g.node id).isKey || decide (id = x) } := by
      rw [node_modify]
      by_cases heq : x = id
      · simp [← heq, hx]
      · simp [heq, Ne.symm heq]
    have hrest : ∀ y ∈ ids, y < (g.modify x fun n => { n with isKey := true }).size := by
      intro y hy
      simpa using hids y (List.mem_cons_of_mem x hy)
    rw [mark, List.foldl_cons, ← mark, ih hrest, hnode]
    simp [List.mem_cons, Bool.or_assoc]

end Graph

namespace Session

variable {s : Session} {key : Key} {id : NodeId} {name : String}

/-! ### The node that a name stands for -/

/-- The tag of a name under a keyword is bound to a node, which is defined. -/
def DefinesTag (s : Session) (kw name : String) (id : NodeId) : Prop :=
  s.lookup? (Names.tagSpelling kw name) = some id ∧ (s.graph.node id).isDefined = true

/-- **The node that a requested name stands for.** -/
inductive Resolves (s : Session) (key : Key) (id : NodeId) : Prop
  /-- The registry spelling of the name is bound to it. -/
  | bound (hlookup : s.registry.lookup? key.lookup = some id)
      (hdefined : (s.graph.node id).isDefined = true)
  /-- Nothing is bound to the bare name, and of its tags only one is defined. -/
  | tag {name kw : String} (hplain : key.qualifier = .plain)
      (hunbound : s.registry.lookup? key.lookup = none)
      (hname : s.names.get? key.name = some name)
      (hkw : kw ∈ ["struct", "union", "enum"]) (htag : s.DefinesTag kw name id)
      (hsole : ∀ kw' ∈ ["struct", "union", "enum"], ∀ id', s.DefinesTag kw' name id' → kw' = kw)

/-- A name that stands for some node. -/
def Resolvable (s : Session) (key : Key) : Prop := ∃ id, s.Resolves key id

theorem Resolves.isDefined (h : s.Resolves key id) : (s.graph.node id).isDefined = true := by
  cases h with
  | bound hlookup hdefined => exact hdefined
  | tag hplain hunbound hname hkw htag hsole => exact htag.2

theorem soleTag?_eq_some_iff : s.soleTag? name = some id ↔
    ∃ kw ∈ ["struct", "union", "enum"], s.DefinesTag kw name id ∧
      ∀ kw' ∈ ["struct", "union", "enum"], ∀ id', s.DefinesTag kw' name id' → kw' = kw := by
  have hfound (kw : String) (x : NodeId) :
      (s.lookup? (Names.tagSpelling kw name)).filter (fun y => (s.graph.node y).isDefined) =
        some x ↔ s.DefinesTag kw name x := Option.filter_eq_some_iff
  have hone : s.soleTag? name = some id ↔
      (["struct", "union", "enum"].filterMap fun kw =>
        (s.lookup? (Names.tagSpelling kw name)).filter fun y => (s.graph.node y).isDefined) =
          [id] := by
    rw [← List.filter_filterMap, soleTag?]
    split
    · rename_i x hx
      simp [hx]
    · rename_i hx
      simp only [reduceCtorEq, false_iff]
      exact hx id
  rw [hone, filterMap_eq_singleton_iff (by decide)]
  simp only [hfound]

/-- **Looking a name up** finds the node that it stands for. -/
theorem resolve?_eq_some_iff : s.resolve? key = some id ↔ s.Resolves key id := by
  rw [resolve?, Option.filter_eq_some_iff]
  constructor
  · rintro ⟨hfound, hdefined⟩
    split at hfound
    · rename_i x hx
      exact .bound (hx.trans hfound) hdefined
    · rename_i hunbound
      split at hfound
      · rename_i hplain
        obtain ⟨name, hname, hsole⟩ := Option.bind_eq_some_iff.mp hfound
        obtain ⟨kw, hkw, htag, hsole⟩ := soleTag?_eq_some_iff.mp hsole
        exact .tag hplain hunbound hname hkw htag hsole
      · cases hfound
  · intro h
    refine ⟨?_, h.isDefined⟩
    cases h with
    | bound hlookup hdefined => rw [hlookup]
    | tag hplain hunbound hname hkw htag hsole =>
      rw [hunbound]
      dsimp only
      rw [if_pos hplain, hname, Option.bind_some]
      exact soleTag?_eq_some_iff.mpr ⟨_, hkw, htag, hsole⟩

theorem resolve?_eq_none_iff : s.resolve? key = none ↔ ¬ s.Resolvable key := by
  rw [Option.eq_none_iff_forall_ne_some, Resolvable, not_exists]
  exact forall_congr' fun id => not_congr resolve?_eq_some_iff

instance : Decidable (s.Resolves key id) :=
  decidable_of_iff (s.resolve? key = some id) resolve?_eq_some_iff

instance : DecidablePred s.Resolvable := fun key =>
  decidable_of_iff (s.resolve? key ≠ none) (by rw [ne_eq, resolve?_eq_none_iff, not_not])

/-! ### All names of a request -/

/-- **What becomes of a requested name**: it is bound to the node that it stands for, and left as
it was if there is none. -/
structure Binds (s : Session) (key key' : Key) : Prop where
  found : ∀ id, s.Resolves key id → key' = { key with node := some id }
  missing : ¬ s.Resolvable key → key' = key

/-- The registry spellings of the names that stand for nothing, in the order of the request. -/
def unresolved (s : Session) : List String :=
  (s.keys.keys.filter fun key => ¬ s.Resolvable key).map fun key => s.names.spell key.lookup

theorem unresolved_eq_nil_iff : s.unresolved = [] ↔ ∀ key ∈ s.keys.keys, s.Resolvable key := by
  simp [unresolved, List.filter_eq_nil_iff]

theorem binds_resolve? (s : Session) (key : Key) :
    s.Binds key { key with node := (s.resolve? key).or key.node } where
  found id h := by rw [resolve?_eq_some_iff.mpr h, Option.some_or]
  missing h := by rw [resolve?_eq_none_iff.mpr h, Option.none_or]

theorem result_resolveKeys (s : Session) :
    s.resolveKeys.2 = if s.unresolved = [] then .ok () else .error (.missingKeys s.unresolved) := by
  have hmissing : ((s.keys.keys.map fun key => (key, s.resolve? key)).filter (·.2.isNone)).map
      (fun found => s.names.spell found.1.lookup) = s.unresolved := by
    rw [List.filter_map, List.map_map, unresolved]
    have hnone (key : Key) : (s.resolve? key).isNone = decide (¬ s.Resolvable key) := by
      rw [Bool.eq_iff_iff, Option.isNone_iff_eq_none, decide_eq_true_iff]
      exact resolve?_eq_none_iff
    simp only [Function.comp_def, hnone]
  unfold resolveKeys
  dsimp only
  rw [hmissing]
  by_cases hnil : s.unresolved = []
  · simp [hnil]
  · simp [hnil]

theorem mem_filterMap_resolve? :
    id ∈ s.keys.keys.filterMap s.resolve? ↔ ∃ key ∈ s.keys.keys, s.Resolves key id := by
  simp only [List.mem_filterMap, resolve?_eq_some_iff]

/-- **Every name of a request is resolved or reported.** Resolving fails exactly if a name stands
for nothing, and the error then lists the spellings of all such names in the order of the request.
Whether it fails or not, every name is bound to the node that it stands for, these nodes get their
mark, and nothing else of the graph changes. -/
theorem resolveKeys_complete (s : Session) :
    ((∃ e, s.resolveKeys.2 = .error e) ↔ ∃ key ∈ s.keys.keys, ¬ s.Resolvable key) ∧
      (∀ e, s.resolveKeys.2 = .error e → e = .missingKeys s.unresolved) ∧
      List.Forall₂ s.Binds s.keys.keys s.resolveKeys.1.keys.keys ∧
      s.resolveKeys.1.graph.size = s.graph.size ∧
      ∀ id, s.resolveKeys.1.graph.node id = { s.graph.node id with
        isKey := (s.graph.node id).isKey || decide (∃ key ∈ s.keys.keys, s.Resolves key id) } := by
  have hrange : ∀ id ∈ s.keys.keys.filterMap s.resolve?, id < s.graph.size := by
    intro id hid
    obtain ⟨key, -, hkey⟩ := mem_filterMap_resolve?.mp hid
    exact Graph.lt_size_of_isDefined hkey.isDefined
  refine ⟨?_, ?_, ?_, ?_, fun id => ?_⟩
  · have hsome : (∃ key ∈ s.keys.keys, ¬ s.Resolvable key) ↔ s.unresolved ≠ [] := by
      rw [ne_eq, unresolved_eq_nil_iff]
      push Not
      rfl
    rw [hsome, result_resolveKeys]
    by_cases hnil : s.unresolved = []
    · simp [hnil]
    · simp [hnil]
  · intro e he
    rw [result_resolveKeys] at he
    split at he
    · cases he
    · exact (Except.error.inj he).symm
  · rw [keys_resolveKeys, List.forall₂_map_right_iff]
    exact List.forall₂_same.mpr fun key _ => s.binds_resolve? key
  · rw [graph_resolveKeys, Graph.size_mark]
  · rw [graph_resolveKeys, Graph.node_mark hrange]
    simp only [mem_filterMap_resolve?]

end Session

end TypeLayout
