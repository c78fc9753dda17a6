import TypeLayout.Proofs.Passes
import TypeLayout.Proofs.Shrinking

/-!
# Merging does not renumber the unions

Slots are given out in the order of a walk through the graph, and merging takes nodes out of this
walk. But the unions of the walk stay in their order, step by step: a struct that becomes a union
stands where the union stood that it has adopted (`Graph.Splices.unions`, `Graph.Adopts.unions`).
So what stands at one place among the unions after the pass is what the union at this place has
become, with the same members, and how this came about is in the log (`Graph.Tracks.steps`).

A converter that was written for a slot therefore fits this slot, however structs are merged.
-/

namespace TypeLayout

namespace Graph

variable {g : Graph} {p p' : Inlining} {a b c t u : NodeId} {k : ℕ} {stats : InliningStats}
  {roots order order' : List NodeId}

/-! ### What becomes of a union -/

/-- **What a union has become**, some way into the pass: the union itself, or a struct, which has
adopted it, directly or through others, as the log says, and has its members. -/
structure Becomes (g : Graph) (p : Inlining) (u v : NodeId) : Prop where
  isUnion : (p.graph.node v).isUnion = true
  members : (p.graph.node v).members = (g.node u).members
  struct : v = u ∨ (g.node v).kind = .struct
  adopted : Relation.ReflTransGen (fun a b => Notice.adopted b a ∈ p.notices) u v

namespace Becomes

/-- An entry of the log changes nothing. -/
theorem note (h : g.Becomes p a b) (stats : InliningStats) (n : Notice) :
    g.Becomes ⟨p.graph, stats, p.notices.push n⟩ a b where
  isUnion := h.isUnion
  members := h.members
  struct := h.struct
  adopted := Relation.ReflTransGen.mono (fun _ _ hn => Array.mem_push_of_mem n hn) _ _ h.adopted

/-- Nothing becomes of a union when a struct is put in the place of an item. -/
theorem splice (h : g.Becomes p a b) (hs : p.graph.Splices c t k) (n : Notice) :
    g.Becomes ⟨p.graph.splice c k t, stats, p.notices.push n⟩ a b where
  isUnion := (hs.isUnion b).trans h.isUnion
  members := by
    rw [hs.node b]
    exact h.members
  struct := h.struct
  adopted := (h.note stats n).adopted

/-- A union that is adopted becomes the struct, and the others stay what they are. -/
theorem adopt (h : g.Becomes p a b) (ha : p.graph.Adopts c u) (hc : (g.node c).kind = .struct) :
    g.Becomes ⟨Inlining.adopt p.graph c u, stats, p.notices.push (.adopted c u)⟩ a
      (standIn c u b) := by
  have hadopted := (h.note stats (.adopted c u)).adopted
  rcases eq_or_ne b u with rfl | hne
  · rw [standIn, if_pos rfl]
    refine ⟨?_, ?_, .inr hc, hadopted.tail (Array.mem_push_self ..)⟩
    · rw [ha.node c]
      simp [Node.isUnion]
    · rw [ha.node c]
      simpa using h.members
  · have hbc : b ≠ c := by
      rintro rfl
      exact absurd h.isUnion (by simp [ha.not_isUnion])
    rw [standIn, if_neg hne]
    refine ⟨(ha.isUnion_of_ne hbc).trans h.isUnion, ?_, h.struct, hadopted⟩
    rw [ha.node b]
    simpa [hbc] using h.members

end Becomes

/-- **The unions of a walk, some way into the pass**: each stands where the union stood that it
was. -/
structure Tracks (g : Graph) (roots order : List NodeId) (p : Inlining) (order' : List NodeId) :
    Prop where
  serves : p.graph.Serves roots
  walk : Walk p.graph.kids [] roots order'
  struct : ∀ x, (p.graph.node x).kind = .struct → (g.node x).kind = .struct
  unions : List.Forall₂ (g.Becomes p) (order.filter fun id => (g.node id).isUnion)
    (order'.filter fun id => (p.graph.node id).isUnion)

theorem Tracks.refl (hs : g.Serves roots) (hw : Walk g.kids [] roots order) :
    g.Tracks roots order { graph := g } order where
  serves := hs
  walk := hw
  struct _ h := h
  unions := List.forall₂_same.mpr fun _ hx => ⟨(List.mem_filter.mp hx).2, rfl, .inl rfl, .refl⟩

/-- **One step of the pass** keeps track of the unions. -/
theorem Tracks.step (h : g.Tracks roots order p order') (hm : LoggedMerge p p') :
    ∃ order'', g.Tracks roots order p' order'' := by
  obtain ⟨rank, hr⟩ := h.serves.settled.ranked
  have hserves := h.serves.merges hm.merges
  cases hm with
  | @splice c t k hc ht hi hne hl =>
    have hs : p.graph.Splices c t k := ⟨h.serves.settled, hc, ht, hi, hne⟩
    have hwalk := ((hs.contracts hr).walk h.walk (h.serves.kept_ne ht) (by simp)).1
    refine ⟨without t order', hserves, hwalk, fun x hx => ?_, ?_⟩
    · rw [hs.node x] at hx
      exact h.struct x hx
    · dsimp only
      rw [hs.unions]
      exact h.unions.imp fun a b hb => hb.splice hs _
  | @adopt c u hc hu hk hi hlen hal =>
    have ha : p.graph.Adopts c u := ⟨h.serves.settled, hc, hu, hk, hi, hlen, hal⟩
    have hwalk := ((ha.contracts hr).walk h.walk (h.serves.kept_ne hu) (by simp)).1
    refine ⟨without u order', hserves, hwalk, fun x hx => ?_, ?_⟩
    · rw [ha.node x] at hx
      dsimp only at hx
      split at hx
      · cases hx
      · exact h.struct x hx
    · dsimp only
      rw [ha.unions h.serves h.walk, List.forall₂_map_right_iff]
      exact h.unions.imp fun a b hb => hb.adopt ha (h.struct c hk)
  | note rejected n =>
    exact ⟨order', hserves, h.walk, h.struct, h.unions.imp fun a b hb => hb.note _ n⟩

/-- **The whole pass** keeps track of the unions. -/
theorem Tracks.steps (h : g.Tracks roots order p order')
    (hm : Relation.ReflTransGen LoggedMerge p p') : ∃ order'', g.Tracks roots order p' order'' := by
  induction hm with
  | refl => exact ⟨order', h⟩
  | tail _ hstep ih =>
    obtain ⟨mid, hmid⟩ := ih
    exact hmid.step hstep

end Graph

namespace Session

/-! ### Slots -/

variable {s s' : Session} {g : Graph} {order : List NodeId} {j : ℕ} {u : NodeId}

/-- **A union holds a slot**, and nothing else holds it. -/
structure HoldsSlot (s : Session) (j : ℕ) (u : NodeId) : Prop where
  kind : (s.graph.node u).kind = .union
  jump : (s.graph.node u).jump = some j
  only : ∀ x, (s.graph.node x).jump = some j → x = u

/-- A slot belongs to the union at its place among the unions. -/
theorem LaidOut.jump_eq_some_iff (h : s.LaidOut g order) :
    (s.graph.node u).jump = some j ↔
      (order.filter fun id => (g.node id).isUnion)[j]? = some u := by
  rw [g.getElem?_unions h.nodup, h.laid.jump u]
  split
  · rename_i hu
    simp [hu]
  · rename_i hu
    simp only [reduceCtorEq, false_iff, ← and_assoc]
    exact fun hall => hu hall.1

theorem LaidOut.holdsSlot (h : s.LaidOut g order)
    (hj : (order.filter fun id => (g.node id).isUnion)[j]? = some u) : s.HoldsSlot j u := by
  refine ⟨?_, h.jump_eq_some_iff.mpr hj, fun x hx => ?_⟩
  · have hunion := (List.mem_filter.mp (List.mem_of_getElem? hj)).2
    rw [(h.laid.shape u).kind]
    simpa [Node.isUnion] using hunion
  · exact Option.some.inj ((h.jump_eq_some_iff.mp hx).symm.trans hj)

/-- **The unions of the two layouts of a session** correspond to each other in order. -/
theorem Prepared.exists_becomes {names : Names} {keys : KeyList} {target : Target}
    {s₁ s₂ : Session} (h : Prepared names keys target s) (h₁ : s.assignOffsets = (s₁, .ok ()))
    (h₂ : s.inlineStructs.1.assignOffsets = (s₂, .ok ())) :
    ∃ order order', s₁.LaidOut s.graph order ∧ s₂.LaidOut s.graph.inlineStructs.graph order' ∧
      List.Forall₂ (s.graph.Becomes s.graph.inlineStructs)
        (order.filter fun id => (s.graph.node id).isUnion)
        (order'.filter fun id => (s.graph.inlineStructs.graph.node id).isUnion) := by
  obtain ⟨order, hlaid, -, hkeys⟩ := h.exists_laidOut h₁
  obtain ⟨order', hlaid', -, hkeys'⟩ := h.inlineStructs.exists_laidOut h₂
  rw [graph_inlineStructs] at hlaid'
  have hwalk := hlaid.walk
  have hwalk' := hlaid'.walk
  rw [requested, hkeys, ← requested] at hwalk
  rw [requested, hkeys', ← requested, requested_inlineStructs] at hwalk'
  obtain ⟨mid, htracks⟩ :=
    (Graph.Tracks.refl h.serves hwalk).steps s.graph.logged_inlineStructs
  obtain rfl := htracks.walk.unique hwalk'
  exact ⟨order, mid, hlaid, hlaid', htracks.unions⟩

theorem mem_notices_noteAll (s : Session) {ns : List Notice} {n : Notice} (hn : n ∈ ns) :
    n ∈ (s.noteAll ns).notices := by
  rw [noteAll_eq, ← Array.mem_toList_iff]
  simp [hn]

end Session

/-- A compilation up to the layout has read its source and laid out what was requested. -/
theorem layOut_of_compile {source : String} {names : Names} {keys : KeyList} {options : Options}
    {eval : Evaluator} {c : Compilation}
    (h : (compile source names keys options eval .layout).result = .ok c) :
    ∃ s₁, (Session.start names keys options.target).readSource eval source options.contextLines =
        (s₁, .ok ()) ∧
      ∃ s₂, (s₁.note (.parsed s₁.graph.size)).layOut options.optimize = (s₂, .ok ()) ∧
        c = { session := some s₂ } := by
  rcases compile_ok_cases h with ⟨hstage, -⟩ | ⟨s₁, hread, ⟨hstage, -⟩ | ⟨s₂, hlayout, ⟨-, rfl⟩ |
    ⟨-, -, hstage, -⟩⟩⟩
  · cases hstage
  · cases hstage
  · exact ⟨s₁, hread, s₂, hlayout, rfl⟩
  · cases hstage

/-- **Slots do not depend on merging.** If the same source is laid out once with structs as they
are declared and once with structs merged, both give out the same number of slots. Each slot is
held by one union in either, and the two have the same members: they are one node, or the second
is a struct of the first that has adopted the union, directly or through a chain of adoptions,
each of which is in the log. -/
theorem stableSlots_compile {source : String} {names : Names} {keys : KeyList} {options : Options}
    {eval : Evaluator} {c c' : Compilation}
    (h : (compile source names keys { options with optimize := false } eval .layout).result = .ok c)
    (h' : (compile source names keys { options with optimize := true } eval .layout).result =
      .ok c') :
    ∃ s s', c.session = some s ∧ c'.session = some s' ∧ s'.nextJump = s.nextJump ∧
      (∀ id j, (s.graph.node id).jump = some j ∨ (s'.graph.node id).jump = some j →
        j < s.nextJump) ∧
      ∀ j < s.nextJump, ∃ u u', s.HoldsSlot j u ∧ s'.HoldsSlot j u' ∧
        (s'.graph.node u').members = (s.graph.node u).members ∧
        (u' = u ∨ (s.graph.node u').kind = .struct) ∧
        Relation.ReflTransGen (fun a b => Notice.adopted b a ∈ s'.notices) u u' := by
  obtain ⟨s₁, hread, s, hlayout, rfl⟩ := layOut_of_compile h
  obtain ⟨s₁', hread', s', hlayout', rfl⟩ := layOut_of_compile h'
  obtain rfl : s₁ = s₁' := (Prod.mk.inj (hread.symm.trans hread')).1
  obtain ⟨s₂, hresolve, hprepared, hassign⟩ := exists_prepared_of_layOut hread hlayout
  obtain ⟨s₂', hresolve', -, hassign'⟩ := exists_prepared_of_layOut hread' hlayout'
  obtain rfl : s₂ = s₂' := (Prod.mk.inj (hresolve.symm.trans hresolve')).1
  replace hassign : s₂.assignOffsets = (s, .ok ()) := hassign
  replace hassign' : s₂.inlineStructs.1.assignOffsets = (s', .ok ()) := hassign'
  obtain ⟨order, order', hlaid, hlaid', hunions⟩ := hprepared.exists_becomes hassign hassign'
  have hlength := hunions.length_eq
  rw [← Graph.unionsOf_eq_length, ← Graph.unionsOf_eq_length, ← hlaid.laid.nextJump,
    ← hlaid'.laid.nextJump] at hlength
  have hlog {n : Notice} (hn : n ∈ s₂.graph.inlineStructs.notices) : n ∈ s'.notices := by
    have hkept := Session.mem_notices_assignOffsets hprepared.inlineStructs.named
      hprepared.inlineStructs.roots (Session.mem_notices_noteAll _ (Array.mem_toList_iff.mpr hn))
    rwa [hassign'] at hkept
  refine ⟨s, s', rfl, rfl, hlength.symm, fun id j hj => ?_, fun j hj => ?_⟩
  · rcases hj with hj | hj
    · rw [hlaid.laid.nextJump, Graph.unionsOf_eq_length]
      exact (List.getElem?_eq_some_iff.mp (hlaid.jump_eq_some_iff.mp hj)).1
    · rw [hlength, hlaid'.laid.nextJump, Graph.unionsOf_eq_length]
      exact (List.getElem?_eq_some_iff.mp (hlaid'.jump_eq_some_iff.mp hj)).1
  · have hlt := hj
    have hlt' := hlength ▸ hj
    rw [hlaid.laid.nextJump, Graph.unionsOf_eq_length] at hlt
    rw [hlaid'.laid.nextJump, Graph.unionsOf_eq_length] at hlt'
    have hu := List.getElem?_eq_getElem hlt
    have hu' := List.getElem?_eq_getElem hlt'
    obtain ⟨-, hmembers, hstruct, hadopted⟩ := hunions.get hlt hlt'
    refine ⟨_, _, hlaid.holdsSlot hu, hlaid'.holdsSlot hu', ?_, ?_, ?_⟩
    · rw [(hlaid'.laid.shape _).members, (hlaid.laid.shape _).members]
      exact hmembers
    · rw [(hlaid.laid.shape _).kind]
      exact hstruct
    · exact Relation.ReflTransGen.mono (fun _ _ hn => hlog hn) _ _ hadopted

/-- The session that a compilation returned. -/
def Run.session? (r : Run) : Option Session :=
  match r.result with
  | .ok c => c.session
  | .error _ => none

theorem Run.exists_of_session? {r : Run} {s : Session} (h : r.session? = some s) :
    ∃ c, r.result = .ok c ∧ c.session = some s := by
  unfold Run.session? at h
  split at h
  · rename_i c hr
    exact ⟨c, hr, h⟩
  · cases h

/-- A union, node 18, in a struct, node 17, in a struct, node 21: the outer struct holds the slot
that the union held, with a struct around them and another union behind them. -/
theorem stableSlots_compile_chain :
    let key := KeyList.makeKey {} .struct "s" 1
    let run := fun optimize => compile
      ("struct w { union { int i; char c; } v; }; struct x { struct w a; };" ++
        "struct s { int k; struct x b; union { short m; char n; } c; };") key.2 ⟨[key.1]⟩
      { optimize } (fun _ => .error .noCompiler) .layout
    ∃ s s', (run false).session? = some s ∧ (run true).session? = some s' ∧ s.nextJump = 2 ∧
      s'.nextJump = 2 ∧ s.HoldsSlot 0 18 ∧ s'.HoldsSlot 0 21 ∧
      (s'.graph.node 21).members = (s.graph.node 18).members ∧
      Relation.ReflTransGen (fun a b => Notice.adopted b a ∈ s'.notices) 18 21 := by
  intro key run
  have hplain : (run false).session?.map (fun s => (s.nextJump, (s.graph.node 18).jump)) =
      some (2, some 0) := by decide +kernel
  have hmerged : (run true).session?.map (fun s => (s.graph.node 21).jump) = some (some 0) := by
    decide +kernel
  obtain ⟨s, hsession, hslot⟩ := Option.map_eq_some_iff.mp hplain
  obtain ⟨s', hsession', hslot'⟩ := Option.map_eq_some_iff.mp hmerged
  obtain ⟨hcount, hjump⟩ := Prod.mk.inj hslot
  obtain ⟨c, hrun, hc⟩ := Run.exists_of_session? hsession
  obtain ⟨c', hrun', hc'⟩ := Run.exists_of_session? hsession'
  obtain ⟨t, t', ht, ht', hsame, -, hslots⟩ := @stableSlots_compile _ _ _ {} _ _ _ hrun hrun'
  obtain rfl := Option.some.inj (hc.symm.trans ht)
  obtain rfl := Option.some.inj (hc'.symm.trans ht')
  obtain ⟨u, u', hu, hu', hmembers, -, hadopted⟩ := hslots 0 (by omega)
  obtain rfl := hu.only 18 hjump
  obtain rfl := hu'.only 21 hslot'
  exact ⟨s, s', hsession, hsession', hcount, hsame.trans hcount, hu, hu', hmembers, hadopted⟩

end TypeLayout
