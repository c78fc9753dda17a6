import TypeLayout.Proofs.Tiling

/-!
# The steps of a layout

A visit goes through the graph, but what it does to a session is a sequence of four kinds of
steps: it names a node, it names a member of a union, it gives out a slot, and it gives out a
place (`Session.LayStep`, `Session.steps_visit`). So what one step keeps, a layout keeps.

Of a node that has a name only a member is named again, whether it has a name or not, and it is
only the mark that this leaves which protects it from then on. That names stay is therefore an
invariant of its own (`Session.Persists`).
-/

namespace TypeLayout

namespace Session

variable {P : NodeId → Prop} {s s' s'' : Session} {id : NodeId} {parent : Option NameId}

/-! ### Names that stay -/

/-- **What is known about names**: bindings are by names that have been handed out, and lead
to no members; links lead to no members either, only unions have them; and a member that has
a place has been renamed. -/
structure Named (s : Session) : Prop where
  bound : ∀ b ∈ s.registry.bindings, ∃ x, s.names.get? b.name = some x
  binds : ∀ b ∈ s.registry.bindings, (s.graph.node b.node).kind ≠ .unionMember
  links : ∀ a, ∀ item ∈ (s.graph.node a).items, ∀ t, item.kind.link? = some t →
    (s.graph.node t).kind ≠ .unionMember
  members : ∀ a, ∀ m ∈ (s.graph.node a).members, (s.graph.node m).kind = .unionMember
  renamed : ∀ id, (s.graph.node id).renamed = true → (s.graph.node id).name.isSome = true
  placed : ∀ id, (s.graph.node id).offset.isSome = true → (s.graph.node id).kind = .unionMember →
    (s.graph.node id).renamed = true

/-- **What a layout keeps**: the types, the bindings, and the names that are not to change. -/
structure Persists (s s' : Session) : Prop where
  names : s.names.Extends s'.names
  registry : s'.registry = s.registry
  shape : ∀ id, (s.graph.node id).Shape (s'.graph.node id)
  state : ∀ id, (s'.graph.node id).state = (s.graph.node id).state
  renamed : ∀ id, (s.graph.node id).renamed = true →
    (s'.graph.node id).renamed = true ∧ (s'.graph.node id).name = (s.graph.node id).name
  name : ∀ id, (s.graph.node id).kind ≠ .unionMember → (s.graph.node id).name.isSome = true →
    (s'.graph.node id).name = (s.graph.node id).name
  named : s.Named → s'.Named

namespace Persists

theorem refl (s : Session) : s.Persists s where
  names := .refl _
  registry := rfl
  shape _ := .refl _
  state _ := rfl
  renamed _ h := ⟨h, rfl⟩
  name _ _ _ := rfl
  named := id

theorem trans (h : s.Persists s') (h' : s'.Persists s'') : s.Persists s'' where
  names := h.names.trans h'.names
  registry := h'.registry.trans h.registry
  shape id := (h.shape id).trans (h'.shape id)
  state id := (h'.state id).trans (h.state id)
  renamed id hid := by
    obtain ⟨hren, hname⟩ := h.renamed id hid
    obtain ⟨hren', hname'⟩ := h'.renamed id hren
    exact ⟨hren', hname'.trans hname⟩
  name id hk hid := by
    have hname := h.name id hk hid
    have hk' : (s'.graph.node id).kind ≠ .unionMember := (h.shape id).kind ▸ hk
    exact (h'.name id hk' (hname ▸ hid)).trans hname
  named := h'.named ∘ h.named

/-- Counters, requested names and the log do not matter. -/
theorem congr (h : s.Persists s') (hn : s''.names = s'.names) (hr : s''.registry = s'.registry)
    (hg : s''.graph = s'.graph) : s.Persists s'' := by
  obtain ⟨hnames, hregistry, hshape, hstate, hrenamed, hname, hnamed⟩ := h
  rw [← hn] at hnames
  rw [← hr] at hregistry
  rw [← hg] at hshape hstate hrenamed hname
  refine ⟨hnames, hregistry, hshape, hstate, hrenamed, hname, fun hs => ?_⟩
  obtain ⟨hbound, hbinds, hlinks, hmembers, hren, hplaced⟩ := hnamed hs
  rw [← hr] at hbound hbinds
  rw [← hn] at hbound
  rw [← hg] at hbinds hlinks hmembers hren hplaced
  exact ⟨hbound, hbinds, hlinks, hmembers, hren, hplaced⟩

theorem kind_eq (h : s.Persists s') (id : NodeId) :
    (s'.graph.node id).kind = (s.graph.node id).kind := (h.shape id).kind

theorem isDefined_eq (h : s.Persists s') (id : NodeId) :
    (s'.graph.node id).isDefined = (s.graph.node id).isDefined := by
  rw [Node.isDefined, Node.isDefined, h.state id]

/-- A change of one node. -/
theorem modify {f : Node → Node} (hn : s.names.Extends s'.names)
    (hr : s'.registry = s.registry) (hg : s'.graph = s.graph.modify id f)
    (hf : ∀ n : Node, n.Shape (f n) ∧ (f n).state = n.state)
    (hrenamed : (s.graph.node id).renamed = true → (f (s.graph.node id)).renamed = true ∧
      (f (s.graph.node id)).name = (s.graph.node id).name)
    (hname : (s.graph.node id).kind ≠ .unionMember → (s.graph.node id).name.isSome = true →
      (f (s.graph.node id)).name = (s.graph.node id).name)
    (hnamed : s.Named → ((f (s.graph.node id)).renamed = true →
        (f (s.graph.node id)).name.isSome = true) ∧
      ((f (s.graph.node id)).offset.isSome = true → (s.graph.node id).kind = .unionMember →
        (f (s.graph.node id)).renamed = true)) : s.Persists s' := by
  have hnode (j : NodeId) : s'.graph.node j = s.graph.node j ∨
      j = id ∧ s'.graph.node j = f (s.graph.node id) := by
    rw [hg, Graph.node_modify]
    split
    · rename_i hj
      exact .inr ⟨hj.1.symm, by rw [hj.1]⟩
    · exact .inl rfl
  have hshape (j : NodeId) : (s.graph.node j).Shape (s'.graph.node j) := by
    rcases hnode j with heq | ⟨rfl, heq⟩ <;> rw [heq]
    · exact .refl _
    · exact (hf _).1
  refine ⟨hn, hr, hshape, fun j => ?_, fun j hj => ?_, fun j hk hj => ?_, fun hs => ?_⟩
  · rcases hnode j with heq | ⟨rfl, heq⟩ <;> rw [heq]
    exact (hf _).2
  · rcases hnode j with heq | ⟨rfl, heq⟩ <;> rw [heq]
    · exact ⟨hj, rfl⟩
    · exact hrenamed hj
  · rcases hnode j with heq | ⟨rfl, heq⟩ <;> rw [heq]
    exact hname hk hj
  · refine ⟨fun b hb => ?_, fun b hb => ?_, fun a item hi t ht => ?_, fun a m hm => ?_,
      fun j hj => ?_, fun j hj hk => ?_⟩
    · obtain ⟨x, hx⟩ := hs.bound b (hr ▸ hb)
      exact ⟨x, hn _ _ hx⟩
    · rw [(hshape b.node).kind]
      exact hs.binds b (hr ▸ hb)
    · rw [(hshape t).kind]
      exact hs.links a item ((hshape a).items ▸ hi) t ht
    · rw [(hshape m).kind]
      exact hs.members a m ((hshape a).members ▸ hm)
    · rcases hnode j with heq | ⟨rfl, heq⟩ <;> rw [heq] at hj ⊢
      · exact hs.renamed j hj
      · exact (hnamed hs).1 hj
    · rw [(hshape j).kind] at hk
      rcases hnode j with heq | ⟨rfl, heq⟩ <;> rw [heq] at hj ⊢
      · exact hs.placed j hj hk
      · exact (hnamed hs).2 hj hk

end Persists

/-! ### What single changes keep -/

theorem persists_nameOf (h : s.Named) (id : NodeId) (parent : Option NameId) :
    s.Persists (s.nameOf id parent).2 := by
  unfold nameOf
  dsimp only
  split
  · exact .refl s
  · rename_i hnone
    -- A node that has been renamed has a name, so this one has not been.
    have hfresh : (s.graph.node id).renamed ≠ true := fun hren => by
      simpa [hnone] using h.renamed id hren
    exact .modify (s.names.extends_insert _) rfl rfl (fun _ => ⟨⟨rfl, rfl, rfl, rfl, rfl⟩, rfl⟩)
      (fun hren => absurd hren hfresh) (fun _ hname => by simp [hnone] at hname)
      fun _ => ⟨fun _ => rfl, fun _ _ => rfl⟩

theorem persists_renameMember {member : NodeId} (hm : (s.graph.node member).kind = .unionMember)
    (union : NameId) (i : ℕ) : s.Persists (s.renameMember union member i) ∧
      ((s.renameMember union member i).graph.node member).renamed = true := by
  unfold renameMember
  split
  · rename_i hren
    exact ⟨.refl s, hren⟩
  · rename_i hren
    refine ⟨.modify (s.names.extends_insert _) rfl rfl (fun _ => ⟨⟨rfl, rfl, rfl, rfl, rfl⟩, rfl⟩)
      (fun h => absurd h hren) (fun hk => absurd hm hk) fun _ => ⟨fun _ => rfl, fun _ _ => rfl⟩, ?_⟩
    show ((s.graph.modify member _).node member).renamed = true
    rw [Graph.node_modify_self _ (Graph.lt_size_of_kind (by simp [hm]))]

theorem persists_assignJump (s : Session) (id : NodeId) : s.Persists (s.assignJump id) := by
  unfold assignJump
  split
  · exact .refl s
  · exact .modify (.refl _) rfl rfl (fun _ => ⟨⟨rfl, rfl, rfl, rfl, rfl⟩, rfl⟩)
      (fun hren => ⟨hren, rfl⟩) (fun _ _ => rfl) fun hs => ⟨hs.renamed id, hs.placed id⟩

theorem persists_assignOffset
    (h : (s.graph.node id).kind = .unionMember → (s.graph.node id).renamed = true) :
    s.Persists (s.assignOffset id) :=
  .modify (.refl _) rfl rfl (fun _ => ⟨⟨rfl, rfl, rfl, rfl, rfl⟩, rfl⟩) (fun hren => ⟨hren, rfl⟩)
    (fun _ _ => rfl) fun hs => ⟨hs.renamed id, fun _ => h⟩

/-! ### The steps of a visit -/

/-- The name of a node, if there is one. -/
def IsName (s : Session) (name : Option NameId) : Prop :=
  ∀ x ∈ name, ∃ u, (s.graph.node u).name = some x

/-- **One step of a layout** that visits nodes with a property. -/
inductive LayStep (P : NodeId → Prop) (s : Session) : Session → Prop
  /-- A node that is no member gets its name, if it has none, perhaps after another node. -/
  | name {id : NodeId} {parent : Option NameId} (hp : s.IsName parent)
    (hk : (s.graph.node id).kind ≠ .unionMember) : LayStep P s (s.nameOf id parent).2
  /-- A member gets its name from its union, which has one. -/
  | member {u m : NodeId} {i : ℕ} {name : NameId} (hu : P u) (hk : (s.graph.node u).kind = .union)
    (hm : (s.graph.node u).members[i]? = some m) (hname : (s.graph.node u).name = some name) :
    LayStep P s (s.renameMember name m i)
  /-- A union gets its slot. -/
  | slot (id : NodeId) : LayStep P s (s.assignJump id)
  /-- A node gets its place; if it is a member, it has been named. -/
  | place {id : NodeId}
    (hid : (s.graph.node id).kind = .unionMember → (s.graph.node id).renamed = true) :
    LayStep P s (s.assignOffset id)

/-- Any number of steps. -/
abbrev LaySteps (P : NodeId → Prop) : Session → Session → Prop := Relation.ReflTransGen (LayStep P)

theorem LayStep.persists (h : LayStep P s s') (hs : s.Named) : s.Persists s' := by
  cases h with
  | name hp hk => exact persists_nameOf hs _ _
  | @member u m i name hu hk hm hname =>
    exact (persists_renameMember (hs.members u m (List.mem_of_getElem? hm)) name i).1
  | slot id => exact persists_assignJump s id
  | place hid => exact persists_assignOffset hid

theorem LaySteps.persists (h : LaySteps P s s') (hs : s.Named) : s.Persists s' := by
  induction h with
  | refl => exact .refl s
  | tail _ hstep ih => exact ih.trans (hstep.persists (ih.named hs))

/-- The steps leave the log and the keys alone. -/
theorem LaySteps.kept (h : LaySteps P s s') : s'.notices = s.notices ∧ s'.keys = s.keys := by
  induction h with
  | refl => exact ⟨rfl, rfl⟩
  | tail _ hstep ih =>
    rw [← ih.1, ← ih.2]
    cases hstep with
    | name hp hk =>
      unfold nameOf
      dsimp only
      split <;> exact ⟨rfl, rfl⟩
    | member hu hk hm hname =>
      unfold renameMember
      split <;> exact ⟨rfl, rfl⟩
    | slot id =>
      unfold assignJump
      split <;> exact ⟨rfl, rfl⟩
    | place hid => exact ⟨rfl, rfl⟩

theorem name_nameOf (parent : Option NameId) (hid : id < (s.nameOf id parent).2.graph.size) :
    ((s.nameOf id parent).2.graph.node id).name = some (s.nameOf id parent).1 := by
  unfold nameOf at hid ⊢
  dsimp only at hid ⊢
  split at hid
  · rename_i name hname
    exact hname
  · have hlt : id < s.graph.size := by
      simpa [modifyNode, intern] using hid
    exact congrArg Node.name (Graph.node_modify_self _ hlt)

theorem nameOf_of_isSome (parent : Option NameId) (h : (s.graph.node id).name.isSome = true) :
    (s.nameOf id parent).2 = s := by
  obtain ⟨name, hname⟩ := Option.isSome_iff_exists.mp h
  simp only [nameOf, hname]

/-- Naming a node is a step, or nothing if it is a member that has been named. -/
theorem steps_nameOf (hs : s.Named) (hp : s.IsName parent)
    (hid : (s.graph.node id).kind = .unionMember → (s.graph.node id).renamed = true) :
    LaySteps P s (s.nameOf id parent).2 := by
  by_cases hk : (s.graph.node id).kind = .unionMember
  · rw [nameOf_of_isSome parent (hs.renamed id (hid hk))]
  · exact .single (.name hp hk)

theorem steps_forEach {α ε : Type} {f : Session → α → Session × Except ε Unit} {l : List α}
    (hf : ∀ a ∈ l, ∀ s', LaySteps P s s' → LaySteps P s' (f s' a).1) (h : LaySteps P s s') :
    LaySteps P s (s'.forEach f l).1 := by
  induction l generalizing s' with
  | nil => exact h
  | cons a l ih =>
    have hone := h.trans (hf a List.mem_cons_self s' h)
    rw [forEach]
    rcases hr : f s' a with ⟨s₁, r⟩
    rw [hr] at hone
    cases r with
    | error err => exact hone
    | ok _ => exact ih (fun b hb => hf b (List.mem_cons_of_mem _ hb)) hone

/-- **A visit is a sequence of steps**, whether it succeeds or not, and only of steps that visit
what the first node needs. -/
theorem steps_visit (depth : ℕ) (hs : s.Named) (hP : ∀ a, P a → ∀ b ∈ s.graph.kids a, P b)
    (hPid : P id) (hid : (s.graph.node id).kind = .unionMember → (s.graph.node id).renamed = true)
    (hp : s.IsName parent) : LaySteps P s (visit depth s id parent).1 := by
  induction depth generalizing s id parent with
  | zero => exact .refl
  | succ depth ih =>
    rw [visit]
    split
    · exact .refl
    have hnameOf : LaySteps P s (s.nameOf id parent).2 := steps_nameOf hs hp hid
    have hname := @name_nameOf s id parent
    dsimp only
    generalize s.nameOf id parent = r at hnameOf hname ⊢
    obtain ⟨name, s₁⟩ := r
    dsimp only at hnameOf hname ⊢
    have hp₁ := hnameOf.persists hs
    have hs₁ := hp₁.named hs
    -- What a later session of this visit knows about the nodes that are still to be visited.
    have hkids {s' : Session} (hs' : LaySteps P s₁ s') (a : NodeId) :
        s'.graph.kids a = s.graph.kids a :=
      ((hp₁.trans (hs'.persists hs₁)).shape a).children
    have hclosed {s' : Session} (hs' : LaySteps P s₁ s') : ∀ a, P a → ∀ b ∈ s'.graph.kids a, P b :=
      fun a ha b hb => hP a ha b (hkids hs' a ▸ hb)
    -- The node that leads to them keeps its name, also if it is a member.
    have hlater {s' : Session} (hs' : LaySteps P s₁ s') (hlt : id < s₁.graph.size) :
        s'.IsName (some name) := by
      have hp' := hs'.persists hs₁
      rintro x ⟨⟩
      refine ⟨id, Eq.trans ?_ (hname hlt)⟩
      by_cases hk : (s₁.graph.node id).kind = .unionMember
      · exact (hp'.renamed id (hp₁.renamed id (hid (hp₁.kind_eq id ▸ hk))).1).2
      · exact hp'.name id hk (by simp [hname hlt])
    split
    · rename_i hunion
      have hkind : (s₁.graph.node id).kind = .union := by simpa [Node.isUnion] using hunion
      have hmembers : s₁.graph.kids id = (s₁.graph.node id).members := by
        rw [Graph.kids, Node.children, if_pos hunion]
      have hname := hname (Graph.lt_size_of_kind (by simp [hkind]))
      split
      · exact hnameOf
      generalize hloopEq : s₁.forEach _ (s₁.graph.node id).members.zipIdx = r
      have hloop : LaySteps P s₁ r.1 := by
        rw [← hloopEq]
        refine steps_forEach (fun p hp s' hs' => ?_) .refl
        obtain ⟨m, i⟩ := p
        have hi : (s₁.graph.node id).members[i]? = some m := List.mem_zipIdx_iff_getElem?.mp hp
        have hp' := hs'.persists hs₁
        have hkind' : (s'.graph.node id).kind = .union := (hp'.kind_eq id).trans hkind
        have hmember : (s'.graph.node m).kind = .unionMember := by
          rw [hp'.kind_eq]
          exact hs₁.members id m (List.mem_of_getElem? hi)
        have hstep : LayStep P s' (s'.renameMember name m i) := by
          refine .member hPid hkind' ((hp'.shape id).members ▸ hi) ?_
          rw [hp'.name id (by simp [hkind]) (by simp [hname]), hname]
        obtain ⟨hrename, hren⟩ := persists_renameMember hmember name i
        refine .head hstep (ih (hrename.named (hp'.named hs₁)) (hclosed (hs'.tail hstep)) ?_
          (fun _ => hren) (hlater (hs'.tail hstep) (Graph.lt_size_of_kind (by simp [hkind]))))
        refine hclosed .refl id hPid m ?_
        rw [hmembers]
        exact List.mem_of_getElem? hi
      split
      · exact hnameOf.trans hloop
      · rename_i s₂
        have hjump : LayStep P s₂ (s₂.assignJump id) := .slot id
        refine hnameOf.trans (hloop.trans (.head hjump (.single (.place fun hk => ?_))))
        have hp₂ := hloop.persists hs₁
        rw [(persists_assignJump s₂ id).kind_eq, hp₂.kind_eq, hkind] at hk
        cases hk
    · rename_i hunion
      have hlinks : s₁.graph.kids id = (s₁.graph.node id).items.filterMap (·.kind.link?) := by
        rw [Graph.kids, Node.children, if_neg hunion]
      split
      · exact hnameOf
      generalize hloopEq : s₁.forEach _ (s₁.graph.node id).items = r
      have hloop : LaySteps P s₁ r.1 := by
        rw [← hloopEq]
        refine steps_forEach (fun item hi s' hs' => ?_) .refl
        have hp' := hs'.persists hs₁
        have hvisit {t : NodeId} (ht : item.kind.link? = some t) :
            LaySteps P s' (visit depth s' t (some name)).1 := by
          refine ih (hp'.named hs₁) (hclosed hs') (hclosed .refl id hPid t ?_) (fun hm => ?_)
            (hlater hs' ?_)
          · rw [hlinks]
            exact List.mem_filterMap.mpr ⟨item, hi, ht⟩
          · rw [hp'.kind_eq] at hm
            exact absurd hm (hs₁.links id item hi t ht)
          · by_contra hge
            rw [Graph.node_of_le (not_lt.mp hge)] at hi
            cases hi
        split
        · exact .refl
        · rename_i t hk
          exact hvisit (by rw [hk]; rfl)
        · rename_i t hk
          exact hvisit (by rw [hk]; rfl)
        · exact .refl
      obtain ⟨s₂, r⟩ := r
      cases r with
      | error err => exact hnameOf.trans hloop
      | ok _ =>
        refine hnameOf.trans (hloop.tail (.place fun hk => ?_))
        have hboth := hp₁.trans (hloop.persists hs₁)
        rw [hboth.kind_eq] at hk
        exact (hboth.renamed id (hid hk)).1

/-- **A layout is a sequence of steps**, up to counters and the log. -/
theorem exists_steps_assignOffsets (hs : s.Named)
    (hroots : ∀ id ∈ s.requested, (s.graph.node id).kind ≠ .unionMember) :
    ∃ s' nextOffset nextJump notices, LaySteps (s.graph.Needs s.requested) s s' ∧
      s.assignOffsets.1 = { s' with nextOffset, nextJump, notices } ∧
      ∀ n ∈ s'.notices, n ∈ notices := by
  have hclosed : ∀ a, s.graph.Needs s.requested a → ∀ b ∈ s.graph.kids a,
      s.graph.Needs s.requested b := by
    rintro a ⟨root, hroot, hpath⟩ b hb
    exact ⟨root, hroot, hpath.tail hb⟩
  have hloop : LaySteps (s.graph.Needs s.requested) s
      (s.forEach (fun s root => visit s.graph.size s root none) s.requested).1 := by
    refine steps_forEach (fun root hroot s' hs' => ?_) .refl
    have hp := hs'.persists hs
    refine steps_visit _ (hp.named hs) (fun a ha b hb => hclosed a ha b ?_) ⟨root, hroot, .refl⟩
      (fun hm => ?_) (by simp [IsName])
    · rwa [Graph.kids, (hp.shape a).children] at hb
    · rw [hp.kind_eq] at hm
      exact absurd hm (hroots root hroot)
  rw [assignOffsets, show s.keys.keys.filterMap (·.node) = s.requested from rfl]
  generalize s.forEach _ s.requested = r at hloop ⊢
  obtain ⟨s', result⟩ := r
  cases result with
  | error err => exact ⟨s', _, _, _, hloop, rfl, fun _ hn => hn⟩
  | ok _ => exact ⟨s', _, _, _, hloop, rfl, fun _ hn => Array.mem_push_of_mem _ hn⟩

theorem persists_assignOffsets (h : s.Named)
    (hroots : ∀ id ∈ s.requested, (s.graph.node id).kind ≠ .unionMember) :
    s.Persists s.assignOffsets.1 := by
  obtain ⟨s', _, _, _, hsteps, heq, -⟩ := exists_steps_assignOffsets h hroots
  rw [heq]
  exact (hsteps.persists h).congr rfl rfl rfl

/-- A layout keeps what is in the log. -/
theorem mem_notices_assignOffsets (h : s.Named)
    (hroots : ∀ id ∈ s.requested, (s.graph.node id).kind ≠ .unionMember) {n : Notice}
    (hn : n ∈ s.notices) : n ∈ s.assignOffsets.1.notices := by
  obtain ⟨s', _, _, _, hsteps, heq, hlog⟩ := exists_steps_assignOffsets h hroots
  rw [heq]
  exact hlog n (hsteps.kept.1 ▸ hn)

end Session

end TypeLayout
