import TypeLayout.Proofs.Passes

/-!
# Two layouts side by side

Offsets are assigned and cells are written in two sessions that agree on some nodes and on all
that these need (`Graph.Mirrors`). Everything else may differ: there may be further nodes, so the
bounds on how deep links are followed differ, and further names, so a name that is made up on the
way can have another position in each session. What must agree is how names are spelled
(`Names.Agree`).

If the layout succeeds in the first session it succeeds in the second one, step for step. Writing
then goes through the same nodes in the same order, so the two tables are the same
(`Session.Mirrors.emitTable`).
-/

namespace TypeLayout

/-! ### Names -/

namespace Names

variable {names names' m m' : Names} {x x' : NameId}

/-- Two positions, each in a table of its own, have the same spelling. -/
def Agree (names names' : Names) (x x' : NameId) : Prop :=
  ∃ text, names.get? x = some text ∧ names'.get? x' = some text

theorem Agree.spell (h : names.Agree names' x x') : names'.spell x' = names.spell x := by
  obtain ⟨text, hx, hx'⟩ := h
  rw [Names.spell, Names.spell, hx, hx']

theorem Agree.mono (h : names.Agree names' x x') (hn : names.Extends m) (hn' : names'.Extends m') :
    m.Agree m' x x' := by
  obtain ⟨text, hx, hx'⟩ := h
  exact ⟨text, hn x text hx, hn' x' text hx'⟩

theorem agree_insert (names names' : Names) (text : String) :
    (names.insert text).2.Agree (names'.insert text).2 (names.insert text).1
      (names'.insert text).1 :=
  ⟨text, names.get?_insert text, names'.get?_insert text⟩

/-- So do two positions that may be missing. -/
def AgreeIfAny (names names' : Names) : Option NameId → Option NameId → Prop :=
  Option.Rel (names.Agree names')

theorem AgreeIfAny.mono {y y' : Option NameId} (h : names.AgreeIfAny names' y y')
    (hn : names.Extends m) (hn' : names'.Extends m') : m.AgreeIfAny m' y y' := by
  cases h with
  | some h => exact .some (h.mono hn hn')
  | none => exact .none

end Names

/-! ### Nodes -/

/-- **Two nodes that a layout cannot tell apart**, apart from where their names stand. -/
structure Node.Twin (names names' : Names) (n n' : Node) : Prop extends n.Shape n' where
  offset : n'.offset = n.offset
  jump : n'.jump = n.jump
  renamed : n'.renamed = n.renamed
  emitted : n'.emitted = n.emitted
  name : names.AgreeIfAny names' n.name n'.name
  fragment : names.AgreeIfAny names' n.fragment n'.fragment

theorem Node.Twin.mono {names names' m m' : Names} {n n' : Node} (h : n.Twin names names' n')
    (hn : names.Extends m) (hn' : names'.Extends m') : n.Twin m m' n' :=
  { h with name := h.name.mono hn hn', fragment := h.fragment.mono hn hn' }

/-- **Two graphs that agree on some nodes** and on all that these need, which has a smaller
rank. -/
structure Graph.Mirrors (rank : NodeId → ℕ) (P : NodeId → Prop) (names names' : Names)
    (g g' : Graph) : Prop where
  target : g'.target = g.target
  size : g.size ≤ g'.size
  lt : ∀ id, P id → id < g.size ∧ rank id < g.size
  twin : ∀ id, P id → (g.node id).Twin names names' (g'.node id)
  kids : ∀ id, P id → ∀ b ∈ g.kids id, P b ∧ rank b < rank id

variable {rank : NodeId → ℕ} {P : NodeId → Prop}

namespace Graph.Mirrors

variable {names names' m m' : Names} {g g' : Graph} {id b : NodeId}

/-- A change of one node that is the same in both graphs. -/
theorem modify (h : Mirrors rank P names names' g g') (hn : names.Extends m)
    (hn' : names'.Extends m') {f f' : Node → Node} (hshape : ∀ n : Node, n.Shape (f n))
    (hf : ∀ n n' : Node, n.Twin m m' n' → (f n).Twin m m' (f' n')) :
    Mirrors rank P m m' (g.modify id f) (g'.modify id f') := by
  have hkids (j : NodeId) : (g.modify id f).kids j = g.kids j :=
    node_modify_field f Node.children fun n => (hshape n).children
  refine ⟨h.target, ?_, fun j hj => ?_, fun j hj => ?_, fun j hj b hb => ?_⟩
  · rw [size_modify, size_modify]
    exact h.size
  · rw [size_modify]
    exact h.lt j hj
  · have hlt := (h.lt j hj).1
    rcases eq_or_ne id j with rfl | hne
    · rw [node_modify_self f hlt, node_modify_self f' (lt_of_lt_of_le hlt h.size)]
      exact hf _ _ ((h.twin id hj).mono hn hn')
    · rw [node_modify_of_ne f hne, node_modify_of_ne f' hne]
      exact (h.twin j hj).mono hn hn'
  · exact h.kids j hj b (hkids j ▸ hb)

theorem mem_of_member (h : Mirrors rank P names names' g g') (hid : P id)
    (hu : (g.node id).isUnion = true) (hb : b ∈ (g.node id).members) : P b ∧ rank b < rank id := by
  refine h.kids id hid b ?_
  rwa [Graph.kids, Node.children, if_pos hu]

theorem mem_of_item (h : Mirrors rank P names names' g g') (hid : P id)
    (hu : (g.node id).isUnion = false) {item : Item} (hi : item ∈ (g.node id).items)
    (hb : item.kind.link? = some b) : P b ∧ rank b < rank id := by
  refine h.kids id hid b ?_
  rw [Graph.kids, Node.children, if_neg (by simp [hu])]
  exact List.mem_filterMap.mpr ⟨item, hi, hb⟩

end Graph.Mirrors

/-! ### Assigning offsets -/

namespace Session

/-- Two sessions that agree on some nodes, and have given out as many cells and slots. -/
structure Mirrors (rank : NodeId → ℕ) (P : NodeId → Prop) (s s' : Session) : Prop where
  graph : s.graph.Mirrors rank P s.names s'.names s'.graph
  nextOffset : s'.nextOffset = s.nextOffset
  nextJump : s'.nextJump = s.nextJump

/-- **Two sessions have stayed in step** since two earlier ones. -/
structure InStep (rank : NodeId → ℕ) (P : NodeId → Prop) (s s' t t' : Session) : Prop
    extends t.Mirrors rank P t' where
  names : s.names.Extends t.names
  names' : s'.names.Extends t'.names

variable {s s' t t' u u' : Session} {id : NodeId}

theorem Mirrors.inStep (h : s.Mirrors rank P s') : InStep rank P s s' s s' := ⟨h, .refl _, .refl _⟩

theorem InStep.trans (h : InStep rank P s s' t t') (h' : InStep rank P t t' u u') :
    InStep rank P s s' u u' :=
  ⟨h'.toMirrors, h.names.trans h'.names, h.names'.trans h'.names'⟩

/-- A node that gets a name, in both sessions. -/
theorem Mirrors.label (h : s.Mirrors rank P s') (id : NodeId) (text : String) :
    InStep rank P s s'
      ((s.intern text).2.modifyNode id fun n =>
        { n with name := some (s.intern text).1, renamed := true })
      ((s'.intern text).2.modifyNode id fun n =>
        { n with name := some (s'.intern text).1, renamed := true }) := by
  have hn := s.names.extends_insert text
  have hn' := s'.names.extends_insert text
  refine ⟨⟨h.graph.modify hn hn' (fun _ => ⟨rfl, rfl, rfl, rfl, rfl⟩) fun n n' ht => ?_,
    h.nextOffset, h.nextJump⟩, hn, hn'⟩
  exact { ht with renamed := rfl, name := .some (s.names.agree_insert s'.names text) }

theorem Mirrors.nameOf (h : s.Mirrors rank P s') (hid : P id) {parent parent' : Option NameId}
    (hp : s.names.AgreeIfAny s'.names parent parent') :
    InStep rank P s s' (s.nameOf id parent).2 (s'.nameOf id parent').2 ∧
      (s.nameOf id parent).2.names.Agree (s'.nameOf id parent').2.names (s.nameOf id parent).1
        (s'.nameOf id parent').1 := by
  have htwin := h.graph.twin id hid
  have hname := htwin.name
  have hfragment : ((s'.graph.node id).fragment.map s'.names.spell).getD "anon" =
      ((s.graph.node id).fragment.map s.names.spell).getD "anon" := by
    have hagree := htwin.fragment
    generalize (s.graph.node id).fragment = y at *
    generalize (s'.graph.node id).fragment = y' at *
    cases hagree with
    | some hagree => exact hagree.spell
    | none => rfl
  unfold Session.nameOf
  dsimp only
  generalize (s.graph.node id).name = y at *
  generalize (s'.graph.node id).name = y' at *
  cases hname with
  | some hname => exact ⟨h.inStep, hname⟩
  | none =>
    dsimp only
    rw [hfragment]
    cases hp with
    | some hp =>
      dsimp only
      rw [hp.spell]
      exact ⟨h.label id _, s.names.agree_insert s'.names _⟩
    | none => exact ⟨h.label id _, s.names.agree_insert s'.names _⟩

theorem Mirrors.renameMember (h : s.Mirrors rank P s') {member : NodeId} (hm : P member)
    {union union' : NameId} (hu : s.names.Agree s'.names union union') (i : ℕ) :
    InStep rank P s s' (s.renameMember union member i) (s'.renameMember union' member i) := by
  unfold Session.renameMember
  rw [(h.graph.twin member hm).renamed, hu.spell]
  split
  · exact h.inStep
  · exact h.label member _

theorem Mirrors.assignJump (h : s.Mirrors rank P s') (hid : P id) :
    InStep rank P s s' (s.assignJump id) (s'.assignJump id) := by
  unfold Session.assignJump
  rw [(h.graph.twin id hid).jump]
  split
  · exact h.inStep
  · refine ⟨⟨h.graph.modify (.refl _) (.refl _) (fun _ => ⟨rfl, rfl, rfl, rfl, rfl⟩)
      fun n n' ht => ?_, h.nextOffset, congrArg (· + 1) h.nextJump⟩, .refl _, .refl _⟩
    exact { ht with jump := by rw [h.nextJump] }

theorem Mirrors.assignOffset (h : s.Mirrors rank P s') (hid : P id) :
    InStep rank P s s' (s.assignOffset id) (s'.assignOffset id) := by
  refine ⟨⟨h.graph.modify (.refl _) (.refl _) (fun _ => ⟨rfl, rfl, rfl, rfl, rfl⟩)
    fun n n' ht => ?_, ?_, h.nextJump⟩, .refl _, .refl _⟩
  · exact { ht with offset := by rw [h.nextOffset] }
  · exact congrArg₂ (· + ·) h.nextOffset (h.graph.twin id hid).cellCount

/-- A loop that succeeds in one session succeeds in the other one, if each round does. -/
theorem exists_forEach {α ε : Type} {R : Session → Session → Prop}
    {f f' : Session → α → Session × Except ε Unit} {l : List α}
    (hf : ∀ a ∈ l, ∀ s s' t, R s s' → f s a = (t, .ok ()) →
      ∃ t', f' s' a = (t', .ok ()) ∧ R t t')
    (h : R s s') (ht : s.forEach f l = (t, .ok ())) :
    ∃ t', s'.forEach f' l = (t', .ok ()) ∧ R t t' := by
  induction l generalizing s s' with
  | nil => exact ⟨s', rfl, (Prod.mk.inj ht).1 ▸ h⟩
  | cons a l ih =>
    rw [forEach] at ht
    rcases hfa : f s a with ⟨s₁, err | _⟩
    · simp [hfa] at ht
    · rw [hfa] at ht
      obtain ⟨s₁', hfa', h₁⟩ := hf a List.mem_cons_self s s' s₁ h hfa
      obtain ⟨t', ht', hR⟩ := ih (fun b hb => hf b (List.mem_cons_of_mem a hb)) h₁ ht
      exact ⟨t', by rw [forEach, hfa']; exact ht', hR⟩

/-- Visits of one depth in the first session are followed by visits of another one in the
second. -/
def VisitsMirror (rank : NodeId → ℕ) (P : NodeId → Prop) (depth depth' : ℕ) (id : NodeId) : Prop :=
  ∀ s s' t parent parent', s.Mirrors rank P s' → s.names.AgreeIfAny s'.names parent parent' →
    visit depth s id parent = (t, .ok ()) →
      ∃ t', visit depth' s' id parent' = (t', .ok ()) ∧ InStep rank P s s' t t'

variable {depth depth' : ℕ} {name name' : NameId}

theorem Mirrors.visitMembers {members : List NodeId} (h : s.Mirrors rank P s')
    (hn : s.names.Agree s'.names name name')
    (hv : ∀ m ∈ members, P m ∧ VisitsMirror rank P depth depth' m)
    {f f' : Session → NodeId × ℕ → Session × Except LayoutFault Unit}
    (hf : ∀ s p, f s p = visit depth (s.renameMember name p.1 p.2) p.1 (some name))
    (hf' : ∀ s p, f' s p = visit depth' (s.renameMember name' p.1 p.2) p.1 (some name'))
    (ht : s.forEach f members.zipIdx = (t, .ok ())) :
    ∃ t', s'.forEach f' members.zipIdx = (t', .ok ()) ∧ InStep rank P s s' t t' := by
  refine exists_forEach (fun p hp t t' u ht hu => ?_) h.inStep ht
  have hmem : p.1 ∈ members := by
    rw [← List.zipIdx_map_fst 0 members]
    exact List.mem_map_of_mem hp
  obtain ⟨hm, hvisit⟩ := hv p.1 hmem
  have hrename := ht.toMirrors.renameMember hm (hn.mono ht.names ht.names') p.2
  have hstep := ht.trans hrename
  rw [hf] at hu
  obtain ⟨u', hu', hstep'⟩ := hvisit _ _ u _ _ hrename.toMirrors
    (.some (hn.mono hstep.names hstep.names')) hu
  exact ⟨u', by rw [hf', hu'], hstep.trans hstep'⟩

theorem Mirrors.visitItems {items : List Item} (h : s.Mirrors rank P s')
    (hn : s.names.Agree s'.names name name')
    (hv : ∀ item ∈ items, ∀ b, item.kind.link? = some b → VisitsMirror rank P depth depth' b)
    {f f' : Session → Item → Session × Except LayoutFault Unit}
    (hfun : ∀ s item, item.kind = .function → ∃ err, f s item = (s, .error err))
    (hlink : ∀ s item b, item.kind.link? = some b → f s item = visit depth s b (some name))
    (hlink' : ∀ s item b, item.kind.link? = some b → f' s item = visit depth' s b (some name'))
    (hscalar : ∀ s item, item.kind ≠ .function → item.kind.link? = none →
      f s item = (s, .ok ()) ∧ f' s item = (s, .ok ()))
    (ht : s.forEach f items = (t, .ok ())) :
    ∃ t', s'.forEach f' items = (t', .ok ()) ∧ InStep rank P s s' t t' := by
  refine exists_forEach (fun item hi t t' u ht hu => ?_) h.inStep ht
  cases hl : item.kind.link? with
  | some b =>
    rw [hlink t item b hl] at hu
    obtain ⟨u', hu', hstep⟩ := hv item hi b hl _ _ u _ _ ht.toMirrors
      (.some (hn.mono ht.names ht.names')) hu
    exact ⟨u', by rw [hlink' t' item b hl, hu'], ht.trans hstep⟩
  | none =>
    by_cases hk : item.kind = .function
    · obtain ⟨err, herr⟩ := hfun t item hk
      rw [herr] at hu
      cases hu
    · rw [(hscalar t item hk hl).1] at hu
      exact ⟨t', (hscalar t' item hk hl).2, (Prod.mk.inj hu).1 ▸ ht⟩

/-- **A visit in one session is followed by one in the other**, if both go deep enough. -/
theorem Mirrors.visit (hd : rank id < depth) (hd' : depth ≤ depth') (hid : P id) :
    VisitsMirror rank P depth depth' id := by
  intro s s' t parent parent' h hp hv
  -- the rank falls along links, so the first depth is never used up, nor is the second
  induction depth generalizing id depth' s s' t parent parent' with
  | zero => exact absurd hd (Nat.not_lt_zero _)
  | succ depth ih =>
    obtain ⟨depth', rfl⟩ : ∃ k, depth' = k + 1 := ⟨depth' - 1, by omega⟩
    have hkid {b : NodeId} (hb : P b ∧ rank b < rank id) :
        VisitsMirror rank P depth depth' b := fun s s' t parent parent' h hp hv =>
      ih (by omega) (by omega) hb.1 s s' t parent parent' h hp hv
    rw [Session.visit] at hv ⊢
    rw [(h.graph.twin id hid).offset]
    split at hv
    · rename_i hplaced
      rw [if_pos hplaced]
      exact ⟨s', rfl, (Prod.mk.inj hv).1 ▸ h.inStep⟩
    rename_i hplaced
    rw [if_neg hplaced]
    -- the node gets its name in both sessions; from here on its position may differ
    obtain ⟨hstep, hname⟩ := h.nameOf hid hp
    dsimp only at hv ⊢
    generalize s.nameOf id parent = r at *
    generalize s'.nameOf id parent' = r' at *
    obtain ⟨name, s₁⟩ := r
    obtain ⟨name', s₁'⟩ := r'
    dsimp only at *
    have h₁ := hstep.toMirrors
    have htwin := h₁.graph.twin id hid
    rw [htwin.isUnion, htwin.members, htwin.items]
    -- a union visits its members, all else the links of its items
    cases hu : (s₁.graph.node id).isUnion with
    | true =>
      rw [hu, if_pos rfl] at hv
      rw [if_pos rfl]
      split at hv
      · cases hv
      rename_i hempty
      rw [if_neg hempty]
      split at hv
      · cases hv
      rename_i s₂ hloop
      obtain ⟨s₂', hloop', h₂⟩ := h₁.visitMembers hname (fun m hm =>
        have hm := h₁.graph.mem_of_member hid hu hm
        ⟨hm.1, hkid hm⟩) (fun _ _ => rfl) (fun _ _ => rfl) hloop
      rw [hloop']
      have hjump := h₂.toMirrors.assignJump hid
      have hoffset := hjump.toMirrors.assignOffset hid
      exact ⟨_, rfl, (Prod.mk.inj hv).1 ▸ hstep.trans (h₂.trans (hjump.trans hoffset))⟩
    | false =>
      rw [hu, if_neg (by simp)] at hv
      rw [if_neg (by simp)]
      split at hv
      · cases hv
      rename_i hempty
      rw [if_neg hempty]
      generalize hloop : s₁.forEach _ (s₁.graph.node id).items = r at hv
      generalize hloop' : s₁'.forEach _ (s₁.graph.node id).items = r'
      obtain ⟨s₂, err | _⟩ := r
      · cases hv
      have hvisited : ∃ s₂', r' = (s₂', .ok ()) ∧ InStep rank P s₁ s₁' s₂ s₂' := by
        rw [← hloop']
        refine h₁.visitItems hname (fun item hi b hb => hkid (h₁.graph.mem_of_item hid hu hi hb))
          (fun s item hk => ?_) (fun s item b hb => ?_) (fun s item b hb => ?_)
          (fun s item hk hb => ?_) hloop
        · simp only [hk]
          exact ⟨_, rfl⟩
        · cases hk : item.kind <;> simp_all [Element.link?]
        · cases hk : item.kind <;> simp_all [Element.link?]
        · cases hk : item.kind <;> simp_all [Element.link?]
      obtain ⟨s₂', rfl, h₂⟩ := hvisited
      exact ⟨_, rfl, (Prod.mk.inj hv).1 ▸ hstep.trans (h₂.trans (h₂.toMirrors.assignOffset hid))⟩

/-- **The layout succeeds in both sessions** if it does in the first one, for the same keys. -/
theorem Mirrors.assignOffsets (h : s.Mirrors rank P s') (hk : s'.keys = s.keys)
    (hroots : ∀ id ∈ s.requested, P id) (ha : s.assignOffsets = (t, .ok ())) :
    ∃ t', s'.assignOffsets = (t', .ok ()) ∧ InStep rank P s s' t t' := by
  unfold Session.assignOffsets at ha ⊢
  rw [hk]
  dsimp only at ha ⊢
  split at ha
  · cases ha
  rename_i t₁ hloop
  have hvisited := @exists_forEach s s' t₁ _ _ (InStep rank P s s') _
    (fun s root => Session.visit s.graph.size s root none) _ (fun id hid u u' v hu hv => ?_)
    h.inStep hloop
  · obtain ⟨t₁', hloop', h₁⟩ := hvisited
    rw [hloop']
    obtain rfl := (Prod.mk.inj ha).1
    exact ⟨_, rfl, ⟨h₁.graph, h₁.nextOffset, h₁.nextJump⟩, h₁.names, h₁.names'⟩
  · have hP := hroots id hid
    obtain ⟨v', hv', hstep⟩ := Mirrors.visit (hu.graph.lt id hP).2 hu.graph.size hP u u' v none none
      hu.toMirrors .none hv
    exact ⟨v', hv', hu.trans hstep⟩

end Session

/-! ### Writing cells -/

namespace Draft

/-- **Two drafts that agree** on some nodes, with the same members recorded. -/
structure Mirrors (rank : NodeId → ℕ) (P : NodeId → Prop) (names names' : Names) (d d' : Draft) :
    Prop where
  graph : d.graph.Mirrors rank P names names' d'.graph
  members : d'.members = d.members

variable {names names' : Names} {d d' t t' : Draft} {id : NodeId}

/-- Writing a node leaves the graph and the recorded members alone. -/
theorem write_ok (h : d.write names id = .ok t) : t.graph = d.graph ∧ t.members = d.members := by
  unfold Draft.write at h
  dsimp only at h
  repeat' split at h
  all_goals cases h
  all_goals exact ⟨rfl, rfl⟩

theorem Mirrors.forEach {α : Type} {f f' : Draft → α → Draft × Except EmitFault Unit} {l : List α}
    (hf : ∀ a ∈ l, ∀ d d' t t', d.Mirrors rank P names names' d' → f d a = (t, .ok ()) →
      f' d' a = (t', .ok ()) → t.Mirrors rank P names names' t')
    (h : d.Mirrors rank P names names' d') (ht : d.forEach f l = (t, .ok ()))
    (ht' : d'.forEach f' l = (t', .ok ())) : t.Mirrors rank P names names' t' := by
  induction l generalizing d d' with
  | nil => exact (Prod.mk.inj ht).1 ▸ (Prod.mk.inj ht').1 ▸ h
  | cons a l ih =>
    rw [Draft.forEach] at ht ht'
    rcases hfa : f d a with ⟨d₁, err | _⟩
    · simp [hfa] at ht
    rcases hfa' : f' d' a with ⟨d₁', err | _⟩
    · simp [hfa'] at ht'
    rw [hfa] at ht
    rw [hfa'] at ht'
    exact ih (fun b hb => hf b (List.mem_cons_of_mem a hb))
      (hf a List.mem_cons_self d d' d₁ d₁' h hfa hfa') ht ht'

/-- **Where a node is written in both drafts they go on to agree**, if both go deep enough. -/
theorem Mirrors.emit {depth depth' : ℕ} (hd : rank id < depth) (hd' : rank id < depth') (hid : P id)
    (h : d.Mirrors rank P names names' d') (ht : emit names depth d id = (t, .ok ()))
    (ht' : Draft.emit names' depth' d' id = (t', .ok ())) : t.Mirrors rank P names names' t' := by
  induction depth generalizing id depth' d d' t t' with
  | zero => exact absurd hd (Nat.not_lt_zero _)
  | succ depth ih =>
    obtain ⟨depth', rfl⟩ : ∃ k, depth' = k + 1 := ⟨depth' - 1, by omega⟩
    rw [Draft.emit] at ht ht'
    rw [(h.graph.twin id hid).emitted] at ht'
    split at ht
    · rename_i hwritten
      rw [if_pos hwritten] at ht'
      exact (Prod.mk.inj ht).1 ▸ (Prod.mk.inj ht').1 ▸ h
    rename_i hwritten
    rw [if_neg hwritten] at ht'
    have h₁ : Mirrors rank P names names'
        { d with graph := d.graph.modify id fun n => { n with emitted := true } }
        { d' with graph := d'.graph.modify id fun n => { n with emitted := true } } :=
      ⟨h.graph.modify (.refl _) (.refl _) (fun _ => ⟨rfl, rfl, rfl, rfl, rfl⟩)
        fun _ _ ht => { ht with emitted := rfl }, h.members⟩
    dsimp only at ht ht'
    generalize (d.graph.modify id fun n => { n with emitted := true }) = g at *
    generalize (d'.graph.modify id fun n => { n with emitted := true }) = g' at *
    have htwin := h₁.graph.twin id hid
    dsimp only at htwin
    rw [htwin.isUnion, htwin.members, htwin.items] at ht'
    -- what the node needs is written first, which leaves two drafts that agree
    generalize hneeds : (if (g.node id).isUnion = true then _ else _ : Draft × _) = r at ht
    generalize hneeds' : (if (g.node id).isUnion = true then _ else _ : Draft × _) = r' at ht'
    obtain ⟨d₂, err | _⟩ := r
    · cases ht
    obtain ⟨d₂', err | _⟩ := r'
    · cases ht'
    have h₂ : d₂.Mirrors rank P names names' d₂' := by
      cases hu : (g.node id).isUnion with
      | true =>
        rw [hu, if_pos rfl] at hneeds hneeds'
        refine h₁.forEach (fun m hm u u' v v' hu' hv hv' => ?_) hneeds hneeds'
        obtain ⟨hm, hlt⟩ := h₁.graph.mem_of_member hid hu hm
        split at hv
        · cases hv
        rename_i v₁ hemit
        split at hv'
        · cases hv'
        rename_i v₁' hemit'
        obtain ⟨hgraph, hmembers⟩ := ih (by omega) (by omega) hm hu' hemit hemit'
        obtain rfl := (Prod.mk.inj hv).1
        obtain rfl := (Prod.mk.inj hv').1
        exact ⟨hgraph, congrArg (· ++ [m]) hmembers⟩
      | false =>
        rw [hu, if_neg (by simp)] at hneeds hneeds'
        refine h₁.forEach (fun b hb u u' v v' hu' hv hv' => ?_) hneeds hneeds'
        obtain ⟨item, hi, hb⟩ := List.mem_filterMap.mp hb
        obtain ⟨hb, hlt⟩ := h₁.graph.mem_of_item hid hu hi hb
        exact ih (by omega) (by omega) hb hu' hv hv'
    dsimp only at ht ht'
    split at ht
    · cases ht
    rename_i d₃ hwrite
    split at ht'
    · cases ht'
    rename_i d₃' hwrite'
    obtain ⟨hgraph, hmembers⟩ := write_ok hwrite
    obtain ⟨hgraph', hmembers'⟩ := write_ok hwrite'
    obtain rfl := (Prod.mk.inj ht).1
    obtain rfl := (Prod.mk.inj ht').1
    exact ⟨hgraph ▸ hgraph' ▸ h₂.graph, by rw [hmembers, hmembers', h₂.members]⟩

end Draft

/-! ### Tables -/

namespace Graph

variable {g g' : Graph} {order : List NodeId}

/-- Where nodes are placed is seen from the nodes that are. -/
theorem placesIn_congr (h : ∀ id ∈ order, (g.node id).Shape (g'.node id)) :
    g'.placesIn order = g.placesIn order := by
  have hbefore (f : Node → ℕ) (hf : ∀ n n', n.Shape n' → f n' = f n) (id : NodeId) :
      ((before order id).map fun id => f (g'.node id)).sum =
        ((before order id).map fun id => f (g.node id)).sum :=
    congrArg List.sum (List.map_congr_left fun x hx => hf _ _ (h x (List.mem_of_mem_take hx)))
  have hoffset : g'.offsetIn order = g.offsetIn order :=
    funext (hbefore Node.cellCount fun _ _ hs => hs.cellCount)
  have hjump : g'.jumpIn order = g.jumpIn order :=
    funext (hbefore (if ·.isUnion then 1 else 0) fun _ _ hs => by rw [hs.isUnion])
  rw [placesIn, placesIn, hoffset, hjump]

end Graph

namespace Session

variable {s s' : Session} {g g' : Graph} {order order' : List NodeId}

theorem Mirrors.spelled (h : s.Mirrors rank P s') {id : NodeId} (hid : P id) :
    s'.spelled id = s.spelled id := by
  have hname := (h.graph.twin id hid).name
  unfold Session.spelled
  generalize (s.graph.node id).name = y at *
  generalize (s'.graph.node id).name = y' at *
  cases hname with
  | some hname => exact hname.spell
  | none => rfl

section LaidOut

variable (h : s.Mirrors rank P s') (hl : s.LaidOut g order) (hl' : s'.LaidOut g' order')

include h hl hl'

theorem Mirrors.shape {id : NodeId} (hid : P id) : (g.node id).Shape (g'.node id) :=
  have hshape := (hl.laid.shape id).trans (h.graph.twin id hid).toShape
  hshape.trans (hl'.laid.shape id).symm

/-- The nodes are placed in the same order. -/
theorem Mirrors.order_eq (hr : s'.roots = s.roots) (hroots : ∀ p ∈ s.roots, P p.1) :
    order' = order ∧ ∀ id ∈ order, P id := by
  have hrequested : s'.requested = s.requested := by rw [← map_roots, hr, map_roots]
  have hw' := hl'.walk
  rw [hrequested] at hw'
  have htodo : ∀ id ∈ s.requested, P id := fun id hid => by
    rw [← map_roots] at hid
    obtain ⟨p, hp, rfl⟩ := List.mem_map.mp hid
    exact hroots p hp
  have hclosed (id : NodeId) (hid : P id) : ∀ b ∈ g.kids id, P b := fun b hb =>
    (h.graph.kids id hid b (by rwa [Graph.kids, (hl.laid.shape id).children])).1
  refine ⟨(hl.walk.unique_of_agree hw' (fun id hid => ⟨?_, hclosed id hid⟩) htodo).symm, ?_⟩
  · exact (h.shape hl hl' hid).children
  · exact fun id hid => (hl.walk.forall_of_closed hclosed htodo id hid).resolve_left (by simp)

/-- **From both sessions the same table is written**, or the same is refused. -/
theorem Mirrors.emitTable (hr : s'.roots = s.roots) (hroots : ∀ p ∈ s.roots, P p.1) :
    s'.emitTable.2 = s.emitTable.2 := by
  obtain ⟨rfl, hP⟩ := h.order_eq hl hl' hr hroots
  have hshape (id : NodeId) (hid : id ∈ order') : (g.node id).Shape (g'.node id) :=
    h.shape hl hl' (hP id hid)
  have hplaces : g'.placesIn order' = g.placesIn order' :=
    Graph.placesIn_congr hshape
  obtain ⟨hoffset, hjump⟩ := Places.mk.inj hplaces
  obtain ⟨d, hloop, hd, -, -, table, htarget, hcells, hsymbols, hstarts, hjumps, he⟩ := exists_emitTable hl
  obtain ⟨d', hloop', hd', -, -, table', htarget', hcells', hsymbols', hstarts', hjumps',
    he'⟩ := exists_emitTable hl'
  -- the members are recorded in the same order
  have hstart : ({ graph := s.graph } : Draft).Mirrors rank P s.names s'.names
      { graph := s'.graph } := ⟨h.graph, rfl⟩
  have hdrafts : d.Mirrors rank P s.names s'.names d' :=
    hstart.forEach (fun p hp d d' t t' hd ht ht' =>
      have hlt := (h.graph.lt p.1 (hroots p hp)).2
      hd.emit hlt (hlt.trans_le h.graph.size) (hroots p hp) ht ht') hloop (hr ▸ hloop')
  have hspelled : ∀ id ∈ order', s'.spelled id = s.spelled id := fun id hid => h.spelled (hP id hid)
  have htarget : table'.target = table.target := by
    rw [htarget', htarget, ← hl'.laid.target, ← hl.laid.target, h.graph.target]
  have hcells : table'.cells = table.cells := by
    rw [hcells', hcells, hplaces]
    refine List.flatMap_congr fun id hid => Graph.record_congr (hshape id hid) fun item hi => ?_
    cases hk : item.kind with
    | unionLink b =>
      have hb : b ∈ g.kids id := (hl.serves.settled.nodes id).mem_children.mpr
        (.inr ⟨item, hi, by rw [hk]; rfl⟩)
      rw [Graph.linkCells, (hshape b (hl.mem_of_mem_children hid hb)).align]
      rfl
    | _ => rfl
  have hstarts : table'.starts = table.starts := by
    rw [hstarts', hstarts, hd'.starts, hd.starts, hoffset]
    exact List.map_congr_left fun id hid => by rw [hspelled id hid]
  have hsymbols : table'.symbols = table.symbols := by
    rw [hsymbols', hsymbols, keySymbols, keySymbols, hr, hoffset, hdrafts.members, memberSymbols,
      memberSymbols, hoffset]
    refine congrArg _ (List.map_congr_left fun id hid => ?_)
    rw [hspelled id (hl.mem_of_mem_members hd hid)]
  have hjumps : table'.jumpSlots = table.jumpSlots := by
    rw [hjumps', hjumps, hd'.jumpSlots, hd.jumpSlots, hjump,
      List.filter_congr fun id hid => (hshape id hid).isUnion]
    refine congrArg (List.mergeSort · _) (List.map_congr_left fun id hid => ?_)
    rw [hspelled id (List.mem_of_mem_filter hid)]
  have htable : table' = table := by
    cases table'
    cases table
    exact (DescriptorTable.mk.injEq ..).mpr ⟨htarget, hcells, hstarts, hsymbols, hjumps⟩
  rw [he', he, htable]

end LaidOut

end Session

end TypeLayout
