import TypeLayout.Proofs.Passes

/-!
# Members are named after their union

The members of a union have no names in the source. They get them from the layout: the name of
the union and the place of the member in it, put together when the union is visited. By the time
a union is written, its name must not have changed, or its members would not be named after it
any more.

Of the steps of a layout only one names a member, and it takes the name of a union that has one
and, by then, keeps it. So what a member is called can be said for the whole of a layout
(`Session.Titled`): after it, every member that has a place is called after some union that is
needed, and its place in there.
-/

namespace TypeLayout

namespace Session

variable {P : NodeId → Prop} {s s' s'' : Session} {id : NodeId} {T : String → Prop}

/-! ### Names that can be spelled -/

/-- **Names that are made up from names** of which `P` holds are such names again. -/
structure MadeUp (P : String → Prop) : Prop where
  anon : P "anon"
  joined : ∀ x y, P x → P y → P (x ++ "_" ++ y)
  numbered : ∀ x (i : ℕ), P x → P (x ++ s!"_{i}")

theorem madeUp_unbroken : MadeUp Unbroken where
  anon := by unfold Unbroken; decide
  joined x y hx hy := by simpa [Unbroken] using ⟨hx, hy⟩
  numbered x i hx := by simpa [Unbroken, newline_not_mem_toDigits, toString_text] using hx

/-- A node is named by a new text. -/
theorem spelledBy_rename (h : s.graph.SpelledBy T s.names) (id : NodeId) {x : String} (hx : T x) :
    let s' := (s.intern x).2.modifyNode id fun n =>
      { n with name := some (s.intern x).1, renamed := true }
    s'.graph.SpelledBy T s'.names :=
  ((keepsNames_intern s x).trans (keepsNames_modifyNode id (get?_intern s x) hx
    fun _ _ => Or.rec .inr (.inl ∘ .inr))).spelled h

theorem spell_of_spelledBy (h : s.graph.SpelledBy T s.names) {name : NameId}
    (hname : (s.graph.node id).name = some name ∨ (s.graph.node id).fragment = some name) :
    T (s.names.spell name) := by
  obtain ⟨x, hx, hT⟩ := h id name hname
  simpa [Names.spell, hx] using hT

/-- **A step of the layout** names nodes after nodes that have names, or after fragments. -/
theorem LayStep.spelledBy (hT : MadeUp T) (h : LayStep P s s') (hs : s.graph.SpelledBy T s.names) :
    s'.graph.SpelledBy T s'.names := by
  cases h with
  | @name id parent hp hk =>
    unfold nameOf
    dsimp only
    split
    · exact hs
    · have hfragment : T (((s.graph.node id).fragment.map s.names.spell).getD "anon") := by
        cases hf : (s.graph.node id).fragment with
        | none => exact hT.anon
        | some f => exact spell_of_spelledBy hs (.inr hf)
      cases parent with
      | none => exact spelledBy_rename hs id hfragment
      | some p =>
        obtain ⟨u, hu⟩ := hp p rfl
        exact spelledBy_rename hs id (hT.joined _ _ (spell_of_spelledBy hs (.inl hu)) hfragment)
  | member hu hk hm hname =>
    unfold renameMember
    split
    · exact hs
    · exact spelledBy_rename hs _ (hT.numbered _ _ (spell_of_spelledBy hs (.inl hname)))
  | slot id =>
    unfold assignJump
    split
    · exact hs
    · exact hs.of_labels fun j => Graph.node_modify_field _ Node.labels fun _ => rfl
  | place hid => exact hs.of_labels fun j => Graph.node_modify_field _ Node.labels fun _ => rfl

theorem LaySteps.spelledBy (hT : MadeUp T) (h : LaySteps P s s') (hs : s.graph.SpelledBy T s.names) :
    s'.graph.SpelledBy T s'.names := by
  induction h with
  | refl => exact hs
  | tail _ hstep ih => exact hstep.spelledBy hT ih

/-- A node that keeps its name is spelled as before. -/
theorem spelled_eq (hn : s.names.Extends s'.names) (hs : s.graph.SpelledBy T s.names)
    (hname : (s'.graph.node id).name = (s.graph.node id).name) : s'.spelled id = s.spelled id := by
  rw [spelled, spelled, hname]
  cases hid : (s.graph.node id).name with
  | none => rfl
  | some name =>
    obtain ⟨x, hx, -⟩ := hs id name (.inl hid)
    simp only [Option.map_some, Option.getD_some, Names.spell, hx, hn name x hx]

/-! ### What members are called -/

/-- A member is called after a union and its place in there. -/
def CalledAfter (s : Session) (m u : NodeId) (i : ℕ) : Prop :=
  (s.graph.node u).members[i]? = some m ∧ s.spelled m = s.spelled u ++ s!"_{i}"

/-- **Members that have been named are called after their union**, which has its name for
good. -/
structure Titled (P : NodeId → Prop) (s : Session) : Prop where
  spelled : s.graph.SpelledBy Unbroken s.names
  title : ∀ m, (s.graph.node m).kind = .unionMember → (s.graph.node m).renamed = true →
    ∃ u i, P u ∧ (s.graph.node u).kind = .union ∧ (s.graph.node u).name.isSome = true ∧
      s.CalledAfter m u i

theorem renamed_assignJump (s : Session) (id j : NodeId) :
    ((s.assignJump id).graph.node j).renamed = (s.graph.node j).renamed := by
  rw [assignJump]
  split
  · rfl
  · exact Graph.node_modify_field (fun n => { n with jump := some s.nextJump }) Node.renamed
      fun _ => rfl

theorem renamed_assignOffset (s : Session) (id j : NodeId) :
    ((s.assignOffset id).graph.node j).renamed = (s.graph.node j).renamed :=
  Graph.node_modify_field (fun n => { n with offset := some s.nextOffset }) Node.renamed fun _ => rfl

/-- Only the step that names a member makes it count as named. -/
theorem LayStep.renamed_or (h : LayStep P s s') {m : NodeId}
    (hk : (s.graph.node m).kind = .unionMember) (hr : (s'.graph.node m).renamed = true) :
    (s.graph.node m).renamed = true ∨ ∃ (u : NodeId) (i : ℕ) (name : NameId), P u ∧
      (s.graph.node u).kind = .union ∧
      (s.graph.node u).members[i]? = some m ∧ (s.graph.node u).name = some name ∧
      s'.spelled m = s.names.spell name ++ s!"_{i}" := by
  cases h with
  | @name id parent _ hid =>
    left
    have hne : id ≠ m := fun heq => hid (heq ▸ hk)
    rw [nameOf] at hr
    dsimp only at hr
    split at hr
    · exact hr
    · rw [modifyNode, Graph.node_modify_of_ne _ hne] at hr
      exact hr
  | @member u m' i name hu hku hm hname =>
    rcases eq_or_ne m' m with rfl | hne
    · by_cases hold : (s.graph.node m').renamed = true
      · exact .inl hold
      · refine .inr ⟨u, i, name, hu, hku, hm, hname, ?_⟩
        have hlt : m' < s.graph.size := Graph.lt_size_of_kind (by simp [hk])
        rw [renameMember, if_neg hold]
        generalize s.names.spell name ++ s!"_{i}" = x
        have hnode : (((s.intern x).2.modifyNode m' fun n =>
            { n with name := some (s.intern x).1, renamed := true }).graph.node m').name =
              some (s.intern x).1 := congrArg Node.name (Graph.node_modify_self _ hlt)
        rw [Session.spelled, hnode, Option.map_some, Option.getD_some, Names.spell]
        exact congrArg (Option.getD · "") (get?_intern s x)
    · left
      rw [renameMember] at hr
      split at hr
      · exact hr
      · exact (congrArg Node.renamed (Graph.node_modify_of_ne _ hne)).symm.trans hr
  | slot id => exact .inl ((renamed_assignJump s id m).symm.trans hr)
  | place hid => exact .inl ((renamed_assignOffset s _ m).symm.trans hr)

/-- **One step keeps what members are called.** -/
theorem Titled.step (h : s.Titled P) (hs : s.Named) (hstep : LayStep P s s') : s'.Titled P := by
  have hp := hstep.persists hs
  have hkeep {u : NodeId} (hu : (s.graph.node u).kind = .union)
      (hname : (s.graph.node u).name.isSome = true) :
      (s'.graph.node u).kind = .union ∧ (s'.graph.node u).name.isSome = true ∧
        (s'.graph.node u).members = (s.graph.node u).members ∧ s'.spelled u = s.spelled u := by
    have hsame := hp.name u (by simp [hu]) hname
    exact ⟨(hp.kind_eq u).trans hu, hsame ▸ hname, (hp.shape u).members,
      spelled_eq hp.names h.spelled hsame⟩
  refine ⟨hstep.spelledBy madeUp_unbroken h.spelled, fun m hk hr => ?_⟩
  rw [hp.kind_eq] at hk
  rcases hstep.renamed_or hk hr with hold | ⟨u, i, name, hu, hku, hm, hname, htitle⟩
  · obtain ⟨u, i, hu, hku, hname, hm, htitle⟩ := h.title m hk hold
    obtain ⟨hku', hname', hmembers, hspelled⟩ := hkeep hku hname
    refine ⟨u, i, hu, hku', hname', hmembers.symm ▸ hm, ?_⟩
    rw [spelled_eq hp.names h.spelled (hp.renamed m hold).2, htitle, hspelled]
  · obtain ⟨hku', hname', hmembers, hspelled⟩ := hkeep hku (by simp [hname])
    refine ⟨u, i, hu, hku', hname', hmembers.symm ▸ hm, ?_⟩
    rw [htitle, hspelled, Session.spelled, hname]
    rfl

theorem Titled.steps (h : s.Titled P) (hs : s.Named) (hsteps : LaySteps P s s') :
    s'.Titled P := by
  induction hsteps with
  | refl => exact h
  | tail hsteps hstep ih => exact ih.step ((LaySteps.persists hsteps hs).named hs) hstep

theorem Titled.congr (h : s.Titled P) (hn : s'.names = s.names) (hg : s'.graph = s.graph) :
    s'.Titled P := by
  have hspelled (id : NodeId) : s'.spelled id = s.spelled id := by
    rw [Session.spelled, hn, hg, Session.spelled]
  refine ⟨by rw [hn, hg]; exact h.spelled, fun m hk hr => ?_⟩
  rw [hg] at hk hr
  obtain ⟨u, i, hu, hku, hname, hm, htitle⟩ := h.title m hk hr
  rw [← hg] at hku hname hm
  exact ⟨u, i, hu, hku, hname, hm, by rw [hspelled, htitle, hspelled]⟩

/-- **After the first layout members are called after a union that is needed.** Before it no
member has been named. -/
theorem Prepared.titled {names : Names} {keys : KeyList} {target : Target}
    (h : Prepared names keys target s) :
    s.assignOffsets.1.Titled (s.graph.Needs s.requested) := by
  have hstart : s.Titled (s.graph.Needs s.requested) := by
    refine ⟨h.spelled, fun m _ hr => ?_⟩
    rw [(h.serves.settled.nodes m).unplaced.2.1] at hr
    cases hr
  obtain ⟨s', _, _, _, hsteps, heq, -⟩ := exists_steps_assignOffsets h.named h.roots
  rw [heq]
  exact (hstart.steps h.named hsteps).congr rfl rfl

end Session

end TypeLayout
