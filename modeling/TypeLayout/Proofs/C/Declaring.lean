import TypeLayout.Proofs.C.Acting

/-!
# Declarators that are acted on

A declarator in a body adds a field to it: an item to a struct, a member to a union. In both
cases the body stays right for its fields (`Models.addField`), because the item of a
declarator has the size and the alignment of the type that it declares. A declarator of a
typedef binds a name, and any other one at file scope changes nothing.
-/

namespace TypeLayout

/-! ### What declarators do -/

namespace Graph

variable {g : Graph} {id : NodeId} {item : Item}

/-- A node with one more item, up to the references to it. -/
theorem same_appendItem (hlt : id < g.size) (item : Item) :
    ((g.node id).withItem (g.elementSize item.kind) (g.elementAlign item.kind) item).Same
      ((g.appendItem id item).node id) := by
  rw [appendItem_eq]
  dsimp only
  split
  · rw [node_modify_self _ hlt]
    exact ⟨rfl, rfl, rfl, rfl, rfl, rfl, rfl, rfl, rfl, rfl, rfl⟩
  · have hsame := (Alike.retain (g.modify id (Node.withItem (g.elementSize item.kind)
      (g.elementAlign item.kind) item)) item.kind).same id
    rwa [node_modify_self _ hlt] at hsame

theorem size_appendItem (g : Graph) (id : NodeId) (item : Item) :
    (g.appendItem id item).size = g.size := by
  rw [appendItem_eq]
  dsimp only
  split
  · exact size_modify _ _ _
  · rw [(Alike.retain _ item.kind).size, size_modify]

end Graph

namespace Session

variable {s : Session} {d : Declarator} {eval : Evaluator} {item : Item} {scope : Scope}

/-- Remembering a declarator changes nothing that counts. -/
theorem rememberFragment_spec (hb : s.Bound) (type : Specified) (name : String) :
    s.graph.Alike (s.rememberFragment type name).graph ∧
      ∀ y, (s.rememberFragment type name).lookup? y = s.lookup? y := by
  unfold rememberFragment
  split
  · refine ⟨.modify s.graph type.node fun n => ?_, lookup?_intern hb name⟩
    exact ⟨rfl, rfl, rfl, rfl, rfl, rfl, rfl, rfl, rfl, rfl, rfl⟩
  · exact ⟨.refl s.graph, fun _ => rfl⟩

theorem declare_field {container : NodeId} (hc : scope.container? = some container)
    (hitem : itemFor eval (s.rememberFragment scope.type d.name) scope.type.node d = ⟨[], .ok item⟩) :
    s.declare eval scope d false =
      ((s.rememberFragment scope.type d.name).addField container d.line item, .ok ()) := by
  simp only [declare, Bool.false_eq_true, false_and, if_false, hc, hitem]
  rfl

theorem declare_derived (hd : d.derivations ≠ [])
    (hitem : itemFor eval (s.rememberFragment scope.type d.name) scope.type.node d = ⟨[], .ok item⟩) :
    s.declare eval scope d true =
      ((s.rememberFragment scope.type d.name).deriveType d item, .ok ()) := by
  simp only [declare, List.isEmpty_iff, hd, and_false, if_false, hitem]
  rfl

end Session

namespace C

variable {env env' : Env} {nodes : List NodeId} {opens : List Opening} {o : Opening}
  {s s' : Session} {scope scope' : Scope} {id : NodeId} {eval : Evaluator} {c : Clause}
  {ref : TypeRef} {t : Ty} {item : Item}

/-- A declarator of nothing but a name declares the type itself. -/
theorem itemFor_of_nil (eval : Evaluator) {base : NodeId} {d : Declarator} (hd : d.derivations = [])
    (hbase : KnownAt s.graph nodes t base) (hfit : t.count < 2 ^ 64) :
    ∃ item, itemFor eval s base d = ⟨[], .ok item⟩ ∧ t.Held s.graph nodes item := by
  have hone : 1 * t.count < 2 ^ 64 := by rwa [Nat.one_mul]
  obtain ⟨item, hitem, hcount, hstands⟩ := elementItem_of_known hbase hone d
  exact ⟨item, by simp only [itemFor, hd, arrayCount, hitem], by rw [hcount, Nat.one_mul], hstands⟩

theorem Ident.plain (x : Ident) : Plain x.text := by
  intro hblank
  have hall := List.all_eq_true.mp x.continues _ hblank
  revert hall
  decide

/-- Only one of the built-in names is neither a keyword nor several words. -/
theorem Ident.not_mem_builtinNames (x : Ident) (hx : x.text ≠ vaList) : x.text ∉ builtinNames := by
  have hall : ∀ name ∈ builtinNames, name = vaList ∨ Keyword.of? name ≠ none ∨
      name.toList.all isIdentifierChar = false := by
    decide
  intro hmem
  rcases hall x.text hmem with heq | hkeyword | hwords
  · exact hx heq
  · exact hkeyword x.free
  · rw [x.continues] at hwords
    exact absurd hwords (by decide)

theorem RefAt.alike (h : RefAt s nodes ref id) (ha : s.graph.Alike s'.graph)
    (hl : ∀ y, s'.lookup? y = s.lookup? y) : RefAt s' nodes ref id :=
  have htouches : s.graph.Touches none s'.graph := .of_alike ha
  h.mono (htouches.preserves (by simp)) (List.prefix_refl _) (.of_eq hl)

namespace Models

variable {b : Specified} {d : Declarator} {pending : List Specified} {x : Declr}

/-! ### Fields -/

/-- Adding a member to a union touches nothing else. -/
theorem touches_addMember (g : Graph) (e : Element) (n : Node) (union member : NodeId) :
    g.Touches (some union) (((g.retain e).add n).addMember union member) :=
  ((Graph.Touches.of_alike (.retain g e)).trans (.add n)).trans (.modify union _)

/-- A struct with one more field. -/
theorem openAt_appendItem (h : Models env nodes (o :: opens) s scope)
    (hscope : scope.bodies = b :: pending) (ho : OpenAt s nodes o b) (hk : o.kind = .struct)
    (ht : t.Held s.graph nodes item) :
    OpenAt { s with graph := s.graph.appendItem b.node item } nodes
      { o with fields := o.fields ++ [t] } b := by
  let s₁ := { s with graph := s.graph.appendItem b.node item }
  have hg : s.graph.Preserves s₁.graph := h.preserves_of_innermost hscope (.appendItem b.node item)
  have hsame := Graph.same_appendItem (Graph.lt_size_of_state (h.innermost_spec hscope).1) item
  obtain ⟨items, hitems, heq⟩ := ho.contains.struct hk
  refine ⟨ho.node, ho.anonymous, ho.tag, ?_, ?_⟩
  · dsimp only
    rw [hsame.length, hg.target, hk, rawSize, Ty.stop_concat, Ty.offset]
    intro hfit
    have hstart := (Nat.le_add_right _ (t.size s.graph.target)).trans_lt hfit
    have hword : t.align s.graph.target ∣ wordSize :=
      ht.2.align ▸ dvd_wordSize_of_mem_alignments (Graph.elementAlign_mem h.sound.nodes item.kind)
    have hlength : (s.graph.node b.node).length = Ty.stop s.graph.target 0 o.fields := by
      have hraw := ho.length
      rw [hk, rawSize] at hraw
      exact hraw ((le_roundUp _ _).trans_lt hstart)
    simp only [Node.withItem]
    rw [hlength, ht.2.align, ht.size ((Nat.le_add_left _ _).trans_lt hfit),
      alignUp_eq_roundUp_of_dvd hword hstart, wrap_of_lt hfit]
  · refine ⟨hsame.kind.trans ho.contains.kind, ?_, fun _ => ⟨items ++ [item], ?_, ?_⟩, ?_⟩
    · dsimp only
      rw [hsame.align, hg.target, Ty.alignOf_concat, ← ho.contains.align, ← ht.2.align]
      rfl
    · exact List.rel_append (hitems.imp fun _ _ hx => hx.mono hg (List.prefix_refl _))
        (.cons (ht.mono hg (List.prefix_refl _)) .nil)
    · dsimp only
      rw [hsame.items, List.foldl_append, ← heq]
      rfl
    · intro hu
      simp [hk] at hu

/-- A union with one more member. -/
theorem openAt_addMember (h : Models env nodes (o :: opens) s scope)
    (hscope : scope.bodies = b :: pending) (ho : OpenAt s nodes o b) (hk : o.kind = .union)
    (ht : t.Held s.graph nodes item) {n : Node} (hn : n.Holds s.graph item)
    (hmember : n.kind = .unionMember) :
    OpenAt { s with graph := ((s.graph.retain item.kind).add n).addMember b.node s.graph.size }
      nodes { o with fields := o.fields ++ [t] } b := by
  have hretain := Graph.Alike.retain s.graph item.kind
  have hsize : (s.graph.retain item.kind).size = s.graph.size := hretain.size
  have hlt := Graph.lt_size_of_state (h.innermost_spec hscope).1
  let s₁ := { s with graph := ((s.graph.retain item.kind).add n).addMember b.node s.graph.size }
  have hg : s.graph.Preserves s₁.graph :=
    h.preserves_of_innermost hscope (touches_addMember _ _ _ _ _)
  have hprefix := List.prefix_refl nodes
  -- The new node is the member, with the size and alignment of its type.
  have hnew : ((s.graph.retain item.kind).add n).node s.graph.size = n := by
    rw [← hsize, Graph.node_add_self]
  have halign : n.align = t.align s.graph.target := by
    rw [hn.align, ht.2.align, max_eq_right (Ty.one_le_align t)]
  have hword : t.align s.graph.target ∣ wordSize :=
    ht.2.align ▸ dvd_wordSize_of_mem_alignments (Graph.elementAlign_mem h.sound.nodes item.kind)
  have hlength (hfit : t.size s.graph.target < wordSize) : n.length = t.size s.graph.target := by
    rw [hn.length, ht.size hfit, halign, wrap_of_lt hfit,
      alignUp_of_dvd hword (Ty.align_dvd_size t) hfit]
  have hdefined : n.isDefined = true := by
    rcases hn.state with hs | ⟨hs, -⟩
    · simp [Node.isDefined, hs]
    · simp [hmember] at hs
  -- The union is widened to hold it.
  have hbody : ((((s.graph.retain item.kind).add n).addMember b.node s.graph.size).node b.node) =
      { (s.graph.retain item.kind).node b.node with
        members := ((s.graph.retain item.kind).node b.node).members ++ [s.graph.size]
        length := max ((s.graph.retain item.kind).node b.node).length n.length
        align := max ((s.graph.retain item.kind).node b.node).align n.align } := by
    rw [Graph.addMember, Graph.node_modify_self, hnew, Graph.node_add_of_lt _ (hsize ▸ hlt)]
    rw [Graph.size_add, hsize]
    exact Nat.lt_succ_of_lt hlt
  have hsame := hretain.same b.node
  refine ⟨ho.node, ho.anonymous, ho.tag, ?_, ?_⟩
  · dsimp only
    rw [hbody, hg.target, hk, rawSize, Ty.widest_concat]
    dsimp only
    intro hfit
    have hraw := ho.length
    rw [hk, rawSize] at hraw
    rw [hsame.length, hraw ((le_max_left _ _).trans_lt hfit),
      hlength ((le_max_right _ _).trans_lt hfit)]
  · refine ⟨?_, ?_, fun hstruct => by simp [hk] at hstruct, fun _ => ?_⟩
    · dsimp only
      rw [hbody]
      exact hsame.kind.trans ho.contains.kind
    · dsimp only
      rw [hbody, hg.target, Ty.alignOf_concat]
      dsimp only
      rw [hsame.align, ho.contains.align, halign]
    · dsimp only
      rw [hbody]
      dsimp only
      rw [hsame.members]
      refine List.rel_append ((ho.contains.union hk).imp fun _ _ hx => hx.mono hg hprefix)
        (.cons ?_ .nil)
      have hmem : ((((s.graph.retain item.kind).add n).addMember b.node s.graph.size).node
          s.graph.size) = n := by
        rw [Graph.addMember, Graph.node_modify_of_ne _ (Nat.ne_of_lt hlt), hnew]
      refine ⟨?_, ?_, ?_, item, ht.mono hg hprefix, ?_⟩ <;> rw [hmem]
      · exact hdefined
      · rw [hg.target]
        exact hlength
      · rw [halign, hg.target]
      · exact hn.items

/-- **A field is added** to the innermost body, as an item of a struct or as a member of a
union. -/
theorem addField (h : Models env nodes (o :: opens) s scope) (ht : t.Held s.graph nodes item)
    {container : NodeId} (hc : scope.container? = some container) {line : ℕ}
    (hr : (s.addField container line item).Ready scope) :
    Models env nodes ({ o with fields := o.fields ++ [t] } :: opens)
      (s.addField container line item) scope ∧
      s.graph.Preserves (s.addField container line item).graph := by
  obtain ⟨b, pending, hscope, ho, hpending⟩ := h.exists_bodies
  obtain rfl : b.node = container := by simpa [Scope.container?, hscope] using hc
  have hkind := ho.contains.kind
  revert hr
  obtain hk | hk : o.kind = .struct ∨ o.kind = .union := by cases o.kind <;> simp
  · have hfield : s.addField b.node line item = { s with graph := s.graph.appendItem b.node item } :=
      if_neg (by simp [Node.isUnion, hkind, hk, TagKind.nodeKind])
    rw [hfield]
    intro hr
    have htouches : s.graph.Touches (some b.node) (s.graph.appendItem b.node item) :=
      .appendItem b.node item
    exact ⟨h.grow ho hpending hscope hr htouches (fun _ => rfl)
      (not_hasBody_of_size (Graph.size_appendItem _ _ _)) (h.openAt_appendItem hscope ho hk ht) rfl,
      h.preserves_of_innermost hscope htouches⟩
  · obtain ⟨n, hmember, -, -, hn, heq⟩ :=
      Session.exists_holder s.graph none line (Or.inr rfl) ht.2.leads
    have hfield : s.addField b.node line item = { s with
        graph := ((s.graph.retain item.kind).add n).addMember b.node s.graph.size } := by
      rw [Session.addField, if_pos (by simp [Node.isUnion, hkind, hk, TagKind.nodeKind])]
      simp only [Session.addNode, heq]
    rw [hfield]
    intro hr
    have hsize : (s.graph.retain item.kind).size = s.graph.size :=
      (Graph.Alike.retain s.graph item.kind).size
    have htouches := touches_addMember s.graph item.kind n b.node s.graph.size
    refine ⟨h.grow ho hpending hscope hr htouches (fun _ => rfl) (fun j hj => ?_)
      (h.openAt_addMember hscope ho hk ht hn hmember) rfl, h.preserves_of_innermost hscope htouches⟩
    have hne : b.node ≠ j := by
      rintro rfl
      exact absurd (Graph.lt_size_of_state (h.innermost_spec hscope).1) (not_lt.mpr hj)
    show ¬ HasBody ((Graph.addMember _ b.node s.graph.size).node j)
    rw [Graph.addMember, Graph.node_modify_of_ne _ hne]
    exact not_hasBody_add (not_hasBody_of_kind (by simp [hmember]) (by simp [hmember])) j
      (hsize.symm ▸ hj)

/-- A change that leaves all that counts alone. -/
theorem alike (h : Models env nodes opens s scope) (hr : s'.Ready scope)
    (ha : s.graph.Alike s'.graph) (hl : ∀ y, s'.lookup? y = s.lookup? y) :
    Models env nodes opens s' scope :=
  h.quiet hr (.of_alike ha) hl (not_hasBody_of_size ha.size)

theorem rememberFragment (h : Models env nodes opens s scope) (href : RefAt s nodes ref id)
    (type : Specified) (name : String) :
    Models env nodes opens (s.rememberFragment type name) scope ∧
      RefAt (s.rememberFragment type name) nodes ref id := by
  obtain ⟨ha, hl⟩ := Session.rememberFragment_spec h.bound type name
  exact ⟨h.alike (h.toReady.moves (Session.changes_rememberFragment (P := fun _ => True) s type
    name trivial).moves) ha hl,
    href.alike ha hl⟩

/-- A declarator in a body adds its field. -/
theorem declare_field (h : Models env nodes (o :: opens) s scope)
    (href : RefAt s nodes ref scope.type.node)
    (hitem : itemFor eval (s.rememberFragment scope.type d.name) scope.type.node d = ⟨[], .ok item⟩)
    (ht : t.Held (s.rememberFragment scope.type d.name).graph nodes item) :
    ∃ s', s.declare eval scope d false = (s', .ok ()) ∧
      Models env nodes ({ o with fields := o.fields ++ [t] } :: opens) s' scope ∧
      RefAt s' nodes ref scope.type.node := by
  obtain ⟨b, pending, hscope, -, -⟩ := h.exists_bodies
  have hc : scope.container? = some b.node := by simp [Scope.container?, hscope]
  have hmoves : s.Moves (s.declare eval scope d false).1 :=
    (Session.changes_declare (P := fun _ => True) eval h.sound h.fits (by simp) trivial).moves
  rw [Session.declare_field hc hitem] at hmoves ⊢
  obtain ⟨h₁, href₁⟩ := h.rememberFragment href scope.type d.name
  obtain ⟨h₂, hg⟩ := h₁.addField ht hc (h.toReady.moves hmoves)
  refine ⟨_, rfl, h₂, href₁.mono hg (List.prefix_refl _) (.of_eq fun y => ?_)⟩
  unfold Session.addField
  split <;> rfl

/-- **A field with a declarator.** -/
theorem act_field (h : Models env nodes (o :: opens) s scope)
    (href : RefAt s nodes ref scope.type.node) (ht : x.complete? (2 ^ 63) env ref = some t)
    (hc : c.content = .declare x.declarator false) :
    ∃ s', s.act eval scope c = (s', .ok scope) ∧
      Models env nodes ({ o with fields := o.fields ++ [t] } :: opens) s' scope ∧
      RefAt s' nodes ref scope.type.node := by
  obtain ⟨d, hd, rfl⟩ := Clause.eq_declare hc
  obtain ⟨hfit, htype⟩ : arraysFit (2 ^ 63) 1 x.layers (ref.type? env) = true ∧
      x.type (ref.type? env) = some t := by
    simpa [Declr.complete?] using ht
  obtain ⟨h₁, href₁⟩ := h.rememberFragment href scope.type d.name
  obtain ⟨item, hitem, hheld⟩ := itemFor_of_fits eval (fun t ht => h₁.known href₁ ht) hd hfit htype
  obtain ⟨s', heq, hmodels, href'⟩ := h.declare_field href hitem hheld
  exact ⟨s', by simp only [Session.act, heq, Except.map], hmodels, href'⟩

/-- **A field without a name**: a struct or union without a tag. -/
theorem act_unnamed {i : ℕ} {kind : TagKind} {fields : List Ty}
    (h : Models env nodes (o :: opens) s scope)
    (href : RefAt s nodes (.known (.record i kind fields)) scope.type.node)
    (hanonymous : scope.type.anonymous = true) (hc : c.content = .bare 0) :
    ∃ s', s.act eval scope c = (s', .ok scope) ∧
      Models env nodes ({ o with fields := o.fields ++ [.record i kind fields] } :: opens) s'
        scope := by
  obtain ⟨line, rfl⟩ := Clause.eq_bare hc
  obtain ⟨b, pending, hscope, -, -⟩ := h.exists_bodies
  have hcontainer : scope.container? = some b.node := by simp [Scope.container?, hscope]
  simp only [Session.act, Session.bareType, hanonymous, if_true, hcontainer]
  generalize hdecl : (⟨_, line, _⟩ : Declarator) = d
  have hd : d.derivations = [] := hdecl ▸ rfl
  obtain ⟨h₁, href₁⟩ := h.rememberFragment href scope.type d.name
  obtain ⟨item, hitem, hheld⟩ := itemFor_of_nil eval hd href₁ (by norm_num [Ty.count])
  obtain ⟨s', heq, hmodels, -⟩ := h.declare_field href hitem hheld
  exact ⟨s', by simp only [heq, Except.map], hmodels⟩

/-- A type without a declarator declares nothing else. -/
theorem act_bare (h : Models env nodes opens s scope)
    (hanonymous : scope.type.anonymous = true → opens = []) (hc : c.content = .bare 0) :
    ∃ s', s.act eval scope c = (s', .ok scope) ∧ Models env nodes opens s' scope := by
  obtain ⟨line, rfl⟩ := Clause.eq_bare hc
  simp only [Session.act, Session.bareType]
  split
  · rename_i htrue
    have hbodies := h.opens
    rw [hanonymous htrue, List.forall₂_nil_left_iff] at hbodies
    have hcontainer : scope.container? = none := by simp [Scope.container?, hbodies]
    simp only [hcontainer, Except.map]
    exact ⟨_, rfl, h.alike (h.toReady.moves (Session.moves_note s _)) (.refl _) fun _ => rfl⟩
  · exact ⟨s, rfl, h⟩

/-- A declarator at file scope that is not one of a typedef changes nothing that counts. -/
theorem act_global (h : Models env nodes [] s scope) (href : RefAt s nodes ref scope.type.node)
    (hc : c.content = .declare x.declarator false) :
    ∃ s', s.act eval scope c = (s', .ok scope) ∧ Models env nodes [] s' scope ∧
      RefAt s' nodes ref scope.type.node := by
  obtain ⟨d, hd, rfl⟩ := Clause.eq_declare hc
  have hbodies := h.opens
  rw [List.forall₂_nil_left_iff] at hbodies
  have hcontainer : scope.container? = none := by simp [Scope.container?, hbodies]
  refine ⟨s.rememberFragment scope.type d.name, ?_, h.rememberFragment href scope.type d.name⟩
  simp only [Session.act, Session.declare, Bool.false_eq_true, false_and, if_false, hcontainer,
    Except.map]

/-! ### Typedef names -/

/-- A typedef name is bound to a node for what it stands for, and a note is taken of it. -/
theorem bindNoted (h : Models env nodes opens s scope) (href : RefAt s nodes ref scope.type.node)
    {x : String} (hplain : Plain x) (hname : x ∉ builtinNames) {ref' : TypeRef}
    (hid : RefAt s nodes ref' id) (hlt : id < s.graph.size)
    (hk : (s.graph.node id).kind ≠ .unionMember) (notice : Notice) :
    Models (env.setTypedef x ref') nodes opens ((s.bind x id).note notice) scope ∧
      RefAt ((s.bind x id).note notice) nodes ref scope.type.node := by
  have hmoves : s.Moves (s.bind x id) := Session.moves_bind hlt hk (fitsTag_of_plain hplain)
  have h' := h.bindTypedef hplain hname hid (h.toReady.moves hmoves)
  have href' := href.bind (j := id) (h.keepsTags_bind_plain hplain hname)
  exact ⟨h'.alike (h'.toReady.moves (Session.moves_note _ _)) (.refl _) fun _ => rfl,
    href'.alike (.refl _) fun _ => rfl⟩

/-- A typedef name for the type in front of it. -/
theorem nameType (h : Models env nodes opens s scope) (href : RefAt s nodes ref scope.type.node)
    (hplain : Plain d.name) (hname : d.name ∉ builtinNames) :
    Models (env.setTypedef d.name ref) nodes opens (s.nameType scope.type.node d) scope ∧
      RefAt (s.nameType scope.type.node d) nodes ref scope.type.node := by
  have hlabel (n : Node) : n.Same { n with name := n.name.or (some (s.intern d.name).1) } :=
    ⟨rfl, rfl, rfl, rfl, rfl, rfl, rfl, rfl, rfl, rfl, rfl⟩
  let s₁ := (s.intern d.name).2.modifyNode scope.type.node fun n =>
    { n with name := n.name.or (some (s.intern d.name).1) }
  have hmoves : s.Moves s₁ := (Session.moves_intern s d.name).trans
    (Session.moves_label _ _ fun n => ⟨hlabel n, rfl⟩)
  have hl : ∀ y, s₁.lookup? y = s.lookup? y := Session.lookup?_intern h.bound d.name
  have h₁ : Models env nodes opens s₁ scope :=
    h.alike (h.toReady.moves hmoves) (.modify _ _ hlabel) hl
  have href₁ : RefAt s₁ nodes ref scope.type.node := href.alike (.modify _ _ hlabel) hl
  exact h₁.bindNoted href₁ hplain hname href₁ h₁.fits.type.1 h₁.fits.type.2 _

/-- A typedef name for a type that is derived from the one in front of it. -/
theorem deriveType (h : Models env nodes opens s scope) (href : RefAt s nodes ref scope.type.node)
    (hplain : Plain d.name) (hname : d.name ∉ builtinNames) (ht : t.Held s.graph nodes item) :
    Models (env.setTypedef d.name (.known t)) nodes opens (s.deriveType d item) scope ∧
      RefAt (s.deriveType d item) nodes ref scope.type.node := by
  obtain ⟨n, hkind, -, -, hn, heq⟩ := Session.exists_holder s.graph (some (s.intern d.name).1)
    d.line (Or.inl rfl) ht.2.leads
  let s₁ : Session := { (s.intern d.name).2 with graph := (s.graph.retain item.kind).add n }
  have hderive : s.deriveType d item =
      (s₁.bind d.name s.graph.size).note (.derives d.line d.name item) := by
    unfold Session.deriveType
    simp only [Session.addNode]
    rw [show (s.intern d.name).2.graph = s.graph from rfl, heq]
  have hsize : (s.graph.retain item.kind).size = s.graph.size :=
    (Graph.Alike.retain s.graph item.kind).size
  have hmoves : s.Moves s₁ := (Session.moves_intern s d.name).trans
    (Session.moves_hold item hn (by simp [hkind]) ht.2.leads)
  have htouches : s.graph.Touches none s₁.graph :=
    (Graph.Touches.of_alike (.retain _ _)).trans (.add n)
  have hg : s.graph.Preserves s₁.graph := htouches.preserves (by simp)
  have hl : ∀ y, s₁.lookup? y = s.lookup? y := Session.lookup?_intern h.bound d.name
  have h₁ : Models env nodes opens s₁ scope := h.quiet (h.toReady.moves hmoves) htouches hl
    fun j hj => not_hasBody_add (not_hasBody_of_kind (by simp [hkind]) (by simp [hkind])) j
      (hsize.symm ▸ hj)
  have hnode : s₁.graph.node s.graph.size = n := by
    show ((s.graph.retain item.kind).add n).node s.graph.size = n
    rw [← hsize, Graph.node_add_self]
  have hknown : KnownAt s₁.graph nodes t s.graph.size :=
    Or.inl ⟨item, ht.mono hg (List.prefix_refl _), by rw [hnode, hn.items],
      Or.inr (Or.inr (by rw [hnode, hkind]))⟩
  have hbound : RefAt s₁ nodes (.known t) s.graph.size := hknown
  rw [hderive]
  exact h₁.bindNoted (href.mono hg (List.prefix_refl _) (.of_eq hl)) hplain hname hbound
    (by simp [s₁, hsize]) (by simp [hnode, hkind]) _

/-- **A declarator of a typedef.** -/
theorem act_typedef (h : Models env nodes opens s scope) (href : RefAt s nodes ref scope.type.node)
    (he : env.typedef (2 ^ 63) ref x = some env') (hc : c.content = .declare x.declarator true) :
    ∃ s', s.act eval scope c = (s', .ok scope) ∧ Models env' nodes opens s' scope ∧
      RefAt s' nodes ref scope.type.node := by
  obtain ⟨d, hd, rfl⟩ := Clause.eq_declare hc
  have hdname : d.name = x.ident.text := congrArg Declarator.name hd
  have hds : d.derivations.map Derivation.content = x.derivations :=
    congrArg Declarator.derivations hd
  have hlayers := x.forall₂_derives hds
  obtain ⟨hva, he⟩ : x.ident.text ≠ vaList ∧
      (if x.layers = [] then some (env.setTypedef x.ident.text ref)
        else (x.complete? (2 ^ 63) env ref).map fun t => env.setTypedef x.ident.text (.known t)) =
          some env' := by
    rw [Env.typedef] at he
    split at he
    · simp at he
    · exact ⟨by assumption, he⟩
  rw [← hdname] at hva he
  have hplain : Plain d.name := hdname ▸ x.ident.plain
  have hname : d.name ∉ builtinNames := hdname ▸ x.ident.not_mem_builtinNames (hdname ▸ hva)
  obtain ⟨h₁, href₁⟩ := h.rememberFragment href scope.type d.name
  split at he
  · rename_i hnil
    obtain rfl := Option.some.inj he
    rw [hnil, List.forall₂_nil_right_iff] at hlayers
    refine ⟨_, ?_, h₁.nameType href₁ hplain hname⟩
    simp only [Session.act, Session.declare, hlayers, List.isEmpty_nil, and_self, if_true,
      Except.map]
  · rename_i hne
    obtain ⟨t, ht, rfl⟩ := Option.map_eq_some_iff.mp he
    obtain ⟨hfit, htype⟩ : arraysFit (2 ^ 63) 1 x.layers (ref.type? env) = true ∧
        x.type (ref.type? env) = some t := by
      simpa [Declr.complete?] using ht
    obtain ⟨item, hitem, hheld⟩ :=
      itemFor_of_fits eval (fun t ht => h₁.known href₁ ht) hd hfit htype
    have hderived : d.derivations ≠ [] := by
      intro hnil
      rw [hnil, List.forall₂_nil_left_iff] at hlayers
      exact hne hlayers
    refine ⟨_, ?_, h₁.deriveType href₁ hplain hname hheld⟩
    simp only [Session.act, Session.declare_derived hderived hitem, Except.map]

end Models

end C

end TypeLayout
