import TypeLayout.Proofs.Rounds

/-!
# What one clause does to a session

A clause adds nodes and changes a few fields of the nodes that are there. `Node.Edit` says what
may become of such a node, and `Session.Edits` says it of all nodes at once, together with what
may become of the names: positions keep their spelling, tags and built-in types stay bound
where they are, no name is unbound, and only single words and tags are bound anew.

Two things are left open in `Node.Edit`, since they are what clauses differ in. One is how the
state of a node may change: not at all while a clause is acted on in several steps, and by one
step of `NodeState.Next` over the whole clause. The other is which node may get its first name:
only the type that a declarator refers back to, which may also get a fragment if it has no tag.
-/

namespace TypeLayout

/-! ### One node -/

/-- **What may become of a node.** Its kind stays, and a name that it has. If it is defined, its
content stays, and if it is a built-in type, so does everything. -/
structure Node.Edit (R : NodeKind → NodeState → NodeState → Prop) (labelled : Prop) (n n' : Node) :
    Prop where
  kind : n'.kind = n.kind
  state : R n.kind n.state n'.state
  name : ∀ x, n.name = some x → n'.name = some x
  label : labelled ∨ n'.name = n.name
  defined : n.state = .defined → n'.state = .defined ∧ n'.items = n.items ∧
    n'.members = n.members ∧ n'.length = n.length ∧ n'.align = n.align
  builtin : n.kind = .base → n.name.isSome = true → n' = n

/-- A node that has a name is not given another one. -/
theorem Node.name_or {n : Node} (h : n.name.isSome = true) (name : Option NameId) :
    { n with name := n.name.or name } = n := by
  obtain ⟨x, hx⟩ := Option.isSome_iff_exists.mp h
  rw [hx, Option.some_or, ← hx]

open NodeState

namespace Node.Edit

variable {R R' : NodeKind → NodeState → NodeState → Prop} {labelled labelled' : Prop}
  {n n' n'' : Node}

theorem refl (n : Node) : n.Edit Stays labelled n :=
  ⟨rfl, rfl, fun _ h => h, .inr rfl, fun h => ⟨h, rfl, rfl, rfl, rfl⟩, fun _ _ => rfl⟩

theorem mono (h : n.Edit R labelled n') (hR : ∀ kind a b, R kind a b → R' kind a b)
    (hl : labelled → labelled') : n.Edit R' labelled' n' :=
  ⟨h.kind, hR _ _ _ h.state, h.name, h.label.imp_left hl, h.defined, h.builtin⟩

theorem trans (h : n.Edit Stays labelled n') (h' : n'.Edit R labelled n'') :
    n.Edit R labelled n'' where
  kind := h'.kind.trans h.kind
  state := by
    have hstate := h'.state
    rwa [h.kind, show n'.state = n.state from h.state] at hstate
  name x hx := h'.name x (h.name x hx)
  label := h.label.elim .inl fun hl => h'.label.imp_right fun hl' => hl'.trans hl
  defined hd := by
    obtain ⟨hs, hi, hm, hlen, hal⟩ := h.defined hd
    obtain ⟨hs', hi', hm', hlen', hal'⟩ := h'.defined hs
    exact ⟨hs', hi'.trans hi, hm'.trans hm, hlen'.trans hlen, hal'.trans hal⟩
  builtin hk hn := by
    obtain rfl := h.builtin hk hn
    exact h'.builtin hk hn

end Node.Edit

/-! ### A graph -/

/-- What may become of the nodes of a graph, when at most one type gets a label. -/
structure Graph.Edits (R : NodeKind → NodeState → NodeState → Prop) (labelled : Option Specified)
    (g g' : Graph) : Prop where
  size : g.size ≤ g'.size
  node : ∀ id < g.size, (g.node id).Edit R (∃ type ∈ labelled, type.node = id) (g'.node id)
  fragment : ∀ id, (g'.node id).fragment = (g.node id).fragment ∨
    ∃ type ∈ labelled, type.node = id ∧ type.anonymous = true

namespace Graph.Edits

variable {R : NodeKind → NodeState → NodeState → Prop} {labelled : Option Specified}
  {g g' g'' : Graph} {f : Node → Node} {id : NodeId}

theorem refl (g : Graph) : g.Edits Stays labelled g :=
  ⟨le_refl _, fun _ _ => .refl _, fun _ => .inl rfl⟩

theorem trans (h : g.Edits Stays labelled g') (h' : g'.Edits R labelled g'') :
    g.Edits R labelled g'' :=
  ⟨h.size.trans h'.size, fun id hid =>
    (h.node id hid).trans (h'.node id (lt_of_lt_of_le hid h.size)), fun id =>
    (h.fragment id).elim (fun hs => (h'.fragment id).imp_left fun hs' => hs'.trans hs) .inr⟩

/-- More may be changed of a type that gets a label. -/
theorem labels (h : g.Edits R none g') : g.Edits R labelled g' :=
  ⟨h.size, fun id hid => (h.node id hid).mono (fun _ _ _ hab => hab) (by simp), fun id =>
    (h.fragment id).imp_right (by simp)⟩

theorem add {n : Node} (hn : n.fragment = none) : g.Edits Stays labelled (g.add n) where
  size := by rw [size_add]; exact Nat.le_succ _
  node id hid := by rw [node_add_of_lt n hid]; exact .refl _
  fragment id := by
    left
    rcases eq_or_ne id g.size with rfl | hne
    · rw [node_add_self, node_of_le le_rfl, hn]
      rfl
    · rw [node_add_of_ne n hne]

theorem modify (hR : ∀ kind state, R kind state state)
    (hfragment : ∀ n, (f n).fragment = n.fragment)
    (hf : (g.node id).Edit R (∃ type ∈ labelled, type.node = id) (f (g.node id))) :
    g.Edits R labelled (g.modify id f) where
  size := (size_modify g id f).ge
  node j hj := by
    rcases eq_or_ne id j with rfl | hne
    · rw [node_modify_self f hj]
      exact hf
    · rw [node_modify_of_ne f hne]
      exact (Node.Edit.refl _).mono (fun kind a b hab => hab ▸ hR kind a) fun h => h
  fragment j := .inl (node_modify_field f Node.fragment hfragment)

/-- A reference leads to a struct or a union, which keeps all else. -/
theorem retain {e : Element} (hl : g.Leads e) : g.Edits Stays labelled (g.retain e) := by
  unfold Graph.retain
  split
  · rename_i t ht
    refine modify (fun _ _ => rfl) (fun _ => rfl) ⟨rfl, rfl, fun _ h => h, .inr rfl,
      fun h => ⟨h, rfl, rfl, rfl, rfl⟩, fun hk _ => ?_⟩
    cases e with
    | structLink u | unionLink u =>
      obtain rfl := Option.some.inj ht
      exact absurd (hl.1.symm.trans hk) (by decide)
    | _ => cases ht
  · exact .refl g

/-- What is being defined can be changed in its content. -/
theorem modify_defining (hs : (g.node id).state = .defining) (hk : (g.node id).kind ≠ .base)
    (hf : ∀ n : Node, (f n).kind = n.kind ∧ (f n).state = n.state ∧ (f n).name = n.name ∧
      (f n).fragment = n.fragment) : g.Edits Stays labelled (g.modify id f) := by
  obtain ⟨hkind, hstate, hname, -⟩ := hf (g.node id)
  refine modify (fun _ _ => rfl) (fun n => (hf n).2.2.2) ⟨hkind, hstate, fun x hx => hname.trans hx,
    .inr hname, fun hd => ?_, fun hbase => absurd hbase hk⟩
  rw [hs] at hd
  cases hd

theorem appendItem {item : Item} (hs : (g.node id).state = .defining)
    (hk : (g.node id).kind ≠ .base) (hl : g.Leads item.kind) :
    g.Edits Stays labelled (g.appendItem id item) := by
  have hgrown : g.Edits Stays labelled (g.modify id (Node.withItem (g.elementSize item.kind)
      (g.elementAlign item.kind) item)) := modify_defining hs hk fun _ => ⟨rfl, rfl, rfl, rfl⟩
  rw [appendItem_eq]
  dsimp only
  split
  · exact hgrown
  · refine hgrown.trans (retain (hl.mono fun j _ => ?_))
    simp only [Node.isDefined]
    rw [node_modify_field (Node.withItem _ _ item) Node.kind fun _ => rfl,
      node_modify_field (Node.withItem _ _ item) Node.state fun _ => rfl]
    exact ⟨rfl, by assumption⟩

/-- The next state of a node that was not defined and is not built in. -/
theorem modify_next (hs : Next (g.node id).kind (g.node id).state (f (g.node id)).state)
    (hne : (g.node id).state ≠ .defined) (hk : (g.node id).kind ≠ .base)
    (hf : ∀ n : Node, (f n).kind = n.kind ∧ (f n).name = n.name ∧ (f n).fragment = n.fragment) :
    g.Edits Next labelled (g.modify id f) :=
  modify .stay (fun n => (hf n).2.2) ⟨(hf _).1, hs, fun _ h => (hf _).2.1.trans h,
    .inr (hf _).2.1, fun hd => absurd hd hne, fun hbase => absurd hbase hk⟩

end Graph.Edits

/-! ### Names -/

/-- What a name is bound to after one more binding: a built-in name stays. -/
theorem Registry.find?_insert (r : Registry) (name : NameId) (node : NodeId) (j : NameId) :
    (r.insert name node).find? j =
      if j = name ∧ r.isBuiltin name = false then some ⟨name, node, false⟩ else r.find? j := by
  unfold insert
  cases hb : r.isBuiltin name with
  | true => simp
  | false =>
    rcases eq_or_ne j name with rfl | hne
    · simp [find?]
    · simp [find?, hne, hne.symm]

/-- A clause says what type is referred back to from then on. -/
def Clause.specifies : Clause → Bool
  | .closeBody | .tag _ _ _ | .enum _ _ _ | .base _ _ _ | .named _ _ => true
  | .openBody _ _ _ | .declare _ _ | .bare _ => false

/-- How many bodies are open after a clause. -/
def Clause.depth : Clause → ℕ → ℕ
  | .openBody _ _ _, depth => depth + 1
  | .closeBody, depth => depth - 1
  | _, depth => depth

namespace Session

variable {P : String → Prop} {clause : Clause} {id : NodeId} {line : ℕ} {name : Option String}
  {scope' : Scope} {type : Specified} {x : String}

/-- A spelling is the built-in name of a node. -/
def BuiltIn (s : Session) (x : String) (id : NodeId) : Prop :=
  ∃ name, s.names.find? x = some name ∧ s.registry.find? name = some ⟨name, id, true⟩

theorem BuiltIn.lookup? {s : Session} (h : s.BuiltIn x id) : s.lookup? x = some id := by
  obtain ⟨name, hname, hfind⟩ := h
  rw [Session.lookup?, hname, Option.bind_some, Registry.lookup?, hfind]
  rfl

/-- What names are bound to has a name itself. -/
def BindsNamed (s : Session) : Prop :=
  ∀ b ∈ s.registry.bindings, b.node < s.graph.size ∧ (s.graph.node b.node).name.isSome = true

/-- **What may become of the bindings**: positions keep their spelling, built-in names and tags
stay bound where they are, every name that is bound stays bound to something, and new bindings are
for single words and for tags. -/
structure Rebinds (s s' : Session) : Prop where
  names : s.names.Extends s'.names
  builtin : ∀ x id, s.BuiltIn x id → s'.BuiltIn x id
  tag : ∀ p ∈ tagKinds, ∀ x id, s.lookup? (Names.tagSpelling p.1 x) = some id →
    s'.lookup? (Names.tagSpelling p.1 x) = some id
  bound : ∀ x, (s.lookup? x).isSome = true → (s'.lookup? x).isSome = true
  fresh : ∀ b ∈ s'.registry.bindings, b ∈ s.registry.bindings ∨
    ∃ x, s'.names.get? b.name = some x ∧ (Plain x ∨ IsTag x)

namespace Rebinds

variable {s s' s'' : Session}

theorem trans (h : s.Rebinds s') (h' : s'.Rebinds s'') : s.Rebinds s'' where
  names := h.names.trans h'.names
  builtin x id hx := h'.builtin x id (h.builtin x id hx)
  tag p hp x id hx := h'.tag p hp x id (h.tag p hp x id hx)
  bound x hx := h'.bound x (h.bound x hx)
  fresh b hb := by
    rcases h'.fresh b hb with hb | hnew
    · rcases h.fresh b hb with hb | ⟨x, hx, hword⟩
      · exact .inl hb
      · exact .inr ⟨x, h'.names b.name x hx, hword⟩
    · exact .inr hnew

/-- More spellings change no binding. -/
theorem of_names (hn : s.names.Extends s'.names) (hr : s'.registry = s.registry) :
    s.Rebinds s' := by
  have hlookup (x : String) (id : NodeId) (hx : s.lookup? x = some id) :
      s'.lookup? x = some id := by
    obtain ⟨name, hname, hid⟩ := Option.bind_eq_some_iff.mp hx
    rw [lookup?, hn.find? hname, Option.bind_some, hr]
    exact hid
  refine ⟨hn, ?_, fun p _ x id hx => hlookup _ id hx, fun x hx => ?_, fun b hb => .inl (hr ▸ hb)⟩
  · rintro x id ⟨name, hname, hfind⟩
    exact ⟨name, hn.find? hname, hr ▸ hfind⟩
  · obtain ⟨id, hid⟩ := Option.isSome_iff_exists.mp hx
    rw [hlookup x id hid]
    rfl

/-- **A new binding** is for a single word, or for a tag that was free. -/
theorem bind (s : Session) (node : NodeId) (hx : Plain x ∨ IsTag x ∧ s.lookup? x = none) :
    s.Rebinds (s.bind x node) := by
  have hn := s.names.extends_insert x
  have hself : (s.names.insert x).2.find? x = some (s.names.insert x).1 := by
    rw [Names.find?_insert, if_pos rfl]
  have hcases (y : String) (id : NodeId) (hy : s.lookup? y = some id) :
      (s.bind x node).lookup? y = some id ∨ y = x ∧ (s.bind x node).lookup? y = some node := by
    obtain ⟨name, hname, hid⟩ := Option.bind_eq_some_iff.mp hy
    have hfind : (s.names.insert x).2.find? y = some name := hn.find? hname
    have hlookup : (s.bind x node).lookup? y =
        ((s.registry.insert (s.names.insert x).1 node).find? name).map (·.node) := by
      show ((s.names.insert x).2.find? y).bind _ = _
      rw [hfind]
      rfl
    rw [hlookup, Registry.find?_insert]
    split
    · rename_i hnew
      obtain ⟨rfl, -⟩ := hnew
      exact .inr ⟨Names.eq_of_find? hfind hself, rfl⟩
    · exact .inl hid
  refine ⟨hn, ?_, fun p _ y id hy => ?_, fun y hy => ?_, fun b hb => ?_⟩
  · rintro y id ⟨name, hname, hfind⟩
    refine ⟨name, hn.find? hname, ?_⟩
    show (s.registry.insert (s.names.insert x).1 node).find? name = _
    rw [Registry.find?_insert, if_neg]
    · exact hfind
    · rintro ⟨rfl, hfree⟩
      simp [Registry.isBuiltin, hfind] at hfree
  · rcases hcases _ id hy with hsame | ⟨rfl, -⟩
    · exact hsame
    · rcases hx with hplain | ⟨-, hnone⟩
      · exact absurd hplain (not_plain_tagSpelling _ _)
      · rw [hnone] at hy
        cases hy
  · obtain ⟨id, hid⟩ := Option.isSome_iff_exists.mp hy
    rcases hcases y id hid with hsame | ⟨-, hnew⟩
    · rw [hsame]
      rfl
    · rw [hnew]
      rfl
  · refine (Registry.mem_insert hb).imp_right ?_
    rintro rfl
    exact ⟨x, s.names.get?_insert x, hx.imp_right And.left⟩

end Rebinds

/-! ### A session -/

/-- **What may become of a session** in one clause or in a part of one. -/
structure Edits (R : NodeKind → NodeState → NodeState → Prop) (labelled : Option Specified)
    (s s' : Session) : Prop extends s.Rebinds s' where
  graph : s.graph.Edits R labelled s'.graph
  named : s.BindsNamed → s'.BindsNamed

variable {R : NodeKind → NodeState → NodeState → Prop} {labelled : Option Specified}
  {s s' s'' : Session}

theorem Edits.trans (h : s.Edits Stays labelled s') (h' : s'.Edits R labelled s'') :
    s.Edits R labelled s'' :=
  ⟨h.toRebinds.trans h'.toRebinds, h.graph.trans h'.graph, h'.named ∘ h.named⟩

theorem BindsNamed.of_edits (h : s.BindsNamed) (hr : s'.registry = s.registry)
    (hg : s.graph.Edits R labelled s'.graph) : s'.BindsNamed := by
  intro b hb
  rw [hr] at hb
  obtain ⟨hlt, hname⟩ := h b hb
  obtain ⟨x, hx⟩ := Option.isSome_iff_exists.mp hname
  refine ⟨lt_of_lt_of_le hlt hg.size, ?_⟩
  rw [(hg.node _ hlt).name x hx]
  rfl

/-- A change of the graph and of the table of names leaves the bindings alone. -/
theorem Edits.of_graph (hn : s.names.Extends s'.names) (hr : s'.registry = s.registry)
    (hg : s.graph.Edits R none s'.graph) : s.Edits R labelled s' :=
  ⟨.of_names hn hr, hg.labels, fun h => h.of_edits hr hg⟩

theorem edits_graph {g : Graph} (hg : s.graph.Edits R none g) :
    s.Edits R labelled { s with graph := g } :=
  .of_graph (.refl _) rfl hg

/-- **A type gets a label**, and perhaps a fragment, if it has no tag. -/
theorem edits_label {f : Node → Node}
    (hf : (s.graph.node type.node).Edit Stays True (f (s.graph.node type.node)))
    (hfragment : (∀ n, (f n).fragment = n.fragment) ∨ type.anonymous = true) :
    s.Edits Stays (some type) (s.modifyNode type.node f) := by
  have hg : s.graph.Edits Stays (some type) (s.graph.modify type.node f) := by
    refine ⟨(Graph.size_modify _ _ _).ge, fun j hj => ?_, fun j => ?_⟩
    · rcases eq_or_ne type.node j with rfl | hne
      · rw [Graph.node_modify_self f hj]
        exact hf.mono (fun _ _ _ h => h) fun _ => ⟨type, rfl, rfl⟩
      · rw [Graph.node_modify_of_ne f hne]
        exact .refl _
    · rcases eq_or_ne type.node j with rfl | hne
      · exact hfragment.imp (Graph.node_modify_field f Node.fragment) fun h => ⟨type, rfl, rfl, h⟩
      · rw [Graph.node_modify_of_ne f hne]
        exact .inl rfl
  exact ⟨.of_names (.refl _) rfl, hg, fun h => h.of_edits rfl hg⟩

theorem edits_bind {node : NodeId} (hx : Plain x ∨ IsTag x ∧ s.lookup? x = none)
    (hlt : node < s.graph.size) (hname : (s.graph.node node).name.isSome = true) :
    s.Edits Stays labelled (s.bind x node) := by
  refine ⟨.bind s node hx, .refl _, fun h b hb => ?_⟩
  rcases Registry.mem_insert hb with hb | rfl
  · exact h b hb
  · exact ⟨hlt, hname⟩

/-! ### Clauses -/

theorem edits_closeBody (hs : (s.graph.node id).state = .defining)
    (hk : (s.graph.node id).kind = .struct ∨ (s.graph.node id).kind = .union) :
    s.Edits Next labelled (s.closeBody id) :=
  .of_graph (.refl _) rfl (.modify_next (by rw [hs]; exact .close hk) (by simp [hs])
    (by rcases hk with hk | hk <;> simp [hk]) fun _ => ⟨rfl, rfl, rfl⟩)

/-- **Each change is an edit**, if a type without a tag that gets a label is not built in. -/
theorem Change.edits (h : Change P labelled R s s')
    (ha : ∀ type ∈ labelled, type.anonymous = true → (s.graph.node type.node).kind ≠ .base) :
    s.Edits R labelled s' := by
  cases h with
  | note => exact .of_graph (.refl _) rfl (.refl _)
  | intern => exact .of_graph (s.names.extends_insert _) rfl (.refl _)
  | fragment ht hanon =>
    obtain rfl := Option.mem_def.mp ht
    exact edits_label ⟨rfl, rfl, fun _ h => h, .inr rfl, fun h => ⟨h, rfl, rfl, rfl, rfl⟩,
      fun hk => absurd hk (ha _ rfl hanon)⟩ (.inr hanon)
  | name ht =>
    obtain rfl := Option.mem_def.mp ht
    refine edits_label ⟨rfl, rfl, fun x hx => ?_, .inl trivial,
      fun h => ⟨h, rfl, rfl, rfl, rfl⟩, fun _ hname => ?_⟩ (.inl fun _ => rfl)
    · simp only [hx, Option.some_or]
    -- a built-in type has a name
    · exact Node.name_or hname _
  | blank hn hname => exact edits_graph (.add hname.1)
  | hold hn hk hl hname => exact edits_graph ((Graph.Edits.retain hl).trans (.add hname.1))
  | bind hlt hk hname hfit hx => exact edits_bind hx hlt hname
  | append hs hk hl => exact edits_graph (.appendItem hs (by simp [hk]) hl)
  | @member _ n id item hn hnk hl hs hk hname =>
    have hadd : s.graph.Edits Stays none ((s.graph.retain item.kind).add n) :=
      (Graph.Edits.retain hl).trans (Graph.Edits.add hname.1)
    have hedit := hadd.node id (Graph.lt_size_of_state hs)
    refine edits_graph (hadd.trans (.modify_defining (Eq.trans hedit.state hs) ?_
      fun _ => ⟨rfl, rfl, rfl, rfl⟩))
    rw [hedit.kind, hk]
    decide
  | start hs hk =>
    exact edits_graph (.modify_next (by rw [hs]; exact .start hk) (by simp [hs])
      (by rcases hk with hk | hk <;> simp [hk]) fun _ => ⟨rfl, rfl, rfl⟩)
  | complete hs hk =>
    exact edits_graph (.modify_next (by rw [hs, hk]; exact .complete) (by simp [hs])
      (by simp [hk]) fun _ => ⟨rfl, rfl, rfl⟩)

theorem Changes.edits (h : Changes P labelled R s s') (hR : ∀ kind state, R kind state state)
    (ha : ∀ type ∈ labelled, type.node < s.graph.size ∧
      (type.anonymous = true → (s.graph.node type.node).kind ≠ .base)) : s.Edits R labelled s' := by
  induction h with
  | refl s =>
    exact .of_graph (.refl _) rfl ⟨le_rfl, fun _ _ => (Node.Edit.refl _).mono
      (fun kind a b hab => hab ▸ hR kind a) fun h => h, fun _ => .inl rfl⟩
  | last h => exact h.edits fun type ht => (ha type ht).2
  | step h _ ih =>
    have hmoves := h.moves.steady
    refine (h.edits fun type ht => (ha type ht).2).trans (ih fun type ht => ?_)
    rw [hmoves.kind _ (ha type ht).1]
    exact ⟨lt_of_lt_of_le (ha type ht).1 hmoves.size, (ha type ht).2⟩

/-- **What holds after each clause**: the session is ready for the next one, and a type that is
referred back to and has no tag is not built in. -/
structure Scoped (s : Session) (scope : Scope) : Prop extends s.Ready scope where
  anonymous : scope.type.anonymous = true → (s.graph.node scope.type.node).kind ≠ .base

variable {scope : Scope}

/-- **One clause**, refused or not. -/
theorem edits_act (eval : Evaluator) (h : s.Scoped scope)
    (hc : ∀ d, clause = .declare d true → Plain d.name) :
    s.Edits Next (clause.labels scope) (s.act eval scope clause).1 := by
  rcases changes_act (P := fun _ => True) eval h.toReady hc (by simp) (by simp) with
    hchanges | ⟨b, bodies, rfl, hb⟩
  · refine hchanges.edits .stay fun type ht => ?_
    obtain rfl : type = scope.type := by
      cases clause <;> first | exact (Option.some.inj ht).symm | cases ht
    exact ⟨h.fits.type.1, h.anonymous⟩
  · obtain ⟨hs, hk⟩ := h.fits.bodies b (by simp [hb])
    simp only [act, hb]
    exact edits_closeBody hs hk

theorem exists_binding (h : s.lookup? x = some id) : ∃ b ∈ s.registry.bindings, b.node = id := by
  obtain ⟨name, -, hid⟩ := Option.bind_eq_some_iff.mp h
  obtain ⟨b, hfind, rfl⟩ := Option.map_eq_some_iff.mp hid
  exact ⟨b, List.mem_of_find?_eq_some hfind, rfl⟩

/-- A type that a clause names: it is new, or a name is bound to it. -/
def Mentions (s : Session) (type : Specified) : Prop :=
  type.anonymous = false ∧
    (s.graph.size ≤ type.node ∨ ∃ b ∈ s.registry.bindings, b.node = type.node)

theorem mentions_tagNode (s : Session) (kind : TagKind) (name : String) (line : ℕ) :
    s.Mentions ⟨(s.tagNode kind name line).1, false⟩ := by
  cases hl : s.lookup? (Names.tagSpelling kind.keyword name) with
  | some node =>
    rw [tagNode_of_some line hl]
    exact ⟨rfl, .inr (exists_binding hl)⟩
  | none =>
    rw [tagNode_of_none line hl]
    exact ⟨rfl, .inl le_rfl⟩

theorem mentions_enumeration {body : Bool} (h : (s.enumeration name body line).2 = .ok type) :
    s.Mentions type := by
  cases name with
  | none =>
    obtain rfl := Except.ok.inj h
    exact ⟨rfl, .inl le_rfl⟩
  | some name =>
    cases hl : s.lookup? (Names.tagSpelling "enum" name) with
    | some node =>
      have htype : type = ⟨node, false⟩ := by
        simp only [enumeration, hl] at h
        split at h
        · split at h
          · cases h
          · exact (Except.ok.inj h).symm
        · exact (Except.ok.inj h).symm
      rw [htype]
      exact ⟨rfl, .inr (exists_binding hl)⟩
    | none =>
      rw [enumeration_of_none body line hl] at h
      obtain rfl := Except.ok.inj h
      exact ⟨rfl, .inl le_rfl⟩

/-- A body begins in a new node or in that of a tag. -/
theorem body_of_openBody {kind : TagKind} {body : Specified}
    (h : (s.openBody kind name line).2 = .ok body) :
    s.graph.size ≤ body.node ∨ s.Mentions body := by
  cases name with
  | none =>
    rw [← Except.ok.inj h]
    exact .inl le_rfl
  | some name =>
    have hmentions := mentions_tagNode s kind name line
    unfold openBody at h
    dsimp only at h
    split at h
    · rw [← Except.ok.inj h]
      exact .inr hmentions
    · cases h

/-- **What a clause leaves to refer back to**: one more body, the body that has ended, a type that
the clause names, or what it was. -/
inductive Turns (s : Session) (scope : Scope) : Clause → Scope → Prop
  | enter {kind : TagKind} {name : Option String} {line : ℕ} {body : Specified}
      (h : s.graph.size ≤ body.node ∨ s.Mentions body) :
      Turns s scope (.openBody kind name line) { scope with bodies := body :: scope.bodies }
  | leave {body : Specified} {bodies : List Specified} (h : scope.bodies = body :: bodies) :
      Turns s scope .closeBody ⟨bodies, body⟩
  | specify {clause : Clause} {type : Specified} (hd : ∀ depth, clause.depth depth = depth)
      (h : s.Mentions type) : Turns s scope clause { scope with type }
  | stray (h : scope.bodies = []) : Turns s scope .closeBody scope
  | keep {clause : Clause} (hd : ∀ depth, clause.depth depth = depth)
      (h : clause.specifies = false) : Turns s scope clause scope

theorem turns_act {eval : Evaluator} (h : (s.act eval scope clause).2 = .ok scope') :
    s.Turns scope clause scope' := by
  cases clause with
  | openBody kind name line =>
    obtain ⟨body, hopen, rfl⟩ := exists_of_map_eq_ok h
    exact .enter (body_of_openBody hopen)
  | closeBody =>
    simp only [act] at h
    split at h
    · rename_i hb
      rw [← Except.ok.inj h]
      exact .stray hb
    · rename_i b bodies hb
      rw [← Except.ok.inj h]
      exact .leave hb
  | tag kind name line =>
    rw [← Except.ok.inj h]
    exact .specify (fun _ => rfl) (mentions_tagNode s kind name line)
  | enum name body line =>
    obtain ⟨type, henum, rfl⟩ := exists_of_map_eq_ok h
    exact .specify (fun _ => rfl) (mentions_enumeration henum)
  | base | named =>
    simp only [act] at h
    split at h
    · rename_i node hl
      rw [← Except.ok.inj h]
      exact .specify (fun _ => rfl) ⟨rfl, .inr (exists_binding hl)⟩
    · cases h
  | declare | bare =>
    obtain ⟨-, -, rfl⟩ := exists_of_map_eq_ok h
    exact .keep (fun _ => rfl) rfl

theorem scoped_act (eval : Evaluator) (h : s.Scoped scope)
    (hc : ∀ d, clause = .declare d true → Plain d.name)
    (hr : (s.act eval scope clause).2 = .ok scope') :
    (s.act eval scope clause).1.Scoped scope' := by
  obtain ⟨hadvances, hready⟩ := ready_act eval h.toReady hc
  refine ⟨hready scope' hr, fun hanon => ?_⟩
  cases turns_act hr with
  | enter | stray | keep =>
    rw [hadvances.kind _ h.fits.type.1]
    exact h.anonymous hanon
  | leave hb =>
    obtain ⟨hs, hk⟩ := h.fits.bodies _ (hb ▸ List.mem_cons_self)
    rw [hadvances.kind _ (Graph.lt_size_of_state hs)]
    rcases hk with hk | hk <;> simp [hk]
  | specify _ hnamed => exact absurd (hnamed.1.symm.trans hanon) (by simp)

end Session

end TypeLayout
