import TypeLayout.Proofs.Rounds

/-!
# The names of nodes can be spelled

A node keeps its name as a position in the table of names, and the text is looked up when the
name is used. So the text can only be relied on if the position has been handed out before the
node got it: a position beyond the end of the table has no text yet, and would get whichever
text is interned next. The same is true of the fragment that a type without a tag is named after.

Every pass interns a name first and gives it to a node afterwards (`Session.KeepsNames`). From
the built-in types on, through sources that are refused as well as through those that are read,
every name that a node has can therefore be spelled, and keeps its spelling
(`Session.spelledBy_readSource`). The names in a text, those of the built-in types and numbered ones
stand on one line (`Unbroken`), so all of them do. Looking the requested names up and merging give
no names.
-/

namespace TypeLayout

variable {x : String}

/-- No line ends within a text. -/
def Unbroken (x : String) : Prop := '\n' ∉ x.toList

theorem unbroken_of_isWord (h : IsWord x) : Unbroken x := fun hmem =>
  absurd (h _ hmem) (by decide)

theorem newline_not_mem_toDigits (n : ℕ) : '\n' ∉ Nat.toDigits 10 n := fun hmem =>
  absurd (Nat.isDigit_of_mem_toDigits (by decide) (by decide) hmem) (by decide)

theorem toString_text (x : String) : toString x = x := rfl

theorem unbroken_numbered (h : Unbroken x) (n : ℕ) : Unbroken (x ++ toString n) := by
  simpa [Unbroken, newline_not_mem_toDigits] using h

/-- The positions of the names that a node has: its own and that of its fragment. -/
def Node.labels (n : Node) : Option NameId × Option NameId := (n.name, n.fragment)

namespace Graph

/-- **Every name that a node has can be spelled**, by a text of which `P` holds. -/
def SpelledBy (P : String → Prop) (g : Graph) (names : Names) : Prop :=
  ∀ id name, (g.node id).name = some name ∨ (g.node id).fragment = some name →
    ∃ x, names.get? name = some x ∧ P x

variable {P : String → Prop} {g g' : Graph} {names names' : Names}

theorem SpelledBy.mono (h : g.SpelledBy P names) (hn : names.Extends names') :
    g.SpelledBy P names' := by
  intro id name hname
  obtain ⟨x, hx, hP⟩ := h id name hname
  exact ⟨x, hn name x hx, hP⟩

theorem SpelledBy.of_labels (h : g.SpelledBy P names)
    (hname : ∀ id, (g'.node id).labels = (g.node id).labels) : g'.SpelledBy P names := by
  intro id name hid
  obtain ⟨hn, hf⟩ := Prod.mk.inj (hname id)
  exact h id name (hn ▸ hf ▸ hid)

theorem SpelledBy.add {n : Node} (h : g.SpelledBy P names) (hn : names.Spells P n) :
    (g.add n).SpelledBy P names := by
  intro j name hname
  rcases eq_or_ne j g.size with rfl | hne
  · rw [node_add_self, hn.1] at hname
    exact hn.2 name (hname.resolve_right (by simp))
  · rw [node_add_of_ne n hne] at hname
    exact h j name hname

/-! ### Building a node gives it no name -/

theorem labels_retain (g : Graph) (e : Element) (j : NodeId) :
    ((g.retain e).node j).labels = (g.node j).labels := by
  unfold retain
  split
  · exact node_modify_field (fun n => { n with refs := n.refs + 1 }) Node.labels fun _ => rfl
  · rfl

theorem labels_appendItem (g : Graph) (id : NodeId) (item : Item) (j : NodeId) :
    ((g.appendItem id item).node j).labels = (g.node j).labels := by
  rw [appendItem_eq]
  dsimp only
  have hgrown : ((g.modify id (Node.withItem (g.elementSize item.kind) (g.elementAlign item.kind)
      item)).node j).labels = (g.node j).labels := node_modify_field _ Node.labels fun _ => rfl
  split
  · exact hgrown
  · exact (labels_retain _ _ j).trans hgrown

/-! ### Merging gives no names -/

theorem Settled.labels_merge (h : g.Settled) (hm : g.Merge g') (id : NodeId) :
    (g'.node id).labels = (g.node id).labels := by
  cases hm with
  | splice hc ht hi hne hl => rw [Splices.node ⟨h, hc, ht, hi, hne⟩]; rfl
  | adopt hc hu hk hi hlen hal => rw [Adopts.node ⟨h, hc, hu, hk, hi, hlen, hal⟩]; rfl

theorem Settled.labels_merges (h : g.Settled) (hm : Relation.ReflTransGen Merge g g')
    (id : NodeId) : (g'.node id).labels = (g.node id).labels := by
  induction hm with
  | refl => rfl
  | tail hsteps hstep ih => exact ((h.merges hsteps).labels_merge hstep id).trans ih

end Graph

namespace Session

variable {P : String → Prop} {s s' s'' : Session} {L : Option Specified}
  {R : NodeKind → NodeState → NodeState → Prop}

/-- **What a pass owes to names**: positions keep their spelling, and nodes have names that can
be spelled if they had before. -/
structure KeepsNames (P : String → Prop) (s s' : Session) : Prop where
  names : s.names.Extends s'.names
  spelled : s.graph.SpelledBy P s.names → s'.graph.SpelledBy P s'.names

namespace KeepsNames

theorem trans (h : s.KeepsNames P s') (h' : s'.KeepsNames P s'') : s.KeepsNames P s'' :=
  ⟨h.names.trans h'.names, h'.spelled ∘ h.spelled⟩

/-- A change of the graph that gives no names. -/
theorem of_graph (hn : s.names.Extends s'.names)
    (hg : ∀ id, (s'.graph.node id).labels = (s.graph.node id).labels) : s.KeepsNames P s' :=
  ⟨hn, fun h => (h.of_labels hg).mono hn⟩

theorem refl (s : Session) : s.KeepsNames P s := of_graph (.refl _) fun _ => rfl

end KeepsNames

theorem keepsNames_intern (s : Session) (x : String) : s.KeepsNames P (s.intern x).2 :=
  .of_graph (s.names.extends_insert x) fun _ => rfl

/-- A node gets a name that can be spelled, and keeps the others that it has. -/
theorem keepsNames_modifyNode (id : NodeId) {f : Node → Node} {name : NameId}
    (hx : s.names.get? name = some x) (hP : P x)
    (hf : ∀ n new, (f n).name = some new ∨ (f n).fragment = some new →
      (n.name = some new ∨ n.fragment = some new) ∨ some name = some new) :
    s.KeepsNames P (s.modifyNode id f) := by
  refine ⟨.refl _, fun h j new hnew => ?_⟩
  rw [modifyNode, Graph.node_modify] at hnew
  split at hnew
  · rcases hf _ new hnew with hold | hname
    · exact h j new hold
    · exact ⟨x, Option.some.inj hname ▸ hx, hP⟩
  · exact h j new hnew

/-! ### Sources -/

/-- **Each change by a clause.** -/
theorem Change.keepsNames (h : Change P L R s s') : s.KeepsNames P s' := by
  cases h with
  | note => exact .of_graph (.refl _) fun _ => rfl
  | intern => exact keepsNames_intern s _
  | fragment _ _ hname hx =>
    exact keepsNames_modifyNode _ hname hx fun n new => Or.imp .inl fun h => h
  -- a type keeps the name that it has, and gets the new one otherwise
  | name _ hname hx =>
    refine keepsNames_modifyNode _ hname hx fun n new h => ?_
    cases hn : n.name <;> simp_all [or_comm]
  | blank _ hn => exact ⟨.refl _, fun h => h.add hn⟩
  | hold _ _ _ hn => exact ⟨.refl _, fun h => (h.of_labels (Graph.labels_retain _ _)).add hn⟩
  | bind => exact .of_graph (s.names.extends_insert _) fun _ => rfl
  | append => exact .of_graph (.refl _) (Graph.labels_appendItem s.graph _ _)
  | @member _ _ _ item _ _ _ _ _ hn =>
    refine ⟨.refl _, fun h =>
      ((h.of_labels (Graph.labels_retain _ item.kind)).add hn).of_labels fun id => ?_⟩
    exact Graph.node_modify_field _ Node.labels fun _ => rfl
  | start | complete =>
    exact .of_graph (.refl _) fun id => Graph.node_modify_field _ Node.labels fun _ => rfl

theorem Changes.keepsNames (h : Changes P L R s s') : s.KeepsNames P s' := by
  induction h with
  | refl s => exact .refl s
  | last h => exact h.keepsNames
  | step h _ ih => exact h.keepsNames.trans ih

/-- **All clauses**, up to the first one that is refused. -/
theorem keepsNames_actAll (eval : Evaluator) {scope : Scope} {heard : List Heard}
    (h : s.Ready scope) (hc : ∀ x ∈ heard, ∀ d, x.clause = .declare d true → Plain d.name)
    (hx : ∀ y ∈ heard, ∀ x ∈ y.clause.names, P x) (hanon : ∀ n : ℕ, P s!"anon{n}") :
    s.KeepsNames P (s.actAll eval scope heard).1 := by
  induction heard generalizing s scope with
  | nil => exact .refl s
  | cons y heard ih =>
    have hone : s.KeepsNames P (s.act eval scope y.clause).1 := by
      rcases changes_act eval h (hc y List.mem_cons_self) (hx y List.mem_cons_self) hanon with
        hchanges | ⟨b, bodies, hclose, hb⟩
      · exact hchanges.keepsNames
      · rw [hclose, act, hb]
        exact .of_graph (.refl _) fun id => Graph.node_modify_field _ Node.labels fun _ => rfl
    have hready := (ready_act eval h (hc y List.mem_cons_self)).2
    unfold actAll
    split
    · rename_i s' refusal hact
      rw [hact] at hone
      exact hone
    · rename_i s' scope' hact
      rw [hact] at hone hready
      exact hone.trans (ih (hready scope' rfl) (fun z hz => hc z (List.mem_cons_of_mem y hz))
        fun z hz => hx z (List.mem_cons_of_mem y hz))

theorem keepsNames_readSource (eval : Evaluator) (h : s.Ready {}) (source : String)
    (contextLines : ℕ) : s.KeepsNames Unbroken (s.readSource eval source contextLines).1 :=
  (keepsNames_actAll eval h (fun _ hy _ hd => plain_readDeclarations hy hd)
    (fun _ hy _ hmem => unbroken_of_isWord (isWord_readDeclarations hy hmem))
    (unbroken_numbered (by unfold Unbroken; decide))).trans
    (changes_readSource (L := none) (R := NodeState.Stays) eval s source contextLines).keepsNames

theorem keepsNames_addBuiltins {l : List (String × Builtin)} (hl : ∀ p ∈ l, p.2.Flat ∧ P p.1)
    (s : Session) : s.KeepsNames P (l.foldl (fun s p => s.addBuiltin p.1 p.2) s) := by
  refine l.foldlRecOn _ (.refl s) fun s hs p hp => hs.trans ?_
  obtain ⟨hflat, hP⟩ := hl p hp
  obtain ⟨n, -, hname, hfragment, hgraph, -⟩ := Builtin.exists_addTo hflat s.graph (s.intern p.1).1
  refine ⟨s.names.extends_insert p.1, fun h => ?_⟩
  rw [show (s.addBuiltin p.1 p.2).graph = s.graph.add n from hgraph]
  exact (h.mono (s.names.extends_insert p.1)).add (spells_intern hP hfragment hname)

theorem spelledBy_start (names : Names) (keys : KeyList) (target : Target) :
    names.Extends (start names keys target).names ∧
      (start names keys target).graph.SpelledBy Unbroken (start names keys target).names := by
  have hbuiltin : ∀ x ∈ builtinNames, Unbroken x := by unfold Unbroken; decide
  have hstart : KeepsNames Unbroken { names, keys, graph := { target }, registry := {} }
      (start names keys target) := keepsNames_addBuiltins (fun p hp =>
    ⟨(flat_of_mem_builtins hp).1, hbuiltin _ (flat_of_mem_builtins hp).2.2⟩) _
  refine ⟨hstart.names, hstart.spelled fun id name hname => ?_⟩
  rw [Graph.node_of_le (Nat.zero_le id)] at hname
  rcases hname with hname | hname <;> cases hname

/-- **After a source every name that a node has can be spelled**, on one line, and the names that
were given to the session keep their spelling. -/
theorem spelledBy_readSource (names : Names) (keys : KeyList) (target : Target) (eval : Evaluator)
    (source : String) (contextLines : ℕ) :
    let read := ((start names keys target).readSource eval source contextLines).1
    names.Extends read.names ∧ read.graph.SpelledBy Unbroken read.names := by
  obtain ⟨hnames, hstart⟩ := spelledBy_start names keys target
  have hkeeps := keepsNames_readSource eval (ready_start names keys target) source contextLines
  exact ⟨hnames.trans hkeeps.names, hkeeps.spelled hstart⟩

/-! ### Before the layout -/

theorem keepsNames_resolveKeys (s : Session) : s.KeepsNames P s.resolveKeys.1 :=
  .of_graph (persists_resolveKeys s).names fun id => by
    rw [graph_resolveKeys]
    exact Graph.node_mark_field Node.labels (fun _ => rfl) _ _ id

theorem keepsNames_inlineStructs (h : s.graph.Settled) : s.KeepsNames P s.inlineStructs.1 := by
  rw [inlineStructs_eq]
  exact .of_graph (.refl _) fun id => h.labels_merges s.graph.merges_inlineStructs id

end Session

end TypeLayout
