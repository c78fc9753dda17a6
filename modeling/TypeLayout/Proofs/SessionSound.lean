import TypeLayout.Proofs.Building
import TypeLayout.Proofs.Reports
import TypeLayout.Proofs.Suffixes

/-!
# Declarations build the graph

Acting on a clause changes the graph by steps of `Graph.Build`, and by nothing else.
What has to be known for this is the state of the session around the graph: that a tag
is bound to a node of its own kind (`Session.Bound`), and that the bodies which are
open are different nodes that are being defined (`Scope.Fits`).

Both hold after any clauses, refused ones included. So any source, whether it is read to
its end or not, builds the graph (`Session.advances_readSource`), and another one can be
read after it (`Session.Ready.advances`).
-/

namespace TypeLayout

variable {g : Graph} {kind : NodeKind} {p : String × NodeKind} {scope : Scope} {spelling : String}

/-! ### Spellings of tags -/

/-- The words of tags, with the kind of node that each stands for. -/
def tagKinds : List (String × NodeKind) :=
  [("struct", .struct), ("union", .union), ("enum", .enum)]

/-- The kind of node that a struct or union is. -/
def TagKind.nodeKind : TagKind → NodeKind
  | .struct => .struct
  | .union => .union

/-- A node of a kind can be bound to a spelling: if that is the spelling of a tag, the
kind is that of the tag. -/
def FitsTag (spelling : String) (kind : NodeKind) : Prop :=
  ∀ p ∈ tagKinds, ∀ x, spelling = Names.tagSpelling p.1 x → kind = p.2

theorem takeWhile_tagSpelling {kw : String} (hkw : Plain kw) (x : String) :
    (Names.tagSpelling kw x).toList.takeWhile (· != ' ') = kw.toList := by
  have hall : ∀ c ∈ kw.toList, (c != ' ') = true := fun c hc => by
    simpa using fun he : c = ' ' => hkw (he ▸ hc)
  simp [Names.tagSpelling, List.takeWhile_append_of_pos hall]

theorem plain_of_mem_tagKinds (hp : p ∈ tagKinds) : Plain p.1 := by
  fin_cases hp <;> decide

/-- The first word of a spelling decides whether it is that of a tag. -/
theorem fitsTag_of_first (h : ∀ p ∈ tagKinds, spelling.toList.takeWhile (· != ' ') ≠ p.1.toList) :
    FitsTag spelling kind := by
  rintro p hp x rfl
  exact absurd (takeWhile_tagSpelling (plain_of_mem_tagKinds hp) x) (h p hp)

theorem fitsTag_of_plain (h : Plain spelling) : FitsTag spelling kind := by
  rintro p - x rfl
  exact absurd (by simp [Names.tagSpelling]) h

theorem fitsTag_tagSpelling (hp : p ∈ tagKinds) (x : String) :
    FitsTag (Names.tagSpelling p.1 x) p.2 := by
  intro q hq y he
  have hfirst : p.1.toList = q.1.toList := by
    rw [← takeWhile_tagSpelling (plain_of_mem_tagKinds hp) x, he,
      takeWhile_tagSpelling (plain_of_mem_tagKinds hq) y]
  revert hfirst
  fin_cases hp <;> fin_cases hq <;> decide

/-! ### What stays while a graph is built -/

/-- Nodes keep their kind, and the bodies that are open stay open. -/
structure Graph.Steady (g g' : Graph) : Prop where
  size : g.size ≤ g'.size
  kind : ∀ id < g.size, (g'.node id).kind = (g.node id).kind
  defining : ∀ id, (g.node id).state = .defining → (g'.node id).state = .defining

namespace Graph.Steady

variable {g g' g'' : Graph}

theorem refl (g : Graph) : g.Steady g := ⟨le_refl _, fun _ _ => rfl, fun _ h => h⟩

theorem trans (h : g.Steady g') (h' : g'.Steady g'') : g.Steady g'' where
  size := h.size.trans h'.size
  kind id hid := (h'.kind id (lt_of_lt_of_le hid h.size)).trans (h.kind id hid)
  defining id hid := h'.defining id (h.defining id hid)

theorem modify {id : NodeId} {f : Node → Node} (hk : ∀ n, (f n).kind = n.kind)
    (hs : (g.node id).state = .defining → (f (g.node id)).state = .defining) :
    g.Steady (g.modify id f) where
  size := le_of_eq (size_modify g id f).symm
  kind j _ := node_modify_field f Node.kind hk
  defining j hj := by
    rcases eq_or_ne id j with rfl | hne
    · rw [node_modify_self f (lt_size_of_state hj)]
      exact hs hj
    · rw [node_modify_of_ne f hne]
      exact hj

theorem add (n : Node) : g.Steady (g.add n) where
  size := by rw [size_add]; exact Nat.le_succ _
  kind j hj := by rw [node_add_of_lt n hj]
  defining j hj := by rw [node_add_of_lt n (lt_size_of_state hj)]; exact hj

theorem of_alike (h : g.Alike g') : g.Steady g' where
  size := le_of_eq h.size.symm
  kind id _ := (h.same id).kind
  defining id hid := (h.same id).state.trans hid

end Graph.Steady

/-! ### The session around the graph -/

theorem Registry.mem_insert {r : Registry} {name : NameId} {node : NodeId} {b : Binding}
    (hb : b ∈ (r.insert name node).bindings) : b ∈ r.bindings ∨ b = ⟨name, node, false⟩ := by
  unfold insert at hb
  split at hb
  · exact Or.inl hb
  · exact (List.mem_cons.mp hb).symm

/-- The names of the built-in types, which are the same on both targets. -/
def builtinNames : List String := (builtins .standard).map (·.1)

/-- **Names are bound right**: to nodes of the graph, never to a member of a union, and
tags to nodes of their own kind. Only the names of built-in types are built in. -/
def Session.Bound (s : Session) : Prop :=
  ∀ b ∈ s.registry.bindings, ∃ spelling, s.names.get? b.name = some spelling ∧
    b.node < s.graph.size ∧ (s.graph.node b.node).kind ≠ .unionMember ∧
    FitsTag spelling (s.graph.node b.node).kind ∧ (b.builtin = true → spelling ∈ builtinNames)

/-- The next free cell and the next free slot. -/
def Session.counters (s : Session) : ℕ × ℕ := (s.nextOffset, s.nextJump)

/-- A move of a session that builds the graph and leaves the open bodies alone. -/
structure Session.Moves (s s' : Session) : Prop where
  builds : Relation.ReflTransGen Graph.Build s.graph s'.graph
  steady : s.graph.Steady s'.graph
  bound : s.Bound → s'.Bound
  counters : s'.counters = s.counters
  keys : s'.keys = s.keys

/-- A move of a session that builds the graph, in which bodies may end. -/
structure Session.Advances (s s' : Session) : Prop where
  builds : Relation.ReflTransGen Graph.Build s.graph s'.graph
  size : s.graph.size ≤ s'.graph.size
  kind : ∀ id < s.graph.size, (s'.graph.node id).kind = (s.graph.node id).kind
  bound : s.Bound → s'.Bound
  counters : s'.counters = s.counters
  keys : s'.keys = s.keys

namespace Session

variable {s s' s'' : Session} {node : NodeId}

theorem Moves.refl (s : Session) : s.Moves s := ⟨.refl, .refl _, id, rfl, rfl⟩

theorem Moves.trans (h : s.Moves s') (h' : s'.Moves s'') : s.Moves s'' :=
  ⟨h.builds.trans h'.builds, h.steady.trans h'.steady, h'.bound ∘ h.bound,
    h'.counters.trans h.counters, h'.keys.trans h.keys⟩

theorem Moves.advances (h : s.Moves s') : s.Advances s' :=
  ⟨h.builds, h.steady.size, h.steady.kind, h.bound, h.counters, h.keys⟩

theorem Advances.trans (h : s.Advances s') (h' : s'.Advances s'') : s.Advances s'' :=
  ⟨h.builds.trans h'.builds, h.size.trans h'.size,
    fun id hid => (h'.kind id (lt_of_lt_of_le hid h.size)).trans (h.kind id hid),
    h'.bound ∘ h.bound, h'.counters.trans h.counters, h'.keys.trans h.keys⟩

/-- Names and bindings survive when the tables only grow. -/
theorem Bound.of_kind (h : s.Bound) (hr : s'.registry = s.registry)
    (hn : s.names.Extends s'.names) (hsize : s.graph.size ≤ s'.graph.size)
    (hk : ∀ id < s.graph.size, (s'.graph.node id).kind = (s.graph.node id).kind) : s'.Bound := by
  intro b hb
  rw [hr] at hb
  obtain ⟨spelling, hname, hlt, hkind, hfit, hbuiltin⟩ := h b hb
  rw [← hk b.node hlt] at hkind hfit
  exact ⟨spelling, hn _ _ hname, lt_of_lt_of_le hlt hsize, hkind, hfit, hbuiltin⟩

theorem Bound.mono (h : s.Bound) (hr : s'.registry = s.registry) (hn : s.names.Extends s'.names)
    (hg : s.graph.Steady s'.graph) : s'.Bound :=
  h.of_kind hr hn hg.size hg.kind

theorem moves_graph (hb : Relation.ReflTransGen Graph.Build s.graph g) (hg : s.graph.Steady g) :
    s.Moves { s with graph := g } :=
  ⟨hb, hg, fun h => h.mono rfl (fun _ _ hx => hx) hg, rfl, rfl⟩

theorem moves_intern (s : Session) (spelling : String) : s.Moves (s.intern spelling).2 :=
  ⟨.refl, .refl _, fun h => h.mono rfl (s.names.extends_insert spelling) (.refl _), rfl, rfl⟩

theorem moves_note (s : Session) (n : Notice) : s.Moves (s.note n) :=
  ⟨.refl, .refl _, fun h => h.mono rfl (.refl _) (.refl _), rfl, rfl⟩

theorem moves_label (s : Session) (id : NodeId) {f : Node → Node}
    (hf : ∀ n : Node, n.Same (f n) ∧ (f n).refs = n.refs) : s.Moves (s.modifyNode id f) :=
  moves_graph (.single (.label hf)) (.of_alike (.modify _ id fun n => (hf n).1))

/-- Binding a name to a node that it fits. -/
theorem moves_bind (hlt : node < s.graph.size) (hkind : (s.graph.node node).kind ≠ .unionMember)
    (hfit : FitsTag spelling (s.graph.node node).kind) : s.Moves (s.bind spelling node) := by
  refine ⟨.refl, .refl _, fun h b hb => ?_, rfl, rfl⟩
  have hs := (moves_intern s spelling).bound h
  rcases Registry.mem_insert hb with hb | rfl
  · exact hs b hb
  · exact ⟨spelling, s.names.get?_insert spelling, hlt, hkind, hfit, by simp⟩

/-- What a spelling is bound to. -/
theorem Bound.lookup? (h : s.Bound) (hl : s.lookup? spelling = some node) :
    node < s.graph.size ∧ (s.graph.node node).kind ≠ .unionMember ∧
      FitsTag spelling (s.graph.node node).kind := by
  obtain ⟨id, hid, hb⟩ := Option.bind_eq_some_iff.mp hl
  obtain ⟨b, hfind, rfl⟩ := Option.map_eq_some_iff.mp hb
  have hname : b.name = id := by simpa using List.find?_some hfind
  obtain ⟨spelling', hs, hlt, hkind, hfit, -⟩ := h b (List.mem_of_find?_eq_some hfind)
  rw [hname, Names.get?_of_find? hid] at hs
  exact ⟨hlt, hkind, Option.some.inj hs ▸ hfit⟩

theorem Bound.lookup?_eq_none (h : s.Bound) {id : NameId} (hid : s.names.get? id = none) :
    s.registry.lookup? id = none := by
  rw [Registry.lookup?, Registry.find?, Option.map_eq_none_iff, List.find?_eq_none]
  intro b hb heq
  obtain ⟨spelling, hname, -⟩ := h b hb
  rw [show b.name = id by simpa using heq, hid] at hname
  simp at hname

/-- Interning a name binds nothing. -/
theorem lookup?_intern (h : s.Bound) (x y : String) :
    (s.intern x).2.lookup? y = s.lookup? y := by
  show ((s.names.insert x).2.find? y).bind s.registry.lookup? = _
  rw [Names.find?_insert, lookup?]
  split
  · rename_i hy
    subst hy
    cases hfind : s.names.find? y with
    | some id => rw [Names.insert_of_some hfind]
    | none => exact h.lookup?_eq_none (Names.get?_insert_of_none hfind)
  · rfl

end Session

/-! ### What a clause does -/

namespace NodeState

/-- The state of a node stays as it is. -/
def Stays (_ : NodeKind) (state state' : NodeState) : Prop := state' = state

/-- **How the state of a node goes on**: a body begins and ends, and an enumeration that was
only named gets its values. -/
inductive Next : NodeKind → NodeState → NodeState → Prop
  | stay (kind : NodeKind) (state : NodeState) : Next kind state state
  | start {kind : NodeKind} (h : kind = .struct ∨ kind = .union) : Next kind .incomplete .defining
  | close {kind : NodeKind} (h : kind = .struct ∨ kind = .union) : Next kind .defining .defined
  | complete : Next .enum .incomplete .defined

end NodeState

open NodeState

/-- A spelling is that of a tag. -/
def IsTag (x : String) : Prop := ∃ p ∈ tagKinds, ∃ name, x = Names.tagSpelling p.1 name

/-- A node has no fragment, and if it has a name, it is spelled by a text of which `P` holds. -/
def Names.Spells (P : String → Prop) (names : Names) (n : Node) : Prop :=
  n.fragment = none ∧ ∀ name, n.name = some name → ∃ x, names.get? name = some x ∧ P x

namespace Session

variable {base id : NodeId} {count : ℕ} {d : Declarator} {e : Element} {item : Item}
  {kind : TagKind} {n : Node} {name x : String}

/-- **One change of a session** by a clause. Most changes leave the states of all nodes as they
are (`Stays`): an entry of the log, a spelling, a label of the type that the clause refers back
to, a new node, an item or a member of a body that is open, and a binding. A body that begins
and an enumeration that gets its values go on to their next state. Labels are spelled by texts
of which `P` holds. -/
inductive Change (P : String → Prop) (labelled : Option Specified) :
    (NodeKind → NodeState → NodeState → Prop) → Session → Session → Prop
  | note (s : Session) (n : Notice) : Change P labelled Stays s (s.note n)
  | intern (s : Session) (x : String) : Change P labelled Stays s (s.intern x).2
  | fragment {s : Session} {type : Specified} {name : NameId} {x : String} (ht : type ∈ labelled)
      (ha : type.anonymous = true) (hname : s.names.get? name = some x) (hx : P x) :
      Change P labelled Stays s (s.modifyNode type.node fun n => { n with fragment := some name })
  | name {s : Session} {type : Specified} {name : NameId} {x : String} (ht : type ∈ labelled)
      (hname : s.names.get? name = some x) (hx : P x) :
      Change P labelled Stays s
        (s.modifyNode type.node fun n => { n with name := n.name.or (some name) })
  | blank {s : Session} {n : Node} (hn : n.Blank) (hname : s.names.Spells P n) :
      Change P labelled Stays s (s.addNode n)
  | hold {s : Session} {n : Node} {i : Item} (hn : n.Holds s.graph i) (hk : n.kind ≠ .unionMember)
      (hl : s.graph.Leads i.kind) (hname : s.names.Spells P n) :
      Change P labelled Stays s { s with graph := (s.graph.retain i.kind).add n }
  | bind {s : Session} {x : String} {node : NodeId} (hlt : node < s.graph.size)
      (hk : (s.graph.node node).kind ≠ .unionMember)
      (hname : (s.graph.node node).name.isSome = true) (hfit : FitsTag x (s.graph.node node).kind)
      (hx : Plain x ∨ IsTag x ∧ s.lookup? x = none) : Change P labelled Stays s (s.bind x node)
  | append {s : Session} {id : NodeId} {item : Item} (hs : (s.graph.node id).state = .defining)
      (hk : (s.graph.node id).kind = .struct) (hl : s.graph.Leads item.kind) :
      Change P labelled Stays s { s with graph := s.graph.appendItem id item }
  | member {s : Session} {n : Node} {id : NodeId} {item : Item} (hn : n.Holds s.graph item)
      (hnk : n.kind = .unionMember) (hl : s.graph.Leads item.kind)
      (hs : (s.graph.node id).state = .defining) (hk : (s.graph.node id).kind = .union)
      (hname : s.names.Spells P n) : Change P labelled Stays s
        { s with graph := ((s.graph.retain item.kind).add n).addMember id s.graph.size }
  | start {s : Session} {id : NodeId} {line : ℕ} (hs : (s.graph.node id).state = .incomplete)
      (hk : (s.graph.node id).kind = .struct ∨ (s.graph.node id).kind = .union) :
      Change P labelled Next s (s.modifyNode id fun n => { n with line, state := .defining })
  | complete {s : Session} {id : NodeId} (hs : (s.graph.node id).state = .incomplete)
      (hk : (s.graph.node id).kind = .enum) :
      Change P labelled Next s (s.modifyNode id fun n => { n with state := .defined })

/-- **Changes of a session one after the other**, of which only the last may be one of state. -/
inductive Changes (P : String → Prop) (labelled : Option Specified)
    (R : NodeKind → NodeState → NodeState → Prop) : Session → Session → Prop
  | refl (s : Session) : Changes P labelled R s s
  | last {s s' : Session} (h : Change P labelled R s s') : Changes P labelled R s s'
  | step {s s' s'' : Session} (h : Change P labelled Stays s s') (h' : Changes P labelled R s' s'') :
      Changes P labelled R s s''

variable {P : String → Prop} {L : Option Specified}
  {R : NodeKind → NodeState → NodeState → Prop} {s s' s'' : Session}

theorem Changes.trans (h : Changes P L Stays s s') (h' : Changes P L R s' s'') :
    Changes P L R s s'' := by
  induction h with
  | refl => exact h'
  | last h => exact .step h h'
  | step h _ ih => exact .step h (ih h')

/-- Nothing but changes that leave the states alone. -/
theorem Changes.stays (h : Changes P L Stays s s') : Changes P L R s s' :=
  h.trans (.refl s')

theorem moves_blank (hn : n.Blank) : s.Moves (s.addNode n) :=
  moves_graph (.single (.blank hn)) (.add n)

theorem steady_retain_add (g : Graph) (e : Element) (n : Node) : g.Steady ((g.retain e).add n) :=
  (Graph.Steady.of_alike (.retain g e)).trans (.add n)

theorem moves_hold (item : Item) (hn : n.Holds s.graph item) (hk : n.kind ≠ .unionMember)
    (hl : s.graph.Leads item.kind) : s.Moves { s with graph := (s.graph.retain item.kind).add n } :=
  moves_graph (.single (.hold hn hk hl)) (steady_retain_add s.graph item.kind n)

theorem moves_appendItem (hs : (s.graph.node id).state = .defining)
    (hk : (s.graph.node id).kind = .struct) (hl : s.graph.Leads item.kind) :
    s.Moves { s with graph := s.graph.appendItem id item } := by
  refine moves_graph (.single (.append hs hk hl)) ?_
  have hgrown : s.graph.Steady (s.graph.modify id (Node.withItem (s.graph.elementSize item.kind)
      (s.graph.elementAlign item.kind) item)) := .modify (fun _ => rfl) (fun h => h)
  rw [Graph.appendItem_eq]
  dsimp only
  split
  · exact hgrown
  · exact hgrown.trans (.of_alike (.retain _ item.kind))

/-- **Each change builds the graph** and leaves the open bodies alone. -/
theorem Change.moves (h : Change P L R s s') : s.Moves s' := by
  cases h with
  | note => exact moves_note s _
  | intern => exact moves_intern s _
  | fragment | name =>
    exact moves_label _ _ fun n => ⟨⟨rfl, rfl, rfl, rfl, rfl, rfl, rfl, rfl, rfl, rfl, rfl⟩, rfl⟩
  | blank hn => exact moves_blank hn
  | hold hn hk hl => exact moves_hold _ hn hk hl
  | bind hlt hk _ hfit => exact moves_bind hlt hk hfit
  | append hs hk hl => exact moves_appendItem hs hk hl
  | member hn hnk hl hs hk =>
    exact moves_graph (.single (.member hn hnk hl hs hk))
      ((steady_retain_add s.graph _ _).trans (.modify (fun _ => rfl) (fun h => h)))
  | start hs hk => exact moves_graph (.single (.start hs hk)) (.modify (fun _ => rfl) fun _ => rfl)
  | complete hs hk =>
    refine moves_graph (.single (.complete hs hk)) (.modify (fun _ => rfl) fun h => ?_)
    rw [hs] at h
    cases h

theorem Changes.moves (h : Changes P L R s s') : s.Moves s' := by
  induction h with
  | refl s => exact .refl s
  | last h => exact h.moves
  | step h _ ih => exact h.moves.trans ih

/-! ### Tags and enumerations -/

theorem mem_tagKinds (kind : TagKind) : (kind.keyword, kind.nodeKind) ∈ tagKinds := by
  cases kind <;> decide

theorem nodeKind_eq (kind : TagKind) :
    kind.nodeKind = .struct ∨ kind.nodeKind = .union := by
  cases kind <;> simp [TagKind.nodeKind]

theorem blank_of_nodeKind (name : Option NameId) (kind : TagKind) {state : NodeState} (line : ℕ)
    (hs : state ≠ .defined) : Node.Blank { name, kind := kind.nodeKind, state, line } :=
  ⟨rfl, rfl, rfl, rfl, rfl, ⟨rfl, rfl, rfl, rfl, rfl⟩, Or.inr ⟨nodeKind_eq kind, hs⟩⟩

/-- A name that has just been interned can be spelled. -/
theorem get?_intern (s : Session) (x : String) :
    (s.intern x).2.names.get? (s.intern x).1 = some x :=
  s.names.get?_insert x

theorem spells_intern (hx : P x) (hf : n.fragment = none) (hn : n.name = some (s.intern x).1) :
    (s.intern x).2.names.Spells P n := by
  refine ⟨hf, fun name hname => ?_⟩
  obtain rfl := Option.some.inj (hn.symm.trans hname)
  exact ⟨x, get?_intern s x, hx⟩

theorem spells_of_none {names : Names} (hf : n.fragment = none) (hn : n.name = none) :
    names.Spells P n :=
  ⟨hf, fun name hname => by rw [hn] at hname; cases hname⟩

/-- Binding a name to the node that was added last. -/
theorem Change.bindAdded (hg : s.graph = g.add n) (hid : id = g.size)
    (hkind : n.kind ≠ .unionMember) (hname : n.name.isSome = true) (hfit : FitsTag x n.kind)
    (hx : Plain x ∨ IsTag x ∧ s.lookup? x = none) : Change P L Stays s (s.bind x id) := by
  have hnode : s.graph.node id = n := by rw [hg, hid, Graph.node_add_self]
  rw [← hnode] at hkind hname hfit
  refine .bind ?_ hkind hname hfit hx
  rw [hg, hid, Graph.size_add]
  exact Nat.lt_succ_self _

theorem tagNode_of_some {node : NodeId} (line : ℕ)
    (h : s.lookup? (Names.tagSpelling kind.keyword name) = some node) :
    s.tagNode kind name line = (node, s) := by
  simp only [tagNode, h]

theorem tagNode_of_none (line : ℕ) (h : s.lookup? (Names.tagSpelling kind.keyword name) = none) :
    s.tagNode kind name line = (s.graph.size, ((s.intern name).2.addNode
      { name := some (s.intern name).1, kind := kind.nodeKind, state := .incomplete,
        line := line }).bind (Names.tagSpelling kind.keyword name) s.graph.size) := by
  simp only [tagNode, h]
  rfl

/-- A tag leads to a node of its kind, which is added if the tag is new. -/
theorem changes_tagNode (hb : s.Bound) (kind : TagKind) (name : String) (line : ℕ) (hx : P name) :
    Changes P L Stays s (s.tagNode kind name line).2 ∧
      (s.tagNode kind name line).1 < (s.tagNode kind name line).2.graph.size ∧
      ((s.tagNode kind name line).2.graph.node (s.tagNode kind name line).1).kind =
        kind.nodeKind := by
  cases hl : s.lookup? (Names.tagSpelling kind.keyword name) with
  | some node =>
    obtain ⟨hlt, -, hfit⟩ := hb.lookup? hl
    rw [tagNode_of_some line hl]
    exact ⟨.refl s, hlt, hfit _ (mem_tagKinds kind) name rfl⟩
  | none =>
    rw [tagNode_of_none line hl]
    have hblank := blank_of_nodeKind (some (s.intern name).1) kind line
      (show NodeState.incomplete ≠ .defined by decide)
    have hne : kind.nodeKind ≠ .unionMember := by cases kind <;> decide
    have htag : IsTag (Names.tagSpelling kind.keyword name) := ⟨_, mem_tagKinds kind, name, rfl⟩
    have hfree := (lookup?_intern hb name _).trans hl
    refine ⟨.step (.intern s name) (.step (.blank hblank (spells_intern hx rfl rfl))
      (.last (.bindAdded rfl rfl hne rfl (fitsTag_tagSpelling (mem_tagKinds kind) name)
        (.inr ⟨htag, hfree⟩)))), ?_, ?_⟩
    · show s.graph.size < (s.graph.add _).size
      rw [Graph.size_add]
      exact Nat.lt_succ_self _
    · show ((s.graph.add _).node s.graph.size).kind = _
      rw [Graph.node_add_self]

theorem openBody_of_none (kind : TagKind) (line : ℕ) :
    s.openBody kind none line =
      (s.addNode { kind := kind.nodeKind, state := .defining, line }, .ok ⟨s.graph.size, true⟩) :=
  rfl

/-- A body begins in a node that was not being defined and is so now. -/
theorem changes_openBody (hb : s.Bound) (kind : TagKind) (name : Option String) (line : ℕ)
    (hx : ∀ x ∈ name, P x) :
    Changes P L Next s (s.openBody kind name line).1 ∧
      ∀ body, (s.openBody kind name line).2 = .ok body →
        (s.graph.node body.node).state ≠ .defining ∧
        ((s.openBody kind name line).1.graph.node body.node).state = .defining ∧
        ((s.openBody kind name line).1.graph.node body.node).kind = kind.nodeKind := by
  cases name with
  | none =>
    rw [openBody_of_none]
    refine ⟨.step (.blank (blank_of_nodeKind none kind line (by decide)) (spells_of_none rfl rfl))
      (.refl _), fun body hbody => ?_⟩
    obtain rfl := Except.ok.inj hbody
    refine ⟨?_, ?_⟩
    · rw [Graph.node_of_le (le_refl _)]
      decide
    · simp only [addNode, Graph.node_add_self, and_self]
  | some name =>
    obtain ⟨hchanges, hlt, hnode⟩ := changes_tagNode (L := L) hb kind name line (hx name rfl)
    unfold openBody
    dsimp only
    generalize s.tagNode kind name line = r at *
    obtain ⟨node, s₁⟩ := r
    dsimp only at *
    split
    · rename_i hstate
      refine ⟨hchanges.trans (.last (.start hstate (hnode ▸ nodeKind_eq kind))),
        fun body hbody => ?_⟩
      obtain rfl := Except.ok.inj hbody
      refine ⟨fun hdef => ?_, ?_⟩
      · have hdef' := hchanges.moves.steady.defining node hdef
        rw [hstate] at hdef'
        exact absurd hdef' (by decide)
      · simp only [modifyNode, Graph.node_modify_self _ hlt, hnode, and_self]
    · exact ⟨hchanges.stays, fun body hbody => by simp at hbody⟩

theorem addScalar_eq (g : Graph) (kind : NodeKind) (name : Option NameId) (he : e.link? = none) :
    g.addScalar kind name e = g.add
      { name, kind, state := .defined, items := [⟨1, e⟩], align := max 1 (g.elementAlign e),
        length := alignUp (wrap (g.elementSize e * 1)) (max 1 (g.elementAlign e)) } := by
  have hretain : g.retain e = g := by simp [Graph.retain, he]
  rw [Graph.addScalar, Graph.finish_appendItem_add rfl rfl rfl (Graph.leads_of_link?_eq_none he),
    hretain]

theorem enumeration_of_none (body : Bool) (line : ℕ)
    (h : s.lookup? (Names.tagSpelling "enum" name) = none) :
    s.enumeration (some name) body line =
      ((({ (s.intern name).2 with
          graph := s.graph.addScalar .enum (some (s.intern name).1) .enum }).modifyNode s.graph.size
            fun n => { n with line, state := if body then n.state else .incomplete }).bind
        (Names.tagSpelling "enum" name) s.graph.size, .ok ⟨s.graph.size, false⟩) := by
  simp only [enumeration, h]
  rfl

/-- An enumeration is named or defined; either way its node can be referred to. -/
theorem changes_enumeration (hs : s.graph.Sound) (hb : s.Bound) (name : Option String)
    (body : Bool) (line : ℕ) (hx : ∀ x ∈ name, P x) :
    Changes P L Next s (s.enumeration name body line).1 ∧
      ∀ type, (s.enumeration name body line).2 = .ok type →
        type.node < (s.enumeration name body line).1.graph.size ∧
        ((s.enumeration name body line).1.graph.node type.node).kind ≠ .unionMember := by
  have hleads : s.graph.Leads .enum := trivial
  have hmem : ("enum", NodeKind.enum) ∈ tagKinds := by decide
  cases name with
  | none =>
    simp only [enumeration]
    rw [addScalar_eq _ _ _ rfl]
    refine ⟨.step (.hold (i := ⟨1, .enum⟩) ⟨rfl, rfl, rfl, rfl, rfl, ⟨rfl, rfl, rfl, rfl, rfl⟩,
      Or.inr (Or.inl rfl), Or.inl rfl⟩ (by simp) hleads (spells_of_none rfl rfl)) (.refl _),
      fun type htype => ?_⟩
    obtain rfl := Except.ok.inj htype
    simp [Graph.node_add_self]
  | some name =>
    cases hl : s.lookup? (Names.tagSpelling "enum" name) with
    | some node =>
      obtain ⟨hlt, hkind, hfit⟩ := hb.lookup? hl
      have henum : (s.graph.node node).kind = .enum := hfit _ hmem name rfl
      simp only [enumeration, hl]
      split
      · split
        · exact ⟨.refl s, fun type htype => by simp at htype⟩
        · rename_i hdef
          have hstate : (s.graph.node node).state = .incomplete := by
            cases hstate : (s.graph.node node).state with
            | incomplete => rfl
            -- an enumeration is never in the middle of its body
            | defining => simpa [henum] using (hs.nodes node).body hstate
            | defined => simp [Node.isDefined, hstate] at hdef
          refine ⟨.last (.complete hstate henum), fun type htype => ?_⟩
          obtain rfl := Except.ok.inj htype
          refine ⟨by simpa [modifyNode] using hlt, ?_⟩
          rw [modifyNode, Graph.node_modify_self _ hlt]
          exact hkind
      · refine ⟨.refl s, fun type htype => ?_⟩
        obtain rfl := Except.ok.inj htype
        exact ⟨hlt, hkind⟩
    | none =>
      rw [enumeration_of_none body line hl, addScalar_eq _ _ _ rfl]
      simp only [modifyNode, Graph.modify_add_self]
      have htag : IsTag (Names.tagSpelling "enum" name) := ⟨_, hmem, name, rfl⟩
      have hfree := (lookup?_intern hb name _).trans hl
      refine ⟨.step (.intern s name) (.step (.hold (i := ⟨1, .enum⟩) ⟨rfl, rfl, rfl, rfl, rfl,
        ⟨rfl, rfl, rfl, rfl, rfl⟩, Or.inr (Or.inl rfl), ?_⟩ (by simp) hleads
          (spells_intern (hx name rfl) rfl rfl)) (.step (.bindAdded rfl rfl (by simp) rfl
            (fitsTag_tagSpelling hmem name) (.inr ⟨htag, hfree⟩)) (.refl _))), fun type htype => ?_⟩
      · cases body
        · exact Or.inr ⟨rfl, rfl⟩
        · exact Or.inl rfl
      · obtain rfl := Except.ok.inj htype
        simp [bind, intern, Graph.node_add_self]

/-! ### Declarators -/

theorem scale_map_ok {line factor : ℕ}
    (h : ((scale line count factor).map fun count => (⟨count, e⟩ : Item)) = .ok item) :
    item.kind = e := by
  unfold scale at h
  split at h
  · rw [← Except.ok.inj h]
  · simp [Except.map] at h

/-- Whatever stands for what it holds holds exactly one item. -/
theorem exists_item (hs : s.graph.Sound)
    (hk : (s.graph.node base).kind = .base ∨ (s.graph.node base).kind = .enum ∨
      (s.graph.node base).kind = .typedef) (hv : (s.graph.node base).isVoid = false) :
    ∃ item, (s.graph.node base).items = [item] := by
  have hn := hs.nodes base
  have hne : (s.graph.node base).items ≠ [] := by
    rcases hk with hk | hk
    · simpa [Node.isVoid, hk] using hv
    · exact hn.filled hk
  exact List.length_eq_one_iff.mp
    (le_antisymm (hn.simple hk) (List.length_pos_iff.mpr hne))

/-- An item only ever links to what has been defined. -/
theorem leads_elementItem (hs : s.graph.Sound) (hk : (s.graph.node base).kind ≠ .unionMember)
    (h : elementItem s base count d = .ok item) : s.graph.Leads item.kind := by
  unfold elementItem at h
  dsimp only at h
  split at h
  · simp at h
  split at h
  · simp at h
  rename_i hv
  have hone (hb : (s.graph.node base).kind = .base ∨ (s.graph.node base).kind = .enum ∨
      (s.graph.node base).kind = .typedef) : s.graph.Leads item.kind := by
    obtain ⟨held, hheld⟩ := exists_item hs hb (by simpa using hv)
    have hitem : item.kind = held.kind := by
      rcases hb with hb | hb | hb <;> rw [hb] at h <;> simp only [hheld] at h <;>
        exact scale_map_ok h
    rw [hitem]
    exact (hs.nodes base).leads held (by simp [hheld])
  cases hkind : (s.graph.node base).kind with
  | base => exact hone (Or.inl hkind)
  | enum => exact hone (Or.inr (Or.inl hkind))
  | typedef => exact hone (Or.inr (Or.inr hkind))
  | unionMember => exact absurd hkind hk
  | struct | union =>
    simp only [Node.isUnion, hkind] at h
    split at h
    · simp at h
    · rename_i hdef
      rw [← Except.ok.inj h]
      exact ⟨hkind, by simpa using hdef⟩

theorem leads_itemFor {eval : Evaluator} (hs : s.graph.Sound)
    (hk : (s.graph.node base).kind ≠ .unionMember) (h : (itemFor eval s base d).result = .ok item) :
    s.graph.Leads item.kind := by
  unfold itemFor at h
  dsimp only at h
  split at h
  · simp at h
  · rw [← Except.ok.inj h]
    trivial
  · rw [← Except.ok.inj h]
    trivial
  · exact leads_elementItem hs hk h

theorem changes_rememberFragment (s : Session) (type : Specified) (name : String) (hx : P name) :
    Changes P (some type) Stays s (s.rememberFragment type name) := by
  unfold rememberFragment
  split
  · rename_i h
    exact .step (.intern s name) (.last (.fragment rfl h.1 (get?_intern s name) hx))
  · exact .refl s

theorem changes_nameType {type : Specified} (hlt : type.node < s.graph.size)
    (hk : (s.graph.node type.node).kind ≠ .unionMember) (hd : Plain d.name) (hx : P d.name) :
    Changes P (some type) Stays s (s.nameType type.node d) := by
  have hlabel : Change P (some type) Stays (s.intern d.name).2 _ :=
    .name rfl (get?_intern s d.name) hx
  refine .step (.intern s d.name) (.step hlabel (.step (.bind ?_ ?_ ?_ (fitsTag_of_plain hd)
    (.inl hd)) (.last (.note _ _))))
  · exact lt_of_lt_of_le hlt hlabel.moves.steady.size
  · rw [hlabel.moves.steady.kind _ hlt]
    exact hk
  · show ((s.graph.modify type.node _).node type.node).name.isSome = true
    rw [Graph.node_modify_self _ hlt]
    cases (s.graph.node type.node).name <;> rfl

/-- A node that is opened for one item and closed again. -/
theorem exists_holder (g : Graph) (name : Option NameId) {kind : NodeKind} (line : ℕ)
    (hk : kind = .typedef ∨ kind = .unionMember) (hl : g.Leads item.kind) :
    ∃ n : Node, n.kind = kind ∧ n.name = name ∧ n.fragment = none ∧ n.Holds g item ∧
      ((g.add { name, kind, state := .defining, line }).appendItem g.size item).finish g.size =
        (g.retain item.kind).add n := by
  refine ⟨_, ?_, ?_, ?_, ?_, Graph.finish_appendItem_add rfl rfl rfl hl⟩
  · rfl
  · rfl
  · rfl
  · exact ⟨rfl, rfl, rfl, rfl, rfl, ⟨rfl, rfl, rfl, rfl, rfl⟩, Or.inr (Or.inr hk), Or.inl rfl⟩

theorem changes_deriveType (hl : s.graph.Leads item.kind) (hd : Plain d.name) (hx : P d.name) :
    Changes P L Stays s (s.deriveType d item) := by
  obtain ⟨n, hkind, hname, hfragment, hholds, heq⟩ :=
    exists_holder s.graph (some (s.intern d.name).1) d.line (Or.inl rfl) hl
  have hadd : Change P L Stays (s.intern d.name).2 _ :=
    .hold hholds (by simp [hkind]) hl (spells_intern hx hfragment hname)
  unfold deriveType
  simp only [addNode]
  rw [show (s.intern d.name).2.graph = s.graph from rfl, heq]
  exact .step (.intern s d.name) (.step hadd (.step (.bindAdded rfl
    (Graph.Alike.retain s.graph item.kind).size.symm (by simp [hkind]) (by simp [hname])
      (fitsTag_of_plain hd) (.inl hd)) (.last (.note _ _))))

/-- A field goes into the innermost body, as an item or as a member. -/
theorem changes_addField {container : NodeId} (line : ℕ)
    (hs : (s.graph.node container).state = .defining)
    (hk : (s.graph.node container).kind = .struct ∨ (s.graph.node container).kind = .union)
    (hl : s.graph.Leads item.kind) : Changes P L Stays s (s.addField container line item) := by
  unfold addField
  split
  · rename_i hunion
    have hu : (s.graph.node container).kind = .union := by simpa [Node.isUnion] using hunion
    obtain ⟨n, hkind, hname, hfragment, hholds, heq⟩ :=
      exists_holder s.graph none line (Or.inr rfl) hl
    simp only [addNode]
    rw [heq]
    exact .last (.member hholds hkind hl hs hu (spells_of_none hfragment hname))
  · rename_i hunion
    exact .last (.append hs (hk.resolve_right (by simpa [Node.isUnion] using hunion)) hl)

end Session

/-! ### Clauses -/

/-- What a clause may give a label to: the type that a declarator refers back to. -/
def Clause.labels (c : Clause) (scope : Scope) : Option Specified :=
  match c with
  | .declare _ _ | .bare _ => some scope.type
  | _ => none

/-- **A scope fits a graph**: the bodies that are open are different nodes that are being
defined, and the type named last can be referred to. -/
structure Scope.Fits (scope : Scope) (g : Graph) : Prop where
  nodup : (scope.bodies.map (·.node)).Nodup
  bodies : ∀ b ∈ scope.bodies, (g.node b.node).state = .defining ∧
    ((g.node b.node).kind = .struct ∨ (g.node b.node).kind = .union)
  type : scope.type.node < g.size ∧ (g.node scope.type.node).kind ≠ .unionMember

theorem Scope.Fits.mono {g' : Graph} (h : scope.Fits g) (hg : g.Steady g') :
    scope.Fits g' where
  nodup := h.nodup
  bodies b hb := by
    obtain ⟨hs, hk⟩ := h.bodies b hb
    rw [hg.kind _ (Graph.lt_size_of_state hs)]
    exact ⟨hg.defining _ hs, hk⟩
  type := by
    rw [hg.kind _ h.type.1]
    exact ⟨lt_of_lt_of_le h.type.1 hg.size, h.type.2⟩

/-- The innermost body can take a field. -/
theorem Scope.Fits.container (h : scope.Fits g) {c : NodeId} (hc : scope.container? = some c) :
    (g.node c).state = .defining ∧
      ((g.node c).kind = .struct ∨ (g.node c).kind = .union) := by
  obtain ⟨b, hb, rfl⟩ := Option.map_eq_some_iff.mp hc
  exact h.bodies b (List.mem_of_head? hb)

namespace Session

variable {s s' : Session} {scope : Scope} {clause : Clause}

/-- Entries of the log change nothing else. -/
theorem noteAll_eq (s : Session) (ns : List Notice) :
    s.noteAll ns = { s with notices := s.notices ++ ns } := by
  induction ns generalizing s with
  | nil => rfl
  | cons n ns ih => exact ih (s.note n)

theorem graph_noteAsked (s : Session) (line : ℕ) (asked : List String) :
    (s.noteAsked line asked).graph = s.graph := by
  rw [noteAsked, noteAll_eq]

theorem changes_noteAll (s : Session) (ns : List Notice) :
    Changes P L Stays s (s.noteAll ns) := by
  induction ns generalizing s with
  | nil => exact .refl s
  | cons n ns ih => exact .step (.note s n) (ih (s.note n))

theorem changes_declare (eval : Evaluator) {d : Declarator} {typedef : Bool} (hs : s.graph.Sound)
    (hf : scope.Fits s.graph) (hd : typedef = true → Plain d.name) (hx : P d.name) :
    Changes P (some scope.type) Stays s (s.declare eval scope d typedef).1 := by
  have hfrag := changes_rememberFragment s scope.type d.name hx
  have hf' := hf.mono hfrag.moves.steady
  have hs' := hs.builds hfrag.moves.builds
  unfold declare
  dsimp only
  generalize s.rememberFragment scope.type d.name = s₁ at *
  refine hfrag.trans ?_
  have hasked : Changes P (some scope.type) Stays s₁
    (s₁.noteAsked d.line (itemFor eval s₁ scope.type.node d).asked) := changes_noteAll s₁ _
  have hgraph := graph_noteAsked s₁ d.line (itemFor eval s₁ scope.type.node d).asked
  have hleads {item : Item} (hitem : (itemFor eval s₁ scope.type.node d).result = .ok item) :
      (s₁.noteAsked d.line (itemFor eval s₁ scope.type.node d).asked).graph.Leads item.kind := by
    rw [hgraph]
    exact leads_itemFor hs' hf'.type.2 hitem
  cases typedef with
  | false =>
    rw [if_neg (by simp)]
    cases hc : scope.container? with
    | none => exact .refl s₁
    | some container =>
      obtain ⟨hstate, hkind⟩ := hf'.container hc
      rw [← hgraph] at hstate hkind
      refine hasked.trans ?_
      cases hitem : (itemFor eval s₁ scope.type.node d).result with
      | error r => exact .refl _
      | ok item => exact changes_addField d.line hstate hkind (hleads hitem)
  | true =>
    split
    · exact changes_nameType hf'.type.1 hf'.type.2 (hd rfl) hx
    · refine hasked.trans ?_
      cases hitem : (itemFor eval s₁ scope.type.node d).result with
      | error r => exact .refl _
      | ok item => exact changes_deriveType (hleads hitem) (hd rfl) hx

theorem changes_bareType (eval : Evaluator) (hs : s.graph.Sound) (hf : scope.Fits s.graph)
    (hx : ∀ n : ℕ, P s!"anon{n}") (line : ℕ) :
    Changes P (some scope.type) Stays s (s.bareType eval scope line).1 := by
  unfold bareType
  split
  · split
    · exact .last (.note s _)
    · exact changes_declare eval hs hf (by simp) (hx _)
  · exact .refl s

/-- A session with a sound graph in which no node has been placed. -/
structure Fresh (s : Session) : Prop where
  sound : s.graph.Sound
  counters : s.counters = (0, 0)

/-- What holds of a session after each clause. -/
structure Ready (s : Session) (scope : Scope) : Prop extends Fresh s where
  bound : s.Bound
  fits : scope.Fits s.graph

/-- **One clause**, refused or not, changes the session step by step, unless it ends a body. The
texts that label nodes are the names in the clause and numbered ones. -/
theorem changes_act (eval : Evaluator) (h : s.Ready scope)
    (hc : ∀ d, clause = .declare d true → Plain d.name) (hx : ∀ x ∈ clause.names, P x)
    (hanon : ∀ n : ℕ, P s!"anon{n}") :
    Changes P (clause.labels scope) Next s (s.act eval scope clause).1 ∨
      ∃ b bodies, clause = .closeBody ∧ scope.bodies = b :: bodies := by
  cases clause with
  | openBody kind name line =>
    exact .inl (changes_openBody h.bound kind name line
      fun x hn => hx x (Option.mem_toList.mpr hn)).1
  | closeBody =>
    cases hb : scope.bodies with
    | nil =>
      simp only [act, hb]
      exact .inl (.refl s)
    | cons b bodies => exact .inr ⟨b, bodies, rfl, rfl⟩
  | tag kind name line =>
    exact .inl (changes_tagNode h.bound kind name line (hx name List.mem_cons_self)).1.stays
  | enum name body line =>
    exact .inl (changes_enumeration h.sound h.bound name body line
      fun x hn => hx x (Option.mem_toList.mpr hn)).1
  | base | named =>
    simp only [act]
    split <;> exact .inl (.refl s)
  | declare d typedef =>
    refine .inl (changes_declare eval h.sound h.fits (fun ht => hc d ?_)
      (hx d.name List.mem_cons_self)).stays
    rw [ht]
  | bare line => exact .inl (changes_bareType eval h.sound h.fits hanon line).stays

theorem advances_closeBody {id : NodeId} (hs : (s.graph.node id).state = .defining)
    (hk : (s.graph.node id).kind = .struct ∨ (s.graph.node id).kind = .union) :
    s.Advances (s.closeBody id) := by
  have hkind (j : NodeId) : ((s.closeBody id).graph.node j).kind = (s.graph.node j).kind :=
    Graph.node_modify_field (fun n => { n with length := alignUp n.length n.align, state := .defined })
      Node.kind fun _ => rfl
  have hsize : (s.closeBody id).graph.size = s.graph.size := Graph.size_modify _ _ _
  exact ⟨.single (.finish hs hk), hsize.ge, fun j _ => hkind j,
    fun h => h.of_kind rfl (fun _ _ hx => hx) hsize.ge fun j _ => hkind j, rfl, rfl⟩

theorem Fresh.advances (h : s.Fresh) (ha : s.Advances s') : s'.Fresh :=
  ⟨h.sound.builds ha.builds, ha.counters.trans h.counters⟩

/-- The end of a body leaves the bodies around it open. -/
theorem ready_closeBody {b : Specified} {bodies : List Specified} (h : s.Ready scope)
    (hb : scope.bodies = b :: bodies) :
    s.Advances (s.closeBody b.node) ∧ (s.closeBody b.node).Ready ⟨bodies, b⟩ := by
  have hnodup := h.fits.nodup
  have hbodies := h.fits.bodies
  rw [hb] at hnodup hbodies
  obtain ⟨hnot, hnodup⟩ := List.nodup_cons.mp hnodup
  obtain ⟨hs, hk⟩ := hbodies b List.mem_cons_self
  have hadvances := advances_closeBody hs hk
  refine ⟨hadvances, h.toFresh.advances hadvances, hadvances.bound h.bound, hnodup,
    fun c hc => ?_, lt_of_lt_of_le (Graph.lt_size_of_state hs) hadvances.size, ?_⟩
  · have hne : b.node ≠ c.node := fun heq => hnot (List.mem_map.mpr ⟨c, hc, heq.symm⟩)
    have hnode : (s.closeBody b.node).graph.node c.node = s.graph.node c.node :=
      Graph.node_modify_of_ne _ hne
    rw [hnode]
    exact hbodies c (List.mem_cons_of_mem _ hc)
  · rw [hadvances.kind _ (Graph.lt_size_of_state hs)]
    rcases hk with hk | hk <;> simp [hk]

theorem Ready.moves (h : s.Ready scope) (hm : s.Moves s') : s'.Ready scope :=
  ⟨h.toFresh.advances hm.advances, hm.bound h.bound, h.fits.mono hm.steady⟩

/-- The type that a clause names becomes the one named last. -/
theorem Ready.withType (h : s.Ready scope) {type : Specified} (hlt : type.node < s.graph.size)
    (hk : (s.graph.node type.node).kind ≠ .unionMember) : s.Ready { scope with type } :=
  ⟨h.toFresh, h.bound, h.fits.nodup, h.fits.bodies, hlt, hk⟩

theorem Ready.lookup? (h : s.Ready scope) {node : NodeId} (hl : s.lookup? spelling = some node) :
    s.Ready { scope with type := ⟨node, false⟩ } :=
  have hb := h.bound.lookup? hl
  h.withType hb.1 hb.2.1

/-- **One clause**: it builds the graph even if it is refused, and if it is not, the session
is ready for the next one. -/
theorem ready_act (eval : Evaluator) (h : s.Ready scope)
    (hc : ∀ d, clause = .declare d true → Plain d.name) :
    s.Advances (s.act eval scope clause).1 ∧
      ∀ scope', (s.act eval scope clause).2 = .ok scope' →
        (s.act eval scope clause).1.Ready scope' := by
  have hstays : s.Advances s := (Moves.refl s).advances
  have hmoves {s' : Session} {r : Except Refusal Unit} (hm : s.Moves s') :
      s.Advances s' ∧ ∀ scope', (r.map fun _ => scope) = .ok scope' → s'.Ready scope' := by
    refine ⟨hm.advances, fun scope' hr => ?_⟩
    obtain ⟨-, -, rfl⟩ := exists_of_map_eq_ok hr
    exact h.moves hm
  cases clause with
  | openBody kind name line =>
    obtain ⟨hchanges, hbody⟩ :=
      changes_openBody (P := fun _ => True) (L := none) h.bound kind name line (by simp)
    have hm := hchanges.moves
    have hready := h.moves hm
    simp only [act]
    refine ⟨hm.advances, fun scope' hr => ?_⟩
    obtain ⟨body, hopen, rfl⟩ := exists_of_map_eq_ok hr
    obtain ⟨hnot, hstate, hkind⟩ := hbody body hopen
    refine ⟨hready.toFresh, hready.bound, ?_, fun b hb => ?_, hready.fits.type⟩
    · refine List.nodup_cons.mpr ⟨fun hmem => ?_, h.fits.nodup⟩
      obtain ⟨b, hb, heq⟩ := List.mem_map.mp hmem
      exact hnot ((congrArg (fun id => (s.graph.node id).state) heq).symm.trans
        (h.fits.bodies b hb).1)
    · rcases List.mem_cons.mp hb with rfl | hb
      · rw [hkind]
        exact ⟨hstate, nodeKind_eq kind⟩
      · exact hready.fits.bodies b hb
  | closeBody =>
    simp only [act]
    split
    · exact ⟨hstays, fun scope' hr => Except.ok.inj hr ▸ h⟩
    · rename_i b bodies hb
      obtain ⟨hadvances, hclose⟩ := ready_closeBody h hb
      exact ⟨hadvances, fun scope' hr => Except.ok.inj hr ▸ hclose⟩
  | tag kind name line =>
    obtain ⟨hchanges, hlt, hkind⟩ :=
      changes_tagNode (P := fun _ => True) (L := none) h.bound kind name line trivial
    have hm := hchanges.moves
    have hne : kind.nodeKind ≠ .unionMember := by cases kind <;> decide
    refine ⟨hm.advances, fun scope' hr => ?_⟩
    obtain rfl := Except.ok.inj hr
    exact (h.moves hm).withType hlt (hkind ▸ hne)
  | enum name body line =>
    obtain ⟨hchanges, htype⟩ :=
      changes_enumeration (P := fun _ => True) (L := none) h.sound h.bound name body line (by simp)
    have hm := hchanges.moves
    simp only [act]
    refine ⟨hm.advances, fun scope' hr => ?_⟩
    obtain ⟨type, henum, rfl⟩ := exists_of_map_eq_ok hr
    exact (h.moves hm).withType (htype type henum).1 (htype type henum).2
  | base | named =>
    simp only [act]
    split
    · rename_i node hl
      exact ⟨hstays, fun scope' hr => Except.ok.inj hr ▸ h.lookup? hl⟩
    · exact ⟨hstays, fun scope' hr => by simp at hr⟩
  | declare d typedef =>
    refine hmoves (changes_declare (P := fun _ => True) eval h.sound h.fits (fun ht => hc d ?_)
      trivial).moves
    rw [ht]
  | bare line =>
    exact hmoves (changes_bareType (P := fun _ => True) eval h.sound h.fits (by simp) line).moves

/-- **All clauses**, up to the first one that is refused. -/
theorem advances_actAll (eval : Evaluator) {heard : List Heard} (h : s.Ready scope)
    (hc : ∀ x ∈ heard, ∀ d, x.clause = .declare d true → Plain d.name) :
    s.Advances (s.actAll eval scope heard).1 := by
  induction heard generalizing s scope with
  | nil => exact (Moves.refl s).advances
  | cons x heard ih =>
    obtain ⟨hadvances, hready⟩ := ready_act eval h (hc x List.mem_cons_self)
    unfold actAll
    split
    · rename_i s' refusal hact
      rw [hact] at hadvances
      exact hadvances
    · rename_i s' scope' hact
      rw [hact] at hready hadvances
      exact hadvances.trans (ih (hready scope' rfl) fun y hy => hc y (List.mem_cons_of_mem x hy))

end Session

/-! ### The built-in types -/

/-- What a built-in type holds does not link to anything. -/
def Builtin.Flat : Builtin → Prop
  | .scalar e => e.link? = none
  | _ => True

/-- A built-in type is a single node of its own kind, with its spelling as its name. -/
theorem Builtin.exists_addTo {b : Builtin} (hb : b.Flat) (g : Graph) (name : NameId) :
    ∃ n : Node, n.kind = .base ∧ n.name = some name ∧ n.fragment = none ∧
      b.addTo g name = g.add n ∧ g.Build (g.add n) := by
  cases b with
  | scalar e =>
    have hretain : g.retain e = g := by simp [Graph.retain, show e.link? = none from hb]
    have hholds : Node.Holds g ⟨1, e⟩
        { name := some name, kind := .base, state := .defined, items := [⟨1, e⟩],
          align := max 1 (g.elementAlign e),
          length := alignUp (wrap (g.elementSize e * 1)) (max 1 (g.elementAlign e)) } :=
      ⟨rfl, rfl, rfl, rfl, rfl, ⟨rfl, rfl, rfl, rfl, rfl⟩, Or.inl rfl, Or.inl rfl⟩
    have hbuild := Graph.Build.hold hholds (by simp) (Graph.leads_of_link?_eq_none hb)
    rw [hretain] at hbuild
    exact ⟨_, rfl, rfl, rfl, Session.addScalar_eq g .base (some name) hb, hbuild⟩
  | unsupported =>
    exact ⟨_, rfl, rfl, rfl, rfl, .blank ⟨rfl, rfl, rfl, rfl, rfl, ⟨rfl, rfl, rfl, rfl, rfl⟩,
      Or.inl ⟨rfl, by simp⟩⟩⟩
  | empty =>
    refine ⟨_, ?_, ?_, ?_, Graph.modify_add_self _ _, .blank ⟨rfl, rfl, rfl, rfl, rfl,
      ⟨rfl, rfl, rfl, rfl, rfl⟩, Or.inl ⟨rfl, by simp⟩⟩⟩
    all_goals rfl

theorem flat_of_mem_builtins {target : Target} {p : String × Builtin} (hp : p ∈ builtins target) :
    p.2.Flat ∧ FitsTag p.1 .base ∧ p.1 ∈ builtinNames := by
  have hflat : ∀ p ∈ builtins target, p.2.Flat := by
    cases target <;> simp [builtins, Builtin.Flat, Target.long, Element.link?]
  have hfirst : ∀ p ∈ builtins target, ∀ q ∈ tagKinds,
      p.1.toList.takeWhile (· != ' ') ≠ q.1.toList := by
    cases target <;> decide
  have hnames : (builtins target).map (·.1) = builtinNames := by cases target <;> rfl
  exact ⟨hflat p hp, fitsTag_of_first (hfirst p hp), hnames ▸ List.mem_map_of_mem hp⟩

namespace Session

variable {P : String → Prop} {L : Option Specified} {R : NodeKind → NodeState → NodeState → Prop}
  {s s' : Session}

theorem moves_addBuiltin {b : Builtin} (hb : b.Flat) (hfit : FitsTag spelling .base)
    (hname : spelling ∈ builtinNames) :
    s.Moves (s.addBuiltin spelling b) ∧
      s.graph.size < (s.addBuiltin spelling b).graph.size ∧
      ((s.addBuiltin spelling b).graph.node s.graph.size).kind = .base := by
  obtain ⟨n, hkind, -, -, heq, hbuild⟩ := Builtin.exists_addTo hb s.graph (s.intern spelling).1
  have hgraph : (s.addBuiltin spelling b).graph = s.graph.add n := heq
  have hlt : s.graph.size < (s.addBuiltin spelling b).graph.size := by
    rw [hgraph, Graph.size_add]
    exact Nat.lt_succ_self _
  have hnode : ((s.addBuiltin spelling b).graph.node s.graph.size).kind = .base := by
    rw [hgraph, Graph.node_add_self]
    exact hkind
  have hsteady : s.graph.Steady (s.addBuiltin spelling b).graph := by
    rw [hgraph]
    exact .add n
  refine ⟨⟨?_, hsteady, fun h x hx => ?_, rfl, rfl⟩, hlt, hnode⟩
  · rw [hgraph]
    exact .single hbuild
  · rcases List.mem_cons.mp hx with rfl | hx
    · refine ⟨spelling, s.names.get?_insert spelling, hlt, ?_, ?_, fun _ => hname⟩
      · exact hnode ▸ (by decide)
      · exact hnode ▸ hfit
    · exact ((moves_intern s spelling).trans (moves_graph (s := (s.intern spelling).2)
        (.single hbuild) (.add n))).bound h x hx |>.imp fun _ hx => hgraph ▸ hx

theorem moves_addBuiltins {l : List (String × Builtin)}
    (hl : ∀ p ∈ l, p.2.Flat ∧ FitsTag p.1 .base ∧ p.1 ∈ builtinNames) (s : Session) :
    s.Moves (l.foldl (fun s (spelling, b) => s.addBuiltin spelling b) s) :=
  l.foldlRecOn _ (.refl s) fun _ hs p hp =>
    hs.trans (moves_addBuiltin (hl p hp).1 (hl p hp).2.1 (hl p hp).2.2).1

theorem moves_start (names : Names) (keys : KeyList) (target : Target) :
    Moves { names, keys, graph := { target }, registry := {} } (start names keys target) :=
  moves_addBuiltins (fun _ hp => flat_of_mem_builtins hp) _

/-- The session that knows the built-in types is ready for the first clause. -/
theorem ready_start (names : Names) (keys : KeyList) (target : Target) :
    (start names keys target).Ready {} := by
  have hall : ∀ p ∈ builtins target, p.2.Flat ∧ FitsTag p.1 .base ∧ p.1 ∈ builtinNames :=
    fun p hp => flat_of_mem_builtins hp
  let s₀ : Session := { names, keys, graph := { target }, registry := {} }
  have hmoves := moves_addBuiltins hall s₀
  refine ⟨⟨(Graph.sound_empty target).builds hmoves.builds, hmoves.counters⟩,
    hmoves.bound (by simp [Bound, s₀]), List.nodup_nil, by simp, ?_⟩
  -- The first built-in type has the number that a scope starts with.
  have hchar : ("char", Builtin.scalar .int8) ∈ builtins target := by simp [builtins]
  obtain ⟨hflat, hfit, hname⟩ := hall _ hchar
  obtain ⟨-, hlt, hkind⟩ := @moves_addBuiltin "char" s₀ _ hflat hfit hname
  have hrest := moves_addBuiltins (fun p hp => hall p (List.mem_of_mem_tail hp))
    (s₀.addBuiltin "char" (.scalar .int8))
  have hstart : start names keys target = (builtins target).tail.foldl
      (fun s (spelling, b) => s.addBuiltin spelling b)
      (s₀.addBuiltin "char" (.scalar .int8)) := by
    rw [start, builtins, List.foldl_cons, List.tail_cons]
  rw [← hstart] at hrest
  have hbase : ((start names keys target).graph.node 0).kind = .base :=
    (hrest.steady.kind 0 hlt).trans hkind
  refine ⟨lt_of_lt_of_le hlt hrest.steady.size, ?_⟩
  show ((start names keys target).graph.node 0).kind ≠ .unionMember
  rw [hbase]
  decide

/-! ### Sources -/

theorem Lexeme.intern_eq (l : Lexeme String) (names : Names) :
    (l.intern names).2 = names ∨ ∃ x, (l.intern names).2 = (names.insert x).2 := by
  cases l with
  | identifier s | stringLiteral s | charLiteral s => exact .inr ⟨s, rfl⟩
  | number n => exact .inr ⟨n.text, rfl⟩
  | punct | eof => exact .inl rfl

/-- Reporting an error only interns the name in it. -/
theorem changes_internError (s : Session) (e : ParseError String) :
    Changes P L R s { s with names := (e.intern s.names).2 } := by
  have hintern : (e.intern s.names).2 = s.names ∨
      ∃ x, (e.intern s.names).2 = (s.names.insert x).2 := by
    cases e with
    | expected c found | expectedType found | expectedIdentifier found =>
      exact Lexeme.intern_eq found s.names
    | unknownType name | voidField name | bitField name => exact .inr ⟨name, rfl⟩
    | _ => exact .inl rfl
  rcases hintern with h | ⟨x, h⟩ <;> rw [h]
  · exact .refl s
  · exact .step (.intern s x) (.refl _)

/-- After the last clause a source only adds to the log and to the table of names. -/
theorem changes_readSource (eval : Evaluator) (s : Session) (source : String) (contextLines : ℕ) :
    Changes P L R (s.actAll eval {}
        (readDeclarations (scan (Cursor.start source.toList contextLines))).heard).1
      (s.readSource eval source contextLines).1 := by
  rw [readSource_eq_conclude, conclude]
  split
  · rename_i s' stop hs
    rw [hs, failStop]
    split
    · exact changes_internError s' _
    · exact .refl s'
  · rename_i s' scope hs
    rw [hs]
    split
    · rw [failRead]
      split
      · exact .refl s'
      · exact changes_internError s' _
    · exact .step (.note s' _) (.refl _)

theorem Fresh.note (h : s.Fresh) (n : Notice) : (s.note n).Fresh :=
  ⟨h.sound, h.counters⟩

/-- **Reading a source builds the graph**, whether the source can be read or not. -/
theorem advances_readSource (h : s.Ready {}) (eval : Evaluator) (source : String)
    (contextLines : ℕ) : s.Advances (s.readSource eval source contextLines).1 :=
  (advances_actAll eval h fun _ hx _ hd => plain_readDeclarations hx hd).trans
    (changes_readSource (P := fun _ => True) (L := none) (R := Stays) eval s source
      contextLines).moves.advances

/-- Before a source no body is open, so a session is ready for the next source as soon as it
has moved on from one that was ready. -/
theorem Ready.advances (h : s.Ready {}) (ha : s.Advances s') : s'.Ready {} where
  toFresh := h.toFresh.advances ha
  bound := ha.bound h.bound
  fits :=
    { nodup := List.nodup_nil
      bodies := by simp
      type := by
        rw [ha.kind _ h.fits.type.1]
        exact ⟨lt_of_lt_of_le h.fits.type.1 ha.size, h.fits.type.2⟩ }

theorem fresh_readSource (names : Names) (keys : KeyList) (target : Target) (eval : Evaluator)
    (source : String) (contextLines : ℕ) :
    ((start names keys target).readSource eval source contextLines).1.Fresh :=
  have h := ready_start names keys target
  h.toFresh.advances (advances_readSource h eval source contextLines)

end Session

end TypeLayout
