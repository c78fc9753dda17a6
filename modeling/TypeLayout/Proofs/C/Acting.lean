import TypeLayout.Proofs.C.Models

/-!
# Clauses that are acted on

What one clause does to a session that models an environment. The clauses of type specifiers
come first: after each of them the type named last is one for what the specifier stands for
(`Specifies`). Then come the declarators, which add a field to the innermost body or bind a
typedef name.

No clause is refused here. The reasons why one could be are excluded one by one, by what the
environment knows.
-/

namespace TypeLayout.C

variable {env env' : Env} {nodes : List NodeId} {opens : List Opening} {s s' : Session}
  {scope scope' : Scope} {id : NodeId} {eval : Evaluator} {c : Clause} {ref : TypeRef} {g : Graph}
  {n : Node}

/-- **The type named last** is one for what a specifier stands for. -/
def Specifies (env : Env) (opens : List Opening) (ref : TypeRef) (anonymous : Bool) (s : Session)
    (scope : Scope) : Prop :=
  ∃ nodes, Models env nodes opens s scope ∧ RefAt s nodes ref scope.type.node ∧
    scope.type.anonymous = anonymous

/-- What a struct or union that has a body stands for. -/
def bodyRef (kind : TagKind) (name : Option Ident) (t : Ty) : TypeRef :=
  match name with
  | none => .known t
  | some x => .tagged kind x.text

/-- The padding at the end of a body is not part of what it contains. -/
theorem Contains.finish {kind : TagKind} {fields : List Ty} (h : Contains g nodes kind fields n)
    {length : ℕ} {state : NodeState} : Contains g nodes kind fields { n with length, state } :=
  ⟨h.kind, h.align, h.struct, h.union⟩

/-- A new enumeration with a tag is a node that holds its one element. -/
theorem exists_enumerator {x : String} (body : Bool) (line : ℕ) (hnone : enumNode? s x = none) :
    ∃ n : Node, n.Holds s.graph ⟨1, .enum⟩ ∧ n.kind = .enum ∧
      (body = false → n.isDefined = false) ∧
      s.enumeration (some x) body line =
        (((s.intern x).2.addNode n).bind (Names.tagSpelling "enum" x) s.graph.size,
          .ok ⟨s.graph.size, false⟩) := by
  rw [Session.enumeration_of_none body line hnone, Session.addScalar_eq _ _ _ rfl]
  simp only [Session.modifyNode, Graph.modify_add_self]
  refine ⟨_, ?_, ?_, ?_, rfl⟩
  · refine ⟨rfl, rfl, rfl, rfl, rfl, ⟨rfl, rfl, rfl, rfl, rfl⟩, Or.inr (Or.inl rfl), ?_⟩
    cases body
    · exact Or.inr ⟨rfl, rfl⟩
    · exact Or.inl rfl
  · rfl
  · rintro rfl
    rfl

theorem exists_anonymous_enumerator (s : Session) (body : Bool) (line : ℕ) :
    ∃ n : Node, n.Holds s.graph ⟨1, .enum⟩ ∧ n.kind = .enum ∧
      s.enumeration none body line = (s.addNode n, .ok ⟨s.graph.size, false⟩) := by
  simp only [Session.enumeration]
  rw [Session.addScalar_eq _ _ _ rfl]
  refine ⟨_, ?_, ?_, rfl⟩
  · exact ⟨rfl, rfl, rfl, rfl, rfl, ⟨rfl, rfl, rfl, rfl, rfl⟩, Or.inr (Or.inl rfl), Or.inl rfl⟩
  · rfl

theorem not_hasBody_add (hn : ¬ HasBody n) (id : NodeId) (hid : g.size ≤ id) :
    ¬ HasBody ((g.add n).node id) := by
  rcases eq_or_ne id g.size with rfl | hne
  · rwa [Graph.node_add_self]
  · rw [Graph.node_add_of_ne n hne, Graph.node_of_le hid]
    exact hasBody_default

/-- A node that is not that of a struct or union has no body. -/
theorem not_hasBody_of_kind (hs : n.kind ≠ .struct) (hu : n.kind ≠ .union) :
    ¬ HasBody n := fun h => h.1.elim hs hu

/-! ### Environments in which a tag has been mentioned -/

namespace Env

theorem begun_mention (kind : TagKind) (x : String) : (env.mention kind x).begun = env.begun := by
  rw [mention]
  split <;> rfl

/-- A body can begin after its tag, which has been mentioned then and has no body yet. -/
theorem beginBody_some {kind : TagKind} {x : Ident} (h : env.beginBody kind (some x) = some env') :
    (env.mention kind x.text).tags kind x.text = some .mentioned ∧
      env' = { (env.mention kind x.text).setTag kind x.text .begun with
        begun := (env.mention kind x.text).begun + 1 } := by
  simp only [beginBody] at h
  split at h
  · rename_i hnone
    obtain rfl := Option.some.inj h
    simp only [mention, hnone, setTag, and_self, if_true, true_and]
    congr
    ext k y
    split <;> rfl
  · rename_i hmentioned
    obtain rfl := Option.some.inj h
    simp only [mention, hmentioned, and_self]
  · simp at h

end Env

namespace Models

variable (h : Models env nodes opens s scope) {kind : TagKind} {name : Option Ident} {x : String}

include h

theorem lookup?_addNode (x : String) (n : Node) (y : String) :
    ((s.intern x).2.addNode n).lookup? y = s.lookup? y :=
  Session.lookup?_intern h.bound x y

/-- No name leads to a number that has not been handed out. -/
theorem lookup?_ne_size (y : String) : s.lookup? y ≠ some s.graph.size := fun hy =>
  lt_irrefl _ (h.bound.lookup? hy).1

/-- Interning a name and adding a node without a body. -/
theorem addNode (hm : (s.intern x).2.Moves ((s.intern x).2.addNode n)) (hn : ¬ HasBody n) :
    Models env nodes opens ((s.intern x).2.addNode n) scope :=
  h.quiet (h.toReady.moves ((Session.moves_intern s x).trans hm)) (.add n)
    (h.lookup?_addNode x n) (not_hasBody_add hn)

/-! ### Type specifiers -/

theorem specifies_lookup (hx : s.lookup? x = some id) (href : RefAt s nodes ref id) :
    Specifies env opens ref false s { scope with type := ⟨id, false⟩ } :=
  ⟨nodes, h.withScope (h.toReady.lookup? hx) rfl, href, rfl⟩

theorem act_base {b : BaseType} (hc : c.content = .base b.spelling false 0) :
    ∃ s' scope', s.act eval scope c = (s', .ok scope') ∧
      Specifies env opens b.ref false s' scope' := by
  obtain ⟨unsigned, line, rfl⟩ := Clause.eq_base hc
  obtain ⟨id, hid, href⟩ := h.knows.base b
  exact ⟨s, _, by simp only [Session.act, hid], h.specifies_lookup hid href⟩

theorem act_named (hx : env.typedefs x = some ref) (hc : c.content = .named x 0) :
    ∃ s' scope', s.act eval scope c = (s', .ok scope') ∧ Specifies env opens ref false s' scope' := by
  obtain ⟨line, rfl⟩ := Clause.eq_named hc
  obtain ⟨-, id, hid, href⟩ := h.knows.typedefs x ref hx
  exact ⟨s, _, by simp only [Session.act, hid], h.specifies_lookup hid href⟩

/-- **A tag is mentioned.** -/
theorem tagNode (kind : TagKind) (x : String) (line : ℕ) :
    Models (env.mention kind x) nodes opens (s.tagNode kind x line).2 scope ∧
      tagNode? (s.tagNode kind x line).2 kind x = some (s.tagNode kind x line).1 := by
  have htag := h.tags kind x
  cases hl : tagNode? s kind x with
  | some id =>
    rw [Session.tagNode_of_some line hl]
    refine ⟨?_, hl⟩
    rw [hl] at htag
    rw [Env.mention]
    split
    · rename_i hnone
      simp [hnone, TagAt] at htag
    · exact h
  | none =>
    rw [Session.tagNode_of_none line hl]
    have hmention : env.mention kind x = env.setTag kind x .mentioned := by
      rw [Env.mention]
      split
      · rfl
      · rename_i state hstate
        rw [hl, hstate] at htag
        cases state <;> simp [TagAt] at htag
    have hblank := Session.blank_of_nodeKind (some (s.intern x).1) kind line
      (show NodeState.incomplete ≠ .defined by decide)
    have hmoves := (Session.changes_tagNode (P := fun _ => True) (L := none) h.bound kind x line
      trivial).1.moves
    rw [Session.tagNode_of_none line hl] at hmoves
    have hadd := h.addNode (x := x) (Session.moves_blank hblank) (by simp [HasBody])
    rw [hmention]
    refine ⟨hadd.bindTag ?_ ?_ ?_ ?_ (h.toReady.moves hmoves), ?_⟩
    · rw [tagNode?, h.lookup?_addNode]
      exact hl
    · intro y
      rw [h.lookup?_addNode]
      exact h.lookup?_ne_size y
    · show ((s.graph.add _).node s.graph.size).state = _
      rw [Graph.node_add_self]
    · show Empty ((s.graph.add _).node s.graph.size)
      rw [Graph.node_add_self]
      exact ⟨rfl, rfl, rfl, rfl⟩
    · rw [tagNode?, Session.lookup?_bind hadd.bound
        (tagSpelling_not_mem (Session.mem_tagKinds kind) x), if_pos rfl]

theorem act_tag (hc : c.content = .tag kind x 0) :
    ∃ s' scope', s.act eval scope c = (s', .ok scope') ∧
      Specifies (env.mention kind x) opens (.tagged kind x) false s' scope' := by
  obtain ⟨line, rfl⟩ := Clause.eq_tag hc
  obtain ⟨hmodels, htag⟩ := h.tagNode kind x line
  exact ⟨_, _, rfl, hmodels.specifies_lookup htag htag⟩

omit h in
/-- A body that has just begun has no fields. -/
theorem openAt_nil {b : Specified} (hlength : nodes.length = env.begun)
    (hanonymous : b.anonymous = name.isNone)
    (htag : ∀ x, name = some x → tagNode? s kind x.text = some b.node)
    (hkind : (s.graph.node b.node).kind = kind.nodeKind) (hempty : Empty (s.graph.node b.node)) :
    OpenAt s (nodes ++ [b.node]) ⟨env.begun, kind, name, []⟩ b where
  node := by rw [← hlength, List.getElem?_concat_length]
  anonymous := hanonymous
  tag := htag
  length _ := by rw [hempty.length]; cases kind <;> simp [rawSize, Ty.stop, Ty.widest]
  contains :=
    { kind := hkind
      align := by rw [hempty.align, Ty.alignOf]
      struct := fun _ => ⟨[], .nil, hempty.items⟩
      union := fun _ => by rw [hempty.members]; exact .nil }

/-- **A body begins.** -/
theorem act_openBody (he : env.beginBody kind name = some env')
    (hc : c.content = .openBody kind (name.map (·.text)) 0) :
    ∃ s' scope', s.act eval scope c = (s', .ok scope') ∧
      ∃ nodes', Models env' nodes' (⟨env.begun, kind, name, []⟩ :: opens) s' scope' := by
  obtain ⟨line, rfl⟩ := Clause.eq_openBody hc
  have hquiet : ∀ d, Clause.openBody kind (name.map (·.text)) line = .declare d true →
      Plain d.name := by simp
  have hready := (Session.ready_act eval h.toReady hquiet).2
  cases name with
  | none =>
    obtain rfl := Option.some.inj he
    refine ⟨_, _, rfl, _, h.begin (b := ⟨s.graph.size, true⟩) (hready _ rfl) rfl (.add _)
      (fun _ => rfl) ?_ ?_ ?_ ?_ ?_ fun _ _ _ => rfl⟩
    · rw [Graph.node_of_le (le_refl _)]
      rfl
    · exact fun hlt => absurd hlt (lt_irrefl _)
    · intro j hj hne
      show ¬ HasBody ((s.graph.add _).node j)
      rw [Graph.node_add_of_ne _ hne, Graph.node_of_le hj]
      exact hasBody_default
    · have hnode : (s.openBody kind none line).1.graph.node s.graph.size =
          { kind := kind.nodeKind, state := .defining, line } := Graph.node_add_self _
      have hempty : Empty ((s.openBody kind none line).1.graph.node s.graph.size) := by
        rw [hnode]
        exact ⟨rfl, rfl, rfl, rfl⟩
      exact openAt_nil h.tracks.begun rfl (by simp) (congrArg Node.kind hnode) hempty
    · exact fun kind' x hx => absurd hx (h.lookup?_ne_size _)
  | some x =>
    obtain ⟨hmentioned, rfl⟩ := Env.beginBody_some he
    obtain ⟨hmodels, hnode⟩ := h.tagNode kind x.text line
    have htag := hmodels.tags kind x.text
    rw [hnode, hmentioned] at htag
    have hopen : s.openBody kind (some x.text) line =
        ((s.tagNode kind x.text line).2.modifyNode (s.tagNode kind x.text line).1
          fun n => { n with line, state := .defining },
          .ok ⟨(s.tagNode kind x.text line).1, false⟩) := by
      obtain ⟨id, hid, hstate, -⟩ := htag
      simp only [Session.openBody]
      rw [if_pos (by rw [Option.some.inj hid, hstate])]
    simp only [Session.act, Option.map_some, hopen, Except.map] at hready ⊢
    generalize s.tagNode kind x.text line = r at *
    obtain ⟨node, s₁⟩ := r
    obtain ⟨id, hid, hstate, hempty⟩ := htag
    obtain rfl : node = id := Option.some.inj hid
    obtain ⟨hlt, hkind⟩ := hmodels.tagNode?_spec hnode
    have hgrown : (s₁.modifyNode node fun n => { n with line, state := .defining }).graph.node node =
        { s₁.graph.node node with line, state := .defining } := Graph.node_modify_self _ hlt
    refine ⟨_, _, rfl, _, hmodels.begin (b := ⟨node, false⟩) (hready _ rfl) rfl (.modify node _)
      (fun _ => rfl) hstate (fun _ => hkind) ?_ ?_ ?_ ?_⟩
    · exact fun j hj _ => not_hasBody_of_size (Graph.size_modify _ _ _) j hj
    · refine openAt_nil (by rw [hmodels.tracks.begun, Env.begun_mention]) rfl ?_ ?_ ?_
      · intro y hy
        obtain rfl := Option.some.inj hy
        exact hnode
      · rw [hgrown]
        exact hkind
      · rw [hgrown]
        exact ⟨hempty.items, hempty.members, hempty.length, hempty.align⟩
    · intro kind' y hy
      have hsame := hmodels.knows.apart _ (Session.mem_tagKinds kind') _ (Session.mem_tagKinds kind)
        y x.text node hy hnode
      exact if_pos ⟨TagKind.keyword_injective hsame.1, hsame.2⟩
    · rintro kind' y hy
      refine if_neg ?_
      rintro ⟨rfl, rfl⟩
      exact hy hnode

omit h in
/-- **A body ends.** -/
theorem act_closeBody {o : Opening} (h : Models env nodes (o :: opens) s scope)
    (hc : c.content = .closeBody) :
    ∃ s' scope', s.act eval scope c = (s', .ok scope') ∧
      Specifies (env.endBody o.kind o.name (.record o.index o.kind o.fields)) opens
        (bodyRef o.kind o.name (.record o.index o.kind o.fields)) o.name.isNone s' scope' := by
  obtain rfl := Clause.eq_closeBody hc
  obtain ⟨b, pending, hscope, ho, hpending⟩ := h.exists_bodies
  obtain ⟨hstate, -⟩ := h.innermost_spec hscope
  have hquiet : ∀ d, Clause.closeBody = .declare d true → Plain d.name := by simp
  have hready := (Session.ready_act eval h.toReady hquiet).2
  simp only [Session.act, hscope] at hready ⊢
  have ht : s.graph.Touches (some b.node) (s.closeBody b.node).graph := .modify b.node _
  have hnode : (s.closeBody b.node).graph.node b.node =
      { s.graph.node b.node with
        length := alignUp (s.graph.node b.node).length (s.graph.node b.node).align
        state := .defined } := Graph.node_modify_self _ (Graph.lt_size_of_state hstate)
  have hg := h.preserves_of_innermost hscope ht
  have hbody : BodyAt (s.closeBody b.node).graph nodes (.record o.index o.kind o.fields) b.node := by
    refine ⟨_, _, _, rfl, ho.node, by rw [hnode]; rfl, ?_, ?_⟩
    · rw [hnode, size_record, hg.target]
      intro hfit
      dsimp only
      have hword : Ty.alignOf s.graph.target o.fields ∣ wordSize :=
        ho.contains.align ▸ dvd_wordSize_of_mem_alignments (h.sound.nodes b.node).align
      rw [ho.length ((le_roundUp _ _).trans_lt hfit), ho.contains.align,
        alignUp_eq_roundUp_of_dvd hword hfit]
    · rw [hnode]
      exact ho.contains.finish.mono hg (List.prefix_refl _)
        ⟨rfl, rfl, rfl, rfl, rfl, rfl, rfl, rfl, rfl, rfl, rfl⟩
  refine ⟨_, _, rfl, nodes, h.finish ho hpending hscope rfl (hready _ rfl) ht (fun _ => rfl)
    (Graph.size_modify _ _ _) hbody, ?_, ho.anonymous⟩
  cases hname : o.name with
  | none => exact Or.inr hbody
  | some x => exact ho.tag x hname

/-! ### Enumerations -/

/-- The node of an enumeration stands for one. -/
theorem known_enum (hx : enumNode? s x = some id) : KnownAt s.graph nodes .enum id := by
  obtain ⟨-, -, hitems, -⟩ := h.exists_enum hx
  exact Or.inl ⟨⟨1, .enum⟩, ⟨rfl, stands_enum⟩, hitems, Or.inr (Or.inl (h.enumNode?_spec hx).2)⟩

/-- **An enumeration with a new tag.** -/
theorem enumeration_new (hnone : enumNode? s x = none) (body : Bool) (line : ℕ) :
    Models (env.setEnum x body) nodes opens (s.enumeration (some x) body line).1 scope ∧
      (s.enumeration (some x) body line).2 = .ok ⟨s.graph.size, false⟩ ∧
      enumNode? (s.enumeration (some x) body line).1 x = some s.graph.size := by
  obtain ⟨n, hholds, hkind, hdef, heq⟩ := exists_enumerator body line hnone
  have hmoves := (Session.changes_enumeration (P := fun _ => True) (L := none) h.sound h.bound
    (some x) body line (by simp)).1.moves
  have hadd := h.addNode (x := x) (n := n)
    (Session.moves_hold (s := (s.intern x).2) ⟨1, .enum⟩ hholds (by simp [hkind]) trivial)
    (not_hasBody_of_kind (by simp [hkind]) (by simp [hkind]))
  have hnode : ((s.intern x).2.addNode n).graph.node s.graph.size = n := Graph.node_add_self n
  rw [heq] at hmoves ⊢
  refine ⟨hadd.bindEnum ?_ ?_ ?_ ?_ (h.toReady.moves hmoves), rfl, ?_⟩
  · rw [enumNode?, h.lookup?_addNode]
    exact hnone
  · intro y
    rw [h.lookup?_addNode]
    exact h.lookup?_ne_size y
  · rw [hnode, hholds.items]
  · rw [hnode]
    exact hdef
  · rw [enumNode?, Session.lookup?_bind hadd.bound
      (tagSpelling_not_mem (p := ("enum", .enum)) (by decide) x), if_pos rfl]

/-- **An enumeration with a tag** is mentioned, or given its values for the first time. -/
theorem enumeration_tag {body : Bool} (line : ℕ) (hbody : body = true → env.enums x ≠ some true) :
    ∃ id, (s.enumeration (some x) body line).2 = .ok ⟨id, false⟩ ∧
      Models (if body = true ∨ env.enums x = none then env.setEnum x body else env) nodes opens
        (s.enumeration (some x) body line).1 scope ∧
      enumNode? (s.enumeration (some x) body line).1 x = some id := by
  cases hx : enumNode? s x with
  | none =>
    obtain ⟨hmodels, hresult, hnode⟩ := h.enumeration_new hx body line
    refine ⟨_, hresult, ?_, hnode⟩
    rw [if_pos]
    · exact hmodels
    · have henum := h.enums x
      right
      cases hstate : env.enums x with
      | none => rfl
      | some values => simp [hx, hstate, EnumAt] at henum
  | some id =>
    obtain ⟨values, hvalues, -, hdef⟩ := h.exists_enum hx
    have hmoves := (Session.changes_enumeration (P := fun _ => True) (L := none) h.sound h.bound
    (some x) body line (by simp)).1.moves
    have hl : s.lookup? (Names.tagSpelling "enum" x) = some id := hx
    cases body with
    | false =>
      rw [if_neg (by simp [hvalues])]
      simp only [Session.enumeration, hl, Bool.false_eq_true, if_false]
      exact ⟨id, rfl, h, hx⟩
    | true =>
      have hfalse : values = false := by
        have hne := hbody rfl
        rw [hvalues] at hne
        simpa using hne
      have hundef := hdef hfalse
      simp only [Session.enumeration, hl, hundef, if_true, Bool.false_eq_true, if_false] at hmoves ⊢
      rw [if_pos (Or.inl trivial)]
      obtain ⟨hlt, hkind⟩ := h.enumNode?_spec hx
      refine ⟨id, rfl, h.complete hx hundef (h.toReady.moves hmoves) (.modify id _) (fun _ => rfl)
        (Graph.size_modify _ _ _) ?_ ?_, hx⟩
      · rw [Session.modifyNode, Graph.node_modify_self _ hlt]
        exact hkind
      · rw [Session.modifyNode, Graph.node_modify_self _ hlt]

theorem act_enum {e : EnumSpec} (he : env.enumeration e = some env') (hc : c.content = e.clause) :
    ∃ s' scope', s.act eval scope c = (s', .ok scope') ∧
      Specifies env' opens (.known .enum) false s' scope' := by
  -- With a tag, what is known of the enumeration is what is known of the tag.
  have htag {x : String} {body : Bool} {line : ℕ} (hbody : body = true → env.enums x ≠ some true)
      (heq : (if body = true ∨ env.enums x = none then env.setEnum x body else env) = env') :
      ∃ s' scope', s.act eval scope (.enum (some x) body line) = (s', .ok scope') ∧
        Specifies env' opens (.known .enum) false s' scope' := by
    obtain ⟨id, hresult, hmodels, hnode⟩ := h.enumeration_tag line hbody
    rw [heq] at hmodels
    exact ⟨_, _, by simp only [Session.act, hresult, Except.map],
      hmodels.specifies_lookup hnode (hmodels.known_enum hnode)⟩
  cases e with
  | tag x =>
    obtain ⟨line, rfl⟩ := Clause.eq_enum hc
    refine htag (by simp) ?_
    simp only [Env.enumeration] at he
    split at he <;> simp_all
  | body name values =>
    obtain ⟨line, rfl⟩ := Clause.eq_enum hc
    cases name with
    | none =>
      obtain rfl := Option.some.inj he
      obtain ⟨n, hholds, hkind, heq⟩ := exists_anonymous_enumerator s true line
      have hmoves := Session.moves_hold ⟨1, .enum⟩ hholds (by simp [hkind]) trivial
      have hquiet : Models env nodes opens (s.addNode n) scope :=
        h.quiet (h.toReady.moves hmoves) (.add n) (fun _ => rfl)
          (not_hasBody_add (not_hasBody_of_kind (by simp [hkind]) (by simp [hkind])))
      have hnode : (s.addNode n).graph.node s.graph.size = n := Graph.node_add_self n
      refine ⟨s.addNode n, { scope with type := ⟨s.graph.size, false⟩ },
        by simp only [Session.act, Option.map_none, heq, Except.map], nodes,
        hquiet.withScope (hquiet.toReady.withType ?_ ?_) rfl, ?_, rfl⟩
      · exact (Graph.size_add s.graph n).symm ▸ Nat.lt_succ_self _
      · rw [hnode, hkind]
        decide
      · exact Or.inl ⟨⟨1, .enum⟩, ⟨rfl, stands_enum⟩, by rw [hnode, hholds.items],
          Or.inr (Or.inl (by rw [hnode, hkind]))⟩
    | some x =>
      refine htag ?_ ?_
      · intro _ htrue
        simp [Env.enumeration, htrue] at he
      · simp only [Env.enumeration] at he
        split at he
        · simp at he
        · simpa using he

end Models

end TypeLayout.C
