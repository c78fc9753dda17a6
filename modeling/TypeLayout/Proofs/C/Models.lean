import TypeLayout.Proofs.C.Items

/-!
# Sessions that know what an environment knows

A session models an environment (`Models`) if every name leads to a node for what the name
stands for, every body that has ended has a node that is right for it, and every body that
is open has a node with the fields that it has so far. The nodes of the bodies are listed in
the order of their beginnings, and no other node is a struct or union with a body.

A session changes in two ways that are looked at one by one. Either its graph changes and
names lead where they did: nothing that counts happens (`Models.quiet`), an enumeration gets
its values (`Models.complete`), or a body begins, grows or ends (`Models.begin`,
`Models.grow`, `Models.finish`). Or a name is bound and the graph stays
(`Models.bindTypedef`, `Models.bindTag`, `Models.bindEnum`).
-/

namespace TypeLayout.C

open List

variable {b : Specified} {g g' : Graph} {j : NodeId} {kind : TagKind} {n n' : Node}
  {node : Option NodeId} {o : Opening} {pending : List Specified} {ref : TypeRef} {x : String}

/-! ### What names lead to -/

/-- A body that is open, with its fields so far. -/
structure Opening where
  index : ℕ
  kind : TagKind
  name : Option Ident
  fields : List Ty

/-- A node without content. -/
structure Empty (n : Node) : Prop where
  items : n.items = []
  members : n.members = []
  length : n.length = 0
  align : n.align = 1

theorem Empty.same (h : Empty n) (hs : n.Same n') : Empty n' :=
  ⟨hs.items.trans h.items, hs.members.trans h.members, hs.length.trans h.length,
    hs.align.trans h.align⟩

section

variable (s : Session) (nodes : List NodeId)

/-- What a tag of a struct or union leads to. -/
def tagNode? (kind : TagKind) (x : String) : Option NodeId :=
  s.lookup? (Names.tagSpelling kind.keyword x)

/-- What a tag of an enumeration leads to. -/
def enumNode? (x : String) : Option NodeId := s.lookup? (Names.tagSpelling "enum" x)

/-- A node is one for what a specifier or a typedef name stands for. -/
def RefAt : TypeRef → NodeId → Prop
  | .known t, id => KnownAt s.graph nodes t id
  | .tagged kind x, id => tagNode? s kind x = some id
  | .unsized, _ => True

/-- The node of a tag is as far as the tag. -/
def TagAt (node : Option NodeId) : Option TagState → Prop
  | none => node = none
  | some .mentioned =>
    ∃ id, node = some id ∧ (s.graph.node id).state = .incomplete ∧ Empty (s.graph.node id)
  | some .begun => ∃ id, node = some id
  | some (.complete t) => ∃ id, node = some id ∧ BodyAt s.graph nodes t id

/-- The node of an enumeration is as far as the enumeration. -/
def EnumAt (node : Option NodeId) : Option Bool → Prop
  | none => node = none
  | some values => ∃ id, node = some id ∧ (s.graph.node id).items = [⟨1, .enum⟩] ∧
      (values = false → (s.graph.node id).isDefined = false)

/-- The node of a body that is open has the fields that the body has so far. -/
structure OpenAt (o : Opening) (b : Specified) : Prop where
  node : nodes[o.index]? = some b.node
  anonymous : b.anonymous = o.name.isNone
  tag : ∀ x, o.name = some x → tagNode? s o.kind x.text = some b.node
  length : rawSize s.graph.target o.kind o.fields < wordSize →
    (s.graph.node b.node).length = rawSize s.graph.target o.kind o.fields
  contains : Contains s.graph nodes o.kind o.fields (s.graph.node b.node)

/-- A node is that of a struct or union whose body has begun. -/
def HasBody (n : Node) : Prop :=
  (n.kind = .struct ∨ n.kind = .union) ∧ n.state ≠ .incomplete

end

/-- What names of types lead to, tags apart. -/
structure Knows (env : Env) (nodes : List NodeId) (s : Session) : Prop where
  base : ∀ b : BaseType, ∃ id, s.lookup? b.spelling = some id ∧ RefAt s nodes b.ref id
  typedefs : ∀ x ref, env.typedefs x = some ref →
    Plain x ∧ ∃ id, s.lookup? x = some id ∧ RefAt s nodes ref id
  /-- Two tags lead to two nodes. -/
  apart : ∀ p ∈ tagKinds, ∀ q ∈ tagKinds, ∀ x y id,
    s.lookup? (Names.tagSpelling p.1 x) = some id →
      s.lookup? (Names.tagSpelling q.1 y) = some id → p.1 = q.1 ∧ x = y

/-- The nodes of the bodies are those in the list, and a body that is not open any more has
ended with all of its fields. -/
structure Tracks (env : Env) (nodes : List NodeId) (g : Graph) (pending : List Specified) :
    Prop where
  begun : nodes.length = env.begun
  nodup : nodes.Nodup
  mem_nodes : ∀ id, id ∈ nodes ↔ HasBody (g.node id)
  bodies : ∀ t ∈ env.bodies, ∃ id, BodyAt g nodes t id
  complete : ∀ kind x t, env.tags kind x = some (.complete t) → t ∈ env.bodies
  ended : ∀ id ∈ nodes, (∃ b ∈ pending, b.node = id) ∨ ∃ t ∈ env.bodies, BodyAt g nodes t id

/-- **A session models an environment.** -/
structure Models (env : Env) (nodes : List NodeId) (opens : List Opening) (s : Session)
    (scope : Scope) : Prop extends s.Ready scope where
  knows : Knows env nodes s
  tracks : Tracks env nodes s.graph scope.bodies
  tags : ∀ kind x, TagAt s nodes (tagNode? s kind x) (env.tags kind x)
  enums : ∀ x, EnumAt s (enumNode? s x) (env.enums x)
  opens : Forall₂ (OpenAt s nodes) opens scope.bodies

variable {env env' : Env} {nodes nodes' : List NodeId} {opens : List Opening} {s s' : Session}
  {scope scope' : Scope} {touched : Option NodeId} {id : NodeId}

/-! ### What stays -/

/-- Tags lead where they did. -/
def KeepsTags (s s' : Session) : Prop :=
  ∀ p ∈ tagKinds, ∀ x id, s.lookup? (Names.tagSpelling p.1 x) = some id →
    s'.lookup? (Names.tagSpelling p.1 x) = some id

theorem KeepsTags.of_eq (h : ∀ y, s'.lookup? y = s.lookup? y) : KeepsTags s s' := by
  intro p _ x id hid
  rw [h, hid]

theorem KeepsTags.tagNode? (h : KeepsTags s s') (hid : tagNode? s kind x = some id) :
    C.tagNode? s' kind x = some id :=
  h _ (Session.mem_tagKinds kind) x id hid

theorem RefAt.mono (h : RefAt s nodes ref id) (hg : s.graph.Preserves s'.graph)
    (hn : nodes <+: nodes') (ht : KeepsTags s s') : RefAt s' nodes' ref id := by
  cases ref with
  | known t => exact KnownAt.mono h hg hn
  | tagged kind x => exact ht.tagNode? h
  | unsized => trivial

theorem OpenAt.mono (h : OpenAt s nodes o b) (hg : s.graph.Preserves s'.graph)
    (hn : nodes <+: nodes') (ht : KeepsTags s s')
    (hs : (s.graph.node b.node).Same (s'.graph.node b.node)) : OpenAt s' nodes' o b where
  node := getElem?_of_prefix hn h.node
  anonymous := h.anonymous
  tag x hx := ht.tagNode? (h.tag x hx)
  length := by rw [hs.length, hg.target]; exact h.length
  contains := h.contains.mono hg hn hs

theorem TagAt.mono {state : Option TagState} (h : TagAt s nodes node state)
    (hg : s.graph.Preserves s'.graph) (hn : nodes <+: nodes')
    (hs : ∀ id, node = some id → (s.graph.node id).state = .incomplete →
      (s.graph.node id).Same (s'.graph.node id)) : TagAt s' nodes' node state := by
  match state with
  | none => exact h
  | some .mentioned =>
    obtain ⟨id, hid, hstate, hempty⟩ := h
    have hsame := hs id hid hstate
    exact ⟨id, hid, hsame.state.trans hstate, hempty.same hsame⟩
  | some .begun => exact h
  | some (.complete t) =>
    obtain ⟨id, hid, hbody⟩ := h
    exact ⟨id, hid, hbody.mono hg hn⟩

theorem EnumAt.mono {state : Option Bool} (h : EnumAt s node state)
    (hs : ∀ id, node = some id → (s.graph.node id).Same (s'.graph.node id)) :
    EnumAt s' node state := by
  match state with
  | none => exact h
  | some values =>
    obtain ⟨id, hid, hitems, hdef⟩ := h
    exact ⟨id, hid, (hs id hid).items.trans hitems, fun hv => (hs id hid).isDefined.trans (hdef hv)⟩

/-- A name is bound and the graph stays: tags are all that can make a difference. -/
theorem RefAt.bind (h : RefAt s nodes ref id) (ht : KeepsTags s (s.bind x j)) :
    RefAt (s.bind x j) nodes ref id :=
  h.mono (.refl s.graph) (prefix_refl _) ht

theorem OpenAt.bind (h : OpenAt s nodes o b) (ht : KeepsTags s (s.bind x j)) :
    OpenAt (s.bind x j) nodes o b :=
  { h with tag := fun y hy => ht.tagNode? (h.tag y hy) }

theorem HasBody.of_same (h : n.Same n') : HasBody n' ↔ HasBody n := by
  rw [HasBody, HasBody, h.kind, h.state]

theorem hasBody_default : ¬ HasBody default := fun h => h.2 rfl

theorem not_hasBody_of_size (h : g'.size = g.size) (id : NodeId) (hid : g.size ≤ id) :
    ¬ HasBody (g'.node id) := by
  rw [Graph.node_of_le (h ▸ hid)]
  exact hasBody_default

theorem Knows.mono (h : Knows env nodes s) (he : env'.typedefs = env.typedefs)
    (hg : s.graph.Preserves s'.graph) (hn : nodes <+: nodes')
    (hl : ∀ y, s'.lookup? y = s.lookup? y) : Knows env' nodes' s' where
  base b := by
    obtain ⟨id, hid, href⟩ := h.base b
    exact ⟨id, by rw [hl, hid], href.mono hg hn (.of_eq hl)⟩
  typedefs x ref href := by
    obtain ⟨hplain, id, hid, href⟩ := h.typedefs x ref (he ▸ href)
    exact ⟨hplain, id, by rw [hl, hid], href.mono hg hn (.of_eq hl)⟩
  apart p hp q hq x y id hx hy := by
    rw [hl] at hx hy
    exact h.apart p hp q hq x y id hx hy

theorem Tracks.mono (h : Tracks env nodes g pending) (hg : g.Preserves g')
    (hb : ∀ id, HasBody (g'.node id) ↔ HasBody (g.node id)) :
    Tracks env nodes g' pending where
  begun := h.begun
  nodup := h.nodup
  mem_nodes id := by rw [h.mem_nodes, hb]
  bodies t ht := by
    obtain ⟨id, hbody⟩ := h.bodies t ht
    exact ⟨id, hbody.mono hg (prefix_refl _)⟩
  complete := h.complete
  ended id hid := by
    refine (h.ended id hid).imp_right fun ⟨t, ht, hbody⟩ => ?_
    exact ⟨t, ht, hbody.mono hg (prefix_refl _)⟩

theorem Tracks.congr (h : Tracks env nodes g pending) (hbegun : env'.begun = env.begun)
    (hbodies : env'.bodies = env.bodies)
    (htags : ∀ kind x t, env'.tags kind x = some (.complete t) →
      env.tags kind x = some (.complete t)) :
    Tracks env' nodes g pending where
  begun := h.begun.trans hbegun.symm
  nodup := h.nodup
  mem_nodes := h.mem_nodes
  bodies := hbodies ▸ h.bodies
  complete kind x t ht := hbodies ▸ h.complete kind x t (htags kind x t ht)
  ended := hbodies ▸ h.ended

/-- **A body begins** in a node that had none. -/
theorem Tracks.begin (h : Tracks env nodes g pending) (hg : g.Preserves g')
    (hnot : ¬ HasBody (g.node b.node))
    (hb : ∀ id, HasBody (g'.node id) ↔ HasBody (g.node id) ∨ id = b.node)
    (hbegun : env'.begun = env.begun + 1) (hbodies : env'.bodies = env.bodies)
    (htags : ∀ kind x t, env'.tags kind x = some (.complete t) →
      env.tags kind x = some (.complete t)) :
    Tracks env' (nodes ++ [b.node]) g' (b :: pending) where
  begun := by rw [length_append, h.begun, hbegun, length_singleton]
  nodup := by
    refine List.Nodup.append h.nodup (nodup_singleton _) ?_
    rw [disjoint_singleton, h.mem_nodes]
    exact hnot
  mem_nodes id := by rw [mem_append, mem_singleton, h.mem_nodes, hb]
  bodies t ht := by
    obtain ⟨id, hbody⟩ := h.bodies t (hbodies ▸ ht)
    exact ⟨id, hbody.mono hg (prefix_append _ _)⟩
  complete kind x t ht := hbodies ▸ h.complete kind x t (htags kind x t ht)
  ended id hid := by
    rcases List.mem_append.mp hid with hid | hid
    · rcases h.ended id hid with ⟨c, hc, heq⟩ | ⟨t, ht, hbody⟩
      · exact Or.inl ⟨c, mem_cons_of_mem _ hc, heq⟩
      · exact Or.inr ⟨t, hbodies ▸ ht, hbody.mono hg (prefix_append _ _)⟩
    · exact Or.inl ⟨b, mem_cons_self, (List.mem_singleton.mp hid).symm⟩

/-- **A body ends.** -/
theorem Tracks.finish (h : Tracks env nodes g (b :: pending)) {t : Ty} (hg : g.Preserves g')
    (hb : ∀ id, HasBody (g'.node id) ↔ HasBody (g.node id)) (ht : BodyAt g' nodes t b.node)
    (hbegun : env'.begun = env.begun) (hbodies : env'.bodies = env.bodies ++ [t])
    (htags : ∀ kind x t', env'.tags kind x = some (.complete t') →
      t' = t ∨ env.tags kind x = some (.complete t')) :
    Tracks env' nodes g' pending where
  begun := h.begun.trans hbegun.symm
  nodup := h.nodup
  mem_nodes := (h.mono hg hb).mem_nodes
  bodies t' ht' := by
    rw [hbodies, mem_append, mem_singleton] at ht'
    rcases ht' with ht' | rfl
    · exact (h.mono hg hb).bodies t' ht'
    · exact ⟨b.node, ht⟩
  complete kind x t' hx := by
    rw [hbodies, mem_append, mem_singleton]
    exact (htags kind x t' hx).symm.imp_left (h.complete kind x t')
  ended id hid := by
    rw [hbodies]
    rcases (h.mono hg hb).ended id hid with ⟨c, hc, rfl⟩ | ⟨t', ht', hbody⟩
    · rcases List.mem_cons.mp hc with rfl | hc
      · exact Or.inr ⟨t, mem_append_right _ (mem_singleton_self t), ht⟩
      · exact Or.inl ⟨c, hc, rfl⟩
    · exact Or.inr ⟨t', mem_append_left _ ht', hbody⟩

/-- Where a change makes nodes without a body and begins none. -/
theorem hasBody_iff (ht : g.Touches touched g') (hnew : ∀ id, g.size ≤ id → ¬ HasBody (g'.node id))
    (hid : ∀ id < g.size, touched = some id → (HasBody (g'.node id) ↔ HasBody (g.node id)))
    (id : NodeId) : HasBody (g'.node id) ↔ HasBody (g.node id) := by
  rcases lt_or_ge id g.size with hlt | hge
  · by_cases he : touched = some id
    · exact hid id hlt he
    · exact HasBody.of_same (ht.same id hlt he)
  · rw [Graph.node_of_le hge]
    exact iff_of_false (hnew id hge) hasBody_default

theorem forall₂_imp_of_mem {α β : Type} {R S : α → β → Prop} {as : List α} {bs : List β}
    (h : Forall₂ R as bs) (hi : ∀ a, ∀ b ∈ bs, R a b → S a b) : Forall₂ S as bs := by
  induction h with
  | nil => exact .nil
  | cons hab _ ih =>
    exact .cons (hi _ _ mem_cons_self hab) (ih fun a b hb => hi a b (mem_cons_of_mem _ hb))

/-- Built-in types are known under built-in names. -/
theorem BaseType.spelling_mem (b : BaseType) : b.spelling ∈ builtinNames := by
  rcases b with a | _ | _
  · cases a <;> decide
  · decide
  · decide

theorem TagKind.keyword_injective {kind' : TagKind} (h : kind.keyword = kind'.keyword) :
    kind = kind' := by
  revert h
  cases kind <;> cases kind' <;> decide

/-! ### Names and nodes of a model -/

namespace Models

variable (h : Models env nodes opens s scope) {p : String × NodeKind} {y : String}

include h

theorem tagNode?_spec (hid : tagNode? s kind x = some id) :
    id < s.graph.size ∧ (s.graph.node id).kind = kind.nodeKind := by
  obtain ⟨hlt, -, hfit⟩ := h.bound.lookup? hid
  exact ⟨hlt, hfit _ (Session.mem_tagKinds kind) x rfl⟩

theorem enumNode?_spec (hid : enumNode? s x = some id) :
    id < s.graph.size ∧ (s.graph.node id).kind = .enum := by
  obtain ⟨hlt, -, hfit⟩ := h.bound.lookup? hid
  exact ⟨hlt, hfit ("enum", .enum) (by decide) x rfl⟩

theorem enumNode?_ne (hid : tagNode? s kind x = some id) : enumNode? s y ≠ some id := by
  intro hy
  have hkind := (h.tagNode?_spec hid).2.symm.trans (h.enumNode?_spec hy).2
  cases kind <;> simp [TagKind.nodeKind] at hkind

/-- A tag that leads to an enumeration is known as one. -/
theorem exists_enum (hx : enumNode? s x = some id) :
    ∃ values, env.enums x = some values ∧ (s.graph.node id).items = [⟨1, .enum⟩] ∧
      (values = false → (s.graph.node id).isDefined = false) := by
  have henum := h.enums x
  rw [hx] at henum
  cases hstate : env.enums x with
  | none => simp [hstate, EnumAt] at henum
  | some values =>
    rw [hstate] at henum
    obtain ⟨j, hj, henum⟩ := henum
    obtain rfl : id = j := Option.some.inj hj
    exact ⟨values, rfl, henum⟩

/-- **A reference to a complete type leads to a node for it.** -/
theorem known (hr : RefAt s nodes ref id) {t : Ty} (ht : ref.type? env = some t) :
    KnownAt s.graph nodes t id := by
  cases ref with
  | known t' =>
    obtain rfl : t' = t := Option.some.inj ht
    exact hr
  | tagged kind x =>
    have htag := h.tags kind x
    rw [TypeRef.type?] at ht
    match hstate : env.tags kind x with
    | some (.complete t') =>
      rw [hstate] at ht htag
      obtain rfl : t' = t := Option.some.inj ht
      obtain ⟨id', hid', hbody⟩ := htag
      obtain rfl : id' = id := Option.some.inj (hid'.symm.trans hr)
      exact Or.inr hbody
    | some .mentioned => simp [hstate] at ht
    | some .begun => simp [hstate] at ht
    | none => simp [hstate] at ht
  | unsized => simp [TypeRef.type?] at ht

/-- The type named last makes no difference. -/
theorem withScope (hr : s.Ready scope') (hb : scope'.bodies = scope.bodies) :
    Models env nodes opens s scope' :=
  { h with toReady := hr, tracks := hb ▸ h.tracks, opens := hb ▸ h.opens }

/-! ### Changes of the graph -/

section Touch

variable (ht : s.graph.Touches touched s'.graph) (hl : ∀ y, s'.lookup? y = s.lookup? y)
  (hg : s.graph.Preserves s'.graph) (hn : nodes <+: nodes')

include ht hl hg hn

/-- Tags are as far as they were, unless one of a struct or union that was only mentioned is
touched. -/
theorem tagAt_of_touches (hid : ∀ id, touched = some id → tagNode? s kind x = some id →
      (s.graph.node id).state ≠ .incomplete) :
    TagAt s' nodes' (tagNode? s' kind x) (env.tags kind x) := by
  rw [tagNode?, hl]
  refine (h.tags kind x).mono hg hn fun id hx hstate => ?_
  exact ht.same id (h.tagNode?_spec hx).1 fun he => hid id he hx hstate

omit hg hn in
theorem enumAt_of_touches (hid : ∀ id, touched = some id → enumNode? s x ≠ some id) :
    EnumAt s' (enumNode? s' x) (env.enums x) := by
  rw [enumNode?, hl]
  exact (h.enums x).mono fun id hx => ht.same id (h.enumNode?_spec hx).1 fun he => hid id he hx

/-- Open bodies stay as they are, unless they are touched. -/
theorem openAt_of_touches (hb : b ∈ scope.bodies) (hid : touched ≠ some b.node)
    (ho : OpenAt s nodes o b) : OpenAt s' nodes' o b :=
  ho.mono hg hn (.of_eq hl) (ht.same _ (Graph.lt_size_of_state (h.fits.bodies b hb).1) hid)

end Touch

/-- **A change that touches nothing** and adds no struct or union with a body. -/
theorem quiet (hr : s'.Ready scope) (ht : s.graph.Touches none s'.graph)
    (hl : ∀ y, s'.lookup? y = s.lookup? y)
    (hnew : ∀ id, s.graph.size ≤ id → ¬ HasBody (s'.graph.node id)) :
    Models env nodes opens s' scope where
  toReady := hr
  knows := h.knows.mono rfl (ht.preserves (by simp)) (prefix_refl _) hl
  tracks := h.tracks.mono (ht.preserves (by simp)) (hasBody_iff ht hnew (by simp))
  tags kind x := h.tagAt_of_touches ht hl (ht.preserves (by simp)) (prefix_refl _) (by simp)
  enums x := h.enumAt_of_touches ht hl (by simp)
  opens := forall₂_imp_of_mem h.opens fun o b hb ho =>
    h.openAt_of_touches ht hl (ht.preserves (by simp)) (prefix_refl _) hb (by simp) ho

/-- **An enumeration that was only mentioned is given its values.** -/
theorem complete (hx : enumNode? s x = some id) (hdef : (s.graph.node id).isDefined = false)
    (hr : s'.Ready scope) (ht : s.graph.Touches (some id) s'.graph)
    (hl : ∀ y, s'.lookup? y = s.lookup? y) (hsize : s'.graph.size = s.graph.size)
    (hkind : (s'.graph.node id).kind = .enum)
    (hitems : (s'.graph.node id).items = (s.graph.node id).items) :
    Models (env.setEnum x true) nodes opens s' scope := by
  obtain ⟨hlt, hkind'⟩ := h.enumNode?_spec hx
  have hg : s.graph.Preserves s'.graph := ht.preserves fun j _ hj => by
    obtain rfl : id = j := Option.some.inj hj
    exact ⟨hdef, Or.inr (Or.inr ⟨hkind.trans hkind'.symm, hitems⟩)⟩
  have hbody (n : Node) (hn : n.kind = .enum) : ¬ HasBody n := by simp [HasBody, hn]
  have hbodies := hasBody_iff ht (not_hasBody_of_size hsize) fun j _ hj => by
    obtain rfl : id = j := Option.some.inj hj
    exact iff_of_false (hbody _ hkind) (hbody _ hkind')
  exact {
    toReady := hr
    knows := h.knows.mono rfl hg (prefix_refl _) hl
    tracks := (h.tracks.mono hg hbodies).congr rfl rfl fun _ _ _ ht => ht
    tags := fun kind y => h.tagAt_of_touches ht hl hg (prefix_refl _) fun j hj hy => by
      obtain rfl : id = j := Option.some.inj hj
      exact absurd hx (h.enumNode?_ne hy)
    enums := fun y => by
      by_cases hy : y = x
      · subst hy
        obtain ⟨-, -, hitem, -⟩ := h.exists_enum hx
        rw [enumNode?, hl, show s.lookup? _ = some id from hx]
        simp [Env.setEnum, EnumAt, hitems, hitem]
      · have henum := h.enumAt_of_touches (x := y) ht hl fun j hj hy' => by
          obtain rfl : id = j := Option.some.inj hj
          exact hy (h.knows.apart ("enum", .enum) (by decide) ("enum", .enum) (by decide) y x id
            hy' hx).2
        simpa [Env.setEnum, hy] using henum
    opens := forall₂_imp_of_mem h.opens fun o b hb ho => by
      refine h.openAt_of_touches ht hl hg (prefix_refl _) hb ?_ ho
      intro hj
      have hbkind := (h.fits.bodies b hb).2
      rw [← Option.some.inj hj, hkind'] at hbkind
      simp at hbkind }

/-- **A body begins**, in a new node or in that of a tag that was only mentioned. -/
theorem begin (hr : s'.Ready scope') (hscope : scope'.bodies = b :: scope.bodies)
    (ht : s.graph.Touches (some b.node) s'.graph) (hl : ∀ y, s'.lookup? y = s.lookup? y)
    (hstate : (s.graph.node b.node).state = .incomplete)
    (hkind : b.node < s.graph.size → (s.graph.node b.node).kind = o.kind.nodeKind)
    (hnew : ∀ id, s.graph.size ≤ id → id ≠ b.node → ¬ HasBody (s'.graph.node id))
    (hopen : OpenAt s' (nodes ++ [b.node]) o b) {tags : TagKind → String → Option TagState}
    (htag : ∀ kind x, tagNode? s kind x = some b.node → tags kind x = some .begun)
    (htags : ∀ kind x, tagNode? s kind x ≠ some b.node → tags kind x = env.tags kind x) :
    Models { env with tags, begun := env.begun + 1 } (nodes ++ [b.node]) (o :: opens) s' scope' := by
  have hn := prefix_append nodes [b.node]
  have hg : s.graph.Preserves s'.graph := ht.preserves fun j hlt hj => by
    obtain rfl : b.node = j := Option.some.inj hj
    refine ⟨Graph.isDefined_eq_false (by simp [hstate]), ?_⟩
    rw [hkind hlt]
    exact (Session.nodeKind_eq o.kind).imp_right Or.inl
  have hnot : ¬ HasBody (s.graph.node b.node) := fun hb => hb.2 hstate
  have hhas : HasBody (s'.graph.node b.node) := by
    refine ⟨?_, ?_⟩
    · rw [hopen.contains.kind]
      exact Session.nodeKind_eq o.kind
    · rw [(hr.fits.bodies b (by simp [hscope])).1]
      decide
  exact {
    toReady := hr
    knows := h.knows.mono rfl hg hn hl
    tracks := by
      rw [hscope]
      refine h.tracks.begin hg hnot (fun j => ?_) rfl rfl fun kind x t hx => ?_
      · by_cases hj : j = b.node
        · subst hj
          exact iff_of_true hhas (Or.inr rfl)
        · rw [or_iff_left hj]
          rcases lt_or_ge j s.graph.size with hlt | hge
          · exact HasBody.of_same (ht.same j hlt fun he => hj (Option.some.inj he).symm)
          · rw [Graph.node_of_le hge]
            exact iff_of_false (hnew j hge hj) hasBody_default
      · by_cases hb : tagNode? s kind x = some b.node
        · simp [htag kind x hb] at hx
        · exact (htags kind x hb).symm.trans hx
    tags := fun kind x => by
      by_cases hx : tagNode? s kind x = some b.node
      · dsimp only
        rw [htag kind x hx, tagNode?, hl]
        exact ⟨b.node, hx⟩
      · dsimp only
        rw [htags kind x hx]
        refine h.tagAt_of_touches ht hl hg hn fun j hj hx' => ?_
        exact absurd (hx'.trans hj.symm) hx
    enums := fun x => by
      refine h.enumAt_of_touches ht hl fun j hj hx => ?_
      obtain rfl : b.node = j := Option.some.inj hj
      obtain ⟨hlt, henum⟩ := h.enumNode?_spec hx
      rw [hkind hlt] at henum
      rcases Session.nodeKind_eq o.kind with hk | hk <;> simp [hk] at henum
    opens := by
      rw [hscope]
      refine .cons hopen (forall₂_imp_of_mem h.opens fun o' c hc ho => ?_)
      refine h.openAt_of_touches ht hl hg hn hc ?_ ho
      intro he
      have hc' := (h.fits.bodies c hc).1
      rw [← Option.some.inj he, hstate] at hc'
      exact absurd hc' (by decide) }

section Innermost

variable {b : Specified} {pending : List Specified} (hscope : scope.bodies = b :: pending)
  (ht : s.graph.Touches (some b.node) s'.graph)

include hscope

theorem innermost_spec : (s.graph.node b.node).state = .defining ∧
    ((s.graph.node b.node).kind = .struct ∨ (s.graph.node b.node).kind = .union) :=
  h.fits.bodies b (by simp [hscope])

include ht

theorem preserves_of_innermost : s.graph.Preserves s'.graph := ht.preserves fun j _ hj => by
  obtain rfl : b.node = j := Option.some.inj hj
  obtain ⟨hstate, hkind⟩ := h.innermost_spec hscope
  exact ⟨Graph.isDefined_eq_false (by simp [hstate]), hkind.imp_right Or.inl⟩

theorem hasBody_of_innermost (hnew : ∀ id, s.graph.size ≤ id → ¬ HasBody (s'.graph.node id))
    (hkind : (s'.graph.node b.node).kind = (s.graph.node b.node).kind)
    (hstate : (s'.graph.node b.node).state ≠ .incomplete) (id : NodeId) :
    HasBody (s'.graph.node id) ↔ HasBody (s.graph.node id) := by
  refine hasBody_iff ht hnew (fun j _ hj => ?_) id
  obtain rfl : b.node = j := Option.some.inj hj
  obtain ⟨hdefining, hk⟩ := h.innermost_spec hscope
  rw [HasBody, HasBody, hkind, hdefining]
  exact iff_of_true ⟨hk, hstate⟩ ⟨hk, by decide⟩

variable (hl : ∀ y, s'.lookup? y = s.lookup? y)

include hl

theorem tagAt_of_innermost (kind : TagKind) (x : String) :
    TagAt s' nodes (tagNode? s' kind x) (env.tags kind x) := by
  refine h.tagAt_of_touches ht hl (h.preserves_of_innermost hscope ht) (prefix_refl _)
    fun j hj _ => ?_
  obtain rfl : b.node = j := Option.some.inj hj
  rw [(h.innermost_spec hscope).1]
  decide

theorem enumAt_of_innermost (x : String) : EnumAt s' (enumNode? s' x) (env.enums x) := by
  refine h.enumAt_of_touches ht hl fun j hj hx => ?_
  obtain rfl : b.node = j := Option.some.inj hj
  have hkind := (h.innermost_spec hscope).2
  rw [(h.enumNode?_spec hx).2] at hkind
  simp at hkind

theorem openAt_of_innermost {c : Specified} (hc : c ∈ pending) (ho : OpenAt s nodes o c) :
    OpenAt s' nodes o c := by
  refine h.openAt_of_touches ht hl (h.preserves_of_innermost hscope ht) (prefix_refl _)
    (by simp [hscope, hc]) (fun he => ?_) ho
  have hnodup := h.fits.nodup
  rw [hscope, map_cons, nodup_cons] at hnodup
  exact hnodup.1 (List.mem_map.mpr ⟨c, hc, (Option.some.inj he).symm⟩)

end Innermost

omit h in
/-- The innermost body is open. -/
theorem exists_bodies (h : Models env nodes (o :: opens) s scope) :
    ∃ b pending, scope.bodies = b :: pending ∧ OpenAt s nodes o b ∧
      Forall₂ (OpenAt s nodes) opens pending := by
  have hopens := h.opens
  cases hbodies : scope.bodies with
  | nil => rw [hbodies] at hopens; cases hopens
  | cons b pending =>
    rw [hbodies] at hopens
    obtain ⟨ho, hpending⟩ := List.forall₂_cons.mp hopens
    exact ⟨b, pending, rfl, ho, hpending⟩

omit h in
/-- **The innermost body grows.** -/
theorem grow {o' : Opening} (h : Models env nodes (o :: opens) s scope) (hb : OpenAt s nodes o b)
    (hpending : Forall₂ (OpenAt s nodes) opens pending) (hscope : scope.bodies = b :: pending)
    (hr : s'.Ready scope) (ht : s.graph.Touches (some b.node) s'.graph)
    (hl : ∀ y, s'.lookup? y = s.lookup? y)
    (hnew : ∀ id, s.graph.size ≤ id → ¬ HasBody (s'.graph.node id)) (hopen : OpenAt s' nodes o' b)
    (hkind : o'.kind = o.kind) : Models env nodes (o' :: opens) s' scope := by
  have hk : (s'.graph.node b.node).kind = (s.graph.node b.node).kind := by
    rw [hopen.contains.kind, hb.contains.kind, hkind]
  have hstate : (s'.graph.node b.node).state ≠ .incomplete := by
    rw [(hr.fits.bodies b (by simp [hscope])).1]
    decide
  have hg := h.preserves_of_innermost hscope ht
  exact {
    toReady := hr
    knows := h.knows.mono rfl hg (prefix_refl _) hl
    tracks := h.tracks.mono hg (h.hasBody_of_innermost hscope ht hnew hk hstate)
    tags := h.tagAt_of_innermost hscope ht hl
    enums := h.enumAt_of_innermost hscope ht hl
    opens := by
      rw [hscope]
      exact .cons hopen (forall₂_imp_of_mem hpending fun o c hc ho =>
        h.openAt_of_innermost hscope ht hl hc ho) }

omit h in
/-- **The innermost body ends.** -/
theorem finish (h : Models env nodes (o :: opens) s scope) (hb : OpenAt s nodes o b)
    (hpending : Forall₂ (OpenAt s nodes) opens pending) (hscope : scope.bodies = b :: pending)
    (hscope' : scope'.bodies = pending) (hr : s'.Ready scope')
    (ht : s.graph.Touches (some b.node) s'.graph) (hl : ∀ y, s'.lookup? y = s.lookup? y)
    (hsize : s'.graph.size = s.graph.size)
    (hbody : BodyAt s'.graph nodes (.record o.index o.kind o.fields) b.node) :
    Models (env.endBody o.kind o.name (.record o.index o.kind o.fields)) nodes opens s' scope' := by
  have hg := h.preserves_of_innermost hscope ht
  obtain ⟨hk, hstate⟩ : (s'.graph.node b.node).kind = (s.graph.node b.node).kind ∧
      (s'.graph.node b.node).state ≠ .incomplete := by
    obtain ⟨i, kind, fields, heq, -, hd, -, hc⟩ := hbody
    injection heq with _ hkind _
    refine ⟨by rw [hc.kind, hb.contains.kind, hkind], fun hs => ?_⟩
    rw [Graph.isDefined_eq_false (by simp [hs])] at hd
    exact Bool.false_ne_true hd
  have htags := h.tagAt_of_innermost hscope ht hl
  exact {
    toReady := hr
    knows := h.knows.mono (by cases o.name <;> rfl) hg (prefix_refl _) hl
    tracks := by
      rw [hscope']
      have htracks := h.tracks
      rw [hscope] at htracks
      exact htracks.finish hg
        (h.hasBody_of_innermost hscope ht (not_hasBody_of_size hsize) hk hstate) hbody
        (by cases o.name <;> rfl) (by cases o.name <;> rfl) fun kind x t ht => by
          cases hname : o.name with
          | none => exact .inr (by simpa [hname, Env.endBody] using ht)
          | some y =>
            by_cases hx : kind = o.kind ∧ x = y.text
            · exact .inl (by simpa [hname, Env.endBody, Env.setTag, hx] using ht.symm)
            · exact .inr (by simpa [hname, Env.endBody, Env.setTag, hx] using ht)
    tags := fun kind x => by
      cases hname : o.name with
      | none => exact htags kind x
      | some y =>
        by_cases hx : kind = o.kind ∧ x = y.text
        · obtain ⟨rfl, rfl⟩ := hx
          have hnode : tagNode? s' o.kind y.text = some b.node := by
            rw [tagNode?, hl]
            exact hb.tag y hname
          rw [hnode]
          simpa [Env.endBody, Env.setTag, TagAt] using hbody
        · simpa [Env.endBody, Env.setTag, hx] using htags kind x
    enums := fun x => by
      have henum := h.enumAt_of_innermost hscope ht hl x
      cases o.name <;> exact henum
    opens := by
      rw [hscope']
      exact forall₂_imp_of_mem hpending fun o c hc ho =>
        h.openAt_of_innermost hscope ht hl hc ho }

/-! ### Names that are bound -/

/-- A name without a blank is no tag. -/
theorem lookup?_bind_plain (hplain : Plain x) (hx : x ∉ builtinNames) (id : NodeId)
    (kw y : String) :
    (s.bind x id).lookup? (Names.tagSpelling kw y) = s.lookup? (Names.tagSpelling kw y) := by
  rw [Session.lookup?_bind h.bound hx, if_neg]
  rintro rfl
  exact not_plain_tagSpelling kw y hplain

theorem keepsTags_bind_plain (hplain : Plain x) (hx : x ∉ builtinNames) :
    KeepsTags s (s.bind x id) := fun p _ y j hj => by
  rw [h.lookup?_bind_plain hplain hx, hj]

/-- **A typedef name is bound** to a node for what it stands for. -/
theorem bindTypedef (hplain : Plain x) (hx : x ∉ builtinNames) (href : RefAt s nodes ref id)
    (hr : (s.bind x id).Ready scope) :
    Models (env.setTypedef x ref) nodes opens (s.bind x id) scope := by
  have hl := Session.lookup?_bind h.bound hx id
  have htag := h.lookup?_bind_plain hplain hx id
  have htags : KeepsTags s (s.bind x id) := h.keepsTags_bind_plain hplain hx
  exact {
    toReady := hr
    knows :=
      { base := fun b => by
          obtain ⟨j, hj, hjref⟩ := h.knows.base b
          refine ⟨j, ?_, hjref.bind htags⟩
          rw [hl, if_neg, hj]
          rintro rfl
          exact hx b.spelling_mem
        typedefs := fun y ref' hy => by
          by_cases hyx : y = x
          · subst hyx
            obtain rfl : ref = ref' := by simpa [Env.setTypedef] using hy
            exact ⟨hplain, id, by rw [hl, if_pos rfl], href.bind htags⟩
          · obtain ⟨hyplain, j, hj, hjref⟩ :=
              h.knows.typedefs y ref' (by simpa [Env.setTypedef, hyx] using hy)
            exact ⟨hyplain, j, by rw [hl, if_neg hyx, hj], hjref.bind htags⟩
        apart := fun p hp q hq y z j hy hz => by
          rw [htag] at hy hz
          exact h.knows.apart p hp q hq y z j hy hz }
    tracks := h.tracks.congr rfl rfl fun _ _ _ ht => ht
    tags := fun kind y => by
      rw [tagNode?, htag]
      exact h.tags kind y
    enums := fun y => by
      rw [enumNode?, htag]
      exact h.enums y
    opens := h.opens.imp fun _ _ ho => ho.bind htags }

section Tag

variable {p : String × NodeKind} (hp : p ∈ tagKinds) {x : String}
  (hnone : s.lookup? (Names.tagSpelling p.1 x) = none) (hfree : ∀ y, s.lookup? y ≠ some id)

include hp hnone

omit hfree in
theorem keepsTags_bind (id : NodeId) : KeepsTags s (s.bind (Names.tagSpelling p.1 x) id) := by
  intro q _ y j hj
  rw [Session.lookup?_bind h.bound (tagSpelling_not_mem hp x), if_neg, hj]
  intro he
  rw [he, hnone] at hj
  exact absurd hj (by simp)

omit hnone in
/-- Other tags lead where they did. -/
theorem lookup?_bind_tag {q : String × NodeKind} (hq : q ∈ tagKinds) (hne : ¬ (q.1 = p.1 ∧ y = x)) :
    (s.bind (Names.tagSpelling p.1 x) id).lookup? (Names.tagSpelling q.1 y) =
      s.lookup? (Names.tagSpelling q.1 y) := by
  rw [Session.lookup?_bind h.bound (tagSpelling_not_mem hp x), if_neg]
  exact fun he => hne (tagSpelling_inj (plain_of_mem_tagKinds hq) (plain_of_mem_tagKinds hp) he)

include hfree

theorem knows_bindTag : Knows env nodes (s.bind (Names.tagSpelling p.1 x) id) := by
  have hl := Session.lookup?_bind h.bound (tagSpelling_not_mem hp x) id
  have htags := h.keepsTags_bind hp hnone id
  have hold {y : String} {j : NodeId} (hj : s.lookup? y = some j) :
      (s.bind (Names.tagSpelling p.1 x) id).lookup? y = some j := by
    rw [hl, if_neg, hj]
    rintro rfl
    simp [hnone] at hj
  -- A tag that leads to the new node is the new tag.
  have hnewtag {q : String × NodeKind} {y : String} {j : NodeId} (hq : q ∈ tagKinds)
      (hj : (s.bind (Names.tagSpelling p.1 x) id).lookup? (Names.tagSpelling q.1 y) = some j) :
      (q.1 = p.1 ∧ y = x ∧ j = id) ∨ s.lookup? (Names.tagSpelling q.1 y) = some j := by
    by_cases hy : q.1 = p.1 ∧ y = x
    · rw [hy.1, hy.2, hl, if_pos rfl] at hj
      exact Or.inl ⟨hy.1, hy.2, (Option.some.inj hj).symm⟩
    · exact Or.inr ((h.lookup?_bind_tag hp hq hy).symm.trans hj)
  exact {
    base := fun b => by
      obtain ⟨j, hj, hjref⟩ := h.knows.base b
      exact ⟨j, hold hj, hjref.bind htags⟩
    typedefs := fun y ref hy => by
      obtain ⟨hyplain, j, hj, hjref⟩ := h.knows.typedefs y ref hy
      exact ⟨hyplain, j, hold hj, hjref.bind htags⟩
    apart := fun q hq r hr y z j hy hz => by
      rcases hnewtag hq hy with ⟨hqp, hyx, hj⟩ | hy'
      · rcases hnewtag hr hz with ⟨hrp, hzx, -⟩ | hz'
        · exact ⟨hqp.trans hrp.symm, hyx.trans hzx.symm⟩
        · exact absurd (hj ▸ hz') (hfree _)
      · rcases hnewtag hr hz with ⟨-, -, hj⟩ | hz'
        · exact absurd (hj ▸ hy') (hfree _)
        · exact h.knows.apart q hq r hr y z j hy' hz' }

end Tag

theorem tagAt_bind {p : String × NodeKind} (hp : p ∈ tagKinds) {x : String} {kind : TagKind}
    {y : String} (hne : ¬ (kind.keyword = p.1 ∧ y = x)) :
    TagAt (s.bind (Names.tagSpelling p.1 x) id) nodes
      (tagNode? (s.bind (Names.tagSpelling p.1 x) id) kind y) (env.tags kind y) := by
  rw [tagNode?, h.lookup?_bind_tag hp (Session.mem_tagKinds kind) hne]
  exact h.tags kind y

theorem enumAt_bind {p : String × NodeKind} (hp : p ∈ tagKinds) {x y : String}
    (hne : ¬ ("enum" = p.1 ∧ y = x)) :
    EnumAt (s.bind (Names.tagSpelling p.1 x) id)
      (enumNode? (s.bind (Names.tagSpelling p.1 x) id) y) (env.enums y) := by
  rw [enumNode?, h.lookup?_bind_tag hp (q := ("enum", .enum)) (by decide) hne]
  exact h.enums y

/-- **A new tag of a struct or union is bound** to an empty node. -/
theorem bindTag (hnone : tagNode? s kind x = none) (hfree : ∀ y, s.lookup? y ≠ some id)
    (hstate : (s.graph.node id).state = .incomplete) (hempty : Empty (s.graph.node id))
    (hr : (s.bind (Names.tagSpelling kind.keyword x) id).Ready scope) :
    Models (env.setTag kind x .mentioned) nodes opens
      (s.bind (Names.tagSpelling kind.keyword x) id) scope := by
  have hp := Session.mem_tagKinds kind
  have hknows := h.knows_bindTag hp hnone hfree
  exact {
    toReady := hr
    knows := ⟨hknows.base, hknows.typedefs, hknows.apart⟩
    tracks := h.tracks.congr rfl rfl fun kind' y t ht => by
      by_cases hy : kind' = kind ∧ y = x
      · simp [Env.setTag, hy] at ht
      · simpa [Env.setTag, hy] using ht
    tags := fun kind' y => by
      by_cases hy : kind' = kind ∧ y = x
      · obtain ⟨rfl, rfl⟩ := hy
        rw [tagNode?, Session.lookup?_bind h.bound (tagSpelling_not_mem hp _), if_pos rfl]
        simpa [Env.setTag, TagAt] using ⟨hstate, hempty⟩
      · have hne : ¬ (kind'.keyword = kind.keyword ∧ y = x) := fun he =>
          hy ⟨TagKind.keyword_injective he.1, he.2⟩
        simpa [Env.setTag, hy] using h.tagAt_bind hp hne
    enums := fun y => h.enumAt_bind hp fun he => by cases kind <;> exact absurd he.1 (by decide)
    opens := h.opens.imp fun _ _ ho => ho.bind (h.keepsTags_bind hp hnone id) }

/-- **A new tag of an enumeration is bound** to a node that stands for one. -/
theorem bindEnum (hnone : enumNode? s x = none) (hfree : ∀ y, s.lookup? y ≠ some id) {values : Bool}
    (hitems : (s.graph.node id).items = [⟨1, .enum⟩])
    (hdef : values = false → (s.graph.node id).isDefined = false)
    (hr : (s.bind (Names.tagSpelling "enum" x) id).Ready scope) :
    Models (env.setEnum x values) nodes opens (s.bind (Names.tagSpelling "enum" x) id) scope := by
  have hp : ("enum", NodeKind.enum) ∈ tagKinds := by decide
  have hknows := h.knows_bindTag hp hnone hfree
  exact {
    toReady := hr
    knows := ⟨hknows.base, hknows.typedefs, hknows.apart⟩
    tracks := h.tracks.congr rfl rfl fun _ _ _ ht => ht
    tags := fun kind y => h.tagAt_bind hp fun he => by cases kind <;> exact absurd he.1 (by decide)
    enums := fun y => by
      by_cases hy : y = x
      · subst hy
        rw [enumNode?, Session.lookup?_bind h.bound (tagSpelling_not_mem hp _), if_pos rfl]
        simpa [Env.setEnum, EnumAt] using ⟨hitems, hdef⟩
      · simpa [Env.setEnum, hy] using h.enumAt_bind hp (fun he => hy he.2)
    opens := h.opens.imp fun _ _ ho => ho.bind (h.keepsTags_bind hp hnone id) }

end Models

end TypeLayout.C
