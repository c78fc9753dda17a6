import TypeLayout.Proofs.SessionSound

/-!
# What names are bound to

Binding a name changes what this name leads to and nothing else, unless the name is that of
a built-in type (`Session.lookup?_bind`). Spellings of tags are told apart by their keyword
and their name (`tagSpelling_inj`), and none of them is the name of a built-in type.

The second half says which nodes a change of the graph touches (`Graph.Touches`): adding a
node touches none, and everything else that declarations do touches at most one.
-/

namespace TypeLayout

/-! ### Lookups -/

namespace Session

variable {s : Session}

/-- A binding in front of all others decides what its name leads to, and nothing else. -/
theorem lookup?_cons (h : s.Bound) (x : String) (node : NodeId) (builtin : Bool) (y : String) :
    ((s.names.insert x).2.find? y).bind
        (Registry.lookup? ⟨⟨(s.names.insert x).1, node, builtin⟩ :: s.registry.bindings⟩) =
      if y = x then some node else s.lookup? y := by
  have hfind := s.names.find?_insert x x
  rw [if_pos rfl] at hfind
  have hlookup := lookup?_intern h x y
  split
  · rename_i hy
    rw [hy, hfind]
    simp [Registry.lookup?, Registry.find?]
  · rename_i hy
    rw [← hlookup]
    show _ = ((s.names.insert x).2.find? y).bind s.registry.lookup?
    cases hfy : (s.names.insert x).2.find? y with
    | none => rfl
    | some id =>
      have hne : ((s.names.insert x).1 == id) = false := by
        rw [beq_eq_false_iff_ne]
        rintro rfl
        exact hy (Names.eq_of_find? hfy hfind)
      simp [Registry.lookup?, Registry.find?, hne]

/-- **Binding a name** that is not built in changes what it leads to, and nothing else. -/
theorem lookup?_bind (h : s.Bound) {x : String} (hx : x ∉ builtinNames) (node : NodeId)
    (y : String) :
    (s.bind x node).lookup? y = if y = x then some node else s.lookup? y := by
  have hbound := (moves_intern s x).bound h
  have hfree : s.registry.isBuiltin (s.names.insert x).1 = false := by
    rw [Registry.isBuiltin]
    cases hb : s.registry.find? (s.names.insert x).1 with
    | none => rfl
    | some b =>
      rw [Option.any_some, Bool.eq_false_iff]
      intro hbuiltin
      obtain ⟨spelling, hname, -, -, -, hmem⟩ := hbound b (List.mem_of_find?_eq_some hb)
      have hid : b.name = (s.names.insert x).1 := by simpa using List.find?_some hb
      rw [hid] at hname
      have hspelling : spelling = x :=
        Option.some.inj (hname.symm.trans (s.names.get?_insert x))
      exact hx (hspelling ▸ hmem hbuiltin)
  show ((s.names.insert x).2.find? y).bind
    (s.registry.insert (s.names.insert x).1 node).lookup? = _
  rw [Registry.insert, hfree, if_neg Bool.false_ne_true]
  exact lookup?_cons h x node false y

end Session

/-! ### Spellings of tags -/

theorem tagSpelling_inj {kw kw' x x' : String} (hk : Plain kw) (hk' : Plain kw')
    (h : Names.tagSpelling kw x = Names.tagSpelling kw' x') : kw = kw' ∧ x = x' := by
  have hkw : kw = kw' := by
    have hfirst := takeWhile_tagSpelling hk x
    rw [h, takeWhile_tagSpelling hk' x'] at hfirst
    exact (String.toList_inj.mp hfirst).symm
  subst hkw
  have hlist := congrArg String.toList h
  simp only [Names.tagSpelling, String.toList_append, List.append_assoc,
    List.append_cancel_left_eq] at hlist
  exact ⟨rfl, String.toList_inj.mp hlist⟩

theorem not_plain_tagSpelling (kw x : String) : ¬ Plain (Names.tagSpelling kw x) := fun h =>
  h (by simp [Names.tagSpelling])

/-- No tag is spelled like a built-in type. -/
theorem tagSpelling_not_mem {p : String × NodeKind} (hp : p ∈ tagKinds) (x : String) :
    Names.tagSpelling p.1 x ∉ builtinNames := by
  intro hmem
  obtain ⟨q, hq, heq⟩ := List.mem_map.mp hmem
  have hfit := (flat_of_mem_builtins hq).2.1 p hp x heq
  fin_cases hp <;> simp at hfit

/-! ### What a change touches -/

theorem Node.Same.trans {n n' n'' : Node} (h : n.Same n') (h' : n'.Same n'') : n.Same n'' where
  kind := h'.kind.trans h.kind
  state := h'.state.trans h.state
  items := h'.items.trans h.items
  members := h'.members.trans h.members
  length := h'.length.trans h.length
  align := h'.align.trans h.align
  removed := h'.removed.trans h.removed
  emitted := h'.emitted.trans h.emitted
  renamed := h'.renamed.trans h.renamed
  offset := h'.offset.trans h.offset
  jump := h'.jump.trans h.jump

namespace Graph

/-- **A change of a graph that touches at most one node.** -/
structure Touches (touched : Option NodeId) (g g' : Graph) : Prop where
  target : g'.target = g.target
  size : g.size ≤ g'.size
  same : ∀ id < g.size, touched ≠ some id → (g.node id).Same (g'.node id)

namespace Touches

variable {g g' g'' : Graph} {touched : Option NodeId}

theorem refl (touched : Option NodeId) (g : Graph) : Touches touched g g :=
  ⟨rfl, le_refl _, fun id _ _ => (Alike.refl g).same id⟩

theorem of_alike (h : g.Alike g') : Touches touched g g' :=
  ⟨h.target, h.size.ge, fun id _ _ => h.same id⟩

theorem trans (h : Touches touched g g') (h' : Touches touched g' g'') : Touches touched g g'' where
  target := h'.target.trans h.target
  size := h.size.trans h'.size
  same id hid hne :=
    (h.same id hid hne).trans (h'.same id (lt_of_lt_of_le hid h.size) hne)

theorem add (n : Node) : Touches touched g (g.add n) where
  target := rfl
  size := by rw [size_add]; exact Nat.le_succ _
  same id hid _ := by rw [node_add_of_lt n hid]; exact (Alike.refl g).same id

theorem modify (id : NodeId) (f : Node → Node) : Touches (some id) g (g.modify id f) where
  target := rfl
  size := (size_modify g id f).ge
  same j _ hne := by
    rw [node_modify_of_ne f fun h => hne (congrArg some h)]
    exact (Alike.refl g).same j

theorem appendItem (id : NodeId) (item : Item) : Touches (some id) g (g.appendItem id item) := by
  rw [appendItem_eq]
  dsimp only
  split
  · exact modify id _
  · exact (modify id _).trans (of_alike (.retain _ _))

end Touches

/-- Declarations build a graph for one target. -/
theorem target_of_builds {g g' : Graph} (h : Relation.ReflTransGen Build g g') :
    g'.target = g.target := by
  induction h with
  | refl => rfl
  | tail _ hstep ih =>
    refine Eq.trans ?_ ih
    cases hstep with
    | label | start | finish | complete => rfl
    | blank => rfl
    | hold => exact (Alike.retain _ _).target
    | append => exact (Touches.appendItem _ _).target
    | member => exact (Alike.retain _ _).target

end Graph

end TypeLayout
