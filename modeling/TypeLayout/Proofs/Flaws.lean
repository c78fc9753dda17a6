import TypeLayout.Proofs.Consistent
import TypeLayout.Proofs.Faithful

/-!
# What keeps a type from being laid out

The layout fails on a node without content and on a function, and it reports the first flaw in the
unfolding of a requested node (`Session.Resolved.reports_assignOffsets`). There is one exactly if the
node can be followed to one that is flawed by itself.

The unfolding of a struct is the same whether another struct is written into it or linked to.
So merging changes no flaw (`Graph.Settled.flaw_merges`), and a type can be laid out before
merging exactly if it can be afterwards.
-/

namespace TypeLayout

variable {e : LayoutError}

/-- A node that is flawed by itself: a union without members, another node without items, or
one with a function among its items. -/
def Node.Flawed (n : Node) : Prop :=
  (n.isUnion = true ∧ n.members = []) ∨ (n.isUnion = false ∧ n.items = []) ∨
    ∃ item ∈ n.items, item.kind = .function

namespace Graph

variable {g g' : Graph} {id : NodeId}

theorem Settled.flaw_eq (h : g.Settled) (id : NodeId) :
    g.flaw id = nodeFlaw g.flaw (g.node id) := by
  obtain ⟨rank, hr⟩ := h.ranked
  exact hr.flaw_eq id

theorem Settled.flaw_unique (h : g.Settled) {f : NodeId → Option Flaw}
    (hf : ∀ id, f id = nodeFlaw f (g.node id)) : g.flaw = f := by
  obtain ⟨rank, hr⟩ := h.ranked
  exact hr.follow_unique local_nodeFlaw none hf

/-! ### Flaws and the nodes that have them -/

theorem Settled.describable_iff (h : g.Settled) (id : NodeId) :
    g.Describable id ↔ ¬ (g.node id).Flawed := by
  unfold Describable Node.Flawed
  cases hu : (g.node id).isUnion with
  | true =>
    have hitems := (h.nodes id).union_items (by simpa [Node.isUnion] using hu)
    simp [hitems]
  | false => simp

/-- **A node has a flaw exactly if it can be followed to a node that is flawed.** -/
theorem Settled.flaw_eq_none_iff (h : g.Settled) (id : NodeId) :
    g.flaw id = none ↔
      ∀ x, Relation.ReflTransGen (fun a b => b ∈ g.kids a) id x → ¬ (g.node x).Flawed := by
  obtain ⟨rank, hr⟩ := h.ranked
  simp only [← h.describable_iff]
  constructor
  · intro hnone x hpath
    have hx : g.flaw x = none := by
      induction hpath with
      | refl => exact hnone
      | tail _ hb ih => exact (hr.flaw_eq_none_iff.mp ih).2 _ hb
    exact (hr.flaw_eq_none_iff.mp hx).1
  · exact fun hpaths => hr.flaw_eq_none_of_closed (fun x hx b hb => hx.tail hb) hpaths .refl

theorem Settled.findSome?_flaw_iff (h : g.Settled) (roots : List NodeId) :
    roots.findSome? g.flaw ≠ none ↔ ∃ id, g.Needs roots id ∧ (g.node id).Flawed := by
  rw [Ne, List.findSome?_eq_none_iff, not_forall]
  simp only [h.flaw_eq_none_iff, Classical.not_imp, not_forall, not_not]
  constructor
  · rintro ⟨root, hroot, x, hpath, hx⟩
    exact ⟨x, ⟨root, hroot, hpath⟩, hx⟩
  · rintro ⟨x, ⟨root, hroot, hpath⟩, hx⟩
    exact ⟨root, hroot, x, hpath, hx⟩

/-! ### Merging -/

section Merging

variable {c t u : NodeId} {k : ℕ} {f : NodeId → Option Flaw}

theorem itemsFlaw_append (l m : List Item) :
    itemsFlaw f (l ++ m) = (itemsFlaw f l).or (itemsFlaw f m) :=
  List.findSome?_append

theorem itemsFlaw_singleton (item : Item) : itemsFlaw f [item] = elementFlaw f item.kind := by
  simp [itemsFlaw]

/-- A run has the flaw of its elements, however many there are. -/
theorem itemsFlaw_coalesce (items : List Item) :
    itemsFlaw f (coalesce items).1 = itemsFlaw f items := by
  induction items using List.reverseRecOn with
  | nil => rfl
  | append_singleton items item ih =>
    rw [coalesce_concat, itemsFlaw_append, ← ih]
    cases hm : mergesInto (coalesce items).1 item with
    | true =>
      -- the flaw of the element is counted twice on one side, once on the other
      obtain ⟨init, last, hlast, hk, heq⟩ := pushItem_of_merges hm
      rw [heq, hlast, itemsFlaw_append, itemsFlaw_append, itemsFlaw_singleton, itemsFlaw_singleton,
        itemsFlaw_singleton, hk, Option.or_assoc, Option.or_self]
    | false =>
      dsimp only
      rw [pushItem_of_not_merges hm, itemsFlaw_append]

/-- An item that links to a struct has the flaw of the items of the struct. -/
theorem itemsFlaw_spliced {items inner : List Item} (hk : items[k]? = some ⟨1, .structLink t⟩)
    (hf : f t = itemsFlaw f inner) :
    itemsFlaw f (spliced items inner k) = itemsFlaw f items := by
  have hlink : itemsFlaw f [⟨1, .structLink t⟩] = itemsFlaw f inner := by
    rw [itemsFlaw_singleton]
    exact hf
  conv_rhs => rw [eq_take_cons_drop hk, ← List.singleton_append]
  rw [spliced, itemsFlaw_append, itemsFlaw_append, itemsFlaw_append, itemsFlaw_append, hlink,
    Option.or_assoc]

theorem itemsFlaw_relink (c : NodeId) (items : List Item) :
    itemsFlaw f (items.map (Inlining.relink c)) = itemsFlaw f items := by
  rw [itemsFlaw, List.findSome?_map]
  refine findSome?_congr_of_mem fun item _ => ?_
  show elementFlaw f (Inlining.relink c item).kind = elementFlaw f item.kind
  cases hl : item.kind.link? with
  | none => rw [relink_of_link?_eq_none c hl]
  | some t =>
    have hlink := (link?_relink c item).trans hl
    have hfun {e : Element} (he : e.link? = some t) : e ≠ .function := fun hk => by
      simp [hk, Element.link?] at he
    rw [elementFlaw, elementFlaw, if_neg (hfun hlink), if_neg (hfun hl), hlink, hl]

/-- A node keeps its flaw if its items do and the rest of it stays. -/
theorem nodeFlaw_eq {n n' : Node} (hk : n'.kind = n.kind) (hm : n'.members = n.members)
    (hempty : n'.items = [] ↔ n.items = []) (hi : itemsFlaw f n'.items = itemsFlaw f n.items) :
    nodeFlaw f n' = nodeFlaw f n := by
  unfold nodeFlaw Node.isUnion
  rw [hk, hm, hi]
  by_cases h : n.items = []
  · rw [if_pos h, if_pos (hempty.mpr h)]
  · rw [if_neg h, if_neg fun h' => h (hempty.mp h')]

theorem Splices.flaw_eq (h : g.Splices c t k) : (g.splice c k t).flaw = g.flaw := by
  -- the old flaws solve the equations of the new graph, which have one solution
  refine h.settled_splice.flaw_unique fun id => (h.settled.flaw_eq id).trans ?_
  rw [h.node id]
  refine Eq.symm (nodeFlaw_eq (by rfl) (by rfl) ?_ ?_)
  · show (if id = c then _ else _) = [] ↔ _
    split
    · rename_i hid
      subst hid
      have hspliced : spliced (g.node id).items (g.node t).items k ≠ [] := by
        simp [spliced, h.filled]
      exact iff_of_false (coalesce_ne_nil hspliced) (List.ne_nil_of_mem h.mem)
    · rfl
  · show itemsFlaw g.flaw (if id = c then _ else _) = _
    split
    · rename_i hid
      subst hid
      have hstruct : (g.node t).isUnion = false := by simp [Node.isUnion, h.leads.1]
      have ht : g.flaw t = itemsFlaw g.flaw (g.node t).items := by
        rw [h.settled.flaw_eq t, nodeFlaw, hstruct, if_neg h.filled]
        rfl
      exact (itemsFlaw_coalesce _).trans (itemsFlaw_spliced h.item ht)
    · rfl

theorem Adopts.flaw_eq (h : g.Adopts c u) : (Inlining.adopt g c u).flaw = g.flaw := by
  refine h.settled_adopt.flaw_unique fun id => (h.settled.flaw_eq id).trans ?_
  rw [h.node id]
  rcases eq_or_ne id c with rfl | hne
  · -- The struct has the flaw of its only item, and becomes that item.
    have hstruct : (g.node id).isUnion = false := by simp [Node.isUnion, h.kind]
    have hunion : (g.node u).isUnion = true := by simp [Node.isUnion, h.leads.1]
    have hold : nodeFlaw g.flaw (g.node id) = g.flaw u := by
      rw [nodeFlaw, hstruct, h.items]
      simp [itemsFlaw, elementFlaw, Element.link?]
    rw [hold, h.settled.flaw_eq u, nodeFlaw, hunion]
    simp [nodeFlaw, Node.isUnion]
  · simp only [hne, if_false]
    refine Eq.symm (nodeFlaw_eq (by rfl) (by rfl) ?_ (itemsFlaw_relink c _))
    exact List.map_eq_nil_iff

/-- **A step of merging changes no flaw.** -/
theorem Settled.flaw_merge (h : g.Settled) (hm : g.Merge g') : g'.flaw = g.flaw := by
  cases hm with
  | splice hc ht hi hne hl => exact Splices.flaw_eq ⟨h, hc, ht, hi, hne⟩
  | adopt hc hu hk hi hlen hal => exact Adopts.flaw_eq ⟨h, hc, hu, hk, hi, hlen, hal⟩

theorem Settled.flaw_merges (h : g.Settled) (hm : Relation.ReflTransGen Merge g g') :
    g'.flaw = g.flaw := by
  induction hm with
  | refl => rfl
  | tail hbefore hstep ih => exact ((h.merges hbefore).flaw_merge hstep).trans ih

end Merging

end Graph

/-! ### The pass -/

namespace Session

variable {g : Graph} {s s' : Session} {id : NodeId}

/-- The first flaw of what is requested. -/
def flaw (s : Session) : Option Flaw := s.requested.findSome? s.graph.flaw

theorem Resolved.reports_assignOffsets (h : s.Resolved) :
    Ends s.flaw (fun _ => True) s.assignOffsets := by
  obtain ⟨order, hw⟩ := h.exists_walk
  exact (h.layout_ends hw).imp fun _ _ => trivial

/-- **The layout fails exactly if a node that is needed is flawed.** -/
theorem Resolved.fails_iff (h : s.Resolved) : (∃ fault, s.assignOffsets.2 = .error fault) ↔
    ∃ id, s.graph.Needs s.requested id ∧ (s.graph.node id).Flawed := by
  rw [← h.serves.settled.findSome?_flaw_iff]
  have hreports := h.reports_assignOffsets
  cases hr : s.assignOffsets.2 with
  | error fault =>
    rw [Ends, hr] at hreports
    exact ⟨fun _ => hreports.1, fun _ => ⟨fault, rfl⟩⟩
  | ok _ =>
    rw [Ends, hr] at hreports
    exact ⟨fun ⟨_, h⟩ => by simp at h, fun h => absurd hreports.1 h⟩

theorem Resolved.fails_over_iff (h : s.Resolved) (x : Flaw) :
    (∃ line e, s.assignOffsets.2 = .error (line, e) ∧ e.flaw? = some x) ↔ s.flaw = some x := by
  have hreports := h.reports_assignOffsets
  cases hr : s.assignOffsets.2 with
  | error fault =>
    rw [Ends, hr] at hreports
    constructor
    · rintro ⟨line, e, heq, hx⟩
      obtain rfl := Except.error.inj heq
      exact hreports.2.symm.trans hx
    · exact fun hx => ⟨fault.1, fault.2, rfl, hreports.2.trans hx⟩
  | ok _ =>
    rw [Ends, hr] at hreports
    constructor
    · rintro ⟨line, e, heq, -⟩
      simp at heq
    · intro hx
      cases hreports.1.symm.trans hx

theorem Resolved.flaw_inlineStructs (h : s.Resolved) : s.inlineStructs.1.flaw = s.flaw := by
  rw [flaw, requested_inlineStructs, graph_inlineStructs,
    h.serves.settled.flaw_merges s.graph.merges_inlineStructs, flaw]

end Session

theorem LayoutError.flaw?_eq_empty_iff : e.flaw? = some .empty ↔ ∃ name, e = .emptyType name := by
  cases e <;> simp [flaw?]

theorem LayoutError.flaw?_eq_function_iff :
    e.flaw? = some .function ↔ ∃ name, e = .poisonedFunction name := by
  cases e <;> simp [flaw?]

namespace Session

/-- **The layout fails exactly on what cannot be described, merged or not.** After any sources
have been read and all requested names have been found, laying the session out fails if and
only if a node that is needed is a union without members, another node without items, or has a
function among its items. The same is true once structs have been merged. There is such a node
before merging exactly if there is one afterwards; and the two layouts fail for the same
reason, an empty type or a function. -/
theorem layout_fails_iff (names : Names) (keys : KeyList) (target : Target)
    (sources : List (Evaluator × String × ℕ)) {s : Session}
    (h : ((start names keys target).readAll sources).resolveKeys = (s, .ok ())) :
    let merged := s.inlineStructs.1
    ((∃ fault, s.assignOffsets.2 = .error fault) ↔
      ∃ id, s.graph.Needs s.requested id ∧ (s.graph.node id).Flawed) ∧
    ((∃ fault, merged.assignOffsets.2 = .error fault) ↔
      ∃ id, merged.graph.Needs merged.requested id ∧ (merged.graph.node id).Flawed) ∧
    ((∃ id, s.graph.Needs s.requested id ∧ (s.graph.node id).Flawed) ↔
      ∃ id, merged.graph.Needs merged.requested id ∧ (merged.graph.node id).Flawed) ∧
    ((∃ line name, s.assignOffsets.2 = .error (line, .emptyType name)) ↔
      ∃ line name, merged.assignOffsets.2 = .error (line, .emptyType name)) ∧
    ((∃ line name, s.assignOffsets.2 = .error (line, .poisonedFunction name)) ↔
      ∃ line name, merged.assignOffsets.2 = .error (line, .poisonedFunction name)) := by
  intro merged
  have hs : s.Resolved := ((idle_start names keys target).readAll sources).toFresh.resolved h
  have hmerged : merged.Resolved := hs.inlineStructs
  have hflaw : merged.flaw = s.flaw := hs.flaw_inlineStructs
  have hempty {s : Session} (h : s.Resolved) :
      (∃ line name, s.assignOffsets.2 = .error (line, .emptyType name)) ↔ s.flaw = some .empty := by
    rw [← h.fails_over_iff]
    simp [LayoutError.flaw?_eq_empty_iff]
  have hfunction {s : Session} (h : s.Resolved) :
      (∃ line name, s.assignOffsets.2 = .error (line, .poisonedFunction name)) ↔
        s.flaw = some .function := by
    rw [← h.fails_over_iff]
    simp [LayoutError.flaw?_eq_function_iff]
  refine ⟨hs.fails_iff, hmerged.fails_iff, ?_, ?_, ?_⟩
  · rw [← hs.serves.settled.findSome?_flaw_iff, ← hmerged.serves.settled.findSome?_flaw_iff]
    exact not_congr (by rw [← flaw, ← flaw, hflaw])
  · rw [hempty hs, hempty hmerged, hflaw]
  · rw [hfunction hs, hfunction hmerged, hflaw]

/-- A function in a struct that is merged into the requested one. -/
theorem layout_fails_iff_function :
    let key := KeyList.makeKey {} .struct "outer" 1
    let source := "struct inner { int n; int f(int); }; struct outer { char c; struct inner i; };"
    let read := (start key.2 ⟨[key.1]⟩ .standard).readAll [(fun _ => .error .noCompiler, source, 1)]
    ∃ s, read.resolveKeys = (s, .ok ()) ∧ s.inlineStructs.2.inlined = 1 ∧
      (∃ line name, s.assignOffsets.2 = .error (line, .poisonedFunction name)) ∧
      (∃ line name, s.inlineStructs.1.assignOffsets.2 = .error (line, .poisonedFunction name)) ∧
      ∃ id, s.inlineStructs.1.graph.Needs s.inlineStructs.1.requested id ∧
        (s.inlineStructs.1.graph.node id).Flawed := by
  intro key source read
  have hok : read.resolveKeys.2 = .ok () := by decide +kernel
  have hresolved : read.resolveKeys = (read.resolveKeys.1, .ok ()) := Prod.ext rfl hok
  have hfails : read.resolveKeys.1.assignOffsets.2 =
      .error (1, .poisonedFunction "inner") := by decide +kernel
  have hiff := layout_fails_iff key.2 ⟨[key.1]⟩ .standard _ hresolved
  exact ⟨_, hresolved, by decide +kernel, ⟨_, _, hfails⟩, hiff.2.2.2.2.mp ⟨_, _, hfails⟩,
    hiff.2.2.1.mp (hiff.1.mp ⟨_, hfails⟩)⟩

end Session

end TypeLayout
