import TypeLayout.Layout.Offsets
import TypeLayout.Proofs.Requests
import TypeLayout.Proofs.Walk

/-!
# Offsets follow the walk

Assigning offsets leaves the nodes in the order of a depth-first walk from the requested
ones. A node gets the number of cells of all nodes that were left before it, and a union
the number of unions among them (`Session.Laid`).

The pass can fail in two ways only: on a node without content and on a function. Which of the two
it reports is the first one that it comes upon, depth first. `Graph.flaw` says the same without any
marks on nodes: the first flaw in the unfolding of a node, where what a node needs stands in
the place of the link to it. A node that has been placed has no flaw below it, so passing over
it misses nothing, and the pass reports the flaw of the first requested node that has one
(`Session.assignOffsets_ends`). Names are given on the way; the only thing that matters
about them here is that a node keeps its name once it has one.
-/

namespace TypeLayout

open List

/-! ### Places in an order -/

namespace Graph

/-- What a node needs. -/
def kids (g : Graph) (id : NodeId) : List NodeId := (g.node id).children

/-- How many cells the nodes of a list take. -/
def cellsOf (g : Graph) (order : List NodeId) : ℕ := (order.map fun id => (g.node id).cellCount).sum

/-- How many nodes of a list are unions. -/
def unionsOf (g : Graph) (order : List NodeId) : ℕ :=
  (order.map fun id => if (g.node id).isUnion then 1 else 0).sum

/-- The nodes of an order that stand before one of them. -/
def before (order : List NodeId) (id : NodeId) : List NodeId := order.take (order.idxOf id)

/-- The first cell of a node when nodes are written in an order. -/
def offsetIn (g : Graph) (order : List NodeId) (id : NodeId) : ℕ := g.cellsOf (before order id)

/-- The slot of a union when slots are given out in an order. -/
def jumpIn (g : Graph) (order : List NodeId) (id : NodeId) : ℕ := g.unionsOf (before order id)

/-- A node can be described: it has content, and no function in it. -/
def Describable (g : Graph) (id : NodeId) : Prop :=
  if (g.node id).isUnion then (g.node id).members ≠ []
  else (g.node id).items ≠ [] ∧ ∀ item ∈ (g.node id).items, item.kind ≠ .function

variable {g : Graph} {order : List NodeId} {id x : NodeId}

theorem before_append_of_mem (m : List NodeId) (h : id ∈ order) :
    before (order ++ m) id = before order id := by
  rw [before, idxOf_append_of_mem h, take_append_of_le_length idxOf_le_length]
  rfl

theorem before_concat (h : id ∉ order) (m : List NodeId) : before (order ++ id :: m) id = order := by
  rw [before, idxOf_append_of_notMem h, idxOf_cons_self, Nat.add_zero]
  exact take_left

theorem cellsOf_append (g : Graph) (l m : List NodeId) :
    g.cellsOf (l ++ m) = g.cellsOf l + g.cellsOf m := by
  simp [cellsOf]

theorem unionsOf_append (g : Graph) (l m : List NodeId) :
    g.unionsOf (l ++ m) = g.unionsOf l + g.unionsOf m := by
  simp [unionsOf]

theorem unionsOf_eq_length (g : Graph) (order : List NodeId) :
    g.unionsOf order = (order.filter fun id => (g.node id).isUnion).length := by
  induction order with
  | nil => rfl
  | cons x order ih =>
    rw [filter_cons, ← singleton_append, unionsOf_append, ih]
    cases hu : (g.node x).isUnion <;> simp [unionsOf, hu, Nat.add_comm]

/-- **Slots count the unions of an order.** -/
theorem map_jumpIn (g : Graph) (hn : order.Nodup) :
    (order.filter fun id => (g.node id).isUnion).map (g.jumpIn order) =
      List.range (g.unionsOf order) := by
  induction order using List.reverseRecOn with
  | nil => rfl
  | append_singleton order x ih =>
    obtain ⟨hinit, -, hdisjoint⟩ := List.nodup_append.mp hn
    have hx : x ∉ order := fun hmem => hdisjoint x hmem x (by simp) rfl
    have hold : (order.filter fun id => (g.node id).isUnion).map (g.jumpIn (order ++ [x])) =
        List.range (g.unionsOf order) := by
      rw [← ih hinit]
      refine map_congr_left fun id hid => ?_
      rw [jumpIn, jumpIn, before_append_of_mem [x] (mem_of_mem_filter hid)]
    have hlast : g.jumpIn (order ++ [x]) x = g.unionsOf order := by
      rw [jumpIn, before_concat hx []]
    rw [filter_append, map_append, hold, unionsOf_append]
    cases hu : (g.node x).isUnion <;> simp [unionsOf, hu, hlast, range_succ]

/-- The slot of a union is its place among the unions of an order. -/
theorem getElem?_unions (g : Graph) (hn : order.Nodup) {j : ℕ} :
    (order.filter fun id => (g.node id).isUnion)[j]? = some id ↔
      id ∈ order ∧ (g.node id).isUnion = true ∧ g.jumpIn order id = j := by
  have hindex {i : ℕ} {x : NodeId}
      (hi : (order.filter fun id => (g.node id).isUnion)[i]? = some x) : g.jumpIn order x = i := by
    have hrange : (List.range (g.unionsOf order))[i]? = some (g.jumpIn order x) := by
      rw [← g.map_jumpIn hn, getElem?_map, hi, Option.map_some]
    obtain ⟨hlt, heq⟩ := List.getElem?_eq_some_iff.mp hrange
    rw [← heq, getElem_range]
  constructor
  · intro hj
    obtain ⟨hmem, hunion⟩ := List.mem_filter.mp (mem_of_getElem? hj)
    exact ⟨hmem, hunion, hindex hj⟩
  · rintro ⟨hmem, hunion, rfl⟩
    have hfilter : id ∈ order.filter fun id => (g.node id).isUnion :=
      List.mem_filter.mpr ⟨hmem, hunion⟩
    obtain ⟨i, hi⟩ := getElem?_of_mem hfilter
    rw [hindex hi]
    exact hi

end Graph

/-! ### Flaws -/

/-- What keeps a node from being described. -/
inductive Flaw where
  /-- There is nothing in it. -/
  | empty
  /-- There is a function in it. -/
  | function
deriving DecidableEq

/-- The flaw that an error is about. -/
def LayoutError.flaw? : LayoutError → Option Flaw
  | .missingKeys _ => none
  | .poisonedFunction _ => some .function
  | .emptyType _ => some .empty

namespace Graph

/-- The first flaw of an element, given those of the nodes. -/
def elementFlaw (flaw : NodeId → Option Flaw) (e : Element) : Option Flaw :=
  if e = .function then some .function else e.link?.bind flaw

/-- The first flaw of items. -/
def itemsFlaw (flaw : NodeId → Option Flaw) (items : List Item) : Option Flaw :=
  items.findSome? fun item => elementFlaw flaw item.kind

/-- The first flaw of a node, given those of the nodes that it needs. -/
def nodeFlaw (flaw : NodeId → Option Flaw) (n : Node) : Option Flaw :=
  if n.isUnion then if n.members = [] then some .empty else n.members.findSome? flaw
  else if n.items = [] then some .empty else itemsFlaw flaw n.items

/-- **The first flaw in the unfolding of a node.** -/
def flaw (g : Graph) : NodeId → Option Flaw := g.follow nodeFlaw none

theorem findSome?_congr_of_mem {α β : Type} {f f' : α → Option β} {l : List α}
    (h : ∀ a ∈ l, f a = f' a) : l.findSome? f = l.findSome? f' := by
  induction l with
  | nil => rfl
  | cons a l ih =>
    rw [findSome?_cons, findSome?_cons, h a mem_cons_self,
      ih fun b hb => h b (mem_cons_of_mem a hb)]

/-- The flaw of a node depends only on those of the nodes that it needs. -/
theorem local_nodeFlaw : Local nodeFlaw := by
  intro n f f' h
  unfold Node.children at h
  unfold nodeFlaw
  split
  · rename_i hu
    rw [if_pos hu] at h
    rw [findSome?_congr_of_mem h]
  · rename_i hu
    rw [if_neg hu] at h
    have hitems : itemsFlaw f n.items = itemsFlaw f' n.items := by
      refine findSome?_congr_of_mem fun item hi => ?_
      unfold elementFlaw
      cases hl : item.kind.link? with
      | none => rfl
      | some t =>
        rw [Option.bind_some, Option.bind_some, h t (List.mem_filterMap.mpr ⟨item, hi, hl⟩)]
    rw [hitems]

variable {g : Graph} {rank : NodeId → ℕ} {id : NodeId}

/-- **The flaw of a node is given by the flaws of what it needs.** -/
theorem Ranked.flaw_eq (hr : g.Ranked rank) (id : NodeId) :
    g.flaw id = nodeFlaw g.flaw (g.node id) :=
  follow_eq local_nodeFlaw hr.lt hr.le_size none id

/-- **A node is without a flaw** if it can be described and all that it needs is without one. -/
theorem Ranked.flaw_eq_none_iff (hr : g.Ranked rank) :
    g.flaw id = none ↔ g.Describable id ∧ ∀ b ∈ g.kids id, g.flaw b = none := by
  rw [hr.flaw_eq, nodeFlaw, Describable, kids, Node.children]
  cases hu : (g.node id).isUnion with
  | true => by_cases hm : (g.node id).members = [] <;> simp [hm]
  | false =>
    by_cases hi : (g.node id).items = []
    · simp [hi]
    · simp only [Bool.false_eq_true, if_false, hi, itemsFlaw, findSome?_eq_none_iff,
        mem_filterMap, ne_eq, not_false_eq_true, true_and]
      constructor
      · intro hall
        refine ⟨fun item hmem hk => ?_, ?_⟩
        · simpa [elementFlaw, hk] using hall item hmem
        · rintro b ⟨item, hmem, hl⟩
          have hfun : item.kind ≠ .function := fun hk => by simp [hk, Element.link?] at hl
          simpa [elementFlaw, hfun, hl] using hall item hmem
      · rintro ⟨hfun, hkids⟩ item hmem
        rw [elementFlaw, if_neg (hfun item hmem)]
        cases hl : item.kind.link? with
        | none => rfl
        | some t => exact hkids t ⟨item, hmem, hl⟩

/-- Where a node and all that it can be followed to can be described, it has no flaw. -/
theorem Ranked.flaw_eq_none_of_closed (hr : g.Ranked rank) {P : NodeId → Prop}
    (hkids : ∀ x, P x → ∀ b ∈ g.kids x, P b) (hd : ∀ x, P x → g.Describable x) (h : P id) :
    g.flaw id = none := by
  -- what a node needs has a smaller rank
  induction hn : rank id using Nat.strong_induction_on generalizing id with
  | h n ih =>
    refine hr.flaw_eq_none_iff.mpr ⟨hd id h, fun b hb => ?_⟩
    exact ih (rank b) (hn ▸ hr.lt id b hb) (hkids id h b hb) rfl

end Graph

/-! ### What the pass leaves alone -/

/-- The fields of a node that say what type it is. -/
structure Node.Shape (n n' : Node) : Prop where
  kind : n'.kind = n.kind
  items : n'.items = n.items
  members : n'.members = n.members
  length : n'.length = n.length
  align : n'.align = n.align

namespace Node.Shape

variable {n n' n'' : Node}

theorem refl (n : Node) : n.Shape n := ⟨rfl, rfl, rfl, rfl, rfl⟩

theorem trans (h : n.Shape n') (h' : n'.Shape n'') : n.Shape n'' :=
  ⟨h'.kind.trans h.kind, h'.items.trans h.items, h'.members.trans h.members,
    h'.length.trans h.length, h'.align.trans h.align⟩

theorem symm (h : n.Shape n') : n'.Shape n :=
  ⟨h.kind.symm, h.items.symm, h.members.symm, h.length.symm, h.align.symm⟩

theorem isUnion (h : n.Shape n') : n'.isUnion = n.isUnion := by simp only [Node.isUnion, h.kind]

theorem cellCount (h : n.Shape n') : n'.cellCount = n.cellCount := by
  simp only [Node.cellCount, h.isUnion, h.items]

theorem children (h : n.Shape n') : n'.children = n.children := by
  simp only [Node.children, h.isUnion, h.items, h.members]

end Node.Shape

namespace Session

variable {flaw : Option Flaw} {r : Session × Except LayoutFault Unit}

/-- **A session in which the nodes of a list have been placed**, in the order of the
list, and no others. None of them has a flaw. -/
structure Laid (g : Graph) (order : List NodeId) (s : Session) : Prop where
  target : s.graph.target = g.target
  size : s.graph.size = g.size
  shape : ∀ id, (g.node id).Shape (s.graph.node id)
  emitted : ∀ id, (s.graph.node id).emitted = false
  offset : ∀ id, (s.graph.node id).offset = if id ∈ order then some (g.offsetIn order id) else none
  jump : ∀ id, (s.graph.node id).jump =
    if id ∈ order ∧ (g.node id).isUnion = true then some (g.jumpIn order id) else none
  nextOffset : s.nextOffset = g.cellsOf order
  nextJump : s.nextJump = g.unionsOf order
  named : ∀ id ∈ order, (s.graph.node id).name.isSome = true
  flawless : ∀ id ∈ order, g.flaw id = none

/-- Nodes keep their names, once they have one, and the requested names stay. -/
structure Keeps (s s' : Session) : Prop where
  named : ∀ id, (s.graph.node id).name.isSome = true → (s'.graph.node id).name.isSome = true
  keys : s'.keys = s.keys

variable {g : Graph} {order : List NodeId} {s s' s'' : Session} {id : NodeId}

theorem Keeps.refl (s : Session) : s.Keeps s := ⟨fun _ h => h, rfl⟩

theorem Keeps.trans (h : s.Keeps s') (h' : s'.Keeps s'') : s.Keeps s'' :=
  ⟨fun id hid => h'.named id (h.named id hid), h'.keys.trans h.keys⟩

/-- Giving a node a name changes nothing else. -/
theorem Laid.rename (h : Laid g order s) {f : Node → Node}
    (hf : ∀ n : Node, n.Shape (f n) ∧ (f n).emitted = n.emitted ∧ (f n).offset = n.offset ∧
      (f n).jump = n.jump ∧ (f n).name.isSome = true)
    (hg : s'.graph = s.graph.modify id f) (ho : s'.nextOffset = s.nextOffset)
    (hj : s'.nextJump = s.nextJump) (hk : s'.keys = s.keys) : Laid g order s' ∧ s.Keeps s' := by
  have hname (x : NodeId) (hx : (s.graph.node x).name.isSome = true) :
      (s'.graph.node x).name.isSome = true := by
    rw [hg, Graph.node_modify]
    split
    · exact (hf _).2.2.2.2
    · exact hx
  refine ⟨⟨?_, ?_, fun x => ?_, fun x => ?_, fun x => ?_, fun x => ?_, ?_, ?_, fun x hx => ?_,
    h.flawless⟩, hname, hk⟩
  · rw [hg]
    exact h.target
  · rw [hg, Graph.size_modify]
    exact h.size
  · refine (h.shape x).trans ?_
    rw [hg, Graph.node_modify]
    split
    · exact (hf _).1
    · exact .refl _
  · rw [hg, Graph.node_modify_field f Node.emitted fun n => (hf n).2.1]
    exact h.emitted x
  · rw [hg, Graph.node_modify_field f Node.offset fun n => (hf n).2.2.1]
    exact h.offset x
  · rw [hg, Graph.node_modify_field f Node.jump fun n => (hf n).2.2.2.1]
    exact h.jump x
  · rw [ho]
    exact h.nextOffset
  · rw [hj]
    exact h.nextJump
  · exact hname x (h.named x hx)

theorem nameOf_spec (h : Laid g order s) (hid : id < g.size) (parent : Option NameId) :
    Laid g order (s.nameOf id parent).2 ∧ s.Keeps (s.nameOf id parent).2 ∧
      ((s.nameOf id parent).2.graph.node id).name.isSome = true := by
  unfold nameOf
  dsimp only
  split
  · rename_i name hname
    exact ⟨h, .refl s, by simp [hname]⟩
  · refine and_assoc.mp ⟨h.rename (f := fun n => { n with name := some (s.intern _).1, renamed := true })
      (fun n => ⟨⟨rfl, rfl, rfl, rfl, rfl⟩, rfl, rfl, rfl, rfl⟩) rfl rfl rfl rfl, ?_⟩
    show ((s.graph.modify id _).node id).name.isSome = true
    rw [Graph.node_modify_self _ (by rw [h.size]; exact hid)]
    rfl

theorem renameMember_spec (h : Laid g order s) (union : NameId) (member : NodeId) (i : ℕ) :
    Laid g order (s.renameMember union member i) ∧ s.Keeps (s.renameMember union member i) := by
  unfold renameMember
  split
  · exact ⟨h, .refl s⟩
  · exact h.rename (f := fun n => { n with name := some (s.intern _).1, renamed := true })
      (fun n => ⟨⟨rfl, rfl, rfl, rfl, rfl⟩, rfl, rfl, rfl, rfl⟩) rfl rfl rfl rfl

/-! ### Leaving a node -/

/-- A node that is left takes the next cells, and the next slot if it is a union. -/
theorem Laid.leave (h : Laid g order s) (hnot : id ∉ order) (hflaw : g.flaw id = none)
    (hname : (s.graph.node id).name.isSome = true) (ht : s'.graph.target = s.graph.target)
    (hsize : s'.graph.size = s.graph.size)
    (hother : ∀ x, x ≠ id → s'.graph.node x = s.graph.node x)
    (hself : s'.graph.node id =
      { s.graph.node id with
        offset := some s.nextOffset
        jump := if (g.node id).isUnion then some s.nextJump else (s.graph.node id).jump })
    (hoff : s'.nextOffset = s.nextOffset + (g.node id).cellCount)
    (hjump : s'.nextJump = s.nextJump + if (g.node id).isUnion then 1 else 0)
    (hkeys : s'.keys = s.keys) : Laid g (order ++ [id]) s' ∧ s.Keeps s' := by
  have hkeeps : s.Keeps s' := by
    refine ⟨fun x hx => ?_, hkeys⟩
    rcases eq_or_ne x id with rfl | hne
    · rw [hself]
      exact hx
    · rw [hother x hne]
      exact hx
  have hcases (x : NodeId) : x = id ∧ x ∉ order ∨
      x ≠ id ∧ (x ∈ order ++ [id] ↔ x ∈ order) ∧ s'.graph.node x = s.graph.node x := by
    rcases eq_or_ne x id with rfl | hne
    · exact Or.inl ⟨rfl, hnot⟩
    · exact Or.inr ⟨hne, by simp [hne], hother x hne⟩
  refine ⟨⟨ht.trans h.target, hsize.trans h.size, fun x => ?_, fun x => ?_, fun x => ?_, fun x => ?_,
    ?_, ?_, fun x hx => ?_, fun x hx => ?_⟩, hkeeps⟩
  · rcases hcases x with ⟨rfl, -⟩ | ⟨-, -, heq⟩
    · rw [hself]
      exact (h.shape x).trans ⟨rfl, rfl, rfl, rfl, rfl⟩
    · rw [heq]
      exact h.shape x
  · rcases hcases x with ⟨rfl, -⟩ | ⟨-, -, heq⟩
    · rw [hself]
      exact h.emitted x
    · rw [heq]
      exact h.emitted x
  · rcases hcases x with ⟨rfl, -⟩ | ⟨-, hmem, heq⟩
    · rw [hself]
      show some s.nextOffset = _
      rw [if_pos (by simp), Graph.offsetIn, Graph.before_concat hnot, h.nextOffset]
    · rw [heq, h.offset x]
      by_cases hx : x ∈ order
      · rw [if_pos hx, if_pos (hmem.mpr hx), Graph.offsetIn, Graph.offsetIn,
          Graph.before_append_of_mem _ hx]
      · rw [if_neg hx, if_neg (fun hx' => hx (hmem.mp hx'))]
  · rcases hcases x with ⟨rfl, -⟩ | ⟨-, hmem, heq⟩
    · rw [hself]
      dsimp only
      by_cases hu : (g.node x).isUnion = true
      · rw [if_pos hu, if_pos ⟨by simp, hu⟩, Graph.jumpIn, Graph.before_concat hnot, h.nextJump]
      · rw [if_neg hu, if_neg (fun hx => hu hx.2), h.jump x, if_neg (fun hx => hu hx.2)]
    · rw [heq, h.jump x]
      by_cases hx : x ∈ order
      · simp only [hx, hmem.mpr hx, true_and, Graph.jumpIn, Graph.before_append_of_mem _ hx]
      · rw [if_neg (fun h' => hx h'.1), if_neg (fun h' => hx (hmem.mp h'.1))]
  · rw [hoff, h.nextOffset, Graph.cellsOf_append]
    simp [Graph.cellsOf]
  · rw [hjump, h.nextJump, Graph.unionsOf_append]
    simp [Graph.unionsOf]
  · rcases hcases x with ⟨rfl, -⟩ | ⟨-, hmem, -⟩
    · exact hkeeps.named x hname
    · exact hkeeps.named x (h.named x (hmem.mp hx))
  · rcases hcases x with ⟨rfl, -⟩ | ⟨-, hmem, -⟩
    · exact hflaw
    · exact h.flawless x (hmem.mp hx)

theorem leave_other (h : Laid g order s) (hid : id < g.size) (hnot : id ∉ order)
    (hflaw : g.flaw id = none)
    (hname : (s.graph.node id).name.isSome = true) (hu : (g.node id).isUnion = false) :
    Laid g (order ++ [id]) (s.assignOffset id) ∧ s.Keeps (s.assignOffset id) := by
  have hlt : id < s.graph.size := by rw [h.size]; exact hid
  refine h.leave hnot hflaw hname rfl (Graph.size_modify _ _ _)
    (fun x hx => Graph.node_modify_of_ne _ hx.symm) ?_ ?_ ?_ rfl
  · simp only [assignOffset, modifyNode, Graph.node_modify_self _ hlt, hu]
    rfl
  · rw [assignOffset, (h.shape id).cellCount]
  · simp [hu, assignOffset, modifyNode]

theorem leave_union (h : Laid g order s) (hid : id < g.size) (hnot : id ∉ order)
    (hflaw : g.flaw id = none)
    (hname : (s.graph.node id).name.isSome = true) (hu : (g.node id).isUnion = true) :
    Laid g (order ++ [id]) ((s.assignJump id).assignOffset id) ∧
      s.Keeps ((s.assignJump id).assignOffset id) := by
  have hlt : id < s.graph.size := by rw [h.size]; exact hid
  have hnone : (s.graph.node id).jump.isSome = false := by simp [h.jump id, hnot]
  have hassign : s.assignJump id = { s with
      graph := s.graph.modify id fun n => { n with jump := some s.nextJump }
      nextJump := s.nextJump + 1 } := by
    simp only [assignJump, hnone, Bool.false_eq_true, if_false, modifyNode]
  rw [hassign]
  refine h.leave hnot hflaw hname rfl ?_ (fun x hx => ?_) ?_ ?_ ?_ rfl
  · simp [assignOffset, modifyNode]
  · simp only [assignOffset, modifyNode]
    rw [Graph.node_modify_of_ne _ hx.symm, Graph.node_modify_of_ne _ hx.symm]
  · simp only [assignOffset, modifyNode]
    rw [Graph.node_modify_self _ (by simpa using hlt), Graph.node_modify_self _ hlt]
    simp [hu]
  · simp only [assignOffset]
    rw [Graph.node_modify_self _ hlt]
    exact congrArg (s.nextOffset + ·) (h.shape id).cellCount
  · simp [hu, assignOffset, modifyNode]

/-! ### The pass -/

/-- How an action ends: it fails over a flaw, if there is one, and otherwise leaves a session
of which something holds. -/
def Ends (flaw : Option Flaw) (Q : Session → Prop) (r : Session × Except LayoutFault Unit) : Prop :=
  match r.2 with
  | .ok () => flaw = none ∧ Q r.1
  | .error fault => flaw ≠ none ∧ fault.2.flaw? = flaw

theorem Ends.imp {Q Q' : Session → Prop} (h : Ends flaw Q r) (hQ : ∀ s, Q s → Q' s) :
    Ends flaw Q' r := by
  obtain ⟨s', r⟩ := r
  cases r with
  | error fault => exact h
  | ok _ => exact ⟨h.1, hQ s' h.2⟩

/-- A loop over elements that each stand for some nodes walks through all of them, up to the
first flaw. -/
theorem forEach_ends {α : Type} {f : Session → α → Session × Except LayoutFault Unit}
    (ids : α → List NodeId) {flaw : α → Option Flaw} {l : List α}
    (hf : ∀ a ∈ l, ∀ s done done', Laid g done s → Walk g.kids done (ids a) done' →
      Ends (flaw a) (fun s' => Laid g done' s' ∧ s.Keeps s') (f s a)) {done done' : List NodeId}
    (hs : Laid g done s) (hw : Walk g.kids done (l.flatMap ids) done') :
    Ends (l.findSome? flaw) (fun s' => Laid g done' s' ∧ s.Keeps s') (s.forEach f l) := by
  induction l generalizing s done with
  | nil =>
    cases hw
    exact ⟨rfl, hs, .refl s⟩
  | cons a l ih =>
    rw [flatMap_cons] at hw
    obtain ⟨mid, hw, hw'⟩ := hw.of_append
    have hone := hf a mem_cons_self s done mid hs hw
    rw [findSome?_cons, forEach]
    cases hr : f s a with
    | mk s' r =>
      rw [hr] at hone
      cases r with
      | error fault =>
        obtain ⟨x, hx⟩ := Option.ne_none_iff_exists'.mp hone.1
        rw [hx] at hone ⊢
        exact hone
      | ok _ =>
        obtain ⟨hnone, hs', hnames⟩ := hone
        rw [hnone]
        exact (ih (fun b hb => hf b (mem_cons_of_mem _ hb)) hs' hw').imp
          fun s'' h => ⟨h.1, hnames.trans h.2⟩

variable {rank : NodeId → ℕ}

/-- A node is left after the loop over what it needs, unless that fails. -/
theorem Ends.leave {mid : List NodeId} {r' : Session × Except LayoutFault Unit}
    {fin : Session → Session} (h : Ends flaw (fun s' => Laid g mid s' ∧ s.Keeps s') r)
    (hfin : flaw = none → ∀ s', Laid g mid s' → s.Keeps s' →
      Laid g (mid ++ [id]) (fin s') ∧ s'.Keeps (fin s'))
    (herr : ∀ s' err, r = (s', .error err) → r' = (s', .error err))
    (hok : ∀ s', r = (s', .ok ()) → r' = (fin s', .ok ())) :
    Ends flaw (fun s' => Laid g (mid ++ [id]) s' ∧ s.Keeps s') r' := by
  obtain ⟨s', r⟩ := r
  cases r with
  | error err =>
    rw [herr s' err rfl]
    exact h
  | ok _ =>
    obtain ⟨hnone, hs', hnames⟩ := h
    obtain ⟨hlaid, hnames'⟩ := hfin hnone s' hs' hnames
    rw [hok s' rfl]
    exact ⟨hnone, hlaid, hnames.trans hnames'⟩

/-- Visits of a depth walk from the nodes of a list. -/
def VisitsEnd (g : Graph) (depth : ℕ) (ids : List NodeId) : Prop :=
  ∀ id ∈ ids, ∀ (s : Session) (parent : Option NameId) (done done' : List NodeId),
    Laid g done s → Walk g.kids done [id] done' →
      Ends (g.flaw id) (fun s' => Laid g done' s' ∧ s.Keeps s') (visit depth s id parent)

variable {depth : ℕ} {done done' : List NodeId}

theorem members_end {members : List NodeId} (hv : VisitsEnd g depth members) {name : NameId}
    {f : Session → NodeId × ℕ → Session × Except LayoutFault Unit}
    (hf : ∀ s p, f s p = visit depth (s.renameMember name p.1 p.2) p.1 (some name))
    (hs : Laid g done s) (hw : Walk g.kids done members done') :
    Ends (members.findSome? g.flaw) (fun s' => Laid g done' s' ∧ s.Keeps s')
      (s.forEach f members.zipIdx) := by
  have hids : (members.zipIdx.flatMap fun p => [p.1]) = members := by
    rw [← map_eq_flatMap, zipIdx_map_fst]
  have hfirst : members.findSome? g.flaw = members.zipIdx.findSome? fun p => g.flaw p.1 := by
    conv_lhs => rw [← zipIdx_map_fst 0 members, findSome?_map]
    rfl
  rw [hfirst]
  refine forEach_ends (fun p => [p.1]) (fun p hp s done done' hs hw => ?_) hs (hids.symm ▸ hw)
  have hmem : p.1 ∈ members := by
    rw [← zipIdx_map_fst 0 members]
    exact mem_map_of_mem hp
  obtain ⟨hs', hnames⟩ := renameMember_spec hs name p.1 p.2
  rw [hf]
  exact (hv p.1 hmem _ (some name) done done' hs' hw).imp fun _ h => ⟨h.1, hnames.trans h.2⟩

theorem items_end {items : List Item} (hv : VisitsEnd g depth (items.filterMap (·.kind.link?)))
    (parent : Option NameId) {f : Session → Item → Session × Except LayoutFault Unit}
    (hfun : ∀ s item, item.kind = .function → ∃ line name, f s item =
      (s, .error (line, .poisonedFunction name)))
    (hlink : ∀ s item t, item.kind.link? = some t → f s item = visit depth s t parent)
    (hscalar : ∀ s item, item.kind ≠ .function → item.kind.link? = none → f s item = (s, .ok ()))
    (hs : Laid g done s) (hw : Walk g.kids done (items.filterMap (·.kind.link?)) done')
    (hr : s.forEach f items = r) :
    Ends (Graph.itemsFlaw g.flaw items) (fun s' => Laid g done' s' ∧ s.Keeps s') r := by
  rw [← hr]
  have hids : (items.flatMap fun item => item.kind.link?.toList) =
      items.filterMap (·.kind.link?) :=
    (filterMap_eq_flatMap_toList (fun item : Item => item.kind.link?) items).symm
  refine forEach_ends (fun item : Item => item.kind.link?.toList)
    (fun item hi s done done' hs hw => ?_) hs (hids.symm ▸ hw)
  by_cases hk : item.kind = .function
  · obtain ⟨line, name, heq⟩ := hfun s item hk
    rw [heq, Graph.elementFlaw, if_pos hk]
    exact ⟨by simp, rfl⟩
  · rw [Graph.elementFlaw, if_neg hk]
    cases hl : item.kind.link? with
    | some t =>
      rw [hl] at hw
      rw [hlink s item t hl]
      exact hv t (List.mem_filterMap.mpr ⟨item, hi, hl⟩) s parent done done' hs hw
    | none =>
      rw [hl] at hw
      cases hw
      rw [hscalar s item hk hl]
      exact ⟨rfl, hs, .refl s⟩

/-- **A visit walks from its node**, if it goes deep enough, and reports the flaw of the node. -/
theorem visit_ends (hr : g.Ranked rank) (hlt : ∀ x, ∀ b ∈ g.kids x, b < g.size)
    (hd : rank id < depth) (hid : id < g.size) (parent : Option NameId) (hs : Laid g done s)
    (hw : Walk g.kids done [id] done') :
    Ends (g.flaw id) (fun s' => Laid g done' s' ∧ s.Keeps s') (visit depth s id parent) := by
  induction depth generalizing id parent s done done' with
  | zero => exact absurd hd (Nat.not_lt_zero _)
  | succ depth ih =>
    have hkids : VisitsEnd g depth (g.kids id) := fun b hb s parent done done' hs hw =>
      ih (lt_of_lt_of_le (hr.lt id b hb) (Nat.le_of_lt_succ hd)) (hlt id b hb) parent hs hw
    unfold visit
    cases hw with
    | seen hmem hw =>
      cases hw
      rw [if_pos (by simp [hs.offset id, hmem])]
      exact ⟨hs.flawless id hmem, hs, .refl s⟩
    | @fresh _ _ _ mid _ hnot hin hw =>
      cases hw
      rw [if_neg (by simp [hs.offset id, hnot])]
      obtain ⟨hs₁, hnames₁, hname⟩ := nameOf_spec hs hid parent
      dsimp only
      generalize s.nameOf id parent = r at *
      obtain ⟨name, s₁⟩ := r
      dsimp only at *
      have hmid : id ∉ mid := hin.not_mem_of_kids hr.lt hnot
      have hshape := hs₁.shape id
      have hflaw := hr.flaw_eq id
      refine Ends.imp (Q := fun s' => Laid g (mid ++ [id]) s' ∧ s₁.Keeps s') ?_
        fun s' h => ⟨h.1, hnames₁.trans h.2⟩
      rw [hshape.isUnion]
      cases hu : (g.node id).isUnion with
      | true =>
        rw [Graph.nodeFlaw, if_pos hu] at hflaw
        rw [Graph.kids, Node.children, if_pos hu] at hkids hin
        rw [hshape.members, if_pos rfl]
        by_cases hempty : (g.node id).members = []
        · rw [if_pos (List.isEmpty_iff.mpr hempty), hflaw, if_pos hempty]
          exact ⟨by simp, rfl⟩
        · rw [if_neg fun h => hempty (List.isEmpty_iff.mp h)]
          rw [if_neg hempty] at hflaw
          refine Ends.leave (hflaw ▸ members_end hkids (fun _ _ => rfl) hs₁ hin)
            (fun hnone s' hs' hnames =>
              leave_union hs' hid hmid hnone (hnames.named id hname) hu)
            (fun s' err h => by rw [h]) (fun s' h => by rw [h])
      | false =>
        rw [Graph.nodeFlaw, if_neg (by simp [hu])] at hflaw
        rw [Graph.kids, Node.children, if_neg (by simp [hu])] at hkids hin
        rw [hshape.items, if_neg (by simp)]
        by_cases hempty : (g.node id).items = []
        · rw [if_pos (List.isEmpty_iff.mpr hempty), hflaw, if_pos hempty]
          exact ⟨by simp, rfl⟩
        · rw [if_neg fun h => hempty (List.isEmpty_iff.mp h)]
          rw [if_neg hempty] at hflaw
          generalize hloop : s₁.forEach _ (g.node id).items = r
          refine Ends.leave (hflaw ▸ items_end hkids (some name) (fun s item hk => ?_)
            (fun s item t hl => ?_) (fun s item hk hl => ?_) hs₁ hin hloop)
            (fun hnone s' hs' hnames =>
              leave_other hs' hid hmid hnone (hnames.named id hname) hu)
            (fun s' err h => by rw [h]) (fun s' h => by rw [h])
          · simp only [hk]
            exact ⟨_, _, rfl⟩
          · cases hk : item.kind <;> simp_all [Element.link?]
          · cases hk : item.kind <;> simp_all [Element.link?]

theorem Laid.note (h : Laid g order s) (n : Notice) : Laid g order (s.note n) :=
  ⟨h.target, h.size, h.shape, h.emitted, h.offset, h.jump, h.nextOffset, h.nextJump, h.named,
    h.flawless⟩

/-- **Assigning offsets follows the walk from the requested nodes**, and fails exactly over the
first flaw of them. -/
theorem assignOffsets_ends (hr : g.Ranked rank) (hlt : ∀ x, ∀ b ∈ g.kids x, b < g.size)
    (hs : Laid g done s) (hroots : ∀ id ∈ s.requested, (g.node id).isDefined = true)
    (hw : Walk g.kids done s.requested order) :
    Ends (s.requested.findSome? g.flaw) (fun s' => Laid g order s' ∧ s'.keys = s.keys)
      s.assignOffsets := by
  have hids : (s.requested.flatMap fun id => [id]) = s.requested := flatMap_singleton' _
  have hloop := forEach_ends (fun id => [id])
    (f := fun s root => visit s.graph.size s root none) (l := s.requested)
    (fun id hid s done done' hs hw => visit_ends hr hlt
      (hs.size ▸ hr.lt_size id (hroots id hid)) (Graph.lt_size_of_isDefined (hroots id hid)) none
      hs hw) hs (hids.symm ▸ hw)
  unfold assignOffsets
  rw [show s.keys.keys.filterMap (·.node) = s.requested from rfl]
  dsimp only
  generalize s.forEach _ s.requested = r at hloop ⊢
  obtain ⟨s', r⟩ := r
  cases r with
  | error err => exact hloop
  | ok _ => exact ⟨hloop.1, hloop.2.1.note _, hloop.2.2.keys⟩

end Session

end TypeLayout
