import TypeLayout.Proofs.Emitting

/-!
# Reading a table back

A converter sees nothing but the cells. It starts at an offset, reads a size and then
field after field, and where a field is a struct it goes on at the offset that stands
after it (`unfoldTo`). What it should find is the tree of the items of a node, with the
tree of the target in place of a link to a struct, and the slot and the alignment in place
of a link to a union (`Graph.tree`).

All references lead back, to the start of a record. So the reading ends, and it finds the
tree.
-/

namespace TypeLayout

open List

/-! ### Trees -/

/-- Where a field leads. -/
inductive Branch (α : Type) where
  /-- The field is a scalar. -/
  | none
  | struct (target : α)
  | union (index align : ℕ)

/-- A field: how many elements, their letter, and where it leads. -/
structure FieldOf (α : Type) where
  count : ℕ
  code : Char
  branch : Branch α

/-- A type as a converter sees it. A union has no fields of its own. -/
inductive Tree where
  | node (length : ℕ) (fields : List (FieldOf Tree))

namespace Graph

/-- The places that the nodes have been given. -/
def places (g : Graph) : Places :=
  ⟨fun id => ((g.node id).offset).getD 0, fun id => ((g.node id).jump).getD 0⟩

/-- Where an element leads, if the trees of structs are known. -/
def branch (g : Graph) (p : Places) (sub : NodeId → Tree) : Element → Branch Tree
  | .structLink t => .struct (sub t)
  | .unionLink t => .union (p.jump t) (g.node t).align
  | _ => .none

/-- The fields of items, if the trees of structs are known. -/
def fields (g : Graph) (p : Places) (sub : NodeId → Tree) (items : List Item) :
    List (FieldOf Tree) :=
  items.map fun item => ⟨item.count, item.kind.code, g.branch p sub item.kind⟩

/-- The tree of a node, if the trees of structs are known. -/
def nodeTree (g : Graph) (p : Places) (sub : NodeId → Tree) (n : Node) : Tree :=
  .node n.length (if n.isUnion then [] else g.fields p sub n.items)

/-- **The item tree of a node.** -/
def tree (g : Graph) : NodeId → Tree := g.follow (g.nodeTree g.places) (.node 0 [])

theorem local_nodeTree (g : Graph) (p : Places) : Local (g.nodeTree p) := by
  intro n f f' h
  unfold Node.children at h
  unfold nodeTree
  split
  · rfl
  · rename_i hu
    rw [if_neg hu] at h
    refine congrArg _ (map_congr_left fun item hi => ?_)
    cases hk : item.kind with
    | structLink t =>
      rw [branch, branch, h t (List.mem_filterMap.mpr ⟨item, hi, by rw [hk]; rfl⟩)]
    | _ => rfl

end Graph

/-! ### Reading -/

/-- A field and those after it, unless it is the last one. -/
def addField (field : FieldOf Tree) (last : Bool) (more : Option (List (FieldOf Tree))) :
    Option (List (FieldOf Tree)) :=
  if last then some [field] else more.map (field :: ·)

/-- Reads the fields of a record up to the last one, if structs can be read. -/
def readFields (sub : ℕ → Option Tree) : List Cell → Option (List (FieldOf Tree))
  | .field count code last :: rest =>
    if code = 's' then
      match rest with
      | .structRef offset :: rest =>
        (sub offset).bind fun t => addField ⟨count, code, .struct t⟩ last (readFields sub rest)
      | _ => none
    else if code = 'u' then
      match rest with
      | .unionRef index align :: rest =>
        addField ⟨count, code, .union index align⟩ last (readFields sub rest)
      | _ => none
    else addField ⟨count, code, .none⟩ last (readFields sub rest)
  | _ => none

/-- Reads the record at the front of cells. A size that no field follows is that of a
union. -/
def readRecord (sub : ℕ → Option Tree) : List Cell → Option Tree
  | .length n :: .field count code last :: rest =>
    (readFields sub (.field count code last :: rest)).map (.node n)
  | .length n :: _ => some (.node n [])
  | _ => none

/-- Reads the record at an offset, following references to a depth. -/
def unfoldTo (cells : List Cell) : ℕ → ℕ → Option Tree
  | 0, _ => none
  | depth + 1, offset => readRecord (unfoldTo cells depth) (cells.drop offset)

/-! ### Reading what was written -/

section Read

variable {g : Graph} {p : Places} {sub : ℕ → Option Tree} {tr : NodeId → Tree} {items : List Item}

theorem readFields_scalar (sub : ℕ → Option Tree) (count : ℕ) {code : Char} (last : Bool)
    (hs : code ≠ 's') (hu : code ≠ 'u') (rest : List Cell) :
    readFields sub (.field count code last :: rest) =
      addField ⟨count, code, .none⟩ last (readFields sub rest) := by
  rw [readFields.eq_def]
  simp only [if_neg hs, if_neg hu]

theorem addField_isEmpty (item : Item) {fields : Option (List (FieldOf Tree))}
    (h : items ≠ [] → fields = some (g.fields p tr items)) :
    addField ⟨item.count, item.kind.code, g.branch p tr item.kind⟩ items.isEmpty fields =
      some (g.fields p tr (item :: items)) := by
  cases items with
  | nil => rfl
  | cons x items => rw [h (by simp)]; rfl

/-- The fields of a record are read as they were written. -/
theorem readFields_fieldCells (hne : items ≠ [])
    (hsub : ∀ t, (∃ item ∈ items, item.kind = .structLink t) → sub (p.offset t) = some (tr t))
    (rest : List Cell) :
    readFields sub (g.fieldCells p items ++ rest) = some (g.fields p tr items) := by
  induction items with
  | nil => exact absurd rfl hne
  | cons item items ih =>
    rw [← addField_isEmpty item fun hne => ih hne fun t ⟨x, hx, hk⟩ =>
      hsub t ⟨x, mem_cons_of_mem _ hx, hk⟩]
    have hlink : ∀ t, item.kind = .structLink t → sub (p.offset t) = some (tr t) := fun t hk =>
      hsub t ⟨item, mem_cons_self, hk⟩
    obtain ⟨count, kind⟩ := item
    cases kind with
    | structLink t =>
      show (sub (p.offset t)).bind _ = _
      rw [hlink t rfl]
      rfl
    | unionLink t => rfl
    | _ => exact readFields_scalar sub count _ (by simp [Element.code]) (by simp [Element.code]) _

/-- A record is read as it was written, whichever record follows. -/
theorem readRecord_record {id : NodeId} (hdesc : g.Describable id)
    (hsub : ∀ t ∈ g.kids id, sub (p.offset t) = some (tr t)) {rest : List Cell}
    (hrest : ∀ c ∈ rest.head?, ∃ n, c = .length n) :
    readRecord sub (g.record p id ++ rest) = some (g.nodeTree p tr (g.node id)) := by
  unfold Graph.record Graph.nodeTree
  cases hu : (g.node id).isUnion with
  | true =>
    cases rest with
    | nil => rfl
    | cons c rest =>
      obtain ⟨n, rfl⟩ := hrest c rfl
      rfl
  | false =>
    rw [Graph.Describable, if_neg (by simp [hu])] at hdesc
    have hread : readFields sub (g.fieldCells p (g.node id).items ++ rest) =
        some (g.fields p tr (g.node id).items) := by
      refine readFields_fieldCells hdesc.1 (fun t ht => hsub t ?_) rest
      obtain ⟨item, hi, hk⟩ := ht
      rw [Graph.kids, Node.children, if_neg (by simp [hu])]
      exact List.mem_filterMap.mpr ⟨item, hi, by rw [hk]; rfl⟩
    obtain ⟨item, items, hitems⟩ := exists_cons_of_ne_nil hdesc.1
    rw [hitems] at hread ⊢
    show (readFields sub _).map _ = _
    exact (congrArg (Option.map (Tree.node (g.node id).length)) hread).trans rfl

end Read

/-! ### Records one after the other -/

namespace Graph

variable {g : Graph} {o : ℕ} {p : Places}

/-- **Records one after the other**: each node that is written stands at its place, after
all that it needs. -/
structure Lined (g : Graph) (p : Places) (order : List NodeId) : Prop where
  above : Above g.kids order
  describable : ∀ id ∈ order, g.Describable id
  offset : ∀ l id r, order = l ++ id :: r → p.offset id = (l.flatMap (g.record p)).length

/-- A cell of records that are put together belongs to one of them. -/
theorem exists_of_getElem?_flatMap {f : NodeId → List Cell} {order : List NodeId} {i : ℕ} {c : Cell}
    (h : (order.flatMap f)[i]? = some c) :
    ∃ l id r j, order = l ++ id :: r ∧ i = (l.flatMap f).length + j ∧ (f id)[j]? = some c := by
  induction order generalizing i with
  | nil => simp at h
  | cons x order ih =>
    rw [flatMap_cons] at h
    by_cases hi : i < (f x).length
    · rw [getElem?_append_left hi] at h
      exact ⟨[], x, order, i, rfl, by simp, h⟩
    · rw [getElem?_append_right (Nat.le_of_not_lt hi)] at h
      obtain ⟨l, id, r, j, hl, hij, hj⟩ := ih h
      refine ⟨x :: l, id, r, j, by rw [hl]; rfl, ?_, hj⟩
      rw [flatMap_cons, length_append]
      omega

theorem mem_fieldCells {items : List Item} (h : Cell.structRef o ∈ g.fieldCells p items) :
    ∃ item ∈ items, ∃ t, item.kind.link? = some t ∧ o = p.offset t := by
  induction items with
  | nil => simp [fieldCells] at h
  | cons item items ih =>
    rw [fieldCells, mem_append, mem_cons] at h
    rcases h with (h | h) | h
    · simp at h
    · refine ⟨item, mem_cons_self, ?_⟩
      cases hk : item.kind <;> rw [hk] at h <;> simp_all [linkCells, Element.link?]
    · obtain ⟨x, hx, ht⟩ := ih h
      exact ⟨x, mem_cons_of_mem _ hx, ht⟩

theorem mem_kids_of_structRef {id : NodeId} (h : Cell.structRef o ∈ g.record p id) :
    ∃ t ∈ g.kids id, o = p.offset t := by
  unfold record at h
  split at h
  · simp at h
  · rename_i hu
    obtain ⟨item, hi, t, ht, ho⟩ := mem_fieldCells ((List.mem_cons.mp h).resolve_left (by simp))
    refine ⟨t, ?_, ho⟩
    rw [kids, Node.children, if_neg hu]
    exact List.mem_filterMap.mpr ⟨item, hi, ht⟩

namespace Lined

variable {g : Graph} {p : Places} {order : List NodeId} (h : g.Lined p order) {id : NodeId}

include h

/-- The record of a node stands at its place. -/
theorem exists_split (hid : id ∈ order) : ∃ (front : List Cell) (r : List NodeId),
    order.flatMap (g.record p) = front ++ (g.record p id ++ r.flatMap (g.record p)) ∧
      front.length = p.offset id := by
  obtain ⟨l, r, hl⟩ := append_of_mem hid
  refine ⟨l.flatMap (g.record p), r, ?_, (h.offset l id r hl).symm⟩
  rw [hl, flatMap_append, flatMap_cons]

theorem drop_offset (hid : id ∈ order) : ∃ r : List NodeId,
    (order.flatMap (g.record p)).drop (p.offset id) =
      g.record p id ++ r.flatMap (g.record p) := by
  obtain ⟨front, r, heq, hlen⟩ := h.exists_split hid
  exact ⟨r, by rw [heq, ← hlen, drop_left]⟩

/-- What a node needs stands in front of it. -/
theorem offset_lt {b : NodeId} (hid : id ∈ order) (hb : b ∈ g.kids id) :
    b ∈ order ∧ p.offset b < p.offset id := by
  obtain ⟨l, r, hl⟩ := append_of_mem hid
  obtain ⟨l₁, l₂, hl₁⟩ := append_of_mem (h.above l id r hl b hb)
  refine ⟨hl ▸ mem_append_left _ (hl₁ ▸ by simp), ?_⟩
  rw [h.offset l id r hl, h.offset l₁ b (l₂ ++ id :: r) (by rw [hl, hl₁]; simp), hl₁,
    flatMap_append, flatMap_cons, length_append, length_append, record,
    length_cons]
  omega

/-- A record begins with the size of its node. -/
theorem getElem?_offset (hid : id ∈ order) :
    (order.flatMap (g.record p))[p.offset id]? = some (.length (g.node id).length) := by
  obtain ⟨front, r, heq, hlen⟩ := h.exists_split hid
  rw [heq, getElem?_append_right hlen.le, hlen, Nat.sub_self]
  rfl

/-- **References lead back to the start of a record.** -/
theorem structRef_lt {i : ℕ} (hi : (order.flatMap (g.record p))[i]? = some (.structRef o)) :
    o < i ∧ ∃ n, (order.flatMap (g.record p))[o]? = some (.length n) := by
  obtain ⟨l, id, r, j, hl, rfl, hj⟩ := exists_of_getElem?_flatMap hi
  obtain ⟨t, ht, rfl⟩ := mem_kids_of_structRef (mem_of_getElem? hj)
  obtain ⟨hmem, hlt⟩ := h.offset_lt (hl ▸ by simp) ht
  rw [h.offset l id r hl] at hlt
  exact ⟨Nat.lt_add_right j hlt, _, h.getElem?_offset hmem⟩

/-- **Unfolding ends and finds the tree of a node**, if trees are given by each other. -/
theorem unfoldTo_eq {tr : NodeId → Tree} (htr : ∀ id, tr id = g.nodeTree p tr (g.node id))
    {depth : ℕ} (hid : id ∈ order) (hd : p.offset id < depth) :
    unfoldTo (order.flatMap (g.record p)) depth (p.offset id) = some (tr id) := by
  induction depth generalizing id with
  | zero => exact absurd hd (Nat.not_lt_zero _)
  | succ depth ih =>
    obtain ⟨r, hr⟩ := h.drop_offset hid
    rw [unfoldTo, hr, htr id]
    refine readRecord_record (h.describable id hid) (fun t ht => ?_) ?_
    · obtain ⟨htmem, hlt⟩ := h.offset_lt hid ht
      exact ih htmem (lt_of_lt_of_le hlt (Nat.le_of_lt_succ hd))
    · cases r with
      | nil => simp
      | cons x r => simp [record]

end Lined

end Graph

/-- **The records of a session that has been laid out stand one after the other.** -/
theorem Session.LaidOut.lined {g : Graph} {order : List NodeId} {s : Session}
    (h : s.LaidOut g order) : g.Lined (g.placesIn order) order where
  above := h.walk.above (above_nil _)
  describable := h.clear
  offset l id r hl := by
    have hnodup : (l ++ id :: r).Nodup := hl ▸ h.nodup
    have hnot : id ∉ l := fun hmem =>
      disjoint_of_nodup_append hnodup hmem mem_cons_self
    rw [Graph.length_records, hl]
    exact congrArg g.cellsOf (Graph.before_concat hnot r)

end TypeLayout
