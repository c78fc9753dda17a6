import TypeLayout.Proofs.C.Clauses
import TypeLayout.Proofs.C.Numerals
import TypeLayout.Proofs.Naming

/-!
# Items that stand for types

A type is represented in a graph by an item: as many elements as the type has, each a scalar
or a link to the node of a body. `nodes` lists the nodes of the bodies by their numbers.
`Ty.Stands` says that an element is right for a type, in its size and alignment too, and
`BodyAt` that a node is right for a struct or union with all of its fields. Sizes are right as far
as they fit into 64 bits: nothing is said about the size of a type that is too large.

Whatever is right stays right while defined nodes are left alone (`Graph.Preserves`). The
result of this file is that a declarator of a known type gives the item that stands for what
it declares (`itemFor_of_fits`).
-/

namespace TypeLayout

variable {g g' : Graph}

/-- **What has been defined is left alone**, and what stands for a single item keeps it. -/
structure Graph.Preserves (g g' : Graph) : Prop where
  target : g'.target = g.target
  defined : ∀ id, (g.node id).isDefined = true → (g.node id).Same (g'.node id)
  single : ∀ id < g.size,
    (g.node id).kind = .base ∨ (g.node id).kind = .enum ∨ (g.node id).kind = .typedef →
      (g'.node id).kind = (g.node id).kind ∧ (g'.node id).items = (g.node id).items

/-- A change that touches only a node that is not defined, and no item of it that stands for
the whole node. -/
theorem Graph.Touches.preserves {touched : Option NodeId} (h : Touches touched g g')
    (ht : ∀ id < g.size, touched = some id → (g.node id).isDefined = false ∧
      ((g.node id).kind = .struct ∨ (g.node id).kind = .union ∨
        (g'.node id).kind = (g.node id).kind ∧ (g'.node id).items = (g.node id).items)) :
    g.Preserves g' where
  target := h.target
  defined id hid := h.same id (lt_size_of_isDefined hid) fun he => by
    simp [(ht id (lt_size_of_isDefined hid) he).1] at hid
  single id hlt hk := by
    by_cases he : touched = some id
    · rcases (ht id hlt he).2 with hs | hs | hs
      · simp [hs] at hk
      · simp [hs] at hk
      · exact hs
    · exact ⟨(h.same id hlt he).kind, (h.same id hlt he).items⟩

theorem Graph.Preserves.refl (g : Graph) : g.Preserves g :=
  (Touches.refl none g).preserves (by simp)

theorem Graph.Preserves.keeps (h : g.Preserves g') : g.Keeps g' := fun id hid =>
  ⟨(h.defined id hid).kind, (h.defined id hid).isDefined.trans hid⟩

namespace C

variable {base : NodeId} {count : ℕ} {d : Derivation} {ds : List Derivation} {ref : Option Ty}
  {s : Session}

/-! ### Elements -/

/-- What the elements of a type are. -/
def Ty.element (target : Target) (nodes : List NodeId) : Ty → Option Element
  | .arithmetic a => some (a.element target)
  | .enum => some .enum
  | .pointer => some .pointer
  | .function => some .function
  | .array _ t => t.element target nodes
  | .record i .struct _ => nodes[i]?.map .structLink
  | .record i .union _ => nodes[i]?.map .unionLink

/-- The item that a type is. -/
def Ty.item (target : Target) (nodes : List NodeId) (t : Ty) : Option Item :=
  (t.element target nodes).map fun e => ⟨t.count, e⟩

/-- **An element stands for those of a type.** -/
structure Ty.Stands (g : Graph) (nodes : List NodeId) (t : Ty) (e : Element) : Prop where
  element : t.element g.target nodes = some e
  size : t.base.size g.target < wordSize → g.elementSize e = t.base.size g.target
  align : g.elementAlign e = t.align g.target
  leads : g.Leads e

/-- An item stands for a type. -/
def Ty.Held (g : Graph) (nodes : List NodeId) (t : Ty) (item : Item) : Prop :=
  item.count = t.count ∧ t.Stands g nodes item.kind

variable {g g' : Graph} {nodes nodes' : List NodeId} {t : Ty} {e : Element} {item : Item}
  {id : NodeId}

theorem getElem?_of_prefix (hn : nodes <+: nodes') {i : ℕ} (h : nodes[i]? = some id) :
    nodes'[i]? = some id := by
  obtain ⟨more, rfl⟩ := hn
  rw [List.getElem?_append_left (List.getElem?_eq_some_iff.mp h).1, h]

theorem Ty.element_mono {target : Target} (hn : nodes <+: nodes') :
    (t : Ty) → t.element target nodes = some e → t.element target nodes' = some e
  | .arithmetic _, h | .enum, h | .pointer, h | .function, h => h
  | .array _ t, h => Ty.element_mono hn t h
  | .record i .struct _, h | .record i .union _, h => by
    obtain ⟨id, hid, rfl⟩ := Option.map_eq_some_iff.mp h
    exact Option.map_eq_some_iff.mpr ⟨id, getElem?_of_prefix hn hid, rfl⟩

theorem Ty.Stands.mono (h : t.Stands g nodes e) (hg : g.Preserves g') (hn : nodes <+: nodes') :
    t.Stands g' nodes' e where
  element := by rw [hg.target]; exact Ty.element_mono hn t h.element
  size := by
    rw [Graph.elementSize_congr hg.target fun id he => (hg.defined id (h.leads.isDefined he)).length,
      hg.target]
    exact h.size
  align := by
    rw [Graph.elementAlign_congr hg.target fun id he => (hg.defined id (h.leads.isDefined he)).align,
      hg.target]
    exact h.align
  leads := h.leads.mono hg.keeps

theorem Ty.Held.mono (h : t.Held g nodes item) (hg : g.Preserves g') (hn : nodes <+: nodes') :
    t.Held g' nodes' item :=
  ⟨h.1, h.2.mono hg hn⟩

/-- All elements together have the size of the type, even if there are none of a type that is
too large. -/
theorem Ty.Held.size (h : t.Held g nodes item) (hfit : t.size g.target < wordSize) :
    g.elementSize item.kind * item.count = t.size g.target := by
  rw [Ty.size_eq] at hfit ⊢
  rw [h.1]
  rcases Nat.eq_zero_or_pos t.count with hzero | hpos
  · rw [hzero, Nat.mul_zero, Nat.mul_zero]
  · rw [h.2.size ((Nat.le_mul_of_pos_right _ hpos).trans_lt hfit)]

/-- A scalar stands for a type of its size and alignment. -/
theorem Ty.stands_scalar (hl : e.link? = none) (he : t.element g.target nodes = some e)
    (hsize : t.base.size g.target = Ty.scalarSize g.target e)
    (halign : t.align g.target = Ty.scalarAlign g.target e) : t.Stands g nodes e where
  element := he
  size _ := by rw [hsize, Graph.elementSize, hl]; rfl
  align := by rw [halign, Graph.elementAlign, hl]; rfl
  leads := Graph.leads_of_link?_eq_none hl

theorem stands_enum : Ty.enum.Stands g nodes .enum :=
  Ty.stands_scalar rfl rfl (by simp [Ty.base, Ty.size]) (by rw [Ty.align])

theorem stands_pointer : Ty.pointer.Stands g nodes .pointer :=
  Ty.stands_scalar rfl rfl (by simp [Ty.base, Ty.size]) (by rw [Ty.align])

theorem stands_function : Ty.function.Stands g nodes .function := by
  refine Ty.stands_scalar rfl rfl ?_ ?_
  · simp only [Ty.base, Ty.size]
    cases g.target <;> rfl
  · rw [Ty.align]
    cases g.target <;> rfl

/-! ### Bodies -/

/-- The bytes of a body without the padding at its end. -/
def rawSize (target : Target) : TagKind → List Ty → ℕ
  | .struct, fields => Ty.stop target 0 fields
  | .union, fields => Ty.widest target fields

theorem size_record (target : Target) (i : ℕ) (kind : TagKind) (fields : List Ty) :
    (Ty.record i kind fields).size target =
      roundUp (rawSize target kind fields) (Ty.alignOf target fields) := by
  cases kind <;> rw [Ty.size, rawSize]

/-- A node is a member of a union for a field of some type. -/
def MemberAt (g : Graph) (nodes : List NodeId) (t : Ty) (m : NodeId) : Prop :=
  (g.node m).isDefined = true ∧
    (t.size g.target < wordSize → (g.node m).length = t.size g.target) ∧
    (g.node m).align = t.align g.target ∧ ∃ item, t.Held g nodes item ∧ (g.node m).items = [item]

/-- **What a node of a struct or union contains** for some fields: the runs of their items,
or a member for each. -/
structure Contains (g : Graph) (nodes : List NodeId) (tag : TagKind) (fields : List Ty) (n : Node) :
    Prop where
  kind : n.kind = tag.nodeKind
  align : n.align = Ty.alignOf g.target fields
  struct : tag = .struct → ∃ items, List.Forall₂ (Ty.Held g nodes) fields items ∧
    n.items = items.foldl Graph.pushItem []
  union : tag = .union → List.Forall₂ (MemberAt g nodes) fields n.members

/-- **A node for a struct or union** whose body has ended. -/
def BodyAt (g : Graph) (nodes : List NodeId) (t : Ty) (id : NodeId) : Prop :=
  ∃ i kind fields, t = .record i kind fields ∧ nodes[i]? = some id ∧
    (g.node id).isDefined = true ∧
    (t.size g.target < wordSize → (g.node id).length = t.size g.target) ∧
    Contains g nodes kind fields (g.node id)

theorem MemberAt.mono {m : NodeId} (h : MemberAt g nodes t m) (hg : g.Preserves g')
    (hn : nodes <+: nodes') : MemberAt g' nodes' t m := by
  obtain ⟨hd, hl, ha, item, hitem, hi⟩ := h
  have hs := hg.defined m hd
  exact ⟨hs.isDefined.trans hd, by rw [hs.length, hg.target]; exact hl,
    by rw [hs.align, ha, hg.target], item, hitem.mono hg hn, hs.items.trans hi⟩

theorem Contains.mono {kind : TagKind} {fields : List Ty} {n n' : Node}
    (h : Contains g nodes kind fields n) (hg : g.Preserves g') (hn : nodes <+: nodes')
    (hs : n.Same n') : Contains g' nodes' kind fields n' where
  kind := hs.kind.trans h.kind
  align := by rw [hs.align, h.align, hg.target]
  struct hk := by
    obtain ⟨items, hitems, heq⟩ := h.struct hk
    exact ⟨items, hitems.imp fun _ _ hx => hx.mono hg hn, hs.items.trans heq⟩
  union hk := by
    rw [hs.members]
    exact (h.union hk).imp fun _ _ hx => hx.mono hg hn

theorem BodyAt.mono (h : BodyAt g nodes t id) (hg : g.Preserves g') (hn : nodes <+: nodes') :
    BodyAt g' nodes' t id := by
  obtain ⟨i, kind, fields, rfl, hid, hd, hl, hc⟩ := h
  have hs := hg.defined id hd
  exact ⟨i, kind, fields, rfl, getElem?_of_prefix hn hid, hs.isDefined.trans hd,
    by rw [hs.length, hg.target]; exact hl, hc.mono hg hn hs⟩

/-- A link to the node of a body stands for the body. -/
theorem BodyAt.stands (h : BodyAt g nodes t id) :
    t.count = 1 ∧
      t.Stands g nodes (if (g.node id).isUnion then .unionLink id else .structLink id) := by
  obtain ⟨i, kind, fields, rfl, hid, hd, hl, hc⟩ := h
  refine ⟨rfl, ?_⟩
  have hkind := hc.kind
  cases kind with
  | struct =>
    rw [if_neg (by simp [Node.isUnion, hkind, TagKind.nodeKind])]
    refine ⟨?_, ?_, ?_, hkind, hd⟩
    · rw [Ty.element, hid, Option.map_some]
    · simpa only [Graph.elementSize, Element.link?, Ty.base] using hl
    · rw [Graph.elementAlign, Ty.align]
      exact hc.align
  | union =>
    rw [if_pos (by simp [Node.isUnion, hkind, TagKind.nodeKind])]
    refine ⟨?_, ?_, ?_, hkind, hd⟩
    · rw [Ty.element, hid, Option.map_some]
    · simpa only [Graph.elementSize, Element.link?, Ty.base] using hl
    · rw [Graph.elementAlign, Ty.align]
      exact hc.align

/-! ### Nodes of types -/

/-- **A node for a type**: one that holds its item, or that of its body. -/
def KnownAt (g : Graph) (nodes : List NodeId) (t : Ty) (id : NodeId) : Prop :=
  (∃ item, t.Held g nodes item ∧ (g.node id).items = [item] ∧
    ((g.node id).kind = .base ∧ (g.node id).isDefined = true ∨ (g.node id).kind = .enum ∨
      (g.node id).kind = .typedef)) ∨
  BodyAt g nodes t id

theorem KnownAt.mono (h : KnownAt g nodes t id) (hg : g.Preserves g') (hn : nodes <+: nodes') :
    KnownAt g' nodes' t id := by
  rcases h with ⟨item, hitem, hi, hk⟩ | h
  · have hlt : id < g.size := by
      rcases hk with ⟨-, hd⟩ | hk | hk
      · exact Graph.lt_size_of_isDefined hd
      · exact Graph.lt_size_of_kind (by simp [hk])
      · exact Graph.lt_size_of_kind (by simp [hk])
    have hsingle := hg.single id hlt (by rcases hk with ⟨hk, -⟩ | hk | hk <;> simp [hk])
    refine Or.inl ⟨item, hitem.mono hg hn, hsingle.2.trans hi, ?_⟩
    rw [hsingle.1]
    exact hk.imp_left fun hk => ⟨hk.1, (hg.defined id hk.2).isDefined.trans hk.2⟩
  · exact Or.inr (h.mono hg hn)

theorem scale_of_lt {factor : ℕ} (h : count * factor < 2 ^ 64) (line : ℕ) :
    scale line count factor = .ok (count * factor) :=
  if_pos h

/-- An element of a known type. -/
theorem elementItem_of_known (h : KnownAt s.graph nodes t id) (hfit : count * t.count < 2 ^ 64)
    (d : Declarator) :
    ∃ item, elementItem s id count d = .ok item ∧ item.count = count * t.count ∧
      t.Stands s.graph nodes item.kind := by
  rcases h with ⟨item, hitem, hi, hk⟩ | h
  · refine ⟨⟨count * item.count, item.kind⟩, ?_, by rw [hitem.1], hitem.2⟩
    have hvoid : (s.graph.node id).isVoid = false := by simp [Node.isVoid, hi]
    have hscale : scale d.line count item.count = .ok (count * item.count) :=
      scale_of_lt (by rwa [hitem.1]) d.line
    unfold elementItem
    dsimp only
    rw [if_neg, if_neg (by simp [hvoid])]
    · rcases hk with ⟨hk, -⟩ | hk | hk <;> simp only [hk, hi, hscale, Except.map]
    · rintro ⟨hbase, hdef⟩
      rcases hk with ⟨-, hd⟩ | hk | hk
      · exact hdef hd
      · simp [hk] at hbase
      · simp [hk] at hbase
  · obtain ⟨hcount, hstands⟩ := h.stands
    obtain ⟨i, kind, fields, rfl, hid, hd, hl, hc⟩ := h
    have hkind := hc.kind
    refine ⟨⟨count, if (s.graph.node id).isUnion then .unionLink id else .structLink id⟩, ?_,
      by rw [hcount, Nat.mul_one], hstands⟩
    unfold elementItem
    dsimp only
    rw [if_neg (by simp [hd]), if_neg]
    · cases kind <;> simp only [hkind, TagKind.nodeKind, hd, not_true_eq_false, if_false]
    · cases kind <;> simp [Node.isVoid, hkind, TagKind.nodeKind]

/-! ### Declarators -/

/-- A derivation as it was read says what a step from the name does. -/
inductive Derives : Derivation → Layer → Prop
  | array (n : IntLiteral) (text : String) :
    Derives (.array ⟨[.number n.number], text⟩) (.array n.value)
  | function : Derives .function .function
  | pointer : Derives .pointer .pointer

theorem derives_tail {tail : Tail} (h : d.content = tail.derivation) : Derives d tail.layer := by
  cases tail with
  | array n =>
    cases d with
    | array dim =>
      obtain ⟨lexemes, text⟩ := dim
      obtain rfl : lexemes = [.number n.number] := by
        simpa [Derivation.content, Tail.derivation] using h
      exact .array n text
    | function => simp [Derivation.content, Tail.derivation] at h
    | pointer => simp [Derivation.content, Tail.derivation] at h
  | function params =>
    cases d with
    | function => exact .function
    | array dim => simp [Derivation.content, Tail.derivation] at h
    | pointer => simp [Derivation.content, Tail.derivation] at h

theorem derives_pointer (h : d.content = .pointer) : Derives d .pointer := by
  cases d with
  | pointer => exact .pointer
  | array dim => simp [Derivation.content] at h
  | function => simp [Derivation.content] at h

theorem forall₂_derives_tails {tails : List Tail} {stars : ℕ}
    (h : ds.map Derivation.content = tails.map Tail.derivation ++ List.replicate stars .pointer) :
    List.Forall₂ Derives ds (tails.map Tail.layer ++ List.replicate stars .pointer) := by
  induction tails generalizing ds with
  | nil =>
    induction stars generalizing ds with
    | zero => simpa using h
    | succ stars ih =>
      obtain ⟨d, ds, rfl, hd, hds⟩ := List.map_eq_cons_iff.mp h
      exact .cons (derives_pointer hd) (ih hds)
  | cons tail tails ih =>
    obtain ⟨d, ds, rfl, hd, hds⟩ := List.map_eq_cons_iff.mp h
    exact .cons (derives_tail hd) (ih hds)

/-- The derivations of a declarator say what its steps do. -/
theorem Declr.forall₂_derives (d : Declr) (h : ds.map Derivation.content = d.derivations) :
    List.Forall₂ Derives ds d.layers := by
  induction d generalizing ds with
  | name stars x tails => exact forall₂_derives_tails h
  | paren stars inner tails ih =>
    rw [Declr.derivations, List.append_assoc] at h
    obtain ⟨front, rear, rfl, hfront, hrear⟩ := List.map_eq_append_iff.mp h
    exact List.rel_append (ih hfront) (forall₂_derives_tails hrear)

theorem dimensionValue_number (eval : Evaluator) (line : ℕ) {n : IntLiteral} (text : String)
    (h : n.value < 2 ^ 63) :
    dimensionValue eval line ⟨[.number n.number], text⟩ = ⟨[], .ok n.value⟩ := by
  simp only [dimensionValue, n.value?_number, if_pos h]

/-- The item of a declarator, from some count and some of its derivations on. -/
def itemFrom (eval : Evaluator) (s : Session) (base : NodeId) (d : Declarator) (count : ℕ)
    (ds : List Derivation) : Computed Item :=
  let counted := arrayCount eval d.line count ds
  match counted.result with
  | .error r => ⟨counted.asked, .error r⟩
  | .ok (count, .pointer :: _) => ⟨counted.asked, .ok ⟨count, .pointer⟩⟩
  | .ok (count, .function :: _) => ⟨counted.asked, .ok ⟨count, .function⟩⟩
  | .ok (count, _) => ⟨counted.asked, elementItem s base count d⟩

theorem itemFrom_of_fits (eval : Evaluator) {d : Declarator}
    (hbase : ∀ t, ref = some t → KnownAt s.graph nodes t base) {layers : List Layer}
    (hds : List.Forall₂ Derives ds layers) (hfit : arraysFit (2 ^ 63) count layers ref = true)
    (ht : layers.foldr Layer.apply ref = some t) :
    ∃ item, itemFrom eval s base d count ds = ⟨[], .ok item⟩ ∧ item.count = count * t.count ∧
      t.Stands s.graph nodes item.kind := by
  induction hds generalizing count t with
  | nil =>
    obtain rfl : ref = some t := ht
    obtain ⟨item, hitem, hcount, hstands⟩ :=
      elementItem_of_known (hbase t rfl) (by simpa [arraysFit] using hfit) d
    exact ⟨item, by simp only [itemFrom, arrayCount, hitem], hcount, hstands⟩
  | @cons derivation layer ds layers hd hds ih =>
    cases hd with
    | pointer =>
      obtain rfl : .pointer = t := Option.some.inj ht
      exact ⟨⟨count, .pointer⟩, rfl, by simp [Ty.count], stands_pointer⟩
    | function =>
      obtain rfl : .function = t := Option.some.inj ht
      exact ⟨⟨count, .function⟩, rfl, by simp [Ty.count], stands_function⟩
    | array n text =>
      obtain ⟨⟨hlimit, hscale⟩, hfit⟩ : (n.value < 2 ^ 63 ∧ count * n.value < 2 ^ 64) ∧
          arraysFit (2 ^ 63) (count * n.value) layers ref = true := by
        simpa [arraysFit] using hfit
      obtain ⟨t', ht', rfl⟩ := Option.map_eq_some_iff.mp ht
      obtain ⟨item, hitem, hcount, hstands⟩ := ih hfit ht'
      refine ⟨item, ?_, by rw [hcount, Ty.count]; ring, ?_⟩
      · rw [← hitem]
        simp only [itemFrom, arrayCount, dimensionValue_number eval d.line text hlimit,
          scale_of_lt hscale, List.nil_append]
      · exact ⟨hstands.element, hstands.size, by rw [Ty.align]; exact hstands.align, hstands.leads⟩

/-- **A declarator of a known type gives the item of what it declares**, if its arrays
fit. -/
theorem itemFor_of_fits (eval : Evaluator)
    (hbase : ∀ t, ref = some t → KnownAt s.graph nodes t base) {d : Declarator} {x : Declr}
    (hd : d.content = x.declarator) (hfit : arraysFit (2 ^ 63) 1 x.layers ref = true)
    (ht : x.type ref = some t) :
    ∃ item, itemFor eval s base d = ⟨[], .ok item⟩ ∧ t.Held s.graph nodes item := by
  have hds : d.derivations.map Derivation.content = x.derivations :=
    congrArg Declarator.derivations hd
  rw [Declr.type_eq] at ht
  obtain ⟨item, hitem, hcount, hstands⟩ :=
    itemFrom_of_fits eval hbase (x.forall₂_derives hds) hfit ht
  exact ⟨item, hitem, by rw [hcount, Nat.one_mul], hstands⟩

end C

end TypeLayout
