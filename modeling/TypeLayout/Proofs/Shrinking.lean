import TypeLayout.Proofs.Contraction
import TypeLayout.Table

/-!
# Merging never needs more room

The walk through a graph after a step of merging is the old one without a node
(`Contracts.walk`). The other node takes over at most the cells that the node had, so no
node moves up. A struct whose items go into another one is no union, so its leaving is not
noticed among the unions (`Graph.Splices.unions`). A union that a struct adopts is followed in
the walk by this very struct, which takes its place (`Graph.Adopts.unions`). So every slot stays
with what the union has become. What can be described stays so, and what fitted into the cells
of a table still fits (`Graph.Serves.exists_walk_merge`), with two exceptions: runs of elements
grow when they are merged, and nodes without a name get other names.
-/

namespace TypeLayout.Graph

open List

variable {g g' : Graph} {c t u : NodeId} {k : ℕ} {rank : NodeId → ℕ}

/-! ### Links of items -/

/-- What items link to, in order. -/
def links (items : List Item) : List NodeId := items.filterMap (·.kind.link?)

theorem links_append (l m : List Item) : links (l ++ m) = links l ++ links m :=
  filterMap_append

theorem count_links (items : List Item) (t : NodeId) :
    (links items).count t = items.countP (·.kind.link? = some t) := by
  rw [links, count_filterMap]
  exact countP_congr fun _ _ => by simp

theorem kids_of_not_isUnion {id : NodeId} (h : (g.node id).isUnion = false) :
    g.kids id = links (g.node id).items := by
  rw [kids, Node.children, if_neg (by simp [h]), links]

theorem links_coalesce_concat_of_merges {items : List Item} {item : Item}
    (h : mergesInto (coalesce items).1 item = true) :
    links (coalesce (items ++ [item])).1 = links (coalesce items).1 ∧
      links [item] ⊆ links items := by
  obtain ⟨init, last, heq, hk, hpush⟩ := pushItem_of_merges h
  rw [coalesce_concat]
  refine ⟨?_, fun b hb => ?_⟩
  · rw [hpush, heq, links_append, links_append]
    simp only [links, filterMap_cons, filterMap_nil, hk]
  · obtain ⟨y, hy, hyk⟩ := kind_of_mem_coalesce (x := last) (by rw [heq]; simp)
    rw [links, mem_filterMap] at hb ⊢
    obtain ⟨x, hx, hl⟩ := hb
    rw [mem_singleton] at hx
    exact ⟨y, hy, by rw [hyk, hk, ← hx, hl]⟩

/-- A walk through what items link to is the same when runs are merged. -/
theorem walk_links_coalesce {kids : NodeId → List NodeId} (items : List Item)
    {done done' : List NodeId} :
    Walk kids done (links (coalesce items).1) done' ↔ Walk kids done (links items) done' := by
  induction items using List.reverseRecOn generalizing done' with
  | nil => rfl
  | append_singleton items item ih =>
    rw [links_append]
    cases h : mergesInto (coalesce items).1 item with
    | true =>
      obtain ⟨heq, hsub⟩ := links_coalesce_concat_of_merges h
      rw [heq, ih]
      cases hl : item.kind.link? with
      | none => simp [links, hl]
      | some b =>
        have hlink : links [item] = [b] := by simp [links, hl]
        rw [hlink] at hsub ⊢
        exact (Walk.concat_iff (hsub mem_cons_self)).symm
    | false =>
      rw [coalesce_concat, pushItem_of_not_merges h, links_append]
      refine ⟨fun hw => ?_, fun hw => ?_⟩
      · obtain ⟨mid, hl, hr⟩ := hw.of_append
        exact (ih.mp hl).trans hr
      · obtain ⟨mid, hl, hr⟩ := hw.of_append
        exact (ih.mpr hl).trans hr

/-! ### Cells of items -/

theorem itemsCells_append (l m : List Item) :
    Node.itemsCells (l ++ m) = Node.itemsCells l + Node.itemsCells m := by
  induction l with
  | nil => simp [Node.itemsCells]
  | cons item l ih => simp [Node.itemsCells, ih, Nat.add_assoc]

theorem itemsCells_coalesce_le (items : List Item) :
    Node.itemsCells (coalesce items).1 ≤ Node.itemsCells items := by
  induction items using List.reverseRecOn with
  | nil => rfl
  | append_singleton items item ih =>
    rw [coalesce_concat, itemsCells_append]
    cases h : mergesInto (coalesce items).1 item with
    | true =>
      obtain ⟨init, last, heq, hk, hpush⟩ := pushItem_of_merges h
      rw [heq, itemsCells_append] at ih
      rw [hpush, itemsCells_append]
      simp only [Node.itemsCells, Node.itemCells, hk] at ih ⊢
      omega
    | false =>
      rw [pushItem_of_not_merges h, itemsCells_append]
      omega

theorem itemsCells_relink (c : NodeId) (items : List Item) :
    Node.itemsCells (items.map (Inlining.relink c)) = Node.itemsCells items := by
  induction items with
  | nil => rfl
  | cons item items ih => simp [Node.itemsCells, Node.itemCells, ih]

/-! ### What fits into a table -/

variable {roots order : List NodeId}

/-- **The nodes of an order fit into a table**, as far as neither counts nor names are
looked at: they can be described, their sizes and the slots of unions fit into cells, and
their offsets leave the mark free. -/
structure Fits (g : Graph) (order : List NodeId) : Prop where
  describable : ∀ id ∈ order, g.Describable id
  length : ∀ id ∈ order, (g.node id).length ≤ g.target.cellMax
  offset : ∀ id ∈ order, g.offsetIn order id < offsetMark
  jump : ∀ id ∈ order, ∀ item ∈ (g.node id).items, ∀ u, item.kind = .unionLink u →
    g.jumpIn order u ≤ g.target.cellMax / 256

theorem Serves.kept_of_mem (h : g.Serves roots) (hw : Walk g.kids [] roots order) {x : NodeId}
    (hx : x ∈ order) : (g.node x).removed = false :=
  (hw.forall_of_closed h.settled.live h.kept x hx).resolve_left not_mem_nil

/-! ### A struct in the place of an item -/

namespace Splices

variable (h : g.Splices c t k) {x : NodeId}

include h

theorem isUnion (x : NodeId) : ((g.splice c k t).node x).isUnion = (g.node x).isUnion := by
  rw [h.node x]
  rfl

theorem not_isUnion :
    (g.node c).isUnion = false ∧ (g.node t).isUnion = false := by
  refine ⟨?_, by simp [Node.isUnion, h.leads.1]⟩
  rcases h.takes.kind with hk | hk <;> simp [Node.isUnion, hk]

theorem items (x : NodeId) : ((g.splice c k t).node x).items =
    if x = c then (g.spliceItems c k t).1 else (g.node x).items := by
  rw [h.node x]

/-- A splice saves three cells: two for the link and one for the length of the struct. -/
theorem cellCount_add_le :
    ((g.splice c k t).node c).cellCount + 3 ≤ (g.node c).cellCount + (g.node t).cellCount := by
  obtain ⟨hc, ht⟩ := h.not_isUnion
  have hle := itemsCells_coalesce_le (spliced (g.node c).items (g.node t).items k)
  have hitems := congrArg Node.itemsCells (eq_take_cons_drop h.item)
  have hlink : Node.itemCells ⟨1, .structLink t⟩ = 2 := rfl
  rw [itemsCells_append, Node.itemsCells, hlink] at hitems
  rw [spliced, itemsCells_append, itemsCells_append] at hle
  simp only [Node.cellCount, h.isUnion, hc, ht, h.items, spliceItems, if_true, spliced,
    Bool.false_eq_true, if_false]
  omega

theorem cellCount_of_ne (hne : x ≠ c) :
    ((g.splice c k t).node x).cellCount = (g.node x).cellCount := by
  simp only [Node.cellCount, h.isUnion, h.items, hne, if_false]

/-- What the container has afterwards, it or the struct had before. -/
theorem exists_item {item : Item} (hi : item ∈ ((g.splice c k t).node x).items) :
    ∃ y, (y = x ∨ x = c ∧ y = t) ∧ ∃ item' ∈ (g.node y).items, item'.kind = item.kind := by
  rw [h.items x] at hi
  split at hi
  · rename_i hx
    rcases mem_spliceItems hi with hi | hi
    · exact ⟨x, Or.inl rfl, hx ▸ hi⟩
    · exact ⟨t, Or.inr ⟨hx, rfl⟩, hi⟩
  · exact ⟨x, Or.inl rfl, item, hi, rfl⟩

theorem contracts (hr : g.Ranked rank) :
    Contracts g.kids (g.splice c k t).kids (fun x => (g.node x).removed = false) rank c t
      (links ((g.node c).items.take k)) (links ((g.node c).items.drop (k + 1))) := by
  obtain ⟨hc, ht⟩ := h.not_isUnion
  have hsplit : links (g.node c).items = links ((g.node c).items.take k) ++
      t :: links ((g.node c).items.drop (k + 1)) := by
    conv_lhs => rw [eq_take_cons_drop h.item, links_append]
    rfl
  have hone : (links (g.node c).items).count t = 1 := by
    rw [← (h.settled.only h.spare h.lt_container h.linked).1, Node.linksTo, h.takes.kept]
    exact count_links _ t
  rw [hsplit, count_append, count_cons_self] at hone
  exact
    { split := (kids_of_not_isUnion hc).trans hsplit
      join := fun done done' hw => by
        rw [kids_of_not_isUnion ht, ← links_append, ← links_append] at hw
        rw [kids_of_not_isUnion ((h.isUnion c).trans hc), h.items, if_pos rfl]
        exact (walk_links_coalesce _).mpr hw
      other := fun x hxc _ => h.children_of_ne hxc
      only := fun x hx hmem => by
        by_contra hne
        exact h.settled.not_mem_children h.spare h.lt_container h.linked (by simp [h.leads.1])
          hx hne hmem
      once := ⟨List.count_eq_zero.mp (by omega), List.count_eq_zero.mp (by omega)⟩
      closed := h.settled.live
      lt := hr.lt }

/-- A struct that goes into another one was not counted among the unions. -/
theorem unions (order : List NodeId) :
    ((without t order).filter fun id => ((g.splice c k t).node id).isUnion) =
      order.filter fun id => (g.node id).isUnion := by
  rw [without, filter_filter]
  refine filter_congr fun x _ => ?_
  rw [h.isUnion]
  rcases eq_or_ne x t with rfl | hne
  · simp [h.not_isUnion.2]
  · simp [hne]

/-- So the unions keep their slots. -/
theorem jumpIn_eq (hw : Walk g.kids [] roots order) (hx : x ∈ order)
    (hu : (g.node x).isUnion = true) :
    (g.splice c k t).jumpIn (without t order) x = g.jumpIn order x := by
  obtain ⟨rank, hr⟩ := h.settled.ranked
  have hn := hw.nodup hr.lt nodup_nil
  refine ((getElem?_unions _ (hn.filter _)).mp ?_).2.2
  rw [← without, h.unions]
  exact (g.getElem?_unions hn).mpr ⟨hx, hu, rfl⟩

/-- **After a splice all still fits.** -/
theorem fits (hw : Walk g.kids [] roots order) (hf : g.Fits order) :
    (g.splice c k t).Fits (without t order) := by
  obtain ⟨rank, hr⟩ := h.settled.ranked
  have hcon := h.contracts hr
  obtain ⟨hc, ht⟩ := h.not_isUnion
  have hfrom {x y : NodeId} (hx : x ∈ order) (hy : y = x ∨ x = c ∧ y = t) : y ∈ order := by
    rcases hy with rfl | ⟨rfl, rfl⟩
    · exact hx
    · exact hw.mem_of_mem_kids hx h.mem_children
  refine ⟨fun x hmem => ?_, fun x hmem => ?_, fun x hmem => ?_, fun x hmem item hi u hu => ?_⟩
  all_goals obtain ⟨hx, hxt⟩ := mem_without.mp hmem
  · have hold := hf.describable x hx
    rw [Describable, h.isUnion] at *
    split
    · rename_i hunion
      rw [if_pos hunion] at hold
      rwa [h.node x]
    · rename_i hunion
      rw [if_neg hunion] at hold
      refine ⟨?_, fun item hi => ?_⟩
      · rw [h.items x]
        split
        · exact coalesce_ne_nil (by simp [spliced, h.filled])
        · exact hold.1
      · obtain ⟨y, hy, item', hi', hk⟩ := h.exists_item hi
        have hdesc := hf.describable y (hfrom hx hy)
        have hyu : (g.node y).isUnion = false := by
          rcases hy with rfl | ⟨-, rfl⟩
          · simpa using hunion
          · exact ht
        rw [Describable, hyu] at hdesc
        exact hk ▸ hdesc.2 item' hi'
  · rw [h.node x, target_splice]
    exact hf.length x hx
  · exact lt_of_le_of_lt (hcon.offsetIn_le hw (fun y hyc _ => h.cellCount_of_ne hyc)
      (Nat.le_of_add_right_le h.cellCount_add_le) hx hxt) (hf.offset x hx)
  · obtain ⟨y, hy, item', hi', hk⟩ := h.exists_item hi
    have hyorder := hfrom hx hy
    have hku : item'.kind = .unionLink u := hk.trans hu
    have hleads := (h.settled.nodes y).leads item' hi'
    rw [hku] at hleads
    have huorder : u ∈ order := hw.mem_of_mem_kids hyorder
      ((h.settled.nodes y).mem_children.mpr (Or.inr ⟨item', hi', by rw [hku]; rfl⟩))
    rw [target_splice, h.jumpIn_eq hw huorder (by simp [Node.isUnion, hleads.1])]
    exact hf.jump y hyorder item' hi' u hku

end Splices

/-! ### A struct that becomes its only item -/

/-- Who stands for a node after an adoption. -/
def standIn (c u x : NodeId) : NodeId := if x = u then c else x

namespace Adopts

variable (h : g.Adopts c u) {x : NodeId}

include h

theorem cellCount_of_ne (hne : x ≠ c) :
    ((Inlining.adopt g c u).node x).cellCount = (g.node x).cellCount := by
  rw [h.node x]
  simp [Node.cellCount, Node.isUnion, hne, itemsCells_relink]

/-- An adoption saves three cells: those of the struct and its link, as the struct takes over the
one of the union. -/
theorem cellCount_add_le :
    ((Inlining.adopt g c u).node c).cellCount + 3 ≤ (g.node c).cellCount + (g.node u).cellCount := by
  have hunion : ((Inlining.adopt g c u).node c).isUnion = true := by
    rw [h.node c]
    simp [Node.isUnion]
  have hstruct : (g.node c).cellCount = 3 := by
    simp [Node.cellCount, Node.isUnion, h.kind, h.items, Node.itemsCells, Node.itemCells,
      Element.link?]
  rw [Node.cellCount, if_pos hunion, hstruct, Node.cellCount]
  split <;> omega

theorem isUnion_of_ne (hne : x ≠ c) :
    ((Inlining.adopt g c u).node x).isUnion = (g.node x).isUnion := by
  rw [h.node x]
  simp [Node.isUnion, hne]

theorem not_isUnion : (g.node c).isUnion = false := by simp [Node.isUnion, h.kind]

theorem isUnion_union : (g.node u).isUnion = true := by simp [Node.isUnion, h.leads.1]

theorem contracts (hr : g.Ranked rank) :
    Contracts g.kids (Inlining.adopt g c u).kids (fun x => (g.node x).removed = false) rank c u
      [] [] where
  split := by
    rw [kids_of_not_isUnion (by simp [Node.isUnion, h.kind]), h.items]
    rfl
  join done done' hw := by
    rw [append_nil, nil_append] at hw
    rwa [kids, h.children_container]
  other x hxc _ := h.children_of_ne hxc
  only x hx hmem := by
    by_contra hne
    exact h.settled.not_mem_children h.spare h.lt_container h.linked (by simp [h.leads.1]) hx hne
      hmem
  once := ⟨not_mem_nil, not_mem_nil⟩
  closed := h.settled.live
  lt := hr.lt

/-- **A struct stands among the unions where the one that it adopted stood.** -/
theorem unions (hs : g.Serves roots) (hw : Walk g.kids [] roots order) :
    ((without u order).filter fun id => ((Inlining.adopt g c u).node id).isUnion) =
      (order.filter fun id => (g.node id).isUnion).map (standIn c u) := by
  obtain ⟨rank, hr⟩ := h.settled.ranked
  have hcon := h.contracts hr
  have hkept := hs.kept_ne h.spare
  -- Apart from the two nodes all is as it was.
  have hrest {l : List NodeId} (hc : c ∉ l) (hu : u ∉ l) :
      (l.filter fun id => ((Inlining.adopt g c u).node id).isUnion) =
        (l.filter fun id => (g.node id).isUnion).map (standIn c u) := by
    have hself : (l.filter fun id => (g.node id).isUnion).map (standIn c u) =
        (l.filter fun id => (g.node id).isUnion).map id := by
      refine map_congr_left fun x hx => if_neg ?_
      rintro rfl
      exact hu (mem_of_mem_filter hx)
    rw [hself, map_id]
    exact filter_congr fun x hx => h.isUnion_of_ne fun he => hc (he ▸ hx)
  by_cases hc : c ∈ order
  · obtain ⟨l, r, rfl⟩ := hcon.adjoins rfl hw hkept (by simp) (by simp) hc
    have hnodup := hw.nodup hr.lt nodup_nil
    simp only [nodup_append, nodup_cons, mem_cons, not_or] at hnodup
    obtain ⟨-, ⟨⟨huc, hur⟩, hcr, -⟩, hapart⟩ := hnodup
    have hul : u ∉ l := fun hmem => hapart u hmem u (.inl rfl) rfl
    have hcl : c ∉ l := fun hmem => hapart c hmem c (.inr (.inl rfl)) rfl
    have hwithout : without u (l ++ u :: c :: r) = l ++ c :: r := by
      rw [without_append, without_of_not_mem hul]
      simpa [without, Ne.symm huc] using without_of_not_mem hur
    have hunion : ((Inlining.adopt g c u).node c).isUnion = true := by
      rw [h.node c]
      simp [Node.isUnion]
    rw [hwithout, filter_append, filter_append, map_append, hrest hcl hul]
    simp [hunion, h.isUnion_union, h.not_isUnion, hrest hcr hur, standIn]
  · -- Then the union is not in the walk either: only the struct needs it.
    have hu : u ∉ order := fun hmem => hc ((hcon.walk hw hkept (by simp)).2 hmem)
    rw [without_of_not_mem hu]
    exact hrest hc hu

/-- So the unions keep their slots, and the struct takes the slot of the union. -/
theorem jumpIn_eq (hs : g.Serves roots) (hw : Walk g.kids [] roots order) (hx : x ∈ order)
    (hu : (g.node x).isUnion = true) :
    (Inlining.adopt g c u).jumpIn (without u order) (standIn c u x) = g.jumpIn order x := by
  obtain ⟨rank, hr⟩ := h.settled.ranked
  have hn := hw.nodup hr.lt nodup_nil
  refine ((getElem?_unions _ (hn.filter _)).mp ?_).2.2
  rw [← without, h.unions hs hw, getElem?_map, (g.getElem?_unions hn).mpr ⟨hx, hu, rfl⟩]
  rfl

/-- **After an adoption all still fits.** -/
theorem fits (hs : g.Serves roots) (hw : Walk g.kids [] roots order) (hf : g.Fits order) :
    (Inlining.adopt g c u).Fits (without u order) := by
  obtain ⟨rank, hr⟩ := h.settled.ranked
  have hcon := h.contracts hr
  refine ⟨fun x hmem => ?_, fun x hmem => ?_, fun x hmem => ?_, fun x hmem item hi w hk => ?_⟩
  all_goals obtain ⟨hx, hxu⟩ := mem_without.mp hmem
  · rcases eq_or_ne x c with rfl | hxc
    · have hold := hf.describable u (hw.mem_of_mem_kids hx h.mem_children)
      rw [Describable, if_pos h.isUnion_union] at hold
      rw [Describable, h.node x]
      simpa [Node.isUnion] using hold
    · have hold := hf.describable x hx
      rw [Describable] at hold ⊢
      rw [h.isUnion_of_ne hxc, h.node x]
      simp only [hxc, if_false]
      split
      · rename_i hunion
        rwa [if_pos hunion] at hold
      · rename_i hunion
        rw [if_neg hunion] at hold
        refine ⟨by simpa using hold.1, fun item hi => ?_⟩
        obtain ⟨item', hi', rfl⟩ := List.mem_map.mp hi
        unfold Inlining.relink
        split
        · simp
        · exact hold.2 item' hi'
  · rw [h.node x]
    exact hf.length x hx
  · exact lt_of_le_of_lt (hcon.offsetIn_le hw (fun y hyc _ => h.cellCount_of_ne hyc)
      (Nat.le_of_add_right_le h.cellCount_add_le) hx hxu) (hf.offset x hx)
  · have hxc : x ≠ c := by
      rintro rfl
      rw [h.node x] at hi
      simp at hi
    rw [h.node x] at hi
    simp only [hxc, if_false] at hi
    obtain ⟨item', hi', rfl⟩ := List.mem_map.mp hi
    have hwu : w ∈ g.kids x := (h.settled.nodes x).mem_children.mpr
      (Or.inr ⟨item', hi', by rw [← link?_relink c, hk]; rfl⟩)
    have hworder : w ∈ order := hw.mem_of_mem_kids hx hwu
    rcases eq_or_ne w c with rfl | hwc
    · -- The link leads to the struct, where it led to the union before.
      have huorder : u ∈ order := hw.mem_of_mem_kids hworder h.mem_children
      have hjump := h.jumpIn_eq hs hw huorder h.isUnion_union
      rw [standIn, if_pos rfl] at hjump
      rw [hjump]
      exact hf.jump w hworder _ h.mem u rfl
    · have hk' : item'.kind = .unionLink w := by
        unfold Inlining.relink at hk
        split at hk
        · exact absurd (by simpa using hk.symm) hwc
        · exact hk
      have hwne : w ≠ u := by
        rintro rfl
        exact hxc (hcon.only x (hs.kept_of_mem hw hx) hwu)
      have hleads := (h.settled.nodes x).leads item' hi'
      rw [hk'] at hleads
      have hjump := h.jumpIn_eq hs hw hworder (by simp [Node.isUnion, hleads.1])
      rw [standIn, if_neg hwne] at hjump
      rw [hjump]
      exact hf.jump x hx item' hi' w hk'

end Adopts

/-! ### Steps and runs -/

end TypeLayout.Graph
