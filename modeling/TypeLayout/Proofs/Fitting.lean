import TypeLayout.Proofs.Extents

/-!
# Where a struct fits in

Before a struct takes the place of the item that links to it, all places in the container
are computed anew and compared (`Graph.keepsLayout`). Where all sizes are exact that comes down
to the two ends of the struct (`Graph.keepsLayout_iff`): its first item starts where it started,
and what follows it starts where it started. Nothing in between can move, since the places
inside a struct are multiples of alignments that divide its own.

The file also says what is left of a list of items in front of the item that was replaced, and
what merged runs count: `Graph.elementsOf` is how many elements of a kind there are in a list,
and as long as that fits into 64 bits no run of them counts less than its parts.
-/

namespace TypeLayout.Graph

open List

variable {g g' : Graph} {items inner pre rest : List Item} {item : Item} {c t : NodeId} {k m : ℕ}

/-! ### Both ends of a struct -/

/-- The alignment of what comes next: of the first item, or of the end if there is none. -/
def nextAlign (g : Graph) (items : List Item) (last : ℕ) : ℕ :=
  match items with
  | [] => last
  | item :: _ => g.elementAlign item.kind

/-- The first place decides about all others, and about the end. -/
theorem layoutFrom_eq_iff (g : Graph) (m n last : ℕ) (items : List Item) :
    (g.offsetsFrom m items = g.offsetsFrom n items ∧
        roundUp (g.stopFrom m items) last = roundUp (g.stopFrom n items) last) ↔
      roundUp m (g.nextAlign items last) = roundUp n (g.nextAlign items last) := by
  cases items with
  | nil => exact and_iff_right rfl
  | cons item items =>
    rw [offsetsFrom_cons, offsetsFrom_cons, stopFrom_cons, stopFrom_cons]
    constructor
    · rintro ⟨hoffsets, -⟩
      exact (List.cons.inj hoffsets).1
    · intro hfirst
      have hfirst : roundUp m (g.elementAlign item.kind) = roundUp n (g.elementAlign item.kind) :=
        hfirst
      rw [hfirst]
      exact ⟨rfl, rfl⟩

/-- The alignment that item `k` is followed by. -/
def alignAfter (g : Graph) (c : NodeId) (k : ℕ) : ℕ :=
  g.nextAlign ((g.node c).items.drop (k + 1)) (g.node c).align

/-- **A struct fits in** where item `k` stands: its first item needs no other place than the
struct, and its padding at the end is nothing that the container would not leave free by
itself. -/
structure FitsAt (g : Graph) (c : NodeId) (k : ℕ) (t : NodeId) : Prop where
  front : roundUp (g.stopBefore c k) (g.nextAlign (g.node t).items 1) =
    roundUp (g.stopBefore c k) (g.node t).align
  back : roundUp (roundUp (g.stopBefore c k) (g.node t).align + g.stopFrom 0 (g.node t).items)
      (g.alignAfter c k) =
    roundUp (roundUp (g.stopBefore c k) (g.node t).align + (g.node t).length) (g.alignAfter c k)

theorem Tidy.nextAlign_dvd (h : g.Tidy) (id : NodeId) :
    g.nextAlign (g.node id).items 1 ∣ (g.node id).align := by
  have haligned := (h.nodes id).aligned
  unfold nextAlign
  split
  · exact one_dvd _
  · rename_i item items hitems
    exact haligned item (by simp [hitems])

theorem Takes.ne_union (h : g.Takes c) : (g.node c).kind ≠ .union := by
  rcases h.kind with hk | hk <;> simp [hk]

namespace Splices

variable (h : g.Splices c t k)

include h

/-- What can take the place of an item is what the optimizer looks at. -/
theorem inlinable? : g.inlinable? c ⟨1, .structLink t⟩ = some t :=
  if_pos ⟨h.ne, h.leads.1, h.spare.refs, by simp [h.spare.isKey], by simp [h.spare.kept],
    h.leads.2, h.filled⟩

/-- The items of the struct stay where they are if the first one does. -/
theorem layoutFrom_inner (he : g.Exact)
    (hfirst : roundUp (g.stopBefore c k) (g.nextAlign (g.node t).items 1) =
      roundUp (g.stopBefore c k) (g.node t).align) :
    g.offsetsFrom (g.stopBefore c k) (g.node t).items =
        (g.offsetsFrom 0 (g.node t).items).map (roundUp (g.stopBefore c k) (g.node t).align + ·) ∧
      g.stopFrom (g.stopBefore c k) (g.node t).items =
        roundUp (g.stopBefore c k) (g.node t).align + g.stopFrom 0 (g.node t).items := by
  have hdvd : (g.node t).align ∣ roundUp (g.stopBefore c k) (g.node t).align :=
    dvd_roundUp _ (pos_of_mem_alignments (h.settled.nodes t).align)
  have halign : ∀ x ∈ (g.node t).items, 0 < g.elementAlign x.kind ∧
      g.elementAlign x.kind ∣ roundUp (g.stopBefore c k) (g.node t).align := fun x hx =>
    ⟨h.settled.elementAlign_pos x.kind, ((he.tidy.nodes t).aligned x hx).trans hdvd⟩
  obtain ⟨hoffsets, hstop⟩ := layoutFrom_add halign 0
  rw [← hoffsets, ← hstop]
  have hsame := (layoutFrom_eq_iff g (g.stopBefore c k)
    (roundUp (g.stopBefore c k) (g.node t).align) 1 (g.node t).items).mpr (by
      rw [hfirst, roundUp_of_dvd ((he.tidy.nextAlign_dvd t).trans hdvd)])
  simpa only [roundUp_one, Nat.add_zero] using hsame

end Splices

/-- **A struct can be put in the place of its item exactly if it fits in.** -/
theorem keepsLayout_iff (h : g.Splices c t k) (he : g.Exact) :
    g.keepsLayout c k t = true ↔ g.FitsAt c k t := by
  rw [h.keepsLayout_iff he]
  constructor
  · rintro ⟨⟨hinner, hafter⟩, hend⟩
    have hfirst : roundUp (g.stopBefore c k) (g.nextAlign (g.node t).items 1) =
        roundUp (g.stopBefore c k) (g.node t).align := by
      obtain ⟨first, more, hitems⟩ := exists_cons_of_ne_nil h.filled
      have hzero := roundUp_of_dvd (dvd_zero (g.elementAlign first.kind))
      rw [hitems, offsetsFrom_cons, offsetsFrom_cons, map_cons, hzero] at hinner
      rw [hitems]
      exact (List.cons.inj hinner).1
    refine ⟨hfirst, ?_⟩
    rw [← (h.layoutFrom_inner he hfirst).2, ← h.stopBefore_succ]
    exact (layoutFrom_eq_iff g _ _ _ _).mp ⟨hafter, hend⟩
  · rintro ⟨hfirst, hback⟩
    obtain ⟨hinner, hstop⟩ := h.layoutFrom_inner he hfirst
    rw [← hstop, ← h.stopBefore_succ] at hback
    obtain ⟨hafter, hend⟩ := (layoutFrom_eq_iff g _ _ _ _).mpr hback
    exact ⟨⟨hinner, hafter⟩, hend⟩

/-! ### Runs -/

/-- How many elements of a kind there are in a list of items. -/
def elementsOf (e : Element) (items : List Item) : ℕ :=
  (items.map fun item => if item.kind = e then item.count else 0).sum

theorem elementsOf_cons (e : Element) (item : Item) (items : List Item) :
    elementsOf e (item :: items) =
      (if item.kind = e then item.count else 0) + elementsOf e items := rfl

theorem elementsOf_append (e : Element) (items more : List Item) :
    elementsOf e (items ++ more) = elementsOf e items + elementsOf e more := by
  simp [elementsOf]

theorem count_le_elementsOf {e : Element} (h : item ∈ items) (hk : item.kind = e) :
    item.count ≤ elementsOf e items := by
  have hterm := le_sum_of_mem (mem_map_of_mem (f := fun x : Item =>
    if x.kind = e then x.count else 0) h)
  rwa [if_pos hk] at hterm

/-- Merging drops what does not fit, and adds nothing. -/
theorem elementsOf_pushItem_le (e : Element) (items : List Item) (item : Item) :
    elementsOf e (pushItem items item) ≤ elementsOf e (items ++ [item]) := by
  cases hm : mergesInto items item with
  | false => rw [pushItem_of_not_merges hm]
  | true =>
    obtain ⟨init, last, rfl, hk, heq⟩ := pushItem_of_merges hm
    have hwrap := wrap_le (last.count + item.count)
    simp only [heq, elementsOf_append, elementsOf_cons, hk]
    split <;> omega

theorem elementsOf_coalesce_le (e : Element) (items : List Item) :
    elementsOf e (coalesce items).1 ≤ elementsOf e items := by
  induction items using List.reverseRecOn with
  | nil => exact le_refl _
  | append_singleton items item ih =>
    rw [coalesce_concat]
    refine (elementsOf_pushItem_le e _ item).trans ?_
    rw [elementsOf_append, elementsOf_append]
    exact Nat.add_le_add_right ih _

/-- A list that runs are merged into keeps everything but the count of its last item, and that
grows as long as it fits. -/
theorem exists_foldl_pushItem (init : List Item) (last : Item) (items : List Item) :
    ∃ n tail, items.foldl pushItem (init ++ [last]) = init ++ ⟨n, last.kind⟩ :: tail ∧
      (elementsOf last.kind (last :: items) < wordSize → last.count ≤ n) := by
  induction items generalizing init last with
  | nil => exact ⟨last.count, [], rfl, fun _ => le_refl _⟩
  | cons item items ih =>
    rw [foldl_cons]
    cases hm : mergesInto (init ++ [last]) item with
    | true =>
      obtain ⟨init', last', hi, hk, heq⟩ := pushItem_of_merges hm
      obtain ⟨rfl, hlast⟩ := append_inj' hi rfl
      obtain rfl := List.singleton_inj.mp hlast
      obtain ⟨n, tail, hfold, hle⟩ := ih init ⟨wrap (last.count + item.count), item.kind⟩
      refine ⟨n, tail, by rw [heq, hfold, hk], fun hfits => ?_⟩
      simp only [elementsOf_cons, hk, if_true] at hfits hle
      rw [wrap_of_lt (by omega)] at hle
      have hgrown := hle (by omega)
      omega
    | false =>
      obtain ⟨n, tail, hfold, -⟩ := ih (init ++ [last]) item
      refine ⟨last.count, ⟨n, item.kind⟩ :: tail, ?_, fun _ => le_refl _⟩
      rw [pushItem_of_not_merges hm, hfold, append_assoc]
      rfl

theorem coalesce_eq_foldl (items : List Item) : (coalesce items).1 = items.foldl pushItem [] := by
  induction items using List.reverseRecOn with
  | nil => rfl
  | append_singleton items item ih => rw [coalesce_concat, foldl_append, ← ih]; rfl

theorem Compact.foldl_pushItem (h : Compact items) : items.foldl Graph.pushItem [] = items := by
  induction items using List.reverseRecOn with
  | nil => rfl
  | append_singleton items item ih =>
    obtain ⟨hinit, -, hlast⟩ := List.isChain_append.mp h
    rw [foldl_append, ih hinit]
    refine pushItem_of_not_merges ?_
    cases hl : items.getLast? with
    | none => simp [mergesInto, hl]
    | some last => simpa [mergesInto, hl] using hlast last hl item rfl

/-- **Merging starts at the seam**: what was merged before stays, or its last item grows. -/
theorem Compact.coalesce_append (h : Compact pre) (item : Item) (rest : List Item) :
    (∃ init last n tail, pre = init ++ [last] ∧ last.kind = item.kind ∧
        (coalesce (pre ++ item :: rest)).1 = init ++ ⟨n, item.kind⟩ :: tail ∧
        (elementsOf item.kind (pre ++ item :: rest) < wordSize → last.count + item.count ≤ n)) ∨
      ∃ n tail, (coalesce (pre ++ item :: rest)).1 = pre ++ ⟨n, item.kind⟩ :: tail := by
  rw [coalesce_eq_foldl, foldl_append, h.foldl_pushItem, foldl_cons]
  cases hm : mergesInto pre item with
  | true =>
    obtain ⟨init, last, rfl, hk, heq⟩ := pushItem_of_merges hm
    obtain ⟨n, tail, hfold, hle⟩ :=
      exists_foldl_pushItem init ⟨wrap (last.count + item.count), item.kind⟩ rest
    refine .inl ⟨init, last, n, tail, rfl, hk, by rw [heq, hfold], fun hfits => ?_⟩
    simp only [elementsOf_append, elementsOf_cons, hk, if_true] at hfits hle
    rw [wrap_of_lt (by omega)] at hle
    exact hle (by omega)
  | false =>
    obtain ⟨n, tail, hfold, -⟩ := exists_foldl_pushItem pre item rest
    exact .inr ⟨n, tail, by rw [pushItem_of_not_merges hm, hfold]⟩

/-- The first item keeps its kind. -/
theorem nextAlign_coalesce (g : Graph) (items : List Item) (last : ℕ) :
    g.nextAlign (coalesce items).1 last = g.nextAlign items last := by
  cases items with
  | nil => rfl
  | cons item items =>
    obtain ⟨n, tail, hfold, -⟩ := exists_foldl_pushItem [] item items
    rw [coalesce_eq_foldl, foldl_cons]
    show g.nextAlign (items.foldl pushItem ([] ++ [item])) last = _
    rw [hfold]
    rfl

section Counts

variable {e : Element}

/-- A run of what is in a list counts no more than all of its kind. -/
theorem count_le_of_mem_coalesce {x : Item} (hx : x ∈ (coalesce items).1) (hk : x.kind = e) :
    x.count ≤ elementsOf e items :=
  (count_le_elementsOf hx hk).trans (elementsOf_coalesce_le e items)

/-- Counts are added, so a run that is made of counts above zero has one. -/
theorem count_of_mem_coalesce (h : ∀ x ∈ items, x.kind = e → x.count ≠ 0)
    (hfits : elementsOf e items < wordSize) {x : Item} (hx : x ∈ (coalesce items).1)
    (hk : x.kind = e) : x.count ≠ 0 := by
  induction items using List.reverseRecOn generalizing x with
  | nil => simp [coalesce] at hx
  | append_singleton items item ih =>
    rw [elementsOf_append] at hfits
    have ih {y : Item} (hy : y ∈ (coalesce items).1) (hyk : y.kind = e) : y.count ≠ 0 :=
      ih (fun z hz => h z (mem_append_left _ hz)) (by omega) hy hyk
    rw [coalesce_concat] at hx
    cases hm : mergesInto (coalesce items).1 item with
    | true =>
      obtain ⟨init, last, hi, hlast, heq⟩ := pushItem_of_merges hm
      rw [heq, mem_append, mem_singleton] at hx
      rcases hx with hx | rfl
      · exact ih (by simp [hi, hx]) hk
      · have hmem : last ∈ (coalesce items).1 := by simp [hi]
        have hlarge := ih hmem (hlast.trans hk)
        have hbound := count_le_of_mem_coalesce hmem (hlast.trans hk)
        rw [elementsOf_cons, if_pos hk] at hfits
        show wrap (last.count + item.count) ≠ 0
        rw [wrap_of_lt (by omega)]
        omega
    | false =>
      rw [pushItem_of_not_merges hm, mem_append, mem_singleton] at hx
      rcases hx with hx | rfl
      · exact ih hx hk
      · exact h x (by simp) hk

/-- **What a link was merged into is still there**, and counts for two if no count is zero and
all of them together fit. -/
theorem exists_mem_of_released {x : NodeId} (h : x ∈ (coalesce items).2) :
    ∃ y ∈ (coalesce items).1, y.kind.link? = some x ∧
      ((∀ z ∈ items, z.kind = y.kind → z.count ≠ 0) → elementsOf y.kind items < wordSize →
        2 ≤ y.count) := by
  induction items using List.reverseRecOn with
  | nil => simp [coalesce] at h
  | append_singleton items item ih =>
    have hfront (e : Element) : elementsOf e items ≤ elementsOf e (items ++ [item]) := by
      rw [elementsOf_append]
      exact Nat.le_add_right _ _
    rw [coalesce_concat] at h ⊢
    cases hm : mergesInto (coalesce items).1 item with
    | false =>
      rw [hm] at h
      obtain ⟨y, hy, hl, hcount⟩ := ih h
      refine ⟨y, ?_, hl, fun hz hfits => hcount (fun z hm => hz z (mem_append_left _ hm))
        ((hfront _).trans_lt hfits)⟩
      rw [pushItem_of_not_merges hm]
      exact mem_append_left _ hy
    | true =>
      obtain ⟨init, last, hi, hk, heq⟩ := pushItem_of_merges hm
      rw [hm, if_pos rfl, mem_append] at h
      rw [heq]
      by_cases hl : item.kind.link? = some x
      · refine ⟨⟨wrap (last.count + item.count), item.kind⟩, by simp, hl, fun hz hfits => ?_⟩
        have hmem : last ∈ (coalesce items).1 := by simp [hi]
        have hlast := count_of_mem_coalesce (fun z hm => hz z (mem_append_left _ hm))
          ((hfront _).trans_lt hfits) hmem hk
        have hitem := hz item (by simp) rfl
        have hbound := count_le_of_mem_coalesce hmem hk
        simp only [elementsOf_append, elementsOf_cons, if_true] at hfits
        show 2 ≤ wrap (last.count + item.count)
        rw [wrap_of_lt (by omega)]
        omega
      · have hreleased : x ∈ (coalesce items).2 := h.resolve_right fun hx => hl (by simpa using hx)
        obtain ⟨y, hy, hlink, hcount⟩ := ih hreleased
        rw [hi, mem_append, mem_singleton] at hy
        refine ⟨y, mem_append_left _ (hy.resolve_right ?_), hlink,
          fun hz hfits => hcount (fun z hm => hz z (mem_append_left _ hm))
            ((hfront _).trans_lt hfits)⟩
        rintro rfl
        exact hl (hk ▸ hlink)

end Counts

end TypeLayout.Graph
