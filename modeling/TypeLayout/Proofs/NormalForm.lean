import TypeLayout.Proofs.Consistent
import TypeLayout.Proofs.Fitting

/-!
# Nothing is left to merge

The optimizer visits every node once and never goes back to an item that it has passed. Still
no step of merging is possible when it is done (`Graph.Regular.final_inlineStructs`), so a
second run would change nothing. What could have made an item fit that did not fit before?

* Other structs get flattened, and so may the one that the item links to. It then starts with
  a finer alignment and ends earlier, which makes both ends of it harder to fit.
* References are merged, and the last one left may be to a struct that used to have several.
  But the two that are merged are next to each other and count for two afterwards, and such an
  item is never replaced.
* A struct becomes a union. A container whose only item it is could now become that union; but
  then the struct would have fitted in there.

The second point needs that no item counts for nothing, as an array without elements does. With
one, the claim is false (`Session.inlineStructs_twice_empty_array`). It also needs that merged
items do not count for one again, which they may where counts do not fit into 64 bits: so no
struct may be linked to that often (`Graph.CountsFit`), counting every element of an array.
-/

namespace TypeLayout

open List

namespace Graph

open Relation

variable {g g' : Graph} {c d t u x : NodeId} {k j : ℕ} {items : List Item}

/-- No link to a struct is an array without elements. -/
def Populated (g : Graph) : Prop :=
  ∀ id, ∀ item ∈ (g.node id).items, ∀ t, item.kind = .structLink t → item.count ≠ 0

/-- Whether no link to a struct among some items is an array without elements. -/
def populatedItems (items : List Item) : Bool :=
  items.all fun item => match item with
    | ⟨0, .structLink _⟩ => false
    | _ => true

theorem populated_of_all (h : (g.nodes.all fun n => populatedItems n.items) = true) :
    g.Populated := by
  intro id item hi t hk hzero
  have hmem : g.node id ∈ g.nodes := by
    have hlt : id < g.size := by
      by_contra hle
      rw [node_of_le (Nat.le_of_not_lt hle)] at hi
      cases hi
    rw [node, Array.getD_eq_getD_getElem?, Array.getElem?_eq_getElem hlt]
    exact Array.getElem_mem hlt
  have hitem := List.all_eq_true.mp (Array.all_eq_true_iff_forall_mem.mp h _ hmem) item hi
  obtain ⟨count, kind⟩ := item
  obtain rfl : count = 0 := hzero
  obtain rfl : kind = .structLink t := hk
  cases hitem

/-- How many elements of all nodes that are left are a struct. -/
def timesLinked (g : Graph) (x : NodeId) : ℕ :=
  ∑ a ∈ Finset.range g.size,
    if (g.node a).removed then 0 else elementsOf (.structLink x) (g.node a).items

/-- No struct is linked to so often that the links could not be counted in 64 bits. -/
def CountsFit (g : Graph) : Prop := ∀ x, g.timesLinked x < wordSize

theorem countsFit_of_sum
    (h : ∑ a ∈ Finset.range g.size, ((g.node a).items.map Item.count).sum < wordSize) :
    g.CountsFit := by
  have hitems (e : Element) (items : List Item) :
      elementsOf e items ≤ (items.map Item.count).sum := by
    refine sum_le_sum fun item _ => ?_
    split <;> simp
  intro x
  refine lt_of_le_of_lt (Finset.sum_le_sum fun a _ => ?_) h
  split
  · exact Nat.zero_le _
  · exact hitems _ _

/-- **Nothing can be merged into a node.** -/
structure Exhausted (g : Graph) (c : NodeId) : Prop where
  splice : ∀ t k, g.Splices c t k → ¬ g.FitsAt c k t
  adopt : ∀ u, ¬ g.Adopts c u

theorem exhausted_of_not_takes (h : ¬ g.Takes c) : g.Exhausted c :=
  ⟨fun _ _ hs => absurd hs.takes h, fun _ ha => absurd ha.takes h⟩

/-- **No step of merging is possible.** -/
def Final (g : Graph) : Prop := ∀ g', ¬ g.Merge g'

/-- What is known about a graph while it is optimized. -/
structure Regular (g : Graph) : Prop extends g.Exact where
  populated : g.Populated
  counts : g.CountsFit

theorem Regular.final_iff (h : g.Regular) : g.Final ↔ ∀ c, g.Exhausted c := by
  constructor
  · intro hf c
    refine ⟨fun t k hs hfits => ?_, fun u ha => ?_⟩
    · exact hf _ (.splice hs.takes hs.spare hs.item hs.filled ((keepsLayout_iff hs h.toExact).mpr hfits))
    · exact hf _ (.adopt ha.takes ha.spare ha.kind ha.items ha.length ha.align)
  · rintro hall g' (@⟨c, t, k, hc, ht, hi, hne, hl⟩ | @⟨c, u, hc, hu, hk, hi, hlen, hal⟩)
    · have hs : g.Splices c t k := ⟨h.settled, hc, ht, hi, hne⟩
      exact (hall c).splice t k hs ((keepsLayout_iff hs h.toExact).mp hl)
    · exact (hall c).adopt u ⟨h.settled, hc, hu, hk, hi, hlen, hal⟩

/-! ### After a splice -/

/-- What leads to a struct is a link to a struct. -/
theorem eq_structLink_of_leads {e : Element} (hl : g.Leads e) (he : e.link? = some x)
    (hx : (g.node x).kind = .struct) : e = .structLink x := by
  cases e with
  | structLink y => rw [Option.some.inj he]
  | unionLink y =>
    obtain rfl := Option.some.inj he
    have hunion : (g.node y).kind = .union := hl.1
    rw [hx] at hunion
    cases hunion
  | _ => simp [Element.link?] at he

theorem eq_of_countP_eq_one {p : Item → Bool} (h : items.countP p = 1) {a b : Item} (ha : a ∈ items)
    (hb : b ∈ items) (hpa : p a = true) (hpb : p b = true) : a = b := by
  rw [countP_eq_length_filter] at h
  obtain ⟨z, hz⟩ := List.length_eq_one_iff.mp h
  have hmem {y : Item} (hy : y ∈ items) (hpy : p y = true) : y = z := by
    simpa [hz] using List.mem_filter.mpr ⟨hy, hpy⟩
  rw [hmem ha hpa, hmem hb hpb]

/-- What is a link to a struct after links were changed has not been changed. -/
theorem eq_of_relink_eq_structLink {item : Item}
    (h : (Inlining.relink c item).kind = .structLink x) : Inlining.relink c item = item := by
  unfold Inlining.relink at h ⊢
  split at h
  · cases h
  · rename_i hne
    rw [if_neg hne]

theorem KeepsSizes.nextAlign (h : g.KeepsSizes g') (hl : ∀ item ∈ items, g.Leads item.kind)
    (last : ℕ) : g'.nextAlign items last = g.nextAlign items last := by
  cases items with
  | nil => rfl
  | cons item items => exact h.elementAlign (hl item mem_cons_self)

theorem Settled.alignAfter_pos (h : g.Settled) (d : NodeId) (j : ℕ) : 0 < g.alignAfter d j := by
  unfold alignAfter Graph.nextAlign
  split
  · exact pos_of_mem_alignments (h.nodes d).align
  · exact pos_of_mem_alignments (elementAlign_mem h.nodes _)

theorem nextAlign_append (g : Graph) (items more : List Item) (last : ℕ) :
    g.nextAlign (items ++ more) last = g.nextAlign items (g.nextAlign more last) := by
  cases items <;> rfl

namespace Splices

variable (h : g.Splices c t k)

include h

theorem elementsOf_spliced_le (e : Element) :
    elementsOf e (spliced (g.node c).items (g.node t).items k) ≤
      elementsOf e (g.node c).items + elementsOf e (g.node t).items := by
  conv_rhs => rw [eq_take_cons_drop h.item]
  simp only [spliced, elementsOf_append, elementsOf_cons]
  omega

/-- All links to a struct, apart from those in the container and in what it takes over. -/
theorem timesLinked_eq (x : NodeId) : ∃ n,
    g.timesLinked x = elementsOf (.structLink x) (g.node t).items +
        (elementsOf (.structLink x) (g.node c).items + n) ∧
      (g.splice c k t).timesLinked x = elementsOf (.structLink x) (g.spliceItems c k t).1 + n := by
  have hc : c ∈ (Finset.range g.size).erase t :=
    Finset.mem_erase.mpr ⟨h.ne.symm, Finset.mem_range.mpr h.lt_container⟩
  have ht : t ∈ Finset.range g.size := Finset.mem_range.mpr h.lt_target
  refine ⟨∑ a ∈ ((Finset.range g.size).erase t).erase c,
    if (g.node a).removed then 0 else elementsOf (.structLink x) (g.node a).items, ?_, ?_⟩
  · rw [timesLinked, ← Finset.add_sum_erase _ _ ht, ← Finset.add_sum_erase _ _ hc, h.takes.kept,
      h.spare.kept]
    rfl
  · have hkept := (h.kept_iff c).mpr ⟨h.ne.symm, h.takes.kept⟩
    have hgone : ((g.splice c k t).node t).removed = true := by
      rw [h.node t]
      simp
    rw [timesLinked, size_splice, ← Finset.add_sum_erase _ _ ht, ← Finset.add_sum_erase _ _ hc,
      hgone, hkept, h.items_container, if_pos rfl, if_neg (by simp), Nat.zero_add]
    refine congrArg _ (Finset.sum_congr rfl fun a ha => ?_)
    rw [Finset.mem_erase, Finset.mem_erase] at ha
    rw [h.node a]
    simp [ha.1, ha.2.1]

/-- Items only move, so what is merged fits if all links do. -/
theorem elementsOf_spliced_lt (hc : g.CountsFit) (x : NodeId) :
    elementsOf (.structLink x) (spliced (g.node c).items (g.node t).items k) < wordSize := by
  obtain ⟨n, hall, -⟩ := h.timesLinked_eq x
  have hsum := hc x
  have hle := h.elementsOf_spliced_le (.structLink x)
  omega

theorem countsFit (hc : g.CountsFit) : (g.splice c k t).CountsFit := by
  intro x
  obtain ⟨n, hall, hnew⟩ := h.timesLinked_eq x
  have hsum := hc x
  have hle := h.elementsOf_spliced_le (.structLink x)
  have hmerged := elementsOf_coalesce_le (.structLink x)
    (spliced (g.node c).items (g.node t).items k)
  rw [hnew, spliceItems]
  omega

theorem populated (hp : g.Populated) (hc : g.CountsFit) : (g.splice c k t).Populated := by
  intro id item hi x hx
  rw [h.node id] at hi
  dsimp only at hi
  split at hi
  · refine count_of_mem_coalesce (fun y hy hk => ?_) (h.elementsOf_spliced_lt hc x) hi hx
    rcases mem_spliced hy with hy | hy
    · exact hp c y hy x hk
    · exact hp t y hy x hk
  · exact hp id item hi x hx

theorem items_of_ne (hd : d ≠ c) : ((g.splice c k t).node d).items = (g.node d).items := by
  rw [h.node d]
  simp [hd]

theorem takes_of_takes (hd : (g.splice c k t).Takes d) : g.Takes d := by
  obtain ⟨hdefined, hkept, hkind⟩ := hd
  refine ⟨?_, ((h.kept_iff d).mp hkept).2, ?_⟩
  · rw [h.node d] at hdefined
    exact hdefined
  · rw [h.node d] at hkind
    exact hkind

/-- A node to which no reference was merged away was spare before. -/
theorem spare_of_spare (hx : (g.splice c k t).Spare x) (hr : x ∉ (g.spliceItems c k t).2) :
    g.Spare x := by
  obtain ⟨hrefs, hkey, hkept⟩ := hx
  rw [h.node x] at hrefs hkey
  refine ⟨?_, hkey, ((h.kept_iff x).mp hkept).2⟩
  simpa [count_eq_zero_of_not_mem hr] using hrefs

/-- A reference that is merged away leaves one in the container, so a spare node that some
other container links to has lost none. -/
theorem not_released_of_ne (hd : d ≠ c) (hx : (g.splice c k t).Spare x)
    (hlt : d < g.size) (hlink : ((g.splice c k t).node d).linksTo x ≠ 0) :
    x ∉ (g.spliceItems c k t).2 := by
  intro hr
  obtain ⟨y, hy, hl, -⟩ := exists_mem_of_released hr
  have hzero := (h.settled_splice.only hx (size_splice.symm ▸ hlt) hlink).2 c hd.symm
  have hkept := (h.kept_iff c).mpr ⟨h.ne.symm, h.takes.kept⟩
  exact (not_linked_iff hkept).mp hzero y (h.items_container ▸ hy) hl

theorem stopBefore_of_take (hd : ((g.splice c k t).node d).items.take j = (g.node d).items.take j) :
    (g.splice c k t).stopBefore d j = g.stopBefore d j := by
  rw [stopBefore, hd]
  exact h.keepsSizes.stopFrom (fun y hy => (h.settled.nodes d).leads y (mem_of_mem_take hy)) 0

/-- A struct that is not the container has the ends that it had. -/
theorem ends_of_ne (hx : x ≠ c) :
    (g.splice c k t).nextAlign ((g.splice c k t).node x).items 1 =
        g.nextAlign (g.node x).items 1 ∧
      (g.splice c k t).stopFrom 0 ((g.splice c k t).node x).items =
        g.stopFrom 0 (g.node x).items := by
  rw [h.items_of_ne hx]
  exact ⟨h.keepsSizes.nextAlign (h.settled.nodes x).leads 1,
    h.keepsSizes.stopFrom (h.settled.nodes x).leads 0⟩

/-! ### Other containers -/

theorem splices_of_ne (hd : d ≠ c) (h' : (g.splice c k t).Splices d x j) : g.Splices d x j where
  settled := h.settled
  takes := h.takes_of_takes h'.takes
  spare := h.spare_of_spare h'.spare (h.not_released_of_ne hd h'.spare
    (size_splice (g := g) ▸ h'.lt_container) h'.linked)
  item := h.items_of_ne hd ▸ h'.item
  filled := by
    rcases eq_or_ne x c with rfl | hx
    · exact ne_nil_of_mem h.mem
    · exact h.items_of_ne hx ▸ h'.filled

theorem adopts_of_ne (hd : d ≠ c) (h' : (g.splice c k t).Adopts d u) : g.Adopts d u where
  settled := h.settled
  takes := h.takes_of_takes h'.takes
  spare := h.spare_of_spare h'.spare (h.not_released_of_ne hd h'.spare
    (size_splice (g := g) ▸ h'.lt_container) h'.linked)
  kind := by
    have hkind := h'.kind
    rwa [h.node d] at hkind
  items := h.items_of_ne hd ▸ h'.items
  length := by simpa only [h.length_splice] using h'.length
  align := by simpa only [h.align_splice] using h'.align

/-- Flattening refines the alignment at the start of the container. -/
theorem nextAlign_spliceItems_dvd (ht : g.Tidy) :
    g.nextAlign (g.spliceItems c k t).1 1 ∣ g.nextAlign (g.node c).items 1 := by
  have hitem := h.item
  obtain ⟨first, more, hfilled⟩ := exists_cons_of_ne_nil h.filled
  rw [spliceItems, nextAlign_coalesce, spliced, hfilled]
  have hinner := ht.nextAlign_dvd t
  rw [hfilled] at hinner
  cases hitems : (g.node c).items with
  | nil => simp [hitems] at hitem
  | cons y ys =>
    cases k with
    | zero =>
      rw [hitems] at hitem
      obtain rfl : y = ⟨1, .structLink t⟩ := by simpa using hitem
      exact hinner
    | succ k => exact dvd_refl _

/-- **What fits elsewhere now fitted before.** If it is the container itself, its items start
and end no earlier than before. -/
theorem fits_of_ne (he : g.Exact) (hd : d ≠ c)
    (h' : (g.splice c k t).FitsAt d j x) (hx : (g.node x).isDefined = true)
    (hk : (g.node x).kind ≠ .union) : g.FitsAt d j x := by
  obtain ⟨hfront, hback⟩ := h'
  have hbefore : (g.splice c k t).stopBefore d j = g.stopBefore d j :=
    h.stopBefore_of_take (by rw [h.items_of_ne hd])
  have hafter : (g.splice c k t).alignAfter d j = g.alignAfter d j := by
    rw [alignAfter, h.items_of_ne hd, h.align_splice]
    exact h.keepsSizes.nextAlign
      (fun y hy => (h.settled.nodes d).leads y (mem_of_mem_drop hy)) _
  rw [hbefore, h.align_splice] at hfront
  rw [hbefore, hafter, h.align_splice, h.length_splice] at hback
  rcases eq_or_ne x c with rfl | hxc
  · rw [h.items_container, h.keepsSizes.nextAlign h.leads_spliceItems] at hfront
    rw [h.items_container, h.keepsSizes.stopFrom h.leads_spliceItems] at hback
    have hpos := pos_of_mem_alignments (h.settled.nodes x).align
    have hfirst : 0 < g.nextAlign (g.node x).items 1 :=
      Nat.pos_of_dvd_of_pos (he.tidy.nextAlign_dvd x) hpos
    have hafterPos : 0 < g.alignAfter d j := h.settled.alignAfter_pos d j
    refine ⟨le_antisymm ?_ ?_, le_antisymm ?_ ?_⟩
    · exact roundUp_le_of_dvd _ (he.tidy.nextAlign_dvd x) hpos
    · rw [← hfront]
      exact roundUp_le_of_dvd _ (h.nextAlign_spliceItems_dvd he.tidy) hfirst
    · refine roundUp_mono (Nat.add_le_add_left ?_ _) hafterPos
      rw [he.length_eq hx hk]
      exact le_roundUp _ _
    · rw [← hback]
      rw [h.stopFrom_spliceItems he]
      exact roundUp_mono (Nat.add_le_add_left (h.stop_spliced_le he) _) hafterPos
  · rw [(h.ends_of_ne hxc).1] at hfront
    rw [(h.ends_of_ne hxc).2] at hback
    exact ⟨hfront, hback⟩

theorem exhausted_of_ne (he : g.Exact) (hd : d ≠ c) (hdone : g.Exhausted d) :
    (g.splice c k t).Exhausted d := by
  refine ⟨fun x j hs hfits => ?_, fun u ha => hdone.adopt u (h.adopts_of_ne hd ha)⟩
  have hs' := h.splices_of_ne hd hs
  exact hdone.splice x j hs' (h.fits_of_ne he hd hfits hs'.leads.2 (by simp [hs'.leads.1]))

/-! ### In front of the seam -/

/-- **What is left in front of the seam**: an item there that could be replaced has not been
merged with anything, and nor has anything before it. What follows it is of the kind that it
was, or it is the first item of the struct. -/
theorem item_before (hr : g.Regular) (hj : j < k)
    (hi : (g.spliceItems c k t).1[j]? = some ⟨1, .structLink x⟩) (last : ℕ) :
    (g.node c).items[j]? = some ⟨1, .structLink x⟩ ∧
      (g.spliceItems c k t).1.take j = (g.node c).items.take j ∧
      (g.nextAlign ((g.spliceItems c k t).1.drop (j + 1)) last =
          g.nextAlign ((g.node c).items.drop (j + 1)) last ∨
        j + 1 = k ∧ g.nextAlign ((g.spliceItems c k t).1.drop (j + 1)) last =
          g.nextAlign (g.node t).items 1) := by
  obtain ⟨first, more, hfilled⟩ := exists_cons_of_ne_nil h.filled
  have hlen := h.length_take
  have hitems := (take_append_drop k (g.node c).items).symm
  have hpre : Compact ((g.node c).items.take k) := (hr.tidy.nodes c).runs.take k
  have hspliced : spliced (g.node c).items (g.node t).items k =
      (g.node c).items.take k ++ first :: (more ++ (g.node c).items.drop (k + 1)) := by
    rw [spliced, hfilled, append_assoc]
    rfl
  have hfits := h.elementsOf_spliced_lt hr.counts x
  rw [hspliced] at hfits
  generalize hrest : (g.node c).items.drop k = rest at hitems
  generalize hpreEq : (g.node c).items.take k = pre at *
  rw [spliceItems, hspliced] at hi ⊢
  rcases hpre.coalesce_append first (more ++ (g.node c).items.drop (k + 1)) with
    ⟨init, prev, n, tail, rfl, hprev, heq, hgrown⟩ | ⟨n, tail, heq⟩
  · rw [heq] at hi ⊢
    rw [length_append, length_singleton] at hlen
    rcases Nat.lt_or_ge j init.length with hlt | hge
    · rw [getElem?_append_left hlt] at hi
      rw [hitems, append_assoc, getElem?_append_left hlt,
        take_append_of_le_length hlt.le, take_append_of_le_length hlt.le,
        drop_append_of_le_length hlt, drop_append_of_le_length hlt, nextAlign_append,
        nextAlign_append]
      exact ⟨hi, rfl, .inl (by rw [singleton_append, nextAlign, nextAlign, hprev])⟩
    · -- the item has grown, so it counts for more than one
      obtain rfl : j = init.length := by omega
      rw [getElem?_append_right hge, Nat.sub_self, getElem?_cons_zero] at hi
      obtain ⟨hcount, hkind⟩ := Item.mk.inj (Option.some.inj hi)
      have hlarge := hr.populated c prev (by rw [hitems]; simp) x (hprev.trans hkind)
      have hlarge' := hr.populated t first (by simp [hfilled]) x hkind
      have hcount' := hgrown (hkind ▸ hfits)
      omega
  · rw [heq] at hi ⊢
    have hlt : j < pre.length := by omega
    rw [getElem?_append_left hlt] at hi
    rw [hitems, getElem?_append_left hlt, take_append_of_le_length hlt.le,
      take_append_of_le_length hlt.le, drop_append_of_le_length hlt,
      drop_append_of_le_length hlt, nextAlign_append, nextAlign_append]
    refine ⟨hi, rfl, ?_⟩
    cases hdrop : pre.drop (j + 1) with
    | cons y ys => exact .inl rfl
    | nil =>
      have hle := List.drop_eq_nil_iff.mp hdrop
      refine .inr ⟨by omega, ?_⟩
      rw [hfilled]
      rfl

theorem splices_before (hr : g.Regular) (hj : j < k)
    (h' : (g.splice c k t).Splices c x j) : g.Splices c x j := by
  have hi : (g.spliceItems c k t).1[j]? = some ⟨1, .structLink x⟩ := h.items_container ▸ h'.item
  refine ⟨h.settled, h.takes, h.spare_of_spare h'.spare fun hgone => ?_,
    (h.item_before hr hj hi 1).1, h.items_of_ne h'.ne ▸ h'.filled⟩
  -- a merged reference would be a second one in the container
  obtain ⟨y, hy, hl, hcount⟩ := exists_mem_of_released hgone
  have hy' : y ∈ ((g.splice c k t).node c).items := h.items_container.symm ▸ hy
  have hkind := eq_structLink_of_leads ((h'.settled.nodes c).leads y hy') hl h'.leads.1
  have hlarge : 2 ≤ y.count := by
    refine hcount (fun z hz hzy => ?_) (hkind ▸ h.elementsOf_spliced_lt hr.counts x)
    rcases mem_spliced hz with hz | hz
    · exact hr.populated c z hz x (hzy.trans hkind)
    · exact hr.populated t z hz x (hzy.trans hkind)
  have hone := (h'.settled.only h'.spare h'.lt_container h'.linked).1
  rw [Node.linksTo, h'.takes.kept, if_neg (by simp)] at hone
  have hsame : y = ⟨1, .structLink x⟩ :=
    eq_of_countP_eq_one hone hy' h'.mem (by simpa using hl) (by simp [Element.link?])
  rw [hsame] at hlarge
  exact absurd hlarge (by simp)

/-- **What fits in front of the seam fitted before.** Only what follows the last item there has
changed: it starts at the same place with a finer alignment. -/
theorem fits_before (hr : g.Regular) (hf : g.FitsAt c k t) (hj : j < k)
    (h' : (g.splice c k t).Splices c x j) (hfits : (g.splice c k t).FitsAt c j x) :
    g.FitsAt c j x := by
  obtain ⟨hfront, hback⟩ := hfits
  have hi : (g.spliceItems c k t).1[j]? = some ⟨1, .structLink x⟩ := h.items_container ▸ h'.item
  have hold := h.splices_before hr hj h'
  obtain ⟨-, htake, hnext⟩ := h.item_before hr hj hi (g.node c).align
  have hbefore : (g.splice c k t).stopBefore c j = g.stopBefore c j :=
    h.stopBefore_of_take (by rw [h.items_container, htake])
  have hafter : (g.splice c k t).alignAfter c j =
      g.nextAlign ((g.spliceItems c k t).1.drop (j + 1)) (g.node c).align := by
    rw [alignAfter, h.items_container, h.align_splice]
    exact h.keepsSizes.nextAlign (fun y hy => h.leads_spliceItems y (mem_of_mem_drop hy)) _
  obtain ⟨hfirst, hstop⟩ := h.ends_of_ne h'.ne
  rw [hbefore, hfirst, h.align_splice] at hfront
  rw [hbefore, hafter, hstop, h.align_splice, h.length_splice] at hback
  refine ⟨hfront, ?_⟩
  rcases hnext with hsame | ⟨rfl, hfirst⟩
  · rw [hsame] at hback
    exact hback
  · have hcoarse : g.alignAfter c j = (g.node t).align := by
      rw [alignAfter, drop_eq_getElem?_toList_append, h.item]
      rfl
    have hlength : (g.node x).length = roundUp (g.stopFrom 0 (g.node x).items) (g.node x).align :=
      hr.toExact.length_eq hold.leads.2 (by simp [hold.leads.1])
    rw [hfirst] at hback
    rw [hcoarse]
    refine roundUp_eq_of_finer (Nat.add_le_add_left ?_ _) (hr.tidy.nextAlign_dvd t)
      (pos_of_mem_alignments (h.settled.nodes t).align) hback ?_
    · rw [hlength]
      exact le_roundUp _ _
    · rw [← hold.stopBefore_succ]
      exact hf.front

end Splices

/-! ### After an adoption -/

namespace Adopts

variable (h : g.Adopts c u)

include h

theorem populated (hp : g.Populated) : (Inlining.adopt g c u).Populated := by
  intro id item hi x hx
  rw [h.node id] at hi
  dsimp only at hi
  split at hi
  · cases hi
  · obtain ⟨y, hy, rfl⟩ := List.mem_map.mp hi
    have hsame := eq_of_relink_eq_structLink hx
    rw [hsame] at hx ⊢
    exact hp id y hy x hx

theorem countsFit (hc : g.CountsFit) : (Inlining.adopt g c u).CountsFit := by
  intro x
  refine lt_of_le_of_lt ?_ (hc x)
  rw [timesLinked, size_adopt]
  refine Finset.sum_le_sum fun a _ => ?_
  have hitems : elementsOf (.structLink x) ((Inlining.adopt g c u).node a).items ≤
      elementsOf (.structLink x) (g.node a).items := by
    rw [h.node a]
    dsimp only
    split
    · exact Nat.zero_le _
    · rw [elementsOf, List.map_map]
      refine sum_le_sum fun item _ => ?_
      by_cases hx : (Inlining.relink c item).kind = .structLink x
      · rw [Function.comp_apply, eq_of_relink_eq_structLink hx]
      · rw [Function.comp_apply, if_neg hx]
        exact Nat.zero_le _
  cases hkept : ((Inlining.adopt g c u).node a).removed with
  | true => exact Nat.zero_le _
  | false =>
    rw [((h.kept_iff a).mp hkept).2]
    exact hitems

theorem items_of_ne (hd : d ≠ c) : ((Inlining.adopt g c u).node d).items =
    (g.node d).items.map (Inlining.relink c) := by
  rw [h.node d]
  simp [hd]

theorem takes_of_takes (hd : d ≠ c) (htakes : (Inlining.adopt g c u).Takes d) : g.Takes d := by
  obtain ⟨hdefined, hkept, hkind⟩ := htakes
  refine ⟨?_, ((h.kept_iff d).mp hkept).2, ?_⟩
  · rw [h.node d] at hdefined
    exact hdefined
  · rw [h.node d] at hkind
    simpa [hd] using hkind

theorem spare_of_spare (hx : (Inlining.adopt g c u).Spare x) : g.Spare x := by
  obtain ⟨hrefs, hkey, hkept⟩ := hx
  rw [h.node x] at hrefs hkey
  exact ⟨hrefs, hkey, ((h.kept_iff x).mp hkept).2⟩

theorem not_takes : ¬ (Inlining.adopt g c u).Takes c := by
  intro htakes
  have hkind := htakes.ne_union
  rw [h.node c] at hkind
  simp at hkind

theorem nextAlign_relink (items : List Item) (last : ℕ) :
    (Inlining.adopt g c u).nextAlign (items.map (Inlining.relink c)) last =
      g.nextAlign items last := by
  cases items with
  | nil => rfl
  | cons item items => exact (h.size_relink item).2

theorem splices_of_ne (hd : d ≠ c) (h' : (Inlining.adopt g c u).Splices d x j) :
    g.Splices d x j ∧ x ≠ c := by
  have hxc : x ≠ c := by
    rintro rfl
    have hkind := h'.leads.1
    rw [h.node x] at hkind
    simp at hkind
  refine ⟨⟨h.settled, h.takes_of_takes hd h'.takes, h.spare_of_spare h'.spare, ?_, ?_⟩, hxc⟩
  · have hi := h'.item
    rw [h.items_of_ne hd, getElem?_map, Option.map_eq_some_iff] at hi
    obtain ⟨y, hy, hyx⟩ := hi
    rw [hy, ← hyx, eq_of_relink_eq_structLink (congrArg Item.kind hyx)]
  · have hfilled := h'.filled
    rw [h.items_of_ne hxc] at hfilled
    simpa using hfilled

/-- Links keep their sizes, so what fits fitted before. -/
theorem fits_of_ne (hd : d ≠ c) (hx : x ≠ c) (h' : (Inlining.adopt g c u).FitsAt d j x) :
    g.FitsAt d j x := by
  obtain ⟨hfront, hback⟩ := h'
  have hbefore : (Inlining.adopt g c u).stopBefore d j = g.stopBefore d j := by
    rw [stopBefore, h.items_of_ne hd, ← map_take, h.stopFrom_relink]
    rfl
  have hafter : (Inlining.adopt g c u).alignAfter d j = g.alignAfter d j := by
    rw [alignAfter, h.items_of_ne hd, ← map_drop, h.nextAlign_relink, h.align_adopt]
    rfl
  rw [hbefore, h.align_adopt, h.items_of_ne hx, h.nextAlign_relink] at hfront
  rw [hbefore, hafter, h.align_adopt, h.length_adopt, h.items_of_ne hx, h.stopFrom_relink] at hback
  exact ⟨hfront, hback⟩

/-- A struct fits into a container of its own size that holds nothing else. -/
theorem fits_alone (he : g.Exact) (hd : (g.node d).items = [⟨1, .structLink c⟩])
    (hal : (g.node d).align = (g.node c).align) : g.FitsAt d 0 c := by
  have hzero (a : ℕ) : roundUp 0 a = 0 := roundUp_of_dvd (dvd_zero a)
  have hbefore : g.stopBefore d 0 = 0 := rfl
  have hafter : g.alignAfter d 0 = (g.node c).align := by
    rw [alignAfter, hd, ← hal]
    rfl
  have hlength := he.length_eq h.takes.isDefined h.takes.ne_union
  have hdvd : (g.node c).align ∣ (g.node c).length := by
    rw [hlength]
    exact dvd_roundUp _ (pos_of_mem_alignments (h.settled.nodes c).align)
  refine ⟨by rw [hbefore, hzero, hzero], ?_⟩
  rw [hbefore, hafter, hzero, Nat.zero_add, Nat.zero_add, roundUp_of_dvd hdvd, hlength]

/-- **No container can become a union because its only item has become one.** -/
theorem exhausted_of_ne (he : g.Exact) (hd : d ≠ c) (hdone : g.Exhausted d) :
    (Inlining.adopt g c u).Exhausted d := by
  refine ⟨fun x j hs hfits => ?_, fun w ha => ?_⟩
  · obtain ⟨hs', hx⟩ := h.splices_of_ne hd hs
    exact hdone.splice x j hs' (h.fits_of_ne hd hx hfits)
  · have htakes := h.takes_of_takes hd ha.takes
    have hspare := h.spare_of_spare ha.spare
    obtain ⟨-, -, -, hkind, hitems, hlength, halign⟩ := ha
    rw [h.items_of_ne hd] at hitems
    rw [h.node d] at hkind
    rw [h.node d, h.node w] at hlength halign
    obtain ⟨y, hy, hyw⟩ : ∃ y, (g.node d).items = [y] ∧
        Inlining.relink c y = ⟨1, .unionLink w⟩ := List.map_eq_singleton_iff.mp hitems
    by_cases hyc : y.kind = .structLink c
    · -- the struct that has become a union would have fitted in
      have hcount : y.count = 1 := by rw [← count_relink c y, hyw]
      obtain rfl : y = ⟨1, .structLink c⟩ := by rw [← hcount, ← hyc]
      obtain rfl : c = w := by simpa [Inlining.relink] using hyw
      refine hdone.splice c 0 ⟨h.settled, htakes, hspare, by rw [hy]; rfl, by simp [h.items]⟩ ?_
      exact h.fits_alone he hy halign
    · have hsame : y = ⟨1, .unionLink w⟩ := by rwa [Inlining.relink, if_neg hyc] at hyw
      exact hdone.adopt w ⟨h.settled, htakes, hspare, by simpa [hd] using hkind, by rw [hy, hsame],
        hlength, halign⟩

end Adopts

/-! ### One run -/

theorem Regular.merge (h : g.Regular) (hm : g.Merge g') : g'.Regular := by
  have hexact := h.toExact.merge hm
  cases hm with
  | @splice c t k hc ht hi hne hl =>
    have hs : g.Splices c t k := ⟨h.settled, hc, ht, hi, hne⟩
    exact ⟨hexact, hs.populated h.populated h.counts, hs.countsFit h.counts⟩
  | @adopt c u hc hu hk hi hlen hal =>
    have ha : g.Adopts c u := ⟨h.settled, hc, hu, hk, hi, hlen, hal⟩
    exact ⟨hexact, ha.populated h.populated, ha.countsFit h.counts⟩

theorem Regular.merges (h : g.Regular) (hm : ReflTransGen Merge g g') : g'.Regular := by
  induction hm with
  | refl => exact h
  | tail _ hstep ih => exact ih.merge hstep

/-- **The items of one container.** In front of the item that is looked at nothing fits; at the
end nothing fits at all, and other containers have got no new chances. -/
theorem exhausted_inlineFrom (p : Inlining) (k : ℕ) (hr : p.graph.Regular)
    (hc : p.graph.Takes c)
    (hbefore : ∀ j < k, ∀ t, p.graph.Splices c t j → ¬ p.graph.FitsAt c j t) :
    (∀ t j, (Inlining.inlineFrom c p k).graph.Splices c t j →
        ¬ (Inlining.inlineFrom c p k).graph.FitsAt c j t) ∧
      ∀ d, d ≠ c → p.graph.Exhausted d → (Inlining.inlineFrom c p k).graph.Exhausted d := by
  fun_induction Inlining.inlineFrom c p k with
  | case1 p k hi =>
    refine ⟨fun t j hs => hbefore j ?_ t hs, fun d _ hd => hd⟩
    have hlen := List.getElem?_eq_none_iff.mp hi
    have hlt := (List.getElem?_eq_some_iff.mp hs.item).1
    omega
  | case2 p k item hi hnone ih =>
    refine ih hr hc fun j hj t hs => ?_
    rcases Nat.lt_or_eq_of_le (Nat.le_of_lt_succ hj) with hlt | rfl
    · exact hbefore j hlt t hs
    · obtain rfl := Option.some.inj (hi.symm.trans hs.item)
      rw [hs.inlinable?] at hnone
      cases hnone
  | case3 p k item hi t hsome hl ih =>
    obtain ⟨rfl, hne, hspare, hitems⟩ := inlinable?_spec hsome
    have hs : p.graph.Splices c t k := ⟨hr.settled, hc, hspare, hi, hitems⟩
    have hf := (keepsLayout_iff hs hr.toExact).mp hl
    obtain ⟨hdone, hothers⟩ := ih (hr.merge (.splice hc hspare hi hitems hl))
      (hc.splice hs.lt_target hne) fun j hj x hs' hfits =>
        hbefore j hj x (hs.splices_before hr hj hs') (hs.fits_before hr hf hj hs' hfits)
    exact ⟨hdone, fun d hd he => hothers d hd (hs.exhausted_of_ne hr.toExact hd he)⟩
  | case4 p k item hi t hsome hl ih =>
    refine ih hr hc fun j hj x hs hf => ?_
    rcases Nat.lt_or_eq_of_le (Nat.le_of_lt_succ hj) with hlt | rfl
    · exact hbefore j hlt x hs hf
    · obtain rfl := Option.some.inj (hi.symm.trans hs.item)
      rw [hs.inlinable?] at hsome
      obtain rfl := Option.some.inj hsome
      exact hl ((keepsLayout_iff hs hr.toExact).mpr hf)

/-- The union that a struct is seen to hold is one that it can become, and the other way
round. -/
theorem adoptable?_eq_some_iff (hs : g.Settled) (hc : g.Takes c) (hk : (g.node c).kind = .struct) :
    Inlining.adoptable? g c = some u ↔ g.Adopts c u := by
  constructor
  · intro hu
    obtain ⟨hspare, hi, hlen, hal⟩ := adoptable?_spec hu
    exact ⟨hs, hc, hspare, hk, hi, hlen, hal⟩
  · intro ha
    unfold Inlining.adoptable?
    dsimp only
    rw [ha.items]
    exact if_pos ⟨ha.spare.refs, by simp [ha.spare.isKey], by simp [ha.spare.kept], ha.length,
      ha.align⟩

theorem exhausted_adoptUnion (p : Inlining) (hr : p.graph.Regular) (hc : p.graph.Takes c)
    (hitems : ∀ t j, p.graph.Splices c t j → ¬ p.graph.FitsAt c j t) :
    (Inlining.adoptUnion c p).graph.Exhausted c ∧
      ∀ d, d ≠ c → p.graph.Exhausted d → (Inlining.adoptUnion c p).graph.Exhausted d := by
  unfold Inlining.adoptUnion
  split
  · rename_i hk
    split
    · rename_i hnone
      refine ⟨⟨hitems, fun u ha => ?_⟩, fun d _ hd => hd⟩
      rw [(adoptable?_eq_some_iff hr.settled hc hk).mpr ha] at hnone
      cases hnone
    · rename_i u hu
      have ha := (adoptable?_eq_some_iff hr.settled hc hk).mp hu
      exact ⟨exhausted_of_not_takes ha.not_takes, fun d hd he => ha.exhausted_of_ne hr.toExact hd he⟩
  · rename_i hk
    exact ⟨⟨hitems, fun u ha => hk ha.kind⟩, fun d _ hd => hd⟩

/-- **A visit leaves nothing to do at its node**, and nothing new elsewhere. -/
theorem exhausted_visit (p : Inlining) (hr : p.graph.Regular) (id : NodeId) :
    (p.visit id).graph.Exhausted id ∧
      ∀ d, d ≠ id → p.graph.Exhausted d → (p.visit id).graph.Exhausted d := by
  rcases visit_cases p id with ⟨hnot, heq⟩ | ⟨hc, heq⟩ <;> rw [heq]
  · exact ⟨exhausted_of_not_takes hnot, fun d _ hd => hd⟩
  · obtain ⟨hsteps, hc'⟩ := logged_inlineFrom p 0 hc
    obtain ⟨hitems, hothers⟩ := exhausted_inlineFrom p 0 hr hc (by simp)
    obtain ⟨hself, hothers'⟩ := exhausted_adoptUnion _ (hr.merges (merges_of_logged hsteps)) hc'
      hitems
    exact ⟨hself, fun d hd he => hothers' d hd (hothers d hd he)⟩

/-- **One run leaves nothing to merge.** -/
theorem Regular.final_inlineStructs (h : g.Regular) : g.inlineStructs.graph.Final := by
  have hfold (ids : List NodeId) (p : Inlining) (hr : p.graph.Regular) (d : NodeId)
      (hd : d ∈ ids ∨ p.graph.Exhausted d) : (ids.foldl Inlining.visit p).graph.Exhausted d := by
    induction ids generalizing p with
    | nil => exact hd.resolve_left (by simp)
    | cons id ids ih =>
      obtain ⟨hself, hothers⟩ := exhausted_visit p hr id
      refine ih (p.visit id) (hr.merges (merges_of_logged (logged_visit p id))) ?_
      by_cases hid : d = id
      · exact .inr (hid ▸ hself)
      · rcases hd with hd | hd
        · exact .inl ((List.mem_cons.mp hd).resolve_left hid)
        · exact .inr (hothers d hid hd)
  refine (h.merges g.merges_inlineStructs).final_iff.mpr fun d => ?_
  refine hfold (List.range g.size) { graph := g } h d ?_
  by_cases hlt : d < g.size
  · exact .inl (List.mem_range.mpr hlt)
  · exact .inr (exhausted_of_not_takes fun hc => hlt (lt_size_of_isDefined hc.isDefined))

/-! ### Another run -/

/-- Where nothing can be merged, a run only counts what it rejects. -/
structure Idles (p q : Inlining) : Prop where
  graph : q.graph = p.graph
  inlined : q.stats.inlined = p.stats.inlined
  adopted : q.stats.adopted = p.stats.adopted

theorem Final.idles_inlineFrom (p : Inlining) (k : ℕ) (hf : p.graph.Final) (hc : p.graph.Takes c) :
    Idles p (Inlining.inlineFrom c p k) := by
  fun_induction Inlining.inlineFrom c p k with
  | case1 p k hi => exact ⟨rfl, rfl, rfl⟩
  | case2 p k item hi hnone ih => exact ih hf hc
  | case3 p k item hi t hsome hl ih =>
    obtain ⟨rfl, -, hspare, hitems⟩ := inlinable?_spec hsome
    exact absurd (.splice hc hspare hi hitems hl) (hf _)
  | case4 p k item hi t hsome hl ih =>
    exact { ih hf hc with }

theorem Final.idles_visit (p : Inlining) (hf : p.graph.Final) (id : NodeId) :
    Idles p (p.visit id) := by
  rcases visit_cases p id with ⟨-, heq⟩ | ⟨hc, heq⟩ <;> rw [heq]
  · exact ⟨rfl, rfl, rfl⟩
  · have hitems := hf.idles_inlineFrom p 0 hc
    unfold Inlining.adoptUnion
    split
    · rename_i hk
      split
      · exact hitems
      · rename_i u hu
        rw [hitems.graph] at hk hu
        obtain ⟨hspare, hi, hlen, hal⟩ := adoptable?_spec hu
        exact absurd (.adopt hc hspare hk hi hlen hal) (hf _)
    · exact hitems

/-- **A run on a graph where nothing can be merged changes nothing.** -/
theorem Final.idles_inlineStructs (hf : g.Final) : Idles { graph := g } g.inlineStructs := by
  have hfold (ids : List NodeId) (p : Inlining) (hp : p.graph = g) :
      Idles p (ids.foldl Inlining.visit p) := by
    induction ids generalizing p with
    | nil => exact ⟨rfl, rfl, rfl⟩
    | cons id ids ih =>
      obtain ⟨hgraph, hinlined, hadopted⟩ := Final.idles_visit p (hp ▸ hf) id
      obtain ⟨hgraph', hinlined', hadopted'⟩ := ih (p.visit id) (hgraph.trans hp)
      exact ⟨hgraph'.trans hgraph, hinlined'.trans hinlined, hadopted'.trans hadopted⟩
  exact { hfold (List.range g.size) { graph := g } rfl with }

end Graph

namespace Session

theorem idles_inlineStructs {s : Session} (h : s.graph.Regular) :
    s.inlineStructs.1.inlineStructs.1.graph = s.inlineStructs.1.graph ∧
      s.inlineStructs.1.inlineStructs.2.inlined = 0 ∧
        s.inlineStructs.1.inlineStructs.2.adopted = 0 := by
  have hfinal : s.inlineStructs.1.graph.Final := by
    rw [graph_inlineStructs]
    exact h.final_inlineStructs
  obtain ⟨hgraph, hinlined, hadopted⟩ := hfinal.idles_inlineStructs
  exact ⟨(graph_inlineStructs _).trans hgraph, hinlined, hadopted⟩

/-- **A second run of the optimizer changes nothing**, on everything that declarations build
and whatever is requested, if there is no array of structs without elements, no size is too
large and no struct is linked to too often. -/
theorem inlineStructs_twice (names : Names) (keys : KeyList) (target : Target)
    (sources : List (Evaluator × String × ℕ))
    (hp : ((start names keys target).readAll sources).resolveKeys.1.graph.Populated)
    (hb : ((start names keys target).readAll sources).resolveKeys.1.graph.BytesFit)
    (hc : ((start names keys target).readAll sources).resolveKeys.1.graph.CountsFit) :
    let once := ((start names keys target).readAll sources).resolveKeys.1.inlineStructs.1
    once.inlineStructs.1.graph = once.graph ∧ once.inlineStructs.2.inlined = 0 ∧
      once.inlineStructs.2.adopted = 0 := by
  have hread := (idle_start names keys target).readAll sources
  obtain ⟨hsettled, htidy⟩ := hread.settled_resolveKeys
  exact idles_inlineStructs ⟨⟨hsettled, htidy, hb⟩, hp, hc⟩

/-- A struct that becomes a union, one that is merged, and one that is left alone. -/
theorem inlineStructs_twice_chain :
    let key := KeyList.makeKey {} .struct "outer" 1
    let eval : Evaluator := fun _ => .error .noCompiler
    let source := "struct a { union { int i; char c; } u; }; struct b { struct a x; int n; };" ++
      "struct p { int n; char c; }; struct outer { struct p z; char t; struct b y; };"
    let s := ((start key.2 ⟨[key.1]⟩ .standard).readAll [(eval, source, 1)]).resolveKeys.1
    let once := s.inlineStructs.1
    s.graph.Populated ∧ s.graph.BytesFit ∧ s.graph.CountsFit ∧
      s.inlineStructs.2 = { inlined := 1, adopted := 1, rejected := 1 } ∧
      once.inlineStructs.1.graph = once.graph ∧ once.inlineStructs.2.inlined = 0 ∧
        once.inlineStructs.2.adopted = 0 := by
  refine (fun hp hb hc => ⟨hp, hb, hc, by decide +kernel, inlineStructs_twice _ _ _ _ hp hb hc⟩)
    ?_ ?_ ?_
  · exact Graph.populated_of_all (by decide +kernel)
  · exact Graph.bytesFit_of_all (by decide +kernel)
  · exact Graph.countsFit_of_sum (by decide +kernel)

/-- **With an array without elements a second run may go on.** The first one merges the two
links to one struct into a single one that it has passed already. -/
theorem inlineStructs_twice_empty_array :
    let key := KeyList.makeKey {} .struct "outer" 1
    let eval : Evaluator := fun _ => .error .noCompiler
    let source := "struct shared { int x; }; struct inner { struct shared s; };" ++
      "struct outer { struct shared a[0]; struct inner b; };"
    let read := (start key.2 ⟨[key.1]⟩ .standard).readSource eval source 1
    let once := read.1.resolveKeys.1.inlineStructs.1
    read.2.isOk = true ∧ read.1.resolveKeys.2.isOk = true ∧
      once.inlineStructs.1.graph ≠ once.graph ∧ once.inlineStructs.2.inlined = 1 := by
  decide +kernel

end Session

end TypeLayout
