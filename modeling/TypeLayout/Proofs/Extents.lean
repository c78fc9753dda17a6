import TypeLayout.Proofs.Tidy

/-!
# Sizes that fit

Sizes and places are numbers of 64 bits, and what does not fit is lost. The theory of layouts
is about what they would be without that limit: `Graph.offsetsFrom` and `Graph.stopFrom` place
items with numbers of any size. A layout that ends at a number that fits is the one without the
limit (`Graph.layoutFrom_eq`), since no number in it is larger than its end.

`Graph.BytesFit` says that the padded items of every node end at such a number. Merging keeps
this, as the items of a node that takes over those of another end no later than before
(`Graph.Splices.stop_spliced_le`). Merged counts are another matter: elements without bytes can
be counted beyond 64 bits where no size is.
-/

namespace TypeLayout.Graph

open List

variable {g g' : Graph} {items inner more : List Item} {item : Item} {c t : NodeId} {k m : ℕ}

/-! ### Layouts without a limit -/

/-- Where items start that are laid out from a place on. -/
def offsetsFrom (g : Graph) (stop : ℕ) : List Item → List ℕ
  | [] => []
  | item :: items => roundUp stop (g.elementAlign item.kind) ::
      offsetsFrom g (roundUp stop (g.elementAlign item.kind) +
        g.elementSize item.kind * item.count) items

/-- Where items end that are laid out from a place on. -/
def stopFrom (g : Graph) (stop : ℕ) : List Item → ℕ
  | [] => stop
  | item :: items => stopFrom g (roundUp stop (g.elementAlign item.kind) +
      g.elementSize item.kind * item.count) items

theorem offsetsFrom_cons (g : Graph) (stop : ℕ) (item : Item) (items : List Item) :
    g.offsetsFrom stop (item :: items) = roundUp stop (g.elementAlign item.kind) ::
      g.offsetsFrom (roundUp stop (g.elementAlign item.kind) +
        g.elementSize item.kind * item.count) items := rfl

@[simp] theorem stopFrom_nil (g : Graph) (stop : ℕ) : g.stopFrom stop [] = stop := rfl

theorem stopFrom_cons (g : Graph) (stop : ℕ) (item : Item) (items : List Item) :
    g.stopFrom stop (item :: items) = g.stopFrom (roundUp stop (g.elementAlign item.kind) +
      g.elementSize item.kind * item.count) items := rfl

theorem stopFrom_append (g : Graph) (stop : ℕ) (items more : List Item) :
    g.stopFrom stop (items ++ more) = g.stopFrom (g.stopFrom stop items) more := by
  induction items generalizing stop with
  | nil => rfl
  | cons item items ih => rw [cons_append, stopFrom_cons, stopFrom_cons, ih]

theorem offsetsFrom_append (g : Graph) (stop : ℕ) (items more : List Item) :
    g.offsetsFrom stop (items ++ more) =
      g.offsetsFrom stop items ++ g.offsetsFrom (g.stopFrom stop items) more := by
  induction items generalizing stop with
  | nil => rfl
  | cons item items ih =>
    rw [cons_append, offsetsFrom_cons, offsetsFrom_cons, stopFrom_cons, ih, cons_append]

theorem length_offsetsFrom (g : Graph) (stop : ℕ) (items : List Item) :
    (g.offsetsFrom stop items).length = items.length := by
  induction items generalizing stop with
  | nil => rfl
  | cons item items ih => exact congrArg (· + 1) (ih _)

theorem le_stopFrom (g : Graph) (stop : ℕ) (items : List Item) : stop ≤ g.stopFrom stop items := by
  induction items generalizing stop with
  | nil => exact le_refl stop
  | cons item items ih =>
    calc stop ≤ roundUp stop (g.elementAlign item.kind) := le_roundUp _ _
      _ ≤ roundUp stop (g.elementAlign item.kind) + g.elementSize item.kind * item.count :=
        Nat.le_add_right _ _
      _ ≤ g.stopFrom stop (item :: items) := ih _

/-- No item starts after the end of all. -/
theorem le_stopFrom_of_mem_offsetsFrom {o stop : ℕ} (h : o ∈ g.offsetsFrom stop items) :
    o ≤ g.stopFrom stop items := by
  induction items generalizing stop with
  | nil => cases h
  | cons item items ih =>
    rw [offsetsFrom_cons, mem_cons] at h
    rw [stopFrom_cons]
    rcases h with rfl | h
    · exact (Nat.le_add_right _ _).trans (g.le_stopFrom _ items)
    · exact ih h

theorem stopFrom_mono (ha : ∀ item ∈ items, 0 < g.elementAlign item.kind) {n : ℕ} (h : m ≤ n) :
    g.stopFrom m items ≤ g.stopFrom n items := by
  induction items generalizing m n with
  | nil => exact h
  | cons item items ih =>
    rw [stopFrom_cons, stopFrom_cons]
    refine ih (fun x hx => ha x (mem_cons_of_mem item hx)) ?_
    exact Nat.add_le_add_right (roundUp_mono h (ha item mem_cons_self)) _

/-- Items that start at a multiple of all their alignments are laid out as from zero. -/
theorem layoutFrom_add
    (ha : ∀ item ∈ items, 0 < g.elementAlign item.kind ∧ g.elementAlign item.kind ∣ m) (stop : ℕ) :
    g.offsetsFrom (m + stop) items = (g.offsetsFrom stop items).map (m + ·) ∧
      g.stopFrom (m + stop) items = m + g.stopFrom stop items := by
  induction items generalizing stop with
  | nil => exact ⟨rfl, rfl⟩
  | cons item items ih =>
    obtain ⟨hpos, hdvd⟩ := ha item mem_cons_self
    obtain ⟨hoffsets, hstop⟩ := ih (fun x hx => ha x (mem_cons_of_mem item hx))
      (roundUp stop (g.elementAlign item.kind) + g.elementSize item.kind * item.count)
    rw [offsetsFrom_cons, offsetsFrom_cons, stopFrom_cons, stopFrom_cons, roundUp_add _ hpos hdvd,
      Nat.add_assoc, hoffsets, hstop]
    exact ⟨rfl, rfl⟩

/-- Places and ends depend on counts, sizes and alignments only. -/
theorem stopFrom_map {r : Item → Item} (h : ∀ item ∈ items, (r item).count = item.count ∧
      g'.elementSize (r item).kind = g.elementSize item.kind ∧
      g'.elementAlign (r item).kind = g.elementAlign item.kind) (stop : ℕ) :
    g'.stopFrom stop (items.map r) = g.stopFrom stop items := by
  induction items generalizing stop with
  | nil => rfl
  | cons item items ih =>
    obtain ⟨hcount, hsize, halign⟩ := h item mem_cons_self
    rw [map_cons, stopFrom_cons, stopFrom_cons, hcount, hsize, halign,
      ih fun x hx => h x (mem_cons_of_mem _ hx)]

theorem KeepsSizes.stopFrom (h : g.KeepsSizes g') (hl : ∀ item ∈ items, g.Leads item.kind)
    (stop : ℕ) : g'.stopFrom stop items = g.stopFrom stop items := by
  have hmap : g'.stopFrom stop (items.map id) = g.stopFrom stop items :=
    stopFrom_map (fun item hi => ⟨rfl, h.elementSize (hl item hi), h.elementAlign (hl item hi)⟩) stop
  rwa [map_id] at hmap

theorem Adopts.stopFrom_relink {u : NodeId} (h : g.Adopts c u) (stop : ℕ) (items : List Item) :
    (Inlining.adopt g c u).stopFrom stop (items.map (Inlining.relink c)) = g.stopFrom stop items :=
  stopFrom_map (fun item _ => ⟨count_relink c item, h.size_relink item⟩) stop

/-! ### Where the limit is not reached -/

/-- Rounding to the alignments of items is exact up to a limit. -/
def RoundsTo (g : Graph) (items : List Item) (limit : ℕ) : Prop :=
  ∀ item ∈ items, ∀ n, roundUp n (g.elementAlign item.kind) ≤ limit →
    alignUp n (g.elementAlign item.kind) = roundUp n (g.elementAlign item.kind)

theorem layoutFrom_eq_of_roundsTo {stop : ℕ} (hr : g.RoundsTo items (g.stopFrom stop items))
    (h : g.stopFrom stop items < wordSize) (align : ℕ) :
    (g.layoutFrom stop align items).offsets = g.offsetsFrom stop items ∧
      (g.layoutFrom stop align items).stop = g.stopFrom stop items := by
  induction items generalizing stop align with
  | nil => exact ⟨rfl, rfl⟩
  | cons item items ih =>
    rw [stopFrom_cons] at h hr
    have hend := (g.le_stopFrom _ items).trans_lt h
    have hstart : alignUp stop (g.elementAlign item.kind) =
        roundUp stop (g.elementAlign item.kind) :=
      hr item mem_cons_self stop ((Nat.le_add_right _ _).trans (g.le_stopFrom _ items))
    obtain ⟨hoffsets, hstop⟩ := ih (fun x hx => hr x (mem_cons_of_mem item hx)) h
      (max align (g.elementAlign item.kind))
    rw [layoutFrom, offsetsFrom_cons, stopFrom_cons]
    simp only [hstart, wrap_of_lt hend, hoffsets, hstop, and_self]

/-- **A layout whose end fits into 64 bits is exact.** -/
theorem layoutFrom_eq (ha : ∀ item ∈ items, g.elementAlign item.kind ∣ wordSize) {stop : ℕ}
    (h : g.stopFrom stop items < wordSize) (align : ℕ) :
    (g.layoutFrom stop align items).offsets = g.offsetsFrom stop items ∧
      (g.layoutFrom stop align items).stop = g.stopFrom stop items :=
  layoutFrom_eq_of_roundsTo
    (fun item hi _ hn => alignUp_eq_roundUp_of_dvd (ha item hi) (hn.trans_lt h)) h align

/-- A count that wraps around is one of elements without bytes, if their bytes fit. -/
theorem mul_wrap_of_lt {size n : ℕ} (h : size * n < wordSize) : size * wrap n = size * n := by
  rcases Nat.eq_zero_or_pos size with rfl | hpos
  · simp
  · rw [wrap_of_lt ((Nat.le_mul_of_pos_left n hpos).trans_lt h)]

/-- Two neighbours of one kind end where their sum ends. -/
theorem stopFrom_pushItem (h : g.elementAlign item.kind ∣ g.elementSize item.kind)
    (ha : 0 < g.elementAlign item.kind) {stop : ℕ}
    (hfits : g.stopFrom stop (items ++ [item]) < wordSize) :
    g.stopFrom stop (pushItem items item) = g.stopFrom stop (items ++ [item]) := by
  cases hm : mergesInto items item with
  | false => rw [pushItem_of_not_merges hm]
  | true =>
    obtain ⟨init, last, rfl, hk, heq⟩ := pushItem_of_merges hm
    have hsum : g.stopFrom stop (init ++ [last] ++ [item]) =
        roundUp (roundUp (g.stopFrom stop init) (g.elementAlign item.kind) +
          g.elementSize item.kind * last.count) (g.elementAlign item.kind) +
          g.elementSize item.kind * item.count := by
      rw [stopFrom_append, stopFrom_append, stopFrom_cons, stopFrom_nil, stopFrom_cons,
        stopFrom_nil, hk]
    rw [heq, hsum, stopFrom_append, stopFrom_cons, stopFrom_nil]
    rw [hsum] at hfits
    generalize g.stopFrom stop init = start at *
    have hnext : roundUp (roundUp start (g.elementAlign item.kind) +
        g.elementSize item.kind * last.count) (g.elementAlign item.kind) =
        roundUp start (g.elementAlign item.kind) + g.elementSize item.kind * last.count :=
      roundUp_of_dvd (dvd_add (dvd_roundUp start ha) (h.mul_right _))
    rw [hnext, Nat.add_assoc, ← Nat.mul_add] at hfits ⊢
    rw [mul_wrap_of_lt ((Nat.le_add_left _ _).trans_lt hfits)]

theorem stopFrom_coalesce (h : ∀ item ∈ items, g.elementAlign item.kind ∣ g.elementSize item.kind ∧
    0 < g.elementAlign item.kind) {stop : ℕ} (hfits : g.stopFrom stop items < wordSize) :
    g.stopFrom stop (coalesce items).1 = g.stopFrom stop items := by
  induction items using List.reverseRecOn with
  | nil => rfl
  | append_singleton items item ih =>
    obtain ⟨hdvd, hpos⟩ := h item (by simp)
    have hfront : g.stopFrom stop (coalesce items).1 = g.stopFrom stop items := by
      refine ih (fun x hx => h x (mem_append_left _ hx)) ?_
      rw [stopFrom_append] at hfits
      exact (g.le_stopFrom _ [item]).trans_lt hfits
    have hall : g.stopFrom stop ((coalesce items).1 ++ [item]) = g.stopFrom stop (items ++ [item]) := by
      rw [stopFrom_append, stopFrom_append, hfront]
    rw [coalesce_concat, stopFrom_pushItem hdvd hpos (hall ▸ hfits), hall]

/-! ### Graphs whose sizes fit -/

/-- **The sizes of all nodes fit into 64 bits**: the padded items of each end at a number
below the limit. -/
def BytesFit (g : Graph) : Prop :=
  ∀ id, roundUp (g.stopFrom 0 (g.node id).items) (g.node id).align < wordSize

/-- Whether the padded items of a node end at a number that fits. -/
def fitsNode (g : Graph) (n : Node) : Bool := roundUp (g.stopFrom 0 n.items) n.align < wordSize

theorem bytesFit_of_all (h : (g.nodes.all g.fitsNode) = true) : g.BytesFit := by
  intro id
  by_cases hlt : id < g.size
  · have hmem : g.node id ∈ g.nodes := by
      rw [node, Array.getD_eq_getD_getElem?, Array.getElem?_eq_getElem hlt]
      exact Array.getElem_mem hlt
    simpa [fitsNode] using Array.all_eq_true_iff_forall_mem.mp h _ hmem
  · rw [node_of_le (Nat.le_of_not_lt hlt)]
    exact wordSize_pos

theorem BytesFit.stop_lt (h : g.BytesFit) (id : NodeId) :
    g.stopFrom 0 (g.node id).items < wordSize :=
  (le_roundUp _ _).trans_lt (h id)

/-- What is known about a graph in which all sizes are exact. -/
structure Exact (g : Graph) : Prop where
  settled : g.Settled
  tidy : g.Tidy
  fits : g.BytesFit

theorem Settled.elementAlign_pos (h : g.Settled) (e : Element) : 0 < g.elementAlign e :=
  pos_of_mem_alignments (elementAlign_mem h.nodes e)

theorem Settled.elementAlign_dvd (h : g.Settled) (e : Element) : g.elementAlign e ∣ wordSize :=
  dvd_wordSize_of_mem_alignments (elementAlign_mem h.nodes e)

/-- The items of a node are laid out as without a limit. -/
theorem Exact.layout_eq (h : g.Exact) (id : NodeId) :
    (g.layout (g.node id).items).offsets = g.offsetsFrom 0 (g.node id).items ∧
      (g.layout (g.node id).items).stop = g.stopFrom 0 (g.node id).items :=
  layoutFrom_eq (fun item _ => h.settled.elementAlign_dvd item.kind) (h.fits.stop_lt id) 1

/-- A node that has been closed ends at its last item, up to padding. -/
theorem Exact.length_eq (h : g.Exact) {id : NodeId} (hid : (g.node id).isDefined = true)
    (hk : (g.node id).kind ≠ .union) :
    (g.node id).length = roundUp (g.stopFrom 0 (g.node id).items) (g.node id).align := by
  have hends := (h.tidy.nodes id).ends hk
  have hstate : (g.node id).state ≠ .defining := by
    intro hs
    simp [Node.isDefined, hs] at hid
  have hstop : g.endFrom 0 (g.node id).items = g.stopFrom 0 (g.node id).items := (h.layout_eq id).2
  rw [if_neg hstate, hstop, alignUp_eq_roundUp_of_dvd
    (dvd_wordSize_of_mem_alignments (h.settled.nodes id).align) (h.fits id)] at hends
  exact hends

/-! ### Merging -/

theorem Splices.length_take (h : g.Splices c t k) : ((g.node c).items.take k).length = k :=
  length_take_of_le (List.getElem?_eq_some_iff.mp h.item).1.le

/-- Where the items in front of item `k` end. -/
def stopBefore (g : Graph) (c : NodeId) (k : ℕ) : ℕ := g.stopFrom 0 ((g.node c).items.take k)

/-- What follows the item starts after the struct. -/
theorem Splices.stopBefore_succ (h : g.Splices c t k) : g.stopBefore c (k + 1) =
    roundUp (g.stopBefore c k) (g.node t).align + (g.node t).length := by
  have htake : (g.node c).items.take (k + 1) =
      (g.node c).items.take k ++ [⟨1, .structLink t⟩] := by
    rw [take_add_one, h.item]
    rfl
  rw [stopBefore, htake, stopFrom_append, stopFrom_cons, stopFrom_nil, Nat.mul_one]
  rfl

theorem stopFrom_spliced (g : Graph) (c t : NodeId) (k : ℕ) :
    g.stopFrom 0 (spliced (g.node c).items (g.node t).items k) =
      g.stopFrom (g.stopFrom (g.stopBefore c k) (g.node t).items)
        ((g.node c).items.drop (k + 1)) := by
  rw [spliced, stopFrom_append, stopFrom_append]
  rfl

/-- **A container only gets shorter**: the items of the struct end no later than the struct
itself, wherever they start. -/
theorem Splices.stop_spliced_le (h : g.Splices c t k) (he : g.Exact) :
    g.stopFrom 0 (spliced (g.node c).items (g.node t).items k) ≤ g.stopFrom 0 (g.node c).items := by
  have hdvd : (g.node t).align ∣ roundUp (g.stopBefore c k) (g.node t).align :=
    dvd_roundUp _ (pos_of_mem_alignments (h.settled.nodes t).align)
  have halign : ∀ x ∈ (g.node t).items, 0 < g.elementAlign x.kind ∧
      g.elementAlign x.kind ∣ roundUp (g.stopBefore c k) (g.node t).align := fun x hx =>
    ⟨h.settled.elementAlign_pos x.kind, ((he.tidy.nodes t).aligned x hx).trans hdvd⟩
  have hinner : g.stopFrom (g.stopBefore c k) (g.node t).items ≤ g.stopBefore c (k + 1) :=
    calc g.stopFrom (g.stopBefore c k) (g.node t).items
        ≤ g.stopFrom (roundUp (g.stopBefore c k) (g.node t).align + 0) (g.node t).items :=
          stopFrom_mono (fun x hx => (halign x hx).1) (le_roundUp _ _)
      _ = roundUp (g.stopBefore c k) (g.node t).align + g.stopFrom 0 (g.node t).items :=
          (layoutFrom_add halign 0).2
      _ ≤ roundUp (g.stopBefore c k) (g.node t).align + (g.node t).length := by
          rw [he.length_eq h.leads.2 (by simp [h.leads.1])]
          exact Nat.add_le_add_left (le_roundUp _ _) _
      _ = g.stopBefore c (k + 1) := h.stopBefore_succ.symm
  calc g.stopFrom 0 (spliced (g.node c).items (g.node t).items k)
      = g.stopFrom (g.stopFrom (g.stopBefore c k) (g.node t).items)
          ((g.node c).items.drop (k + 1)) := g.stopFrom_spliced c t k
    _ ≤ g.stopFrom (g.stopBefore c (k + 1)) ((g.node c).items.drop (k + 1)) :=
        stopFrom_mono (fun x _ => h.settled.elementAlign_pos x.kind) hinner
    _ = g.stopFrom 0 (g.node c).items := by
        rw [stopBefore, ← stopFrom_append, take_append_drop]

/-- So the new items are laid out as without a limit, before runs are merged. -/
theorem Splices.stop_spliced_lt (h : g.Splices c t k) (he : g.Exact) :
    g.stopFrom 0 (spliced (g.node c).items (g.node t).items k) < wordSize :=
  (h.stop_spliced_le he).trans_lt (he.fits.stop_lt c)

section Kept

variable (h : g.Splices c t k) (he : g.Exact)

include h he

/-- The places in the container. -/
theorem Splices.offsets_layout : (g.layout (g.node c).items).offsets =
    g.offsetsFrom 0 ((g.node c).items.take k) ++
      roundUp (g.stopBefore c k) (g.node t).align ::
        g.offsetsFrom (g.stopBefore c (k + 1)) ((g.node c).items.drop (k + 1)) := by
  rw [(he.layout_eq c).1]
  conv_lhs => rw [eq_take_cons_drop h.item]
  rw [offsetsFrom_append, offsetsFrom_cons, h.stopBefore_succ, Nat.mul_one]
  rfl

/-- The places in the container if all stay where they are. -/
theorem Splices.keptOffsets_eq :
    keptOffsets (g.layout (g.node c).items).offsets (g.layout (g.node t).items).offsets k =
      g.offsetsFrom 0 ((g.node c).items.take k) ++
        ((g.offsetsFrom 0 (g.node t).items).map (roundUp (g.stopBefore c k) (g.node t).align + ·) ++
          g.offsetsFrom (g.stopBefore c (k + 1)) ((g.node c).items.drop (k + 1))) := by
  have hlen : (g.offsetsFrom 0 ((g.node c).items.take k)).length = k := by
    rw [length_offsetsFrom, h.length_take]
  rw [keptOffsets, h.offsets_layout he, (he.layout_eq t).1, take_left' hlen, append_assoc]
  congr 2
  · rw [getD_append_right _ _ _ _ (le_of_eq hlen), hlen, Nat.sub_self]
    refine map_congr_left fun o ho => wrap_of_lt ?_
    -- what starts inside the struct starts before the end of the container
    calc roundUp (g.stopBefore c k) (g.node t).align + o
        ≤ roundUp (g.stopBefore c k) (g.node t).align + (g.node t).length := by
          rw [he.length_eq h.leads.2 (by simp [h.leads.1])]
          exact Nat.add_le_add_left
            ((le_stopFrom_of_mem_offsetsFrom ho).trans (le_roundUp _ _)) _
      _ = g.stopBefore c (k + 1) := h.stopBefore_succ.symm
      _ ≤ g.stopFrom (g.stopBefore c (k + 1)) ((g.node c).items.drop (k + 1)) := g.le_stopFrom _ _
      _ = g.stopFrom 0 (g.node c).items := by
          rw [stopBefore, ← stopFrom_append, take_append_drop]
      _ < wordSize := he.fits.stop_lt c
  · rw [drop_append, hlen, drop_eq_nil_of_le (by omega)]
    simp

theorem Splices.length_container : (g.node c).length =
    roundUp (g.stopFrom (g.stopBefore c (k + 1)) ((g.node c).items.drop (k + 1)))
      (g.node c).align := by
  have hunion : (g.node c).kind ≠ .union := by rcases h.takes.kind with hk | hk <;> simp [hk]
  rw [he.length_eq h.takes.isDefined hunion]
  conv_lhs => rw [← take_append_drop (k + 1) (g.node c).items, stopFrom_append]
  rfl

/-- **What the optimizer compares**, without a limit: the items of the struct start where they
started in it, and so does what follows them; and the container keeps its size. -/
theorem Splices.keepsLayout_iff : g.keepsLayout c k t = true ↔
    (g.offsetsFrom (g.stopBefore c k) (g.node t).items =
        (g.offsetsFrom 0 (g.node t).items).map (roundUp (g.stopBefore c k) (g.node t).align + ·) ∧
      g.offsetsFrom (g.stopFrom (g.stopBefore c k) (g.node t).items)
          ((g.node c).items.drop (k + 1)) =
        g.offsetsFrom (g.stopBefore c (k + 1)) ((g.node c).items.drop (k + 1))) ∧
      roundUp (g.stopFrom (g.stopFrom (g.stopBefore c k) (g.node t).items)
          ((g.node c).items.drop (k + 1))) (g.node c).align =
        roundUp (g.stopFrom (g.stopBefore c (k + 1)) ((g.node c).items.drop (k + 1)))
          (g.node c).align := by
  have halign := (h.settled.nodes c).align
  obtain ⟨hoffsets, hstop⟩ := layoutFrom_eq (fun item _ => h.settled.elementAlign_dvd item.kind)
    (h.stop_spliced_lt he) 1
  have hlimit := (roundUp_mono (h.stop_spliced_le he) (pos_of_mem_alignments halign)).trans_lt
    (he.fits c)
  have hplaces : g.offsetsFrom 0 (spliced (g.node c).items (g.node t).items k) =
      g.offsetsFrom 0 ((g.node c).items.take k) ++
        (g.offsetsFrom (g.stopBefore c k) (g.node t).items ++
          g.offsetsFrom (g.stopFrom (g.stopBefore c k) (g.node t).items)
            ((g.node c).items.drop (k + 1))) := by
    rw [spliced, append_assoc, offsetsFrom_append, offsetsFrom_append]
    rfl
  unfold keepsLayout
  rw [Bool.and_eq_true, beq_iff_eq, beq_iff_eq, layout, hoffsets, hstop, h.keptOffsets_eq he,
    alignUp_eq_roundUp_of_dvd (dvd_wordSize_of_mem_alignments halign) hlimit,
    h.length_container he, g.stopFrom_spliced c t k, hplaces, append_cancel_left_eq]
  refine and_congr_left' ⟨fun hsame => ?_, fun hsame => by rw [hsame.1, hsame.2]⟩
  exact append_inj hsame (by simp [length_offsetsFrom])

end Kept

theorem Splices.stopFrom_spliceItems (h : g.Splices c t k) (he : g.Exact) :
    g.stopFrom 0 (g.spliceItems c k t).1 =
      g.stopFrom 0 (spliced (g.node c).items (g.node t).items k) :=
  stopFrom_coalesce (fun x hx => ⟨elementAlign_dvd_elementSize h.settled.nodes (h.leads_spliced x hx),
    h.settled.elementAlign_pos x.kind⟩) (h.stop_spliced_lt he)

theorem Splices.leads_spliceItems (h : g.Splices c t k) :
    ∀ y ∈ (g.spliceItems c k t).1, g.Leads y.kind := fun y hy => by
  obtain ⟨z, hz, hzy⟩ := kind_of_mem_coalesce hy
  exact hzy ▸ h.leads_spliced z hz

theorem Splices.bytesFit (h : g.Splices c t k) (he : g.Exact) : (g.splice c k t).BytesFit := by
  intro id
  rw [h.node id]
  rcases eq_or_ne id c with rfl | hne
  · simp only [if_true]
    rw [h.keepsSizes.stopFrom h.leads_spliceItems, h.stopFrom_spliceItems he]
    exact (roundUp_mono (h.stop_spliced_le he)
      (pos_of_mem_alignments (h.settled.nodes id).align)).trans_lt (he.fits id)
  · simp only [hne, if_false]
    rw [h.keepsSizes.stopFrom (h.settled.nodes id).leads]
    exact he.fits id

theorem Adopts.bytesFit {u : NodeId} (h : g.Adopts c u) (hb : g.BytesFit) :
    (Inlining.adopt g c u).BytesFit := by
  intro id
  rw [h.node id]
  rcases eq_or_ne id c with rfl | hne
  · simp only [if_true, stopFrom_nil]
    rw [roundUp_of_dvd (dvd_zero _)]
    exact wordSize_pos
  · simp only [hne, if_false]
    rw [h.stopFrom_relink]
    exact hb id

/-- **A step of merging leaves all sizes exact.** -/
theorem Exact.merge (h : g.Exact) (hm : g.Merge g') : g'.Exact := by
  refine ⟨h.settled.merge hm, h.tidy.merge h.settled hm, ?_⟩
  cases hm with
  | splice hc ht hi hne hl => exact Splices.bytesFit ⟨h.settled, hc, ht, hi, hne⟩ h
  | adopt hc hu hk hi hlen hal =>
    exact Adopts.bytesFit ⟨h.settled, hc, hu, hk, hi, hlen, hal⟩ h.fits

theorem Exact.merges (h : g.Exact) (hm : Relation.ReflTransGen Merge g g') : g'.Exact := by
  induction hm with
  | refl => exact h
  | tail _ hstep ih => exact ih.merge hstep

end TypeLayout.Graph
