import TypeLayout.Proofs.Merging

/-!
# Tidy graphs

Three things that hold of every graph and that soundness does not say. Neighbouring items
are of different kinds, since an item is merged into the one before it if it can be. The
numbers of a node, its size and its alignment, are those that laying out its items anew
gives. And a member belongs to one union: its node is made together with the entry in the
list of members, and an adoption hands the whole list on.

Declarations build tidy graphs (`Graph.Tidy.builds`), and merging keeps them tidy
(`Graph.Tidy.merges`).
-/

namespace TypeLayout

variable {n : Node}

namespace Graph

/-! ### Where items end -/

/-- Where items end that are laid out from a place on. -/
def endFrom (g : Graph) (stop : ℕ) (items : List Item) : ℕ := (g.layoutFrom stop 1 items).stop

variable {g g' : Graph} {items : List Item} {item : Item}

/-- The alignment that was needed before does not matter for where items end. -/
theorem stop_layoutFrom (g : Graph) (stop a b : ℕ) (items : List Item) :
    (g.layoutFrom stop a items).stop = (g.layoutFrom stop b items).stop := by
  induction items generalizing stop a b with
  | nil => rfl
  | cons item items ih => exact ih _ _ _

@[simp] theorem endFrom_nil (g : Graph) (stop : ℕ) : g.endFrom stop [] = stop := rfl

theorem endFrom_cons (g : Graph) (stop : ℕ) (item : Item) (items : List Item) :
    g.endFrom stop (item :: items) = g.endFrom (wrap (alignUp stop (g.elementAlign item.kind) +
      g.elementSize item.kind * item.count)) items :=
  stop_layoutFrom g _ _ _ items

theorem endFrom_append (g : Graph) (stop : ℕ) (items more : List Item) :
    g.endFrom stop (items ++ more) = g.endFrom (g.endFrom stop items) more := by
  induction items generalizing stop with
  | nil => rfl
  | cons item items ih => rw [List.cons_append, endFrom_cons, endFrom_cons, ih]

/-- A layout depends on counts, sizes and alignments only. -/
theorem layoutFrom_map {r : Item → Item} (h : ∀ item ∈ items, (r item).count = item.count ∧
      g'.elementSize (r item).kind = g.elementSize item.kind ∧
      g'.elementAlign (r item).kind = g.elementAlign item.kind) (stop align : ℕ) :
    g'.layoutFrom stop align (items.map r) = g.layoutFrom stop align items := by
  induction items generalizing stop align with
  | nil => rfl
  | cons item items ih =>
    obtain ⟨hcount, hsize, halign⟩ := h item List.mem_cons_self
    rw [List.map_cons, layoutFrom, layoutFrom, hcount, hsize, halign,
      ih fun x hx => h x (List.mem_cons_of_mem _ hx)]

theorem endFrom_map {r : Item → Item} (h : ∀ item ∈ items, (r item).count = item.count ∧
      g'.elementSize (r item).kind = g.elementSize item.kind ∧
      g'.elementAlign (r item).kind = g.elementAlign item.kind) (stop : ℕ) :
    g'.endFrom stop (items.map r) = g.endFrom stop items :=
  congrArg ItemLayout.stop (layoutFrom_map h stop 1)

/-- Two neighbours of one kind end where their sum ends, since nothing has to be left free
between them. This is so even if the sum wraps around. -/
theorem endFrom_pushItem (h : g.elementAlign item.kind ∣ g.elementSize item.kind)
    (ha : g.elementAlign item.kind ∣ wordSize) (stop : ℕ) (items : List Item) :
    g.endFrom stop (pushItem items item) = g.endFrom stop (items ++ [item]) := by
  cases hm : mergesInto items item with
  | false => rw [pushItem_of_not_merges hm]
  | true =>
    obtain ⟨init, last, rfl, hk, heq⟩ := pushItem_of_merges hm
    rw [heq, endFrom_append, endFrom_append, endFrom_append, endFrom_cons, endFrom_cons,
      endFrom_cons, hk]
    simp only [endFrom_nil]
    generalize g.endFrom stop init = start
    have hpos := Nat.pos_of_dvd_of_pos ha wordSize_pos
    have hnext : alignUp (wrap (alignUp start (g.elementAlign item.kind) +
        g.elementSize item.kind * last.count)) (g.elementAlign item.kind) =
        wrap (alignUp start (g.elementAlign item.kind) + g.elementSize item.kind * last.count) :=
      alignUp_of_dvd ha (dvd_wrap ha (dvd_add (dvd_alignUp start hpos) (h.mul_right _))) (wrap_lt _)
    rw [hnext, wrap_wrap_add, wrap_add_mul_wrap, Nat.mul_add, Nat.add_assoc]

theorem endFrom_coalesce (h : ∀ item ∈ items, g.elementAlign item.kind ∣ g.elementSize item.kind ∧
    g.elementAlign item.kind ∣ wordSize) (stop : ℕ) :
    g.endFrom stop (coalesce items).1 = g.endFrom stop items := by
  induction items using List.reverseRecOn with
  | nil => rfl
  | append_singleton items item ih =>
    obtain ⟨hdvd, hword⟩ := h item (by simp)
    rw [coalesce_concat, endFrom_pushItem hdvd hword, endFrom_append, endFrom_append,
      ih fun x hx => h x (List.mem_append_left _ hx)]

/-! ### Runs -/

/-- **Neighbouring items are of different kinds.** -/
def Compact (items : List Item) : Prop := items.IsChain fun a b => a.kind ≠ b.kind

theorem Compact.pushItem (h : Compact items) (item : Item) : Compact (pushItem items item) := by
  cases hm : mergesInto items item with
  | true =>
    obtain ⟨init, last, rfl, hk, heq⟩ := pushItem_of_merges hm
    rw [heq]
    unfold Compact at h ⊢
    rw [List.isChain_append] at h ⊢
    refine ⟨h.1, List.isChain_singleton _, fun x hx y hy => ?_⟩
    obtain rfl : (⟨wrap (last.count + item.count), item.kind⟩ : Item) = y := by simpa using hy
    exact hk ▸ h.2.2 x hx last rfl
  | false =>
    rw [pushItem_of_not_merges hm]
    refine List.isChain_append.mpr ⟨h, List.isChain_singleton _, fun x hx y hy hxy => ?_⟩
    obtain rfl : item = y := by simpa using hy
    have hmerges : mergesInto items item = true := by
      rw [Option.mem_def] at hx
      simp [mergesInto, hx, hxy]
    rw [hm] at hmerges
    cases hmerges

theorem compact_coalesce (items : List Item) : Compact (coalesce items).1 := by
  induction items using List.reverseRecOn with
  | nil => exact List.isChain_nil
  | append_singleton items item ih =>
    rw [coalesce_concat]
    exact ih.pushItem item

/-! ### Members -/

/-- A union that is left has a node as a member. -/
@[mk_iff] structure Owns (g : Graph) (u m : NodeId) : Prop where
  kind : (g.node u).kind = .union
  kept : (g.node u).removed = false
  mem : m ∈ (g.node u).members

/-- **Every member belongs to one union.** -/
def Owned (g : Graph) : Prop := ∀ m, (g.node m).kind = .unionMember → ∃! u, g.Owns u m

theorem Owned.congr (h : g.Owned) (hk : ∀ id, (g'.node id).kind = (g.node id).kind)
    (hm : ∀ id, (g'.node id).members = (g.node id).members)
    (hr : ∀ id, (g.node id).kind = .union → (g'.node id).removed = (g.node id).removed) :
    g'.Owned := by
  have howns (u m : NodeId) : g'.Owns u m ↔ g.Owns u m := by
    rw [owns_iff, owns_iff, hk, hm]
    exact and_congr_right fun hkind => by rw [hr u hkind]
  intro m hkind
  simp only [howns]
  exact h m (hk m ▸ hkind)

/-- A node without members owns nothing. -/
theorem owns_add (hm : n.members = []) (u m : NodeId) : (g.add n).Owns u m ↔ g.Owns u m := by
  rcases eq_or_ne u g.size with rfl | hne
  · have hold : (g.node g.size).members = [] := by rw [node_of_le (le_refl _)]; rfl
    simp [owns_iff, node_add_self, hm, hold]
  · rw [owns_iff, owns_iff, node_add_of_ne n hne]

/-- A node without members that is not itself a member. -/
theorem Owned.add (h : g.Owned) (hk : n.kind ≠ .unionMember) (hm : n.members = []) :
    (g.add n).Owned := by
  intro m hkind
  simp only [owns_add hm]
  refine h m ?_
  rcases eq_or_ne m g.size with rfl | hne
  · rw [node_add_self] at hkind
    exact absurd hkind hk
  · rwa [node_add_of_ne n hne] at hkind

theorem Owned.alike (h : g.Owned) (ha : g.Alike g') : g'.Owned :=
  h.congr (fun id => (ha.same id).kind) (fun id => (ha.same id).members)
    fun id _ => (ha.same id).removed

/-- A node that is made as a member of a union belongs to it, and to no other. -/
theorem Owned.member (h : g.Owned) (hs : ∀ id, (g.node id).SoundIn g) {union : NodeId}
    (hn : n.members = []) (hk : (g.node union).kind = .union)
    (hkept : (g.node union).removed = false) : ((g.add n).addMember union g.size).Owned := by
  have hlt : union < g.size := lt_size_of_kind (by simp [hk])
  have hold : (g.add n).node union = g.node union := node_add_of_lt n hlt
  have hunion : ((g.add n).addMember union g.size).node union =
      { g.node union with
        members := (g.node union).members ++ [g.size]
        length := max (g.node union).length n.length
        align := max (g.node union).align n.align } := by
    have hlt' : union < (g.add n).size := by
      rw [size_add]
      exact Nat.lt_succ_of_lt hlt
    rw [addMember, node_modify_self _ hlt', node_add_self, hold]
  have hother {id : NodeId} (hid : id ≠ union) :
      ((g.add n).addMember union g.size).node id = (g.add n).node id := by
    rw [addMember, node_modify_of_ne _ hid.symm]
  have hmem {u m : NodeId} (hm : m ∈ (g.node u).members) : m < g.size :=
    lt_size_of_isDefined ((hs u).members m hm).2
  have howns (u m : NodeId) : ((g.add n).addMember union g.size).Owns u m ↔
      g.Owns u m ∨ u = union ∧ m = g.size := by
    rw [← owns_add (g := g) hn]
    rcases eq_or_ne u union with rfl | hu
    · simp [owns_iff, hunion, hold, hk, hkept]
    · simp [owns_iff, hother hu, hu]
  intro m hkind
  simp only [howns]
  rcases eq_or_ne m g.size with rfl | hne
  · refine ⟨union, .inr ⟨rfl, rfl⟩, ?_⟩
    rintro u (hu | hu)
    · exact absurd (hmem hu.mem) (Nat.lt_irrefl _)
    · exact hu.1
  · have hkind' : (g.node m).kind = .unionMember := by
      have hmu : m ≠ union := by
        rintro rfl
        rw [hunion] at hkind
        simp [hk] at hkind
      rwa [hother hmu, node_add_of_ne n hne] at hkind
    obtain ⟨u, hu, hunique⟩ := h m hkind'
    refine ⟨u, .inl hu, ?_⟩
    rintro v (hv | hv)
    · exact hunique v hv
    · exact absurd hv.2 hne

end Graph

/-! ### Tidy nodes -/

/-- What holds of a single node: its runs are merged, and its size and its alignment are
those of its items. -/
structure Node.TidyIn (g : Graph) (n : Node) : Prop where
  runs : Graph.Compact n.items
  aligned : ∀ item ∈ n.items, g.elementAlign item.kind ∣ n.align
  ends : n.kind ≠ .union → n.length =
    if n.state = .defining then g.endFrom 0 n.items else alignUp (g.endFrom 0 n.items) n.align
  bare : n.state = .incomplete → n.kind = .struct → n.items = [] ∧ n.length = 0

namespace Graph

variable {e : Element}

/-- Defined nodes keep their size and their alignment. -/
structure KeepsSizes (g g' : Graph) : Prop where
  target : g'.target = g.target
  length : ∀ id, (g.node id).isDefined = true → (g'.node id).length = (g.node id).length
  align : ∀ id, (g.node id).isDefined = true → (g'.node id).align = (g.node id).align

variable {g g' : Graph}

theorem KeepsSizes.elementSize (h : g.KeepsSizes g') (he : g.Leads e) :
    g'.elementSize e = g.elementSize e :=
  elementSize_congr h.target fun _ ht => h.length _ (he.isDefined ht)

theorem KeepsSizes.elementAlign (h : g.KeepsSizes g') (he : g.Leads e) :
    g'.elementAlign e = g.elementAlign e :=
  elementAlign_congr h.target fun _ ht => h.align _ (he.isDefined ht)

theorem KeepsSizes.endFrom (h : g.KeepsSizes g') {items : List Item}
    (hl : ∀ item ∈ items, g.Leads item.kind) (stop : ℕ) :
    g'.endFrom stop items = g.endFrom stop items := by
  have hmap : g'.endFrom stop (items.map id) = g.endFrom stop items :=
    endFrom_map (fun item hi => ⟨rfl, h.elementSize (hl item hi), h.elementAlign (hl item hi)⟩) stop
  rwa [List.map_id] at hmap

theorem Alike.keepsSizes (h : g.Alike g') : g.KeepsSizes g' :=
  ⟨h.target, fun id _ => (h.same id).length, fun id _ => (h.same id).align⟩

theorem keepsSizes_modify {id : NodeId} {f : Node → Node} (hid : (g.node id).isDefined = false) :
    g.KeepsSizes (g.modify id f) := by
  have hnode (j : NodeId) (hj : (g.node j).isDefined = true) :
      (g.modify id f).node j = g.node j :=
    node_modify_of_ne f fun heq => by simp [heq ▸ hid] at hj
  refine ⟨rfl, fun j hj => ?_, fun j hj => ?_⟩ <;> rw [hnode j hj]

theorem keepsSizes_add (n : Node) : g.KeepsSizes (g.add n) := by
  refine ⟨rfl, fun j hj => ?_, fun j hj => ?_⟩ <;>
    rw [node_add_of_lt n (lt_size_of_isDefined hj)]

end Graph

namespace Node.TidyIn

variable {g g' : Graph} {n n' : Node}

theorem mono (h : n.TidyIn g) (hl : ∀ item ∈ n.items, g.Leads item.kind)
    (hk : g.KeepsSizes g') : n.TidyIn g' where
  runs := h.runs
  aligned item hi := hk.elementAlign (hl item hi) ▸ h.aligned item hi
  ends hu := by rw [hk.endFrom hl]; exact h.ends hu
  bare := h.bare

theorem congr (h : n.TidyIn g) (hs : n.Same n') : n'.TidyIn g where
  runs := by rw [hs.items]; exact h.runs
  aligned := by rw [hs.items, hs.align]; exact h.aligned
  ends := by rw [hs.kind, hs.state, hs.length, hs.items, hs.align]; exact h.ends
  bare := by rw [hs.state, hs.kind, hs.items, hs.length]; exact h.bare

end Node.TidyIn

theorem tidyIn_default (g : Graph) : (default : Node).TidyIn g where
  runs := List.isChain_nil
  aligned := by simp [default]
  ends _ := by simp [default]
  bare := by simp [default]

theorem Node.Blank.tidyIn (h : n.Blank) (g : Graph) : n.TidyIn g where
  runs := by rw [h.items]; exact List.isChain_nil
  aligned := by simp [h.items]
  ends _ := by simp [h.items, h.length]
  bare _ _ := ⟨h.items, h.length⟩

theorem Node.Holds.tidyIn {g : Graph} {item : Item} (h : n.Holds g item)
    (hs : ∀ id, (g.node id).SoundIn g) : n.TidyIn g where
  runs := by rw [h.items]; exact List.isChain_singleton _
  aligned x hx := by
    rw [h.items, List.mem_singleton] at hx
    have hmem := Graph.elementAlign_mem hs item.kind
    have hpos := pos_of_mem_alignments hmem
    rw [hx, h.align, max_eq_right hpos]
  ends _ := by
    have hnot : n.state ≠ .defining := by
      rcases h.state with hd | ⟨-, hd⟩ <;> simp [hd]
    rw [if_neg hnot, h.items, Graph.endFrom_cons, alignUp_zero, Nat.zero_add]
    exact h.length
  bare _ hk := by rcases h.kind with hb | hb | hb | hb <;> simp [hk] at hb

namespace Graph

variable {g g' : Graph} {f : Node → Node} {id : NodeId} {item : Item}

/-! ### Building -/

/-- **A tidy graph.** -/
structure Tidy (g : Graph) : Prop where
  nodes : ∀ id, (g.node id).TidyIn g
  owned : g.Owned

theorem Alike.tidyIn (ha : g.Alike g') (h : ∀ id, (g.node id).TidyIn g)
    (hs : ∀ id, (g.node id).SoundIn g) (id : NodeId) : (g'.node id).TidyIn g' :=
  ((h id).mono (hs id).leads ha.keepsSizes).congr (ha.same id)

theorem tidyIn_add (h : ∀ id, (g.node id).TidyIn g) (hs : ∀ id, (g.node id).SoundIn g)
    (hnew : n.TidyIn g) (hl : ∀ item ∈ n.items, g.Leads item.kind) (j : NodeId) :
    ((g.add n).node j).TidyIn (g.add n) := by
  rcases eq_or_ne j g.size with rfl | hne
  · rw [node_add_self]
    exact hnew.mono hl (keepsSizes_add n)
  · rw [node_add_of_ne n hne]
    exact (h j).mono (hs j).leads (keepsSizes_add n)

theorem tidyIn_modify (h : ∀ id, (g.node id).TidyIn g) (hs : ∀ id, (g.node id).SoundIn g)
    (hid : (g.node id).isDefined = false) (hnew : (f (g.node id)).TidyIn g)
    (hl : ∀ item ∈ (f (g.node id)).items, g.Leads item.kind) (j : NodeId) :
    ((g.modify id f).node j).TidyIn (g.modify id f) := by
  rw [node_modify]
  split
  · rename_i hj
    obtain ⟨rfl, -⟩ := hj
    exact hnew.mono hl (keepsSizes_modify hid)
  · exact (h j).mono (hs j).leads (keepsSizes_modify hid)

/-- A change of one node that is not defined and keeps its kind, its items and its members. -/
theorem Tidy.modify (h : g.Tidy) (hs : g.Sound) (hid : (g.node id).isDefined = false)
    (hnew : (f (g.node id)).TidyIn g) (hf : ∀ n, (f n).items = n.items ∧ (f n).kind = n.kind ∧
      (f n).members = n.members ∧ (f n).removed = n.removed) : (g.modify id f).Tidy where
  nodes := tidyIn_modify h.nodes hs.nodes hid hnew (by rw [(hf _).1]; exact (hs.nodes id).leads)
  owned := h.owned.congr (fun _ => node_modify_field f Node.kind fun n => (hf n).2.1)
    (fun _ => node_modify_field f Node.members fun n => (hf n).2.2.1)
    fun _ _ => node_modify_field f Node.removed fun n => (hf n).2.2.2

/-- **A field added to a struct.** -/
theorem Tidy.appendItem (h : g.Tidy) (hs : g.Sound) (hstate : (g.node id).state = .defining)
    (hk : (g.node id).kind = .struct) (hl : g.Leads item.kind) : (g.appendItem id item).Tidy := by
  have hid : (g.node id).isDefined = false := isDefined_eq_false (by simp [hstate])
  have hn := h.nodes id
  have hsound := hs.nodes id
  have hmem := elementAlign_mem hs.nodes item.kind
  have hdvd := elementAlign_dvd_elementSize hs.nodes hl
  have hleads : ∀ x ∈ pushItem (g.node id).items item, g.Leads x.kind := fun x hx => by
    rcases kind_of_mem_pushItem hx with ⟨y, hy, hyx⟩ | hx
    · exact hyx ▸ hsound.leads y hy
    · exact hx ▸ hl
  -- Alignments are powers of two, so the larger one is a multiple of the smaller one.
  have hlarger : (g.node id).align ∣ max (g.node id).align (g.elementAlign item.kind) ∧
      g.elementAlign item.kind ∣ max (g.node id).align (g.elementAlign item.kind) :=
    ⟨dvd_of_le_of_mem_alignments hsound.align (max_mem_alignments hsound.align hmem) (le_max_left _ _),
      dvd_of_le_of_mem_alignments hmem (max_mem_alignments hsound.align hmem) (le_max_right _ _)⟩
  have hnew : ((g.node id).withItem (g.elementSize item.kind) (g.elementAlign item.kind)
      item).TidyIn g :=
    { runs := hn.runs.pushItem item
      aligned := fun x hx => by
        rcases kind_of_mem_pushItem hx with ⟨y, hy, hyx⟩ | hx
        · exact hyx ▸ (hn.aligned y hy).trans hlarger.1
        · exact hx ▸ hlarger.2
      ends := fun hu => by
        have hends := hn.ends hu
        rw [if_pos hstate] at hends
        simp only [Node.withItem, hstate, if_true]
        rw [endFrom_pushItem hdvd (dvd_wordSize_of_mem_alignments hmem), endFrom_append, ← hends]
        rfl
      bare := fun hi => by simp [Node.withItem, hstate] at hi }
  have hgrown : (g.modify id (Node.withItem (g.elementSize item.kind) (g.elementAlign item.kind)
      item)).Tidy :=
    ⟨tidyIn_modify h.nodes hs.nodes hid hnew hleads,
      h.owned.congr (fun _ => node_modify_field (Node.withItem _ _ item) Node.kind fun _ => rfl)
        (fun _ => node_modify_field (Node.withItem _ _ item) Node.members fun _ => rfl)
        fun _ _ => node_modify_field (Node.withItem _ _ item) Node.removed fun _ => rfl⟩
  have hsoundGrown := soundIn_modify hs.nodes hid (lt_size_of_state hstate)
    (soundIn_withItem hsound hs.nodes hl hk hstate)
  rw [appendItem_eq]
  dsimp only
  split
  · exact hgrown
  · have ha := Alike.retain (g.modify id (Node.withItem (g.elementSize item.kind)
      (g.elementAlign item.kind) item)) item.kind
    exact ⟨ha.tidyIn hgrown.nodes hsoundGrown, hgrown.owned.alike ha⟩

/-- **A node that holds one item**, with the reference that its item makes. -/
theorem tidyIn_hold (h : g.Tidy) (hs : g.Sound) (hn : n.Holds g item) (hl : g.Leads item.kind)
    (j : NodeId) : (((g.retain item.kind).add n).node j).TidyIn ((g.retain item.kind).add n) := by
  have ha := Alike.retain g item.kind
  have hleads : ∀ x ∈ n.items, g.Leads x.kind := by simpa [hn.items] using hl
  exact tidyIn_add (ha.tidyIn h.nodes hs.nodes) (ha.soundIn hs.nodes)
    ((hn.tidyIn hs.nodes).mono hleads ha.keepsSizes) (fun x hx => ha.leads (hleads x hx)) j

theorem Tidy.member (h : g.Tidy) (hs : g.Sound) {union : NodeId} (hn : n.Holds g item)
    (hl : g.Leads item.kind) (hstate : (g.node union).state = .defining)
    (hk : (g.node union).kind = .union) :
    (((g.retain item.kind).add n).addMember union g.size).Tidy := by
  have ha := Alike.retain g item.kind
  have hsame : (g.node union).Same (((g.retain item.kind).add n).node union) := by
    rw [node_add_of_lt n (ha.size.symm ▸ lt_size_of_state hstate)]
    exact ha.same union
  have hsound := hs.hold hn hl
  have htidy := tidyIn_hold h hs hn hl
  have hempty := (hsound.nodes union).union_items (hsame.kind.trans hk)
  refine ⟨tidyIn_modify htidy hsound.nodes ?_ ?_ (by simp [hempty]), ?_⟩
  · exact isDefined_eq_false (by simp [hsame.state, hstate])
  · exact
      { runs := (htidy union).runs
        aligned := by simp [hempty]
        ends := fun hu => absurd (hsame.kind.trans hk) hu
        bare := fun hi => by simp [hsame.state, hstate] at hi }
  · rw [← ha.size]
    exact (h.owned.alike ha).member (ha.soundIn hs.nodes) hn.members
      ((ha.same union).kind.trans hk) (ha.kept hs.kept union)

/-- **Building keeps a graph tidy.** -/
theorem Tidy.build (h : g.Tidy) (hs : g.Sound) (hb : g.Build g') : g'.Tidy := by
  cases hb with
  | @label id f hf =>
    have ha := Alike.modify g id fun n => (hf n).1
    exact ⟨ha.tidyIn h.nodes hs.nodes, h.owned.alike ha⟩
  | blank hn =>
    refine ⟨tidyIn_add h.nodes hs.nodes (hn.tidyIn g) (by simp [hn.items]),
      h.owned.add ?_ hn.members⟩
    rcases hn.kind with ⟨hk, -⟩ | ⟨hk | hk, -⟩ <;> simp [hk]
  | hold hn hk hl =>
    exact ⟨tidyIn_hold h hs hn hl, (h.owned.alike (.retain g _)).add hk hn.members⟩
  | @start id line hstate hk =>
    have hn := h.nodes id
    refine h.modify hs (isDefined_eq_false (by simp [hstate])) { hn with ends := ?_, bare := by simp }
      fun _ => ⟨rfl, rfl, rfl, rfl⟩
    intro hu
    obtain ⟨hitems, hlength⟩ := hn.bare hstate (hk.resolve_right hu)
    simp [hitems, hlength]
  | append hstate hk hl => exact h.appendItem hs hstate hk hl
  | member hn hm hl hstate hk => exact h.member hs hn hl hstate hk
  | @finish id hstate hk | @complete id hstate hk =>
    have hn := h.nodes id
    refine h.modify hs (isDefined_eq_false (by simp [hstate])) { hn with ends := ?_, bare := by simp }
      fun _ => ⟨rfl, rfl, rfl, rfl⟩
    intro hu
    simp [hn.ends hu, hstate]

theorem tidy_empty (target : Target) : ({ target } : Graph).Tidy := by
  have hnode (id : NodeId) : ({ target } : Graph).node id = default := node_of_le (Nat.zero_le id)
  refine ⟨fun id => ?_, fun m hm => ?_⟩
  · rw [hnode]
    exact tidyIn_default _
  · simp [hnode, default] at hm

/-- **What declarations build is tidy.** -/
theorem Tidy.builds (h : g.Tidy) (hs : g.Sound) (hb : Relation.ReflTransGen Build g g') :
    g'.Tidy := by
  induction hb with
  | refl => exact h
  | tail hsteps hstep ih => exact ih.build (hs.builds hsteps) hstep

/-! ### Merging -/

theorem KeepsSizes.of_eq (ht : g'.target = g.target)
    (hl : ∀ id, (g'.node id).length = (g.node id).length)
    (ha : ∀ id, (g'.node id).align = (g.node id).align) : g.KeepsSizes g' :=
  ⟨ht, fun id _ => hl id, fun id _ => ha id⟩

section Splice

variable {c t : NodeId} {k : ℕ} (h : g.Splices c t k)

include h

theorem Splices.keepsSizes : g.KeepsSizes (g.splice c k t) :=
  .of_eq target_splice (fun id => by rw [h.node id]) fun id => by rw [h.node id]

/-- All items of the list that a splice makes have places of their own. -/
theorem Splices.leads_spliced : ∀ x ∈ spliced (g.node c).items (g.node t).items k,
    g.Leads x.kind := fun x hx => (mem_spliced hx).elim
  (fun hx => (h.settled.nodes c).leads x hx) fun hx => (h.settled.nodes t).leads x hx

theorem Splices.endFrom_spliceItems (stop : ℕ) : g.endFrom stop (g.spliceItems c k t).1 =
    g.endFrom stop (spliced (g.node c).items (g.node t).items k) :=
  endFrom_coalesce (fun x hx => ⟨elementAlign_dvd_elementSize h.settled.nodes (h.leads_spliced x hx),
    dvd_wordSize_of_mem_alignments (elementAlign_mem h.settled.nodes x.kind)⟩) stop

/-- **A splice leaves a tidy graph**, if it leaves every byte where it was. -/
theorem Splices.tidy_splice (ht : g.Tidy) (hl : g.keepsLayout c k t = true) :
    (g.splice c k t).Tidy := by
  refine ⟨fun id => ?_, ht.owned.congr (fun id => by rw [h.node id]) (fun id => by rw [h.node id])
    fun id hu => ?_⟩
  · have hid := (ht.nodes id).mono (h.settled.nodes id).leads h.keepsSizes
    rw [h.node id]
    rcases eq_or_ne id c with rfl | hne
    · have hleads : ∀ x ∈ (g.spliceItems id k t).1, g.Leads x.kind := fun x hx => by
        obtain ⟨y, hy, hyx⟩ := kind_of_mem_coalesce hx
        exact hyx ▸ h.leads_spliced y hy
      have htarget : (g.node t).align ∣ (g.node id).align := (ht.nodes id).aligned _ h.mem
      have hstop : (g.node id).length =
          alignUp (g.endFrom 0 (g.spliceItems id k t).1) (g.node id).align := by
        unfold keepsLayout at hl
        rw [Bool.and_eq_true, beq_iff_eq, beq_iff_eq] at hl
        rw [h.endFrom_spliceItems]
        exact hl.2.symm
      have hdefined : (g.node id).state = .defined := by
        simpa [Node.isDefined] using h.takes.isDefined
      simp only [if_true]
      exact
        { runs := compact_coalesce _
          aligned := fun x hx => by
            rw [h.keepsSizes.elementAlign (hleads x hx)]
            rcases mem_spliceItems hx with ⟨y, hy, hyx⟩ | ⟨y, hy, hyx⟩
            · exact hyx ▸ (ht.nodes id).aligned y hy
            · exact hyx ▸ ((ht.nodes t).aligned y hy).trans htarget
          ends := fun _ => by
            simp only [hdefined, reduceCtorEq, if_false]
            rw [h.keepsSizes.endFrom hleads]
            exact hstop
          bare := fun hi => by simp [hdefined] at hi }
    · simp only [hne, if_false]
      exact ⟨hid.runs, hid.aligned, hid.ends, hid.bare⟩
  · have hne : id ≠ t := by
      rintro rfl
      simp [h.leads.1] at hu
    rw [h.node id]
    simp [hne]

end Splice

section Adopt

variable {c u : NodeId} (h : g.Adopts c u)

include h

/-- Nothing leads to the struct as to a union before it is one, so links that differ still do
so afterwards. -/
theorem Adopts.kind_relink_ne {a b : Item} (ha : g.Leads a.kind) (hb : g.Leads b.kind)
    (hne : a.kind ≠ b.kind) : (Inlining.relink c a).kind ≠ (Inlining.relink c b).kind := by
  have hnot {e : Element} (he : g.Leads e) : e ≠ .unionLink c := by
    rintro rfl
    exact absurd he.1 (by simp [h.kind])
  unfold Inlining.relink
  split <;> split
  · rename_i hac hbc
    exact absurd (hac.trans hbc.symm) hne
  · exact (hnot hb).symm
  · exact hnot ha
  · exact hne

/-- Links keep the size and the alignment of what they lead to. -/
theorem Adopts.size_relink (item : Item) :
    (Inlining.adopt g c u).elementSize (Inlining.relink c item).kind = g.elementSize item.kind ∧
      (Inlining.adopt g c u).elementAlign (Inlining.relink c item).kind =
        g.elementAlign item.kind := by
  cases hl : item.kind.link? with
  | none =>
    rw [relink_of_link?_eq_none c hl]
    exact ⟨elementSize_congr target_adopt fun t _ => h.length_adopt t,
      elementAlign_congr target_adopt fun t _ => h.align_adopt t⟩
  | some id =>
    have hl' := (link?_relink c item).trans hl
    exact ⟨by simp only [elementSize, hl, hl', h.length_adopt],
      by simp only [elementAlign, hl, hl', h.align_adopt]⟩

theorem Adopts.endFrom_relink (stop : ℕ) (items : List Item) :
    (Inlining.adopt g c u).endFrom stop (items.map (Inlining.relink c)) = g.endFrom stop items :=
  endFrom_map (fun item _ => ⟨count_relink c item, h.size_relink item⟩) stop

/-- **The members of the union go over to the struct.** -/
theorem Adopts.owned_adopt (ho : g.Owned) : (Inlining.adopt g c u).Owned := by
  have howns (x m : NodeId) : (Inlining.adopt g c u).Owns x m ↔
      x = c ∧ g.Owns u m ∨ x ≠ c ∧ x ≠ u ∧ g.Owns x m := by
    rw [owns_iff, h.kept_iff x, h.node x]
    rcases eq_or_ne x c with rfl | hne
    · simp [owns_iff, h.leads.1, h.spare.kept, h.takes.kept, h.ne.symm]
    · simp [owns_iff, hne, and_left_comm, and_assoc]
  intro m hm
  have hmember : (g.node m).kind = .unionMember := by
    rw [h.node m] at hm
    by_cases hmc : m = c
    · simp [hmc] at hm
    · simpa [hmc] using hm
  obtain ⟨x, hx, hunique⟩ := ho m hmember
  have hxc : x ≠ c := by
    rintro rfl
    simpa [h.kind] using hx.kind
  simp only [howns]
  rcases eq_or_ne x u with rfl | hxu
  · refine ⟨c, .inl ⟨rfl, hx⟩, ?_⟩
    rintro y (⟨hy, -⟩ | ⟨-, hyx, hy⟩)
    · exact hy
    · exact absurd (hunique y hy) hyx
  · refine ⟨x, .inr ⟨hxc, hxu, hx⟩, ?_⟩
    rintro y (⟨-, hy⟩ | ⟨-, -, hy⟩)
    · exact absurd (hunique u hy).symm hxu
    · exact hunique y hy

/-- **An adoption leaves a tidy graph.** -/
theorem Adopts.tidy_adopt (ht : g.Tidy) : (Inlining.adopt g c u).Tidy := by
  refine ⟨fun id => ?_, h.owned_adopt ht.owned⟩
  have hid := ht.nodes id
  rw [h.node id]
  rcases eq_or_ne id c with rfl | hne
  · simp only [if_true]
    exact
      { runs := List.isChain_nil
        aligned := by simp
        ends := by simp
        bare := by simp }
  · simp only [hne, if_false]
    exact
      { runs := (List.isChain_map _).mpr (hid.runs.imp_of_mem_imp fun a b ha hb hab =>
          h.kind_relink_ne ((h.settled.nodes id).leads a ha) ((h.settled.nodes id).leads b hb) hab)
        aligned := fun x hx => by
          obtain ⟨y, hy, rfl⟩ := List.mem_map.mp hx
          rw [(h.size_relink y).2]
          exact hid.aligned y hy
        ends := fun hu => by
          dsimp only
          rw [h.endFrom_relink]
          exact hid.ends hu
        bare := fun hi hk => by
          obtain ⟨hitems, hlength⟩ := hid.bare hi hk
          exact ⟨by simp [hitems], hlength⟩ }

end Adopt

/-- **A step of merging leaves a tidy graph.** -/
theorem Tidy.merge (h : g.Tidy) (hs : g.Settled) (hm : g.Merge g') : g'.Tidy := by
  cases hm with
  | splice hc ht hi hne hl => exact Splices.tidy_splice ⟨hs, hc, ht, hi, hne⟩ h hl
  | adopt hc hu hk hi hlen hal => exact Adopts.tidy_adopt ⟨hs, hc, hu, hk, hi, hlen, hal⟩ h

/-- **Merging keeps a graph tidy.** -/
theorem Tidy.merges (h : g.Tidy) (hs : g.Settled) (hm : Relation.ReflTransGen Merge g g') :
    g'.Tidy := by
  induction hm with
  | refl => exact h
  | tail hsteps hstep ih => exact ih.merge (hs.merges hsteps) hstep

end Graph

end TypeLayout
