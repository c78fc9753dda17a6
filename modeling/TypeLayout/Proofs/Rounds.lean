import TypeLayout.Proofs.Naming
import TypeLayout.Proofs.Steps

/-!
# Laying out again

Offsets can be assigned more than once, with more names requested in between. A node that has
a place is passed over, so nothing happens when everything that is requested has been placed,
and otherwise the new nodes take the cells and slots behind the old ones. The table is tiled
after each round, and what a round has given out it has given out for good
(`Session.tiled_rounds`).

Places stay because the walk goes on from the nodes that have been left, and names because no
step of a layout changes one that has been given (`Session.Persists`). Names that were looked up
lead to the same nodes again, although new spellings have been added in the meantime, since
nothing is bound to those.
-/

namespace TypeLayout

namespace Names

variable {names names' : Names} {x : String} {id : NameId}

/-- A spelling keeps its position. -/
theorem Extends.find? (h : names.Extends names') (hx : names.find? x = some id) :
    names'.find? x = some id :=
  find?_iff.mpr (h id x (get?_of_find? hx))

/-- A new spelling has a new position. -/
theorem Extends.get?_eq_none (h : names.Extends names') (hx : names.find? x = none)
    (hx' : names'.find? x = some id) : names.get? id = none := by
  cases hget : names.get? id with
  | none => rfl
  | some y =>
    have hsame : y = x := Option.some.inj ((h id y hget).symm.trans (get?_of_find? hx'))
    rw [hsame, ← find?_iff, hx] at hget
    cases hget

end Names

namespace Graph

theorem Needs.mono {g : Graph} {roots roots' : List NodeId} {id : NodeId} (h : g.Needs roots id)
    (hr : roots ⊆ roots') : g.Needs roots' id := by
  obtain ⟨root, hroot, hpath⟩ := h
  exact ⟨root, hr hroot, hpath⟩

end Graph

namespace Session

variable {s s' s'' : Session} {id : NodeId} {key : Key} {ε : Type}

/-! ### Names that are looked up again -/

theorem Named.lookup?_eq_none (h : s.Named) {name : NameId} (hn : s.names.get? name = none) :
    s.registry.lookup? name = none := by
  rw [Registry.lookup?, Registry.find?, Option.map_eq_none_iff, List.find?_eq_none]
  intro b hb heq
  obtain ⟨x, hx⟩ := h.bound b hb
  rw [show b.name = name by simpa using heq, hn] at hx
  cases hx

/-- What a spelling is bound to does not change when spellings are added. -/
theorem lookup?_eq (h : s.Named) (hn : s.names.Extends s'.names) (hr : s'.registry = s.registry)
    (x : String) : s'.lookup? x = s.lookup? x := by
  rw [lookup?, lookup?, hr]
  cases hx : s.names.find? x with
  | some id => rw [hn.find? hx]
  | none =>
    cases hx' : s'.names.find? x with
    | none => rfl
    | some id => exact h.lookup?_eq_none (hn.get?_eq_none hx hx')

/-- **A name that has been looked up leads to the same node again.** -/
theorem resolve?_eq (h : s.Named) (hn : s.names.Extends s'.names) (hr : s'.registry = s.registry)
    (hd : ∀ id, (s'.graph.node id).isDefined = (s.graph.node id).isDefined)
    (hk : s.resolve? key = some id) : s'.resolve? key = some id := by
  have hsole (x : String) : s'.soleTag? x = s.soleTag? x := by
    simp only [soleTag?, lookup?_eq h hn hr, hd]
  unfold resolve? at hk ⊢
  rw [hr]
  simp only [hd]
  split
  · rename_i found hfound
    rwa [hfound] at hk
  · rename_i hfound
    rw [hfound] at hk
    dsimp only at hk
    split
    · rename_i hplain
      rw [if_pos hplain] at hk
      cases hname : s.names.get? key.name with
      | none => simp [hname] at hk
      | some x =>
        rw [hname] at hk
        rw [hn _ _ hname, Option.bind_some, hsole]
        exact hk
    · rename_i hplain
      rw [if_neg hplain] at hk
      cases hk

/-- A name leads to a defined node that is no member. -/
theorem Named.of_resolve? (h : s.Named) (hk : s.resolve? key = some id) :
    (s.graph.node id).isDefined = true ∧ (s.graph.node id).kind ≠ .unionMember := by
  have hbinds {name : NameId} {x : NodeId} (hx : s.registry.lookup? name = some x) :
      (s.graph.node x).kind ≠ .unionMember := by
    obtain ⟨b, hb, rfl⟩ := Option.map_eq_some_iff.mp hx
    exact h.binds b (List.mem_of_find?_eq_some hb)
  obtain ⟨hfound, hdefined⟩ := Option.filter_eq_some_iff.mp hk
  refine ⟨hdefined, ?_⟩
  split at hfound
  · rename_i x hx
    exact Option.some.inj hfound ▸ hbinds hx
  · split at hfound
    · obtain ⟨x, -, hx⟩ := Option.bind_eq_some_iff.mp hfound
      unfold soleTag? at hx
      dsimp only at hx
      split at hx
      · rename_i tag htags
        obtain rfl := Option.some.inj hx
        have hmem := List.mem_of_mem_filter (htags.symm ▸ List.mem_singleton.mpr rfl)
        obtain ⟨kw, -, hlookup⟩ := List.mem_filterMap.mp hmem
        obtain ⟨name, -, hname⟩ := Option.bind_eq_some_iff.mp hlookup
        exact hbinds hname
      · cases hx
    · cases hfound

theorem persists_mark (ids : List NodeId) (s : Session) :
    s.Persists { s with graph := s.graph.mark ids } := by
  induction ids generalizing s with
  | nil => exact .refl s
  | cons id ids ih =>
    have hone : s.Persists (s.markKey id) :=
      .modify (.refl _) rfl rfl (fun _ => ⟨⟨rfl, rfl, rfl, rfl, rfl⟩, rfl⟩)
        (fun hren => ⟨hren, rfl⟩) (fun _ _ => rfl) fun hs => ⟨hs.renamed id, hs.placed id⟩
    exact hone.trans (ih (s.markKey id))

theorem persists_resolveKeys (s : Session) : s.Persists s.resolveKeys.1 := by
  obtain ⟨notices, h⟩ := s.exists_resolveKeys_eq
  rw [h]
  exact (persists_mark _ s).congr rfl rfl rfl

/-- Names that have been found are found again. -/
def Keyed (s : Session) : Prop :=
  ∀ key ∈ s.keys.keys, ∀ id, key.node = some id → s.resolve? key = some id

theorem Keyed.persists (h : s.Keyed) (hs : s.Named) (hp : s.Persists s') (hk : s'.keys = s.keys) :
    s'.Keyed := fun key hkey id hid =>
  resolve?_eq hs hp.names hp.registry hp.isDefined_eq (h key (hk ▸ hkey) id hid)

theorem Keyed.requested (h : s.Keyed) (hs : s.Named) (hid : id ∈ s.requested) :
    (s.graph.node id).isDefined = true ∧ (s.graph.node id).kind ≠ .unionMember := by
  obtain ⟨key, hkey, hnode⟩ := List.mem_filterMap.mp hid
  exact hs.of_resolve? (h key hkey id hnode)

/-- **Looking names up** leaves them bound to what they lead to, and changes no name that was
bound before. -/
theorem Keyed.resolveKeys (h : s.Keyed) (hs : s.Named) :
    s.resolveKeys.1.Keyed ∧ s.requested ⊆ s.resolveKeys.1.requested := by
  have hp := persists_resolveKeys s
  have hnode {key : Key} (hkey : key ∈ s.keys.keys) {id : NodeId}
      (hid : (s.resolve? key).or key.node = some id) : s.resolve? key = some id := by
    cases hr : s.resolve? key with
    | some x => rwa [hr, Option.some_or] at hid
    | none =>
      rw [hr, Option.none_or] at hid
      rw [← hr, h key hkey id hid]
  constructor
  · intro key hkey id hid
    rw [keys_resolveKeys] at hkey
    obtain ⟨old, hold, rfl⟩ := List.mem_map.mp hkey
    have hfound : s.resolve? old = some id := hnode hold hid
    exact resolve?_eq hs hp.names hp.registry hp.isDefined_eq hfound
  · intro id hid
    obtain ⟨key, hkey, hknode⟩ := List.mem_filterMap.mp hid
    refine List.mem_filterMap.mpr ⟨{ key with node := (s.resolve? key).or key.node }, ?_, ?_⟩
    · rw [keys_resolveKeys]
      exact List.mem_map.mpr ⟨key, hkey, rfl⟩
    · simp [h key hkey id hknode]

/-! ### Rounds -/

/-- **A layout that follows another one**, with nothing new or with more names, which are
looked up before. -/
inductive LaysOut (s : Session) : Session → Prop
  | again {s' : Session} (h : s.assignOffsets = (s', .ok ())) : LaysOut s s'
  | further {s' : Session} {names : Names} {more : List Key} (hn : s.names.Extends names)
    (hk : ∀ key ∈ more, key.node = none)
    (h : ({ s with names, keys := ⟨s.keys.keys ++ more⟩ } : Session).resolveKeys.1.assignOffsets =
      (s', .ok ())) : LaysOut s s'

/-- **What has been given out stays**: the places and names of nodes that have one, and all
names that were made up. -/
structure Stands (s s' : Session) : Prop where
  offset : ∀ id o, (s.graph.node id).offset = some o → (s'.graph.node id).offset = some o
  jump : ∀ id j, (s.graph.node id).jump = some j → (s'.graph.node id).jump = some j
  name : ∀ id, (s.graph.node id).offset.isSome = true ∨ (s.graph.node id).renamed = true →
    (s'.graph.node id).name = (s.graph.node id).name
  spelling : s.names.Extends s'.names

/-- **A session between two layouts.** -/
structure Staged (g : Graph) (order : List NodeId) (s : Session) : Prop where
  settled : g.Settled
  laid : Laid g order s
  isDefined : ∀ id, (s.graph.node id).isDefined = (g.node id).isDefined
  nodup : order.Nodup
  above : Above g.kids order
  named : s.Named
  keyed : s.Keyed
  reached : ∀ id ∈ order, g.Needs s.requested id

variable {g : Graph} {order done : List NodeId}

/-- Names and marks do not matter for places. -/
theorem Laid.persists (h : Laid g order s) (hp : s.Persists s') (hs : s.Named)
    (ht : s'.graph.target = s.graph.target) (hsize : s'.graph.size = s.graph.size)
    (hplace : ∀ id, (s'.graph.node id).emitted = (s.graph.node id).emitted ∧
      (s'.graph.node id).offset = (s.graph.node id).offset ∧
      (s'.graph.node id).jump = (s.graph.node id).jump)
    (hc : s'.counters = s.counters) : Laid g order s' := by
  obtain ⟨hoffset, hjump⟩ := Prod.mk.inj hc
  refine ⟨ht.trans h.target, hsize.trans h.size, fun id => (h.shape id).trans (hp.shape id),
    fun id => (hplace id).1.trans (h.emitted id), fun id => (hplace id).2.1.trans (h.offset id),
    fun id => (hplace id).2.2.trans (h.jump id), hoffset.trans h.nextOffset,
    hjump.trans h.nextJump, fun id hid => ?_, h.flawless⟩
  have hname := h.named id hid
  have hoff : (s.graph.node id).offset.isSome = true := by
    rw [h.offset id, if_pos hid]
    rfl
  by_cases hk : (s.graph.node id).kind = .unionMember
  · rw [(hp.renamed id (hs.placed id hoff hk)).2]
    exact hname
  · rw [hp.name id hk hname]
    exact hname

/-- **Looking names up in a session that has been laid out.** -/
theorem Staged.resolveKeys (h : Staged g order s) : Staged g order s.resolveKeys.1 := by
  have hp := persists_resolveKeys s
  obtain ⟨hkeyed, hsub⟩ := h.keyed.resolveKeys h.named
  have hgraph := graph_resolveKeys s
  have hfield {α : Type} (field : Node → α) (hf : ∀ n : Node, field { n with isKey := true } = field n)
      (id : NodeId) : field (s.resolveKeys.1.graph.node id) = field (s.graph.node id) := by
    rw [hgraph]
    exact Graph.node_mark_field field hf _ _ id
  refine ⟨h.settled, h.laid.persists hp h.named ?_ ?_ (fun id => ⟨hfield Node.emitted (fun _ => rfl) id,
    hfield Node.offset (fun _ => rfl) id, hfield Node.jump (fun _ => rfl) id⟩)
    (counters_resolveKeys s), fun id => (hp.isDefined_eq id).trans (h.isDefined id), h.nodup, h.above,
    hp.named h.named, hkeyed, fun id hid => (h.reached id hid).mono hsub⟩
  · rw [hgraph]
    exact Graph.target_mark _ _
  · rw [hgraph]
    exact Graph.size_mark _ _

/-- More names can be requested at any time. -/
theorem Staged.request (h : Staged g order s) {names : Names} {more : List Key}
    (hn : s.names.Extends names) (hk : ∀ key ∈ more, key.node = none) :
    Staged g order { s with names, keys := ⟨s.keys.keys ++ more⟩ } ∧
      s.Persists { s with names, keys := ⟨s.keys.keys ++ more⟩ } := by
  have hp : s.Persists { s with names, keys := ⟨s.keys.keys ++ more⟩ } := by
    refine ⟨hn, rfl, fun _ => .refl _, fun _ => rfl, fun _ hren => ⟨hren, rfl⟩, fun _ _ _ => rfl,
      fun hs => ⟨fun b hb => ?_, hs.binds, hs.links, hs.members, hs.renamed, hs.placed⟩⟩
    obtain ⟨x, hx⟩ := hs.bound b hb
    exact ⟨x, hn _ _ hx⟩
  refine ⟨⟨h.settled, h.laid.persists hp h.named rfl rfl (fun _ => ⟨rfl, rfl, rfl⟩) rfl, h.isDefined,
    h.nodup, h.above, hp.named h.named, fun key hkey id hid => ?_, fun id hid => ?_⟩, hp⟩
  · rcases List.mem_append.mp hkey with hkey | hkey
    · exact resolve?_eq h.named hn rfl (fun _ => rfl) (h.keyed key hkey id hid)
    · rw [hk key hkey] at hid
      cases hid
  · refine (h.reached id hid).mono fun root hroot => ?_
    rw [requested, List.filterMap_append]
    exact List.mem_append_left _ hroot

/-- **A round**: it places what is needed and had no place. -/
theorem Staged.assignOffsets (h : Staged g done s) (ha : s.assignOffsets = (s', .ok ())) :
    ∃ order, Staged g order s' ∧ s.Persists s' ∧ done <+: order ∧
      ∀ id, id ∈ order ↔ g.Needs s'.requested id := by
  obtain ⟨rank, hr⟩ := h.settled.ranked
  have hlt : ∀ x, ∀ b ∈ g.kids x, b < g.size := fun x b hb =>
    Graph.lt_size_of_isDefined ((h.settled.nodes x).isDefined_of_mem_children hb)
  obtain ⟨order, hw⟩ := Walk.exists_walk hr.lt done s.requested
  have hends := assignOffsets_ends hr hlt h.laid
    (fun id hid => h.isDefined id ▸ (h.keyed.requested h.named hid).1) hw
  have hp := persists_assignOffsets h.named fun id hid => (h.keyed.requested h.named hid).2
  rw [ha] at hends hp
  obtain ⟨-, hlaid, hkeys⟩ := hends
  have hrequested : s'.requested = s.requested := by rw [requested, hkeys, requested]
  have hreached : ∀ id ∈ order, g.Needs s'.requested id := fun id hid => by
    rw [hrequested]
    exact (hw.reaches hid).elim (h.reached id) fun hid => hid
  have habove := hw.above h.above
  refine ⟨order, ⟨h.settled, hlaid, fun id => (hp.isDefined_eq id).trans (h.isDefined id),
    hw.nodup hr.lt h.nodup, habove, hp.named h.named, h.keyed.persists h.named hp hkeys, hreached⟩,
    hp, hw.isPrefix, fun id => ⟨hreached id, ?_⟩⟩
  -- All that is needed is on the walk: the requested nodes are, and so is what they need.
  rintro ⟨root, hroot, hpath⟩
  induction hpath with
  | refl => exact hw.mem_of_mem_todo (hrequested ▸ hroot)
  | tail _ hstep ih =>
    obtain ⟨l, r, hl⟩ := List.append_of_mem ih
    rw [hl]
    exact List.mem_append_left _ (habove l _ r hl _ hstep)

/-- Places in an order stay when nodes are added at its end. -/
theorem Laid.stands (h : Laid g done s) (h' : Laid g order s') (ho : done <+: order)
    (hp : s.Persists s') (hs : s.Named) : s.Stands s' := by
  obtain ⟨rest, rfl⟩ := ho
  refine ⟨fun id o hid => ?_, fun id j hid => ?_, fun id hid => ?_, hp.names⟩
  · obtain ⟨hmem, rfl⟩ := h.mem_of_offset hid
    rw [h'.offset id, if_pos (List.mem_append_left _ hmem), Graph.offsetIn,
      Graph.before_append_of_mem _ hmem]
    rfl
  · obtain ⟨hmem, hu, rfl⟩ := h.mem_of_jump hid
    rw [h'.jump id, if_pos ⟨List.mem_append_left _ hmem, hu⟩, Graph.jumpIn,
      Graph.before_append_of_mem _ hmem]
    rfl
  · by_cases hren : (s.graph.node id).renamed = true
    · exact (hp.renamed id hren).2
    · have hoff := hid.resolve_right hren
      have hk : (s.graph.node id).kind ≠ .unionMember := fun hk => hren (hs.placed id hoff hk)
      obtain ⟨o, ho⟩ := Option.isSome_iff_exists.mp hoff
      exact hp.name id hk (h.named id (h.mem_of_offset ho).1)

theorem forEach_of_idle {α : Type} {f : Session → α → Session × Except ε Unit} {l : List α}
    (h : ∀ a ∈ l, f s a = (s, .ok ())) : s.forEach f l = (s, .ok ()) := by
  induction l with
  | nil => rfl
  | cons a l ih =>
    unfold forEach
    rw [h a List.mem_cons_self]
    exact ih fun b hb => h b (List.mem_cons_of_mem _ hb)

/-- Nothing happens when everything that is requested has a place. -/
theorem assignOffsets_of_placed
    (h : ∀ id ∈ s.requested, (s.graph.node id).offset.isSome = true) :
    s.assignOffsets = (s.note (.laidOut s.nextOffset s.nextJump), .ok ()) := by
  have hloop : s.forEach (fun s root => visit s.graph.size s root none) s.requested = (s, .ok ()) :=
    forEach_of_idle fun id hid => by
      cases hsize : s.graph.size with
      | zero => rfl
      | succ n =>
        unfold visit
        rw [if_pos (h id hid)]
  unfold assignOffsets
  dsimp only
  rw [show s.keys.keys.filterMap (·.node) = s.requested from rfl, hloop]

/-- **One more layout**, of whatever sort. -/
theorem Staged.laysOut (h : Staged g done s) (hl : s.LaysOut s') :
    ∃ order, Staged g order s' ∧ s.Stands s' ∧ ∀ id, id ∈ order ↔ g.Needs s'.requested id := by
  cases hl with
  | again ha =>
    obtain ⟨order, hstaged, hp, hprefix, hneeds⟩ := h.assignOffsets ha
    exact ⟨order, hstaged, h.laid.stands hstaged.laid hprefix hp h.named, hneeds⟩
  | further hn hk ha =>
    obtain ⟨hrequest, hp⟩ := h.request hn hk
    obtain ⟨order, hstaged, hp', hprefix, hneeds⟩ := hrequest.resolveKeys.assignOffsets ha
    have hall := (hp.trans (persists_resolveKeys _)).trans hp'
    exact ⟨order, hstaged, h.laid.stands hstaged.laid hprefix hall h.named, hneeds⟩

/-! ### The first layout -/

theorem named_of_settled (hs : s.graph.Settled)
    (hb : ∀ b ∈ s.registry.bindings, (∃ x, s.names.get? b.name = some x) ∧
      (s.graph.node b.node).kind ≠ .unionMember) : s.Named where
  bound b hmem := (hb b hmem).1
  binds b hmem := (hb b hmem).2
  links a item hi t ht := by
    have hleads := (hs.nodes a).leads item hi
    cases hk : item.kind with
    | structLink x | unionLink x =>
      rw [hk] at hleads ht
      obtain rfl := Option.some.inj ht
      simp [hleads.1]
    | _ => simp [hk, Element.link?] at ht
  members a m hm := ((hs.nodes a).members m hm).1
  renamed id hren := by simp [(hs.nodes id).unplaced.2.1] at hren
  placed id hoff := by simp [(hs.nodes id).unplaced.2.2.1] at hoff

theorem Idle.named (h : s.Idle) : s.Named :=
  named_of_settled h.sound.settled fun b hb => by
    obtain ⟨x, hx, -, hkind, -⟩ := h.bound b hb
    exact ⟨⟨x, hx⟩, hkind⟩

theorem Idle.staged (h : s.Idle) (hk : Unresolved s.keys) :
    Staged s.resolveKeys.1.graph [] s.resolveKeys.1 := by
  have hsettled := h.settled_resolveKeys.1
  have hkeyed : s.Keyed := fun key hkey id hid => by
    rw [hk key hkey] at hid
    cases hid
  exact ⟨hsettled, laid_nil hsettled ((counters_resolveKeys s).trans h.counters), fun _ => rfl,
    List.nodup_nil, above_nil _, (persists_resolveKeys s).named h.named,
    (hkeyed.resolveKeys h.named).1, by simp⟩


/-- Merging binds no names, and makes no members and undoes none. -/
theorem Named.inlineStructs (h : s.Named) (hs : s.graph.Settled) : s.inlineStructs.1.Named := by
  have hmerges := s.graph.merges_inlineStructs
  have hmarks := hs.keepsMarks_merges hmerges
  rw [inlineStructs_eq]
  exact named_of_settled (hs.merges hmerges) fun b hb =>
    ⟨h.bound b hb, fun hk => h.binds b hb ((hmarks.isMember _).mp hk)⟩

/-- Merging before the first layout. -/
theorem Staged.inlineStructs (h : Staged s.graph [] s) :
    Staged s.inlineStructs.1.graph [] s.inlineStructs.1 := by
  have hmerges := s.graph.merges_inlineStructs
  have hmarks := h.settled.keepsMarks_merges hmerges
  have hsettled := h.settled.merges hmerges
  have hnamed := h.named.inlineStructs h.settled
  have hzero : s.counters = (0, 0) := Prod.ext h.laid.nextOffset h.laid.nextJump
  rw [inlineStructs_eq] at hnamed ⊢
  exact ⟨hsettled, laid_nil hsettled hzero, fun _ => rfl, List.nodup_nil, above_nil _, hnamed,
    fun key hkey id hid =>
      resolve?_eq h.named (.refl _) rfl hmarks.isDefined (h.keyed key hkey id hid), by simp⟩

/-- **Every layout tiles the table, and what it gives out stays.** After a successful layout,
and any number of further ones with more names in between, the table is tiled; to lay out once
more changes nothing; and further layouts keep all places and names. -/
theorem tiled_rounds (names : Names) {keys : KeyList} (target : Target)
    (hkeys : ∀ key ∈ keys.keys, key.node = none) (sources : List (Evaluator × String × ℕ))
    {s₀ s₁ s₂ : Session}
    (hs : s₀ = ((start names keys target).readAll sources).resolveKeys.1 ∨
      s₀ = ((start names keys target).readAll sources).resolveKeys.1.inlineStructs.1)
    (hfirst : s₀.assignOffsets = (s₁, .ok ())) (hrounds : Relation.ReflTransGen LaysOut s₁ s₂) :
    s₂.Tiled ∧ s₂.assignOffsets = (s₂.note (.laidOut s₂.nextOffset s₂.nextJump), .ok ()) ∧
      ∀ s₃, s₂.LaysOut s₃ → s₂.Stands s₃ := by
  have hstart : Staged s₀.graph [] s₀ := by
    have hidle := idle_start names keys target
    have hsame : (start names keys target).keys = keys := (moves_start names keys target).keys
    have hunresolved : Unresolved ((start names keys target).readAll sources).keys := by
      rw [(hidle.advances_readAll sources).keys, hsame]
      exact hkeys
    have hresolved := (hidle.readAll sources).staged hunresolved
    rcases hs with rfl | rfl
    · exact hresolved
    · exact hresolved.inlineStructs
  obtain ⟨order, hstaged, hneeds⟩ : ∃ order, Staged s₀.graph order s₂ ∧
      ∀ id, id ∈ order ↔ s₀.graph.Needs s₂.requested id := by
    induction hrounds with
    | refl =>
      obtain ⟨order, hstaged, -, -, hneeds⟩ := hstart.assignOffsets hfirst
      exact ⟨order, hstaged, hneeds⟩
    | tail _ hround ih =>
      obtain ⟨done, hdone, -⟩ := ih
      obtain ⟨order, hstaged, -, hneeds⟩ := hdone.laysOut hround
      exact ⟨order, hstaged, hneeds⟩
  have htiled := hstaged.laid.tiled hstaged.settled hstaged.nodup hstaged.above hneeds
  refine ⟨htiled, assignOffsets_of_placed fun id hid => ?_, fun s₃ hround => ?_⟩
  · exact (htiled.placed id).mpr ⟨id, hid, .refl⟩
  · obtain ⟨-, -, hstands, -⟩ := hstaged.laysOut hround
    exact hstands

theorem eq_of_isOk {r : Session × Except ε Unit} (h : r.2.isOk = true) : r = (r.1, .ok ()) := by
  obtain ⟨s, r⟩ := r
  cases r with
  | error err => cases h
  | ok _ => rfl

/-- A layout with one more name. -/
theorem laysOut_makeKey (q : Qualifier) (name : String) (line : ℕ)
    (h : ({ s with
      names := (KeyList.makeKey s.names q name line).2
      keys := ⟨s.keys.keys ++ [(KeyList.makeKey s.names q name line).1]⟩ } :
        Session).resolveKeys.1.assignOffsets.2.isOk = true) :
    s.LaysOut ({ s with
      names := (KeyList.makeKey s.names q name line).2
      keys := ⟨s.keys.keys ++ [(KeyList.makeKey s.names q name line).1]⟩ } :
        Session).resolveKeys.1.assignOffsets.1 :=
  .further ((s.names.extends_insert name).trans (Names.extends_insert _ _))
    (by simp [KeyList.makeKey]) (eq_of_isOk h)

/-- One struct first, and then another one with a union that uses it. -/
theorem tiled_rounds_union :
    ∃ s₀ s₁ s₂ : Session,
      s₀ = ((start (KeyList.makeKey {} .struct "a" 1).2 ⟨[(KeyList.makeKey {} .struct "a" 1).1]⟩
        .standard).readAll [(fun _ => .error .noCompiler, "struct a { int n; char c; };" ++
          "struct b { union { struct a x; int i; } u; struct a y; };", 1)]).resolveKeys.1 ∧
      s₀.assignOffsets = (s₁, .ok ()) ∧ s₁.LaysOut s₂ ∧
      (s₁.nextOffset, s₁.nextJump) = (3, 0) ∧ (s₂.nextOffset, s₂.nextJump) = (14, 1) ∧
      s₂.Tiled ∧ s₂.assignOffsets = (s₂.note (.laidOut s₂.nextOffset s₂.nextJump), .ok ()) ∧
      ∀ s₃, s₂.LaysOut s₃ → s₂.Stands s₃ := by
  refine ⟨_, _, _, rfl, eq_of_isOk (by decide +kernel),
    laysOut_makeKey .struct "b" 2 (by decide +kernel), by decide +kernel, by decide +kernel, ?_⟩
  exact tiled_rounds _ _ (by decide +kernel) _ (.inl rfl) (eq_of_isOk (by decide +kernel))
    (.single (laysOut_makeKey .struct "b" 2 (by decide +kernel)))

end Session

end TypeLayout
