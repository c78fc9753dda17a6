import TypeLayout.Proofs.Faithful
import TypeLayout.Proofs.Spellings

/-!
# What a successful compilation has gone through

A compilation that returns something has run its passes without an error, each on the session
that the pass before it left (`compile_ok_cases`). Whatever is to be said about its result
starts from two of these sessions. The one that goes into the layout has everything that was
requested, in types that nothing has been placed of (`Session.Prepared`). The one that comes
out of it is described by an order of the nodes (`Session.LaidOut`), and a table that is written
from it consists of what that order says and has passed the checks at the end
(`Session.Emits`). The last session differs from it in marks and in the log only, so what the
order says can be read off the session that a compilation returns (`Session.Passage`).
-/

namespace TypeLayout

theorem Graph.target_merges {g g' : Graph} (h : Relation.ReflTransGen Graph.Merge g g') :
    g'.target = g.target := by
  induction h with
  | refl => rfl
  | tail _ hstep ih =>
    refine Eq.trans ?_ ih
    cases hstep with
    | splice => exact Graph.target_splice
    | adopt => exact Graph.target_adopt

namespace Session

variable {s s' : Session} {names : Names} {keys : KeyList} {target : Target}

/-! ### Before the layout -/

/-- **A session that goes into the layout** of what some keys ask for. Each key is as it was
given, with the node that was found for it, which is never a member of a union. Names that
nodes have can be spelled on one line, and those that were given have kept their spelling. -/
structure Prepared (names : Names) (keys : KeyList) (target : Target) (s : Session) : Prop
    extends s.Resolved where
  named : s.Named
  keyed : s.Keyed
  spelled : s.graph.SpelledBy Unbroken s.names
  roots : ∀ id ∈ s.requested, (s.graph.node id).kind ≠ .unionMember
  target : s.graph.target = target
  keys : List.Forall₂ (fun key key' => ∃ id, key' = { key with node := some id }) keys.keys
    s.keys.keys
  names : names.Extends s.names

/-- Looking up the requested names prepares for the layout. -/
theorem Idle.prepared (h : s.Idle) (hs : s.graph.SpelledBy Unbroken s.names)
    (hr : s.resolveKeys = (s', .ok ())) : Prepared s.names s.keys s.graph.target s' := by
  have hp := persists_resolveKeys s
  have hspelled := (keepsNames_resolveKeys s).spelled hs
  have hgraph := graph_resolveKeys s
  have hkeys := keys_resolveKeys s
  have hresolved := h.toFresh.resolved hr
  rw [hr] at hp hspelled hgraph hkeys
  have hfound {key : Key} (hkey : key ∈ s.keys.keys) : ∃ id, s.resolve? key = some id ∧
      (s.resolve? key).or key.node = some id := by
    obtain ⟨id, hid⟩ := exists_resolve? hr hkey
    exact ⟨id, hid, by rw [hid, Option.some_or]⟩
  refine ⟨hresolved, hp.named h.named, fun key hkey id hid => ?_, hspelled, fun id hid => ?_, ?_,
    ?_, hp.names⟩
  · rw [hkeys] at hkey
    obtain ⟨old, hold, rfl⟩ := List.mem_map.mp hkey
    obtain ⟨id', hid', hnode⟩ := hfound hold
    obtain rfl := Option.some.inj (hnode.symm.trans hid)
    exact resolve?_eq h.named hp.names hp.registry hp.isDefined_eq hid'
  · rw [(requested_resolveKeys hr).1] at hid
    obtain ⟨key, -, hkey⟩ := List.mem_filterMap.mp hid
    rw [hp.kind_eq]
    exact (h.named.of_resolve? hkey).2
  · rw [hgraph]
    exact Graph.target_mark _ _
  · rw [hkeys, List.forall₂_map_right_iff, List.forall₂_same]
    intro key hkey
    obtain ⟨id, -, hnode⟩ := hfound hkey
    exact ⟨id, by rw [hnode]⟩

/-- Merging leaves a session prepared. -/
theorem Prepared.inlineStructs (h : Prepared names keys target s) :
    Prepared names keys target s.inlineStructs.1 := by
  have hsettled := h.serves.settled
  have hmarks := hsettled.keepsMarks_merges s.graph.merges_inlineStructs
  have hnames := keepsNames_inlineStructs (P := Unbroken) hsettled
  have hresolved := h.toResolved.inlineStructs
  have hnamed := h.named.inlineStructs hsettled
  have htarget := Graph.target_merges s.graph.merges_inlineStructs
  rw [inlineStructs_eq] at hnames hresolved hnamed ⊢
  exact ⟨hresolved, hnamed, fun key hkey id hid =>
      resolve?_eq h.named hnames.names rfl hmarks.isDefined (h.keyed key hkey id hid),
    hnames.spelled h.spelled, fun id hid hk => h.roots id hid ((hmarks.isMember id).mp hk),
    htarget.trans h.target, h.keys, h.names.trans hnames.names⟩

/-- **After the layout** the nodes have been placed in the order of a walk, and names, keys and
the machine are those from before. -/
theorem Prepared.exists_laidOut (h : Prepared names keys target s)
    (ha : s.assignOffsets = (s', .ok ())) :
    ∃ order, s'.LaidOut s.graph order ∧ s.Persists s' ∧ s'.keys = s.keys := by
  obtain ⟨order, hw⟩ := h.exists_walk
  have hends := h.layout_ends hw
  have hp := persists_assignOffsets h.named h.roots
  rw [ha] at hends hp
  exact ⟨order, hends.2.1, hp, hends.2.2⟩

theorem layOut_ok {optimize : Bool} (h : s.layOut optimize = (s', .ok ())) :
    ∃ s₁, s.resolveKeys = (s₁, .ok ()) ∧
      (if optimize then s₁.inlineStructs.1 else s₁).assignOffsets = (s', .ok ()) := by
  unfold layOut at h
  split at h
  · cases h
  · rename_i s₁ hresolve
    refine ⟨s₁, hresolve, ?_⟩
    dsimp only at h
    split at h
    · cases h
    · rename_i s₂ hassign
      rw [hassign, (Prod.mk.inj h).1]

/-! ### The table -/

/-- **A table that was written from a session**: what it consists of, and that it has passed
the checks at the end. -/
structure Emits (g : Graph) (order : List NodeId) (s : Session) (d : Draft)
    (table : DescriptorTable) : Prop where
  laidOut : s.LaidOut g order
  written : d.Written g order s order []
  target : table.target = g.target
  cells : table.cells = order.flatMap (g.record (g.placesIn order))
  symbols : table.symbols = s.keySymbols g order ++ s.memberSymbols g order d.members
  starts : table.starts = order.map fun id => (g.offsetIn order id, s.spelled id)
  jumpSlots : table.jumpSlots = ((order.filter fun id => (g.node id).isUnion).map fun id =>
    (⟨g.jumpIn order id, s.spelled id⟩ : JumpSlot)).mergeSort fun a b => a.index ≤ b.index
  checked : checkSymbols [] table.symbols = .ok ()
  packed : ∃ words, table.packed = .ok words

theorem kept_emitTable (s : Session) :
    s.emitTable.1.names = s.names ∧ s.emitTable.1.registry = s.registry := by
  unfold emitTable
  dsimp only
  split
  · exact ⟨rfl, rfl⟩
  · split
    · exact ⟨rfl, rfl⟩
    · exact ⟨rfl, rfl⟩

theorem LaidOut.exists_emits {g : Graph} {order : List NodeId} (h : s.LaidOut g order)
    {table : DescriptorTable} (hok : s.emitTable = (s', .ok table)) :
    ∃ d, Emits g order s d table ∧ s'.graph = d.graph ∧ s'.keys = s.keys := by
  obtain ⟨d, -, hd, hgraph, hkeys, table', htarget, hcells, hsymbols, hstarts, hjumps, hresult⟩ :=
    exists_emitTable h
  rw [hok] at hgraph hkeys hresult
  obtain ⟨hchecked, hpacked, htable⟩ := of_checked hresult.symm
  subst htable
  exact ⟨d, ⟨h, hd, htarget, hcells, hsymbols, hstarts.trans hd.starts, hd.jumpSlots ▸ hjumps,
    hchecked, hpacked⟩, hgraph, hkeys⟩

/-- **The last passes of a compilation that returns a table**: a session that is prepared is
laid out, and the table is written from what this leaves. -/
structure Passage (names : Names) (keys : KeyList) (target : Target) (order : List NodeId)
    (d : Draft) (table : DescriptorTable) (s s₁ s₂ : Session) : Prop where
  prepared : s.Prepared names keys target
  assigned : s.assignOffsets = (s₁, .ok ())
  persists : s.Persists s₁
  emits : s₁.Emits s.graph order d table
  graph : s₂.graph = d.graph
  keys : s₁.keys = s.keys ∧ s₂.keys = s₁.keys
  names : s₂.names = s₁.names
  registry : s₂.registry = s₁.registry

namespace Passage

variable {order : List NodeId} {d : Draft} {table : DescriptorTable} {s₁ s₂ : Session}
  (h : Passage names keys target order d table s s₁ s₂) {id : NodeId}

include h

theorem requested_eq : s₂.requested = s₁.requested := by rw [requested, h.keys.2, requested]

theorem shape (id : NodeId) : (s.graph.node id).Shape (s₂.graph.node id) := by
  rw [h.graph]
  exact shape_written h.emits.laidOut h.emits.written id

theorem mem_order_iff (id : NodeId) : id ∈ order ↔ s₂.graph.Needs s₂.requested id := by
  rw [h.graph, h.requested_eq]
  exact Session.mem_order_iff h.emits.laidOut h.emits.written id

theorem offset (hid : id ∈ order) :
    (s₂.graph.node id).offset = some (s.graph.offsetIn order id) := by
  rw [h.graph]
  exact offset_written h.emits.laidOut h.emits.written hid

theorem jump (hid : id ∈ order) (hu : (s.graph.node id).isUnion = true) :
    (s₂.graph.node id).jump = some (s.graph.jumpIn order id) := by
  rw [h.graph]
  exact jump_written h.emits.laidOut h.emits.written hid hu

theorem name_eq (id : NodeId) : (s₂.graph.node id).name = (s₁.graph.node id).name := by
  rw [h.graph, h.emits.written.node id]

theorem nodup : order.Nodup := h.emits.laidOut.nodup

/-- A node that has a place has a name. -/
theorem exists_name (hid : id ∈ order) :
    ∃ name, (s₂.graph.node id).name = some name ∧ s₁.spelled id = s₂.names.spell name := by
  obtain ⟨name, hname⟩ := Option.isSome_iff_exists.mp (h.emits.laidOut.laid.named id hid)
  refine ⟨name, (h.name_eq id).trans hname, ?_⟩
  rw [h.names, spelled, hname]
  rfl

/-- **Each key still leads to its node.** -/
theorem resolve?_eq {key : Key} (hkey : key ∈ s₂.keys.keys) (hid : key.node = some id) :
    s₂.resolve? key = some id := by
  rw [h.keys.2, h.keys.1] at hkey
  have hstate (id : NodeId) : (s₂.graph.node id).state = (s₁.graph.node id).state := by
    rw [h.graph, h.emits.written.node id]
  refine Session.resolve?_eq h.prepared.named (h.names ▸ h.persists.names)
    (h.registry.trans h.persists.registry) (fun id => ?_) (h.prepared.keyed key hkey id hid)
  rw [Node.isDefined, hstate, ← Node.isDefined, h.persists.isDefined_eq]

end Passage

end Session

/-! ### The compilation -/

section Compile

variable {source : String} {names : Names} {keys : KeyList} {options : Options} {eval : Evaluator}
  {stopAfter : Stage} {c : Compilation} {s₁ : Session}

/-- **How a compilation succeeds**: it stops after the first, second or third of its passes, or
it writes a table. -/
theorem compile_ok_cases
    (h : (compile source names keys options eval stopAfter).result = .ok c) :
    (stopAfter = .lexer ∧ c = {}) ∨
    ∃ s₁, (Session.start names keys options.target).readSource eval source options.contextLines =
        (s₁, .ok ()) ∧
      ((stopAfter = .parser ∧ c = { session := some (s₁.note (.parsed s₁.graph.size)) }) ∨
      ∃ s₂, (s₁.note (.parsed s₁.graph.size)).layOut options.optimize = (s₂, .ok ()) ∧
        ((stopAfter = .layout ∧ c = { session := some s₂ }) ∨
        ∃ s₃ table, stopAfter = .emit ∧ s₂.emitTable = (s₃, .ok table) ∧
          c = { session := some s₃, table := some table })) := by
  unfold compile at h
  dsimp only at h
  split at h
  · rename_i hlexer
    refine .inl ⟨hlexer, ?_⟩
    unfold Session.scanOnly at h
    dsimp only at h
    split at h
    · cases h
    · exact (Except.ok.inj h).symm
  rename_i hlexer
  split at h
  · cases h
  rename_i s₁ hread
  refine .inr ⟨s₁, hread, ?_⟩
  split at h
  · rename_i hparser
    exact .inl ⟨hparser, (Except.ok.inj h).symm⟩
  rename_i hparser
  split at h
  · cases h
  rename_i s₂ hlayout
  refine .inr ⟨s₂, hlayout, ?_⟩
  split at h
  · rename_i hstage
    exact .inl ⟨hstage, (Except.ok.inj h).symm⟩
  rename_i hstage
  split at h
  · cases h
  rename_i s₃ table hemit
  refine .inr ⟨s₃, table, ?_, hemit, (Except.ok.inj h).symm⟩
  cases stopAfter with
  | lexer => exact absurd rfl hlexer
  | parser => exact absurd rfl hparser
  | layout => exact absurd rfl hstage
  | emit => rfl

/-- Looking up the requested names after a source has been read prepares for the layout. -/
theorem prepared_of_resolveKeys {s : Session}
    (hread : (Session.start names keys options.target).readSource eval source
      options.contextLines = (s₁, .ok ()))
    (hresolve : (s₁.note (.parsed s₁.graph.size)).resolveKeys = (s, .ok ())) :
    s.Prepared names keys options.target := by
  have hstart := Session.idle_start names keys options.target
  have hadvances := Session.advances_readSource hstart.toReady eval source options.contextLines
  have hspelled := Session.spelledBy_readSource names keys options.target eval source
    options.contextLines
  have hmoves := Session.moves_start names keys options.target
  have htarget := Graph.target_of_builds (hmoves.builds.trans hadvances.builds)
  have hkeys := hadvances.keys.trans hmoves.keys
  rw [hread] at hadvances hspelled htarget hkeys
  have hnote := Session.moves_note s₁ (.parsed s₁.graph.size)
  have hidle := (hstart.advances hadvances).advances hnote.advances
  have hprepared := hidle.prepared hspelled.2 hresolve
  refine { hprepared with
    target := hprepared.target.trans htarget
    names := hspelled.1.trans hprepared.names
    keys := ?_ }
  have hsame : (s₁.note (.parsed s₁.graph.size)).keys = keys := hkeys
  rw [← hsame]
  exact hprepared.keys

/-- The session between two passes of a compilation: after the requested names have been looked
up and before structs are merged. -/
theorem exists_prepared_of_layOut {s₂ : Session}
    (hread : (Session.start names keys options.target).readSource eval source
      options.contextLines = (s₁, .ok ()))
    (hlayout : (s₁.note (.parsed s₁.graph.size)).layOut options.optimize = (s₂, .ok ())) :
    ∃ s, (s₁.note (.parsed s₁.graph.size)).resolveKeys = (s, .ok ()) ∧
      s.Prepared names keys options.target ∧
      (if options.optimize then s.inlineStructs.1 else s).assignOffsets = (s₂, .ok ()) := by
  obtain ⟨s, hresolve, hassign⟩ := Session.layOut_ok hlayout
  exact ⟨s, hresolve, prepared_of_resolveKeys hread hresolve, hassign⟩

/-- **Where a table comes from**: a session that is laid out, whether structs have been merged
in it or not, and then written. -/
theorem exists_passage {table : DescriptorTable}
    (h : (compile source names keys options eval stopAfter).result = .ok c)
    (ht : c.table = some table) :
    ∃ order d s s₁ s₂, c.session = some s₂ ∧
      Session.Passage names keys options.target order d table s s₁ s₂ := by
  rcases compile_ok_cases h with ⟨-, rfl⟩ | ⟨s₁, hread, ⟨-, rfl⟩ | ⟨s₂, hlayout, ⟨-, rfl⟩ |
    ⟨s₃, table', -, hemit, rfl⟩⟩⟩
  · cases ht
  · cases ht
  · cases ht
  obtain rfl := Option.some.inj ht
  obtain ⟨s, -, hprepared, hassign⟩ := exists_prepared_of_layOut hread hlayout
  have hready : (if options.optimize then s.inlineStructs.1 else s).Prepared names keys
      options.target := by
    split
    · exact hprepared.inlineStructs
    · exact hprepared
  obtain ⟨order, hlaid, hpersists, hkeys⟩ := hready.exists_laidOut hassign
  obtain ⟨d, hemits, hgraph, hkeys'⟩ := hlaid.exists_emits hemit
  obtain ⟨hnames, hregistry⟩ := s₂.kept_emitTable
  rw [hemit] at hnames hregistry
  exact ⟨order, d, _, s₂, s₃, rfl, hready, hassign, hpersists, hemits, hgraph, ⟨hkeys, hkeys'⟩,
    hnames, hregistry⟩

end Compile

/-- The table that a compilation returned. -/
def Run.table? (r : Run) : Option DescriptorTable :=
  match r.result with
  | .ok c => c.table
  | .error _ => none

theorem Run.exists_of_table? {r : Run} {table : DescriptorTable} (h : r.table? = some table) :
    ∃ c, r.result = .ok c ∧ c.table = some table := by
  unfold Run.table? at h
  split at h
  · rename_i c hr
    exact ⟨c, hr, h⟩
  · cases h

end TypeLayout
