import TypeLayout.Proofs.ActingOn
import TypeLayout.Proofs.Mirroring

/-!
# Declarations that are added at the end

What is declared after the types that are asked for does not show in their table, as long as
structs are not merged and the requested names lead where they did (`table_compile_append`). The
added declarations may use the types in front of them, name them anew, and complete tags that
those only mention.

They leave alone what has been defined (`Session.leaves_readSource`), so when the requested names
have been looked up the two sessions agree on all defined nodes of the shorter source
(`Session.Prepared.mirrors`). From there on the layout and the table go through the same steps.
-/

namespace TypeLayout

/-! ### Keys and their names -/

namespace KeyList

variable {text : String}

/-- The names of all keys are in a table. -/
def HeldBy (keys : KeyList) (names : Names) : Prop :=
  ∀ key ∈ keys.keys, (names.get? key.name).isSome = true

/-- So are their spellings among the types. -/
def SpelledBy (keys : KeyList) (names : Names) : Prop :=
  ∀ key ∈ keys.keys, (∃ x, names.get? key.name = some x) ∧ ∃ x, names.get? key.lookup = some x

variable {names names' : Names} {keys keys' : KeyList}

theorem SpelledBy.mono (h : keys.SpelledBy names) (hn : names.Extends names') :
    keys.SpelledBy names' := by
  intro key hkey
  obtain ⟨⟨x, hx⟩, y, hy⟩ := h key hkey
  exact ⟨⟨x, hn _ _ hx⟩, y, hn _ _ hy⟩

theorem SpelledBy.addEntry {line : ℕ} {entry : List Char} (h : keys.SpelledBy names)
    (hadd : addEntry names keys line entry = .ok (keys', names')) : keys'.SpelledBy names' := by
  unfold KeyList.addEntry at hadd
  split at hadd
  · cases hadd
  rename_i qualifier name _
  have hfirst := names.extends_insert name
  have hsecond := (names.insert name).2.extends_insert (lookupSpelling qualifier name)
  simp only [makeKey, insert?] at hadd
  split at hadd <;> rename_i hinsert
  · cases hadd
  obtain ⟨rfl, rfl⟩ := Prod.mk.inj (Except.ok.inj hadd)
  split at hinsert
  · cases hinsert
  obtain rfl := Option.some.inj hinsert
  intro key hkey
  rcases List.mem_append.mp hkey with hkey | hkey
  · exact h.mono (hfirst.trans hsecond) key hkey
  · obtain rfl := List.mem_singleton.mp hkey
    exact ⟨⟨name, hsecond _ _ (names.get?_insert name)⟩, _, Names.get?_insert _ _⟩

/-- **The names of a key list are in the table that it was read into.** -/
theorem spelledBy_parse (h : parse names text = .ok (keys, names')) : keys.SpelledBy names' := by
  have hall {entries : List (ℕ × List Char)} {names : Names} {start : KeyList}
      (hs : start.SpelledBy names) (ha : addEntries names start entries = .ok (keys, names')) :
      keys.SpelledBy names' := by
    induction entries generalizing names start with
    | nil =>
      obtain ⟨rfl, rfl⟩ := Prod.mk.inj (Except.ok.inj ha)
      exact hs
    | cons entry entries ih =>
      rw [addEntries] at ha
      split at ha
      · cases ha
      rename_i hadd
      exact ih (hs.addEntry hadd) ha
  exact hall (by simp [SpelledBy]) h

theorem heldBy_parse (h : parse names text = .ok (keys, names')) :
    keys.HeldBy names' := fun key hkey =>
  Option.isSome_iff_exists.mpr (spelledBy_parse h key hkey).1

end KeyList

namespace Session

variable {s s' s₁ s₁' t t' : Session} {names : Names} {keys : KeyList} {target : Target}
  {rank : NodeId → ℕ}

/-! ### Looking names up -/

/-- Names that lead to the same nodes in two sessions are found in both. -/
theorem exists_resolveKeys (hk : s₁'.keys = s₁.keys)
    (hsame : ∀ key ∈ s₁.keys.keys, s₁'.resolve? key = s₁.resolve? key)
    (hr : s₁.resolveKeys = (s, .ok ())) :
    ∃ s', s₁'.resolveKeys = (s', .ok ()) ∧ s'.keys = s.keys := by
  have hkeys := keys_resolveKeys s₁
  have hkeys' := keys_resolveKeys s₁'
  rw [hr] at hkeys
  have hfound : ∃ s', s₁'.resolveKeys = (s', .ok ()) := by
    unfold resolveKeys
    dsimp only
    rw [if_pos]
    · exact ⟨_, rfl⟩
    · rw [List.isEmpty_iff, List.map_eq_nil_iff, List.filter_eq_nil_iff]
      intro p hp
      obtain ⟨key, hkey, rfl⟩ := List.mem_map.mp hp
      rw [hk] at hkey
      obtain ⟨id, hid⟩ := exists_resolve? hr hkey
      simp [hsame key hkey, hid]
  obtain ⟨s', hr'⟩ := hfound
  rw [hr', hk] at hkeys'
  refine ⟨s', hr', congrArg KeyList.mk ?_⟩
  rw [hkeys, hkeys']
  exact List.map_congr_left fun key hkey => by rw [hsame key hkey]

/-- Looking names up only marks nodes. -/
theorem field_resolveKeys {α : Type} (h : s.resolveKeys = (s', .ok ())) (field : Node → α)
    (hf : ∀ n : Node, field { n with isKey := true } = field n) (id : NodeId) :
    field (s'.graph.node id) = field (s.graph.node id) := by
  have hgraph := graph_resolveKeys s
  rw [h] at hgraph
  rw [hgraph]
  exact Graph.node_mark_field field hf _ _ id

/-- Reading changes no key. -/
theorem keys_readSource (names : Names) (keys : KeyList) (target : Target) (eval : Evaluator)
    (source : String) (contextLines : ℕ) :
    ((start names keys target).readSource eval source contextLines).1.keys = keys :=
  (advances_readSource (ready_start names keys target) eval source contextLines).keys.trans
    (moves_start names keys target).keys

/-- **What is defined before the added declarations looks the same after them**, once the
requested names have been looked up. -/
theorem Prepared.mirrors (h : s.Prepared names keys target) (h' : s'.Prepared names keys target)
    (hl : s₁.Leaves s₁') (hspelled : s₁.graph.SpelledBy Unbroken s₁.names)
    (hr : s₁.resolveKeys = (s, .ok ())) (hr' : s₁'.resolveKeys = (s', .ok ()))
    (hrank : s.graph.Ranked rank) :
    s.Mirrors rank (fun id => (s.graph.node id).isDefined = true) s' := by
  have hnames := (persists_resolveKeys s₁).names
  have hnames' := hl.names.trans (persists_resolveKeys s₁').names
  have hgraph := graph_resolveKeys s₁
  have hgraph' := graph_resolveKeys s₁'
  rw [hr] at hnames hgraph
  rw [hr'] at hnames' hgraph'
  -- a position that can be spelled before is spelled alike in both sessions
  have hagree {y : Option NameId} (hy : ∀ x, y = some x → ∃ text, s₁.names.get? x = some text) :
      s.names.AgreeIfAny s'.names y y := by
    cases y with
    | none => exact .none
    | some x =>
      obtain ⟨text, htext⟩ := hy x rfl
      exact .some ⟨text, hnames x text htext, hnames' x text htext⟩
  have hcounters := Prod.mk.inj (h'.counters.trans h.counters.symm)
  refine ⟨⟨h'.target.trans h.target.symm, ?_, fun id hid => ?_, fun id hid => ?_,
    fun id hid b hb => ?_⟩, hcounters.1, hcounters.2⟩
  · rw [hgraph, hgraph', Graph.size_mark, Graph.size_mark]
    exact hl.size
  · exact ⟨Graph.lt_size_of_isDefined hid, hrank.lt_size id hid⟩
  · rw [field_resolveKeys hr Node.isDefined fun _ => rfl] at hid
    have hlt := Graph.lt_size_of_isDefined hid
    obtain ⟨-, hshape⟩ := hl.defined id hid
    obtain ⟨hemitted, hrenamed, hoffset, hjump⟩ := (h.serves.settled.nodes id).unplaced
    obtain ⟨hemitted', hrenamed', hoffset', hjump'⟩ := (h'.serves.settled.nodes id).unplaced
    have hsame {α : Type} (field : Node → α)
        (hf : ∀ n : Node, field { n with isKey := true } = field n)
        (heq : field (s₁'.graph.node id) = field (s₁.graph.node id)) :
        field (s'.graph.node id) = field (s.graph.node id) := by
      rw [field_resolveKeys hr field hf, field_resolveKeys hr' field hf, heq]
    refine ⟨?_, hoffset'.trans hoffset.symm, hjump'.trans hjump.symm, hrenamed'.trans hrenamed.symm,
      hemitted'.trans hemitted.symm, ?_, ?_⟩
    · exact ⟨hsame Node.kind (fun _ => rfl) hshape.kind,
        hsame Node.items (fun _ => rfl) hshape.items,
        hsame Node.members (fun _ => rfl) hshape.members,
        hsame Node.length (fun _ => rfl) hshape.length,
        hsame Node.align (fun _ => rfl) hshape.align⟩
    · rw [field_resolveKeys hr Node.name fun _ => rfl, field_resolveKeys hr' Node.name fun _ => rfl,
        hl.name id hlt]
      exact hagree fun x hx => (hspelled id x (.inl hx)).imp fun _ => And.left
    · rw [field_resolveKeys hr Node.fragment fun _ => rfl,
        field_resolveKeys hr' Node.fragment fun _ => rfl, hl.fragment id hlt]
      exact hagree fun x hx => (hspelled id x (.inr hx)).imp fun _ => And.left
  · exact ⟨(h.serves.settled.nodes id).isDefined_of_mem_children hb, hrank.lt id b hb⟩

/-- The constants of the keys are named alike in sessions that know their names. -/
theorem Prepared.roots_eq (h : s.Prepared names keys target) (h' : s'.Prepared names keys target)
    (hheld : keys.HeldBy names) (hk : s'.keys = s.keys) (ht : t.keys = s.keys)
    (ht' : t'.keys = s'.keys) (hn : s.names.Extends t.names) (hn' : s'.names.Extends t'.names) :
    t'.roots = t.roots := by
  rw [Session.roots, Session.roots, ht', hk, ht]
  refine List.filterMap_congr fun key hkey => ?_
  -- looking a key up keeps its name, which was there before anything was read
  have hname : (names.get? key.name).isSome = true := by
    obtain ⟨i, hi, rfl⟩ := List.getElem_of_mem hkey
    have hold : i < keys.keys.length := h.keys.length_eq ▸ hi
    obtain ⟨id, hid⟩ := h.keys.get hold hi
    rw [show s.keys.keys[i] = _ from hid]
    exact hheld keys.keys[i] (List.getElem_mem hold)
  obtain ⟨text, htext⟩ := Option.isSome_iff_exists.mp hname
  have hspell : t'.names.spell key.name = t.names.spell key.name := by
    rw [Names.spell, Names.spell, hn' _ _ (h'.names _ _ htext), hn _ _ (h.names _ _ htext)]
  rw [hspell]

/-- **From sessions that agree the same table is written.** -/
theorem Prepared.exists_table {table : DescriptorTable} (h : s.Prepared names keys target)
    (h' : s'.Prepared names keys target)
    (hm : s.Mirrors rank (fun id => (s.graph.node id).isDefined = true) s')
    (hheld : keys.HeldBy names) (hk : s'.keys = s.keys) (ha : s.assignOffsets = (t, .ok ()))
    (he : t.emitTable.2 = .ok table) :
    ∃ t', s'.assignOffsets = (t', .ok ()) ∧ t'.emitTable.2 = .ok table := by
  obtain ⟨t', ha', hstep⟩ := hm.assignOffsets hk h.serves.isDefined ha
  obtain ⟨order, hl, -, ht⟩ := h.exists_laidOut ha
  obtain ⟨order', hl', -, ht'⟩ := h'.exists_laidOut ha'
  refine ⟨t', ha', (hstep.emitTable hl hl'
    (h.roots_eq h' hheld hk ht ht' hstep.names hstep.names') ?_).trans he⟩
  -- the roots are the requested nodes, which are defined
  intro p hp
  refine h.serves.isDefined p.1 ?_
  rw [requested, ← ht, ← requested, ← t.map_roots]
  exact List.mem_map_of_mem hp

end Session

/-! ### Compilations -/

section Compile

variable {source more : String} {names : Names} {keys : KeyList} {options : Options}
  {eval : Evaluator} {stopAfter : Stage} {table : DescriptorTable}

/-- A compilation whose passes succeed returns a table. -/
theorem table?_of_passes {s₁ s₂ : Session}
    (hread : (Session.start names keys options.target).readSource eval source
      options.contextLines = (s₁, .ok ()))
    (hlayout : (s₁.note (.parsed s₁.graph.size)).layOut options.optimize = (s₂, .ok ()))
    (hemit : s₂.emitTable.2 = .ok table) :
    (compile source names keys options eval .emit).table? = some table := by
  have hemit' : s₂.emitTable = (s₂.emitTable.1, .ok table) := Prod.ext rfl hemit
  simp only [compile, hread, hlayout, reduceCtorEq, if_false]
  rw [hemit']
  rfl

/-- **Added declarations do not show in the table.** If a source is compiled without merging, and
with further declarations behind it it can still be read and the requested names lead to the same
nodes, then the longer source is compiled to the same table. The keys are those of a list that was
read into the table of names, which holds their names then (`KeyList.heldBy_parse`). -/
theorem table_compile_append (hheld : keys.HeldBy names) (hmerge : options.optimize = false)
    (htable : (compile source names keys options eval stopAfter).table? = some table)
    (hmore : ((Session.start names keys options.target).readSource eval (source ++ "\n" ++ more)
      options.contextLines).2 = .ok ())
    (hsame : ∀ key ∈ keys.keys,
      ((Session.start names keys options.target).readSource eval (source ++ "\n" ++ more)
        options.contextLines).1.resolve? key =
      ((Session.start names keys options.target).readSource eval source
        options.contextLines).1.resolve? key) :
    (compile (source ++ "\n" ++ more) names keys options eval stopAfter).table? = some table := by
  obtain ⟨c, hc, ht⟩ := Run.exists_of_table? htable
  rcases compile_ok_cases hc with ⟨-, rfl⟩ | ⟨s₁, hread, ⟨-, rfl⟩ | ⟨s₂, hlayout, ⟨-, rfl⟩ |
    ⟨s₃, table', rfl, hemit, rfl⟩⟩⟩
  · cases ht
  · cases ht
  · cases ht
  obtain rfl := Option.some.inj ht
  obtain ⟨s, hresolve, hprepared, hassign⟩ := exists_prepared_of_layOut hread hlayout
  rw [if_neg (by simp [hmerge])] at hassign
  -- the longer source is read, and the requested names are looked up
  generalize hlong : (Session.start names keys options.target).readSource eval
    (source ++ "\n" ++ more) options.contextLines = r at hmore hsame
  obtain ⟨s₁', _⟩ := r
  obtain rfl := hmore
  rw [hread] at hsame
  have hkeys := Session.keys_readSource names keys options.target eval source options.contextLines
  have hkeys' := Session.keys_readSource names keys options.target eval (source ++ "\n" ++ more)
    options.contextLines
  rw [hread] at hkeys
  rw [hlong] at hkeys'
  obtain ⟨s', hresolve', hfound⟩ := @Session.exists_resolveKeys s (s₁.note (.parsed s₁.graph.size))
    (s₁'.note (.parsed s₁'.graph.size)) (hkeys'.trans hkeys.symm)
    (fun key hkey => hsame key (hkeys ▸ hkey : key ∈ keys.keys)) hresolve
  have hprepared' := prepared_of_resolveKeys hlong hresolve'
  -- what is defined in the shorter source is the same in both sessions
  have hleaves := Session.leaves_readSource
    (Session.ready_start names keys options.target)
    (Session.bindsNamed_start names keys options.target) hread hlong
  have hspelled := Session.spelledBy_readSource names keys options.target eval source
    options.contextLines
  rw [hread] at hspelled
  obtain ⟨rank, hrank⟩ := hprepared.serves.settled.ranked
  have hmirrors := hprepared.mirrors hprepared' (hleaves.note _ _) hspelled.2
    hresolve hresolve' hrank
  obtain ⟨s₂', hassign', hemit'⟩ := hprepared.exists_table hprepared' hmirrors hheld hfound hassign
    (congrArg Prod.snd hemit)
  refine table?_of_passes hlong ?_ hemit'
  simp only [Session.layOut, hresolve', hmerge, Bool.false_eq_true, if_false, hassign']

end Compile

/-- The added declarations complete a tag, use both requested types, and give a typedef name
another meaning. -/
theorem table_compile_append_completed :
    let source := "struct f; typedef struct { struct f *p; } t; typedef t o;" ++
      "struct s { t a[2]; union { o x; int y; } u; };"
    let more := "struct f { t b; struct s c; }; typedef char o;"
    ∃ keys names, KeyList.parse {} "struct s, t" = .ok (keys, names) ∧
      let run := fun text => compile text names keys { optimize := false }
        (fun _ => .error .noCompiler) .emit
      (run source).table?.isSome = true ∧
        (run (source ++ "\n" ++ more)).table? = (run source).table? := by
  intro source more
  let keys : KeyList :=
    ⟨[{ name := 0, qualifier := .struct, lookup := 1, line := 1 },
      { name := 2, qualifier := .plain, lookup := 2, line := 1 }]⟩
  let names : Names := ((({} : Names).insert "s").2.insert "struct s").2.insert "t" |>.2
  have hparse : KeyList.parse {} "struct s, t" = .ok (keys, names) := by
    have hview : (KeyList.parse {} "struct s, t").toOption = some (keys, names) := by decide +kernel
    cases hp : KeyList.parse {} "struct s, t" with
    | error e => simp [hp, Except.toOption] at hview
    | ok p =>
      rw [hp] at hview
      exact congrArg Except.ok (Option.some.inj hview)
  have hsome : (compile source names keys { optimize := false } (fun _ => .error .noCompiler)
      .emit).table?.isSome = true := by decide +kernel
  obtain ⟨table, htable⟩ := Option.isSome_iff_exists.mp hsome
  refine ⟨keys, names, hparse, hsome, ?_⟩
  rw [htable]
  have hread : ((Session.start names keys .standard).readSource (fun _ => .error .noCompiler)
      (source ++ "\n" ++ more) defaultContextLines).2.isOk = true := by decide +kernel
  refine table_compile_append (KeyList.heldBy_parse hparse) rfl htable ?_ ?_
  · generalize Session.readSource _ _ _ _ = r at hread ⊢
    obtain ⟨s, err | _⟩ := r
    · cases hread
    · rfl
  · decide +kernel

end TypeLayout
