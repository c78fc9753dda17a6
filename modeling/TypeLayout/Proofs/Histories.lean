import TypeLayout.Proofs.Consistent
import TypeLayout.Proofs.Edits
import TypeLayout.Proofs.Spellings

/-!
# Reading only extends a session

Sources are read clause by clause, and a session can be looked at between any two clauses
(`Session.history`), also in a source that is refused later on. Whatever is there at one moment
is there at every later one (`Session.Extends`): nodes keep their numbers and kinds, their
states only go forward, defined nodes keep their content, names that have been given stay, and
so does everything about the built-in types. Tags lead where they did, and no name is unbound;
only a typedef name can come to mean something else.

From one moment to the next a state goes on by at most one step. A body is refused if its tag
has one already, so of all clauses that are accepted at most one gives a tag its body
(`Session.history_extends`).
-/

namespace TypeLayout

open NodeState

/-- No state leads back to that of a tag without a body. -/
theorem NodeState.Next.of_incomplete {kind : NodeKind} {state : NodeState}
    (h : Next kind state .incomplete) : state = .incomplete := by
  cases h
  rfl

namespace Session

/-! ### Moments -/

/-- The sessions before each clause and after the last one that is acted on. -/
def moments (eval : Evaluator) (s : Session) (scope : Scope) : List Heard → List Session
  | [] => [s]
  | h :: hs => s :: match s.act eval scope h.clause with
    | (s, .error _) => [s]
    | (s, .ok scope) => s.moments eval scope hs

/-- The clauses that are acted on and not refused. -/
def accepted (eval : Evaluator) (s : Session) (scope : Scope) : List Heard → List Clause
  | [] => []
  | h :: hs => match s.act eval scope h.clause with
    | (_, .error _) => []
    | (s, .ok scope) => h.clause :: s.accepted eval scope hs

/-- The clauses of a source, as far as it can be read. -/
def heardIn (source : String) (contextLines : ℕ) : List Heard :=
  (readDeclarations (scan (Cursor.start source.toList contextLines))).heard

/-- **All moments while sources are read**, one after the other, whether they can be read or
not. -/
def history (s : Session) : List (Evaluator × String × ℕ) → List Session
  | [] => [s]
  | (eval, source, contextLines) :: sources =>
    s.moments eval {} (heardIn source contextLines) ++
      (s.readSource eval source contextLines).1.history sources

/-- The clauses that are accepted while sources are read. -/
def acceptedAll (s : Session) : List (Evaluator × String × ℕ) → List Clause
  | [] => []
  | (eval, source, contextLines) :: sources =>
    s.accepted eval {} (heardIn source contextLines) ++
      (s.readSource eval source contextLines).1.acceptedAll sources

end Session

/-- The tag to which a clause gives a body, as it is bound. -/
def Clause.body? : Clause → Option String
  | .openBody kind (some name) _ => some (Names.tagSpelling kind.keyword name)
  | .enum (some name) true _ => some (Names.tagSpelling "enum" name)
  | _ => none

namespace Session

variable {clause : Clause} {eval : Evaluator} {heard : List Heard} {line : ℕ} {name x : String}
  {scope scope' : Scope}

/-- **What a later moment keeps of an earlier one.** -/
structure Extends (s s' : Session) : Prop where
  size : s.graph.size ≤ s'.graph.size
  kind : ∀ id < s.graph.size, (s'.graph.node id).kind = (s.graph.node id).kind
  /-- States go forward, each by the steps that its kind allows. -/
  state : ∀ id < s.graph.size, Relation.ReflTransGen (Next (s.graph.node id).kind)
    (s.graph.node id).state (s'.graph.node id).state
  content : ∀ id, (s.graph.node id).state = .defined → (s'.graph.node id).state = .defined ∧
    (s'.graph.node id).items = (s.graph.node id).items ∧
    (s'.graph.node id).members = (s.graph.node id).members ∧
    (s'.graph.node id).length = (s.graph.node id).length ∧
    (s'.graph.node id).align = (s.graph.node id).align
  name : ∀ id x, (s.graph.node id).name = some x → (s'.graph.node id).name = some x
  names : s.names.Extends s'.names
  builtin : ∀ x ∈ builtinNames, ∃ id, s.lookup? x = some id ∧ s'.lookup? x = some id ∧
    s'.graph.node id = s.graph.node id
  tag : ∀ p ∈ tagKinds, ∀ x id, s.lookup? (Names.tagSpelling p.1 x) = some id →
    s'.lookup? (Names.tagSpelling p.1 x) = some id
  bound : ∀ x, (s.lookup? x).isSome = true → (s'.lookup? x).isSome = true

variable {s s' s'' : Session}

theorem Extends.trans (h : s.Extends s') (h' : s'.Extends s'') : s.Extends s'' where
  size := h.size.trans h'.size
  kind id hid := (h'.kind id (lt_of_lt_of_le hid h.size)).trans (h.kind id hid)
  state id hid := by
    have hlater := h'.state id (lt_of_lt_of_le hid h.size)
    rw [h.kind id hid] at hlater
    exact (h.state id hid).trans hlater
  content id hid := by
    obtain ⟨hs, hi, hm, hlen, hal⟩ := h.content id hid
    obtain ⟨hs', hi', hm', hlen', hal'⟩ := h'.content id hs
    exact ⟨hs', hi'.trans hi, hm'.trans hm, hlen'.trans hlen, hal'.trans hal⟩
  name id x hx := h'.name id x (h.name id x hx)
  names := h.names.trans h'.names
  builtin x hx := by
    obtain ⟨id, hid, hid', hnode⟩ := h.builtin x hx
    obtain ⟨id', hid'', hid''', hnode'⟩ := h'.builtin x hx
    obtain rfl := Option.some.inj (hid'.symm.trans hid'')
    exact ⟨id, hid, hid''', hnode'.trans hnode⟩
  tag p hp x id hx := h'.tag p hp x id (h.tag p hp x id hx)
  bound x hx := h'.bound x (h.bound x hx)

/-! ### Built-in types -/

/-- A built-in name is bound to a node of its own kind, which has a name. -/
def Stocks (s : Session) (x : String) : Prop :=
  ∃ id, s.BuiltIn x id ∧ id < s.graph.size ∧ (s.graph.node id).kind = .base ∧
    (s.graph.node id).name.isSome = true

theorem Stocks.edits {R : NodeKind → NodeState → NodeState → Prop} {labelled : Option Specified}
    (h : s.Stocks x) (he : s.Edits R labelled s') : s'.Stocks x := by
  obtain ⟨id, hbuiltin, hlt, hkind, hname⟩ := h
  have hnode := (he.graph.node id hlt).builtin hkind hname
  exact ⟨id, he.builtin x id hbuiltin, lt_of_lt_of_le hlt he.graph.size, by rwa [hnode],
    by rwa [hnode]⟩

theorem stocks_addBuiltin {y : String} {b : Builtin} (hb : b.Flat) (h : y = x ∨ s.Stocks y) :
    (s.addBuiltin x b).Stocks y := by
  obtain ⟨n, hkind, hname, -, hgraph, -⟩ := Builtin.exists_addTo hb s.graph (s.intern x).1
  replace hgraph : (s.addBuiltin x b).graph = s.graph.add n := hgraph
  have hself : (s.names.insert x).2.find? x = some (s.names.insert x).1 := by
    rw [Names.find?_insert, if_pos rfl]
  by_cases hy : y = x
  · subst hy
    refine ⟨s.graph.size, ⟨_, hself, ?_⟩, ?_⟩
    · simp [addBuiltin, intern, Registry.find?]
    · rw [hgraph, Graph.size_add, Graph.node_add_self, hname]
      exact ⟨Nat.lt_succ_self _, hkind, rfl⟩
  · obtain ⟨id, ⟨name, hfind, hreg⟩, hlt, hrest⟩ := h.resolve_left hy
    have hfind' := (s.names.extends_insert x).find? hfind
    have hne : (s.names.insert x).1 ≠ name := by
      rintro rfl
      exact hy (Names.eq_of_find? hfind' hself)
    refine ⟨id, ⟨name, hfind', ?_⟩, ?_⟩
    · simpa [addBuiltin, intern, Registry.find?, hne] using hreg
    · rw [hgraph, Graph.size_add, Graph.node_add_of_lt n hlt]
      exact ⟨Nat.lt_succ_of_lt hlt, hrest⟩

theorem stocks_start (names : Names) (keys : KeyList) (target : Target) :
    ∀ x ∈ builtinNames, (start names keys target).Stocks x := by
  have hall {l : List (String × Builtin)} (hl : ∀ p ∈ l, p.2.Flat) (s : Session) (x : String)
      (hx : x ∈ l.map (·.1) ∨ s.Stocks x) :
      (l.foldl (fun s p => s.addBuiltin p.1 p.2) s).Stocks x := by
    induction l generalizing s with
    | nil => exact hx.resolve_left (by simp)
    | cons p l ih =>
      refine ih (fun q hq => hl q (List.mem_cons_of_mem p hq)) (s.addBuiltin p.1 p.2) ?_
      rw [List.map_cons, List.mem_cons, or_assoc, or_left_comm] at hx
      exact hx.imp_right fun hx => stocks_addBuiltin (hl p List.mem_cons_self) hx
  intro x hx
  have hnames : (builtins target).map (·.1) = builtinNames := by cases target <;> rfl
  exact hall (fun p hp => (flat_of_mem_builtins hp).1) _ x (.inl (hnames ▸ hx))

/-! ### One moment after the other -/

/-- From one moment to the next. -/
def Follows (s s' : Session) : Prop := ∃ labelled, s.Edits Next labelled s'

theorem Changes.follows {P : String → Prop} (h : Changes P none Next s s') : s.Follows s' :=
  ⟨none, h.edits .stay (by simp)⟩

theorem Follows.extends (h : s.Follows s') (hs : ∀ x ∈ builtinNames, s.Stocks x) :
    s.Extends s' := by
  obtain ⟨labelled, he⟩ := h
  have hlt {id : NodeId} (hid : (s.graph.node id).state = .defined) : id < s.graph.size :=
    Graph.lt_size_of_isDefined (by simp [Node.isDefined, hid])
  refine
    { size := he.graph.size
      kind := fun id hid => (he.graph.node id hid).kind
      state := fun id hid => .single (he.graph.node id hid).state
      content := fun id hid => (he.graph.node id (hlt hid)).defined hid
      name := fun id x hx => ?_
      names := he.names
      builtin := fun x hx => ?_
      tag := he.tag
      bound := he.bound }
  · have hid : id < s.graph.size := by
      by_contra hge
      rw [Graph.node_of_le (Nat.le_of_not_lt hge)] at hx
      cases hx
    exact (he.graph.node id hid).name x hx
  · obtain ⟨id, hbuiltin, hid, hkind, hname⟩ := hs x hx
    exact ⟨id, hbuiltin.lookup?, (he.builtin x id hbuiltin).lookup?,
      (he.graph.node id hid).builtin hkind hname⟩

theorem head?_moments (eval : Evaluator) (s : Session) (scope : Scope) (heard : List Heard) :
    (s.moments eval scope heard).head? = some s := by
  cases heard <;> rfl

theorem getLast?_moments (eval : Evaluator) (s : Session) (scope : Scope) (heard : List Heard) :
    (s.moments eval scope heard).getLast? = some (s.actAll eval scope heard).1 := by
  induction heard generalizing s scope with
  | nil => rfl
  | cons h heard ih =>
    rw [moments, actAll, List.getLast?_cons]
    rcases s.act eval scope h.clause with ⟨s', refusal | scope'⟩
    · rfl
    · simp only [ih s' scope', Option.getD_some]

theorem isChain_moments (eval : Evaluator) (h : s.Scoped scope)
    (hc : ∀ x ∈ heard, ∀ d, x.clause = .declare d true → Plain d.name) :
    (s.moments eval scope heard).IsChain Follows := by
  induction heard generalizing s scope with
  | nil => exact .singleton s
  | cons x heard ih =>
    have hplain := hc x List.mem_cons_self
    have hedits := edits_act eval h hplain
    have hscoped (scope' : Scope) := @scoped_act x.clause scope' s scope eval h hplain
    rw [moments]
    rcases hact : s.act eval scope x.clause with ⟨s', refusal | scope'⟩
    · rw [hact] at hedits
      exact .cons_cons ⟨_, hedits⟩ (.singleton s')
    · rw [hact] at hedits hscoped
      have hrest := ih (hscoped scope' rfl) fun y hy => hc y (List.mem_cons_of_mem x hy)
      refine List.isChain_cons.mpr ⟨fun y hy => ?_, hrest⟩
      rw [head?_moments] at hy
      obtain rfl := Option.some.inj hy
      exact ⟨_, hedits⟩

theorem follows_readSource (eval : Evaluator) (s : Session) (source : String) (contextLines : ℕ) :
    (s.actAll eval {} (heardIn source contextLines)).1.Follows
      (s.readSource eval source contextLines).1 :=
  (changes_readSource (P := fun _ => True) eval s source contextLines).follows

theorem Ready.scoped (h : s.Ready {}) : s.Scoped {} := ⟨h, by simp⟩

theorem head?_history (s : Session) (sources : List (Evaluator × String × ℕ)) :
    (s.history sources).head? = some s := by
  cases sources with
  | nil => rfl
  | cons x sources =>
    rw [history, List.head?_append, head?_moments]
    rfl

theorem getLast?_history (s : Session) (sources : List (Evaluator × String × ℕ)) :
    (s.history sources).getLast? = some (s.readAll sources) := by
  induction sources generalizing s with
  | nil => rfl
  | cons x sources ih =>
    rw [history, List.getLast?_append, ih]
    rfl

theorem plain_heardIn (source : String) (contextLines : ℕ) :
    ∀ x ∈ heardIn source contextLines, ∀ d, x.clause = .declare d true → Plain d.name :=
  fun _ hx _ hd => plain_readDeclarations hx hd

/-- **Every moment follows the one before it.** -/
theorem isChain_history (h : s.Ready {}) (sources : List (Evaluator × String × ℕ)) :
    (s.history sources).IsChain Follows := by
  induction sources generalizing s with
  | nil => exact .singleton s
  | cons x sources ih =>
    obtain ⟨eval, source, contextLines⟩ := x
    rw [history, List.isChain_append]
    refine ⟨isChain_moments eval h.scoped (plain_heardIn source contextLines),
      ih (h.advances (advances_readSource h eval source contextLines)), fun a ha b hb => ?_⟩
    rw [getLast?_moments] at ha
    rw [head?_history] at hb
    obtain rfl := Option.some.inj ha
    obtain rfl := Option.some.inj hb
    exact follows_readSource eval s source contextLines

/-- What follows from the built-in types on keeps them and all else. -/
theorem pairwise_extends {l : List Session} (h : l.IsChain Follows)
    (hs : ∀ s ∈ l.head?, ∀ x ∈ builtinNames, s.Stocks x) : l.Pairwise Extends := by
  have : IsTrans Session Extends := ⟨fun _ _ _ => Extends.trans⟩
  rw [← List.isChain_iff_pairwise]
  induction l with
  | nil => exact .nil
  | cons s l ih =>
    have hstocks := hs s rfl
    rw [List.isChain_cons] at h ⊢
    refine ⟨fun y hy => (h.1 y hy).extends hstocks, ih h.2 fun y hy x hx => ?_⟩
    obtain ⟨labelled, he⟩ := h.1 y hy
    exact (hstocks x hx).edits he

/-! ### Bodies -/

/-- A tag has a body, or its body has begun. -/
def Filled (s : Session) (x : String) : Prop :=
  ∃ id < s.graph.size, s.lookup? x = some id ∧ (s.graph.node id).state ≠ .incomplete

theorem isTag_of_body? (h : clause.body? = some x) : IsTag x := by
  unfold Clause.body? at h
  split at h
  · rename_i kind name line
    exact ⟨_, mem_tagKinds kind, name, (Option.some.inj h).symm⟩
  · rename_i name line
    exact ⟨("enum", .enum), by decide, name, (Option.some.inj h).symm⟩
  · cases h

theorem Filled.follows (h : s.Filled x) (hx : IsTag x) (hf : s.Follows s') : s'.Filled x := by
  obtain ⟨id, hlt, hid, hstate⟩ := h
  obtain ⟨p, hp, name, rfl⟩ := hx
  obtain ⟨labelled, he⟩ := hf
  refine ⟨id, lt_of_lt_of_le hlt he.graph.size, he.tag p hp name id hid, fun hempty => ?_⟩
  exact hstate (NodeState.Next.of_incomplete (hempty ▸ (he.graph.node id hlt).state))

/-- A free tag that is bound leads to its node, whatever is added beside it. -/
theorem lookup?_bind_tag (hb : s.Bound) (name : String) {p : String × NodeKind} (hp : p ∈ tagKinds)
    (tag : String) (node : NodeId) :
    ((s.intern name).2.bind (Names.tagSpelling p.1 tag) node).lookup?
      (Names.tagSpelling p.1 tag) = some node := by
  rw [lookup?_bind ((moves_intern s name).bound hb) (tagSpelling_not_mem hp tag), if_pos rfl]

theorem lookup?_tagNode (hb : s.Bound) (kind : TagKind) (name : String) (line : ℕ) :
    (s.tagNode kind name line).2.lookup? (Names.tagSpelling kind.keyword name) =
      some (s.tagNode kind name line).1 := by
  cases hl : s.lookup? (Names.tagSpelling kind.keyword name) with
  | some node => rw [tagNode_of_some line hl, hl]
  | none =>
    rw [tagNode_of_none line hl]
    exact lookup?_bind_tag hb name (mem_tagKinds kind) name s.graph.size

/-- A struct or union is given a body only once. -/
theorem filled_openBody (hb : s.Bound) {kind : TagKind} {body : Specified}
    (h : (s.openBody kind (some name) line).2 = .ok body) :
    ¬ s.Filled (Names.tagSpelling kind.keyword name) ∧
      (s.openBody kind (some name) line).1.Filled (Names.tagSpelling kind.keyword name) := by
  have hlookup := lookup?_tagNode hb kind name line
  obtain ⟨hchanges, hlt, -⟩ :=
    changes_tagNode (P := fun _ => True) (L := none) hb kind name line trivial
  have hfollows := hchanges.stays.follows
  unfold openBody at h ⊢
  dsimp only at h ⊢
  split at h
  · rename_i hempty
    rw [if_pos hempty]
    refine ⟨fun hfilled => ?_, _, ?_, hlookup, ?_⟩
    -- looking the tag up first would have kept a body that it had
    · obtain ⟨id, -, hid, hstate⟩ := hfilled.follows ⟨_, mem_tagKinds kind, name, rfl⟩ hfollows
      obtain rfl := Option.some.inj (hlookup.symm.trans hid)
      exact hstate hempty
    · exact (Graph.size_modify _ _ _).symm ▸ hlt
    · simp only [modifyNode, Graph.node_modify_self _ hlt]
      decide
  · cases h

/-- So is an enumeration. -/
theorem filled_enumeration (hg : s.graph.Sound) (hb : s.Bound) {type : Specified}
    (h : (s.enumeration (some name) true line).2 = .ok type) :
    ¬ s.Filled (Names.tagSpelling "enum" name) ∧
      (s.enumeration (some name) true line).1.Filled (Names.tagSpelling "enum" name) := by
  have hmem : ("enum", NodeKind.enum) ∈ tagKinds := by decide
  cases hl : s.lookup? (Names.tagSpelling "enum" name) with
  | some node =>
    obtain ⟨hlt, -, hfit⟩ := hb.lookup? hl
    simp only [enumeration, hl, if_true] at h ⊢
    split at h
    · cases h
    · rename_i hdef
      rw [if_neg hdef]
      refine ⟨?_, node, (Graph.size_modify _ _ _).symm ▸ hlt, hl, ?_⟩
      · rintro ⟨id, -, hid, hstate⟩
        obtain rfl := Option.some.inj (hl.symm.trans hid)
        cases hcase : (s.graph.node node).state with
        | incomplete => exact hstate hcase
        -- only structs and unions are ever in the middle of a body
        | defining => simpa [hfit _ hmem name rfl] using (hg.nodes node).body hcase
        | defined => simp [Node.isDefined, hcase] at hdef
      · simp only [modifyNode, Graph.node_modify_self _ hlt]
        decide
  | none =>
    refine ⟨?_, ?_⟩
    · rintro ⟨id, -, hid, -⟩
      rw [hl] at hid
      cases hid
    · rw [enumeration_of_none true line hl, addScalar_eq _ _ _ rfl]
      refine ⟨s.graph.size, ?_, lookup?_bind_tag hb name hmem name s.graph.size, ?_⟩
      · simp [Session.bind, intern, modifyNode]
      · simp [Session.bind, intern, modifyNode, Graph.modify_add_self, Graph.node_add_self]

theorem filled_act (h : s.Scoped scope) (hr : (s.act eval scope clause).2 = .ok scope')
    (hx : clause.body? = some x) : ¬ s.Filled x ∧ (s.act eval scope clause).1.Filled x := by
  unfold Clause.body? at hx
  split at hx
  · rename_i kind name line
    obtain rfl := Option.some.inj hx
    obtain ⟨body, hopen, -⟩ := exists_of_map_eq_ok hr
    exact filled_openBody h.bound hopen
  · rename_i name line
    obtain rfl := Option.some.inj hx
    obtain ⟨type, henum, -⟩ := exists_of_map_eq_ok hr
    exact filled_enumeration h.sound h.bound henum
  · cases hx

/-- **Bodies that are accepted between two moments**: they are for tags that had none before and
have one after, and no two are for one tag. -/
structure Fills (s s' : Session) (clauses : List Clause) : Prop where
  before : ∀ x ∈ clauses.filterMap Clause.body?, ¬ s.Filled x
  after : ∀ x ∈ clauses.filterMap Clause.body?, s'.Filled x
  nodup : (clauses.filterMap Clause.body?).Nodup
  keeps : ∀ x, IsTag x → s.Filled x → s'.Filled x

theorem Follows.fills (h : s.Follows s') : s.Fills s' [] :=
  ⟨by simp, by simp, by simp, fun _ hx hs => hs.follows hx h⟩

theorem Fills.append {clauses clauses' : List Clause} (h : s.Fills s' clauses)
    (h' : s'.Fills s'' clauses') : s.Fills s'' (clauses ++ clauses') := by
  have htag {cs : List Clause} {x : String} (hx : x ∈ cs.filterMap Clause.body?) : IsTag x := by
    obtain ⟨c, -, hc⟩ := List.mem_filterMap.mp hx
    exact isTag_of_body? hc
  refine ⟨?_, ?_, ?_, fun x hx hs => h'.keeps x hx (h.keeps x hx hs)⟩
  · intro x hx
    rcases List.mem_append.mp (List.filterMap_append ▸ hx) with hx | hx
    · exact h.before x hx
    · exact fun hs => h'.before x hx (h.keeps x (htag hx) hs)
  · intro x hx
    rcases List.mem_append.mp (List.filterMap_append ▸ hx) with hx | hx
    · exact h'.keeps x (htag hx) (h.after x hx)
    · exact h'.after x hx
  · rw [List.filterMap_append, List.nodup_append]
    refine ⟨h.nodup, h'.nodup, ?_⟩
    -- a tag with a body in the first part has one when the second begins
    rintro x hx y hy rfl
    exact h'.before x hy (h.after x hx)

theorem fills_act (h : s.Scoped scope) (hc : ∀ d, clause = .declare d true → Plain d.name)
    (hr : (s.act eval scope clause).2 = .ok scope') :
    s.Fills (s.act eval scope clause).1 [clause] := by
  have hfollows : s.Follows (s.act eval scope clause).1 := ⟨_, edits_act eval h hc⟩
  have hkeeps := hfollows.fills.keeps
  cases hx : clause.body? with
  | none => exact ⟨by simp [hx], by simp [hx], by simp [hx], hkeeps⟩
  | some x =>
    obtain ⟨hbefore, hafter⟩ := filled_act h hr hx
    exact ⟨by simpa [hx] using hbefore, by simpa [hx] using hafter, by simp [hx], hkeeps⟩

theorem fills_accepted (eval : Evaluator) (h : s.Scoped scope)
    (hc : ∀ x ∈ heard, ∀ d, x.clause = .declare d true → Plain d.name) :
    s.Fills (s.actAll eval scope heard).1 (s.accepted eval scope heard) := by
  induction heard generalizing s scope with
  | nil => exact (Changes.refl (P := fun _ => True) s).follows.fills
  | cons x heard ih =>
    have hplain := hc x List.mem_cons_self
    have hedits := edits_act eval h hplain
    have hscoped (scope' : Scope) := @scoped_act x.clause scope' s scope eval h hplain
    have hfills (scope' : Scope) := @fills_act x.clause eval scope scope' s h hplain
    rw [accepted, actAll]
    rcases hact : s.act eval scope x.clause with ⟨s', refusal | scope'⟩
    · rw [hact] at hedits
      exact Follows.fills ⟨_, hedits⟩
    · rw [hact] at hscoped hfills
      exact (hfills scope' rfl).append
        (ih (hscoped scope' rfl) fun y hy => hc y (List.mem_cons_of_mem x hy))

theorem fills_acceptedAll (h : s.Ready {}) (sources : List (Evaluator × String × ℕ)) :
    s.Fills (s.readAll sources) (s.acceptedAll sources) := by
  induction sources generalizing s with
  | nil => exact (Changes.refl (P := fun _ => True) s).follows.fills
  | cons x sources ih =>
    obtain ⟨eval, source, contextLines⟩ := x
    have hclauses := fills_accepted eval h.scoped (plain_heardIn source contextLines)
    have hend := (follows_readSource eval s source contextLines).fills
    have hrest := ih (h.advances (advances_readSource h eval source contextLines))
    -- the clauses of this source, what is noted at its end, and the other sources
    have hall := (hclauses.append hend).append hrest
    rw [List.append_nil] at hall
    exact hall

/-! ### The history of a session -/

/-- **Reading only extends a session.** The history of a session that starts with the built-in
types ends with the session after all sources; every moment extends all earlier ones, states go
on by at most one step from one moment to the next, and no tag is given two bodies. -/
theorem history_extends (names : Names) (keys : KeyList) (target : Target)
    (sources : List (Evaluator × String × ℕ)) :
    ((start names keys target).history sources).head? = some (start names keys target) ∧
    ((start names keys target).history sources).getLast? =
      some ((start names keys target).readAll sources) ∧
    ((start names keys target).history sources).Pairwise Extends ∧
    ((start names keys target).history sources).IsChain (fun s s' => ∀ id < s.graph.size,
      Next (s.graph.node id).kind (s.graph.node id).state (s'.graph.node id).state) ∧
    (((start names keys target).acceptedAll sources).filterMap Clause.body?).Nodup := by
  have hready : (start names keys target).Ready {} := ready_start names keys target
  have hchain := isChain_history hready sources
  refine ⟨head?_history _ _, getLast?_history _ _, ?_, hchain.imp ?_,
    (fills_acceptedAll hready sources).nodup⟩
  · refine pairwise_extends hchain fun s hs => ?_
    rw [head?_history] at hs
    obtain rfl := Option.some.inj hs
    exact stocks_start names keys target
  · rintro s s' ⟨labelled, he⟩ id hid
    exact (he.graph.node id hid).state

end Session

end TypeLayout
