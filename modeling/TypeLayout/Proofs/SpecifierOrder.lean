import TypeLayout.Proofs.Histories
import TypeLayout.Proofs.ObjectDeclarations

/-!
# The words of a built-in type come in any order

The words of a built-in type are collected one by one. A word may be refused when it comes, the
words may turn out not to go together when all of them are there, and the spelling that they make
may be bound to nothing. None of this depends on their order: two words that can be added one after
the other can be added the other way round, and then the same is known (`BaseWords.takes_put_comm`,
`BaseWords.put_comm`), so all orders collect the same words or none (`BaseWords.collect?_perm`).

The words stand among noise and `typedef` (`WordsIn`), and behind them the specifiers end, or the
source cannot be read on there (`AfterWords`). Wherever a source has been read to, specifiers made
of the same words lead to the same node, which is that of a built-in type, or they are refused in
every order (`Session.specifiers_perm`).
-/

namespace TypeLayout

/-! ### Collecting words -/

namespace BaseWords

/-- A word can still be added. -/
def Takes (b : BaseWords) : BaseWord → Prop
  | .signed => b.signed ≠ some false
  | .unsigned => b.signed ≠ some true
  | .short => b.short = false ∧ b.long = 0
  | .long => b.short = false ∧ b.long < 2
  | .core _ => b.core = none

/-- The words with one more among them. -/
def put (b : BaseWords) : BaseWord → BaseWords
  | .signed => { b with signed := some true }
  | .unsigned => { b with signed := some false }
  | .short => { b with short := true }
  | .long => { b with long := b.long + 1 }
  | .core c => { b with core := some c }

/-- The words that some words make together, if each of them can be added. -/
def collect? (b : BaseWords) : List BaseWord → Option BaseWords
  | [] => some b
  | w :: ws => (b.add w).toOption.bind (collect? · ws)

variable {b b' : BaseWords} {w w' : BaseWord} {ws ws' : List BaseWord}

theorem add_of_takes (h : b.Takes w) : b.add w = .ok (b.put w) := by
  cases w with
  | signed | unsigned => exact if_neg h
  | short => simp [add, put, h.1, h.2]
  | long => simp [add, put, h.1, Nat.not_le.mpr h.2]
  | core c => simp [add, put, show b.core = none from h]

theorem takes_of_add (h : b.add w = .ok b') : b.Takes w := by
  unfold add at h
  split at h <;> split at h <;> simp_all [Takes]

/-- **Two words can be added in both orders or in none.** -/
theorem takes_put_comm : b.Takes w ∧ (b.put w).Takes w' ↔ b.Takes w' ∧ (b.put w').Takes w := by
  cases w <;> cases w' <;> simp [Takes, put, and_comm]

theorem put_comm (h : (b.put w).Takes w') : (b.put w).put w' = (b.put w').put w := by
  cases w <;> cases w' <;> simp [Takes, put] at h ⊢

theorem collect?_cons_of_takes (h : b.Takes w) (ws : List BaseWord) :
    b.collect? (w :: ws) = (b.put w).collect? ws := by
  rw [collect?, add_of_takes h]
  rfl

theorem collect?_cons_of_not_takes (h : ¬ b.Takes w) (ws : List BaseWord) :
    b.collect? (w :: ws) = none := by
  cases hadd : b.add w with
  | error err =>
    rw [collect?, hadd]
    rfl
  | ok b' => exact absurd (takes_of_add hadd) h

/-- **The order of the words does not matter** to what they make together. -/
theorem collect?_perm (h : ws.Perm ws') (b : BaseWords) : b.collect? ws = b.collect? ws' := by
  induction h generalizing b with
  | nil => rfl
  | cons w _ ih =>
    by_cases hw : b.Takes w
    · rw [collect?_cons_of_takes hw, collect?_cons_of_takes hw, ih]
    · rw [collect?_cons_of_not_takes hw, collect?_cons_of_not_takes hw]
  | swap w w' ws =>
    have hnone {w w' : BaseWord} (h : ¬ (b.Takes w ∧ (b.put w).Takes w')) :
        b.collect? (w :: w' :: ws) = none := by
      by_cases hw : b.Takes w
      · rw [collect?_cons_of_takes hw, collect?_cons_of_not_takes fun hw' => h ⟨hw, hw'⟩]
      · exact collect?_cons_of_not_takes hw _
    by_cases hboth : b.Takes w' ∧ (b.put w').Takes w
    · obtain ⟨hw, hw'⟩ := takes_put_comm.mp hboth
      rw [collect?_cons_of_takes hboth.1, collect?_cons_of_takes hboth.2,
        collect?_cons_of_takes hw, collect?_cons_of_takes hw', put_comm hboth.2]
    · rw [hnone hboth, hnone fun h => hboth (takes_put_comm.mp h)]
  | trans _ _ ih ih' => exact (ih b).trans (ih' b)

theorem isEmpty_put (b : BaseWords) (w : BaseWord) : (b.put w).isEmpty = false := by
  rw [isEmpty, beq_eq_false_iff_ne]
  intro h
  cases w <;> simp [put] at h

theorem isEmpty_collect? (hne : ws ≠ []) (h : b.collect? ws = some b') : b'.isEmpty = false := by
  induction ws generalizing b with
  | nil => exact absurd rfl hne
  | cons w ws ih =>
    by_cases hw : b.Takes w
    · rw [collect?_cons_of_takes hw] at h
      cases ws with
      | nil =>
        obtain rfl := Option.some.inj h
        exact b.isEmpty_put w
      | cons w' ws => exact ih (by simp) h
    · rw [collect?_cons_of_not_takes hw] at h
      cases h

end BaseWords

/-! ### Words among noise -/

/-- **The words of a built-in type** in front of other tokens, in the order in which they come,
with noise among them, and with `typedef` or without it. -/
inductive WordsIn : List BaseWord → Bool → List Token → List Token → Prop
  | stop (ts : List Token) : WordsIn [] false ts ts
  | noise {ws : List BaseWord} {typedef : Bool} {ts us rest : List Token} (hs : Skips ts us)
    (h : WordsIn ws typedef us rest) : WordsIn ws typedef ts rest
  | typedef {ws : List BaseWord} {typedef : Bool} {t : Token} {ts rest : List Token}
    (ht : t.keyword? = some .typedef) (h : WordsIn ws typedef ts rest) :
    WordsIn ws true (t :: ts) rest
  | word {ws : List BaseWord} {typedef : Bool} {w : BaseWord} {t : Token} {ts rest : List Token}
    (ht : t.keyword? = some (.base w)) (h : WordsIn ws typedef ts rest) :
    WordsIn (w :: ws) typedef (t :: ts) rest

/-- **What comes after the words** of a built-in type, and whether the specifiers end there. If
they do not, the source is refused there. -/
inductive AfterWords (e : Ending) : List Token → Bool → Prop
  | ends {next : Token} {rest : List Token} (hnext : peek e rest = .ok next)
    (hk : next.keyword? = none ∨ next.keyword? = some .staticAssert) : AfterWords e rest true
  /-- The source cannot be read on. -/
  | unreadable {fault : Fault} (he : e = .error fault) : AfterWords e [] false
  /-- A second type is named. -/
  | tag {t : Token} {ts : List Token} {kind : TagKind} (ht : t.keyword? = some (.tag kind)) :
    AfterWords e (t :: ts) false
  | enum {t : Token} {ts : List Token} (ht : t.keyword? = some .enum) : AfterWords e (t :: ts) false
  /-- The group of an extension word does not end. -/
  | unclosed {t : Token} {ts : List Token} {fault : Fault} (ht : t.keyword? = some .extension)
    (hskip : skipGroup e ts = .error fault) : AfterWords e (t :: ts) false

variable {e : Ending} {p : Specifiers} {stack : List Specifiers} {t : Token}
  {ts us rest : List Token} {ws : List BaseWord} {w : BaseWord} {typedef : Bool} {b : BaseWords}

theorem WordsIn.suffix (h : WordsIn ws typedef ts rest) : rest <:+ ts := by
  induction h with
  | stop => exact List.suffix_refl _
  | noise hs _ ih => exact ih.trans hs.suffix
  | typedef _ _ ih | word _ _ ih => exact ih.trans (List.suffix_cons _ _)

/-- A source that cannot be read on has come to its end. -/
theorem peek_error_of_suffix {fault : Fault} (h : peek e us = .error fault) (hs : rest <:+ us) :
    peek e rest = .error fault := by
  cases us with
  | nil => rwa [List.suffix_nil.mp hs]
  | cons t us => cases h

/-- **Words that can be collected are read**, unless the source cannot be read on behind them. -/
theorem WordsIn.leads_or_fails (h : WordsIn ws typedef ts rest) (hf : p.found = false)
    (hb : p.base.collect? ws = some b) (e : Ending) (stack : List Specifiers) :
    Leads e 0 ⟨.specifiers p, stack, ts⟩ []
        ⟨.specifiers { p with typedef := p.typedef || typedef, base := b }, stack, rest⟩ ∨
      FailsAmong e p stack ts ∧ ∃ fault, peek e rest = .error fault := by
  induction h generalizing p with
  | stop =>
    obtain rfl := Option.some.inj hb
    rw [Bool.or_false]
    exact .inl (.refl _)
  | noise hs h ih =>
    rcases hs.leads_or_fails e p stack with hnoise | ⟨hfails, fault, hpeek⟩
    · exact (ih hf hb).imp hnoise.trans (And.imp_left (FailsAmong.of_leads hnoise))
    · exact .inr ⟨hfails, fault, peek_error_of_suffix hpeek h.suffix⟩
  | @typedef ws typedef t ts rest ht h ih =>
    have hrest := ih (p := { p with typedef := true }) hf hb
    rw [Bool.or_true]
    rw [Bool.true_or] at hrest
    exact leads_or_fails_cons (Goes.typedef ht).step_eq hrest
  | @word ws typedef w t ts rest ht h ih =>
    by_cases hw : p.base.Takes w
    · rw [BaseWords.collect?_cons_of_takes hw] at hb
      exact leads_or_fails_cons (Goes.word ht hf (BaseWords.add_of_takes hw)).step_eq
        (ih (p := { p with base := p.base.put w }) hf hb)
    · rw [BaseWords.collect?_cons_of_not_takes hw] at hb
      cases hb

theorem step_word_error {err : ParseError String} (ht : t.keyword? = some (.base w))
    (hf : p.found = false) (h : p.base.add w = .error err) :
    step e (.specifiers p) stack (t :: ts) = .error (t.fault t.line err) := by
  obtain ⟨name, hname, hk⟩ := exists_word_of_keyword? ht
  simp [step, stepSpecifiers, hname, hk, hf, h]

/-- **Words that cannot be collected are refused** while they are read. -/
theorem WordsIn.fails (h : WordsIn ws typedef ts rest) (hf : p.found = false)
    (hb : p.base.collect? ws = none) : FailsAmong e p stack ts := by
  induction h generalizing p with
  | stop => cases hb
  | noise hs h ih =>
    rcases hs.leads_or_fails e p stack with hnoise | ⟨hfails, -⟩
    · exact .of_leads hnoise (ih hf hb)
    · exact hfails
  | typedef ht h ih =>
    exact (ih (p := { p with typedef := true }) hf hb).cons (Goes.typedef ht).step_eq
  | @word ws typedef w t ts rest ht h ih =>
    cases hadd : p.base.add w with
    | error err => exact ⟨p, t :: ts, _, .refl _, step_word_error ht hf hadd⟩
    | ok base =>
      rw [BaseWords.collect?, hadd] at hb
      exact (ih (p := { p with base }) hf hb).cons (Goes.word ht hf hadd).step_eq

/-- Behind the words of a type the specifiers do not go on, or the source is refused. -/
theorem AfterWords.fails (h : AfterWords e rest false) (hp : p.hasType = true)
    (stack : List Specifiers) :
    ∃ fault, step e (.specifiers p) stack rest = .error fault := by
  cases h with
  | unreadable he => exact ⟨_, by simp only [step, stepSpecifiers, he]; rfl⟩
  | tag ht | enum ht =>
    obtain ⟨name, hname, hk⟩ := exists_word_of_keyword? ht
    exact ⟨_, by simp only [step, stepSpecifiers, hname, hk, hp, if_true]; rfl⟩
  | unclosed ht hskip => exact ⟨_, step_extension_error ht hskip⟩

theorem step_ending {next : Token} (hnext : peek e rest = .ok next)
    (hk : next.keyword? = none ∨ next.keyword? = some .staticAssert) (hp : p.hasType = true)
    (stack : List Specifiers) :
    step e (.specifiers p) stack rest = endSpecifiers p next stack rest := by
  cases rest with
  | nil =>
    have he : e = .ok next := hnext
    simp only [step, stepSpecifiers, he]
  | cons t ts =>
    obtain rfl : t = next := Except.ok.inj hnext
    cases hlexeme : t.lexeme with
    | identifier name =>
      rw [keyword?_of_lexeme hlexeme] at hk
      rcases hk with hk | hk
      · simp only [step, stepSpecifiers, hlexeme, hk, hp, if_true]
      · simp only [step, stepSpecifiers, hlexeme, hk]
    | _ => simp only [step, stepSpecifiers, hlexeme]

/-! ### The node that specifiers lead to -/

namespace Session

variable {s s' : Session} {x : String} {id : NodeId} {line : ℕ}

/-- **Specifiers lead to a node**: the reader takes them and says one thing on its way, which is
that the type is this node. -/
def Specifies (s : Session) (e : Ending) (stack : List Specifiers) (line : ℕ) (ts : List Token)
    (typedef : Bool) (rest : List Token) (id : NodeId) : Prop :=
  ∃ x, Leads e 0 ⟨.specifiers { line }, stack, ts⟩ [x]
      ⟨.specifiers { line, typedef, found := true }, stack, rest⟩ ∧
    ∀ eval scope, s.act eval scope x.clause = (s, .ok { scope with type := ⟨id, false⟩ })

/-- **Specifiers are refused**: the reader fails among them before it has said anything, or the
first thing that it says is refused. -/
def Refuses (s : Session) (e : Ending) (stack : List Specifiers) (line : ℕ) (ts : List Token) :
    Prop :=
  FailsAmong e { line } stack ts ∨
    ∃ x b, Leads e 0 ⟨.specifiers { line }, stack, ts⟩ [x] b ∧
      ∀ eval scope, ∃ refusal, s.act eval scope x.clause = (s, .error refusal)

/-- **Specifiers that lead to a node are not refused**, since the reader says one thing first. -/
theorem Specifies.not_refuses (h : s.Specifies e stack line ts typedef rest id) :
    ¬ s.Refuses e stack line ts := by
  obtain ⟨x, ⟨n, hreads⟩, hact⟩ := h
  have hsaid := congrArg Reading.heard hreads.readFrom
  rintro (⟨q, us, fault, ⟨m, hreads'⟩, hfault⟩ | ⟨y, b, ⟨m, hreads'⟩, hrefused⟩)
  · -- nothing is said before the reader fails
    have hnothing := congrArg Reading.heard hreads'.readFrom
    dsimp only at hnothing
    rw [readFrom_eq (.specifiers q), hfault] at hnothing
    cases hsaid.symm.trans hnothing
  · -- what is said first is both taken and refused
    obtain rfl : x = y := (List.cons.inj
      (hsaid.symm.trans (congrArg Reading.heard hreads'.readFrom))).1
    obtain ⟨refusal, hrefusal⟩ := hrefused (fun _ => .error .noCompiler) {}
    have hboth := congrArg Prod.snd ((hact (fun _ => .error .noCompiler) {}).symm.trans hrefusal)
    cases hboth

/-- The words of a type are said as one clause. -/
theorem leads_base {next : Token} {spelling : String}
    (hleads : Leads e 0 ⟨.specifiers { line }, stack, ts⟩ []
      ⟨.specifiers { line, typedef, base := b }, stack, rest⟩)
    (hnext : peek e rest = .ok next)
    (hk : next.keyword? = none ∨ next.keyword? = some .staticAssert) (hb : b.isEmpty = false)
    (hspelling : b.spelling? = some spelling) :
    Leads e 0 ⟨.specifiers { line }, stack, ts⟩
      [⟨.base spelling (b.signed == some false) line, next.after⟩]
      ⟨.specifiers { line, typedef, found := true }, stack, rest⟩ := by
  have hstep : step e (.specifiers { line, typedef, base := b }) stack rest =
      .ok (.goOn (some ⟨.base spelling (b.signed == some false) line, next.after⟩)
        (.specifiers { line, typedef, found := true }) stack rest) := by
    rw [step_ending hnext hk (by simp [Specifiers.hasType, hb])]
    simp [endSpecifiers, hb, hspelling]
  exact hleads.trans (.cons (by simp) hstep (.refl _))

/-- **What words lead to** depends on what they make together: they are refused if they cannot be
collected or do not go together, or if their spelling is bound to nothing. -/
theorem specifies_or_refuses (s : Session) (h : WordsIn ws typedef ts rest)
    (hafter : AfterWords e rest true) (hne : ws ≠ []) (stack : List Specifiers) (line : ℕ) :
    match ((({} : BaseWords).collect? ws).bind BaseWords.spelling?).bind s.lookup? with
    | some id => s.Specifies e stack line ts typedef rest id
    | none => s.Refuses e stack line ts := by
  obtain ⟨hnext, hk⟩ := hafter
  rename_i next
  cases hb : ({} : BaseWords).collect? ws with
  | none => exact .inl (h.fails rfl hb)
  | some b =>
    have hempty := BaseWords.isEmpty_collect? hne hb
    have hleads : Leads e 0 ⟨.specifiers { line }, stack, ts⟩ []
        ⟨.specifiers { line, typedef, base := b }, stack, rest⟩ := by
      have hread := h.leads_or_fails (p := { line }) rfl hb e stack
      rw [Bool.false_or] at hread
      refine hread.resolve_right ?_
      rintro ⟨-, fault, hpeek⟩
      cases hnext.symm.trans hpeek
    cases hspelling : b.spelling? with
    | none =>
      simp only [Option.bind_some, hspelling, Option.bind_none]
      have hstep := step_ending (p := { line, typedef, base := b }) hnext hk
        (by simp [Specifiers.hasType, hempty]) stack
      simp only [endSpecifiers, hempty, hspelling, Bool.false_eq_true, if_false] at hstep
      exact .inl ⟨_, rest, _, hleads, hstep⟩
    | some spelling =>
      have hsaid := leads_base hleads hnext hk hempty hspelling
      simp only [Option.bind_some, hspelling]
      cases hlookup : s.lookup? spelling with
      | some id => exact ⟨_, hsaid, fun eval scope => by simp only [act, hlookup]⟩
      | none => exact .inr ⟨_, _, hsaid, fun eval scope => ⟨_, by simp only [act, hlookup]; rfl⟩⟩

/-- Words in front of something that cannot be read are refused. -/
theorem refuses_of_afterWords (s : Session) (h : WordsIn ws typedef ts rest)
    (hafter : AfterWords e rest false) (hne : ws ≠ []) (stack : List Specifiers) (line : ℕ) :
    s.Refuses e stack line ts := by
  cases hb : ({} : BaseWords).collect? ws with
  | none => exact .inl (h.fails rfl hb)
  | some b =>
    have hempty := BaseWords.isEmpty_collect? hne hb
    rcases h.leads_or_fails (p := { line }) rfl hb e stack with
      hleads | ⟨hfails, -⟩
    · obtain ⟨fault, hfault⟩ := hafter.fails (p := { line, typedef := false || typedef, base := b })
        (by simp [Specifiers.hasType, hempty]) stack
      exact .inl ⟨_, rest, fault, hleads, hfault⟩
    · exact .inl hfails

/-! ### Words that are bound are built in -/

/-- **Only single words and tags are bound**, apart from the built-in types. -/
structure Worded (s : Session) : Prop where
  stocks : ∀ x ∈ builtinNames, s.Stocks x
  words : ∀ b ∈ s.registry.bindings, b.builtin = true ∨
    ∃ x, s.names.get? b.name = some x ∧ (Plain x ∨ IsTag x)

theorem worded_start (names : Names) (keys : KeyList) (target : Target) :
    (start names keys target).Worded where
  stocks := stocks_start names keys target
  words := by
    have hall (l : List (String × Builtin)) (s : Session)
        (hs : ∀ b ∈ s.registry.bindings, b.builtin = true) :
        ∀ b ∈ (l.foldl (fun s p => s.addBuiltin p.1 p.2) s).registry.bindings,
          b.builtin = true := by
      induction l generalizing s with
      | nil => exact hs
      | cons p l ih => exact ih (s.addBuiltin p.1 p.2) (List.forall_mem_cons.mpr ⟨rfl, hs⟩)
    intro b hb
    exact .inl (hall (builtins target) _ (by simp) b hb)

theorem Worded.follows (h : s.Worded) (hnext : s.Follows s') : s'.Worded := by
  obtain ⟨labelled, he⟩ := hnext
  refine ⟨fun x hx => (h.stocks x hx).edits he, fun b hb => ?_⟩
  rcases he.fresh b hb with hold | hnew
  · refine (h.words b hold).imp_right ?_
    rintro ⟨x, hx, hword⟩
    exact ⟨x, he.names b.name x hx, hword⟩
  · exact .inr hnew

theorem worded_of_mem_history {names : Names} {keys : KeyList} {target : Target}
    {sources : List (Evaluator × String × ℕ)}
    (hs : s ∈ (start names keys target).history sources) : s.Worded := by
  refine (isChain_history (ready_start names keys target) sources).induction Worded _
    (fun _ _ hnext h => h.follows hnext) (fun hne => ?_) s hs
  rw [List.head_of_head?_eq_some (head?_history _ sources)]
  exact worded_start names keys target

end Session

theorem BaseWords.unsignedPart?_mem {core : String} (h : b.unsignedPart? = some core) :
    core ∈ builtinNames := by
  have hcore (c : CoreType) : c.spelling ∈ builtinNames := by cases c <;> decide
  unfold unsignedPart? at h
  split at h
  case h_10 => exact Option.some.inj h ▸ hcore _
  case h_11 => cases h
  all_goals
    obtain rfl := Option.some.inj h
    decide

/-- **What words spell** is the name of a built-in type, or what is said to be unsigned. -/
theorem BaseWords.mem_of_spelling? {spelling : String} (h : b.spelling? = some spelling) :
    spelling ∈ builtinNames ∨ ∃ core, spelling = Names.tagSpelling "unsigned" core := by
  obtain ⟨core, hcore, rfl⟩ := Option.map_eq_some_iff.mp h
  have hmem := unsignedPart?_mem hcore
  split
  · exact .inr ⟨core, rfl⟩
  · split
    · exact .inl (by decide)
    · exact .inl hmem
  · exact .inl hmem

namespace Session

/-- **What words are bound to is built in**: a name for something else is a single word or that of
a tag. -/
theorem Worded.builtIn {s : Session} {x : String} {id : NodeId} (h : s.Worded)
    (hx : x ∈ builtinNames ∨ ∃ core, x = Names.tagSpelling "unsigned" core)
    (hid : s.lookup? x = some id) : s.BuiltIn x id := by
  rcases hx with hx | ⟨core, rfl⟩
  · obtain ⟨id', hbuiltin, -⟩ := h.stocks x hx
    obtain rfl := Option.some.inj (hid.symm.trans hbuiltin.lookup?)
    exact hbuiltin
  obtain ⟨name, hname, hlookup⟩ := Option.bind_eq_some_iff.mp hid
  obtain ⟨⟨name', id', builtin⟩, hfind, rfl⟩ := Option.map_eq_some_iff.mp hlookup
  obtain rfl : name' = name := by simpa using List.find?_some hfind
  refine ⟨name', hname, hfind.trans ?_⟩
  rcases h.words _ (List.mem_of_find?_eq_some hfind) with hbuiltin | ⟨x, hget, hword⟩
  · obtain rfl : builtin = true := hbuiltin
    rfl
  · obtain rfl := Option.some.inj ((Names.get?_of_find? hname).symm.trans hget)
    rcases hword with hplain | ⟨p, hp, x, heq⟩
    · exact absurd hplain (not_plain_tagSpelling _ _)
    · have hkeyword : Plain p.1 ∧ p.1 ≠ "unsigned" := by fin_cases hp <;> decide
      exact absurd (tagSpelling_inj (by decide) hkeyword.1 heq).1.symm hkeyword.2

/-! ### Any order -/

/-- **The words of a built-in type come in any order.** Wherever a source has been read to, two
lists of tokens with the same words in them, in whatever order and with whatever noise and
`typedef` among them, either lead to the same node, which is that of a built-in type, or are both
refused. Where they are found, on which line and in which bodies, does not matter. -/
theorem specifiers_perm (names : Names) (keys : KeyList) (target : Target)
    (sources : List (Evaluator × String × ℕ)) (s : Session)
    (hs : s ∈ (start names keys target).history sources) (ws ws' : List BaseWord)
    (hperm : ws.Perm ws') (hne : ws ≠ []) (e e' : Ending) (stack stack' : List Specifiers)
    (line line' : ℕ) (typedef typedef' : Bool) (ts ts' rest rest' : List Token)
    (h : WordsIn ws typedef ts rest) (h' : WordsIn ws' typedef' ts' rest') (ends : Bool)
    (hafter : AfterWords e rest ends) (hafter' : AfterWords e' rest' ends) :
    Xor (∃ spelling id, s.BuiltIn spelling id ∧ s.Specifies e stack line ts typedef rest id ∧
        s.Specifies e' stack' line' ts' typedef' rest' id)
      (s.Refuses e stack line ts ∧ s.Refuses e' stack' line' ts') := by
  have hne' : ws' ≠ [] := fun hnil => hne (hnil ▸ hperm).eq_nil
  rw [xor_iff_or_and_not_and]
  constructor
  · cases ends with
    | false =>
      exact .inr ⟨s.refuses_of_afterWords h hafter hne stack line,
        s.refuses_of_afterWords h' hafter' hne' stack' line'⟩
    | true =>
      have hread := s.specifies_or_refuses h hafter hne stack line
      have hread' := s.specifies_or_refuses h' hafter' hne' stack' line'
      rw [← BaseWords.collect?_perm hperm] at hread'
      cases hid : ((({} : BaseWords).collect? ws).bind BaseWords.spelling?).bind s.lookup? with
      | none =>
        rw [hid] at hread hread'
        exact .inr ⟨hread, hread'⟩
      | some id =>
        rw [hid] at hread hread'
        obtain ⟨spelling, hspelling, hlookup⟩ := Option.bind_eq_some_iff.mp hid
        obtain ⟨b, -, hb⟩ := Option.bind_eq_some_iff.mp hspelling
        have hbuiltin := (worded_of_mem_history hs).builtIn (BaseWords.mem_of_spelling? hb) hlookup
        exact .inl ⟨spelling, id, hbuiltin, hread, hread'⟩
  · rintro ⟨⟨spelling, id, -, hread, -⟩, hrefused, -⟩
    exact hread.not_refuses hrefused

/-- Three words in two orders, with noise among the ones and `typedef` among the others, after a
source that names another type: both lead to a built-in type. -/
theorem specifiers_perm_unsigned_long :
    let sources : List (Evaluator × String × ℕ) :=
      [(fun _ => .error .noCompiler, "typedef int word; struct pair { word a, b; };", 1)]
    let s := (start {} ⟨[]⟩ .standard).readAll sources
    let word (text : String) : Token := ⟨1, .identifier text, .start [] 0⟩
    let mark (c : Char) : Token := ⟨1, .punct c, .start [] 0⟩
    let e : Ending := .ok ⟨1, .eof, .start [] 0⟩
    let ts := [word "long", word "const", word "unsigned", word "__attribute__", mark '(',
      word "x", mark ')', word "int", mark ';']
    let ts' := [word "int", word "typedef", word "long", word "unsigned", mark '*']
    (∃ spelling id, s.BuiltIn spelling id ∧ s.Specifies e [] 1 ts false [mark ';'] id ∧
        s.Specifies e [{ line := 7 }] 8 ts' true [mark '*'] id) ∧
      ¬ (s.Refuses e [] 1 ts ∧ s.Refuses e [{ line := 7 }] 8 ts') := by
  intro sources s word mark e ts ts'
  have hmem : s ∈ (start {} ⟨[]⟩ .standard).history sources :=
    List.mem_of_getLast? (getLast?_history _ _)
  have hinner : Balanced '(' ')' [word "x"] := .other rfl rfl .nil
  have hgroup : Skips (ts.drop 3) (ts.drop 7) :=
    .group (by decide +kernel) rfl hinner rfl (.stop _)
  have hconst : Skips (ts.drop 1) (ts.drop 2) := .qualifier (by decide +kernel) (.stop _)
  have h : WordsIn [.long, .unsigned, .core .int] false ts [mark ';'] :=
    .word (by decide +kernel) <| .noise hconst <| .word (by decide +kernel) <| .noise hgroup <|
      .word (by decide +kernel) (.stop _)
  have h' : WordsIn [.core .int, .long, .unsigned] true ts' [mark '*'] :=
    .word (by decide +kernel) <| .typedef (by decide +kernel) <| .word (by decide +kernel) <|
      .word (by decide +kernel) (.stop _)
  have hafter : AfterWords e [mark ';'] true := .ends rfl (.inl rfl)
  have hsome : (((({} : BaseWords).collect? [.long, .unsigned, .core .int]).bind
      BaseWords.spelling?).bind s.lookup?).isSome = true := by decide +kernel
  obtain ⟨id, hid⟩ := Option.isSome_iff_exists.mp hsome
  have hread := s.specifies_or_refuses h hafter (by decide) [] 1
  rw [hid] at hread
  rcases specifiers_perm {} ⟨[]⟩ .standard sources s hmem _ _ (by decide) (by decide) e e []
    [{ line := 7 }] 1 8 false true ts ts' _ _ h h' true hafter (.ends rfl (.inl rfl))
    with hsame | ⟨hrefused, -⟩
  · exact hsame
  · exact absurd hrefused.1 hread.not_refuses

end Session

end TypeLayout
