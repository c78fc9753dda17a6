import TypeLayout.Compile

/-!
# Sources are read like lists of tokens

A source is read from a stream of tokens that hold words, and what is wrong with it is reported
with a word. Here it is read again, from the list of its tokens with their texts, and reported with
a spelling (`Session.conclude`). Both ways lead to the same session and the same failure
(`Session.readSourceJoining_eq`): no lookahead is lost, no word leads nowhere, and tokens are
never joined to make the text of a dimension. The proofs about sources are about the second way.
-/

namespace TypeLayout

/-! ### Words that can be spelled -/

namespace ParseError

variable {words : Names} {id : NameId}

/-- An interned error has its name in the table. -/
theorem known_intern (e : ParseError String) (words : Names) :
    (∀ id, (e.intern words).1.name? = some id → ∃ x, (e.intern words).2.get? id = some x) ∧
      (e.intern words).1.map (e.intern words).2.spell = e := by
  have hget (x : String) := words.get?_insert x
  have hlexeme (l : Lexeme String) := l.known_intern (.refl (l.intern words).2)
  cases e with
  | expected c found | expectedType found | expectedIdentifier found =>
    exact ⟨(hlexeme found).1, congrArg _ (hlexeme found).2⟩
  | unknownType x | voidField x | bitField x =>
    refine ⟨fun id hid => ⟨x, Option.some.inj hid ▸ hget x⟩, ?_⟩
    simp [intern, map, Names.spell, hget]
  | _ => exact ⟨fun _ hid => (by cases hid), rfl⟩

/-- The name of an error can be replaced by the word that it is. -/
theorem map_spell_map {e : ParseError String} (h : ∀ x, e.name? = some x → words.get? id = some x) :
    (∀ i, (e.map fun _ => id).name? = some i → ∃ x, words.get? i = some x) ∧
      (e.map fun _ => id).map words.spell = e := by
  have hlexeme (l : Lexeme String) (hl : ∀ x, l.text? = some x → words.get? id = some x) :
      (∀ i, (l.map fun _ => id).text? = some i → ∃ x, words.get? i = some x) ∧
        (l.map fun _ => id).map words.spell = l := by
    cases l with
    | identifier | number | stringLiteral | charLiteral =>
      have hx := hl _ rfl
      refine ⟨fun i hi => ?_, by simp [Lexeme.map, Names.spell, hx]⟩
      obtain rfl := Option.some.inj hi
      exact ⟨_, hx⟩
    | punct | eof => exact ⟨fun _ hi => (by cases hi), rfl⟩
  cases e with
  | expected c found | expectedType found | expectedIdentifier found =>
    obtain ⟨hknown, heq⟩ := hlexeme found h
    exact ⟨hknown, congrArg _ heq⟩
  | unknownType x | voidField x | bitField x =>
    have hx := h x rfl
    exact ⟨fun i hi => ⟨x, Option.some.inj hi ▸ hx⟩, by simp [map, Names.spell, hx]⟩
  | _ => exact ⟨fun _ hi => (by cases hi), rfl⟩

end ParseError

namespace Session

variable {s : Session} {words : Names}

/-- Reports an error in the declarations, whose name is interned for it. -/
def failGrammar (s : Session) (line : Nat) (e : ParseError String) (seen : Cursor) :
    Session × Failure :=
  let (e, names) := e.intern s.names
  ({ s with names }, ⟨⟨line, .parser e⟩, seen.context⟩)

/-- Reports a refused clause. -/
def failStop (s : Session) (stop : Stop) : Session × Failure :=
  match stop.refusal with
  | ⟨line, .grammar e⟩ => s.failGrammar line e stop.seen
  | ⟨line, .host e⟩ => (s, ⟨⟨line, .toolchain e⟩, stop.seen.context⟩)

/-- Reports declarations that could not be read. -/
def failRead (s : Session) (fault : Fault) : Session × Failure :=
  match fault.error with
  | .lexical e => (s, ⟨⟨fault.line, .lexer e⟩, fault.seen.context⟩)
  | .grammar e => s.failGrammar fault.line e fault.seen

/-- Acts on what has been read, and reports the first failure. -/
def conclude (eval : Evaluator) (s : Session) (scope : Scope) (reading : Reading) :
    Session × Except Failure Unit :=
  match s.actAll eval scope reading.heard with
  | (s, .error stop) => ((s.failStop stop).1, .error (s.failStop stop).2)
  | (s, .ok _) =>
    match reading.outcome with
    | .error fault => ((s.failRead fault).1, .error (s.failRead fault).2)
    | .ok count => (s.note (.declarations count s.graph.size), .ok ())

/-- A word that can be spelled is reported like its spelling. -/
theorem reportGrammar_eq {e : ParseError NameId}
    (h : ∀ id, e.name? = some id → ∃ x, words.get? id = some x) (line : Nat) (seen : Cursor) :
    s.reportGrammar words line e seen = s.failGrammar line (e.map words.spell) seen := by
  rw [reportGrammar, if_pos]
  · rfl
  · cases hid : e.name? with
    | none => rfl
    | some id =>
      obtain ⟨x, hx⟩ := h id hid
      simp [hx]

theorem reportRead_eq {fault : Fault NameId} (h : fault.Known words) :
    s.reportRead words fault = s.failRead (fault.spelled words) := by
  unfold reportRead failRead Fault.spelled
  cases he : fault.error with
  | lexical e => rfl
  | grammar e => exact reportGrammar_eq (h e · he) fault.line fault.seen

end Session

/-! ### The names of refusals -/

/-- A refusal mentions no name but the given one. -/
def Refusal.Mentions (r : Refusal) (name : String) : Prop :=
  ∀ e x, r.cause = .grammar e → e.name? = some x → x = name

section

variable {r : Refusal} {eval : Evaluator} {s : Session} {d : Declarator} {name : String}

/-- An error that has no name in it. -/
theorem mentions_of_none {line : Nat} {e : ParseError String} (h : e.name? = none) :
    Refusal.Mentions ⟨line, .grammar e⟩ name := by
  rintro _ x ⟨⟩ hx
  rw [h] at hx
  cases hx

theorem mentions_scale {line count factor : Nat} (h : scale line count factor = .error r) :
    r.Mentions name := by
  unfold scale at h
  split at h
  · cases h
  · cases h
    exact mentions_of_none rfl

theorem mentions_dimensionValue {line : Nat} {dim : Dimension}
    (h : (dimensionValue eval line dim).result = .error r) : r.Mentions name := by
  unfold dimensionValue at h
  split at h
  · cases h
    exact mentions_of_none rfl
  · split at h
    · cases h
      exact mentions_of_none rfl
    · cases h
  · split at h
    · cases h
      rintro _ _ ⟨⟩
    · dsimp only [dimensionSize] at h
      split at h
      · cases h
        exact mentions_of_none rfl
      · cases h

theorem mentions_arrayCount {line count : Nat} {ds : List Derivation}
    (h : (arrayCount eval line count ds).result = .error r) : r.Mentions name := by
  fun_induction arrayCount eval line count ds with
  | case1 count dim ds value r' hr =>
    cases h
    exact mentions_dimensionValue hr
  | case2 count dim ds value size hr r' hs =>
    cases h
    exact mentions_scale hs
  | case3 count dim ds value size hr n hs more ih => exact ih h
  | case4 => cases h

theorem mentions_itemFor {base : NodeId} (h : (itemFor eval s base d).result = .error r) :
    r.Mentions d.name := by
  unfold itemFor at h
  dsimp only at h
  split at h
  · cases h
    exact mentions_arrayCount ‹_›
  · cases h
  · cases h
  · dsimp only [elementItem] at h
    split at h
    · cases h
      exact mentions_of_none rfl
    · split at h
      · cases h
        rintro _ x ⟨⟩ hx
        exact (Option.some.inj hx).symm
      · cases hkind : (s.graph.node base).kind with
        | base | enum | typedef =>
          simp only [hkind] at h
          split at h
          · rename_i item _
            cases hscale : scale d.line _ item.count with
            | error r' =>
              rw [hscale] at h
              cases h
              exact mentions_scale hscale
            | ok n =>
              rw [hscale] at h
              cases h
          · cases h
        | struct | unionMember | union =>
          simp only [hkind] at h
          split at h
          · cases h
            exact mentions_of_none rfl
          · cases h

theorem mentions_declare {scope : Scope} {typedef : Bool}
    (h : (s.declare eval scope d typedef).2 = .error r) : r.Mentions d.name := by
  unfold Session.declare at h
  dsimp only at h
  split at h
  · cases h
  · split at h
    · cases h
    · split at h
      · cases h
        exact mentions_itemFor ‹_›
      · cases h
      · cases h

/-- **A clause is refused over its own name**, if over one. -/
theorem mentions_act {scope : Scope} {c : Clause} (h : (s.act eval scope c).2 = .error r)
    (hc : c.subject? = some name) : r.Mentions name := by
  cases c with
  | named x line =>
    obtain rfl := Option.some.inj hc
    unfold Session.act at h
    dsimp only at h
    split at h
    · cases h
    · cases h
      rintro _ y ⟨⟩ hy
      exact (Option.some.inj hy).symm
  | declare d typedef =>
    obtain rfl := Option.some.inj hc
    cases hdeclare : (s.declare eval scope d typedef).2 with
    | error r' =>
      simp only [Session.act, hdeclare] at h
      cases h
      exact mentions_declare hdeclare
    | ok u =>
      simp only [Session.act, hdeclare] at h
      cases h
  | _ => cases hc

end

/-! ### The two ways -/

namespace Session

variable {s : Session} {words : Names} {eval : Evaluator} {told : List Told}

theorem reportStop_eq {stop : Stop} {word : Option NameId}
    (h : ∀ id, word = some id → ∃ x, words.get? id = some x ∧ stop.refusal.Mentions x) :
    s.reportStop words stop word = s.failStop stop := by
  obtain ⟨⟨line, cause⟩, seen⟩ := stop
  cases cause with
  | host e => rfl
  | grammar e =>
    cases word with
    | none =>
      obtain ⟨hknown, heq⟩ := e.known_intern words
      exact (reportGrammar_eq hknown line seen).trans (by rw [heq]; rfl)
    | some id =>
      obtain ⟨x, hx, hmentions⟩ := h id rfl
      have hname (y : String) (hy : e.name? = some y) : words.get? id = some y := by
        rw [hx, hmentions e y rfl hy]
      obtain ⟨hknown, heq⟩ := ParseError.map_spell_map hname
      exact (reportGrammar_eq hknown line seen).trans (by rw [heq]; rfl)

/-- Acting on clauses with their words is acting on the clauses. -/
theorem actTold_eq (eval : Evaluator) (s : Session) (scope : Scope) (hright : ∀ x ∈ told, x.Right words) :
    (∃ s' scope', s.actTold eval scope told = (s', .ok scope') ∧
      s.actAll eval scope (told.map Told.heard) = (s', .ok scope')) ∨
    ∃ s' stop word, s.actTold eval scope told = (s', .error (stop, word)) ∧
      s.actAll eval scope (told.map Told.heard) = (s', .error stop) ∧
      ∀ id, word = some id → ∃ x, words.get? id = some x ∧ stop.refusal.Mentions x := by
  induction told generalizing s scope with
  | nil => exact .inl ⟨s, scope, rfl, rfl⟩
  | cons x told ih =>
    simp only [actTold, List.map_cons, actAll]
    rcases hact : s.act eval scope x.heard.clause with ⟨s', r | scope'⟩
    · refine .inr ⟨s', _, _, rfl, rfl, fun id hid => ?_⟩
      obtain ⟨name, hname, hget⟩ := hright x List.mem_cons_self id hid
      exact ⟨name, hget, mentions_act (by rw [hact]) hname⟩
    · exact ih s' scope' fun y hy => hright y (List.mem_cons_of_mem x hy)

/-- **A stream says what the list of its tokens says**, however tokens would be joined. -/
theorem agrees_readDeclarations (join : Joining) (start : Cursor) :
    let heard := (TokenStream.ofLexed (lex start) start).readFrom join .declaration []
    let plain := readDeclarations (scan start)
    heard.told.map Told.heard = plain.heard ∧ (∀ x ∈ heard.told, x.Right (lex start).words) ∧
      Agrees (lex start) Eq heard.outcome plain.outcome := by
  intro heard plain
  have hplain : TypeLayout.readFrom (lex start).plainEnding .declaration []
      (TokenStream.ofLexed (lex start) start).tokens = plain := by
    simp only [plain, readDeclarations, ← spelled_lex start]
    rfl
  rw [← hplain]
  exact (TokenStream.ofLexed (lex start) start).agrees_readFrom join .declaration []

/-- **A source is read like the list of its tokens**, and reported in the same way. -/
theorem readSourceJoining_eq (join : Joining) (eval : Evaluator) (s : Session) (source : String)
    (contextLines : Nat) :
    s.readSourceJoining join eval source contextLines =
      s.conclude eval {} (readDeclarations (scan (.start source.toList contextLines))) := by
  unfold readSourceJoining conclude
  generalize Cursor.start source.toList contextLines = start
  obtain ⟨htold, hright, houtcome⟩ := agrees_readDeclarations join start
  dsimp only
  rw [← htold]
  obtain ⟨s', scope', hact, hall⟩ | ⟨s', stop, word, hact, hall, hword⟩ :=
    actTold_eq eval s {} hright
  · simp only [hact, hall]
    generalize ((TokenStream.ofLexed (lex start) start).readFrom join .declaration []).outcome =
      outcome at houtcome ⊢
    cases outcome with
    | error fault =>
      obtain ⟨hplain, hknown⟩ := houtcome.eq_error rfl
      simp only [hplain, reportRead_eq hknown]
    | ok count =>
      obtain ⟨_, hplain, rfl⟩ := houtcome.exists_ok rfl
      simp only [hplain]
  · simp only [hact, hall, reportStop_eq hword]

theorem readSource_eq_conclude {eval : Evaluator} (s : Session) (source : String)
    (contextLines : Nat) :
    s.readSource eval source contextLines =
      s.conclude eval {} (readDeclarations (scan (.start source.toList contextLines))) :=
  s.readSourceJoining_eq joinSpellings eval source contextLines

end Session

end TypeLayout
