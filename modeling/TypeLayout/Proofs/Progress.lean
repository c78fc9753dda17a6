import TypeLayout.Proofs.Concatenation
import TypeLayout.Proofs.ReaderRuns

/-!
# The reader always gets on

Reading declarations comes to an end for every text, however it is written, since all that is done
over and over takes a token every time. There are two sorts of repetition. Six functions go over
the tokens in a loop of their own (`Loop`): each turn ends the loop, fails, or leaves fewer tokens.
All else is steps of the reader, and what is repeated there is a way from one place back to a place
of the same sort (`CallsTake`): a declaration of a list, a specifier, a declarator after a comma. At
the end of the tokens there is nothing to take, so neither sort of repetition goes on there, be it
the end of the source or a token that cannot be read (`StopsAtEnd`).

Since the token that has been looked at is among those that are left, nothing else has to be
counted. All in all a text is read in at most four steps for each character and three more, and what
a session makes of it is what it makes of the clauses said on the way (`reading_gets_on`).
-/

namespace TypeLayout

/-! ### Loops -/

/-- What one turn of a loop leads to: another turn, or a result. -/
inductive Turn (α β : Type) where
  | again (a : α)
  | done (b : β)

/-- **A loop that gets on.** Taking turns gives the values of a function, and a turn that is not
the last one leaves something smaller. -/
structure Loop {α β : Type} (size : α → ℕ) (turn : α → Except Fault (Turn α β))
    (f : α → Except Fault β) : Prop where
  unfolds : ∀ a, f a = match turn a with
    | .error fault => .error fault
    | .ok (.done b) => .ok b
    | .ok (.again a') => f a'
  shrinks : ∀ a a', turn a = .ok (.again a') → size a' < size a

section Loops

variable (e : Ending)

/-- One turn in front of noise. -/
def noiseTurn : List Token → Except Fault (Turn (List Token) (List Token))
  | [] => e.map fun _ => .done []
  | t :: ts =>
    match t.keyword? with
    | some .qualifier => .ok (.again ts)
    | some .extension => (skipGroup e ts).map .again
    | _ => .ok (.done (t :: ts))

/-- One turn inside brackets that are skipped. -/
def balancedTurn (left right : Char) :
    ℕ × List Token → Except Fault (Turn (ℕ × List Token) (List Token))
  | (_, []) => failAtEnd e
  | (depth, t :: ts) =>
    if t.isPunct right ∧ depth = 0 then .ok (.done ts)
    else .ok (.again (t.nesting left right depth, ts))

/-- One turn inside an initializer. -/
def initializerTurn : ℕ × List Token → Except Fault (Turn (ℕ × List Token) (List Token))
  | (_, []) => failAtEnd e
  | (depth, t :: ts) =>
    match t.lexeme with
    | .punct c =>
      if c = '(' ∨ c = '[' ∨ c = '{' then .ok (.again (depth + 1, ts))
      else if c = ')' ∨ c = ']' ∨ c = '}' then .ok (.again (depth - 1, ts))
      else if (c = ',' ∨ c = ';') ∧ depth = 0 then .ok (.done (t :: ts))
      else .ok (.again (depth, ts))
    | _ => .ok (.again (depth, ts))

/-- One turn inside a dimension, with the lexemes that have been collected. -/
def bracketTurn : List (Lexeme String) × ℕ × List Token →
    Except Fault (Turn (List (Lexeme String) × ℕ × List Token)
      (List (Lexeme String) × Token × List Token))
  | (_, _, []) => failAtEnd e
  | (lexemes, depth, t :: ts) =>
    if t.isPunct ']' ∧ depth = 0 then .ok (.done (lexemes, t, ts))
    else .ok (.again (lexemes ++ [t.lexeme], t.nesting '[' ']' depth, ts))

/-- One turn in front of a declarator, with the stars that have been counted. -/
def starTurn : ℕ × List Token → Except Fault (Turn (ℕ × List Token) (ℕ × List Token))
  | (stars, ts) =>
    match skipNoise e ts with
    | .error fault => .error fault
    | .ok [] => e.map fun _ => .done (stars, [])
    | .ok (t :: rest) =>
      if t.isPunct '*' then .ok (.again (stars + 1, rest)) else .ok (.done (stars, t :: rest))

/-- One turn behind a declared name, with the derivations that have been collected. -/
def suffixTurn : List Derivation × List Token →
    Except Fault (Turn (List Derivation × List Token) (List Derivation × List Token))
  | (ds, []) => e.map fun _ => .done (ds, [])
  | (ds, t :: ts) =>
    if t.isPunct '[' then (readDimension e t ts).map fun r => .again (ds ++ [.array r.1], r.2)
    else if t.isPunct '(' then
      (skipBalanced e '(' ')' 0 ts).map fun rest => .again (ds ++ [.function], rest)
    else .ok (.done (ds, t :: ts))

variable {e}

theorem again_of_map {α β : Type} {x : Except Fault α} {f : α → β} {a : β}
    (h : x.map (fun r => (Turn.again (f r) : Turn β β)) = .ok (.again a)) :
    ∃ r, x = .ok r ∧ f r = a := by
  cases x with
  | error fault => cases h
  | ok r => exact ⟨r, rfl, Turn.again.inj (Except.ok.inj h)⟩

theorem loop_noise : Loop List.length (noiseTurn e) (skipNoise e) where
  unfolds ts := by
    cases ts with
    | nil => rw [skipNoise, noiseTurn]; cases e <;> rfl
    | cons t ts =>
      rw [noiseTurn]
      cases hk : t.keyword? with
      | none => rw [skipNoise, hk]
      | some k =>
        cases k with
        | extension =>
          rw [skipNoise_extension hk]
          cases skipGroup e ts <;> rfl
        | _ => rw [skipNoise, hk]
  shrinks ts rest h := by
    cases ts with
    | nil => cases e <;> cases h
    | cons t ts =>
      rw [noiseTurn] at h
      split at h
      · cases h
        exact Nat.lt_succ_self _
      · obtain ⟨r, hr, rfl⟩ := again_of_map (f := id) h
        exact Nat.lt_succ_of_le (length_skipGroup e hr)
      · cases h

theorem loop_balanced (left right : Char) :
    Loop (fun a => a.2.length) (balancedTurn e left right)
      (fun a => skipBalanced e left right a.1 a.2) where
  unfolds a := by
    obtain ⟨depth, ts⟩ := a
    cases ts with
    | nil => cases e <;> rfl
    | cons t ts =>
      simp only [balancedTurn, skipBalanced]
      split <;> rfl
  shrinks a a' h := by
    obtain ⟨depth, ts⟩ := a
    cases ts with
    | nil => exact absurd h failAtEnd_ne_ok
    | cons t ts =>
      rw [balancedTurn] at h
      split at h
      · cases h
      · cases h
        exact Nat.lt_succ_self _

theorem loop_initializer :
    Loop (fun a => a.2.length) (initializerTurn e) (fun a => skipInitializer e a.1 a.2) where
  unfolds a := by
    obtain ⟨depth, ts⟩ := a
    cases ts with
    | nil => cases e <;> rfl
    | cons t ts =>
      simp only [initializerTurn, skipInitializer]
      cases t.lexeme with
      | punct c =>
        dsimp only
        split
        · rfl
        · split
          · rfl
          · split <;> rfl
      | _ => rfl
  shrinks a a' h := by
    obtain ⟨depth, ts⟩ := a
    cases ts with
    | nil => exact absurd h failAtEnd_ne_ok
    | cons t ts =>
      -- whatever the token is, it has been taken if the loop goes on
      have hrest : a'.2 = ts := by
        simp only [initializerTurn] at h
        split at h
        · split at h
          · cases h; rfl
          · split at h
            · cases h; rfl
            · split at h
              · cases h
              · cases h; rfl
        · cases h; rfl
      simp [hrest]

theorem loop_bracket :
    Loop (fun a => a.2.2.length) (bracketTurn e)
      (fun a => (readBrackets e a.2.1 a.2.2).map fun r => (a.1 ++ r.1, r.2)) where
  unfolds a := by
    obtain ⟨lexemes, depth, ts⟩ := a
    cases ts with
    | nil => cases e <;> rfl
    | cons t ts =>
      simp only [bracketTurn, readBrackets]
      split
      · simp [Except.map]
      · cases hr : readBrackets e (t.nesting '[' ']' depth) ts <;> simp [Except.map, hr]
  shrinks a a' h := by
    obtain ⟨lexemes, depth, ts⟩ := a
    cases ts with
    | nil => exact absurd h failAtEnd_ne_ok
    | cons t ts =>
      rw [bracketTurn] at h
      split at h
      · cases h
      · cases h
        exact Nat.lt_succ_self _

theorem loop_star :
    Loop (fun a => a.2.length) (starTurn e)
      (fun a => (readStars e a.2).map fun r => (a.1 + r.1, r.2)) where
  unfolds a := by
    obtain ⟨stars, ts⟩ := a
    simp only [starTurn]
    rw [readStars_eq]
    cases skipNoise e ts with
    | error fault => rfl
    | ok rest =>
      cases rest with
      | nil => cases e <;> rfl
      | cons t rest =>
        rw [ok_bind]
        dsimp only
        split
        · cases hr : readStars e rest <;> simp [Except.map, hr, Nat.add_left_comm, Nat.add_comm]
        · rfl
  shrinks a a' h := by
    obtain ⟨stars, ts⟩ := a
    simp only [starTurn] at h
    split at h
    · cases h
    · cases e <;> cases h
    · rename_i t rest hskip
      have := length_skipNoise e hskip
      split at h
      · cases h
        exact this
      · cases h

theorem loop_suffix :
    Loop (fun a => a.2.length) (suffixTurn e)
      (fun a => (readSuffixes e a.2).map fun r => (a.1 ++ r.1, r.2)) where
  unfolds a := by
    obtain ⟨ds, ts⟩ := a
    cases ts with
    | nil =>
      simp only [suffixTurn, readSuffixes]
      cases e <;> simp [Except.map]
    | cons t ts =>
      by_cases hb : t.isPunct '[' = true
      · simp only [suffixTurn, hb, if_true, readSuffixes_bracket hb]
        cases readDimension e t ts with
        | error fault => rfl
        | ok r => cases hs : readSuffixes e r.2 <;> simp [Except.map, bind, Except.bind, hs]
      · by_cases hp : t.isPunct '(' = true
        · simp only [suffixTurn, hb, hp, if_true, readSuffixes_paren hb hp]
          cases skipBalanced e '(' ')' 0 ts with
          | error fault => rfl
          | ok rest => cases hs : readSuffixes e rest <;> simp [Except.map, bind, Except.bind, hs]
        · rw [readSuffixes, if_neg hb, if_neg hp]
          simp [suffixTurn, hb, hp, Except.map]
  shrinks a a' h := by
    obtain ⟨ds, ts⟩ := a
    cases ts with
    | nil => cases e <;> cases h
    | cons t ts =>
      simp only [suffixTurn] at h
      split at h
      · obtain ⟨r, hr, rfl⟩ := again_of_map h
        exact Nat.lt_succ_of_lt (length_readDimension e hr)
      · split at h
        · obtain ⟨rest, hr, rfl⟩ := again_of_map h
          exact Nat.lt_succ_of_lt (length_skipBalanced e hr)
        · cases h

end Loops

/-- **The loops over tokens**, each with what it has collected: noise, what is skipped up to a
closing character, initializers, dimensions, stars, and the suffixes of a declarator. -/
structure LoopsGetOn (e : Ending) : Prop where
  noise : Loop List.length (noiseTurn e) (skipNoise e)
  balanced : ∀ left right, Loop (fun a => a.2.length) (balancedTurn e left right)
    (fun a => skipBalanced e left right a.1 a.2)
  initializer : Loop (fun a => a.2.length) (initializerTurn e) (fun a => skipInitializer e a.1 a.2)
  bracket : Loop (fun a => a.2.2.length) (bracketTurn e)
    (fun a => (readBrackets e a.2.1 a.2.2).map fun r => (a.1 ++ r.1, r.2))
  star : Loop (fun a => a.2.length) (starTurn e)
    (fun a => (readStars e a.2).map fun r => (a.1 + r.1, r.2))
  suffix : Loop (fun a => a.2.length) (suffixTurn e)
    (fun a => (readSuffixes e a.2).map fun r => (a.1 ++ r.1, r.2))

theorem loopsGetOn (e : Ending) : LoopsGetOn e :=
  ⟨loop_noise, loop_balanced, loop_initializer, loop_bracket, loop_star, loop_suffix⟩

/-! ### Specifiers -/

section Specifiers

variable {e : Ending} {n k : ℕ} {s s' : Specifiers} {stack stack' : List Specifiers}
  {ts rest : List Token} {heard : Option Heard} {place : Place} {a b : Station}

/-- A specifier is taken, or else the specifiers end here, with a type. -/
theorem taken_or_endAt (h : step e (.specifiers s) stack ts = .ok (.goOn heard place stack' rest)) :
    rest.length < ts.length ∨
      ∃ t, peek e ts = .ok t ∧ s.EndAt ts ∧ s.hasType = true ∧ stack' = stack := by
  cases goes_of_step h with
  | typedef | qualifier | word | named | bare => exact .inl (Nat.lt_succ_self _)
  | extension _ hskip => exact .inl (Nat.lt_succ_of_le (length_skipGroup e hskip))
  | openBody _ _ htag _ hbody | tag _ _ htag _ hbody =>
    exact .inl (Nat.lt_succ_of_le ((length_takePunct e hbody).trans (length_readTag htag)))
  | enum _ _ htag hbody hlist =>
    exact .inl (Nat.lt_succ_of_le ((skipEnumerators_length hlist).trans
      ((length_takePunct e hbody).trans (length_readTag htag))))
  | declarators hend hnext hfound =>
    exact .inr ⟨_, hnext, hend, by simp [Specifiers.hasType, hfound], rfl⟩
  | base hend hnext _ hne =>
    exact .inr ⟨_, hnext, hend, by simp [Specifiers.hasType, hne], rfl⟩

theorem endSpecifiers_found {t : Token} (hs : s.found = true) :
    endSpecifiers s t stack ts ≠ .ok (.goOn heard (.specifiers s') stack' rest) := by
  rw [endSpecifiers.eq_def, if_pos hs]
  split
  · split <;> simp
  · simp

/-- **Without a type there is no end of the specifiers.** -/
theorem Reads.specified {heard : List Heard} (h : Reads e n k a heard b)
    (ha : a.place = .specifiers s) (hs : s.hasType = false) (hb : b.place = .specifiers s')
    (hs' : s'.hasType = true) : b.rest.length < a.rest.length := by
  cases h with
  | refl =>
    obtain rfl : s = s' := Place.specifiers.inj (ha.symm.trans hb)
    exact absurd hs' (Bool.eq_false_iff.mp hs)
  | @step n k _ c _ _ _ h hmore =>
    rw [ha] at h
    refine hmore.suffix.length_le.trans_lt ?_
    rcases taken_or_endAt h with hl | ⟨_, -, -, htype, -⟩
    · exact hl
    · exact absurd htype (Bool.eq_false_iff.mp hs)

/-- **A further specifier takes a token**, but for the one time when the words that have been
collected become a type. From there the reader leaves the specifiers. -/
theorem Reads.specifier {heard : List Heard} (h : Reads e n k a heard b) (hn : 0 < n)
    (ha : a.place = .specifiers s) (hb : b.place = .specifiers s') :
    b.rest.length < a.rest.length ∨ b.rest = a.rest ∧ ∀ heard' s'' stack'' rest',
      TypeLayout.step e b.place b.stack b.rest ≠
        .ok (.goOn heard' (.specifiers s'') stack'' rest') := by
  by_cases hlength : b.rest.length < a.rest.length
  · exact .inl hlength
  · have hrest : b.rest = a.rest := h.suffix.eq_of_length_le (Nat.le_of_not_lt hlength)
    refine .inr ⟨hrest, fun heard' s'' stack'' rest' hnext => ?_⟩
    -- only one step has been made, and it has found the type
    have hrank (s : Specifiers) : (Place.specifiers s).rank = if s.found then 1 else 2 := rfl
    have hmeasure := h.measure
    rw [ha, hb, hrank, hrank, hrest] at hmeasure
    obtain ⟨rfl, hfound⟩ : n = 1 ∧ s'.found = true := by
      split at hmeasure <;> split at hmeasure <;> simp_all <;> omega
    cases h with
    | step h hmore =>
      cases hmore
      rw [ha, hb] at h
      rcases taken_or_endAt h with hl | ⟨t, hpeek, hend, -, hstack⟩
      · exact hlength hl
      · have hend' : s'.EndAt _ := hend.mono (by simp [Specifiers.hasType, hfound])
        rw [hb, hstack, hrest] at hnext
        exact endSpecifiers_found hfound ((stepSpecifiers_endAt hend' hpeek).symm.trans hnext)

end Specifiers

/-! ### Calls -/

variable {e : Ending}

/-- **Whatever is read takes a token**, and so does coming round to it again: the declarations of a
file or of a body, the specifiers, the body of a struct or union with what stands in front of it,
and the declarators of a list. -/
structure CallsTake (e : Ending) : Prop where
  declaration : ∀ {n k heard stack stack' ts rest}, 0 < n →
    Reads e n k ⟨.declaration, stack, ts⟩ heard ⟨.declaration, stack', rest⟩ →
    rest.length < ts.length
  specifiers : ∀ {n k heard line s stack stack' ts rest}, s.hasType = true →
    Reads e n k ⟨.specifiers { line }, stack, ts⟩ heard ⟨.specifiers s, stack', rest⟩ →
    rest.length < ts.length
  /-- Where no token is taken, the words that have been collected have become a type, and the
  specifiers end. -/
  specifier : ∀ {n k heard s s' stack stack' ts rest}, 0 < n →
    Reads e n k ⟨.specifiers s, stack, ts⟩ heard ⟨.specifiers s', stack', rest⟩ →
    rest.length < ts.length ∨ rest = ts ∧ ∀ heard' s'' stack'' rest',
      step e (.specifiers s') stack' rest ≠ .ok (.goOn heard' (.specifiers s'') stack'' rest')
  /-- The keyword is `t`, and `inner` begins behind the opening brace. -/
  body : ∀ {n k heard heard' s s' stack t ts inner rest},
    step e (.specifiers s) stack (t :: ts) = .ok (.goOn heard .declaration (s :: stack) inner) →
    Reads e n k ⟨.declaration, s :: stack, inner⟩ heard' ⟨.specifiers s', stack, rest⟩ →
    inner.length < ts.length ∧ rest.length < inner.length
  declarator : ∀ {d ts rest}, readDeclarator e ts = .ok (d, rest) → rest.length < ts.length
  declarators : ∀ {n k heard typedef typedef' stack stack' ts rest}, 0 < n →
    Reads e n k ⟨.declarator typedef, stack, ts⟩ heard ⟨.declarator typedef', stack', rest⟩ →
    rest.length < ts.length

theorem opened_length {s : Specifiers} {stack : List Specifiers} {ts inner : List Token}
    {heard : Option Heard} {place place' : Place}
    (h : step e place stack ts = .ok (.goOn heard place' (s :: stack) inner)) :
    inner.length + 1 < ts.length := by
  rcases nests_step h with heq | ⟨_, -, hl⟩ | ⟨_, heq, -⟩
  · exact absurd heq (List.cons_ne_self s stack)
  · exact hl
  · have := congrArg List.length heq
    simp only [List.length_cons] at this
    omega

theorem callsTake (e : Ending) : CallsTake e where
  declaration hn h := h.taken hn le_rfl
  specifiers hs h := h.specified rfl rfl rfl hs
  specifier hn h := h.specifier hn rfl rfl
  body hopen h := ⟨Nat.lt_of_succ_lt_succ (opened_length hopen), h.closed (Nat.lt_succ_self _)⟩
  declarator h := length_readDeclarator e h
  declarators hn h := h.taken hn le_rfl

/-! ### The end of the tokens -/

/-- **Behind the last token nothing is repeated**: three steps are left at most, and none if the
next token cannot be read. -/
structure StopsAtEnd (e : Ending) : Prop where
  steps : ∀ {n k heard place stack b}, Reads e n k ⟨place, stack, []⟩ heard b → n ≤ 3
  fault : ∀ {f} (place stack), e = .error f → step e place stack [] = .error f

theorem stopsAtEnd (e : Ending) : StopsAtEnd e where
  steps {n k heard place stack b} h := by
    have hmeasure := h.measure
    have hrank := place.rank_le
    simp only [List.length_nil] at hmeasure
    omega
  fault {f} place stack he := by
    subst he
    cases place with
    | declaration => cases stack <;> rfl
    | specifiers s => rfl
    | declarator typedef =>
      have hstars : readStars (.error f) [] = .error f := by
        rw [readStars_eq, skipNoise]
        rfl
      have hread : readDeclarator (.error f) [] = .error f := by
        rw [readDeclarator_eq, hstars]
        rfl
      rw [step, stepDeclarator, hread]
      rfl
    | tail typedef function => rfl

theorem length_scan (c : Cursor) : (scan c).tokens.length ≤ c.rest.length := by
  fun_induction scan c with
  | case1 | case2 => exact Nat.zero_le _
  | case3 c t h ht more ih => exact ih.trans_lt (length_nextToken h ht)

/-- **Reading ends, for every text and with every evaluator.** All that is repeated takes tokens,
nothing is repeated at their end, and so many steps lead to a last station. -/
theorem reading_gets_on (source : String) (contextLines : ℕ) :
    (∀ e : Ending, LoopsGetOn e ∧ CallsTake e ∧ StopsAtEnd e) ∧
      let scanned := scan (.start source.toList contextLines)
      let e := Ending.ofScan scanned
      ∃ n k heard last, n ≤ 4 * source.length + 3 ∧
        Reads e n k ⟨.declaration, [], scanned.tokens⟩ heard last ∧
        (step e last.place last.stack last.rest = .ok .finished ∧
            (∀ (s : Session) (eval : Evaluator), s.readSource eval source contextLines =
              s.conclude eval {} ⟨heard, .ok k⟩) ∨
          ∃ f, step e last.place last.stack last.rest = .error f ∧
            ∀ (s : Session) (eval : Evaluator), s.readSource eval source contextLines =
              s.conclude eval {} ⟨heard, .error f⟩) := by
  refine ⟨fun e => ⟨loopsGetOn e, callsTake e, stopsAtEnd e⟩, ?_⟩
  intro scanned e
  obtain ⟨n, k, heard, last, hreads, hlast⟩ :=
    exists_reads_readFrom e .declaration [] scanned.tokens
  have hsteps : n ≤ 4 * source.length + 3 := by
    have hmeasure := hreads.measure
    have hlength : scanned.tokens.length ≤ source.toList.length := length_scan _
    rw [String.length_toList] at hlength
    have hrank : Place.declaration.rank = 3 := rfl
    dsimp only at hmeasure
    omega
  refine ⟨n, k, heard, last, hsteps, hreads, ?_⟩
  rcases hlast with ⟨hlast, hread⟩ | ⟨f, hlast, hread⟩
  · refine .inl ⟨hlast, fun s eval => ?_⟩
    rw [Session.readSource_eq_conclude, ← hread]
    rfl
  · refine .inr ⟨f, hlast, fun s eval => ?_⟩
    rw [Session.readSource_eq_conclude, ← hread]
    rfl

end TypeLayout
