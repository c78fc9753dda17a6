import TypeLayout.Proofs.Insertions
import TypeLayout.Proofs.ObjectDeclarations

/-!
# Noise does not matter to the type graph

Qualifiers, and extension words with their groups, may be put into a declaration with specifiers in
many places (`NoisePlace`): in front of it, behind each of its words, behind the keyword of a tag
and behind the tag, behind the brace that closes a body, at the beginning of a declarator and behind
its stars, and behind the whole declarator. Wherever it is, the session that reads the source ends
up the same, with its nodes, its names and its log (`Session.readSource_noise`).

The reader comes to the step that meets the noise without having seen any of it. That step skips it
at some point, and from there on it does what it does without the noise. What is left is to see, for
each place, at which point this is.
-/

namespace TypeLayout

open List

variable {R R₀ : Pairing} {e : Ending} {ts ts' us rest tail tail' : List Token} {t t' : Token}
  {name : Option String}

/-! ### Where noise may stand -/

/-- **A tag behind its keyword** with noise around it, or noise alone. -/
inductive Tagged : List Token → Option String → List Token → Prop
  | unnamed {ts rest : List Token} (h : Skips ts rest) : Tagged ts none rest
  | named {t : Token} {name : String} {ts us rest : List Token} (h : Skips ts (t :: us))
    (ht : t.lexeme = .identifier name) (hq : Keyword.of? name ≠ some .qualifier)
    (hx : Keyword.of? name ≠ some .extension) (hmore : Skips us rest) : Tagged ts (some name) rest

/-- **The beginning of a declarator**: stars and parentheses with noise among them. -/
inductive Opens : List Token → List Token → Prop
  | noise {ts rest : List Token} (h : Skips ts rest) : Opens ts rest
  | star {t : Token} {ts us rest : List Token} (h : Skips ts (t :: us)) (ht : t.isPunct '*' = true)
    (hmore : Opens us rest) : Opens ts rest
  | paren {t : Token} {ts us rest : List Token} (h : Skips ts (t :: us)) (ht : t.isPunct '(' = true)
    (hmore : Opens us rest) : Opens ts rest

/-- **Where noise may stand in a declaration with specifiers**: in front of the tokens `back`, as
they are seen from a station of the reader. On which line it stands matters only in front of a
declaration, whose line is that of its first word. -/
inductive NoisePlace (e : Ending) (line : ℕ) : Station → (back : List Token) → Prop
  /-- In front of the declaration. -/
  | declaration {stack : List Specifiers} {t : Token} {ts : List Token}
    (hend : t.isPunct ';' = false) (hbody : t.isPunct '}' = false)
    (hassert : t.keyword? ≠ some .staticAssert) (hline : t.line = line) :
    NoisePlace e line ⟨.declaration, stack, t :: ts⟩ (t :: ts)
  /-- Behind a word among the specifiers, or behind other noise. -/
  | word {s s' : Specifiers} {stack : List Specifiers} {t : Token} {ts back : List Token}
    {heard : Option Heard} (ht : ¬ t.IsTagWord)
    (h : step e (.specifiers s) stack (t :: ts) = .ok (.goOn heard (.specifiers s') stack back))
    (hl : back.length ≤ ts.length) : NoisePlace e line ⟨.specifiers s, stack, t :: ts⟩ back
  /-- Behind `struct`, `union` or `enum`, or behind the tag. -/
  | tag {s : Specifiers} {stack : List Specifiers} {t : Token} {name : Option String}
    {ts back : List Token} (ht : t.IsTagWord) (h : Tagged ts name back) :
    NoisePlace e line ⟨.specifiers s, stack, t :: ts⟩ back
  /-- Behind the list of the values of an enumeration. -/
  | enumerators {s : Specifiers} {stack : List Specifiers} {t opening closing : Token}
    {name : Option String} {ts inner more back : List Token} (ht : t.keyword? = some .enum)
    (h : Tagged ts name (opening :: (inner ++ closing :: more))) (ho : opening.isPunct '{' = true)
    (hi : Balanced '{' '}' inner) (hc : closing.isPunct '}' = true) (hs : Skips more back) :
    NoisePlace e line ⟨.specifiers s, stack, t :: ts⟩ back
  /-- Behind the brace that closes the body of a struct or union. -/
  | body {s : Specifiers} {stack : List Specifiers} {t : Token} {ts back : List Token}
    (ht : t.isPunct '}' = true) (hs : Skips ts back) :
    NoisePlace e line ⟨.declaration, s :: stack, t :: ts⟩ back
  /-- Behind the comma in front of a further declarator. -/
  | comma {typedef function : Bool} {stack : List Specifiers} {t : Token} {back : List Token}
    (ht : t.isPunct ',' = true) : NoisePlace e line ⟨.tail typedef function, stack, t :: back⟩ back
  /-- At the beginning of a declarator, behind its stars too. -/
  | opening {typedef : Bool} {stack : List Specifiers} {ts back : List Token} (h : Opens ts back)
    (hl : back.length < ts.length) : NoisePlace e line ⟨.declarator typedef, stack, ts⟩ back
  /-- Behind the whole declarator. -/
  | declarator {typedef : Bool} {stack : List Specifiers} {d : Declarator}
    {ts more back : List Token} (h : readDeclarator e ts = .ok (d, more)) (hs : Skips more back) :
    NoisePlace e line ⟨.declarator typedef, stack, ts⟩ back

theorem Tagged.suffix (h : Tagged ts name rest) : rest <:+ ts := by
  cases h with
  | unnamed h => exact h.suffix
  | named h _ _ _ hmore => exact hmore.suffix.trans ((suffix_cons _ _).trans h.suffix)

theorem Opens.suffix (h : Opens ts rest) : rest <:+ ts := by
  induction h with
  | noise h => exact h.suffix
  | star h _ _ ih | paren h _ _ ih => exact ih.trans ((suffix_cons _ _).trans h.suffix)

namespace NoisePlace

variable {line : ℕ} {a : Station} {back : List Token}

/-- The step that meets the noise takes a token first, unless a declaration begins with it. -/
theorem spares (h : NoisePlace e line a back) : Spares back a.place a.rest := by
  cases h with
  | declaration => exact Nat.lt_succ_self _
  | word _ _ hl => exact Nat.lt_succ_of_le hl
  | tag _ h => exact Nat.lt_succ_of_le h.suffix.length_le
  | enumerators _ h _ _ _ hs =>
    have h₁ := h.suffix.length_le
    have h₂ := hs.suffix.length_le
    simp only [length_cons, length_append] at h₁
    simp only [Spares, length_cons]
    omega
  | body _ hs =>
    have := hs.suffix.length_le
    simp only [Spares, length_cons]
    omega
  | comma => exact Nat.lt_succ_self _
  | opening _ hl => exact hl
  | declarator h hs => exact hs.suffix.length_le.trans_lt (length_readDeclarator e h)

end NoisePlace

/-! ### The same noise in front of other tokens -/

theorem Balanced.echo {left right : Char} {inner : List Token} {closing : Token}
    (hi : Balanced left right inner) (hne : left ≠ right) (hc : closing.isPunct right = true)
    (hs : Echo R tail tail' (inner ++ closing :: ts) us) (hl : tail.length ≤ ts.length) :
    ∃ inner' closing' ts', us = inner' ++ closing' :: ts' ∧ Balanced left right inner' ∧
      closing'.isPunct right = true ∧ Echo R tail tail' ts ts' := by
  -- it is skipped in the same way
  have hskip : TypeLayout.skipBalanced (.ok closing) left right 0 (inner ++ closing :: ts) =
      .ok ts := hi.skip_closing hne hc
  obtain ⟨ts', hskip', hts⟩ := R.found (f := .ok closing)
    (skipBalanced_alike left right 0 (b := 0) (.inl hs)) hskip (Nat.lt_succ_of_le hl)
  obtain ⟨inner', closing', rfl, hi', hc'⟩ := exists_balanced_of_skip hskip'
  exact ⟨inner', closing', ts', rfl, hi', hc', hts⟩

theorem Skips.echo (h : Skips ts rest) (hs : Echo R tail tail' ts ts')
    (hl : tail.length ≤ rest.length) (hend : NoSuffix tail') :
    ∃ rest', Skips ts' rest' ∧ Echo R tail tail' rest rest' := by
  induction h generalizing ts' with
  | stop => exact ⟨ts', .stop _, hs⟩
  | qualifier ht h ih =>
    obtain ⟨t', ts', rfl, hrel, hs⟩ := hs.uncons (hl.trans h.suffix.length_le)
    obtain ⟨rest', hskips, hs⟩ := ih hs hl
    exact ⟨rest', .qualifier ((R.keyword? hrel).trans ht) hskips, hs⟩
  | word ht hnext h ih =>
    obtain ⟨t', ts', rfl, hrel, hs⟩ := hs.uncons (hl.trans h.suffix.length_le)
    obtain ⟨rest', hskips, hs'⟩ := ih hs hl
    refine ⟨rest', .word ((R.keyword? hrel).trans ht) ?_ hskips, hs'⟩
    cases hs with
    | done =>
      obtain ⟨u, hu, -, hparen⟩ := hend
      intro v hv
      rwa [← Option.some.inj (hu.symm.trans hv)]
    | @cons u u' _ _ hu _ =>
      intro v hv
      obtain rfl : u' = v := by simpa using hv
      rw [R.isPunct hu]
      exact hnext u rfl
  | @group t opening closing inner ts rest ht ho hi hc h ih =>
    have hle := hl.trans h.suffix.length_le
    obtain ⟨t', us', rfl, hrel, hs⟩ := hs.uncons (by simp; omega)
    obtain ⟨opening', us', rfl, hopening, hs⟩ := hs.uncons (by simp; omega)
    obtain ⟨inner', closing', ts', rfl, hi', hc', hts⟩ := hi.echo (by decide) hc hs hle
    obtain ⟨rest', hskips, hs⟩ := ih hts hl
    exact ⟨rest', .group ((R.keyword? hrel).trans ht) ((R.isPunct hopening _).trans ho) hi' hc'
      hskips, hs⟩

theorem Tagged.echo (h : Tagged ts name rest) (hs : Echo R tail tail' ts ts')
    (hl : tail.length ≤ rest.length) (hend : NoSuffix tail') :
    ∃ rest', Tagged ts' name rest' ∧ Echo R tail tail' rest rest' := by
  cases h with
  | unnamed h =>
    obtain ⟨rest', hskips, hs⟩ := h.echo hs hl hend
    exact ⟨rest', .unnamed hskips, hs⟩
  | @named t name _ us _ h ht hq hx hmore =>
    have hle := hl.trans hmore.suffix.length_le
    obtain ⟨us', hskips, hs⟩ := h.echo hs (hle.trans (Nat.le_succ _)) hend
    obtain ⟨t', us', rfl, hrel, hs⟩ := hs.uncons hle
    obtain ⟨rest', hmore', hs⟩ := hmore.echo hs hl hend
    exact ⟨rest', .named hskips ((R.lexeme hrel).trans ht) hq hx hmore', hs⟩

/-! ### Reading past noise -/

section Equations

theorem readTag_skips (h : Skips ts rest) : readTag e ts = readTag e rest := by
  rw [readTag, h.skipNoise, readTag]

theorem readDeclarator_skips (h : Skips ts rest) : readDeclarator e ts = readDeclarator e rest := by
  rw [readDeclarator_eq, readStars_eq, h.skipNoise, ← readStars_eq, ← readDeclarator_eq]

theorem Tagged.readTag {name : String} (h : Tagged ts (some name) rest) :
    readTag e ts = skipNoise e rest >>= fun us => .ok (some name, us) := by
  cases h with
  | named h ht hq hx hmore => rw [readTag_of_skips h ht hq hx, hmore.skipNoise]

/-- In front of a body also the noise behind a keyword is all that is skipped. -/
theorem Tagged.readTag_brace (h : Tagged ts name (t :: us)) (ht : t.isPunct '{' = true) :
    TypeLayout.readTag e ts = .ok (name, t :: us) := by
  have hstay : skipNoise e (t :: us) = .ok (t :: us) := skipNoise_of_isPunct ht
  cases name with
  | none =>
    cases h with
    | unnamed h =>
      have htake : takeIdentifier e (t :: us) = .ok (none, t :: us) := by
        simp only [takeIdentifier, lexeme_of_isPunct ht]
      exact readTag_of_eq_ok (h.skipNoise.trans hstay) htake hstay
  | some name => rw [h.readTag, hstay, ok_bind]

/-- Behind the same tag, or the same keyword, the tag is read in the same way. -/
theorem Tagged.readTag_alike {S : Sides} {back back' : List Token} (h : Tagged ts name back)
    (h' : Tagged ts' name back') (hs : S.stand back back') (hword : ∀ x, S.word x) :
    S.Alike (·.2.length) back.length S.Tag (TypeLayout.readTag S.e ts)
      (TypeLayout.readTag S.e' ts') := by
  cases name with
  | none =>
    cases h with
    | unnamed h =>
      cases h' with
      | unnamed h' =>
        rw [readTag_skips h, readTag_skips h']
        exact TypeLayout.readTag_alike (b := 0) (.inl hs)
  | some name =>
    rw [h.readTag, h'.readTag]
    refine (skipNoise_alike (b := 0) (.inl hs)).bind fun rest rest' _ _ hrest => ?_
    exact .pure le_rfl (hrest.imp_left fun hrest => ⟨⟨rfl, fun y _ => hword y⟩, hrest⟩)

/-- The list of the values of an enumeration is skipped with the noise behind it. -/
theorem skipEnumerators_list {closing : Token} {inner : List Token} (hi : Balanced '{' '}' inner)
    (hc : closing.isPunct '}' = true) (hs : Skips ts rest) :
    skipEnumerators e true (inner ++ closing :: ts) = skipNoise e rest := by
  rw [skipEnumerators, if_pos rfl, hi.skip_closing (by decide) hc]
  exact hs.skipNoise

theorem finishDeclarator_succ (d : Declarator) (stars : ℕ) :
    finishDeclarator e d (stars + 1) = fun ts => finishDeclarator e d stars ts >>= fun r =>
      .ok ({ r.1 with derivations := r.1.derivations ++ [.pointer] }, r.2) := by
  funext ts
  unfold finishDeclarator
  cases readSuffixes e ts with
  | error f => rfl
  | ok r => simp [bind, Except.bind, replicate_succ']

/-- A star in front makes a declarator one of a pointer. -/
theorem readDeclarator_star (h : Skips ts (t :: us)) (ht : t.isPunct '*' = true) :
    readDeclarator e ts = readDeclarator e us >>= fun r =>
      .ok ({ r.1 with derivations := r.1.derivations ++ [.pointer] }, r.2) := by
  have hstars : readStars e ts = (readStars e us).map fun r => (r.1 + 1, r.2) := by
    rw [readStars_eq, h.skipNoise, skipNoise_of_isPunct ht, ok_bind]
    exact if_pos ht
  rw [readDeclarator_eq, readDeclarator_eq us, hstars]
  cases readStars e us with
  | error f => rfl
  | ok r =>
    obtain ⟨n, rest⟩ := r
    dsimp only [Except.map]
    rw [ok_bind, ok_bind]
    cases rest with
    | nil => cases e <;> rfl
    | cons u rest =>
      unfold declaratorBehind
      dsimp only
      split
      · simp only [bind_assoc, finishDeclarator_succ]
      · cases u.lexeme with
        | identifier name => exact congrFun (finishDeclarator_succ _ n) rest
        | _ => rfl

/-- A parenthesis in front of a declarator. -/
theorem readDeclarator_paren (h : Skips ts (t :: us)) (ht : t.isPunct '(' = true) :
    readDeclarator e ts = readDeclarator e us >>= fun r => expectPunct e ')' r.2 >>=
      finishDeclarator e r.1 0 := by
  have hstars : readStars e (t :: us) = .ok (0, t :: us) :=
    readStars_of_skipNoise (skipNoise_of_isPunct ht) (isPunct_eq_false_of_ne (by decide) ht)
  rw [readDeclarator_skips h, readDeclarator_eq, hstars, ok_bind, declaratorBehind_paren ht]

end Equations

/-! ### Stations from which the same is read -/

/-- **What is read from another station is the same**, if from the first one all can be read. -/
def ReadsAlike (e e' : Ending) (a b : Station) : Prop :=
  ∀ heard k, readFrom e a.place a.stack a.rest = ⟨heard, .ok k⟩ →
    ∃ heard', readFrom e' b.place b.stack b.rest = ⟨heard', .ok k⟩ ∧
      heard'.map Heard.clause = heard.map Heard.clause

section Alike

variable {e' : Ending} {stop : Token} {m n k : ℕ} {a a' b b' : Station} {heard heard' : List Heard}
  {place place' : Place} {stack stack' : List Specifiers}

/-- Runs that say the same in front of stations from which the same is read. -/
theorem Reads.alike (h : Reads e m k a heard b) (h' : Reads e' n k a' heard' b')
    (hc : heard'.map Heard.clause = heard.map Heard.clause) (hb : ReadsAlike e e' b b') :
    ReadsAlike e e' a a' := by
  intro all count hall
  rw [h.readFrom] at hall
  cases hmore : TypeLayout.readFrom e b.place b.stack b.rest with
  | mk more outcome =>
    rw [hmore] at hall
    cases outcome with
    | error f => cases hall
    | ok j =>
      obtain ⟨rfl, hcount⟩ := Reading.mk.inj hall
      obtain ⟨more', hmore', hclauses⟩ := hb more j hmore
      refine ⟨heard' ++ more', ?_, ?_⟩
      · rw [h'.readFrom, hmore', ← hcount]
      · rw [map_append, map_append, hc, hclauses]

/-- From tokens that match the same is read. -/
theorem Echo.alike (h : Echo R [] [] ts ts') :
    ReadsAlike e (.ok stop) ⟨place, stack, ts⟩ ⟨place, stack, ts'⟩ :=
  fun heard k hread => by
    have hend : readFrom (.ok stop) .declaration [] [] = ⟨[], .ok 0⟩ := by
      rw [readFrom_eq]
      rfl
    obtain ⟨heard', hheard, hread'⟩ := readFrom_echo (.ok stop) hread h
    rw [hend, append_nil] at hread'
    exact ⟨heard', by simpa [Except.map] using hread', map_clause_of_hears hheard⟩

/-- In front of the end of a source all is read only if no declaration has begun. -/
theorem spares_of_readFrom (h : readFrom e place stack ts = ⟨heard, .ok k⟩) :
    Spares [] place ts := by
  obtain ⟨n, k', heard₁, last, hreads, ⟨hlast, -⟩ | ⟨f, -, hread⟩⟩ :=
    exists_reads_readFrom e place stack ts
  · obtain ⟨hplace, -, hrest, -⟩ := step_eq_finished hlast
    have hmeasure := hreads.measure
    rw [hplace, hrest] at hmeasure
    cases ts with
    | nil =>
      cases place with
      | declaration => exact Nat.one_pos
      | specifiers s =>
        simp only [Place.rank, length_nil] at hmeasure
        split at hmeasure <;> omega
      | declarator | tail => simp [Place.rank] at hmeasure
    | cons t ts =>
      rw [Spares, length_cons, length_nil]
      omega
  · simp [h] at hread

/-- A step that goes on in the same way, to stations from which the same is read. -/
theorem StepsAlike.readsAlike {heard : Option Heard}
    (h : StepsAlike R tail tail' heard place' stack' rest (step e' place stack ts'))
    (hstep : step e place stack ts = .ok (.goOn heard place' stack' rest))
    (hmore : ∀ {rest'}, Echo R tail tail' rest rest' →
      ReadsAlike e e' ⟨place', stack', rest⟩ ⟨place', stack', rest'⟩) :
    ReadsAlike e e' ⟨place, stack, ts⟩ ⟨place, stack, ts'⟩ := by
  obtain ⟨heard', rest', h, hheard, hs⟩ := h
  exact (Reads.single (a := ⟨place, stack, ts⟩) (b := ⟨place', stack', rest⟩) hstep).alike
    (.single (a := ⟨place, stack, ts'⟩) (b := ⟨place', stack', rest'⟩) h)
    (map_clause_of_hears (forall₂_toList hheard)) (hmore hs)

/-- **The same is read if the next step is the same**, up to tokens that match. -/
theorem readsAlike_of_step (hne : ts ≠ []) (hstep : (R.sides e (.ok stop) [] []).Alike (Step.size 0)
      n (R.sides e (.ok stop) [] []).Onward (step e place stack ts)
      (step (.ok stop) (place.move 0) (stack.map (Specifiers.move 0)) ts')) :
    ReadsAlike e (.ok stop) ⟨place, stack, ts⟩ ⟨place, stack, ts'⟩ := by
  intro all count hall
  have hread := hall
  dsimp only at hread
  rw [readFrom_eq] at hread
  split at hread
  · cases hread
  · rename_i hfinished
    exact absurd (step_eq_finished hfinished).2.2.1 hne
  · rename_i heard place' stack' rest h
    cases hmore : readFrom e place' stack' rest with
    | mk more outcome =>
      rw [hmore] at hread
      cases outcome with
      | error f => cases hread
      | ok j =>
        have halike := stepsAlike_of_alike hstep h (spares_of_readFrom hmore)
        exact halike.readsAlike h Echo.alike all count hall

end Alike

/-! ### Noise that is put in -/

section Noise

variable {noise : List Token}

/-- Brackets and what is between them, from the lexemes. -/
theorem exists_group_of_map {opening closing : Token} {inner : List Token}
    (h : ts'.map (·.lexeme) = (opening :: inner ++ closing :: ts).map (·.lexeme)) :
    ∃ opening' inner' closing' us, ts' = opening' :: inner' ++ closing' :: us ∧
      opening'.lexeme = opening.lexeme ∧ inner'.map (·.lexeme) = inner.map (·.lexeme) ∧
      closing'.lexeme = closing.lexeme ∧ us.map (·.lexeme) = ts.map (·.lexeme) := by
  rw [map_append] at h
  obtain ⟨front, rear, rfl, hfront, hrear⟩ := List.map_eq_append_iff.mp h
  obtain ⟨opening', inner', rfl, ho, hi⟩ := List.map_eq_cons_iff.mp hfront
  obtain ⟨closing', us, rfl, hc, hus⟩ := List.map_eq_cons_iff.mp hrear
  exact ⟨opening', inner', closing', us, rfl, ho, hi, hc, hus⟩

theorem Balanced.congr {left right : Char} (h : Balanced left right ts)
    (hl : ts'.map (·.lexeme) = ts.map (·.lexeme)) : Balanced left right ts' := by
  induction h generalizing ts' with
  | nil =>
    rw [List.map_eq_nil_iff.mp hl]
    exact .nil
  | other hleft hright _ ih =>
    obtain ⟨t', us, rfl, ht, hus⟩ := List.map_eq_cons_iff.mp hl
    exact .other ((isPunct_congr ht _).trans hleft) ((isPunct_congr ht _).trans hright) (ih hus)
  | group ho _ hc _ ihi ih =>
    obtain ⟨opening', inner', closing', us, rfl, ho', hi', hc', hus⟩ := exists_group_of_map hl
    exact .group ((isPunct_congr ho' _).trans ho) (ihi hi') ((isPunct_congr hc' _).trans hc)
      (ih hus)

/-- Whether tokens are noise is seen from their lexemes. -/
theorem Noise.congr (h : Noise ts) (hl : ts'.map (·.lexeme) = ts.map (·.lexeme)) : Noise ts' := by
  induction h generalizing ts' with
  | nil =>
    rw [List.map_eq_nil_iff.mp hl]
    exact .nil
  | qualifier ht _ ih =>
    obtain ⟨t', us, rfl, ht', hus⟩ := List.map_eq_cons_iff.mp hl
    exact .qualifier ((keyword?_congr ht').trans ht) (ih hus)
  | extension ht ho hi hc _ ih =>
    obtain ⟨t', us, rfl, ht', hus⟩ := List.map_eq_cons_iff.mp hl
    obtain ⟨opening', inner', closing', us, rfl, ho', hi', hc', hus⟩ := exists_group_of_map hus
    exact .extension ((keyword?_congr ht').trans ht) ((isPunct_congr ho' _).trans ho)
      (hi.congr hi') ((isPunct_congr hc' _).trans hc) (ih hus)

theorem Noise.skips (h : Noise ts) (us : List Token) : Skips (ts ++ us) us := by
  induction h with
  | nil => exact .stop us
  | qualifier ht _ ih => exact .qualifier ht ih
  | extension ht ho hi hc _ ih =>
    rw [append_assoc, cons_append, cons_append, cons_append]
    exact .group ht ho hi hc ih

/-- Noise begins with one of its words. -/
theorem Noise.exists_word (h : Noise (t :: ts)) :
    t.keyword? = some .qualifier ∨ t.keyword? = some .extension := by
  cases h with
  | qualifier ht => exact .inl ht
  | extension ht => exact .inr ht

/-- **Noise in front of some tokens**, on a given line, and the tokens that match them behind it. -/
structure PutIn (R : Pairing) (line : ℕ) (back words back' : List Token) : Prop where
  noise : Noise words
  first : ∃ t ∈ words.head?, t.line = line
  behind : Echo R [] [] back back'

namespace PutIn

variable {line : ℕ} {back words back' : List Token} {stop : Token} {stack : List Specifiers}

theorem exists_cons (h : PutIn R line back words back') :
    ∃ n ns, words = n :: ns ∧ n.line = line ∧
      (n.keyword? = some .qualifier ∨ n.keyword? = some .extension) := by
  obtain ⟨n, hn, hline⟩ := h.first
  obtain ⟨ns, rfl⟩ := List.head?_eq_some_iff.mp hn
  exact ⟨n, ns, rfl, hline, h.noise.exists_word⟩

theorem isPunct {n : Token} (h : n.keyword? = some .qualifier ∨ n.keyword? = some .extension)
    (c : Char) : n.isPunct c = false :=
  h.elim (isPunct_of_keyword? · c) (isPunct_of_keyword? · c)

theorem noSuffix (h : PutIn R line back words back') : NoSuffix (words ++ back') := by
  obtain ⟨n, ns, rfl, -, hn⟩ := h.exists_cons
  exact ⟨n, rfl, isPunct hn _, isPunct hn _⟩

theorem skips (h : PutIn R line back words back') : Skips (words ++ back') back' :=
  h.noise.skips back'

theorem ne_nil (h : PutIn R line (t :: ts) words back') : back' ≠ [] := by
  obtain ⟨t', ts', rfl, -⟩ := h.behind.uncons (Nat.zero_le _)
  simp

/-- Among specifiers noise is skipped, and the same is read. -/
theorem alike_specifiers (h : PutIn R line (t :: ts) words back') (s : Specifiers) :
    ReadsAlike e (.ok stop) ⟨.specifiers s, stack, t :: ts⟩
      ⟨.specifiers s, stack, words ++ back'⟩ := by
  obtain ⟨n, hleads⟩ : Leads (.ok stop) 0 ⟨.specifiers s, stack, words ++ back'⟩ []
      ⟨.specifiers s, stack, back'⟩ := h.skips.leads h.ne_nil
  exact (Reads.refl _).alike hleads rfl h.behind.alike

/-- So it is in front of a declarator. -/
theorem alike_declarator (h : PutIn R line back words back') (typedef : Bool) :
    ReadsAlike e (.ok stop) ⟨.declarator typedef, stack, back⟩
      ⟨.declarator typedef, stack, words ++ back'⟩ := by
  have hstep : step (.ok stop) (.declarator typedef) stack (words ++ back') =
      step (.ok stop) (.declarator typedef) stack back' := by
    simp only [step, stepDeclarator, readDeclarator_skips h.skips]
  intro all count hall
  dsimp only
  rw [readFrom_eq, hstep, ← readFrom_eq]
  exact h.behind.alike all count hall

end PutIn

end Noise

/-! ### Each place -/

section Places

variable {line : ℕ} {back words back' more : List Token} {stop : Token} {stack : List Specifiers}
  {s : Specifiers} {heard : Option Heard} {typedef : Bool}

/-- A declaration that begins with noise has the line of that. -/
theorem PutIn.declaration (h : PutIn R t.line (t :: ts) words back') (hend : t.isPunct ';' = false)
    (hbody : t.isPunct '}' = false) (hassert : t.keyword? ≠ some .staticAssert) :
    ReadsAlike e (.ok stop) ⟨.declaration, stack, t :: ts⟩
      ⟨.declaration, stack, words ++ back'⟩ := by
  obtain ⟨n, ns, rfl, hline, hn⟩ := h.exists_cons
  have hassert' : n.keyword? ≠ some .staticAssert := by rcases hn with hn | hn <;> simp [hn]
  have hgoes' : Goes (.ok stop) .declaration stack (n :: ns ++ back') _ :=
    .begin (by simp [isPunct hn]) (isPunct hn _) hassert'
  rw [hline] at hgoes'
  have hgoes : Goes e .declaration stack (t :: ts) _ := .begin (by simp [hbody]) hend hassert
  exact (Reads.single (b := ⟨.specifiers _, stack, t :: ts⟩) hgoes.step_eq).alike
    (.single (b := ⟨.specifiers _, stack, n :: ns ++ back'⟩) hgoes'.step_eq) rfl
    (h.alike_specifiers _)

/-- Behind a word among specifiers. -/
theorem PutIn.word (h : PutIn R line (t' :: back) words back') {s' : Specifiers}
    (hs : Echo R₀ (t' :: back) (words ++ back') (t :: ts) ts') (ht : ¬ t.IsTagWord)
    (hstep : step e (.specifiers s) stack (t :: ts) =
      .ok (.goOn heard (.specifiers s') stack (t' :: back)))
    (hl : (t' :: back).length ≤ ts.length) :
    ReadsAlike e (.ok stop) ⟨.specifiers s, stack, t :: ts⟩ ⟨.specifiers s, stack, ts'⟩ := by
  obtain ⟨u, us, rfl, hrel, hus⟩ := hs.uncons hl
  have halike := stepSpecifiers_next (S := R₀.sides e (.ok stop) (t' :: back) (words ++ back'))
    s stack hs hrel hus (.inr ⟨rfl, R₀.quiet h.noSuffix, ht⟩)
  exact (stepsAlike_of_alike (p := .specifiers s) halike hstep (Nat.lt_succ_self _)).readsAlike
    hstep fun hs => hs.eq_tail ▸ h.alike_specifiers s'

/-- Behind the comma in front of a further declarator. -/
theorem PutIn.comma (h : PutIn R line back words back') {function : Bool}
    (hs : Echo R₀ back (words ++ back') (t :: back) ts') (ht : t.isPunct ',' = true) :
    ReadsAlike e (.ok stop) ⟨.tail typedef function, stack, t :: back⟩
      ⟨.tail typedef function, stack, ts'⟩ := by
  have hgoes : Goes e (.tail typedef function) stack (t :: back) _ := .comma ht
  obtain ⟨u, us, rfl, hrel, hus⟩ := hs.uncons le_rfl
  have halike := stepTail_next (S := R₀.sides e (.ok stop) back (words ++ back')) typedef
    function stack le_rfl hrel hus
  exact (stepsAlike_of_alike (p := .tail typedef function) halike hgoes.step_eq
    (Nat.lt_succ_self _)).readsAlike hgoes.step_eq fun hs =>
      hs.eq_tail ▸ h.alike_declarator typedef

/-- Behind the brace that closes a body. -/
theorem PutIn.body (h : PutIn R line back words back')
    (hs : Echo R₀ back (words ++ back') (t :: ts) ts') (ht : t.isPunct '}' = true)
    (hskips : Skips ts back) :
    ReadsAlike e (.ok stop) ⟨.declaration, s :: stack, t :: ts⟩
      ⟨.declaration, s :: stack, ts'⟩ := by
  obtain ⟨t', ts', rfl, hrel, hs⟩ := hs.uncons hskips.suffix.length_le
  obtain ⟨rest', hskips', hs⟩ := hskips.echo hs le_rfl h.noSuffix
  obtain rfl := hs.eq_tail
  refine readsAlike_of_step (R := R) (by simp) (stepDeclaration_close ht
    ((R₀.isPunct hrel _).trans ht) (n := back.length) ?_)
  rw [hskips.skipNoise, (hskips'.trans h.skips).skipNoise]
  exact skipNoise_alike (b := 0) (.inl h.behind)

theorem Tagged.trans (h : Tagged ts name us) (hs : Skips us rest) : Tagged ts name rest := by
  cases h with
  | unnamed h => exact .unnamed (h.trans hs)
  | named h ht hq hx hmore => exact .named h ht hq hx (hmore.trans hs)

/-- Behind the keyword of a tag, or behind the tag. -/
theorem PutIn.tag (h : PutIn R line back words back')
    (hs : Echo R₀ back (words ++ back') (t :: ts) ts') (ht : t.IsTagWord)
    (htag : Tagged ts name back) :
    ReadsAlike e (.ok stop) ⟨.specifiers s, stack, t :: ts⟩ ⟨.specifiers s, stack, ts'⟩ := by
  obtain ⟨t', ts', rfl, hrel, hs⟩ := hs.uncons htag.suffix.length_le
  obtain ⟨rest', htag', hs⟩ := htag.echo hs le_rfl h.noSuffix
  obtain rfl := hs.eq_tail
  have htag' := htag'.trans h.skips
  exact readsAlike_of_step (R := R) (by simp) (stepSpecifiers_tagWord ht (R₀.lexeme hrel)
    (R₀.line hrel) (fun _ => trivial) (htag.readTag_alike htag' h.behind fun _ => trivial))

/-- Behind the list of the values of an enumeration. -/
theorem PutIn.enumerators {opening closing : Token} {inner : List Token}
    (h : PutIn R line back words back') (hs : Echo R₀ back (words ++ back') (t :: ts) ts')
    (ht : t.keyword? = some .enum) (htag : Tagged ts name (opening :: (inner ++ closing :: more)))
    (ho : opening.isPunct '{' = true) (hi : Balanced '{' '}' inner)
    (hc : closing.isPunct '}' = true) (hskips : Skips more back) :
    ReadsAlike e (.ok stop) ⟨.specifiers s, stack, t :: ts⟩ ⟨.specifiers s, stack, ts'⟩ := by
  have hle := hskips.suffix.length_le
  have hle' := htag.suffix.length_le
  simp only [length_cons, length_append] at hle'
  obtain ⟨t', ts', rfl, hrel, hs⟩ := hs.uncons (by omega)
  obtain ⟨us', htag', hs⟩ := htag.echo hs (by simp; omega) h.noSuffix
  obtain ⟨opening', us', rfl, hopening, hs⟩ := hs.uncons (by simp; omega)
  obtain ⟨inner', closing', more', rfl, hi', hc', hmore⟩ := hi.echo (by decide) hc hs hle
  obtain ⟨rest', hskips', hrest⟩ := hskips.echo hmore le_rfl h.noSuffix
  obtain rfl := hrest.eq_tail
  have ho' := (R₀.isPunct hopening _).trans ho
  have hstep {e : Ending} {t opening : Token} {ts us : List Token} (ht : t.keyword? = some .enum)
      (hread : readTag e ts = .ok (name, opening :: us)) (ho : opening.isPunct '{' = true) :
      step e (.specifiers s) stack (t :: ts) = if s.hasType then
        .error (t.fault t.line .conflictingSpecifiers)
      else skipEnumerators e true us >>= enumBehind e s name true t stack := by
    obtain ⟨word, hword, hof⟩ := exists_word_of_keyword? ht
    simp only [step, stepSpecifiers, hword, hof, stepEnum_eq, hread, ok_bind, takePunct, ho, if_true]
  refine readsAlike_of_step (R := R) (n := back.length) (by simp) ?_
  rw [Place.move_zero, map_move_zero, hstep ht (htag.readTag_brace ho) ho,
    hstep ((R₀.keyword? hrel).trans ht) (htag'.readTag_brace ho') ho']
  split
  · exact .fail trivial
  · rw [skipEnumerators_list hi hc hskips, skipEnumerators_list hi' hc' (hskips'.trans h.skips)]
    refine (skipNoise_alike (b := 0) (.inl h.behind)).bind fun rest rest' _ _ hrest => ?_
    have halike : (R.sides e (.ok stop) [] []).Alike _ _ _ (enumBehind e s name true t stack rest)
        (enumBehind (.ok stop) s name true t' (stack.map (Specifiers.move 0)) rest') :=
      enumBehind_alike (R₀.line hrel) (fun _ _ => trivial) hrest
    rwa [map_move_zero] at halike

/-- A declarator with noise at its beginning is the same. -/
theorem Opens.readDeclarator {e' : Ending} (hopens : Opens ts back)
    (h : PutIn R line back words back') (hs : Echo R₀ back (words ++ back') ts ts') :
    (R.sides e e' [] []).Alike (·.2.length) back.length (R.sides e e' [] []).Entity
      (readDeclarator e ts) (readDeclarator e' ts') := by
  induction hopens generalizing ts' with
  | noise hskips =>
    obtain ⟨rest', hskips', hs⟩ := hskips.echo hs le_rfl h.noSuffix
    obtain rfl := hs.eq_tail
    rw [readDeclarator_skips hskips, readDeclarator_skips (hskips'.trans h.skips)]
    exact readDeclarator_alike (.inl h.behind) (.inl rfl)
  | star hskips ht hmore ih =>
    have hle := hmore.suffix.length_le
    obtain ⟨us', hskips', hs⟩ := hskips.echo hs (hle.trans (Nat.le_succ _)) h.noSuffix
    obtain ⟨t', us', rfl, hrel, hs⟩ := hs.uncons hle
    rw [readDeclarator_star hskips ht, readDeclarator_star hskips' ((R₀.isPunct hrel _).trans ht)]
    refine (ih h hs).bind fun p q _ _ hp => .pure le_rfl (hp.imp_left ?_)
    rintro ⟨⟨hd, -⟩, hrest⟩
    exact ⟨⟨by rw [hd]; rfl, trivial⟩, hrest⟩
  | paren hskips ht hmore ih =>
    have hle := hmore.suffix.length_le
    obtain ⟨us', hskips', hs⟩ := hskips.echo hs (hle.trans (Nat.le_succ _)) h.noSuffix
    obtain ⟨t', us', rfl, hrel, hs⟩ := hs.uncons hle
    rw [readDeclarator_paren hskips ht, readDeclarator_paren hskips' ((R₀.isPunct hrel _).trans ht)]
    refine (ih h hs).bind fun p q _ _ hp => ?_
    refine (expectPunct_alike ')' (b := 0) (Sides.at_of_both hp)).bind fun rest rest' _ hle hrest => ?_
    refine Sides.Alike.mono (finishDeclarator_alike 0 (b := 0) ?_ (.inl rfl) ?_) (Nat.le_succ _)
    · exact hrest.imp_right (·.mono (Nat.le_succ _))
    · exact hp.imp And.left (·.mono ((Nat.le_succ _).trans hle))

/-- At the beginning of a declarator. -/
theorem PutIn.opening (h : PutIn R line back words back')
    (hs : Echo R₀ back (words ++ back') ts ts') (hopens : Opens ts back)
    (hl : back.length < ts.length) :
    ReadsAlike e (.ok stop) ⟨.declarator typedef, stack, ts⟩
      ⟨.declarator typedef, stack, ts'⟩ := by
  exact readsAlike_of_step (R := R) (ne_nil_of_length_pos (by omega))
    (stepDeclarator_alike typedef (readEntity_of_alike (hopens.readDeclarator h hs)))

/-- Behind the whole declarator. -/
theorem PutIn.declarator {d : Declarator} (h : PutIn R line back words back')
    (hs : Echo R₀ back (words ++ back') ts ts') (hread : readDeclarator e ts = .ok (d, more))
    (hskips : Skips more back) :
    ReadsAlike e (.ok stop) ⟨.declarator typedef, stack, ts⟩
      ⟨.declarator typedef, stack, ts'⟩ := by
  obtain ⟨⟨d', more'⟩, hread', ⟨rfl, -⟩, hs⟩ := R₀.found (f := .ok stop)
    (readDeclarator_alike (b := 1) (.inl hs) (.inr ⟨rfl, R₀.quiet h.noSuffix⟩)) hread
    (Nat.lt_succ_of_le hskips.suffix.length_le)
  change TypeLayout.readDeclarator (.ok stop) ts' = .ok (d, more') at hread'
  obtain ⟨rest', hskips', hs⟩ := hskips.echo hs le_rfl h.noSuffix
  obtain rfl := hs.eq_tail
  have hlength := length_readDeclarator e hread
  refine readsAlike_of_step (R := R) (n := back.length) (ne_nil_of_length_pos (by omega))
    (stepDeclarator_alike typedef ?_)
  change (R.sides e (.ok stop) [] []).Alike _ _ _ (readEntity e ts) (readEntity (.ok stop) ts')
  rw [readEntity, readEntity, hread, hread', ok_bind, ok_bind, hskips.skipNoise,
    (hskips'.trans h.skips).skipNoise]
  refine (skipNoise_alike (b := 0) (.inl h.behind)).bind fun rest rest' _ _ hrest => ?_
  exact .pure le_rfl (hrest.imp_left fun hrest => ⟨⟨rfl, trivial⟩, hrest⟩)

/-- **The step that meets noise does what it does without it**, in every place. -/
theorem NoisePlace.alike {a : Station} (h : NoisePlace e line a (t :: back))
    (hput : PutIn R line (t :: back) words back')
    (hs : Echo R₀ (t :: back) (words ++ back') a.rest ts') :
    ReadsAlike e (.ok stop) a ⟨a.place, a.stack, ts'⟩ := by
  cases h with
  | declaration hend hbody hassert hline =>
    subst hline
    obtain rfl := hs.eq_tail
    exact hput.declaration hend hbody hassert
  | word ht hstep hl => exact hput.word hs ht hstep hl
  | tag ht htag => exact hput.tag hs ht htag
  | enumerators ht htag ho hi hc hskips => exact hput.enumerators hs ht htag ho hi hc hskips
  | body ht hskips => exact hput.body hs ht hskips
  | comma ht => exact hput.comma hs ht
  | opening hopens hl => exact hput.opening hs hopens hl
  | declarator hread hskips => exact hput.declarator hs hread hskips

end Places

/-! ### Sources -/

/-- **Noise that is put into a declaration with specifiers**, at a place that the reader comes to
and where it may stand. -/
structure Insertion.IsNoise (i : Insertion) (depth : ℕ) : Prop where
  noise : Noise (scan (.start i.words defaultContextLines)).tokens
  place : ∃ done heard station before t behind,
    let scanned := scan (.start i.source depth)
    scanned.tokens = before ++ t :: behind ∧ i.Between depth before t ∧
      Leads (.ofScan scanned) done ⟨.declaration, [], scanned.tokens⟩ heard station ∧
      NoisePlace (.ofScan scanned) i.line station (t :: behind)

section Sources

variable {i : Insertion} {depth k : ℕ} {heard : List Heard}

/-- The words are noise in their new place, too. -/
theorem Insertion.putIn {inserted : List Token}
    (hnoise : Noise (scan (.start i.words defaultContextLines)).tokens)
    (hwords : inserted.map (·.lexeme) =
      (scan (.start i.words defaultContextLines)).tokens.map (·.lexeme))
    (hline : ∀ n ∈ inserted.head?, n.line = i.line) (hbehind : Echo R [] [] ts ts') :
    PutIn R i.line ts inserted ts' := by
  refine ⟨hnoise.congr hwords, ?_, hbehind⟩
  obtain ⟨t, ht, -⟩ := i.oneLine.starts
  obtain ⟨us, hus⟩ := List.head?_eq_some_iff.mp ht
  rw [hus] at hwords
  obtain ⟨n, ns, rfl, -⟩ := List.map_eq_cons_iff.mp hwords
  exact ⟨n, rfl, hline n rfl⟩

/-- **Noise does not change what a source says.** -/
theorem Insertion.IsNoise.readDeclarations (h : i.IsNoise depth)
    (hread : readDeclarations (scan (.start i.source depth)) = ⟨heard, .ok k⟩) :
    ∃ heard', readDeclarations (scan (.start i.result depth)) = ⟨heard', .ok k⟩ ∧
      heard'.map Heard.clause = heard.map Heard.clause := by
  obtain ⟨done, heard₁, station, before, t, behind, htokens, hbetween, ⟨n, hreads⟩, hplace⟩ :=
    h.place
  obtain ⟨stop, hstop⟩ := exists_ending_of_readDeclarations (congrArg Reading.outcome hread)
  have hsource : scan (.start i.source depth) = ⟨before ++ t :: behind, .ok stop⟩ := by
    rw [← htokens, ← hstop]
  obtain ⟨before', inserted, behind', stop', hresult, hbefore, hwords, hline, hbehind⟩ :=
    Insertion.scan_result hsource hbetween
  -- the tokens in front of the place, and those behind it
  have hs : Echo (.spliced i.front.length 0 i.back (i.put ++ i.back)) (t :: behind)
      (inserted ++ behind') (before ++ t :: behind) (before' ++ (inserted ++ behind')) :=
    echo_of_forall₂ hbefore _ _
  have hs' : Echo (.spliced i.source.length i.put.length [] []) [] [] (t :: behind) behind' := by
    simpa using echo_of_forall₂ (R := .spliced i.source.length i.put.length [] []) hbehind [] []
  rw [htokens] at hreads
  obtain ⟨heard₁', rest', hreads', hheard, hrest⟩ := hreads.echo (.ok stop') hs hplace.spares
  have halike : ReadsAlike _ (.ok stop') station ⟨station.place, station.stack, rest'⟩ :=
    hplace.alike (Insertion.putIn h.noise hwords hline hs') hrest
  have hall := hreads.alike hreads' (map_clause_of_hears hheard) halike heard k
  rw [TypeLayout.readDeclarations, hresult]
  exact hall (by rw [← htokens]; exact hread)

end Sources

namespace Session

variable {s s' : Session} {eval : Evaluator} {contextLines : ℕ}

/-- **Noise does not matter to the type graph.** If a source can be read, it can be read with noise
put in at any place of a declaration where that may stand, and the session ends up the same: the
same nodes, the same names, and the same log, with the same texts handed to the evaluator. -/
theorem readSource_noise {i : Insertion} (hi : i.IsNoise contextLines)
    (h : s.readSource eval (String.ofList i.source) contextLines = (s', .ok ())) :
    s.readSource eval (String.ofList i.result) contextLines = (s', .ok ()) := by
  obtain ⟨s₁, scope, count, hact, hcount, rfl⟩ := readSource_ok h
  rw [String.toList_ofList] at hcount
  have hread : readDeclarations (scan (.start i.source contextLines)) =
      ⟨heardIn (String.ofList i.source) contextLines, .ok count⟩ := by
    rw [heardIn, String.toList_ofList, ← hcount]
  obtain ⟨heard', hread', hclauses⟩ := hi.readDeclarations hread
  rw [readSource_eq_conclude, conclude, String.toList_ofList, hread', actAll_congr hact hclauses]

/-- Noise right behind a star and right in front of the name, in a declaration with a dimension that
the evaluator is asked for. -/
theorem readSource_noise_star :
    let s := start {} ⟨[]⟩ .standard
    let eval : Evaluator := fun _ => .ok 3
    ∃ i : Insertion, ∃ s', i.source = "typedef int *t[N];".toList ∧
      i.result = "typedef int *const __attribute__((x))t[N];".toList ∧
      i.IsNoise defaultContextLines ∧ s'.asked = ["N"] ∧
      s.readSource eval (String.ofList i.source) defaultContextLines = (s', .ok ()) ∧
      s.readSource eval (String.ofList i.result) defaultContextLines = (s', .ok ()) := by
  intro s eval
  let i : Insertion :=
    { front := "typedef int *".toList, back := "t[N];".toList
      gap := [], words := "const __attribute__((x))".toList, gap' := []
      oneLine := ⟨by decide +kernel, by decide +kernel, by decide +kernel⟩
      space := by simp [IsSpace], space' := by simp [IsSpace]
      clear := by decide +kernel }
  have hnoise : Noise (scan (.start i.words defaultContextLines)).tokens := by
    let word (text : String) : Token := ⟨1, .identifier text, .start [] 0⟩
    let mark (ch : Char) : Token := ⟨1, .punct ch, .start [] 0⟩
    have hgroup : Balanced '(' ')' [mark '(', word "x", mark ')'] :=
      .group rfl (.other rfl rfl .nil) rfl .nil
    have hnoise : Noise [word "const", word "__attribute__", mark '(', mark '(', word "x",
        mark ')', mark ')'] :=
      .qualifier (by decide +kernel) (.extension (by decide +kernel) rfl hgroup rfl .nil)
    exact hnoise.congr (by decide +kernel)
  have hplace : i.IsNoise defaultContextLines := by
    let scanned := scan (.start i.source defaultContextLines)
    have hclear : ∀ u ∈ scanned.tokens.take 3, u.after.position ≤ i.front.length ∧
        (u.after.position = i.front.length → u.Clears (i.put ++ i.back)) := by decide +kernel
    have hafter : (scanned.tokens.drop 2).head?.map (·.after.position) = some i.front.length := by
      decide +kernel
    have htokens : scanned.tokens.map (·.lexeme) = [.identifier "typedef", .identifier "int",
        .punct '*', .identifier "t", .punct '[', .identifier "N", .punct ']', .punct ';'] := by
      decide +kernel
    rcases hs : scanned.tokens with _ | ⟨typedef, _ | ⟨int, _ | ⟨star, _ | ⟨t, behind⟩⟩⟩⟩ <;>
      simp only [hs, map_cons, map_nil, List.cons.injEq, reduceCtorEq, and_false]
        at htokens
    obtain ⟨htypedef, hint, hstar, ht, -⟩ := htokens
    rw [hs] at hclear hafter
    have hword : Keyword.of? "typedef" = some .typedef := by decide +kernel
    have hbase : Keyword.of? "int" = some (.base (.core .int)) := by decide +kernel
    -- two words, the clause of the type, and the declarator
    let p : Specifiers := { line := typedef.line }
    have hbegin : step (.ofScan scanned) .declaration [] (typedef :: int :: star :: t :: behind) =
        .ok (.goOn none (.specifiers p) [] (typedef :: int :: star :: t :: behind)) := by
      simp [step, stepDeclaration, Token.isPunct, Lexeme.isPunct, keyword?_of_lexeme htypedef,
        htypedef, hword, p]
    have hfirst : step (.ofScan scanned) (.specifiers p) []
        (typedef :: int :: star :: t :: behind) = .ok (.goOn none
          (.specifiers { p with typedef := true }) [] (int :: star :: t :: behind)) := by
      simp [step, stepSpecifiers, htypedef, hword]
    have hsecond : step (.ofScan scanned) (.specifiers { p with typedef := true }) []
        (int :: star :: t :: behind) = .ok (.goOn none
          (.specifiers { p with typedef := true, base := { core := some .int } }) []
          (star :: t :: behind)) := by
      simp [step, stepSpecifiers, hint, hbase, BaseWords.add, p]
    have htype : step (.ofScan scanned)
        (.specifiers { p with typedef := true, base := { core := some .int } }) []
        (star :: t :: behind) = .ok (.goOn (some ⟨.base "int" false p.line, star.after⟩)
          (.specifiers { p with typedef := true, found := true }) [] (star :: t :: behind)) := by
      simp [step, stepSpecifiers, endSpecifiers, hstar, BaseWords.isEmpty, BaseWords.spelling?,
        BaseWords.unsignedPart?, p]
    have hend : step (.ofScan scanned) (.specifiers { p with typedef := true, found := true }) []
        (star :: t :: behind) = .ok (.goOn none (.declarator true) [] (star :: t :: behind)) := by
      simp [step, stepSpecifiers, endSpecifiers, Token.isPunct, Lexeme.isPunct, hstar]
    have hleads := Leads.cons (by simp) hbegin (.cons (by simp) hfirst (.cons (by simp) hsecond
      (.cons (by simp) htype (.cons (by simp) hend (.refl _)))))
    have hopens : Opens (star :: t :: behind) (t :: behind) :=
      .star (.stop _) (by simp [Token.isPunct, Lexeme.isPunct, hstar]) (.noise (.stop _))
    refine ⟨hnoise, 0, _, ⟨.declarator true, [], star :: t :: behind⟩, [typedef, int, star], t,
      behind, hs, ⟨fun u hu => (hclear u hu).1, fun u hu => (hclear u hu).2, ?_⟩, hs ▸ hleads,
      .opening hopens (Nat.lt_succ_self _)⟩
    exact .inr ⟨star, rfl, by simp [hstar, Lexeme.spelling], i.front, [], .nil,
      (append_nil _).symm, Option.some.inj hafter⟩
  have hok : (s.readSource eval (String.ofList i.source) defaultContextLines).2.isOk = true := by
    decide +kernel
  obtain ⟨u, hu⟩ := exists_ok_of_isOk hok
  have hread : s.readSource eval (String.ofList i.source) defaultContextLines = (_, .ok ()) :=
    Prod.ext rfl hu
  exact ⟨i, _, by decide +kernel, by decide +kernel, hplace, by decide +kernel, hread,
    readSource_noise hplace hread⟩

end Session

end TypeLayout
