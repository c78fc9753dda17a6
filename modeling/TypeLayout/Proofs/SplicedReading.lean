import TypeLayout.Proofs.DeclaratorSpellings
import TypeLayout.Proofs.ReaderRuns

/-!
# Reading declarations in front of other tokens

A reader looks at the tokens that it takes and at one more. So if some tokens are left unread, what
comes after the first of them makes no difference, and neither does anything about the others that
no reader looks at: only lexemes, lines and the text between brackets count (`Pairing`). Tokens that
match those of another list up to some place (`Echo`) are read side by side with them
(`Pairing.sides`), by the readers, in steps and in all that is read.

Where a reader takes its last token itself, nothing has to be left unread.
-/

namespace TypeLayout

/-! ### Tokens that match -/

/-- **Tokens that no reader can tell apart**: they have the same lexeme and the same line, and where
they are brackets the text between them is the same. -/
structure Pairing where
  rel : Token → Token → Prop
  lexeme {t t' : Token} : rel t t' → t'.lexeme = t.lexeme
  line {t t' : Token} : rel t t' → t'.line = t.line
  text {t t' u u' : Token} : rel t t' → rel u u' →
    t'.after.textUntil u'.after 1 = t.after.textUntil u.after 1

/-- **Tokens that match up to a place**, and behind it two lists that need not. -/
inductive Echo (R : Pairing) (tail tail' : List Token) : List Token → List Token → Prop
  | done : Echo R tail tail' tail tail'
  | cons {t t' : Token} {ts ts' : List Token} (ht : R.rel t t') (h : Echo R tail tail' ts ts') :
    Echo R tail tail' (t :: ts) (t' :: ts')

section Tokens

variable {R : Pairing} {t t' : Token}

theorem isPunct_congr (h : t'.lexeme = t.lexeme) (c : Char) : t'.isPunct c = t.isPunct c := by
  rw [Token.isPunct, h, Token.isPunct]

theorem keyword?_congr (h : t'.lexeme = t.lexeme) : t'.keyword? = t.keyword? := by
  rw [Token.keyword?, h, Token.keyword?]

theorem Pairing.isPunct (h : R.rel t t') (c : Char) : t'.isPunct c = t.isPunct c :=
  isPunct_congr (R.lexeme h) c

theorem Pairing.keyword? (h : R.rel t t') : t'.keyword? = t.keyword? :=
  keyword?_congr (R.lexeme h)

end Tokens

variable {R : Pairing} {tail tail' ts ts' us rest : List Token} {t : Token} {e : Ending}

namespace Echo

/-- In front of the place tokens match one by one. -/
theorem uncons (h : Echo R tail tail' (t :: ts) us) (hl : tail.length ≤ ts.length) :
    ∃ t' ts', us = t' :: ts' ∧ R.rel t t' ∧ Echo R tail tail' ts ts' := by
  cases h with
  | done =>
    rw [List.length_cons] at hl
    omega
  | cons ht h => exact ⟨_, _, rfl, ht, h⟩

theorem length_le (h : Echo R tail tail' ts us) : tail.length ≤ ts.length := by
  induction h with
  | done => exact le_rfl
  | cons _ _ ih => exact ih.trans (Nat.le_succ _)

/-- At the place itself the other list is behind its place, too. -/
theorem eq_tail (h : Echo R tail tail' tail us) : us = tail' := by
  cases h with
  | done => rfl
  | cons _ h =>
    have hlength := h.length_le
    rw [List.length_cons] at hlength
    omega

end Echo

/-! ### Readers and steps -/

/-- **Lists that match up to a place**, side by side. -/
def Pairing.sides (R : Pairing) (e e' : Ending) (tail tail' : List Token) : Sides where
  e := e
  e' := e'
  shift := 0
  rel := R.rel
  stand := Echo R tail tail'
  blame _ _ := True
  word _ := True
  spare := some tail.length
  lexeme := R.lexeme
  line := R.line
  text := R.text
  identifier _ _ := trivial
  fault _ _ _ := trivial
  front h := by
    cases h with
    | done => exact .inr (.inr rfl)
    | cons ht h => exact .inl ⟨_, _, _, _, rfl, rfl, ht, h⟩

section Sides

variable {e' : Ending} {n : ℕ}

theorem Pairing.past_iff : (R.sides e e' tail tail').Past n ↔ n ≤ tail.length := by
  simp [Sides.Past, Pairing.sides]

/-- No group begins behind the place. -/
theorem Pairing.quiet (h : NoSuffix tail') : (R.sides e e' tail tail').Quiet := by
  intro ts us (hs : Echo R tail tail' ts us) hplace
  have hl : tail.length = ts.length := Option.some.inj hplace
  cases hs with
  | done => exact h
  | cons _ hs =>
    have := hs.length_le
    rw [List.length_cons] at hl
    omega

/-- **What is found is found in front of other tokens, too**, if it spares those behind the place. -/
theorem Pairing.found {α α' : Type} {size : α → ℕ} {A : α → α' → Prop} {a : α} {x : Except Fault α}
    {x' : Except Fault α'} {f : Ending} (h : (R.sides e f tail tail').Alike size n A x x')
    (hx : x = .ok a) (hl : tail.length < size a) : ∃ a', x' = .ok a' ∧ A a a' :=
  h.exists_ok hx fun hp => absurd (R.past_iff.mp hp) (Nat.not_le.mpr hl)

end Sides

/-- The same clause, said in front of tokens that match. -/
def Pairing.Hears (R : Pairing) (h h' : Heard) : Prop :=
  h'.clause = h.clause ∧ ∃ t t', R.rel t t' ∧ h.seen = t.after ∧ h'.seen = t'.after

/-- Some tokens of a list are left in front of a place, or none if a declaration is complete. -/
def Spares (tail : List Token) (place : Place) (rest : List Token) : Prop :=
  tail.length < rest.length + if place = .declaration then 1 else 0

/-- **A step that goes on in the same way**: to the same place, with the same clause. -/
def StepsAlike (R : Pairing) (tail tail' : List Token) (heard : Option Heard) (place : Place)
    (stack : List Specifiers) (rest : List Token) (x : Except Fault Step) : Prop :=
  ∃ heard' rest', x = .ok (.goOn heard' place stack rest') ∧
    Option.Rel R.Hears heard heard' ∧ Echo R tail tail' rest rest'

section Steps

variable {e' : Ending} {b n : ℕ} {stack stack' : List Specifiers} {heard : Option Heard}
  {place place' : Place}

/-- Steps that lead to the same place go on in the same way. -/
theorem stepsAlike_of_alike {p : Place} (halike : (R.sides e e' tail tail').Alike (Step.size b) n
      (R.sides e e' tail tail').Onward (step e p stack ts)
      (step e' (p.move 0) (stack.map (Specifiers.move 0)) ts'))
    (h : step e p stack ts = .ok (.goOn heard place' stack' rest))
    (hl : tail.length < rest.length + if place' = .declaration then 1 else b) :
    StepsAlike R tail tail' heard place' stack' rest (step e' p stack ts') := by
  rw [Place.move_zero, map_move_zero] at halike
  obtain ⟨r, hr, honward⟩ := R.found halike h hl
  obtain ⟨heard', rest', rfl, hheard, hs⟩ := honward.inv
  refine ⟨heard', rest', ?_, ?_, hs⟩
  · rw [hr]
    exact congrArg₂ (fun place stack => Except.ok (Step.goOn heard' place stack rest'))
      place'.move_zero (map_move_zero stack')
  · cases hheard with
    | none => exact .none
    | some hh => exact .some ⟨hh.clause.trans (Clause.move_zero _), hh.seen⟩

theorem step_echo (e' : Ending) (h : step e place stack ts = .ok (.goOn heard place' stack' rest))
    (hs : Echo R tail tail' ts ts') (hl : Spares tail place' rest) :
    StepsAlike R tail tail' heard place' stack' rest (step e' place stack ts') :=
  stepsAlike_of_alike (step_alike place (.inl hs)) h hl

end Steps

/-! ### Runs -/

section Runs

variable {n k : ℕ} {a b : Station} {heard : List Heard}

theorem map_clause_of_hears {heard' : List Heard} (h : List.Forall₂ R.Hears heard heard') :
    heard'.map Heard.clause = heard.map Heard.clause :=
  map_eq_of_forall₂ h fun _ _ h => h.1

/-- **A run is the same** in front of other tokens, if it spares those behind the place. -/
theorem Reads.echo (e' : Ending) (h : Reads e n k a heard b) (hs : Echo R tail tail' a.rest ts')
    (hl : Spares tail b.place b.rest) :
    ∃ heard' rest', Reads e' n k ⟨a.place, a.stack, ts'⟩ heard' ⟨b.place, b.stack, rest'⟩ ∧
      List.Forall₂ R.Hears heard heard' ∧ Echo R tail tail' b.rest rest' := by
  induction h generalizing ts' with
  | refl a => exact ⟨[], ts', .refl _, .nil, hs⟩
  | @step n k a b c heard more h hmore ih =>
    have hspares : Spares tail b.place b.rest := by
      rcases n with _ | n
      · cases hmore
        exact hl
      · have hlength := hmore.suffix.length_le
        unfold Spares at hl ⊢
        split at hl
        · rename_i hp
          have := hmore.taken n.succ_pos (hp ▸ b.place.rank_le)
          omega
        · omega
    obtain ⟨heard', rest', hstep, hheard, hs⟩ := step_echo e' h hs hspares
    obtain ⟨more', rest'', hreads, hmore, hs⟩ := ih hs hl
    exact ⟨heard'.toList ++ more', rest'', .step (b := ⟨b.place, b.stack, rest'⟩) hstep hreads,
      List.rel_append (forall₂_toList hheard) hmore, hs⟩

/-- **All that is read is the same**, up to where the matching tokens end; the other tokens are read
from there on. -/
theorem readFrom_echo (e' : Ending) {place : Place} {stack : List Specifiers}
    (h : readFrom e place stack ts = ⟨heard, .ok k⟩) (hs : Echo R [] tail' ts ts') :
    ∃ heard', List.Forall₂ R.Hears heard heard' ∧
      readFrom e' place stack ts' = ⟨heard' ++ (readFrom e' .declaration [] tail').heard,
        (readFrom e' .declaration [] tail').outcome.map (· + k)⟩ := by
  obtain ⟨n, k', heard₁, last, hreads, ⟨hlast, hread⟩ | ⟨f, -, hread⟩⟩ :=
    exists_reads_readFrom e place stack ts
  · obtain ⟨rfl, rfl⟩ : heard₁ = heard ∧ k' = k := by simpa using hread.symm.trans h
    obtain ⟨hplace, hstack, hrest, -⟩ := step_eq_finished hlast
    obtain ⟨heard', rest', hreads', hheard, hs⟩ :=
      hreads.echo e' hs (by simp [Spares, hplace, hrest])
    rw [hrest] at hs
    obtain rfl := hs.eq_tail
    rw [hplace, hstack] at hreads'
    exact ⟨heard', hheard, hreads'.readFrom⟩
  · simp [h] at hread

end Runs

end TypeLayout
