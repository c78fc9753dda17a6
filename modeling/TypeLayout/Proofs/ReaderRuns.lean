import TypeLayout.Proofs.LexicalFaults

/-!
# Runs of the reader

The reader goes from station to station: its place, the bodies that are open, and the tokens that
are left. A run (`Reads`) is some steps in a row, with the clauses that they say and the number of
declarations that they complete. Every step takes tokens from the front or lowers the rank of the
place, so a run is short (`Reads.measure`), and one that comes back to a place of the same rank has
taken a token (`Reads.taken`). Nor does a body end without a token being taken (`Reads.closed`).

From any station the reader comes to a last one, where it has finished or fails, and what has been
said on the way is all that is read (`exists_reads_readFrom`).
-/

namespace TypeLayout

/-- **Where the reader stands.** -/
structure Station where
  place : Place
  stack : List Specifiers
  rest : List Token

/-- **Steps of the reader**, so many in a row, with the number of declarations at file scope that
they complete, and the clauses that they say. -/
inductive Reads (e : Ending) : (steps done : ℕ) → Station → List Heard → Station → Prop
  | refl (a : Station) : Reads e 0 0 a [] a
  | step {n k : ℕ} {a b c : Station} {heard : Option Heard} {more : List Heard}
    (h : step e a.place a.stack a.rest = .ok (.goOn heard b.place b.stack b.rest))
    (hmore : Reads e n k b more c) :
    Reads e (n + 1) (k + completes b.place b.stack) a (heard.toList ++ more) c

variable {e : Ending} {j k m n : ℕ} {a b c : Station} {heard heard' : List Heard}

namespace Reads

theorem trans (h : Reads e m j a heard b) (h' : Reads e n k b heard' c) :
    Reads e (m + n) (j + k) a (heard ++ heard') c := by
  induction h with
  | refl => simpa using h'
  | step h _ ih =>
    rw [List.append_assoc, Nat.succ_add, Nat.add_right_comm]
    exact .step h (ih h')

theorem single {heard : Option Heard}
    (h : TypeLayout.step e a.place a.stack a.rest = .ok (.goOn heard b.place b.stack b.rest)) :
    Reads e 1 (completes b.place b.stack) a heard.toList b := by
  simpa using Reads.step h (.refl b)

/-- Tokens are taken from the front. -/
theorem suffix (h : Reads e n k a heard b) : b.rest <:+ a.rest := by
  induction h with
  | refl => exact List.suffix_refl _
  | step h _ ih => exact ih.trans (suffix_step h)

/-- **Every step counts.** -/
theorem measure (h : Reads e n k a heard b) :
    4 * b.rest.length + b.place.rank + n ≤ 4 * a.rest.length + a.place.rank := by
  induction h with
  | refl => exact le_rfl
  | @step n k a b c heard more h _ ih =>
    have hrank := b.place.rank_le
    rcases step_progress h with hl | ⟨hl, hr⟩ <;> omega

/-- **Coming back takes a token**, to the same place or to one that is not lower. -/
theorem taken (h : Reads e n k a heard b) (hn : 0 < n) (hr : a.place.rank ≤ b.place.rank) :
    b.rest.length < a.rest.length := by
  have := h.measure
  omega

/-- **A run is the beginning of what is read.** -/
theorem readFrom (h : Reads e n k a heard b) :
    readFrom e a.place a.stack a.rest =
      ⟨heard ++ (readFrom e b.place b.stack b.rest).heard,
        (readFrom e b.place b.stack b.rest).outcome.map (· + k)⟩ := by
  induction h with
  | refl a =>
    generalize TypeLayout.readFrom e a.place a.stack a.rest = reading
    obtain ⟨heard, outcome⟩ := reading
    cases outcome <;> rfl
  | @step n k a b c heard more h _ ih =>
    rw [readFrom_eq, h]
    dsimp only
    rw [ih, List.append_assoc]
    cases (TypeLayout.readFrom e c.place c.stack c.rest).outcome with
    | error f => rfl
    | ok count => simp [Except.map, Nat.add_assoc]

end Reads

/-- **A run of some length.** -/
def Leads (e : Ending) (done : ℕ) (a : Station) (heard : List Heard) (b : Station) : Prop :=
  ∃ n, Reads e n done a heard b

namespace Leads

theorem refl (a : Station) : Leads e 0 a [] a := ⟨0, .refl a⟩

theorem suffix (h : Leads e k a heard b) : b.rest <:+ a.rest := by
  obtain ⟨n, h⟩ := h
  exact h.suffix

theorem trans (h : Leads e j a heard b) (h' : Leads e k b heard' c) :
    Leads e (j + k) a (heard ++ heard') c := by
  obtain ⟨m, h⟩ := h
  obtain ⟨n, h'⟩ := h'
  exact ⟨m + n, h.trans h'⟩

section Steps

variable {place place' : Place} {stack stack' : List Specifiers} {ts rest : List Token}
  {heard : Option Heard} {more : List Heard}

/-- A step in front, to another place than that before a declaration. -/
theorem cons (hp : place' ≠ .declaration)
    (h : step e place stack ts = .ok (.goOn heard place' stack' rest))
    (hmore : Leads e k ⟨place', stack', rest⟩ more c) :
    Leads e k ⟨place, stack, ts⟩ (heard.toList ++ more) c := by
  obtain ⟨n, hmore⟩ := hmore
  have hnone : completes place' stack' = 0 := if_neg fun hc => hp hc.1
  have hreads := Reads.step (a := ⟨place, stack, ts⟩) h hmore
  rw [hnone] at hreads
  exact ⟨n + 1, hreads⟩

/-- The step that completes a declaration. -/
theorem complete (h : step e place stack ts = .ok (.goOn heard .declaration [] rest)) :
    Leads e 1 ⟨place, stack, ts⟩ heard.toList ⟨.declaration, [], rest⟩ :=
  ⟨1, .single (b := ⟨.declaration, [], rest⟩) h⟩

end Steps

end Leads

/-! ### Bodies -/

section Stack

variable {place : Place} {stack stack' : List Specifiers} {ts rest : List Token}
  {heard : Option Heard}

/-- **What a step can do to the bodies that are open**: nothing, or it takes the keyword and the
brace that open one, or the brace that closes one. -/
def Nests (stack stack' : List Specifiers) (ts rest : List Token) : Prop :=
  stack' = stack ∨ (∃ s, stack' = s :: stack ∧ rest.length + 1 < ts.length) ∨
    ∃ s, stack = s :: stack' ∧ rest.length < ts.length

theorem nests_step {place' : Place}
    (h : step e place stack ts = .ok (.goOn heard place' stack' rest)) :
    Nests stack stack' ts rest := by
  cases goes_of_step h with
  | close _ hskip =>
    refine .inr (.inr ⟨_, rfl, ?_⟩)
    simpa [Nat.lt_succ_iff] using length_skipNoise e hskip
  | openBody _ _ htag _ hbody =>
    have := length_readTag htag
    have hbrace : rest.length + 1 ≤ _ := size_takePunct hbody
    refine .inr (.inl ⟨_, rfl, ?_⟩)
    rw [List.length_cons]
    omega
  | _ => exact .inl rfl

end Stack

/-- **A body does not end without a token being taken.** -/
theorem Reads.closed (h : Reads e n k a heard b) (hs : b.stack.length < a.stack.length) :
    b.rest.length < a.rest.length := by
  induction h with
  | refl => exact absurd hs (lt_irrefl _)
  | @step n k a b c heard more h hmore ih =>
    have hrest := (suffix_step h).length_le
    have hmore := hmore.suffix.length_le
    rcases nests_step h with heq | ⟨s, heq, hl⟩ | ⟨s, heq, hl⟩
    · exact (ih (heq ▸ hs)).trans_le hrest
    · omega
    · omega

/-! ### To the end -/

/-- **The reader comes to a last station**, where it has finished or fails. What has been said on
the way is what is read. -/
theorem exists_reads_readFrom (e : Ending) (place : Place) (stack : List Specifiers)
    (ts : List Token) :
    ∃ n k heard last, Reads e n k ⟨place, stack, ts⟩ heard last ∧
      (step e last.place last.stack last.rest = .ok .finished ∧
          readFrom e place stack ts = ⟨heard, .ok k⟩ ∨
        ∃ f, step e last.place last.stack last.rest = .error f ∧
          readFrom e place stack ts = ⟨heard, .error f⟩) := by
  fun_induction readFrom e place stack ts with
  | case1 place stack ts f hstep =>
    exact ⟨0, 0, [], _, .refl _, .inr ⟨f, hstep, rfl⟩⟩
  | case2 place stack ts hstep => exact ⟨0, 0, [], _, .refl _, .inl ⟨hstep, rfl⟩⟩
  | case3 place stack ts heard place' stack' rest hstep more ih =>
    obtain ⟨n, k, heard', last, hreads, hend⟩ := ih
    refine ⟨_, _, _, last, .step (b := ⟨place', stack', rest⟩) hstep hreads, ?_⟩
    rcases hend with ⟨hlast, hmore⟩ | ⟨f, hlast, hmore⟩
    · exact .inl ⟨hlast, by rw [show more = _ from hmore]; rfl⟩
    · exact .inr ⟨f, hlast, by rw [show more = _ from hmore]; rfl⟩

end TypeLayout
