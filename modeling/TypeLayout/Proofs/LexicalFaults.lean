import Mathlib
import TypeLayout.Proofs.EmitErrors
import TypeLayout.Proofs.Passes
import TypeLayout.Proofs.Suffixes

/-!
# A fault in the text is found by every stage alike

The tokens of a source are found before its declarations are read, and the readers see
a fault in the text only as the ending of their list of tokens. They make no lexical
fault of their own: whatever reading fails with is an error of the grammar or the
ending itself (`blames_readFrom`). Reading to the end, on the other hand, looks at the
ending, so it succeeds only over a text that has no fault.

Together these say that dividing a source into tokens is all there is to know about its
lexical faults (`lexer_agrees`): the other passes hand on what the scan has found, with
its line and the lines shown with it, or fail for another reason.
-/

namespace TypeLayout

variable {contextLines : ℕ} {eval : Evaluator} {failure : Failure} {s s' : Session}
  {source : String}

/-! ### The whole source -/

section Ends

variable {e : Ending} {stack : List Specifiers} {ts : List Token}

/-- **Reading is at its end only in front of the end of the source, at file scope.** -/
theorem step_eq_finished {place : Place} (h : step e place stack ts = .ok .finished) :
    place = .declaration ∧ stack = [] ∧ ts = [] ∧ ∃ t, e = .ok t := by
  cases goes_of_step h with
  | finish he => exact ⟨rfl, rfl, rfl, _, he⟩

end Ends

/-- **Reading fails with an error of the grammar**, or with what ends the tokens. -/
theorem blames_readFrom {e : Ending} {place : Place} {stack : List Specifiers} {ts : List Token}
    {f : Fault} (h : (readFrom e place stack ts).outcome = .error f) :
    e = .error f ∨ ∃ g, f.error = .grammar g := by
  obtain ⟨_, -, -, hf⟩ := (agree_readFrom e place stack ts).error f h
  exact hf

/-- Reading that comes to the end has looked at the ending. -/
theorem exists_ending_of_readFrom (e : Ending) (place : Place) (stack : List Specifiers)
    (ts : List Token) :
    ∀ count, (readFrom e place stack ts).outcome = .ok count → ∃ t, e = .ok t := by
  fun_induction readFrom e place stack ts with
  | case1 => simp
  | case2 place stack ts hstep =>
    intro count _
    exact (step_eq_finished hstep).2.2.2
  | case3 place stack ts heard place' stack' rest hstep more ih =>
    intro count h
    obtain ⟨count', hm, -⟩ := exists_of_map_eq_ok h
    exact ih count' hm

/-! ### The passes -/

/-- A failure that is not about the text of a token. -/
def Failure.Grammatical (f : Failure) : Prop := ∀ e, f.diagnostic.problem ≠ .lexer e

theorem Session.grammatical_failGrammar (s : Session) (line : ℕ) (e : ParseError String)
    (seen : Cursor) : (s.failGrammar line e seen).2.Grammatical := by
  simp [failGrammar, Failure.Grammatical]

theorem Session.grammatical_failStop (s : Session) (stop : Stop) :
    (s.failStop stop).2.Grammatical := by
  unfold failStop
  split
  · exact s.grammatical_failGrammar _ _ _
  · simp [Failure.Grammatical]

/-- Declarations that can be read are written in tokens. -/
theorem Session.scanOnly_of_readSource_ok (h : s.readSource eval source contextLines = (s', .ok ()))
    (s₀ : Session) : (s₀.scanOnly source contextLines).result = .ok {} := by
  rw [readSource_eq_conclude, conclude] at h
  split at h
  · simp at h
  · split at h
    · simp at h
    · rename_i count hcount
      obtain ⟨t, ht⟩ := exists_ending_of_readFrom _ _ _ _ count hcount
      unfold Ending.ofScan at ht
      unfold scanOnly
      split at ht
      · rename_i hend
        simp [hend]
      · simp at ht

/-- A lexical failure of reading is the failure of the scan. -/
theorem Session.scanOnly_of_readSource_error {e : LexError}
    (h : s.readSource eval source contextLines = (s', .error failure))
    (hlex : failure.diagnostic.problem = .lexer e) (s₀ : Session) :
    (s₀.scanOnly source contextLines).result = .error failure := by
  rw [readSource_eq_conclude, conclude] at h
  split at h
  · rename_i stop _
    obtain rfl := Except.error.inj (Prod.mk.inj h).2
    exact absurd hlex (grammatical_failStop _ stop e)
  · split at h
    · rename_i fault hfault
      obtain rfl := Except.error.inj (Prod.mk.inj h).2
      rcases blames_readFrom hfault with hend | ⟨g, hg⟩
      -- reading has come to where the scan stopped, and hands on its fault
      · unfold Ending.ofScan at hend
        split at hend
        · simp at hend
        · rename_i f hf
          obtain rfl := Except.error.inj hend
          simp [scanOnly, failRead, hf]
      · rw [failRead, hg] at hlex
        exact absurd hlex (grammatical_failGrammar _ _ g _ e)
    · simp at h

theorem Session.problem_of_layOut {optimize : Bool} (h : s.layOut optimize = (s', .error failure)) :
    ∃ e, failure.diagnostic.problem = .layout e := by
  unfold layOut at h
  split at h
  · obtain rfl := Except.error.inj (Prod.mk.inj h).2
    exact ⟨_, rfl⟩
  · dsimp only at h
    split at h
    · obtain rfl := Except.error.inj (Prod.mk.inj h).2
      exact ⟨_, rfl⟩
    · cases h

section Compile

variable {source : String} {names : Names} {keys : KeyList} {options : Options} {eval : Evaluator}

/-- **How a compilation fails** that gets past the division into tokens: its declarations are
refused, or the error is about the layout or about the table. -/
theorem compile_error_cases {stopAfter : Stage} (hstage : stopAfter ≠ .lexer)
    (h : (compile source names keys options eval stopAfter).result = .error failure) :
    (∃ s, (Session.start names keys options.target).readSource eval source
      options.contextLines = (s, .error failure)) ∨
    (∃ e, failure.diagnostic.problem = .layout e) ∨ ∃ e, failure.diagnostic.problem = .emit e := by
  rw [compile, if_neg hstage] at h
  split at h
  · rename_i s failure' hread
    obtain rfl := Except.error.inj h
    exact .inl ⟨s, hread⟩
  dsimp only at h
  split at h
  · cases h
  split at h
  · rename_i hlay
    obtain rfl := Except.error.inj h
    exact .inr (.inl (Session.problem_of_layOut hlay))
  split at h
  · cases h
  split at h
  · obtain rfl := Except.error.inj h
    exact .inr (.inr ⟨_, rfl⟩)
  · cases h

end Compile

/-- **The scan knows every lexical fault.** A source whose declarations can be read can be
divided into tokens; and when a compilation, up to whatever stage, fails over the text of
a token, then dividing the source into tokens fails in the same way: with the same error,
the same line and the same lines shown with it. -/
theorem lexer_agrees (source : String) (names : Names) (keys : KeyList) (options : Options)
    (eval : Evaluator) :
    ((∃ c, (compile source names keys options eval .parser).result = .ok c) →
      ∃ c, (compile source names keys options eval .lexer).result = .ok c) ∧
    ∀ stage failure e, (compile source names keys options eval stage).result = .error failure →
      failure.diagnostic.problem = .lexer e →
      (compile source names keys options eval .lexer).result = .error failure := by
  constructor
  · rintro ⟨c, hc⟩
    rcases compile_ok_cases hc with ⟨hstage, -⟩ | ⟨s, hread, -⟩
    · cases hstage
    · exact ⟨{}, Session.scanOnly_of_readSource_ok hread _⟩
  · intro stage failure e hfail hlex
    by_cases hstage : stage = .lexer
    · exact hstage ▸ hfail
    · rcases compile_error_cases hstage hfail with ⟨s, hread⟩ | ⟨e', he'⟩ | ⟨e', he'⟩
      · exact Session.scanOnly_of_readSource_error hread hlex _
      · cases hlex.symm.trans he'
      · cases hlex.symm.trans he'

/-- A comment that is never closed, after a declaration that can be read. -/
theorem lexer_agrees_comment :
    let run := fun source stage =>
      let key := KeyList.makeKey {} .struct "x" 1
      compile source key.2 ⟨[key.1]⟩ {} (fun _ => .error .noCompiler) stage
    let closed := "struct x { int j; };"
    let unclosed := "struct x { int j; };\n/* open"
    let failure : Failure := ⟨⟨2, .lexer .unterminatedComment⟩,
      [⟨1, "struct x { int j; };"⟩, ⟨2, "/* open"⟩]⟩
    (∃ c, (run closed .parser).result = .ok c) ∧ (∃ c, (run closed .lexer).result = .ok c) ∧
      (run unclosed .emit).result = .error failure ∧
      (run unclosed .lexer).result = .error failure := by
  intro run closed unclosed failure
  have hparsed : ∃ c, (run closed .parser).result = .ok c := by
    have hnone : (run closed .parser).failure? = none := by decide +kernel
    cases hresult : (run closed .parser).result with
    | ok c => exact ⟨c, rfl⟩
    | error f => simp [Run.failure?, hresult] at hnone
  have hfails : (run unclosed .emit).failure? = some failure := by decide +kernel
  have hfailed := Run.result_of_failure? hfails
  exact ⟨hparsed, (lexer_agrees _ _ _ _ _).1 hparsed, hfailed,
    (lexer_agrees _ _ _ _ _).2 .emit failure _ hfailed rfl⟩

end TypeLayout
