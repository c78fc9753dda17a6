import TypeLayout.Proofs.SideBySide

/-!
# Reading takes tokens from the front

Every function that reads declarations leaves a suffix of the tokens it was given. So
whatever holds of all tokens of a source holds of the tokens that are left at any
moment, and what is found in a clause was found in the source. Side by side with itself
(`Sides.same`) a list of tokens shows this for all readers at once.

The one property needed later is that identifiers are made of the characters of
identifiers, so that no name has a blank or a line break in it. Tags are bound under spellings
such as `struct foo`, and this is what keeps a typedef name from being taken for one of them.
-/

namespace TypeLayout

variable {c : Cursor} {h : Heard} {s : String} {t : Token}

/-- **A list of tokens side by side with itself.** What is left is a suffix of the tokens, names are
identifiers among them, and faults are those of the grammar or the one that ends the tokens. -/
def Sides.same (e : Ending) (source : List Token) : Sides where
  e := e
  e' := e
  shift := 0
  rel t t' := t' = t ∧ (t ∈ source ∨ e = .ok t)
  stand ts us := us = ts ∧ ts <:+ source
  blame f f' := f' = f ∧ (e = .error f ∨ ∃ g, f.error = .grammar g)
  word x := ∃ t, (t ∈ source ∨ e = .ok t) ∧ t.lexeme = .identifier x
  spare := none
  lexeme h := by rw [h.1]
  line h := by rw [h.1]; rfl
  text h h' := by rw [h.1, h'.1]
  identifier h hx := ⟨_, h.2, hx⟩
  fault line error h := by
    rw [h.1]
    exact ⟨rfl, .inr ⟨error, rfl⟩⟩
  front {_ ts} h := by
    obtain ⟨rfl, hs⟩ := h
    cases ts with
    | cons t ts =>
      exact .inl ⟨t, t, ts, ts, rfl, rfl, ⟨rfl, .inl (hs.subset List.mem_cons_self)⟩, rfl,
        (List.suffix_cons t ts).trans hs⟩
    | nil =>
      refine .inr (.inl ⟨rfl, rfl, ?_⟩)
      cases he : e with
      | ok t => exact .inl ⟨t, t, rfl, rfl, rfl, .inr rfl⟩
      | error f => exact .inr ⟨f, f, rfl, rfl, rfl, .inl rfl⟩

section Left

variable {e : Ending} {ts rest : List Token} {place : Place} {stack : List Specifiers}

theorem Sides.at_same (b : ℕ) : (Sides.same e ts).At b ts ts := .inl ⟨rfl, List.suffix_refl ts⟩

theorem Sides.not_past_same {n : ℕ} : ¬ (Sides.same e ts).Past n := by
  rintro ⟨m, hm, -⟩
  cases hm

theorem suffix_skipNoise (h : skipNoise e ts = .ok rest) : rest <:+ ts := by
  obtain ⟨_, -, hs⟩ := (skipNoise_alike (Sides.at_same 0)).exists_ok h Sides.not_past_same
  exact hs.2

theorem suffix_takePunct {c : Char} {b : Bool} (h : takePunct e c ts = .ok (b, rest)) :
    rest <:+ ts := by
  obtain ⟨_, -, -, hs⟩ := (takePunct_alike c (Sides.at_same 0)).exists_ok h Sides.not_past_same
  exact hs.2

theorem suffix_skipValue {initialized : Bool} (h : skipValue e initialized ts = .ok rest) :
    rest <:+ ts := by
  have halike := skipValue_alike (S := .same e ts) (p := (initialized, ts)) (q := (initialized, ts))
    (b := 0) (.inl ⟨rfl, rfl, List.suffix_refl ts⟩)
  obtain ⟨_, -, hs⟩ := halike.exists_ok h Sides.not_past_same
  exact hs.2

/-- **A step takes tokens from the front.** -/
theorem suffix_step {place' : Place} {stack' : List Specifiers} {heard : Option Heard}
    (h : step e place stack ts = .ok (.goOn heard place' stack' rest)) : rest <:+ ts := by
  obtain ⟨_, -, honward⟩ := (step_alike place (Sides.at_same 0)).exists_ok h Sides.not_past_same
  obtain ⟨_, _, -, -, hs⟩ := honward.inv
  exact hs.2

/-- All that is read, side by side with itself. -/
theorem agree_readFrom (e : Ending) (place : Place) (stack : List Specifiers) (ts : List Token) :
    (Sides.same e ts).Agree (readFrom e place stack ts) (readFrom e place stack ts) := by
  have hagree : (Sides.same e ts).Agree (readFrom e place stack ts)
      (readFrom e (place.move 0) (stack.map (Specifiers.move 0)) ts) :=
    readFrom_alike rfl place stack ⟨rfl, List.suffix_refl ts⟩
  rwa [Place.move_zero, map_move_zero] at hagree

/-- **Every name that a clause mentions is an identifier of the source.** -/
theorem exists_identifier {x : String} (hh : h ∈ (readFrom e place stack ts).heard)
    (hx : x ∈ h.clause.names) : ∃ t, (t ∈ ts ∨ e = .ok t) ∧ t.lexeme = .identifier x :=
  ((List.forall₂_and_left _ _).mp ((agree_readFrom e place stack ts).heard.imp fun _ _ h =>
    ⟨h.names, h⟩)).1 h hh x hx

end Left

/-! ### Characters of identifiers -/

/-- A text without a blank in it. -/
def Plain (s : String) : Prop := ' ' ∉ s.toList

instance (s : String) : Decidable (Plain s) := inferInstanceAs (Decidable (' ' ∉ s.toList))

/-- A text made of the characters of identifiers. -/
def IsWord (s : String) : Prop := ∀ c ∈ s.toList, isIdentifierChar c = true

theorem IsWord.plain (h : IsWord s) : Plain s :=
  fun hb => absurd (h ' ' hb) (by decide)

theorem isWord_nextToken (h : nextToken c = .ok t) (ht : t.lexeme = .identifier s) : IsWord s := by
  unfold nextToken at h
  split at h
  · simp at h
  · split at h
    · obtain rfl := Except.ok.inj h
      simp at ht
    · unfold readToken at h
      dsimp only at h
      split at h
      · split at h
        · obtain rfl := Except.ok.inj h
          simp at ht
        · simp at h
        · simp at h
      · split at h
        · obtain rfl := Except.ok.inj h
          obtain rfl := Lexeme.identifier.inj ht
          intro ch hch
          rw [String.toList_ofList] at hch
          exact List.mem_takeWhile_imp hch
        · split at h
          · split at h
            · simp at h
            · obtain rfl := Except.ok.inj h
              dsimp only at ht
              split at ht <;> simp at ht
          · split at h
            · obtain rfl := Except.ok.inj h
              simp at ht
            · simp at h

theorem isWord_scan (c : Cursor) (h : t ∈ (scan c).tokens ∨ Ending.ofScan (scan c) = .ok t)
    (ht : t.lexeme = .identifier s) : IsWord s := by
  fun_induction scan c with
  | case1 => simp [Ending.ofScan] at h
  | case2 c u hu hend =>
    -- the end of the source is not an identifier
    obtain rfl : u = t := by simpa [Ending.ofScan] using h
    simp [hend] at ht
  | case3 c u hu _ more ih =>
    rcases h with h | h
    · rcases List.mem_cons.mp h with rfl | h
      · exact isWord_nextToken hu ht
      · exact ih (.inl h)
    · exact ih (.inr h)

/-- **The names that a source mentions are words.** -/
theorem isWord_readDeclarations {x : String} (hh : h ∈ (readDeclarations (scan c)).heard)
    (hx : x ∈ h.clause.names) : IsWord x := by
  obtain ⟨t, ht, hlex⟩ := exists_identifier hh hx
  exact isWord_scan c ht hlex

theorem plain_readDeclarations {d : Declarator} {typedef : Bool}
    (hh : h ∈ (readDeclarations (scan c)).heard) (hd : h.clause = .declare d typedef) :
    Plain d.name :=
  (isWord_readDeclarations hh (by simp [hd, Clause.names])).plain

end TypeLayout
