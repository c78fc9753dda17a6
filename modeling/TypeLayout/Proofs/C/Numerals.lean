import TypeLayout.Proofs.TokenGrammar

/-!
# Integer constants are read as they are written

A constant is read to its end, whatever its radix and its suffix, if what follows does not
continue it (`IntLiteral.readNumber_text`). Its value is the one that its digits stand for,
unless a signed word of 64 bits cannot hold it (`IntLiteral.value?_number`).
-/

namespace TypeLayout.C

variable {c : Char}

theorem isHexDigit_of_isDigitOf {r : Radix} (h : r.isDigitOf c = true) : isHexDigit c = true := by
  cases r with
  | decimal => simp_all [Radix.isDigitOf, isHexDigit]
  | octal => simp_all [Radix.isDigitOf, isHexDigit]
  | hex upper => exact h

/-- The letters of a suffix fit as long as there are not too many. -/
theorem letters_of_countP {form : NumberForm} (hform : form ≠ .float) {letters : List Char}
    (s : Suffix) (hall : letters.all (fun c => isU c || isL c) = true)
    (hu : s.unsigned.toNat + letters.countP isU ≤ 1) (hl : s.long + letters.countP isL ≤ 2) :
    Letters form s letters { s with
      unsigned := s.unsigned || decide (0 < letters.countP isU)
      long := s.long + letters.countP isL } := by
  induction letters generalizing s with
  | nil => simpa using Letters.nil s
  | cons c letters ih =>
    rw [List.all_cons, Bool.and_eq_true] at hall
    obtain ⟨hc, hall⟩ := hall
    by_cases hcu : isU c = true
    · have hor : c = 'u' ∨ c = 'U' := by simpa [isU] using hcu
      have hcl : isL c = false := by rcases hor with rfl | rfl <;> rfl
      have hnot : s.unsigned = false := by
        cases hs : s.unsigned with
        | false => rfl
        | true => simp [hs, hcu] at hu
      have hnone : letters.countP isU = 0 := by simpa [hcu, hnot] using hu
      have hih := @ih { s with unsigned := true } hall (by simp [hnone]) (by simpa [hcl] using hl)
      refine .unsigned hor hnot hform ?_
      simpa [hcu, hcl, hnone] using hih
    · have hcl : isL c = true := by simpa [hcu] using hc
      rw [List.countP_cons_of_pos hcl] at hl ⊢
      have hih := @ih { s with long := s.long + 1 } hall (by simpa [hcu] using hu) (by
        show s.long + 1 + _ ≤ 2
        omega)
      refine .long (by simpa [isL] using hcl) (by omega) ?_
      rw [List.countP_cons_of_neg hcu]
      simpa [Nat.add_right_comm s.long 1, Nat.add_assoc] using hih

namespace IntLiteral

variable (n : IntLiteral) {rest : List Char}

theorem mem_suffix (hc : c ∈ n.suffix) : c ∈ ['u', 'U', 'l', 'L'] := by
  simpa [isU, isL, or_assoc] using List.all_eq_true.mp n.letters c hc

/-- The digits of a constant are the body of one. -/
theorem body : NumberBody.Body n.radix.form (n.radix.lead ++ n.digits) := by
  have hproper := n.proper
  have hinteger {digits : List Char} (hd : digits.all isDigit = true)
      (hform : NumberBody.integerForm digits = n.radix.form) :
      NumberBody.Body n.radix.form digits := by
    simpa [hform] using NumberBody.Body.decimal hd (.inl rfl) (.inl rfl)
  obtain ⟨d, ds, hds⟩ := List.exists_cons_of_ne_nil n.filled
  cases hr : n.radix with
  | hex upper =>
    rw [hr] at hproper
    cases upper with
    | false => exact .hex (.inl rfl) n.filled hproper
    | true => exact .hex (.inr rfl) n.filled hproper
  | octal =>
    rw [hr] at hproper hinteger
    refine hinteger ?_ (by simp [NumberBody.integerForm, Radix.lead, Radix.form, hds])
    simp_all [Radix.isDigitOf, Radix.lead, isDigit]
  | decimal =>
    rw [hr] at hproper hinteger
    refine hinteger hproper (if_neg ?_)
    simp only [Bool.and_eq_true, decide_eq_true_eq, not_and]
    intro hzero
    simp [Radix.lead, n.unpadded hr hzero]

/-- **A constant is read to its end.** -/
theorem readNumber_text (hrest : rest.head?.any (fun c => isWordChar c || c == '.') = false) :
    readNumber (n.text ++ rest) = .constant n.text n.radix.form n.number.suffix := by
  have hletters := letters_of_countP
    (show n.radix.form ≠ .float by cases n.radix <;> simp [Radix.form]) {} n.letters (by simpa using n.unsigned)
    (by simpa using n.long)
  refine readNumber_eq_constant_iff.mpr ⟨n.radix.lead ++ n.digits, n.suffix, rest,
    by simp [text], rfl, n.body, by simpa [number] using hletters,
    head_any_imp hrest fun c hc => by simp [hc], fun _ => ?_, fun hoctal => ?_⟩
  · intro hpoint
    cases hs : n.suffix with
    | nil =>
      rw [hs, List.nil_append] at hpoint
      simp [hpoint] at hrest
    | cons c letters =>
      have hletter := n.mem_suffix (c := c) (by simp [hs])
      obtain rfl : c = '.' := by simpa [hs] using hpoint
      simp at hletter
  · have hr : n.radix = .octal := by cases hr : n.radix <;> simp_all [Radix.form]
    have hproper := n.proper
    rw [hr] at hproper ⊢
    rw [List.any_eq_false]
    intro c hc hbad
    have hbad : c = '8' ∨ c = '9' := by simpa using hbad
    rcases List.mem_append.mp hc with hc | hc
    · rcases List.mem_cons.mp hc with rfl | hc
      · simp at hbad
      · have hdigit := List.all_eq_true.mp hproper c hc
        rcases hbad with rfl | rfl <;> simp [Radix.isDigitOf] at hdigit
    · have hletter := n.mem_suffix hc
      rcases hbad with rfl | rfl <;> simp at hletter

/-! ### Values -/

theorem digitsValue_eq (base : ℕ) (digits : List Char) :
    digitsValue base digits = Nat.ofDigits base (digits.reverse.map digitValue) := by
  induction digits using List.reverseRecOn with
  | nil => rfl
  | append_singleton digits c ih =>
    have hfold : digitsValue base (digits ++ [c]) = digitsValue base digits * base + digitValue c := by
      simp [digitsValue]
    rw [hfold, ih, List.reverse_append, List.reverse_singleton, List.singleton_append, List.map_cons,
      Nat.ofDigits_cons]
    ring

/-- Without its suffix a constant ends with its last digit. -/
theorem dropWhile_reverse_text :
    (n.text.reverse.dropWhile ("uUlL".toList.contains ·)).reverse = n.radix.lead ++ n.digits := by
  have hsuffix : n.suffix.reverse.all ("uUlL".toList.contains ·) = true := by
    rw [List.all_reverse, List.all_eq_true]
    intro c hc
    simpa using n.mem_suffix hc
  have hdigit : (n.digits.reverse ++ n.radix.lead.reverse).head?.any
      ("uUlL".toList.contains ·) = false := by
    obtain ⟨ds, d, hds⟩ := List.eq_nil_or_concat n.digits |>.resolve_left n.filled
    have hd : isHexDigit d = true :=
      isHexDigit_of_isDigitOf (List.all_eq_true.mp n.proper d (by simp [hds]))
    rw [hds]
    simp only [List.concat_eq_append, List.reverse_append, List.reverse_singleton,
      List.cons_append, List.head?_cons, Option.any_some]
    rw [Bool.eq_false_iff]
    intro hmem
    have hletter : d ∈ ['u', 'U', 'l', 'L'] := by simpa using hmem
    fin_cases hletter <;> simp [isHexDigit, isDigit] at hd
  have hrev : n.text.reverse = n.suffix.reverse ++ (n.digits.reverse ++ n.radix.lead.reverse) := by
    simp [text]
  rw [hrev, dropWhile_append_of_head hsuffix hdigit]
  simp

/-- **The value of a constant**, unless it is too large. -/
theorem value?_number : n.number.value? = if n.value < 2 ^ 63 then some n.value else none := by
  have hdrop := n.dropWhile_reverse_text
  have hlead : (n.radix.lead ++ n.digits).drop n.radix.lead.length = n.digits := List.drop_left
  unfold Number.value?
  rw [number]
  simp only [String.toList_ofList, hdrop]
  cases hr : n.radix with
  | decimal => simp_all [Radix.form, Radix.lead, value, Radix.base, digitsValue_eq]
  | octal => simp_all [Radix.form, Radix.lead, value, Radix.base, digitsValue_eq]
  | hex upper => cases upper <;> simp_all [Radix.form, Radix.lead, value, Radix.base, digitsValue_eq]

end IntLiteral

end TypeLayout.C
