import TypeLayout.Declaration.Meaning
import TypeLayout.Proofs.C.Numerals
import TypeLayout.Proofs.Lossless

/-!
# Dimensions that are written as a number

A dimension that consists of one numeric constant is worth what the constant says. The scanner
decides the form of the constant while it reads on; the value is computed later, from the text
alone, by taking the letters at its end and what stands in front of its digits away again. The two
agree for every constant that can be scanned: what is left is a row of digits that the form allows
and is not empty (`Writes`, `exists_writes`), so the dimension is the number that these digits
stand for if it is below `2 ^ 63`. Every other constant, a float above all, is refused with the
whole of its text (`dimensionValue_of_number`).
-/

namespace TypeLayout

/-! ### Rows of digits -/

/-- The rank of a digit among the sixteen, in small letters or in capitals. Any other character
comes after all of them. -/
def digitRank (c : Char) : ℕ :=
  min ("0123456789abcdef".toList.idxOf c) ("0123456789ABCDEF".toList.idxOf c)

/-- **The number that a row of digits stands for**, the most significant one first. -/
def rowValue (base : ℕ) (digits : List Char) : ℕ :=
  Nat.ofDigits base (digits.reverse.map digitRank)

variable {c : Char} {digits : List Char}

theorem digitValue_eq_digitRank (h : digitRank c < 16) : digitValue c = digitRank c := by
  have hmem : c ∈ "0123456789abcdef".toList ∨ c ∈ "0123456789ABCDEF".toList := by
    rw [digitRank, min_lt_iff] at h
    exact h.imp List.idxOf_lt_length_iff.mp List.idxOf_lt_length_iff.mp
  rcases hmem with hmem | hmem
  · fin_cases hmem <;> decide
  · fin_cases hmem <;> decide

/-- What holds of all characters of a range holds of one between its ends. -/
theorem holds_of_range {P : Char → Prop} {lo hi : Char}
    (h : ∀ k ≤ hi.toNat, lo.toNat ≤ k → P (Char.ofNat k)) (hlo : lo ≤ c) (hhi : c ≤ hi) : P c := by
  rw [← Char.ofNat_toNat c]
  exact h c.toNat hhi hlo

theorem digitRank_of_isDigit (h : isDigit c = true) :
    digitRank c < 10 ∧ (c ≠ '8' → c ≠ '9' → digitRank c < 8) := by
  simp only [isDigit, Bool.and_eq_true, decide_eq_true_eq] at h
  exact holds_of_range (P := fun c => digitRank c < 10 ∧ (c ≠ '8' → c ≠ '9' → digitRank c < 8))
    (by decide) h.1 h.2

theorem digitRank_of_isHexDigit (h : isHexDigit c = true) : digitRank c < 16 := by
  simp only [isHexDigit, Bool.or_eq_true, Bool.and_eq_true, decide_eq_true_eq] at h
  rcases h with (hdigit | ⟨hlo, hhi⟩) | ⟨hlo, hhi⟩
  · exact (digitRank_of_isDigit hdigit).1.trans (by decide)
  · exact holds_of_range (P := fun c => digitRank c < 16) (by decide) hlo hhi
  · exact holds_of_range (P := fun c => digitRank c < 16) (by decide) hlo hhi

theorem digitsValue_eq_rowValue {base : ℕ} (h : ∀ c ∈ digits, digitRank c < 16) :
    digitsValue base digits = rowValue base digits := by
  rw [C.IntLiteral.digitsValue_eq, rowValue]
  refine congrArg (Nat.ofDigits base) (List.map_congr_left fun c hc => ?_)
  exact digitValue_eq_digitRank (h c (List.mem_reverse.mp hc))

/-! ### How a constant is written -/

/-- **An integer constant as it is written**: its form says in which radix, and without the letters
at its end its text is what that radix wants in front and a row of digits, each of them below the
base. -/
structure Writes (n : Number String) (r : C.Radix) (digits : List Char) : Prop where
  form : n.form = r.form
  text : n.text.toList.rdropWhile (· ∈ ['u', 'U', 'l', 'L']) = r.lead ++ digits
  filled : digits ≠ []
  readable : ∀ c ∈ digits, digitRank c < r.base

variable {n : Number String} {r : C.Radix}

theorem Writes.form_ne_float (h : Writes n r digits) : n.form ≠ .float := by
  rw [h.form]
  cases r <;> simp [C.Radix.form]

/-- The value of a constant is the one of its digits, unless it is too large. -/
theorem Writes.value? (h : Writes n r digits) :
    n.value? = if rowValue r.base digits < 2 ^ 63 then some (rowValue r.base digits) else none := by
  have hletters : (fun c => decide (c ∈ ['u', 'U', 'l', 'L'])) = ("uUlL".toList.contains ·) := by
    funext c
    simp
  have htrimmed : (n.text.toList.reverse.dropWhile ("uUlL".toList.contains ·)).reverse =
      r.lead ++ digits := by
    rw [← h.text, hletters, List.rdropWhile]
  have hdigits : digitsValue r.base digits = rowValue r.base digits := by
    refine digitsValue_eq_rowValue fun c hc => (h.readable c hc).trans_le ?_
    cases r <;> simp [C.Radix.base]
  unfold Number.value?
  simp only [htrimmed, h.form, ← hdigits]
  cases r with
  | decimal => rfl
  | octal => rfl
  | hex upper =>
    cases upper
    · rfl
    · rfl

/-! ### What the scanner hands over -/

/-- Without its letters a constant ends with the last of its digits. -/
theorem rdropWhile_append_letters {front letters : List Char} (hfilled : digits ≠ [])
    (hdigits : ∀ c ∈ digits, digitRank c < 16) (hletters : ∀ c ∈ letters, c ∈ ['u', 'U', 'l', 'L']) :
    (front ++ digits ++ letters).rdropWhile (· ∈ ['u', 'U', 'l', 'L']) = front ++ digits := by
  have hlast : decide (digits.getLast hfilled ∈ ['u', 'U', 'l', 'L']) = false := by
    have hrank := hdigits _ (List.getLast_mem hfilled)
    rw [decide_eq_false_iff_not]
    intro hmem
    generalize digits.getLast hfilled = d at hrank hmem
    fin_cases hmem <;> revert hrank <;> decide
  have hall : letters.reverse.all (· ∈ ['u', 'U', 'l', 'L']) = true := by
    simpa [List.all_eq_true] using hletters
  rw [List.rdropWhile, List.reverse_append, dropWhile_append_of_head hall, List.reverse_reverse]
  rw [← List.dropLast_append_getLast hfilled, ← List.append_assoc, List.reverse_append,
    List.reverse_singleton, List.singleton_append, List.head?_cons, Option.any_some]
  exact hlast

variable {d : Cursor} {t : Token}

/-- **A number that is no float is written as an integer.** -/
theorem exists_writes (h : nextToken d = .ok t) (hn : t.lexeme = .number n)
    (hform : n.form ≠ .float) : ∃ r digits, Writes n r digits := by
  obtain ⟨_, -, ⟨-, rfl⟩ | ⟨after, hstands, -⟩⟩ := nextToken_cases h
  · cases hn
  obtain ⟨hstarts, hread⟩ : (Lexeme.number n).Ends after := hn ▸ hstands.ends
  have hne := readNumber_ne_nil hstarts hread
  obtain ⟨body, letters, rest, -, htext, hconstant⟩ := readNumber_eq_constant_iff.mp hread
  have hletters : ∀ c ∈ letters, c ∈ ['u', 'U', 'l', 'L'] := fun c hc =>
    (hconstant.fits.mem hc).resolve_right fun hfloat => hform hfloat.1
  -- whatever the radix, the letters behind the digits are left out in the same way
  have hwrites {r : C.Radix} {digits : List Char} (hbody : body = r.lead ++ digits)
      (hr : n.form = r.form) (hfilled : digits ≠ [])
      (hreadable : ∀ c ∈ digits, digitRank c < r.base) : Writes n r digits := by
    refine ⟨hr, ?_, hfilled, hreadable⟩
    have hbase : r.base ≤ 16 := by cases r <;> simp [C.Radix.base]
    rw [htext, hbody]
    exact rdropWhile_append_letters hfilled (fun c hc => (hreadable c hc).trans_le hbase) hletters
  have hoctal := hconstant.octal
  have hshaped := hconstant.shaped
  generalize hf : n.form = form at hshaped hform hoctal hwrites
  cases hshaped with
  | @hex x ds hx hfilled hd =>
    have hreadable : ∀ c ∈ ds, digitRank c < 16 := fun c hc =>
      digitRank_of_isHexDigit (List.all_eq_true.mp hd c hc)
    rcases hx with rfl | rfl
    · exact ⟨.hex false, ds, hwrites rfl rfl hfilled hreadable⟩
    · exact ⟨.hex true, ds, hwrites rfl rfl hfilled hreadable⟩
  | @decimal whole point exponent hw hp he =>
    obtain ⟨rfl, rfl⟩ : point = [] ∧ exponent = [] := by simp_all
    simp only [List.append_nil, if_true] at htext hoctal hwrites hform
    have hdigit (c : Char) (hc : c ∈ whole) : isDigit c = true := List.all_eq_true.mp hw c hc
    by_cases hzero : (whole.head? = some '0' && 1 < whole.length) = true
    · -- A leading zero that is not alone is what an octal constant has in front of its digits.
      have hoct : NumberBody.integerForm whole = .octal := if_pos hzero
      simp only [Bool.and_eq_true, decide_eq_true_eq] at hzero
      obtain ⟨digits, hdigits⟩ := List.head?_eq_some_iff.mp hzero.1
      refine ⟨.octal, digits, hwrites hdigits hoct ?_ fun c hc => ?_⟩
      · rintro rfl
        simp [hdigits] at hzero
      · have hmem : c ∈ whole := hdigits ▸ List.mem_cons_of_mem '0' hc
        have hnone := List.any_eq_false.mp (hoctal hoct) c (List.mem_append_left _ hmem)
        simp only [Bool.or_eq_true, beq_iff_eq, not_or] at hnone
        exact (digitRank_of_isDigit (hdigit c hmem)).2 hnone.1 hnone.2
    · refine ⟨.decimal, whole, hwrites rfl (if_neg hzero) ?_ fun c hc =>
        (digitRank_of_isDigit (hdigit c hc)).1⟩
      rintro rfl
      -- a constant without digits would begin with a letter
      rw [List.nil_append] at htext
      rw [htext] at hne hstarts
      obtain ⟨c, more, rfl⟩ := List.exists_cons_of_ne_nil hne
      have hc := hletters c List.mem_cons_self
      fin_cases hc <;> simp [startsNumber, isDigit] at hstarts

/-! ### The dimension -/

theorem value?_of_float (h : n.form = .float) : n.value? = none := by
  simp [Number.value?, h]

/-- Nothing is asked for one number. -/
theorem dimensionValue_singleton (n : Number String) (eval : Evaluator) (line : ℕ)
    (written : String) :
    dimensionValue eval line ⟨[.number n], written⟩ =
      ⟨[], n.value?.elim (.error ⟨line, .grammar (.invalidDimension n.text)⟩) .ok⟩ := by
  cases hv : n.value? with
  | none => simp [dimensionValue, hv]
  | some v => simp [dimensionValue, hv]

/-- **A dimension that is one number** is worth what its digits stand for in the base that its form
says, if that is below `2 ^ 63`, and is refused with the whole text of the number otherwise, a float
always. A number that is no float has such digits: without its letters and what stands in front of
them there is at least one, and each is one of the base. -/
theorem dimensionValue_of_number (h : nextToken d = .ok t) (hn : t.lexeme = .number n)
    (eval : Evaluator) (line : ℕ) (written : String) :
    let dimension := dimensionValue eval line ⟨[.number n], written⟩
    dimension.asked = [] ∧
      (∀ v, dimension.result = .ok v ↔
        ∃ r digits, Writes n r digits ∧ v = rowValue r.base digits ∧ v < 2 ^ 63) ∧
      (∀ e, dimension.result = .error e → e = ⟨line, .grammar (.invalidDimension n.text)⟩) ∧
      (n.form ≠ .float ↔ ∃ r digits, Writes n r digits) := by
  have hwritten : n.form ≠ .float ↔ ∃ r digits, Writes n r digits := by
    constructor
    · exact exists_writes h hn
    · rintro ⟨r, digits, hwrites⟩
      exact hwrites.form_ne_float
  have hvalue : ∀ v, n.value? = some v ↔
      ∃ r digits, Writes n r digits ∧ v = rowValue r.base digits ∧ v < 2 ^ 63 := by
    intro v
    constructor
    · intro hv
      have hform : n.form ≠ .float := by
        intro hfloat
        simp [value?_of_float hfloat] at hv
      obtain ⟨r, digits, hwrites⟩ := exists_writes h hn hform
      refine ⟨r, digits, hwrites, ?_⟩
      rw [hwrites.value?] at hv
      split at hv
      · obtain rfl := Option.some.inj hv
        exact ⟨rfl, ‹_›⟩
      · cases hv
    · rintro ⟨r, digits, hwrites, rfl, hlt⟩
      rw [hwrites.value?, if_pos hlt]
  rw [dimensionValue_singleton]
  refine ⟨rfl, fun v => ?_, fun e he => ?_, hwritten⟩
  · rw [← hvalue v]
    cases hv : n.value? <;> simp
  · cases hv : n.value? with
    | none =>
      rw [hv] at he
      exact (Except.error.inj he).symm
    | some v =>
      rw [hv] at he
      cases he

/-- The largest dimension, in capital digits with three letters behind it. -/
theorem dimensionValue_of_number_largest :
    let n : Number String := ⟨"0X7fffFFFFffffFFFFuLL", .hex, ⟨true, 2, false⟩⟩
    let d := Cursor.start " 0X7fffFFFFffffFFFFuLL]".toList 1
    (∃ t, nextToken d = .ok t ∧ t.lexeme = .number n) ∧
      ∀ eval line,
        (dimensionValue eval line ⟨[.number n], "n"⟩).result = .ok 9223372036854775807 := by
  intro n d
  have hread : ∃ t, nextToken d = .ok t ∧ t.lexeme = .number n := by
    refine ⟨(nextToken d).toOption.getD default, ?_⟩
    decide +kernel
  refine ⟨hread, fun eval line => ?_⟩
  obtain ⟨t, ht, hn⟩ := hread
  have hhex : "7fffFFFFffffFFFF".toList.all isHexDigit = true := by decide +kernel
  have hreadable : ∀ c ∈ "7fffFFFFffffFFFF".toList, digitRank c < 16 := fun c hc =>
    digitRank_of_isHexDigit (List.all_eq_true.mp hhex c hc)
  refine ((dimensionValue_of_number ht hn eval line "n").2.1 _).mpr
    ⟨.hex true, "7fffFFFFffffFFFF".toList, ⟨rfl, ?_, ?_, hreadable⟩, ?_, by norm_num⟩
  · decide +kernel
  · decide +kernel
  · rw [C.Radix.base, ← digitsValue_eq_rowValue hreadable]
    decide +kernel

end TypeLayout
