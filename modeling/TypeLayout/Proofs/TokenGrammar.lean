import TypeLayout.Proofs.C.Syntax

/-!
# The grammar of tokens

Which texts the scanner reads as one token, said without reading. A numeric constant is a body, of
which its form can be seen, and the letters of a suffix, in front of a text that continues neither
(`readNumber_eq_constant_iff`).
-/

namespace TypeLayout

open List

variable {p q : Char → Bool} {c : Char} {front rest tail taken : List Char}

/-! ### Where a run of characters ends -/

theorem toNat_of_startsIdentifier (h : startsIdentifier c = true) :
    65 ≤ c.toNat ∧ c.toNat ≤ 122 ∨ c.toNat = 36 := by
  simp only [startsIdentifier, isLetter, Bool.or_eq_true, Bool.and_eq_true, decide_eq_true_eq,
    beq_iff_eq, Char.le_def, UInt32.le_iff_toNat_le] at h
  rcases h with ((h | h) | rfl) | rfl
  · have h₁ : 97 ≤ c.toNat := h.1
    have h₂ : c.toNat ≤ 122 := h.2
    omega
  · have h₁ : 65 ≤ c.toNat := h.1
    have h₂ : c.toNat ≤ 90 := h.2
    omega
  · decide
  · decide

theorem toNat_of_isDigit (h : isDigit c = true) : 48 ≤ c.toNat ∧ c.toNat ≤ 57 := by
  simp only [isDigit, Bool.and_eq_true, decide_eq_true_eq, Char.le_def,
    UInt32.le_iff_toNat_le] at h
  exact h

theorem isDigit_of_startsIdentifier (h : startsIdentifier c = true) : isDigit c = false := by
  rw [Bool.eq_false_iff]
  intro hd
  have hident := toNat_of_startsIdentifier h
  have hdigit := toNat_of_isDigit hd
  omega

theorem isBlank_eq_false (h : 33 ≤ c.toNat ∧ c.toNat ≤ 126) : Text.isBlank c = false := by
  rw [Bool.eq_false_iff]
  simp only [Text.isBlank, ne_eq, Bool.or_eq_true, Bool.and_eq_true, decide_eq_true_eq, beq_iff_eq]
  omega

theorem isIdentifierChar_of_isBlank (h : Text.isBlank c = true) : isIdentifierChar c = false := by
  rw [Bool.eq_false_iff]
  intro hident
  refine absurd h (Bool.eq_false_iff.mp (isBlank_eq_false ?_))
  rcases (by grind [startsIdentifier, isIdentifierChar] :
    startsIdentifier c = true ∨ isDigit c = true) with hc | hc
  · have := toNat_of_startsIdentifier hc
    omega
  · have := toNat_of_isDigit hc
    omega

theorem isWordChar_of_isHexDigit (h : isHexDigit c = true) : isWordChar c = true := by
  simp only [isHexDigit, isWordChar, isLetter, Bool.or_eq_true, Bool.and_eq_true,
    decide_eq_true_eq] at h ⊢
  rcases h with (h | h) | h
  · exact Or.inl (Or.inr h)
  · exact Or.inl (Or.inl (Or.inl ⟨h.1, h.2.trans (by decide)⟩))
  · exact Or.inl (Or.inl (Or.inr ⟨h.1, h.2.trans (by decide)⟩))

theorem takeWhile_append_of_head (hf : front.all p = true) (hr : rest.head?.any p = false) :
    (front ++ rest).takeWhile p = front := by
  rw [takeWhile_append_of_pos (List.all_eq_true.mp hf)]
  cases rest with
  | nil => simp
  | cons c rest => simp_all

theorem dropWhile_append_of_head (hf : front.all p = true) (hr : rest.head?.any p = false) :
    (front ++ rest).dropWhile p = rest := by
  rw [dropWhile_append_of_pos (List.all_eq_true.mp hf)]
  cases rest with
  | nil => simp
  | cons c rest => simp_all

theorem head_any_imp (hr : rest.head?.any q = false) (hpq : ∀ c, p c = true → q c = true) :
    rest.head?.any p = false := by
  cases rest with
  | nil => rfl
  | cons c rest =>
    have hq : q c = false := hr
    by_contra hp
    simp [hpq c (by simpa using hp)] at hq

theorem head_append (hf : ∀ c ∈ front, p c = false) (hr : rest.head?.any p = false) :
    (front ++ rest).head?.any p = false := by
  cases front with
  | nil => exact hr
  | cons c front => exact hf c mem_cons_self

theorem head_dropWhile (p : Char → Bool) (cs : List Char) :
    (cs.dropWhile p).head?.any p = false := by
  have hhead := head?_dropWhile_not p cs
  cases hcs : (cs.dropWhile p).head? <;> simp_all

/-! ### The body of a constant -/

namespace NumberBody

variable {form : NumberForm} {exponent point : List Char}

/-- A point with digits behind it, or nothing. -/
def IsFraction (cs : List Char) : Prop := cs = [] ∨ ∃ ds, cs = '.' :: ds ∧ ds.all isDigit = true

/-- Whether a text begins with an exponent. -/
def startsExponent : List Char → Bool
  | e :: s :: cs =>
    (e = 'e' || e = 'E') && (isDigit s || (s = '+' || s = '-') && cs.head?.any isDigit)
  | _ => false

theorem startsExponent_of_head (h : tail.head?.any (fun c => c == 'e' || c == 'E') = false) :
    startsExponent tail = false := by
  unfold startsExponent
  split <;> simp_all

/-- An exponent, or nothing. -/
def IsExponent (cs : List Char) : Prop :=
  cs = [] ∨ ∃ e s ds, cs = e :: s :: ds ∧ startsExponent cs = true ∧ ds.all isDigit = true

theorem withFraction_append (hp : IsFraction point) (hd : tail.head?.any isDigit = false)
    (hn : point = [] → tail.head? ≠ some '.') :
    withFraction ⟨taken, form, point ++ tail⟩ =
      ⟨taken ++ point, if point = [] then form else .float, tail⟩ := by
  rcases hp with rfl | ⟨ds, rfl, hds⟩
  · unfold withFraction
    split
    · simp_all
    · simp
  · simp [withFraction, takeWhile_append_of_head hds hd, dropWhile_append_of_head hds hd]

theorem withExponent_append (he : IsExponent exponent) (hd : tail.head?.any isDigit = false)
    (hn : exponent = [] → startsExponent tail = false) :
    withExponent ⟨taken, form, exponent ++ tail⟩ =
      ⟨taken ++ exponent, if exponent = [] then form else .float, tail⟩ := by
  unfold withExponent
  rcases he with rfl | ⟨e, s, ds, rfl, hs, hds⟩
  · specialize hn rfl
    unfold startsExponent at hn
    grind
  · have hmore : (ds ++ tail).head?.any isDigit = ds.head?.any isDigit := by
      cases ds <;> simp_all
    unfold startsExponent at hs
    have htake := takeWhile_append_of_head hds hd
    have hdrop := dropWhile_append_of_head hds hd
    grind

/-- Digits are octal if they begin with a zero and go on. -/
def integerForm (digits : List Char) : NumberForm :=
  if digits.head? = some '0' && 1 < digits.length then .octal else .decimal

/-- **The bodies of constants**, with the form that each of them has. -/
inductive Body : NumberForm → List Char → Prop
  | hex {x : Char} {ds : List Char} (hx : x = 'x' ∨ x = 'X') (hne : ds ≠ [])
    (hd : ds.all isHexDigit = true) : Body .hex ('0' :: x :: ds)
  | decimal {whole point exponent : List Char} (hw : whole.all isDigit = true)
    (hp : IsFraction point) (he : IsExponent exponent) :
    Body (if point ++ exponent = [] then integerForm whole else .float)
      (whole ++ (point ++ exponent))

theorem exists_fraction (hd : tail.head?.any isDigit = false) :
    ∃ point rest, tail = point ++ rest ∧ IsFraction point ∧ rest.head?.any isDigit = false ∧
      (point = [] → rest.head? ≠ some '.') := by
  by_cases h : tail.head? = some '.'
  · obtain ⟨cs, rfl⟩ := List.head?_eq_some_iff.mp h
    exact ⟨'.' :: cs.takeWhile isDigit, cs.dropWhile isDigit, by simp, .inr ⟨_, rfl, by simp⟩,
      head_dropWhile _ _, by simp⟩
  · exact ⟨[], tail, rfl, .inl rfl, hd, fun _ => h⟩

theorem exists_exponent (hd : tail.head?.any isDigit = false) :
    ∃ exponent rest, tail = exponent ++ rest ∧ IsExponent exponent ∧
      rest.head?.any isDigit = false ∧ (exponent = [] → startsExponent rest = false) := by
  cases h : startsExponent tail with
  | false => exact ⟨[], tail, rfl, .inl rfl, hd, fun _ => h⟩
  | true =>
    match tail with
    | e :: s :: cs =>
      refine ⟨e :: s :: cs.takeWhile isDigit, cs.dropWhile isDigit, by simp,
        .inr ⟨e, s, _, rfl, ?_, by simp⟩, head_dropWhile _ _, by simp⟩
      have hhead : (cs.takeWhile isDigit).head?.any isDigit = cs.head?.any isDigit := by
        cases cs with
        | nil => rfl
        | cons x cs => cases hx : isDigit x <;> simp [hx]
      rwa [startsExponent, hhead]

/-- Reading takes a body from the start of a text. -/
theorem body_decimal (cs : List Char) :
    Body (decimal cs).form (decimal cs).taken ∧ (decimal cs).taken ++ (decimal cs).rest = cs ∧
      ((decimal cs).form ≠ .float → (decimal cs).rest.head? ≠ some '.') := by
  obtain ⟨point, more, hmore, hp, hd, hn⟩ := exists_fraction (head_dropWhile isDigit cs)
  obtain ⟨exponent, rest, rfl, he, hd', hn'⟩ := exists_exponent hd
  have hdecimal : decimal cs = ⟨cs.takeWhile isDigit ++ (point ++ exponent),
      if point ++ exponent = [] then integerForm (cs.takeWhile isDigit) else .float, rest⟩ := by
    have hdigits : ofDigits cs =
        ⟨cs.takeWhile isDigit, integerForm (cs.takeWhile isDigit), cs.dropWhile isDigit⟩ := rfl
    rw [decimal, hdigits, hmore, withFraction_append hp hd hn, withExponent_append he hd' hn',
      append_assoc]
    cases point <;> cases exponent <;> simp
  rw [hdecimal]
  refine ⟨.decimal (by simp) hp he, ?_, fun hfloat => ?_⟩
  · rw [append_assoc, append_assoc, ← hmore, takeWhile_append_dropWhile]
  · obtain ⟨rfl, rfl⟩ : point = [] ∧ exponent = [] := by simp_all
    exact hn rfl

/-- A fraction begins with a point and an exponent with its letter. -/
theorem head_parts (hp : IsFraction point) (he : IsExponent exponent)
    (hq : ['.', 'e', 'E'].any q = false) (ht : tail.head?.any q = false) :
    (exponent ++ tail).head?.any q = false ∧
      (point ++ (exponent ++ tail)).head?.any q = false := by
  obtain ⟨hpoint, hlower, hupper⟩ : q '.' = false ∧ q 'e' = false ∧ q 'E' = false := by
    simpa using hq
  have hhead : (exponent ++ tail).head?.any q = false := by
    rcases he with rfl | ⟨e, s, ds, rfl, hs, -⟩
    · exact ht
    · unfold startsExponent at hs
      rcases (by simp_all : e = 'e' ∨ e = 'E') with rfl | rfl
      · exact hlower
      · exact hupper
  refine ⟨hhead, ?_⟩
  rcases hp with rfl | ⟨ds, rfl, -⟩
  · exact hhead
  · exact hpoint

/-- A body is read to its end if what comes next does not continue it. -/
theorem decimal_append {body : List Char} (h : Body form body) (hform : form ≠ .hex)
    (hd : tail.head?.any isDigit = false) (hn : form ≠ .float → tail.head? ≠ some '.')
    (he : startsExponent tail = false) : decimal (body ++ tail) = ⟨body, form, tail⟩ := by
  cases h with
  | hex => exact absurd rfl hform
  | @decimal whole point exponent hw hp hexp =>
    obtain ⟨hhead, hwhole⟩ := head_parts hp hexp (by decide) hd
    have hpoint (hnil : point = []) : (exponent ++ tail).head? ≠ some '.' := by
      subst hnil
      rcases hexp with rfl | ⟨e, s, ds, rfl, hs, -⟩
      · exact hn (by simp [integerForm]; split <;> simp)
      · rintro heq
        obtain rfl : e = '.' := by simpa using heq
        simp [startsExponent] at hs
    have hdigits : ofDigits (whole ++ (point ++ (exponent ++ tail))) =
        ⟨whole, integerForm whole, point ++ (exponent ++ tail)⟩ := by
      rw [ofDigits, takeWhile_append_of_head hw hwhole, dropWhile_append_of_head hw hwhole]
      rfl
    rw [append_assoc, append_assoc, decimal, hdigits,
      withFraction_append hp hhead hpoint, withExponent_append hexp hd fun _ => he,
      append_assoc]
    cases point <;> cases exponent <;> simp

end NumberBody

/-! ### The letters of a suffix -/

/-- **Suffix letters that fit**, from what was taken before them to what has been taken after. -/
inductive Letters (form : NumberForm) : Suffix → List Char → Suffix → Prop
  | nil (s : Suffix) : Letters form s [] s
  | unsigned {s s' : Suffix} {c : Char} {letters : List Char} (hc : c = 'u' ∨ c = 'U')
    (hs : s.unsigned = false) (hf : form ≠ .float)
    (h : Letters form { s with unsigned := true } letters s') : Letters form s (c :: letters) s'
  | long {s s' : Suffix} {c : Char} {letters : List Char} (hc : c = 'l' ∨ c = 'L')
    (hs : s.long < 2) (h : Letters form { s with long := s.long + 1 } letters s') :
    Letters form s (c :: letters) s'
  | float {s s' : Suffix} {c : Char} {letters : List Char} (hc : c = 'f' ∨ c = 'F')
    (hs : s.float = false) (hf : form = .float)
    (h : Letters form { s with float := true } letters s') : Letters form s (c :: letters) s'

section Suffix

variable {form : NumberForm} {s s' : Suffix} {letters : List Char}

theorem Letters.mem (h : Letters form s letters s') (hc : c ∈ letters) :
    c ∈ ['u', 'U', 'l', 'L'] ∨ form = .float ∧ c ∈ ['f', 'F'] := by
  induction h with
  | nil => cases hc
  | unsigned hx _ _ _ ih | long hx _ _ ih | float hx _ _ _ ih =>
    rcases List.mem_cons.mp hc with rfl | hc
    · rcases hx with rfl | rfl <;> simp_all
    · exact ih hc

/-- What is taken as the suffix of a constant fits. -/
theorem letters_takeSuffix (form : NumberForm) (s : Suffix) (cs : List Char) :
    Letters form s (takeSuffix form s cs).1 (takeSuffix form s cs).2.1 ∧
      (takeSuffix form s cs).1 ++ (takeSuffix form s cs).2.2 = cs := by
  induction cs generalizing s with
  | nil => exact ⟨.nil s, rfl⟩
  | cons c cs ih =>
    simp only [takeSuffix]
    split
    · rename_i hc
      obtain ⟨hletters, hsplit⟩ := ih { s with unsigned := true }
      exact ⟨.unsigned (by simp_all) (by simp_all) (by simp_all) hletters, congrArg (c :: ·) hsplit⟩
    · split
      · rename_i hc
        obtain ⟨hletters, hsplit⟩ := ih { s with long := s.long + 1 }
        exact ⟨.long (by simp_all) (by simp_all) hletters, congrArg (c :: ·) hsplit⟩
      · split
        · rename_i hc
          obtain ⟨hletters, hsplit⟩ := ih { s with float := true }
          exact ⟨.float (by simp_all) (by simp_all) (by simp_all) hletters,
            congrArg (c :: ·) hsplit⟩
        · exact ⟨.nil s, rfl⟩

/-- Letters that fit are taken to the last one if what comes next continues no word. -/
theorem takeSuffix_append (h : Letters form s letters s')
    (hr : rest.head?.any isWordChar = false) :
    takeSuffix form s (letters ++ rest) = (letters, s', rest) := by
  induction h with
  | nil s =>
    cases rest with
    | nil => rfl
    | cons x rest =>
      have hne (y : Char) (hy : isWordChar y = true) : x ≠ y := by
        rintro rfl
        simp [hy] at hr
      simp [takeSuffix, hne 'u' rfl, hne 'U' rfl, hne 'l' rfl, hne 'L' rfl, hne 'f' rfl,
        hne 'F' rfl]
  | unsigned hc hs hf _ ih => rcases hc with rfl | rfl <;> simp [takeSuffix, hs, hf, ih]
  | long hc hs _ ih => rcases hc with rfl | rfl <;> simp [takeSuffix, hs, ih]
  | float hc hs hf _ ih =>
    subst hf
    rcases hc with rfl | rfl <;> simp [takeSuffix, hs, ih]

end Suffix

/-! ### Constants -/

/-- What is made of the body of a constant. -/
def closeNumber (b : NumberBody) : NumberReading :=
  let (letters, suffix, rest) := takeSuffix b.form {} b.rest
  let text := b.taken ++ letters
  if rest.head?.any isWordChar then
    .malformed (text ++ rest.takeWhile isWordChar)
  else if b.form == .octal && text.any fun c => c == '8' || c == '9' then
    .badOctal text
  else
    .constant text b.form suffix

/-- **A constant in front of a text**: a body, letters that fit, and nothing that continues either.
Digits alone would be continued by a point. -/
structure Constant (form : NumberForm) (suffix : Suffix) (body letters rest : List Char) :
    Prop where
  shaped : NumberBody.Body form body
  fits : Letters form {} letters suffix
  stops : rest.head?.any isWordChar = false
  point : form = .decimal ∨ form = .octal → (letters ++ rest).head? ≠ some '.'
  octal : form = .octal → (body ++ letters).any (fun c => c == '8' || c == '9') = false

section Constant

variable {b : NumberBody} {cs text body letters : List Char} {form : NumberForm} {suffix : Suffix}

theorem closeNumber_eq_constant (h : closeNumber b = .constant text form suffix) :
    form = b.form ∧ ∃ letters rest, b.rest = letters ++ rest ∧ text = b.taken ++ letters ∧
      Letters form {} letters suffix ∧ rest.head?.any isWordChar = false ∧
      (form = .octal → text.any (fun c => c == '8' || c == '9') = false) := by
  obtain ⟨hletters, hsplit⟩ := letters_takeSuffix b.form {} b.rest
  unfold closeNumber at h
  generalize takeSuffix b.form {} b.rest = r at h hletters hsplit
  obtain ⟨letters, suffix', rest⟩ := r
  dsimp only at h hletters hsplit
  split at h
  · cases h
  rename_i hword
  split at h
  · cases h
  rename_i hoctal
  obtain ⟨rfl, rfl, rfl⟩ := NumberReading.constant.inj h
  exact ⟨rfl, letters, rest, hsplit.symm, rfl, hletters, by simpa using hword, by simp_all⟩

theorem Constant.closeNumber (h : Constant form suffix body letters rest) :
    closeNumber ⟨body, form, letters ++ rest⟩ = .constant (body ++ letters) form suffix := by
  have hoctal : (form == .octal && (body ++ letters).any fun c => c == '8' || c == '9') = false := by
    cases hf : form == .octal with
    | false => rfl
    | true => exact h.octal (by simpa using hf)
  simp only [TypeLayout.closeNumber, takeSuffix_append h.fits h.stops, h.stops, hoctal,
    Bool.false_eq_true, if_false]

/-- Behind the body of a constant come the letters of its suffix, or what continues no word. -/
theorem Constant.head_tail (h : Constant form suffix body letters rest)
    (hp : ∀ c, p c = true → isWordChar c = true) (hl : ['u', 'U', 'l', 'L'].any p = false)
    (hf : form ≠ .hex → ['f', 'F'].any p = false) : (letters ++ rest).head?.any p = false := by
  refine head_append (fun c hc => ?_) (head_any_imp h.stops hp)
  rcases h.fits.mem hc with hc | ⟨rfl, hc⟩
  · exact Bool.eq_false_iff.mpr (List.any_eq_false.mp hl c hc)
  · exact Bool.eq_false_iff.mpr (List.any_eq_false.mp (hf (by simp)) c hc)

theorem Constant.readNumber (h : Constant form suffix body letters rest) :
    readNumber (body ++ (letters ++ rest)) = .constant (body ++ letters) form suffix := by
  have hclose := h.closeNumber
  have hshaped := h.shaped
  cases hshaped with
  | @hex x ds hx hne hd =>
    have hhead : (letters ++ rest).head?.any isHexDigit = false :=
      h.head_tail (fun c => isWordChar_of_isHexDigit) (by decide) (by simp)
    have hor : (decide (x = 'x') || decide (x = 'X')) = true := by simpa using hx
    simp only [TypeLayout.readNumber, cons_append, hor, if_true,
      takeWhile_append_of_head hd hhead, dropWhile_append_of_head hd hhead]
    rw [if_neg (by simpa using hne)]
    exact hclose
  | @decimal whole point exponent hw hp he =>
    have hform : (if point ++ exponent = [] then NumberBody.integerForm whole else .float) ≠
        NumberForm.hex := by
      unfold NumberBody.integerForm
      grind
    have hexponent : (letters ++ rest).head?.any (fun c => c == 'e' || c == 'E') = false :=
      h.head_tail (fun c hc => by rcases (by simpa using hc : c = 'e' ∨ c = 'E') with rfl | rfl <;> rfl)
        (by decide) fun _ => by decide
    have hdigit : (letters ++ rest).head?.any (fun c => isDigit c || c == 'x' || c == 'X') = false :=
      h.head_tail (fun c hc => by
        rcases (by simpa [or_assoc] using hc : isDigit c = true ∨ c = 'x' ∨ c = 'X') with
          hc | rfl | rfl
        · simp [isWordChar, hc]
        · rfl
        · rfl) (by decide) fun _ => by decide
    have hbody := NumberBody.decimal_append h.shaped hform (head_any_imp hdigit fun c hc => by
      simp [hc]) (fun hfloat => h.point (by grind [NumberBody.integerForm]))
      (NumberBody.startsExponent_of_head hexponent)
    unfold TypeLayout.readNumber
    dsimp only
    split
    · rename_i x digits hcs
      -- the second character is a digit, or it stands behind the digits
      have hx : (decide (x = 'x') || decide (x = 'X')) = false := by
        have hnext := (NumberBody.head_parts hp he (by decide) hdigit).2
        rw [append_assoc, append_assoc] at hcs
        match whole with
        | [] =>
          rw [nil_append] at hcs
          simp [hcs, isDigit] at hnext
        | [w] =>
          rw [show point ++ (exponent ++ (letters ++ rest)) = x :: digits from
            (List.cons.inj hcs).2] at hnext
          simp_all
        | w :: w' :: ws =>
          obtain rfl : w' = x := by simp_all
          rw [← Bool.not_eq_true]
          intro hx
          rcases (by simpa using hx : w' = 'x' ∨ w' = 'X') with rfl | rfl <;> simp [isDigit] at hw
      rw [if_neg (by simp [hx]), hbody]
      exact hclose
    · rw [hbody]
      exact hclose

/-- **What is read as a constant is one, and is read to its end.** -/
theorem readNumber_eq_constant_iff :
    readNumber cs = .constant text form suffix ↔ ∃ body letters rest,
      cs = body ++ (letters ++ rest) ∧ text = body ++ letters ∧
        Constant form suffix body letters rest := by
  constructor
  · intro h
    have hdecimal (h : TypeLayout.closeNumber (.decimal cs) = .constant text form suffix) :
        ∃ body letters rest, cs = body ++ (letters ++ rest) ∧ text = body ++ letters ∧
          Constant form suffix body letters rest := by
      obtain ⟨rfl, letters, rest, hrest, rfl, hfits, hstops, hoctal⟩ := closeNumber_eq_constant h
      obtain ⟨hshaped, hsplit, hpoint⟩ := NumberBody.body_decimal cs
      rw [hrest] at hsplit hpoint
      exact ⟨_, letters, rest, hsplit.symm, rfl, hshaped, hfits, hstops,
        fun hform => hpoint (by rcases hform with hf | hf <;> simp [hf]), hoctal⟩
    unfold TypeLayout.readNumber at h
    dsimp only at h
    split at h
    · rename_i x digits
      split at h
      · rename_i hx
        split at h
        · cases h
        · rename_i hne
          obtain ⟨rfl, letters, rest, hrest, rfl, hfits, hstops, hoctal⟩ :=
            @closeNumber_eq_constant ⟨'0' :: x :: digits.takeWhile isHexDigit, .hex,
              digits.dropWhile isHexDigit⟩ _ _ _ h
          refine ⟨_, letters, rest, ?_, rfl, .hex (by simpa using hx) (by simpa using hne) (by simp),
            hfits, hstops, by simp, hoctal⟩
          simp [← hrest]
      · exact hdecimal h
    · exact hdecimal h
  · rintro ⟨body, letters, rest, rfl, rfl, h⟩
    exact h.readNumber

end Constant

/-! ### Tokens -/

section Literal

variable {c d : Cursor} {quote : Char} {line : ℕ} {text : List Char}

/-- What is read as a literal can stand between quotes, and is passed over with the second one. -/
theorem quotable_of_readLiteral (h : readLiteral quote line c = .ok (text, d)) :
    C.isQuotable quote text = true ∧ d = c.advanceBy (text.length + 1) ∧
      ∃ rest, c.rest = text ++ quote :: rest := by
  fun_induction readLiteral quote line c generalizing text d with
  | case1 | case2 | case4 | case5 | case7 => cases h
  | case3 c rest hc hbreak =>
    obtain ⟨rfl, rfl⟩ := Prod.mk.inj (Except.ok.inj h)
    exact ⟨rfl, rfl, rest, hc⟩
  | case6 c e rest text' d' hread hbreak hquote hc _ ih =>
    obtain ⟨rfl, rfl⟩ := Prod.mk.inj (Except.ok.inj h)
    obtain ⟨hquotable, hafter, more, hmore⟩ := ih hread
    rw [Cursor.rest_advance, Cursor.rest_advance, hc, tail_cons, tail_cons] at hmore
    exact ⟨by rwa [C.isQuotable], hafter, more, by rw [hc, hmore]; rfl⟩
  | case8 c ch rest hc hbreak hquote hescape text' d' hread ih =>
    obtain ⟨rfl, rfl⟩ := Prod.mk.inj (Except.ok.inj h)
    obtain ⟨hquotable, hafter, more, hmore⟩ := ih hread
    rw [Cursor.rest_advance, hc, tail_cons] at hmore
    refine ⟨?_, hafter, more, by rw [hc, hmore]; rfl⟩
    rw [C.isQuotable, hquotable]
    · simp [hbreak, hquote, hescape]
    · exact fun _ _ hback => absurd hback hescape

theorem readLiteral_append (hq : quote ≠ '\n' ∧ quote ≠ '\\') (line : ℕ)
    (ht : C.isQuotable quote text = true) (hc : c.rest = text ++ quote :: rest) :
    readLiteral quote line c = .ok (text, c.advanceBy (text.length + 1)) := by
  fun_induction C.isQuotable quote text generalizing c with
  | case1 =>
    rw [readLiteral]
    split
    · simp_all
    · rename_i hcons
      obtain ⟨rfl, -⟩ := List.cons.inj (hc.symm.trans hcons)
      rw [if_neg hq.1, if_pos rfl]
      rfl
  | case2 e cs ih =>
    have hmore := @ih c.advance.advance ht (by rw [Cursor.rest_advance, Cursor.rest_advance, hc]; rfl)
    rw [readLiteral]
    split
    · simp_all
    · rename_i ch more hcons
      obtain ⟨rfl, rfl⟩ := List.cons.inj (hc.symm.trans hcons)
      rw [if_neg (by decide), if_neg (Ne.symm hq.2), if_pos rfl]
      simp only [hmore]
      rfl
  | case3 ch cs hne ih =>
    simp only [Bool.and_eq_true, bne_iff_ne] at ht
    obtain ⟨⟨⟨hline, hquote⟩, hback⟩, ht⟩ := ht
    have hmore := @ih c.advance ht (by rw [Cursor.rest_advance, hc]; rfl)
    rw [readLiteral]
    split
    · simp_all
    · rename_i x more hcons
      obtain ⟨rfl, rfl⟩ := List.cons.inj (hc.symm.trans hcons)
      rw [if_neg hline, if_neg hquote, if_neg hback, hmore]
      rfl

end Literal

/-- **A lexeme that ends in front of a text**: it is spelled right, and the text does not continue
it. -/
def Lexeme.Ends (after : List Char) : Lexeme String → Prop
  | .number n => startsNumber (n.text.toList ++ after) = true ∧
      TypeLayout.readNumber (n.text.toList ++ after) = .constant n.text.toList n.form n.suffix
  | .identifier x => x.toList.head?.any startsIdentifier = true ∧
      x.toList.all isIdentifierChar = true ∧ after.head?.any isIdentifierChar = false
  | .stringLiteral x => C.isQuotable '"' x.toList = true
  | .charLiteral x => C.isQuotable '\'' x.toList = true
  | .punct ch => isPunctuation ch = true ∧ startsIdentifier ch = false ∧ ch ≠ '"' ∧ ch ≠ '\'' ∧
      startsNumber (ch :: after) = false
  | .eof => False

section Token

variable {c : Cursor} {ch : Char} {t : Token} {after : List Char} {l : Lexeme String}

/-- The token that a lexeme is at a cursor. -/
def Lexeme.tokenAt (c : Cursor) (l : Lexeme String) : Token :=
  ⟨c.line, l, c.advanceBy l.spelling.toList.length⟩

/-- **What is read as a token ends in front of what comes after it.** -/
theorem ends_of_readToken (hc : c.rest = ch :: rest) (h : readToken c ch = .ok t) :
    t = t.lexeme.tokenAt c ∧ ∃ after, c.rest = t.lexeme.spelling.toList ++ after ∧
      t.lexeme.Ends after := by
  unfold readToken at h
  dsimp only at h
  split at h
  · rename_i hstarts
    split at h
    · rename_i text form suffix hnumber
      obtain rfl := Except.ok.inj h
      obtain ⟨body, letters, after, hsplit, rfl, -⟩ := readNumber_eq_constant_iff.mp hnumber
      rw [← append_assoc] at hsplit
      refine ⟨by simp [Lexeme.tokenAt, Lexeme.spelling], after, by simp [Lexeme.spelling, hsplit], ?_⟩
      simpa [Lexeme.Ends, ← hsplit] using And.intro hstarts hnumber
    · cases h
    · cases h
  rename_i hnumber
  split at h
  · rename_i hstarts
    obtain rfl := Except.ok.inj h
    refine ⟨by simp [Lexeme.tokenAt, Lexeme.spelling], c.rest.dropWhile isIdentifierChar,
      by simp [Lexeme.spelling], ?_, by simp, head_dropWhile _ _⟩
    have hch : isIdentifierChar ch = true := by grind [startsIdentifier, isIdentifierChar]
    simp [hc, hch, hstarts]
  rename_i hident
  split at h
  · rename_i hquote
    split at h
    · cases h
    · rename_i text d hliteral
      obtain rfl := Except.ok.inj h
      obtain ⟨hquotable, rfl, after, hrest⟩ := quotable_of_readLiteral hliteral
      rw [Cursor.rest_advance, hc, tail_cons] at hrest
      rcases hquote with rfl | rfl <;>
        exact ⟨by simp [Lexeme.tokenAt, Lexeme.spelling, Cursor.advanceBy], after,
          by simp [Lexeme.spelling, hc, hrest], by simpa [Lexeme.Ends] using hquotable⟩
  rename_i hquote
  split at h
  · rename_i hpunct
    obtain rfl := Except.ok.inj h
    rw [not_or] at hquote
    exact ⟨by simp [Lexeme.tokenAt, Lexeme.spelling, Cursor.advanceBy], rest,
      by simp [Lexeme.spelling, hc], hpunct, by simpa using hident, hquote.1, hquote.2,
      by simpa [hc] using hnumber⟩
  · cases h

theorem startsNumber_eq_false {cs : List Char} (hd : isDigit ch = false)
    (hp : ch = '.' → cs.head?.any isDigit = false) : startsNumber (ch :: cs) = false := by
  unfold startsNumber
  split
  · rename_i hcons
    obtain ⟨rfl, rfl⟩ := List.cons.inj hcons
    exact hp rfl
  · rename_i hcons
    obtain ⟨rfl, rfl⟩ := List.cons.inj hcons
    exact hd
  · rfl

/-- **A lexeme that ends in front of a text is read there.** -/
theorem readToken_of_ends (hl : l.Ends after) (hc : c.rest = l.spelling.toList ++ after) :
    ∃ ch word, l.spelling.toList = ch :: word ∧
      readToken c ch = .ok (l.tokenAt c) := by
  have hliteral {quote : Char} {text : String} (hq : quote = '"' ∨ quote = '\'')
      (hquotable : C.isQuotable quote text.toList = true)
      (hc : c.rest = quote :: (text.toList ++ quote :: after)) : readToken c quote =
        .ok ⟨c.line, if quote = '"' then .stringLiteral text else .charLiteral text,
          c.advanceBy (text.toList.length + 2)⟩ := by
    have hread := readLiteral_append (c := c.advance) (by rcases hq with rfl | rfl <;> decide) c.line
      hquotable (by rw [Cursor.rest_advance, hc, tail_cons])
    have hnumber : startsNumber c.rest = false := by
      rw [hc]
      exact startsNumber_eq_false (by rcases hq with rfl | rfl <;> decide)
        (by rcases hq with rfl | rfl <;> simp)
    unfold readToken
    dsimp only
    rw [if_neg (by simp [hnumber]), if_neg (by rcases hq with rfl | rfl <;> decide), if_pos hq, hread]
    simp [Cursor.advanceBy]
  cases l with
  | number n =>
    obtain ⟨hstarts, hread⟩ := hl
    obtain ⟨ch, word, hword⟩ := exists_cons_of_ne_nil (readNumber_ne_nil hstarts hread)
    refine ⟨ch, word, hword, ?_⟩
    rw [readToken, hc, Lexeme.spelling, if_pos hstarts, hread]
    simp [Lexeme.tokenAt, Lexeme.spelling]
  | identifier x =>
    obtain ⟨hstarts, hall, hafter⟩ := hl
    cases hx : x.toList with
    | nil => simp [hx] at hstarts
    | cons ch word =>
      have hstarts : startsIdentifier ch = true := by simpa [hx] using hstarts
      have hnumber : startsNumber c.rest = false := by
        rw [hc, Lexeme.spelling, hx]
        refine startsNumber_eq_false (isDigit_of_startsIdentifier hstarts) ?_
        rintro rfl
        simp [startsIdentifier, isLetter] at hstarts
      refine ⟨ch, word, hx, ?_⟩
      rw [readToken, if_neg (by simp [hnumber]), if_pos hstarts, hc, Lexeme.spelling,
        takeWhile_append_of_head hall hafter]
      simp [Lexeme.tokenAt, Lexeme.spelling]
  | stringLiteral x =>
    refine ⟨'"', _, by simp [Lexeme.spelling]; rfl, ?_⟩
    rw [hliteral (.inl rfl) hl (by simp [hc, Lexeme.spelling])]
    simp [Lexeme.tokenAt, Lexeme.spelling]
  | charLiteral x =>
    refine ⟨'\'', _, by simp [Lexeme.spelling]; rfl, ?_⟩
    rw [hliteral (.inr rfl) hl (by simp [hc, Lexeme.spelling])]
    simp [Lexeme.tokenAt, Lexeme.spelling]
  | punct ch =>
    obtain ⟨hpunct, hident, hstring, hchar, hnumber⟩ := hl
    refine ⟨ch, [], by simp [Lexeme.spelling], ?_⟩
    rw [readToken, if_neg (by simpa [hc, Lexeme.spelling] using hnumber),
      if_neg (by simp [hident]), if_neg (by simp [hstring, hchar]), if_pos hpunct]
    simp [Lexeme.tokenAt, Lexeme.spelling, Cursor.advanceBy]
  | eof => cases hl

/-- **How a lexeme begins**: with no blank, and with a character that begins a gap only if it is
nothing else. -/
theorem Lexeme.Ends.first {word : List Char} (h : l.Ends after)
    (hl : l.spelling.toList = ch :: word) :
    Text.isBlank ch = false ∧ (ch = '#' ∨ ch = '/' → l = .punct ch) := by
  have hdigit (hch : ch = '.' ∨ isDigit ch = true) :
      Text.isBlank ch = false ∧ ¬ (ch = '#' ∨ ch = '/') := by
    rcases hch with rfl | hch
    · decide
    · have hn := toNat_of_isDigit hch
      refine ⟨isBlank_eq_false (by omega), ?_⟩
      rintro (rfl | rfl) <;> simp [isDigit] at hch
  cases l with
  | number n =>
    have hstarts := h.1
    rw [show n.text.toList = _ from hl] at hstarts
    obtain ⟨hblank, hne⟩ := hdigit (by
      unfold startsNumber at hstarts
      grind)
    exact ⟨hblank, fun hch => absurd hch hne⟩
  | identifier x =>
    have hstarts := h.1
    rw [show x.toList = _ from hl] at hstarts
    have hstarts : startsIdentifier ch = true := hstarts
    have hn := toNat_of_startsIdentifier hstarts
    refine ⟨isBlank_eq_false (by omega), ?_⟩
    rintro (rfl | rfl) <;> simp [startsIdentifier, isLetter] at hstarts
  | stringLiteral x =>
    obtain ⟨rfl, -⟩ : '"' = ch ∧ _ := by simpa [spelling] using hl
    exact ⟨by decide, by simp⟩
  | charLiteral x =>
    obtain ⟨rfl, -⟩ : '\'' = ch ∧ _ := by simpa [spelling] using hl
    exact ⟨by decide, by simp⟩
  | punct x =>
    obtain rfl : x = ch := by simp_all [spelling]
    have hpunct := h.1
    simp only [isPunctuation, Bool.or_eq_true, Bool.and_eq_true, decide_eq_true_eq] at hpunct
    exact ⟨isBlank_eq_false (by omega), fun _ => rfl⟩
  | eof => cases h

end Token

end TypeLayout
