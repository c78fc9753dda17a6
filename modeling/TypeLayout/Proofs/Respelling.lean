import TypeLayout.Proofs.Lossless

/-!
# Tokens that are written down again

The spellings of the tokens of a text, with blanks between them, are read as the same tokens
(`scan_respelled`). Two things have to be seen for this. A token is read in the same way whatever
comes after it, if that begins with a blank or as before (`Lexeme.Ends.swap`). And no spelling is
mistaken for a gap: a `#` is a token only where a token stands in front of it on its line, and it
still does when the line breaks between tokens are gone, since the only line breaks left are those
in literals.
-/

namespace TypeLayout

variable {c c' d : Cursor} {front back after tail text : List Char}

/-! ### Texts that continue nothing -/

/-- A text that is at its end or begins with a blank. -/
def Parted (tail : List Char) : Prop := ∀ ch ∈ tail.head?, Text.isBlank ch = true

theorem isIdentifierChar_of_isWordChar {ch : Char} (h : isWordChar ch = true) :
    isIdentifierChar ch = true := by
  simp only [isWordChar, Bool.or_eq_true] at h
  simp only [isIdentifierChar, Bool.or_eq_true]
  exact .inl h

namespace Parted

theorem ne (h : Parted tail) {ch : Char} (hch : Text.isBlank ch = false) : tail.head? ≠ some ch := by
  intro heq
  rw [h ch heq] at hch
  cases hch

end Parted

/-- **A text that can take the place of another one** behind a token: it is at its end, begins with
a blank, or begins as the other one does. -/
def Follows (after tail : List Char) : Prop :=
  ∀ ch ∈ tail.head?, Text.isBlank ch = true ∨ after.head? = some ch

theorem Parted.follows (h : Parted tail) (after : List Char) : Follows after tail :=
  fun ch hch => .inl (h ch hch)

theorem follows_cons (ch : Char) (front back : List Char) : Follows (ch :: front) (ch :: back) :=
  fun _ hx => .inr hx

/-- What continues an identifier does not begin the new text if it does not begin the old one. -/
theorem Follows.any {p : Char → Bool} (h : Follows after tail)
    (hp : ∀ ch, p ch = true → isIdentifierChar ch = true) (ha : after.head?.any p = false) :
    tail.head?.any p = false := by
  cases tail with
  | nil => rfl
  | cons ch tail =>
    rcases h ch rfl with hblank | hsame
    · refine Bool.eq_false_iff.mpr fun hch => ?_
      cases (isIdentifierChar_of_isBlank hblank).symm.trans (hp ch hch)
    · simpa [hsame] using ha

/-! ### Lexemes -/

theorem startsNumber_swap (hne : text ≠ []) (hs : startsNumber (text ++ after) = true)
    (hword : after.head?.any isWordChar = false) : startsNumber (text ++ tail) = true := by
  match text with
  | [] => exact absurd rfl hne
  | [ch] =>
    rcases eq_or_ne ch '.' with rfl | hpoint
    · -- a digit after the point would be a word character
      cases after with
      | nil => simp [startsNumber, isDigit] at hs
      | cons x after =>
        have hx : isDigit x = true := hs
        simp [isWordChar, hx] at hword
    · simpa [startsNumber, hpoint] using hs
  | ch :: x :: text =>
    rcases eq_or_ne ch '.' with rfl | hpoint
    · exact hs
    · simpa [startsNumber, hpoint] using hs

/-- **A number is read in the same way in front of a text that begins in the same way**, or with a
blank. -/
theorem readNumber_swap {form : NumberForm} {suffix : Suffix}
    (hs : startsNumber (text ++ after) = true)
    (h : readNumber (text ++ after) = .constant text form suffix) (ht : Follows after tail) :
    startsNumber (text ++ tail) = true ∧ readNumber (text ++ tail) = .constant text form suffix := by
  have hne := readNumber_ne_nil hs h
  obtain ⟨body, letters, rest, hsplit, rfl, hconstant⟩ := readNumber_eq_constant_iff.mp h
  rw [← List.append_assoc, List.append_cancel_left_eq] at hsplit
  subst hsplit
  refine ⟨startsNumber_swap hne hs hconstant.stops, readNumber_eq_constant_iff.mpr
    ⟨body, letters, tail, List.append_assoc _ _ _, rfl, hconstant.shaped, hconstant.fits,
      ht.any (fun _ => isIdentifierChar_of_isWordChar) hconstant.stops, fun hform hpoint => ?_,
      hconstant.octal⟩⟩
  refine hconstant.point hform ?_
  cases letters with
  | cons ch letters => exact hpoint
  | nil =>
    rcases ht '.' hpoint with hblank | hsame
    · cases hblank
    · exact hsame

/-- **A lexeme also ends in front of a text that begins in the same way**, or with a blank. -/
theorem Lexeme.Ends.swap {l : Lexeme String} (h : l.Ends after) (ht : Follows after tail) :
    l.Ends tail := by
  cases l with
  | number n => exact readNumber_swap h.1 h.2 ht
  | identifier x => exact ⟨h.1, h.2.1, ht.any (fun _ => id) h.2.2⟩
  | stringLiteral x | charLiteral x => exact h
  | punct ch =>
    obtain ⟨hpunct, hident, hstring, hchar, hnumber⟩ := h
    refine ⟨hpunct, hident, hstring, hchar, ?_⟩
    rcases eq_or_ne ch '.' with rfl | hpoint
    · refine startsNumber_eq_false (by decide) fun _ => ?_
      refine ht.any (fun x hx => by simp [isIdentifierChar, hx]) ?_
      cases after with
      | nil => rfl
      | cons x after => simpa [startsNumber] using hnumber
    · simpa [startsNumber, hpoint] using hnumber
  | eof => cases h

/-! ### Texts -/

/-- A row of blanks without a line break. -/
def IsSpace (gap : List Char) : Prop := ∀ ch ∈ gap, Text.isBlank ch = true ∧ ch ≠ '\n'

/-- **Words with space between them**: at least one blank from each word to the next. -/
inductive Spaced : List (List Char) → List Char → Prop
  | nil : Spaced [] []
  | last (word : List Char) : Spaced [word] word
  | cons {word gap next text : List Char} {words : List (List Char)} (hne : gap ≠ [])
    (hg : IsSpace gap) (h : Spaced (next :: words) text) :
    Spaced (word :: next :: words) (word ++ gap ++ text)

/-- Behind a word there is nothing, or space and the other words. -/
theorem Spaced.split {word : List Char} {words : List (List Char)} (h : Spaced (word :: words) text) :
    ∃ gap more, text = word ++ (gap ++ more) ∧ IsSpace gap ∧ Spaced words more ∧
      Parted (gap ++ more) := by
  cases h with
  | last => exact ⟨[], [], by simp, by simp [IsSpace], .nil, by simp [Parted]⟩
  | @cons _ gap _ more _ hne hg h =>
    refine ⟨gap, more, by simp, hg, h, ?_⟩
    obtain ⟨ch, gap, rfl⟩ := List.exists_cons_of_ne_nil hne
    rintro x hx
    obtain rfl : ch = x := by simpa using hx
    exact (hg ch List.mem_cons_self).1

/-- **Respelling from any place on.** The cursor in the second text is in front of all tokens of its
line only if the one in the first text is. -/
theorem scan_spaced {t : Token} {gap : List Char} (h : (scan c).ending = .ok t)
    (hs : Spaced ((scan c).tokens.map (·.lexeme.spelling.toList)) text) (hgap : IsSpace gap)
    (hc' : c'.rest = gap ++ text) (hf : c'.fresh = true → c.fresh = true) :
    (scan c').tokens.map (·.lexeme) = (scan c).tokens.map (·.lexeme) ∧
      ∃ t', (scan c').ending = .ok t' := by
  revert c' gap text
  fun_induction scan c with
  | case1 => cases h
  | case2 c t₀ hnext heof =>
    intro c' text gap hs hgap hc' hf
    obtain rfl : text = [] := by cases hs; rfl
    obtain ⟨t', hscan⟩ :=
      scan_blanks (fun x hx => (hgap x hx).1) (hc'.trans (List.append_nil gap))
    rw [hscan]
    exact ⟨rfl, t', rfl⟩
  | case3 c t₀ hnext htoken more ih =>
    intro c' text gap hs hgap hc' hf
    obtain ⟨gap', text', rfl, hgap', hs', hparted⟩ := hs.split
    obtain ⟨d, hskips, ⟨-, rfl⟩ | ⟨after, hstands, ht⟩⟩ := nextToken_cases hnext
    · exact absurd rfl htoken
    obtain ⟨_, hpasses, -⟩ := hskips.passes
    -- the place of the token in the respelled text
    have hpasses' := Cursor.passes_advanceBy hc'
    have hskips' := Cursor.skips_blanks (fun x hx => (hgap x hx).1) hc'
    generalize c'.advanceBy gap.length = d' at hpasses' hskips'
    have hfresh : d'.fresh = c'.fresh := by
      have hbreak : gap.contains '\n' = false := by
        rw [List.contains_eq_mem, decide_eq_false_iff_not]
        exact fun hmem => (hgap _ hmem).2 rfl
      rw [hpasses'.fresh, hbreak, Bool.or_false]
    have hstands' : t₀.lexeme.StandsAt d' (gap' ++ text') := by
      refine ⟨List.append_cancel_left (hpasses'.rest.symm.trans hc'),
        hstands.ends.swap (hparted.follows _), fun hmark => Bool.eq_false_iff.mpr fun hd' => ?_,
        fun _ => ⟨hparted.ne (by decide), hparted.ne (by decide)⟩⟩
      have hd := hstands.marker hmark
      rw [hpasses.fresh, hf (hfresh ▸ hd')] at hd
      cases hd
    obtain ⟨htokens, hending⟩ := ih h hs' hgap' hstands'.rest_after (fun hfr => by
      rw [hstands'.passes.1.fresh] at hfr
      rw [ht]
      exact hstands.passes.1.fresh.trans hfr)
    rw [hstands'.scan hskips']
    exact ⟨congrArg (t₀.lexeme :: ·) htokens, hending⟩

/-- **Tokens that are written down again are the same tokens.** If a text has no fault, then its
tokens, spelled out with space between them, are read without a fault as the same lexemes: the same
sorts with the same texts, and for a number the same form and suffix. -/
theorem scan_respelled {depth depth' : ℕ} {t : Token}
    (h : (scan (.start text depth)).ending = .ok t) {respelled : List Char}
    (hs : Spaced ((scan (.start text depth)).tokens.map (·.lexeme.spelling.toList)) respelled) :
    (scan (.start respelled depth')).tokens.map (·.lexeme) =
        (scan (.start text depth)).tokens.map (·.lexeme) ∧
      ∃ t', (scan (.start respelled depth')).ending = .ok t' :=
  @scan_spaced _ (.start respelled depth') _ t [] h hs (by simp [IsSpace]) rfl fun _ => rfl

/-- A `#` behind a literal with a line break in it and another token, numbers of all forms next to
points, and two slashes. -/
theorem scan_respelled_marks :
    let text := "#m\n'\\\n' x # . 5 .5 0x1FuL / / 1.e-3f // c".toList
    let respelled := "'\\\n'\tx # .\t\t5 .5 0x1FuL / / 1.e-3f".toList
    (scan (.start text defaultContextLines)).tokens.length = 10 ∧
      (scan (.start respelled defaultContextLines)).tokens.map (·.lexeme) =
        (scan (.start text defaultContextLines)).tokens.map (·.lexeme) := by
  intro text respelled
  have hok : (scan (.start text defaultContextLines)).ending.isOk = true := by decide +kernel
  obtain ⟨t, ht⟩ := exists_ok_of_isOk hok
  have hwords : (scan (.start text defaultContextLines)).tokens.map (·.lexeme.spelling.toList) =
      ["'\\\n'", "x", "#", ".", "5", ".5", "0x1FuL", "/", "/", "1.e-3f"].map String.toList := by
    decide +kernel
  refine ⟨by simpa using congrArg List.length hwords, (scan_respelled ht ?_).1⟩
  have hspace : IsSpace [' '] := by
    simp only [IsSpace, List.forall_mem_singleton]
    decide
  have htab : IsSpace ['\t'] := by
    simp only [IsSpace, List.forall_mem_singleton]
    decide
  have htabs : IsSpace ['\t', '\t'] := List.forall_mem_cons.mpr ⟨htab _ List.mem_cons_self, htab⟩
  rw [hwords]
  exact .cons (by simp) htab <| .cons (by simp) hspace <| .cons (by simp) hspace <|
    .cons (by simp) htabs <| .cons (by simp) hspace <| .cons (by simp) hspace <|
    .cons (by simp) hspace <| .cons (by simp) hspace <| .cons (by simp) hspace <| .last _

end TypeLayout
