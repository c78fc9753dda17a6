import TypeLayout.Proofs.C.Numerals
import TypeLayout.Proofs.Lossless

/-!
# The tokens of a writing

A text that consists of pieces with blanks between them is divided into just these pieces,
one token for each (`scan_of_written`). Where the tokens stand plays no part.
-/

namespace TypeLayout.C

theorem IntLiteral.exists_digit (n : IntLiteral) : ∃ c cs, n.text = c :: cs ∧ isDigit c = true := by
  obtain ⟨d, ds, hds⟩ := List.exists_cons_of_ne_nil n.filled
  have hproper := n.proper
  cases hr : n.radix with
  | decimal => exact ⟨d, ds ++ n.suffix, by simp [text, hr, Radix.lead, hds],
      by simp_all [Radix.isDigitOf]⟩
  | octal => exact ⟨'0', n.digits ++ n.suffix, by simp [text, hr, Radix.lead], rfl⟩
  | hex upper => cases upper <;> exact ⟨'0', _, by simp [text, hr, Radix.lead]; rfl, rfl⟩

namespace Piece

theorem spelling_lexeme (p : Piece) : p.lexeme.spelling.toList = p.text := by
  cases p with
  | word w => rfl
  | number n => simp [lexeme, text, Lexeme.spelling, IntLiteral.number]
  | quoted q text h => cases q <;> simp [lexeme, Piece.text, Lexeme.spelling, Quote.mark]
  | mark c h => simp [lexeme, text, Lexeme.spelling]

theorem startsNumber_of_isDigit {c : Char} {cs : List Char} (h : isDigit c = true) :
    startsNumber (c :: cs) = true := by
  unfold startsNumber
  split
  · simp_all [isDigit]
  · simp_all
  · simp_all

/-- **A piece is a lexeme** that ends where nothing makes it longer. -/
theorem ends {p : Piece} {rest : List Char} (hs : p.Stops rest) : p.lexeme.Ends rest := by
  cases p with
  | word w => exact ⟨w.starts, w.continues, hs⟩
  | number n =>
    have hread := n.readNumber_text hs
    obtain ⟨c, cs, hc, hdigit⟩ := n.exists_digit
    refine ⟨?_, by simpa [IntLiteral.number] using hread⟩
    rw [IntLiteral.number, String.toList_ofList, hc]
    exact startsNumber_of_isDigit hdigit
  | quoted q text h => cases q <;> simpa [lexeme, Lexeme.Ends, Quote.mark] using h
  | mark c h =>
    simp only [isMark, Bool.and_eq_true, Bool.not_eq_true', bne_iff_ne] at h
    obtain ⟨⟨⟨⟨hpunct, hstart⟩, hdouble⟩, hsingle⟩, -⟩ := h
    refine ⟨hpunct, hstart, hdouble, hsingle, startsNumber_eq_false ?_ hs.1⟩
    refine Bool.eq_false_iff.mpr fun hdigit => ?_
    have hn := toNat_of_isDigit hdigit
    simp only [isPunctuation, Bool.or_eq_true, Bool.and_eq_true, decide_eq_true_eq] at hpunct
    omega

end Piece

/-! ### Texts -/

/-- **The tokens of a writing are its pieces.** -/
theorem scan_of_written {ps : List Piece} {text : List Char} (h : Written ps text) {c : Cursor}
    (hc : c.rest = text) :
    (scan c).tokens.map (·.lexeme) = ps.map Piece.lexeme ∧ ∃ t, (scan c).ending = .ok t := by
  induction h generalizing c with
  | @nil blanks hb =>
    obtain ⟨t, hscan⟩ := scan_blanks (List.all_eq_true.mp hb) hc
    rw [hscan]
    exact ⟨rfl, t, rfl⟩
  | @cons p ps blanks rest hb hs hw ih =>
    have hskips := Cursor.skips_blanks (List.all_eq_true.mp hb) hc
    have hrest : (c.advanceBy blanks.length).rest = p.text ++ rest := by
      rw [Cursor.rest_advanceBy, hc, List.drop_left]
    have hstands : p.lexeme.StandsAt (c.advanceBy blanks.length) rest := by
      refine ⟨by rw [p.spelling_lexeme, hrest], Piece.ends hs, fun hp => ?_, fun hp => ?_⟩
      · cases p with
        | mark m h =>
          obtain rfl : m = '#' := by simpa [Piece.lexeme] using hp
          cases h
        | quoted q => cases q <;> cases hp
        | _ => cases hp
      · cases p with
        | mark m h =>
          obtain rfl : m = '/' := by simpa [Piece.lexeme] using hp
          have hslash := hs.2 rfl
          constructor <;> intro hhead <;> simp [hhead] at hslash
        | quoted q => cases q <;> cases hp
        | _ => cases hp
    obtain ⟨htokens, hending⟩ := ih hstands.rest_after
    rw [hstands.scan hskips]
    exact ⟨congrArg (p.lexeme :: ·) htokens, hending⟩

end TypeLayout.C
