import TypeLayout.Proofs.SplicedScanning

/-!
# Line markers

A `#` is a line marker if no token begins on its line in front of it; then the line is skipped from
there on. Any other `#` is a token (`line_marker`). Blanks and comments in front of it make no
difference.

It is the beginning of a token that counts. A literal can take a line break along, so that only its
end is on the line of a `#` behind it; the line is skipped from there on all the same
(`line_marker_broken_literal`).
-/

namespace TypeLayout

variable {c d : Cursor} {text : List Char} {ts more : List Token} {t : Token}

/-- A token in front of a place begins on the line of that place. -/
def Token.BeginsOnLine (text : List Char) (place : ℕ) (t : Token) : Prop :=
  '\n' ∉ sliceText text t.start place

instance (text : List Char) (place : ℕ) (t : Token) : Decidable (t.BeginsOnLine text place) :=
  inferInstanceAs (Decidable (_ ∉ _))

/-- A character of a token in front of a place is on the line of that place. -/
def Token.OnLine (text : List Char) (place : ℕ) (t : Token) : Prop :=
  ∃ i, t.start ≤ i ∧ i < t.after.position ∧ '\n' ∉ sliceText text i place

/-- The line of a cursor is skipped from there on. -/
def Cursor.SkipsLine (c : Cursor) : Prop := nextToken c = nextToken c.toLineEnd

/-- The character at a cursor is the next token. -/
def Cursor.Returns (ch : Char) (c : Cursor) : Prop :=
  ∃ t, nextToken c = .ok t ∧ t.lexeme = .punct ch ∧ t.line = c.line ∧ t.start = c.position

/-! ### In front of all tokens of a line -/

theorem sliceText_append {first middle last : ℕ} (h : first ≤ middle) (h' : middle ≤ last)
    (hl : middle ≤ text.length) :
    sliceText text first last = sliceText text first middle ++ sliceText text middle last := by
  have hsplit : text.take last = text.take middle ++ (text.take last).drop middle := by
    conv_lhs => rw [← List.take_append_drop middle (text.take last)]
    rw [List.take_take, Nat.min_eq_left h']
  unfold sliceText
  conv_lhs => rw [hsplit]
  exact List.drop_append_of_le_length (by rw [List.length_take]; omega)

/-- **A cursor behind some tokens** is in front of all tokens of its line if none of them begins
there. -/
structure Cursor.Behind (text : List Char) (ts : List Token) (c : Cursor) : Prop extends
    c.StandsIn text where
  tokens : ∀ t ∈ ts, t.start < t.after.position ∧ t.after.position ≤ c.position ∧
    sliceText text t.start t.after.position = t.lexeme.spelling.toList
  fresh_iff : c.fresh = true ↔ ∀ t ∈ ts, ¬ t.BeginsOnLine text c.position

namespace Cursor.Behind

theorem start (text : List Char) (depth : ℕ) : (Cursor.start text depth).Behind text [] :=
  ⟨standsIn_start text depth, by simp, by simp [Cursor.start]⟩

/-- With a line break in what is passed over, the cursor is on a new line. -/
theorem passes {taken : List Char} (h : c.Behind text ts) (hp : c.Passes taken d) :
    d.Behind text ts := by
  obtain ⟨hd, hslice⟩ := h.toStandsIn.passes hp
  have hle : c.position ≤ d.position := by
    rw [hp.position]
    exact Nat.le_add_right _ _
  refine ⟨hd, fun t ht => (h.tokens t ht).imp_right (And.imp_left hle.trans'), ?_⟩
  have hbegins (t : Token) (ht : t ∈ ts) :
      ¬ t.BeginsOnLine text d.position ↔ ¬ t.BeginsOnLine text c.position ∨ '\n' ∈ taken := by
    have hstart := (h.tokens t ht).1.le.trans (h.tokens t ht).2.1
    rw [Token.BeginsOnLine, sliceText_append hstart hle h.inside, hslice, List.mem_append, not_not,
      Token.BeginsOnLine, not_not]
  rw [hp.fresh, Bool.or_eq_true, h.fresh_iff, List.contains_iff_mem]
  constructor
  · rintro (hall | htaken) t ht
    · exact (hbegins t ht).mpr (.inl (hall t ht))
    · exact (hbegins t ht).mpr (.inr htaken)
  · intro hall
    by_cases htaken : '\n' ∈ taken
    · exact .inr htaken
    · exact .inl fun t ht => ((hbegins t ht).mp (hall t ht)).resolve_right htaken

/-- A token begins on the line of its end, unless it takes a line break along. -/
theorem token (h : c.Behind text ts) (hnext : nextToken c = .ok t) (ht : t.lexeme ≠ .eof) :
    t.after.Behind text (ts ++ [t]) := by
  obtain ⟨gap, d, hgap, -, -, ⟨heof, -⟩ | ⟨-, hne, hword⟩⟩ := passes_nextToken hnext
  · exact absurd heof ht
  have hd := h.passes hgap
  have hstart : t.start = d.position := by
    rw [Token.start, hword.position, Nat.add_sub_cancel]
  have hlt : t.start < t.after.position := by
    rw [hstart, hword.position]
    exact Nat.lt_add_of_pos_right (List.length_pos_iff.mpr hne)
  obtain ⟨hafter, hspelled⟩ :=
    Cursor.StandsIn.passes (c := { d with fresh := false }) ⟨hd.rest, hd.inside, hd.line⟩ hword
  refine ⟨hafter, fun u hu => ?_, ?_⟩
  · rcases List.mem_append.mp hu with hu | hu
    · exact (hd.tokens u hu).imp_right (And.imp_left fun h => h.trans (hstart ▸ hlt.le))
    · obtain rfl := List.mem_singleton.mp hu
      exact ⟨hlt, le_rfl, by rw [hstart]; exact hspelled⟩
  · have hself : t.BeginsOnLine text t.after.position ↔ '\n' ∉ t.lexeme.spelling.toList := by
      rw [Token.BeginsOnLine, hstart, hspelled]
    rw [hword.fresh, Bool.false_or, List.contains_iff_mem]
    constructor
    · intro hbreak u hu
      rcases List.mem_append.mp hu with hu | hu
      · have htokens := hd.tokens u hu
        rw [Token.BeginsOnLine, sliceText_append (htokens.1.le.trans htokens.2.1) (hstart ▸ hlt.le)
          hd.inside, hspelled]
        simp [hbreak]
      · obtain rfl := List.mem_singleton.mp hu
        exact fun hbegins => hself.mp hbegins hbreak
    · intro hall
      exact not_not.mp fun hbreak => hall t (by simp) (hself.mpr hbreak)

end Cursor.Behind

theorem behind_lastCursor {depth : ℕ} (h : (scan (.start text depth)).tokens = ts ++ more) :
    (lastCursor (.start text depth) ts).Behind text ts := by
  induction ts using List.reverseRecOn generalizing more with
  | nil => exact .start text depth
  | append_singleton ts t ih =>
    rw [List.append_assoc, List.singleton_append] at h
    have hrest := scan_lastCursor h
    obtain ⟨hnext, ht, -⟩ := nextToken_of_scan (congrArg Scan.tokens hrest)
    rw [lastCursor_concat]
    exact (ih h).token hnext ht

/-! ### Markers -/

section Markers

variable {rest : List Char}

theorem skipsLine_of_fresh (hc : c.rest = '#' :: rest) (hf : c.fresh = true) : c.SkipsLine := by
  rw [Cursor.SkipsLine, nextToken, (Cursor.SkipsPiece.marker hc hf).skipTrivia, nextToken]

theorem returns_of_not_fresh (hc : c.rest = '#' :: rest) (hf : c.fresh = false) :
    c.Returns '#' := by
  have hstands : (Lexeme.punct '#').StandsAt c rest :=
    ⟨hc, ⟨by decide, by decide, by decide, by decide, rfl⟩, fun _ => hf, by simp⟩
  refine ⟨_, hstands.nextToken .refl, rfl, rfl, ?_⟩
  rw [Token.start, hstands.passes.1.position]
  exact Nat.add_sub_cancel _ _

/-- What is behind the line is not the `#` on it. -/
theorem Cursor.Returns.not_skipsLine (h : c.Returns '#') (hc : c.rest = '#' :: rest) :
    ¬ c.SkipsLine := by
  intro hskips
  obtain ⟨t, hnext, hlexeme, -, hstart⟩ := h
  rw [hskips] at hnext
  obtain ⟨gap, d, hgap, -, -, ⟨heof, -⟩ | ⟨-, -, hword⟩⟩ := passes_nextToken hnext
  · cases hlexeme.symm.trans heof
  · have hend := c.passes_toLineEnd.position
    rw [hc, List.takeWhile_cons_of_pos (by decide), List.length_cons] at hend
    rw [Token.start, hword.position, Nat.add_sub_cancel] at hstart
    have hgap := hgap.position
    have hstart : d.position = c.position := hstart
    omega

/-- A token without a line break is on the line on which it begins. -/
theorem Cursor.Behind.onLine_iff (h : c.Behind text ts) (ht : t ∈ ts)
    (hbreak : '\n' ∉ t.lexeme.spelling.toList) :
    t.OnLine text c.position ↔ t.BeginsOnLine text c.position := by
  obtain ⟨hlt, hle, hspelled⟩ := h.tokens t ht
  constructor
  · rintro ⟨i, hstart, hi, hline⟩
    have hfront : '\n' ∉ sliceText text t.start i := by
      rw [← hspelled, sliceText_append hstart hi.le ((hi.le.trans hle).trans h.inside)] at hbreak
      exact fun hmem => hbreak (List.mem_append_left _ hmem)
    rw [Token.BeginsOnLine, sliceText_append hstart (hi.le.trans hle)
      ((hi.le.trans hle).trans h.inside), List.mem_append]
    exact not_or.mpr ⟨hfront, hline⟩
  · exact fun hbegins => ⟨t.start, le_rfl, hlt, hbegins⟩

/-- **A `#` between tokens is a line marker if and only if no token begins on its line in front of
it**, and a token otherwise. So if no token takes a line break along, it is a marker if and only if
no character of a token is on its line in front of it. -/
theorem line_marker {depth : ℕ} (htokens : (scan (.start text depth)).tokens = ts ++ more)
    (hskips : (lastCursor (.start text depth) ts).SkipsTo c) (hc : c.rest = '#' :: rest) :
    (c.SkipsLine ↔ ∀ t ∈ ts, ¬ t.BeginsOnLine text c.position) ∧
      (¬ c.SkipsLine → c.Returns '#') ∧
      ((∀ t ∈ ts, '\n' ∉ t.lexeme.spelling.toList) →
        (c.SkipsLine ↔ ∀ t ∈ ts, ¬ t.OnLine text c.position)) := by
  obtain ⟨taken, hpasses, -⟩ := hskips.passes
  have hbehind := (behind_lastCursor htokens).passes hpasses
  have hline : c.SkipsLine ↔ ∀ t ∈ ts, ¬ t.BeginsOnLine text c.position := by
    rw [← hbehind.fresh_iff]
    refine ⟨fun hskips => ?_, skipsLine_of_fresh hc⟩
    by_contra hf
    exact (returns_of_not_fresh hc (Bool.eq_false_iff.mpr hf)).not_skipsLine hc hskips
  refine ⟨hline, fun hnot => returns_of_not_fresh hc ?_, fun hbreak => hline.trans ?_⟩
  · exact Bool.eq_false_iff.mpr fun hf => hnot (skipsLine_of_fresh hc hf)
  · exact forall₂_congr fun t ht => not_congr (hbehind.onLine_iff ht (hbreak t ht)).symm

end Markers

/-- A `#` behind a comment that ends on its line, and one behind a token. -/
theorem line_marker_both :
    let text := "/*\n*/# 1\nx #".toList
    let c := Cursor.start text defaultContextLines
    (c.advanceBy 5).SkipsLine ∧ (lastCursor c ((scan c).tokens.take 1)).advance.Returns '#' := by
  intro text c
  have hcomment : c.SkipsTo (c.advanceBy 5) := .single (.block rfl (by decide +kernel))
  have hrest : (lastCursor c ((scan c).tokens.take 1)).rest = " #".toList := by decide +kernel
  have hblank : (lastCursor c ((scan c).tokens.take 1)).SkipsTo _ := .single (.blank hrest rfl)
  have hbegins : ¬ ∀ t ∈ (scan c).tokens.take 1,
      ¬ t.BeginsOnLine text (lastCursor c ((scan c).tokens.take 1)).advance.position := by
    decide +kernel
  have hmarker := line_marker (List.nil_append (scan c).tokens).symm hcomment rfl
  have hhash := line_marker (List.take_append_drop 1 (scan c).tokens).symm hblank
    (by rw [Cursor.rest_advance, hrest]; rfl)
  exact ⟨hmarker.1.mpr (by simp), hhash.2.1 (hhash.1.not.mpr hbegins)⟩

/-- **A literal that takes a line break along** ends on the line of the `#` behind it, and that line
is skipped from there on. -/
theorem line_marker_broken_literal :
    let text := "\"\\\n\" # x".toList
    let start := Cursor.start text defaultContextLines
    let c := lastCursor start (scan start).tokens
    c.SkipsTo c.advance ∧ c.advance.rest = "# x".toList ∧ c.advance.SkipsLine ∧
      ∃ t ∈ (scan start).tokens, t.OnLine text c.advance.position := by
  intro text start c
  have hrest : c.rest = " # x".toList := by decide +kernel
  refine ⟨.single (.blank hrest rfl), by rw [Cursor.rest_advance, hrest]; rfl, ?_, ?_⟩
  · have hhash : c.advance.rest = '#' :: " x".toList := by rw [Cursor.rest_advance, hrest]; rfl
    exact skipsLine_of_fresh hhash (by decide +kernel)
  · have hline : ∃ t ∈ (scan start).tokens, t.start ≤ 3 ∧
        3 < t.after.position ∧ '\n' ∉ sliceText text 3 c.advance.position := by decide +kernel
    exact hline.imp fun t ht => ⟨ht.1, 3, ht.2⟩

end TypeLayout
