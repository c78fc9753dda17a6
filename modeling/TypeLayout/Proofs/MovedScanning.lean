import TypeLayout.Proofs.Respelling

/-!
# Scanning a text that stands further down

A text can stand behind other lines of a longer source. It is divided into the same tokens there:
only their lines and positions are larger, by as many lines and characters as stand in front
(`scan_move`), and the lines shown under an error can reach back into what stands in front.

Nothing a scanner does depends on where it is, so each of them commutes with the move
(`Cursor.move`), whether it succeeds or not.
-/

namespace TypeLayout

/-- **How far down a text stands**: behind so many lines and so many characters, the last of those
lines being remembered. -/
structure Move where
  lines : ℕ
  chars : ℕ
  older : List LineStart

/-- A result with what is done to values and to faults. -/
def mapResult {ε α β : Type} (fault : ε → ε) (value : α → β) : Except ε α → Except ε β
  | .error e => .error (fault e)
  | .ok a => .ok (value a)

variable {m : Move} {c : Cursor}

/-! ### Cursors -/

def LineStart.move (m : Move) (start : LineStart) : LineStart :=
  { start with number := start.number + m.lines }

namespace Cursor

/-- The same place in a text that stands further down. -/
def move (m : Move) (c : Cursor) : Cursor :=
  { c with
    position := c.position + m.chars
    line := c.line + m.lines
    recent := (c.recent.map (LineStart.move m) ++ m.older).take (max c.depth 1) }

@[simp] theorem rest_move : (c.move m).rest = c.rest := rfl

@[simp] theorem line_move : (c.move m).line = c.line + m.lines := rfl

@[simp] theorem position_move : (c.move m).position = c.position + m.chars := rfl

@[simp] theorem fresh_move : (c.move m).fresh = c.fresh := rfl

/-- Of the lines remembered before a line break, as many stay as after a move in front of it. -/
theorem take_recent {α : Type} (front rear : List α) (depth : ℕ) :
    ((front ++ rear).take (max depth 1)).take (depth - 1) =
      (front.take (depth - 1) ++ rear).take (max depth 1 - 1) := by
  have hdepth : max depth 1 - 1 = depth - 1 := by omega
  rw [hdepth, List.take_take, min_eq_left (by omega), List.take_append, List.take_append,
    List.take_take, min_self, List.length_take]
  congr 2
  omega

theorem advance_move : (c.move m).advance = c.advance.move m := by
  unfold advance
  rw [rest_move]
  split
  · rfl
  · split
    · have hdepth : max c.depth 1 = max c.depth 1 - 1 + 1 := by omega
      simp only [move, List.map_cons, List.cons_append, List.map_take, LineStart.move]
      rw [take_recent, hdepth, List.take_succ_cons, Nat.add_sub_cancel]
      simp only [Nat.add_right_comm]
    · simp only [move, Nat.add_right_comm]

theorem advanceBy_move (n : ℕ) : (c.move m).advanceBy n = (c.advanceBy n).move m := by
  induction n generalizing c with
  | zero => rfl
  | succ n ih => rw [advanceBy, advanceBy, advance_move, ih]

theorem toLineEnd_move : (c.move m).toLineEnd = c.toLineEnd.move m := advanceBy_move _

/-- What stands between two places stays there. -/
theorem textUntil_move (d : Cursor) (back : ℕ) :
    (c.move m).textUntil (d.move m) back = c.textUntil d back := by
  unfold textUntil
  rw [rest_move, position_move, position_move]
  congr 1
  omega

end Cursor

/-! ### Tokens -/

def LexFault.move (m : Move) (f : LexFault) : LexFault :=
  { f with line := f.line + m.lines, after := f.after.move m }

/-- The same token in a text that stands further down. -/
def Token.move (m : Move) (t : Token) : Token :=
  { t with line := t.line + m.lines, after := t.after.move m }

theorem skipComment_move (line : ℕ) :
    skipComment (line + m.lines) (c.move m) =
      mapResult (LexFault.move m) (Cursor.move m) (skipComment line c) := by
  fun_induction skipComment line c with
  | case1 c hc =>
    rw [skipComment]
    split <;> simp_all [mapResult, LexFault.move]
  | case2 c rest hc =>
    have hclose : (c.move m).rest = '*' :: '/' :: rest := hc
    rw [skipComment]
    split
    · simp_all
    · exact congrArg Except.ok (Cursor.advanceBy_move 2)
    · rename_i hother hrest
      obtain ⟨rfl, rfl⟩ := List.cons.inj (hclose.symm.trans hrest)
      exact absurd rfl (hother rest rfl)
  | case3 c ch rest hne hc ih =>
    rw [skipComment]
    split
    · simp_all
    · simp_all
    · rw [Cursor.advance_move, ih]

theorem skipTrivia_move :
    skipTrivia (c.move m) = mapResult (LexFault.move m) (Cursor.move m) (skipTrivia c) := by
  -- what is in front of the cursor decides, and that has not moved
  have hstep {c : Cursor} {ch : Char} {rest : List Char} (hc : c.rest = ch :: rest) :=
    skipTrivia_of_cons (c := c.move m) hc
  simp only [Cursor.fresh_move, Cursor.line_move, Cursor.toLineEnd_move, Cursor.advance_move,
    Cursor.advanceBy_move, skipComment_move] at hstep
  fun_induction skipTrivia c with
  | case1 c hc =>
    rw [skipTrivia]
    split <;> simp_all [mapResult]
  | case2 c ch rest hc hblank ih => rw [hstep hc, if_pos hblank, ih]
  | case3 c ch rest hc hblank hmarker ih => rw [hstep hc, if_neg hblank, if_pos hmarker, ih]
  | case4 c ch rest hc hblank hmarker hline ih =>
    rw [hstep hc, if_neg hblank, if_neg hmarker, if_pos hline, ih]
  | case5 c ch rest hc hblank hmarker hline hblock fault hskip =>
    rw [hstep hc, if_neg hblank, if_neg hmarker, if_neg hline, if_pos hblock, hskip]
    rfl
  | case6 c ch rest hc hblank hmarker hline hblock d hskip ih =>
    rw [hstep hc, if_neg hblank, if_neg hmarker, if_neg hline, if_pos hblock, hskip]
    exact ih
  | case7 c ch rest hc hblank hmarker hline hblock =>
    rw [hstep hc, if_neg hblank, if_neg hmarker, if_neg hline, if_neg hblock]
    rfl

theorem readLiteral_of_cons (quote : Char) (line : ℕ) {ch : Char} {rest : List Char}
    (hc : c.rest = ch :: rest) :
    readLiteral quote line c =
      if ch = '\n' then .error ⟨line, .unterminatedLiteral quote, c⟩
      else if ch = quote then .ok ([], c.advance)
      else if ch = '\\' then
        match rest with
        | [] => .error ⟨line, .unterminatedLiteral quote, c.advance⟩
        | e :: _ => (readLiteral quote line c.advance.advance).map fun r => (ch :: e :: r.1, r.2)
      else (readLiteral quote line c.advance).map fun r => (ch :: r.1, r.2) := by
  rw [readLiteral]
  split
  · simp_all
  · rename_i hcons
    obtain ⟨rfl, rfl⟩ := List.cons.inj (hc.symm.trans hcons)
    congr 3
    · cases rest with
      | nil => rfl
      | cons e rest =>
        dsimp only
        cases readLiteral quote line c.advance.advance <;> rfl
    · cases readLiteral quote line c.advance <;> rfl

theorem readLiteral_move (quote : Char) (line : ℕ) :
    readLiteral quote (line + m.lines) (c.move m) =
      mapResult (LexFault.move m) (fun r => (r.1, r.2.move m)) (readLiteral quote line c) := by
  have hstep {c : Cursor} {ch : Char} {rest : List Char} (hc : c.rest = ch :: rest) :=
    readLiteral_of_cons (c := c.move m) quote (line + m.lines) hc
  simp only [Cursor.advance_move] at hstep
  fun_induction readLiteral quote line c with
  | case1 c hc =>
    rw [readLiteral]
    split
    · rfl
    · rename_i hrest
      cases hc.symm.trans hrest
  | case2 c rest hc =>
    rw [hstep hc, if_pos rfl]
    rfl
  | case3 c rest hc hne =>
    rw [hstep hc, if_neg hne, if_pos rfl]
    rfl
  | case4 c hne hquote hc =>
    rw [hstep hc, if_neg hne, if_neg hquote, if_pos rfl]
    rfl
  | case5 c e rest fault hmore hne hquote hc _ ih =>
    rw [hstep hc, if_neg hne, if_neg hquote, if_pos rfl]
    dsimp only
    rw [ih, hmore]
    rfl
  | case6 c e rest text d hmore hne hquote hc _ ih =>
    rw [hstep hc, if_neg hne, if_neg hquote, if_pos rfl]
    dsimp only
    rw [ih, hmore]
    rfl
  | case7 c ch rest hc hne hquote hescape fault hmore ih =>
    rw [hstep hc, if_neg hne, if_neg hquote, if_neg hescape, ih, hmore]
    rfl
  | case8 c ch rest hc hne hquote hescape text d hmore ih =>
    rw [hstep hc, if_neg hne, if_neg hquote, if_neg hescape, ih, hmore]
    rfl

theorem readToken_move (ch : Char) :
    readToken (c.move m) ch = mapResult (LexFault.move m) (Token.move m) (readToken c ch) := by
  unfold readToken
  simp only [Cursor.rest_move, Cursor.line_move, Cursor.advance_move, Cursor.advanceBy_move,
    readLiteral_move]
  split
  · split <;> rfl
  · split
    · rfl
    · split
      · cases readLiteral ch c.line c.advance <;> rfl
      · split <;> rfl

theorem nextToken_move :
    nextToken (c.move m) = mapResult (LexFault.move m) (Token.move m) (nextToken c) := by
  unfold nextToken
  rw [skipTrivia_move]
  cases skipTrivia c with
  | error fault => rfl
  | ok d =>
    dsimp only [mapResult]
    rw [Cursor.rest_move]
    split
    · rfl
    · exact @readToken_move m { d with fresh := false } _

/-! ### The whole source -/

def Scan.move (m : Move) (s : Scan) : Scan :=
  ⟨s.tokens.map (Token.move m), mapResult (LexFault.move m) (Token.move m) s.ending⟩

/-- **A text that stands further down is divided into the same tokens**, and has the same fault if
it has one. -/
theorem scan_move (m : Move) (c : Cursor) : scan (c.move m) = (scan c).move m := by
  fun_induction scan c with
  | case1 c fault hnext =>
    rw [scan_eq, nextToken_move, hnext]
    rfl
  | case2 c t hnext heof =>
    rw [scan_eq, nextToken_move, hnext]
    exact if_pos heof
  | case3 c t hnext htoken more ih =>
    rw [scan_eq, nextToken_move, hnext]
    refine (if_neg htoken).trans ?_
    rw [Token.move, ih]
    rfl

end TypeLayout
