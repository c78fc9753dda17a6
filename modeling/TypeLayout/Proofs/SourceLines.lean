import TypeLayout.Proofs.Lossless

/-!
# The lines that are shown with an error

A cursor remembers where the last few lines start, and it does so in one place only: when it goes
past a newline (`Cursor.advance`). Whatever is read, skipped or refused, the cursor is moved by
that and by nothing else, apart from the mark that a token has begun (`Cursor.Shift`). So the lines
that it shows are the right ones at every moment, after any calls, failed ones included
(`context_exact`).
-/

namespace TypeLayout

open List

variable {depth : ℕ}

/-! ### Pieces between separators -/

namespace Text

variable (sep : Char)

/-- The first piece ends where the character stands for the first time. -/
theorem exists_splitAt (cs : List Char) :
    ∃ pieces, splitAt sep cs = cs.takeWhile (· != sep) :: pieces := by
  induction cs with
  | nil => exact ⟨[], rfl⟩
  | cons c cs ih =>
    obtain ⟨pieces, hpieces⟩ := ih
    rw [splitAt]
    split
    · rename_i hc
      exact ⟨splitAt sep cs, by simp [hc]⟩
    · rename_i hc
      exact ⟨pieces, by simp [hpieces, hc]⟩

theorem splitAt_eq_splitOn (cs : List Char) : splitAt sep cs = cs.splitOn sep := by
  induction cs with
  | nil => rfl
  | cons c cs ih =>
    obtain ⟨pieces, hpieces⟩ := exists_splitAt sep cs
    rw [splitAt, splitOn_cons_eq_if_modifyHead, ← ih, hpieces]
    simp only [beq_iff_eq, modifyHead_cons]

theorem length_splitAt (cs : List Char) : (splitAt sep cs).length = cs.count sep + 1 := by
  induction cs with
  | nil => rfl
  | cons c cs ih =>
    obtain ⟨pieces, hpieces⟩ := exists_splitAt sep cs
    rw [hpieces] at ih
    rw [splitAt]
    split
    · rename_i hc
      simp [hc, hpieces, ih]
    · rename_i hc
      simpa [hpieces, hc] using ih

end Text

variable {c d : Cursor} {text : List Char}

/-- The lines of a text with their numbers. -/
def sourceLines (text : List Char) : List SourceLine :=
  (Text.splitAt '\n' text).mapIdx fun i line => ⟨i + 1, String.ofList line⟩

/-! ### One way to move -/

namespace Cursor

/-- A cursor goes past a character, or marks that a token has begun. -/
inductive Shift : Cursor → Cursor → Prop
  | advance (c : Cursor) : Shift c c.advance
  | stale (c : Cursor) : Shift c { c with fresh := false }

/-- Any number of such moves. -/
abbrev Shifts : Cursor → Cursor → Prop := Relation.ReflTransGen Shift

theorem shifts_advance (c : Cursor) : c.Shifts c.advance := .single (.advance c)

theorem shifts_advanceBy (n : ℕ) (c : Cursor) : c.Shifts (c.advanceBy n) := by
  induction n generalizing c with
  | zero => exact .refl
  | succ n ih => exact (shifts_advance c).trans (ih c.advance)

theorem shifts_toLineEnd (c : Cursor) : c.Shifts c.toLineEnd := shifts_advanceBy _ c

end Cursor

/-- Where reading something leaves the cursor, whether it can be read or not. -/
def leftAt {α : Type} (place : α → Cursor) : Except LexFault α → Cursor
  | .ok a => place a
  | .error fault => fault.after

theorem shifts_skipComment (line : ℕ) (c : Cursor) : c.Shifts (leftAt id (skipComment line c)) := by
  fun_induction skipComment line c with
  | case1 => exact .refl
  | case2 c => exact c.shifts_advanceBy 2
  | case3 c _ _ _ _ ih => exact c.shifts_advance.trans ih

theorem shifts_skipTrivia (c : Cursor) : c.Shifts (leftAt id (skipTrivia c)) := by
  fun_induction skipTrivia c with
  | case1 | case7 => exact .refl
  | case2 c _ _ _ _ ih => exact c.shifts_advance.trans ih
  | case3 c _ _ _ _ _ ih | case4 c _ _ _ _ _ _ ih => exact c.shifts_toLineEnd.trans ih
  | case5 c _ _ _ _ _ _ _ fault hcomment =>
    have hbody := shifts_skipComment c.line (c.advanceBy 2)
    rw [hcomment] at hbody
    exact (c.shifts_advanceBy 2).trans hbody
  | case6 c _ _ _ _ _ _ _ d hcomment ih =>
    have hbody := shifts_skipComment c.line (c.advanceBy 2)
    rw [hcomment] at hbody
    exact ((c.shifts_advanceBy 2).trans hbody).trans ih

theorem shifts_readLiteral (quote : Char) (line : ℕ) (c : Cursor) :
    c.Shifts (leftAt Prod.snd (readLiteral quote line c)) := by
  fun_induction readLiteral quote line c with
  | case1 | case2 => exact .refl
  | case3 c | case4 c => exact c.shifts_advance
  | case5 c _ _ _ hread _ _ _ _ ih | case6 c _ _ _ _ hread _ _ _ _ ih =>
    rw [hread] at ih
    exact (c.shifts_advance.trans c.advance.shifts_advance).trans ih
  | case7 c _ _ _ _ _ _ _ hread ih | case8 c _ _ _ _ _ _ _ _ hread ih =>
    rw [hread] at ih
    exact c.shifts_advance.trans ih

theorem shifts_readToken (c : Cursor) (ch : Char) : c.Shifts (leftAt Token.after (readToken c ch)) := by
  unfold readToken
  dsimp only
  split
  · split
    · exact c.shifts_advanceBy _
    · exact .refl
    · exact c.shifts_advanceBy _
  · split
    · exact c.shifts_advanceBy _
    · split
      · have hliteral := c.shifts_advance.trans (shifts_readLiteral ch c.line c.advance)
        split <;> rename_i hread <;> rw [hread] at hliteral <;> exact hliteral
      · split
        · exact c.shifts_advance
        · exact .refl

theorem shifts_nextToken (c : Cursor) : c.Shifts (leftAt Token.after (nextToken c)) := by
  have htrivia := shifts_skipTrivia c
  unfold nextToken
  split <;> rename_i hskip <;> rw [hskip] at htrivia
  · exact htrivia
  · rename_i d
    split
    · exact htrivia
    · exact (htrivia.tail (.stale d)).trans (shifts_readToken _ _)

theorem shifts_scan (c : Cursor) : c.Shifts (leftAt Token.after (scan c).ending) := by
  fun_induction scan c with
  | case1 c _ hnext | case2 c _ hnext =>
    have hone := shifts_nextToken c
    rwa [hnext] at hone
  | case3 c t hnext _ more ih =>
    have hone := shifts_nextToken c
    rw [hnext] at hone
    exact hone.trans ih

/-! ### What a cursor knows -/

/-- The first line. -/
theorem take_sourceLines (text : List Char) :
    (sourceLines text).take 1 = [⟨1, String.ofList (text.takeWhile (· != '\n'))⟩] := by
  obtain ⟨pieces, hpieces⟩ := Text.exists_splitAt '\n' text
  simp [sourceLines, hpieces]

/-- The line that starts behind a newline. -/
theorem getElem?_sourceLines (front rest : List Char) :
    (sourceLines (front ++ '\n' :: rest))[1 + front.count '\n']? =
      some ⟨1 + front.count '\n' + 1, String.ofList (rest.takeWhile (· != '\n'))⟩ := by
  obtain ⟨pieces, hpieces⟩ := Text.exists_splitAt '\n' rest
  have hlength : 1 + front.count '\n' = (Text.splitAt '\n' front).length := by
    rw [Text.length_splitAt, Nat.add_comm]
  rw [sourceLines, getElem?_mapIdx, Text.splitAt_eq_splitOn, splitOn_append_cons_self,
    ← Text.splitAt_eq_splitOn, ← Text.splitAt_eq_splitOn, hpieces, hlength,
    getElem?_append_right le_rfl, Nat.sub_self]
  rfl

/-- Lines are picked by their number where they stand. -/
theorem filter_sourceLines (text : List Char) (first last : ℕ) :
    (sourceLines text).filter (fun l => first < l.number ∧ l.number ≤ last) =
      ((sourceLines text).take last).drop first := by
  unfold sourceLines
  induction Text.splitAt '\n' text using List.reverseRecOn with
  | nil => simp
  | append_singleton pieces piece ih =>
    rw [mapIdx_concat, filter_append, ih, filter_cons, filter_nil,
      take_append]
    generalize hlines : pieces.mapIdx _ = lines
    have hlength : lines.length = pieces.length := by rw [← hlines, length_mapIdx]
    rw [drop_append, ← hlength]
    congr 1
    dsimp only
    split
    · rename_i hnumber
      obtain ⟨hfirst, hlast⟩ : first < lines.length + 1 ∧ lines.length + 1 ≤ last := by
        simpa using hnumber
      have htake : last - lines.length = last - lines.length - 1 + 1 := by omega
      rw [htake, take_succ_cons, take_nil, List.length_take, Nat.sub_eq_zero_of_le]
      · rfl
      · omega
    · rename_i hnumber
      rw [eq_comm, drop_eq_nil_iff, List.length_take, List.length_take, length_singleton]
      simp only [decide_eq_true_eq, not_and_or, not_lt, not_le] at hnumber
      omega

/-- **A cursor that knows the lines of a text**: it is on the line of its position, and it remembers
that line and the ones before it, as many as it may. -/
structure Cursor.Knows (text : List Char) (depth : ℕ) (c : Cursor) : Prop extends
    c.StandsIn text where
  bound : c.depth = max depth 1
  recent : c.recent.map LineStart.line =
    ((sourceLines text).take c.line).reverse.take (max depth 1)

theorem Cursor.knows_start (text : List Char) (depth : ℕ) :
    (start text depth).Knows text depth where
  toStandsIn := standsIn_start text depth
  bound := rfl
  recent := by
    rw [show (start text depth).line = 1 from rfl, take_sourceLines, reverse_singleton,
      take_of_length_le (by simp)]
    rfl

/-- **One move**: past a newline one more line is known, and one is forgotten if there are too
many. -/
theorem Cursor.Knows.shift (h : c.Knows text depth) (hs : c.Shift d) : d.Knows text depth := by
  cases hs with
  | stale => exact ⟨⟨h.rest, h.inside, h.line⟩, h.bound, h.recent⟩
  | advance =>
    cases hrest : c.rest with
    | nil =>
      have hstay : c.advance = c := by rw [advance, hrest]
      rwa [hstay]
    | cons ch rest =>
      have hpasses := passes_advance hrest
      refine ⟨(h.toStandsIn.passes hpasses).1, hpasses.depth.trans h.bound, ?_⟩
      rw [advance, hrest]
      dsimp only
      split
      · rename_i hbreak
        subst hbreak
        have hline := getElem?_sourceLines (text.take c.position) rest
        rw [← hrest, h.rest, take_append_drop, ← h.line] at hline
        dsimp only
        rw [take_add_one, hline, Option.toList_some, reverse_append,
          reverse_singleton, singleton_append, map_cons, map_take, h.recent,
          h.bound, take_take]
        obtain ⟨n, hn⟩ : ∃ n, max depth 1 = n + 1 := ⟨max depth 1 - 1, by omega⟩
        rw [hn, take_succ_cons, Nat.add_sub_cancel, Nat.min_eq_left (Nat.le_succ n)]
        rfl
      · exact h.recent

theorem Cursor.Knows.shifts (h : c.Knows text depth) (hs : c.Shifts d) : d.Knows text depth := by
  induction hs with
  | refl => exact h
  | tail _ hs ih => exact ih.shift hs

/-! ### Any calls -/

/-- What can be asked of a lexer: the next token, or all that are left. -/
inductive LexerCall where
  | next
  | all

/-- Where a call leaves the cursor. -/
def LexerCall.leave (c : Cursor) : LexerCall → Cursor
  | next => leftAt Token.after (nextToken c)
  | all => leftAt Token.after (scan c).ending

theorem LexerCall.shifts_leave (c : Cursor) (call : LexerCall) : c.Shifts (call.leave c) := by
  cases call with
  | next => exact shifts_nextToken c
  | all => exact shifts_scan c

/-- **The lines that are shown are exact at every moment.** After any calls, failed ones included,
the cursor is on the line of its position, and it shows that line and those before it, as many as
are asked for and at least one, oldest first and each in full. -/
theorem context_exact (source : String) (depth : ℕ) (calls : List LexerCall) :
    let c := calls.foldl LexerCall.leave (Cursor.start source.toList depth)
    c.rest = source.toList.drop c.position ∧
      c.line = 1 + (source.toList.take c.position).count '\n' ∧
      c.context = (sourceLines source.toList).filter fun l =>
        max 1 (c.line + 1 - max depth 1) ≤ l.number ∧ l.number ≤ c.line := by
  intro c
  have hall (c₀ : Cursor) : c₀.Shifts (calls.foldl LexerCall.leave c₀) := by
    induction calls generalizing c₀ with
    | nil => exact .refl
    | cons call calls ih => exact (call.shifts_leave c₀).trans (ih (call.leave c₀))
  have hknows : c.Knows source.toList depth := (Cursor.knows_start _ _).shifts (hall _)
  refine ⟨hknows.rest, hknows.line, ?_⟩
  have hfirst (l : SourceLine) : (max 1 (c.line + 1 - max depth 1) ≤ l.number ∧
      l.number ≤ c.line) ↔ (c.line - max depth 1 < l.number ∧ l.number ≤ c.line) := by omega
  simp only [hfirst]
  have hlength : c.line ≤ (sourceLines source.toList).length := by
    rw [sourceLines, length_mapIdx, Text.length_splitAt, hknows.line, Nat.add_comm]
    exact Nat.succ_le_succ ((take_sublist _ _).count_le _)
  rw [filter_sourceLines, Cursor.context, hknows.recent, take_reverse, reverse_reverse,
    List.length_take, Nat.min_eq_left hlength]

end TypeLayout
