import TypeLayout.Proofs.TokenGrammar
import Mathlib.Logic.Relation

/-!
# Tokens and the text they are read from

Reading tokens loses nothing of a text. Every token is spelled in the text at the place where it
was read (`Token.Stands`), and what stands between two of them is a *gap*: blanks, comments and
line markers (`Gap`). A token knows the line on which it begins, so lines are counted right over
every gap and every token, also over one with a line break in it (`scan_lossless`).

All of this comes from one fact about each function that moves a cursor: which text it passes over
(`Cursor.Passes`).
-/

namespace TypeLayout

open List

variable {c d e : Cursor} {text after : List Char} {l : Lexeme String} {t : Token}

/-! ### Unfolding the scanner -/

theorem skipTrivia_of_cons {ch : Char} {rest : List Char} (hc : c.rest = ch :: rest) :
    skipTrivia c =
      if Text.isBlank ch then skipTrivia c.advance
      else if ch = '#' ∧ c.fresh then skipTrivia c.toLineEnd
      else if ch = '/' ∧ rest.head? = some '/' then skipTrivia c.toLineEnd
      else if ch = '/' ∧ rest.head? = some '*' then
        match skipComment c.line (c.advanceBy 2) with
        | .error fault => .error fault
        | .ok d => skipTrivia d
      else .ok c := by
  rw [skipTrivia]
  split
  · simp_all
  · rename_i hcons
    obtain ⟨rfl, rfl⟩ := List.cons.inj (hc.symm.trans hcons)
    simp only [dite_eq_ite]
    congr 4
    split
    · rename_i hcomment
      rw [hcomment]
    · rename_i hcomment
      rw [hcomment]

theorem scan_eq (c : Cursor) :
    scan c = match nextToken c with
      | .error fault => ⟨[], .error fault⟩
      | .ok t =>
        if t.lexeme = .eof then ⟨[], .ok t⟩
        else ⟨t :: (scan t.after).tokens, (scan t.after).ending⟩ := by
  rw [scan]
  split
  · rename_i hnext
    rw [hnext]
  · rename_i hnext
    rw [hnext]
    rfl

/-! ### Passing over text -/

namespace Cursor

variable {rest : List Char}

/-- **A cursor passes over some text** and comes to another place. It is in front of all tokens of
its line if it was so before or if there is a line break in the text. -/
structure Passes (c : Cursor) (taken : List Char) (d : Cursor) : Prop where
  rest : c.rest = taken ++ d.rest
  position : d.position = c.position + taken.length
  line : d.line = c.line + taken.count '\n'
  fresh : d.fresh = (c.fresh || taken.contains '\n')
  depth : d.depth = c.depth

theorem Passes.refl (c : Cursor) : c.Passes [] c := ⟨rfl, rfl, rfl, by simp, rfl⟩

theorem Passes.trans {front back : List Char} (h : c.Passes front d) (h' : d.Passes back e) :
    c.Passes (front ++ back) e where
  rest := by rw [h.rest, h'.rest, append_assoc]
  position := by rw [h'.position, h.position, length_append, Nat.add_assoc]
  line := by rw [h'.line, h.line, count_append, Nat.add_assoc]
  fresh := by
    rw [h'.fresh, h.fresh, Bool.or_assoc]
    simp only [contains_eq_mem, mem_append, Bool.decide_or]
  depth := h'.depth.trans h.depth

theorem passes_advance {ch : Char} (hc : c.rest = ch :: rest) : c.Passes [ch] c.advance := by
  unfold advance
  rw [hc]
  dsimp only
  split
  · rename_i hbreak
    subst hbreak
    exact ⟨by simp [hc], rfl, by simp, by simp, rfl⟩
  · rename_i hbreak
    exact ⟨by simp [hc], rfl, by simp [hbreak], by simp [Ne.symm hbreak], rfl⟩

theorem passes_advanceBy {taken : List Char} (hc : c.rest = taken ++ rest) :
    c.Passes taken (c.advanceBy taken.length) := by
  induction taken generalizing c with
  | nil => exact .refl c
  | cons ch taken ih =>
    have hrest : c.advance.rest = taken ++ rest := by
      rw [rest_advance, hc]
      rfl
    exact (passes_advance hc).trans (ih hrest)

theorem passes_toLineEnd (c : Cursor) :
    c.Passes (c.rest.takeWhile (· != '\n')) c.toLineEnd :=
  passes_advanceBy List.takeWhile_append_dropWhile.symm

end Cursor

/-! ### Gaps -/

/-- A text that is at the end of its line. -/
def AtLineEnd (text : List Char) : Prop := ∀ ch ∈ text.head?, ch = '\n'

/-- **What can stand between two tokens**, if a given text comes next. A line marker and a comment
of one line go on to the end of the line, a block comment to the first place where it can be
closed. -/
inductive Gap (rest : List Char) : List Char → Prop
  | nil : Gap rest []
  | blank {ch : Char} {gap : List Char} (hb : Text.isBlank ch = true) (h : Gap rest gap) :
    Gap rest (ch :: gap)
  | marker {run gap : List Char} (hr : '\n' ∉ run) (he : AtLineEnd (gap ++ rest))
    (h : Gap rest gap) : Gap rest ('#' :: run ++ gap)
  | lineComment {run gap : List Char} (hr : '\n' ∉ run) (he : AtLineEnd (gap ++ rest))
    (h : Gap rest gap) : Gap rest ('/' :: '/' :: run ++ gap)
  | blockComment {body gap : List Char} (hb : ¬ ['*', '/'] <:+: body ++ ['*']) (h : Gap rest gap) :
    Gap rest ('/' :: '*' :: body ++ '*' :: '/' :: gap)

theorem atLineEnd_dropWhile (cs : List Char) : AtLineEnd (cs.dropWhile (· != '\n')) := by
  intro ch hch
  have hfalse := head?_dropWhile_not (· != '\n') cs
  rw [Option.mem_def.mp hch] at hfalse
  simpa using hfalse

/-- A block comment is passed over up to the first place where it is closed. -/
theorem passes_skipComment {line : ℕ} (h : skipComment line c = .ok d) :
    ∃ body, c.Passes (body ++ ['*', '/']) d ∧ ¬ ['*', '/'] <:+: body ++ ['*'] := by
  fun_induction skipComment line c with
  | case1 => cases h
  | case2 c rest hc =>
    obtain rfl := Except.ok.inj h
    exact ⟨[], Cursor.passes_advanceBy hc, by decide⟩
  | case3 c ch rest hopen hc ih =>
    obtain ⟨body, hpasses, hbody⟩ := ih h
    refine ⟨ch :: body, (Cursor.passes_advance hc).trans hpasses, fun hclose => ?_⟩
    rcases List.infix_cons_iff.mp hclose with hhere | hlater
    · -- the comment would have been closed here
      obtain ⟨rfl, hslash⟩ := List.cons_prefix_cons.mp hhere
      have hrest : rest = body ++ ['*', '/'] ++ d.rest := by
        rw [← hpasses.rest, Cursor.rest_advance, hc, tail_cons]
      cases body with
      | nil => simp at hslash
      | cons b body =>
        obtain ⟨rfl, -⟩ := List.cons_prefix_cons.mp hslash
        exact hopen _ rfl hrest
    · exact hbody hlater

/-- **One piece of what is skipped between tokens**: a blank, a line marker or a comment. -/
inductive Cursor.SkipsPiece : Cursor → Cursor → Prop
  | blank {c : Cursor} {ch : Char} {rest : List Char} (hc : c.rest = ch :: rest)
    (hb : Text.isBlank ch = true) : SkipsPiece c c.advance
  | marker {c : Cursor} {rest : List Char} (hc : c.rest = '#' :: rest) (hf : c.fresh = true) :
    SkipsPiece c c.toLineEnd
  | line {c : Cursor} {rest : List Char} (hc : c.rest = '/' :: '/' :: rest) :
    SkipsPiece c c.toLineEnd
  | block {c d : Cursor} {rest : List Char} (hc : c.rest = '/' :: '*' :: rest)
    (h : skipComment c.line (c.advanceBy 2) = .ok d) : SkipsPiece c d

/-- Pieces in a row. -/
abbrev Cursor.SkipsTo : Cursor → Cursor → Prop := Relation.ReflTransGen Cursor.SkipsPiece

namespace Cursor

/-- A piece is passed over, and with it in front a gap is one again. -/
theorem SkipsPiece.passes (h : c.SkipsPiece d) : ∃ taken, c.Passes taken d ∧
    ∀ {gap rest : List Char}, d.rest = gap ++ rest → Gap rest gap → Gap rest (taken ++ gap) := by
  -- both sorts of text that go on to the end of the line
  have hrun (lead : List Char) {rest : List Char} (hlead : '\n' ∉ lead)
      (hc : c.rest = lead ++ rest) :
      ∃ run, c.Passes (lead ++ run) c.toLineEnd ∧ '\n' ∉ run ∧ AtLineEnd c.toLineEnd.rest := by
    have htake : c.rest.takeWhile (· != '\n') = lead ++ rest.takeWhile (· != '\n') := by
      rw [hc, takeWhile_append_of_pos]
      intro ch hch
      exact bne_iff_ne.mpr fun heq => hlead (heq ▸ hch)
    refine ⟨rest.takeWhile (· != '\n'), htake ▸ c.passes_toLineEnd, fun hmem => ?_, ?_⟩
    · simpa using mem_takeWhile_imp hmem
    · rw [rest_toLineEnd]
      exact atLineEnd_dropWhile c.rest
  cases h with
  | blank hc hb => exact ⟨_, passes_advance hc, fun _ => .blank hb⟩
  | marker hc =>
    obtain ⟨run, hpasses, hr, he⟩ := hrun ['#'] (by decide) hc
    exact ⟨_, hpasses, fun hd => .marker hr (hd ▸ he)⟩
  | line hc =>
    obtain ⟨run, hpasses, hr, he⟩ := hrun ['/', '/'] (by decide) hc
    exact ⟨_, hpasses, fun hd => .lineComment hr (hd ▸ he)⟩
  | block hc h =>
    have hopen : c.Passes ['/', '*'] (c.advanceBy 2) := passes_advanceBy hc
    obtain ⟨body, hbody, hclosed⟩ := passes_skipComment h
    refine ⟨_, hopen.trans hbody, fun {gap rest} _ hgap => ?_⟩
    simpa using Gap.blockComment hclosed hgap

/-- **What is skipped in front of a token is a gap.** -/
theorem SkipsTo.passes (h : c.SkipsTo d) : ∃ gap, c.Passes gap d ∧ Gap d.rest gap := by
  induction h using Relation.ReflTransGen.head_induction_on with
  | refl => exact ⟨[], .refl d, .nil⟩
  | head hpiece _ ih =>
    obtain ⟨gap, hgap, hsort⟩ := ih
    obtain ⟨taken, htaken, hmore⟩ := hpiece.passes
    exact ⟨_, htaken.trans hgap, hmore hgap.rest hsort⟩

theorem SkipsPiece.skipTrivia (h : c.SkipsPiece d) : skipTrivia c = skipTrivia d := by
  cases h with
  | blank hc hb => rw [skipTrivia_of_cons hc, if_pos hb]
  | marker hc hf => rw [skipTrivia_of_cons hc, if_neg (by decide), if_pos ⟨rfl, hf⟩]
  | line hc => rw [skipTrivia_of_cons hc, if_neg (by decide), if_neg (by simp), if_pos ⟨rfl, rfl⟩]
  | block hc h =>
    rw [skipTrivia_of_cons hc, if_neg (by decide), if_neg (by simp), if_neg (by simp),
      if_pos ⟨rfl, rfl⟩, h]

theorem SkipsTo.skipTrivia (h : c.SkipsTo d) : skipTrivia c = skipTrivia d := by
  induction h with
  | refl => rfl
  | tail _ h ih => rw [ih, h.skipTrivia]

theorem skips_blanks {blanks rest : List Char} (hb : ∀ ch ∈ blanks, Text.isBlank ch = true)
    (hc : c.rest = blanks ++ rest) : c.SkipsTo (c.advanceBy blanks.length) := by
  induction blanks generalizing c with
  | nil => exact .refl
  | cons ch blanks ih =>
    obtain ⟨hch, hb⟩ := List.forall_mem_cons.mp hb
    exact .head (.blank hc hch) (ih hb (by rw [rest_advance, hc]; rfl))

/-- A cursor in front of no piece. -/
def Stops (c : Cursor) : Prop := ∀ ch rest, c.rest = ch :: rest →
  Text.isBlank ch = false ∧ ¬ (ch = '#' ∧ c.fresh = true) ∧
    ¬ (ch = '/' ∧ rest.head? = some '/') ∧ ¬ (ch = '/' ∧ rest.head? = some '*')

theorem Stops.skipTrivia (h : c.Stops) : skipTrivia c = .ok c := by
  cases hc : c.rest with
  | nil =>
    rw [TypeLayout.skipTrivia]
    split
    · rfl
    · simp_all
  | cons ch rest =>
    obtain ⟨hblank, hmarker, hline, hopen⟩ := h ch rest hc
    rw [skipTrivia_of_cons hc, if_neg (by simp [hblank]), if_neg hmarker, if_neg hline, if_neg hopen]

end Cursor

/-- **Skipping goes on as long as there are pieces.** -/
theorem skips_of_skipTrivia (h : skipTrivia c = .ok d) : c.SkipsTo d ∧ d.Stops := by
  fun_induction skipTrivia c with
  | case1 c hc =>
    obtain rfl := Except.ok.inj h
    exact ⟨.refl, by simp [Cursor.Stops, hc]⟩
  | case2 c ch rest hc hblank ih => exact (ih h).imp_left (.head (.blank hc hblank))
  | case3 c ch rest hc hblank hmarker ih =>
    obtain ⟨rfl, hfresh⟩ := hmarker
    exact (ih h).imp_left (.head (.marker hc hfresh))
  | case4 c ch rest hc hblank hmarker hslash ih =>
    obtain ⟨rfl, hhead⟩ := hslash
    obtain ⟨cs, rfl⟩ := List.head?_eq_some_iff.mp hhead
    exact (ih h).imp_left (.head (.line hc))
  | case5 => cases h
  | case6 c ch rest hc hblank hmarker hslash hopen d₁ hcomment ih =>
    obtain ⟨rfl, hstar⟩ := hopen
    obtain ⟨cs, rfl⟩ := List.head?_eq_some_iff.mp hstar
    exact (ih h).imp_left (.head (.block hc hcomment))
  | case7 c ch rest hc hblank hmarker hslash hopen =>
    obtain rfl := Except.ok.inj h
    refine ⟨.refl, fun x more hx => ?_⟩
    obtain ⟨rfl, rfl⟩ := List.cons.inj (hc.symm.trans hx)
    exact ⟨by simpa using hblank, hmarker, hslash, hopen⟩

/-! ### Tokens -/

/-- **A lexeme that stands at a cursor**, in front of some text. A `#` begins a line marker where no
token stands in front of it, and a slash may begin a comment. -/
structure Lexeme.StandsAt (c : Cursor) (after : List Char) (l : Lexeme String) : Prop where
  rest : c.rest = l.spelling.toList ++ after
  ends : l.Ends after
  marker : l = .punct '#' → c.fresh = false
  comment : l = .punct '/' → after.head? ≠ some '/' ∧ after.head? ≠ some '*'

/-- A token as it is read at a cursor, whose line is no longer in front of all tokens. -/
def Lexeme.readAt (c : Cursor) (l : Lexeme String) : Token := l.tokenAt { c with fresh := false }

/-- **The next token comes after a gap**, or the end of the text does. -/
theorem nextToken_cases (h : nextToken c = .ok t) : ∃ d, c.SkipsTo d ∧
    (d.rest = [] ∧ t = ⟨d.line, .eof, d⟩ ∨
      ∃ after, t.lexeme.StandsAt d after ∧ t = t.lexeme.readAt d) := by
  unfold nextToken at h
  split at h
  · cases h
  rename_i d hskip
  obtain ⟨hskips, hstops⟩ := skips_of_skipTrivia hskip
  refine ⟨d, hskips, ?_⟩
  split at h
  · exact .inl ⟨‹_›, (Except.ok.inj h).symm⟩
  rename_i ch rest hrest
  obtain ⟨ht, after, hafter, hends⟩ := ends_of_readToken (c := { d with fresh := false }) hrest h
  obtain ⟨-, hmarker, hline, hopen⟩ := hstops ch rest hrest
  have hpunct {x : Char} (hx : t.lexeme = .punct x) : x = ch ∧ after = rest := by
    have hcons : d.rest = x :: after := by simpa [hx, Lexeme.spelling] using hafter
    exact List.cons.inj (hcons.symm.trans hrest)
  refine .inr ⟨after, ⟨hafter, hends, fun hx => ?_, fun hx => ?_⟩, ht⟩
  · obtain ⟨rfl, -⟩ := hpunct hx
    simpa using hmarker
  · obtain ⟨rfl, rfl⟩ := hpunct hx
    exact ⟨by simpa using hline, by simpa using hopen⟩

/-- **A lexeme that stands behind a gap is the next token.** -/
theorem Lexeme.StandsAt.nextToken (hl : l.StandsAt d after) (hs : c.SkipsTo d) :
    nextToken c = .ok (l.readAt d) := by
  obtain ⟨ch, word, hword, hread⟩ :=
    readToken_of_ends (c := { d with fresh := false }) hl.ends hl.rest
  have hrest : d.rest = ch :: (word ++ after) := by rw [hl.rest, hword, cons_append]
  obtain ⟨hblank, hpunct⟩ := hl.ends.first hword
  have hself : d.Stops := by
    intro x rest hx
    obtain ⟨rfl, rfl⟩ := List.cons.inj (hrest.symm.trans hx)
    have hslash (hch : ch = '/') : word = [] ∧ l = .punct '/' := by
      have hl := hch ▸ hpunct (.inr hch)
      exact ⟨by simpa [hl, Lexeme.spelling, hch] using hword.symm, hl⟩
    refine ⟨hblank, ?_, ?_, ?_⟩
    · rintro ⟨rfl, hfresh⟩
      simp [hl.marker (hpunct (.inl rfl))] at hfresh
    · rintro ⟨hch, hhead⟩
      obtain ⟨rfl, hl'⟩ := hslash hch
      exact (hl.comment hl').1 hhead
    · rintro ⟨hch, hhead⟩
      obtain ⟨rfl, hl'⟩ := hslash hch
      exact (hl.comment hl').2 hhead
  rw [TypeLayout.nextToken, hs.skipTrivia, hself.skipTrivia]
  dsimp only
  split
  · simp_all
  · rename_i hcons
    obtain ⟨rfl, -⟩ := List.cons.inj (hrest.symm.trans hcons)
    exact hread

theorem Lexeme.Ends.ne_eof (h : l.Ends after) : l ≠ .eof := by
  rintro rfl
  exact h

/-- A text of blanks has no tokens. -/
theorem scan_blanks {blanks : List Char} (hb : ∀ ch ∈ blanks, Text.isBlank ch = true)
    (hc : c.rest = blanks) : ∃ t, scan c = ⟨[], .ok t⟩ := by
  rw [← append_nil blanks] at hc
  have hend : (c.advanceBy blanks.length).rest = [] := by
    rw [Cursor.rest_advanceBy, hc, drop_left]
  have hstops : (c.advanceBy blanks.length).Stops := by simp [Cursor.Stops, hend]
  have hnext : nextToken c =
      .ok ⟨(c.advanceBy blanks.length).line, .eof, c.advanceBy blanks.length⟩ := by
    rw [nextToken, (Cursor.skips_blanks hb hc).skipTrivia, hstops.skipTrivia]
    dsimp only
    rw [hend]
  exact ⟨_, by rw [scan_eq, hnext]; exact if_pos rfl⟩

theorem scan_of_token (hnext : nextToken c = .ok t) (htoken : t.lexeme ≠ .eof) :
    scan c = ⟨t :: (scan t.after).tokens, (scan t.after).ending⟩ := by
  rw [scan_eq, hnext]
  exact if_neg htoken

namespace Lexeme.StandsAt

variable {l : Lexeme String} {after : List Char}

/-- **Reading a token passes over its spelling**, which is not empty. -/
theorem passes (h : l.StandsAt c after) :
    ({ c with fresh := false } : Cursor).Passes l.spelling.toList (l.readAt c).after ∧
      l.spelling.toList ≠ [] := by
  obtain ⟨ch, word, hword, -⟩ := readToken_of_ends h.ends h.rest
  exact ⟨Cursor.passes_advanceBy (c := { c with fresh := false }) h.rest, by simp [hword]⟩

theorem exists_first (h : l.StandsAt c after) : ∃ ch ∈ c.rest.head?, Text.isBlank ch = false := by
  obtain ⟨ch, word, hword⟩ := exists_cons_of_ne_nil h.passes.2
  exact ⟨ch, by rw [h.rest, hword]; rfl, (h.ends.first hword).1⟩

theorem rest_after (h : l.StandsAt c after) : (l.readAt c).after.rest = after :=
  append_cancel_left (h.passes.1.rest.symm.trans h.rest)

theorem scan (h : l.StandsAt d after) (hs : c.SkipsTo d) :
    scan c = ⟨l.readAt d :: (TypeLayout.scan (l.readAt d).after).tokens,
      (TypeLayout.scan (l.readAt d).after).ending⟩ :=
  scan_of_token (h.nextToken hs) h.ends.ne_eof

end Lexeme.StandsAt

/-- A token begins where the gap in front of it ends, and from there on its line is no longer in
front of all tokens. -/
theorem passes_nextToken (h : nextToken c = .ok t) :
    ∃ gap d, c.Passes gap d ∧ Gap d.rest gap ∧ t.line = d.line ∧
      (t.lexeme = .eof ∧ d.rest = [] ∧ t.after = d ∨
        t.lexeme ≠ .eof ∧ t.lexeme.spelling.toList ≠ [] ∧
          ({ d with fresh := false }).Passes t.lexeme.spelling.toList t.after) := by
  obtain ⟨d, hskips, ⟨hend, rfl⟩ | ⟨after, hstands, ht⟩⟩ := nextToken_cases h
  · obtain ⟨gap, hpasses, hgap⟩ := hskips.passes
    exact ⟨gap, d, hpasses, hgap, rfl, .inl ⟨rfl, hend, rfl⟩⟩
  · obtain ⟨gap, hpasses, hgap⟩ := hskips.passes
    obtain ⟨hword, hne⟩ := hstands.passes
    rw [← ht] at hword
    exact ⟨gap, d, hpasses, hgap, by rw [ht]; rfl, .inr ⟨hstands.ends.ne_eof, hne, hword⟩⟩

/-! ### Places in a text -/

/-- A cursor is at its position in a text, on the line of that position. -/
structure Cursor.StandsIn (text : List Char) (c : Cursor) : Prop where
  rest : c.rest = text.drop c.position
  inside : c.position ≤ text.length
  line : c.line = 1 + (text.take c.position).count '\n'

theorem Cursor.standsIn_start (text : List Char) (depth : ℕ) : (start text depth).StandsIn text :=
  ⟨rfl, Nat.zero_le _, rfl⟩

/-- What is passed over stands in the text, between the two places. -/
theorem Cursor.StandsIn.passes {taken : List Char} (h : c.StandsIn text) (hp : c.Passes taken d) :
    d.StandsIn text ∧ sliceText text c.position d.position = taken := by
  have hlength : taken.length ≤ text.length - c.position := by
    have := congrArg List.length (h.rest.symm.trans hp.rest)
    rw [length_drop, length_append] at this
    omega
  have hslice : sliceText text c.position d.position = taken := by
    rw [sliceText, drop_take, ← h.rest, hp.position, Nat.add_sub_cancel_left, hp.rest,
      take_left]
  refine ⟨⟨?_, ?_, ?_⟩, hslice⟩
  · rw [hp.position, ← drop_drop, ← h.rest, hp.rest, drop_left]
  · have := h.inside
    have := hp.position
    omega
  · rw [hp.line, h.line, hp.position, take_add, ← h.rest, hp.rest, take_left,
      count_append, Nat.add_assoc]

/-! ### The whole text -/

/-- Where a token begins: as many characters before its end as it is spelled with. -/
def Token.start (t : Token) : ℕ := t.after.position - t.lexeme.spelling.toList.length

/-- **A token stands in a text**, after a place where something else stopped. -/
structure Token.Stands (text : List Char) (stop : ℕ) (t : Token) : Prop where
  /-- It does not begin before the place. -/
  behind : stop ≤ t.start
  /-- Up to where it begins there is only a gap. -/
  gap : Gap (text.drop t.start) (sliceText text stop t.start)
  /-- It ends behind its beginning and inside the text. -/
  filled : t.start < t.after.position
  inside : t.after.position ≤ text.length
  /-- What it is spelled with is what stands there. -/
  spelled : sliceText text t.start t.after.position = t.lexeme.spelling.toList
  /-- Its line is the one of its first character. -/
  line : t.line = 1 + (text.take t.start).count '\n'

/-- **Tokens that stand in a text** one after the other, from a place on. -/
def StandFrom (text : List Char) : (stop : ℕ) → List Token → Prop
  | _, [] => True
  | stop, t :: ts => t.Stands text stop ∧ StandFrom text t.after.position ts

/-- Where the last of some tokens stops. -/
def lastStop : (stop : ℕ) → List Token → ℕ
  | stop, [] => stop
  | _, t :: ts => lastStop t.after.position ts

theorem Token.stands_of_passes {gap : List Char} (hc : c.StandsIn text) (hgap : c.Passes gap d)
    (hsort : Gap d.rest gap) (hline : t.line = d.line) (hne : t.lexeme.spelling.toList ≠ [])
    (hword : ({ d with fresh := false }).Passes t.lexeme.spelling.toList t.after) :
    t.Stands text c.position ∧ t.after.StandsIn text := by
  obtain ⟨hd, hslice⟩ := hc.passes hgap
  have hd' : ({ d with fresh := false } : Cursor).StandsIn text := ⟨hd.rest, hd.inside, hd.line⟩
  obtain ⟨hafter, hspelled⟩ := hd'.passes hword
  have hstart : t.start = d.position := by
    rw [Token.start, hword.position, Nat.add_sub_cancel]
  refine ⟨⟨?_, ?_, ?_, hafter.inside, ?_, ?_⟩, hafter⟩
  · rw [hstart, hgap.position]
    exact Nat.le_add_right _ _
  · rwa [hstart, hslice, ← hd.rest]
  · rw [hstart, hword.position]
    exact Nat.lt_add_of_pos_right (List.length_pos_iff.mpr hne)
  · rwa [hstart]
  · rw [hline, hd.line, hstart]

/-- From any place on, the tokens stand in the text, and if there is no fault the rest of the text
is a gap. -/
theorem standFrom_scan (hc : c.StandsIn text) :
    StandFrom text c.position (scan c).tokens ∧
      ∀ t, (scan c).ending = .ok t → t.after.StandsIn text ∧ t.after.rest = [] ∧
        Gap [] (text.drop (lastStop c.position (scan c).tokens)) := by
  fun_induction scan c with
  | case1 c fault hnext => exact ⟨trivial, by simp⟩
  | case2 c t' hnext heof =>
    refine ⟨trivial, fun t ht => ?_⟩
    obtain rfl := Except.ok.inj ht
    obtain ⟨gap, d, hgap, hsort, -, ⟨-, hend, rfl⟩ | ⟨hne, -⟩⟩ := passes_nextToken hnext
    · refine ⟨(hc.passes hgap).1, hend, ?_⟩
      have hrest : text.drop c.position = gap := by
        rw [← hc.rest, hgap.rest, hend, append_nil]
      rwa [lastStop, hrest, ← hend]
    · exact absurd heof hne
  | case3 c t' hnext htoken more ih =>
    obtain ⟨gap, d, hgap, hsort, hline, ⟨heof, -⟩ | ⟨-, hne, hword⟩⟩ := passes_nextToken hnext
    · exact absurd heof htoken
    · obtain ⟨hstands, hafter⟩ := Token.stands_of_passes hc hgap hsort hline hne hword
      obtain ⟨htokens, hending⟩ := ih hafter
      exact ⟨⟨hstands, htokens⟩, hending⟩

/-- Every token of a text knows the rest of it. -/
theorem standsIn_scan (hc : c.StandsIn text) : ∀ t ∈ (scan c).tokens, t.after.StandsIn text := by
  fun_induction scan c with
  | case1 | case2 => simp
  | case3 c t' hnext htoken more ih =>
    obtain ⟨gap, d, hgap, hsort, hline, ⟨heof, -⟩ | ⟨-, hne, hword⟩⟩ := passes_nextToken hnext
    · exact absurd heof htoken
    · have hafter := (Token.stands_of_passes hc hgap hsort hline hne hword).2
      exact List.forall_mem_cons.mpr ⟨hafter, ih hafter⟩

theorem exists_ok_of_isOk {ε α : Type} {x : Except ε α} (h : x.isOk = true) : ∃ a, x = .ok a := by
  cases x with
  | error e => cases h
  | ok a => exact ⟨a, rfl⟩

/-- **Reading tokens loses nothing.** The tokens of a text, up to its end or to the first fault,
stand in it one after the other with gaps between them; if there is no fault, the rest is a gap
too, and reading ends where the text does. -/
theorem scan_lossless (text : List Char) (depth : ℕ) :
    StandFrom text 0 (scan (.start text depth)).tokens ∧
      ∀ t, (scan (.start text depth)).ending = .ok t → t.after.position = text.length ∧
        Gap [] (text.drop (lastStop 0 (scan (.start text depth)).tokens)) := by
  obtain ⟨htokens, hending⟩ := standFrom_scan (Cursor.standsIn_start text depth)
  refine ⟨htokens, fun t ht => ?_⟩
  obtain ⟨hplace, hend, hgap⟩ := hending t ht
  have hdrop := hplace.rest.symm.trans hend
  exact ⟨le_antisymm hplace.inside (List.drop_eq_nil_iff.mp hdrop), hgap⟩

/-- A line marker and a comment with a line break in it, and a literal that takes one along. -/
theorem scan_lossless_broken_literal :
    let text := "#m\n/* a\n*/ \"\\\n\" x// c".toList
    let s := scan (.start text defaultContextLines)
    s.tokens.map (fun t => (t.line, t.start, t.after.position)) = [(3, 11, 15), (4, 16, 17)] ∧
      StandFrom text 0 s.tokens ∧
      ∃ t, s.ending = .ok t ∧ t.after.position = text.length ∧
        Gap [] (text.drop (lastStop 0 s.tokens)) := by
  intro text s
  obtain ⟨htokens, hending⟩ := scan_lossless text defaultContextLines
  have hok : s.ending.isOk = true := by decide +kernel
  obtain ⟨t, ht⟩ := exists_ok_of_isOk hok
  exact ⟨by decide +kernel, htokens, t, ht, hending t ht⟩

end TypeLayout
