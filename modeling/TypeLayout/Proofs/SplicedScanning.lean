import TypeLayout.Proofs.Respelling

/-!
# Scanning in front of another text

Two cursors may have the same text in front of them up to some place, and behind it each a text of
its own (`Cursor.Spliced`). Then the tokens up to that place are the same (`scan_splice`): each is
read up to a character that has not changed, or it is one that the new text does not run into. What
stands between tokens is skipped again piece by piece.
-/

namespace TypeLayout

open List

variable {c c' d d' : Cursor} {text more more' back back' : List Char} {x : Char} {q k l : ℕ}
  {front rear ts : List Token} {t : Token}

/-! ### Tokens -/

/-- **A mark**: punctuation that is a token of its own, whatever comes next. -/
def Token.isMark (t : Token) : Bool :=
  match t.lexeme with
  | .punct ch => ch != '/' && ch != '.'
  | _ => false

theorem Token.exists_of_isMark (h : t.isMark = true) :
    ∃ ch, t.lexeme = .punct ch ∧ ch ≠ '/' ∧ ch ≠ '.' := by
  unfold isMark at h
  split at h
  · rename_i ch hch
    exact ⟨ch, hch, by simpa using h⟩
  · cases h

/-- **A text that a token does not run into**, right behind it. -/
def Token.Clears (t : Token) (text : List Char) : Prop := Parted text ∨ t.isMark = true

instance (text : List Char) : Decidable (Parted text) :=
  decidable_of_iff (text.head?.all Text.isBlank = true) (by cases text <;> simp [Parted])

instance (t : Token) (text : List Char) : Decidable (t.Clears text) :=
  inferInstanceAs (Decidable (_ ∨ _))

/-- A token also ends in front of a text that it does not run into. -/
theorem Token.Clears.ends {after : List Char} (h : t.Clears text) (ht : t.lexeme.Ends after) :
    t.lexeme.Ends text := by
  rcases h with hparted | hmark
  · exact ht.swap (hparted.follows _)
  obtain ⟨ch, hch, -, hpoint⟩ := t.exists_of_isMark hmark
  rw [hch] at ht ⊢
  obtain ⟨hpunct, hident, hstring, hchar, hnumber⟩ := ht
  exact ⟨hpunct, hident, hstring, hchar, by simpa [startsNumber, hpoint] using hnumber⟩

/-! ### Cursors with another text further on -/

/-- **Two cursors that have the same text in front of them up to a place**, the position `q` of the
first one's source. Behind it each has a text of its own. The second cursor is `k` characters and
`l` lines further on. -/
structure Cursor.Spliced (q k l : ℕ) (back back' : List Char) (c c' : Cursor) : Prop where
  rest : ∃ front, c.rest = front ++ back ∧ c'.rest = front ++ back' ∧ c.position + front.length = q
  position : c'.position = c.position + k
  line : c'.line = c.line + l
  fresh : c'.fresh = c.fresh

/-- The same token in front of another text. -/
structure Token.Spliced (q k l : ℕ) (back back' : List Char) (t t' : Token) : Prop where
  lexeme : t'.lexeme = t.lexeme
  line : t'.line = t.line + l
  after : t.after.Spliced q k l back back' t'.after

namespace Cursor.Spliced

variable {taken : List Char}

/-- What one cursor passes over in front of the place, the other one has in front of it, too. -/
theorem exists_rest (h : c.Spliced q k l back back' c') (hp : c.Passes taken d)
    (hl : back.length ≤ d.rest.length) :
    ∃ front, d.rest = front ++ back ∧ c'.rest = taken ++ (front ++ back') ∧
      d.position + front.length = q := by
  obtain ⟨front, hc, hc', hq⟩ := h.rest
  have hsplit : taken ++ d.rest = front ++ back := hp.rest.symm.trans hc
  have hposition := hp.position
  rcases List.append_eq_append_iff.mp hsplit with ⟨more, rfl, hd⟩ | ⟨more, rfl, rfl⟩
  · refine ⟨more, hd, by rw [hc', append_assoc], ?_⟩
    rw [length_append] at hq
    omega
  · obtain rfl : more = [] := by
      rw [length_append] at hl
      exact eq_nil_of_length_eq_zero (by omega)
    refine ⟨[], rfl, by simpa using hc', ?_⟩
    simpa [hposition] using hq

theorem passes (h : c.Spliced q k l back back' c') (hp : c.Passes taken d)
    (hl : back.length ≤ d.rest.length) (hp' : c'.Passes taken d') :
    d.Spliced q k l back back' d' := by
  obtain ⟨front, hd, hc', hq⟩ := h.exists_rest hp hl
  have hd' : d'.rest = front ++ back' := append_cancel_left (hp'.rest.symm.trans hc')
  refine ⟨⟨front, hd, hd', hq⟩, ?_, ?_, ?_⟩
  · rw [hp'.position, hp.position, h.position, Nat.add_right_comm]
  · rw [hp'.line, hp.line, h.line, Nat.add_right_comm]
  · rw [hp'.fresh, hp.fresh, h.fresh]

/-- The other cursor passes over it as well. -/
theorem exists_passes (h : c.Spliced q k l back back' c') (hp : c.Passes taken d)
    (hl : back.length ≤ d.rest.length) :
    d.Spliced q k l back back' (c'.advanceBy taken.length) := by
  obtain ⟨front, -, hc', -⟩ := h.exists_rest hp hl
  exact h.passes hp hl (Cursor.passes_advanceBy hc')

end Cursor.Spliced

/-! ### Between tokens -/

theorem skipComment_splice {line : ℕ} (line' : ℕ) (h : c.Spliced q k l back back' c')
    (hskip : skipComment line c = .ok d) (hl : back.length ≤ d.rest.length) :
    ∃ d', skipComment line' c' = .ok d' ∧ d.Spliced q k l back back' d' := by
  fun_induction skipComment line c generalizing c' with
  | case1 => cases hskip
  | case2 c rest hc =>
    obtain rfl := Except.ok.inj hskip
    have hp := @Cursor.passes_advanceBy c rest ['*', '/'] hc
    obtain ⟨front, -, hc', -⟩ := h.exists_rest hp hl
    refine ⟨_, ?_, h.exists_passes hp hl⟩
    rw [skipComment]
    split <;> simp_all
  | case3 c ch rest hopen hc ih =>
    have hp := Cursor.passes_advance hc
    obtain ⟨body, hmore, -⟩ := passes_skipComment hskip
    have hlength := congrArg List.length hmore.rest
    simp only [length_append, length_cons] at hlength
    obtain ⟨front, hrest, hc', -⟩ := h.exists_rest hp (by omega)
    obtain ⟨d', hd', hsplice⟩ := ih (h.exists_passes hp (by omega)) hskip
    refine ⟨d', ?_, hsplice⟩
    -- the comment is not closed here, as its end is further on
    obtain ⟨y, front, rfl⟩ : ∃ y ys, front = y :: ys := by
      refine exists_cons_of_ne_nil ?_
      rintro rfl
      rw [hrest] at hlength
      simp at hlength
      omega
    rw [Cursor.rest_advance, hc, tail_cons] at hrest
    rw [skipComment]
    split
    · simp_all
    · rename_i hclose
      obtain ⟨rfl, hclose⟩ := List.cons.inj (hc'.symm.trans hclose)
      obtain ⟨rfl, -⟩ := List.cons.inj hclose
      exact absurd hrest (hopen _ rfl)
    · exact hd'

theorem Cursor.SkipsTo.suffix (h : c.SkipsTo d) : d.rest <:+ c.rest := by
  obtain ⟨taken, hpasses, -⟩ := h.passes
  exact ⟨taken, hpasses.rest.symm⟩

/-- **A piece is skipped again.** One that goes on to the end of the line does not end at the place,
where it would take the new text along, unless that begins with the end of the line, too. -/
theorem Cursor.SkipsPiece.splice (h : c.SkipsPiece d) (hs : c.Spliced q k l back back' c')
    (hl : back.length ≤ d.rest.length)
    (hcut : AtLineEnd d.rest → (AtLineEnd back → AtLineEnd back') ∨ back.length < d.rest.length) :
    ∃ d', c'.SkipsPiece d' ∧ d.Spliced q k l back back' d' := by
  -- both sorts of text that go on to the end of the line
  have hline (hl : back.length ≤ c.toLineEnd.rest.length)
      (hcut : AtLineEnd c.toLineEnd.rest →
        (AtLineEnd back → AtLineEnd back') ∨ back.length < c.toLineEnd.rest.length) :
      c.toLineEnd.Spliced q k l back back' c'.toLineEnd ∧
        ∃ front, c'.rest = c.rest.takeWhile (· != '\n') ++ front := by
    have hp := c.passes_toLineEnd
    obtain ⟨front, hfront, hc', -⟩ := hs.exists_rest hp hl
    have hstop : AtLineEnd (front ++ back) := by
      rw [← hfront, Cursor.rest_toLineEnd]
      exact atLineEnd_dropWhile c.rest
    have hstop' : AtLineEnd (front ++ back') := by
      rw [hfront] at hcut
      cases front with
      | cons ch front => exact hstop
      | nil =>
        rcases hcut hstop with hend | hlt
        · exact hend hstop
        · exact absurd hlt (lt_irrefl _)
    have htake : c'.rest.takeWhile (· != '\n') = c.rest.takeWhile (· != '\n') := by
      rw [hc']
      refine takeWhile_append_of_head all_takeWhile ?_
      cases hrest : front ++ back' with
      | nil => rfl
      | cons ch rest => simp [hstop' ch (by simp [hrest])]
    exact ⟨hs.passes hp hl (htake ▸ c'.passes_toLineEnd), _, hc'⟩
  cases h with
  | blank hc hb =>
    have hp := Cursor.passes_advance hc
    obtain ⟨front, -, hc', -⟩ := hs.exists_rest hp hl
    exact ⟨_, .blank hc' hb, hs.exists_passes hp hl⟩
  | marker hc hf =>
    obtain ⟨hend, front, hc'⟩ := hline hl hcut
    rw [hc, takeWhile_cons, if_pos (by decide), cons_append] at hc'
    exact ⟨_, .marker hc' (hs.fresh.trans hf), hend⟩
  | line hc =>
    obtain ⟨hend, front, hc'⟩ := hline hl hcut
    rw [hc, takeWhile_cons, if_pos (by decide), takeWhile_cons, if_pos (by decide),
      cons_append, cons_append] at hc'
    exact ⟨_, .line hc', hend⟩
  | block hc h =>
    have hp : c.Passes ['/', '*'] (c.advanceBy 2) := Cursor.passes_advanceBy hc
    have hlength := length_skipComment h
    obtain ⟨front, -, hc', -⟩ := hs.exists_rest hp (by omega)
    obtain ⟨d', hd', hsplice⟩ :=
      skipComment_splice c'.line (hs.exists_passes hp (by omega)) h hl
    exact ⟨d', .block hc' hd', hsplice⟩

/-- **What is skipped in front of a token is skipped again**, if the place is further on or the new
text ends a line there that has ended. -/
theorem Cursor.SkipsTo.splice (h : c.SkipsTo d) (hs : c.Spliced q k l back back' c')
    (hl : back.length ≤ d.rest.length)
    (hcut : (AtLineEnd back → AtLineEnd back') ∨ back.length < d.rest.length) :
    ∃ d', c'.SkipsTo d' ∧ d.Spliced q k l back back' d' := by
  induction h using Relation.ReflTransGen.head_induction_on generalizing c' with
  | refl => exact ⟨c', .refl, hs⟩
  | head hpiece hmore ih =>
    have hlength := (SkipsTo.suffix hmore).length_le
    obtain ⟨c₁', hpiece', hs⟩ := hpiece.splice hs (hl.trans hlength) fun _ =>
      hcut.imp_right (lt_of_lt_of_le · hlength)
    obtain ⟨d', hmore', hs⟩ := ih hs
    exact ⟨d', .head hpiece' hmore', hs⟩

/-! ### Tokens -/

/-- **The next token is the same**, if it ends in front of the place. -/
theorem nextToken_splice (h : c.Spliced q k l back back' c') (hnext : nextToken c = .ok t)
    (htoken : t.lexeme ≠ .eof) (hl : back.length ≤ t.after.rest.length)
    (hclear : t.after.rest.length ≤ back.length → t.Clears back') :
    ∃ t', nextToken c' = .ok t' ∧ t.Spliced q k l back back' t' := by
  obtain ⟨d, hskips, ⟨-, rfl⟩ | ⟨after, hstands, ht⟩⟩ := nextToken_cases hnext
  · exact absurd rfl htoken
  have hafter : t.after.rest = after := by
    rw [ht]
    exact hstands.rest_after
  obtain ⟨hread, hne⟩ := hstands.passes
  rw [← ht] at hread
  have hlonger : t.after.rest.length < d.rest.length := by
    rw [show d.rest = _ from hread.rest, length_append]
    exact Nat.lt_add_of_pos_left (List.length_pos_iff.mpr hne)
  obtain ⟨d', hskips', hd⟩ := hskips.splice h (by omega) (.inr (by omega))
  have hstale : ({ d with fresh := false } : Cursor).Spliced q k l back back'
      { d' with fresh := false } := ⟨hd.rest, hd.position, hd.line, rfl⟩
  obtain ⟨front, hfront, hd', -⟩ := hstale.exists_rest hread hl
  rw [hafter] at hfront hclear
  -- behind the token comes the same character or a new one that it does not run into
  have hstands' : t.lexeme.StandsAt d' (front ++ back') := by
    refine ⟨hd', ?_, fun hmark => hd.fresh ▸ hstands.marker hmark, fun hslash => ?_⟩
    · cases front with
      | nil => exact (hclear (by simp [hfront])).ends hstands.ends
      | cons y front =>
        rw [hfront] at hstands
        exact hstands.ends.swap (follows_cons y (front ++ back) (front ++ back'))
    · cases front with
      | cons y front =>
        rw [hfront] at hstands
        exact hstands.comment hslash
      | nil =>
        rcases hclear (by simp [hfront]) with hparted | hmark
        · exact ⟨hparted.ne (by decide), hparted.ne (by decide)⟩
        · obtain ⟨ch, hch, hne', -⟩ := t.exists_of_isMark hmark
          exact absurd (Lexeme.punct.inj (hch.symm.trans hslash)) hne'
  refine ⟨_, hstands'.nextToken hskips', rfl, ?_, hstale.passes hread hl hstands'.passes.1⟩
  rw [ht]
  exact hd.line

theorem depth_nextToken (h : nextToken c = .ok t) : t.after.depth = c.depth := by
  obtain ⟨gap, d, hgap, -, -, ⟨-, -, rfl⟩ | ⟨-, -, hword⟩⟩ := passes_nextToken h
  · exact hgap.depth
  · exact hword.depth.trans hgap.depth

/-- **Where one source ends the other one goes on**, with the next line if at all. -/
theorem nextToken_splice_end (h : c.Spliced q k l [] back' c') (hback : AtLineEnd back')
    (hnext : nextToken c = .ok t) (heof : t.lexeme = .eof) :
    ∃ d', c'.SkipsTo d' ∧ t.after.Spliced q k l [] back' d' ∧ t.after.rest = [] := by
  obtain ⟨d, hskips, ⟨hend, rfl⟩ | ⟨after, hstands, -⟩⟩ := nextToken_cases hnext
  · obtain ⟨d', hskips', hd⟩ := hskips.splice h (by simp) (.inl fun _ => hback)
    exact ⟨d', hskips', hd, hend⟩
  · exact absurd heof hstands.ends.ne_eof

theorem scan_congr (h : skipTrivia c = skipTrivia c') : scan c = scan c' := by
  rw [scan_eq, scan_eq c', nextToken, nextToken, h]

theorem nextToken_of_scan (h : (scan c).tokens = t :: ts) :
    nextToken c = .ok t ∧ t.lexeme ≠ .eof ∧ (scan t.after).tokens = ts := by
  rw [scan_eq] at h
  split at h
  · cases h
  · rename_i hnext
    split at h
    · cases h
    · rename_i htoken
      obtain ⟨rfl, rfl⟩ := List.cons.inj h
      exact ⟨hnext, htoken, rfl⟩

theorem map_lexeme_of_spliced {ts' : List Token}
    (h : Forall₂ (Token.Spliced q k l back back') ts ts') :
    ts'.map (·.lexeme) = ts.map (·.lexeme) := by
  induction h with
  | nil => rfl
  | cons ht _ ih => rw [map_cons, map_cons, ht.lexeme, ih]

/-- Where the last of some tokens is left. -/
def lastCursor : Cursor → List Token → Cursor
  | c, [] => c
  | _, t :: ts => lastCursor t.after ts

theorem position_lastCursor (c : Cursor) (ts : List Token) :
    (lastCursor c ts).position = lastStop c.position ts := by
  induction ts generalizing c with
  | nil => rfl
  | cons t ts ih => exact ih t.after

theorem lastCursor_concat (c : Cursor) (ts : List Token) (t : Token) :
    lastCursor c (ts ++ [t]) = t.after := by
  induction ts generalizing c with
  | nil => rfl
  | cons u ts ih => exact ih u.after

theorem exists_lastCursor (c : Cursor) (hne : ts ≠ []) : ∃ t ∈ ts, lastCursor c ts = t.after := by
  obtain ⟨more, t, rfl⟩ := (eq_nil_or_concat' ts).resolve_left hne
  exact ⟨t, by simp, lastCursor_concat c more t⟩

theorem scan_lastCursor (h : (scan c).tokens = front ++ rear) :
    scan (lastCursor c front) = ⟨rear, (scan c).ending⟩ := by
  induction front generalizing c with
  | nil =>
    rw [← nil_append rear, ← h]
    rfl
  | cons t front ih =>
    obtain ⟨hnext, htoken, hmore⟩ := nextToken_of_scan h
    rw [lastCursor, ih hmore, scan_of_token hnext htoken]

theorem standsIn_lastCursor (hc : c.StandsIn text) (h : (scan c).tokens = front ++ rear) :
    (lastCursor c front).StandsIn text := by
  rcases eq_or_ne front [] with rfl | hne
  · exact hc
  · obtain ⟨t, ht, hlast⟩ := exists_lastCursor c hne
    rw [hlast]
    exact standsIn_scan hc t (by rw [h]; exact mem_append_left rear ht)

/-- **The tokens in front of the place are the same**, and behind them scanning goes on. -/
theorem scan_splice (h : c.Spliced q k l back back' c') (htokens : (scan c).tokens = front ++ rear)
    (hl : ∀ t ∈ front, back.length ≤ t.after.rest.length)
    (hclear : ∀ t ∈ front, t.after.rest.length ≤ back.length → t.Clears back') :
    ∃ front' d', Forall₂ (Token.Spliced q k l back back') front front' ∧
      (lastCursor c front).Spliced q k l back back' d' ∧ d'.depth = c'.depth ∧
      scan c' = ⟨front' ++ (scan d').tokens, (scan d').ending⟩ := by
  induction front generalizing c c' with
  | nil => exact ⟨[], c', .nil, h, rfl, rfl⟩
  | cons t front ih =>
    obtain ⟨ht, hl⟩ := List.forall_mem_cons.mp hl
    obtain ⟨htclear, hclear⟩ := List.forall_mem_cons.mp hclear
    obtain ⟨hnext, htoken, htokens⟩ := nextToken_of_scan htokens
    obtain ⟨t', hnext', hsplice⟩ := nextToken_splice h hnext htoken ht htclear
    obtain ⟨front', d', hfront, hd, hdepth, hscan⟩ := ih hsplice.after htokens hl hclear
    refine ⟨t' :: front', d', .cons hsplice hfront, hd, hdepth.trans (depth_nextToken hnext'), ?_⟩
    rw [scan_of_token hnext' (by rw [hsplice.lexeme]; exact htoken), hscan, cons_append]

/-- **A source that goes on where another one ends**, with the next line if at all, has the same
tokens up to there. -/
theorem scan_splice_end (h : c.Spliced q k l [] back' c') (hback : AtLineEnd back')
    (hending : (scan c).ending = .ok t) :
    ∃ tokens' d', Forall₂ (Token.Spliced q k l [] back') (scan c).tokens tokens' ∧
      t.after.Spliced q k l [] back' d' ∧ d'.rest = back' ∧ d'.depth = c'.depth ∧
      scan c' = ⟨tokens' ++ (scan d').tokens, (scan d').ending⟩ := by
  have hparted : Parted back' := fun ch hch => by
    rw [hback ch hch]
    decide
  obtain ⟨tokens', d₁, htokens, hd₁, hdepth₁, hscan⟩ := scan_splice h
    (append_nil (scan c).tokens).symm (by simp) fun _ _ _ => .inl hparted
  have hrear := scan_lastCursor (append_nil (scan c).tokens).symm
  generalize lastCursor c (scan c).tokens = d at hd₁ hrear
  rw [scan_eq, hending] at hrear
  split at hrear
  · cases hrear
  rename_i t₀ hnext
  split at hrear
  · rename_i heof
    obtain rfl : t₀ = t := Except.ok.inj (congrArg Scan.ending hrear)
    obtain ⟨d', hskips, hd, hend⟩ := nextToken_splice_end hd₁ hback hnext heof
    obtain ⟨taken, hpasses, -⟩ := hskips.passes
    obtain ⟨front, hfront, hrest, -⟩ := hd.rest
    obtain rfl : front = [] := by simpa [hend] using hfront
    refine ⟨tokens', d', htokens, hd, hrest, hpasses.depth.trans hdepth₁, ?_⟩
    rw [hscan, scan_congr hskips.skipTrivia]
  · cases hrear

end TypeLayout
