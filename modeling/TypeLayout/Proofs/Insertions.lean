import TypeLayout.Proofs.SplicedScanning

/-!
# Words that are put into a source

When words are put into a source, on the line of a token in front of them or behind them, all other
tokens stay as they are (`Insertion.scan_result`). Those in front of the place do not see what is
put in, and those behind it are only further down the line.
-/

namespace TypeLayout

open List

variable {c c' d : Cursor} {text back back' words : List Char} {t : Token}

/-! ### Where scanning starts -/

/-- **What may stand between two tokens of a line**: blanks, and comments that are closed. -/
inductive InLine : List Char → Prop
  | nil : InLine []
  | blank {ch : Char} {gap : List Char} (hb : Text.isBlank ch = true) (hn : ch ≠ '\n')
    (h : InLine gap) : InLine (ch :: gap)
  | comment {body gap : List Char} (hb : ¬ ['*', '/'] <:+: body ++ ['*']) (hn : '\n' ∉ body)
    (h : InLine gap) : InLine ('/' :: '*' :: body ++ '*' :: '/' :: gap)

theorem IsSpace.inLine {gap : List Char} (h : IsSpace gap) : InLine gap := by
  induction gap with
  | nil => exact .nil
  | cons ch gap ih =>
    obtain ⟨hch, h⟩ := List.forall_mem_cons.mp h
    exact .blank hch.1 hch.2 (ih h)

theorem InLine.append {gap gap' : List Char} (h : InLine gap) (h' : InLine gap') :
    InLine (gap ++ gap') := by
  induction h with
  | nil => exact h'
  | blank hb hn _ ih => exact .blank hb hn ih
  | comment hb hn _ ih => simpa using ih.comment hb hn

theorem InLine.unbroken {gap : List Char} (h : InLine gap) : '\n' ∉ gap := by
  induction h with
  | nil => simp
  | blank _ hn _ ih => simp [hn.symm, ih]
  | comment _ hn _ ih => simp [hn, ih]

/-- A gap without a line break, in front of a token, has no line markers and no comments that go on
to the end of the line. -/
theorem Gap.inLine {gap rest : List Char} (h : Gap rest gap) (hn : '\n' ∉ gap)
    (hrest : ¬ AtLineEnd rest) : InLine gap := by
  have hopen {gap : List Char} (hn : '\n' ∉ gap) : ¬ AtLineEnd (gap ++ rest) := by
    cases gap with
    | nil => exact hrest
    | cons ch gap => exact fun hend => hn (hend ch rfl ▸ mem_cons_self)
  induction h with
  | nil => exact .nil
  | blank hb _ ih =>
    rw [mem_cons, not_or] at hn
    exact .blank hb (Ne.symm hn.1) (ih hn.2)
  | marker _ he | lineComment _ he => exact absurd he (hopen fun hmem => hn (by simp [hmem]))
  | blockComment hb _ ih =>
    simp only [cons_append, mem_cons, mem_append, not_or] at hn
    exact .comment hb hn.2.2.1 (ih hn.2.2.2.2.2)

/-- A comment is skipped up to where it is closed, whatever comes next. -/
theorem skipComment_body {body rest : List Char} (hb : ¬ ['*', '/'] <:+: body ++ ['*']) (line : ℕ)
    (hc : c.rest = body ++ '*' :: '/' :: rest) :
    ∃ d, skipComment line c = .ok d ∧ c.Passes (body ++ ['*', '/']) d := by
  induction body generalizing c with
  | nil =>
    have hclose : c.Passes ['*', '/'] (c.advanceBy 2) := Cursor.passes_advanceBy hc
    refine ⟨_, ?_, hclose⟩
    rw [skipComment]
    split <;> simp_all
  | cons ch body ih =>
    obtain ⟨d, hd, hpasses⟩ := ih (fun h => hb (h.trans (suffix_cons ch _).isInfix))
      (by rw [Cursor.rest_advance, hc]; rfl)
    refine ⟨d, ?_, (Cursor.passes_advance hc).trans hpasses⟩
    rw [skipComment]
    split
    · simp_all
    · rename_i hclose
      refine absurd ?_ hb
      rw [hc] at hclose
      cases body <;> simp_all [infix_cons_iff]
    · exact hd

/-- **Behind blanks and comments of a line scanning goes on as before.** -/
theorem scan_inLine {gap rest : List Char} (hg : InLine gap) (hc : c.rest = gap ++ rest) :
    ∃ d, c.Passes gap d ∧ d.fresh = c.fresh ∧ d.line = c.line ∧ scan c = scan d := by
  obtain ⟨d, hp, hskips⟩ : ∃ d, c.Passes gap d ∧ c.SkipsTo d := by
    induction hg generalizing c with
    | nil => exact ⟨c, .refl c, .refl⟩
    | blank hb _ _ ih =>
      obtain ⟨d, hp, hskips⟩ := ih (by rw [Cursor.rest_advance, hc]; rfl)
      exact ⟨d, (Cursor.passes_advance hc).trans hp, .head (.blank hc hb) hskips⟩
    | @comment body gap hb _ _ ih =>
      rw [cons_append, cons_append, cons_append, cons_append,
        append_assoc] at hc
      have hopen : c.Passes ['/', '*'] (c.advanceBy 2) := Cursor.passes_advanceBy hc
      obtain ⟨m, hm, hbody⟩ := skipComment_body hb c.line
        (append_cancel_left (hopen.rest.symm.trans hc))
      have hpasses := hopen.trans hbody
      obtain ⟨d, hp, hskips⟩ := ih (c := m)
        (append_cancel_left (hpasses.rest.symm.trans (by simpa using hc)))
      exact ⟨d, by simpa using hpasses.trans hp, .head (.block hc hm) hskips⟩
  refine ⟨d, hp, ?_, ?_, scan_congr hskips.skipTrivia⟩
  · rw [hp.fresh]
    simp [hg.unbroken]
  · rw [hp.line, count_eq_zero_of_not_mem hg.unbroken, Nat.add_zero]

/-- In front of a token it does not matter whether its line had another one, unless it is mistaken
for a line marker. -/
theorem Lexeme.StandsAt.scan_fresh {l : Lexeme String} {after : List Char} (fresh : Bool)
    (h : l.StandsAt d after) (hs : c.SkipsTo d) (hf : fresh = true → d.fresh = true) :
    TypeLayout.scan { d with fresh := fresh } = TypeLayout.scan c := by
  have h' : l.StandsAt { d with fresh := fresh } after := by
    refine ⟨h.rest, h.ends, fun hmark => Bool.eq_false_iff.mpr fun hfresh => ?_, h.comment⟩
    cases (h.marker hmark).symm.trans (hf hfresh)
  rw [h.scan hs, h'.scan .refl]
  rfl

/-- **The place of the next token.** -/
theorem exists_place (hnext : nextToken c = .ok t) (htoken : t.lexeme ≠ .eof) :
    ∃ d gap after, c.SkipsTo d ∧ c.Passes gap d ∧ t.lexeme.StandsAt d after ∧
      d.position = t.start ∧ d.line = t.line := by
  obtain ⟨d, hskips, ⟨-, rfl⟩ | ⟨after, hstands, ht⟩⟩ := nextToken_cases hnext
  · exact absurd rfl htoken
  obtain ⟨gap, hpasses, -⟩ := hskips.passes
  have hread := hstands.passes.1
  rw [← ht] at hread
  refine ⟨d, gap, after, hskips, hpasses, hstands, ?_, by rw [ht]; rfl⟩
  rw [Token.start, hread.position, Nat.add_sub_cancel]

/-- A token is left on a fresh line only if there is a line break in it. -/
theorem fresh_scan : ∀ t ∈ (scan c).tokens,
    t.after.fresh = t.lexeme.spelling.toList.contains '\n' := by
  fun_induction scan c with
  | case1 | case2 => simp
  | case3 c t hnext htoken more ih =>
    refine List.forall_mem_cons.mpr ⟨?_, ih⟩
    obtain ⟨gap, d, -, -, -, ⟨heof, -⟩ | ⟨-, -, hword⟩⟩ := passes_nextToken hnext
    · exact absurd heof htoken
    · rw [hword.fresh, Bool.false_or]

theorem StandFrom.stands {stop : ℕ} {ts : List Token} (h : StandFrom text stop ts) (ht : t ∈ ts) :
    ∃ stop, t.Stands text stop := by
  induction ts generalizing stop with
  | nil => cases ht
  | cons u us ih =>
    rcases List.mem_cons.mp ht with rfl | ht
    · exact ⟨stop, h.1⟩
    · exact ih h.2 ht

/-! ### Words that are put in -/

/-- **Words on one line**: a text that begins with its first token and ends with its last one. -/
structure OneLine (words : List Char) : Prop where
  unbroken : '\n' ∉ words
  starts : ∃ t ∈ (scan (.start words defaultContextLines)).tokens.head?, t.start = 0
  ends : lastStop 0 (scan (.start words defaultContextLines)).tokens = words.length

/-- The words are the same whether or not their line has other tokens. -/
theorem OneLine.exists_cursor (h : OneLine words) (fresh : Bool) :
    ∃ c : Cursor, c.rest = words ∧ c.position = 0 ∧ c.line = 1 ∧ c.fresh = fresh ∧
      (scan c).tokens = (scan (.start words defaultContextLines)).tokens ∧
      ∀ t ∈ (scan c).tokens.head?, t.line = 1 := by
  obtain ⟨t, ht, hzero⟩ := h.starts
  obtain ⟨ts, hts⟩ := List.head?_eq_some_iff.mp ht
  obtain ⟨hnext, htoken, -⟩ := nextToken_of_scan hts
  obtain ⟨d, gap, after, hskips, hpasses, hplace, hposition, hline⟩ := exists_place hnext htoken
  have hpos : d.position = 0 := hposition.trans hzero
  obtain rfl : gap = [] := by
    have := hpasses.position
    exact eq_nil_of_length_eq_zero (by omega)
  have hd : d.line = 1 := hpasses.line
  have hscan := hplace.scan_fresh fresh hskips fun _ => by rw [hpasses.fresh]; rfl
  refine ⟨{ d with fresh := fresh }, hpasses.rest.symm, hpos, hd, rfl, by rw [hscan], ?_⟩
  intro u hu
  rw [hscan, hts] at hu
  obtain rfl : t = u := by simpa using hu
  rw [← hline, hd]

/-- **The words in their new place**: from a cursor in front of them the same lexemes are read, the
first one on the line of the cursor, and then what is behind them. -/
theorem OneLine.scan (h : OneLine words)
    (hclear : ∀ t ∈ (scan (.start words defaultContextLines)).tokens,
      t.after.rest = [] → t.Clears back') (hc : c.rest = words ++ back') (hline : 1 ≤ c.line) :
    ∃ tokens d, TypeLayout.scan c = ⟨tokens ++ (TypeLayout.scan d).tokens,
        (TypeLayout.scan d).ending⟩ ∧
      tokens.map (·.lexeme) =
        (TypeLayout.scan (.start words defaultContextLines)).tokens.map (·.lexeme) ∧
      (∀ t ∈ tokens.head?, t.line = c.line) ∧ d.rest = back' ∧
      d.position = c.position + words.length ∧ d.line = c.line ∧ d.fresh = false := by
  obtain ⟨c₀, hrest, hposition, hline₀, hfresh, hscan, hfirst⟩ := h.exists_cursor c.fresh
  have hsplice : c₀.Spliced words.length c.position (c.line - 1) [] back' c :=
    ⟨⟨words, by simpa using hrest, hc, by omega⟩, by omega, by omega, hfresh.symm⟩
  obtain ⟨tokens, d, htokens, hd, -, hscan'⟩ := scan_splice hsplice
    (append_nil (TypeLayout.scan c₀).tokens).symm (by simp) fun t ht hend =>
      hclear t (hscan ▸ ht) (eq_nil_of_length_eq_zero (Nat.le_zero.mp hend))
  -- the cursor behind the words, first where they stand alone
  have hstands := Cursor.standsIn_start words defaultContextLines
  have hne : (TypeLayout.scan c₀).tokens ≠ [] := by
    obtain ⟨t, ht, -⟩ := h.starts
    intro hnil
    simp [← hscan, hnil] at ht
  obtain ⟨u, hu, hlast⟩ := exists_lastCursor c₀ hne
  have hstop := position_lastCursor c₀ (TypeLayout.scan c₀).tokens
  rw [hposition, hscan, h.ends, ← hscan, hlast] at hstop
  rw [hlast] at hd
  rw [hscan] at hu
  obtain ⟨front, -, hdrest, hq⟩ := hd.rest
  obtain rfl : front = [] := eq_nil_of_length_eq_zero (by omega)
  refine ⟨tokens, d, hscan', ?_, ?_, hdrest, ?_, ?_, ?_⟩
  · rw [← hscan]
    exact map_lexeme_of_spliced htokens
  · intro t' ht'
    generalize (TypeLayout.scan c₀).tokens = ts at htokens hfirst
    cases htokens with
    | nil => cases ht'
    | cons ht _ =>
      obtain rfl : _ = t' := by simpa using ht'
      rw [ht.line, hfirst _ rfl]
      omega
  · rw [hd.position, hstop, Nat.add_comm]
  · rw [hd.line, (standsIn_scan hstands u hu).line, count_eq_zero_of_not_mem
      fun hmem => h.unbroken (mem_of_mem_take hmem)]
    omega
  · obtain ⟨stop, hword⟩ := (standFrom_scan hstands).1.stands hu
    rw [hd.fresh, fresh_scan u hu, ← hword.spelled, contains_eq_mem, decide_eq_false_iff_not]
    exact fun hmem => h.unbroken (mem_of_mem_take (mem_of_mem_drop hmem))

/-- **Words that are put into a source**, at a place between its tokens, with space around them.
They do not run into what comes behind them. -/
structure Insertion where
  front : List Char
  back : List Char
  gap : List Char
  words : List Char
  gap' : List Char
  oneLine : OneLine words
  space : IsSpace gap
  space' : IsSpace gap'
  clear : ∀ t ∈ (scan (.start words defaultContextLines)).tokens,
    t.after.rest = [] → t.Clears (gap' ++ back)

namespace Insertion

variable (i : Insertion) {rear : Scan}

/-- What is put in. -/
def put : List Char := i.gap ++ i.words ++ i.gap'

/-- The source without the words. -/
def source : List Char := i.front ++ i.back

/-- The source with the words. -/
def result : List Char := i.front ++ (i.put ++ i.back)

/-- The line on which the words are put. -/
def line : ℕ := 1 + i.front.count '\n'

/-- **The place is between some tokens and the next one**, on the line of that one or of the last of
the others. Behind it on the line, or in front of it, are only blanks and comments, and it is in none
of these. No token runs into the words. -/
structure Between (depth : ℕ) (before : List Token) (t : Token) : Prop where
  ends : ∀ u ∈ before, u.after.position ≤ i.front.length
  clear : ∀ u ∈ before, u.after.position = i.front.length → u.Clears (i.put ++ i.back)
  place : (∃ m : Cursor, (lastCursor (.start i.source depth) before).SkipsTo m ∧
      m.position = i.front.length ∧ '\n' ∉ i.back.take (t.start - i.front.length)) ∨
    ∃ u ∈ before.getLast?, '\n' ∉ u.lexeme.spelling.toList ∧
      ∃ front gap, InLine gap ∧ i.front = front ++ gap ∧ u.after.position = front.length

variable {i} {depth : ℕ} {t stop : Token} {before behind : List Token}

/-- What is known of a cursor at the place. -/
theorem at_place (hc : c.StandsIn i.source) (hplace : c.position = i.front.length) :
    c.rest = i.back ∧ c.line = i.line := by
  rw [hc.rest, hc.line, hplace, source, drop_left, take_left, line]
  exact ⟨rfl, rfl⟩

/-- Where one cursor is at the place, the other one is in front of the words. -/
theorem at_words (hc : c.StandsIn i.source) (hplace : c.position = i.front.length)
    (hs : c.Spliced i.front.length 0 0 i.back (i.put ++ i.back) c') :
    c'.rest = i.put ++ i.back ∧ c'.position = i.front.length ∧ c'.line = i.line := by
  obtain ⟨hrest, hline⟩ := at_place hc hplace
  obtain ⟨front, hfront, hrest', -⟩ := hs.rest
  obtain rfl : front = [] := by simpa [hrest] using hfront
  exact ⟨hrest', hs.position.trans hplace, hs.line.trans hline⟩

/-- **The two sides of the place**: a cursor in front of the words, and one of the source without
them in front of what comes next. To that it does not matter that the words are on its line. -/
structure Seam (i : Insertion) (rear : Scan) (m d : Cursor) (gap : List Char) : Prop where
  rest : m.rest = i.put ++ i.back
  position : m.position = i.front.length
  line : m.line = i.line
  inLine : InLine gap
  back : i.back = gap ++ d.rest
  next : d.position = i.front.length + gap.length
  line_next : d.line = i.line
  goesOn : scan { d with fresh := false } = rear

/-- With no line break between the place and the next token, what is skipped in front of the place
is skipped again, and what is skipped behind it is on the line. -/
theorem exists_seam_next {m : Cursor} (hc : c.StandsIn i.source)
    (hs : c.Spliced i.front.length 0 0 i.back (i.put ++ i.back) c') (hscan : scan c = rear)
    (ht : rear.tokens.head? = some t) (hm : c.SkipsTo m) (hplace : m.position = i.front.length)
    (hline : '\n' ∉ i.back.take (t.start - i.front.length)) :
    ∃ m d gap, scan c' = scan m ∧ Seam i rear m d gap := by
  obtain ⟨taken, htaken, -⟩ := hm.passes
  have hstands := (hc.passes htaken).1
  obtain ⟨hrest, hmline⟩ := at_place hstands hplace
  rw [scan_congr hm.skipTrivia] at hscan
  obtain ⟨ts, hts⟩ := List.head?_eq_some_iff.mp ht
  rw [← hscan] at hts
  obtain ⟨ht, htoken, -⟩ := nextToken_of_scan hts
  obtain ⟨d, gap, after, hskips, hpasses, hlexeme, hposition, -⟩ := exists_place ht htoken
  have hback : i.back = gap ++ d.rest := hrest.symm.trans hpasses.rest
  have hnext : d.position = i.front.length + gap.length := hplace ▸ hpasses.position
  have hgap : i.back.take (t.start - i.front.length) = gap := by
    rw [← hposition, hnext, Nat.add_sub_cancel_left, hback, take_left]
  rw [hgap] at hline
  -- the next token is on the line of the place
  have hopen : ¬ AtLineEnd d.rest := by
    obtain ⟨ch, hch, hblank⟩ := hlexeme.exists_first
    intro hend
    obtain rfl := hend ch hch
    cases hblank
  have hinLine : InLine gap := by
    obtain ⟨gap', hpasses', hsort⟩ := hskips.passes
    obtain rfl := append_cancel_right (hpasses.rest.symm.trans hpasses'.rest)
    exact hsort.inLine hline hopen
  have hends : ¬ AtLineEnd i.back := by
    rw [hback]
    cases gap with
    | nil => exact hopen
    | cons ch gap => exact fun hend => hline (hend ch rfl ▸ mem_cons_self)
  obtain ⟨m', hm', hs⟩ := hm.splice hs (by rw [hrest]) (.inl fun hend => absurd hend hends)
  obtain ⟨hrest', hposition', hline'⟩ := at_words hstands hplace hs
  refine ⟨m', d, gap, scan_congr hm'.skipTrivia, hrest', hposition', hline', hinLine, hback, hnext,
    ?_, ?_⟩
  · rw [hpasses.line, count_eq_zero_of_not_mem hline, Nat.add_zero, hmline]
  · rw [hlexeme.scan_fresh false hskips (by simp), hscan]

/-- Behind a token and what follows it on its line, that line is one that has tokens. -/
theorem exists_seam_last {front gap : List Char} (hc : c.StandsIn i.source)
    (hs : c.Spliced i.front.length 0 0 i.back (i.put ++ i.back) c') (hscan : scan c = rear)
    (hfresh : c.fresh = false) (hgap : InLine gap) (hfront : i.front = front ++ gap)
    (hlast : c.position = front.length) :
    ∃ m d gap, scan c' = scan m ∧ Seam i rear m d gap := by
  have hrest : c.rest = gap ++ i.back := by
    rw [hc.rest, hlast, source, hfront, append_assoc, drop_left]
  obtain ⟨m, hm, hmfresh, -, heq⟩ := scan_inLine hgap hrest
  have hmrest := append_cancel_left (hm.rest.symm.trans hrest)
  have hplace : m.position = i.front.length := by
    rw [hm.position, hlast, hfront, length_append]
  obtain ⟨mid, hmid, hrest', -⟩ := hs.exists_rest hm (by rw [hmrest])
  obtain rfl : mid = [] := by simpa [hmrest] using hmid
  obtain ⟨m', hm', -, -, heq'⟩ := scan_inLine hgap hrest'
  have hs := hs.passes hm (by rw [hmrest]) hm'
  obtain ⟨hrest', hposition', hline'⟩ := at_words (hc.passes hm).1 hplace hs
  refine ⟨m', m, [], heq', hrest', hposition', hline', .nil, hmrest.symm, hplace,
    hs.line.symm.trans hline', ?_⟩
  rw [← hfresh, ← hmfresh, ← hscan, heq]

/-- **Scanning the source with the words comes to their place**, past the same tokens. -/
theorem exists_seam
    (hsource : scan (.start i.source depth) = ⟨before ++ t :: behind, .ok stop⟩)
    (hplace : i.Between depth before t) :
    ∃ before' m d gap,
      Forall₂ (Token.Spliced i.front.length 0 0 i.back (i.put ++ i.back)) before before' ∧
      scan (.start i.result depth) = ⟨before' ++ (scan m).tokens, (scan m).ending⟩ ∧
      Seam i ⟨t :: behind, .ok stop⟩ m d gap := by
  have htokens : (scan (.start i.source depth)).tokens = before ++ t :: behind := by rw [hsource]
  have hstart := Cursor.standsIn_start i.source depth
  have hsplice : (Cursor.start i.source depth).Spliced i.front.length 0 0 i.back (i.put ++ i.back)
      (.start i.result depth) := ⟨⟨i.front, rfl, rfl, Nat.zero_add _⟩, rfl, rfl, rfl⟩
  have hrear := scan_lastCursor htokens
  rw [hsource] at hrear
  have hstands := standsIn_lastCursor hstart htokens
  have hlength {u : Token} (hu : u ∈ before) :
      u.after.rest.length + u.after.position = i.back.length + i.front.length := by
    have hin := standsIn_scan hstart u (by rw [htokens]; exact mem_append_left _ hu)
    have hinside := hin.inside
    rw [hin.rest, length_drop]
    rw [source, length_append] at hinside ⊢
    omega
  have hends := hplace.ends
  obtain ⟨before', c', hbefore, hc', -, hscan⟩ := scan_splice hsplice htokens
    (fun u hu => by have := hends u hu; have := hlength hu; omega)
    (fun u hu hend => hplace.clear u hu (by have := hends u hu; have := hlength hu; omega))
  obtain ⟨m, d, gap, heq, hseam⟩ :
      ∃ m d gap, scan c' = scan m ∧ Seam i ⟨t :: behind, .ok stop⟩ m d gap := by
    rcases hplace.place with ⟨m, hm, hposition, hline⟩ |
      ⟨u, hu, hword, front, gap, hgap, hfront, hend⟩
    · exact exists_seam_next hstands hc' hrear rfl hm hposition hline
    · obtain ⟨more, rfl⟩ := List.getLast?_eq_some_iff.mp hu
      rw [lastCursor_concat] at hc' hstands hrear
      have hfresh : u.after.fresh = false := by
        rw [fresh_scan u (by rw [htokens]; simp), contains_eq_mem]
        exact decide_eq_false hword
      exact exists_seam_last hstands hc' hrear hfresh hgap hfront hend
  exact ⟨before', m, d, gap, hbefore, by rw [hscan, heq], hseam⟩

/-- **The tokens of a source into which words are put.** They stay as they are, those behind the
place so many characters further on, and between them stand the words. -/
theorem scan_result
    (hsource : scan (.start i.source depth) = ⟨before ++ t :: behind, .ok stop⟩)
    (hplace : i.Between depth before t) :
    ∃ before' inserted behind' stop',
      scan (.start i.result depth) = ⟨before' ++ (inserted ++ behind'), .ok stop'⟩ ∧
      Forall₂ (Token.Spliced i.front.length 0 0 i.back (i.put ++ i.back)) before before' ∧
      inserted.map (·.lexeme) =
        (scan (.start i.words defaultContextLines)).tokens.map (·.lexeme) ∧
      (∀ n ∈ inserted.head?, n.line = i.line) ∧
      Forall₂ (Token.Spliced i.source.length i.put.length 0 [] []) (t :: behind) behind' := by
  obtain ⟨before', m, d, gap, hbefore, hscan, hrest, hposition, hline, hgap, hback, hdposition,
    hdline, hbehind⟩ := exists_seam hsource hplace
  have hrest₁ : m.rest = i.gap ++ (i.words ++ (i.gap' ++ i.back)) := by simpa [put] using hrest
  -- the words, with space on either side
  obtain ⟨d₂, hp₂, -, hline₂, heq₂⟩ := scan_inLine i.space.inLine hrest₁
  have hrest₂ := append_cancel_left (hp₂.rest.symm.trans hrest₁)
  rw [hline] at hline₂
  obtain ⟨inserted, d₃, hscan₃, hlexemes, hfirst, hrest₃, hposition₃, hline₃, hfresh₃⟩ :=
    i.oneLine.scan i.clear hrest₂ (by rw [hline₂, line]; omega)
  rw [hback, ← append_assoc] at hrest₃
  obtain ⟨d₄, hp₄, hfresh₄, hline₄, heq₄⟩ := scan_inLine (i.space'.inLine.append hgap) hrest₃
  have hrest₄ := append_cancel_left (hp₄.rest.symm.trans hrest₃)
  -- the tokens behind them
  have hsplice : ({ d with fresh := false } : Cursor).Spliced i.source.length i.put.length 0
      [] [] d₄ := by
    refine ⟨⟨d.rest, by simp, by simpa using hrest₄, ?_⟩, ?_, ?_, ?_⟩
    · simp only [hdposition, source, hback, length_append]
      omega
    · have h₂ := hp₂.position
      have h₄ := hp₄.position
      simp only [put, length_append] at h₄ ⊢
      omega
    · exact ((hline₄.trans hline₃).trans hline₂).trans hdline.symm
    · rw [hfresh₄, hfresh₃]
  obtain ⟨behind', d₅, hmoved, -, hrest₅, -, hscan₄⟩ :=
    scan_splice_end hsplice (by simp [AtLineEnd]) (congrArg Scan.ending hbehind)
  obtain ⟨stop', hstop⟩ := scan_blanks (by simp) hrest₅
  refine ⟨before', inserted, behind', stop', ?_, hbefore, hlexemes, ?_, ?_⟩
  · rw [hscan, heq₂, hscan₃, heq₄, hscan₄, hstop, append_nil]
  · rwa [hline₂] at hfirst
  · rwa [congrArg Scan.tokens hbehind] at hmoved

end Insertion

end TypeLayout
