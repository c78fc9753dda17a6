import TypeLayout.Proofs.DeclaratorSpellings
import TypeLayout.Proofs.MovedReading

/-!
# The grammar of declarators

What the reader of declarators accepts is a grammar: stars among noise, a name or a declarator in
parentheses, and suffixes (`Declares`). Each relation of this module compares some tokens with those
that are left behind what has been read. The reader takes exactly what the grammar derives, if no
further suffix follows (`Declares.readDeclarator`), and whatever it takes is derived
(`declares_of_readDeclarator`).

An array keeps the lexemes between its brackets and the text between them, which is a slice of the
source.
-/

namespace TypeLayout

variable {e : Ending} {ts us rest : List Token} {t close next : Token} {depth n : ℕ}
  {left right : Char} {lexemes : List (Lexeme String)}

/-! ### Groups -/

/-- Where a further bracket is open, it is closed first. -/
theorem exists_balanced_of_open (hn : ts.length ≤ n)
    (h : skipBalanced e left right (depth + 1) ts = .ok rest) :
    ∃ inner closing us, ts = inner ++ closing :: us ∧ Balanced left right inner ∧
      closing.isPunct right = true ∧ skipBalanced e left right depth us = .ok rest := by
  -- two brackets may have to be closed, so the induction is on a bound of the length
  induction n generalizing ts depth with
  | zero =>
    obtain rfl := List.eq_nil_of_length_eq_zero (Nat.le_zero.mp hn)
    exact absurd h failAtEnd_ne_ok
  | succ n ih =>
    cases ts with
    | nil => exact absurd h failAtEnd_ne_ok
    | cons t ts =>
      rw [List.length_cons, Nat.succ_le_succ_iff] at hn
      rw [skipBalanced, if_neg (by simp)] at h
      by_cases hl : t.isPunct left = true
      · rw [nesting_left hl] at h
        obtain ⟨inner, closing, us, rfl, hi, hc, h⟩ := ih hn h
        have hus : us.length ≤ n := by
          simp only [List.length_append, List.length_cons] at hn
          omega
        obtain ⟨inner', closing', us', rfl, hi', hc', h⟩ := ih hus h
        exact ⟨t :: inner ++ closing :: inner', closing', us', by simp, .group hl hi hc hi', hc', h⟩
      · by_cases hr : t.isPunct right = true
        · refine ⟨[], t, ts, rfl, .nil, hr, ?_⟩
          rwa [Token.nesting, if_neg hl, if_pos hr, Nat.add_sub_cancel] at h
        · rw [Bool.not_eq_true] at hl hr
          rw [nesting_other hl hr] at h
          obtain ⟨inner, closing, us, rfl, hi, hc, h⟩ := ih hn h
          exact ⟨t :: inner, closing, us, rfl, .other hl hr hi, hc, h⟩

/-- **What is skipped is a group** and the bracket that closes it. -/
theorem exists_balanced_of_skip (h : skipBalanced e left right 0 ts = .ok rest) :
    ∃ inner closing, ts = inner ++ closing :: rest ∧ Balanced left right inner ∧
      closing.isPunct right = true := by
  induction hn : ts.length using Nat.strong_induction_on generalizing ts with
  | _ n ih =>
    cases ts with
    | nil => exact absurd h failAtEnd_ne_ok
    | cons t ts =>
      subst hn
      rw [skipBalanced] at h
      split at h
      · rename_i hr
        obtain rfl := Except.ok.inj h
        exact ⟨[], t, rfl, .nil, hr.1⟩
      · rename_i hr
        by_cases hl : t.isPunct left = true
        · rw [nesting_left hl] at h
          obtain ⟨inner, closing, us, rfl, hi, hc, h⟩ := exists_balanced_of_open le_rfl h
          obtain ⟨inner', closing', rfl, hi', hc'⟩ := ih us.length (by simp; omega) h rfl
          exact ⟨t :: inner ++ closing :: inner', closing', by simp, .group hl hi hc hi', hc'⟩
        · rw [Bool.not_eq_true] at hl
          have hr : t.isPunct right = false := by simpa using hr
          rw [nesting_other hl hr] at h
          obtain ⟨inner, closing, rfl, hi, hc⟩ := ih _ (Nat.lt_succ_self _) h rfl
          exact ⟨t :: inner, closing, rfl, .other hl hr hi, hc⟩

theorem skipBalanced_of_readBrackets (h : readBrackets e depth ts = .ok (lexemes, close, rest)) :
    skipBalanced e '[' ']' depth ts = .ok rest := by
  fun_induction readBrackets e depth ts generalizing lexemes with
  | case1 => exact absurd h failAtEnd_ne_ok
  | case2 depth t ts hc =>
    simp only [Except.ok.injEq, Prod.mk.injEq] at h
    rw [skipBalanced, if_pos hc, h.2.2]
  | case3 => cases h
  | case4 depth t ts hc _ _ _ hr ih =>
    simp only [Except.ok.injEq, Prod.mk.injEq] at h
    obtain ⟨-, rfl, rfl⟩ := h
    rw [skipBalanced, if_neg hc, ih hr]

/-- What stands between brackets that are read. -/
theorem exists_balanced_of_readBrackets (h : readBrackets e 0 ts = .ok (lexemes, close, rest)) :
    ∃ inner, ts = inner ++ close :: rest ∧ Balanced '[' ']' inner ∧ close.isPunct ']' = true ∧
      lexemes = inner.map (·.lexeme) := by
  obtain ⟨inner, closing, rfl, hi, hc⟩ :=
    exists_balanced_of_skip (skipBalanced_of_readBrackets h)
  rw [hi.read_closing hc] at h
  simp only [Except.ok.injEq, Prod.mk.injEq, and_true] at h
  obtain ⟨rfl, rfl⟩ := h
  exact ⟨inner, rfl, hi, hc, rfl⟩

/-! ### Noise -/

/-- **Noise in front of some tokens**: qualifiers, and extension words with or without a group. A
word without one must not stand in front of a parenthesis. -/
inductive Skips : List Token → List Token → Prop
  | stop (ts : List Token) : Skips ts ts
  | qualifier {t : Token} {ts rest : List Token} (ht : t.keyword? = some .qualifier)
    (h : Skips ts rest) : Skips (t :: ts) rest
  | word {t : Token} {ts rest : List Token} (ht : t.keyword? = some .extension)
    (hnext : ∀ u ∈ ts.head?, u.isPunct '(' = false) (h : Skips ts rest) : Skips (t :: ts) rest
  | group {t opening closing : Token} {inner ts rest : List Token}
    (ht : t.keyword? = some .extension) (ho : opening.isPunct '(' = true)
    (hi : Balanced '(' ')' inner) (hc : closing.isPunct ')' = true) (h : Skips ts rest) :
    Skips (t :: opening :: (inner ++ closing :: ts)) rest

theorem Skips.trans (h : Skips ts us) (h' : Skips us rest) : Skips ts rest := by
  induction h with
  | stop => exact h'
  | qualifier ht _ ih => exact .qualifier ht (ih h')
  | word ht hnext _ ih => exact .word ht hnext (ih h')
  | group ht ho hi hc _ ih => exact .group ht ho hi hc (ih h')

theorem Skips.suffix (h : Skips ts rest) : rest <:+ ts := by
  induction h with
  | stop => exact List.suffix_refl _
  | qualifier _ _ ih | word _ _ _ ih => exact ih.trans (List.suffix_cons _ _)
  | @group t opening closing inner ts rest _ _ _ _ _ ih =>
    exact ih.trans ⟨t :: opening :: (inner ++ [closing]), by simp⟩

/-- What is between noise and what is left does not matter to what skips noise. -/
theorem Skips.skipNoise (h : Skips ts rest) : skipNoise e ts = skipNoise e rest := by
  induction h with
  | stop => rfl
  | qualifier ht _ ih => rw [TypeLayout.skipNoise, ht, ih]
  | @word t ts rest ht hnext _ ih =>
    rw [skipNoise_extension ht, ← ih]
    cases ts with
    | nil =>
      rw [skipGroup, TypeLayout.skipNoise]
      cases e with
      | error f => rfl
      | ok t =>
        dsimp only [Except.map, bind, Except.bind]
        rw [TypeLayout.skipNoise]
        rfl
    | cons u us =>
      rw [skipGroup, if_neg (by simp [hnext u rfl])]
      rfl
  | group ht ho hi hc _ ih =>
    rw [skipNoise_extension ht, skipGroup, if_pos ho, hi.skip_closing (by decide) hc, ← ih]
    rfl

/-- Noise is what is skipped, and what is left does not begin with it. -/
theorem skips_of_skipNoise (h : skipNoise e ts = .ok rest) :
    Skips ts rest ∧ ∀ t ∈ rest.head?, t.keyword? ≠ some .qualifier ∧
      t.keyword? ≠ some .extension := by
  fun_induction skipNoise e ts with
  | case1 =>
    obtain rfl := ending_map_ok h
    exact ⟨.stop _, by simp⟩
  | case2 t ts ht ih => exact ⟨.qualifier ht (ih h).1, (ih h).2⟩
  | case3 => cases h
  | case4 t ts ht more hg ih =>
    refine ⟨?_, (ih h).2⟩
    unfold skipGroup at hg
    split at hg
    · obtain rfl := ending_map_ok hg
      exact .word ht (by simp) (ih h).1
    · split at hg
      · rename_i ho
        obtain ⟨inner, closing, rfl, hi, hc⟩ := exists_balanced_of_skip hg
        exact .group ht ho hi hc (ih h).1
      · rename_i ho
        obtain rfl := Except.ok.inj hg
        exact .word ht (by simpa using ho) (ih h).1
  | case5 t ts hq hx =>
    obtain rfl := Except.ok.inj h
    refine ⟨.stop _, fun u hu => ?_⟩
    obtain rfl : t = u := by simpa using hu
    exact ⟨hq, hx⟩

/-! ### Stars -/

/-- **Stars with noise around them**, and how many they are. -/
inductive Starred : List Token → ℕ → List Token → Prop
  | noise {ts rest : List Token} (h : Skips ts rest) : Starred ts 0 rest
  | star {t : Token} {ts us rest : List Token} {n : ℕ} (h : Skips ts (t :: us))
    (ht : t.isPunct '*' = true) (hmore : Starred us n rest) : Starred ts (n + 1) rest

theorem Starred.suffix (h : Starred ts n rest) : rest <:+ ts := by
  induction h with
  | noise h => exact h.suffix
  | star h _ _ ih => exact ih.trans ((List.suffix_cons _ _).trans h.suffix)

theorem Starred.readStars (h : Starred ts n rest) :
    readStars e ts = (readStars e rest).map fun r => (r.1 + n, r.2) := by
  induction h with
  | noise h => rw [readStars_eq, h.skipNoise, ← readStars_eq, ← readStars_add_zero]
  | star h ht _ ih =>
    rw [readStars_eq, h.skipNoise, skipNoise_of_isPunct ht, ok_bind]
    dsimp only
    rw [if_pos ht, ih]
    cases TypeLayout.readStars e _ <;> rfl

theorem starred_of_readStars (h : readStars e ts = .ok (n, rest)) :
    Starred ts n rest ∧ ∀ t ∈ rest.head?, t.keyword? ≠ some .qualifier ∧
      t.keyword? ≠ some .extension := by
  fun_induction readStars e ts generalizing n rest with
  | case1 | case3 => cases h
  | case2 ts hskip =>
    obtain ⟨rfl, rfl⟩ := Prod.mk.inj (ending_map_ok h)
    exact ⟨.noise (skips_of_skipNoise hskip).1, by simp⟩
  | case4 ts t us hskip ht n rest hr ih =>
    obtain ⟨rfl, rfl⟩ := Prod.mk.inj (Except.ok.inj h)
    exact ⟨.star (skips_of_skipNoise hskip).1 ht (ih hr).1, (ih hr).2⟩
  | case5 ts t us hskip ht =>
    obtain ⟨rfl, rfl⟩ := Prod.mk.inj (Except.ok.inj h)
    exact ⟨.noise (skips_of_skipNoise hskip).1, (skips_of_skipNoise hskip).2⟩

/-! ### Suffixes -/

section Source

variable (source : List Char)

/-- The dimension between two brackets of a source: the lexemes and the text between them, without
blanks at its ends. -/
def dimensionBetween (opening : Token) (inner : List Token) (closing : Token) : Dimension :=
  ⟨inner.map (·.lexeme), String.ofList (Text.trim
    (sliceText source opening.after.position (closing.after.position - 1)))⟩

/-- **The suffixes of a declarator.** -/
inductive Suffixed : List Token → List Derivation → List Token → Prop
  | stop (ts : List Token) : Suffixed ts [] ts
  | array {opening closing : Token} {inner ts rest : List Token} {ds : List Derivation}
    (ho : opening.isPunct '[' = true) (hi : Balanced '[' ']' inner)
    (hc : closing.isPunct ']' = true) (h : Suffixed ts ds rest) :
    Suffixed (opening :: (inner ++ closing :: ts))
      (.array (dimensionBetween source opening inner closing) :: ds) rest
  | function {opening closing : Token} {inner ts rest : List Token} {ds : List Derivation}
    (ho : opening.isPunct '(' = true) (hi : Balanced '(' ')' inner)
    (hc : closing.isPunct ')' = true) (h : Suffixed ts ds rest) :
    Suffixed (opening :: (inner ++ closing :: ts)) (.function :: ds) rest

/-- **Declarators**: stars, a name or a declarator in parentheses, and suffixes. What is derived
inside the parentheses comes first, then the suffixes, then the stars. -/
inductive Declares : List Token → Declarator → List Token → Prop
  | name {x : Token} {name : String} {n : ℕ} {ts us rest : List Token} {ds : List Derivation}
    (hstars : Starred ts n (x :: us)) (hx : x.lexeme = .identifier name)
    (hq : Keyword.of? name ≠ some .qualifier) (hw : Keyword.of? name ≠ some .extension)
    (h : Suffixed source us ds rest) :
    Declares ts ⟨name, x.line, ds ++ List.replicate n .pointer⟩ rest
  | parens {opening closing : Token} {n : ℕ} {ts us more rest : List Token} {d : Declarator}
    {ds : List Derivation} (hstars : Starred ts n (opening :: us))
    (ho : opening.isPunct '(' = true) (hd : Declares us d (closing :: more))
    (hc : closing.isPunct ')' = true) (h : Suffixed source more ds rest) :
    Declares ts { d with derivations := d.derivations ++ ds ++ List.replicate n .pointer } rest

end Source

variable {source : List Char} {d : Declarator} {ds : List Derivation}

theorem Suffixed.suffix (h : Suffixed source ts ds rest) : rest <:+ ts := by
  induction h with
  | stop => exact List.suffix_refl _
  | @array opening closing inner ts rest ds _ _ _ _ ih
  | @function opening closing inner ts rest ds _ _ _ _ ih =>
    exact ih.trans ⟨opening :: (inner ++ [closing]), by simp⟩

theorem Declares.suffix (h : Declares source ts d rest) : rest <:+ ts := by
  induction h with
  | name hstars _ _ _ h => exact h.suffix.trans ((List.suffix_cons _ _).trans hstars.suffix)
  | parens hstars _ _ _ h ih =>
    exact h.suffix.trans ((List.suffix_cons _ _).trans
      (ih.trans ((List.suffix_cons _ _).trans hstars.suffix)))

/-! ### What is derived is read -/

theorem Suffixed.readSuffixes (h : Suffixed source ts ds rest)
    (hstands : ∀ t ∈ ts, t.after.StandsIn source) (hnext : peek e rest = .ok next)
    (hb : next.isPunct '[' = false) (hp : next.isPunct '(' = false) :
    readSuffixes e ts = .ok (ds, rest) := by
  induction h with
  | stop => exact readSuffixes_of_peek hnext hb hp
  | @array opening closing inner ts rest ds ho hi hc h ih =>
    have hmore := ih (fun t ht => hstands t (by simp [ht])) hnext
    have htext := (hstands opening (by simp)).textUntil closing.after 1
    rw [← List.cons_append, readSuffixes_array ho hi hc hmore, htext, dimensionBetween]
  | function ho hi hc h ih =>
    have hmore := ih (fun t ht => hstands t (by simp [ht])) hnext
    rw [← List.cons_append, readSuffixes_function ho hi hc hmore]

/-- **A declarator is read** in front of anything but a further suffix. -/
theorem Declares.readDeclarator (h : Declares source ts d rest)
    (hstands : ∀ t ∈ ts, t.after.StandsIn source) (hnext : peek e rest = .ok next)
    (hb : next.isPunct '[' = false) (hp : next.isPunct '(' = false) :
    readDeclarator e ts = .ok (d, rest) := by
  induction h generalizing next with
  | @name x name n ts us rest ds hstars hx hq hw h =>
    have hword : x.keyword? = Keyword.of? name := by rw [Token.keyword?, hx]
    have hother (ch : Char) : x.isPunct ch = false := by simp [Token.isPunct, hx, Lexeme.isPunct]
    have hus : ∀ t ∈ us, t.after.StandsIn source := fun t ht =>
      hstands t (hstars.suffix.subset (List.mem_cons_of_mem x ht))
    rw [readDeclarator_eq, hstars.readStars,
      readStars_of_skipNoise (skipNoise_of_word (hword ▸ hq) (hword ▸ hw)) (hother '*')]
    dsimp only [Except.map]
    rw [ok_bind, declaratorBehind_name hx, finishDeclarator, h.readSuffixes hus hnext hb hp,
      Nat.zero_add]
    simp
  | @parens opening closing n ts us more rest d ds hstars ho hd hc h ih =>
    have hus : ∀ t ∈ us, t.after.StandsIn source := fun t ht =>
      hstands t (hstars.suffix.subset (List.mem_cons_of_mem opening ht))
    have hmore : ∀ t ∈ more, t.after.StandsIn source := fun t ht =>
      hus t (hd.suffix.subset (List.mem_cons_of_mem closing ht))
    have hinner := ih hus (show peek e (closing :: more) = .ok closing from rfl)
      (isPunct_eq_false_of_ne (by decide) hc) (isPunct_eq_false_of_ne (by decide) hc)
    rw [readDeclarator_eq, hstars.readStars, readStars_of_skipNoise (skipNoise_of_isPunct ho)
      (isPunct_eq_false_of_ne (by decide) ho)]
    dsimp only [Except.map]
    rw [ok_bind, declaratorBehind_paren ho, hinner, ok_bind, expectPunct, if_pos hc, ok_bind,
      finishDeclarator, h.readSuffixes hmore hnext hb hp, Nat.zero_add]

/-! ### What is read is derived -/

theorem suffixed_of_readSuffixes (h : readSuffixes e ts = .ok (ds, rest))
    (hstands : ∀ t ∈ ts, t.after.StandsIn source) : Suffixed source ts ds rest := by
  fun_induction readSuffixes e ts generalizing ds rest with
  | case1 =>
    obtain ⟨rfl, rfl⟩ := Prod.mk.inj (ending_map_ok h)
    exact .stop _
  | case2 | case3 | case5 | case6 => cases h
  | case4 opening ts ho d more hd ds rest hs ih =>
    obtain ⟨rfl, rfl⟩ := Prod.mk.inj (Except.ok.inj h)
    unfold readDimension at hd
    split at hd
    · cases hd
    · rename_i lexemes closing rest hr
      obtain ⟨rfl, rfl⟩ := Prod.mk.inj (Except.ok.inj hd)
      obtain ⟨inner, rfl, hi, hc, rfl⟩ := exists_balanced_of_readBrackets hr
      rw [(hstands opening (by simp)).textUntil]
      exact .array ho hi hc (ih hs fun t ht => hstands t (by simp [ht]))
  | case7 opening ts _ ho more hg ds rest hs ih =>
    obtain ⟨rfl, rfl⟩ := Prod.mk.inj (Except.ok.inj h)
    obtain ⟨inner, closing, rfl, hi, hc⟩ := exists_balanced_of_skip hg
    exact .function ho hi hc (ih hs fun t ht => hstands t (by simp [ht]))
  | case8 =>
    obtain ⟨rfl, rfl⟩ := Prod.mk.inj (Except.ok.inj h)
    exact .stop _

theorem suffixed_of_finishDeclarator {d' : Declarator}
    (h : finishDeclarator e d n ts = .ok (d', rest)) (hstands : ∀ t ∈ ts, t.after.StandsIn source) :
    ∃ ds, Suffixed source ts ds rest ∧
      d' = { d with derivations := d.derivations ++ ds ++ List.replicate n .pointer } := by
  unfold finishDeclarator at h
  split at h
  · cases h
  · rename_i ds rest hs
    obtain ⟨rfl, rfl⟩ := Prod.mk.inj (Except.ok.inj h)
    exact ⟨ds, suffixed_of_readSuffixes hs hstands, rfl⟩

/-- **Whatever is read is a declarator.** -/
theorem declares_of_readDeclarator (h : readDeclarator e ts = .ok (d, rest))
    (hstands : ∀ t ∈ ts, t.after.StandsIn source) : Declares source ts d rest := by
  fun_induction readDeclarator e ts generalizing d rest with
  | case1 | case2 | case3 | case4 | case5 | case8 => cases h
  | case6 ts n opening us hr ho inner more hd after hp ih =>
    obtain ⟨hstars, -⟩ := starred_of_readStars hr
    have hus : ∀ t ∈ us, t.after.StandsIn source := fun t ht =>
      hstands t (hstars.suffix.subset (List.mem_cons_of_mem opening ht))
    have hinner := ih hd hus
    obtain ⟨closing, rfl, hc⟩ :
        ∃ closing, more = closing :: after ∧ closing.isPunct ')' = true := by
      unfold expectPunct at hp
      split at hp
      · exact absurd hp failAtEnd_ne_ok
      · split at hp
        · rename_i hc
          obtain rfl := Except.ok.inj hp
          exact ⟨_, rfl, hc⟩
        · cases hp
    have hafter : ∀ t ∈ after, t.after.StandsIn source := fun t ht =>
      hus t (hinner.suffix.subset (List.mem_cons_of_mem closing ht))
    obtain ⟨ds, hds, rfl⟩ := suffixed_of_finishDeclarator h hafter
    exact .parens hstars ho hinner hc hds
  | case7 ts n x us hr ho name hx =>
    obtain ⟨hstars, hword⟩ := starred_of_readStars hr
    have hus : ∀ t ∈ us, t.after.StandsIn source := fun t ht =>
      hstands t (hstars.suffix.subset (List.mem_cons_of_mem x ht))
    obtain ⟨ds, hds, rfl⟩ := suffixed_of_finishDeclarator h hus
    have hkeyword : x.keyword? = Keyword.of? name := by rw [Token.keyword?, hx]
    obtain ⟨hq, hw⟩ := hword x rfl
    exact .name hstars hx (hkeyword ▸ hq) (hkeyword ▸ hw) hds

end TypeLayout
