import TypeLayout.Proofs.Lossless
import TypeLayout.Proofs.SideBySide

/-!
# Declarators are read the way C reads them

A declarator is spelled from its name outwards (`Spelled`): array and function suffixes bind
tighter than stars, parentheses can stand around any part of it, and where a suffix is to apply to
something with a star they have to. Whatever the spelling, the derivations are read in the order in
which they were applied, and nothing behind the spelling is taken (`readDeclarator_spelled`).

The reader works from the outside: it counts the stars, reads what is in the middle, then the
suffixes. So the statement that goes through by induction on the spelling leaves both ends open,
with stars counted before it and suffixes still to be read behind it (`readDeclarator_of_spelled`).
-/

namespace TypeLayout

open List

variable {ch : Char} {ds : List Derivation} {opening : Token}

/-! ### Balanced brackets -/

/-- **Tokens between which brackets of one sort are balanced.** -/
inductive Balanced (left right : Char) : List Token → Prop
  | nil : Balanced left right []
  | other {t : Token} {ts : List Token} (hl : t.isPunct left = false) (hr : t.isPunct right = false)
    (h : Balanced left right ts) : Balanced left right (t :: ts)
  | group {opening closing : Token} {inner ts : List Token} (ho : opening.isPunct left = true)
    (hi : Balanced left right inner) (hc : closing.isPunct right = true)
    (h : Balanced left right ts) : Balanced left right (opening :: inner ++ closing :: ts)

variable {e : Ending} {left right : Char} {ts us rest inner : List Token} {t closing : Token}

theorem nesting_left (h : t.isPunct left = true) (depth : ℕ) :
    t.nesting left right depth = depth + 1 := by
  rw [Token.nesting, if_pos h]

theorem nesting_right (hne : left ≠ right) (h : t.isPunct right = true) (depth : ℕ) :
    t.nesting left right (depth + 1) = depth := by
  rw [Token.nesting, if_neg (by simp [isPunct_eq_false_of_ne hne.symm h]), if_pos h,
    Nat.add_sub_cancel]

theorem nesting_other (hl : t.isPunct left = false) (hr : t.isPunct right = false) (depth : ℕ) :
    t.nesting left right depth = depth := by
  rw [Token.nesting, if_neg (by simp [hl]), if_neg (by simp [hr])]

theorem Balanced.skipBalanced (hne : left ≠ right) (h : Balanced left right inner) (depth : ℕ) :
    skipBalanced e left right depth (inner ++ us) = skipBalanced e left right depth us := by
  induction h generalizing depth us with
  | nil => rfl
  | other hl hr _ ih =>
    rw [cons_append, TypeLayout.skipBalanced, if_neg (by simp [hr]), nesting_other hl hr, ih]
  | group ho _ hc _ ihi ih =>
    have hr := isPunct_eq_false_of_ne hne ho
    rw [append_assoc, cons_append, TypeLayout.skipBalanced, if_neg (by simp [hr]),
      nesting_left ho, ihi, cons_append, TypeLayout.skipBalanced, if_neg (by simp),
      nesting_right hne hc, ih]

theorem Balanced.readBrackets (h : Balanced '[' ']' inner) (depth : ℕ) :
    readBrackets e depth (inner ++ us) =
      (readBrackets e depth us).map fun r => (inner.map (·.lexeme) ++ r.1, r.2) := by
  have hmap {α β γ : Type} (x : Except Fault α) (f : α → β) (g : β → γ) :
      (x.map f).map g = x.map (g ∘ f) := by
    cases x <;> rfl
  induction h generalizing depth us with
  | nil =>
    rw [nil_append]
    cases TypeLayout.readBrackets e depth us <;> rfl
  | other hl hr _ ih =>
    rw [cons_append, readBrackets_cons (by simp [hr]), nesting_other hl hr, ih, hmap]
    rfl
  | group ho _ hc _ ihi ih =>
    have hr := isPunct_eq_false_of_ne (show '[' ≠ ']' by decide) ho
    rw [append_assoc, cons_append, readBrackets_cons (by simp [hr]), nesting_left ho, ihi,
      cons_append, readBrackets_cons (by simp), nesting_right (by decide) hc, ih, hmap, hmap,
      hmap]
    congr 1
    funext r
    simp

/-- **A group is skipped with the bracket that closes it.** -/
theorem Balanced.skip_closing (hne : left ≠ right) (h : Balanced left right inner)
    (hc : closing.isPunct right = true) :
    TypeLayout.skipBalanced e left right 0 (inner ++ closing :: rest) = .ok rest := by
  rw [h.skipBalanced hne, TypeLayout.skipBalanced, if_pos ⟨hc, rfl⟩]

theorem Balanced.read_closing (h : Balanced '[' ']' inner) (hc : closing.isPunct ']' = true) :
    TypeLayout.readBrackets e 0 (inner ++ closing :: rest) =
      .ok (inner.map (·.lexeme), closing, rest) := by
  rw [h.readBrackets, TypeLayout.readBrackets, if_pos ⟨hc, rfl⟩]
  simp [Except.map]

/-! ### Stars -/

/-- **What can stand behind a star**: qualifiers, and extension words with their groups. -/
inductive Noise : List Token → Prop
  | nil : Noise []
  | qualifier {t : Token} {ts : List Token} (ht : t.keyword? = some .qualifier) (h : Noise ts) :
    Noise (t :: ts)
  | extension {t opening closing : Token} {inner ts : List Token}
    (ht : t.keyword? = some .extension) (ho : opening.isPunct '(' = true)
    (hi : Balanced '(' ')' inner) (hc : closing.isPunct ')' = true) (h : Noise ts) :
    Noise (t :: opening :: inner ++ closing :: ts)

theorem Noise.skipNoise (h : Noise ts) : skipNoise e (ts ++ us) = skipNoise e us := by
  induction h with
  | nil => rfl
  | qualifier ht _ ih => rw [cons_append, TypeLayout.skipNoise, ht, ih]
  | @extension t opening closing inner ts ht ho hi hc _ ih =>
    have hgroup : skipGroup e (opening :: (inner ++ closing :: (ts ++ us))) = .ok (ts ++ us) := by
      rw [skipGroup, if_pos ho, hi.skip_closing (by decide) hc]
    rw [append_assoc, cons_append, cons_append, cons_append,
      skipNoise_extension ht, hgroup, ok_bind, ih]

theorem keyword?_of_isPunct (h : t.isPunct ch = true) : t.keyword? = none := by
  unfold Token.isPunct Lexeme.isPunct at h
  unfold Token.keyword?
  split at h <;> simp_all

/-- With a type the specifiers end in front of anything but a keyword. -/
theorem Specifiers.endAt_of_keyword? {p : Specifiers} (ts : List Token)
    (hs : p.hasType = true) (ht : t.keyword? = none) : p.EndAt (t :: ts) := by
  rintro _ name ⟨⟩ hname
  exact .inr ⟨keyword?_of_lexeme hname ▸ ht, hs⟩

theorem skipNoise_of_isPunct (h : t.isPunct ch = true) : skipNoise e (t :: ts) = .ok (t :: ts) :=
  skipNoise_of_word (by simp [keyword?_of_isPunct h]) (by simp [keyword?_of_isPunct h])

theorem readStars_add_zero (ts : List Token) :
    readStars e ts = (readStars e ts).map fun r => (r.1 + 0, r.2) := by
  cases readStars e ts <;> rfl

theorem readStars_star (hs : t.isPunct '*' = true) (hn : Noise ts) :
    readStars e (t :: ts ++ us) = (readStars e us).map fun r => (r.1 + 1, r.2) := by
  rw [cons_append, readStars_eq, skipNoise_of_isPunct hs, ok_bind]
  dsimp only
  rw [if_pos hs, readStars_eq (ts ++ us), hn.skipNoise, ← readStars_eq]

theorem readStars_of_skipNoise (hskip : skipNoise e (t :: ts) = .ok (t :: ts))
    (ht : t.isPunct '*' = false) : readStars e (t :: ts) = .ok (0, t :: ts) := by
  rw [readStars_eq, hskip]
  exact if_neg (by simp [ht])

/-! ### Suffixes -/

theorem readSuffixes_array (ho : opening.isPunct '[' = true) (hi : Balanced '[' ']' inner)
    (hc : closing.isPunct ']' = true) (h : readSuffixes e us = .ok (ds, rest)) :
    readSuffixes e (opening :: inner ++ closing :: us) =
      .ok (.array ⟨inner.map (·.lexeme),
        String.ofList (Text.trim (opening.after.textUntil closing.after 1))⟩ :: ds, rest) := by
  have hdim : readDimension e opening (inner ++ closing :: us) =
      .ok (⟨inner.map (·.lexeme),
        String.ofList (Text.trim (opening.after.textUntil closing.after 1))⟩, us) := by
    rw [readDimension, hi.read_closing hc]
  rw [cons_append, readSuffixes_bracket ho, hdim, ok_bind, h]
  rfl

theorem readSuffixes_function (ho : opening.isPunct '(' = true) (hi : Balanced '(' ')' inner)
    (hc : closing.isPunct ')' = true) (h : readSuffixes e us = .ok (ds, rest)) :
    readSuffixes e (opening :: inner ++ closing :: us) = .ok (.function :: ds, rest) := by
  have hskip : skipBalanced e '(' ')' 0 (inner ++ closing :: us) = .ok us :=
    hi.skip_closing (by decide) hc
  have hbracket : opening.isPunct '[' = false := isPunct_eq_false_of_ne (by decide) ho
  rw [cons_append, readSuffixes_paren (by simp [hbracket]) ho, hskip, ok_bind, h]
  rfl

/-- No suffix starts with another token, nor with the end of the source. -/
theorem readSuffixes_of_peek (h : peek e us = .ok t) (hb : t.isPunct '[' = false)
    (hp : t.isPunct '(' = false) : readSuffixes e us = .ok ([], us) := by
  cases us with
  | nil =>
    rw [readSuffixes]
    rw [peek] at h
    rw [h]
    rfl
  | cons u us =>
    obtain rfl := Except.ok.inj h
    rw [readSuffixes, if_neg (by simp [hb]), if_neg (by simp [hp])]

/-! ### Spellings -/

/-- **The spellings of a declarator** of the name `x`, with its derivations from the name outwards.
A spelling is direct if no star stands in front of it; only then a suffix applies to all of it. -/
inductive Spelled (source : List Char) (x : Token) : (direct : Bool) → List Token →
    List Derivation → Prop
  | name : Spelled source x true [x] []
  | parens {direct : Bool} {opening closing : Token} {ts : List Token} {ds : List Derivation}
    (ho : opening.isPunct '(' = true) (h : Spelled source x direct ts ds)
    (hc : closing.isPunct ')' = true) : Spelled source x true (opening :: ts ++ [closing]) ds
  | array {opening closing : Token} {inner ts : List Token} {ds : List Derivation}
    (h : Spelled source x true ts ds) (ho : opening.isPunct '[' = true)
    (hi : Balanced '[' ']' inner) (hc : closing.isPunct ']' = true) :
    Spelled source x true (ts ++ (opening :: inner ++ [closing]))
      (ds ++ [.array ⟨inner.map (·.lexeme), String.ofList (Text.trim
        (sliceText source opening.after.position (closing.after.position - 1)))⟩])
  | function {opening closing : Token} {inner ts : List Token} {ds : List Derivation}
    (h : Spelled source x true ts ds) (ho : opening.isPunct '(' = true)
    (hi : Balanced '(' ')' inner) (hc : closing.isPunct ')' = true) :
    Spelled source x true (ts ++ (opening :: inner ++ [closing])) (ds ++ [.function])
  | pointer {direct : Bool} {star : Token} {noise ts : List Token} {ds : List Derivation}
    (hs : star.isPunct '*' = true) (hn : Noise noise) (h : Spelled source x direct ts ds) :
    Spelled source x false (star :: noise ++ ts) (ds ++ [.pointer])

variable {source : List Char}

/-- The text between two places of the source is a slice of it. -/
theorem Cursor.StandsIn.textUntil {c : Cursor} (h : c.StandsIn source) (d : Cursor) (back : ℕ) :
    c.textUntil d back = sliceText source c.position (d.position - back) := by
  rw [Cursor.textUntil, sliceText, drop_take, h.rest]

/-- **A spelling is read, whatever stars have been counted before it and whatever suffixes follow
it.** Stars in front of the spelling would have to wait for those suffixes, so there are none
behind a spelling that is not direct. -/
theorem readDeclarator_of_spelled {x : Token} {name : String} (hx : x.lexeme = .identifier name)
    (hskip : ∀ ts, skipNoise e (x :: ts) = .ok (x :: ts)) {direct : Bool}
    (h : Spelled source x direct ts ds) (hstands : ∀ t ∈ ts, t.after.StandsIn source) {n : ℕ}
    {more : List Token} {suffixes : List Derivation}
    (hstars : readStars e us = (readStars e (ts ++ more)).map fun r => (r.1 + n, r.2))
    (hmore : readSuffixes e more = .ok (suffixes, rest)) (hdirect : direct = true ∨ suffixes = []) :
    readDeclarator e us =
      .ok (⟨name, x.line, ds ++ suffixes ++ List.replicate n .pointer⟩, rest) := by
  induction h generalizing n us more rest suffixes with
  | name =>
    have hstar : x.isPunct '*' = false := by simp [Token.isPunct, hx, Lexeme.isPunct]
    rw [singleton_append, readStars_of_skipNoise (hskip more) hstar] at hstars
    rw [readDeclarator_eq, hstars]
    dsimp only [Except.map]
    rw [ok_bind, declaratorBehind_name hx, finishDeclarator, hmore, Nat.zero_add]
  | @parens direct opening closing ts ds ho h hc ih =>
    -- Inside the parentheses the count of stars begins anew, and they close before any suffix.
    have hclose : readSuffixes e (closing :: more) = .ok ([], closing :: more) :=
      readSuffixes_of_peek rfl (isPunct_eq_false_of_ne (by decide) hc)
        (isPunct_eq_false_of_ne (by decide) hc)
    have hinner := ih (fun t ht => hstands t (by simp [ht])) (readStars_add_zero _) hclose
      (.inr rfl)
    rw [append_assoc, cons_append, singleton_append,
      readStars_of_skipNoise (skipNoise_of_isPunct ho)
        (isPunct_eq_false_of_ne (by decide) ho)] at hstars
    rw [readDeclarator_eq, hstars]
    dsimp only [Except.map]
    rw [ok_bind, declaratorBehind_paren ho, hinner, ok_bind, expectPunct, if_pos hc, ok_bind,
      finishDeclarator, hmore, Nat.zero_add]
    simp
  | @array opening closing inner ts ds h ho hi hc ih =>
    have htext := (hstands opening (by simp)).textUntil closing.after 1
    have hsuffixes := readSuffixes_array ho hi hc hmore
    rw [htext] at hsuffixes
    rw [ih (fun t ht => hstands t (by simp [ht])) (by simpa using hstars) hsuffixes (.inl rfl)]
    simp
  | @function opening closing inner ts ds h ho hi hc ih =>
    have hsuffixes := readSuffixes_function ho hi hc hmore
    rw [ih (fun t ht => hstands t (by simp [ht])) (by simpa using hstars) hsuffixes (.inl rfl)]
    simp
  | @pointer direct star noise ts ds hs hn h ih =>
    obtain rfl : suffixes = [] := by simpa using hdirect
    have hcount : readStars e us =
        (readStars e (ts ++ more)).map fun r => (r.1 + (n + 1), r.2) := by
      rw [hstars, append_assoc, readStars_star hs hn]
      cases readStars e (ts ++ more) <;> simp [Except.map, Nat.add_comm, Nat.add_left_comm]
    rw [ih (fun t ht => hstands t (by simp [ht])) hcount hmore (.inr rfl)]
    simp [replicate_succ]

/-- **Declarators are read as C reads them**: of every spelling, in front of anything but a further
suffix, the name and its derivations, in order, and no token more. -/
theorem readDeclarator_spelled {depth : ℕ} {before spelling rest : List Token} {x next : Token}
    {name : String} {direct : Bool} {ds : List Derivation}
    (hscan : (scan (.start source depth)).tokens = before ++ (spelling ++ rest))
    (hx : x.lexeme = .identifier name) (hqualifier : Keyword.of? name ≠ some .qualifier)
    (hextension : Keyword.of? name ≠ some .extension) (h : Spelled source x direct spelling ds)
    (hnext : peek (.ofScan (scan (.start source depth))) rest = .ok next)
    (hbracket : next.isPunct '[' = false) (hparen : next.isPunct '(' = false) :
    readDeclarator (.ofScan (scan (.start source depth))) (spelling ++ rest) =
      .ok (⟨name, x.line, ds⟩, rest) := by
  have hword : x.keyword? = Keyword.of? name := by rw [Token.keyword?, hx]
  have hstands : ∀ t ∈ spelling, t.after.StandsIn source := by
    intro t ht
    refine standsIn_scan (Cursor.standsIn_start source depth) t ?_
    rw [hscan]
    simp [ht]
  have hread := readDeclarator_of_spelled hx
    (fun ts => skipNoise_of_word (hword ▸ hqualifier) (hword ▸ hextension)) h hstands
    (readStars_add_zero _) (readSuffixes_of_peek hnext hbracket hparen) (.inr rfl)
  simpa using hread

/-- An array of pointers to functions that return a pointer, with two pairs of parentheses more than
are needed. -/
theorem readDeclarator_spelled_function_table :
    let source := "*(*const((x))[n])(int);".toList
    let s := scan (.start source defaultContextLines)
    ∃ rest, rest.map (·.lexeme) = [.punct ';'] ∧
      readDeclarator (.ofScan s) s.tokens =
        .ok (⟨"x", 1, [.array ⟨[.identifier "n"], "n"⟩, .pointer, .function, .pointer]⟩, rest) := by
  intro source s
  have htokens : s.tokens.map (fun t => (t.lexeme, t.line, t.after.position)) =
      [(.punct '*', 1, 1), (.punct '(', 1, 2), (.punct '*', 1, 3), (.identifier "const", 1, 8),
        (.punct '(', 1, 9), (.punct '(', 1, 10), (.identifier "x", 1, 11), (.punct ')', 1, 12),
        (.punct ')', 1, 13), (.punct '[', 1, 14), (.identifier "n", 1, 15), (.punct ']', 1, 16),
        (.punct ')', 1, 17), (.punct '(', 1, 18), (.identifier "int", 1, 21), (.punct ')', 1, 22),
        (.punct ';', 1, 23)] := by
    decide +kernel
  -- the tokens one by one, with what the spelling needs to know of each
  rcases hs : s.tokens with _ | ⟨outer, _ | ⟨open₁, _ | ⟨inner, _ | ⟨const, _ | ⟨open₂, _ | ⟨open₃,
    _ | ⟨x, _ | ⟨close₃, _ | ⟨close₂, _ | ⟨left, _ | ⟨dim, _ | ⟨right, _ | ⟨close₁, _ | ⟨left',
    _ | ⟨int, _ | ⟨right', _ | ⟨semicolon, _ | ⟨extra, more⟩⟩⟩⟩⟩⟩⟩⟩⟩⟩⟩⟩⟩⟩⟩⟩⟩⟩ <;>
    simp only [hs, map_cons, map_nil, List.cons.injEq, Prod.mk.injEq, reduceCtorEq,
      and_false] at htokens
  obtain ⟨⟨houter, -, -⟩, ⟨hopen₁, -, -⟩, ⟨hinner, -, -⟩, ⟨hconst, -, -⟩, ⟨hopen₂, -, -⟩,
    ⟨hopen₃, -, -⟩, ⟨hx, hline, -⟩, ⟨hclose₃, -, -⟩, ⟨hclose₂, -, -⟩, ⟨hleft, -, hstart⟩,
    ⟨hdim, -, -⟩, ⟨hright, -, hstop⟩, ⟨hclose₁, -, -⟩, ⟨hleft', -, -⟩, ⟨hint, -, -⟩,
    ⟨hright', -, -⟩, ⟨hsemicolon, -, -⟩, -⟩ := htokens
  have his {t : Token} {ch : Char} (h : t.lexeme = .punct ch) : t.isPunct ch = true := by
    simp [Token.isPunct, h, Lexeme.isPunct]
  have hword {left right : Char} {t : Token} {word : String} (h : t.lexeme = .identifier word) :
      Balanced left right [t] := by
    refine .other ?_ ?_ .nil <;> simp [Token.isPunct, h, Lexeme.isPunct]
  have hqualifier : const.keyword? = some .qualifier := by
    rw [Token.keyword?, hconst]
    decide +kernel
  have hname : Spelled source x true [open₂, open₃, x, close₃, close₂] [] :=
    .parens (his hopen₂) (.parens (his hopen₃) .name (his hclose₃)) (his hclose₂)
  have harray := Spelled.pointer (his hinner) (.qualifier hqualifier .nil)
    (.array hname (his hleft) (hword hdim) (his hright))
  have hspelled := Spelled.pointer (his houter) .nil
    (.function (.parens (his hopen₁) harray (his hclose₁)) (his hleft') (hword hint) (his hright'))
  have hother {ch : Char} (hne : ';' ≠ ch) : semicolon.isPunct ch = false :=
    isPunct_eq_false_of_ne hne (his hsemicolon)
  have hread := @readDeclarator_spelled source defaultContextLines [] _ [semicolon] x semicolon "x"
    _ _ hs hx (by decide +kernel) (by decide +kernel) hspelled rfl (hother (by decide))
    (hother (by decide))
  have htext : Text.trim (sliceText source 14 (16 - 1)) = ['n'] := by decide +kernel
  refine ⟨[semicolon], by simp [hsemicolon], ?_⟩
  simpa [hline, hdim, hstart, hstop, htext] using hread

end TypeLayout
