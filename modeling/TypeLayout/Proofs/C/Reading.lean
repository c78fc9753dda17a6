import TypeLayout.Proofs.C.Clauses
import TypeLayout.Proofs.C.Scanning
import TypeLayout.Proofs.DeclaratorSpellings

/-!
# Declarations are read as what they say

The tokens of a unit are read without a fault, and the clauses are those of its tree
(`TranslationUnit.says`). Tokens are known by their lexemes only (`Reads`).

The reader is a machine, so what it does with the tokens of a specifier or a declarator is
stated with what comes after them: if the rest is read as certain clauses, the whole is read
as the clauses of the piece of syntax and then those (`Reading.Says`).
-/

namespace TypeLayout.C

open List

variable {ds : List Declr} {s : Specifiers} {ts' : List Token}

/-! ### Tokens of pieces -/

/-- Tokens with the lexemes of some pieces. -/
def Reads (ts : List Token) (ps : List Piece) : Prop :=
  ts.map (·.lexeme) = ps.map Piece.lexeme

/-- The keyword that a piece is. -/
def Piece.keyword? : Piece → Option Keyword
  | .word w => Keyword.of? w.text
  | _ => none

variable {e : Ending} {ts : List Token} {t : Token} {p : Piece} {ps rest : List Piece}

theorem Reads.cons (h : Reads ts (p :: ps)) :
    ∃ t ts', ts = t :: ts' ∧ t.lexeme = p.lexeme ∧ Reads ts' ps := by
  obtain ⟨t, ts', rfl, hlex, hts⟩ := List.map_eq_cons_iff.mp h
  exact ⟨t, ts', rfl, hlex, hts⟩

theorem isPunct_eq (h : t.lexeme = p.lexeme) (c : Char) : t.isPunct c = p.is c := by
  rw [Token.isPunct, h]
  cases p with
  | quoted q text hq => cases q <;> rfl
  | _ => rfl

theorem keyword?_eq (h : t.lexeme = p.lexeme) : t.keyword? = p.keyword? := by
  rw [Token.keyword?, h]
  cases p with
  | quoted q text hq => cases q <;> rfl
  | _ => rfl

theorem isPunct_mark {c : Char} {hc : isMark c = true} (h : t.lexeme = (Piece.mark c hc).lexeme) :
    t.isPunct c = true := by
  rw [isPunct_eq h]
  simp [Piece.is]

/-- Nothing is skipped in front of a piece that is not a keyword. -/
theorem Reads.skipNoise (h : Reads ts (p :: ps)) (hp : p.keyword? = none) :
    TypeLayout.skipNoise e ts = .ok ts := by
  obtain ⟨t, ts', rfl, hlex, -⟩ := h.cons
  have hkey : t.keyword? = none := (keyword?_eq hlex).trans hp
  exact skipNoise_of_word (by simp [hkey]) (by simp [hkey])

/-- What stands between brackets is skipped with the bracket that closes it. -/
theorem skipBalanced_filler {left right : Char} (hmark : isMark right = true) {depth : ℕ}
    (hb : isBalanced left right depth ps = true)
    (h : Reads ts (ps ++ .mark right hmark :: rest)) :
    ∃ ts', Reads ts' rest ∧ skipBalanced e left right depth ts = .ok ts' := by
  induction ps generalizing ts depth with
  | nil =>
    obtain ⟨t, ts', rfl, hlex, hts⟩ := h.cons
    have hdepth : depth = 0 := by simpa [isBalanced] using hb
    refine ⟨ts', hts, ?_⟩
    rw [skipBalanced, if_pos ⟨by rw [isPunct_eq hlex]; simp [Piece.is], hdepth⟩]
  | cons p ps ih =>
    obtain ⟨t, ts', rfl, hlex, hts⟩ := h.cons
    cases depth with
    | zero =>
      obtain ⟨hnot, hb⟩ : p.is right = false ∧
          isBalanced left right (if p.is left then 1 else 0) ps = true := by
        simpa [isBalanced] using hb
      obtain ⟨ts'', hts', heq⟩ := ih hb hts
      refine ⟨ts'', hts', ?_⟩
      rw [skipBalanced, if_neg (by rw [isPunct_eq hlex, hnot]; simp), Token.nesting,
        isPunct_eq hlex, isPunct_eq hlex, hnot, if_neg (by simp : ¬ (false = true))]
      exact heq
    | succ depth =>
      rw [isBalanced] at hb
      obtain ⟨ts'', hts', heq⟩ := ih hb hts
      refine ⟨ts'', hts', ?_⟩
      rw [skipBalanced, if_neg (by simp), Token.nesting, isPunct_eq hlex, isPunct_eq hlex]
      exact heq

/-! ### Declarators -/

/-- The text after a declarator begins with a mark that is not part of it. -/
def Ends (rest : List Piece) : Prop :=
  ∃ c h more, rest = .mark c h :: more ∧ c ∈ [')', ',', ';']

theorem Ends.skipNoise (hr : Ends rest) (h : Reads ts rest) :
    TypeLayout.skipNoise e ts = .ok ts := by
  obtain ⟨c, hc, more, rfl, -⟩ := hr
  exact h.skipNoise rfl

/-- What stands after a name is read up to its end. -/
theorem readSuffixes_tails (tails : List Tail) (hr : Ends rest)
    (h : Reads ts (tails.flatMap Tail.pieces ++ rest)) :
    ∃ ts' ds, Reads ts' rest ∧ readSuffixes e ts = .ok (ds, ts') ∧
      ds.map Derivation.content = tails.map Tail.derivation := by
  induction tails generalizing ts with
  | nil =>
    obtain ⟨c, hc, more, rfl, hmem⟩ := hr
    obtain ⟨t, ts', rfl, hlex, hts⟩ := h.cons
    refine ⟨t :: ts', [], h, readSuffixes_of_peek rfl ?_ ?_, rfl⟩ <;>
      (rw [isPunct_eq hlex]; fin_cases hmem <;> rfl)
  | cons tail tails ih =>
    cases tail with
    | array n =>
      obtain ⟨opening, ts₁, rfl, hopen, h₁⟩ := h.cons
      obtain ⟨number, ts₂, rfl, hnumber, h₂⟩ := h₁.cons
      obtain ⟨closing, ts₃, rfl, hclose, h₃⟩ := h₂.cons
      obtain ⟨ts', ds, hts', heq, hds⟩ := ih h₃
      have hinner : Balanced '[' ']' [number] :=
        .other (isPunct_eq hnumber _) (isPunct_eq hnumber _) .nil
      refine ⟨ts', _, hts',
        readSuffixes_array (isPunct_mark hopen) hinner (isPunct_mark hclose) heq, ?_⟩
      simp only [map_cons, map_nil, hds, Derivation.content, hnumber]
      rfl
    | function params =>
      rw [flatMap_cons, Tail.pieces, append_assoc, cons_append, cons_append,
        append_assoc] at h
      obtain ⟨opening, ts₁, rfl, hopen, h₁⟩ := h.cons
      obtain ⟨ts₂, h₂, hskip⟩ := skipBalanced_filler (e := e) _ params.balanced h₁
      obtain ⟨ts', ds, hts', heq, hds⟩ := ih h₂
      refine ⟨ts', .function :: ds, hts', ?_, by rw [map_cons, map_cons, hds]; rfl⟩
      rw [readSuffixes_paren (by rw [isPunct_eq hopen]; decide) (isPunct_mark hopen), hskip,
        ok_bind, heq, ok_bind]

theorem readStars_replicate (stars : ℕ) (hp : p.keyword? = none) (hstar : p.is '*' = false)
    (h : Reads ts (List.replicate stars (.mark '*' (by decide)) ++ p :: ps)) :
    ∃ ts', Reads ts' (p :: ps) ∧ readStars e ts = .ok (stars, ts') := by
  induction stars generalizing ts with
  | zero =>
    refine ⟨ts, h, ?_⟩
    have hskip := h.skipNoise (e := e) hp
    obtain ⟨t, ts', rfl, hlex, -⟩ := h.cons
    exact readStars_of_skipNoise hskip ((isPunct_eq hlex _).trans hstar)
  | succ stars ih =>
    rw [replicate_succ, cons_append] at h
    obtain ⟨t, ts', rfl, hlex, hts⟩ := h.cons
    obtain ⟨ts'', hts'', heq⟩ := ih hts
    refine ⟨ts'', hts'', (readStars_star (isPunct_mark hlex) (.nil : Noise [])).trans ?_⟩
    rw [heq]
    rfl

theorem Ident.keyword? (x : Ident) : (Piece.word x.toWord).keyword? = none := x.free

/-- **A declarator is read as it is written.** -/
theorem readDeclarator_pieces (d : Declr) (hr : Ends rest) (h : Reads ts (d.pieces ++ rest)) :
    ∃ ts' d', Reads ts' rest ∧ readDeclarator e ts = .ok (d', ts') ∧ d'.content = d.declarator := by
  induction d generalizing ts rest with
  | name stars x tails =>
    rw [Declr.pieces, append_assoc, cons_append] at h
    obtain ⟨ts₁, h₁, hstars⟩ := readStars_replicate (e := e) stars x.keyword? rfl h
    obtain ⟨t, ts₂, rfl, hlex, h₂⟩ := h₁.cons
    obtain ⟨ts', ds, hts', hsuffixes, hds⟩ := readSuffixes_tails (e := e) tails hr h₂
    refine ⟨ts', ⟨x.text, t.line, [] ++ ds ++ List.replicate stars .pointer⟩, hts', ?_, ?_⟩
    · rw [readDeclarator_eq, hstars, ok_bind, declaratorBehind_name hlex, finishDeclarator,
        hsuffixes]
    · simp [Declarator.content, Declr.declarator, Declr.ident, Declr.derivations, hds,
        Derivation.content]
  | paren stars inner tails ih =>
    rw [Declr.pieces, append_assoc, append_assoc, cons_append, cons_append] at h
    obtain ⟨ts₁, h₁, hstars⟩ := readStars_replicate (e := e) stars rfl rfl h
    obtain ⟨t, ts₂, rfl, hlex, h₂⟩ := h₁.cons
    obtain ⟨ts₃, d', h₃, hinner, hd'⟩ := ih ⟨_, _, _, rfl, by simp⟩ h₂
    obtain ⟨close, ts₄, rfl, hclose, h₄⟩ := h₃.cons
    obtain ⟨ts', ds, hts', hsuffixes, hds⟩ := readSuffixes_tails (e := e) tails hr h₄
    refine ⟨ts', { d' with derivations := d'.derivations ++ ds ++ List.replicate stars .pointer },
      hts', ?_, ?_⟩
    · rw [readDeclarator_eq, hstars, ok_bind, declaratorBehind_paren (isPunct_mark hlex), hinner,
        ok_bind, expectPunct, if_pos (isPunct_mark hclose), ok_bind, finishDeclarator, hsuffixes]
    · have hname := congrArg Declarator.name hd'
      have hder := congrArg Declarator.derivations hd'
      simp only [Declarator.content, Declr.declarator] at hname hder
      simp [Declarator.content, Declr.declarator, Declr.ident, Declr.derivations, hds, hname, hder,
        Derivation.content]

/-! ### The machine -/

/-- **A reading says some clauses**: they are what was heard, and there was no fault. -/
def Says (r : Reading) (cs : List Clause) : Prop :=
  r.heard.map (·.clause.content) = cs ∧ ∃ n, r.outcome = .ok n

variable {place place' : Place} {stack stack' : List Specifiers} {cs : List Clause}

theorem says_goes {heard : Option Heard} (h : Goes e place stack ts (.goOn heard place' stack' ts'))
    (hs : Says (readFrom e place' stack' ts') cs) :
    Says (readFrom e place stack ts) (heard.toList.map (·.clause.content) ++ cs) := by
  obtain ⟨hheard, n, hn⟩ := hs
  rw [readFrom_eq, h.step_eq]
  exact ⟨by rw [map_append, hheard], by simp [hn, Except.map]⟩

/-- A step in which nothing is heard. -/
theorem says_silent (h : Goes e place stack ts (.goOn none place' stack' ts'))
    (hs : Says (readFrom e place' stack' ts') cs) : Says (readFrom e place stack ts) cs :=
  says_goes h hs

/-- A step in which a clause is heard. -/
theorem says_heard {clause : Clause} {seen : Cursor}
    (h : Goes e place stack ts (.goOn (some ⟨clause, seen⟩) place' stack' ts'))
    (hs : Says (readFrom e place' stack' ts') cs) :
    Says (readFrom e place stack ts) (clause.content :: cs) :=
  says_goes h hs

/-- **Some pieces say some clauses** to a reader that stands in front of them. -/
def SaysFrom (e : Ending) (place : Place) (stack : List Specifiers) (ps : List Piece)
    (cs : List Clause) : Prop :=
  ∀ ts, Reads ts ps → Says (readFrom e place stack ts) cs

/-! ### Declarators of a declaration -/

theorem says_declarator (typedef : Bool) (d : Declr) (hr : Ends rest)
    (hs : ∀ function, SaysFrom e (.tail typedef function) stack rest cs) :
    SaysFrom e (.declarator typedef) stack (d.pieces ++ rest)
      (.declare d.declarator typedef :: cs) := by
  intro ts h
  obtain ⟨ts', d', hts', hread, hd'⟩ := readDeclarator_pieces (e := e) d hr h
  have hskip := hr.skipNoise (e := e) hts'
  have hnext := hs d'.isFunction ts' hts'
  obtain ⟨c, hc, more, rfl, hmem⟩ := hr
  obtain ⟨t, ts₁, rfl, hlex, -⟩ := hts'.cons
  have hcolon : t.isPunct ':' = false := by
    rw [isPunct_eq hlex]
    fin_cases hmem <;> rfl
  have hequals : t.isPunct '=' = false := by
    rw [isPunct_eq hlex]
    fin_cases hmem <;> rfl
  have hsign : takePunct e '=' (t :: ts₁) = .ok (false, t :: ts₁) := by simp [takePunct, hequals]
  rw [← hd']
  exact says_heard (.declare hread hskip rfl (by simp [hcolon]) hsign rfl rfl) hnext

/-- **All declarators**, up to the semicolon after them. -/
theorem says_declarators (typedef : Bool) (hne : ds ≠ [])
    (hs : SaysFrom e .declaration stack rest cs) :
    SaysFrom e (.declarator typedef) stack (declrPieces ds ++ .mark ';' (by decide) :: rest)
      (ds.map (fun d => .declare d.declarator typedef) ++ cs) := by
  induction ds with
  | nil => exact absurd rfl hne
  | cons d ds ih =>
    cases ds with
    | nil =>
      refine says_declarator typedef d ⟨_, _, _, rfl, by simp⟩ fun function ts h => ?_
      obtain ⟨t, ts', rfl, hlex, hts'⟩ := h.cons
      exact says_silent (.semicolon (isPunct_mark hlex)) (hs ts' hts')
    | cons d' ds =>
      rw [declrPieces, append_assoc, cons_append]
      · refine says_declarator typedef d ⟨_, _, _, rfl, by simp⟩ fun function ts h => ?_
        obtain ⟨t, ts', rfl, hlex, hts'⟩ := h.cons
        exact says_silent (.comma (isPunct_mark hlex)) (ih (by simp) ts' hts')
      · simp

/-! ### After a type -/

/-- What can stand after a type: a semicolon or the beginning of a declarator. -/
def Follows (rest : List Piece) : Prop :=
  ∃ p more, rest = p :: more ∧ p.keyword? = none ∧ p.is '{' = false

theorem Declr.exists_pieces (d : Declr) :
    ∃ p more, d.pieces = p :: more ∧ p.keyword? = none ∧ p.is '{' = false ∧ p.is ';' = false := by
  cases d with
  | name stars x tails =>
    cases stars with
    | zero => exact ⟨_, _, rfl, x.keyword?, rfl, rfl⟩
    | succ stars => exact ⟨_, _, rfl, rfl, rfl, rfl⟩
  | paren stars inner tails =>
    cases stars with
    | zero => exact ⟨_, _, rfl, rfl, rfl, rfl⟩
    | succ stars => exact ⟨_, _, rfl, rfl, rfl, rfl⟩

theorem exists_declrPieces (hne : ds ≠ []) :
    ∃ p more, declrPieces ds = p :: more ∧ p.keyword? = none ∧ p.is '{' = false ∧
      p.is ';' = false := by
  obtain ⟨d, ds, rfl⟩ := exists_cons_of_ne_nil hne
  obtain ⟨p, more, hp, hrest⟩ := d.exists_pieces
  cases ds with
  | nil => exact ⟨p, more, hp, hrest⟩
  | cons d' ds =>
    exact ⟨p, more ++ .mark ',' (by decide) :: declrPieces (d' :: ds), by simp [declrPieces, hp],
      hrest⟩

theorem follows_declrPieces (ds : List Declr) (h : isMark ';' = true) :
    Follows (declrPieces ds ++ .mark ';' h :: rest) := by
  by_cases hne : ds = []
  · subst hne
    exact ⟨_, _, rfl, rfl, rfl⟩
  · obtain ⟨p, more, hp, hkey, hbrace, -⟩ := exists_declrPieces hne
    exact ⟨p, more ++ .mark ';' h :: rest, by rw [hp]; rfl, hkey, hbrace⟩

/-- **What follows the type of a declaration**, up to the end of the declaration. -/
theorem says_declared (hfound : s.found = true) (ds : List Declr)
    (hs : SaysFrom e .declaration stack rest cs) :
    SaysFrom e (.specifiers s) stack (declrPieces ds ++ .mark ';' (by decide) :: rest)
      (declaratorClauses s.typedef ds ++ cs) := by
  intro ts h
  have htype : s.hasType = true := by simp [Specifiers.hasType, hfound]
  by_cases hne : ds = []
  · subst hne
    obtain ⟨t, ts', rfl, hlex, hts'⟩ := h.cons
    have hend := Specifiers.endAt_of_keyword? ts' htype (keyword?_eq hlex)
    exact says_heard (.bare hend hfound (isPunct_mark hlex)) (hs ts' hts')
  · have hds := says_declarators s.typedef hne hs ts h
    obtain ⟨p, more, hp, hkey, -, hsemi⟩ := exists_declrPieces hne
    rw [hp, cons_append] at h
    obtain ⟨t, ts', rfl, hlex, -⟩ := h.cons
    obtain ⟨d, ds, rfl⟩ := exists_cons_of_ne_nil hne
    have hend := Specifiers.endAt_of_keyword? ts' htype ((keyword?_eq hlex).trans hkey)
    refine says_silent (.declarators hend rfl hfound ?_) hds
    rintro _ ⟨⟩
    exact (isPunct_eq hlex _).trans hsemi

/-! ### Types -/

/-- The words of a built-in type, collected. -/
theorem BaseSpec.exists_words (b : BaseSpec) :
    ∃ words, b.words.foldlM BaseWords.add {} = .ok words ∧ words.isEmpty = false ∧
      words.spelling? = some b.type.spelling := by
  have hall : ∀ way ∈ b.type.ways, ∀ l ∈ way.permutations',
      ((l.foldlM BaseWords.add {}).toOption.map fun w => (w.isEmpty, w.spelling?)) =
        some (false, some b.type.spelling) := by
    cases b.type with
    | arithmetic a => cases a <;> decide
    | void => decide
    | longDouble => decide
  obtain ⟨way, hway, hperm⟩ := b.valid
  have hwords := hall way hway b.words (List.mem_permutations'.mpr hperm.symm)
  cases hfold : b.words.foldlM BaseWords.add {} with
  | error err => simp [hfold, Except.toOption] at hwords
  | ok words =>
    rw [hfold] at hwords
    simp only [Except.toOption, Option.map_some, Option.some.injEq, Prod.mk.injEq] at hwords
    exact ⟨words, rfl, hwords⟩

theorem keyword_wordOf (w : BaseWord) : Keyword.of? (wordOf w).text = some (.base w) := by
  cases w with
  | core c => cases c <;> decide
  | _ => decide

/-- Words of a built-in type are collected one by one. -/
theorem says_words (hfound : s.found = false) {words : List BaseWord} {base : BaseWords}
    (hbase : words.foldlM BaseWords.add s.base = .ok base)
    (hs : SaysFrom e (.specifiers { s with base }) stack rest cs) :
    SaysFrom e (.specifiers s) stack (words.map (fun w => .word (wordOf w)) ++ rest) cs := by
  induction words generalizing s with
  | nil =>
    obtain rfl : s.base = base := Except.ok.inj hbase
    exact hs
  | cons w words ih =>
    intro ts h
    obtain ⟨t, ts', rfl, hlex, hts'⟩ := h.cons
    rw [foldlM_cons] at hbase
    cases hadd : s.base.add w with
    | error err => simp [hadd, bind, Except.bind] at hbase
    | ok next =>
      rw [hadd] at hbase
      exact says_silent (.word ((keyword?_eq hlex).trans (keyword_wordOf w)) hfound hadd)
        (@ih { s with base := next } hfound hbase hs ts' hts')

section Types

variable {s : Specifiers} (htype : s.hasType = false) (hr : Follows rest)
  (hs : SaysFrom e (.specifiers { s with found := true }) stack rest cs)

include hr hs

theorem says_base (b : BaseSpec) (hfound : s.found = false) (hbase : s.base = {}) :
    SaysFrom e (.specifiers s) stack (b.words.map (fun w => .word (wordOf w)) ++ rest)
      (.base b.type.spelling false 0 :: cs) := by
  obtain ⟨words, hwords, hempty, hspell⟩ := b.exists_words
  refine says_words hfound (hbase ▸ hwords) fun ts h => ?_
  have hnext := hs ts h
  obtain ⟨p, more, rfl, hkey, -⟩ := hr
  obtain ⟨t, ts₁, rfl, hlex, -⟩ := h.cons
  have htype : ({ s with base := words } : Specifiers).hasType = true := by
    simp [Specifiers.hasType, hempty]
  obtain ⟨line, typedef, base, found⟩ := s
  cases hbase
  have hend := Specifiers.endAt_of_keyword? ts₁ htype ((keyword?_eq hlex).trans hkey)
  exact says_heard (.base hend rfl hfound hempty hspell) hnext

omit hr hs in
/-- The tag after a keyword is read, if there is one. -/
theorem readTag_pieces (name : Option Ident) (hp : p.keyword? = none)
    (hword : name = none → ∀ w, p ≠ .word w) (h : Reads ts (tagPieces name ++ p :: ps)) :
    ∃ ts', Reads ts' (p :: ps) ∧ readTag e ts = .ok (name.map (·.text), ts') := by
  cases name with
  | none =>
    have hskip := h.skipNoise (e := e) hp
    refine ⟨ts, h, ?_⟩
    have htake : takeIdentifier e ts = .ok (none, ts) := by
      obtain ⟨t, ts', rfl, hlex, -⟩ := h.cons
      rw [takeIdentifier, hlex]
      cases p with
      | word w => exact absurd rfl (hword rfl w)
      | quoted q text hq => cases q <;> rfl
      | _ => rfl
    simp only [readTag, hskip, htake, ok_bind, Option.map_none]
  | some x =>
    have hskip := h.skipNoise (e := e) x.keyword?
    obtain ⟨t, ts', rfl, hlex, hts'⟩ := h.cons
    have htake : takeIdentifier e (t :: ts') = .ok (some x.text, ts') := by
      rw [takeIdentifier, hlex]
      rfl
    refine ⟨ts', hts', ?_⟩
    simp only [readTag, hskip, htake, hts'.skipNoise hp, ok_bind, Option.map_some]

omit hr hs in
theorem keyword_tagWord (kind : TagKind) : Keyword.of? (tagWord kind).text = some (.tag kind) := by
  cases kind <;> decide

include htype

theorem says_tag (kind : TagKind) (x : Ident) : SaysFrom e (.specifiers s) stack
    (.word (tagWord kind) :: .word x.toWord :: rest) (.tag kind x.text 0 :: cs) := by
  intro ts h
  obtain ⟨t, ts₁, rfl, hlex, h₁⟩ := h.cons
  obtain ⟨p, more, rfl, hkey, hbrace⟩ := hr
  obtain ⟨ts₂, h₂, htag⟩ := readTag_pieces (e := e) (some x) hkey (by simp) h₁
  have hnext := hs ts₂ h₂
  obtain ⟨u, ts₃, rfl, hu, -⟩ := h₂.cons
  exact says_heard (.tag ((keyword?_eq hlex).trans (keyword_tagWord kind)) htype htag rfl
    (by simp [takePunct, isPunct_eq hu, hbrace])) hnext

theorem says_enum (spec : EnumSpec) :
    SaysFrom e (.specifiers s) stack (spec.pieces ++ rest) (spec.clause :: cs) := by
  intro ts h
  have hkeyword : Keyword.of? enumWord.text = some .enum := by decide
  obtain ⟨p, more, rfl, hkey, hbrace⟩ := hr
  cases spec with
  | tag x =>
    obtain ⟨t, ts₁, rfl, hlex, h₁⟩ := h.cons
    obtain ⟨ts₂, h₂, htag⟩ := readTag_pieces (e := e) (some x) hkey (by simp) h₁
    have hnext := hs ts₂ h₂
    obtain ⟨u, ts₃, rfl, hu, -⟩ := h₂.cons
    exact says_heard (.enum ((keyword?_eq hlex).trans hkeyword) htype htag
      (by simp [takePunct, isPunct_eq hu, hbrace]) rfl rfl rfl) hnext
  | body name values =>
    rw [EnumSpec.pieces, append_assoc, append_assoc, cons_append,
      cons_append] at h
    obtain ⟨t, ts₁, rfl, hlex, h₁⟩ := h.cons
    obtain ⟨ts₂, h₂, htag⟩ := readTag_pieces (e := e) name rfl (by simp) h₁
    obtain ⟨u, ts₃, rfl, hu, h₃⟩ := h₂.cons
    obtain ⟨ts₄, h₄, hvalues⟩ := skipBalanced_filler (e := e) _ values.balanced h₃
    have hlist : skipEnumerators e true ts₃ = .ok ts₄ := by
      simp only [skipEnumerators, hvalues, h₄.skipNoise (e := e) hkey, if_true]
    have hnext := hs ts₄ h₄
    obtain ⟨v, ts₅, rfl, -, -⟩ := h₄.cons
    exact says_heard (.enum ((keyword?_eq hlex).trans hkeyword) htype htag
      (by simp [takePunct, isPunct_mark hu]) hlist rfl (by simp)) hnext

omit hr in
theorem says_named (x : Ident) : SaysFrom e (.specifiers s) stack (.word x.toWord :: rest)
    (.named x.text 0 :: cs) := by
  intro ts h
  obtain ⟨t, ts₁, rfl, hlex, h₁⟩ := h.cons
  exact says_heard (.named hlex x.free htype) (hs ts₁ h₁)

omit htype in
/-- The end of a body. -/
theorem says_close :
    SaysFrom e .declaration (s :: stack) (.mark '}' (by decide) :: rest) (.closeBody :: cs) := by
  intro ts h
  obtain ⟨t, ts₁, rfl, hlex, h₁⟩ := h.cons
  obtain ⟨p, more, rfl, hkey, -⟩ := hr
  have hskip := h₁.skipNoise (e := e) hkey
  have hnext := hs ts₁ h₁
  obtain ⟨u, ts₂, rfl, -, -⟩ := h₁.cons
  exact says_heard (.close (isPunct_mark hlex) hskip rfl) hnext

end Types

/-- The beginning of a body. -/
theorem says_open (kind : TagKind) (name : Option Ident) (htype : s.hasType = false)
    (hs : SaysFrom e .declaration (s :: stack) rest cs) :
    SaysFrom e (.specifiers s) stack
      (.word (tagWord kind) :: tagPieces name ++ .mark '{' (by decide) :: rest)
      (.openBody kind (name.map (·.text)) 0 :: cs) := by
  intro ts h
  obtain ⟨t, ts₁, rfl, hlex, h₁⟩ := h.cons
  obtain ⟨ts₂, h₂, htag⟩ := readTag_pieces (e := e) name rfl (by simp) h₁
  obtain ⟨u, ts₃, rfl, hu, h₃⟩ := h₂.cons
  exact says_heard (.openBody ((keyword?_eq hlex).trans (keyword_tagWord kind)) htype htag rfl
    (by simp [takePunct, isPunct_mark hu])) (hs ts₃ h₃)

/-! ### Specifiers and bodies -/

/-- A type begins with a word. -/
theorem Specifier.exists_pieces (spec : Specifier) :
    ∃ w more, spec.pieces = .word w :: more ∧ Keyword.of? w.text ≠ some .staticAssert := by
  cases spec with
  | base b =>
    obtain ⟨words, hwords, hempty, -⟩ := b.exists_words
    cases hw : b.words with
    | nil =>
      rw [hw] at hwords
      rw [← Except.ok.inj hwords] at hempty
      exact absurd hempty (by decide)
    | cons w words =>
      refine ⟨wordOf w, words.map fun w => .word (wordOf w), ?_, ?_⟩
      · rw [Specifier.pieces, hw, map_cons]
      · rw [keyword_wordOf]
        simp
  | named x => exact ⟨x.toWord, [], rfl, by rw [x.free]; simp⟩
  | tag kind x => exact ⟨tagWord kind, _, rfl, by rw [keyword_tagWord]; simp⟩
  | enum spec =>
    have hne : Keyword.of? enumWord.text ≠ some .staticAssert := by decide
    cases spec with
    | tag x => exact ⟨enumWord, _, rfl, hne⟩
    | body name values => exact ⟨enumWord, _, rfl, hne⟩
  | body kind name members => exact ⟨tagWord kind, _, rfl, by rw [keyword_tagWord]; simp⟩

/-- A declaration begins with the first word of its type or in front of it. -/
theorem says_begin {w : Word} (hw : Keyword.of? w.text ≠ some .staticAssert)
    (hs : ∀ line, SaysFrom e (.specifiers { line }) stack (.word w :: rest) cs) :
    SaysFrom e .declaration stack (.word w :: rest) cs := by
  intro ts h
  have hnext := fun line => hs line ts h
  obtain ⟨t, ts', rfl, hlex, -⟩ := h.cons
  have hother (c : Char) : t.isPunct c = false := isPunct_eq hlex c
  have hassert : t.keyword? ≠ some .staticAssert := by rwa [keyword?_eq hlex]
  exact says_silent (.begin (by simp [hother]) (hother ';') hassert) (hnext t.line)

mutual

/-- **A type specifier is read as what it says.** -/
theorem Specifier.says {s : Specifiers} {stack : List Specifiers} {rest : List Piece}
    {cs : List Clause} (hfound : s.found = false) (hbase : s.base = {}) (hr : Follows rest)
    (hs : SaysFrom e (.specifiers { s with found := true }) stack rest cs) :
    (spec : Specifier) →
      SaysFrom e (.specifiers s) stack (spec.pieces ++ rest) (spec.clauses ++ cs)
  | .base b => says_base hr hs b hfound hbase
  | .named x => says_named (by simp [Specifiers.hasType, hfound, hbase]; rfl) hs x
  | .tag kind x => says_tag (by simp [Specifiers.hasType, hfound, hbase]; rfl) hr hs kind x
  | .enum spec => says_enum (by simp [Specifiers.hasType, hfound, hbase]; rfl) hr hs spec
  | .body kind name members => by
    have htype : s.hasType = false := by simp [Specifiers.hasType, hfound, hbase]; rfl
    rw [Specifier.pieces, append_assoc, append_assoc, cons_append,
      cons_append, Specifier.clauses, cons_append, append_assoc]
    refine says_open kind name htype ?_
    exact Members.says (says_close hr hs) members

/-- The content of a body is read as what it says. -/
theorem Members.says {s : Specifiers} {stack : List Specifiers} {rest : List Piece}
    {cs : List Clause} (hs : SaysFrom e .declaration (s :: stack) rest cs) :
    (members : Members) →
      SaysFrom e .declaration (s :: stack) (members.pieces ++ rest) (members.clauses ++ cs)
  | .nil => hs
  | .cons type ds more => by
    rw [Members.pieces, append_assoc, append_assoc, cons_append, Members.clauses,
      append_assoc, append_assoc]
    obtain ⟨w, front, hw, hkey⟩ := type.exists_pieces
    have hmore := Members.says hs more
    have hall (line : ℕ) := Specifier.says (s := { line }) rfl rfl
      (follows_declrPieces ds _) (says_declared rfl ds hmore) type
    rw [hw, cons_append] at hall ⊢
    exact says_begin hkey hall

end

/-! ### Units -/

theorem Declaration.says (d : Declaration) (hs : SaysFrom e .declaration [] rest cs) :
    SaysFrom e .declaration [] (d.pieces ++ rest) (d.clauses ++ cs) := by
  -- From the type on a typedef is read like any other declaration.
  have htype (line : ℕ) := Specifier.says (e := e) (s := { line, typedef := d.typedef }) rfl rfl
    (follows_declrPieces d.declarators _) (says_declared rfl d.declarators hs) d.type
  rw [Declaration.clauses, append_assoc, Declaration.pieces, append_assoc,
    append_assoc, append_assoc, singleton_append]
  cases ht : d.typedef with
  | false =>
    rw [ht] at htype
    obtain ⟨w, front, hw, hkey⟩ := d.type.exists_pieces
    rw [hw] at htype ⊢
    exact says_begin hkey htype
  | true =>
    rw [ht] at htype
    refine says_begin (by decide) fun line ts h => ?_
    obtain ⟨t, ts', rfl, hlex, hts'⟩ := h.cons
    have hkeyword : Keyword.of? typedefWord.text = some .typedef := by decide
    exact says_silent (.typedef ((keyword?_eq hlex).trans hkeyword)) (htype line ts' hts')

theorem says_declarations (t : Token) (ds : List Declaration) :
    SaysFrom (.ok t) .declaration [] (ds.flatMap Declaration.pieces)
      (ds.flatMap Declaration.clauses) := by
  induction ds with
  | nil =>
    intro ts h
    obtain rfl : ts = [] := List.map_eq_nil_iff.mp h
    rw [readFrom_eq]
    exact ⟨rfl, 0, rfl⟩
  | cons d ds ih => exact d.says ih

/-- **A unit is read as what it says.** -/
theorem TranslationUnit.says (u : TranslationUnit) {text : List Char} (h : Written u.pieces text)
    {c : Cursor} (hc : c.rest = text) : Says (readDeclarations (scan c)) u.clauses := by
  obtain ⟨htokens, t, ht⟩ := scan_of_written h hc
  have hending : Ending.ofScan (scan c) = .ok t := by rw [Ending.ofScan, ht]
  rw [readDeclarations, hending]
  exact says_declarations t u.declarations _ htokens

end TypeLayout.C
