import TypeLayout.Proofs.Concatenation
import TypeLayout.Proofs.DeclaratorGrammar
import TypeLayout.Proofs.ReaderRuns

/-!
# Objects and functions do not matter to layouts

At file scope a declaration that is no typedef and defines no type leaves a session as it is. The
grammar of such declarations (`ObjectDeclaration`) is this: specifiers that name a type which the
session knows, declarators with initializers between commas, and a semicolon or the body of a
function at the end. The reader takes exactly such a declaration, and acting on what it says changes
nothing at all, not even the log (`Session.objectDeclaration_neutral`).
-/

namespace TypeLayout

variable {e : Ending} {ts us rest : List Token} {t : Token} {s : Session} {p q : Specifiers}
  {stack : List Specifiers} {b b' : BaseWords}

/-! ### Types that are known -/

/-- **The words of a built-in type** with noise among them, added to those that have been collected
before. -/
inductive TypeWords : BaseWords → List Token → BaseWords → List Token → Prop
  | stop (b : BaseWords) (ts : List Token) : TypeWords b ts b ts
  | noise {b b' : BaseWords} {ts us rest : List Token} (hs : Skips ts us)
    (h : TypeWords b us b' rest) : TypeWords b ts b' rest
  | word {b b₁ b' : BaseWords} {t : Token} {ts rest : List Token} {name : String} {w : BaseWord}
    (ht : t.lexeme = .identifier name) (hw : Keyword.of? name = some (.base w))
    (hb : b.add w = .ok b₁) (h : TypeWords b₁ ts b' rest) : TypeWords b (t :: ts) b' rest

/-- **Specifiers that name a type which is known**: a built-in one, a typedef name, or a tag without
a body. -/
inductive NamesKnown (s : Session) : List Token → List Token → Prop
  | builtin {b : BaseWords} {spelling : String} {id : NodeId} {ts rest : List Token}
    (h : TypeWords {} ts b rest) (hb : b.isEmpty = false) (hspelling : b.spelling? = some spelling)
    (hbound : s.lookup? spelling = some id) : NamesKnown s ts rest
  | named {t : Token} {name : String} {id : NodeId} {ts us rest : List Token}
    (hfront : Skips ts (t :: us)) (ht : t.lexeme = .identifier name)
    (hk : Keyword.of? name = none) (hbound : s.lookup? name = some id) (hback : Skips us rest) :
    NamesKnown s ts rest
  | tag {t u : Token} {kind : TagKind} {word name : String} {id : NodeId}
    {ts us vs rest : List Token} (hfront : Skips ts (t :: us)) (ht : t.lexeme = .identifier word)
    (hk : Keyword.of? word = some (.tag kind)) (hmiddle : Skips us (u :: vs))
    (hu : u.lexeme = .identifier name) (hq : Keyword.of? name ≠ some .qualifier)
    (hw : Keyword.of? name ≠ some .extension)
    (hbound : s.lookup? (Names.tagSpelling kind.keyword name) = some id) (hback : Skips vs rest) :
    NamesKnown s ts rest
  | enum {t u : Token} {word name : String} {id : NodeId} {ts us vs rest : List Token}
    (hfront : Skips ts (t :: us)) (ht : t.lexeme = .identifier word)
    (hk : Keyword.of? word = some .enum) (hmiddle : Skips us (u :: vs))
    (hu : u.lexeme = .identifier name) (hq : Keyword.of? name ≠ some .qualifier)
    (hw : Keyword.of? name ≠ some .extension)
    (hbound : s.lookup? (Names.tagSpelling "enum" name) = some id) (hback : Skips vs rest) :
    NamesKnown s ts rest

/-- A clause that only says which type is meant. -/
def Session.Finds (s : Session) (c : Clause) : Prop :=
  ∃ id, ∀ eval scope, s.act eval scope c = (s, .ok { scope with type := ⟨id, false⟩ })

/-- **The reader fails among specifiers**, before it has said anything. -/
def FailsAmong (e : Ending) (p : Specifiers) (stack : List Specifiers) (ts : List Token) : Prop :=
  ∃ q us fault, Leads e 0 ⟨.specifiers p, stack, ts⟩ [] ⟨.specifiers q, stack, us⟩ ∧
    step e (.specifiers q) stack us = .error fault

/-- What fails later on fails. -/
theorem FailsAmong.of_leads
    (hleads : Leads e 0 ⟨.specifiers p, stack, ts⟩ [] ⟨.specifiers q, stack, us⟩)
    (h : FailsAmong e q stack us) : FailsAmong e p stack ts := by
  obtain ⟨r, vs, fault, hmore, hfault⟩ := h
  exact ⟨r, vs, fault, hleads.trans hmore, hfault⟩

theorem FailsAmong.cons (h : FailsAmong e q stack us)
    (hstep : step e (.specifiers p) stack ts = .ok (.goOn none (.specifiers q) stack us)) :
    FailsAmong e p stack ts :=
  .of_leads (.cons (by simp) hstep (.refl _)) h

/-- A step in front of a run that may fail. -/
theorem leads_or_fails_cons {b : Station} {Q : Prop}
    (hstep : step e (.specifiers p) stack ts = .ok (.goOn none (.specifiers q) stack us))
    (h : Leads e 0 ⟨.specifiers q, stack, us⟩ [] b ∨ FailsAmong e q stack us ∧ Q) :
    Leads e 0 ⟨.specifiers p, stack, ts⟩ [] b ∨ FailsAmong e p stack ts ∧ Q :=
  h.imp (.cons (by simp) hstep) (And.imp_left fun h => h.cons hstep)

/-- An extension word needs its group. -/
theorem step_extension_error {fault : Fault} (ht : t.keyword? = some .extension)
    (hskip : skipGroup e ts = .error fault) :
    step e (.specifiers p) stack (t :: ts) = .error fault := by
  obtain ⟨name, hname, hk⟩ := exists_word_of_keyword? ht
  simp only [step, stepSpecifiers, hname, hk, hskip]
  rfl

/-- **Among specifiers noise is skipped** step by step. It may be the last of a source that cannot
be read on, and then the reader fails. -/
theorem Skips.leads_or_fails (h : Skips ts rest) (e : Ending) (p : Specifiers)
    (stack : List Specifiers) :
    Leads e 0 ⟨.specifiers p, stack, ts⟩ [] ⟨.specifiers p, stack, rest⟩ ∨
      FailsAmong e p stack ts ∧ ∃ fault, peek e rest = .error fault := by
  induction h with
  | stop => exact .inl (.refl _)
  | qualifier hx _ ih => exact leads_or_fails_cons (Goes.qualifier hx).step_eq ih
  | @word x ts rest hx hnext h ih =>
    cases hgroup : skipGroup e ts with
    | ok us =>
      obtain rfl : us = ts := by
        cases ts with
        | nil =>
          cases e with
          | error fault => cases hgroup
          | ok eof => exact (Except.ok.inj hgroup).symm
        | cons y ys =>
          rw [skipGroup, if_neg (by simp [hnext y rfl])] at hgroup
          exact (Except.ok.inj hgroup).symm
      exact leads_or_fails_cons (Goes.extension hx hgroup).step_eq ih
    | error fault =>
      -- Only at the end of the source there is nothing to look at behind the word.
      obtain rfl : ts = [] := by
        cases ts with
        | nil => rfl
        | cons y ys =>
          rw [skipGroup, if_neg (by simp [hnext y rfl])] at hgroup
          cases hgroup
      obtain rfl : rest = [] := List.suffix_nil.mp h.suffix
      refine .inr ⟨⟨p, [x], fault, .refl _, step_extension_error hx hgroup⟩, ?_⟩
      cases e with
      | error fault => exact ⟨fault, rfl⟩
      | ok eof => cases hgroup
  | @group _ opening closing inner ts _ hx ho hi hc _ ih =>
    have hgroup : skipGroup e (opening :: (inner ++ closing :: ts)) = .ok ts := by
      rw [skipGroup, if_pos ho, hi.skip_closing (by decide) hc]
    exact leads_or_fails_cons (Goes.extension hx hgroup).step_eq ih

theorem Skips.leads (h : Skips ts rest) (hne : rest ≠ []) :
    Leads e 0 ⟨.specifiers p, stack, ts⟩ [] ⟨.specifiers p, stack, rest⟩ := by
  refine (h.leads_or_fails e p stack).resolve_right ?_
  rintro ⟨-, fault, hpeek⟩
  obtain ⟨y, ys, rfl⟩ := List.exists_cons_of_ne_nil hne
  cases hpeek

theorem TypeWords.suffix (h : TypeWords b ts b' rest) : rest <:+ ts := by
  induction h with
  | stop => exact List.suffix_refl _
  | noise hs _ ih => exact ih.trans hs.suffix
  | word _ _ _ _ ih => exact ih.trans (List.suffix_cons _ _)

theorem TypeWords.leads (h : TypeWords b ts b' rest) (hne : rest ≠ []) (hf : p.found = false) :
    Leads e 0 ⟨.specifiers { p with base := b }, stack, ts⟩ []
      ⟨.specifiers { p with base := b' }, stack, rest⟩ := by
  induction h with
  | stop => exact .refl _
  | noise hs h ih => exact (hs.leads (h.suffix.ne_nil hne)).trans (ih hne)
  | @word b _ _ x ts _ _ _ hx hw hb _ ih =>
    have hgoes : Goes e (.specifiers { p with base := b }) stack (x :: ts) _ :=
      .word ((keyword?_of_lexeme hx).trans hw) hf hb
    exact .cons (by simp) hgoes.step_eq (ih hne)

/-- A tag is read past the noise around it. -/
theorem readTag_of_skips {name : String} (h : Skips ts (t :: us)) (ht : t.lexeme = .identifier name)
    (hq : Keyword.of? name ≠ some .qualifier) (hx : Keyword.of? name ≠ some .extension) :
    readTag e ts = skipNoise e us >>= fun rest => .ok (some name, rest) := by
  rw [← keyword?_of_lexeme ht] at hq hx
  have htake : takeIdentifier e (t :: us) = .ok (some name, us) := by
    simp only [takeIdentifier, ht]
  simp only [readTag, h.skipNoise.trans (skipNoise_of_word hq hx), htake, ok_bind]

/-- **A known type is found**, and the reader stands in front of what follows the specifiers. -/
theorem NamesKnown.leads (h : NamesKnown s ts (t :: us)) (ht : t.keyword? = none)
    (hbrace : t.isPunct '{' = false) (line : ℕ) :
    ∃ x p, Leads e 0 ⟨.specifiers { line }, [], ts⟩ [x] ⟨.specifiers p, [], t :: us⟩ ∧
      p.found = true ∧ p.typedef = false ∧ s.Finds x.clause := by
  have hskip : skipNoise e (t :: us) = .ok (t :: us) :=
    skipNoise_of_word (by simp [ht]) (by simp [ht])
  have hopen : takePunct e '{' (t :: us) = .ok (false, t :: us) := by simp [takePunct, hbrace]
  generalize hrest : t :: us = rest at h
  cases h with
  | @builtin b spelling id ts rest h hb hspelling hbound =>
    subst hrest
    have htype : Specifiers.hasType { line, base := b } = true := by
      simp [Specifiers.hasType, hb]
    have hgoes : Goes e (.specifiers { line, base := b }) [] (t :: us) _ :=
      .base (Specifiers.endAt_of_keyword? _ htype ht) rfl rfl hb hspelling
    refine ⟨_, _, (h.leads (p := { line }) (by simp) rfl).trans
      (.cons (by simp) hgoes.step_eq (.refl _)), rfl, rfl, id, fun eval scope => ?_⟩
    simp only [Session.act, hbound]
  | @named x name id ts vs rest hfront hx hk hbound hback =>
    subst hrest
    have hgoes : Goes e (.specifiers { line }) [] (x :: vs) _ := .named hx hk rfl
    refine ⟨_, _, (hfront.leads (by simp)).trans
      (.cons (by simp) hgoes.step_eq (hback.leads (by simp))), rfl, rfl, id, fun eval scope => ?_⟩
    simp only [Session.act, hbound]
  | @tag x u kind word name id ts vs ws rest hfront hx hk hmiddle hu hq hw hbound hback =>
    subst hrest
    have htag : readTag e vs = .ok (some name, t :: us) := by
      rw [readTag_of_skips hmiddle hu hq hw, hback.skipNoise, hskip, ok_bind]
    have hgoes : Goes e (.specifiers { line }) [] (x :: vs) _ :=
      .tag ((keyword?_of_lexeme hx).trans hk) rfl htag rfl hopen
    refine ⟨_, _, (hfront.leads (by simp)).trans (.cons (by simp) hgoes.step_eq (.refl _)), rfl,
      rfl, id, fun eval scope => ?_⟩
    simp only [Session.act, Session.tagNode, hbound]
  | @enum x u word name id ts vs ws rest hfront hx hk hmiddle hu hq hw hbound hback =>
    subst hrest
    have htag : readTag e vs = .ok (some name, t :: us) := by
      rw [readTag_of_skips hmiddle hu hq hw, hback.skipNoise, hskip, ok_bind]
    have hgoes : Goes e (.specifiers { line }) [] (x :: vs) _ :=
      .enum ((keyword?_of_lexeme hx).trans hk) rfl htag hopen rfl rfl rfl
    refine ⟨_, _, (hfront.leads (by simp)).trans (.cons (by simp) hgoes.step_eq (.refl _)), rfl,
      rfl, id, fun eval scope => ?_⟩
    simp only [Session.act, Session.enumeration, hbound]
    rfl

/-! ### Initializers -/

/-- The three sorts of brackets. -/
def bracketPairs : List (Char × Char) := [('(', ')'), ('[', ']'), ('{', '}')]

/-- Neither an opening bracket nor a closing one. -/
def NoBracket (t : Token) : Prop :=
  ∀ p ∈ bracketPairs, t.isPunct p.1 = false ∧ t.isPunct p.2 = false

/-- **Tokens between which brackets of all sorts nest.** -/
inductive Nested : List Token → Prop
  | nil : Nested []
  | other {t : Token} {ts : List Token} (ht : NoBracket t) (h : Nested ts) : Nested (t :: ts)
  | group {p : Char × Char} {opening closing : Token} {inner ts : List Token}
    (hp : p ∈ bracketPairs) (ho : opening.isPunct p.1 = true) (hi : Nested inner)
    (hc : closing.isPunct p.2 = true) (h : Nested ts) :
    Nested (opening :: (inner ++ closing :: ts))

/-- **An initializer**: brackets nest, and commas and semicolons stand inside them only. -/
inductive Initializer : List Token → List Token → Prop
  | stop (ts : List Token) : Initializer ts ts
  | other {t : Token} {ts rest : List Token} (ht : NoBracket t) (hcomma : t.isPunct ',' = false)
    (hsemicolon : t.isPunct ';' = false) (h : Initializer ts rest) : Initializer (t :: ts) rest
  | group {p : Char × Char} {opening closing : Token} {inner ts rest : List Token}
    (hp : p ∈ bracketPairs) (ho : opening.isPunct p.1 = true) (hi : Nested inner)
    (hc : closing.isPunct p.2 = true) (h : Initializer ts rest) :
    Initializer (opening :: (inner ++ closing :: ts)) rest

section Initializers

variable {depth : ℕ} {p : Char × Char}

theorem lexeme_of_isPunct {c : Char} (h : t.isPunct c = true) : t.lexeme = .punct c := by
  unfold Token.isPunct Lexeme.isPunct at h
  split at h
  · rename_i d hd
    rw [hd, eq_of_beq h]
  · cases h

theorem skipInitializer_open (hp : p ∈ bracketPairs) (ht : t.isPunct p.1 = true) :
    skipInitializer e depth (t :: ts) = skipInitializer e (depth + 1) ts := by
  have hc : p.1 = '(' ∨ p.1 = '[' ∨ p.1 = '{' := by
    simp only [bracketPairs, List.mem_cons, List.not_mem_nil, or_false] at hp
    rcases hp with rfl | rfl | rfl <;> simp
  simp only [skipInitializer, lexeme_of_isPunct ht, if_pos hc]

theorem skipInitializer_close (hp : p ∈ bracketPairs) (ht : t.isPunct p.2 = true) :
    skipInitializer e (depth + 1) (t :: ts) = skipInitializer e depth ts := by
  simp only [bracketPairs, List.mem_cons, List.not_mem_nil, or_false] at hp
  rcases hp with rfl | rfl | rfl <;>
    simp [skipInitializer, lexeme_of_isPunct ht]

/-- Anything else is passed over, if it is not a separator outside of all brackets. -/
theorem skipInitializer_other (ht : NoBracket t)
    (hend : t.isPunct ',' = false ∧ t.isPunct ';' = false ∨ depth ≠ 0) :
    skipInitializer e depth (t :: ts) = skipInitializer e depth ts := by
  cases hlexeme : t.lexeme with
  | punct c =>
    have hne {c₀ : Char} (h : t.isPunct c₀ = false) : c ≠ c₀ := by
      simpa [Token.isPunct, hlexeme, Lexeme.isPunct] using h
    obtain ⟨hparen, hparen'⟩ := ht ('(', ')') (by simp [bracketPairs])
    obtain ⟨hbracket, hbracket'⟩ := ht ('[', ']') (by simp [bracketPairs])
    obtain ⟨hbrace, hbrace'⟩ := ht ('{', '}') (by simp [bracketPairs])
    have hsep : ¬ ((c = ',' ∨ c = ';') ∧ depth = 0) := by
      rcases hend with ⟨hcomma, hsemicolon⟩ | hdepth
      · simp [hne hcomma, hne hsemicolon]
      · simp [hdepth]
    rw [skipInitializer, hlexeme]
    dsimp only
    rw [if_neg (by simp [hne hparen, hne hbracket, hne hbrace]),
      if_neg (by simp [hne hparen', hne hbracket', hne hbrace']), if_neg hsep]
  | _ => simp only [skipInitializer, hlexeme]

theorem Nested.skipInitializer (h : Nested ts) :
    skipInitializer e (depth + 1) (ts ++ us) = skipInitializer e (depth + 1) us := by
  induction h generalizing depth us with
  | nil => rfl
  | other ht _ ih =>
    rw [List.cons_append, skipInitializer_other ht (.inr (by simp)), ih]
  | group hp ho _ hc _ ihi ih =>
    rw [List.cons_append, List.append_assoc, List.cons_append, skipInitializer_open hp ho, ihi,
      skipInitializer_close hp hc, ih]

theorem Initializer.skipInitializer (h : Initializer ts (t :: us))
    (ht : t.isPunct ',' = true ∨ t.isPunct ';' = true) :
    skipInitializer e 0 ts = .ok (t :: us) := by
  generalize hrest : t :: us = rest at h
  induction h with
  | stop =>
    subst hrest
    rcases ht with ht | ht <;> simp [TypeLayout.skipInitializer, lexeme_of_isPunct ht]
  | other hx hcomma hsemicolon _ ih =>
    rw [skipInitializer_other hx (.inl ⟨hcomma, hsemicolon⟩), ih hrest]
  | group hp ho hi hc _ ih =>
    rw [skipInitializer_open hp ho, hi.skipInitializer, skipInitializer_close hp hc, ih hrest]

end Initializers

/-! ### Declarators -/

section Declarators

variable (source : List Char)

/-- **A declarator and its value**: noise can follow the declarator, and then an initializer. -/
inductive Valued : List Token → Declarator → List Token → Prop
  | plain {ts us rest : List Token} {d : Declarator} (hd : Declares source ts d us)
    (hs : Skips us rest) : Valued ts d rest
  | value {ts us vs rest : List Token} {d : Declarator} {sign : Token}
    (hd : Declares source ts d us) (hs : Skips us (sign :: vs)) (hsign : sign.isPunct '=' = true)
    (hv : Initializer vs rest) : Valued ts d rest

/-- **Declarators between commas**, up to a semicolon or to the body of a function. -/
inductive Declarators : List Token → List Token → Prop
  | comma {t : Token} {ts us rest : List Token} {d : Declarator} (h : Valued source ts d (t :: us))
    (ht : t.isPunct ',' = true) (hmore : Declarators us rest) : Declarators ts rest
  | last {t : Token} {ts rest : List Token} {d : Declarator} (h : Valued source ts d (t :: rest))
    (ht : t.isPunct ';' = true) : Declarators ts rest
  | body {opening closing : Token} {inner ts us rest : List Token} {d : Declarator}
    (hd : Declares source ts d us) (hf : d.isFunction = true)
    (hs : Skips us (opening :: (inner ++ closing :: rest))) (ho : opening.isPunct '{' = true)
    (hi : Balanced '{' '}' inner) (hc : closing.isPunct '}' = true) : Declarators ts rest

/-- **A declaration of objects and functions**, or of nothing, of a type that a session knows. -/
inductive ObjectDeclaration (s : Session) : List Token → List Token → Prop
  | nothing {t : Token} {ts rest : List Token} (h : NamesKnown s ts (t :: rest))
    (ht : t.isPunct ';' = true) : ObjectDeclaration s ts rest
  | declarators {t : Token} {ts us rest : List Token} (h : NamesKnown s ts (t :: us))
    (ht : t.keyword? = none) (hd : Declarators source (t :: us) rest) : ObjectDeclaration s ts rest

end Declarators

/-! ### What begins a declarator and what ends it -/

variable {source : List Char} {d : Declarator} {c : Char}

theorem Skips.head {x : Token} (h : Skips (t :: us) (x :: ts)) (ht : t.keyword? = none) :
    t = x := by
  cases h with
  | stop => rfl
  | qualifier hk | word hk | group hk =>
    rw [ht] at hk
    cases hk

/-- In front of a token stands that token or noise. -/
theorem Skips.peek (h : Skips ts (t :: us)) :
    ∃ next, peek e ts = .ok next ∧ (next = t ∨ ∃ k, next.keyword? = some k) := by
  cases h with
  | stop => exact ⟨t, rfl, .inl rfl⟩
  | qualifier hk | word hk | group hk => exact ⟨_, rfl, .inr ⟨_, hk⟩⟩

/-- A declarator begins with a star, a parenthesis or a word. -/
theorem Declares.isPunct_head (h : Declares source (t :: us) d rest) (ht : t.keyword? = none)
    (hs : c ≠ '*') (hp : c ≠ '(') : t.isPunct c = false := by
  have hstart {n : ℕ} {x : Token} {vs : List Token} (h : Starred (t :: us) n (x :: vs))
      (hx : x.isPunct c = false) : t.isPunct c = false := by
    cases h with
    | noise h => exact h.head ht ▸ hx
    | star h hstar _ => exact h.head ht ▸ isPunct_eq_false_of_ne hs.symm hstar
  cases h with
  | name h hx => exact hstart h (by simp [Token.isPunct, hx, Lexeme.isPunct])
  | parens h ho => exact hstart h (isPunct_eq_false_of_ne hp.symm ho)

theorem Declarators.isPunct_head (h : Declarators source (t :: us) rest) (ht : t.keyword? = none)
    (hs : c ≠ '*') (hp : c ≠ '(') : t.isPunct c = false := by
  cases h with
  | comma h | last h =>
    cases h with
    | plain hd | value hd => exact hd.isPunct_head ht hs hp
  | body hd => exact hd.isPunct_head ht hs hp

/-- A declarator is read up to the noise behind it, if this does not end in front of a suffix. -/
theorem Declares.read_skips (hd : Declares source ts d us) (hs : Skips us (t :: rest))
    (hstands : ∀ t ∈ ts, t.after.StandsIn source) (ht : t.isPunct c = true) (hb : c ≠ '[')
    (hp : c ≠ '(') :
    TypeLayout.readDeclarator e ts = .ok (d, us) ∧ skipNoise e us = .ok (t :: rest) := by
  refine ⟨?_, hs.skipNoise.trans (skipNoise_of_isPunct ht)⟩
  obtain ⟨next, hnext, rfl | ⟨k, hk⟩⟩ := hs.peek (e := e)
  · exact hd.readDeclarator hstands hnext (isPunct_eq_false_of_ne hb ht)
      (isPunct_eq_false_of_ne hp ht)
  · exact hd.readDeclarator hstands hnext (isPunct_of_keyword? hk '[') (isPunct_of_keyword? hk '(')

/-- **A declarator without a value**, in front of another character. -/
theorem Declares.step (hd : Declares source ts d us) (hs : Skips us (t :: rest))
    (hstands : ∀ t ∈ ts, t.after.StandsIn source) (ht : t.isPunct c = true) (hb : c ≠ '[')
    (hp : c ≠ '(') (hv : c ≠ '=') (typedef : Bool) :
    step e (.declarator typedef) [] ts = .ok (.goOn (some ⟨.declare d typedef, t.after⟩)
      (.tail typedef d.isFunction) [] (t :: rest)) := by
  obtain ⟨hread, hskip⟩ := hd.read_skips (e := e) hs hstands ht hb hp
  have hsign : takePunct e '=' (t :: rest) = .ok (false, t :: rest) := by
    simp [takePunct, isPunct_eq_false_of_ne hv ht]
  exact (Goes.declare hread hskip rfl rfl hsign rfl rfl).step_eq

/-- **A declarator with or without a value.** -/
theorem Valued.step (h : Valued source ts d (t :: rest))
    (hstands : ∀ t ∈ ts, t.after.StandsIn source)
    (ht : t.isPunct ',' = true ∨ t.isPunct ';' = true) (typedef : Bool) :
    step e (.declarator typedef) [] ts = .ok (.goOn (some ⟨.declare d typedef, t.after⟩)
      (.tail typedef d.isFunction) [] (t :: rest)) := by
  cases h with
  | plain hd hs =>
    rcases ht with ht | ht <;>
      exact hd.step hs hstands ht (by decide) (by decide) (by decide) typedef
  | @value us vs _ _ sign hd hs hsign hv =>
    obtain ⟨hread, hskip⟩ := hd.read_skips (e := e) hs hstands hsign (by decide) (by decide)
    have htake : takePunct e '=' (sign :: vs) = .ok (true, vs) := by simp [takePunct, hsign]
    exact (Goes.declare hread hskip rfl rfl htake (hv.skipInitializer ht) rfl).step_eq

/-! ### The whole declaration -/

/-- Tokens with which specifiers begin. -/
def Begins (ts : List Token) : Prop :=
  ∃ t us, ts = t :: us ∧ t.isPunct ';' = false ∧ t.keyword? ≠ some .staticAssert

theorem begins_of_keyword? {k : Keyword} (h : t.keyword? = some k) (hk : k ≠ .staticAssert) :
    Begins (t :: us) :=
  ⟨t, us, rfl, isPunct_of_keyword? h ';', by simpa [h] using hk⟩

theorem Skips.begins (h : Skips ts us) (hb : Begins us) : Begins ts := by
  cases h with
  | stop => exact hb
  | qualifier hk | word hk | group hk => exact begins_of_keyword? hk (by decide)

theorem TypeWords.begins (h : TypeWords b ts b' rest) (hb : b ≠ b') : Begins ts := by
  induction h with
  | stop => exact absurd rfl hb
  | noise hs _ ih => exact hs.begins (ih hb)
  | word ht hw => exact begins_of_keyword? ((keyword?_of_lexeme ht).trans hw) (by simp)

theorem NamesKnown.begins (h : NamesKnown s ts rest) : Begins ts := by
  cases h with
  | builtin h hb =>
    refine h.begins ?_
    rintro rfl
    cases hb
  | @named x name id ts us rest hfront hx hk =>
    refine hfront.begins ⟨x, us, rfl, by simp [Token.isPunct, hx, Lexeme.isPunct], ?_⟩
    rw [keyword?_of_lexeme hx, hk]
    simp
  | tag hfront hx hk | enum hfront hx hk =>
    exact hfront.begins (begins_of_keyword? ((keyword?_of_lexeme hx).trans hk) (by simp))

/-- Clauses that declare objects. -/
def DeclareOnly (heard : List Heard) : Prop := ∀ x ∈ heard, ∃ d, x.clause = .declare d false

/-- **Declarators are read** to the end of the declaration. -/
theorem Declarators.leads (h : Declarators source ts rest)
    (hstands : ∀ t ∈ ts, t.after.StandsIn source) :
    ∃ heard, Leads e 1 ⟨.declarator false, [], ts⟩ heard ⟨.declaration, [], rest⟩ ∧
      DeclareOnly heard := by
  induction h with
  | @comma t ts us rest d h ht _ ih =>
    have hstep := h.step (e := e) hstands (.inl ht) false
    have hus : us <:+ ts := (List.suffix_cons t us).trans (suffix_step hstep)
    obtain ⟨heard, hmore, honly⟩ := ih fun t ht => hstands t (hus.subset ht)
    exact ⟨_, .cons (by simp) hstep (.cons (by simp) (Goes.comma ht).step_eq hmore),
      by simpa [DeclareOnly] using honly⟩
  | @last t ts rest d h ht =>
    exact ⟨_, .cons (by simp) (h.step hstands (.inr ht) false)
      (.complete (Goes.semicolon ht).step_eq), by simp [DeclareOnly]⟩
  | @body opening closing inner ts us rest d hd hf hs ho hi hc =>
    have hstep := hd.step (e := e) hs hstands ho (by decide) (by decide) (by decide) false
    have hbody : Goes e (.tail false d.isFunction) [] (opening :: (inner ++ closing :: rest))
        (.goOn none .declaration [] rest) := by
      rw [hf]
      exact .function ho (hi.skip_closing (by decide) hc)
    exact ⟨_, .cons (by simp) hstep (.complete hbody.step_eq), by simp [DeclareOnly]⟩

namespace Session

/-- Objects at file scope are not acted on. -/
theorem actAll_declareOnly (eval : Evaluator) {scope : Scope} (hb : scope.bodies = [])
    (ht : scope.type.anonymous = false) {heard : List Heard} (h : DeclareOnly heard) :
    s.actAll eval scope heard = (s, .ok scope) := by
  have hcontainer : scope.container? = none := by rw [Scope.container?, hb]; rfl
  induction heard with
  | nil => rfl
  | cons x heard ih =>
    obtain ⟨d, hd⟩ := h x (by simp)
    have hact : s.act eval scope x.clause = (s, .ok scope) := by
      simp only [hd, act, declare, rememberFragment, ht, hcontainer]
      rfl
    rw [actAll, hact]
    exact ih fun y hy => h y (by simp [hy])

end Session

/-- **Such a declaration is read to its end**, and what it says leaves the session as it is. -/
theorem ObjectDeclaration.leads (h : ObjectDeclaration source s ts rest)
    (hstands : ∀ t ∈ ts, t.after.StandsIn source) :
    ∃ heard, Leads e 1 ⟨.declaration, [], ts⟩ heard ⟨.declaration, [], rest⟩ ∧
      ∀ (eval : Evaluator) (scope : Scope), scope.bodies = [] →
        ∃ scope', s.actAll eval scope heard = (s, .ok scope') ∧ scope'.bodies = [] := by
  have hbegin {us : List Token} (hb : Begins us) : ∃ line, step e .declaration [] us =
      .ok (.goOn none (.specifiers { line }) [] us) := by
    obtain ⟨x, xs, rfl, hsemicolon, hassert⟩ := hb
    exact ⟨x.line, (Goes.begin (by simp) hsemicolon hassert).step_eq⟩
  have hact {x : Heard} {heard : List Heard} (hx : s.Finds x.clause)
      (hmore : ∀ (eval : Evaluator) (scope : Scope), scope.bodies = [] →
        scope.type.anonymous = false → s.actAll eval scope heard = (s, .ok scope))
      (eval : Evaluator) (scope : Scope) (hb : scope.bodies = []) :
      ∃ scope', s.actAll eval scope (x :: heard) = (s, .ok scope') ∧ scope'.bodies = [] := by
    obtain ⟨id, hid⟩ := hx
    refine ⟨{ scope with type := ⟨id, false⟩ }, ?_, hb⟩
    rw [Session.actAll, hid eval scope]
    exact hmore eval _ hb rfl
  cases h with
  | @nothing t ts rest h ht =>
    obtain ⟨line, hfirst⟩ := hbegin h.begins
    obtain ⟨x, p, hlead, hfound, -, hx⟩ := h.leads (e := e)
      (keyword?_of_isPunct ht) (isPunct_eq_false_of_ne (by decide) ht) line
    have hend : p.EndAt (t :: rest) := Specifiers.endAt_of_keyword? _
      (by simp [Specifiers.hasType, hfound]) (keyword?_of_isPunct ht)
    have hbare (eval : Evaluator) (scope : Scope) (hf : scope.type.anonymous = false) :
        s.actAll eval scope [⟨.bare p.line, t.after⟩] = (s, .ok scope) := by
      simp only [Session.actAll, Session.act, Session.bareType, hf]
      rfl
    exact ⟨_, .cons (by simp) hfirst (hlead.trans (.complete (Goes.bare hend hfound ht).step_eq)),
      hact hx fun eval scope _ hf => hbare eval scope hf⟩
  | @declarators t ts us rest h ht hd =>
    obtain ⟨line, hfirst⟩ := hbegin h.begins
    obtain ⟨x, p, hlead, hfound, htypedef, hx⟩ := h.leads (e := e) ht
      (hd.isPunct_head ht (by decide) (by decide)) line
    have hsuffix : t :: us <:+ ts := hlead.suffix
    obtain ⟨heard, hmore, honly⟩ := hd.leads (e := e) fun y hy => hstands y (hsuffix.subset hy)
    have hsemicolon : t.isPunct ';' = false := hd.isPunct_head ht (by decide) (by decide)
    have hend : p.EndAt (t :: us) :=
      Specifiers.endAt_of_keyword? _ (by simp [Specifiers.hasType, hfound]) ht
    have hgoes : Goes e (.specifiers p) [] (t :: us) _ :=
      .declarators hend rfl hfound (by rintro _ ⟨⟩; exact hsemicolon)
    rw [htypedef] at hgoes
    exact ⟨_, .cons (by simp) hfirst (hlead.trans (.cons (by simp) hgoes.step_eq hmore)),
      hact hx fun eval scope hb hf => Session.actAll_declareOnly eval hb hf honly⟩

namespace Session

/-- **Objects and functions at file scope do not matter**: their declaration is read, to its last
token and no further, and the session is the same afterwards. -/
theorem objectDeclaration_neutral {depth : ℕ} {before : List Token}
    (hscan : (scan (.start source depth)).tokens = before ++ ts)
    (h : ObjectDeclaration source s ts rest) (eval : Evaluator) {scope : Scope}
    (hscope : scope.bodies = []) :
    let e := Ending.ofScan (scan (.start source depth))
    ∃ heard scope', Leads e 1 ⟨.declaration, [], ts⟩ heard ⟨.declaration, [], rest⟩ ∧
      s.actAll eval scope heard = (s, .ok scope') ∧ scope'.bodies = [] := by
  intro e
  have hstands : ∀ t ∈ ts, t.after.StandsIn source := fun t ht =>
    standsIn_scan (Cursor.standsIn_start source depth) t (by rw [hscan]; simp [ht])
  obtain ⟨heard, hleads, hacts⟩ := h.leads (e := e) hstands
  obtain ⟨scope', hact, hclosed⟩ := hacts eval scope hscope
  exact ⟨heard, scope', hleads, hact, hclosed⟩

/-- An object with an initializer and a function with its body; the next declaration is left. -/
theorem objectDeclaration_neutral_function :
    let source := "unsigned static long a = {x, y}, *f(int) { g; } char b;".toList
    let scanned := scan (.start source defaultContextLines)
    let s := start {} ⟨[]⟩ .standard
    ∃ rest heard scope', rest.map (·.lexeme) = [.identifier "char", .identifier "b", .punct ';'] ∧
      Leads (.ofScan scanned) 1 ⟨.declaration, [], scanned.tokens⟩ heard ⟨.declaration, [], rest⟩ ∧
      s.actAll (fun _ => .ok 0) {} heard = (s, .ok scope') ∧ scope'.bodies = [] := by
  intro source scanned s
  have htokens : scanned.tokens.map (·.lexeme) =
      [.identifier "unsigned", .identifier "static", .identifier "long", .identifier "a",
        .punct '=', .punct '{', .identifier "x", .punct ',', .identifier "y", .punct '}',
        .punct ',', .punct '*', .identifier "f", .punct '(', .identifier "int", .punct ')',
        .punct '{', .identifier "g", .punct ';', .punct '}', .identifier "char", .identifier "b",
        .punct ';'] := by
    decide +kernel
  rcases hs : scanned.tokens with _ | ⟨unsigned, _ | ⟨static, _ | ⟨long, _ | ⟨a, _ | ⟨sign, _ |
    ⟨open₁, _ | ⟨x, _ | ⟨comma₁, _ | ⟨y, _ | ⟨close₁, _ | ⟨comma, _ | ⟨star, _ | ⟨f, _ | ⟨open₂, _
    | ⟨int, _ | ⟨close₂, _ | ⟨open₃, _ | ⟨g, _ | ⟨semicolon, _ | ⟨close₃, _ | ⟨char, _ | ⟨b, _ |
    ⟨last, _ | ⟨extra, more⟩⟩⟩⟩⟩⟩⟩⟩⟩⟩⟩⟩⟩⟩⟩⟩⟩⟩⟩⟩⟩⟩⟩⟩ <;>
    simp only [hs, List.map_cons, List.map_nil, List.cons.injEq, reduceCtorEq, and_false] at htokens
  obtain ⟨hunsigned, hstatic, hlong, ha, hsign, hopen₁, hx, hcomma₁, hy, hclose₁, hcomma, hstar,
    hf, hopen₂, hint, hclose₂, hopen₃, hg, hsemicolon, hclose₃, hchar, hb, hlast, -⟩ := htokens
  have his {t : Token} {ch : Char} (h : t.lexeme = .punct ch) : t.isPunct ch = true := by
    simp [Token.isPunct, h, Lexeme.isPunct]
  have hno {t : Token} {word : String} (h : t.lexeme = .identifier word) (ch : Char) :
      t.isPunct ch = false := by
    simp [Token.isPunct, h, Lexeme.isPunct]
  have hqualifier : static.keyword? = some .qualifier := by
    rw [keyword?_of_lexeme hstatic]
    decide +kernel
  have hsigned : Keyword.of? "unsigned" = some (.base .unsigned) := by decide +kernel
  have hlength : Keyword.of? "long" = some (.base .long) := by decide +kernel
  obtain ⟨id, hid⟩ : ∃ id, s.lookup? "unsigned long" = some id :=
    Option.isSome_iff_exists.mp (by decide +kernel)
  have hplain : NoBracket x ∧ NoBracket comma₁ ∧ NoBracket y := by
    simp [NoBracket, bracketPairs, Token.isPunct, Lexeme.isPunct, hx, hcomma₁, hy]
  -- the type, the object with its initializer, the function with its body
  have htype (us : List Token) : NamesKnown s (unsigned :: static :: long :: a :: us) (a :: us) :=
    .builtin (.word hunsigned hsigned rfl
      (.noise (.qualifier hqualifier (.stop _)) (.word hlong hlength rfl (.stop _ _)))) rfl rfl hid
  have hobject (us : List Token) : Valued source
      (a :: sign :: open₁ :: ([x, comma₁, y] ++ close₁ :: comma :: us)) _ (comma :: us) :=
    .value (.name (.noise (.stop _)) ha (by decide +kernel) (by decide +kernel) (.stop _))
      (.stop _) (his hsign)
      (.group (p := ('{', '}')) (by simp [bracketPairs]) (his hopen₁)
        (.other hplain.1 (.other hplain.2.1 (.other hplain.2.2 .nil))) (his hclose₁) (.stop _))
  have hfunction (us : List Token) : Declares source
      (star :: f :: open₂ :: ([int] ++ close₂ :: us)) _ us :=
    .name (.star (.stop _) (his hstar) (.noise (.stop _))) hf (by decide +kernel)
      (by decide +kernel)
      (.function (his hopen₂) (.other (hno hint '(') (hno hint ')') .nil) (his hclose₂) (.stop _))
  have hbody : Balanced '{' '}' [g, semicolon] :=
    .other (hno hg '{') (hno hg '}') (.other (isPunct_eq_false_of_ne (by decide) (his hsemicolon))
      (isPunct_eq_false_of_ne (by decide) (his hsemicolon)) .nil)
  have hall : ObjectDeclaration source s scanned.tokens [char, b, last] := by
    rw [hs]
    refine .declarators (htype _) (by rw [keyword?_of_lexeme ha]; decide +kernel) ?_
    exact .comma (hobject _) (his hcomma)
      (.body (hfunction _) rfl (.stop _) (his hopen₃) hbody (his hclose₃))
  obtain ⟨heard, scope', hleads, hact, hclosed⟩ :=
    @objectDeclaration_neutral _ [char, b, last] s source defaultContextLines []
      (List.nil_append _).symm hall (fun _ => .ok 0) {} rfl
  rw [← hs]
  exact ⟨[char, b, last], heard, scope', by simp [hchar, hb, hlast], hleads, hact, hclosed⟩

end Session

end TypeLayout
