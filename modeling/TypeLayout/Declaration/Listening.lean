import TypeLayout.Declaration.Clause
import TypeLayout.Declaration.Stream

/-!
# Declarations from a stream of tokens

The reader of `TypeLayout.Declaration.Clause` with its declarators, on a stream in place of a
list. Each function agrees with the one of the same name on the tokens that are still to come.

The text of a dimension is cut out of the source, between the place where the lexer stands
when the opening bracket has been taken and the place where it stands behind the closing one.
Where such a place is not known, because a token is held, the tokens between the brackets are
joined instead. How they are joined is a parameter here (`Joining`), and agreement for every
value of it says that this never happens.

Clauses hold names with their spelling. A clause that can be refused over a name also holds
the word that the name is (`Told`), for the error.
-/

namespace TypeLayout

/-- A way to put tokens together to a text, if their texts can be spelled. -/
abbrev Joining := Names → List (Token NameId) → Option String

/-- The spellings of the tokens with blanks between them. -/
def joinSpellings : Joining := fun words ts =>
  if ts.all fun t => t.lexeme.text?.all fun id => (words.get? id).isSome then
    some (" ".intercalate (ts.map fun t => (t.spelled words).lexeme.spelling))
  else
    none

namespace TokenStream

variable {l : Lexed} {s s' : TokenStream l} {t : Token NameId} {f : Fault NameId}
  (join : Joining)

theorem isEof_of_isPunct {c : Char} (h : t.isPunct c = true) : t.isEof = false := by
  cases heof : t.isEof with
  | false => rfl
  | true => rw [t.isPunct_of_isEof heof] at h; cases h

/-! ### Declarators -/

/-- The tokens up to the bracket that closes a dimension, and that bracket; `depth` counts
the further brackets that are open. -/
def readBrackets (depth : Nat) (s : TokenStream l) :
    Except (Fault NameId) (List (Token NameId) × Token NameId × TokenStream l) :=
  match _h : s.next with
  | .error f => .error f
  | .ok (t, rest) =>
    if _ht : t.isEof then .error (t.fault t.line .unexpectedEof)
    else if t.isPunct ']' ∧ depth = 0 then .ok ([], t, rest)
    else (readBrackets (t.nesting '[' ']' depth) rest).map fun (inner, more) => (t :: inner, more)
termination_by s.tokens.length
decreasing_by
  obtain ⟨ahead, hpeek, rfl⟩ := exists_peek_of_next _h
  exact length_take hpeek (Bool.eq_false_iff.mpr _ht)

theorem agrees_readBrackets (depth : Nat) (s : TokenStream l) :
    Agrees l (fun r r' => r.2.2.position? = some r.2.1.after ∧
        r' = (r.1.map fun t => (t.spelled l.words).lexeme, r.2.1.spelled l.words, r.2.2.tokens))
      (s.readBrackets depth) (TypeLayout.readBrackets l.plainEnding depth s.tokens) := by
  rcases s.peek_cases with ⟨t, s', hpeek, heof, -, -, hcons, hposition⟩ |
    ⟨t, s', hpeek, heof, hending, hnil, -⟩ | ⟨f, hpeek, hending, hknown, hnil⟩ <;>
    rw [readBrackets, next_eq, hpeek]
  · have hless := length_take hpeek heof
    simp only [Except.map, heof, Bool.false_eq_true, dite_false, hcons]
    split
    · rename_i hclose
      rw [TypeLayout.readBrackets, Token.isPunct_spelled, if_pos hclose]
      exact .ok ⟨hposition, rfl⟩
    · rename_i hopen
      rw [readBrackets_cons (by rwa [Token.isPunct_spelled]), Token.nesting_spelled]
      refine (agrees_readBrackets (t.nesting '[' ']' depth) s'.take).map ?_
      rintro ⟨inner, close, rest⟩ _ ⟨hrest, rfl⟩
      exact ⟨hrest, rfl⟩
  · rw [hnil, TypeLayout.readBrackets, hending]
    simp only [Except.map, heof]
    exact .fault (by simp [ParseError.name?])
  · rw [hnil, TypeLayout.readBrackets, hending]
    exact .error hknown
termination_by s.tokens.length

/-- The dimension after an opening bracket that has been taken. -/
def readDimension (s : TokenStream l) : Except (Fault NameId) (Dimension × TokenStream l) := do
  let (inner, close, rest) ← s.readBrackets 0
  let lexemes := inner.map fun t => (t.spelled l.words).lexeme
  match s.position?, rest.position? with
  | some start, some stop =>
    .ok (⟨lexemes, String.ofList (Text.trim (start.textUntil stop 1))⟩, rest)
  | _, _ =>
    match join l.words inner with
    | some text => .ok (⟨lexemes, text⟩, rest)
    | none => .error (close.fault close.line (.invalidDimension Names.notFound))

/-- **The text of a dimension is cut out of the source** when nothing is held. -/
theorem agrees_readDimension (hs : s.position? = some t.after) :
    Agrees l Gives (s.readDimension join)
      (TypeLayout.readDimension l.plainEnding (t.spelled l.words) s.tokens) := by
  rw [readDimension_eq]
  rcases hr : s.readBrackets 0 with f | ⟨inner, close, rest⟩
  · obtain ⟨hplain, hknown⟩ := (agrees_readBrackets 0 s).eq_error hr
    rw [readDimension, hr, hplain]
    exact .error hknown
  · obtain ⟨_, hplain, hrest, rfl⟩ := (agrees_readBrackets 0 s).exists_ok hr
    simp only [readDimension, hr, hplain, bind, Except.bind, hs, hrest]
    exact .ok rfl

/-- The array and function derivations written after a name. -/
def readSuffixes (s : TokenStream l) :
    Except (Fault NameId) (List Derivation × TokenStream l) :=
  match _h : s.peek with
  | .error f => .error f
  | .ok (t, ahead) =>
    if _hb : t.isPunct '[' then
      match _hd : ahead.take.readDimension join with
      | .error f => .error f
      | .ok (d, rest) => (readSuffixes rest).map fun (ds, rest) => (.array d :: ds, rest)
    else if _hp : t.isPunct '(' then
      match _hg : ahead.take.skipBalanced '(' ')' 0 with
      | .error f => .error f
      | .ok rest => (readSuffixes rest).map fun (ds, rest) => (.function :: ds, rest)
    else
      .ok ([], ahead)
termination_by s.tokens.length
decreasing_by
  · obtain ⟨-, -, hcons, hposition⟩ := peek_token _h (isEof_of_isPunct _hb)
    obtain ⟨_, hplain, rfl⟩ := (agrees_readDimension join hposition).exists_ok _hd
    rw [hcons]
    exact Nat.lt_succ_of_lt (length_readDimension _ hplain)
  · obtain ⟨-, -, hcons, -⟩ := peek_token _h (isEof_of_isPunct _hp)
    obtain ⟨_, hplain, rfl⟩ := (agrees_skipBalanced '(' ')' 0 ahead.take).exists_ok _hg
    rw [hcons]
    exact Nat.lt_succ_of_lt (length_skipBalanced _ hplain)

theorem agrees_readSuffixes (s : TokenStream l) :
    Agrees l Gives (s.readSuffixes join) (TypeLayout.readSuffixes l.plainEnding s.tokens) := by
  fun_induction readSuffixes join s with
  | case1 s f hpeek =>
    obtain ⟨hending, hknown, hnil⟩ := peek_fault hpeek
    rw [hnil, TypeLayout.readSuffixes, hending]
    exact .error hknown
  | case2 s t ahead hpeek hb f hd =>
    obtain ⟨-, -, hcons, hposition⟩ := peek_token hpeek (isEof_of_isPunct hb)
    obtain ⟨hplain, hknown⟩ := (agrees_readDimension join hposition).eq_error hd
    rw [hcons, readSuffixes_bracket (by rwa [Token.isPunct_spelled]), hplain]
    exact .error hknown
  | case3 s t ahead hpeek hb d rest hd ih =>
    obtain ⟨-, -, hcons, hposition⟩ := peek_token hpeek (isEof_of_isPunct hb)
    obtain ⟨_, hplain, rfl⟩ := (agrees_readDimension join hposition).exists_ok hd
    rw [hcons, readSuffixes_bracket (by rwa [Token.isPunct_spelled]), hplain]
    exact ih.map fun _ _ h => by rw [h]; rfl
  | case4 s t ahead hpeek hb hp f hg =>
    obtain ⟨-, -, hcons, -⟩ := peek_token hpeek (isEof_of_isPunct hp)
    obtain ⟨hplain, hknown⟩ := (agrees_skipBalanced '(' ')' 0 ahead.take).eq_error hg
    rw [hcons, readSuffixes_paren (by rwa [Token.isPunct_spelled])
      (by rwa [Token.isPunct_spelled]), hplain]
    exact .error hknown
  | case5 s t ahead hpeek hb hp rest hg ih =>
    obtain ⟨-, -, hcons, -⟩ := peek_token hpeek (isEof_of_isPunct hp)
    obtain ⟨_, hplain, rfl⟩ := (agrees_skipBalanced '(' ')' 0 ahead.take).exists_ok hg
    rw [hcons, readSuffixes_paren (by rwa [Token.isPunct_spelled])
      (by rwa [Token.isPunct_spelled]), hplain]
    exact ih.map fun _ _ h => by rw [h]; rfl
  | case6 s t ahead hpeek hb hp =>
    cases heof : t.isEof with
    | false =>
      obtain ⟨-, htokens, hcons, -⟩ := peek_token hpeek heof
      rw [hcons, TypeLayout.readSuffixes, Token.isPunct_spelled, Token.isPunct_spelled, if_neg hb,
        if_neg hp, ← hcons]
      exact .ok (by rw [Gives, htokens])
    | true =>
      obtain ⟨hending, hnil, hnil'⟩ := peek_eof hpeek heof
      rw [hnil, TypeLayout.readSuffixes, hending]
      exact .ok (by rw [Gives, hnil'])

/-- The stars in front of a declarator, with noise around them. -/
def readStars (s : TokenStream l) : Except (Fault NameId) (Nat × TokenStream l) :=
  match _h : s.skipNoise with
  | .error f => .error f
  | .ok rest =>
    match _hp : rest.peek with
    | .error f => .error f
    | .ok (t, ahead) =>
      if _hs : t.isPunct '*' then (readStars ahead.take).map fun (n, rest) => (n + 1, rest)
      else .ok (0, ahead)
termination_by s.tokens.length
decreasing_by
  obtain ⟨_, hplain, rfl⟩ := (agrees_skipNoise s).exists_ok _h
  exact Nat.lt_of_lt_of_le (length_take _hp (isEof_of_isPunct _hs)) (length_skipNoise _ hplain)

theorem agrees_readStars (s : TokenStream l) :
    Agrees l Gives s.readStars (TypeLayout.readStars l.plainEnding s.tokens) := by
  rw [readStars_eq]
  fun_induction readStars s with
  | case1 s f h =>
    obtain ⟨hplain, hknown⟩ := (agrees_skipNoise s).eq_error h
    rw [hplain]
    exact .error hknown
  | case2 s rest h f hpeek =>
    obtain ⟨_, hplain, rfl⟩ := (agrees_skipNoise s).exists_ok h
    obtain ⟨hending, hknown, hnil⟩ := peek_fault hpeek
    rw [hplain, hnil, hending]
    exact .error hknown
  | case3 s rest h t ahead hpeek hs ih =>
    obtain ⟨_, hplain, rfl⟩ := (agrees_skipNoise s).exists_ok h
    obtain ⟨-, -, hcons, -⟩ := peek_token hpeek (isEof_of_isPunct hs)
    rw [hplain, hcons, ok_bind]
    dsimp only
    rw [Token.isPunct_spelled, if_pos hs, readStars_eq]
    exact ih.map fun _ _ h => by rw [h]; rfl
  | case4 s rest h t ahead hpeek hs =>
    obtain ⟨_, hplain, rfl⟩ := (agrees_skipNoise s).exists_ok h
    cases heof : t.isEof with
    | false =>
      obtain ⟨-, htokens, hcons, -⟩ := peek_token hpeek heof
      rw [hplain, hcons, ok_bind]
      dsimp only
      rw [Token.isPunct_spelled, if_neg hs, ← hcons]
      exact .ok (by rw [Gives, htokens])
    | true =>
      obtain ⟨hending, hnil, hnil'⟩ := peek_eof hpeek heof
      rw [hplain, hnil, hending]
      exact .ok (by rw [Gives, hnil'])

/-- A declarator beside the word that its name is. -/
def Declares (r : (NameId × Declarator) × TokenStream l) (r' : Declarator × List Token) : Prop :=
  l.words.get? r.1.1 = some r.1.2.name ∧ r' = (r.1.2, r.2.tokens)

/-- Reads what is written after the name or the inner declarator. -/
def finishDeclarator (id : NameId) (d : Declarator) (stars : Nat) (s : TokenStream l) :
    Except (Fault NameId) ((NameId × Declarator) × TokenStream l) :=
  (s.readSuffixes join).map fun (suffixes, rest) => ((id, { d with
    derivations := d.derivations ++ suffixes ++ List.replicate stars .pointer }), rest)

theorem agrees_finishDeclarator {id : NameId} {d : Declarator}
    (hd : l.words.get? id = some d.name) (stars : Nat) (s : TokenStream l) :
    Agrees l Declares (s.finishDeclarator join id d stars)
      (TypeLayout.finishDeclarator l.plainEnding d stars s.tokens) := by
  rw [finishDeclarator_eq]
  exact (agrees_readSuffixes join s).map fun _ _ h => ⟨hd, by rw [h]⟩

/-- Reads a declarator. -/
def readDeclarator (s : TokenStream l) :
    Except (Fault NameId) ((NameId × Declarator) × TokenStream l) :=
  match _h : s.readStars with
  | .error f => .error f
  | .ok (stars, rest) =>
    match _hp : rest.peek with
    | .error f => .error f
    | .ok (t, ahead) =>
      if _hb : t.isPunct '(' then do
        let ((id, inner), rest) ← readDeclarator ahead.take
        let rest ← rest.mustBe ')'
        rest.finishDeclarator join id inner stars
      else
        match t.lexeme with
        | .identifier id =>
          ahead.take.finishDeclarator join id { name := l.words.spell id, line := t.line } stars
        | _ => .error (t.fault t.line (.expectedIdentifier t.lexeme))
termination_by s.tokens.length
decreasing_by
  obtain ⟨_, hplain, rfl⟩ := (agrees_readStars s).exists_ok _h
  exact Nat.lt_of_lt_of_le (length_take _hp (isEof_of_isPunct _hb)) (length_readStars _ hplain)

theorem agrees_readDeclarator (s : TokenStream l) :
    Agrees l Declares (s.readDeclarator join)
      (TypeLayout.readDeclarator l.plainEnding s.tokens) := by
  rw [readDeclarator_eq]
  fun_induction readDeclarator join s with
  | case1 s f h =>
    obtain ⟨hplain, hknown⟩ := (agrees_readStars s).eq_error h
    rw [hplain]
    exact .error hknown
  | case2 s stars rest h f hpeek =>
    obtain ⟨_, hplain, rfl⟩ := (agrees_readStars s).exists_ok h
    obtain ⟨hending, hknown, hnil⟩ := peek_fault hpeek
    rw [hplain, ok_bind, hnil, declaratorBehind, hending]
    exact .error hknown
  | case3 s stars rest h t ahead hpeek hb ih =>
    obtain ⟨_, hplain, rfl⟩ := (agrees_readStars s).exists_ok h
    obtain ⟨-, -, hcons, -⟩ := peek_token hpeek (isEof_of_isPunct hb)
    rw [hplain, ok_bind, hcons, declaratorBehind_paren (by rwa [Token.isPunct_spelled]),
      readDeclarator_eq]
    refine ih.bind ?_
    rintro ⟨⟨id, inner⟩, rest⟩ _ ⟨hid, rfl⟩
    refine (agrees_mustBe ')' rest).bind ?_
    rintro rest _ rfl
    exact agrees_finishDeclarator join hid stars rest
  | case4 s stars rest h t ahead hpeek hb id hid =>
    obtain ⟨_, hplain, rfl⟩ := (agrees_readStars s).exists_ok h
    obtain ⟨hmem, -, hcons, -⟩ := peek_token hpeek (by rw [Token.isEof, hid]; rfl)
    have hspelled : (t.spelled l.words).lexeme = .identifier (l.words.spell id) := by
      rw [Token.spelled, hid]
      rfl
    rw [hplain, ok_bind, hcons, declaratorBehind_name hspelled]
    exact agrees_finishDeclarator join
      (Names.get?_spell (l.known t hmem id (by rw [hid]; rfl))) stars ahead.take
  | case5 s stars rest h t ahead hpeek hb hname =>
    obtain ⟨_, hplain, rfl⟩ := (agrees_readStars s).exists_ok h
    rw [hplain, ok_bind]
    cases heof : t.isEof with
    | false =>
      obtain ⟨hmem, -, hcons, -⟩ := peek_token hpeek heof
      rw [hcons, declaratorBehind, Token.isPunct_spelled, if_neg hb]
      have hknown := l.known t hmem
      split
      · rename_i name hspelled
        unfold Token.spelled at hspelled
        cases hlex : t.lexeme <;> rw [hlex] at hspelled <;> cases hspelled
        exact absurd hlex (hname _)
      · exact .fault hknown
    | true =>
      obtain ⟨hending, hnil, -⟩ := peek_eof hpeek heof
      rw [hnil, declaratorBehind, hending]
      exact .fault (by simp [ParseError.name?, show t.lexeme = .eof from eq_of_beq heof,
        Lexeme.text?])

end TokenStream

/-! ### Clauses -/

/-- The name that a clause can be refused over. -/
def Clause.subject? : Clause → Option String
  | named name _ => some name
  | declare d _ => some d.name
  | _ => none

/-- A clause that was heard, and the word that it can be refused over. -/
structure Told where
  heard : Heard
  word : Option NameId := none

/-- The word of a clause is its name. -/
def Told.Right (words : Names) (told : Told) : Prop :=
  ∀ id, told.word = some id →
    ∃ x, told.heard.clause.subject? = some x ∧ words.get? id = some x

/-- What a step leads to. -/
inductive StreamTurn (l : Lexed) where
  | finished
  | goOn (told : Option Told) (place : Place) (stack : List Specifiers) (rest : TokenStream l)

/-- A step on both sides. -/
inductive StreamTurn.Matches {l : Lexed} : StreamTurn l → Step → Prop
  | finished : Matches .finished .finished
  | goOn {told : Option Told} {place : Place} {stack : List Specifiers} {s : TokenStream l}
    (h : ∀ x, told = some x → x.Right l.words) :
    Matches (.goOn told place stack s) (.goOn (told.map Told.heard) place stack s.tokens)

namespace TokenStream

variable {l : Lexed} {s s' : TokenStream l} {t : Token NameId} (join : Joining)

/-- A step that says nothing. -/
theorem silent {place : Place} {stack : List Specifiers} :
    Agrees l StreamTurn.Matches (.ok (.goOn none place stack s))
      (.ok (.goOn none place stack s.tokens)) :=
  .ok (.goOn (by simp))

/-- A step that says something. -/
theorem spoken {x : Told} (hx : x.Right l.words) {place : Place} {stack : List Specifiers} :
    Agrees l StreamTurn.Matches (.ok (.goOn (some x) place stack s))
      (.ok (.goOn (some x.heard) place stack s.tokens)) :=
  .ok (@StreamTurn.Matches.goOn l (some x) _ _ _ fun _ h => Option.some.inj h ▸ hx)

theorem unnamed {heard : Heard} {place : Place} {stack : List Specifiers} :
    Agrees l StreamTurn.Matches (.ok (.goOn (some ⟨heard, none⟩) place stack s))
      (.ok (.goOn (some heard) place stack s.tokens)) :=
  spoken (x := ⟨heard, none⟩) (by simp [Told.Right])

/-- A declaration begins, a body ends, or the source does. -/
def stepDeclaration (stack : List Specifiers) (s : TokenStream l) :
    Except (Fault NameId) (StreamTurn l) := do
  let (t, s) ← s.peek
  if t.isEof then
    match stack with
    | [] => .ok .finished
    | _ :: _ => .error (t.fault t.line .unexpectedEof)
  else
    match stack, t.isPunct '}' with
    | outer :: stack, true => do
      let rest ← s.take.skipNoise
      let (next, rest) ← rest.peek
      .ok (.goOn (some ⟨⟨.closeBody, next.after⟩, none⟩) (.specifiers { outer with found := true })
        stack rest)
    | _, _ =>
      if t.isPunct ';' then
        .ok (.goOn none .declaration stack s.take)
      else if l.keyword? t = some .staticAssert then do
        let rest ← s.take.mustBe '('
        let rest ← rest.skipBalanced '(' ')' 0
        let rest ← rest.mustBe ';'
        .ok (.goOn none .declaration stack rest)
      else
        .ok (.goOn none (.specifiers { line := t.line }) stack s)

theorem agrees_stepDeclaration (stack : List Specifiers) (s : TokenStream l) :
    Agrees l StreamTurn.Matches (s.stepDeclaration stack)
      (TypeLayout.stepDeclaration l.plainEnding stack s.tokens) := by
  unfold stepDeclaration
  rcases s.peek_cases with ⟨t, s', hpeek, heof, -, htokens, hcons, -⟩ |
    ⟨t, s', hpeek, heof, hending, hnil, -⟩ | ⟨f, hpeek, hending, hknown, hnil⟩ <;> rw [hpeek]
  · rw [ok_bind, hcons]
    cases stack <;> cases hclose : t.isPunct '}' <;>
      simp only [heof, Bool.false_eq_true, if_false, TypeLayout.stepDeclaration, hclose,
        Token.isPunct_spelled, Token.keyword?_spelled]
    case cons.true outer stack =>
      refine (agrees_skipNoise s'.take).bind ?_
      rintro rest _ rfl
      rw [hear_bind]
      refine (agrees_peek rest).bind ?_
      rintro ⟨next, ahead⟩ _ ⟨rfl, hahead, -⟩
      rw [← hahead]
      exact unnamed
    all_goals
      split
      · exact silent
      · split
        · refine (agrees_mustBe '(' s'.take).bind ?_
          rintro rest _ rfl
          refine (agrees_skipBalanced '(' ')' 0 rest).bind ?_
          rintro rest _ rfl
          refine (agrees_mustBe ';' rest).bind ?_
          rintro rest _ rfl
          exact silent
        · rw [← hcons, ← htokens]
          exact silent
  · cases stack with
    | nil =>
      rw [hnil, TypeLayout.stepDeclaration, hending]
      simp only [bind, Except.bind, heof, if_true]
      exact .ok .finished
    | cons outer stack =>
      rw [hnil, TypeLayout.stepDeclaration, hending]
      simp only [bind, Except.bind, heof, if_true]
      exact .fault (by simp [ParseError.name?])
  · cases stack <;> rw [hnil, TypeLayout.stepDeclaration, hending] <;> exact .error hknown

/-- The rest of a struct or union specifier; `t` is its keyword. -/
def stepTag (sp : Specifiers) (kind : TagKind) (t : Token NameId) (stack : List Specifiers)
    (s : TokenStream l) : Except (Fault NameId) (StreamTurn l) := do
  let rest ← s.skipNoise
  let (name, rest) ← rest.nextName
  let rest ← rest.skipNoise
  let (next, rest) ← rest.peek
  let (body, rest) ← rest.nextIf (·.isPunct '{')
  if body.isSome then
    .ok (.goOn (some ⟨⟨.openBody kind name t.line, next.after⟩, none⟩) .declaration (sp :: stack)
      rest)
  else
    match name with
    | none => .error (next.fault t.line (.tagWithoutBody kind.keyword))
    | some name =>
      .ok (.goOn (some ⟨⟨.tag kind name t.line, next.after⟩, none⟩)
        (.specifiers { sp with found := true }) stack rest)

theorem agrees_stepTag (sp : Specifiers) (kind : TagKind) (t : Token NameId)
    (stack : List Specifiers) (s : TokenStream l) :
    Agrees l StreamTurn.Matches (s.stepTag sp kind t stack)
      (TypeLayout.stepTag l.plainEnding sp kind (t.spelled l.words) stack s.tokens) := by
  refine (agrees_skipNoise s).bind ?_
  rintro rest _ rfl
  refine (agrees_nextName rest).bind ?_
  rintro ⟨name, rest⟩ _ rfl
  refine (agrees_skipNoise rest).bind ?_
  rintro rest _ rfl
  refine (agrees_peek rest).bind ?_
  rintro ⟨next, ahead⟩ _ ⟨rfl, hahead, -⟩
  rw [← hahead]
  refine (agrees_nextIf '{' ahead).bind ?_
  rintro ⟨body, rest⟩ _ rfl
  dsimp only
  split
  · exact unnamed
  · cases name with
    | none => exact .fault (by simp [ParseError.name?])
    | some name => exact unnamed

/-- Skips the rest of the list of an enumeration's values, if there is one, and the noise
after it. -/
def skipEnumerators (body : Bool) (s : TokenStream l) : Except (Fault NameId) (TokenStream l) := do
  if body then
    let rest ← s.skipBalanced '{' '}' 0
    rest.skipNoise
  else
    .ok s

theorem agrees_skipEnumerators (body : Bool) (s : TokenStream l) :
    Agrees l Left (s.skipEnumerators body)
      (TypeLayout.skipEnumerators l.plainEnding body s.tokens) := by
  cases body with
  | false => exact .ok rfl
  | true =>
    rw [skipEnumerators, TypeLayout.skipEnumerators, if_pos rfl, if_pos rfl]
    rcases h : s.skipBalanced '{' '}' 0 with f | rest
    · obtain ⟨hplain, hknown⟩ := (agrees_skipBalanced '{' '}' 0 s).eq_error h
      rw [hplain]
      exact .error hknown
    · obtain ⟨_, hplain, rfl⟩ := (agrees_skipBalanced '{' '}' 0 s).exists_ok h
      rw [hplain]
      exact agrees_skipNoise rest

/-- The rest of an enumeration specifier; `t` is its keyword. -/
def stepEnum (sp : Specifiers) (t : Token NameId) (stack : List Specifiers) (s : TokenStream l) :
    Except (Fault NameId) (StreamTurn l) := do
  let rest ← s.skipNoise
  let (name, rest) ← rest.nextName
  let rest ← rest.skipNoise
  let (body, rest) ← rest.nextIf (·.isPunct '{')
  let rest ← rest.skipEnumerators body.isSome
  let (next, rest) ← rest.peek
  if name.isNone && !body.isSome then
    .error (next.fault t.line (.tagWithoutBody "enum"))
  else
    .ok (.goOn (some ⟨⟨.enum name body.isSome t.line, next.after⟩, none⟩)
      (.specifiers { sp with found := true }) stack rest)

theorem agrees_stepEnum (sp : Specifiers) (t : Token NameId) (stack : List Specifiers)
    (s : TokenStream l) :
    Agrees l StreamTurn.Matches (s.stepEnum sp t stack)
      (TypeLayout.stepEnum l.plainEnding sp (t.spelled l.words) stack s.tokens) := by
  refine (agrees_skipNoise s).bind ?_
  rintro rest _ rfl
  refine (agrees_nextName rest).bind ?_
  rintro ⟨name, rest⟩ _ rfl
  refine (agrees_skipNoise rest).bind ?_
  rintro rest _ rfl
  refine (agrees_nextIf '{' rest).bind ?_
  rintro ⟨body, rest⟩ _ rfl
  refine (agrees_skipEnumerators body.isSome rest).bind ?_
  rintro rest _ rfl
  refine (agrees_peek rest).bind ?_
  rintro ⟨next, ahead⟩ _ ⟨rfl, hahead, -⟩
  dsimp only
  rw [← hahead]
  split
  · exact .fault (by simp [ParseError.name?])
  · exact unnamed

/-- The specifiers end in front of the token `t`, which is held. -/
def endSpecifiers (sp : Specifiers) (t : Token NameId) (stack : List Specifiers)
    (s : TokenStream l) : Except (Fault NameId) (StreamTurn l) :=
  if sp.found then
    if t.isPunct ';' then
      .ok (.goOn (some ⟨⟨.bare sp.line, t.after⟩, none⟩) .declaration stack s.take)
    else
      .ok (.goOn none (.declarator sp.typedef) stack s)
  else if sp.base.isEmpty then
    .error (t.fault t.line (if t.isEof then .unexpectedEof else .expectedType t.lexeme))
  else
    match sp.base.spelling? with
    | none => .error (t.fault sp.line .conflictingSpecifiers)
    | some spelling =>
      .ok (.goOn (some ⟨⟨.base spelling (sp.base.signed == some false) sp.line, t.after⟩, none⟩)
        (.specifiers { sp with base := {}, found := true }) stack s)

theorem agrees_endSpecifiers (sp : Specifiers) (stack : List Specifiers)
    (hpeek : s.peek = .ok (t, s')) :
    Agrees l StreamTurn.Matches (s'.endSpecifiers sp t stack)
      (TypeLayout.endSpecifiers sp (t.spelled l.words) stack s.tokens) := by
  have hbase (ts : List Token) (hts : ts = s'.tokens) (hfound : sp.found = false)
      (hknown : t.isEof = false → t.lexeme.Known l.words) :
      Agrees l StreamTurn.Matches (s'.endSpecifiers sp t stack)
        (TypeLayout.endSpecifiers sp (t.spelled l.words) stack ts) := by
    subst hts
    simp only [endSpecifiers, TypeLayout.endSpecifiers, hfound, Bool.false_eq_true, if_false]
    split
    · rw [Token.isEof_spelled]
      cases heof : t.isEof with
      | false => exact .fault (hknown heof)
      | true => exact .fault (e := .unexpectedEof) (by simp [ParseError.name?])
    · cases sp.base.spelling? with
      | none => exact .fault (e := .conflictingSpecifiers) (by simp [ParseError.name?])
      | some spelling => exact unnamed
  cases heof : t.isEof with
  | false =>
    obtain ⟨hmem, htokens, hcons, -⟩ := peek_token hpeek heof
    cases hfound : sp.found with
    | false => exact hbase _ htokens.symm hfound fun _ => l.known t hmem
    | true =>
      simp only [endSpecifiers, TypeLayout.endSpecifiers, hfound, if_true, hcons,
        Token.isPunct_spelled]
      split
      · exact unnamed
      · rw [← hcons, ← htokens]
        exact silent
  | true =>
    obtain ⟨-, hnil, hnil'⟩ := peek_eof hpeek heof
    cases hfound : sp.found with
    | false => exact hbase _ (hnil.trans hnil'.symm) hfound (by simp [heof])
    | true =>
      simp only [endSpecifiers, TypeLayout.endSpecifiers, hfound, if_true, hnil,
        t.isPunct_of_isEof heof, Bool.false_eq_true, if_false]
      rw [← hnil']
      exact silent

/-- One specifier, or the end of them. -/
def stepSpecifiers (sp : Specifiers) (stack : List Specifiers) (s : TokenStream l) :
    Except (Fault NameId) (StreamTurn l) := do
  let (t, s) ← s.peek
  match t.lexeme with
  | .identifier id =>
    let name := l.words.spell id
    match Keyword.of? name with
    | some .typedef => .ok (.goOn none (.specifiers { sp with typedef := true }) stack s.take)
    | some .qualifier => .ok (.goOn none (.specifiers sp) stack s.take)
    | some .extension => do
      let rest ← s.take.skipGroup
      .ok (.goOn none (.specifiers sp) stack rest)
    | some .staticAssert => s.endSpecifiers sp t stack
    | some (.tag kind) =>
      if sp.hasType then .error (t.fault t.line .conflictingSpecifiers)
      else s.take.stepTag sp kind t stack
    | some .enum =>
      if sp.hasType then .error (t.fault t.line .conflictingSpecifiers)
      else s.take.stepEnum sp t stack
    | some (.base word) =>
      if sp.found then .error (t.fault t.line .conflictingSpecifiers)
      else
        match sp.base.add word with
        | .error .signedAndUnsigned => .error (t.fault t.line .signedAndUnsigned)
        | .error _ => .error (t.fault t.line .conflictingSpecifiers)
        | .ok base => .ok (.goOn none (.specifiers { sp with base }) stack s.take)
    | none =>
      if sp.hasType then s.endSpecifiers sp t stack
      else
        .ok (.goOn (some ⟨⟨.named name t.line, t.after⟩, some id⟩)
          (.specifiers { sp with found := true }) stack s.take)
  | _ => s.endSpecifiers sp t stack

theorem agrees_stepSpecifiers (sp : Specifiers) (stack : List Specifiers) (s : TokenStream l) :
    Agrees l StreamTurn.Matches (s.stepSpecifiers sp stack)
      (TypeLayout.stepSpecifiers l.plainEnding sp stack s.tokens) := by
  unfold stepSpecifiers
  rcases s.peek_cases with ⟨t, s', hpeek, heof, hmem, htokens, hcons, -⟩ |
    ⟨t, s', hpeek, heof, hending, hnil, hnil'⟩ | ⟨f, hpeek, hending, hknown, hnil⟩
  · have hend := agrees_endSpecifiers sp stack hpeek
    rw [hpeek, hcons, ok_bind, TypeLayout.stepSpecifiers]
    rw [hcons] at hend
    cases hlex : t.lexeme with
    | identifier id =>
      have hspelled : (t.spelled l.words).lexeme = .identifier (l.words.spell id) := by
        rw [Token.spelled, hlex]
        rfl
      simp only [hspelled, hlex]
      rcases Keyword.of? (l.words.spell id) with _ | k
      · dsimp only
        split
        · exact hend
        · have hid := Names.get?_spell (l.known t hmem id (by rw [hlex]; rfl))
          exact spoken (x := ⟨_, some id⟩) fun i hi => ⟨_, rfl, Option.some.inj hi ▸ hid⟩
      cases k with
      | typedef | qualifier => exact silent
      | extension =>
        refine (agrees_skipGroup s'.take).bind ?_
        rintro rest _ rfl
        exact silent
      | staticAssert => exact hend
      | tag kind =>
        dsimp only
        split
        · exact .fault (by simp [ParseError.name?])
        · exact agrees_stepTag sp kind t stack s'.take
      | enum =>
        dsimp only
        split
        · exact .fault (by simp [ParseError.name?])
        · exact agrees_stepEnum sp t stack s'.take
      | base w =>
        dsimp only
        split
        · exact .fault (by simp [ParseError.name?])
        · cases hadd : sp.base.add w with
          | error err =>
            rcases BaseWords.error_add hadd with rfl | rfl <;>
              exact .fault (by simp [ParseError.name?])
          | ok base => exact silent
    | _ =>
      have hspelled : (t.spelled l.words).lexeme = t.lexeme.map l.words.spell := rfl
      simp only [hspelled, hlex, Lexeme.map]
      exact hend
  · have hend := agrees_endSpecifiers sp stack hpeek
    rw [hnil] at hend
    rw [hpeek, hnil, ok_bind, hending]
    simp only [show t.lexeme = .eof from eq_of_beq heof]
    exact hend
  · rw [hpeek, hnil, hending]
    exact .error hknown

/-- Skips the value that a declarator is given, if there is one. -/
def skipValue (initialized : Bool) (s : TokenStream l) : Except (Fault NameId) (TokenStream l) :=
  if initialized then s.skipInitializer 0 else .ok s

theorem agrees_skipValue (initialized : Bool) (s : TokenStream l) :
    Agrees l Left (s.skipValue initialized)
      (TypeLayout.skipValue l.plainEnding initialized s.tokens) := by
  cases initialized with
  | false => exact .ok rfl
  | true => exact agrees_skipInitializer 0 s

/-- A declarator with its initializer. -/
def stepDeclarator (typedef : Bool) (stack : List Specifiers) (s : TokenStream l) :
    Except (Fault NameId) (StreamTurn l) := do
  let ((id, d), rest) ← s.readDeclarator join
  let rest ← rest.skipNoise
  let (next, rest) ← rest.peek
  if !stack.isEmpty && next.isPunct ':' then
    .error (next.fault d.line (.bitField id))
  else
    let (sign, rest) ← rest.nextIf (·.isPunct '=')
    let rest ← rest.skipValue sign.isSome
    let (last, rest) ← rest.peek
    .ok (.goOn (some ⟨⟨.declare d typedef, last.after⟩, some id⟩) (.tail typedef d.isFunction)
      stack rest)

theorem agrees_stepDeclarator (typedef : Bool) (stack : List Specifiers) (s : TokenStream l) :
    Agrees l StreamTurn.Matches (s.stepDeclarator join typedef stack)
      (TypeLayout.stepDeclarator l.plainEnding typedef stack s.tokens) := by
  refine (agrees_readDeclarator join s).bind ?_
  rintro ⟨⟨id, d⟩, rest⟩ _ ⟨hid, rfl⟩
  refine (agrees_skipNoise rest).bind ?_
  rintro rest _ rfl
  refine (agrees_peek rest).bind ?_
  rintro ⟨next, ahead⟩ _ ⟨rfl, hahead, -⟩
  dsimp only
  rw [Token.isPunct_spelled, ← hahead]
  split
  · have hspell : l.words.spell id = d.name := by
      rw [Names.spell, hid]
      rfl
    rw [← hspell]
    exact .fault (e := .bitField id) fun i hi => ⟨d.name, Option.some.inj hi ▸ hid⟩
  · refine (agrees_nextIf '=' ahead).bind ?_
    rintro ⟨sign, rest⟩ _ rfl
    refine (agrees_skipValue sign.isSome rest).bind ?_
    rintro rest _ rfl
    rw [hear_bind]
    refine (agrees_peek rest).bind ?_
    rintro ⟨last, ahead⟩ _ ⟨rfl, hahead, -⟩
    rw [← hahead]
    exact spoken (x := ⟨_, some id⟩) fun i hi => ⟨d.name, rfl, Option.some.inj hi ▸ hid⟩

/-- What follows a declarator: the body of a function at file scope, another declarator, or
the end of the declaration. -/
def stepTail (typedef function : Bool) (stack : List Specifiers) (s : TokenStream l) :
    Except (Fault NameId) (StreamTurn l) := do
  let (t, s) ← s.peek
  if stack.isEmpty && function && t.isPunct '{' then
    let rest ← s.take.skipBalanced '{' '}' 0
    .ok (.goOn none .declaration stack rest)
  else if t.isPunct ',' then
    .ok (.goOn none (.declarator typedef) stack s.take)
  else
    let rest ← s.mustBe ';'
    .ok (.goOn none .declaration stack rest)

theorem agrees_stepTail (typedef function : Bool) (stack : List Specifiers) (s : TokenStream l) :
    Agrees l StreamTurn.Matches (s.stepTail typedef function stack)
      (TypeLayout.stepTail l.plainEnding typedef function stack s.tokens) := by
  unfold stepTail
  rcases s.peek_cases with ⟨t, s', hpeek, -, -, htokens, hcons, -⟩ |
    ⟨t, s', hpeek, heof, hending, hnil, hnil'⟩ | ⟨f, hpeek, hending, hknown, hnil⟩ <;> rw [hpeek]
  · rw [ok_bind, hcons, stepTail_cons, Token.isPunct_spelled, Token.isPunct_spelled]
    dsimp only
    split
    · refine (agrees_skipBalanced '{' '}' 0 s'.take).bind ?_
      rintro rest _ rfl
      exact silent
    · split
      · exact silent
      · rw [← hcons, ← htokens]
        refine (agrees_mustBe ';' s').bind ?_
        rintro rest _ rfl
        exact silent
  · have hend := agrees_mustBe ';' s'
    rw [hnil', expectPunct, hending] at hend
    simp only [ok_bind, t.isPunct_of_isEof heof, Bool.and_false, Bool.false_eq_true, if_false, hnil,
      TypeLayout.stepTail, hending]
    refine hend.bind (h := fun rest => .ok (.goOn none .declaration stack rest)) ?_
    rintro rest _ rfl
    exact silent
  · rw [hnil, TypeLayout.stepTail, hending]
    exact .error hknown

/-- One step of the reader. -/
def step (place : Place) (stack : List Specifiers) (s : TokenStream l) :
    Except (Fault NameId) (StreamTurn l) :=
  match place with
  | .declaration => s.stepDeclaration stack
  | .specifiers sp => s.stepSpecifiers sp stack
  | .declarator typedef => s.stepDeclarator join typedef stack
  | .tail typedef function => s.stepTail typedef function stack

/-- **A step does the same on both sides.** -/
theorem agrees_step (place : Place) (stack : List Specifiers) (s : TokenStream l) :
    Agrees l StreamTurn.Matches (s.step join place stack)
      (TypeLayout.step l.plainEnding place stack s.tokens) := by
  cases place with
  | declaration => exact agrees_stepDeclaration stack s
  | specifiers sp => exact agrees_stepSpecifiers sp stack s
  | declarator typedef => exact agrees_stepDeclarator join typedef stack s
  | tail typedef function => exact agrees_stepTail typedef function stack s

end TokenStream

/-! ### The whole source -/

/-- What was heard: the clauses in order, and how listening ended, with the number of
declarations at file scope if it came to the end. -/
structure Hearing where
  told : List Told
  outcome : Except (Fault NameId) Nat

namespace TokenStream

variable {l : Lexed} (join : Joining)

/-- Reads from a place to the end of the source or to the first fault. -/
def readFrom (place : Place) (stack : List Specifiers) (s : TokenStream l) : Hearing :=
  match _h : s.step join place stack with
  | .error f => ⟨[], .error f⟩
  | .ok .finished => ⟨[], .ok 0⟩
  | .ok (.goOn told place' stack' rest) =>
    let more := readFrom place' stack' rest
    ⟨told.toList ++ more.told, more.outcome.map (· + completes place' stack')⟩
termination_by 4 * s.tokens.length + place.rank
decreasing_by
  have := place'.rank_le
  obtain ⟨_, hplain, hmatches⟩ := (agrees_step join place stack s).exists_ok _h
  cases hmatches
  rcases step_progress hplain with hl | ⟨hl, hr⟩ <;> omega

/-- **All that is read is read on both sides**, whatever is held and however tokens would be
joined, and the words of the clauses are their names. -/
theorem agrees_readFrom (place : Place) (stack : List Specifiers) (s : TokenStream l) :
    let heard := s.readFrom join place stack
    let plain := TypeLayout.readFrom l.plainEnding place stack s.tokens
    heard.told.map Told.heard = plain.heard ∧ (∀ x ∈ heard.told, x.Right l.words) ∧
      Agrees l Eq heard.outcome plain.outcome := by
  intro heard plain
  simp only [heard, plain]
  fun_induction readFrom join place stack s with
  | case1 place stack s f h =>
    obtain ⟨hplain, hknown⟩ := (agrees_step join place stack s).eq_error h
    rw [readFrom_eq, hplain]
    exact ⟨rfl, by simp, .error hknown⟩
  | case2 place stack s h =>
    obtain ⟨_, hplain, hmatches⟩ := (agrees_step join place stack s).exists_ok h
    cases hmatches
    rw [readFrom_eq, hplain]
    exact ⟨rfl, by simp, .ok rfl⟩
  | case3 place stack s told place' stack' rest h more ih =>
    obtain ⟨_, hplain, hmatches⟩ := (agrees_step join place stack s).exists_ok h
    cases hmatches with
    | goOn hright =>
    obtain ⟨hheard, hwords, houtcome⟩ := ih
    rw [readFrom_eq, hplain]
    refine ⟨?_, ?_, houtcome.map fun _ _ h => by rw [h]⟩
    · rw [List.map_append, hheard]
      cases told <;> rfl
    · intro x hx
      rcases List.mem_append.mp hx with hx | hx
      · exact hright x (Option.mem_toList.mp hx)
      · exact hwords x hx

end TokenStream

end TypeLayout
