import TypeLayout.Declaration.Reader
import TypeLayout.Token.Lexer

/-!
# Tokens with one of lookahead

A `TokenStream` gives the tokens of a source one after the other. Looking at the next token
takes it from the lexer and holds it, so a stream is in one of two states, and the place
where the lexer stands is the place behind the last token that was taken only while nothing
is held (`TokenStream.position?`).

All that counts are the tokens that are still to come, with their texts
(`TokenStream.tokens`): whatever is held, each function here does on a stream what the
function of the same purpose does on that list (`Agrees`). Errors hold words, as the tokens
they are about do; to agree on an error is also to say that its word can be spelled.
-/

namespace TypeLayout

namespace Fault

/-- The fault with the name in it spelled. -/
def spelled (words : Names) (f : Fault NameId) : Fault where
  line := f.line
  error := match f.error with
    | .lexical e => .lexical e
    | .grammar e => .grammar (e.map words.spell)
  seen := f.seen

/-- The name in a fault is in a table of words. -/
def Known (words : Names) (f : Fault NameId) : Prop :=
  ∀ e id, f.error = .grammar e → e.name? = some id → ∃ x, words.get? id = some x

end Fault

/-- What comes after the tokens of a source: the end as a token, or a fault in the text. -/
def Lexed.last (l : Lexed) : Except (Fault NameId) (Token NameId) :=
  match l.ending with
  | .error f => .error ⟨f.line, .lexical f.error, f.after⟩
  | .ok t => .ok ⟨t.line, .eof, t.after⟩

/-- The same after the tokens with their texts. -/
def Lexed.plainEnding (l : Lexed) : Ending := .ofScan l.spelled

/-- The keyword that a token is. -/
def Lexed.keyword? (l : Lexed) (t : Token NameId) : Option Keyword :=
  match t.lexeme with
  | .identifier id => Keyword.of? (l.words.spell id)
  | _ => none

/-- Gives the tokens of a source. -/
structure Lexer (l : Lexed) where
  /-- Where the lexer stands: past the token it has given last. -/
  place : Cursor
  /-- The tokens that it has still to give. -/
  ahead : List (Token NameId)
  suffix : ahead <:+ l.tokens

variable {l : Lexed} {t : Token NameId} {f : Fault NameId}

namespace Lexer

variable {x y : Lexer l}

/-- The next token. The end of the source is given again and again. -/
def next (x : Lexer l) : Except (Fault NameId) (Token NameId × Lexer l) :=
  match h : x.ahead with
  | t :: ts => .ok (t, ⟨t.after, ts, (List.suffix_cons t ts).trans (h ▸ x.suffix)⟩)
  | [] => l.last.map fun t => (t, { x with place := t.after })

/-- A token that the lexer has given last. -/
def Gave (x : Lexer l) (t : Token NameId) : Prop :=
  x.place = t.after ∧ (t ∈ l.tokens ∨ l.last = .ok t ∧ x.ahead = [])

theorem next_ok (h : x.next = .ok (t, y)) :
    y.Gave t ∧ (x.ahead = t :: y.ahead ∧ t ∈ l.tokens ∨ x.ahead = [] ∧ l.last = .ok t) := by
  unfold next at h
  split at h
  · rename_i heq
    obtain ⟨rfl, rfl⟩ := Prod.mk.inj (Except.ok.inj h)
    have hmem := x.suffix.subset (heq ▸ List.mem_cons_self)
    exact ⟨⟨rfl, .inl hmem⟩, .inl ⟨heq, hmem⟩⟩
  · rename_i heq
    cases hlast : l.last with
    | error f => simp [hlast, Except.map] at h
    | ok u =>
      rw [hlast] at h
      obtain ⟨rfl, rfl⟩ := Prod.mk.inj (Except.ok.inj h)
      exact ⟨⟨rfl, .inr ⟨hlast, heq⟩⟩, .inr ⟨heq, rfl⟩⟩

theorem next_error (h : x.next = .error f) : l.last = .error f ∧ x.ahead = [] := by
  unfold next at h
  split at h
  · cases h
  · rename_i heq
    cases hlast : l.last with
    | error g =>
      rw [hlast] at h
      exact ⟨congrArg Except.error (Except.error.inj h), heq⟩
    | ok u => simp [hlast, Except.map] at h

end Lexer

/-- A lexer, and the token that has been looked at and not taken. -/
structure TokenStream (l : Lexed) where
  lexer : Lexer l
  held : Option (Token NameId) := none
  gave : ∀ t, held = some t → lexer.Gave t := by simp

namespace TokenStream

variable {s s' : TokenStream l}

/-- The stream of all tokens of a source that starts at a place. -/
def ofLexed (l : Lexed) (start : Cursor) : TokenStream l where
  lexer := ⟨start, l.tokens, List.suffix_refl _⟩

/-- Looks at the next token, and holds it. -/
def peek (s : TokenStream l) : Except (Fault NameId) (Token NameId × TokenStream l) :=
  match s.held with
  | some t => .ok (t, s)
  | none =>
    match h : s.lexer.next with
    | .error f => .error f
    | .ok (t, lexer) =>
      .ok (t, ⟨lexer, some t, fun _ ht => Option.some.inj ht ▸ (Lexer.next_ok h).1⟩)

/-- Takes the token that has been looked at. -/
def take (s : TokenStream l) : TokenStream l := { lexer := s.lexer }

/-- Takes the next token. -/
def next (s : TokenStream l) : Except (Fault NameId) (Token NameId × TokenStream l) :=
  match s.held with
  | some t => .ok (t, s.take)
  | none => s.lexer.next.map fun (t, lexer) => (t, { lexer })

/-- Where the next token is looked for. This is not known while a token is held, since the
lexer has then moved past it. -/
def position? (s : TokenStream l) : Option Cursor :=
  match s.held with
  | some _ => none
  | none => some s.lexer.place

/-- Takes the next token if it has a property, which the end of the source never has. -/
def nextIf (p : Token NameId → Bool) (s : TokenStream l) :
    Except (Fault NameId) (Option (Token NameId) × TokenStream l) :=
  s.peek.map fun (t, s) => if !t.isEof && p t then (some t, s.take) else (none, s)

/-! ### What is still to come -/

/-- The tokens that are still to come, with their texts. -/
def tokens (s : TokenStream l) : List Token :=
  (s.held.toList.filter (!·.isEof) ++ s.lexer.ahead).map (Token.spelled l.words)

theorem isEof_of_mem (h : t ∈ l.tokens) : t.isEof = false :=
  beq_false_of_ne (l.inner t h)

theorem isEof_of_last (h : l.last = .ok t) : t.isEof = true := by
  unfold Lexed.last at h
  split at h
  · cases h
  · obtain rfl := Except.ok.inj h
    rfl

/-- The end of the source is the same for the tokens with their texts. -/
theorem plainEnding_of_ok (h : l.last = .ok t) : l.plainEnding = .ok (t.spelled l.words) := by
  unfold Lexed.last at h
  split at h
  · cases h
  · rename_i u hu
    obtain rfl := Except.ok.inj h
    rw [Lexed.plainEnding, Ending.ofScan, Lexed.spelled, hu]
    simp [Token.spelled, Lexeme.map, ← l.ends u hu]

/-- So is a fault in the text, which has no name in it. -/
theorem plainEnding_of_error (h : l.last = .error f) :
    l.plainEnding = .error (f.spelled l.words) ∧ f.Known l.words := by
  unfold Lexed.last at h
  split at h
  · rename_i g hg
    obtain rfl := Except.error.inj h
    rw [Lexed.plainEnding, Ending.ofScan, Lexed.spelled, hg]
    exact ⟨rfl, fun _ _ he => by cases he⟩
  · cases h

/-- **What is held** comes first, and its place is known once it has been taken. -/
theorem tokens_of_held (h : s.held = some t) (ht : t.isEof = false) :
    t ∈ l.tokens ∧ s.tokens = t.spelled l.words :: s.take.tokens ∧
      s.take.position? = some t.after := by
  obtain ⟨hplace, hmem | ⟨hlast, -⟩⟩ := s.gave t h
  · exact ⟨hmem, by simp [tokens, take, h, ht], congrArg some hplace⟩
  · exact absurd (isEof_of_last hlast) (by simp [ht])

/-- Behind the end of the source there is nothing. -/
theorem tokens_of_eof (h : s.held = some t) (ht : t.isEof = true) :
    l.last = .ok t ∧ s.tokens = [] := by
  obtain ⟨-, hmem | ⟨hlast, hnil⟩⟩ := s.gave t h
  · exact absurd ht (by simp [isEof_of_mem hmem])
  · exact ⟨hlast, by simp [tokens, h, ht, hnil]⟩

/-- **Looking ahead** changes nothing about what is still to come. -/
theorem peek_ok (h : s.peek = .ok (t, s')) : s'.held = some t ∧ s'.tokens = s.tokens := by
  unfold peek at h
  split at h
  · rename_i hheld
    obtain ⟨rfl, rfl⟩ := Prod.mk.inj (Except.ok.inj h)
    exact ⟨hheld, rfl⟩
  · rename_i hheld
    split at h
    · cases h
    · rename_i u lexer hnext
      obtain ⟨rfl, rfl⟩ := Prod.mk.inj (Except.ok.inj h)
      refine ⟨rfl, ?_⟩
      obtain ⟨⟨-, hgave⟩, ⟨hahead, hmem⟩ | ⟨hnil, hlast⟩⟩ := Lexer.next_ok hnext
      · simp [tokens, hheld, hahead, isEof_of_mem hmem]
      · rcases hgave with hmem | ⟨-, hnil'⟩
        · exact absurd (isEof_of_last hlast) (by simp [isEof_of_mem hmem])
        · simp [tokens, hheld, hnil, hnil', isEof_of_last hlast]

theorem peek_error (h : s.peek = .error f) : l.last = .error f ∧ s.tokens = [] := by
  unfold peek at h
  split at h
  · cases h
  · rename_i hheld
    split at h
    · rename_i hnext
      obtain rfl := Except.error.inj h
      obtain ⟨hlast, hnil⟩ := Lexer.next_error hnext
      exact ⟨hlast, by simp [tokens, hheld, hnil]⟩
    · cases h

/-- To take a token is to look at it first. -/
theorem next_eq (s : TokenStream l) : s.next = s.peek.map fun (t, s) => (t, s.take) := by
  unfold next peek
  split
  · rfl
  · split <;> rename_i h <;> simp only [h, Except.map] <;> rfl

theorem length_take (h : s.peek = .ok (t, s')) (ht : t.isEof = false) :
    s'.take.tokens.length < s.tokens.length := by
  obtain ⟨hheld, htokens⟩ := peek_ok h
  rw [← htokens, (tokens_of_held hheld ht).2.1]
  exact Nat.lt_succ_self _

theorem exists_peek_of_next (h : s.next = .ok (t, s')) :
    ∃ ahead, s.peek = .ok (t, ahead) ∧ s' = ahead.take := by
  rw [next_eq] at h
  rcases hpeek : s.peek with f | ⟨u, ahead⟩ <;> rw [hpeek] at h
  · cases h
  · obtain ⟨rfl, rfl⟩ := Prod.mk.inj (Except.ok.inj h)
    exact ⟨ahead, rfl, rfl⟩

end TokenStream

/-! ### Agreement -/

section

@[simp] theorem Token.isPunct_spelled (c : Char) : (t.spelled l.words).isPunct c = t.isPunct c := by
  unfold Token.isPunct Token.spelled
  cases t.lexeme <;> rfl

@[simp] theorem Token.nesting_spelled (left right : Char) (depth : Nat) :
    (t.spelled l.words).nesting left right depth = t.nesting left right depth := by
  simp only [Token.nesting, isPunct_spelled]

@[simp] theorem Token.valueDepth?_spelled (depth : Nat) :
    (t.spelled l.words).valueDepth? depth = t.valueDepth? depth := by
  unfold Token.valueDepth? Token.spelled
  cases t.lexeme <;> rfl

@[simp] theorem Token.keyword?_spelled : (t.spelled l.words).keyword? = l.keyword? t := by
  unfold Token.keyword? Lexed.keyword? Token.spelled
  cases t.lexeme <;> rfl

@[simp] theorem Token.isEof_spelled : (t.spelled l.words).isEof = t.isEof := by
  unfold Token.isEof Token.spelled
  cases t.lexeme <;> rfl

theorem Token.isPunct_of_isEof (h : t.isEof = true) (c : Char) : t.isPunct c = false := by
  rw [Token.isPunct, eq_of_beq h]
  rfl

theorem isEof_of_keyword? {k : Keyword} (h : l.keyword? t = some k) : t.isEof = false := by
  cases heof : t.isEof with
  | false => rfl
  | true =>
    rw [Lexed.keyword?, show t.lexeme = .eof from eq_of_beq heof] at h
    cases h

/-- **Doing the same**: with results that are related, or with the same error, whose name can
be spelled. -/
inductive Agrees (l : Lexed) {α β : Type} (R : α → β → Prop) :
    Except (Fault NameId) α → Except Fault β → Prop
  | ok {a : α} {b : β} (h : R a b) : Agrees l R (.ok a) (.ok b)
  | error {f : Fault NameId} (h : f.Known l.words) :
    Agrees l R (.error f) (.error (f.spelled l.words))

namespace Agrees

variable {α β γ δ : Type} {R : α → β → Prop} {Q : γ → δ → Prop}
  {x : Except (Fault NameId) α} {y : Except Fault β}

theorem bind {g : α → Except (Fault NameId) γ} {h : β → Except Fault δ} (hxy : Agrees l R x y)
    (hgh : ∀ a b, R a b → Agrees l Q (g a) (h b)) : Agrees l Q (x >>= g) (y >>= h) := by
  cases hxy with
  | ok hab => exact hgh _ _ hab
  | error hf => exact .error hf

theorem map {g : α → γ} {h : β → δ} (hxy : Agrees l R x y)
    (hgh : ∀ a b, R a b → Q (g a) (h b)) : Agrees l Q (x.map g) (y.map h) := by
  cases hxy with
  | ok hab => exact .ok (hgh _ _ hab)
  | error hf => exact .error hf

theorem exists_ok {a : α} (h : Agrees l R x y) (hx : x = .ok a) : ∃ b, y = .ok b ∧ R a b := by
  cases h with
  | ok hab =>
    obtain rfl := Except.ok.inj hx
    exact ⟨_, rfl, hab⟩
  | error => cases hx

theorem eq_error (h : Agrees l R x y) (hx : x = .error f) :
    y = .error (f.spelled l.words) ∧ f.Known l.words := by
  cases h with
  | ok => cases hx
  | error hf =>
    obtain rfl := Except.error.inj hx
    exact ⟨rfl, hf⟩

/-- An error about a token, with a name that can be spelled. -/
theorem fault {line : Nat} {e : ParseError NameId}
    (h : ∀ id, e.name? = some id → ∃ x, l.words.get? id = some x) :
    Agrees l R (.error (t.fault line e))
      (.error ((t.spelled l.words).fault line (e.map l.words.spell))) := by
  refine .error (f := t.fault line e) fun e' id he hid => ?_
  obtain rfl := ReadError.grammar.inj he
  exact h id hid

end Agrees

end

namespace TokenStream

variable {s s' : TokenStream l}

/-- A token that is looked at comes first, and its place is known once it has been taken. -/
theorem peek_token (h : s.peek = .ok (t, s')) (ht : t.isEof = false) :
    t ∈ l.tokens ∧ s'.tokens = s.tokens ∧ s.tokens = t.spelled l.words :: s'.take.tokens ∧
      s'.take.position? = some t.after := by
  obtain ⟨hheld, htokens⟩ := peek_ok h
  obtain ⟨hmem, hcons, hposition⟩ := tokens_of_held hheld ht
  exact ⟨hmem, htokens, htokens ▸ hcons, hposition⟩

/-- In front of the end of the source there are no tokens, and none behind it. -/
theorem peek_eof (h : s.peek = .ok (t, s')) (ht : t.isEof = true) :
    l.plainEnding = .ok (t.spelled l.words) ∧ s.tokens = [] ∧ s'.tokens = [] := by
  obtain ⟨hheld, htokens⟩ := peek_ok h
  obtain ⟨hlast, hnil⟩ := tokens_of_eof hheld ht
  exact ⟨plainEnding_of_ok hlast, htokens ▸ hnil, hnil⟩

theorem peek_fault (h : s.peek = .error f) :
    l.plainEnding = .error (f.spelled l.words) ∧ f.Known l.words ∧ s.tokens = [] := by
  obtain ⟨hlast, hnil⟩ := peek_error h
  obtain ⟨hending, hknown⟩ := plainEnding_of_error hlast
  exact ⟨hending, hknown, hnil⟩

/-- **What is looked at on both sides**: a token in front of the others, the end of the source,
or a fault. -/
theorem peek_cases (s : TokenStream l) :
    (∃ t s', s.peek = .ok (t, s') ∧ t.isEof = false ∧ t ∈ l.tokens ∧ s'.tokens = s.tokens ∧
      s.tokens = t.spelled l.words :: s'.take.tokens ∧ s'.take.position? = some t.after) ∨
    (∃ t s', s.peek = .ok (t, s') ∧ t.isEof = true ∧ l.plainEnding = .ok (t.spelled l.words) ∧
      s.tokens = [] ∧ s'.tokens = []) ∨
    ∃ f, s.peek = .error f ∧ l.plainEnding = .error (f.spelled l.words) ∧ f.Known l.words ∧
      s.tokens = [] := by
  rcases h : s.peek with f | ⟨t, s'⟩
  · exact .inr (.inr ⟨f, rfl, peek_fault h⟩)
  · cases heof : t.isEof with
    | false => exact .inl ⟨t, s', rfl, heof, peek_token h heof⟩
    | true => exact .inr (.inl ⟨t, s', rfl, heof, peek_eof h heof⟩)

/-- The tokens on the other side are those that are still to come. -/
def Left (s : TokenStream l) (ts : List Token) : Prop := ts = s.tokens

/-- So they are beside a result. -/
def Gives {α : Type} (r : α × TokenStream l) (r' : α × List Token) : Prop :=
  r' = (r.1, r.2.tokens)

/-! ### Skipping -/

/-- Takes the given punctuation character. -/
def mustBe (c : Char) (s : TokenStream l) : Except (Fault NameId) (TokenStream l) := do
  let (t, s) ← s.next
  if t.isPunct c then .ok s
  else if t.isEof then .error (t.fault t.line .unexpectedEof)
  else .error (t.fault t.line (.expected c t.lexeme))

theorem agrees_mustBe (c : Char) (s : TokenStream l) :
    Agrees l Left (s.mustBe c) (expectPunct l.plainEnding c s.tokens) := by
  rw [mustBe, next_eq]
  rcases s.peek_cases with ⟨t, s', hpeek, heof, hmem, -, hcons, -⟩ |
    ⟨t, s', hpeek, heof, hending, hnil, -⟩ | ⟨f, hpeek, hending, hknown, hnil⟩
  · rw [hpeek, hcons, expectPunct, Token.isPunct_spelled]
    simp only [bind, Except.bind, Except.map, heof]
    split
    · exact .ok rfl
    · exact .fault (l.known t hmem)
  · rw [hpeek, hnil, expectPunct, hending]
    simp only [bind, Except.bind, Except.map, heof, t.isPunct_of_isEof heof]
    exact .fault (by simp [ParseError.name?])
  · rw [hpeek, hnil, expectPunct, hending]
    exact .error hknown

/-- Skips up to and over the closing character that matches an opening one which has been
taken; `depth` counts the further ones that are open. -/
def skipBalanced (left right : Char) (depth : Nat) (s : TokenStream l) :
    Except (Fault NameId) (TokenStream l) :=
  match _h : s.next with
  | .error f => .error f
  | .ok (t, rest) =>
    if _ht : t.isEof then .error (t.fault t.line .unexpectedEof)
    else if t.isPunct right ∧ depth = 0 then .ok rest
    else skipBalanced left right (t.nesting left right depth) rest
termination_by s.tokens.length
decreasing_by
  obtain ⟨ahead, hpeek, rfl⟩ := exists_peek_of_next _h
  exact length_take hpeek (Bool.eq_false_iff.mpr _ht)

theorem agrees_skipBalanced (left right : Char) (depth : Nat) (s : TokenStream l) :
    Agrees l Left (s.skipBalanced left right depth)
      (TypeLayout.skipBalanced l.plainEnding left right depth s.tokens) := by
  rcases s.peek_cases with ⟨t, s', hpeek, heof, hmem, -, hcons, -⟩ |
    ⟨t, s', hpeek, heof, hending, hnil, -⟩ | ⟨f, hpeek, hending, hknown, hnil⟩ <;>
    rw [skipBalanced, next_eq, hpeek]
  · have hless := length_take hpeek heof
    rw [hcons, TypeLayout.skipBalanced, Token.isPunct_spelled, Token.nesting_spelled]
    simp only [Except.map, heof, Bool.false_eq_true, dite_false]
    split
    · exact .ok rfl
    · exact agrees_skipBalanced left right _ s'.take
  · rw [hnil, TypeLayout.skipBalanced, hending]
    simp only [Except.map, heof]
    exact .fault (by simp [ParseError.name?])
  · rw [hnil, TypeLayout.skipBalanced, hending]
    exact .error hknown
termination_by s.tokens.length

theorem agrees_peek (s : TokenStream l) :
    Agrees l (fun r t => t = r.1.spelled l.words ∧ r.2.tokens = s.tokens ∧
      r.1.lexeme.Known l.words) s.peek (TypeLayout.peek l.plainEnding s.tokens) := by
  rcases s.peek_cases with ⟨t, s', hpeek, -, hmem, htokens, hcons, -⟩ |
    ⟨t, s', hpeek, heof, hending, hnil, hnil'⟩ | ⟨f, hpeek, hending, hknown, hnil⟩
  · rw [hpeek, hcons]
    exact .ok ⟨rfl, htokens.trans hcons, l.known t hmem⟩
  · rw [hpeek, hnil, TypeLayout.peek, hending]
    refine .ok ⟨rfl, hnil', fun id hid => ?_⟩
    rw [show t.lexeme = .eof from eq_of_beq heof] at hid
    cases hid
  · rw [hpeek, hnil, TypeLayout.peek, hending]
    exact .error hknown

theorem agrees_nextIf (c : Char) (s : TokenStream l) :
    Agrees l (fun r r' => r' = (r.1.isSome, r.2.tokens)) (s.nextIf (·.isPunct c))
      (takePunct l.plainEnding c s.tokens) := by
  unfold nextIf
  rcases s.peek_cases with ⟨t, s', hpeek, heof, -, htokens, hcons, -⟩ |
    ⟨t, s', hpeek, heof, hending, hnil, hnil'⟩ | ⟨f, hpeek, hending, hknown, hnil⟩
  · rw [hpeek, hcons, takePunct, Token.isPunct_spelled]
    refine .ok ?_
    simp only [heof, Bool.not_false, Bool.true_and]
    split
    · rfl
    · rw [htokens, hcons]
      rfl
  · rw [hpeek, hnil, takePunct, hending]
    exact .ok (by simp [heof, hnil'])
  · rw [hpeek, hnil, takePunct, hending]
    exact .error hknown

/-- Takes a name if one comes next. -/
def nextName (s : TokenStream l) : Except (Fault NameId) (Option String × TokenStream l) :=
  s.peek.map fun (t, s) =>
    match t.lexeme with
    | .identifier id => (some (l.words.spell id), s.take)
    | _ => (none, s)

theorem agrees_nextName (s : TokenStream l) :
    Agrees l Gives s.nextName (takeIdentifier l.plainEnding s.tokens) := by
  unfold nextName
  rcases s.peek_cases with ⟨t, s', hpeek, -, -, htokens, hcons, -⟩ |
    ⟨t, s', hpeek, heof, hending, hnil, hnil'⟩ | ⟨f, hpeek, hending, hknown, hnil⟩
  · rw [hpeek, hcons, takeIdentifier, ← hcons]
    simp only [Except.map, Token.spelled]
    cases t.lexeme <;> exact .ok (by simp [Gives, htokens])
  · rw [hpeek, hnil, takeIdentifier, hending]
    exact .ok (by simp [Gives, hnil', show t.lexeme = .eof from eq_of_beq heof])
  · rw [hpeek, hnil, takeIdentifier, hending]
    exact .error hknown

/-- Skips the group that may follow an extension word. -/
def skipGroup (s : TokenStream l) : Except (Fault NameId) (TokenStream l) := do
  let (bracket, s) ← s.nextIf (·.isPunct '(')
  if bracket.isSome then s.skipBalanced '(' ')' 0 else .ok s

theorem agrees_skipGroup (s : TokenStream l) :
    Agrees l Left s.skipGroup (TypeLayout.skipGroup l.plainEnding s.tokens) := by
  rw [skipGroup_eq]
  refine (agrees_nextIf '(' s).bind ?_
  rintro ⟨bracket, s⟩ _ rfl
  dsimp only
  split
  · exact agrees_skipBalanced '(' ')' 0 s
  · exact .ok rfl

/-- Skips qualifiers and extension words with their groups. -/
def skipNoise (s : TokenStream l) : Except (Fault NameId) (TokenStream l) :=
  match _h : s.peek with
  | .error f => .error f
  | .ok (t, ahead) =>
    match _hk : l.keyword? t with
    | some .qualifier => skipNoise ahead.take
    | some .extension =>
      match _hg : ahead.take.skipGroup with
      | .error f => .error f
      | .ok rest => skipNoise rest
    | _ => .ok ahead
termination_by s.tokens.length
decreasing_by
  · exact length_take _h (isEof_of_keyword? _hk)
  · obtain ⟨_, hplain, rfl⟩ := (agrees_skipGroup ahead.take).exists_ok _hg
    exact Nat.lt_of_le_of_lt (length_skipGroup _ hplain) (length_take _h (isEof_of_keyword? _hk))

theorem agrees_skipNoise (s : TokenStream l) :
    Agrees l Left s.skipNoise (TypeLayout.skipNoise l.plainEnding s.tokens) := by
  fun_induction skipNoise s with
  | case1 s f hpeek =>
    obtain ⟨hending, hknown, hnil⟩ := peek_fault hpeek
    rw [hnil, TypeLayout.skipNoise, hending]
    exact .error hknown
  | case2 s t ahead hpeek hk ih =>
    obtain ⟨-, -, hcons, -⟩ := peek_token hpeek (isEof_of_keyword? hk)
    rw [hcons, TypeLayout.skipNoise, Token.keyword?_spelled, hk]
    exact ih
  | case3 s t ahead hpeek hk f hgroup =>
    obtain ⟨-, -, hcons, -⟩ := peek_token hpeek (isEof_of_keyword? hk)
    obtain ⟨hplain, hknown⟩ := (agrees_skipGroup ahead.take).eq_error hgroup
    rw [hcons, TypeLayout.skipNoise, Token.keyword?_spelled, hk, hplain]
    exact .error hknown
  | case4 s t ahead hpeek hk rest hgroup ih =>
    obtain ⟨-, -, hcons, -⟩ := peek_token hpeek (isEof_of_keyword? hk)
    obtain ⟨_, hplain, rfl⟩ := (agrees_skipGroup ahead.take).exists_ok hgroup
    rw [hcons, TypeLayout.skipNoise, Token.keyword?_spelled, hk, hplain]
    exact ih
  | case5 s t ahead hpeek hq hw =>
    cases heof : t.isEof with
    | false =>
      obtain ⟨-, htokens, hcons, -⟩ := peek_token hpeek heof
      rw [hcons, TypeLayout.skipNoise, Token.keyword?_spelled]
      split
      · exact absurd ‹_› hq
      · exact absurd ‹_› hw
      · exact .ok (htokens.trans hcons).symm
    | true =>
      obtain ⟨hending, hnil, hnil'⟩ := peek_eof hpeek heof
      rw [hnil, TypeLayout.skipNoise, hending]
      exact .ok hnil'.symm

/-- Skips an initializer up to the comma or semicolon that ends it. -/
def skipInitializer (depth : Nat) (s : TokenStream l) : Except (Fault NameId) (TokenStream l) :=
  match _h : s.peek with
  | .error f => .error f
  | .ok (t, ahead) =>
    if _ht : t.isEof then .error (t.fault t.line .unexpectedEof)
    else
      match t.valueDepth? depth with
      | none => .ok ahead
      | some depth => skipInitializer depth ahead.take
termination_by s.tokens.length
decreasing_by exact length_take _h (Bool.eq_false_iff.mpr _ht)

theorem agrees_skipInitializer (depth : Nat) (s : TokenStream l) :
    Agrees l Left (s.skipInitializer depth)
      (TypeLayout.skipInitializer l.plainEnding depth s.tokens) := by
  fun_induction skipInitializer depth s with
  | case1 depth s f hpeek =>
    obtain ⟨hending, hknown, hnil⟩ := peek_fault hpeek
    rw [hnil, TypeLayout.skipInitializer, hending]
    exact .error hknown
  | case2 depth s t ahead hpeek heof =>
    obtain ⟨hending, hnil, -⟩ := peek_eof hpeek heof
    rw [hnil, TypeLayout.skipInitializer, hending]
    exact .fault (by simp [ParseError.name?])
  | case3 depth s t ahead hpeek heof hdepth =>
    obtain ⟨-, htokens, hcons, -⟩ := peek_token hpeek (Bool.eq_false_iff.mpr heof)
    rw [hcons, skipInitializer_cons, Token.valueDepth?_spelled, hdepth]
    exact .ok (htokens.trans hcons).symm
  | case4 depth s t ahead hpeek heof depth' hdepth ih =>
    obtain ⟨-, -, hcons, -⟩ := peek_token hpeek (Bool.eq_false_iff.mpr heof)
    rw [hcons, skipInitializer_cons, Token.valueDepth?_spelled, hdepth]
    exact ih

end TokenStream

end TypeLayout
