import TypeLayout.Token.Scanner

/-!
# The words of a source

The readers of declarations do not see the texts of tokens. When a source is divided into
tokens, their texts are interned one after the other in a table of its own, the *words* of the
source, and a token holds the position of its text. What was found is kept together as a
`Lexed` source: whatever its tokens hold can be spelled, and their end is marked by a token
of its own.
-/

namespace TypeLayout

namespace Lexeme

variable {words later : Names}

/-- A text is in a table of words. -/
def Known (words : Names) (l : Lexeme NameId) : Prop :=
  ∀ id, l.text? = some id → ∃ x, words.get? id = some x

theorem extends_intern (l : Lexeme String) (words : Names) : words.Extends (l.intern words).2 := by
  cases l with
  | punct | eof => exact .refl words
  | _ => exact words.extends_insert _

/-- An interned lexeme is known from then on, and has its text. -/
theorem known_intern (l : Lexeme String) (h : (l.intern words).2.Extends later) :
    (l.intern words).1.Known later ∧ (l.intern words).1.map later.spell = l := by
  have hget (x : String) (hx : (words.insert x).2.Extends later) :
      later.get? (words.insert x).1 = some x := hx _ _ (words.get?_insert x)
  cases l with
  | identifier | number | stringLiteral | charLiteral =>
    have hs := hget _ h
    refine ⟨fun id hid => ?_, by simp [intern, map, Names.spell, hs]⟩
    obtain rfl := Option.some.inj hid
    exact ⟨_, hs⟩
  | punct | eof => exact ⟨fun _ hid => (by cases hid), rfl⟩

end Lexeme

namespace Token

/-- The token with its text interned. -/
def intern (words : Names) (t : Token) : Token NameId × Names :=
  let (lexeme, words) := t.lexeme.intern words
  (⟨t.line, lexeme, t.after⟩, words)

/-- The token with its text spelled. -/
def spelled (words : Names) (t : Token NameId) : Token :=
  ⟨t.line, t.lexeme.map words.spell, t.after⟩

/-- Interns the texts of tokens in their order. -/
def internAll (words : Names) : List Token → List (Token NameId) × Names
  | [] => ([], words)
  | t :: ts =>
    let (t, words) := t.intern words
    let (ts, words) := internAll words ts
    (t :: ts, words)

theorem extends_internAll (words : Names) (ts : List Token) :
    words.Extends (internAll words ts).2 := by
  induction ts generalizing words with
  | nil => exact .refl words
  | cons t ts ih => exact (t.lexeme.extends_intern words).trans (ih _)

/-- **The texts of all tokens can be spelled** once the last one has been interned. -/
theorem known_internAll (words : Names) (ts : List Token) :
    (∀ t ∈ (internAll words ts).1, t.lexeme.Known (internAll words ts).2) ∧
      (internAll words ts).1.map (spelled (internAll words ts).2) = ts := by
  induction ts generalizing words with
  | nil => simp [internAll]
  | cons t ts ih =>
    obtain ⟨hknown, hspelled⟩ := ih (t.intern words).2
    have ht := t.lexeme.known_intern (extends_internAll (t.intern words).2 ts)
    have hsame : (t.intern words).1.spelled (internAll (t.intern words).2 ts).2 = t :=
      congrArg (fun lexeme => (⟨t.line, lexeme, t.after⟩ : Token)) ht.2
    exact ⟨List.forall_mem_cons.mpr ⟨ht.1, hknown⟩, congr (congrArg List.cons hsame) hspelled⟩

end Token

/-- A source divided into tokens, and the words that they hold. -/
structure Lexed where
  tokens : List (Token NameId)
  /-- What comes after the tokens. -/
  ending : Except LexFault Token
  words : Names
  known : ∀ t ∈ tokens, t.lexeme.Known words
  inner : ∀ t ∈ tokens, t.lexeme ≠ .eof
  ends : ∀ t, ending = .ok t → t.lexeme = .eof

/-- The tokens with their texts. -/
def Lexed.spelled (l : Lexed) : Scan := ⟨l.tokens.map (Token.spelled l.words), l.ending⟩

/-- The end of the source is the token after all others. -/
theorem eof_scan (c : Cursor) : (∀ t ∈ (scan c).tokens, t.lexeme ≠ .eof) ∧
    ∀ t, (scan c).ending = .ok t → t.lexeme = .eof := by
  fun_induction scan c with
  | case1 => simp
  | case2 c t ht hend => simp [hend]
  | case3 c t ht hend more ih => exact ⟨List.forall_mem_cons.mpr ⟨hend, ih.1⟩, ih.2⟩

/-- Divides a source into tokens and interns their texts. -/
def lex (c : Cursor) : Lexed :=
  let scanned := scan c
  let interned := Token.internAll {} scanned.tokens
  { tokens := interned.1
    ending := scanned.ending
    words := interned.2
    known := (Token.known_internAll {} scanned.tokens).1
    inner := fun t ht heof => by
      have hmem := List.mem_map_of_mem (f := Token.spelled interned.2) ht
      rw [(Token.known_internAll {} scanned.tokens).2] at hmem
      exact (eof_scan c).1 _ hmem (by rw [Token.spelled, heof]; rfl)
    ends := (eof_scan c).2 }

theorem spelled_lex (c : Cursor) : (lex c).spelled = scan c := by
  rw [Lexed.spelled, lex, (Token.known_internAll {} (scan c).tokens).2]

end TypeLayout
