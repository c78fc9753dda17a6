import TypeLayout.Declaration.Error
import TypeLayout.Declaration.Keyword
import TypeLayout.Token.Scanner

/-!
# Reading declarations with one token of lookahead

Declarations are read from a list of tokens. What comes after the list, its
`Ending`, is the end of the source or a token that could not be read; it only
matters once it is looked at, so a fault in the text is reported after any error in
the declarations before it.

A fault remembers how far the source had been looked at when it arose: just past
the last token that was read, lookahead included. The skipping functions of this
module pass over what cannot change a layout, and each returns what is left of the
list.
-/

namespace TypeLayout

/-- What ends the reading of declarations. -/
inductive ReadError (ν : Type := String) where
  | lexical (e : LexError)
  | grammar (e : ParseError ν)
deriving DecidableEq, Repr

/-- An error with its line and the place up to which the source was looked at. -/
structure Fault (ν : Type := String) where
  line : Nat
  error : ReadError ν
  seen : Cursor
deriving DecidableEq, Repr

/-- What stands after a list of tokens: the end of the source, as a token, or a
fault in its text. -/
abbrev Ending := Except Fault Token

/-- The ending of a scanned source. -/
def Ending.ofScan (s : Scan) : Ending :=
  match s.ending with
  | .ok t => .ok t
  | .error f => .error ⟨f.line, .lexical f.error, f.after⟩

namespace Token

variable {τ : Type}

/-- An error that arises when this token is the last one looked at. -/
def fault (t : Token τ) (line : Nat) (e : ParseError τ) : Fault τ := ⟨line, .grammar e, t.after⟩

/-- How many brackets of one kind are open after a token, if `depth` are open
before it. -/
def nesting (left right : Char) (t : Token τ) (depth : Nat) : Nat :=
  if t.isPunct left then depth + 1 else if t.isPunct right then depth - 1 else depth

/-- How many brackets of any kind are open after a token of an initializer, unless it ends
in front of the token. -/
def valueDepth? (t : Token τ) (depth : Nat) : Option Nat :=
  match t.lexeme with
  | .punct c =>
    if c = '(' ∨ c = '[' ∨ c = '{' then some (depth + 1)
    else if c = ')' ∨ c = ']' ∨ c = '}' then some (depth - 1)
    else if (c = ',' ∨ c = ';') ∧ depth = 0 then none
    else some depth
  | _ => some depth

/-- The keyword that a token is. -/
def keyword? (t : Token) : Option Keyword :=
  match t.lexeme with
  | .identifier s => Keyword.of? s
  | _ => none

end Token

section

variable {t : Token}

theorem keyword?_of_lexeme {name : String} (ht : t.lexeme = .identifier name) :
    t.keyword? = Keyword.of? name := by
  rw [Token.keyword?, ht]

/-- A keyword is an identifier. -/
theorem exists_word_of_keyword? {k : Keyword} (h : t.keyword? = some k) :
    ∃ word, t.lexeme = .identifier word ∧ Keyword.of? word = some k := by
  unfold Token.keyword? at h
  split at h
  · rename_i word hword
    exact ⟨word, hword, h⟩
  · cases h

theorem isPunct_of_keyword? {k : Keyword} (h : t.keyword? = some k) (c : Char) :
    t.isPunct c = false := by
  obtain ⟨word, hword, -⟩ := exists_word_of_keyword? h
  simp only [Token.isPunct, hword, Lexeme.isPunct]

/-- A token is at most one of two brackets. -/
theorem isPunct_eq_false_of_ne {x y : Char} (hne : x ≠ y) (h : t.isPunct x = true) :
    t.isPunct y = false := by
  unfold Token.isPunct Lexeme.isPunct at h ⊢
  split
  · rename_i d hd
    rw [hd] at h
    rw [eq_of_beq h]
    exact beq_false_of_ne hne
  · rfl

end

/-- A sequence of two steps succeeds only if both do. -/
theorem exists_of_bind_eq_ok {α β : Type} {x : Except Fault α} {f : α → Except Fault β} {b : β}
    (h : x >>= f = .ok b) : ∃ a, x = .ok a ∧ f a = .ok b := by
  cases x with
  | error fault => simp [bind, Except.bind] at h
  | ok a => exact ⟨a, rfl, h⟩

theorem ok_bind {ε α β : Type} (a : α) (f : α → Except ε β) : (Except.ok a >>= f) = f a := rfl

section

variable (e : Ending)

/-- The next token, without taking it. -/
def peek : List Token → Ending
  | [] => e
  | t :: _ => .ok t

/-- The error of a source that ends too early. -/
def failAtEnd {α : Type} : Except Fault α :=
  match e with
  | .error f => .error f
  | .ok t => .error (t.fault t.line .unexpectedEof)

variable {e} in
theorem failAtEnd_ne_ok {α : Type} {a : α} : (failAtEnd e : Except Fault α) ≠ .ok a := by
  unfold failAtEnd
  split <;> simp

/-- Takes the given punctuation character. -/
def expectPunct (c : Char) : List Token → Except Fault (List Token)
  | [] => failAtEnd e
  | t :: ts => if t.isPunct c then .ok ts else .error (t.fault t.line (.expected c t.lexeme))

/-- Takes the given punctuation character if it comes next. -/
def takePunct (c : Char) : List Token → Except Fault (Bool × List Token)
  | [] => e.map fun _ => (false, [])
  | t :: ts => .ok (if t.isPunct c then (true, ts) else (false, t :: ts))

/-- Takes an identifier if one comes next. -/
def takeIdentifier (ts : List Token) : Except Fault (Option String × List Token) :=
  match ts with
  | [] => e.map fun _ => (none, [])
  | t :: rest =>
    match t.lexeme with
    | .identifier s => .ok (some s, rest)
    | _ => .ok (none, ts)

/-- Skips up to and over the closing character that matches an opening one which
has been read; `depth` counts the further ones that are open. -/
def skipBalanced (left right : Char) : Nat → List Token → Except Fault (List Token)
  | _, [] => failAtEnd e
  | depth, t :: ts =>
    if t.isPunct right ∧ depth = 0 then .ok ts
    else skipBalanced left right (t.nesting left right depth) ts

/-- Skips the group that may follow an extension word. -/
def skipGroup : List Token → Except Fault (List Token)
  | [] => e.map fun _ => []
  | t :: ts => if t.isPunct '(' then skipBalanced e '(' ')' 0 ts else .ok (t :: ts)

theorem skipGroup_eq (ts : List Token) : skipGroup e ts = takePunct e '(' ts >>= fun r =>
    if r.1 then skipBalanced e '(' ')' 0 r.2 else .ok r.2 := by
  cases ts with
  | nil => cases e <;> rfl
  | cons t ts =>
    simp only [skipGroup, takePunct]
    split <;> rfl

theorem length_skipBalanced {left right : Char} {depth : Nat} {ts rest : List Token}
    (h : skipBalanced e left right depth ts = .ok rest) : rest.length < ts.length := by
  fun_induction skipBalanced e left right depth ts with
  | case1 => exact absurd h failAtEnd_ne_ok
  | case2 => simp_all
  | case3 _ _ _ _ ih => have := ih h; simp only [List.length_cons]; omega

theorem length_skipGroup {ts rest : List Token} (h : skipGroup e ts = .ok rest) :
    rest.length ≤ ts.length := by
  unfold skipGroup at h
  split at h
  · cases e <;> simp_all [Except.map]
  · split at h
    · have := length_skipBalanced e h
      simp only [List.length_cons]
      omega
    · simp_all

/-- Skips qualifiers and extension words with their groups. -/
def skipNoise (ts : List Token) : Except Fault (List Token) :=
  match ts with
  | [] => e.map fun _ => []
  | t :: rest =>
    match t.keyword? with
    | some .qualifier => skipNoise rest
    | some .extension =>
      match _h : skipGroup e rest with
      | .error f => .error f
      | .ok more => skipNoise more
    | _ => .ok (t :: rest)
termination_by ts.length
decreasing_by
  · simp
  · have := length_skipGroup e _h
    simp only [List.length_cons]
    omega

theorem length_skipNoise {ts rest : List Token} (h : skipNoise e ts = .ok rest) :
    rest.length ≤ ts.length := by
  fun_induction skipNoise e ts with
  | case1 => cases e <;> simp_all [Except.map]
  | case2 _ _ _ ih => have := ih h; simp only [List.length_cons]; omega
  | case3 => simp at h
  | case4 _ _ _ _ hg ih =>
    have := ih h
    have := length_skipGroup e hg
    simp only [List.length_cons]
    omega
  | case5 => simp_all

/-- Skips an initializer up to the comma or semicolon that ends it. Brackets of any
kind nest, whether or not they match. -/
def skipInitializer : Nat → List Token → Except Fault (List Token)
  | _, [] => failAtEnd e
  | depth, t :: ts =>
    match t.lexeme with
    | .punct c =>
      if c = '(' ∨ c = '[' ∨ c = '{' then skipInitializer (depth + 1) ts
      else if c = ')' ∨ c = ']' ∨ c = '}' then skipInitializer (depth - 1) ts
      else if (c = ',' ∨ c = ';') ∧ depth = 0 then .ok (t :: ts)
      else skipInitializer depth ts
    | _ => skipInitializer depth ts

theorem skipInitializer_cons (depth : Nat) (t : Token) (ts : List Token) :
    skipInitializer e depth (t :: ts) = match t.valueDepth? depth with
      | none => .ok (t :: ts)
      | some depth => skipInitializer e depth ts := by
  rw [skipInitializer, Token.valueDepth?]
  cases t.lexeme with
  | punct c =>
    dsimp only
    split
    · rfl
    · split
      · rfl
      · split <;> rfl
  | _ => rfl

theorem length_skipInitializer {depth : Nat} {ts rest : List Token}
    (h : skipInitializer e depth ts = .ok rest) : rest.length ≤ ts.length := by
  fun_induction skipInitializer e depth ts with
  | case1 => exact absurd h failAtEnd_ne_ok
  | case4 => simp_all
  | _ => rename_i ih; have := ih h; simp only [List.length_cons]; omega

theorem length_expectPunct {c : Char} {ts rest : List Token} (h : expectPunct e c ts = .ok rest) :
    rest.length < ts.length := by
  unfold expectPunct at h
  split at h
  · exact absurd h failAtEnd_ne_ok
  · split at h <;> simp_all

theorem length_takePunct {c : Char} {b : Bool} {ts rest : List Token}
    (h : takePunct e c ts = .ok (b, rest)) : rest.length ≤ ts.length := by
  unfold takePunct at h
  split at h
  · cases e <;> simp_all [Except.map]
  · split at h <;> simp_all

theorem length_takeIdentifier {s : Option String} {ts rest : List Token}
    (h : takeIdentifier e ts = .ok (s, rest)) : rest.length ≤ ts.length := by
  unfold takeIdentifier at h
  split at h
  · cases e <;> simp_all [Except.map]
  · split at h
    · obtain ⟨-, rfl⟩ : some _ = s ∧ _ = rest := by simpa using h
      simp
    · simp_all

end

end TypeLayout
