import Mathlib
import TypeLayout.Declaration.Clause

/-!
# Reading two lists of tokens side by side

A reader looks at lexemes, at lines only to pass them on, and at positions only to take the text
between two brackets. So two lists of tokens that match in these respects are read alike (`Sides`):
the same is read, some lines further down, and if reading fails it fails alike. The lists need not
match up to their ends. A reader looks at the tokens that it takes and at one more, so all goes well
as long as more tokens are left than those that do not match (`Sides.Past`).

This is shown once for each reader (`Sides.Alike`), and then for the steps (`step_alike`). That
tokens are taken from the front, that faults are those of the grammar or of the text, and that
declarations say the same wherever they stand are all cases of it.
-/

namespace TypeLayout

variable {c : Clause} {e : Ending} {rest : List Token} {α β : Type}

/-! ### Clauses further down -/

def Declarator.move (k : ℕ) (d : Declarator) : Declarator := { d with line := d.line + k }

/-- The same clause some lines further down. -/
def Clause.move (k : ℕ) : Clause → Clause
  | .openBody kind name line => .openBody kind name (line + k)
  | .closeBody => .closeBody
  | .tag kind name line => .tag kind name (line + k)
  | .enum name body line => .enum name body (line + k)
  | .base spelling unsigned line => .base spelling unsigned (line + k)
  | .named name line => .named name (line + k)
  | .declare d typedef => .declare (d.move k) typedef
  | .bare line => .bare (line + k)

/-- The names that a clause mentions. -/
def Clause.names : Clause → List String
  | .openBody _ name _ | .enum name _ _ => name.toList
  | .tag _ name _ | .named name _ => [name]
  | .declare d _ => [d.name]
  | .closeBody | .base .. | .bare _ => []

def Specifiers.move (k : ℕ) (s : Specifiers) : Specifiers := { s with line := s.line + k }

def Place.move (k : ℕ) : Place → Place
  | .specifiers s => .specifiers (s.move k)
  | place => place

/-! ### Lists that match -/

/-- Neither a group nor another suffix of a declarator comes next. -/
def NoSuffix (ts : List Token) : Prop :=
  ∃ t ∈ ts.head?, t.isPunct '[' = false ∧ t.isPunct '(' = false

/-- **Two readings side by side**: what ends the two lists of tokens, which tokens and which lists
match, and which faults do. -/
structure Sides where
  e : Ending
  e' : Ending
  /-- How many lines further down the second reading is. -/
  shift : ℕ
  rel : Token → Token → Prop
  stand : List Token → List Token → Prop
  blame : Fault → Fault → Prop
  /-- What is known of the identifiers. -/
  word : String → Prop
  /-- How many tokens are left where the lists cease to match, if they do. -/
  spare : Option ℕ
  lexeme {t t' : Token} : rel t t' → t'.lexeme = t.lexeme
  line {t t' : Token} : rel t t' → t'.line = t.line + shift
  text {t t' u u' : Token} : rel t t' → rel u u' →
    t'.after.textUntil u'.after 1 = t.after.textUntil u.after 1
  identifier {t t' : Token} {x : String} : rel t t' → t.lexeme = .identifier x → word x
  fault {t t' : Token} (line : ℕ) (error : ParseError String) : rel t t' →
    blame (t.fault line error) (t'.fault (line + shift) error)
  front {ts us : List Token} : stand ts us →
    (∃ t t' ts' us', ts = t :: ts' ∧ us = t' :: us' ∧ rel t t' ∧ stand ts' us') ∨
    (ts = [] ∧ us = [] ∧ ((∃ t t', e = .ok t ∧ e' = .ok t' ∧ rel t t') ∨
      ∃ f f', e = .error f ∧ e' = .error f' ∧ blame f f')) ∨ spare = some ts.length

namespace Sides

variable (S : Sides)

/-- Both lists end alike. -/
def Ends : Prop :=
  (∃ t t', S.e = .ok t ∧ S.e' = .ok t' ∧ S.rel t t') ∨
    ∃ f f', S.e = .error f ∧ S.e' = .error f' ∧ S.blame f f'

/-- So few tokens are left that those before them need not match. -/
def Past (n : ℕ) : Prop := ∃ m ∈ S.spare, n ≤ m

/-- Lists of tokens that match, unless too few are left. -/
def At (b : ℕ) (ts us : List Token) : Prop := S.stand ts us ∨ S.Past (ts.length + b)

/-- What comes next on both sides. -/
inductive Front : List Token → List Token → Prop
  | next {t t' : Token} {ts us : List Token} (hs : S.stand (t :: ts) (t' :: us))
    (ht : S.rel t t') (hts : S.stand ts us) : Front (t :: ts) (t' :: us)
  | ended (hs : S.stand [] []) (he : S.Ends) : Front [] []
  | past {ts us : List Token} (hp : S.Past ts.length) : Front ts us

/-- **What one side gives the other side gives, too**: results that match, unless too few tokens are
left, or faults that do. The size of a result is that of what is left of the tokens, one more if the
reader need not have looked at the next one. -/
structure Alike {α α' : Type} (size : α → ℕ) (n : ℕ) (A : α → α' → Prop) (x : Except Fault α)
    (x' : Except Fault α') : Prop where
  le : ∀ a, x = .ok a → size a ≤ n
  ok : ∀ a, x = .ok a → (∃ a', x' = .ok a' ∧ A a a') ∨ S.Past (size a)
  error : ∀ f, x = .error f → (∃ f', x' = .error f' ∧ S.blame f f') ∨ S.spare.isSome

/-- Values that match, in front of tokens that do. -/
def Both {α α' : Type} (A : α → α' → Prop) (p : α × List Token) (q : α' × List Token) : Prop :=
  A p.1 q.1 ∧ S.stand p.2 q.2

variable {S} {α α' β β' : Type} {size : α → ℕ} {size' : β → ℕ} {b k m n : ℕ}
  {A : α → α' → Prop} {B : β → β' → Prop} {x : Except Fault α} {x' : Except Fault α'}
  {a : α} {a' : α'} {t t' : Token} {ts us : List Token}

theorem Past.mono (h : S.Past n) (hm : m ≤ n) : S.Past m := by
  obtain ⟨k, hk, hn⟩ := h
  exact ⟨k, hk, hm.trans hn⟩

theorem Past.isSome (h : S.Past n) : S.spare.isSome = true := by
  obtain ⟨k, hk, -⟩ := h
  exact Option.isSome_iff_exists.mpr ⟨k, hk⟩

theorem and_past {P Q : Prop} (hP : P ∨ S.Past m) (hQ : Q ∨ S.Past n) (hm : k ≤ m) (hn : k ≤ n) :
    P ∧ Q ∨ S.Past k := by
  rcases hP with hP | hP
  · exact hQ.imp (⟨hP, ·⟩) (·.mono hn)
  · exact .inr (hP.mono hm)

theorem At.front (h : S.At b ts us) : S.Front ts us := by
  rcases h with h | h
  · rcases S.front h with ⟨t, t', ts, us, rfl, rfl, ht, hts⟩ | ⟨rfl, rfl, he⟩ | hs
    · exact .next h ht hts
    · exact .ended h he
    · exact .past ⟨_, hs, le_rfl⟩
  · exact .past (h.mono (Nat.le_add_right _ _))

theorem at_of_both {p : α × List Token} {q : α' × List Token}
    (h : S.Both A p q ∨ S.Past (p.2.length + b)) : S.At b p.2 q.2 :=
  h.imp_left And.right

/-! ### Results that match -/

namespace Alike

theorem pure (hle : size a ≤ n) (h : A a a' ∨ S.Past (size a)) :
    S.Alike size n A (.ok a) (.ok a') where
  le _ h := Except.ok.inj h ▸ hle
  ok _ h' := by
    obtain rfl := Except.ok.inj h'
    exact h.imp_left fun h => ⟨a', rfl, h⟩
  error _ h := by cases h

theorem fail {f f' : Fault} (h : S.blame f f') :
    S.Alike size n A (.error f) (.error f') where
  le _ h := by cases h
  ok _ h := by cases h
  error _ h' := .inl ⟨f', rfl, Except.error.inj h' ▸ h⟩

theorem past (hp : S.Past n) (hle : ∀ a, x = .ok a → size a ≤ n) : S.Alike size n A x x' where
  le := hle
  ok a ha := .inr (hp.mono (hle a ha))
  error _ _ := .inr hp.isSome

/-- Where the lists cease to match, results match or the tokens are taken. -/
theorem place (hs : S.spare = some m) (hle : ∀ a, x = .ok a → size a ≤ n)
    (hx : ∀ a, x = .ok a → (∃ a', x' = .ok a' ∧ A a a') ∨ size a ≤ m) :
    S.Alike size n A x x' where
  le := hle
  ok a ha := (hx a ha).imp_right fun h => ⟨m, hs, h⟩
  error _ _ := .inr (Option.isSome_iff_exists.mpr ⟨m, hs⟩)

/-- Less can be said of results that are taken to be smaller. -/
theorem resize {less : α → ℕ} (h : S.Alike size m A x x') (hless : ∀ a, less a ≤ size a)
    (hm : m ≤ n) : S.Alike less n A x x' where
  le a ha := (hless a).trans ((h.le a ha).trans hm)
  ok a ha := (h.ok a ha).imp_right (·.mono (hless a))
  error := h.error

theorem mono (h : S.Alike size m A x x') (hm : m ≤ n) : S.Alike size n A x x' :=
  h.resize (fun _ => le_rfl) hm

/-- **One reader after the other.** -/
theorem bind [Inhabited α'] {next : α → Except Fault β} {next' : α' → Except Fault β'}
    (h : S.Alike size n A x x')
    (hnext : ∀ a a', x = .ok a → size a ≤ n → A a a' ∨ S.Past (size a) →
      S.Alike size' (size a) B (next a) (next' a')) :
    S.Alike size' n B (x >>= next) (x' >>= next') := by
  cases x with
  | error f =>
    refine ⟨fun _ hb => (by cases hb), fun _ hb => (by cases hb), fun f' hf => ?_⟩
    obtain rfl := Except.error.inj hf
    refine (h.error f rfl).imp_left ?_
    rintro ⟨f', rfl, hf⟩
    exact ⟨f', rfl, hf⟩
  | ok a =>
    have hle := h.le a rfl
    rcases h.ok a rfl with ⟨a', rfl, ha⟩ | hp
    · exact (hnext a a' rfl hle (.inl ha)).mono hle
    · -- nothing is known of the other side, but little enough is left
      have hmore := hnext a default rfl hle (.inr hp)
      exact ⟨fun b hb => (hmore.le b hb).trans hle, fun b hb => .inr (hp.mono (hmore.le b hb)),
        fun _ _ => .inr hp.isSome⟩

theorem map [Inhabited α'] {f : α → β} {f' : α' → β'} (h : S.Alike size n A x x')
    (hsize : ∀ a, size' (f a) ≤ size a) (hf : ∀ a a', A a a' → B (f a) (f' a')) :
    S.Alike size' n B (x.map f) (x'.map f') := by
  change S.Alike size' n B (x >>= fun a => .ok (f a)) (x' >>= fun a => .ok (f' a))
  exact h.bind fun a a' _ _ ha => .pure (hsize a) (ha.imp (hf a a') (·.mono (hsize a)))

/-- What is found on one side is found on the other, if enough is left. -/
theorem exists_ok (h : S.Alike size n A x x') (hx : x = .ok a) (hs : ¬ S.Past (size a)) :
    ∃ a', x' = .ok a' ∧ A a a' :=
  (h.ok a hx).resolve_right hs

end Alike

/-! ### Tokens that match -/

theorem isPunct (h : S.rel t t') (c : Char) : t'.isPunct c = t.isPunct c := by
  rw [Token.isPunct, S.lexeme h, Token.isPunct]

theorem keyword? (h : S.rel t t') : t'.keyword? = t.keyword? := by
  rw [Token.keyword?, S.lexeme h, Token.keyword?]

theorem nesting (h : S.rel t t') (left right : Char) (depth : ℕ) :
    t'.nesting left right depth = t.nesting left right depth := by
  rw [Token.nesting, S.isPunct h, S.isPunct h, Token.nesting]

theorem blame_at (h : S.rel t t') (error : Lexeme String → ParseError String) :
    S.blame (t.fault t.line (error t.lexeme)) (t'.fault t'.line (error t'.lexeme)) := by
  rw [S.line h, S.lexeme h]
  exact S.fault _ _ h

theorem Ends.failAtEnd (h : S.Ends) : S.Alike size n A (failAtEnd S.e) (failAtEnd S.e') := by
  rcases h with ⟨t, t', he, he', ht⟩ | ⟨f, f', he, he', hf⟩
  · rw [he, he']
    exact .fail (S.blame_at ht fun _ => .unexpectedEof)
  · rw [he, he']
    exact .fail hf

theorem Ends.map (h : S.Ends) (hle : size a ≤ n) (ha : A a a') :
    S.Alike size n A (S.e.map fun _ => a) (S.e'.map fun _ => a') := by
  rcases h with ⟨t, t', he, he', -⟩ | ⟨f, f', he, he', hf⟩
  · rw [he, he']
    exact .pure hle (.inl ha)
  · rw [he, he']
    exact .fail hf

end Sides

variable {S : Sides} {b : ℕ} {t t' : Token} {ts us : List Token}

/-! ### One token -/

theorem ending_map_ok {a a' : α} (h : e.map (fun _ => a) = .ok a') : a' = a := by
  cases e with
  | error f => cases h
  | ok t => exact (Except.ok.inj h).symm

theorem exists_of_map_eq_ok {ε : Type} {x : Except ε α} {f : α → β} {r : β} (h : x.map f = .ok r) :
    ∃ a, x = .ok a ∧ f a = r := by
  cases x with
  | error fault => cases h
  | ok a => exact ⟨a, rfl, Except.ok.inj h⟩

theorem peek_alike (h : S.At b ts us) :
    S.Alike (fun _ => ts.length) ts.length S.rel (peek S.e ts) (peek S.e' us) := by
  cases h.front with
  | next _ ht _ => exact .pure le_rfl (.inl ht)
  | past hp => exact .past hp fun _ _ => le_rfl
  | ended _ he =>
    rcases he with ⟨t, t', he, he', ht⟩ | ⟨f, f', he, he', hf⟩
    · rw [he, he']
      exact .pure le_rfl (.inl ht)
    · rw [he, he']
      exact .fail hf

theorem expectPunct_alike (c : Char) (h : S.At b ts us) :
    S.Alike (fun rest => rest.length + 1) ts.length S.stand (expectPunct S.e c ts)
      (expectPunct S.e' c us) := by
  cases h.front with
  | ended _ he => exact he.failAtEnd
  | past hp => exact .past hp fun _ => length_expectPunct _
  | next _ ht hts =>
    rw [expectPunct, expectPunct, S.isPunct ht]
    split
    · exact .pure le_rfl (.inl hts)
    · exact .fail (S.blame_at ht (.expected c))

theorem size_takePunct {c : Char} {p : Bool × List Token} (h : takePunct e c ts = .ok p) :
    p.2.length + p.1.toNat ≤ ts.length := by
  unfold takePunct at h
  split at h
  · rw [ending_map_ok h]
    exact le_rfl
  · obtain rfl := Except.ok.inj h
    split <;> simp

theorem takePunct_alike (c : Char) (h : S.At b ts us) :
    S.Alike (fun p => p.2.length + p.1.toNat) ts.length (S.Both Eq) (takePunct S.e c ts)
      (takePunct S.e' c us) := by
  cases h.front with
  | ended hs he => exact he.map le_rfl ⟨rfl, hs⟩
  | past hp => exact .past hp fun _ => size_takePunct
  | next hs ht hts =>
    rw [takePunct, takePunct, S.isPunct ht]
    split
    · exact .pure le_rfl (.inl ⟨rfl, hts⟩)
    · exact .pure le_rfl (.inl ⟨rfl, hs⟩)

theorem takeIdentifier_alike (h : S.At b ts us) :
    S.Alike (·.2.length) ts.length (S.Both fun x x' => x' = x ∧ ∀ y ∈ x, S.word y)
      (takeIdentifier S.e ts) (takeIdentifier S.e' us) := by
  cases h.front with
  | ended hs he => exact he.map le_rfl ⟨⟨rfl, by simp⟩, hs⟩
  | past hp => exact .past hp fun _ => length_takeIdentifier _
  | @next t t' ts us hs ht hts =>
    unfold takeIdentifier
    dsimp only
    rw [S.lexeme ht]
    split
    · rename_i name hname
      have hword : ∀ y ∈ some name, S.word y := by
        rintro _ ⟨⟩
        exact S.identifier ht hname
      exact .pure (Nat.le_succ _) (.inl ⟨⟨rfl, hword⟩, hts⟩)
    · exact .pure le_rfl (.inl ⟨⟨rfl, by simp⟩, hs⟩)

/-! ### What is skipped -/

theorem skipBalanced_alike (left right : Char) (depth : ℕ) (h : S.At b ts us) :
    S.Alike (fun rest => rest.length + 1) ts.length S.stand (skipBalanced S.e left right depth ts)
      (skipBalanced S.e' left right depth us) := by
  induction ts generalizing depth us b with
  | nil =>
    cases h.front with
    | ended _ he => exact he.failAtEnd
    | past hp => exact .past hp fun _ => length_skipBalanced _
  | cons t ts ih =>
    cases h.front with
    | past hp => exact .past hp fun _ => length_skipBalanced _
    | next _ ht hts =>
      rw [skipBalanced, skipBalanced, S.isPunct ht, S.nesting ht]
      split
      · exact .pure le_rfl (.inl hts)
      · exact (ih (b := 0) _ (.inl hts)).mono (Nat.le_succ _)

theorem NoSuffix.skipGroup (h : NoSuffix ts) : skipGroup e ts = .ok ts := by
  obtain ⟨t, ht, -, hp⟩ := h
  obtain ⟨us, rfl⟩ := List.head?_eq_some_iff.mp ht
  exact if_neg (by simp [hp])

/-- No group and no suffix begins where the lists cease to match, so that what can be followed by
one is read alike up to there. -/
def Sides.Quiet (S : Sides) : Prop :=
  ∀ {ts us}, S.stand ts us → S.spare = some ts.length → NoSuffix us

theorem skipGroup_cases (h : skipGroup e ts = .ok rest) :
    rest = ts ∨ rest.length + 1 < ts.length := by
  unfold skipGroup at h
  split at h
  · exact .inl (ending_map_ok h)
  · split at h
    · exact .inr (Nat.succ_lt_succ (length_skipBalanced _ h))
    · exact .inl (Except.ok.inj h).symm

/-- A word stands without a group also in front of tokens that do not match, if none begins there. -/
theorem skipGroup_alike (h : S.At b ts us) (hb : b = 0 ∨ b = 1 ∧ S.Quiet) :
    S.Alike (fun rest => rest.length + b) (ts.length + b) S.stand (skipGroup S.e ts)
      (skipGroup S.e' us) := by
  have hle : ∀ rest, skipGroup S.e ts = .ok rest → rest.length + b ≤ ts.length + b := fun rest hr =>
    Nat.add_le_add_right (length_skipGroup _ hr) b
  rcases h with hs | hp
  · rcases S.front hs with ⟨t, t', ts, us, rfl, rfl, ht, hts⟩ | ⟨rfl, rfl, he⟩ | hplace
    · rw [skipGroup, skipGroup, S.isPunct ht]
      split
      · refine (skipBalanced_alike (b := 0) _ _ _ (.inl hts)).resize ?_ ?_
        · rintro rest
          omega
        · rw [List.length_cons]
          omega
      · exact .pure le_rfl (.inl hs)
    · exact Sides.Ends.map he le_rfl hs
    · refine .place hplace hle fun rest hr => ?_
      rcases skipGroup_cases hr with rfl | hlt
      · rcases hb with rfl | ⟨-, hquiet⟩
        · exact .inr le_rfl
        · exact .inl ⟨us, (hquiet hs hplace).skipGroup, hs⟩
      · exact .inr (by omega)
  · exact .past hp hle

theorem skipNoise_extension (ht : t.keyword? = some .extension) :
    skipNoise e (t :: ts) = skipGroup e ts >>= skipNoise e := by
  rw [skipNoise, ht]
  dsimp only
  split
  · rename_i h
    rw [h]
    rfl
  · rename_i h
    rw [h]
    rfl

/-- Nothing is skipped in front of a word that is neither a qualifier nor an extension. -/
theorem skipNoise_of_word (hq : t.keyword? ≠ some .qualifier) (hx : t.keyword? ≠ some .extension) :
    skipNoise e (t :: ts) = .ok (t :: ts) := by
  rw [skipNoise]
  split <;> simp_all

theorem skipNoise_alike (h : S.At b ts us) :
    S.Alike List.length ts.length S.stand (skipNoise S.e ts) (skipNoise S.e' us) := by
  induction hn : ts.length using Nat.strong_induction_on generalizing ts us b with | _ n ih =>
  subst hn
  cases h.front with
  | ended hs he =>
    rw [skipNoise, skipNoise]
    exact he.map le_rfl hs
  | past hp => exact .past hp fun _ => length_skipNoise _
  | @next t t' ts us hs ht hts =>
    have hk := S.keyword? ht
    by_cases hq : t.keyword? = some .qualifier
    · rw [skipNoise, skipNoise, hk, hq]
      exact (ih _ (Nat.lt_succ_self _) (b := 0) (.inl hts) rfl).mono (Nat.le_succ _)
    by_cases hx : t.keyword? = some .extension
    · rw [skipNoise_extension hx, skipNoise_extension (hk.trans hx)]
      refine Sides.Alike.mono ?_ (Nat.le_succ _)
      exact (skipGroup_alike (b := 0) (.inl hts) (.inl rfl)).bind fun more more' _ hle hmore =>
        ih _ (Nat.lt_succ_of_le hle) hmore rfl
    · rw [skipNoise_of_word hq hx, skipNoise_of_word (hk ▸ hq) (hk ▸ hx)]
      exact .pure le_rfl (.inl hs)

theorem skipInitializer_alike (depth : ℕ) (h : S.At b ts us) :
    S.Alike List.length ts.length S.stand (skipInitializer S.e depth ts)
      (skipInitializer S.e' depth us) := by
  induction ts generalizing depth us b with
  | nil =>
    cases h.front with
    | ended _ he => exact he.failAtEnd
    | past hp => exact .past hp fun _ => length_skipInitializer _
  | cons t ts ih =>
    cases h.front with
    | past hp => exact .past hp fun _ => length_skipInitializer _
    | next hs ht hts =>
      have hmore (depth : ℕ) := (ih (b := 0) depth (.inl hts)).mono (Nat.le_succ _)
      rw [skipInitializer, skipInitializer, S.lexeme ht]
      split
      · split
        · exact hmore _
        · split
          · exact hmore _
          · split
            · exact .pure le_rfl (.inl hs)
            · exact hmore _
      · exact hmore _

/-! ### Declarators -/

theorem NoSuffix.readSuffixes {e : Ending} (h : NoSuffix ts) : readSuffixes e ts = .ok ([], ts) := by
  obtain ⟨t, ht, hb, hp⟩ := h
  obtain ⟨us, rfl⟩ := List.head?_eq_some_iff.mp ht
  rw [TypeLayout.readSuffixes, if_neg (by simp [hb]), if_neg (by simp [hp])]

theorem readBrackets_alike (depth : ℕ) (h : S.At b ts us) :
    S.Alike (fun r => r.2.2.length + 1) ts.length
      (fun r r' => r'.1 = r.1 ∧ S.rel r.2.1 r'.2.1 ∧ S.stand r.2.2 r'.2.2)
      (readBrackets S.e depth ts) (readBrackets S.e' depth us) := by
  induction ts generalizing depth us b with
  | nil =>
    cases h.front with
    | ended _ he => exact he.failAtEnd
    | past hp => exact .past hp fun _ => length_readBrackets _
  | cons t ts ih =>
    cases h.front with
    | past hp => exact .past hp fun _ => length_readBrackets _
    | next _ ht hts =>
      by_cases hclose : t.isPunct ']' = true ∧ depth = 0
      · rw [readBrackets, readBrackets, S.isPunct ht, if_pos hclose, if_pos hclose]
        exact .pure le_rfl (.inl ⟨rfl, ht, hts⟩)
      · rw [readBrackets_cons hclose, readBrackets_cons (by rwa [S.isPunct ht]), S.nesting ht]
        refine Sides.Alike.mono ?_ (Nat.le_succ _)
        refine (ih (b := 0) _ (.inl hts)).map (fun _ => le_rfl) ?_
        rintro r r' ⟨hlexemes, hclose, hrest⟩
        exact ⟨by rw [hlexemes, S.lexeme ht], hclose, hrest⟩

theorem readDimension_alike (ht : S.rel t t') (h : S.At b ts us) :
    S.Alike (·.2.length + 1) ts.length (S.Both Eq) (readDimension S.e t ts)
      (readDimension S.e' t' us) := by
  rw [readDimension_eq, readDimension_eq]
  refine (readBrackets_alike 0 h).map (fun _ => le_rfl) ?_
  rintro r r' ⟨hlexemes, hclose, hrest⟩
  exact ⟨by rw [hlexemes, S.text ht hclose], hrest⟩

theorem readSuffixes_cases {r : List Derivation × List Token} (h : readSuffixes e ts = .ok r) :
    r = ([], ts) ∨ r.2.length + 1 ≤ ts.length := by
  cases ts with
  | nil =>
    rw [readSuffixes] at h
    exact .inl (ending_map_ok h)
  | cons t ts =>
    by_cases hb : t.isPunct '[' = true
    · rw [readSuffixes_bracket hb] at h
      obtain ⟨r', hdim, h⟩ := exists_of_bind_eq_ok h
      obtain ⟨r'', hmore, h⟩ := exists_of_bind_eq_ok h
      obtain rfl := Except.ok.inj h
      exact .inr (Nat.succ_le_succ ((length_readSuffixes e hmore).trans
        (length_readDimension e hdim).le))
    by_cases hp : t.isPunct '(' = true
    · rw [readSuffixes_paren hb hp] at h
      obtain ⟨more, hskip, h⟩ := exists_of_bind_eq_ok h
      obtain ⟨r'', hmore, h⟩ := exists_of_bind_eq_ok h
      obtain rfl := Except.ok.inj h
      exact .inr (Nat.succ_le_succ ((length_readSuffixes e hmore).trans
        (length_skipBalanced e hskip).le))
    · rw [readSuffixes, if_neg hb, if_neg hp] at h
      exact .inl (Except.ok.inj h).symm

/-- Suffixes are also read in front of tokens that do not match, if no further one begins there. -/
theorem readSuffixes_alike (h : S.At b ts us) (hb : b = 0 ∨ b = 1 ∧ S.Quiet) :
    S.Alike (·.2.length + b) (ts.length + b) (S.Both Eq) (readSuffixes S.e ts)
      (readSuffixes S.e' us) := by
  induction hn : ts.length using Nat.strong_induction_on generalizing ts us with | _ n ih =>
  subst hn
  have hle : ∀ r, readSuffixes S.e ts = .ok r → r.2.length + b ≤ ts.length + b := fun r hr =>
    Nat.add_le_add_right (length_readSuffixes _ hr) b
  rcases h with hs | hp
  · rcases S.front hs with ⟨t, t', ts, us, rfl, rfl, ht, hts⟩ | ⟨rfl, rfl, he⟩ | hplace
    · have hmore {more more' : List Token} (hlt : more.length + 1 ≤ ts.length)
          (hmore : S.At 1 more more') : S.Alike (·.2.length + b) (more.length + 1) (S.Both Eq)
          (readSuffixes S.e more) (readSuffixes S.e' more') := by
        refine Sides.Alike.mono (ih _ (Nat.lt_succ_of_lt hlt) (hmore.imp_right ?_) rfl) ?_
        · exact fun hp => hp.mono (by omega)
        · omega
      have hlength : ts.length ≤ (t :: ts).length + b := by
        rw [List.length_cons]
        omega
      by_cases hopen : t.isPunct '[' = true
      · rw [readSuffixes_bracket hopen, readSuffixes_bracket ((S.isPunct ht _).trans hopen)]
        refine Sides.Alike.mono ?_ hlength
        refine (readDimension_alike (b := 0) ht (.inl hts)).bind fun p q _ hlt hp => ?_
        refine (hmore hlt (Sides.at_of_both hp)).bind fun r r' _ hr hboth => ?_
        refine .pure le_rfl ((Sides.and_past hp hboth hr le_rfl).imp_left ?_)
        rintro ⟨⟨hd, -⟩, hds, hrest⟩
        exact ⟨by rw [hd, hds], hrest⟩
      by_cases hgroup : t.isPunct '(' = true
      · rw [readSuffixes_paren hopen hgroup,
          readSuffixes_paren (by rwa [S.isPunct ht]) ((S.isPunct ht _).trans hgroup)]
        refine Sides.Alike.mono ?_ hlength
        refine (skipBalanced_alike (b := 0) _ _ _ (.inl hts)).bind fun more more' _ hlt hskip => ?_
        refine (hmore hlt hskip).bind fun r r' _ _ hboth => .pure le_rfl (hboth.imp_left ?_)
        rintro ⟨hds, hrest⟩
        exact ⟨by rw [hds], hrest⟩
      · have hother : NoSuffix (t :: ts) := ⟨t, rfl, by simpa using hopen, by simpa using hgroup⟩
        have hother' : NoSuffix (t' :: us) :=
          ⟨t', rfl, by simpa [S.isPunct ht] using hopen, by simpa [S.isPunct ht] using hgroup⟩
        rw [hother.readSuffixes, hother'.readSuffixes]
        exact .pure le_rfl (.inl ⟨rfl, hs⟩)
    · rw [readSuffixes, readSuffixes]
      exact Sides.Ends.map he le_rfl ⟨rfl, hs⟩
    · refine .place hplace hle fun r hr => ?_
      rcases readSuffixes_cases hr with rfl | hlt
      · rcases hb with rfl | ⟨-, hquiet⟩
        · exact .inr le_rfl
        · exact .inl ⟨_, (hquiet hs hplace).readSuffixes, rfl, hs⟩
      · exact .inr (by omega)
  · exact .past hp hle

theorem readStars_alike (h : S.At b ts us) :
    S.Alike (·.2.length) ts.length (S.Both Eq) (readStars S.e ts) (readStars S.e' us) := by
  induction hn : ts.length using Nat.strong_induction_on generalizing ts us b with | _ n ih =>
  subst hn
  rw [readStars_eq, readStars_eq]
  refine (skipNoise_alike h).bind fun rest rest' _ hle (hrest : S.At 0 rest rest') => ?_
  cases hrest.front with
  | ended hs he => exact he.map le_rfl ⟨rfl, hs⟩
  | past hp =>
    refine .past hp fun r hr => ?_
    split at hr
    · rw [ending_map_ok hr]
    · split at hr
      · obtain ⟨r', hr', rfl⟩ := exists_of_map_eq_ok hr
        exact (length_readStars _ hr').trans (Nat.le_succ _)
      · exact Except.ok.inj hr ▸ le_rfl
  | next hs ht hts =>
    dsimp only
    rw [S.isPunct ht]
    split
    · refine Sides.Alike.mono ?_ (Nat.le_succ _)
      refine (ih _ hle (b := 0) (.inl hts) rfl).map (fun _ => le_rfl) ?_
      rintro r r' ⟨hn, hrest⟩
      exact ⟨by rw [hn], hrest⟩
    · exact .pure le_rfl (.inl ⟨rfl, hs⟩)

/-- Declarators that match, in front of tokens that do. -/
def Sides.Entity (S : Sides) : Declarator × List Token → Declarator × List Token → Prop :=
  S.Both fun d d' => d' = d.move S.shift ∧ S.word d.name

theorem finishDeclarator_alike {d d' : Declarator} (stars : ℕ) (h : S.At b ts us)
    (hb : b = 0 ∨ b = 1 ∧ S.Quiet)
    (hd : d' = d.move S.shift ∧ S.word d.name ∨ S.Past (ts.length + b)) :
    S.Alike (·.2.length + b) (ts.length + b) S.Entity (finishDeclarator S.e d stars ts)
      (finishDeclarator S.e' d' stars us) := by
  rcases hd with ⟨rfl, hname⟩ | hp
  · rw [finishDeclarator_eq, finishDeclarator_eq]
    refine (readSuffixes_alike h hb).map (fun _ => le_rfl) ?_
    rintro r r' ⟨hds, hrest⟩
    exact ⟨⟨by rw [hds]; rfl, hname⟩, hrest⟩
  · exact .past hp fun _ h => Nat.add_le_add_right (length_finishDeclarator _ h) b

theorem readDeclarator_alike (h : S.At 0 ts us) (hb : b = 0 ∨ b = 1 ∧ S.Quiet) :
    S.Alike (·.2.length + b) ts.length S.Entity (readDeclarator S.e ts)
      (readDeclarator S.e' us) := by
  induction hn : ts.length using Nat.strong_induction_on generalizing ts us b with | _ n ih =>
  subst hn
  rw [readDeclarator_eq, readDeclarator_eq]
  refine (readStars_alike h).bind fun p q _ hle hp => ?_
  obtain ⟨n, rest⟩ := p
  obtain ⟨n', rest'⟩ := q
  -- what stands behind the stars is taken from the front, too
  have hpast (hp : S.Past rest.length) : S.Alike (·.2.length + b) rest.length S.Entity
      (declaratorBehind S.e n rest) (declaratorBehind S.e' n' rest') :=
    .past hp fun d hd => by
      have := length_declaratorBehind hd
      omega
  rcases hp with ⟨rfl, hs⟩ | hp
  · cases Sides.At.front (b := 0) (.inl hs) with
    | past hp => exact hpast hp
    | ended _ he =>
      rcases he with ⟨t, t', he, he', ht⟩ | ⟨f, f', he, he', hf⟩
      · simp only [declaratorBehind, he, he']
        exact .fail (S.blame_at ht .expectedIdentifier)
      · simp only [declaratorBehind, he, he']
        exact .fail hf
    | @next t t' rest rest' _ ht hrest =>
      unfold declaratorBehind
      dsimp only
      rw [S.isPunct ht]
      split
      · refine Sides.Alike.mono ?_ (Nat.le_succ _)
        refine (ih _ hle (b := 0) (.inl hrest) (.inl rfl) rfl).bind fun p q _ _ hp => ?_
        refine (expectPunct_alike ')' (Sides.at_of_both hp)).bind fun more more' _ hle hmore => ?_
        refine (finishDeclarator_alike n (hmore.imp_right (·.mono (by omega))) hb ?_).mono (by omega)
        exact hp.imp And.left (·.mono (by omega))
      · rw [S.lexeme ht]
        split
        · rename_i name hname
          refine (finishDeclarator_alike n (.inl hrest) hb
            (.inl ⟨?_, S.identifier ht hname⟩)).mono ?_
          · rw [S.line ht]
            rfl
          · rw [List.length_cons]
            omega
        · exact .fail (S.lexeme ht ▸ S.blame_at ht .expectedIdentifier)
  · exact hpast hp

/-! ### Parts of the steps -/

variable {p q : Bool × List Token}

theorem skipValue_alike (h : S.Both Eq p q ∨ S.Past (p.2.length + b)) :
    S.Alike List.length p.2.length S.stand (skipValue S.e p.1 p.2) (skipValue S.e' q.1 q.2) := by
  rcases h with ⟨heq, hs⟩ | hp
  · rw [← heq]
    cases p.1 with
    | false => exact .pure le_rfl (.inl hs)
    | true => exact skipInitializer_alike 0 (b := 0) (.inl hs)
  · exact .past (hp.mono (Nat.le_add_right _ _)) fun _ => skipValue_length

theorem skipEnumerators_true :
    skipEnumerators e true ts = skipBalanced e '{' '}' 0 ts >>= skipNoise e := by
  rw [skipEnumerators, if_pos rfl]
  cases skipBalanced e '{' '}' 0 ts <;> rfl

theorem skipEnumerators_alike (h : S.Both Eq p q ∨ S.Past (p.2.length + b)) :
    S.Alike List.length p.2.length S.stand (skipEnumerators S.e p.1 p.2)
      (skipEnumerators S.e' q.1 q.2) := by
  rcases h with ⟨heq, hs⟩ | hp
  · rw [← heq]
    cases p.1 with
    | false => exact .pure le_rfl (.inl hs)
    | true =>
      rw [skipEnumerators_true, skipEnumerators_true]
      exact (skipBalanced_alike _ _ _ (b := 0) (.inl hs)).bind fun _ _ _ _ hrest =>
        (skipNoise_alike (b := 1) hrest).mono (Nat.le_succ _)
  · exact .past (hp.mono (Nat.le_add_right _ _)) fun _ => skipEnumerators_length

/-- The tag of a specifier matches. -/
def Sides.Tag (S : Sides) : Option String × List Token → Option String × List Token → Prop :=
  S.Both fun x x' => x' = x ∧ ∀ y ∈ x, S.word y

theorem readTag_alike (h : S.At b ts us) :
    S.Alike (·.2.length) ts.length S.Tag (readTag S.e ts) (readTag S.e' us) := by
  refine (skipNoise_alike h).bind fun _ _ _ _ h₁ => ?_
  refine (takeIdentifier_alike (b := 0) h₁).bind fun p q _ _ h₂ => ?_
  refine (skipNoise_alike (b := 0) (Sides.at_of_both h₂)).bind fun rest rest' _ hle h₃ => ?_
  refine .pure le_rfl ((Sides.and_past h₂ h₃ hle le_rfl).imp_left ?_)
  rintro ⟨⟨hname, -⟩, hrest⟩
  exact ⟨hname, hrest⟩

instance : Inhabited Heard := ⟨⟨.closeBody, default⟩⟩

/-- The same clause, some lines further down, said in front of tokens that match. -/
structure Sides.Hears (S : Sides) (h h' : Heard) : Prop where
  clause : h'.clause = h.clause.move S.shift
  names : ∀ x ∈ h.clause.names, S.word x
  seen : ∃ t t', S.rel t t' ∧ h.seen = t.after ∧ h'.seen = t'.after

theorem Sides.hears (ht : S.rel t t') (hc : ∀ x ∈ c.names, S.word x) :
    S.Hears ⟨c, t.after⟩ ⟨c.move S.shift, t'.after⟩ :=
  ⟨rfl, hc, t, t', ht, rfl, rfl⟩

theorem hear_alike (hc : ∀ x ∈ c.names, S.word x) (h : S.At b ts us) :
    S.Alike (fun _ => ts.length) ts.length S.Hears (hear S.e c ts)
      (hear S.e' (c.move S.shift) us) := by
  have heq (e : Ending) (c : Clause) (ts : List Token) :
      hear e c ts = (peek e ts).map fun t => ⟨c, t.after⟩ := by
    rw [hear]
    cases peek e ts <;> rfl
  rw [heq, heq]
  exact (peek_alike h).map (fun _ => le_rfl) fun t t' ht => Sides.hears ht hc

/-! ### Steps -/

/-- What is left after a step, and one more if the step need not have looked at the next token. -/
def Step.size (b : ℕ) : Step → ℕ
  | .finished => 0
  | .goOn _ place _ rest => rest.length + if place = .declaration then 1 else b

/-- **Steps that lead to the same place**, some lines further down. -/
inductive Sides.Onward (S : Sides) : Step → Step → Prop
  | finished : S.Onward .finished .finished
  | goOn {heard heard' : Option Heard} {p : Place} {q : List Specifiers} {rest rest' : List Token}
    (hh : Option.Rel S.Hears heard heard') (hs : S.stand rest rest') :
    S.Onward (.goOn heard p q rest)
      (.goOn heard' (p.move S.shift) (q.map (Specifiers.move S.shift)) rest')

theorem Sides.Onward.inv {heard : Option Heard} {place : Place} {stack : List Specifiers} {r : Step}
    (h : S.Onward (.goOn heard place stack rest) r) :
    ∃ heard' rest', r = .goOn heard' (place.move S.shift) (stack.map (Specifiers.move S.shift)) rest' ∧
      Option.Rel S.Hears heard heard' ∧ S.stand rest rest' := by
  cases h with
  | goOn hh hs => exact ⟨_, _, rfl, hh, hs⟩

section Steps

variable {stack : List Specifiers} {s : Specifiers} {n : ℕ}

theorem size_step {p : Place} {r : Step} (h : step e p stack ts = .ok r) :
    r.size 0 ≤ ts.length := by
  cases r with
  | finished => exact Nat.zero_le _
  | goOn heard place' stack' rest =>
    rw [Step.size]
    rcases step_progress h with hlt | ⟨hle, hrank⟩
    · split <;> omega
    · rw [if_neg]
      · exact hle
      · rintro rfl
        exact absurd p.rank_le (by simpa [Place.rank] using hrank)

/-- Where the noise behind the end of a body is skipped alike, so is what follows. -/
theorem stepDeclaration_close (ht : t.isPunct '}' = true) (ht' : t'.isPunct '}' = true)
    (hskip : S.Alike List.length n S.stand (skipNoise S.e ts) (skipNoise S.e' us)) :
    S.Alike (Step.size 0) n S.Onward (stepDeclaration S.e (s :: stack) (t :: ts))
      (stepDeclaration S.e' ((s :: stack).map (Specifiers.move S.shift)) (t' :: us)) := by
  simp only [List.map_cons, stepDeclaration, ht, ht']
  refine hskip.bind fun rest rest' _ _ hrest => ?_
  refine (hear_alike (c := .closeBody) (by simp [Clause.names]) (b := 0) hrest).bind
    fun heard heard' _ _ hheard => ?_
  refine .pure le_rfl ((Sides.and_past hheard hrest le_rfl le_rfl).imp_left ?_)
  rintro ⟨hheard, hrest⟩
  exact .goOn (p := .specifiers { s with found := true }) (.some hheard) hrest

theorem stepDeclaration_alike (h : S.At b ts us) :
    S.Alike (Step.size 0) ts.length S.Onward (stepDeclaration S.e stack ts)
      (stepDeclaration S.e' (stack.map (Specifiers.move S.shift)) us) := by
  cases h.front with
  | past hp => exact .past hp fun _ => size_step (p := .declaration)
  | ended hs he =>
    cases stack with
    | nil => exact he.map (Nat.zero_le _) .finished
    | cons outer stack => exact he.failAtEnd
  | @next t t' ts us hs ht hts =>
    cases stack <;> cases hclose : t.isPunct '}'
    case cons.true outer stack =>
      exact (stepDeclaration_close hclose ((S.isPunct ht _).trans hclose)
        (skipNoise_alike (b := 0) (.inl hts))).mono (Nat.le_succ _)
    -- anything but the end of a body leaves the stack alone
    all_goals
      simp only [List.map_cons, List.map_nil, stepDeclaration, S.isPunct ht, S.keyword? ht, hclose]
      split
      · exact .pure le_rfl (.inl (.goOn .none hts))
      · split
        · refine Sides.Alike.mono ?_ (Nat.le_succ _)
          refine (expectPunct_alike '(' (b := 0) (.inl hts)).bind fun _ _ _ _ h₁ => ?_
          refine Sides.Alike.mono ?_ (Nat.le_succ _)
          refine (skipBalanced_alike '(' ')' 0 (b := 1) h₁).bind fun _ _ _ _ h₂ => ?_
          refine Sides.Alike.mono ?_ (Nat.le_succ _)
          refine (expectPunct_alike ';' (b := 1) h₂).bind fun _ _ _ _ h₃ => ?_
          exact .pure le_rfl (h₃.imp_left (.goOn .none))
        · rw [S.line ht]
          exact .pure le_rfl (.inl (.goOn (p := .specifiers { line := t.line }) .none hs))

theorem stepTag_eq (s : Specifiers) (kind : TagKind) (t : Token) :
    stepTag e s kind t stack ts = readTag e ts >>= fun p => peek e p.2 >>= fun next =>
      takePunct e '{' p.2 >>= fun q =>
        if q.1 then
          .ok (.goOn (some ⟨.openBody kind p.1 t.line, next.after⟩) .declaration (s :: stack) q.2)
        else
          match p.1 with
          | none => .error (next.fault t.line (.tagWithoutBody kind.keyword))
          | some name => .ok (.goOn (some ⟨.tag kind name t.line, next.after⟩)
              (.specifiers { s with found := true }) stack q.2) := by
  simp only [readTag, bind_assoc, ok_bind]
  rfl

/-- What is said of an enumeration behind its tag and the list of its values. -/
def enumBehind (e : Ending) (s : Specifiers) (name : Option String) (body : Bool) (t : Token)
    (stack : List Specifiers) (ts : List Token) : Except Fault Step :=
  peek e ts >>= fun next =>
    if name.isNone && !body then .error (next.fault t.line (.tagWithoutBody "enum"))
    else .ok (.goOn (some ⟨.enum name body t.line, next.after⟩)
      (.specifiers { s with found := true }) stack ts)

theorem stepEnum_eq (s : Specifiers) (t : Token) :
    stepEnum e s t stack ts = readTag e ts >>= fun p => takePunct e '{' p.2 >>= fun q =>
      skipEnumerators e q.1 q.2 >>= enumBehind e s p.1 q.1 t stack := by
  simp only [stepEnum, readTag, bind_assoc, ok_bind]
  rfl

/-- Where the tag is read alike, so is the specifier. -/
theorem stepTag_alike (kind : TagKind) (hline : t'.line = t.line + S.shift)
    (hread : S.Alike (·.2.length) n S.Tag (readTag S.e ts) (readTag S.e' us)) :
    S.Alike (Step.size 0) n S.Onward (stepTag S.e s kind t stack ts)
      (stepTag S.e' (s.move S.shift) kind t' (stack.map (Specifiers.move S.shift)) us) := by
  rw [stepTag_eq, stepTag_eq]
  refine hread.bind fun p q _ _ hp => ?_
  refine (peek_alike (b := 0) (Sides.at_of_both hp)).bind fun next next' _ _ hnext => ?_
  refine (takePunct_alike '{' (b := 0) (Sides.at_of_both hp)).bind fun r r' _ hr hbody => ?_
  obtain ⟨name, vs⟩ := p
  obtain ⟨body, rest⟩ := r
  rcases Sides.and_past (Sides.and_past hp hnext hr hr) hbody le_rfl le_rfl with
    ⟨⟨⟨⟨hname, hword⟩, -⟩, hrel⟩, hb, hrest⟩ | hpast
  · rw [hline, ← hb, hname]
    cases body with
    | true =>
      have hnames : ∀ x ∈ (Clause.openBody kind name t.line).names, S.word x := by
        simpa [Clause.names] using hword
      exact .pure le_rfl (.inl (.goOn (q := s :: stack) (.some (Sides.hears hrel hnames)) hrest))
    | false =>
      cases name with
      | none => exact .fail (S.fault _ _ hrel)
      | some name =>
        have hnames : ∀ x ∈ (Clause.tag kind name t.line).names, S.word x := by
          simpa [Clause.names] using hword
        exact .pure le_rfl (.inl (.goOn (p := .specifiers { s with found := true })
          (.some (Sides.hears hrel hnames)) hrest))
  · refine .past hpast fun r hr => ?_
    cases body with
    | true => exact Except.ok.inj hr ▸ le_rfl
    | false =>
      cases name with
      | none => cases hr
      | some name => exact Except.ok.inj hr ▸ le_rfl

theorem enumBehind_alike {name : Option String} {body : Bool} (hline : t'.line = t.line + S.shift)
    (hword : ∀ x ∈ name, S.word x) (h : S.At 0 ts us) :
    S.Alike (Step.size 0) ts.length S.Onward (enumBehind S.e s name body t stack ts)
      (enumBehind S.e' (s.move S.shift) name body t' (stack.map (Specifiers.move S.shift)) us) := by
  refine (peek_alike h).bind fun next next' _ _ hnext => ?_
  rcases Sides.and_past h hnext le_rfl le_rfl with ⟨hs, hrel⟩ | hpast
  · rw [hline]
    split
    · exact .fail (S.fault _ _ hrel)
    · have hnames : ∀ x ∈ (Clause.enum name body t.line).names, S.word x := by
        simpa [Clause.names] using hword
      exact .pure le_rfl (.inl (.goOn (p := .specifiers { s with found := true })
        (.some (Sides.hears hrel hnames)) hs))
  · refine .past hpast fun r hr => ?_
    split at hr
    · cases hr
    · exact Except.ok.inj hr ▸ le_rfl

theorem stepEnum_alike (hline : t'.line = t.line + S.shift)
    (hread : S.Alike (·.2.length) n S.Tag (readTag S.e ts) (readTag S.e' us)) :
    S.Alike (Step.size 0) n S.Onward (stepEnum S.e s t stack ts)
      (stepEnum S.e' (s.move S.shift) t' (stack.map (Specifiers.move S.shift)) us) := by
  rw [stepEnum_eq, stepEnum_eq]
  refine hread.bind fun p q _ _ hp => ?_
  refine (takePunct_alike '{' (b := 0) (Sides.at_of_both hp)).bind fun r r' _ hr hbody => ?_
  refine Sides.Alike.mono ?_ (Nat.le_add_right _ _)
  refine (skipEnumerators_alike hbody).bind fun rest rest' _ hle hrest => ?_
  have hshort := hle.trans (Nat.le_add_right _ r.1.toNat)
  rcases Sides.and_past hp hbody (hshort.trans hr) hshort with ⟨⟨⟨hname, hword⟩, -⟩, hb, -⟩ | hpast
  · rw [← hb, hname]
    exact enumBehind_alike hline hword hrest
  · refine .past hpast fun x hx => ?_
    obtain ⟨next, -, hx⟩ := exists_of_bind_eq_ok hx
    split at hx
    · cases hx
    · exact Except.ok.inj hx ▸ le_rfl

theorem endSpecifiers_alike (ht : S.rel t t') (hs : S.stand ts us)
    (hf : (∃ rest rest', ts = t :: rest ∧ us = t' :: rest' ∧ S.stand rest rest') ∨
      ts = [] ∧ us = []) :
    S.Alike (Step.size b) (ts.length + b) S.Onward (endSpecifiers s t stack ts)
      (endSpecifiers (s.move S.shift) t' (stack.map (Specifiers.move S.shift)) us) := by
  have hmore : S.Alike (Step.size b) (ts.length + b) S.Onward
      (.ok (.goOn none (.declarator s.typedef) stack ts))
      (.ok (.goOn none (.declarator s.typedef) (stack.map (Specifiers.move S.shift)) us)) :=
    .pure le_rfl (.inl (.goOn (p := .declarator s.typedef) .none hs))
  unfold endSpecifiers
  rw [show (s.move S.shift).found = s.found from rfl, show (s.move S.shift).base = s.base from rfl]
  split
  · rcases hf with ⟨rest, rest', rfl, rfl, hrest⟩ | ⟨rfl, rfl⟩
    · dsimp only
      rw [S.isPunct ht]
      split
      · exact .pure (Nat.le_add_right _ _) (.inl (.goOn (p := .declaration)
          (.some (Sides.hears ht (c := .bare s.line) (by simp [Clause.names]))) hrest))
      · exact hmore
    · exact hmore
  · split
    · rw [S.line ht, S.lexeme ht, Token.isEof, Token.isEof, S.lexeme ht]
      exact .fail (S.fault _ _ ht)
    · split
      · exact .fail (S.fault _ _ ht)
      · rename_i spelling _
        refine .pure le_rfl (.inl (.goOn (p := .specifiers { s with base := {}, found := true })
          (.some (Sides.hears ht (c := .base spelling (s.base.signed == some false) s.line)
            (by simp [Clause.names]))) hs))

/-- The word of a struct, union or enumeration specifier. -/
def Token.IsTagWord (t : Token) : Prop :=
  t.keyword? = some .enum ∨ ∃ kind, t.keyword? = some (.tag kind)

/-- The specifier behind the word of a tag is read alike if the tag is. -/
theorem stepSpecifiers_tagWord (ht : t.IsTagWord) (hlexeme : t'.lexeme = t.lexeme)
    (hline : t'.line = t.line + S.shift)
    (hblame : ∀ error, S.blame (t.fault t.line error) (t'.fault t'.line error))
    (hread : S.Alike (·.2.length) n S.Tag (readTag S.e ts) (readTag S.e' us)) :
    S.Alike (Step.size 0) n S.Onward (stepSpecifiers S.e s stack (t :: ts))
      (stepSpecifiers S.e' (s.move S.shift) (stack.map (Specifiers.move S.shift)) (t' :: us)) := by
  have htype : (s.move S.shift).hasType = s.hasType := rfl
  rcases ht with hk | ⟨kind, hk⟩
  · obtain ⟨name, hname, hof⟩ := exists_word_of_keyword? hk
    simp only [stepSpecifiers, hlexeme, hname, hof, htype]
    split
    · exact .fail (hblame _)
    · exact stepEnum_alike hline hread
  · obtain ⟨name, hname, hof⟩ := exists_word_of_keyword? hk
    simp only [stepSpecifiers, hlexeme, hname, hof, htype]
    split
    · exact .fail (hblame _)
    · exact stepTag_alike kind hline hread

/-- A word of the specifiers that is not that of a tag is taken alone, with its group. -/
theorem stepSpecifiers_next (s : Specifiers) (stack : List Specifiers)
    (hs : S.stand (t :: ts) (t' :: us)) (ht : S.rel t t') (hts : S.stand ts us)
    (hb : b = 0 ∨ b = 1 ∧ S.Quiet ∧ ¬ t.IsTagWord) :
    S.Alike (Step.size b) (ts.length + 1 + b) S.Onward (stepSpecifiers S.e s stack (t :: ts))
      (stepSpecifiers S.e' (s.move S.shift) (stack.map (Specifiers.move S.shift)) (t' :: us)) := by
  have hend : S.Alike (Step.size b) ((t :: ts).length + b) S.Onward
      (endSpecifiers s t stack (t :: ts)) _ :=
    endSpecifiers_alike ht hs (.inl ⟨ts, us, rfl, rfl, hts⟩)
  have htake (s' : Specifiers) {heard heard' : Option Heard} (hh : Option.Rel S.Hears heard heard') :
      S.Alike (Step.size b) (ts.length + 1 + b) S.Onward (.ok (.goOn heard (.specifiers s') stack ts))
        (.ok (.goOn heard' (.specifiers (s'.move S.shift)) (stack.map (Specifiers.move S.shift)) us)) :=
    .pure (Nat.add_le_add_right (Nat.le_succ _) _) (.inl (.goOn (p := .specifiers s') hh hts))
  have hfault (error : ParseError String) : S.Alike (Step.size b) (ts.length + 1 + b) S.Onward
      (.error (t.fault t.line error)) (.error (t'.fault t'.line error)) :=
    .fail (S.blame_at ht fun _ => error)
  by_cases hword : t.IsTagWord
  · obtain rfl := hb.resolve_right fun h => h.2.2 hword
    exact (stepSpecifiers_tagWord hword (S.lexeme ht) (S.line ht)
      (fun error => S.blame_at ht fun _ => error) (readTag_alike (b := 0) (.inl hts))).mono
        (Nat.le_succ _)
  have htype : (s.move S.shift).hasType = s.hasType := rfl
  have hfound : (s.move S.shift).found = s.found := rfl
  have hbase : (s.move S.shift).base = s.base := rfl
  unfold stepSpecifiers
  dsimp only
  rw [S.lexeme ht, htype, hfound, hbase]
  split
  · rename_i name hname
    have hk := keyword?_of_lexeme hname
    split <;> rename_i hof <;> rw [hof] at hk
    · exact htake _ .none
    · exact htake _ .none
    · refine Sides.Alike.mono ?_ (Nat.add_le_add_right (Nat.le_succ _) _)
      refine (skipGroup_alike (.inl hts) (hb.imp_right fun h => ⟨h.1, h.2.1⟩)).bind
        fun rest rest' _ _ hrest => ?_
      exact .pure le_rfl (hrest.imp_left (.goOn (p := .specifiers s) .none))
    · exact hend
    · exact absurd (.inr ⟨_, hk⟩) hword
    · exact absurd (.inl hk) hword
    · split
      · exact hfault _
      · split
        · exact hfault _
        · exact htake _ .none
    · split
      · exact hend
      · have hnames : ∀ x ∈ (Clause.named name t.line).names, S.word x := by
          simpa [Clause.names] using S.identifier ht hname
        rw [S.line ht]
        exact htake { s with found := true } (.some (Sides.hears ht hnames))
  · exact hend

theorem stepSpecifiers_alike (h : S.At 0 ts us) :
    S.Alike (Step.size 0) ts.length S.Onward (stepSpecifiers S.e s stack ts)
      (stepSpecifiers S.e' (s.move S.shift) (stack.map (Specifiers.move S.shift)) us) := by
  cases h.front with
  | past hp => exact .past hp fun _ => size_step (p := .specifiers s)
  | next hs ht hts => exact stepSpecifiers_next s stack hs ht hts (.inl rfl)
  | ended hs he =>
    rcases he with ⟨t, t', he, he', ht⟩ | ⟨f, f', he, he', hf⟩
    · rw [he, he']
      exact endSpecifiers_alike ht hs (.inr ⟨rfl, rfl⟩)
    · rw [he, he']
      exact .fail hf

/-- A declarator and the noise behind it. -/
def readEntity (e : Ending) (ts : List Token) : Except Fault (Declarator × List Token) :=
  readDeclarator e ts >>= fun r => skipNoise e r.2 >>= fun rest => .ok (r.1, rest)

theorem stepDeclarator_eq (typedef : Bool) :
    stepDeclarator e typedef stack ts = readEntity e ts >>= fun r => peek e r.2 >>= fun next =>
      if !stack.isEmpty && next.isPunct ':' then .error (next.fault r.1.line (.bitField r.1.name))
      else takePunct e '=' r.2 >>= fun p => skipValue e p.1 p.2 >>= fun rest =>
        hear e (.declare r.1 typedef) rest >>= fun heard =>
          .ok (.goOn heard (.tail typedef r.1.isFunction) stack rest) := by
  rw [stepDeclarator, readEntity]
  cases readDeclarator e ts with
  | error f => rfl
  | ok r =>
    obtain ⟨d, us⟩ := r
    change (skipNoise e us >>= _) = (skipNoise e us >>= _) >>= _
    cases skipNoise e us <;> rfl

theorem readEntity_of_alike
    (h : S.Alike (·.2.length) n S.Entity (readDeclarator S.e ts) (readDeclarator S.e' us)) :
    S.Alike (·.2.length) n S.Entity (readEntity S.e ts) (readEntity S.e' us) := by
  refine h.bind fun p q _ _ (hp : S.Entity p q ∨ S.Past (p.2.length + 0)) => ?_
  refine (skipNoise_alike (Sides.at_of_both hp)).bind fun rest rest' _ hle hrest => ?_
  refine .pure le_rfl ((Sides.and_past hp hrest hle le_rfl).imp_left ?_)
  rintro ⟨⟨hd, -⟩, hrest⟩
  exact ⟨hd, hrest⟩

/-- Where the declarator and the noise behind it are read alike, so is what follows. -/
theorem stepDeclarator_alike (typedef : Bool)
    (hread : S.Alike (·.2.length) n S.Entity (readEntity S.e ts) (readEntity S.e' us)) :
    S.Alike (Step.size 0) n S.Onward (stepDeclarator S.e typedef stack ts)
      (stepDeclarator S.e' typedef (stack.map (Specifiers.move S.shift)) us) := by
  rw [stepDeclarator_eq, stepDeclarator_eq]
  refine hread.bind fun r r' _ _ hr => ?_
  refine (peek_alike (b := 0) (Sides.at_of_both hr)).bind fun next next' _ _ hnext => ?_
  rcases Sides.and_past hr hnext le_rfl le_rfl with ⟨⟨⟨hd, hname⟩, hs⟩, hrel⟩ | hpast
  · rw [List.isEmpty_map, S.isPunct hrel, hd]
    split
    · exact .fail (S.fault _ _ hrel)
    · refine (takePunct_alike '=' (b := 0) (.inl hs)).bind fun p q _ _ hp => ?_
      refine Sides.Alike.mono ?_ (Nat.le_add_right _ _)
      refine (skipValue_alike hp).bind fun rest rest' _ _ hrest => ?_
      refine (hear_alike (c := .declare r.1 typedef) (by simpa [Clause.names] using hname) (b := 0)
        hrest).bind fun heard heard' _ _ hheard => ?_
      refine .pure le_rfl ((Sides.and_past hheard hrest le_rfl le_rfl).imp_left ?_)
      rintro ⟨hheard, hrest⟩
      exact .goOn (p := .tail typedef r.1.isFunction) (.some hheard) hrest
  · refine .past hpast fun x hx => ?_
    split at hx
    · cases hx
    · obtain ⟨p, hsign, hx⟩ := exists_of_bind_eq_ok hx
      obtain ⟨rest, hvalue, hx⟩ := exists_of_bind_eq_ok hx
      obtain ⟨heard, -, hx⟩ := exists_of_bind_eq_ok hx
      obtain rfl := Except.ok.inj hx
      exact (skipValue_length hvalue).trans (length_takePunct S.e hsign)

theorem stepTail_next (typedef function : Bool) (stack : List Specifiers) (hb : b ≤ 1)
    (ht : S.rel t t') (hts : S.stand ts us) :
    S.Alike (Step.size b) (ts.length + 1) S.Onward
      (stepTail S.e typedef function stack (t :: ts))
      (stepTail S.e' typedef function (stack.map (Specifiers.move S.shift)) (t' :: us)) := by
  rw [stepTail, stepTail, S.isPunct ht, S.isPunct ht, S.isPunct ht, List.isEmpty_map]
  split
  · refine Sides.Alike.mono ?_ (Nat.le_succ _)
    refine (skipBalanced_alike '{' '}' 0 (b := 0) (.inl hts)).bind fun rest rest' _ _ hrest => ?_
    exact .pure le_rfl (hrest.imp_left (.goOn .none))
  · split
    · exact .pure (Nat.add_le_add_left hb _) (.inl (.goOn (p := .declarator typedef) .none hts))
    · split
      · exact .pure le_rfl (.inl (.goOn .none hts))
      · exact .fail (S.blame_at ht (.expected ';'))

/-- **One step** leads to the same place, some lines further down. -/
theorem step_alike (place : Place) (h : S.At 0 ts us) :
    S.Alike (Step.size 0) ts.length S.Onward (step S.e place stack ts)
      (step S.e' (place.move S.shift) (stack.map (Specifiers.move S.shift)) us) := by
  cases place with
  | declaration => exact stepDeclaration_alike h
  | specifiers s => exact stepSpecifiers_alike h
  | declarator typedef =>
    exact stepDeclarator_alike typedef (readEntity_of_alike (readDeclarator_alike h (.inl rfl)))
  | tail typedef function =>
    cases h.front with
    | past hp => exact .past hp fun _ => size_step (p := .tail typedef function)
    | ended _ he => exact he.failAtEnd
    | next _ ht hts => exact stepTail_next typedef function stack (Nat.zero_le _) ht hts

end Steps

/-! ### The whole source -/

theorem completes_move (place : Place) (stack : List Specifiers) (k : ℕ) :
    completes (place.move k) (stack.map (Specifiers.move k)) = completes place stack := by
  unfold completes
  rw [List.isEmpty_map]
  cases place <;> simp [Place.move]

theorem forall₂_toList {P : α → β → Prop} {x : Option α} {x' : Option β} (h : Option.Rel P x x') :
    List.Forall₂ P x.toList x'.toList := by
  cases h with
  | some h => exact .cons h .nil
  | none => exact .nil

theorem map_eq_of_forall₂ {γ : Type} {P : α → β → Prop} {f : α → γ} {g : β → γ} {xs : List α}
    {ys : List β} (h : List.Forall₂ P xs ys) (hP : ∀ x y, P x y → g y = f x) :
    ys.map g = xs.map f := by
  induction h with
  | nil => rfl
  | cons h _ ih => rw [List.map_cons, List.map_cons, hP _ _ h, ih]

/-- **Readings that match**: the same clauses some lines further down, and as many declarations or
faults that match. -/
structure Sides.Agree (S : Sides) (r r' : Reading) : Prop where
  heard : List.Forall₂ S.Hears r.heard r'.heard
  ok : ∀ k, r.outcome = .ok k → r'.outcome = .ok k
  error : ∀ f, r.outcome = .error f → ∃ f', r'.outcome = .error f' ∧ S.blame f f'

/-- **All that is read matches**, if the lists match up to their ends. -/
theorem readFrom_alike (hspare : S.spare = none) (place : Place) (stack : List Specifiers)
    (h : S.stand ts us) :
    S.Agree (readFrom S.e place stack ts)
      (readFrom S.e' (place.move S.shift) (stack.map (Specifiers.move S.shift)) us) := by
  have hpast {n : ℕ} : ¬ S.Past n := by
    rintro ⟨m, hm, -⟩
    simp [hspare] at hm
  fun_induction readFrom S.e place stack ts generalizing us with
  | case1 place stack ts f hstep =>
    obtain ⟨f', hstep', hf⟩ :=
      ((step_alike place (.inl h)).error f hstep).resolve_right (by simp [hspare])
    rw [readFrom_eq, hstep']
    refine ⟨.nil, fun _ hk => (by cases hk), fun _ hf' => ⟨f', rfl, ?_⟩⟩
    exact Except.error.inj hf' ▸ hf
  | case2 place stack ts hstep =>
    obtain ⟨r, hstep', hr⟩ := (step_alike place (.inl h)).exists_ok hstep hpast
    cases hr
    rw [readFrom_eq, hstep']
    exact ⟨.nil, fun _ hk => hk, fun _ hf => (by cases hf)⟩
  | case3 =>
    rename_i place stack ts heard place' stack' rest hstep more ih
    obtain ⟨r, hstep', hr⟩ := (step_alike place (.inl h)).exists_ok hstep hpast
    cases hr with
    | goOn hh hrest =>
      have hmore := ih hrest
      rw [readFrom_eq, hstep']
      dsimp only
      rw [completes_move]
      refine ⟨List.rel_append (forall₂_toList hh) hmore.heard, fun k hk => ?_, fun f hf => ?_⟩
      · obtain ⟨j, hj, rfl⟩ := exists_of_map_eq_ok hk
        rw [hmore.ok j hj]
        rfl
      · cases hj : more.outcome with
        | ok j => simp [hj, Except.map] at hf
        | error fault =>
          obtain ⟨f', hf', hblame⟩ := hmore.error fault hj
          rw [hj] at hf
          rw [hf']
          exact ⟨f', rfl, Except.error.inj hf ▸ hblame⟩

/-! ### Readings on the same lines -/

theorem Clause.move_zero (c : Clause) : c.move 0 = c := by cases c <;> rfl

@[simp] theorem Place.move_zero (place : Place) : place.move 0 = place := by cases place <;> rfl

@[simp] theorem map_move_zero (stack : List Specifiers) : stack.map (Specifiers.move 0) = stack :=
  List.map_id stack

end TypeLayout
