import TypeLayout.Declaration.Reader

/-!
# Declarators

A declarator is a name with what is derived from it. Derivations are listed in the
order in which C reads them from the name outwards: `*a[4]` is an array of four
pointers, so its derivations are the array and then the pointer. What stands
between brackets is kept as it is written.
-/

namespace TypeLayout

/-- An array dimension as it is written: the lexemes between the brackets, and the
text between them without blanks at its ends. -/
structure Dimension where
  lexemes : List (Lexeme String)
  text : String
deriving DecidableEq, Inhabited, Repr

/-- One step from a declared name towards its base type. -/
inductive Derivation where
  | array (dimension : Dimension)
  | function
  | pointer
deriving DecidableEq, Inhabited, Repr

/-- A declared name and its derivations. -/
structure Declarator where
  name : String
  line : Nat
  derivations : List Derivation := []
deriving DecidableEq, Inhabited, Repr

/-- The name itself is a function, not a pointer to one or an array of them. -/
def Declarator.isFunction (d : Declarator) : Bool := d.derivations.head? == some .function

section

variable (e : Ending)

/-- The lexemes up to the bracket that closes a dimension, that bracket, and what
follows it; `depth` counts the further brackets that are open. -/
def readBrackets : Nat → List Token → Except Fault (List (Lexeme String) × Token × List Token)
  | _, [] => failAtEnd e
  | depth, t :: ts =>
    if t.isPunct ']' ∧ depth = 0 then .ok ([], t, ts)
    else
      match readBrackets (t.nesting '[' ']' depth) ts with
      | .error f => .error f
      | .ok (lexemes, close, rest) => .ok (t.lexeme :: lexemes, close, rest)

/-- The dimension after an opening bracket that has been read. -/
def readDimension (bracket : Token) (ts : List Token) : Except Fault (Dimension × List Token) :=
  match readBrackets e 0 ts with
  | .error f => .error f
  | .ok (lexemes, close, rest) =>
    let text := Text.trim (bracket.after.textUntil close.after 1)
    .ok (⟨lexemes, String.ofList text⟩, rest)

theorem length_readBrackets {depth : Nat} {ts rest : List Token} {lexemes : List (Lexeme String)}
    {close : Token} (h : readBrackets e depth ts = .ok (lexemes, close, rest)) :
    rest.length < ts.length := by
  fun_induction readBrackets e depth ts generalizing lexemes with
  | case1 => exact absurd h failAtEnd_ne_ok
  | case2 => simp_all
  | case3 => simp at h
  | case4 _ _ _ _ _ _ _ hr ih =>
    simp only [Except.ok.injEq, Prod.mk.injEq] at h
    obtain ⟨-, rfl, rfl⟩ := h
    have := ih hr
    simp only [List.length_cons]
    omega

theorem length_readDimension {bracket : Token} {ts rest : List Token} {d : Dimension}
    (h : readDimension e bracket ts = .ok (d, rest)) : rest.length < ts.length := by
  unfold readDimension at h
  split at h
  · simp at h
  · rename_i hr
    simp only [Except.ok.injEq, Prod.mk.injEq] at h
    exact h.2 ▸ length_readBrackets e hr

/-- The array and function derivations written after a name. -/
def readSuffixes (ts : List Token) : Except Fault (List Derivation × List Token) :=
  match ts with
  | [] => e.map fun _ => ([], [])
  | t :: rest =>
    if t.isPunct '[' then
      match _h : readDimension e t rest with
      | .error f => .error f
      | .ok (d, more) =>
        match readSuffixes more with
        | .error f => .error f
        | .ok (ds, rest) => .ok (.array d :: ds, rest)
    else if t.isPunct '(' then
      match _h : skipBalanced e '(' ')' 0 rest with
      | .error f => .error f
      | .ok more =>
        match readSuffixes more with
        | .error f => .error f
        | .ok (ds, rest) => .ok (.function :: ds, rest)
    else
      .ok ([], t :: rest)
termination_by ts.length
decreasing_by
  · have := length_readDimension e _h
    simp only [List.length_cons]
    omega
  · have := length_skipBalanced e _h
    simp only [List.length_cons]
    omega

theorem length_readSuffixes {ts rest : List Token} {ds : List Derivation}
    (h : readSuffixes e ts = .ok (ds, rest)) : rest.length ≤ ts.length := by
  fun_induction readSuffixes e ts generalizing ds rest with
  | case1 => cases e <;> simp_all [Except.map]
  | case2 | case3 | case5 | case6 => simp at h
  | case4 _ _ _ _ _ hd _ _ hs ih =>
    have := length_readDimension e hd
    have := ih hs
    simp only [Except.ok.injEq, Prod.mk.injEq] at h
    obtain ⟨-, rfl⟩ := h
    simp only [List.length_cons]
    omega
  | case7 _ _ _ _ _ hd _ _ hs ih =>
    have := length_skipBalanced e hd
    have := ih hs
    simp only [Except.ok.injEq, Prod.mk.injEq] at h
    obtain ⟨-, rfl⟩ := h
    simp only [List.length_cons]
    omega
  | case8 => simp_all

/-- The stars in front of a declarator, with noise around them. -/
def readStars (ts : List Token) : Except Fault (Nat × List Token) :=
  match _h : skipNoise e ts with
  | .error f => .error f
  | .ok [] => e.map fun _ => (0, [])
  | .ok (t :: rest) =>
    if t.isPunct '*' then
      match readStars rest with
      | .error f => .error f
      | .ok (n, rest) => .ok (n + 1, rest)
    else
      .ok (0, t :: rest)
termination_by ts.length
decreasing_by
  have := length_skipNoise e _h
  simp only [List.length_cons] at this
  omega

theorem length_readStars {n : Nat} {ts rest : List Token} (h : readStars e ts = .ok (n, rest)) :
    rest.length ≤ ts.length := by
  fun_induction readStars e ts generalizing n rest with
  | case1 | case3 => simp at h
  | case2 =>
    cases e with
    | error f => simp [Except.map] at h
    | ok t =>
      simp only [Except.map, Except.ok.injEq, Prod.mk.injEq] at h
      simp [← h.2]
  | case4 _ _ _ hn _ _ _ hr ih =>
    have := length_skipNoise e hn
    have := ih hr
    simp only [Except.ok.injEq, Prod.mk.injEq] at h
    obtain ⟨-, rfl⟩ := h
    simp only [List.length_cons] at *
    omega
  | case5 _ _ _ hn =>
    have := length_skipNoise e hn
    simp only [Except.ok.injEq, Prod.mk.injEq] at h
    obtain ⟨-, rfl⟩ := h
    exact this

/-- Reads what is written after the name or the inner declarator and puts the
derivations together: the inner ones, the suffixes, the stars. -/
def finishDeclarator (d : Declarator) (stars : Nat) (ts : List Token) :
    Except Fault (Declarator × List Token) :=
  match readSuffixes e ts with
  | .error f => .error f
  | .ok (suffixes, rest) =>
    .ok ({ d with
      derivations := d.derivations ++ suffixes ++ List.replicate stars .pointer }, rest)

/-- Reads a declarator. -/
def readDeclarator (ts : List Token) : Except Fault (Declarator × List Token) :=
  match _h : readStars e ts with
  | .error f => .error f
  | .ok (_, []) =>
    match e with
    | .error f => .error f
    | .ok t => .error (t.fault t.line (.expectedIdentifier t.lexeme))
  | .ok (stars, t :: rest) =>
    if t.isPunct '(' then
      match readDeclarator rest with
      | .error f => .error f
      | .ok (inner, rest) =>
        match expectPunct e ')' rest with
        | .error f => .error f
        | .ok rest => finishDeclarator e inner stars rest
    else
      match t.lexeme with
      | .identifier name => finishDeclarator e { name, line := t.line } stars rest
      | _ => .error (t.fault t.line (.expectedIdentifier t.lexeme))
termination_by ts.length
decreasing_by
  have := length_readStars e _h
  simp only [List.length_cons] at this
  omega

theorem length_finishDeclarator {d d' : Declarator} {stars : Nat} {ts rest : List Token}
    (h : finishDeclarator e d stars ts = .ok (d', rest)) : rest.length ≤ ts.length := by
  unfold finishDeclarator at h
  split at h
  · simp at h
  · rename_i hs
    simp only [Except.ok.injEq, Prod.mk.injEq] at h
    exact h.2 ▸ length_readSuffixes e hs

theorem length_readDeclarator {d : Declarator} {ts rest : List Token}
    (h : readDeclarator e ts = .ok (d, rest)) : rest.length < ts.length := by
  fun_induction readDeclarator e ts generalizing d rest with
  | case1 | case2 | case3 | case4 | case5 | case8 => simp at h
  | case6 _ _ _ _ hn _ _ _ hr _ hp ih =>
    have := length_readStars e hn
    have := ih hr
    have := length_expectPunct e hp
    have := length_finishDeclarator e h
    simp only [List.length_cons] at *
    omega
  | case7 _ _ _ _ hn =>
    have := length_readStars e hn
    have := length_finishDeclarator e h
    simp only [List.length_cons] at *
    omega

/-! ### Readers as sequences of steps -/

variable {e} {stars : Nat} {t : Token} {ts : List Token}

theorem readBrackets_cons {depth : Nat} (h : ¬ (t.isPunct ']' = true ∧ depth = 0)) :
    readBrackets e depth (t :: ts) = (readBrackets e (t.nesting '[' ']' depth) ts).map fun r =>
      (t.lexeme :: r.1, r.2) := by
  rw [readBrackets, if_neg h]
  cases readBrackets e (t.nesting '[' ']' depth) ts <;> rfl

theorem readDimension_eq (bracket : Token) (ts : List Token) :
    readDimension e bracket ts = (readBrackets e 0 ts).map fun r =>
      (⟨r.1, String.ofList (Text.trim (bracket.after.textUntil r.2.1.after 1))⟩, r.2.2) := by
  rw [readDimension]
  cases readBrackets e 0 ts <;> rfl

/-- An array suffix and those after it. -/
theorem readSuffixes_bracket (ht : t.isPunct '[' = true) :
    readSuffixes e (t :: ts) = readDimension e t ts >>= fun r =>
      readSuffixes e r.2 >>= fun r' => .ok (.array r.1 :: r'.1, r'.2) := by
  rw [readSuffixes, if_pos ht]
  split
  · rename_i h
    rw [h]
    rfl
  · rename_i d more h
    rw [h]
    show _ = (readSuffixes e more >>= _)
    cases readSuffixes e more <;> rfl

/-- A function suffix and those after it. -/
theorem readSuffixes_paren (hb : ¬ t.isPunct '[' = true) (ht : t.isPunct '(' = true) :
    readSuffixes e (t :: ts) = skipBalanced e '(' ')' 0 ts >>= fun more =>
      readSuffixes e more >>= fun r => .ok (.function :: r.1, r.2) := by
  rw [readSuffixes, if_neg hb, if_pos ht]
  split
  · rename_i h
    rw [h]
    rfl
  · rename_i more h
    rw [h]
    show _ = (readSuffixes e more >>= _)
    cases readSuffixes e more <;> rfl

/-- Reading stars depends on what is left behind the noise only. -/
theorem readStars_eq (ts : List Token) :
    readStars e ts = skipNoise e ts >>= fun
      | [] => e.map fun _ => (0, [])
      | t :: rest =>
        if t.isPunct '*' then (readStars e rest).map fun r => (r.1 + 1, r.2)
        else .ok (0, t :: rest) := by
  rw [readStars]
  split
  · rename_i h
    rw [h]
    rfl
  · rename_i h
    rw [h]
    rfl
  · rename_i t rest h
    rw [h, ok_bind]
    dsimp only
    split
    · cases readStars e rest <;> rfl
    · rfl

/-- What is read behind the stars of a declarator. -/
def declaratorBehind (e : Ending) (stars : Nat) : List Token → Except Fault (Declarator × List Token)
  | [] => e >>= fun t => .error (t.fault t.line (.expectedIdentifier t.lexeme))
  | t :: rest =>
    if t.isPunct '(' then
      readDeclarator e rest >>= fun r => expectPunct e ')' r.2 >>= finishDeclarator e r.1 stars
    else
      match t.lexeme with
      | .identifier name => finishDeclarator e { name, line := t.line } stars rest
      | _ => .error (t.fault t.line (.expectedIdentifier t.lexeme))

theorem declaratorBehind_paren (ht : t.isPunct '(' = true) :
    declaratorBehind e stars (t :: ts) = readDeclarator e ts >>= fun r =>
      expectPunct e ')' r.2 >>= finishDeclarator e r.1 stars :=
  if_pos ht

theorem declaratorBehind_name {name : String} (ht : t.lexeme = .identifier name) :
    declaratorBehind e stars (t :: ts) = finishDeclarator e { name, line := t.line } stars ts := by
  rw [declaratorBehind, if_neg (by simp [Token.isPunct, ht, Lexeme.isPunct]), ht]

/-- Reading a declarator begins with its stars, and what stands behind them decides. -/
theorem readDeclarator_eq (ts : List Token) :
    readDeclarator e ts = readStars e ts >>= fun r => declaratorBehind e r.1 r.2 := by
  rw [readDeclarator]
  split
  · rename_i h
    rw [h]
    rfl
  · rename_i h
    cases e with
    | error f =>
      dsimp only
      rw [h]
      rfl
    | ok t =>
      dsimp only
      rw [h]
      rfl
  · rename_i n t rest h
    rw [h, ok_bind, declaratorBehind]
    split
    · cases readDeclarator e rest with
      | error f => rfl
      | ok r =>
        rw [ok_bind]
        dsimp only
        cases expectPunct e ')' r.2 <;> rfl
    · rfl

theorem length_declaratorBehind {d : Declarator × List Token}
    (h : declaratorBehind e stars ts = .ok d) : d.2.length < ts.length := by
  unfold declaratorBehind at h
  split at h
  · cases e <;> cases h
  · rw [List.length_cons]
    split at h
    · obtain ⟨r, hinner, h⟩ := exists_of_bind_eq_ok h
      obtain ⟨rest, hclose, h⟩ := exists_of_bind_eq_ok h
      have := length_readDeclarator e hinner
      have := length_expectPunct e hclose
      have := length_finishDeclarator e h
      omega
    · split at h
      · exact Nat.lt_succ_of_le (length_finishDeclarator e h)
      · cases h

theorem finishDeclarator_eq (d : Declarator) (stars : Nat) (ts : List Token) :
    finishDeclarator e d stars ts = (readSuffixes e ts).map fun r =>
      ({ d with derivations := d.derivations ++ r.1 ++ List.replicate stars .pointer }, r.2) := by
  rw [finishDeclarator]
  cases readSuffixes e ts <;> rfl

end

end TypeLayout
