import TypeLayout.Declaration.BaseType
import TypeLayout.Declaration.Declarator

/-!
# Clauses: what declarations say, in reading order

Reading declarations and acting on them are two things. This module does the
first: it turns tokens into *clauses*, the smallest pieces that the type graph can
act on, in the order in which the source says them. A struct body is an opening
clause, the clauses of its fields, and a closing clause. Nothing here depends on
what a name means, so the clauses of a text are the same in every context.

The reader is a machine that takes one step at a time. Between steps it is at one
of four places (`Place`), and the bodies that are open form a stack. A step takes at
least one token or moves to a place of lower rank (`step_progress`), which is why
reading ends.

A clause comes with the cursor up to which the source had been looked at when the
clause was complete, so that an error in acting on it can be shown with the source.
-/

namespace TypeLayout

/-- One piece of what declarations say. Lines are those of the tokens that an error
about the clause is reported at. -/
inductive Clause where
  /-- The body of a struct or union begins. -/
  | openBody (kind : TagKind) (name : Option String) (line : Nat)
  /-- The body that was opened last ends. -/
  | closeBody
  /-- The type is a struct or union named by its tag. -/
  | tag (kind : TagKind) (name : String) (line : Nat)
  /-- The type is an enumeration, with or without a list of its values. -/
  | enum (name : Option String) (body : Bool) (line : Nat)
  /-- The type is a built-in one. -/
  | base (spelling : String) (unsigned : Bool) (line : Nat)
  /-- The type is named by an identifier. -/
  | named (name : String) (line : Nat)
  /-- A declarator of the type named last. -/
  | declare (d : Declarator) (typedef : Bool)
  /-- The declaration ends without a declarator. -/
  | bare (line : Nat)
deriving DecidableEq, Repr

/-- A clause and how far the source had been looked at when it was complete. -/
structure Heard where
  clause : Clause
  seen : Cursor
deriving DecidableEq, Repr

/-- The specifiers of a declaration, as far as they have been read. -/
structure Specifiers where
  /-- The line on which the declaration begins. -/
  line : Nat
  typedef : Bool := false
  base : BaseWords := {}
  /-- A clause has named the type. -/
  found : Bool := false
deriving DecidableEq, Repr

/-- A type has been named, or part of one. -/
def Specifiers.hasType (s : Specifiers) : Bool := s.found || !s.base.isEmpty

/-- Where the reader is. -/
inductive Place where
  /-- In front of a declaration or of what ends a list of them. -/
  | declaration
  /-- Among the specifiers of a declaration. -/
  | specifiers (s : Specifiers)
  /-- In front of a declarator. -/
  | declarator (typedef : Bool)
  /-- After a declarator. -/
  | tail (typedef function : Bool)
deriving DecidableEq, Repr

/-- A number that falls with every step that takes no token. -/
def Place.rank : Place → Nat
  | declaration => 3
  | specifiers s => if s.found then 1 else 2
  | declarator _ | tail _ _ => 0

theorem Place.rank_le (place : Place) : place.rank ≤ 3 := by
  unfold Place.rank
  split
  · omega
  · split <;> omega
  · omega
  · omega

/-- What a step leads to. -/
inductive Step where
  /-- The source is at its end. -/
  | finished
  /-- Reading goes on. The stack holds the specifiers in the middle of which a body
  was opened, the innermost first. -/
  | goOn (heard : Option Heard) (place : Place) (stack : List Specifiers) (rest : List Token)

section

variable (e : Ending)

/-- A clause that is complete when the given tokens come next. -/
def hear (clause : Clause) (rest : List Token) : Except Fault Heard :=
  match peek e rest with
  | .error f => .error f
  | .ok t => .ok ⟨clause, t.after⟩

theorem hear_bind {β : Type} (clause : Clause) (ts : List Token) (k : Heard → Except Fault β) :
    (hear e clause ts >>= k) = peek e ts >>= fun t => k ⟨clause, t.after⟩ := by
  unfold hear
  cases peek e ts <;> rfl

/-- Skips the rest of the list of an enumeration's values, if there is one, and the
noise after it. -/
def skipEnumerators (body : Bool) (ts : List Token) : Except Fault (List Token) :=
  if body then
    match skipBalanced e '{' '}' 0 ts with
    | .error f => .error f
    | .ok rest => skipNoise e rest
  else
    .ok ts

/-- Skips the value that a declarator is given, if there is one. -/
def skipValue (initialized : Bool) (ts : List Token) : Except Fault (List Token) :=
  if initialized then skipInitializer e 0 ts else .ok ts

/-- A declaration begins, a body ends, or the source does. -/
def stepDeclaration (stack : List Specifiers) : List Token → Except Fault Step
  | [] =>
    match stack with
    | [] => e.map fun _ => .finished
    | _ :: _ => failAtEnd e
  | t :: ts =>
    match stack, t.isPunct '}' with
    | outer :: stack, true => do
      let rest ← skipNoise e ts
      let heard ← hear e .closeBody rest
      .ok (.goOn heard (.specifiers { outer with found := true }) stack rest)
    | _, _ =>
      if t.isPunct ';' then
        .ok (.goOn none .declaration stack ts)
      else if t.keyword? = some .staticAssert then do
        let rest ← expectPunct e '(' ts
        let rest ← skipBalanced e '(' ')' 0 rest
        let rest ← expectPunct e ';' rest
        .ok (.goOn none .declaration stack rest)
      else
        .ok (.goOn none (.specifiers { line := t.line }) stack (t :: ts))

/-- The rest of a struct or union specifier; `t` is its keyword. -/
def stepTag (s : Specifiers) (kind : TagKind) (t : Token) (stack : List Specifiers)
    (ts : List Token) : Except Fault Step := do
  let rest ← skipNoise e ts
  let (name, rest) ← takeIdentifier e rest
  let rest ← skipNoise e rest
  let next ← peek e rest
  let (body, rest) ← takePunct e '{' rest
  if body then
    .ok (.goOn (some ⟨.openBody kind name t.line, next.after⟩) .declaration (s :: stack) rest)
  else
    match name with
    | none => .error (next.fault t.line (.tagWithoutBody kind.keyword))
    | some name =>
      .ok (.goOn (some ⟨.tag kind name t.line, next.after⟩) (.specifiers { s with found := true })
        stack rest)

/-- The rest of an enumeration specifier; `t` is its keyword. -/
def stepEnum (s : Specifiers) (t : Token) (stack : List Specifiers) (ts : List Token) :
    Except Fault Step := do
  let rest ← skipNoise e ts
  let (name, rest) ← takeIdentifier e rest
  let rest ← skipNoise e rest
  let (body, rest) ← takePunct e '{' rest
  let rest ← skipEnumerators e body rest
  let next ← peek e rest
  if name.isNone && !body then
    .error (next.fault t.line (.tagWithoutBody "enum"))
  else
    .ok (.goOn (some ⟨.enum name body t.line, next.after⟩) (.specifiers { s with found := true })
      stack rest)

/-- The specifiers end in front of the token `t`, the first of `ts`. -/
def endSpecifiers (s : Specifiers) (t : Token) (stack : List Specifiers) (ts : List Token) :
    Except Fault Step :=
  if s.found then
    match ts with
    | t :: rest =>
      if t.isPunct ';' then
        .ok (.goOn (some ⟨.bare s.line, t.after⟩) .declaration stack rest)
      else
        .ok (.goOn none (.declarator s.typedef) stack ts)
    | [] => .ok (.goOn none (.declarator s.typedef) stack ts)
  else if s.base.isEmpty then
    .error (t.fault t.line (if t.isEof then .unexpectedEof else .expectedType t.lexeme))
  else
    match s.base.spelling? with
    | none => .error (t.fault s.line .conflictingSpecifiers)
    | some spelling =>
      .ok (.goOn (some ⟨.base spelling (s.base.signed == some false) s.line, t.after⟩)
        (.specifiers { s with base := {}, found := true }) stack ts)

/-- One specifier, or the end of them. -/
def stepSpecifiers (s : Specifiers) (stack : List Specifiers) (ts : List Token) :
    Except Fault Step :=
  match ts with
  | [] =>
    match e with
    | .error f => .error f
    | .ok t => endSpecifiers s t stack ts
  | t :: rest =>
    match t.lexeme with
    | .identifier name =>
      match Keyword.of? name with
      | some .typedef => .ok (.goOn none (.specifiers { s with typedef := true }) stack rest)
      | some .qualifier => .ok (.goOn none (.specifiers s) stack rest)
      | some .extension => do
        let rest ← skipGroup e rest
        .ok (.goOn none (.specifiers s) stack rest)
      | some .staticAssert => endSpecifiers s t stack ts
      | some (.tag kind) =>
        if s.hasType then .error (t.fault t.line .conflictingSpecifiers)
        else stepTag e s kind t stack rest
      | some .enum =>
        if s.hasType then .error (t.fault t.line .conflictingSpecifiers)
        else stepEnum e s t stack rest
      | some (.base word) =>
        if s.found then .error (t.fault t.line .conflictingSpecifiers)
        else
          match s.base.add word with
          | .error err => .error (t.fault t.line err)
          | .ok base => .ok (.goOn none (.specifiers { s with base }) stack rest)
      | none =>
        -- once a type is known the next name is that of a declarator
        if s.hasType then endSpecifiers s t stack ts
        else
          .ok (.goOn (some ⟨.named name t.line, t.after⟩) (.specifiers { s with found := true })
            stack rest)
    | _ => endSpecifiers s t stack ts

/-- A declarator with its initializer. -/
def stepDeclarator (typedef : Bool) (stack : List Specifiers) (ts : List Token) :
    Except Fault Step := do
  let (d, rest) ← readDeclarator e ts
  let rest ← skipNoise e rest
  let next ← peek e rest
  if !stack.isEmpty && next.isPunct ':' then
    .error (next.fault d.line (.bitField d.name))
  else
    let (initialized, rest) ← takePunct e '=' rest
    let rest ← skipValue e initialized rest
    let heard ← hear e (.declare d typedef) rest
    .ok (.goOn heard (.tail typedef d.isFunction) stack rest)

/-- What follows a declarator: the body of a function at file scope, another
declarator, or the end of the declaration. -/
def stepTail (typedef function : Bool) (stack : List Specifiers) :
    List Token → Except Fault Step
  | [] => failAtEnd e
  | t :: ts =>
    if stack.isEmpty && function && t.isPunct '{' then do
      let rest ← skipBalanced e '{' '}' 0 ts
      .ok (.goOn none .declaration stack rest)
    else if t.isPunct ',' then
      .ok (.goOn none (.declarator typedef) stack ts)
    else if t.isPunct ';' then
      .ok (.goOn none .declaration stack ts)
    else
      .error (t.fault t.line (.expected ';' t.lexeme))

theorem stepTail_cons (typedef function : Bool) (stack : List Specifiers) (t : Token)
    (ts : List Token) : stepTail e typedef function stack (t :: ts) =
      if stack.isEmpty && function && t.isPunct '{' then
        skipBalanced e '{' '}' 0 ts >>= fun rest => .ok (.goOn none .declaration stack rest)
      else if t.isPunct ',' then .ok (.goOn none (.declarator typedef) stack ts)
      else expectPunct e ';' (t :: ts) >>= fun rest => .ok (.goOn none .declaration stack rest) := by
  rw [stepTail, expectPunct]
  split
  · rfl
  · split
    · rfl
    · split <;> rfl

/-- One step of the reader. -/
def step (place : Place) (stack : List Specifiers) (ts : List Token) : Except Fault Step :=
  match place with
  | .declaration => stepDeclaration e stack ts
  | .specifiers s => stepSpecifiers e s stack ts
  | .declarator typedef => stepDeclarator e typedef stack ts
  | .tail typedef function => stepTail e typedef function stack ts

/-! ### What a step can do -/

/-- The tag behind the keyword of a specifier, if there is one, with the noise around it. -/
def readTag (ts : List Token) : Except Fault (Option String × List Token) := do
  let rest ← skipNoise e ts
  let (name, rest) ← takeIdentifier e rest
  let rest ← skipNoise e rest
  .ok (name, rest)

/-- No word of the specifiers comes next. -/
def Specifiers.EndAt (s : Specifiers) (ts : List Token) : Prop :=
  ∀ t name, ts.head? = some t → t.lexeme = .identifier name →
    Keyword.of? name = some .staticAssert ∨ Keyword.of? name = none ∧ s.hasType = true

/-- **What a step does**, by the tokens in front of it. -/
inductive Goes : Place → List Specifiers → List Token → Step → Prop
  | finish {t : Token} (he : e = .ok t) : Goes .declaration [] [] .finished
  | close {t next : Token} {ts rest : List Token} {s : Specifiers} {stack : List Specifiers}
    (ht : t.isPunct '}' = true) (hskip : skipNoise e ts = .ok rest)
    (hnext : peek e rest = .ok next) :
    Goes .declaration (s :: stack) (t :: ts) (.goOn (some ⟨.closeBody, next.after⟩)
      (.specifiers { s with found := true }) stack rest)
  | empty {t : Token} {ts : List Token} {stack : List Specifiers} (ht : t.isPunct ';' = true) :
    Goes .declaration stack (t :: ts) (.goOn none .declaration stack ts)
  | assertion {t : Token} {ts us vs rest : List Token} {stack : List Specifiers}
    (ht : t.keyword? = some .staticAssert) (hopen : expectPunct e '(' ts = .ok us)
    (hskip : skipBalanced e '(' ')' 0 us = .ok vs) (hend : expectPunct e ';' vs = .ok rest) :
    Goes .declaration stack (t :: ts) (.goOn none .declaration stack rest)
  | begin {t : Token} {ts : List Token} {stack : List Specifiers}
    (hbody : t.isPunct '}' = true → stack = []) (hempty : t.isPunct ';' = false)
    (hassert : t.keyword? ≠ some .staticAssert) :
    Goes .declaration stack (t :: ts) (.goOn none (.specifiers { line := t.line }) stack (t :: ts))
  | typedef {t : Token} {ts : List Token} {s : Specifiers} {stack : List Specifiers}
    (ht : t.keyword? = some .typedef) :
    Goes (.specifiers s) stack (t :: ts)
      (.goOn none (.specifiers { s with typedef := true }) stack ts)
  | qualifier {t : Token} {ts : List Token} {s : Specifiers} {stack : List Specifiers}
    (ht : t.keyword? = some .qualifier) :
    Goes (.specifiers s) stack (t :: ts) (.goOn none (.specifiers s) stack ts)
  | extension {t : Token} {ts rest : List Token} {s : Specifiers} {stack : List Specifiers}
    (ht : t.keyword? = some .extension) (hskip : skipGroup e ts = .ok rest) :
    Goes (.specifiers s) stack (t :: ts) (.goOn none (.specifiers s) stack rest)
  | openBody {t next : Token} {kind : TagKind} {name : Option String} {ts us rest : List Token}
    {s : Specifiers} {stack : List Specifiers} (ht : t.keyword? = some (.tag kind))
    (hs : s.hasType = false) (htag : readTag e ts = .ok (name, us)) (hnext : peek e us = .ok next)
    (hbody : takePunct e '{' us = .ok (true, rest)) :
    Goes (.specifiers s) stack (t :: ts) (.goOn (some ⟨.openBody kind name t.line, next.after⟩)
      .declaration (s :: stack) rest)
  | tag {t next : Token} {kind : TagKind} {name : String} {ts us rest : List Token}
    {s : Specifiers} {stack : List Specifiers} (ht : t.keyword? = some (.tag kind))
    (hs : s.hasType = false) (htag : readTag e ts = .ok (some name, us))
    (hnext : peek e us = .ok next) (hbody : takePunct e '{' us = .ok (false, rest)) :
    Goes (.specifiers s) stack (t :: ts) (.goOn (some ⟨.tag kind name t.line, next.after⟩)
      (.specifiers { s with found := true }) stack rest)
  | enum {t next : Token} {name : Option String} {body : Bool} {ts us vs rest : List Token}
    {s : Specifiers} {stack : List Specifiers} (ht : t.keyword? = some .enum)
    (hs : s.hasType = false) (htag : readTag e ts = .ok (name, us))
    (hbody : takePunct e '{' us = .ok (body, vs)) (hlist : skipEnumerators e body vs = .ok rest)
    (hnext : peek e rest = .ok next) (hname : (name.isNone && !body) = false) :
    Goes (.specifiers s) stack (t :: ts) (.goOn (some ⟨.enum name body t.line, next.after⟩)
      (.specifiers { s with found := true }) stack rest)
  | word {t : Token} {w : BaseWord} {base : BaseWords} {ts : List Token} {s : Specifiers}
    {stack : List Specifiers} (ht : t.keyword? = some (.base w)) (hs : s.found = false)
    (hbase : s.base.add w = .ok base) :
    Goes (.specifiers s) stack (t :: ts) (.goOn none (.specifiers { s with base }) stack ts)
  | named {t : Token} {name : String} {ts : List Token} {s : Specifiers} {stack : List Specifiers}
    (ht : t.lexeme = .identifier name) (hk : Keyword.of? name = none) (hs : s.hasType = false) :
    Goes (.specifiers s) stack (t :: ts) (.goOn (some ⟨.named name t.line, t.after⟩)
      (.specifiers { s with found := true }) stack ts)
  | bare {t : Token} {ts : List Token} {s : Specifiers} {stack : List Specifiers}
    (hend : s.EndAt (t :: ts)) (hs : s.found = true) (ht : t.isPunct ';' = true) :
    Goes (.specifiers s) stack (t :: ts)
      (.goOn (some ⟨.bare s.line, t.after⟩) .declaration stack ts)
  | declarators {next : Token} {ts : List Token} {s : Specifiers} {stack : List Specifiers}
    (hend : s.EndAt ts) (hnext : peek e ts = .ok next) (hs : s.found = true)
    (hmore : ∀ t, ts.head? = some t → t.isPunct ';' = false) :
    Goes (.specifiers s) stack ts (.goOn none (.declarator s.typedef) stack ts)
  | base {next : Token} {spelling : String} {ts : List Token} {s : Specifiers}
    {stack : List Specifiers} (hend : s.EndAt ts) (hnext : peek e ts = .ok next)
    (hs : s.found = false) (hne : s.base.isEmpty = false)
    (hspelling : s.base.spelling? = some spelling) :
    Goes (.specifiers s) stack ts
      (.goOn (some ⟨.base spelling (s.base.signed == some false) s.line, next.after⟩)
        (.specifiers { s with base := {}, found := true }) stack ts)
  | declare {d : Declarator} {next last : Token} {typedef initialized : Bool}
    {ts us vs ws rest : List Token} {stack : List Specifiers}
    (hread : readDeclarator e ts = .ok (d, us)) (hskip : skipNoise e us = .ok vs)
    (hnext : peek e vs = .ok next) (hfield : (!stack.isEmpty && next.isPunct ':') = false)
    (hsign : takePunct e '=' vs = .ok (initialized, ws))
    (hvalue : skipValue e initialized ws = .ok rest) (hlast : peek e rest = .ok last) :
    Goes (.declarator typedef) stack ts (.goOn (some ⟨.declare d typedef, last.after⟩)
      (.tail typedef d.isFunction) stack rest)
  | function {t : Token} {typedef : Bool} {ts rest : List Token} (ht : t.isPunct '{' = true)
    (hskip : skipBalanced e '{' '}' 0 ts = .ok rest) :
    Goes (.tail typedef true) [] (t :: ts) (.goOn none .declaration [] rest)
  | comma {t : Token} {typedef function : Bool} {ts : List Token} {stack : List Specifiers}
    (ht : t.isPunct ',' = true) :
    Goes (.tail typedef function) stack (t :: ts) (.goOn none (.declarator typedef) stack ts)
  | semicolon {t : Token} {typedef function : Bool} {ts : List Token} {stack : List Specifiers}
    (ht : t.isPunct ';' = true) :
    Goes (.tail typedef function) stack (t :: ts) (.goOn none .declaration stack ts)

variable {e} {ts : List Token} {stack : List Specifiers} {s : Specifiers} {t : Token} {r : Step}

theorem Specifiers.EndAt.mono {s' : Specifiers} (h : s.EndAt ts) (hs : s'.hasType = true) :
    s'.EndAt ts := by
  intro t name ht hname
  exact (h t name ht hname).imp_right fun hk => ⟨hk.1, hs⟩

theorem hear_eq_ok {c : Clause} {h : Heard} (hh : hear e c ts = .ok h) :
    ∃ next, peek e ts = .ok next ∧ h = ⟨c, next.after⟩ := by
  unfold hear at hh
  split at hh
  · cases hh
  · exact ⟨_, ‹_›, (Except.ok.inj hh).symm⟩

theorem readTag_of_eq_ok {name : Option String} {us vs ws : List Token}
    (h₁ : skipNoise e ts = .ok us) (h₂ : takeIdentifier e us = .ok (name, vs))
    (h₃ : skipNoise e vs = .ok ws) : readTag e ts = .ok (name, ws) := by
  simp only [readTag, h₁, h₂, h₃, ok_bind]

theorem exists_of_readTag {name : Option String} {ws : List Token}
    (h : readTag e ts = .ok (name, ws)) :
    ∃ us vs, skipNoise e ts = .ok us ∧ takeIdentifier e us = .ok (name, vs) ∧
      skipNoise e vs = .ok ws := by
  obtain ⟨us, h₁, h⟩ := exists_of_bind_eq_ok h
  obtain ⟨⟨name, vs⟩, h₂, h⟩ := exists_of_bind_eq_ok h
  obtain ⟨ws, h₃, h⟩ := exists_of_bind_eq_ok h
  obtain ⟨rfl, rfl⟩ := Prod.mk.inj (Except.ok.inj h)
  exact ⟨us, vs, h₁, h₂, h₃⟩

theorem goes_stepDeclaration (h : stepDeclaration e stack ts = .ok r) :
    Goes e .declaration stack ts r := by
  unfold stepDeclaration at h
  split at h
  · split at h
    · cases e with
      | error f => cases h
      | ok t =>
        obtain rfl := Except.ok.inj h
        exact .finish rfl
    · exact absurd h failAtEnd_ne_ok
  · split at h
    · rename_i hclose
      obtain ⟨rest, hskip, h⟩ := exists_of_bind_eq_ok h
      obtain ⟨heard, hhear, h⟩ := exists_of_bind_eq_ok h
      obtain ⟨next, hnext, rfl⟩ := hear_eq_ok hhear
      obtain rfl := Except.ok.inj h
      exact .close hclose hskip hnext
    · rename_i stack _ _ hbody
      split at h
      · obtain rfl := Except.ok.inj h
        exact .empty ‹_›
      · split at h
        · obtain ⟨us, hopen, h⟩ := exists_of_bind_eq_ok h
          obtain ⟨vs, hskip, h⟩ := exists_of_bind_eq_ok h
          obtain ⟨rest, hend, h⟩ := exists_of_bind_eq_ok h
          obtain rfl := Except.ok.inj h
          exact .assertion ‹_› hopen hskip hend
        · obtain rfl := Except.ok.inj h
          refine .begin (fun hclose => ?_) (Bool.eq_false_iff.mpr ‹_›) ‹_›
          cases stack with
          | nil => rfl
          | cons outer stack => exact absurd hclose (hbody outer stack rfl)

theorem goes_stepTag {kind : TagKind} (ht : t.keyword? = some (.tag kind))
    (hs : s.hasType = false) (h : stepTag e s kind t stack ts = .ok r) :
    Goes e (.specifiers s) stack (t :: ts) r := by
  obtain ⟨us, h₁, h⟩ := exists_of_bind_eq_ok h
  obtain ⟨⟨name, vs⟩, h₂, h⟩ := exists_of_bind_eq_ok h
  obtain ⟨ws, h₃, h⟩ := exists_of_bind_eq_ok h
  obtain ⟨next, hnext, h⟩ := exists_of_bind_eq_ok h
  obtain ⟨⟨body, rest⟩, hbody, h⟩ := exists_of_bind_eq_ok h
  have htag := readTag_of_eq_ok h₁ h₂ h₃
  cases body with
  | true =>
    obtain rfl := Except.ok.inj h
    exact .openBody ht hs htag hnext hbody
  | false =>
    cases name with
    | none => cases h
    | some name =>
      obtain rfl := Except.ok.inj h
      exact .tag ht hs htag hnext hbody

theorem goes_stepEnum (ht : t.keyword? = some .enum) (hs : s.hasType = false)
    (h : stepEnum e s t stack ts = .ok r) : Goes e (.specifiers s) stack (t :: ts) r := by
  obtain ⟨us, h₁, h⟩ := exists_of_bind_eq_ok h
  obtain ⟨⟨name, vs⟩, h₂, h⟩ := exists_of_bind_eq_ok h
  obtain ⟨ws, h₃, h⟩ := exists_of_bind_eq_ok h
  obtain ⟨⟨body, xs⟩, hbody, h⟩ := exists_of_bind_eq_ok h
  obtain ⟨rest, hlist, h⟩ := exists_of_bind_eq_ok h
  obtain ⟨next, hnext, h⟩ := exists_of_bind_eq_ok h
  have htag := readTag_of_eq_ok h₁ h₂ h₃
  split at h
  · cases h
  · obtain rfl := Except.ok.inj h
    exact .enum ht hs htag hbody hlist hnext (Bool.eq_false_iff.mpr ‹_›)

theorem goes_endSpecifiers (hend : s.EndAt ts) (hnext : peek e ts = .ok t)
    (h : endSpecifiers s t stack ts = .ok r) : Goes e (.specifiers s) stack ts r := by
  unfold endSpecifiers at h
  split at h
  · split at h
    · split at h
      · obtain rfl := Except.ok.inj h
        exact .bare hend ‹_› ‹_›
      · rename_i hmore
        obtain rfl := Except.ok.inj h
        refine .declarators hend hnext ‹_› fun u hu => ?_
        obtain rfl := Option.some.inj hu
        exact Bool.eq_false_iff.mpr hmore
    · obtain rfl := Except.ok.inj h
      exact .declarators hend hnext ‹_› (by simp)
  · rename_i hs
    split at h
    · cases h
    · rename_i hne
      split at h
      · cases h
      · obtain rfl := Except.ok.inj h
        exact .base hend hnext (Bool.eq_false_iff.mpr hs) (Bool.eq_false_iff.mpr hne) ‹_›

theorem goes_stepSpecifiers (h : stepSpecifiers e s stack ts = .ok r) :
    Goes e (.specifiers s) stack ts r := by
  unfold stepSpecifiers at h
  split at h
  · split at h
    · cases h
    · exact goes_endSpecifiers (fun _ _ hhead => by cases hhead) rfl h
  · rename_i t ts
    split at h
    · rename_i name hname
      have hend (hk : Keyword.of? name = some .staticAssert ∨
          Keyword.of? name = none ∧ s.hasType = true) : s.EndAt (t :: ts) := by
        intro u word hu hword
        obtain rfl := Option.some.inj hu
        obtain rfl := Lexeme.identifier.inj (hname.symm.trans hword)
        exact hk
      have hkeyword := keyword?_of_lexeme hname
      split at h <;> rename_i hk <;> rw [hk] at hkeyword
      · obtain rfl := Except.ok.inj h
        exact .typedef hkeyword
      · obtain rfl := Except.ok.inj h
        exact .qualifier hkeyword
      · obtain ⟨rest, hskip, h⟩ := exists_of_bind_eq_ok h
        obtain rfl := Except.ok.inj h
        exact .extension hkeyword hskip
      · exact goes_endSpecifiers (hend (.inl hk)) rfl h
      · split at h
        · cases h
        · exact goes_stepTag hkeyword (Bool.eq_false_iff.mpr ‹_›) h
      · split at h
        · cases h
        · exact goes_stepEnum hkeyword (Bool.eq_false_iff.mpr ‹_›) h
      · split at h
        · cases h
        · split at h
          · cases h
          · obtain rfl := Except.ok.inj h
            exact .word hkeyword (Bool.eq_false_iff.mpr ‹_›) ‹_›
      · split at h
        · exact goes_endSpecifiers (hend (.inr ⟨hk, ‹_›⟩)) rfl h
        · obtain rfl := Except.ok.inj h
          exact .named hname hk (Bool.eq_false_iff.mpr ‹_›)
    · rename_i hname
      refine goes_endSpecifiers (fun u word hu hword => ?_) rfl h
      obtain rfl := Option.some.inj hu
      exact absurd hword (hname word)

theorem goes_stepDeclarator {typedef : Bool} (h : stepDeclarator e typedef stack ts = .ok r) :
    Goes e (.declarator typedef) stack ts r := by
  obtain ⟨⟨d, us⟩, hread, h⟩ := exists_of_bind_eq_ok h
  obtain ⟨vs, hskip, h⟩ := exists_of_bind_eq_ok h
  obtain ⟨next, hnext, h⟩ := exists_of_bind_eq_ok h
  dsimp only at h
  split at h
  · cases h
  · rename_i hfield
    obtain ⟨⟨initialized, ws⟩, hsign, h⟩ := exists_of_bind_eq_ok h
    obtain ⟨rest, hvalue, h⟩ := exists_of_bind_eq_ok h
    obtain ⟨heard, hhear, h⟩ := exists_of_bind_eq_ok h
    obtain ⟨last, hlast, rfl⟩ := hear_eq_ok hhear
    obtain rfl := Except.ok.inj h
    exact .declare hread hskip hnext (Bool.eq_false_iff.mpr hfield) hsign hvalue hlast

theorem goes_stepTail {typedef function : Bool} (h : stepTail e typedef function stack ts = .ok r) :
    Goes e (.tail typedef function) stack ts r := by
  unfold stepTail at h
  split at h
  · exact absurd h failAtEnd_ne_ok
  · split at h
    · rename_i hbody
      obtain ⟨⟨hempty, rfl⟩, ht⟩ : (stack.isEmpty = true ∧ function = true) ∧ _ := by
        simpa only [Bool.and_eq_true] using hbody
      obtain rfl := List.isEmpty_iff.mp hempty
      obtain ⟨rest, hskip, h⟩ := exists_of_bind_eq_ok h
      obtain rfl := Except.ok.inj h
      exact .function ht hskip
    · split at h
      · obtain rfl := Except.ok.inj h
        exact .comma ‹_›
      · split at h
        · obtain rfl := Except.ok.inj h
          exact .semicolon ‹_›
        · cases h

/-- **A step does one of these things.** -/
theorem goes_of_step {place : Place} (h : step e place stack ts = .ok r) :
    Goes e place stack ts r := by
  cases place with
  | declaration => exact goes_stepDeclaration h
  | specifiers s => exact goes_stepSpecifiers h
  | declarator typedef => exact goes_stepDeclarator h
  | tail typedef function => exact goes_stepTail h

/-- The end of the specifiers, with the token that is looked at. -/
theorem stepSpecifiers_endAt (hend : s.EndAt ts) (hnext : peek e ts = .ok t) :
    stepSpecifiers e s stack ts = endSpecifiers s t stack ts := by
  cases ts with
  | nil =>
    have he : e = .ok t := hnext
    subst he
    rfl
  | cons u ts =>
    obtain rfl := Except.ok.inj hnext
    cases hname : u.lexeme with
    | identifier name =>
      rcases hend u name rfl hname with hk | ⟨hk, hs⟩
      · simp only [stepSpecifiers, hname, hk]
      · simp only [stepSpecifiers, hname, hk, hs, if_true]
    | _ => simp only [stepSpecifiers, hname]

/-- **And only that**: whatever can be done is what the step does. -/
theorem Goes.step_eq {place : Place} (h : Goes e place stack ts r) :
    step e place stack ts = .ok r := by
  cases h with
  | finish he =>
    rw [he]
    rfl
  | close ht hskip hnext => simp [step, stepDeclaration, ht, hskip, hear, hnext, ok_bind]
  | empty ht =>
    have hbody := isPunct_eq_false_of_ne (show ';' ≠ '}' by decide) ht
    simp [step, stepDeclaration, hbody, ht]
  | assertion ht hopen hskip hend =>
    simp [step, stepDeclaration, isPunct_of_keyword? ht, ht, hopen, hskip, hend, ok_bind]
  | @begin t ts stack hbody hempty hassert =>
    cases hclose : t.isPunct '}' with
    | true =>
      obtain rfl := hbody hclose
      simp [step, stepDeclaration, hempty, hassert]
    | false => simp [step, stepDeclaration, hclose, hempty, hassert]
  | typedef ht | qualifier ht =>
    obtain ⟨word, hword, hk⟩ := exists_word_of_keyword? ht
    simp [step, stepSpecifiers, hword, hk]
  | extension ht hskip =>
    obtain ⟨word, hword, hk⟩ := exists_word_of_keyword? ht
    simp [step, stepSpecifiers, hword, hk, hskip, ok_bind]
  | openBody ht hs htag hnext hbody | tag ht hs htag hnext hbody =>
    obtain ⟨word, hword, hk⟩ := exists_word_of_keyword? ht
    obtain ⟨_, _, h₁, h₂, h₃⟩ := exists_of_readTag htag
    simp [step, stepSpecifiers, hword, hk, hs, stepTag, h₁, h₂, h₃, hnext, hbody, ok_bind]
  | enum ht hs htag hbody hlist hnext hname =>
    obtain ⟨word, hword, hk⟩ := exists_word_of_keyword? ht
    obtain ⟨_, _, h₁, h₂, h₃⟩ := exists_of_readTag htag
    simp only [step, stepSpecifiers, hword, hk, hs, stepEnum, h₁, h₂, h₃, hbody, hlist, hnext,
      hname, ok_bind, Bool.false_eq_true, if_false]
  | word ht hs hbase =>
    obtain ⟨word, hword, hk⟩ := exists_word_of_keyword? ht
    simp [step, stepSpecifiers, hword, hk, hs, hbase]
  | named ht hk hs => simp [step, stepSpecifiers, ht, hk, hs]
  | bare hend hs ht =>
    rw [step, stepSpecifiers_endAt hend rfl]
    simp [endSpecifiers, hs, ht]
  | declarators hend hnext hs hmore =>
    rw [step, stepSpecifiers_endAt hend hnext]
    cases ts with
    | nil => simp [endSpecifiers, hs]
    | cons t ts => simp [endSpecifiers, hs, hmore t rfl]
  | base hend hnext hs hne hspelling =>
    rw [step, stepSpecifiers_endAt hend hnext]
    simp [endSpecifiers, hs, hne, hspelling]
  | declare hread hskip hnext hfield hsign hvalue hlast =>
    simp only [step, stepDeclarator, hread, hskip, hnext, hfield, hsign, hvalue, hear, hlast,
      ok_bind, Bool.false_eq_true, if_false]
  | function ht hskip => simp [step, stepTail, ht, hskip, ok_bind]
  | comma ht =>
    have hbody := isPunct_eq_false_of_ne (show ',' ≠ '{' by decide) ht
    simp [step, stepTail, hbody, ht]
  | semicolon ht =>
    have hbody := isPunct_eq_false_of_ne (show ';' ≠ '{' by decide) ht
    have hcomma := isPunct_eq_false_of_ne (show ';' ≠ ',' by decide) ht
    simp [step, stepTail, hbody, hcomma, ht]

/-! ### Every step gets on -/

/-- What a step takes away: a token, or a rank with the tokens kept. -/
def Progress (place place' : Place) (ts rest : List Token) : Prop :=
  rest.length < ts.length ∨ rest.length ≤ ts.length ∧ place'.rank < place.rank

theorem skipEnumerators_length {body : Bool} {ts rest : List Token}
    (h : skipEnumerators e body ts = .ok rest) : rest.length ≤ ts.length := by
  unfold skipEnumerators at h
  split at h
  · split at h
    · simp at h
    · rename_i hk
      have := length_skipBalanced e hk
      have := length_skipNoise e h
      omega
  · simp_all

theorem skipValue_length {initialized : Bool} {ts rest : List Token}
    (h : skipValue e initialized ts = .ok rest) : rest.length ≤ ts.length := by
  unfold skipValue at h
  split at h
  · exact length_skipInitializer e h
  · simp_all

theorem length_readTag {name : Option String} {ts rest : List Token}
    (h : readTag e ts = .ok (name, rest)) : rest.length ≤ ts.length := by
  obtain ⟨_, _, h₁, h₂, h₃⟩ := exists_of_readTag h
  have := length_skipNoise e h₁
  have := length_takeIdentifier e h₂
  have := length_skipNoise e h₃
  omega

/-- A step takes at least one token or moves to a place of lower rank. -/
theorem step_progress {place place' : Place} {stack stack' : List Specifiers}
    {ts rest : List Token} {heard : Option Heard}
    (h : step e place stack ts = .ok (.goOn heard place' stack' rest)) :
    Progress place place' ts rest := by
  have taken {t : Token} {us : List Token} (hl : rest.length ≤ us.length) :
      Progress place place' (t :: us) rest := .inl (Nat.lt_succ_of_le hl)
  cases goes_of_step h with
  | close _ hskip => exact taken (length_skipNoise e hskip)
  | empty | typedef | qualifier | word | named | bare | comma | semicolon =>
    exact taken (Nat.le_refl _)
  | assertion _ hopen hskip hend =>
    have := length_expectPunct e hopen
    have := length_skipBalanced e hskip
    have := length_expectPunct e hend
    exact taken (by omega)
  | extension _ hskip => exact taken (length_skipGroup e hskip)
  | openBody _ _ htag _ hbody | tag _ _ htag _ hbody =>
    exact taken (Nat.le_trans (length_takePunct e hbody) (length_readTag htag))
  | enum _ _ htag hbody hlist =>
    have := length_readTag htag
    have := length_takePunct e hbody
    have := skipEnumerators_length hlist
    exact taken (by omega)
  | declare hread hskip _ _ hsign hvalue =>
    have := length_readDeclarator e hread
    have := length_skipNoise e hskip
    have := length_takePunct e hsign
    have := skipValue_length hvalue
    exact .inl (by omega)
  | function _ hskip => exact taken (Nat.le_of_lt (length_skipBalanced e hskip))
  -- the others look at what comes next, and take nothing
  | begin => exact .inr ⟨Nat.le_refl _, by simp [Place.rank]⟩
  | declarators _ _ hs | base _ _ hs => exact .inr ⟨Nat.le_refl _, by simp [Place.rank, hs]⟩

end

/-! ### The whole source -/

/-- What was read: the clauses in order, and how reading ended, with the number of
declarations at file scope if it came to the end. -/
structure Reading where
  heard : List Heard
  outcome : Except Fault Nat

/-- A step back to file scope completes a declaration. -/
def completes (place : Place) (stack : List Specifiers) : Nat :=
  if place = .declaration ∧ stack.isEmpty then 1 else 0

/-- Reads from a place to the end of the source or to the first fault. -/
def readFrom (e : Ending) (place : Place) (stack : List Specifiers) (ts : List Token) : Reading :=
  match _h : step e place stack ts with
  | .error f => ⟨[], .error f⟩
  | .ok .finished => ⟨[], .ok 0⟩
  | .ok (.goOn heard place' stack' rest) =>
    let more := readFrom e place' stack' rest
    ⟨heard.toList ++ more.heard, more.outcome.map (· + completes place' stack')⟩
termination_by 4 * ts.length + place.rank
decreasing_by
  have := place'.rank_le
  rcases step_progress _h with hl | ⟨hl, hr⟩ <;> omega

theorem readFrom_eq {e : Ending} {ts : List Token} (place : Place) (stack : List Specifiers) :
    readFrom e place stack ts = match step e place stack ts with
      | .error f => ⟨[], .error f⟩
      | .ok .finished => ⟨[], .ok 0⟩
      | .ok (.goOn heard place' stack' rest) =>
        ⟨heard.toList ++ (readFrom e place' stack' rest).heard,
          (readFrom e place' stack' rest).outcome.map (· + completes place' stack')⟩ := by
  rw [readFrom]
  split
  · rename_i h
    rw [h]
  · rename_i h
    rw [h]
  · rename_i h
    rw [h]

/-- Reads all declarations of a scanned source. -/
def readDeclarations (s : Scan) : Reading :=
  readFrom (.ofScan s) .declaration [] s.tokens

end TypeLayout
