import TypeLayout.Proofs.C.Syntax

/-!
# What C declarations mean

A translation unit is gone through from its start to its end. What is known on the way is an
environment: what typedef names stand for, which tags have been mentioned, begun or
completed, and the bodies that have ended. A struct or union can be mentioned before its
body, and a typedef name can stand for it, so what a type is (`TypeRef`) is only looked up
when a field or an array needs it (`TypeRef.type?`).

A declarator is read as C does: a star makes a pointer of what the rest declares, brackets
and parentheses after it an array or a function (`Declr.type`).

`TranslationUnit.elaborate` gives no environment for a unit that is not well formed: if a
name is not declared, a tag has two bodies, or a field or an element of an array is not
complete. Nor does it if a dimension that counts is not below a limit, or if the running
product of such dimensions does not fit into 64 bits; a typedef name counts with all of its
elements at once.
-/

namespace TypeLayout.C

/-! ### Declarators -/

/-- One step from a declared name towards its type. -/
inductive Layer where
  | array (n : ℕ)
  | function
  | pointer
deriving DecidableEq, Repr

/-- What a step makes of a type, complete or not. -/
def Layer.apply : Layer → Option Ty → Option Ty
  | array n, t => t.map (.array n)
  | function, _ => some .function
  | pointer, _ => some .pointer

/-- What stands after a name makes an array or a function. -/
def Tail.layer : Tail → Layer
  | array n => .array n.value
  | function _ => .function

namespace Declr

/-- The name that is declared. -/
def ident : Declr → Ident
  | .name _ x _ => x
  | .paren _ inner _ => inner.ident

/-- **The type that a declarator declares**, given the type in front of it. Stars bind less
than what stands after the name. -/
def type : Declr → Option Ty → Option Ty
  | .name stars _ tails, t =>
    (tails.map Tail.layer).foldr Layer.apply
      ((List.replicate stars Layer.pointer).foldr Layer.apply t)
  | .paren stars inner tails, t =>
    inner.type ((tails.map Tail.layer).foldr Layer.apply
      ((List.replicate stars Layer.pointer).foldr Layer.apply t))

/-- The steps of a declarator, from the name outwards. -/
def layers : Declr → List Layer
  | .name stars _ tails => tails.map Tail.layer ++ List.replicate stars .pointer
  | .paren stars inner tails =>
    inner.layers ++ (tails.map Tail.layer ++ List.replicate stars .pointer)

theorem type_eq (t : Option Ty) : (d : Declr) → d.type t = d.layers.foldr Layer.apply t
  | .name stars x tails => by rw [type, layers, List.foldr_append]
  | .paren stars inner tails => by
    rw [type, layers, type_eq _ inner, List.foldr_append, List.foldr_append]

end Declr

/-- The dimensions that count are below a limit, and the running products of `count` and
them fit into 64 bits. -/
def arraysFit (limit : ℕ) : (count : ℕ) → List Layer → Option Ty → Bool
  | count, .array n :: layers, t =>
    decide (n < limit) && decide (count * n < 2 ^ 64) && arraysFit limit (count * n) layers t
  | count, [], some t => decide (count * t.count < 2 ^ 64)
  | _, _, _ => true

/-! ### Environments -/

/-- How far the definition of a struct or union has come. -/
inductive TagState where
  | mentioned
  | begun
  | complete (t : Ty)

/-- What a type specifier or a typedef name stands for. -/
inductive TypeRef where
  | known (t : Ty)
  /-- A struct or union, which need not be complete yet. -/
  | tagged (kind : TagKind) (name : String)
  /-- A type that never becomes complete. -/
  | unsized

/-- **What is known** at some place of a unit. -/
structure Env where
  typedefs : String → Option TypeRef
  tags : TagKind → String → Option TagState
  /-- The enumerations with a tag, and whether they have been given their values. -/
  enums : String → Option Bool
  /-- How many bodies have been begun. -/
  begun : ℕ
  /-- The bodies that have ended, in the order of their ends. -/
  bodies : List Ty

/-- The one typedef name that needs no declaration. -/
def vaList : String := "__builtin_va_list"

namespace Env

/-- What is known at the start. -/
def start : Env where
  typedefs x := if x = vaList then some (.known .pointer) else none
  tags _ _ := none
  enums _ := none
  begun := 0
  bodies := []

def setTag (env : Env) (kind : TagKind) (name : String) (state : TagState) : Env :=
  { env with
    tags := fun k x => if k = kind ∧ x = name then some state else env.tags k x }

def setTypedef (env : Env) (name : String) (ref : TypeRef) : Env :=
  { env with typedefs := fun x => if x = name then some ref else env.typedefs x }

def setEnum (env : Env) (name : String) (body : Bool) : Env :=
  { env with enums := fun x => if x = name then some body else env.enums x }

/-- A tag is mentioned. -/
def mention (env : Env) (kind : TagKind) (name : String) : Env :=
  match env.tags kind name with
  | none => env.setTag kind name .mentioned
  | some _ => env

/-- A body begins, unless its tag has one. -/
def beginBody (env : Env) (kind : TagKind) : Option Ident → Option Env
  | none => some { env with begun := env.begun + 1 }
  | some x =>
    match env.tags kind x.text with
    | none | some .mentioned =>
      some { env.setTag kind x.text .begun with begun := env.begun + 1 }
    | _ => none

/-- A body ends. -/
def endBody (env : Env) (kind : TagKind) (name : Option Ident) (t : Ty) : Env :=
  let env := { env with bodies := env.bodies ++ [t] }
  match name with
  | none => env
  | some x => env.setTag kind x.text (.complete t)

/-- An enumeration is mentioned or given its values, unless it has them. -/
def enumeration (env : Env) : EnumSpec → Option Env
  | .tag x =>
    match env.enums x.text with
    | none => some (env.setEnum x.text false)
    | some _ => some env
  | .body none _ => some env
  | .body (some x) _ =>
    match env.enums x.text with
    | some true => none
    | _ => some (env.setEnum x.text true)

end Env

/-- The type that something stands for, if it is complete. -/
def TypeRef.type? (env : Env) : TypeRef → Option Ty
  | known t => some t
  | tagged kind name =>
    match env.tags kind name with
    | some (.complete t) => some t
    | _ => none
  | unsized => none

def BaseType.ref : BaseType → TypeRef
  | arithmetic a => .known (.arithmetic a)
  | void | longDouble => .unsized

/-! ### Declarations -/

section Elaborate

variable (limit : ℕ)

/-- The type of a declarator, if it is complete and its arrays fit. -/
def Declr.complete? (env : Env) (ref : TypeRef) (d : Declr) : Option Ty :=
  if arraysFit limit 1 d.layers (ref.type? env) then d.type (ref.type? env) else none

/-- The types of the fields that declarators declare. -/
def fieldTypes (env : Env) (ref : TypeRef) : List Declr → Option (List Ty)
  | [] => some []
  | d :: ds =>
    (d.complete? limit env ref).bind fun t => (fieldTypes env ref ds).map (t :: ·)

/-- The fields that a type without a declarator declares. -/
def unnamedField : Specifier → TypeRef → List Ty
  | .body _ none _, .known t => [t]
  | _, _ => []

mutual

/-- What a type specifier stands for, and what is known after it. -/
def Specifier.elaborate (env : Env) : Specifier → Option (Env × TypeRef)
  | .base b => some (env, b.type.ref)
  | .named x => (env.typedefs x.text).map (env, ·)
  | .tag kind x => some (env.mention kind x.text, .tagged kind x.text)
  | .enum e => (env.enumeration e).map (·, .known .enum)
  | .body kind name members =>
    (env.beginBody kind name).bind fun inner =>
      (members.elaborate inner).map fun (after, fields) =>
        let t := Ty.record env.begun kind fields
        (after.endBody kind name t,
          match name with
          | none => .known t
          | some x => .tagged kind x.text)

/-- The types of the fields in a body, and what is known after it. -/
def Members.elaborate (env : Env) : Members → Option (Env × List Ty)
  | .nil => some (env, [])
  | .cons type ds more =>
    (type.elaborate env).bind fun (env, ref) =>
      (if ds.isEmpty then some (unnamedField type ref) else fieldTypes limit env ref ds).bind
        fun fields => (more.elaborate env).map fun (env, rest) => (env, fields ++ rest)

end

/-- Declares a typedef name. Without stars, brackets and parentheses it stands for the same
as the type in front of it. -/
def Env.typedef (env : Env) (ref : TypeRef) (d : Declr) : Option Env :=
  if d.ident.text = vaList then none
  else if d.layers = [] then some (env.setTypedef d.ident.text ref)
  else (d.complete? limit env ref).map fun t => env.setTypedef d.ident.text (.known t)

def Declaration.elaborate (env : Env) (d : Declaration) : Option Env :=
  (d.type.elaborate limit env).bind fun (env, ref) =>
    if d.typedef then d.declarators.foldlM (fun env x => env.typedef limit ref x) env
    else some env

/-- **What is known at the end of a unit**, if it is well formed and its dimensions are below
a limit. -/
def TranslationUnit.elaborate (u : TranslationUnit) : Option Env :=
  u.declarations.foldlM (fun env d => d.elaborate limit env) Env.start

end Elaborate

end TypeLayout.C
