import TypeLayout.Proofs.C.Elaboration

/-!
# The clauses of C declarations

What a declaration says, clause by clause, read off its tree. Where a clause stands in a
text makes no difference to what it says, so two clauses are compared by their `content`
only: without lines, and without the text of a dimension, which is a constant here.
-/

namespace TypeLayout

/-! ### What clauses say -/

/-- A derivation without the text of its dimension. -/
def Derivation.content : Derivation → Derivation
  | array d => .array ⟨d.lexemes, ""⟩
  | function => .function
  | pointer => .pointer

/-- A declarator without its line. -/
def Declarator.content (d : Declarator) : Declarator :=
  ⟨d.name, 0, d.derivations.map Derivation.content⟩

/-- **What a clause says**, without where it says it. Whether a built-in type is unsigned
shows in its spelling. -/
def Clause.content : Clause → Clause
  | openBody kind name _ => .openBody kind name 0
  | closeBody => .closeBody
  | tag kind name _ => .tag kind name 0
  | enum name body _ => .enum name body 0
  | base spelling _ _ => .base spelling false 0
  | named name _ => .named name 0
  | declare d typedef => .declare d.content typedef
  | bare _ => .bare 0

namespace Clause

variable {c : Clause} {kind : TagKind} {name : Option String}

theorem eq_openBody (h : c.content = .openBody kind name 0) :
    ∃ line, c = .openBody kind name line := by
  cases c <;> simp_all [content]

theorem eq_closeBody (h : c.content = .closeBody) : c = .closeBody := by
  cases c <;> simp_all [content]

theorem eq_tag {name : String} (h : c.content = .tag kind name 0) :
    ∃ line, c = .tag kind name line := by
  cases c <;> simp_all [content]

theorem eq_enum {body : Bool} (h : c.content = .enum name body 0) :
    ∃ line, c = .enum name body line := by
  cases c <;> simp_all [content]

theorem eq_base {spelling : String} (h : c.content = .base spelling false 0) :
    ∃ unsigned line, c = .base spelling unsigned line := by
  cases c <;> simp_all [content]

theorem eq_named {name : String} (h : c.content = .named name 0) :
    ∃ line, c = .named name line := by
  cases c <;> simp_all [content]

theorem eq_declare {d : Declarator} {typedef : Bool} (h : c.content = .declare d typedef) :
    ∃ d', d'.content = d ∧ c = .declare d' typedef := by
  cases c <;> simp_all [content]

theorem eq_bare (h : c.content = .bare 0) : ∃ line, c = .bare line := by
  cases c <;> simp_all [content]

end Clause

namespace C

/-! ### Declarators -/

def Tail.derivation : Tail → Derivation
  | array n => .array ⟨[.number n.number], ""⟩
  | function _ => .function

/-- The derivations of a declarator, from the name outwards. -/
def Declr.derivations : Declr → List Derivation
  | .name stars _ tails => tails.map Tail.derivation ++ List.replicate stars .pointer
  | .paren stars inner tails =>
    inner.derivations ++ tails.map Tail.derivation ++ List.replicate stars .pointer

/-- What a declarator says. -/
def Declr.declarator (d : Declr) : Declarator := ⟨d.ident.text, 0, d.derivations⟩

/-- What the declarators of a declaration say. -/
def declaratorClauses (typedef : Bool) : List Declr → List Clause
  | [] => [.bare 0]
  | d :: ds => (d :: ds).map fun d => .declare d.declarator typedef

/-! ### Specifiers -/

/-- The one spelling under which a built-in type is known. -/
def BaseType.spelling : BaseType → String
  | arithmetic .char => "char"
  | arithmetic .signedChar => "signed char"
  | arithmetic .unsignedChar => "unsigned char"
  | arithmetic .short => "short"
  | arithmetic .unsignedShort => "unsigned short"
  | arithmetic .int => "int"
  | arithmetic .unsignedInt => "unsigned int"
  | arithmetic .long => "long"
  | arithmetic .unsignedLong => "unsigned long"
  | arithmetic .longLong => "long long"
  | arithmetic .unsignedLongLong => "unsigned long long"
  | arithmetic .float => "float"
  | arithmetic .double => "double"
  | arithmetic .bool => "_Bool"
  | void => "void"
  | longDouble => "long double"

def EnumSpec.clause : EnumSpec → Clause
  | tag name => .enum (some name.text) false 0
  | body name _ => .enum (name.map (·.text)) true 0

mutual

/-- **What a type specifier says.** -/
def Specifier.clauses : Specifier → List Clause
  | .base b => [.base b.type.spelling false 0]
  | .named name => [.named name.text 0]
  | .tag kind name => [.tag kind name.text 0]
  | .enum e => [e.clause]
  | .body kind name members =>
    .openBody kind (name.map (·.text)) 0 :: members.clauses ++ [.closeBody]

/-- What the content of a body says. -/
def Members.clauses : Members → List Clause
  | .nil => []
  | .cons type ds more => type.clauses ++ declaratorClauses false ds ++ more.clauses

end

def Declaration.clauses (d : Declaration) : List Clause :=
  d.type.clauses ++ declaratorClauses d.typedef d.declarators

/-- What a unit says. -/
def TranslationUnit.clauses (u : TranslationUnit) : List Clause :=
  u.declarations.flatMap Declaration.clauses

end C

end TypeLayout
