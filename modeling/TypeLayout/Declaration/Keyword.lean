/-!
# Keywords of declarations

The words that the grammar of declarations knows. Words that cannot change a
layout are of two sorts: *qualifiers*, which stand alone, and *extensions*, which
may take a group in parentheses along.
-/

namespace TypeLayout

/-- The words that name a built-in type by themselves. -/
inductive CoreType where
  | char
  | int
  | float
  | double
  | void
  | bool
deriving DecidableEq, Inhabited, Repr

/-- How a core type is written. -/
def CoreType.spelling : CoreType → String
  | char => "char"
  | int => "int"
  | float => "float"
  | double => "double"
  | void => "void"
  | bool => "_Bool"

/-- The words that can be combined into a built-in type. -/
inductive BaseWord where
  | signed
  | unsigned
  | short
  | long
  | core (c : CoreType)
deriving DecidableEq, Inhabited, Repr

/-- The two tags that can have fields. -/
inductive TagKind where
  | struct
  | union
deriving DecidableEq, Inhabited, Repr

/-- The keyword of a tag. -/
def TagKind.keyword : TagKind → String
  | struct => "struct"
  | union => "union"

/-- What a word means in a declaration. -/
inductive Keyword where
  | typedef
  | tag (kind : TagKind)
  | enum
  | base (word : BaseWord)
  /-- A word that never affects a layout. -/
  | qualifier
  /-- A word that never affects a layout, nor does the group after it. -/
  | extension
  | staticAssert
deriving DecidableEq, Inhabited, Repr

/-- All keywords. -/
def keywords : List (String × Keyword) :=
  [("typedef", .typedef),
   ("struct", .tag .struct),
   ("union", .tag .union),
   ("enum", .enum),
   ("signed", .base .signed),
   ("__signed", .base .signed),
   ("__signed__", .base .signed),
   ("unsigned", .base .unsigned),
   ("short", .base .short),
   ("long", .base .long),
   ("char", .base (.core .char)),
   ("int", .base (.core .int)),
   ("float", .base (.core .float)),
   ("double", .base (.core .double)),
   ("void", .base (.core .void)),
   ("_Bool", .base (.core .bool)),
   ("const", .qualifier),
   ("__const", .qualifier),
   ("__const__", .qualifier),
   ("volatile", .qualifier),
   ("__volatile", .qualifier),
   ("__volatile__", .qualifier),
   ("restrict", .qualifier),
   ("__restrict", .qualifier),
   ("__restrict__", .qualifier),
   ("static", .qualifier),
   ("extern", .qualifier),
   ("register", .qualifier),
   ("auto", .qualifier),
   ("inline", .qualifier),
   ("__inline", .qualifier),
   ("__inline__", .qualifier),
   ("__extension__", .qualifier),
   ("_Noreturn", .qualifier),
   ("_Thread_local", .qualifier),
   ("__thread", .qualifier),
   ("__attribute__", .extension),
   ("__attribute", .extension),
   ("__asm__", .extension),
   ("__asm", .extension),
   ("asm", .extension),
   ("__declspec", .extension),
   ("_Alignas", .extension),
   ("_Static_assert", .staticAssert),
   ("static_assert", .staticAssert)]

/-- What a word means, if it is a keyword. -/
def Keyword.of? (word : String) : Option Keyword := keywords.lookup word

end TypeLayout
