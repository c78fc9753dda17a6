import TypeLayout.Graph

/-!
# Type names

The `Registry` binds every type name to its node: the built-in types, tags under
their registry spelling (`struct foo`), and typedef names. A built-in name keeps
its node for good; any other name can be bound anew.
-/

namespace TypeLayout

/-- A name bound to a node. -/
structure Binding where
  name : NameId
  node : NodeId
  builtin : Bool
deriving DecidableEq, Inhabited, Repr

/-- The bindings of a compilation, the newest first. A newer binding of a name
hides an older one. -/
structure Registry where
  bindings : List Binding := []
deriving DecidableEq, Inhabited, Repr

namespace Registry

/-- The binding of a name. -/
def find? (r : Registry) (name : NameId) : Option Binding :=
  r.bindings.find? (·.name == name)

/-- The node a name is bound to. -/
def lookup? (r : Registry) (name : NameId) : Option NodeId := (r.find? name).map (·.node)

/-- Whether a name is one of the built-in ones. -/
def isBuiltin (r : Registry) (name : NameId) : Bool := (r.find? name).any (·.builtin)

/-- Binds a name to a node. A built-in name stays as it is. -/
def insert (r : Registry) (name : NameId) (node : NodeId) : Registry :=
  if r.isBuiltin name then r else ⟨⟨name, node, false⟩ :: r.bindings⟩

/-- The names that are not built in, each once, with their nodes. -/
def declared (r : Registry) : List (NameId × NodeId) :=
  let visible := r.bindings.foldl
    (fun seen b => if seen.any (·.name == b.name) then seen else seen ++ [b]) []
  (visible.filter (!·.builtin)).map fun b => (b.name, b.node)

end Registry

/-- What a built-in type holds. -/
inductive Builtin where
  | scalar (e : Element)
  /-- A type that cannot be described; its node stays incomplete, so that pointers
  to it can be declared and fields of it cannot. -/
  | unsupported
  /-- A type without content. -/
  | empty

/-- The built-in types of a target, under the spellings that their keywords stand
for. -/
def builtins (target : Target) : List (String × Builtin) :=
  [("char", .scalar .int8),
   ("signed char", .scalar .int8),
   ("unsigned char", .scalar .int8),
   ("short", .scalar .int16),
   ("unsigned short", .scalar .int16),
   ("int", .scalar .int32),
   ("unsigned int", .scalar .int32),
   ("long", .scalar target.long),
   ("unsigned long", .scalar target.long),
   ("long long", .scalar .int64),
   ("unsigned long long", .scalar .int64),
   ("float", .scalar .float32),
   ("double", .scalar .float64),
   ("long double", .unsupported),
   ("_Bool", .scalar .int8),
   ("void", .empty),
   ("__builtin_va_list", .scalar .pointer)]

/-- Adds the node of a built-in type. -/
def Builtin.addTo (b : Builtin) (g : Graph) (name : NameId) : Graph :=
  match b with
  | scalar e => g.addScalar .base (some name) e
  | unsupported => g.add { name := some name, kind := .base, state := .incomplete }
  | empty =>
    (g.add { name := some name, kind := .base, state := .defining }).finish g.size

end TypeLayout
