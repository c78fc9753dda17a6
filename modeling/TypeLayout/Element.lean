/-!
# Elements and items

The content of a described type is a list of *items*, each a run of equal
*elements*. An element is a scalar of a fixed width, a pointer, an enumeration, a
function (which no table can describe), or a link to another node of the type
graph.
-/

namespace TypeLayout

/-- The position of a node in the type graph. -/
abbrev NodeId := Nat

/-- How a node is written in messages: its number after a hash sign. -/
def NodeId.label (id : NodeId) : String := s!"#{id}"

/-- What a single element of an item is. -/
inductive Element where
  | pointer
  /-- A function type. It is recorded so that a request to describe it can be
  refused. -/
  | function
  | structLink (node : NodeId)
  | unionLink (node : NodeId)
  | enum
  | int8
  | int16
  | int32
  | int64
  | float32
  | float64
deriving DecidableEq, Inhabited, Repr

namespace Element

/-- The node that an element embeds, if it is a link. -/
def link? : Element → Option NodeId
  | structLink id | unionLink id => some id
  | _ => none

/-- The letter by which a converter knows the kind of an element. -/
def code : Element → Char
  | pointer => 'p'
  | function => 'f'
  | structLink _ => 's'
  | unionLink _ => 'u'
  | enum => 'e'
  | int8 => 'c'
  | int16 => 'h'
  | int32 => 'i'
  | int64 => 'l'
  | float32 => 'r'
  | float64 => 'd'

/-- The name of the kind of an element, without the node a link leads to. -/
def kindName : Element → String
  | pointer => "Pointer"
  | function => "Function"
  | structLink _ => "StructLink"
  | unionLink _ => "UnionLink"
  | enum => "Enum"
  | int8 => "Int8"
  | int16 => "Int16"
  | int32 => "Int32"
  | int64 => "Int64"
  | float32 => "Float32"
  | float64 => "Float64"

/-- The full form of an element in log messages, such as `Int32` or
`StructLink(TypeId(17))`. -/
def label (e : Element) : String :=
  match e.link? with
  | some id => s!"{e.kindName}(TypeId({id}))"
  | none => e.kindName

end Element

/-- One run of a node's content: `count` consecutive elements of one kind. -/
structure Item where
  count : Nat
  kind : Element
deriving DecidableEq, Inhabited, Repr

end TypeLayout
