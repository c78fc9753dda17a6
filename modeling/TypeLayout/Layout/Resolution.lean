import TypeLayout.Layout.Error
import TypeLayout.Session

/-!
# Resolving the requested names

Each requested name is bound to the node it stands for, which must be defined. A
bare name that no typedef has falls back on the tag of that name, if exactly one of
`struct`, `union` and `enum` has a defined one. Names that cannot be resolved are
reported together; the others are resolved all the same.
-/

namespace TypeLayout.Session

/-- The one defined node among the tags of a name. -/
def soleTag? (s : Session) (name : String) : Option NodeId :=
  let nodes := ["struct", "union", "enum"].filterMap fun kw => s.lookup? (Names.tagSpelling kw name)
  match nodes.filter fun id => (s.graph.node id).isDefined with
  | [id] => some id
  | _ => none

/-- The defined node that a key stands for. -/
def resolve? (s : Session) (key : Key) : Option NodeId :=
  let found : Option NodeId :=
    match s.registry.lookup? key.lookup with
    | some id => some id
    | none =>
      if key.qualifier = .plain then (s.names.get? key.name).bind s.soleTag? else none
  found.filter fun id => (s.graph.node id).isDefined

/-- Marks a node as requested. -/
def markKey (s : Session) (id : NodeId) : Session :=
  s.modifyNode id fun n => { n with isKey := true }

/-- Resolves every key. -/
def resolveKeys (s : Session) : Session × Except LayoutError Unit :=
  let found := s.keys.keys.map fun key => (key, s.resolve? key)
  let keys := found.map fun (key, id) => { key with node := id.or key.node }
  let missing := (found.filter (·.2.isNone)).map fun (key, _) => s.names.spell key.lookup
  let s := (found.filterMap (·.2)).foldl markKey { s with keys := ⟨keys⟩ }
  if missing.isEmpty then
    (s.note (.resolved keys.length), .ok ())
  else
    (s, .error (.missingKeys missing))

end TypeLayout.Session
