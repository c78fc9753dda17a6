import TypeLayout.Layout.Error
import TypeLayout.Session

/-!
# Offsets in the descriptor table

Every node that a requested type needs gets the index of its first cell. Nodes are
visited depth first and numbered when they are left, so what a node links to stands
below it; a node that has an offset is not visited again. On the way nodes without
a name get one, made from the node that first led to them, and unions get their
slots in the jump table.

The visit follows links no deeper than there are nodes. Links that do not run in a
circle never go that deep, so the bound only matters for a graph that no
declarations produce; there a node may be left without an offset.
-/

namespace TypeLayout.Session

/-- An error of the layout at a line. -/
abbrev LayoutFault := Nat × LayoutError

/-- Runs an action for every element of a list, up to the first failure. -/
def forEach {α ε : Type} (f : Session → α → Session × Except ε Unit) (s : Session) :
    List α → Session × Except ε Unit
  | [] => (s, .ok ())
  | a :: as =>
    match f s a with
    | (s, .error err) => (s, .error err)
    | (s, .ok ()) => s.forEach f as

/-- The name of a node. A node without one is named after the node that led to it and
the declarator that first used it, once and for all. -/
def nameOf (s : Session) (id : NodeId) (parent : Option NameId) : NameId × Session :=
  let n := s.graph.node id
  match n.name with
  | some name => (name, s)
  | none =>
    let fragment := (n.fragment.map s.names.spell).getD "anon"
    let spelling :=
      match parent with
      | some parent => s.names.spell parent ++ "_" ++ fragment
      | none => fragment
    let (name, s) := s.intern spelling
    (name, s.modifyNode id fun n => { n with name := some name, renamed := true })

/-- Names a member of a union after the union and its place in it. -/
def renameMember (s : Session) (union : NameId) (member : NodeId) (i : Nat) : Session :=
  if (s.graph.node member).renamed then s
  else
    let (name, s) := s.intern (s.names.spell union ++ s!"_{i}")
    s.modifyNode member fun n => { n with name := some name, renamed := true }

/-- Gives a union its slot in the jump table. -/
def assignJump (s : Session) (id : NodeId) : Session :=
  if (s.graph.node id).jump.isSome then s
  else
    { s.modifyNode id fun n => { n with jump := some s.nextJump } with
      nextJump := s.nextJump + 1 }

/-- Gives a node the next free cells. -/
def assignOffset (s : Session) (id : NodeId) : Session :=
  { s.modifyNode id fun n => { n with offset := some s.nextOffset } with
    nextOffset := s.nextOffset + (s.graph.node id).cellCount }

/-- Assigns offsets to a node and to all that it needs, following links at most
`depth` deep. -/
def visit : (depth : Nat) → Session → NodeId → Option NameId → Session × Except LayoutFault Unit
  | 0, s, _, _ => (s, .ok ())
  | depth + 1, s, id, parent =>
    if (s.graph.node id).offset.isSome then (s, .ok ())
    else
      let (name, s) := s.nameOf id parent
      let n := s.graph.node id
      if n.isUnion then
        if n.members.isEmpty then
          (s, .error (n.line, .emptyType (s.names.spell name)))
        else
          let visited := s.forEach
            (fun s (member, i) => visit depth (s.renameMember name member i) member (some name))
            n.members.zipIdx
          match visited with
          | (s, .error err) => (s, .error err)
          | (s, .ok ()) => ((s.assignJump id).assignOffset id, .ok ())
      else if n.items.isEmpty then
        (s, .error (n.line, .emptyType (s.names.spell name)))
      else
        let visited := s.forEach
          (fun s (item : Item) =>
            match item.kind with
            | .function => (s, .error (n.line, .poisonedFunction (s.names.spell name)))
            | .structLink target | .unionLink target => visit depth s target (some name)
            | _ => (s, .ok ()))
          n.items
        match visited with
        | (s, .error err) => (s, .error err)
        | (s, .ok ()) => (s.assignOffset id, .ok ())

/-- Assigns offsets to all that the resolved keys need. After a failure the counters
are as before, while the nodes keep what they were given. -/
def assignOffsets (s : Session) : Session × Except LayoutFault Unit :=
  let roots := s.keys.keys.filterMap (·.node)
  match s.forEach (fun s root => visit s.graph.size s root none) roots with
  | (s', .error err) => ({ s' with nextOffset := s.nextOffset, nextJump := s.nextJump }, .error err)
  | (s', .ok ()) => (s'.note (.laidOut s'.nextOffset s'.nextJump), .ok ())

end TypeLayout.Session
