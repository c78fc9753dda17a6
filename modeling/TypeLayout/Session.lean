import TypeLayout.Key
import TypeLayout.Notice
import TypeLayout.Registry

/-!
# The state of a compilation

A `Session` holds what the passes of a compilation share: the interned names, the
type graph, the names bound to its nodes, the requested names, the two counters of
the layout, and the log. Every pass takes a session and leaves one, also when it
fails.
-/

namespace TypeLayout

/-- What the passes of a compilation share. -/
structure Session where
  names : Names
  graph : Graph
  registry : Registry
  keys : KeyList
  /-- The next free cell of the descriptor table. -/
  nextOffset : Nat := 0
  /-- The next free slot of the jump table. -/
  nextJump : Nat := 0
  notices : Array Notice := #[]

namespace Session

/-- Adds an entry to the log. -/
def note (s : Session) (n : Notice) : Session := { s with notices := s.notices.push n }

/-- Adds entries to the log. -/
def noteAll (s : Session) (ns : List Notice) : Session := ns.foldl note s

/-- The texts handed to the evaluator so far, in order. -/
def asked (s : Session) : List String := s.notices.toList.filterMap Notice.asked?

/-- Interns a name. -/
def intern (s : Session) (spelling : String) : NameId × Session :=
  let (id, names) := s.names.insert spelling
  (id, { s with names })

/-- The node that a spelling is bound to. -/
def lookup? (s : Session) (spelling : String) : Option NodeId :=
  (s.names.find? spelling).bind s.registry.lookup?

/-- Binds a spelling to a node. -/
def bind (s : Session) (spelling : String) (node : NodeId) : Session :=
  let (id, s) := s.intern spelling
  { s with registry := s.registry.insert id node }

/-- Adds a node to the graph. -/
def addNode (s : Session) (n : Node) : Session := { s with graph := s.graph.add n }

/-- Changes a node of the graph. -/
def modifyNode (s : Session) (id : NodeId) (f : Node → Node) : Session :=
  { s with graph := s.graph.modify id f }

/-- A node as messages name it. -/
def describe (s : Session) (id : NodeId) : String := s.graph.describe s.names id

/-- Adds a built-in type under its spelling. -/
def addBuiltin (s : Session) (spelling : String) (b : Builtin) : Session :=
  let (id, s) := s.intern spelling
  { s with
    graph := b.addTo s.graph id
    registry := ⟨⟨id, s.graph.size, true⟩ :: s.registry.bindings⟩ }

/-- A session that knows the built-in types of its target and nothing else. -/
def start (names : Names) (keys : KeyList) (target : Target) : Session :=
  (builtins target).foldl (fun s (spelling, b) => s.addBuiltin spelling b)
    { names, keys, graph := { target }, registry := {} }

end Session

end TypeLayout
