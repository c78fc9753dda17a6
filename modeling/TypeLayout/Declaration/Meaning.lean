import TypeLayout.Declaration.Clause
import TypeLayout.Evaluator
import TypeLayout.Session

/-!
# What clauses do to a session

Acting on a clause changes the type graph and the names bound to it. The clauses of
a source are acted on in order until one is refused; what the earlier ones did
stays. A refused clause may leave traces too: a dimension that was handed to the
evaluator stays asked for, and the first declarator of a type without a tag stays
remembered.
-/

namespace TypeLayout

/-- Why a clause is refused. -/
inductive RefusalCause where
  | grammar (e : ParseError String)
  | host (e : HostError)
deriving DecidableEq, Repr

/-- A refused clause, with the line to report. -/
structure Refusal where
  line : Nat
  cause : RefusalCause
deriving DecidableEq, Repr

/-- A type that a declaration names or defines. -/
structure Specified where
  node : NodeId
  /-- The declaration defines a struct or union without a tag. -/
  anonymous : Bool := false
deriving DecidableEq, Inhabited, Repr

/-- What a clause refers back to. -/
structure Scope where
  /-- The bodies that are open, the innermost first. -/
  bodies : List Specified := []
  /-- The type named last. -/
  type : Specified := ⟨0, false⟩
deriving DecidableEq, Inhabited, Repr

/-- The body in which a declarator stands. -/
def Scope.container? (scope : Scope) : Option NodeId := scope.bodies.head?.map (·.node)

/-! ### Items from declarators -/

/-- What became of computing something with the help of the evaluator: the texts
that were handed to it, and the result. -/
structure Computed (α : Type) where
  asked : List String
  result : Except Refusal α

/-- The product of two counts, unless a word of 64 bits cannot hold it. -/
def scale (line count factor : Nat) : Except Refusal Nat :=
  if count * factor < 0x10000000000000000 then .ok (count * factor)
  else .error ⟨line, .grammar (.invalidDimension s!"{count} * {factor}")⟩

/-- The value of a dimension must not be negative. -/
def dimensionSize (line : Nat) (value : Int) : Except Refusal Nat :=
  if value < 0 then .error ⟨line, .grammar (.invalidDimension (toString value))⟩
  else .ok value.toNat

/-- The value of a dimension. A lone numeric constant is read here; anything else is
handed to the evaluator. -/
def dimensionValue (eval : Evaluator) (line : Nat) (d : Dimension) : Computed Nat :=
  match d.lexemes with
  | [] => ⟨[], .error ⟨line, .grammar .missingDimension⟩⟩
  | [.number n] =>
    match n.value? with
    | none => ⟨[], .error ⟨line, .grammar (.invalidDimension n.text)⟩⟩
    | some value => ⟨[], .ok value⟩
  | _ =>
    match eval d.text with
    | .error e => ⟨[d.text], .error ⟨line, .host e⟩⟩
    | .ok value => ⟨[d.text], dimensionSize line value⟩

/-- The number of elements that the arrays in front of a list of derivations make of
`count` elements, and the derivations after them. -/
def arrayCount (eval : Evaluator) (line : Nat) (count : Nat) :
    List Derivation → Computed (Nat × List Derivation)
  | .array d :: ds =>
    let value := dimensionValue eval line d
    match value.result with
    | .error r => ⟨value.asked, .error r⟩
    | .ok size =>
      match scale line count size with
      | .error r => ⟨value.asked, .error r⟩
      | .ok count =>
        let more := arrayCount eval line count ds
        ⟨value.asked ++ more.asked, more.result⟩
  | ds => ⟨[], .ok (count, ds)⟩

/-- The item of `count` elements of a type itself. Scalars, enumerations and typedef
names stand for what they hold; structs and unions are linked to and must be
defined. -/
def elementItem (s : Session) (base : NodeId) (count : Nat) (d : Declarator) :
    Except Refusal Item :=
  let n := s.graph.node base
  let refuse (e : ParseError String) : Except Refusal Item := .error ⟨d.line, .grammar e⟩
  if n.kind = .base ∧ ¬ n.isDefined then
    refuse (.unsupportedBase ((n.name.map s.names.spell).getD ""))
  else if n.isVoid then
    refuse (.voidField d.name)
  else
    match n.kind with
    | .base | .enum | .typedef =>
      match n.items with
      | [item] => (scale d.line count item.count).map fun count => ⟨count, item.kind⟩
      | _ => .ok ⟨count, .structLink base⟩
    | .struct | .unionMember | .union =>
      if ¬ n.isDefined then refuse (.incompleteField (s.describe base))
      else .ok ⟨count, if n.isUnion then .unionLink base else .structLink base⟩

/-- The item that a declarator of a type contributes to the body it stands in. -/
def itemFor (eval : Evaluator) (s : Session) (base : NodeId) (d : Declarator) : Computed Item :=
  let counted := arrayCount eval d.line 1 d.derivations
  match counted.result with
  | .error r => ⟨counted.asked, .error r⟩
  | .ok (count, .pointer :: _) => ⟨counted.asked, .ok ⟨count, .pointer⟩⟩
  | .ok (count, .function :: _) => ⟨counted.asked, .ok ⟨count, .function⟩⟩
  | .ok (count, _) => ⟨counted.asked, elementItem s base count d⟩

/-! ### Clauses -/

namespace Session

/-- Logs the texts that were handed to the evaluator. -/
def noteAsked (s : Session) (line : Nat) (asked : List String) : Session :=
  s.noteAll (asked.map (.needsHost line))

/-- The node of a tag, which is added and bound if the tag is new. -/
def tagNode (s : Session) (kind : TagKind) (name : String) (line : Nat) : NodeId × Session :=
  let spelling := Names.tagSpelling kind.keyword name
  match s.lookup? spelling with
  | some node => (node, s)
  | none =>
    let (id, s) := s.intern name
    let node := s.graph.size
    let kind : NodeKind := match kind with | .struct => .struct | .union => .union
    (node, (s.addNode { name := some id, kind, state := .incomplete, line }).bind spelling node)

/-- Begins the body of a struct or union. -/
def openBody (s : Session) (kind : TagKind) (name : Option String) (line : Nat) :
    Session × Except Refusal Specified :=
  match name with
  | none =>
    let node := s.graph.size
    let kind : NodeKind := match kind with | .struct => .struct | .union => .union
    (s.addNode { kind, state := .defining, line }, .ok ⟨node, true⟩)
  | some name =>
    let (node, s) := s.tagNode kind name line
    if (s.graph.node node).state = .incomplete then
      (s.modifyNode node fun n => { n with line, state := .defining }, .ok ⟨node, false⟩)
    else
      let spelling := Names.tagSpelling kind.keyword name
      (s, .error ⟨line, .grammar (.duplicateDefinition spelling)⟩)

/-- Ends the body of a struct or union. -/
def closeBody (s : Session) (node : NodeId) : Session :=
  let s := { s with graph := s.graph.finish node }
  let n := s.graph.node node
  s.note (.defined n.line (s.describe node) node n.length n.align
    (n.items.length + n.members.length))

/-- Names or defines an enumeration, which is a single element whatever its
values are. -/
def enumeration (s : Session) (name : Option String) (body : Bool) (line : Nat) :
    Session × Except Refusal Specified :=
  match name with
  | none =>
    let node := s.graph.size
    ({ s with graph := s.graph.addScalar .enum none .enum }, .ok ⟨node, false⟩)
  | some name =>
    let spelling := Names.tagSpelling "enum" name
    match s.lookup? spelling with
    | some node =>
      if body then
        if (s.graph.node node).isDefined then
          (s, .error ⟨line, .grammar (.duplicateDefinition spelling)⟩)
        else
          (s.modifyNode node fun n => { n with state := .defined }, .ok ⟨node, false⟩)
      else
        (s, .ok ⟨node, false⟩)
    | none =>
      let (id, s) := s.intern name
      let node := s.graph.size
      let s := { s with graph := s.graph.addScalar .enum (some id) .enum }
      let s := s.modifyNode node fun n =>
        { n with line, state := if body then n.state else .incomplete }
      (s.bind spelling node, .ok ⟨node, false⟩)

/-- Remembers the first declarator of a type without a tag. -/
def rememberFragment (s : Session) (type : Specified) (name : String) : Session :=
  if type.anonymous ∧ (s.graph.node type.node).fragment.isNone then
    let (id, s) := s.intern name
    s.modifyNode type.node fun n => { n with fragment := some id }
  else
    s

/-- A typedef name without derivations is one more name of its type, and the first
name of a type without one. -/
def nameType (s : Session) (type : NodeId) (d : Declarator) : Session :=
  let (id, s) := s.intern d.name
  let s := s.modifyNode type fun n => { n with name := n.name.or (some id) }
  (s.bind d.name type).note (.namesNode d.line d.name type)

/-- A typedef name with derivations is a type of its own. -/
def deriveType (s : Session) (d : Declarator) (item : Item) : Session :=
  let (id, s) := s.intern d.name
  let node := s.graph.size
  let s := s.addNode { name := some id, kind := .typedef, state := .defining, line := d.line }
  let s := { s with graph := (s.graph.appendItem node item).finish node }
  (s.bind d.name node).note (.derives d.line d.name item)

/-- A field of a struct is an item of it; a field of a union is a member with one
item. -/
def addField (s : Session) (container : NodeId) (line : Nat) (item : Item) : Session :=
  if (s.graph.node container).isUnion then
    let member := s.graph.size
    let s := s.addNode { kind := .unionMember, state := .defining, line }
    { s with graph := ((s.graph.appendItem member item).finish member).addMember container member }
  else
    { s with graph := s.graph.appendItem container item }

/-- Acts on a declarator: a typedef name, a field of a body, or nothing for what is
declared at file scope. -/
def declare (eval : Evaluator) (s : Session) (scope : Scope) (d : Declarator) (typedef : Bool) :
    Session × Except Refusal Unit :=
  let s := s.rememberFragment scope.type d.name
  if typedef ∧ d.derivations.isEmpty then
    (s.nameType scope.type.node d, .ok ())
  else
    match typedef, scope.container? with
    | false, none => (s, .ok ())
    | _, _ =>
      let item := itemFor eval s scope.type.node d
      let s := s.noteAsked d.line item.asked
      match item.result, typedef, scope.container? with
      | .error r, _, _ => (s, .error r)
      | .ok item, false, some container => (s.addField container d.line item, .ok ())
      | .ok item, _, _ => (s.deriveType d item, .ok ())

/-- Acts on a declaration without a declarator. Inside a body a struct or union
without a tag is a field with a made-up name; anywhere else it declares nothing. -/
def bareType (eval : Evaluator) (s : Session) (scope : Scope) (line : Nat) :
    Session × Except Refusal Unit :=
  if scope.type.anonymous then
    match scope.container? with
    | none =>
      (s.note (.declaresNothing line (s.describe scope.type.node)), .ok ())
    | some container =>
      let n := s.graph.node container
      let slot := if n.isUnion then n.members.length else n.items.length
      s.declare eval scope { name := s!"anon{slot}", line } false
  else
    (s, .ok ())

/-- Acts on a clause. -/
def act (eval : Evaluator) (s : Session) (scope : Scope) (clause : Clause) :
    Session × Except Refusal Scope :=
  match clause with
  | .openBody kind name line =>
    let (s, body) := s.openBody kind name line
    (s, body.map fun body => { scope with bodies := body :: scope.bodies })
  | .closeBody =>
    match scope.bodies with
    | [] => (s, .ok scope)
    | body :: bodies => (s.closeBody body.node, .ok ⟨bodies, body⟩)
  | .tag kind name line =>
    let (node, s) := s.tagNode kind name line
    (s, .ok { scope with type := ⟨node, false⟩ })
  | .enum name body line =>
    let (s, type) := s.enumeration name body line
    (s, type.map fun type => { scope with type })
  | .base spelling unsigned line =>
    match s.lookup? spelling with
    | some node => (s, .ok { scope with type := ⟨node, false⟩ })
    | none =>
      let e := if unsigned then .unknownUnsigned spelling else .unsupportedBase spelling
      (s, .error ⟨line, .grammar e⟩)
  | .named name line =>
    match s.lookup? name with
    | some node => (s, .ok { scope with type := ⟨node, false⟩ })
    | none => (s, .error ⟨line, .grammar (.unknownType name)⟩)
  | .declare d typedef =>
    let (s, done) := s.declare eval scope d typedef
    (s, done.map fun _ => scope)
  | .bare line =>
    let (s, done) := s.bareType eval scope line
    (s, done.map fun _ => scope)

/-- A refused clause and how far the source had been looked at. -/
structure Stop where
  refusal : Refusal
  seen : Cursor

/-- Acts on clauses in order until one is refused. -/
def actAll (eval : Evaluator) (s : Session) (scope : Scope) :
    List Heard → Session × Except Stop Scope
  | [] => (s, .ok scope)
  | h :: hs =>
    match s.act eval scope h.clause with
    | (s, .error refusal) => (s, .error ⟨refusal, h.seen⟩)
    | (s, .ok scope) => s.actAll eval scope hs

end Session

end TypeLayout
