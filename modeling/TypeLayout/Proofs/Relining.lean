import TypeLayout.Proofs.ActingOn
import TypeLayout.Proofs.MovedReading

/-!
# Acting on declarations that stand further down

Clauses some lines further down do the same to a session, except that the lines which they record
in nodes are larger (`Session.agrees_actAll`). Which nodes those are is seen when the clauses are
acted on in a session whose nodes have no lines: the lines found there afterwards have been recorded
by the clauses, and a node without one keeps the line that it had before (`Node.relined`).

Nothing that is decided while clauses are acted on depends on the line of a node. So the step
lemma compares two sessions that differ in lines only (`Session.Relines`), one function of the
session at a time.
-/

namespace TypeLayout

/-! ### Lines of nodes -/

/-- The line that a node has got is moved down; a node that has not got one has the old line. -/
def Node.relined (old k : ℕ) (n : Node) : Node :=
  { n with line := if n.line = 0 then old else n.line + k }

namespace Graph

/-- The same nodes with the lines moved down, and with the old lines where there are none. -/
def relined (old : NodeId → ℕ) (k : ℕ) (g : Graph) : Graph :=
  { g with nodes := g.nodes.mapIdx fun id n => n.relined (old id) k }

variable {old : NodeId → ℕ} {k : ℕ} {g : Graph} {id : NodeId}

@[simp] theorem size_relined : (g.relined old k).size = g.size := by
  simp [relined, size]

theorem node_relined_of_lt (h : id < g.size) :
    (g.relined old k).node id = (g.node id).relined (old id) k := by
  have hsome : g.nodes[id]? = some g.nodes[id] := Array.getElem?_eq_getElem h
  simp [node, relined, Array.getD_eq_getD_getElem?, hsome]

/-- What is not the line of a node stays. -/
theorem node_relined_field {α : Type} (field : Node → α)
    (hf : ∀ n line, field { n with line } = field n) :
    field ((g.relined old k).node id) = field (g.node id) := by
  by_cases h : id < g.size
  · rw [node_relined_of_lt h]
    exact hf _ _
  · rw [node_of_le (by simpa using h), node_of_le (by simpa using h)]

/-- A change that makes no difference between lines can be made before or after. -/
theorem modify_relined {f f' : Node → Node}
    (h : ∀ n, f' (n.relined (old id) k) = (f n).relined (old id) k) :
    (g.relined old k).modify id f' = (g.modify id f).relined old k := by
  unfold modify relined
  congr 1
  apply Array.ext_getElem?
  intro j
  simp only [Array.getElem?_modify, Array.getElem?_mapIdx]
  split
  · rename_i hj
    subst hj
    cases g.nodes[id]? with
    | none => rfl
    | some n => exact congrArg some (h n)
  · rfl

theorem add_relined {n n' : Node} (h : n' = n.relined (old g.size) k) :
    (g.relined old k).add n' = (g.add n).relined old k := by
  subst h
  simp [add, relined, size]

theorem elementSize_relined (e : Element) :
    (g.relined old k).elementSize e = g.elementSize e := by
  unfold elementSize
  split
  · exact node_relined_field Node.length fun _ _ => rfl
  · rfl

theorem elementAlign_relined (e : Element) :
    (g.relined old k).elementAlign e = g.elementAlign e := by
  unfold elementAlign
  split
  · exact node_relined_field Node.align fun _ _ => rfl
  · rfl

theorem retain_relined (e : Element) :
    (g.relined old k).retain e = (g.retain e).relined old k := by
  unfold retain
  split
  · exact modify_relined fun _ => rfl
  · rfl

theorem appendItem_relined (item : Item) :
    (g.relined old k).appendItem id item = (g.appendItem id item).relined old k := by
  have hgrown : (g.relined old k).modify id
      (Node.withItem (g.elementSize item.kind) (g.elementAlign item.kind) item) =
      (g.modify id
        (Node.withItem (g.elementSize item.kind) (g.elementAlign item.kind) item)).relined old k :=
    modify_relined fun _ => rfl
  rw [appendItem_eq, appendItem_eq, elementSize_relined, elementAlign_relined,
    node_relined_field Node.items fun _ _ => rfl]
  dsimp only
  rw [hgrown, retain_relined]
  split <;> rfl

theorem finish_relined : (g.relined old k).finish id = (g.finish id).relined old k :=
  modify_relined fun _ => rfl

theorem addMember_relined (member : NodeId) :
    (g.relined old k).addMember id member = (g.addMember id member).relined old k := by
  unfold addMember
  dsimp only
  rw [node_relined_field Node.length fun _ _ => rfl, node_relined_field Node.align fun _ _ => rfl]
  exact modify_relined fun _ => rfl

/-- A scalar has no line, and none is left over from before if its number is new. -/
theorem addScalar_relined (hold : old g.size = 0) (kind : NodeKind) (name : Option NameId)
    (e : Element) :
    (g.relined old k).addScalar kind name e = (g.addScalar kind name e).relined old k := by
  have hadd : (g.relined old k).add { name, kind, state := .defining } =
      (g.add { name, kind, state := .defining }).relined old k :=
    add_relined (by simp [Node.relined, hold])
  unfold addScalar
  dsimp only
  rw [size_relined, hadd, appendItem_relined, finish_relined]

theorem size_finish (g : Graph) (id : NodeId) : (g.finish id).size = g.size := size_modify _ _ _

theorem size_addMember (g : Graph) (union member : NodeId) :
    (g.addMember union member).size = g.size := size_modify _ _ _

theorem size_addScalar (g : Graph) (kind : NodeKind) (name : Option NameId) (e : Element) :
    (g.addScalar kind name e).size = g.size + 1 := by
  unfold addScalar
  rw [size_finish, size_appendItem, size_add]

theorem describe_relined (names : Names) :
    (g.relined old k).describe names id = g.describe names id := by
  unfold describe
  dsimp only
  rw [node_relined_field Node.name fun _ _ => rfl, node_relined_field Node.kind fun _ _ => rfl]

end Graph

/-! ### Sessions that differ in lines -/

theorem Clause.move_move (c : Clause) (j k : ℕ) : (c.move j).move k = c.move (j + k) := by
  cases c <;> simp [Clause.move, Declarator.move, Nat.add_assoc]

def Refusal.move (k : ℕ) (r : Refusal) : Refusal := { r with line := r.line + k }

namespace Session

variable {d : Declarator}

/-- **Sessions that differ in lines only**: the second one has the lines of the first one moved
down, and the old lines where the first one has none. What else is in their logs does not matter. -/
structure Relines (old : NodeId → ℕ) (k : ℕ) (s s' : Session) : Prop where
  names : s'.names = s.names
  registry : s'.registry = s.registry
  keys : s'.keys = s.keys
  nextOffset : s'.nextOffset = s.nextOffset
  nextJump : s'.nextJump = s.nextJump
  graph : s'.graph = s.graph.relined old k
  asked : s'.asked = s.asked
  /-- There is no old line where a new node comes to stand. -/
  unused : ∀ id, s.graph.size ≤ id → old id = 0

variable {old : NodeId → ℕ} {k line : ℕ} {s s' : Session} {eval : Evaluator}

theorem asked_note (s : Session) (n : Notice) : (s.note n).asked = s.asked ++ n.asked?.toList := by
  rw [asked, asked, note, Array.toList_push, List.filterMap_append, List.filterMap_cons]
  cases n.asked? <;> rfl

namespace Relines

theorem size (h : s.Relines old k s') : s'.graph.size = s.graph.size := by
  rw [h.graph, Graph.size_relined]

theorem lookup? (h : s.Relines old k s') (x : String) : s'.lookup? x = s.lookup? x := by
  rw [Session.lookup?, Session.lookup?, h.names, h.registry]

theorem describe (h : s.Relines old k s') (id : NodeId) : s'.describe id = s.describe id := by
  rw [Session.describe, Session.describe, h.names, h.graph, Graph.describe_relined]

theorem field (h : s.Relines old k s') {α : Type} (id : NodeId) (field : Node → α)
    (hf : ∀ n line, field { n with line } = field n) :
    field (s'.graph.node id) = field (s.graph.node id) := by
  rw [h.graph, Graph.node_relined_field field hf]

theorem note (h : s.Relines old k s') {n n' : Notice} (hn : n'.asked? = n.asked?) :
    (s.note n).Relines old k (s'.note n') :=
  { h with asked := by rw [asked_note, asked_note, h.asked, hn] }

theorem noteAsked (h : s.Relines old k s') (line line' : ℕ) (asked : List String) :
    (s.noteAsked line asked).Relines old k (s'.noteAsked line' asked) := by
  induction asked generalizing s s' with
  | nil => exact h
  | cons text asked ih => exact ih (h.note rfl)

theorem fst_intern (h : s.Relines old k s') (x : String) : (s'.intern x).1 = (s.intern x).1 := by
  rw [Session.intern, Session.intern, h.names]

theorem intern (h : s.Relines old k s') (x : String) :
    (s.intern x).2.Relines old k (s'.intern x).2 :=
  { h with names := by rw [Session.intern, Session.intern, h.names] }

theorem bind (h : s.Relines old k s') (x : String) (node : NodeId) :
    (s.bind x node).Relines old k (s'.bind x node) :=
  { h.intern x with
    registry := by
      show (s'.intern x).2.registry.insert (s'.intern x).1 node = _
      rw [h.fst_intern, (h.intern x).registry]
      rfl }

/-- The graph of both is changed in the same way, and it does not get smaller. -/
theorem withGraph (h : s.Relines old k s') {g g' : Graph} (hg : g' = g.relined old k)
    (hsize : s.graph.size ≤ g.size) :
    Relines old k { s with graph := g } { s' with graph := g' } :=
  { h with graph := hg, unused := fun id hid => h.unused id (hsize.trans hid) }

theorem modifyNode (h : s.Relines old k s') {id : NodeId} {f f' : Node → Node}
    (hf : ∀ n, f' (n.relined (old id) k) = (f n).relined (old id) k) :
    (s.modifyNode id f).Relines old k (s'.modifyNode id f') := by
  refine h.withGraph ?_ (Graph.size_modify _ _ _).ge
  rw [h.graph, Graph.modify_relined hf]

theorem addNode (h : s.Relines old k s') {n n' : Node} (hn : n' = n.relined (old s.graph.size) k) :
    (s.addNode n).Relines old k (s'.addNode n') := by
  refine h.withGraph ?_ ?_
  · rw [h.graph, Graph.add_relined hn]
  · simp

end Relines

/-! ### What clauses do -/

variable {scope : Scope}

/-- A tag that is new gets the line of its clause. -/
theorem relines_tagNode (h : s.Relines old k s') (hl : line ≠ 0) (kind : TagKind) (name : String) :
    (s'.tagNode kind name (line + k)).1 = (s.tagNode kind name line).1 ∧
      (s.tagNode kind name line).2.Relines old k (s'.tagNode kind name (line + k)).2 := by
  unfold tagNode
  dsimp only
  rw [h.lookup?]
  cases s.lookup? (Names.tagSpelling kind.keyword name) with
  | some node => exact ⟨rfl, h⟩
  | none =>
    refine ⟨h.size, ?_⟩
    dsimp only
    rw [(h.intern name).size, h.fst_intern]
    exact ((h.intern name).addNode (by simp [Node.relined, hl])).bind _ _

/-- **Two results of acting**: sessions that differ in lines only, and the same value, or the same
refusal further down. -/
def Agrees {α : Type} (old : NodeId → ℕ) (k : ℕ) (r r' : Session × Except Refusal α) : Prop :=
  r.1.Relines old k r'.1 ∧ r'.2 = mapResult (Refusal.move k) id r.2

theorem agrees_openBody (h : s.Relines old k s') (hl : line ≠ 0) (kind : TagKind)
    (name : Option String) :
    Agrees old k (s.openBody kind name line) (s'.openBody kind name (line + k)) := by
  cases name with
  | none =>
    refine ⟨h.addNode (by simp [Node.relined, hl]), ?_⟩
    show Except.ok _ = Except.ok _
    rw [h.size]
    rfl
  | some name =>
    obtain ⟨hnode, htag⟩ := relines_tagNode h hl kind name
    unfold openBody
    dsimp only
    rw [hnode, htag.field _ Node.state fun _ _ => rfl]
    split
    · exact ⟨htag.modifyNode fun n => by simp [Node.relined, hl], rfl⟩
    · exact ⟨htag, rfl⟩

theorem relines_closeBody (h : s.Relines old k s') (node : NodeId) :
    (s.closeBody node).Relines old k (s'.closeBody node) := by
  refine Relines.note (h.withGraph ?_ ?_) rfl
  · rw [h.graph, Graph.finish_relined]
  · exact (Graph.size_finish _ _).ge

theorem agrees_enumeration (h : s.Relines old k s') (hl : line ≠ 0) (name : Option String)
    (body : Bool) :
    Agrees old k (s.enumeration name body line) (s'.enumeration name body (line + k)) := by
  have hscalar {s s' : Session} (h : s.Relines old k s') (name : Option NameId) :
      Relines old k { s with graph := s.graph.addScalar .enum name .enum }
        { s' with graph := s'.graph.addScalar .enum name .enum } := by
    refine h.withGraph ?_ ?_
    · rw [h.graph, Graph.addScalar_relined (h.unused _ le_rfl)]
    · rw [Graph.size_addScalar]
      exact Nat.le_succ _
  cases name with
  | none =>
    refine ⟨hscalar h none, ?_⟩
    show Except.ok _ = Except.ok _
    rw [h.size]
    rfl
  | some name =>
    unfold enumeration
    dsimp only
    rw [h.lookup?]
    cases s.lookup? (Names.tagSpelling "enum" name) with
    | some node =>
      dsimp only
      rw [h.field node Node.isDefined fun _ _ => rfl]
      split
      · split
        · exact ⟨h, rfl⟩
        · exact ⟨h.modifyNode fun _ => rfl, rfl⟩
      · exact ⟨h, rfl⟩
    | none =>
      dsimp only
      rw [(h.intern name).size, h.fst_intern]
      exact ⟨((hscalar (h.intern name) _).modifyNode fun n => by simp [Node.relined, hl]).bind _ _,
        rfl⟩

theorem relines_rememberFragment (h : s.Relines old k s') (type : Specified) (name : String) :
    (s.rememberFragment type name).Relines old k (s'.rememberFragment type name) := by
  unfold rememberFragment
  rw [h.field type.node Node.fragment fun _ _ => rfl]
  split
  · dsimp only
    rw [h.fst_intern]
    exact (h.intern name).modifyNode fun _ => rfl
  · exact h

theorem relines_nameType (h : s.Relines old k s') (type : NodeId) (d : Declarator) :
    (s.nameType type d).Relines old k (s'.nameType type (d.move k)) := by
  unfold nameType
  dsimp only [Declarator.move]
  rw [h.fst_intern]
  refine Relines.note (Relines.bind ?_ d.name type) rfl
  exact (h.intern d.name).modifyNode fun _ => rfl

theorem relines_deriveType (h : s.Relines old k s') (hl : d.line ≠ 0) (item : Item) :
    (s.deriveType d item).Relines old k (s'.deriveType (d.move k) item) := by
  have hadded : Relines old k
      ((s.intern d.name).2.addNode
        { name := some (s.intern d.name).1, kind := .typedef, state := .defining, line := d.line })
      ((s'.intern d.name).2.addNode
        { name := some (s'.intern d.name).1, kind := .typedef, state := .defining,
          line := d.line + k }) :=
    (h.intern d.name).addNode (by simp [Node.relined, hl, h.fst_intern])
  unfold deriveType
  dsimp only [Declarator.move]
  rw [(h.intern d.name).size]
  refine Relines.note (Relines.bind ?_ d.name _) rfl
  refine hadded.withGraph ?_ ?_
  · rw [hadded.graph, Graph.appendItem_relined, Graph.finish_relined]
  · rw [Graph.size_finish, Graph.size_appendItem]

theorem relines_addField (h : s.Relines old k s') (hl : line ≠ 0) (container : NodeId)
    (item : Item) :
    (s.addField container line item).Relines old k (s'.addField container (line + k) item) := by
  unfold addField
  rw [h.field container Node.isUnion fun _ _ => rfl, h.size]
  split
  · have hadded : Relines old k (s.addNode { kind := .unionMember, state := .defining, line })
        (s'.addNode { kind := .unionMember, state := .defining, line := line + k }) :=
      h.addNode (by simp [Node.relined, hl])
    refine hadded.withGraph ?_ ?_
    · rw [hadded.graph, Graph.appendItem_relined, Graph.finish_relined, Graph.addMember_relined]
    · rw [Graph.size_addMember, Graph.size_finish, Graph.size_appendItem]
  · refine h.withGraph ?_ ?_
    · rw [h.graph, Graph.appendItem_relined]
    · rw [Graph.size_appendItem]

/-! ### Declarators -/

theorem scale_move (line k count factor : ℕ) :
    scale (line + k) count factor = mapResult (Refusal.move k) id (scale line count factor) := by
  unfold scale
  split <;> rfl

/-- What is computed asks for the same texts wherever it stands. -/
theorem dimensionValue_move (eval : Evaluator) (line k : ℕ) (d : Dimension) :
    dimensionValue eval (line + k) d =
      ⟨(dimensionValue eval line d).asked,
        mapResult (Refusal.move k) id (dimensionValue eval line d).result⟩ := by
  unfold dimensionValue
  split
  · rfl
  · split <;> rfl
  · split
    · rfl
    · dsimp only [dimensionSize]
      split <;> rfl

theorem arrayCount_move (eval : Evaluator) (line k count : ℕ) (ds : List Derivation) :
    arrayCount eval (line + k) count ds =
      ⟨(arrayCount eval line count ds).asked,
        mapResult (Refusal.move k) id (arrayCount eval line count ds).result⟩ := by
  induction ds generalizing count with
  | nil => rfl
  | cons d ds ih =>
    cases d with
    | function | pointer => rfl
    | array d =>
      rw [arrayCount, arrayCount, dimensionValue_move]
      dsimp only
      cases (dimensionValue eval line d).result with
      | error r => rfl
      | ok size =>
        dsimp only [mapResult, id]
        rw [scale_move]
        cases scale line count size with
        | error r => rfl
        | ok count =>
          dsimp only [mapResult, id]
          rw [ih]
          rfl

theorem elementItem_move (h : s.Relines old k s') (base : NodeId) (count : ℕ) (d : Declarator) :
    elementItem s' base count (d.move k) =
      mapResult (Refusal.move k) id (elementItem s base count d) := by
  unfold elementItem
  dsimp only [Declarator.move]
  rw [h.field base Node.kind fun _ _ => rfl, h.field base Node.isDefined fun _ _ => rfl,
    h.field base Node.name fun _ _ => rfl, h.field base Node.isVoid fun _ _ => rfl,
    h.field base Node.items fun _ _ => rfl, h.field base Node.isUnion fun _ _ => rfl, h.names,
    h.describe]
  split
  · rfl
  · split
    · rfl
    · split
      case h_1 | h_2 | h_3 =>
        split
        · rw [scale_move]
          cases scale d.line count _ <;> rfl
        · rfl
      case h_4 | h_5 | h_6 => split <;> rfl

theorem itemFor_move (eval : Evaluator) (h : s.Relines old k s') (base : NodeId) (d : Declarator) :
    itemFor eval s' base (d.move k) =
      ⟨(itemFor eval s base d).asked,
        mapResult (Refusal.move k) id (itemFor eval s base d).result⟩ := by
  have hcount := arrayCount_move eval d.line k 1 d.derivations
  unfold itemFor
  dsimp only [Declarator.move] at hcount ⊢
  rw [hcount]
  dsimp only
  cases (arrayCount eval d.line 1 d.derivations).result with
  | error r => rfl
  | ok counted =>
    obtain ⟨count, ds⟩ := counted
    dsimp only [mapResult, id]
    -- only an element itself is looked up in the graph
    have helement := elementItem_move h base count d
    cases ds with
    | nil => exact congrArg (Computed.mk _) helement
    | cons step ds =>
      cases step with
      | pointer | function => rfl
      | array => exact congrArg (Computed.mk _) helement

theorem agrees_declare (h : s.Relines old k s') (hl : d.line ≠ 0) (typedef : Bool) :
    Agrees old k (s.declare eval scope d typedef) (s'.declare eval scope (d.move k) typedef) := by
  have hremember := relines_rememberFragment h scope.type d.name
  have hitem := itemFor_move eval hremember scope.type.node d
  have hasked := hremember.noteAsked d.line (d.line + k)
    (itemFor eval (s.rememberFragment scope.type d.name) scope.type.node d).asked
  unfold declare
  rw [show (d.move k).derivations = d.derivations from rfl,
    show (d.move k).name = d.name from rfl, show (d.move k).line = d.line + k from rfl]
  by_cases hname : typedef = true ∧ d.derivations.isEmpty = true
  · rw [if_pos hname, if_pos hname]
    exact ⟨relines_nameType hremember _ d, rfl⟩
  · rw [if_neg hname, if_neg hname, hitem]
    dsimp only
    generalize
      (itemFor eval (s.rememberFragment scope.type d.name) scope.type.node d).result = result
    cases result <;> cases typedef <;> cases scope.container?
    case ok.false.some item container => exact ⟨relines_addField hasked hl container item, rfl⟩
    case ok.true.none item => exact ⟨relines_deriveType hasked hl item, rfl⟩
    case ok.true.some item container => exact ⟨relines_deriveType hasked hl item, rfl⟩
    case ok.false.none item => exact ⟨hremember, rfl⟩
    case error.false.none r => exact ⟨hremember, rfl⟩
    all_goals exact ⟨hasked, rfl⟩

theorem agrees_bareType (h : s.Relines old k s') (hl : line ≠ 0) :
    Agrees old k (s.bareType eval scope line) (s'.bareType eval scope (line + k)) := by
  unfold bareType
  split
  · split
    · exact ⟨h.note rfl, rfl⟩
    · rename_i container _
      dsimp only
      rw [h.field container Node.isUnion fun _ _ => rfl,
        h.field container Node.members fun _ _ => rfl, h.field container Node.items fun _ _ => rfl]
      exact agrees_declare h (d := { name := _, line }) hl false
  · exact ⟨h, rfl⟩

/-! ### Clauses -/

/-- **One clause** does the same further down. The first line there is is line one. -/
theorem agrees_act (eval : Evaluator) (scope : Scope) (h : s.Relines old k s') (clause : Clause) :
    Agrees old k (s.act eval scope (clause.move 1))
      (s'.act eval scope ((clause.move 1).move k)) := by
  have hmap {α β : Type} {r r' : Session × Except Refusal α} (hr : Agrees old k r r') (f : α → β) :
      Agrees old k (r.1, r.2.map f) (r'.1, r'.2.map f) := by
    refine ⟨hr.1, ?_⟩
    rw [hr.2]
    cases r.2 <;> rfl
  cases clause with
  | openBody kind name line => exact hmap (agrees_openBody h line.succ_ne_zero kind name) _
  | closeBody =>
    obtain ⟨bodies, type⟩ := scope
    cases bodies with
    | nil => exact ⟨h, rfl⟩
    | cons body bodies => exact ⟨relines_closeBody h body.node, rfl⟩
  | tag kind name line =>
    obtain ⟨hnode, htag⟩ := relines_tagNode h (show line + 1 ≠ 0 by omega) kind name
    simp only [Clause.move, act]
    rw [hnode]
    exact ⟨htag, rfl⟩
  | enum name body line => exact hmap (agrees_enumeration h line.succ_ne_zero name body) _
  | base spelling unsigned line =>
    simp only [Clause.move, act]
    rw [h.lookup?]
    cases s.lookup? spelling <;> exact ⟨h, rfl⟩
  | named name line =>
    simp only [Clause.move, act]
    rw [h.lookup?]
    cases s.lookup? name <;> exact ⟨h, rfl⟩
  | declare d typedef => exact hmap (agrees_declare h d.line.succ_ne_zero typedef) _
  | bare line => exact hmap (agrees_bareType h line.succ_ne_zero) _

/-- **Clauses one after the other** do the same further down, up to the first that is refused. -/
theorem agrees_actAll (eval : Evaluator) (scope : Scope) (h : s.Relines old k s') {m m' : Move}
    (hm : m.lines = 1) (hm' : m'.lines = 1 + k) (heard : List Heard) :
    Agrees old k
      ((s.actAll eval scope (heard.map (Heard.move m))).map id (Except.mapError Stop.refusal))
      ((s'.actAll eval scope (heard.map (Heard.move m'))).map id
        (Except.mapError Stop.refusal)) := by
  induction heard generalizing s s' scope with
  | nil => exact ⟨h, rfl⟩
  | cons x heard ih =>
    obtain ⟨hsession, hresult⟩ := agrees_act eval scope h x.clause
    have hclause : (x.move m').clause = (x.clause.move 1).move k := by
      rw [Heard.move, hm', Clause.move_move]
    rw [List.map_cons, List.map_cons, actAll, actAll, hclause, Heard.move, hm]
    rcases hact : s.act eval scope (x.clause.move 1) with ⟨s₁, refusal | scope₁⟩ <;>
      rcases hact' : s'.act eval scope ((x.clause.move 1).move k) with ⟨s₁', refusal' | scope₁'⟩ <;>
      rw [hact, hact'] at hsession hresult
    · obtain rfl := Except.error.inj hresult
      exact ⟨hsession, rfl⟩
    · cases hresult
    · cases hresult
    · obtain rfl := Except.ok.inj hresult
      exact ih _ hsession

end Session

end TypeLayout
