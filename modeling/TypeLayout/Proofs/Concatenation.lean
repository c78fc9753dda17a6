import TypeLayout.Proofs.Relining

/-!
# Two sources one after the other, or as one

Reading a source and then another one into the same session does what reading both as one does,
with a line break between them (`Session.readSource_append`): the same failure, if there is one,
the same questions to the evaluator, the same nodes and the same bindings. Only the lines of what
the second source says are larger, by the lines of the first one.

The first source is read in the same way when the second one follows it, and its end leaves nothing
behind that the second one could take up: no token that has been looked at, no line marker and no
comment that goes on, no body that is open, and no type that a declarator could still refer to.
-/

namespace TypeLayout

/-- The same diagnostic some lines further down. -/
def Diagnostic.move (k : ℕ) (d : Diagnostic) : Diagnostic := { d with line := d.line + k }

variable {text next : List Char} {depth : ℕ} {c : Cursor} {t : Token}

/-! ### Where the second source begins -/

/-- The start of a text, with its lines counted from zero. -/
def Cursor.origin (text : List Char) (depth : ℕ) : Cursor :=
  { start text depth with line := 0, recent := [⟨0, text⟩] }

/-- A text that nothing stands in front of: its first line is line one. -/
def Move.first : Move := ⟨1, 0, []⟩

theorem Cursor.start_eq_move (text : List Char) (depth : ℕ) :
    start text depth = (origin text depth).move .first := by
  have htake : ([⟨1, text⟩] : List LineStart).take (max (max depth 1) 1) = [⟨1, text⟩] :=
    List.take_of_length_le (by simp)
  simp only [move, origin, start, Move.first, LineStart.move, List.map_cons, List.map_nil,
    List.append_nil, Nat.zero_add, htake]

/-- A line break in front of a text is passed over. -/
theorem scan_newline (hc : c.rest = '\n' :: next) : scan c = scan c.advance := by
  have hblank : Text.isBlank '\n' = true := by decide
  have hnext : nextToken c = nextToken c.advance := by
    rw [nextToken, nextToken, skipTrivia_of_cons hc, if_pos hblank]
  rw [scan_eq c, scan_eq c.advance, hnext]

/-- **Behind a line break the next text stands further down**, by as many lines. -/
theorem scan_behind (hc : c.rest = '\n' :: next) (hdepth : c.depth = max depth 1) :
    ∃ m : Move, m.lines = c.line + 1 ∧ scan c = (scan (.origin next depth)).move m := by
  refine ⟨⟨c.line + 1, c.position + 1, c.recent⟩, rfl, ?_⟩
  rw [scan_newline hc, ← scan_move]
  congr 1
  have hmax : max (max depth 1) 1 = max depth 1 - 1 + 1 := by omega
  rw [Cursor.advance, hc]
  simp only [if_true, hdepth, Cursor.move, Cursor.origin, Cursor.start, LineStart.move,
    List.map_cons, List.map_nil, List.singleton_append, hmax, List.take_succ_cons, Nat.zero_add]

/-! ### The scope that the first source leaves -/

namespace Session

variable {s s' : Session} {scope scope' : Scope} {eval : Evaluator} {heard : List Heard}
  {m m' : Move}

/-- A clause that names a type does not refer back to the one named before. -/
theorem act_of_specifies {clause : Clause} (h : clause.specifies = true)
    (hc : clause.Allowed scope.bodies.length false) (type : Specified) :
    s.act eval { scope with type } clause = s.act eval scope clause := by
  obtain ⟨bodies, type'⟩ := scope
  cases clause with
  | openBody | declare | bare => cases h
  | closeBody =>
    cases bodies with
    | nil => exact absurd hc (by simp [Clause.Allowed])
    | cons body bodies => rfl
  | tag | enum => rfl
  | base | named => simp only [act]

/-- **The type named last makes no difference** to clauses that refer back to each other only. -/
theorem actAll_retype (s : Session) (eval : Evaluator) (scope : Scope) (type : Specified)
    (hc : Clause.Coherent scope.bodies.length false (heard.map Heard.clause)) :
    (s.actAll eval { scope with type } heard).map id (Except.map fun _ => ()) =
      (s.actAll eval scope heard).map id (Except.map fun _ => ()) := by
  induction heard generalizing s scope with
  | nil => rfl
  | cons x heard ih =>
    obtain ⟨hallowed, hrest⟩ := hc
    rw [actAll, actAll]
    cases hspecifies : x.clause.specifies with
    | true => rw [act_of_specifies hspecifies hallowed]
    | false =>
      cases hclause : x.clause with
      | openBody kind name line =>
        rw [hclause] at hrest
        simp only [act]
        rcases s.openBody kind name line with ⟨s₁, refusal | body⟩
        · rfl
        · exact ih s₁ { scope with bodies := body :: scope.bodies } hrest
      | declare | bare =>
        rw [hclause] at hallowed
        cases hallowed
      | _ =>
        rw [hclause] at hspecifies
        cases hspecifies


/-! ### What is reported -/

theorem conclude_append {front rear : List Heard} {outcome : Except Fault ℕ}
    (h : s.actAll eval scope front = (s', .ok scope')) :
    s.conclude eval scope ⟨front ++ rear, outcome⟩ = s'.conclude eval scope' ⟨rear, outcome⟩ := by
  unfold conclude
  rw [actAll_append h]

theorem conclude_retype (scope : Scope) {reading : Reading} (type : Specified)
    (hc : Clause.Coherent scope.bodies.length false (reading.heard.map Heard.clause)) :
    s.conclude eval { scope with type } reading = s.conclude eval scope reading := by
  have hacted := actAll_retype s eval scope type hc
  unfold conclude
  generalize s.actAll eval { scope with type } reading.heard = acted at hacted ⊢
  generalize s.actAll eval scope reading.heard = acted' at hacted ⊢
  rcases acted with ⟨s₁, stop | scope₁⟩ <;> rcases acted' with ⟨s₂, stop' | scope₂⟩ <;>
    obtain ⟨rfl, hresult⟩ := Prod.mk.inj hacted
  · obtain rfl := Except.error.inj hresult
    rfl
  · cases hresult
  · cases hresult
  · rfl

variable {old : NodeId → ℕ} {k : ℕ}

/-- **Two reports**: sessions that differ in lines only, and no failure or the same one further
down. -/
def SameReport (old : NodeId → ℕ) (k : ℕ) (r r' : Session × Except Failure Unit) : Prop :=
  r.1.Relines old k r'.1 ∧
    r'.2.mapError (·.diagnostic) = mapResult (Diagnostic.move k) id (r.2.mapError (·.diagnostic))

theorem sameReport_failGrammar (h : s.Relines old k s') (line : ℕ) (e : ParseError String)
    (seen seen' : Cursor) :
    SameReport old k ((s.failGrammar line e seen).1, .error (s.failGrammar line e seen).2)
      ((s'.failGrammar (line + k) e seen').1, .error (s'.failGrammar (line + k) e seen').2) := by
  unfold failGrammar
  rw [h.names]
  exact ⟨{ h with names := rfl }, rfl⟩

theorem sameReport_failStop (h : s.Relines old k s') {stop stop' : Stop}
    (hstop : stop'.refusal = stop.refusal.move k) :
    SameReport old k ((s.failStop stop).1, .error (s.failStop stop).2)
      ((s'.failStop stop').1, .error (s'.failStop stop').2) := by
  obtain ⟨⟨line, cause⟩, seen⟩ := stop
  obtain ⟨refusal, seen'⟩ := stop'
  obtain rfl : refusal = _ := hstop
  cases cause with
  | grammar e => exact sameReport_failGrammar h line e seen seen'
  | host e => exact ⟨h, rfl⟩

theorem sameReport_failRead (h : s.Relines old k s') {fault : Fault} (hm : m'.lines = m.lines + k) :
    SameReport old k ((s.failRead (fault.move m)).1, .error (s.failRead (fault.move m)).2)
      ((s'.failRead (fault.move m')).1, .error (s'.failRead (fault.move m')).2) := by
  obtain ⟨line, error, seen⟩ := fault
  have hline : line + m'.lines = line + m.lines + k := by omega
  cases error with
  | lexical e =>
    refine ⟨h, ?_⟩
    simp only [failRead, Fault.move, hline]
    rfl
  | grammar e =>
    simp only [failRead, Fault.move, hline]
    exact sameReport_failGrammar h _ e _ _

/-- **What has been read further down is reported further down**, whatever declarations it is
counted with. -/
theorem sameReport_conclude (eval : Evaluator) (scope : Scope) (h : s.Relines old k s')
    (hm : m.lines = 1) (hm' : m'.lines = 1 + k) (reading : Reading) (count : ℕ → ℕ) :
    SameReport old k (s.conclude eval scope (reading.move m))
      (s'.conclude eval scope
        ⟨(reading.move m').heard, (reading.move m').outcome.map count⟩) := by
  obtain ⟨hsession, hresult⟩ :=
    agrees_actAll eval scope h hm hm' reading.heard
  unfold conclude Reading.move
  dsimp only
  generalize s.actAll eval scope (reading.heard.map (Heard.move m)) = acted at hsession hresult ⊢
  generalize s'.actAll eval scope (reading.heard.map (Heard.move m')) = acted'
    at hsession hresult ⊢
  rcases acted with ⟨s₁, stop | scope₁⟩ <;> rcases acted' with ⟨s₂, stop' | scope₂⟩
  · exact sameReport_failStop hsession (Except.error.inj hresult)
  · cases hresult
  · cases hresult
  · cases reading.outcome with
    | error fault => exact sameReport_failRead hsession (by rw [hm, hm'])
    | ok n => exact ⟨hsession.note rfl, rfl⟩

/-! ### Which nodes get a line -/

/-- The same session with the lines of its nodes forgotten. -/
def unlined (s : Session) : Session :=
  { s with graph := { s.graph with nodes := s.graph.nodes.map fun n => { n with line := 0 } } }

/-- **The line that reading a source gives to a node**, zero if it gives it none. No line is left
from before where the lines of the session have been forgotten. -/
def recordedLine (eval : Evaluator) (s : Session) (source : String) (contextLines : ℕ)
    (id : NodeId) : ℕ :=
  ((s.unlined.readSource eval source contextLines).1.graph.node id).line

/-- The lines that have been forgotten are the old lines. -/
theorem relines_unlined (s : Session) (k : ℕ) :
    s.unlined.Relines (fun id => (s.graph.node id).line) k s where
  names := rfl
  registry := rfl
  keys := rfl
  nextOffset := rfl
  nextJump := rfl
  graph := by
    have hnodes : s.graph.nodes = (s.graph.nodes.map fun n => { n with line := 0 }).mapIdx
        fun id n => n.relined (s.graph.node id).line k := by
      apply Array.ext_getElem?
      intro id
      rw [Array.getElem?_mapIdx, Array.getElem?_map]
      cases hid : s.graph.nodes[id]? with
      | none => rfl
      | some n =>
        have hnode : s.graph.node id = n := by
          rw [Graph.node, Array.getD_eq_getD_getElem?, hid, Option.getD_some]
        rw [hnode]
        rfl
    exact congrArg (Graph.mk s.graph.target) hnodes
  asked := rfl
  unused id hid := by
    rw [Graph.node_of_le (by simpa [unlined, Graph.size] using hid)]
    rfl

/-- **The same session up to lines**: a node that has got one has it some lines further down, and
any other node is the same. -/
structure MovedLines (k : ℕ) (recorded : NodeId → ℕ) (s s' : Session) : Prop where
  names : s'.names = s.names
  registry : s'.registry = s.registry
  keys : s'.keys = s.keys
  nextOffset : s'.nextOffset = s.nextOffset
  nextJump : s'.nextJump = s.nextJump
  asked : s'.asked = s.asked
  target : s'.graph.target = s.graph.target
  size : s'.graph.size = s.graph.size
  moved : ∀ id, recorded id ≠ 0 →
    s'.graph.node id = { s.graph.node id with line := (s.graph.node id).line + k }
  kept : ∀ id, recorded id = 0 → s'.graph.node id = s.graph.node id

/-- What the lines of two sessions say that differ from a third one in lines only. -/
theorem Relines.movedLines {s₀ : Session} (h : s₀.Relines old 0 s) (h' : s₀.Relines old k s') :
    s.MovedLines k (fun id => (s₀.graph.node id).line) s' ∧
      ∀ id, (s.graph.node id).line =
        if (s₀.graph.node id).line = 0 then old id else (s₀.graph.node id).line := by
  have hnone {id : NodeId} (hid : ¬ id < s₀.graph.size) : (s₀.graph.node id).line = 0 := by
    rw [Graph.node_of_le (Nat.le_of_not_lt hid)]
    rfl
  have hline (id : NodeId) : (s.graph.node id).line =
      if (s₀.graph.node id).line = 0 then old id else (s₀.graph.node id).line := by
    by_cases hid : id < s₀.graph.size
    · rw [h.graph, Graph.node_relined_of_lt hid]
      rfl
    · rw [if_pos (hnone hid), h.unused id (Nat.le_of_not_lt hid),
        Graph.node_of_le (by rw [h.size]; exact Nat.le_of_not_lt hid)]
      rfl
  refine ⟨⟨?_, ?_, ?_, ?_, ?_, ?_, ?_, ?_, fun id hid => ?_, fun id hid => ?_⟩, hline⟩
  · rw [h'.names, h.names]
  · rw [h'.registry, h.registry]
  · rw [h'.keys, h.keys]
  · rw [h'.nextOffset, h.nextOffset]
  · rw [h'.nextJump, h.nextJump]
  · rw [h'.asked, h.asked]
  · rw [h'.graph, h.graph]
    rfl
  · rw [h'.size, h.size]
  · have hlt : id < s₀.graph.size := not_not.mp fun hge => hid (hnone hge)
    rw [h'.graph, h.graph, Graph.node_relined_of_lt hlt, Graph.node_relined_of_lt hlt]
    simp only [Node.relined, if_neg hid, Nat.add_zero]
  · by_cases hlt : id < s₀.graph.size
    · rw [h'.graph, h.graph, Graph.node_relined_of_lt hlt, Graph.node_relined_of_lt hlt]
      simp only [Node.relined, if_pos hid]
    · rw [Graph.node_of_le (by rw [h'.size]; exact Nat.le_of_not_lt hlt),
        Graph.node_of_le (by rw [h.size]; exact Nat.le_of_not_lt hlt)]

/-! ### Both sources -/

/-- What a source says, with its lines counted from zero. -/
def readAtOrigin (source : String) (contextLines : ℕ) : Reading :=
  readDeclarations (scan (.origin source.toList contextLines))

theorem readSource_eq_first (s : Session) (source : String) (contextLines : ℕ) :
    s.readSource eval source contextLines =
      s.conclude eval {} ((readAtOrigin source contextLines).move .first) := by
  rw [readSource_eq_conclude, Cursor.start_eq_move, scan_move, readDeclarations_move, readAtOrigin]

/-- **Both sources as one**: what the second one says is acted on further down, in the session that
the first one leaves. Where it begins no body is open, and no declarator refers back any further. -/
theorem exists_readSource_eq {source : String} {contextLines count : ℕ}
    (hact : s.actAll eval {} (heardIn source contextLines) = (s', .ok scope'))
    (hcount : (readDeclarations (scan (.start source.toList contextLines))).outcome = .ok count)
    (more : String) :
    ∃ m : Move, m.lines = 1 + (source.toList.count '\n' + 1) ∧
      s.readSource eval (source ++ "\n" ++ more) contextLines =
        s'.conclude eval {} ⟨((readAtOrigin more contextLines).move m).heard,
          ((readAtOrigin more contextLines).move m).outcome.map (· + count)⟩ := by
  obtain ⟨heard, c, hlong, hclauses, hrest, hline, hdepth⟩ :=
    readDeclarations_goesOn hcount more.toList
  obtain ⟨m, hm, hscan⟩ := scan_behind hrest hdepth
  have htext : (source ++ "\n" ++ more).toList = source.toList ++ '\n' :: more.toList := by simp
  have hsame : s.actAll eval {} heard = (s', .ok scope') := actAll_congr hact hclauses
  have hclosed : scope'.bodies = [] := List.eq_nil_of_length_eq_zero
    ((length_bodies_actAll hact).trans (depthAfter_readFrom ⟨count, hcount⟩))
  have hcoherent : Clause.Coherent 0 false
      (((readAtOrigin more contextLines).move m).heard.map Heard.clause) := by
    rw [readAtOrigin, ← readDeclarations_move, ← hscan]
    exact coherent_readFrom _ .declaration [] _
  refine ⟨m, by rw [hm, hline, Nat.add_assoc], ?_⟩
  rw [readSource_eq_conclude, htext, hlong, hscan, readDeclarations_move]
  refine (conclude_append hsame).trans ?_
  obtain ⟨bodies, type⟩ := scope'
  obtain rfl : bodies = [] := hclosed
  exact conclude_retype {} type hcoherent

/-- **Reading is compositional.** A source that can be read, and then any other one, do what both do
as one source with a line break between them. They fail in the same way, with the line moved down by
the lines of the first source, or not at all; and they leave the same session, except that the lines
which the second source gives to nodes are moved down, too. A node to which it gives none keeps the
line that the first source has left. -/
theorem readSource_append {source : String} {contextLines : ℕ}
    (h : s.readSource eval source contextLines = (s', .ok ())) (more : String) :
    let k := source.toList.count '\n' + 1
    let recorded := s'.recordedLine eval more contextLines
    let apart := s'.readSource eval more contextLines
    let joined := s.readSource eval (source ++ "\n" ++ more) contextLines
    joined.2.mapError (·.diagnostic) =
        mapResult (Diagnostic.move k) id (apart.2.mapError (·.diagnostic)) ∧
      apart.1.MovedLines k recorded joined.1 ∧
      ∀ id, (apart.1.graph.node id).line =
        if recorded id = 0 then (s'.graph.node id).line else recorded id := by
  intro k recorded apart joined
  obtain ⟨s₁, scope₁, count, hact, hcount, hs'⟩ := readSource_ok h
  obtain ⟨m, hm, hjoined⟩ := exists_readSource_eq hact hcount more
  let old := fun id => (s'.graph.node id).line
  let reading := readAtOrigin more contextLines
  have hcounted : (⟨(reading.move .first).heard, (reading.move .first).outcome.map id⟩ : Reading) =
      reading.move .first := by
    obtain ⟨heard, outcome⟩ := reading
    cases outcome <;> rfl
  -- both are compared with reading the second source where lines have been forgotten
  have hapart : SameReport old 0 (s'.unlined.readSource eval more contextLines) apart := by
    have hfirst : Move.first.lines = 1 := rfl
    have hreports := sameReport_conclude eval {} (relines_unlined s' 0) hfirst hfirst reading id
    rwa [hcounted, ← readSource_eq_first, ← readSource_eq_first] at hreports
  have hmoved : SameReport old k (s'.unlined.readSource eval more contextLines) joined := by
    have hasked : s₁.asked = s'.unlined.asked := by
      rw [show s'.unlined.asked = s'.asked from rfl, hs', asked_note]
      exact (List.append_nil _).symm
    have hstart : s'.unlined.Relines old k s₁ := by
      subst hs'
      exact { relines_unlined (s₁.note _) k with asked := hasked }
    rw [readSource_eq_first, show joined = _ from hjoined]
    exact sameReport_conclude eval {} hstart rfl hm reading (· + count)
  obtain ⟨hlines, hline⟩ := hapart.1.movedLines hmoved.1
  refine ⟨?_, hlines, hline⟩
  rw [hmoved.2, hapart.2]
  cases (s'.unlined.readSource eval more contextLines).2 <;> rfl

/-- The second source completes a struct of the first one and then fails. The struct gets a new
line, and so do the two after it; the struct in between keeps its line, and the enumeration has
none. -/
theorem readSource_append_completed :
    let source := "struct p;\nstruct q { int v; };"
    let more := "struct p { enum { A } e; struct q a[N]; };\nstruct r { struct z f; };"
    let eval : Evaluator := fun _ => .ok 3
    let s := start {} ⟨[]⟩ .standard
    let s' := (s.readSource eval source defaultContextLines).1
    let apart := s'.readSource eval more defaultContextLines
    let joined := s.readSource eval (source ++ "\n" ++ more) defaultContextLines
    let lines := fun (r : Session) => (r.graph.nodes.toList.drop s.graph.size).map (·.line)
    s.readSource eval source defaultContextLines = (s', .ok ()) ∧
      lines apart.1 = [1, 2, 0, 2, 2] ∧ lines joined.1 = [3, 2, 0, 4, 4] ∧
      joined.1.asked = ["N"] ∧ apart.2.isOk = false ∧
      joined.2.mapError (·.diagnostic) =
        mapResult (Diagnostic.move 2) id (apart.2.mapError (·.diagnostic)) ∧
      apart.1.MovedLines 2 (s'.recordedLine eval more defaultContextLines) joined.1 := by
  intro source more eval s s' apart joined lines
  have hok : (s.readSource eval source defaultContextLines).2.isOk = true := by decide +kernel
  have hread : s.readSource eval source defaultContextLines = (s', .ok ()) := by
    obtain ⟨u, hu⟩ := exists_ok_of_isOk hok
    exact Prod.ext rfl hu
  have hbreaks : source.toList.count '\n' = 1 := by decide +kernel
  have hapart : (lines apart.1, apart.2.isOk) = ([1, 2, 0, 2, 2], false) := by decide +kernel
  have hjoined : (lines joined.1, joined.1.asked) = ([3, 2, 0, 4, 4], ["N"]) := by decide +kernel
  obtain ⟨hfailure, hlines, -⟩ := readSource_append hread more
  rw [hbreaks] at hfailure hlines
  exact ⟨hread, (Prod.mk.inj hapart).1, (Prod.mk.inj hjoined).1, (Prod.mk.inj hjoined).2,
    (Prod.mk.inj hapart).2, hfailure, hlines⟩

end Session

end TypeLayout
