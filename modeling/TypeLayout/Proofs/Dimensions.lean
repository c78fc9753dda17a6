import TypeLayout.Proofs.Concatenation
import TypeLayout.Proofs.DeclaratorGrammar

/-!
# Dimensions reach the evaluator as they are written

The declarators of a source stand in it one behind the other (`InOrder`), and each of their
dimensions is the text between two brackets that match. Which of these texts are handed to the
evaluator can be said from the clauses alone (`wanted`): those of the arrays that come first in a
field or in a typedef, unless a dimension is empty or a single number. They are handed over in order
and once each.

Where a clause is refused the rest of the source is not acted on, and of the dimensions of that
clause only those have been handed over that were reached (`Reached`): none behind the first one
that has no size or makes too many elements (`Session.asked_readSource`).
-/

namespace TypeLayout

/-! ### Declarators in order -/

/-- The declarator of a clause. -/
def Clause.declarator? : Clause → Option Declarator
  | .declare d _ => some d
  | _ => none

/-- **The declarators from a place of the reader on**, one behind the other and none left out. Where
one is due it is the next of the list, and the list ends only where reading does. -/
inductive InOrder (source : List Char) (e : Ending) :
    Place → List Specifiers → List Token → List Declarator → Prop
  | finished {place : Place} {stack : List Specifiers} {ts : List Token}
    (h : step e place stack ts = .ok .finished) : InOrder source e place stack ts []
  | fault {place : Place} {stack : List Specifiers} {ts : List Token} {f : Fault}
    (h : step e place stack ts = .error f) : InOrder source e place stack ts []
  | skip {place place' : Place} {stack stack' : List Specifiers} {ts rest : List Token}
    {heard : Option Heard} {ds : List Declarator} (hplace : ∀ typedef, place ≠ .declarator typedef)
    (hstep : step e place stack ts = .ok (.goOn heard place' stack' rest))
    (h : InOrder source e place' stack' rest ds) : InOrder source e place stack ts ds
  | declarator {typedef : Bool} {place' : Place} {stack stack' : List Specifiers}
    {ts behind rest : List Token} {heard : Option Heard} {d : Declarator} {ds : List Declarator}
    (hd : Declares source ts d behind)
    (hstep : step e (.declarator typedef) stack ts = .ok (.goOn heard place' stack' rest))
    (hrest : rest <:+ behind) (h : InOrder source e place' stack' rest ds) :
    InOrder source e (.declarator typedef) stack ts (d :: ds)

section Reading

variable {e : Ending} {source : List Char} {ts rest : List Token} {ds : List Declarator}
  {place place' : Place} {stack stack' : List Specifiers} {heard : Option Heard}

/-- **What a step adds in front**: the declarator that it says, if it says one. -/
theorem InOrder.step (hstands : ∀ t ∈ ts, t.after.StandsIn source)
    (h : step e place stack ts = .ok (.goOn heard place' stack' rest))
    (hrest : InOrder source e place' stack' rest ds) :
    InOrder source e place stack ts (heard.toList.filterMap (·.clause.declarator?) ++ ds) := by
  cases goes_of_step h with
  | declare hread hskip _ _ hsign hvalue =>
    exact .declarator (declares_of_readDeclarator hread hstands) h
      ((suffix_skipValue hvalue).trans ((suffix_takePunct hsign).trans (suffix_skipNoise hskip)))
      hrest
  | _ => exact .skip (by simp) h hrest

/-- **All declarators that are read stand in order.** -/
theorem inOrder_readFrom (hstands : ∀ t ∈ ts, t.after.StandsIn source) :
    InOrder source e place stack ts
      ((readFrom e place stack ts).heard.filterMap (·.clause.declarator?)) := by
  fun_induction readFrom e place stack ts with
  | case1 place stack ts f h => exact .fault h
  | case2 place stack ts h => exact .finished h
  | case3 place stack ts heard place' stack' rest hstep more ih =>
    have hrest := ih fun t ht => hstands t ((suffix_step hstep).subset ht)
    rw [List.filterMap_append]
    exact .step hstands hstep hrest

end Reading

/-! ### What is asked for -/

/-- A dimension has to be evaluated: it is neither empty nor a single number. -/
def Dimension.needsHost (d : Dimension) : Bool :=
  match d.lexemes with
  | [] | [.number _] => false
  | _ => true

/-- The size that a dimension stands for. -/
def Dimension.size? (eval : Evaluator) (d : Dimension) : Option ℕ :=
  match d.lexemes with
  | [] => none
  | [.number n] => n.value?
  | _ => (eval d.text).toOption.bind Int.toNat?

/-- The texts of dimensions that have to be evaluated. -/
def texts (dims : List Dimension) : List String := (dims.filter Dimension.needsHost).map (·.text)

/-- The dimensions of the arrays in front of other derivations. -/
def leadingDimensions : List Derivation → List Dimension
  | .array d :: ds => d :: leadingDimensions ds
  | _ => []

namespace Clause

/-- The dimensions that count in a clause: those of a typedef, or of a declarator inside a body. -/
def dimensions (depth : ℕ) : Clause → List Dimension
  | .declare d typedef =>
    if typedef = true ∨ 0 < depth then leadingDimensions d.derivations else []
  | _ => []

/-- **The texts that clauses have evaluated**, if `depth` bodies have been opened before them. -/
def wanted : (depth : ℕ) → List Clause → List String
  | _, [] => []
  | depth, c :: cs => texts (c.dimensions depth) ++ wanted (c.depth depth) cs

end Clause

/-- **The dimensions that are reached** one after the other, starting from some elements: up to the
first one that has no size or makes more elements than a word can count. -/
inductive Reached (eval : Evaluator) : (count : ℕ) → List Dimension → List Dimension → Prop
  | all (count : ℕ) : Reached eval count [] []
  | unsized {count : ℕ} {d : Dimension} {dims : List Dimension} (h : d.size? eval = none) :
    Reached eval count (d :: dims) [d]
  | many {count n : ℕ} {d : Dimension} {dims : List Dimension} (h : d.size? eval = some n)
    (hn : 2 ^ 64 ≤ count * n) : Reached eval count (d :: dims) [d]
  | next {count n : ℕ} {d : Dimension} {dims reached : List Dimension}
    (h : d.size? eval = some n) (hn : count * n < 2 ^ 64)
    (hmore : Reached eval (count * n) dims reached) :
    Reached eval count (d :: dims) (d :: reached)

section Asking

variable (eval : Evaluator)

theorem texts_cons (d : Dimension) (dims : List Dimension) :
    texts (d :: dims) = texts [d] ++ texts dims := by
  unfold texts
  rw [List.filter_cons, List.filter_cons]
  split <;> rfl

/-- A dimension is handed over if it has to be, and has a value if it has a size. -/
theorem asked_dimensionValue (line : ℕ) (d : Dimension) :
    (dimensionValue eval line d).asked = texts [d] ∧
      (dimensionValue eval line d).result.toOption = d.size? eval := by
  obtain ⟨lexemes, text⟩ := d
  have hsize (value : ℤ) : (dimensionSize line value).toOption = value.toNat? := by
    cases value with
    | ofNat n =>
      have hn : ¬ Int.ofNat n < 0 := Int.not_lt.mpr (Int.natCast_nonneg n)
      rw [dimensionSize, if_neg hn]
      rfl
    | negSucc n =>
      rw [dimensionSize, if_pos (Int.negSucc_lt_zero n)]
      rfl
  unfold dimensionValue Dimension.size?
  rcases lexemes with _ | ⟨lexeme, _ | ⟨lexeme', lexemes⟩⟩
  · exact ⟨rfl, rfl⟩
  · cases lexeme with
    | number n =>
      dsimp only
      cases n.value? <;> exact ⟨rfl, rfl⟩
    | _ =>
      dsimp only
      cases eval text with
      | error err => exact ⟨rfl, rfl⟩
      | ok value => exact ⟨rfl, hsize value⟩
  · dsimp only
    cases eval text with
    | error err => cases lexeme <;> exact ⟨rfl, rfl⟩
    | ok value => cases lexeme <;> exact ⟨rfl, hsize value⟩

/-- **Arrays are asked for in order**, and all of them if they can be counted. -/
theorem asked_arrayCount (line count : ℕ) (ds : List Derivation) :
    ∃ reached, Reached eval count (leadingDimensions ds) reached ∧
      (arrayCount eval line count ds).asked = texts reached ∧
      ((∃ r, (arrayCount eval line count ds).result = .ok r) → reached = leadingDimensions ds) := by
  induction ds generalizing count with
  | nil => exact ⟨[], .all count, rfl, fun _ => rfl⟩
  | cons d ds ih =>
    cases d with
    | function => exact ⟨[], .all count, rfl, fun _ => rfl⟩
    | pointer => exact ⟨[], .all count, rfl, fun _ => rfl⟩
    | array d =>
      obtain ⟨hasked, hsize⟩ := asked_dimensionValue eval line d
      rw [arrayCount, leadingDimensions]
      dsimp only
      cases hvalue : (dimensionValue eval line d).result with
      | error r =>
        rw [hvalue] at hsize
        exact ⟨[d], .unsized hsize.symm, hasked, by simp⟩
      | ok n =>
        rw [hvalue] at hsize
        by_cases hn : count * n < 2 ^ 64
        · obtain ⟨reached, hreached, htexts, hall⟩ := ih (count * n)
          dsimp only
          rw [show scale line count n = .ok (count * n) from if_pos hn]
          refine ⟨d :: reached, .next hsize.symm hn hreached, ?_, fun hok => ?_⟩
          · rw [texts_cons, ← hasked, ← htexts]
          · rw [hall hok]
        · dsimp only
          rw [show scale line count n = .error _ from if_neg hn]
          exact ⟨[d], .many hsize.symm (Nat.le_of_not_lt hn), hasked, by simp⟩

theorem asked_itemFor (s : Session) (base : NodeId) (d : Declarator) :
    ∃ reached, Reached eval 1 (leadingDimensions d.derivations) reached ∧
      (itemFor eval s base d).asked = texts reached ∧
      ((∃ item, (itemFor eval s base d).result = .ok item) →
        reached = leadingDimensions d.derivations) := by
  obtain ⟨reached, hreached, htexts, hall⟩ := asked_arrayCount eval d.line 1 d.derivations
  refine ⟨reached, hreached, ?_, ?_⟩
  · rw [← htexts]
    unfold itemFor
    dsimp only
    split <;> rfl
  · rintro ⟨item, hitem⟩
    refine hall ?_
    cases hr : (arrayCount eval d.line 1 d.derivations).result with
    | error r => simp [itemFor, hr] at hitem
    | ok r => exact ⟨r, rfl⟩

end Asking

namespace Session

variable (eval : Evaluator) {s : Session}

/-- Other entries of the log hand nothing over. -/
theorem asked_note_of_none (s : Session) {n : Notice} (hn : n.asked? = none) :
    (s.note n).asked = s.asked := by
  rw [asked_note, hn]
  exact List.append_nil _

theorem asked_noteAsked (s : Session) (line : ℕ) (asked : List String) :
    (s.noteAsked line asked).asked = s.asked ++ asked := by
  unfold noteAsked noteAll
  induction asked generalizing s with
  | nil => simp
  | cons text asked ih =>
    rw [List.map_cons, List.foldl_cons, ih, asked_note, List.append_assoc]
    rfl

theorem asked_rememberFragment (s : Session) (type : Specified) (name : String) :
    (s.rememberFragment type name).asked = s.asked := by
  unfold rememberFragment
  split <;> rfl

theorem asked_addField (s : Session) (container : NodeId) (line : ℕ) (item : Item) :
    (s.addField container line item).asked = s.asked := by
  unfold addField
  split <;> rfl

/-- **What acting on a clause asks for**: the dimensions that count in it, as far as they are
reached, and all of them if it is not refused. -/
def AsksFor (eval : Evaluator) (s : Session) (dims : List Dimension) (s' : Session)
    (accepted : Prop) : Prop :=
  ∃ reached, Reached eval 1 dims reached ∧ s'.asked = s.asked ++ texts reached ∧
    (accepted → reached = dims)

variable {eval} in
theorem asksFor_nil {s' : Session} {accepted : Prop} (h : s'.asked = s.asked) :
    s.AsksFor eval [] s' accepted :=
  ⟨[], .all 1, by rw [h]; exact (List.append_nil _).symm, fun _ => rfl⟩

theorem asksFor_declare (s : Session) (scope : Scope) (d : Declarator) (typedef : Bool) :
    s.AsksFor eval (Clause.dimensions scope.bodies.length (.declare d typedef))
      (s.declare eval scope d typedef).1 ((s.declare eval scope d typedef).2 = .ok ()) := by
  have hremember := asked_rememberFragment s scope.type d.name
  unfold declare
  dsimp only
  generalize s.rememberFragment scope.type d.name = s₁ at *
  obtain ⟨reached, hreached, htexts, hall⟩ := asked_itemFor eval s₁ scope.type.node d
  have hasked : (s₁.noteAsked d.line (itemFor eval s₁ scope.type.node d).asked).asked =
      s.asked ++ texts reached := by
    rw [asked_noteAsked, hremember, htexts]
  cases typedef with
  | false =>
    rw [if_neg (by simp)]
    cases hc : scope.bodies with
    | nil =>
      have hnone : scope.container? = none := by rw [Scope.container?, hc]; rfl
      rw [hnone]
      exact asksFor_nil hremember
    | cons body bodies =>
      have hsome : scope.container? = some body.node := by rw [Scope.container?, hc]; rfl
      rw [hsome]
      rw [Clause.dimensions, if_pos (.inr (by simp))]
      cases hitem : (itemFor eval s₁ scope.type.node d).result with
      | error r => exact ⟨reached, hreached, hasked, by simp⟩
      | ok item =>
        refine ⟨reached, hreached, ?_, fun _ => hall ⟨item, hitem⟩⟩
        exact (asked_addField _ _ _ _).trans hasked
  | true =>
    rw [Clause.dimensions, if_pos (.inl rfl)]
    split
    · rename_i hnil
      rw [List.isEmpty_iff.mp hnil.2]
      exact asksFor_nil ((asked_note_of_none _ rfl).trans hremember)
    · cases hitem : (itemFor eval s₁ scope.type.node d).result with
      | error r => exact ⟨reached, hreached, hasked, by simp⟩
      | ok item =>
        refine ⟨reached, hreached, ?_, fun _ => hall ⟨item, hitem⟩⟩
        exact (asked_note_of_none _ rfl).trans hasked

/-- Without an array there is nothing to count. -/
theorem asked_declare_underived (s : Session) (scope : Scope) {d : Declarator}
    (hd : d.derivations = []) {typedef : Bool} :
    (s.declare eval scope d typedef).1.asked = s.asked := by
  obtain ⟨reached, hreached, hasked, -⟩ := asksFor_declare eval s scope d typedef
  have hnone : Clause.dimensions scope.bodies.length (.declare d typedef) = [] := by
    rw [Clause.dimensions, hd, leadingDimensions, ite_self]
    simp
  rw [hnone] at hreached
  cases hreached
  exact hasked.trans (List.append_nil _)

theorem asked_tagNode (s : Session) (kind : TagKind) (name : String) (line : ℕ) :
    (s.tagNode kind name line).2.asked = s.asked := by
  unfold tagNode
  dsimp only
  split <;> rfl

theorem asked_openBody (s : Session) (kind : TagKind) (name : Option String) (line : ℕ) :
    (s.openBody kind name line).1.asked = s.asked := by
  unfold openBody
  split
  · rfl
  · dsimp only
    split <;> exact asked_tagNode s _ _ _

theorem asked_enumeration (s : Session) (name : Option String) (body : Bool) (line : ℕ) :
    (s.enumeration name body line).1.asked = s.asked := by
  unfold enumeration
  split
  · rfl
  · dsimp only
    split
    · split
      · split <;> rfl
      · rfl
    · rfl

theorem asksFor_act (s : Session) (scope : Scope) (c : Clause) :
    s.AsksFor eval (c.dimensions scope.bodies.length) (s.act eval scope c).1
      (∃ scope', (s.act eval scope c).2 = .ok scope') := by
  cases c with
  | openBody kind name line => exact asksFor_nil (asked_openBody s kind name line)
  | closeBody =>
    refine asksFor_nil ?_
    unfold act
    dsimp only
    split
    · rfl
    · exact asked_note_of_none _ rfl
  | tag kind name line => exact asksFor_nil (asked_tagNode s kind name line)
  | enum name body line => exact asksFor_nil (asked_enumeration s name body line)
  | base | named =>
    refine asksFor_nil ?_
    unfold act
    dsimp only
    split <;> rfl
  | declare d typedef =>
    obtain ⟨reached, hreached, hasked, hall⟩ := asksFor_declare eval s scope d typedef
    refine ⟨reached, hreached, hasked, ?_⟩
    rintro ⟨scope', hok⟩
    obtain ⟨_, hr, -⟩ := exists_of_map_eq_ok hok
    exact hall hr
  | bare line =>
    refine asksFor_nil ?_
    show (s.bareType eval scope line).1.asked = s.asked
    unfold bareType
    split
    · split
      · exact asked_note_of_none _ rfl
      · exact asked_declare_underived eval s scope rfl
    · rfl

/-- **What acting on clauses asks for.** If one is refused, those before it have been accepted. -/
theorem asked_actAll (s : Session) (scope : Scope) (heard : List Heard) :
    let accepted := s.accepted eval scope heard
    let acted := s.actAll eval scope heard
    (accepted = heard.map Heard.clause ∧ (∃ scope', acted.2 = .ok scope') ∧
        acted.1.asked = s.asked ++ Clause.wanted scope.bodies.length accepted) ∨
      ∃ c more reached, heard.map Heard.clause = accepted ++ c :: more ∧
        (∃ stop, acted.2 = .error stop) ∧
        Reached eval 1 (c.dimensions (Clause.depthAfter scope.bodies.length accepted)) reached ∧
        acted.1.asked =
          s.asked ++ Clause.wanted scope.bodies.length accepted ++ texts reached := by
  induction heard generalizing s scope with
  | nil => exact .inl ⟨rfl, ⟨scope, rfl⟩, (List.append_nil _).symm⟩
  | cons x heard ih =>
    obtain ⟨reached, hreached, hasked, hall⟩ := asksFor_act eval s scope x.clause
    dsimp only [accepted, actAll]
    rcases hact : s.act eval scope x.clause with ⟨s₁, refusal | scope₁⟩
    · rw [hact] at hasked
      refine .inr ⟨x.clause, heard.map Heard.clause, reached, rfl, ⟨_, rfl⟩, hreached, ?_⟩
      rw [hasked, Clause.wanted, List.append_nil]
    · rw [hact] at hasked hall
      obtain rfl := hall ⟨scope₁, rfl⟩
      dsimp only at hasked ⊢
      have hdepth := (turns_act (congrArg Prod.snd hact)).length
      have hafter (cs : List Clause) : Clause.depthAfter scope.bodies.length (x.clause :: cs) =
          Clause.depthAfter (x.clause.depth scope.bodies.length) cs := rfl
      rcases ih s₁ scope₁ with ⟨hdone, hok, hmore⟩ | ⟨c, more, front, hdone, hstop, hfront, hmore⟩
      · refine .inl ⟨by rw [hdone]; rfl, hok, ?_⟩
        rw [Clause.wanted, hmore, hdepth, hasked, List.append_assoc]
      · refine .inr ⟨c, more, front, by rw [List.map_cons, hdone]; rfl, hstop, ?_, ?_⟩
        · rwa [hafter, ← hdepth]
        · rw [Clause.wanted, hmore, hdepth, hasked, List.append_assoc _ (texts _)]

theorem asked_failStop (s : Session) (stop : Stop) : (s.failStop stop).1.asked = s.asked := by
  unfold failStop
  split <;> rfl

theorem asked_failRead (s : Session) (fault : Fault) : (s.failRead fault).1.asked = s.asked := by
  unfold failRead
  split <;> rfl

/-- Reporting asks for nothing. -/
theorem asked_conclude (s : Session) (scope : Scope) (reading : Reading) :
    (s.conclude eval scope reading).1.asked = (s.actAll eval scope reading.heard).1.asked := by
  unfold conclude
  split
  · rename_i hact
    rw [hact]
    exact asked_failStop _ _
  · rename_i hact
    rw [hact]
    split
    · exact asked_failRead _ _
    · exact asked_note_of_none _ rfl

variable {eval} in
theorem conclude_error {scope : Scope} {reading : Reading} {stop : Stop}
    (h : (s.actAll eval scope reading.heard).2 = .error stop) :
    ∃ failure, (s.conclude eval scope reading).2 = .error failure := by
  unfold conclude
  split
  · exact ⟨_, rfl⟩
  · rename_i hact
    rw [hact] at h
    cases h

/-- **Dimensions reach the evaluator as they are written**, in order and once each. All declarators
that are read stand in the source in order, with the texts between their brackets; these are cut out
of the source wherever the stream is, so it does not matter how tokens would be joined. If no clause
is refused, exactly the texts that are wanted have been handed over, also where reading the rest has
failed; otherwise those wanted before the refused clause, and of its dimensions those that were
reached. -/
theorem asked_readSource (s : Session) (eval : Evaluator) (source : String) (contextLines : ℕ) :
    let start := Cursor.start source.toList contextLines
    let clauses := (heardIn source contextLines).map Heard.clause
    let accepted := s.accepted eval {} (heardIn source contextLines)
    let read := s.readSource eval source contextLines
    (∀ join : Joining,
      ((TokenStream.ofLexed (lex start) start).readFrom join .declaration []).told.map
        (·.heard.clause) = clauses ∧ s.readSourceJoining join eval source contextLines = read) ∧
      InOrder source.toList (.ofScan (scan start)) .declaration [] (scan start).tokens
        (clauses.filterMap Clause.declarator?) ∧
      ((accepted = clauses ∧ read.1.asked = s.asked ++ Clause.wanted 0 accepted) ∨
        ∃ c more reached, clauses = accepted ++ c :: more ∧ (∃ failure, read.2 = .error failure) ∧
          Reached eval 1 (c.dimensions (Clause.depthAfter 0 accepted)) reached ∧
          read.1.asked = s.asked ++ Clause.wanted 0 accepted ++ texts reached) := by
  intro start clauses accepted read
  have hconclude : read = s.conclude eval {} (readDeclarations (scan start)) :=
    readSource_eq_conclude s source contextLines
  refine ⟨fun join => ⟨?_, ?_⟩, ?_, ?_⟩
  · have htold := (agrees_readDeclarations join start).1
    rw [show clauses = _ from congrArg (List.map Heard.clause) htold.symm, List.map_map]
    rfl
  · rw [hconclude, readSourceJoining_eq]
  · rw [List.filterMap_map]
    exact inOrder_readFrom (standsIn_scan (Cursor.standsIn_start _ _))
  · have hread : read.1.asked = (s.actAll eval {} (heardIn source contextLines)).1.asked := by
      rw [hconclude]
      exact asked_conclude eval s {} (readDeclarations (scan start))
    rw [hread]
    rcases asked_actAll eval s {} (heardIn source contextLines) with
      ⟨hdone, -, hasked⟩ | ⟨c, more, reached, hdone, ⟨stop, hstop⟩, hreached, hasked⟩
    · exact .inl ⟨hdone, hasked⟩
    · exact .inr ⟨c, more, reached, hdone, hconclude ▸ conclude_error hstop, hreached, hasked⟩

end Session

end TypeLayout
