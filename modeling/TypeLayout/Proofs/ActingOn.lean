import TypeLayout.Proofs.C.Units
import TypeLayout.Proofs.Histories
import TypeLayout.Proofs.ReadingOn

/-!
# Acting on a text that goes on

When a text goes on, its clauses are acted on as before, and then those of the rest. What the
rest can still do to the types that are there is little (`Session.Leaves`): it cannot change the
content of one that is defined, and it gives no name and no fragment to any of them.

The second half of this is not true of clauses in general. A declarator gives a name or a
fragment to the type that was named last, and the type that was named last could be one of the
first text. So it matters what is read: a declarator comes after its type and the end of a body
after its beginning, both in the same text (`coherent_readFrom`). All that the rest
refers back to is therefore new, or it is something that a name is bound to, which has a name
already.
-/

namespace TypeLayout

/-! ### What clauses refer back to -/

namespace Clause

variable {cs : List Clause} {depth : ℕ} {told told' : Bool}

/-- What a clause needs in front of it: a declarator needs a type that has been named, and the end
of a body needs its beginning. -/
def Allowed : Clause → (depth : ℕ) → (told : Bool) → Prop
  | .declare _ _, _, told | .bare _, _, told => told = true
  | .closeBody, depth, _ => 0 < depth
  | _, _, _ => True

/-- How many bodies are open after some clauses. -/
def depthAfter (depth : ℕ) (cs : List Clause) : ℕ := cs.foldl (fun depth c => c.depth depth) depth

/-- **Clauses that refer back to each other only**, if `depth` bodies have been opened before
them and, if `told` says so, a type has been named. -/
def Coherent : (depth : ℕ) → (told : Bool) → List Clause → Prop
  | _, _, [] => True
  | depth, told, c :: cs => c.Allowed depth told ∧ Coherent (c.depth depth) (told || c.specifies) cs

theorem Allowed.mono {c : Clause} (h : c.Allowed depth told) (ht : told = true → told' = true) :
    c.Allowed depth told' := by
  cases c with
  | declare | bare => exact ht h
  | _ => exact h

theorem Coherent.mono (h : Coherent depth told cs) (ht : told = true → told' = true) :
    Coherent depth told' cs := by
  induction cs generalizing depth told told' with
  | nil => trivial
  | cons c cs ih =>
    refine ⟨h.1.mono ht, ih h.2 fun hor => ?_⟩
    rw [Bool.or_eq_true] at hor ⊢
    exact hor.imp_left ht

theorem Coherent.append {cs' : List Clause} (h : Coherent depth told cs)
    (h' : Coherent (depthAfter depth cs) (told || cs.any specifies) cs') :
    Coherent depth told (cs ++ cs') := by
  induction cs generalizing depth told with
  | nil => simpa [depthAfter] using h'
  | cons c cs ih =>
    refine ⟨h.1, ih h.2 ?_⟩
    rw [List.any_cons, ← Bool.or_assoc] at h'
    exact h'

end Clause

open Clause

/-! ### What is read is coherent -/

/-- The type of a declaration has been named. -/
def Place.told : Place → Bool
  | .declaration => false
  | .specifiers s => s.found
  | .declarator _ | .tail _ _ => true

/-- **What a step says** refers back to what has been said at its place. -/
structure Says (place : Place) (stack : List Specifiers) (heard : Option Heard) (place' : Place)
    (stack' : List Specifiers) : Prop where
  coherent : Coherent stack.length place.told (heard.toList.map Heard.clause)
  depth : stack'.length = depthAfter stack.length (heard.toList.map Heard.clause)
  told : place'.told = true →
    (place.told || (heard.toList.map Heard.clause).any specifies) = true

namespace Says

variable {place place' : Place} {stack : List Specifiers} {c : Clause} {seen : Cursor}

theorem silent (h : place'.told = true → place.told = true) : Says place stack none place' stack :=
  ⟨trivial, rfl, fun ht => by simp [h ht]⟩

theorem untold (h : place'.told = false) : Says place stack none place' stack :=
  silent fun ht => by simp [h] at ht

theorem specify (hc : ∀ told, c.Allowed stack.length told)
    (hd : c.depth stack.length = stack.length) (hs : c.specifies = true) :
    Says place stack (some ⟨c, seen⟩) place' stack :=
  ⟨⟨hc _, trivial⟩, hd.symm, fun _ => by simp [hs]⟩

theorem refer (hc : c.Allowed stack.length true) (hd : c.depth stack.length = stack.length)
    (ht : place.told = true) : Says place stack (some ⟨c, seen⟩) place' stack :=
  ⟨⟨ht ▸ hc, trivial⟩, hd.symm, fun _ => by simp [ht]⟩

end Says

section Steps

variable {e : Ending} {ts rest : List Token} {stack stack' : List Specifiers}
  {heard : Option Heard} {place place' : Place}

theorem says_step (h : step e place stack ts = .ok (.goOn heard place' stack' rest)) :
    Says place stack heard place' stack' := by
  cases goes_of_step h with
  | close => exact ⟨⟨Nat.succ_pos _, trivial⟩, rfl, fun _ => rfl⟩
  | empty | assertion | begin | function | semicolon => exact .untold rfl
  | typedef | qualifier | extension | word => exact .silent id
  | openBody => exact ⟨⟨trivial, trivial⟩, rfl, by simp [Place.told]⟩
  | tag | enum | named | base => exact .specify (fun _ => trivial) rfl rfl
  | bare _ hfound => exact .refer rfl rfl hfound
  | declarators _ _ hfound => exact .silent fun _ => hfound
  | declare => exact .refer rfl rfl rfl
  | comma => exact .silent fun _ => rfl

/-- **What is read refers back to what is read**, from any place on. -/
theorem coherent_readFrom (e : Ending) (place : Place) (stack : List Specifiers)
    (ts : List Token) :
    Coherent stack.length place.told ((readFrom e place stack ts).heard.map Heard.clause) := by
  fun_induction readFrom e place stack ts with
  | case1 => trivial
  | case2 => trivial
  | case3 place stack ts heard place' stack' rest hstep more ih =>
    have hsays := says_step hstep
    rw [List.map_append]
    refine hsays.coherent.append ?_
    rw [← hsays.depth]
    exact ih.mono hsays.told

/-- What is read to the end closes all bodies. -/
theorem depthAfter_readFrom (h : ∃ m, (readFrom e place stack ts).outcome = .ok m) :
    depthAfter stack.length ((readFrom e place stack ts).heard.map Heard.clause) = 0 := by
  fun_induction readFrom e place stack ts with
  | case1 => exact absurd h (by simp)
  | case2 place stack ts hstep =>
    obtain ⟨-, rfl, -, -⟩ := step_eq_finished hstep
    rfl
  | case3 place stack ts heard place' stack' rest hstep more ih =>
    obtain ⟨m, h⟩ := h
    obtain ⟨m', hm, -⟩ := exists_of_map_eq_ok h
    have hdepth := ih ⟨m', hm⟩
    rw [(says_step hstep).depth] at hdepth
    rw [List.map_append, depthAfter, List.foldl_append]
    exact hdepth

end Steps

/-! ### Acting -/

namespace Session

variable {s s' s₀ : Session} {scope scope' : Scope} {eval : Evaluator} {clause : Clause}
  {contextLines : ℕ} {heard : List Heard} {source : String} {told : Bool}

/-- Acting depends on the clauses and not on where they end. -/
theorem actAll_congr {heard' : List Heard} (h : s.actAll eval scope heard = (s', .ok scope'))
    (hc : heard'.map Heard.clause = heard.map Heard.clause) :
    s.actAll eval scope heard' = (s', .ok scope') := by
  induction heard generalizing s scope heard' with
  | nil => rwa [List.map_eq_nil_iff.mp hc]
  | cons x heard ih =>
    obtain ⟨x', rest, rfl, hx, hrest⟩ := List.map_eq_cons_iff.mp hc
    obtain ⟨s₁, scope₁, hact, h⟩ := exists_of_actAll_cons h
    rw [actAll, hx, hact]
    exact ih h hrest

/-- One more body is open, or one less. -/
theorem Turns.length (h : s.Turns scope clause scope') :
    scope'.bodies.length = clause.depth scope.bodies.length := by
  cases h with
  | enter => rfl
  | leave hb => simp [hb, Clause.depth]
  | stray hb => simp [hb, Clause.depth]
  | specify hd | keep hd => exact (hd _).symm

theorem bindsNamed_start (names : Names) (keys : KeyList) (target : Target) :
    (start names keys target).BindsNamed := by
  refine (builtins target).foldlRecOn _ (by simp [BindsNamed]) fun s h p hp b hb => ?_
  obtain ⟨n, -, hname, -, hgraph, -⟩ :=
    Builtin.exists_addTo (flat_of_mem_builtins hp).1 s.graph (s.intern p.1).1
  rw [show (s.addBuiltin p.1 p.2).graph = s.graph.add n from hgraph, Graph.size_add]
  rcases List.mem_cons.mp hb with rfl | hb
  · rw [Graph.node_add_self, hname]
    exact ⟨Nat.lt_succ_self _, rfl⟩
  · obtain ⟨hlt, hsome⟩ := h b hb
    rw [Graph.node_add_of_lt n hlt]
    exact ⟨Nat.lt_succ_of_lt hlt, hsome⟩

/-- **A text that is acted on to its end** leaves as many bodies open as its clauses say. -/
theorem length_bodies_actAll (h : s.actAll eval scope heard = (s', .ok scope')) :
    scope'.bodies.length = depthAfter scope.bodies.length (heard.map Heard.clause) := by
  induction heard generalizing s scope with
  | nil =>
    obtain ⟨-, hscope⟩ := Prod.mk.inj h
    rw [← Except.ok.inj hscope]
    rfl
  | cons x heard ih =>
    obtain ⟨s₁, scope₁, hact, h⟩ := exists_of_actAll_cons h
    rw [ih h, (turns_act (congrArg Prod.snd hact)).length]
    rfl

theorem scoped_actAll (h : s.Scoped scope) (hl : s.BindsNamed)
    (hc : ∀ x ∈ heard, ∀ d, x.clause = .declare d true → Plain d.name)
    (ha : s.actAll eval scope heard = (s', .ok scope')) : s'.Scoped scope' ∧ s'.BindsNamed := by
  induction heard generalizing s scope with
  | nil =>
    obtain ⟨rfl, hscope⟩ := Prod.mk.inj ha
    exact ⟨Except.ok.inj hscope ▸ h, hl⟩
  | cons x heard ih =>
    obtain ⟨s₁, scope₁, hact, ha⟩ := exists_of_actAll_cons ha
    have hplain := hc x List.mem_cons_self
    have hnamed := (edits_act eval h hplain).named hl
    have hscoped := scoped_act eval h hplain (congrArg Prod.snd hact)
    rw [hact] at hnamed hscoped
    exact ih hscoped hnamed (fun y hy => hc y (List.mem_cons_of_mem x hy)) ha

/-! ### What is left alone -/

/-- **What later clauses leave alone** of an earlier session: which types there are, how they are
named, and what those consist of that are defined. -/
structure Leaves (s₀ s : Session) : Prop where
  size : s₀.graph.size ≤ s.graph.size
  names : s₀.names.Extends s.names
  name : ∀ id < s₀.graph.size, (s.graph.node id).name = (s₀.graph.node id).name
  fragment : ∀ id < s₀.graph.size, (s.graph.node id).fragment = (s₀.graph.node id).fragment
  defined : ∀ id, (s₀.graph.node id).isDefined = true →
    (s.graph.node id).isDefined = true ∧ (s₀.graph.node id).Shape (s.graph.node id)

theorem Leaves.refl (s : Session) : s.Leaves s :=
  ⟨le_rfl, .refl _, fun _ _ => rfl, fun _ _ => rfl, fun _ h => ⟨h, .refl _⟩⟩

theorem Leaves.note (h : s₀.Leaves s) (n n' : Notice) : (s₀.note n).Leaves (s.note n') :=
  ⟨h.size, h.names, h.name, h.fragment, h.defined⟩

/-- A type that is new since an earlier session, or one that had a name there. -/
def Foreign (s₀ : Session) (type : Specified) : Prop :=
  type.node < s₀.graph.size →
    type.anonymous = false ∧ (s₀.graph.node type.node).name.isSome = true

/-- A clause names such a type. -/
theorem Leaves.foreign {type : Specified} (h : s₀.Leaves s) (hn : s.BindsNamed)
    (ht : s.Mentions type) : s₀.Foreign type := by
  intro hlt
  refine ⟨ht.1, ?_⟩
  rcases ht.2 with hge | ⟨b, hb, hnode⟩
  · exact absurd (lt_of_lt_of_le hlt (h.size.trans hge)) (lt_irrefl _)
  · rw [← h.name type.node hlt, ← hnode]
    exact (hn b hb).2

/-- A clause that gives a label to such a type only leaves the types of the earlier session
alone. -/
theorem Leaves.edits {R : NodeKind → NodeState → NodeState → Prop} {labelled : Option Specified}
    (h : s₀.Leaves s) (hl : ∀ type ∈ labelled, s₀.Foreign type) (he : s.Edits R labelled s') :
    s₀.Leaves s' := by
  refine ⟨h.size.trans he.graph.size, h.names.trans he.names, fun id hid => ?_, fun id hid => ?_,
    fun id hid => ?_⟩
  · have hnode := he.graph.node id (lt_of_lt_of_le hid h.size)
    rcases hnode.label with ⟨type, htype, rfl⟩ | hsame
    -- the type that gets the label had a name, and a name is not replaced
    · obtain ⟨x, hx⟩ := Option.isSome_iff_exists.mp (hl type htype hid).2
      rw [hx]
      exact hnode.name x ((h.name _ hid).trans hx)
    · exact hsame.trans (h.name id hid)
  · rcases he.graph.fragment id with hsame | ⟨type, htype, rfl, hanon⟩
    · exact hsame.trans (h.fragment id hid)
    · rw [(hl type htype hid).1] at hanon
      cases hanon
  · obtain ⟨hdef, hshape⟩ := h.defined id hid
    have hnode := he.graph.node id (Graph.lt_size_of_isDefined hdef)
    have hstate : (s.graph.node id).state = .defined := by simpa [Node.isDefined] using hdef
    obtain ⟨hstate', hitems, hmembers, hlength, halign⟩ := hnode.defined hstate
    exact ⟨by simp [Node.isDefined, hstate'],
      hshape.trans ⟨hnode.kind, hitems, hmembers, hlength, halign⟩⟩

/-- **What holds between two clauses of the rest of a text**: the types of the earlier session
have been left alone, and whatever a clause can refer back to is new or had a name there. -/
structure Bystands (s₀ : Session) (told : Bool) (s : Session) (scope : Scope) : Prop
    extends s.Scoped scope where
  named : s.BindsNamed
  leaves : s₀.Leaves s
  bodies : ∀ b ∈ scope.bodies, s₀.Foreign b
  type : told = true → s₀.Foreign scope.type

/-- The type that a clause gives a label to is new or has a name. -/
theorem Bystands.labels (h : Bystands s₀ told s scope)
    (ha : clause.Allowed scope.bodies.length told) :
    ∀ type ∈ clause.labels scope, s₀.Foreign type := by
  intro type htype
  cases clause with
  | declare | bare =>
    obtain rfl := Option.some.inj htype
    exact h.type ha
  | _ => cases htype

/-- **One clause of the rest.** -/
theorem Bystands.act (h : Bystands s₀ told s scope) (ha : clause.Allowed scope.bodies.length told)
    (hc : ∀ d, clause = .declare d true → Plain d.name)
    (hr : (s.act eval scope clause).2 = .ok scope') :
    Bystands s₀ (told || clause.specifies) (s.act eval scope clause).1 scope' := by
  have he := edits_act eval h.toScoped hc
  have hforeign {type : Specified} (ht : s.Mentions type) := h.leaves.foreign h.named ht
  refine ⟨scoped_act eval h.toScoped hc hr, he.named h.named, h.leaves.edits (h.labels ha) he,
    ?_, ?_⟩
  · cases turns_act hr with
    | enter hbody =>
      intro b hb
      rcases List.mem_cons.mp hb with rfl | hb
      · rcases hbody with hge | hbody
        · exact fun hlt => absurd (lt_of_lt_of_le hlt (h.leaves.size.trans hge)) (lt_irrefl _)
        · exact hforeign hbody
      · exact h.bodies b hb
    | leave hb => exact fun b hmem => h.bodies b (hb ▸ List.mem_cons_of_mem _ hmem)
    | specify | stray | keep => exact h.bodies
  · cases turns_act hr with
    | enter => simpa [specifies] using h.type
    | leave hb => exact fun _ => h.bodies _ (hb ▸ List.mem_cons_self)
    | specify _ ht => exact fun _ => hforeign ht
    -- the end of a body that was not begun is not coherent
    | stray hb => simp [Clause.Allowed, hb] at ha
    | keep _ hs => simpa [hs] using h.type

/-- **The rest of a text leaves earlier types alone.** -/
theorem Bystands.actAll (h : Bystands s₀ told s scope)
    (hcoherent : Coherent scope.bodies.length told (heard.map Heard.clause))
    (hc : ∀ x ∈ heard, ∀ d, x.clause = .declare d true → Plain d.name)
    (ha : s.actAll eval scope heard = (s', .ok scope')) : s₀.Leaves s' := by
  induction heard generalizing s scope told with
  | nil => exact (Prod.mk.inj ha).1 ▸ h.leaves
  | cons x heard ih =>
    obtain ⟨s₁, scope₁, hact, ha⟩ := exists_of_actAll_cons ha
    have hr := congrArg Prod.snd hact
    have hstep := h.act hcoherent.1 (hc x List.mem_cons_self) hr
    rw [hact] at hstep
    refine ih hstep ?_ (fun y hy => hc y (List.mem_cons_of_mem x hy)) ha
    rw [(turns_act hr).length]
    exact hcoherent.2

/-! ### Sources -/

theorem readSource_ok (h : s.readSource eval source contextLines = (s', .ok ())) :
    ∃ s₁ scope count, s.actAll eval {} (heardIn source contextLines) = (s₁, .ok scope) ∧
      (readDeclarations (scan (.start source.toList contextLines))).outcome = .ok count ∧
      s' = s₁.note (.declarations count s₁.graph.size) := by
  rw [readSource_eq_conclude, conclude] at h
  split at h
  · cases h
  · rename_i s₁ scope hact
    split at h
    · cases h
    · rename_i count hcount
      exact ⟨s₁, scope, count, hact, hcount, (Prod.mk.inj h).1.symm⟩

/-- **Further declarations leave alone what has been declared.** -/
theorem leaves_readSource {more : String} {s₁ s₂ : Session} (h : s.Ready {}) (hl : s.BindsNamed)
    (h₁ : s.readSource eval source contextLines = (s₁, .ok ()))
    (h₂ : s.readSource eval (source ++ "\n" ++ more) contextLines = (s₂, .ok ())) :
    s₁.Leaves s₂ := by
  obtain ⟨t₁, scope₁, count, hact, hcount, rfl⟩ := readSource_ok h₁
  obtain ⟨t₂, scope₂, count', hact', -, rfl⟩ := readSource_ok h₂
  obtain ⟨heard, c, hlong, hclauses, -⟩ := readDeclarations_goesOn hcount more.toList
  have hheard : heardIn (source ++ "\n" ++ more) contextLines =
      heard ++ (readDeclarations (scan c)).heard := by
    have htext : (source ++ "\n" ++ more).toList = source.toList ++ '\n' :: more.toList := by simp
    rw [heardIn, htext, hlong]
  obtain ⟨hscoped, hnamed⟩ := scoped_actAll h.scoped hl (plain_heardIn source contextLines) hact
  -- no body of the first text is open where the rest begins
  have hclosed : scope₁.bodies.length = 0 :=
    (length_bodies_actAll hact).trans (depthAfter_readFrom ⟨count, hcount⟩)
  have hbystands : Bystands t₁ false t₁ scope₁ :=
    ⟨hscoped, hnamed, .refl t₁, by simp [List.eq_nil_of_length_eq_zero hclosed], by simp⟩
  have hsame : s.actAll eval {} heard = (t₁, .ok scope₁) := actAll_congr hact hclauses
  rw [hheard, actAll_append hsame] at hact'
  have hleaves := hbystands.actAll (hclosed ▸ coherent_readFrom _ .declaration [] _)
    (fun x hx d hd => plain_readDeclarations hx hd) hact'
  exact hleaves.note _ _

end Session

end TypeLayout
