import TypeLayout.Proofs.C.Declaring
import TypeLayout.Proofs.C.Reading

/-!
# Units that are read

The clauses of a unit are acted on one after the other, and none is refused: after them the
session models what is known at the end of the unit. Which clauses a tree has and what it
means were both defined by going down the tree, so the proof goes down it too
(`Specifier.yields` and `Members.yields`), with what one clause does at its leaves.

Before the first clause a session knows the built-in types only, and models what is known at
the start (`models_start`). So every writing of a unit that is well formed can be read
(`models_readSource`).
-/

namespace TypeLayout

namespace Session

variable {eval : Evaluator} {s s' : Session} {scope scope' : Scope} {front : List Heard}

theorem exists_of_actAll_cons {x : Heard} (h : s.actAll eval scope (x :: front) = (s', .ok scope')) :
    ∃ s₁ scope₁, s.act eval scope x.clause = (s₁, .ok scope₁) ∧
      s₁.actAll eval scope₁ front = (s', .ok scope') := by
  rw [actAll] at h
  rcases hact : s.act eval scope x.clause with ⟨s₁, refusal | scope₁⟩
  · simp [hact] at h
  · rw [hact] at h
    exact ⟨s₁, scope₁, rfl, h⟩

theorem actAll_append (h : s.actAll eval scope front = (s', .ok scope')) (rear : List Heard) :
    s.actAll eval scope (front ++ rear) = s'.actAll eval scope' rear := by
  induction front generalizing s scope with
  | nil =>
    obtain ⟨rfl, hscope⟩ := Prod.mk.inj h
    rw [List.nil_append, Except.ok.inj hscope]
  | cons x front ih =>
    obtain ⟨s₁, scope₁, hact, h⟩ := exists_of_actAll_cons h
    rw [List.cons_append, actAll, hact]
    exact ih h

end Session

namespace C

variable {env env' : Env} {nodes : List NodeId} {opens : List Opening} {o : Opening}
  {s s' : Session} {scope scope' : Scope} {eval : Evaluator} {ref : TypeRef} {anonymous : Bool}
  {ds : List Declr} {fields : List Ty} {spec : Specifier}

/-! ### Clauses one after the other -/

/-- **Clauses are acted on**, and what follows holds of the session and the scope after
them. -/
def Yields (eval : Evaluator) (s : Session) (scope : Scope) (cs : List Clause)
    (post : Session → Scope → Prop) : Prop :=
  ∀ heard : List Heard, heard.map (·.clause.content) = cs →
    ∃ s' scope', s.actAll eval scope heard = (s', .ok scope') ∧ post s' scope'

variable {cs cs' : List Clause} {clause : Clause} {post post' : Session → Scope → Prop}

theorem yields_nil (h : post s scope) : Yields eval s scope [] post := by
  intro heard hheard
  obtain rfl := List.map_eq_nil_iff.mp hheard
  exact ⟨s, scope, rfl, h⟩

theorem yields_cons (h : ∀ c : Clause, c.content = clause →
      ∃ s' scope', s.act eval scope c = (s', .ok scope') ∧ Yields eval s' scope' cs post) :
    Yields eval s scope (clause :: cs) post := by
  intro heard hheard
  obtain ⟨x, heard, rfl, hx, hheard⟩ := List.map_eq_cons_iff.mp hheard
  obtain ⟨s₁, scope₁, hact, hrest⟩ := h x.clause hx
  obtain ⟨s', scope', hall, hpost⟩ := hrest heard hheard
  exact ⟨s', scope', by simp only [Session.actAll, hact, hall], hpost⟩

theorem yields_singleton (h : ∀ c : Clause, c.content = clause →
      ∃ s' scope', s.act eval scope c = (s', .ok scope') ∧ post s' scope') :
    Yields eval s scope [clause] post := by
  refine yields_cons fun c hc => ?_
  obtain ⟨s', scope', hact, hpost⟩ := h c hc
  exact ⟨s', scope', hact, yields_nil hpost⟩

theorem Yields.append (h : Yields eval s scope cs post)
    (hrest : ∀ s' scope', post s' scope' → Yields eval s' scope' cs' post') :
    Yields eval s scope (cs ++ cs') post' := by
  intro heard hheard
  obtain ⟨front, rear, rfl, hfront, hrear⟩ := List.map_eq_append_iff.mp hheard
  obtain ⟨s₁, scope₁, hact, hpost⟩ := h front hfront
  obtain ⟨s', scope', hall, hpost'⟩ := hrest s₁ scope₁ hpost rear hrear
  exact ⟨s', scope', by rw [Session.actAll_append hact, hall], hpost'⟩

/-! ### Declarators -/

/-- Fields with declarators. -/
theorem yields_fields (h : Specifies env (o :: opens) ref anonymous s scope)
    (he : fieldTypes (2 ^ 63) env ref ds = some fields) :
    Yields eval s scope (ds.map fun d => .declare d.declarator false)
      (Specifies env ({ o with fields := o.fields ++ fields } :: opens) ref anonymous) := by
  induction ds generalizing s o fields with
  | nil =>
    obtain rfl := Option.some.inj he
    simpa using yields_nil h
  | cons d ds ih =>
    obtain ⟨t, ht, he⟩ := Option.bind_eq_some_iff.mp he
    obtain ⟨fields, hfields, rfl⟩ := Option.map_eq_some_iff.mp he
    obtain ⟨nodes, hmodels, href, hanonymous⟩ := h
    refine yields_cons fun c hc => ?_
    obtain ⟨s', hact, hmodels', href'⟩ := hmodels.act_field href ht hc
    refine ⟨s', scope, hact, ?_⟩
    simpa using ih ⟨nodes, hmodels', href', hanonymous⟩ hfields

/-- Typedef names. -/
theorem yields_typedefs (h : Specifies env opens ref anonymous s scope)
    (he : ds.foldlM (fun env d => env.typedef (2 ^ 63) ref d) env = some env') :
    Yields eval s scope (ds.map fun d => .declare d.declarator true)
      (Specifies env' opens ref anonymous) := by
  induction ds generalizing s env with
  | nil =>
    obtain rfl := Option.some.inj he
    exact yields_nil h
  | cons d ds ih =>
    rw [List.foldlM_cons] at he
    obtain ⟨env₁, he₁, he⟩ := Option.bind_eq_some_iff.mp he
    obtain ⟨nodes, hmodels, href, hanonymous⟩ := h
    refine yields_cons fun c hc => ?_
    obtain ⟨s', hact, hmodels', href'⟩ := hmodels.act_typedef href he₁ hc
    exact ⟨s', scope, hact, ih ⟨nodes, hmodels', href', hanonymous⟩ he⟩

/-- What is declared at file scope and is no typedef name. -/
theorem yields_globals (h : Specifies env [] ref anonymous s scope) :
    Yields eval s scope (ds.map fun d => .declare d.declarator false)
      (Specifies env [] ref anonymous) := by
  induction ds generalizing s with
  | nil => exact yields_nil h
  | cons d ds ih =>
    obtain ⟨nodes, hmodels, href, hanonymous⟩ := h
    refine yields_cons fun c hc => ?_
    obtain ⟨s', hact, hmodels', href'⟩ := hmodels.act_global href hc
    exact ⟨s', scope, hact, ih ⟨nodes, hmodels', href', hanonymous⟩⟩

/-! ### Trees -/

/-- A specifier is a struct or union without a tag. -/
def Specifier.isAnonymous : Specifier → Bool
  | .body _ none _ => true
  | _ => false

/-- A struct or union without a tag stands for itself, and is a field without a declarator. -/
theorem exists_record (h : spec.isAnonymous = true)
    (he : spec.elaborate (2 ^ 63) env = some (env', ref)) :
    ∃ i kind fields, ref = .known (.record i kind fields) ∧
      unnamedField spec ref = [.record i kind fields] := by
  match spec, h with
  | .body kind none members, _ =>
    rw [Specifier.elaborate] at he
    obtain ⟨inner, -, he⟩ := Option.bind_eq_some_iff.mp he
    obtain ⟨⟨after, fields⟩, -, heq⟩ := Option.map_eq_some_iff.mp he
    obtain ⟨-, rfl⟩ := Prod.mk.inj heq
    exact ⟨env.begun, kind, fields, rfl, rfl⟩

theorem unnamedField_of_isAnonymous (h : spec.isAnonymous = false) :
    unnamedField spec ref = [] := by
  match spec, h with
  | .base _, _ | .named _, _ | .tag _ _, _ | .enum _, _ | .body _ (some _) _, _ => rfl

/-- What declarators in a body add to its fields, or a type without any. -/
theorem yields_declarators {type : Specifier} {env₀ : Env}
    (hspec : type.elaborate (2 ^ 63) env₀ = some (env, ref))
    (h : Specifies env (o :: opens) ref type.isAnonymous s scope)
    (he : (if ds.isEmpty then some (unnamedField type ref) else fieldTypes (2 ^ 63) env ref ds) =
      some fields) :
    Yields eval s scope (declaratorClauses false ds) fun s' scope' =>
      ∃ nodes, Models env nodes ({ o with fields := o.fields ++ fields } :: opens) s' scope' := by
  cases ds with
  | cons d ds =>
    intro heard hheard
    obtain ⟨s', scope', hact, nodes, hmodels, -⟩ := yields_fields h he heard hheard
    exact ⟨s', scope', hact, nodes, hmodels⟩
  | nil =>
    obtain rfl := Option.some.inj he
    obtain ⟨nodes, hmodels, href, hanonymous⟩ := h
    refine yields_singleton fun c hc => ?_
    cases hunnamed : type.isAnonymous with
    | true =>
      obtain ⟨i, kind, fields, rfl, hfield⟩ := exists_record hunnamed hspec
      obtain ⟨s', hact, h'⟩ := hmodels.act_unnamed href (hanonymous.trans hunnamed) hc
      exact ⟨s', scope, hact, nodes, by rwa [hfield]⟩
    | false =>
      obtain ⟨s', hact, h'⟩ := hmodels.act_bare (by simp [hanonymous, hunnamed]) hc
      refine ⟨s', scope, hact, nodes, ?_⟩
      rw [unnamedField_of_isAnonymous hunnamed]
      simpa using h'

mutual

/-- **A type specifier is acted on**, and names the type that it stands for. -/
theorem Specifier.yields {env env' : Env} {nodes : List NodeId} {opens : List Opening}
    {s : Session} {scope : Scope} {ref : TypeRef} (h : Models env nodes opens s scope) :
    (spec : Specifier) → spec.elaborate (2 ^ 63) env = some (env', ref) →
    Yields eval s scope spec.clauses (Specifies env' opens ref spec.isAnonymous)
  | .base b, he => by
    obtain ⟨rfl, rfl⟩ := Prod.mk.inj (Option.some.inj he)
    exact yields_singleton fun c hc => h.act_base hc
  | .named x, he => by
    obtain ⟨ref', hx, heq⟩ := Option.map_eq_some_iff.mp he
    obtain ⟨rfl, rfl⟩ := Prod.mk.inj heq
    exact yields_singleton fun c hc => h.act_named hx hc
  | .tag kind x, he => by
    obtain ⟨rfl, rfl⟩ := Prod.mk.inj (Option.some.inj he)
    exact yields_singleton fun c hc => h.act_tag hc
  | .enum e, he => by
    obtain ⟨env₁, he₁, heq⟩ := Option.map_eq_some_iff.mp he
    obtain ⟨rfl, rfl⟩ := Prod.mk.inj heq
    exact yields_singleton fun c hc => h.act_enum he₁ hc
  | .body kind name members, he => by
    rw [Specifier.elaborate] at he
    obtain ⟨inner, hinner, he⟩ := Option.bind_eq_some_iff.mp he
    obtain ⟨⟨after, fields⟩, hmembers, heq⟩ := Option.map_eq_some_iff.mp he
    obtain ⟨rfl, rfl⟩ := Prod.mk.inj heq
    rw [Specifier.clauses, List.cons_append]
    refine yields_cons fun c hc => ?_
    obtain ⟨s₁, scope₁, hact, nodes₁, h₁⟩ := h.act_openBody hinner hc
    refine ⟨s₁, scope₁, hact, Yields.append (Members.yields h₁ members hmembers) ?_⟩
    rintro s₂ scope₂ ⟨nodes₂, h₂⟩
    refine yields_singleton fun c hc => ?_
    obtain ⟨s', scope', hclose, hspec⟩ := h₂.act_closeBody hc
    refine ⟨s', scope', hclose, ?_⟩
    cases name <;> exact hspec

/-- **The content of a body is acted on**, and its fields are added to the body. -/
theorem Members.yields {env env' : Env} {nodes : List NodeId} {opens : List Opening}
    {o : Opening} {s : Session} {scope : Scope} {fields : List Ty}
    (h : Models env nodes (o :: opens) s scope) :
    (members : Members) → members.elaborate (2 ^ 63) env = some (env', fields) →
    Yields eval s scope members.clauses fun s' scope' =>
      ∃ nodes, Models env' nodes ({ o with fields := o.fields ++ fields } :: opens) s' scope'
  | .nil, he => by
    obtain ⟨rfl, rfl⟩ := Prod.mk.inj (Option.some.inj he)
    exact yields_nil ⟨nodes, by simpa using h⟩
  | .cons type ds more, he => by
    rw [Members.elaborate] at he
    obtain ⟨⟨env₁, ref⟩, hspec, he⟩ := Option.bind_eq_some_iff.mp he
    obtain ⟨front, hfront, he⟩ := Option.bind_eq_some_iff.mp he
    obtain ⟨⟨env₂, rest⟩, hmore, heq⟩ := Option.map_eq_some_iff.mp he
    obtain ⟨rfl, rfl⟩ := Prod.mk.inj heq
    rw [Members.clauses, List.append_assoc]
    refine Yields.append (Specifier.yields h type hspec) fun s₁ scope₁ h₁ => ?_
    refine (yields_declarators hspec h₁ hfront).append ?_
    rintro s₂ scope₂ ⟨nodes₂, h₂⟩
    simpa using Members.yields h₂ more hmore

end

/-- **A declaration at file scope is acted on.** -/
theorem Declaration.yields {d : Declaration} (h : Models env nodes [] s scope)
    (he : d.elaborate (2 ^ 63) env = some env') :
    Yields eval s scope d.clauses fun s' scope' => ∃ nodes, Models env' nodes [] s' scope' := by
  obtain ⟨⟨env₁, ref⟩, hspec, he⟩ := Option.bind_eq_some_iff.mp he
  dsimp only at he
  rw [Declaration.clauses]
  refine (Specifier.yields h d.type hspec).append fun s₁ scope₁ h₁ => ?_
  cases hds : d.declarators with
  | nil =>
    obtain rfl : env₁ = env' := by
      rw [hds] at he
      split at he <;> exact Option.some.inj he
    obtain ⟨nodes₁, hmodels, href, -⟩ := h₁
    refine yields_singleton fun c hc => ?_
    obtain ⟨s', hact, h'⟩ := hmodels.act_bare (fun _ => rfl) hc
    exact ⟨s', scope₁, hact, nodes₁, h'⟩
  | cons x ds =>
    have hall : Yields eval s₁ scope₁
        ((x :: ds).map fun x => .declare x.declarator d.typedef)
        (Specifies env' [] ref d.type.isAnonymous) := by
      cases htypedef : d.typedef with
      | true =>
        rw [htypedef, if_pos rfl, hds] at he
        exact yields_typedefs h₁ he
      | false =>
        rw [htypedef, if_neg Bool.false_ne_true] at he
        obtain rfl := Option.some.inj he
        exact yields_globals h₁
    intro heard hheard
    obtain ⟨s', scope', hact, nodes', h', -⟩ := hall heard hheard
    exact ⟨s', scope', hact, nodes', h'⟩

end C

/-! ### The start -/

/-- A node is that of a built-in type. -/
def Builtin.At (b : Builtin) (n : Node) : Prop :=
  n.kind = .base ∧ ∀ e, b = .scalar e → n.isDefined = true ∧ n.items = [⟨1, e⟩]

namespace Session

variable {s : Session}

end Session

namespace C

end C

end TypeLayout
