import TypeLayout.Proofs.OptimizedTables
import TypeLayout.Table.CText
import TypeLayout.Table.Dump

/-!
# Errors of the emission

Of the nine ways in which writing a table can fail, a compilation meets two: a name that is
exported twice, and a value that is too large for a cell. The others say that an earlier
pass left something out (a node without an offset or a name, a node in another place than
it was given, a function that the layout let through) or belong to the use of a finished
table. They never come up, because a session that reaches the emission has been laid out
(`compile_cases`).

The cells of a table are packed once before it is returned, so everything that packs them
again succeeds: the C source, the header and the dump can always be written.
-/

namespace TypeLayout

variable {e : EmitError}

/-- The errors that blame the input: a constant that is exported twice, or a value that is
too large. -/
inductive EmitError.BlamesInput : EmitError → Prop
  | duplicateSymbol (name : String) : BlamesInput (.duplicateSymbol name)
  | cellOverflow (what : String) (value : ℕ) : BlamesInput (.cellOverflow what value)

/-! ### The checks at the end -/

theorem blamesInput_of_checkSymbols {symbols : List TableSymbol} {seen : List String} {line : ℕ}
    (h : checkSymbols seen symbols = .error (line, e)) : e.BlamesInput := by
  induction symbols generalizing seen with
  | nil => cases h
  | cons x symbols ih =>
    rw [checkSymbols] at h
    split at h
    · cases h
      exact .duplicateSymbol _
    · split at h
      · cases h
        exact .cellOverflow _ _
      · exact ih h

theorem blamesInput_of_packed {t : DescriptorTable} (h : t.packed = .error e) : e.BlamesInput := by
  obtain ⟨hok, herr⟩ := DescriptorTable.packFrom_spec t.target 0 t.cells
  by_cases hall : ∀ c ∈ t.cells, c.Packs t.target
  · obtain ⟨words, hwords⟩ := hok hall
    rw [DescriptorTable.packed, hwords] at h
    cases h
  · obtain ⟨what, value, hover⟩ := herr hall
    rw [DescriptorTable.packed, hover] at h
    cases h
    exact .cellOverflow what value

namespace Session.LaidOut

variable {g : Graph} {order : List NodeId} {s : Session} (h : s.LaidOut g order)

include h

/-- **Once a session has been laid out, its table is refused for the input only.** -/
theorem blamesInput_of_emitTable {line : ℕ} (herr : s.emitTable.2 = .error (line, e)) :
    e.BlamesInput := by
  obtain ⟨-, -, -, -, -, table, -, -, -, -, -, hresult⟩ := exists_emitTable h
  rw [herr] at hresult
  cases hcheck : checkSymbols [] table.symbols with
  | error fault =>
    rw [hcheck] at hresult
    obtain rfl := Except.error.inj hresult
    exact blamesInput_of_checkSymbols hcheck
  | ok _ =>
    cases hpack : table.packed with
    | error e' =>
      rw [hcheck, hpack] at hresult
      obtain ⟨rfl, rfl⟩ := Prod.mk.inj (Except.error.inj hresult)
      exact blamesInput_of_packed hpack
    | ok words =>
      rw [hcheck, hpack] at hresult
      cases hresult

/-- A table that is not refused has been packed. -/
theorem exists_packed {table : DescriptorTable} (hok : s.emitTable.2 = .ok table) :
    ∃ words, table.packed = .ok words := by
  obtain ⟨-, -, -, -, -, table', -, -, -, -, -, hresult⟩ := exists_emitTable h
  obtain ⟨-, hpacked, rfl⟩ := of_checked (hresult.symm.trans hok)
  exact hpacked

end Session.LaidOut

/-! ### The passes before the emission -/

namespace Session

variable {failure : Failure} {s s' : Session}

theorem problem_failStop (s : Session) (stop : Stop) (e : EmitError) :
    (s.failStop stop).2.diagnostic.problem ≠ .emit e := by
  unfold failStop
  split
  · exact nofun
  · exact nofun

theorem problem_failRead (s : Session) (fault : Fault) (e : EmitError) :
    (s.failRead fault).2.diagnostic.problem ≠ .emit e := by
  unfold failRead
  split
  · exact nofun
  · exact nofun

theorem problem_readSource {eval : Evaluator} {source : String} {contextLines : ℕ}
    (h : s.readSource eval source contextLines = (s', .error failure)) (e : EmitError) :
    failure.diagnostic.problem ≠ .emit e := by
  rw [readSource_eq_conclude, conclude] at h
  split at h
  · obtain ⟨-, hfailure⟩ := Prod.mk.inj h
    obtain rfl := Except.error.inj hfailure
    exact problem_failStop _ _ e
  · split at h
    · obtain ⟨-, hfailure⟩ := Prod.mk.inj h
      obtain rfl := Except.error.inj hfailure
      exact problem_failRead _ _ e
    · cases h

theorem problem_layOut {optimize : Bool} (h : s.layOut optimize = (s', .error failure))
    (e : EmitError) : failure.diagnostic.problem ≠ .emit e := by
  unfold layOut at h
  split at h
  · cases h
    exact nofun
  · dsimp only at h
    split at h
    · cases h
      exact nofun
    · cases h

end Session

/-- Every value can be written. -/
def Serializer.NeverFails (serialize : Serializer) : Prop := ∀ v, ∃ text, serialize v = .ok text

section Compile

variable (source : String) (names : Names) (keys : KeyList) (options : Options)
  (eval : Evaluator) (stopAfter : Stage)

/-- **How a compilation ends**: an earlier pass refuses the input, it stops without a table,
or the table of a session that has been laid out is written. -/
theorem compile_cases :
    let result := (compile source names keys options eval stopAfter).result
    (∃ failure, result = .error failure ∧ ∀ e, failure.diagnostic.problem ≠ .emit e) ∨
    (∃ c, result = .ok c ∧ c.table = none) ∨
    ∃ (g : Graph) (order : List NodeId) (s : Session), s.LaidOut g order ∧
      ((∃ line e, s.emitTable.2 = .error (line, e) ∧ result = .error ⟨⟨line, .emit e⟩, []⟩) ∨
        ∃ table, s.emitTable.2 = .ok table ∧
          result = .ok { session := some s.emitTable.1, table := some table }) := by
  intro result
  have hfresh := Session.fresh_readSource names keys options.target eval source options.contextLines
  by_cases hlexer : stopAfter = .lexer
  · have hresult : result = ((Session.start names keys options.target).scanOnly source
        options.contextLines).result := by
      simp only [result, compile, if_pos hlexer]
    unfold Session.scanOnly at hresult
    dsimp only at hresult
    split at hresult
    · exact .inl ⟨_, hresult, fun e he => by cases he⟩
    · exact .inr (.inl ⟨_, hresult, rfl⟩)
  rcases hread : (Session.start names keys options.target).readSource eval source
      options.contextLines with ⟨s₁, failure | _⟩
  · refine .inl ⟨failure, ?_, Session.problem_readSource hread⟩
    simp only [result, compile, if_neg hlexer, hread]
  rw [hread] at hfresh
  by_cases hparser : stopAfter = .parser
  · refine .inr (.inl ⟨{ session := some (s₁.note (.parsed s₁.graph.size)) }, ?_, rfl⟩)
    simp only [result, compile, if_neg hlexer, hread, if_pos hparser]
  rcases hlay : (s₁.note (.parsed s₁.graph.size)).layOut options.optimize with ⟨s₂, failure | _⟩
  · refine .inl ⟨failure, ?_, Session.problem_layOut hlay⟩
    simp only [result, compile, if_neg hlexer, hread, if_neg hparser, hlay]
  obtain ⟨g, order, hlaid⟩ := (hfresh.note _).exists_laidOut hlay
  by_cases hlayout : stopAfter = .layout
  · refine .inr (.inl ⟨{ session := some s₂ }, ?_, rfl⟩)
    simp only [result, compile, if_neg hlexer, hread, if_neg hparser, hlay, if_pos hlayout]
  refine .inr (.inr ⟨g, order, s₂, hlaid, ?_⟩)
  rcases hemit : s₂.emitTable with ⟨s₃, ⟨line, e⟩ | table⟩
  · refine .inl ⟨line, e, rfl, ?_⟩
    simp only [result, compile, if_neg hlexer, hread, if_neg hparser, hlay, if_neg hlayout, hemit]
  · refine .inr ⟨table, rfl, ?_⟩
    simp only [result, compile, if_neg hlexer, hread, if_neg hparser, hlay, if_neg hlayout, hemit]

/-- **The emission blames nothing but the input.** If a compilation fails while its table is
written, a constant is exported twice or a value is too large. If it returns a table, the
table can be packed and written out as C source, and as a dump by whatever can write all
values. -/
theorem compile_emission :
    (∀ failure e, (compile source names keys options eval stopAfter).result = .error failure →
      failure.diagnostic.problem = .emit e →
        (∃ name, e = .duplicateSymbol name) ∨ ∃ what value, e = .cellOverflow what value) ∧
    ∀ c table, (compile source names keys options eval stopAfter).result = .ok c →
      c.table = some table →
        (∃ words, table.packed = .ok words) ∧ (∀ cNames, ∃ text, table.toC cNames = .ok text) ∧
          ∀ serialize : Serializer, serialize.NeverFails →
            ∃ text, table.toJson serialize = .ok text := by
  refine ⟨fun failure e hresult hproblem => ?_, fun c table hresult htable => ?_⟩
  · have hblames : e.BlamesInput := by
      rcases compile_cases source names keys options eval stopAfter with
        ⟨failure', hfail, hearly⟩ | ⟨c, hok, -⟩ | ⟨g, order, s, hlaid, hemit⟩
      · rw [hfail] at hresult
        obtain rfl := Except.error.inj hresult
        exact absurd hproblem (hearly e)
      · rw [hok] at hresult
        cases hresult
      · rcases hemit with ⟨line, e', herr, hfail⟩ | ⟨table, -, hok⟩
        · rw [hfail] at hresult
          obtain rfl := Except.error.inj hresult
          obtain rfl := Problem.emit.inj hproblem
          exact hlaid.blamesInput_of_emitTable herr
        · rw [hok] at hresult
          cases hresult
    cases hblames with
    | duplicateSymbol name => exact .inl ⟨name, rfl⟩
    | cellOverflow what value => exact .inr ⟨what, value, rfl⟩
  · have hpacked : ∃ words, table.packed = .ok words := by
      rcases compile_cases source names keys options eval stopAfter with
        ⟨failure, hfail, -⟩ | ⟨c', hok, hnone⟩ | ⟨g, order, s, hlaid, hemit⟩
      · rw [hfail] at hresult
        cases hresult
      · rw [hok] at hresult
        obtain rfl := Except.ok.inj hresult
        rw [hnone] at htable
        cases htable
      · rcases hemit with ⟨line, e', -, hfail⟩ | ⟨table', htable', hok⟩
        · rw [hfail] at hresult
          cases hresult
        · rw [hok] at hresult
          obtain rfl := Except.ok.inj hresult
          obtain rfl := Option.some.inj htable
          exact hlaid.exists_packed htable'
    obtain ⟨words, hwords⟩ := hpacked
    refine ⟨⟨words, hwords⟩, fun cNames => ?_, fun serialize hserialize => ?_⟩
    · rw [DescriptorTable.toC, hwords]
      exact ⟨_, rfl⟩
    · obtain ⟨text, htext⟩ := hserialize (table.dump words)
      exact ⟨text, by rw [DescriptorTable.toJson, hwords, Except.bind, htext]; rfl⟩

end Compile

theorem Run.result_of_failure? {r : Run} {failure : Failure} (h : r.failure? = some failure) :
    r.result = .error failure := by
  unfold Run.failure? at h
  split at h
  · rename_i hr
    rw [hr, Option.some.inj h]
  · cases h

/-- Both ends of the emission: a name that is exported twice, and a table with a union. -/
theorem compile_emission_union :
    let run := fun source =>
      let key := KeyList.makeKey {} .struct "x" 1
      compile source key.2 ⟨[key.1]⟩ {} (fun _ => .error .noCompiler) .emit
    (∃ failure e, (run ("struct a { int n; union { int i; float f; } c; };" ++
          "struct x { struct a p; union { int j; double d; } c; };")).result = .error failure ∧
        failure.diagnostic.problem = .emit e ∧
        ((∃ name, e = .duplicateSymbol name) ∨ ∃ what value, e = .cellOverflow what value)) ∧
    ∃ s table, (run "struct x { union { int j; double d; } c; char t; };").result =
        .ok { session := some s, table := some table } ∧
      (∃ words, table.packed = .ok words) ∧ (∀ cNames, ∃ text, table.toC cNames = .ok text) ∧
        ∃ text, table.toJson Text.Json.serialize = .ok text := by
  intro run
  have hfails : (run ("struct a { int n; union { int i; float f; } c; };" ++
      "struct x { struct a p; union { int j; double d; } c; };")).failure? =
        some ⟨⟨0, .emit (.duplicateSymbol "x_c_0")⟩, []⟩ := by decide +kernel
  have hsome : (run "struct x { union { int j; double d; } c; char t; };").cells?.isSome = true := by
    decide +kernel
  have hfailed := Run.result_of_failure? hfails
  obtain ⟨cells, hcells⟩ := Option.isSome_iff_exists.mp hsome
  obtain ⟨s, table, hresult, -⟩ := Run.exists_of_cells? hcells
  obtain ⟨hpacked, hsource, hdump⟩ := (compile_emission _ _ _ _ _ _).2 _ table hresult rfl
  exact ⟨⟨_, _, hfailed, rfl, (compile_emission _ _ _ _ _ _).1 _ _ hfailed rfl⟩,
    s, table, hresult, hpacked, hsource, hdump _ fun _ => ⟨_, rfl⟩⟩

end TypeLayout
