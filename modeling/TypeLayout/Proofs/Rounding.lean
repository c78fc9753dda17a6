import Mathlib
import TypeLayout.Align

/-!
# Rounding up

The arithmetic of `alignUp`. Without a limit it would give, for a positive alignment, the
least multiple that is not below the value: that is `roundUp`, and all inequalities are about
it. The two agree as long as the multiple is one that 64 bits hold (`alignUp_eq_roundUp`).

A multiple that fits stays as it is, and that is all the layout of runs needs, since the size
of every element is a multiple of its alignment. What is lost when a sum does not fit is a
multiple of every alignment, so this holds of sums that wrap around as well.
-/

namespace TypeLayout

variable {n m a b : ℕ}

/-- The least multiple of an alignment that is not below a value, whatever its size. -/
def roundUp (value align : ℕ) : ℕ :=
  if align ≤ 1 then value else (value + align - 1) / align * align

/-- A multiple of the alignment is not moved. -/
theorem roundUp_of_dvd (h : a ∣ n) : roundUp n a = n := by
  unfold roundUp
  split
  · rfl
  · rename_i ha
    obtain ⟨k, rfl⟩ := h
    have hdiv : (a * k + a - 1) / a = k := by
      rw [Nat.add_sub_assoc (by omega), Nat.add_comm, Nat.add_mul_div_left _ _ (by omega),
        Nat.div_eq_of_lt (by omega), Nat.zero_add]
    rw [hdiv, Nat.mul_comm]

theorem roundUp_one (n : ℕ) : roundUp n 1 = n := roundUp_of_dvd (one_dvd n)

/-- Rounding gives a multiple of the alignment. -/
theorem dvd_roundUp (n : ℕ) (ha : 0 < a) : a ∣ roundUp n a := by
  unfold roundUp
  split
  · obtain rfl : a = 1 := by omega
    exact one_dvd n
  · exact Nat.dvd_mul_left _ _

theorem le_roundUp (n a : ℕ) : n ≤ roundUp n a := by
  unfold roundUp
  split
  · exact le_refl n
  · have hpos : 0 < a := by omega
    have hlt : n + a - 1 < (n + a - 1) / a * a + a := Nat.lt_div_mul_add hpos
    omega

/-- **The least multiple**: rounding stays below every multiple that is not below the
value. -/
theorem roundUp_le (hnm : n ≤ m) (ha : a ∣ m) : roundUp n a ≤ m := by
  unfold roundUp
  split
  · exact hnm
  · obtain ⟨k, rfl⟩ := ha
    have hk : (n + a - 1) / a ≤ k := by
      rw [Nat.div_le_iff_le_mul_add_pred (by omega)]
      omega
    calc (n + a - 1) / a * a ≤ k * a := Nat.mul_le_mul_right a hk
      _ = a * k := Nat.mul_comm k a

theorem roundUp_mono (hnm : n ≤ m) (ha : 0 < a) : roundUp n a ≤ roundUp m a :=
  roundUp_le (hnm.trans (le_roundUp m a)) (dvd_roundUp m ha)

/-- A coarser alignment rounds further. -/
theorem roundUp_le_of_dvd (n : ℕ) (hab : a ∣ b) (hb : 0 < b) : roundUp n a ≤ roundUp n b :=
  roundUp_le (le_roundUp n b) (hab.trans (dvd_roundUp n hb))

/-- A multiple of the alignment can be left out of the rounding. -/
theorem roundUp_add (n : ℕ) (ha : 0 < a) (hm : a ∣ m) : roundUp (m + n) a = m + roundUp n a := by
  refine le_antisymm ?_ ?_
  · exact roundUp_le (Nat.add_le_add_left (le_roundUp n a) m) (dvd_add hm (dvd_roundUp n ha))
  · have hle : m ≤ roundUp (m + n) a := (Nat.le_add_right m n).trans (le_roundUp _ _)
    have hrest : roundUp n a ≤ roundUp (m + n) a - m := by
      refine roundUp_le ?_ (Nat.dvd_sub (dvd_roundUp _ ha) hm)
      have := le_roundUp (m + n) a
      omega
    omega

/-- Two values that a finer alignment rounds to one multiple of a coarser one are rounded to
it by the coarser one too. -/
theorem roundUp_eq_of_finer (hnm : n ≤ m) (hab : a ∣ b) (hb : 0 < b)
    (h : roundUp n a = roundUp m a) (hm : roundUp m a = roundUp m b) :
    roundUp n b = roundUp m b := by
  refine le_antisymm (roundUp_mono hnm hb) ?_
  calc roundUp m b = roundUp n a := hm.symm.trans h.symm
    _ ≤ roundUp n b := roundUp_le_of_dvd n hab hb

/-! ### In 64 bits -/

theorem wordSize_pos : 0 < wordSize := by decide

theorem wrap_lt (n : ℕ) : wrap n < wordSize := Nat.mod_lt n wordSize_pos

theorem wrap_le (n : ℕ) : wrap n ≤ n := Nat.mod_le n wordSize

/-- A number that fits is kept. -/
theorem wrap_of_lt (h : n < wordSize) : wrap n = n := Nat.mod_eq_of_lt h

@[simp] theorem wrap_wrap_add (n m : ℕ) : wrap (wrap n + m) = wrap (n + m) := by
  simp [wrap]

@[simp] theorem wrap_add_mul_wrap (n m k : ℕ) : wrap (n + m * wrap k) = wrap (n + m * k) := by
  rw [wrap, wrap, wrap, Nat.add_mod, Nat.mul_mod_mod, ← Nat.add_mod]

/-- What is lost is a multiple of every alignment. -/
theorem dvd_wrap (ha : a ∣ wordSize) (h : a ∣ n) : a ∣ wrap n := (Nat.dvd_mod_iff ha).mpr h

/-- **Rounding is exact** as long as the alignment can be added, since that comes first. -/
theorem alignUp_eq_roundUp (h : n + a ≤ wordSize) : alignUp n a = roundUp n a := by
  unfold alignUp roundUp
  split
  · rfl
  · rw [wrap_of_lt (by omega)]

theorem alignUp_eq_roundUp_of_dvd (ha : a ∣ wordSize) (h : roundUp n a < wordSize) :
    alignUp n a = roundUp n a := by
  have hpos : 0 < a := Nat.pos_of_dvd_of_pos ha wordSize_pos
  refine alignUp_eq_roundUp ?_
  have hle := le_roundUp n a
  have hgap : a ∣ wordSize - roundUp n a := Nat.dvd_sub ha (dvd_roundUp n hpos)
  have hroom := Nat.le_of_dvd (by omega) hgap
  omega

/-- A multiple of the alignment is not moved. -/
theorem alignUp_of_dvd (ha : a ∣ wordSize) (h : a ∣ n) (hn : n < wordSize) : alignUp n a = n := by
  rw [alignUp_eq_roundUp_of_dvd ha (by rwa [roundUp_of_dvd h]), roundUp_of_dvd h]

/-- Rounding gives a multiple of the alignment. -/
theorem dvd_alignUp (n : ℕ) (ha : 0 < a) : a ∣ alignUp n a := by
  unfold alignUp
  split
  · obtain rfl : a = 1 := by omega
    exact one_dvd n
  · exact Nat.dvd_mul_left _ _

@[simp] theorem alignUp_zero (a : ℕ) : alignUp 0 a = 0 := by
  unfold alignUp
  split
  · rfl
  · have hlt : wrap (0 + a - 1) < a := (wrap_le _).trans_lt (by omega)
    rw [Nat.div_eq_of_lt hlt, Nat.zero_mul]

end TypeLayout
