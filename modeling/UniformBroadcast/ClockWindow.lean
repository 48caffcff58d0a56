import Mathlib.Data.List.Basic
import Mathlib.Algebra.BigOperators.Fin
import Mathlib.Algebra.Order.BigOperators.Group.Finset

/-!
# Comparing clocks that wrap around

Two clocks are known modulo `m` only. The difference of the residues tells which of them is
ahead as long as they are less than half of `m` apart, and says the opposite when they are
further apart than that.
-/

namespace UniformBroadcast.ClockWindow

variable {m x y : ℕ}

/-- `x` looks later than `y` from their residues. -/
def ahead (m x y : ℕ) : Bool :=
  let diff : ℤ := (x % m : ℕ) - (y % m : ℕ)
  if diff > 0 then diff < (1 + (m : ℤ)).tdiv 2 else diff < (1 - (m : ℤ)).tdiv 2

/-- The residue of a clock that has advanced by less than `m`. -/
theorem add_mod_cases {d : ℕ} (y : ℕ) (hd : d < m) :
    (y + d) % m = y % m + d ∨ (y + d) % m + m = y % m + d := by
  have hy : y % m < m := Nat.mod_lt y (Nat.zero_lt_of_lt hd)
  have hsum : (y + d) % m = (y % m + d) % m := (Nat.mod_add_mod y m d).symm
  by_cases hlt : y % m + d < m
  · left
    rw [hsum, Nat.mod_eq_of_lt hlt]
  · right
    rw [hsum, Nat.mod_eq_sub_mod (Nat.le_of_not_lt hlt), Nat.mod_eq_of_lt (by omega)]
    omega

section Even

variable {w : ℕ}

theorem ahead_eq (hw : 0 < w) (x y : ℕ) : ahead (2 * w) x y =
    if y % (2 * w) < x % (2 * w) then decide (x % (2 * w) < y % (2 * w) + w)
    else decide (x % (2 * w) + w ≤ y % (2 * w)) := by
  have hpos : (1 + ((2 * w : ℕ) : ℤ)).tdiv 2 = w := by
    rw [Int.tdiv_eq_ediv_of_nonneg (by omega)]
    omega
  have hneg : (1 - ((2 * w : ℕ) : ℤ)).tdiv 2 = 1 - w := by
    have hsum : (1 - ((2 * w : ℕ) : ℤ)) = -(((2 * w - 1 : ℕ) : ℤ)) := by omega
    rw [hsum, Int.neg_tdiv, Int.tdiv_eq_ediv_of_nonneg (by omega)]
    omega
  simp only [ahead, hpos, hneg]
  by_cases hlt : y % (2 * w) < x % (2 * w)
  · rw [if_pos hlt, if_pos (by omega)]
    apply decide_eq_decide.mpr
    omega
  · rw [if_neg hlt, if_neg (by omega)]
    apply decide_eq_decide.mpr
    omega

/-- A clock that is ahead by less than half of the modulus looks so. -/
theorem ahead_of_lt (h : y < x) (hclose : x < y + w) : ahead (2 * w) x y = true := by
  obtain ⟨d, rfl⟩ := Nat.exists_eq_add_of_lt h
  have hd : d + 1 < 2 * w := by omega
  have hy : y % (2 * w) < 2 * w := Nat.mod_lt y (by omega)
  rw [ahead_eq (by omega)]
  rcases add_mod_cases y hd with hsum | hsum
  · rw [Nat.add_assoc, hsum, if_pos (by omega)]
    exact decide_eq_true (by omega)
  · rw [Nat.add_assoc, if_neg (by omega)]
    exact decide_eq_true (by omega)

/-- A clock that is not ahead, and behind by less than half of the modulus, does not. -/
theorem not_ahead (h : x ≤ y) (hclose : y < x + w) : ahead (2 * w) x y = false := by
  obtain ⟨d, rfl⟩ := Nat.exists_eq_add_of_le h
  have hd : d < 2 * w := by omega
  have hx : x % (2 * w) < 2 * w := Nat.mod_lt x (by omega)
  rw [ahead_eq (by omega)]
  rcases add_mod_cases x hd with hsum | hsum
  · rw [hsum, if_neg (by omega)]
    exact decide_eq_false (by omega)
  · rw [if_pos (by omega)]
    exact decide_eq_false (by omega)

/-- One that is behind by more than half of the modulus and less than the modulus looks
ahead. -/
theorem ahead_of_far (hfar : x + w < y) (hclose : y < x + 2 * w) : ahead (2 * w) x y = true := by
  obtain ⟨d, rfl⟩ := Nat.exists_eq_add_of_lt (show x < y by omega)
  have hd : d + 1 < 2 * w := by omega
  have hx : x % (2 * w) < 2 * w := Nat.mod_lt x (by omega)
  rw [ahead_eq (by omega)]
  rcases add_mod_cases x hd with hsum | hsum
  · rw [Nat.add_assoc, hsum, if_neg (by omega)]
    exact decide_eq_true (by omega)
  · rw [Nat.add_assoc, if_pos (by omega)]
    exact decide_eq_true (by omega)

end Even

end UniformBroadcast.ClockWindow
