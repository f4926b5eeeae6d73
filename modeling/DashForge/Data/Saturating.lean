import Mathlib.Algebra.Group.Nat.Defs
import Mathlib.Order.Lattice

/-!
# Saturating and checked machine arithmetic

Unsigned 64-bit sums and products that stop at the largest value, or fail past it, over `ℕ`.
Saturating subtraction is the subtraction of `ℕ` itself.
-/

namespace DashForge

/-- The largest 64-bit unsigned value. -/
def u64Max : ℕ := 2 ^ 64 - 1

/-- The largest 32-bit unsigned value. -/
def u32Max : ℕ := 2 ^ 32 - 1

/-- Saturating 64-bit addition. -/
def satAdd (a b : ℕ) : ℕ := min (a + b) u64Max

/-- Saturating 64-bit multiplication. -/
def satMul (a b : ℕ) : ℕ := min (a * b) u64Max

/-- 64-bit addition, `none` on overflow. -/
def checkedAdd (a b : ℕ) : Option ℕ := if a + b ≤ u64Max then some (a + b) else none

/-- 64-bit multiplication, `none` on overflow. -/
def checkedMul (a b : ℕ) : Option ℕ := if a * b ≤ u64Max then some (a * b) else none

/-- Subtraction, `none` below 0. -/
def checkedSub (a b : ℕ) : Option ℕ := if b ≤ a then some (a - b) else none

theorem satAdd_eq_add {a b : ℕ} (h : a + b ≤ u64Max) : satAdd a b = a + b := Nat.min_eq_left h

theorem satAdd_satAdd (a b c : ℕ) : satAdd (satAdd a b) c = min (a + b + c) u64Max := by
  simp only [satAdd]
  omega

theorem satMul_le_u64Max (a b : ℕ) : satMul a b ≤ u64Max := Nat.min_le_right _ _

theorem satMul_le_satMul {a b : ℕ} (h : a ≤ b) (c : ℕ) : satMul a c ≤ satMul b c := by
  have := Nat.mul_le_mul_right c h
  simp only [satMul]
  omega

theorem checkedSub_eq_some {a b c : ℕ} : checkedSub a b = some c ↔ b ≤ a ∧ c = a - b := by
  rw [checkedSub]
  split <;> grind

end DashForge
