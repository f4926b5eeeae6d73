import Mathlib.Data.List.Lex
import Mathlib.Data.List.Induction
import Mathlib.Tactic.Ring

/-!
# Bytes and big-endian numbers

Bytes are compared as unsigned numbers, byte strings byte by byte. A number is written in a fixed
number of bytes, the highest first (`toBe`), and read back (`beNat`); on strings of one length the
order of the bytes is the order of the numbers (`beNat_lt_beNat_iff`).
-/

namespace DashForge

open List

instance instLinearOrderUInt8 : LinearOrder UInt8 where
  le_refl := UInt8.le_refl
  le_trans _ _ _ := UInt8.le_trans
  le_antisymm _ _ := UInt8.le_antisymm
  le_total := UInt8.le_total
  lt_iff_le_not_ge a b := by simp only [UInt8.lt_iff_toNat_lt, UInt8.le_iff_toNat_le]; omega
  toDecidableLE := inferInstance
  toDecidableLT := inferInstance

instance instLawfulBEqUInt8 : LawfulBEq (List UInt8) := inferInstance

/-- A big-endian number. -/
def beNat (bs : List UInt8) : ℕ := bs.foldl (fun n b => n * 256 + b.toNat) 0

/-- The last `width` bytes of a number, the highest first. -/
def toBe : ℕ → ℕ → List UInt8
  | 0, _ => []
  | width + 1, n => toBe width (n / 256) ++ [UInt8.ofNat n]

@[simp]
theorem beNat_nil : beNat [] = 0 := rfl

@[simp]
theorem beNat_concat (bs : List UInt8) (b : UInt8) : beNat (bs ++ [b]) = beNat bs * 256 + b.toNat := by
  simp [beNat]

theorem beNat_append (bs cs : List UInt8) : beNat (bs ++ cs) = beNat bs * 256 ^ cs.length + beNat cs := by
  induction cs using reverseRecOn with
  | nil => simp
  | append_singleton cs c ih =>
    rw [← append_assoc, beNat_concat, ih, beNat_concat, length_append, length_singleton, pow_succ]
    ring

theorem beNat_cons (b : UInt8) (bs : List UInt8) : beNat (b :: bs) = b.toNat * 256 ^ bs.length + beNat bs := by
  rw [← singleton_append, beNat_append]
  simp [beNat]

theorem beNat_lt (bs : List UInt8) : beNat bs < 256 ^ bs.length := by
  induction bs using reverseRecOn with
  | nil => simp
  | append_singleton bs b ih =>
    have hb := b.toNat_lt
    rw [beNat_concat, length_append, length_singleton, pow_succ]
    omega

@[simp]
theorem length_toBe (width n : ℕ) : (toBe width n).length = width := by
  induction width generalizing n with
  | zero => rfl
  | succ width ih => simp [toBe, ih]

@[simp]
theorem beNat_toBe (width n : ℕ) : beNat (toBe width n) = n % 256 ^ width := by
  induction width generalizing n with
  | zero => simp [toBe, Nat.mod_one]
  | succ width ih =>
    rw [toBe, beNat_concat, ih, Nat.pow_succ', Nat.mod_mul, UInt8.toNat_ofNat', add_comm, mul_comm]

/-- A number that fits its width is read back. -/
theorem beNat_toBe_of_lt {width n : ℕ} (h : n < 256 ^ width) : beNat (toBe width n) = n := by
  rw [beNat_toBe, Nat.mod_eq_of_lt h]

/-- Bytes read as a number are written back. -/
theorem toBe_beNat (bs : List UInt8) : toBe bs.length (beNat bs) = bs := by
  induction bs using reverseRecOn with
  | nil => rfl
  | append_singleton bs b ih =>
    have hb := b.toNat_lt
    have hdiv : (beNat bs * 256 + b.toNat) / 256 = beNat bs := by omega
    have hmod : UInt8.ofNat (beNat bs * 256 + b.toNat) = b := by
      apply UInt8.toNat_inj.mp
      rw [UInt8.toNat_ofNat']
      omega
    rw [beNat_concat, length_append, length_singleton, toBe, hdiv, hmod, ih]

variable {l l' : List UInt8}

theorem beNat_inj (hlen : l.length = l'.length) (h : beNat l = beNat l') : l = l' := by
  rw [← toBe_beNat l, ← toBe_beNat l', hlen, h]

/-- On strings of one length, bytes compare as the numbers they stand for. -/
theorem beNat_lt_beNat_iff (hlen : l.length = l'.length) : beNat l < beNat l' ↔ l < l' := by
  induction l generalizing l' with
  | nil =>
    obtain rfl : l' = [] := by simpa using hlen.symm
    simp
  | cons a l ih =>
    cases l' with
    | nil => simp at hlen
    | cons b l' =>
      have hlen' : l.length = l'.length := by simpa using hlen
      have hl := beNat_lt l
      have hl' := beNat_lt l'
      rw [beNat_cons, beNat_cons, cons_lt_cons_iff, ← ih hlen', ← hlen']
      rw [← hlen'] at hl'
      rcases lt_trichotomy a b with hab | rfl | hab
      · have := UInt8.lt_iff_toNat_lt.mp hab
        simp only [hab, true_or, iff_true]
        calc a.toNat * 256 ^ l.length + beNat l < (a.toNat + 1) * 256 ^ l.length := by
              rw [add_mul]; omega
          _ ≤ b.toNat * 256 ^ l.length := Nat.mul_le_mul_right _ this
          _ ≤ _ := Nat.le_add_right _ _
      · simp
      · have := UInt8.lt_iff_toNat_lt.mp hab
        have hnot : ¬(a < b ∨ a = b ∧ beNat l < beNat l') := by
          rintro (h | ⟨rfl, -⟩)
          · exact lt_asymm h hab
          · exact lt_irrefl _ hab
        simp only [hnot, iff_false, not_lt]
        calc b.toNat * 256 ^ l.length + beNat l' ≤ (b.toNat + 1) * 256 ^ l.length := by
              rw [add_mul]; omega
          _ ≤ a.toNat * 256 ^ l.length := Nat.mul_le_mul_right _ this
          _ ≤ _ := Nat.le_add_right _ _

theorem beNat_le_beNat_iff (hlen : l.length = l'.length) : beNat l ≤ beNat l' ↔ l ≤ l' := by
  rw [← not_lt, ← not_lt, beNat_lt_beNat_iff hlen.symm]

end DashForge
