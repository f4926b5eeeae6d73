import DashForge.Data.Parser
import Mathlib.Data.Nat.Bitwise

/-!
# LEB128 numbers

A 64-bit number as bytes of seven bits each, the lowest first, with the high bit set on all but the
last. The reader stops after ten bytes and refuses bits that do not fit. A number that is written is
read back (`reads_varint`), and a number that is read fits in 64 bits (`safe_varint`).
-/

namespace DashForge.Leb128

variable {ε : Type}

/-- The bytes of a number, ten at most. -/
def writeGo : ℕ → ℕ → List UInt8
  | 0, _ => []
  | fuel + 1, v =>
    if v >>> 7 = 0 then [UInt8.ofNat (v &&& 0x7f)]
    else UInt8.ofNat ((v &&& 0x7f) ||| 0x80) :: writeGo fuel (v >>> 7)

def writeVarint (v : ℕ) : List UInt8 := writeGo 10 v

/-- Read on, with `r` read so far and `n` bytes to go. -/
def varintGo (truncated overflow : ε) : ℕ → ℕ → ℕ → Parser ε UInt8 ℕ
  | 0, _, _ => Parser.fail overflow
  | n + 1, shift, r => do
    let bs ← Parser.take 1 truncated
    let b := (bs.headD 0).toNat
    let bits := b &&& 0x7f
    -- the tenth byte holds bit 63 alone
    if shift = 63 ∧ 1 < bits then Parser.fail overflow
    else if b &&& 0x80 = 0 then return r ||| (bits <<< shift)
    else varintGo truncated overflow n (shift + 7) (r ||| (bits <<< shift))

def varint (truncated overflow : ε) : Parser ε UInt8 ℕ := varintGo truncated overflow 10 0 0

/-! ### Round trip -/

theorem and_or_shift (v shift : ℕ) : ((v &&& 0x7f) <<< shift) ||| ((v >>> 7) <<< (shift + 7)) = v <<< shift := by
  have hlow : v &&& 0x7f = v % 2 ^ 7 := Nat.and_two_pow_sub_one_eq_mod v 7
  have hv : (v >>> 7) <<< 7 ||| (v &&& 0x7f) = v := by
    rw [hlow, ← Nat.shiftLeft_add_eq_or_of_lt (Nat.mod_lt _ (by decide)), Nat.shiftLeft_eq,
      Nat.shiftRight_eq_div_pow, mul_comm, Nat.div_add_mod]
  rw [add_comm, Nat.shiftLeft_add, ← Nat.shiftLeft_or_distrib, Nat.or_comm, hv]

theorem byte_high {x : ℕ} (hx : x < 128) : (UInt8.ofNat (x ||| 0x80)).toNat &&& 0x7f = x ∧
    (UInt8.ofNat (x ||| 0x80)).toNat &&& 0x80 ≠ 0 := by
  revert x
  decide

theorem byte_low {x : ℕ} (hx : x < 128) : (UInt8.ofNat x).toNat &&& 0x7f = x ∧ (UInt8.ofNat x).toNat &&& 0x80 = 0 := by
  revert x
  decide

theorem reads_varintGo (truncated overflow : ε) {n shift v : ℕ} (hn : 0 < n) (hshift : shift + 7 * n = 70)
    (hv : v * 2 ^ shift < 2 ^ 64) (r : ℕ) :
    Parser.Reads (varintGo truncated overflow n shift r) (writeGo n v) (r ||| (v <<< shift)) := by
  induction n generalizing shift v r with
  | zero => omega
  | succ n ih =>
    have hx : v &&& 0x7f < 128 := lt_of_le_of_lt Nat.and_le_right (by decide)
    have htop : ¬(shift = 63 ∧ 1 < v &&& 0x7f) := by
      rintro ⟨rfl, hbits⟩
      have hle : v &&& 0x7f ≤ v := Nat.and_le_left
      omega
    rw [writeGo]
    split
    · rename_i hlast
      obtain ⟨hbits, hhigh⟩ := byte_low hx
      have hstep := and_or_shift v shift
      rw [hlast, Nat.zero_shiftLeft, Nat.or_zero] at hstep
      refine (Parser.reads_take [UInt8.ofNat (v &&& 0x7f)] truncated).bind (y := []) ?_
      simp only [List.headD_cons, hbits, htop, hhigh, if_false, if_true, hstep]
      exact Parser.reads_pure _
    · rename_i hmore
      obtain ⟨hbits, hhigh⟩ := byte_high hx
      have hbig : 128 ≤ v := by
        by_contra hlt
        exact hmore (by rw [Nat.shiftRight_eq_div_pow]; omega)
      have hsmall : shift < 57 := by
        by_contra hle
        have : 2 ^ 57 ≤ 2 ^ shift := Nat.pow_le_pow_right (by decide) (by omega)
        have := Nat.mul_le_mul hbig this
        omega
      have hrest : (v >>> 7) * 2 ^ (shift + 7) < 2 ^ 64 := by
        rw [Nat.shiftRight_eq_div_pow, pow_add, mul_comm (2 ^ shift), ← mul_assoc]
        exact lt_of_le_of_lt (Nat.mul_le_mul_right _ (Nat.div_mul_le_self _ _)) hv
      refine (Parser.reads_take [UInt8.ofNat ((v &&& 0x7f) ||| 0x80)] truncated).bind ?_
      simp only [List.headD_cons, hbits, htop, hhigh, if_false]
      have hgo := ih (by omega) (by omega) hrest (r ||| ((v &&& 0x7f) <<< shift))
      rwa [Nat.or_assoc, and_or_shift] at hgo

theorem reads_varint (truncated overflow : ε) {v : ℕ} (hv : v ≤ u64Max) :
    Parser.Reads (varint truncated overflow) (writeVarint v) v := by
  have h := reads_varintGo truncated overflow (by decide) (show 0 + 7 * 10 = 70 by decide)
    (show v * 2 ^ 0 < 2 ^ 64 by rw [u64Max] at hv; omega) 0
  rwa [Nat.zero_or, Nat.shiftLeft_zero] at h

/-! ### Whatever the input -/

theorem safe_varintGo (truncated overflow : ε) {n shift r : ℕ} (hshift : shift + 7 * n = 70) (hr : r < 2 ^ 64) :
    Parser.Safe (varintGo truncated overflow n shift r) (min n 1) fun v => v < 2 ^ 64 := by
  induction n generalizing shift r with
  | zero => exact Parser.safe_fail _
  | succ n ih =>
    refine ((Parser.safe_take 1 truncated).bind (l := 0) fun bs _ => ?_).mono (by omega) fun _ => id
    refine Parser.safe_ite (fun _ => Parser.safe_fail _) fun htop => ?_
    generalize (bs.headD 0).toNat = b at *
    have hbits : b &&& 0x7f < 2 ^ 7 := lt_of_le_of_lt Nat.and_le_right (by decide)
    have hshl : (b &&& 0x7f) <<< shift < 2 ^ 64 := by
      rw [Nat.shiftLeft_eq]
      rcases lt_or_ge shift 57 with hlt | hge
      · calc (b &&& 0x7f) * 2 ^ shift < 2 ^ 7 * 2 ^ shift :=
              Nat.mul_lt_mul_of_pos_right hbits (Nat.two_pow_pos _)
          _ ≤ 2 ^ 7 * 2 ^ 57 := Nat.mul_le_mul_left _ (Nat.pow_le_pow_right (by decide) hlt.le)
          _ = 2 ^ 64 := by decide
      · obtain rfl : shift = 63 := by omega
        omega
    have hor : r ||| ((b &&& 0x7f) <<< shift) < 2 ^ 64 := Nat.or_lt_two_pow hr hshl
    refine Parser.safe_ite (fun _ => Parser.safe_pure hor) fun _ => ?_
    exact (ih (by omega) hor).mono (Nat.zero_le _) fun _ => id

theorem safe_varint (truncated overflow : ε) : Parser.Safe (varint truncated overflow) 1 fun v => v ≤ u64Max := by
  refine (safe_varintGo truncated overflow (by decide) (by decide)).mono (by decide) fun v hv => ?_
  rw [u64Max]
  omega

end DashForge.Leb128
