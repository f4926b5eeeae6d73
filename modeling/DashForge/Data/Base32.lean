import DashForge.Data.BigEndian
import Mathlib

/-!
# Unpadded base32

The lower-case text of bytes in groups of five bits, as an accumulator takes them off (`base32Digits`). The groups are
the digits of the bytes' number, shifted to a whole number of them (`exists_base32`), so texts of as many bytes are
different (`base32_injective`).
-/

namespace DashForge.Base32

open List

def alphabet : List Char := "abcdefghijklmnopqrstuvwxyz234567".toList

def digit (n : ℕ) : Char := alphabet.getD n 'a'

/-- The groups that `bits` low bits of the accumulator complete, from the top, and the bits left. -/
def emit (acc bits : ℕ) : List Char × ℕ :=
  if 5 ≤ bits then
    let rest := emit acc (bits - 5)
    (digit ((acc >>> (bits - 5)) &&& 31) :: rest.1, rest.2)
  else ([], bits)

/-- What is written, and the bits not yet written. -/
structure State where
  out : List Char
  acc : ℕ
  bits : ℕ
deriving DecidableEq, Repr

def step (st : State) (b : UInt8) : State :=
  let acc := (st.acc <<< 8) ||| b.toNat
  let groups := emit acc (st.bits + 8)
  ⟨st.out ++ groups.1, acc &&& ((1 <<< groups.2) - 1), groups.2⟩

def base32Digits (bs : List UInt8) : List Char :=
  let st := bs.foldl step ⟨[], 0, 0⟩
  if 0 < st.bits then st.out ++ [digit ((st.acc <<< (5 - st.bits)) &&& 31)] else st.out

def base32 (bs : List UInt8) : String := String.ofList (base32Digits bs)

/-- The number of big-endian groups. -/
def value (ds : List ℕ) : ℕ := ds.foldl (fun n d => n * 32 + d) 0

/-! ### Groups and numbers -/

section Groups

variable {acc bits : ℕ} {ds ds' : List ℕ} {bs : List UInt8} {st : State}

theorem foldl_value (ds : List ℕ) (n : ℕ) : ds.foldl (fun n d => n * 32 + d) n = n * 32 ^ ds.length + value ds := by
  induction ds generalizing n with
  | nil => simp [value]
  | cons d ds ih =>
    have hd := ih (0 * 32 + d)
    rw [value, foldl_cons, foldl_cons, ih, hd, length_cons]
    ring

theorem value_cons (d : ℕ) (ds : List ℕ) : value (d :: ds) = d * 32 ^ ds.length + value ds := by
  rw [value, foldl_cons, foldl_value]
  ring

theorem value_append (ds ds' : List ℕ) : value (ds ++ ds') = value ds * 32 ^ ds'.length + value ds' := by
  rw [value, foldl_append, foldl_value]
  rfl

theorem emit_spec (acc bits : ℕ) : ∃ ds, (emit acc bits).1 = ds.map digit ∧ (∀ d ∈ ds, d < 32) ∧
    bits = 5 * ds.length + (emit acc bits).2 ∧ (emit acc bits).2 < 5 ∧
      acc % 2 ^ bits = value ds * 2 ^ (emit acc bits).2 + acc % 2 ^ (emit acc bits).2 := by
  induction bits using Nat.strong_induction_on with
  | h bits ih =>
    by_cases hbits : 5 ≤ bits
    · obtain ⟨ds, hout, hlt, hlen, hrest, hvalue⟩ := ih (bits - 5) (by omega)
      have hgroup : (acc >>> (bits - 5)) &&& 31 = acc / 2 ^ (bits - 5) % 32 := by
        rw [Nat.shiftRight_eq_div_pow, show 31 = 2 ^ 5 - 1 by rfl, Nat.and_two_pow_sub_one_eq_mod]
      have hemit : emit acc bits =
          (digit (acc / 2 ^ (bits - 5) % 32) :: (emit acc (bits - 5)).1, (emit acc (bits - 5)).2) := by
        conv_lhs => rw [emit, if_pos hbits, hgroup]
      rw [hemit]
      refine ⟨acc / 2 ^ (bits - 5) % 32 :: ds, by rw [hout, map_cons], ?_, ?_, hrest, ?_⟩
      · exact forall_mem_cons.mpr ⟨Nat.mod_lt _ (by decide), hlt⟩
      · rw [length_cons]
        omega
      · have hpow : 2 ^ (bits - 5) = 32 ^ ds.length * 2 ^ (emit acc (bits - 5)).2 := by
          conv_lhs => rw [hlen, pow_add, pow_mul]
          rfl
        have hsplit : 2 ^ bits = 2 ^ (bits - 5) * 32 := by
          rw [show (32 : ℕ) = 2 ^ 5 by rfl, ← pow_add, Nat.sub_add_cancel hbits]
        calc acc % 2 ^ bits = acc % 2 ^ (bits - 5) + 2 ^ (bits - 5) * (acc / 2 ^ (bits - 5) % 32) := by
              rw [hsplit, Nat.mod_mul]
          _ = _ := by
              rw [hvalue, value_cons]
              generalize acc / 2 ^ (bits - 5) % 32 = d
              rw [hpow]
              ring
    · rw [emit, if_neg hbits]
      exact ⟨[], rfl, by simp, by simp, by omega, by simp [value]⟩

/-- What the accumulator has made of some bytes. -/
structure Holds (bs : List UInt8) (st : State) (ds : List ℕ) : Prop where
  out : st.out = ds.map digit
  lt : ∀ d ∈ ds, d < 32
  length : 8 * bs.length = 5 * ds.length + st.bits
  bits : st.bits < 5
  -- so a byte more stays far below 32 bits
  acc : st.acc < 2 ^ st.bits
  value : beNat bs = value ds * 2 ^ st.bits + st.acc

theorem Holds.step (h : Holds bs st ds) (b : UInt8) : ∃ ds', Holds (bs ++ [b]) (step st b) ds' := by
  have hb := b.toNat_lt
  have hacc : (st.acc <<< 8) ||| b.toNat = st.acc * 256 + b.toNat := by
    rw [← Nat.shiftLeft_add_eq_or_of_lt (show b.toNat < 2 ^ 8 from hb), Nat.shiftLeft_eq]
  have hlt : st.acc * 256 + b.toNat < 2 ^ (st.bits + 8) := by
    rw [pow_add]
    have := h.acc
    omega
  obtain ⟨new, hout, hnew, hlen, hrest, hvalue⟩ := emit_spec (st.acc * 256 + b.toNat) (st.bits + 8)
  rw [Nat.mod_eq_of_lt hlt] at hvalue
  have hpow : 2 ^ (st.bits + 8) = 32 ^ new.length * 2 ^ (emit (st.acc * 256 + b.toNat) (st.bits + 8)).2 := by
    conv_lhs => rw [hlen, pow_add, pow_mul]
    rfl
  have hstep : Base32.step st b = ⟨st.out ++ (emit (st.acc * 256 + b.toNat) (st.bits + 8)).1,
      (st.acc * 256 + b.toNat) &&& ((1 <<< (emit (st.acc * 256 + b.toNat) (st.bits + 8)).2) - 1),
      (emit (st.acc * 256 + b.toNat) (st.bits + 8)).2⟩ := by simp only [Base32.step, hacc]
  rw [hstep]
  refine ⟨ds ++ new, ?_, ?_, ?_, hrest, ?_, ?_⟩
  · rw [h.out, hout, map_append]
  · exact fun d hd => (mem_append.mp hd).elim (h.lt d) (hnew d)
  · have := h.length
    simp only [length_append, length_singleton]
    omega
  · rw [Nat.one_shiftLeft, Nat.and_two_pow_sub_one_eq_mod]
    exact Nat.mod_lt _ (Nat.two_pow_pos _)
  · rw [Nat.one_shiftLeft, Nat.and_two_pow_sub_one_eq_mod, beNat_concat, h.value, value_append]
    calc (Base32.value ds * 2 ^ st.bits + st.acc) * 256 + b.toNat
        = Base32.value ds * 2 ^ (st.bits + 8) + (st.acc * 256 + b.toNat) := by ring
      _ = _ := by
        conv_lhs => rw [hvalue, hpow]
        ring

theorem exists_holds (bs : List UInt8) : ∃ ds, Holds bs (bs.foldl step ⟨[], 0, 0⟩) ds := by
  induction bs using List.reverseRecOn with
  | nil => exact ⟨[], rfl, by simp, by simp, by decide, by decide, by simp [value]⟩
  | append_singleton bs b ih =>
    obtain ⟨ds, h⟩ := ih
    rw [foldl_concat]
    exact h.step b

/-- A text is the digits of the bytes' number, shifted to a whole number of groups. -/
theorem exists_base32 (bs : List UInt8) : ∃ ds, base32Digits bs = ds.map digit ∧ (∀ d ∈ ds, d < 32) ∧
    ds.length = (8 * bs.length) ⌈/⌉ 5 ∧ value ds = beNat bs * 2 ^ (5 * ds.length - 8 * bs.length) := by
  obtain ⟨ds, h⟩ := exists_holds bs
  have hbits := h.bits
  rw [base32Digits, Nat.ceilDiv_eq_add_pred_div]
  split_ifs with hpos
  · have hlast : ((bs.foldl step ⟨[], 0, 0⟩).acc <<< (5 - (bs.foldl step ⟨[], 0, 0⟩).bits)) &&& 31 =
        (bs.foldl step ⟨[], 0, 0⟩).acc * 2 ^ (5 - (bs.foldl step ⟨[], 0, 0⟩).bits) := by
      rw [Nat.shiftLeft_eq, show 31 = 2 ^ 5 - 1 by rfl, Nat.and_two_pow_sub_one_eq_mod]
      refine Nat.mod_eq_of_lt ?_
      calc _ < 2 ^ (bs.foldl step ⟨[], 0, 0⟩).bits * 2 ^ (5 - (bs.foldl step ⟨[], 0, 0⟩).bits) :=
            Nat.mul_lt_mul_of_pos_right h.acc (Nat.two_pow_pos _)
        _ = 2 ^ 5 := by rw [← pow_add, Nat.add_sub_cancel' hbits.le]
    have hlen := h.length
    refine ⟨ds ++ [((bs.foldl step ⟨[], 0, 0⟩).acc <<< (5 - (bs.foldl step ⟨[], 0, 0⟩).bits)) &&& 31], ?_, ?_, ?_, ?_⟩
    · rw [h.out, map_append, map_singleton]
    · refine fun d hd => (mem_append.mp hd).elim (h.lt d) fun hd => ?_
      rw [mem_singleton.mp hd]
      exact Nat.and_lt_two_pow _ (show 31 < 2 ^ 5 by decide)
    · simp only [length_append, length_singleton]
      omega
    · have hpad : 5 * (ds.length + 1) - 8 * bs.length = 5 - (bs.foldl step ⟨[], 0, 0⟩).bits := by omega
      have hfive : 32 = 2 ^ (bs.foldl step ⟨[], 0, 0⟩).bits * 2 ^ (5 - (bs.foldl step ⟨[], 0, 0⟩).bits) := by
        rw [← pow_add, Nat.add_sub_cancel' hbits.le]
        rfl
      rw [value_append, hlast, length_append, length_singleton, hpad, h.value, pow_one, add_mul,
        mul_assoc, ← hfive]
      simp [value]
  · have hlen := h.length
    have hzero : (bs.foldl step ⟨[], 0, 0⟩).bits = 0 := Nat.eq_zero_of_not_pos hpos
    have hacc := h.acc
    have hvalue := h.value
    rw [hzero] at hlen hacc hvalue
    refine ⟨ds, h.out, h.lt, by omega, ?_⟩
    rw [show 5 * ds.length - 8 * bs.length = 0 by omega, pow_zero, mul_one, hvalue, pow_zero, mul_one]
    omega

end Groups

theorem digit_inj : ∀ m < 32, ∀ n < 32, digit m = digit n → m = n := by decide

theorem length_base32Digits (bs : List UInt8) : (base32Digits bs).length = (8 * bs.length) ⌈/⌉ 5 := by
  obtain ⟨ds, hout, -, hlen, -⟩ := exists_base32 bs
  rw [hout, length_map, hlen]

/-- As many bytes have different texts. -/
theorem base32_injective {bs bs' : List UInt8} (hlen : bs.length = bs'.length)
    (h : base32 bs = base32 bs') : bs = bs' := by
  obtain ⟨ds, hout, hlt, hds, hvalue⟩ := exists_base32 bs
  obtain ⟨ds', hout', hlt', hds', hvalue'⟩ := exists_base32 bs'
  have hmap : ds.map digit = ds'.map digit := by
    rw [← hout, ← hout']
    exact String.ofList_injective h
  have heq : ds = ds' := by
    refine ext_getElem? fun i => ?_
    have hi := congrArg (·[i]?) hmap
    simp only [getElem?_map] at hi
    cases hd : ds[i]? with
    | none => rw [hd] at hi; exact (Option.map_eq_none_iff.mp hi.symm).symm
    | some d =>
      rw [hd] at hi
      obtain ⟨d', hd', hdd⟩ := Option.map_eq_some_iff.mp hi.symm
      rw [hd', digit_inj d' (hlt' d' (mem_of_getElem? hd')) d (hlt d (mem_of_getElem? hd)) hdd]
  rw [heq, hvalue', ← hlen] at hvalue
  exact beNat_inj hlen (Nat.eq_of_mul_eq_mul_right (Nat.two_pow_pos _) hvalue).symm

end DashForge.Base32
