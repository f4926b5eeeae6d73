import DashForge.Pack.Delta
import Mathlib.Data.Nat.Bitwise
import Mathlib.Tactic.Ring

/-!
# What a delta says

The format of a git delta, apart from how it is read: two size varints and a sequence of copies out of the base and
insertions (`Decodes`). `applyDelta` gives the output a delta says exactly where both sizes are in ten bytes and 64
bits and the output is within its budget. What it checks before the first opcode refuses no delta that would come to
its end (`length_le_of_deltaOps`), and its output never runs past the size declared (`DeltaState.length_le`).
-/

namespace DashForge

open List Option

/-! ### The format -/

/-- A number in groups of seven bits, the lowest first, with the high bit set on all bytes but the last. -/
inductive SizeVarint : Bytes → ℕ → Prop
  | last (b : UInt8) (h : b.toNat < 0x80) : SizeVarint [b] b.toNat
  | more {b : UInt8} {bs : Bytes} {v : ℕ} (h : 0x80 ≤ b.toNat) (hrest : SizeVarint bs v) :
      SizeVarint (b :: bs) (b.toNat - 0x80 + 0x80 * v)

/-- A little-endian number, of which only the flagged bytes are there and the others are 0. -/
inductive Operand : List Bool → Bytes → ℕ → Prop
  | nil : Operand [] [] 0
  | absent {flags : List Bool} {bs : Bytes} {v : ℕ} (h : Operand flags bs v) : Operand (false :: flags) bs (0x100 * v)
  | present {flags : List Bool} {bs : Bytes} {v : ℕ} (b : UInt8) (h : Operand flags bs v) :
      Operand (true :: flags) (b :: bs) (b.toNat + 0x100 * v)

/-- `n` bits of an opcode, from bit `bit` on. -/
def opFlags (op bit n : ℕ) : List Bool := (List.range' bit n).map op.testBit

/-- One opcode with its operands, and what it puts out. -/
inductive DeltaOp (base : Bytes) : Bytes → Bytes → Prop
  /-- A copy of `size` bytes at `off`, and of 65536 where `size` is 0. -/
  | copy {op : UInt8} {offBytes sizeBytes piece : Bytes} {off size : ℕ} (hop : 0x80 ≤ op.toNat)
      (hoff : Operand (opFlags op.toNat 0 4) offBytes off) (hsize : Operand (opFlags op.toNat 4 3) sizeBytes size)
      (hpiece : slice base off (off + if size = 0 then 0x10000 else size) = some piece) :
      DeltaOp base (op :: (offBytes ++ sizeBytes)) piece
  /-- The bytes that follow, as many as the opcode says. -/
  | insert {op : UInt8} {piece : Bytes} (hop : op.toNat < 0x80) (hne : op.toNat ≠ 0) (hlen : piece.length = op.toNat) :
      DeltaOp base (op :: piece) piece

/-- A sequence of opcodes, and what they put out. -/
inductive DeltaOps (base : Bytes) : Bytes → Bytes → Prop
  | nil : DeltaOps base [] []
  | cons {bs piece rest out : Bytes} (h : DeltaOp base bs piece) (hrest : DeltaOps base rest out) :
      DeltaOps base (bs ++ rest) (piece ++ out)

/-- A delta of `base` whose output is `out`, within a budget, with sizes that fit in 64 bits and in bytes as `fits` says. -/
def Decodes (fits : Bytes → Prop) (base delta : Bytes) (budget : ℕ) (out : Bytes) : Prop :=
  ∃ srcBytes dstBytes ops, delta = srcBytes ++ (dstBytes ++ ops) ∧
    (SizeVarint srcBytes base.length ∧ base.length < 2 ^ 64 ∧ fits srcBytes) ∧
    (SizeVarint dstBytes out.length ∧ out.length < 2 ^ 64 ∧ fits dstBytes) ∧ DeltaOps base ops out ∧ out.length ≤ budget

/-! ### Sizes -/

variable {shift v r n dst : ℕ} {bs rest rest' piece base out ops : Bytes}

theorem shlExact_eq_some {bits : ℕ} :
    shlExact bits shift = some v ↔ shift < 64 ∧ bits * 2 ^ shift < 2 ^ 64 ∧ v = bits * 2 ^ shift := by
  have hpos : 0 < 2 ^ shift := Nat.two_pow_pos shift
  simp only [shlExact, Nat.shiftLeft_eq, Nat.shiftRight_eq_div_pow]
  by_cases hlt : bits * 2 ^ shift < 2 ^ 64
  · simp only [Nat.mod_eq_of_lt hlt, Nat.mul_div_cancel _ hpos, and_true, hlt, true_and]
    split
    · next h => rw [and_iff_right h, some.injEq, eq_comm]
    · next h => exact iff_of_false (some_ne_none v).symm fun hv => h hv.1
  · rw [if_neg]
    · exact iff_of_false (some_ne_none v).symm fun hv => hlt hv.2.1
    · rintro ⟨-, hdiv⟩
      refine hlt (lt_of_le_of_lt ?_ (Nat.mod_lt (bits * 2 ^ shift) (by decide)))
      calc bits * 2 ^ shift = bits * 2 ^ shift % 2 ^ 64 / 2 ^ shift * 2 ^ shift := by rw [hdiv]
        _ ≤ bits * 2 ^ shift % 2 ^ 64 := Nat.div_mul_le_self _ _

theorem and_low (b : UInt8) : b.toNat &&& 0x7f = b.toNat % 0x80 := Nat.and_two_pow_sub_one_eq_mod b.toNat 7

theorem and_high_eq_zero (b : UInt8) : b.toNat &&& 0x80 = 0 ↔ b.toNat < 0x80 := by
  have hand := Nat.and_two_pow b.toNat 7
  have hbit : b.toNat.testBit 7 = decide (b.toNat / 2 ^ 7 % 2 = 1) := Nat.testBit_eq_decide_div_mod_eq
  have := b.toNat_lt
  rw [show (0x80 : ℕ) = 2 ^ 7 by rfl, hand, hbit]
  by_cases h : b.toNat / 2 ^ 7 % 2 = 1
  · rw [decide_eq_true h]
    simp
    omega
  · rw [decide_eq_false h]
    simp
    omega

theorem SizeVarint.ne_nil (h : SizeVarint bs v) : bs ≠ [] := by
  cases h <;> exact cons_ne_nil _ _

variable {x w op budget : ℕ} {d out' delta : Bytes}

theorem group_lt_iff (hx : x < 0x80) (hshift : shift < 64) :
    x * 2 ^ shift < 2 ^ 64 ∧ v * 2 ^ (shift + 7) < 2 ^ 64 ↔ (x + 0x80 * v) * 2 ^ shift < 2 ^ 64 := by
  have hpos : 0 < 2 ^ shift := Nat.two_pow_pos shift
  have hmax : 2 ^ 64 = 2 ^ (64 - shift) * 2 ^ shift := by rw [← pow_add, Nat.sub_add_cancel hshift.le]
  have hv : v * 2 ^ (shift + 7) = 0x80 * v * 2 ^ shift := by ring
  rw [hv, hmax, Nat.mul_lt_mul_right hpos, Nat.mul_lt_mul_right hpos, Nat.mul_lt_mul_right hpos]
  refine ⟨fun ⟨hlow, hhigh⟩ => ?_, fun h => ⟨by omega, by omega⟩⟩
  -- The room is less than a group's, or a number of whole groups.
  rcases lt_or_ge (64 - shift) 7 with hsmall | hlarge
  · have : 2 ^ (64 - shift) ≤ 2 ^ 7 := Nat.pow_le_pow_right (by decide) hsmall.le
    omega
  · obtain ⟨k, hk⟩ := Nat.exists_eq_add_of_le hlarge
    rw [hk, pow_add] at hhigh ⊢
    omega

theorem or_mul_two_pow (hr : r < 2 ^ shift) (x : ℕ) : r ||| x * 2 ^ shift = r + x * 2 ^ shift := by
  rw [Nat.or_comm, ← Nat.shiftLeft_eq, ← Nat.shiftLeft_add_eq_or_of_lt hr, add_comm]

theorem add_mul_two_pow_lt (hr : r < 2 ^ shift) (hx : x < n) : r + x * 2 ^ shift < n * 2 ^ shift := by
  calc r + x * 2 ^ shift < 2 ^ shift + x * 2 ^ shift := Nat.add_lt_add_right hr _
    _ = (x + 1) * 2 ^ shift := by ring
    _ ≤ n * 2 ^ shift := Nat.mul_le_mul_right _ hx

theorem readDeltaSize_eq_ok (hr : r < 2 ^ shift) :
    readDeltaSize d r shift = .ok (w, rest) ↔ ∃ bs v, d = bs ++ rest ∧ SizeVarint bs v ∧ w = r + v * 2 ^ shift ∧
      shift + 7 * (bs.length - 1) < 64 ∧ v * 2 ^ shift < 2 ^ 64 := by
  induction d generalizing r shift with
  | nil =>
    refine iff_of_false (by simp [readDeltaSize]) ?_
    rintro ⟨bs, v, hnil, hsize, -⟩
    exact hsize.ne_nil (append_eq_nil_iff.mp hnil.symm).1
  | cons b d ih =>
    have hor := or_mul_two_pow hr
    have hlow : b.toNat % 0x80 < 0x80 := Nat.mod_lt _ (by decide)
    have hb := b.toNat_lt
    have hbound : r ||| b.toNat % 0x80 * 2 ^ shift < 2 ^ (shift + 7) := by
      rw [hor, pow_add, mul_comm (2 ^ shift)]
      exact add_mul_two_pow_lt hr hlow
    simp only [readDeltaSize, bind_eq_ok, okOr_eq_ok, shlExact_eq_some, and_high_eq_zero, and_low]
    constructor
    · rintro ⟨u, ⟨hshift, hfit, rfl⟩, h⟩
      split at h
      · next hlast =>
        simp only [Except.ok.injEq, Prod.mk.injEq] at h
        obtain ⟨rfl, rfl⟩ := h
        rw [Nat.mod_eq_of_lt hlast] at hfit ⊢
        exact ⟨[b], b.toNat, rfl, .last b hlast, hor _, hshift, hfit⟩
      · next hmore =>
        obtain ⟨bs, v, rfl, hsize, rfl, hlen, hv⟩ := (ih hbound).mp h
        have hpos := length_pos_iff.mpr hsize.ne_nil
        have hrem : b.toNat % 0x80 = b.toNat - 0x80 := by omega
        refine ⟨b :: bs, _, rfl, .more (Nat.le_of_not_lt hmore) hsize, ?_, by simp; omega, ?_⟩
        · rw [hor, hrem]
          ring
        · rw [← hrem]
          exact (group_lt_iff hlow hshift).mp ⟨hfit, hv⟩
    · rintro ⟨bs, v, hd, hsize, rfl, hlen, hfit⟩
      cases hsize with
      | last c hlast =>
        obtain ⟨rfl, rfl⟩ := List.cons.inj hd
        rw [Nat.mod_eq_of_lt hlast]
        refine ⟨_, ⟨hlen, hfit, rfl⟩, ?_⟩
        rw [if_pos hlast, hor]
      | @more c bs v hmore hsize =>
        obtain ⟨rfl, rfl⟩ := List.cons.inj hd
        have hpos := length_pos_iff.mpr hsize.ne_nil
        have hrem : b.toNat % 0x80 = b.toNat - 0x80 := by omega
        rw [length_cons] at hlen
        have hshift : shift < 64 := by omega
        rw [← hrem, ← group_lt_iff hlow hshift] at hfit
        refine ⟨_, ⟨hshift, hfit.1, rfl⟩, ?_⟩
        rw [if_neg (not_lt.mpr hmore)]
        refine (ih hbound).mpr ⟨bs, v, rfl, hsize, ?_, by omega, hfit.2⟩
        rw [hor, hrem]
        ring

/-! ### Opcodes -/

theorem and_one_shiftLeft_ne_zero {k : ℕ} : op &&& 1 <<< k ≠ 0 ↔ op.testBit k = true := by
  rw [Nat.shiftLeft_eq, one_mul, Nat.and_two_pow]
  have hpos := Nat.two_pow_pos k
  cases op.testBit k with
  | true => simp
  | false => simp

theorem Operand.lt {flags : List Bool} (h : Operand flags bs v) : v < 2 ^ (8 * flags.length) := by
  induction h with
  | nil => decide
  | absent _ ih =>
    rw [length_cons, Nat.mul_succ, pow_add]
    omega
  | present b _ ih =>
    have := b.toNat_lt
    rw [length_cons, Nat.mul_succ, pow_add]
    omega

theorem copyOperand_eq_ok {bit i : ℕ} (hv : v < 2 ^ (8 * i)) :
    copyOperand op bit n i v rest = .ok (w, rest') ↔ ∃ bs x, rest = bs ++ rest' ∧
      Operand (opFlags op (bit + i) n) bs x ∧ w = v + x * 2 ^ (8 * i) := by
  induction n generalizing i v rest with
  | zero =>
    simp only [copyOperand, Except.ok.injEq, Prod.mk.injEq]
    constructor
    · rintro ⟨rfl, rfl⟩
      exact ⟨[], 0, rfl, .nil, by rw [zero_mul, add_zero]⟩
    · rintro ⟨bs, x, rfl, hx, rfl⟩
      cases hx
      exact ⟨by rw [Nat.zero_mul, Nat.add_zero], rfl⟩
  | succ n ih =>
    have hpow : 2 ^ (8 * (i + 1)) = 0x100 * 2 ^ (8 * i) := by
      rw [Nat.mul_succ, Nat.pow_add, Nat.mul_comm]
    have hflags : opFlags op (bit + i) (n + 1) = op.testBit (bit + i) :: opFlags op (bit + (i + 1)) n := rfl
    unfold copyOperand
    rw [hflags]
    simp only [and_one_shiftLeft_ne_zero]
    cases op.testBit (bit + i) with
    | true =>
      rw [if_pos rfl]
      cases rest with
      | nil =>
        refine iff_of_false (by simp) ?_
        rintro ⟨bs, x, hnil, hx, -⟩
        cases hx
        exact absurd (append_eq_nil_iff.mp hnil.symm).1 (cons_ne_nil _ _)
      | cons b rest =>
        have hb := b.toNat_lt
        have hbound : v + b.toNat * 2 ^ (8 * i) < 2 ^ (8 * (i + 1)) := by
          rw [hpow]
          exact add_mul_two_pow_lt hv hb
        simp only [Nat.shiftLeft_eq, or_mul_two_pow hv]
        rw [ih hbound, hpow]
        constructor
        · rintro ⟨bs, x, rfl, hx, rfl⟩
          exact ⟨b :: bs, _, rfl, .present b hx, by ring⟩
        · rintro ⟨bs, x, hbs, hx, rfl⟩
          cases hx with
          | @present _ bs x c hx =>
            obtain ⟨rfl, rfl⟩ := List.cons.inj hbs
            exact ⟨bs, x, rfl, hx, by ring⟩
    | false =>
      rw [if_neg Bool.false_ne_true, ih (hv.trans_le (Nat.pow_le_pow_right (by decide) (by omega))), hpow]
      constructor
      · rintro ⟨bs, x, rfl, hx, rfl⟩
        exact ⟨bs, _, rfl, .absent hx, by ring⟩
      · rintro ⟨bs, x, rfl, hx, rfl⟩
        cases hx with
        | @absent _ bs x hx => exact ⟨bs, x, rfl, hx, by ring⟩

theorem copyOperands_eq_ok {off size : ℕ} :
    copyOperands op rest = .ok (off, size, rest') ↔ ∃ offBytes sizeBytes s, rest = offBytes ++ (sizeBytes ++ rest') ∧
      Operand (opFlags op 0 4) offBytes off ∧ Operand (opFlags op 4 3) sizeBytes s ∧
      size = if s = 0 then 0x10000 else s := by
  simp only [copyOperands, bind_eq_ok, pure_eq_ok, Prod.mk.injEq, copyOperand_eq_ok (show 0 < 2 ^ (8 * 0) by decide),
    Prod.exists]
  constructor
  · rintro ⟨_, _, ⟨offBytes, x, rfl, hoff, rfl⟩, _, _, ⟨sizeBytes, s, rfl, hsize, rfl⟩, rfl, rfl, rfl⟩
    refine ⟨offBytes, sizeBytes, s, rfl, ?_, hsize, ?_⟩
    · simpa using hoff
    · simp
  · rintro ⟨offBytes, sizeBytes, s, rfl, hoff, hsize, rfl⟩
    exact ⟨off, _, ⟨offBytes, off, rfl, hoff, by simp⟩, s, rest', ⟨sizeBytes, s, rfl, hsize, by simp⟩, rfl, rfl, rfl⟩

/-! ### The loop over the opcodes -/

/-- One round of `deltaOps`: the bytes left and the output after an opcode. -/
def deltaRound (base : Bytes) (dst : ℕ) (op : UInt8) (rest out : Bytes) : Except PackError (Bytes × Bytes) :=
  if op.toNat &&& 0x80 ≠ 0 then do
    let (off, size, rest) ← copyOperands op.toNat rest
    let src ← okOr (slice base off (off + size)) (.config "delta copy out of base bounds")
    refuseIf (src.length > dst - out.length) (.config "delta output runs past its declared size")
    return (rest, out ++ src)
  else if op.toNat ≠ 0 then do
    let ins ← okOr (slice rest 0 op.toNat) (.config "delta insert past end")
    refuseIf (op.toNat > dst - out.length) (.config "delta output runs past its declared size")
    return (rest.drop op.toNat, out ++ ins)
  else .error (.config "reserved delta opcode 0")

theorem deltaOps_cons (base : Bytes) (dst : ℕ) (op : UInt8) (rest out : Bytes) :
    deltaOps base dst (op :: rest) out = deltaRound base dst op rest out >>= fun s => deltaOps base dst s.1 s.2 := by
  rw [deltaOps, deltaRound]
  split
  · split
    · next h => rw [h, error_bind, error_bind]
    · next off size rest' h =>
      rw [h, ok_bind]
      dsimp only
      cases slice base off (off + size) with
      | none => simp only [okOr, elim_none, error_bind]
      | some src =>
        simp only [okOr, elim_some, ok_bind, refuseIf]
        split
        · rw [error_bind, error_bind]
        · rfl
  · split
    · cases slice rest 0 op.toNat with
      | none => simp only [okOr, elim_none, error_bind]
      | some ins =>
        simp only [okOr, elim_some, ok_bind, refuseIf]
        split
        · rw [error_bind, error_bind]
        · rfl
    · rfl

theorem slice_zero_eq_some {buf : Bytes} :
    slice buf 0 n = some piece ↔ ∃ rest, buf = piece ++ rest ∧ piece.length = n := by
  rw [slice]
  split
  · next h =>
    rw [drop_zero, some.injEq]
    constructor
    · rintro rfl
      exact ⟨buf.drop n, (take_append_drop n buf).symm, by rw [length_take, min_eq_left h.2]⟩
    · rintro ⟨rest, rfl, rfl⟩
      exact take_left
  · next h =>
    refine iff_of_false (some_ne_none piece).symm ?_
    rintro ⟨rest, rfl, rfl⟩
    exact h ⟨Nat.zero_le _, by rw [length_append]; omega⟩

/-- A round takes one opcode and puts out what it says, unless that runs past the output's size. -/
theorem deltaRound_eq_ok {op : UInt8} (hout : out.length ≤ dst) :
    deltaRound base dst op rest out = .ok (rest', out') ↔ ∃ bs piece, rest = bs ++ rest' ∧
      DeltaOp base (op :: bs) piece ∧ out' = out ++ piece ∧ out'.length ≤ dst := by
  have hfits : ∀ piece : Bytes, ¬piece.length > dst - out.length ↔ (out ++ piece).length ≤ dst := fun piece => by
    rw [length_append]
    omega
  rw [deltaRound]
  simp only [Ne, and_high_eq_zero, not_lt]
  by_cases hop : 0x80 ≤ op.toNat
  · rw [if_pos hop]
    simp only [bind_eq_ok, copyOperands_eq_ok, okOr_eq_ok, refuseIf_eq_ok, hfits, pure_eq_ok,
      Prod.mk.injEq, Prod.exists]
    constructor
    · rintro ⟨off, size, rest', ⟨offBytes, sizeBytes, s, rfl, hoff, hsize, rfl⟩, piece, hpiece, -, hlen, rfl, rfl⟩
      exact ⟨offBytes ++ sizeBytes, piece, (append_assoc _ _ _).symm, .copy hop hoff hsize hpiece, rfl, hlen⟩
    · rintro ⟨bs, piece, rfl, h, rfl, hlen⟩
      cases h with
      | copy _ hoff hsize hpiece =>
        exact ⟨_, _, rest', ⟨_, _, _, append_assoc _ _ _, hoff, hsize, rfl⟩, piece, hpiece, (), hlen, rfl, rfl⟩
      | insert hlt => omega
  · rw [if_neg hop]
    split
    · next hne =>
      simp only [bind_eq_ok, okOr_eq_ok, slice_zero_eq_some, refuseIf_eq_ok, pure_eq_ok, Prod.mk.injEq]
      constructor
      · rintro ⟨piece, ⟨rest, rfl, hlen⟩, -, hfit, rfl, rfl⟩
        rw [← hlen] at hfit ⊢
        rw [drop_left]
        exact ⟨piece, piece, rfl, .insert (Nat.lt_of_not_le hop) hne hlen, rfl, (hfits piece).mp hfit⟩
      · rintro ⟨bs, piece, rfl, h, rfl, hlen⟩
        cases h with
        | copy hle => exact absurd hle hop
        | insert hlt _ hpiece =>
          refine ⟨_, ⟨rest', rfl, hpiece⟩, (), ?_, ?_, rfl⟩
          · rw [← hpiece]
            exact (hfits _).mpr hlen
          · rw [← hpiece, drop_left]
    · next hzero =>
      refine iff_of_false (by simp) ?_
      rintro ⟨bs, piece, -, h, -⟩
      cases h with
      | copy hle => exact hop hle
      | insert hlt hne => exact hzero hne

theorem DeltaOp.ne_nil (h : DeltaOp base bs piece) : bs ≠ [] := by
  cases h <;> exact cons_ne_nil _ _

theorem DeltaOps.eq_nil (h : DeltaOps base [] out) : out = [] := by
  generalize hops : ([] : Bytes) = ops at h
  cases h with
  | nil => rfl
  | cons h => exact absurd (append_eq_nil_iff.mp hops.symm).1 h.ne_nil

theorem DeltaOps.exists_cons {op : UInt8} (h : DeltaOps base (op :: rest) out) :
    ∃ bs piece rest' out', rest = bs ++ rest' ∧ DeltaOp base (op :: bs) piece ∧ DeltaOps base rest' out' ∧
      out = piece ++ out' := by
  generalize hops : op :: rest = ops at h
  cases h with
  | nil => exact absurd hops (cons_ne_nil _ _)
  | @cons bs piece rest' out' h hrest =>
    obtain ⟨b, bs, rfl⟩ := exists_cons_of_ne_nil h.ne_nil
    obtain ⟨rfl, rfl⟩ := List.cons.inj hops
    exact ⟨bs, piece, rest', out', rfl, h, hrest, rfl⟩

theorem deltaOps_eq_ok (hout : out.length ≤ dst) :
    deltaOps base dst ops out = .ok out' ↔ ∃ tail, DeltaOps base ops tail ∧ out' = out ++ tail ∧ out'.length ≤ dst := by
  induction hn : ops.length using Nat.strong_induction_on generalizing ops out with
  | _ n ih =>
    cases ops with
    | nil =>
      rw [deltaOps, Except.ok.injEq]
      constructor
      · rintro rfl
        exact ⟨[], .nil, (append_nil out).symm, hout⟩
      · rintro ⟨tail, htail, rfl, -⟩
        rw [htail.eq_nil, append_nil]
    | cons op rest =>
      rw [deltaOps_cons, bind_eq_ok]
      simp only [Prod.exists, deltaRound_eq_ok hout]
      constructor
      · rintro ⟨rest', out'', ⟨bs, piece, rfl, hop, rfl, hlen⟩, h⟩
        obtain ⟨tail, htail, rfl, hlen'⟩ := (ih _ (by simp at hn; omega) hlen rfl).mp h
        refine ⟨piece ++ tail, .cons hop htail, by rw [append_assoc], hlen'⟩
      · rintro ⟨tail, htail, rfl, hlen⟩
        obtain ⟨bs, piece, rest', tail', rfl, hop, hrest, rfl⟩ := htail.exists_cons
        have hlen' : (out ++ piece).length ≤ dst := by
          rw [← append_assoc, length_append] at hlen
          omega
        refine ⟨rest', out ++ piece, ⟨bs, piece, rfl, hop, rfl, hlen'⟩, ?_⟩
        exact (ih _ (by simp at hn; omega) hlen' rfl).mpr ⟨tail', hrest, (append_assoc _ _ _).symm, hlen⟩

/-! ### What the opcodes can produce -/

/-- The most that an opcode puts out for each of its bytes. -/
def perOpByte (base : Bytes) : ℕ := max 1 (min base.length 0xffffff)

theorem length_opFlags (op bit n : ℕ) : (opFlags op bit n).length = n := by
  rw [opFlags, length_map, length_range']

theorem DeltaOp.length_le (h : DeltaOp base bs piece) : piece.length ≤ bs.length * perOpByte base := by
  cases h with
  | @copy op offBytes sizeBytes _ off size hop hoff hsize hpiece =>
    have hlt := hsize.lt
    rw [length_opFlags] at hlt
    have hpos : 1 ≤ (op :: (offBytes ++ sizeBytes)).length := by simp
    have hmost : (if size = 0 then 0x10000 else size) ≤ 0xffffff := by split <;> omega
    refine le_trans ?_ (Nat.mul_le_mul_right _ hpos)
    generalize (if size = 0 then 0x10000 else size) = n at hmost hpiece
    rw [slice] at hpiece
    split at hpiece
    · rw [← some.inj hpiece, length_drop, length_take, perOpByte]
      omega
    · exact absurd hpiece.symm (some_ne_none piece)
  | insert =>
    have hpos : 1 ≤ perOpByte base := Nat.le_max_left _ _
    rw [length_cons]
    calc piece.length ≤ (piece.length + 1) * 1 := by omega
      _ ≤ (piece.length + 1) * perOpByte base := Nat.mul_le_mul_left _ hpos

theorem DeltaOps.length_le (h : DeltaOps base ops out) : out.length ≤ ops.length * perOpByte base := by
  induction h with
  | nil => exact Nat.zero_le _
  | cons h _ ih =>
    rw [length_append, length_append, add_mul]
    exact Nat.add_le_add h.length_le ih

/-- What `applyDelta` reads and checks before the first opcode: the output's size, and the opcodes. -/
def deltaSizes (base delta : Bytes) (budget : ℕ) : Except PackError (ℕ × Bytes) := do
  let (src, rest) ← readDeltaSize delta 0 0
  refuseIf (src ≠ base.length) (.config "delta source size does not match its base")
  let (dst, rest) ← readDeltaSize rest 0 0
  let canProduce := satMul rest.length (perOpByte base)
  refuseIf (dst > min canProduce budget) (.config "delta declares more output than it can produce")
  return (dst, rest)

theorem applyDelta_eq_ok : applyDelta base delta budget = .ok out ↔
    ∃ ops, deltaSizes base delta budget = .ok (out.length, ops) ∧ deltaOps base out.length ops [] = .ok out := by
  simp only [applyDelta, deltaSizes, bind_eq_ok, refuseIf_eq_ok, pure_eq_ok, not_not, Prod.exists, Prod.mk.injEq]
  constructor
  · rintro ⟨src, rest, hsrc, u, hbase, dst, ops, hdst, v, hfits, out, hops, w, rfl, rfl⟩
    exact ⟨ops, ⟨src, rest, hsrc, u, hbase, _, ops, hdst, v, hfits, rfl, rfl⟩, hops⟩
  · rintro ⟨ops, ⟨src, rest, hsrc, u, hbase, dst, ops, hdst, v, hfits, rfl, rfl⟩, hops⟩
    exact ⟨src, rest, hsrc, u, hbase, _, ops, hdst, v, hfits, out, hops, (), rfl, rfl⟩

theorem readDeltaSize_zero_eq_ok : readDeltaSize d 0 0 = .ok (v, rest) ↔
    ∃ bs, d = bs ++ rest ∧ SizeVarint bs v ∧ v < 2 ^ 64 ∧ bs.length ≤ 10 := by
  rw [readDeltaSize_eq_ok (by decide)]
  simp only [Nat.pow_zero, mul_one, zero_add]
  constructor
  · rintro ⟨bs, v, rfl, hsize, rfl, hlen, hfit⟩
    exact ⟨bs, rfl, hsize, hfit, by omega⟩
  · rintro ⟨bs, rfl, hsize, hfit, hlen⟩
    exact ⟨bs, v, rfl, hsize, rfl, by omega, hfit⟩

theorem deltaSizes_eq_ok : deltaSizes base delta budget = .ok (dst, ops) ↔
    ∃ srcBytes dstBytes, delta = srcBytes ++ (dstBytes ++ ops) ∧
      (SizeVarint srcBytes base.length ∧ base.length < 2 ^ 64 ∧ srcBytes.length ≤ 10) ∧
      (SizeVarint dstBytes dst ∧ dst < 2 ^ 64 ∧ dstBytes.length ≤ 10) ∧
      dst ≤ ops.length * perOpByte base ∧ dst ≤ budget := by
  simp only [deltaSizes, bind_eq_ok, refuseIf_eq_ok, pure_eq_ok, not_not, Prod.exists, Prod.mk.injEq,
    readDeltaSize_zero_eq_ok, satMul, u64Max, gt_iff_lt, Nat.not_lt, Nat.le_min]
  constructor
  · rintro ⟨_, rest, ⟨srcBytes, rfl, hsrc⟩, -, rfl, _, _, ⟨dstBytes, rfl, hdst⟩, -, ⟨⟨hfits, -⟩, hbudget⟩, rfl, rfl⟩
    exact ⟨srcBytes, dstBytes, rfl, hsrc, hdst, hfits, hbudget⟩
  · rintro ⟨srcBytes, dstBytes, rfl, hsrc, hdst, hfits, hbudget⟩
    refine ⟨_, _, ⟨srcBytes, rfl, hsrc⟩, (), rfl, _, _, ⟨dstBytes, rfl, hdst⟩, (), ⟨⟨hfits, ?_⟩, hbudget⟩, rfl, rfl⟩
    have := hdst.2.1
    omega

/-! ### What `applyDelta` does -/

/-- The opcodes to come and the output, at a round of the loop that starts with `ops`. -/
inductive DeltaState (base : Bytes) (dst : ℕ) (ops : Bytes) : Bytes → Bytes → Prop
  | start : DeltaState base dst ops ops []
  | round {op : UInt8} {rest out rest' out' : Bytes} (h : DeltaState base dst ops (op :: rest) out)
      (hround : deltaRound base dst op rest out = .ok (rest', out')) : DeltaState base dst ops rest' out'

/-- The output never runs past its size, so that what is left of it is no negative number. -/
theorem DeltaState.length_le (h : DeltaState base dst ops rest out) : out.length ≤ dst := by
  induction h with
  | start => exact Nat.zero_le _
  | round _ hround ih =>
    obtain ⟨-, -, -, -, -, hlen⟩ := (deltaRound_eq_ok ih).mp hround
    exact hlen

theorem applyDelta_iff_decodes {delta : Bytes} {budget : ℕ} :
    applyDelta base delta budget = .ok out ↔ Decodes (fun bs => bs.length ≤ 10) base delta budget out := by
  have hnil : ([] : Bytes).length ≤ out.length := Nat.zero_le _
  rw [applyDelta_eq_ok]
  simp only [deltaSizes_eq_ok, deltaOps_eq_ok hnil, nil_append, Decodes]
  constructor
  · rintro ⟨ops, ⟨srcBytes, dstBytes, hdelta, hsrc, hdst, -, hbudget⟩, tail, hops, rfl, -⟩
    exact ⟨srcBytes, dstBytes, ops, hdelta, hsrc, hdst, hops, hbudget⟩
  · rintro ⟨srcBytes, dstBytes, ops, hdelta, hsrc, hdst, hops, hbudget⟩
    exact ⟨ops, ⟨srcBytes, dstBytes, hdelta, hsrc, hdst, hops.length_le, hbudget⟩, out, hops, rfl, le_rfl⟩

/-- A delta is decoded exactly where it says an output, with sizes of ten bytes at most. No more is put out on the way
than the output's size and the budget. -/
theorem applyDelta_spec (base delta : Bytes) (budget : ℕ) :
    (∀ out, applyDelta base delta budget = .ok out ↔ Decodes (fun bs => bs.length ≤ 10) base delta budget out) ∧
      ∀ dst ops, deltaSizes base delta budget = .ok (dst, ops) → ∀ rest out, DeltaState base dst ops rest out →
        out.length ≤ min budget dst := by
  refine ⟨fun out => applyDelta_iff_decodes, fun dst ops hsizes rest out hstate => ?_⟩
  obtain ⟨-, -, -, -, -, -, hbudget⟩ := deltaSizes_eq_ok.mp hsizes
  exact Nat.le_min.mpr ⟨hstate.length_le.trans hbudget, hstate.length_le⟩

/-- A size of 0 in eleven bytes is refused. -/
theorem applyDelta_refuses_padded : Decodes (fun _ => True) [] (replicate 10 0x80 ++ [0, 0]) 0 [] ∧
    applyDelta [] (replicate 10 0x80 ++ [0, 0]) 0 = .error (.config "delta size varint overflow") := by
  have hzero : SizeVarint [0] 0 := .last 0 (by decide)
  have hmore : ∀ {bs : Bytes}, SizeVarint bs 0 → SizeVarint (0x80 :: bs) 0 := fun h => .more (b := 0x80) (by decide) h
  refine ⟨⟨replicate 10 0x80 ++ [0], [0], [], rfl, ⟨?_, by decide, trivial⟩, ⟨hzero, by decide, trivial⟩, .nil, le_rfl⟩,
    by decide⟩
  exact hmore (hmore (hmore (hmore (hmore (hmore (hmore (hmore (hmore (hmore hzero)))))))))

end DashForge
