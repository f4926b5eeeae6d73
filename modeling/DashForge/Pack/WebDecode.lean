import DashForge.Pack.DeltaFormat
import Mathlib

/-!
# Packs in the browser

The browser decodes packs with code of its own (`lib/browse/pack.ts`). Its back-pointers are those of `parseOfsBase`, but
it reads sizes with the 32-bit shifts of JavaScript, which take the shift modulo 32 and drop the bits that leave the word
(`orShl32`), and it takes a delta whatever size of base the delta states. So it shows objects that the command line
refuses, and these only: `webDecode_iff` says where the two agree.
-/

namespace DashForge.Web

open List Option Except

variable {n r v w shift p pos ofs after limit : ℕ} {bs l rest rest' base delta ops piece out buf : Bytes} {op : UInt8}

/-- Why the browser does not decode a pack. -/
inductive WebPackError where
  | error (message : String)
  | tooLarge (size limit : ℕ)
deriving DecidableEq, Repr

/-! ### What the browser does -/

/-- `r |= bits << shift`, read as an unsigned number. -/
def orShl32 (r bits shift : ℕ) : ℕ := r ||| bits <<< (shift % 32) % 2 ^ 32

/-- The groups of a size varint, `r` so far, and the bytes after it. -/
def readGroups (truncated : String) : Bytes → ℕ → ℕ → Except WebPackError (ℕ × Bytes)
  | [], _, _ => .error (.error truncated)
  | b :: rest, r, shift =>
    let r := orShl32 r (b.toNat &&& 0x7f) shift
    if b.toNat &&& 0x80 = 0 then .ok (r, rest) else readGroups truncated rest r (shift + 7)

/-- The type code and the size of an object header, and the position after it. -/
def parseObjHeader (buf : Bytes) (pos : ℕ) : Except WebPackError (ℕ × ℕ × ℕ) :=
  match buf.drop pos with
  | [] => .error (.error "truncated object header")
  | c :: rest => do
    let t := c.toNat >>> 4 &&& 7
    let size := c.toNat &&& 0x0f
    let (size, rest') ← (if c.toNat &&& 0x80 = 0 then .ok (size, rest)
      else readGroups "truncated object size varint" rest size 4)
    return (t, size, pos + 1 + (rest.length - rest'.length))

/-- Past this a distance is no offset into a pack. -/
def ofsMax : ℕ := 2 ^ 46

/-- The rest of a back-pointer: `ofs` so far and the next byte's position. A number is exact up to 2 ^ 53, so the test
holds of what the sum rounds to as well. -/
def ofsVarint : Bytes → ℕ → ℕ → Except WebPackError (ℕ × ℕ)
  | [], _, _ => .error (.error "truncated OFS base varint")
  | c :: rest, ofs, p => do
    let ofs := (ofs + 1) * 128 + (c.toNat &&& 0x7f)
    refuseIf (ofs > ofsMax) (.error "OFS base offset out of range")
    if c.toNat &&& 0x80 ≠ 0 then ofsVarint rest ofs (p + 1) else .ok (ofs, p + 1)

/-- The distance of a back-pointer, and the position after it. -/
def parseOfsBase (buf : Bytes) (pos : ℕ) : Except WebPackError (ℕ × ℕ) :=
  match buf.drop pos with
  | [] => .error (.error "truncated OFS base varint")
  | c :: rest => do
    let ofs := c.toNat &&& 0x7f
    let (ofs, p) ← (if c.toNat &&& 0x80 ≠ 0 then ofsVarint rest ofs (pos + 1) else .ok (ofs, pos + 1))
    refuseIf (ofs = 0) (.error "OFS base offset 0 names the delta itself")
    return (ofs, p)

/-- The bytes left after an instruction, and what it builds. An operand's shifts stay within the word. -/
def runInstruction (base : Bytes) (op : UInt8) (rest : Bytes) : Except WebPackError (Bytes × Bytes) :=
  if op.toNat &&& 0x80 ≠ 0 then do
    let (off, rest) ← (copyOperand op.toNat 0 4 0 0 rest).mapError fun _ => .error "truncated delta copy offset"
    let (size, rest) ← (copyOperand op.toNat 4 3 0 0 rest).mapError fun _ => .error "truncated delta copy size"
    let src ← okOr (slice base off (off + if size = 0 then 0x10000 else size)) (.error "delta copy out of base bounds")
    return (rest, src)
  else if op.toNat ≠ 0 then do
    let ins ← okOr (slice rest 0 op.toNat) (.error "delta insert past end")
    return (rest.drop op.toNat, ins)
  else .error (.error "reserved delta opcode 0")

/-- What at most `n` instructions build after `out`. -/
def runDelta (base : Bytes) : ℕ → Bytes → Bytes → Except WebPackError Bytes
  | _, [], out => .ok out
  | 0, _ :: _, _ => .error (.error "")
  | n + 1, op :: rest, out => do
    let (rest, piece) ← runInstruction base op rest
    runDelta base n rest (out ++ piece)

/-- The most an object is decoded to. -/
def decodeMaxBytes : ℕ := 2 ^ 30

def applyDelta (base delta : Bytes) (maxBytes : ℕ) : Except WebPackError Bytes := do
  let (_, rest) ← readGroups "unexpected end of delta size" delta 0 0
  let (dst, rest) ← readGroups "unexpected end of delta size" rest 0 0
  let limit := min maxBytes decodeMaxBytes
  refuseIf (dst > limit) (.tooLarge dst limit)
  let out ← runDelta base rest.length rest []
  refuseIf (out.length ≠ dst) (.error "delta output size mismatch")
  return out

/-! ### Sizes -/

/-- The groups of a varint in a word of 32 bits. -/
def groups32 : Bytes → ℕ → ℕ → ℕ
  | [], r, _ => r
  | b :: bs, r, shift => groups32 bs (orShl32 r (b.toNat &&& 0x7f) shift) (shift + 7)

theorem orShl32_eq {x : ℕ} (hr : r < 2 ^ shift) (hfit : r + x * 2 ^ shift < 2 ^ 32) :
    orShl32 r x shift = r + x * 2 ^ shift := by
  rcases lt_or_ge shift 32 with hlt | hge
  · rw [orShl32, Nat.mod_eq_of_lt hlt, Nat.shiftLeft_eq, Nat.mod_eq_of_lt (by omega), or_mul_two_pow hr]
  · -- past the word there is room for nothing but zeros
    have hpow : 2 ^ 32 ≤ 2 ^ shift := Nat.pow_le_pow_right (by decide) hge
    obtain rfl : x = 0 := by
      by_contra hx
      have := Nat.le_mul_of_pos_left (2 ^ shift) (Nat.pos_of_ne_zero hx)
      omega
    rw [orShl32, Nat.zero_shiftLeft, Nat.zero_mod, Nat.or_zero, zero_mul, add_zero]

/-- A number that fits in the word is read right. -/
theorem groups32_eq (h : SizeVarint bs v) (hr : r < 2 ^ shift) (hfit : r + v * 2 ^ shift < 2 ^ 32) :
    groups32 bs r shift = r + v * 2 ^ shift := by
  induction h generalizing r shift with
  | last b hb => rw [groups32, groups32, and_low, Nat.mod_eq_of_lt hb, orShl32_eq hr hfit]
  | @more b bs v hb _ ih =>
    have hlt := b.toNat_lt
    have hsum : r + (b.toNat - 0x80 + 0x80 * v) * 2 ^ shift =
        r + (b.toNat - 0x80) * 2 ^ shift + v * 2 ^ (shift + 7) := by ring
    rw [hsum] at hfit ⊢
    have hpow : 2 ^ (shift + 7) = 0x80 * 2 ^ shift := by ring
    rw [groups32, and_low, show b.toNat % 0x80 = b.toNat - 0x80 by omega,
      orShl32_eq hr ((Nat.le_add_right _ _).trans_lt hfit)]
    have hnext : r + (b.toNat - 0x80) * 2 ^ shift < 2 ^ (shift + 7) := by
      rw [hpow]
      exact add_mul_two_pow_lt hr (by omega)
    exact ih hnext hfit

theorem readGroups_eq_ok {truncated : String} : readGroups truncated l r shift = .ok (w, rest) ↔
    ∃ bs v, l = bs ++ rest ∧ SizeVarint bs v ∧ w = groups32 bs r shift := by
  induction l generalizing r shift with
  | nil =>
    refine iff_of_false (by simp [readGroups]) ?_
    rintro ⟨bs, v, hnil, hsize, -⟩
    exact hsize.ne_nil (append_eq_nil_iff.mp hnil.symm).1
  | cons b l ih =>
    simp only [readGroups, and_high_eq_zero]
    split
    · next hlast =>
      simp only [ok.injEq, Prod.mk.injEq]
      constructor
      · rintro ⟨rfl, rfl⟩
        exact ⟨[b], _, rfl, .last b hlast, rfl⟩
      · rintro ⟨bs, v, hd, hsize, rfl⟩
        cases hsize with
        | last c => exact ⟨by rw [(List.cons.inj hd).1]; rfl, (List.cons.inj hd).2⟩
        | more hmore =>
          obtain ⟨rfl, -⟩ := List.cons.inj hd
          omega
    · next hmore =>
      rw [ih]
      constructor
      · rintro ⟨bs, v, rfl, hsize, rfl⟩
        exact ⟨b :: bs, _, rfl, .more (Nat.le_of_not_lt hmore) hsize, rfl⟩
      · rintro ⟨bs, v, hd, hsize, rfl⟩
        cases hsize with
        | last c hlast =>
          obtain ⟨rfl, -⟩ := List.cons.inj hd
          exact absurd hlast hmore
        | more _ hsize =>
          obtain ⟨rfl, rfl⟩ := List.cons.inj hd
          exact ⟨_, _, rfl, hsize, rfl⟩

/-- The bytes tell where a varint ends. -/
theorem eq_of_sizeVarint {bs' : Bytes} {v' : ℕ} (h : SizeVarint bs v) (h' : SizeVarint bs' v')
    (heq : bs ++ rest = bs' ++ rest') : bs = bs' ∧ v = v' ∧ rest = rest' := by
  induction h generalizing bs' v' with
  | last b hb =>
    cases h' with
    | last c =>
      obtain ⟨rfl, rfl⟩ := List.cons.inj heq
      exact ⟨rfl, rfl, rfl⟩
    | more hc =>
      obtain ⟨rfl, -⟩ := List.cons.inj heq
      omega
  | more hb _ ih =>
    cases h' with
    | last c hc =>
      obtain ⟨rfl, -⟩ := List.cons.inj heq
      omega
    | more _ hrest =>
      obtain ⟨rfl, htail⟩ := List.cons.inj heq
      obtain ⟨rfl, rfl, rfl⟩ := ih hrest htail
      exact ⟨rfl, rfl, rfl⟩

/-! ### Headers -/

theorem sizeVarint_eq_ok : sizeVarint l r shift p = .ok (w, after) ↔
    ∃ rest, readDeltaSize l r shift = .ok (w, rest) ∧ after + rest.length = p + l.length := by
  induction l generalizing r shift p with
  | nil => simp [sizeVarint, readDeltaSize]
  | cons b l ih =>
    simp only [sizeVarint, readDeltaSize]
    cases shlExact (b.toNat &&& 0x7f) shift with
    | none => simp [okOr]
    | some x =>
      simp only [okOr, elim_some, ok_bind, ne_eq, ite_not]
      split
      · simp only [ok.injEq, Prod.mk.injEq, length_cons]
        constructor
        · rintro ⟨hw, hp⟩
          exact ⟨l, ⟨hw, rfl⟩, by omega⟩
        · rintro ⟨_, ⟨hw, rfl⟩, hp⟩
          exact ⟨hw, by omega⟩
      · rw [ih, length_cons, add_assoc, add_comm 1]

/-- A header's size that has no more than nine bytes beside the first and fits in 32 bits. -/
def HeaderFits (l : Bytes) : Prop :=
  ∀ c bs v rest, l = c :: (bs ++ rest) → 0x80 ≤ c.toNat → SizeVarint bs v →
    bs.length ≤ 9 ∧ c.toNat % 16 + 16 * v < 2 ^ 32

theorem and_low_nibble (c : UInt8) : c.toNat &&& 0x0f = c.toNat % 16 := Nat.and_two_pow_sub_one_eq_mod c.toNat 4

/-- A header of more bytes than one, as both read it. -/
theorem parseObjHeader_eq_ok (t size after : ℕ) {c : UInt8} (hl : buf.drop pos = c :: (bs ++ rest))
    (hc : 0x80 ≤ c.toNat)
    (hsize : SizeVarint bs v) : (parseObjHeader buf pos = .ok (t, size, after) ↔
      t = c.toNat >>> 4 &&& 7 ∧ size = groups32 bs (c.toNat % 16) 4 ∧ after = pos + 1 + bs.length) ∧
    (DashForge.parseObjHeader buf pos = .ok (t, size, after) ↔
      t = c.toNat >>> 4 &&& 7 ∧ size = c.toNat % 16 + 16 * v ∧ after = pos + 1 + bs.length ∧ bs.length ≤ 9 ∧
        v * 2 ^ 4 < 2 ^ 64) := by
  have hmore : ¬c.toNat &&& 0x80 = 0 := fun h => absurd ((and_high_eq_zero c).mp h) (not_lt.mpr hc)
  have hlow : c.toNat % 16 < 2 ^ 4 := Nat.mod_lt _ (by decide)
  have hgroups : readGroups "truncated object size varint" (bs ++ rest) (c.toNat % 16) 4 = .ok (_, rest) :=
    readGroups_eq_ok.mpr ⟨bs, v, rfl, hsize, rfl⟩
  constructor
  · rw [parseObjHeader, hl]
    simp only [hmore, if_false, and_low_nibble, hgroups, ok_bind, length_append, Nat.add_sub_cancel, pure_eq_ok,
      Prod.mk.injEq, @eq_comm _ t, @eq_comm _ size, @eq_comm _ after]
  · rw [DashForge.parseObjHeader, hl]
    simp only [objHeader, sizeAfter, ne_eq, hmore, not_false_eq_true, if_true, and_low_nibble, bind_eq_ok, pure_eq_ok,
      Prod.exists, Prod.mk.injEq, sizeVarint_eq_ok, readDeltaSize_eq_ok hlow, length_append]
    constructor
    · rintro ⟨_, _, ⟨rest', ⟨bs', v', heq, hsize', rfl, hlen, hfit⟩, hafter⟩, rfl, rfl, rfl⟩
      obtain ⟨rfl, rfl, rfl⟩ := eq_of_sizeVarint hsize hsize' heq
      exact ⟨rfl, by ring, by omega, by omega, hfit⟩
    · rintro ⟨rfl, rfl, rfl, hlen, hfit⟩
      exact ⟨_, _, ⟨rest, ⟨bs, v, rfl, hsize, by ring, by omega, hfit⟩, by omega⟩, rfl, rfl, rfl⟩

/-- Object headers are read alike exactly where their sizes fit. -/
theorem parseObjHeader_agrees (buf : Bytes) (pos : ℕ) : (∀ t size after, parseObjHeader buf pos = .ok (t, size, after) ↔
      DashForge.parseObjHeader buf pos = .ok (t, size, after) ∧ size < 2 ^ 32) ↔ HeaderFits (buf.drop pos) := by
  constructor
  · intro hagree c bs v rest hl hc hsize
    have hrust := (hagree _ _ _).mp ((parseObjHeader_eq_ok _ _ _ hl hc hsize).1.mpr ⟨rfl, rfl, rfl⟩)
    obtain ⟨-, hvalue, -, hlen, -⟩ := (parseObjHeader_eq_ok _ _ _ hl hc hsize).2.mp hrust.1
    exact ⟨hlen, hvalue ▸ hrust.2⟩
  · intro hfits t size after
    cases hl : buf.drop pos with
    | nil => simp [parseObjHeader, DashForge.parseObjHeader, hl, objHeader]
    | cons c l =>
      rcases lt_or_ge c.toNat 0x80 with hc | hc
      · have hlast := (and_high_eq_zero c).mpr hc
        have hlow : c.toNat &&& 0x0f < 2 ^ 32 := by
          rw [and_low_nibble]
          omega
        rw [parseObjHeader, DashForge.parseObjHeader, hl]
        simp only [objHeader, sizeAfter, hlast, if_true, ne_eq, not_true_eq_false, if_false, ok_bind, Nat.sub_self,
          Nat.add_zero, pure_eq_ok, Prod.mk.injEq]
        exact ⟨fun h => ⟨h, h.2.1 ▸ hlow⟩, And.left⟩
      · by_cases hsize : ∃ bs v rest, l = bs ++ rest ∧ SizeVarint bs v
        · obtain ⟨bs, v, rest, rfl, hsize⟩ := hsize
          obtain ⟨hweb, hrust⟩ := parseObjHeader_eq_ok t size after hl hc hsize
          obtain ⟨hlen, hfit⟩ := hfits c bs v rest hl hc hsize
          have hvalue := groups32_eq hsize (show c.toNat % 16 < 2 ^ 4 from Nat.mod_lt _ (by decide)) (by omega)
          rw [hweb, hrust, hvalue]
          constructor
          · rintro ⟨rfl, rfl, rfl⟩
            exact ⟨⟨rfl, by ring, rfl, hlen, by omega⟩, by omega⟩
          · rintro ⟨⟨rfl, rfl, rfl, -, -⟩, -⟩
            exact ⟨rfl, by ring, rfl⟩
        · -- the varint has no end
          have hmore : ¬c.toNat &&& 0x80 = 0 := fun h => absurd ((and_high_eq_zero c).mp h) (not_lt.mpr hc)
          have hlow : c.toNat % 16 < 2 ^ 4 := Nat.mod_lt _ (by decide)
          refine iff_of_false (fun h => ?_) ?_
          · rw [parseObjHeader, hl] at h
            simp only [hmore, if_false, bind_eq_ok, Prod.exists] at h
            obtain ⟨_, rest, hgroups, -⟩ := h
            obtain ⟨bs, v, heq, hvarint, -⟩ := readGroups_eq_ok.mp hgroups
            exact hsize ⟨bs, v, rest, heq, hvarint⟩
          · rintro ⟨h, -⟩
            rw [DashForge.parseObjHeader, hl] at h
            simp only [objHeader, sizeAfter, ne_eq, hmore, not_false_eq_true, if_true, bind_eq_ok, Prod.exists,
              sizeVarint_eq_ok, and_low_nibble, readDeltaSize_eq_ok hlow] at h
            obtain ⟨_, _, ⟨rest, ⟨bs, v, heq, hvarint, -⟩, -⟩, -⟩ := h
            exact hsize ⟨bs, v, rest, heq, hvarint⟩

/-! ### Back-pointers -/

theorem lt_of_ofsVarint (h : DashForge.ofsVarint l ofs p = .ok (w, after)) : ofs < w := by
  induction l generalizing ofs p with
  | nil => cases h
  | cons c l ih =>
    simp only [DashForge.ofsVarint, checkedAdd, checkedMul, bind_eq_ok, okOr_eq_ok, bind_eq_some_iff,
      ite_none_right_eq_some, some.injEq] at h
    obtain ⟨_, ⟨_, ⟨-, rfl⟩, -, rfl⟩, h⟩ := h
    have hle : (ofs + 1) * 128 ≤ (ofs + 1) * 128 ||| c.toNat &&& 0x7f := Nat.left_le_or
    split at h
    · exact lt_of_lt_of_le (by omega) (ih h).le
    · obtain ⟨rfl, -⟩ := Prod.mk.inj (ok.inj h)
      omega

/-- Up to the largest distance nothing leaves 64 bits. -/
theorem ofsVarint_eq_ok (hofs : ofs ≤ ofsMax) : ofsVarint l ofs p = .ok (w, after) ↔
    DashForge.ofsVarint l ofs p = .ok (w, after) ∧ w ≤ ofsMax := by
  induction l generalizing ofs p with
  | nil => simp [ofsVarint, DashForge.ofsVarint]
  | cons c l ih =>
    have hlow : c.toNat &&& 0x7f < 2 ^ 7 := by
      rw [and_low]
      exact Nat.mod_lt _ (by decide)
    have hor : (ofs + 1) * 128 ||| c.toNat &&& 0x7f = (ofs + 1) * 128 + (c.toNat &&& 0x7f) :=
      (Nat.or_comm _ _).trans ((or_mul_two_pow hlow (ofs + 1)).trans (add_comm _ _))
    have hmax : (ofs + 1) * 128 ≤ u64Max := by
      simp only [ofsMax, u64Max] at *
      omega
    simp only [ofsVarint, DashForge.ofsVarint, checkedAdd, checkedMul, if_pos (show ofs + 1 ≤ u64Max by omega),
      if_pos hmax, bind_some, okOr, elim_some, ok_bind, hor]
    by_cases hfar : (ofs + 1) * 128 + (c.toNat &&& 0x7f) > ofsMax
    · rw [refuseIf, if_pos hfar, error_bind]
      refine iff_of_false (by simp) ?_
      rintro ⟨h, hle⟩
      split at h
      · exact absurd (lt_of_ofsVarint h) (by omega)
      · obtain ⟨rfl, -⟩ := Prod.mk.inj (ok.inj h)
        omega
    · rw [refuseIf, if_neg hfar, ok_bind]
      split
      · exact ih (Nat.le_of_not_lt hfar)
      · simp only [ok.injEq, Prod.mk.injEq]
        exact ⟨fun h => ⟨h, h.1 ▸ Nat.le_of_not_lt hfar⟩, And.left⟩

theorem parseOfsBase_eq_ok : parseOfsBase buf pos = .ok (ofs, after) ↔
    DashForge.parseOfsBase buf pos = .ok (ofs, after) ∧ ofs ≤ ofsMax := by
  rw [parseOfsBase, DashForge.parseOfsBase]
  cases buf.drop pos with
  | nil => simp [ofsBase]
  | cons c l =>
    have hlow : c.toNat &&& 0x7f ≤ ofsMax := by
      rw [and_low, ofsMax]
      omega
    have hread (w p : ℕ) : (if c.toNat &&& 0x80 ≠ 0 then ofsVarint l (c.toNat &&& 0x7f) (pos + 1)
        else .ok (c.toNat &&& 0x7f, pos + 1)) = .ok (w, p) ↔
        ofsAfter c l (c.toNat &&& 0x7f) (pos + 1) = .ok (w, p) ∧ w ≤ ofsMax := by
      rw [ofsAfter]
      split
      · exact ofsVarint_eq_ok hlow
      · simp only [ok.injEq, Prod.mk.injEq]
        exact ⟨fun h => ⟨h, h.1 ▸ hlow⟩, And.left⟩
    simp only [ofsBase, bind_eq_ok, refuseIf_eq_ok, pure_eq_ok, Prod.exists, Prod.mk.injEq, hread]
    constructor
    · rintro ⟨_, _, ⟨hread, hle⟩, u, hne, rfl, rfl⟩
      exact ⟨⟨_, _, hread, u, hne, rfl, rfl⟩, hle⟩
    · rintro ⟨⟨_, _, hread, u, hne, rfl, rfl⟩, hle⟩
      exact ⟨_, _, ⟨hread, hle⟩, u, hne, rfl, rfl⟩

/-! ### Deltas -/

theorem mapError_eq_ok {ε ε' α : Type} {f : ε → ε'} {x : Except ε α} {a : α} : x.mapError f = .ok a ↔ x = .ok a := by
  cases x <;> simp [Except.mapError]

/-- Both clients run one instruction alike. -/
theorem runInstruction_eq_ok : runInstruction base op rest = .ok (rest', piece) ↔
    ∃ bs, rest = bs ++ rest' ∧ DeltaOp base (op :: bs) piece := by
  have hround : runInstruction base op rest = .ok (rest', piece) ↔
      deltaRound base piece.length op rest [] = .ok (rest', piece) := by
    rw [runInstruction, deltaRound]
    split
    · simp only [copyOperands, bind_eq_ok, mapError_eq_ok, okOr_eq_ok, refuseIf_eq_ok, pure_eq_ok, Prod.exists,
        Prod.mk.injEq, nil_append, length_nil, Nat.sub_zero]
      constructor
      · rintro ⟨off, mid, hoff, size, last, hsize, src, hsrc, rfl, rfl⟩
        exact ⟨off, _, last, ⟨off, mid, hoff, size, last, hsize, rfl, rfl, rfl⟩, src, hsrc, (), by omega, rfl, rfl⟩
      · rintro ⟨_, _, _, ⟨off, mid, hoff, size, last, hsize, rfl, rfl, rfl⟩, src, hsrc, -, -, rfl, rfl⟩
        exact ⟨off, mid, hoff, size, last, hsize, src, hsrc, rfl, rfl⟩
    · split
      · simp only [bind_eq_ok, okOr_eq_ok, refuseIf_eq_ok, pure_eq_ok, Prod.mk.injEq, nil_append, length_nil,
          Nat.sub_zero]
        constructor
        · rintro ⟨ins, hins, rfl, rfl⟩
          exact ⟨ins, hins, (), by rw [length_of_slice hins]; omega, rfl, rfl⟩
        · rintro ⟨ins, hins, -, -, rfl, rfl⟩
          exact ⟨ins, hins, rfl, rfl⟩
      · exact iff_of_false nofun nofun
  rw [hround, deltaRound_eq_ok (Nat.zero_le _)]
  simp only [nil_append]
  constructor
  · rintro ⟨bs, _, heq, hop, rfl, -⟩
    exact ⟨bs, heq, hop⟩
  · rintro ⟨bs, heq, hop⟩
    exact ⟨bs, piece, heq, hop, rfl, le_rfl⟩

theorem runDelta_eq_ok (hn : ops.length ≤ n) :
    runDelta base n ops piece = .ok out ↔ ∃ tail, DeltaOps base ops tail ∧ out = piece ++ tail := by
  induction n generalizing ops piece with
  | zero =>
    obtain rfl := length_eq_zero_iff.mp (Nat.le_zero.mp hn)
    rw [runDelta, ok.injEq]
    constructor
    · rintro rfl
      exact ⟨[], .nil, (append_nil piece).symm⟩
    · rintro ⟨tail, htail, rfl⟩
      rw [htail.eq_nil, append_nil]
  | succ n ih =>
    cases ops with
    | nil =>
      rw [runDelta, ok.injEq]
      constructor
      · rintro rfl
        exact ⟨[], .nil, (append_nil piece).symm⟩
      · rintro ⟨tail, htail, rfl⟩
        rw [htail.eq_nil, append_nil]
    | cons op rest =>
      simp only [runDelta, bind_eq_ok, Prod.exists, runInstruction_eq_ok]
      rw [length_cons] at hn
      constructor
      · rintro ⟨rest', next, ⟨bs, rfl, hop⟩, h⟩
        rw [length_append] at hn
        obtain ⟨tail, htail, rfl⟩ := (ih (by omega)).mp h
        exact ⟨next ++ tail, .cons hop htail, by rw [append_assoc]⟩
      · rintro ⟨tail, htail, rfl⟩
        obtain ⟨bs, next, rest', tail', rfl, hop, hrest, rfl⟩ := htail.exists_cons
        rw [length_append] at hn
        exact ⟨rest', next, ⟨bs, rfl, hop⟩, (ih (by omega)).mpr ⟨tail', hrest, (append_assoc _ _ _).symm⟩⟩

theorem applyDelta_eq_ok : applyDelta base delta limit = .ok out ↔ ∃ srcBytes dstBytes ops u v,
    delta = srcBytes ++ (dstBytes ++ ops) ∧ SizeVarint srcBytes u ∧ SizeVarint dstBytes v ∧
      groups32 dstBytes 0 0 = out.length ∧ out.length ≤ min limit decodeMaxBytes ∧ DeltaOps base ops out := by
  simp only [applyDelta, bind_eq_ok, readGroups_eq_ok, refuseIf_eq_ok, pure_eq_ok, Prod.exists, runDelta_eq_ok le_rfl,
    nil_append, not_not, gt_iff_lt, not_lt]
  constructor
  · rintro ⟨_, _, ⟨srcBytes, u, rfl, hu, rfl⟩, _, ops, ⟨dstBytes, v, rfl, hv, rfl⟩, -, hle, _, ⟨_, hops, rfl⟩, -, hlen,
      rfl⟩
    exact ⟨srcBytes, dstBytes, ops, u, v, rfl, hu, hv, hlen.symm, hlen ▸ hle, hops⟩
  · rintro ⟨srcBytes, dstBytes, ops, u, v, rfl, hu, hv, hlen, hle, hops⟩
    exact ⟨_, _, ⟨srcBytes, u, rfl, hu, rfl⟩, _, ops, ⟨dstBytes, v, rfl, hv, rfl⟩, (), hlen ▸ hle,
      out, ⟨out, hops, rfl⟩,
      (), hlen.symm, rfl⟩

/-- A delta of an output within the limit has its sizes in ten bytes each, and they are those of the base and of the
output, if the output has as many bytes as the 32-bit groups of its size say. -/
def DeltaFits (base delta : Bytes) (limit : ℕ) : Prop :=
  ∀ srcBytes dstBytes ops u v out, delta = srcBytes ++ (dstBytes ++ ops) → SizeVarint srcBytes u →
    SizeVarint dstBytes v → DeltaOps base ops out → out.length ≤ limit → groups32 dstBytes 0 0 = out.length →
    (srcBytes.length ≤ 10 ∧ u = base.length ∧ u < 2 ^ 64) ∧ dstBytes.length ≤ 10 ∧ v = out.length

/-- Deltas are applied alike exactly where their sizes fit. -/
theorem applyDelta_agrees (hlimit : limit ≤ 2 ^ 30) :
    (∀ out, applyDelta base delta limit = .ok out ↔ DashForge.applyDelta base delta limit = .ok out) ↔
      DeltaFits base delta limit := by
  have hmin : min limit decodeMaxBytes = limit := min_eq_left hlimit
  simp only [applyDelta_eq_ok, hmin, applyDelta_iff_decodes]
  constructor
  · intro hagree srcBytes dstBytes ops u v out hdelta hu hv hops hle hgroups
    obtain ⟨srcBytes', dstBytes', ops', hdelta', ⟨hu', hbase, hsrc⟩, ⟨hv', -, hdst⟩, -, -⟩ :=
      (hagree out).mp ⟨srcBytes, dstBytes, ops, u, v, hdelta, hu, hv, hgroups, hle, hops⟩
    obtain ⟨rfl, rfl, hrest⟩ := eq_of_sizeVarint hu hu' (hdelta.symm.trans hdelta')
    obtain ⟨rfl, rfl, -⟩ := eq_of_sizeVarint hv hv' hrest
    exact ⟨⟨hsrc, rfl, hbase⟩, hdst, rfl⟩
  · intro hfits out
    constructor
    · rintro ⟨srcBytes, dstBytes, ops, u, v, hdelta, hu, hv, hgroups, hle, hops⟩
      obtain ⟨⟨hsrc, rfl, hbase⟩, hdst, rfl⟩ := hfits srcBytes dstBytes ops u v out hdelta hu hv hops hle hgroups
      exact ⟨srcBytes, dstBytes, ops, hdelta, ⟨hu, hbase, hsrc⟩, ⟨hv, by omega, hdst⟩, hops, hle⟩
    · rintro ⟨srcBytes, dstBytes, ops, hdelta, ⟨hu, -, -⟩, ⟨hv, -, -⟩, hops, hle⟩
      have hgroups := groups32_eq hv (show 0 < 2 ^ 0 by decide) (by omega)
      exact ⟨srcBytes, dstBytes, ops, _, _, hdelta, hu, hv, by rw [hgroups]; omega, hle, hops⟩

/-! ### Where the two clients agree -/

/-- **The browser and the command line.** They apply a delta alike exactly where its sizes fit, and they read an object
header alike, of sizes below 2 ^ 32, exactly where its size does. They read all back-pointers of at most 2 ^ 46 alike. -/
theorem webDecode_iff (hlimit : limit ≤ 2 ^ 30) :
    ((∀ out, applyDelta base delta limit = .ok out ↔ DashForge.applyDelta base delta limit = .ok out) ↔
      DeltaFits base delta limit) ∧
    ((∀ t size after, parseObjHeader buf pos = .ok (t, size, after) ↔
      DashForge.parseObjHeader buf pos = .ok (t, size, after) ∧ size < 2 ^ 32) ↔ HeaderFits (buf.drop pos)) ∧
    ∀ ofs after, parseOfsBase buf pos = .ok (ofs, after) ↔
      DashForge.parseOfsBase buf pos = .ok (ofs, after) ∧ ofs ≤ 2 ^ 46 :=
  ⟨applyDelta_agrees hlimit, parseObjHeader_agrees buf pos, fun _ _ => parseOfsBase_eq_ok⟩

/-- A delta that copies two bytes and inserts two, and a header of two bytes. -/
theorem webDecode_iff_sample :
    (∀ out, applyDelta [1, 2, 3] [3, 4, 0x91, 1, 2, 2, 9, 8] 4 = .ok out ↔
      DashForge.applyDelta [1, 2, 3] [3, 4, 0x91, 1, 2, 2, 9, 8] 4 = .ok out) ∧
    DashForge.applyDelta [1, 2, 3] [3, 4, 0x91, 1, 2, 2, 9, 8] 4 = .ok [2, 3, 9, 8] ∧
    ∀ t size after, parseObjHeader [0xb5, 1] 0 = .ok (t, size, after) ↔
      DashForge.parseObjHeader [0xb5, 1] 0 = .ok (t, size, after) ∧ size < 2 ^ 32 := by
  obtain ⟨hdelta, hheader, -⟩ :=
    @webDecode_iff 0 4 [1, 2, 3] [3, 4, 0x91, 1, 2, 2, 9, 8] [0xb5, 1] (by decide)
  refine ⟨hdelta.mpr fun srcBytes dstBytes ops u v out heq hu hv _ _ hgroups => ?_, by decide +kernel,
    hheader.mpr fun c bs v rest heq _ hv => ?_⟩
  · have hsrc : SizeVarint [3] 3 := .last 3 (by decide)
    have hdst : SizeVarint [4] 4 := .last 4 (by decide)
    obtain ⟨rfl, rfl, hrest⟩ := eq_of_sizeVarint hsrc hu (show [3] ++ [4, 0x91, 1, 2, 2, 9, 8] = _ from heq)
    obtain ⟨rfl, rfl, -⟩ := eq_of_sizeVarint hdst hv (show [4] ++ [0x91, 1, 2, 2, 9, 8] = _ from hrest)
    exact ⟨⟨by decide, rfl, by decide⟩, by decide, hgroups⟩
  · obtain ⟨rfl, htail⟩ := cons.inj heq
    have hsize : SizeVarint [1] 1 := .last 1 (by decide)
    obtain ⟨rfl, rfl, -⟩ := eq_of_sizeVarint hsize hv (show [1] ++ [] = _ from htail)
    decide

/-- The browser applies a delta of a base of one byte to an empty one, and reads a size of 2 ^ 32 as 1. -/
theorem webDecode_wraps :
    applyDelta [] [1, 0] 0 = .ok [] ∧
      DashForge.applyDelta [] [1, 0] 0 = .error (.config "delta source size does not match its base") ∧
    parseObjHeader [0x90, 0x80, 0x80, 0x80, 0x80, 1] 0 = .ok (1, 1, 6) ∧
      DashForge.parseObjHeader [0x90, 0x80, 0x80, 0x80, 0x80, 1] 0 = .ok (1, 2 ^ 32, 6) := by
  decide

end DashForge.Web
