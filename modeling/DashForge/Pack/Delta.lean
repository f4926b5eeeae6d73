import DashForge.Pack.Entry

/-!
# Streams and deltas

Inflating an entry's zlib stream and applying a git delta to its base's bytes (`pack/parse.rs`).

A delta is applied within a budget. The budget only decides whether the delta is refused:
`applyDelta_of_length_le` gives the same output under every budget that admits it.
-/

namespace DashForge

/-- Deflate cannot expand its input by more than this factor. -/
def deflateMaxRatio : ℕ := 1032

/-- Inflate one zlib stream, which must yield exactly `expected` bytes. -/
def inflate (env : PackEnv) (compressed : Bytes) (expected : ℕ) : Except PackError Bytes := do
  let most := satAdd (satMul compressed.length deflateMaxRatio) 64
  refuseIf (expected > most)
    (.config "object declares more bytes than its stream can inflate to")
  let out ← (env.zlibRead compressed (satAdd expected 1)).mapError .io
  refuseIf (out.length ≠ expected) .integrity
  return out

/-! ### Reading a delta -/

/-- A delta's size varint, `r` so far, and the bytes after it. -/
def readDeltaSize : Bytes → ℕ → ℕ → Except PackError (ℕ × Bytes)
  | [], _, _ => .error (.config "unexpected end of delta")
  | b :: rest, r, shift => do
    let v ← okOr (shlExact (b.toNat &&& 0x7f) shift) (.config "delta size varint overflow")
    if b.toNat &&& 0x80 = 0 then .ok (r ||| v, rest) else readDeltaSize rest (r ||| v) (shift + 7)

/-- The next `n` bytes of a copy's operand: byte `i` is there when bit `bit + i` of `op` is set. -/
def copyOperand (op bit : ℕ) : ℕ → ℕ → ℕ → Bytes → Except PackError (ℕ × Bytes)
  | 0, _, v, rest => .ok (v, rest)
  | n + 1, i, v, rest =>
    if op &&& 1 <<< (bit + i) ≠ 0 then
      match rest with
      | [] => .error (.config "unexpected end of delta")
      | b :: rest => copyOperand op bit n (i + 1) (v ||| b.toNat <<< (8 * i)) rest
    else copyOperand op bit n (i + 1) v rest

/-- A copy's offset and size, and the bytes after them. -/
def copyOperands (op : ℕ) (rest : Bytes) : Except PackError (ℕ × ℕ × Bytes) := do
  let (off, rest) ← copyOperand op 0 4 0 0 rest
  let (size, rest) ← copyOperand op 4 3 0 0 rest
  return (off, if size = 0 then 0x10000 else size, rest)

variable {op budget : ℕ} {rest rest' base delta out : Bytes}

theorem length_copyOperand {bit n i v w : ℕ}
    (h : copyOperand op bit n i v rest = .ok (w, rest')) : rest'.length ≤ rest.length := by
  induction n generalizing i v rest with
  | zero =>
    simp only [copyOperand, Except.ok.injEq, Prod.mk.injEq] at h
    rw [h.2]
  | succ n ih =>
    unfold copyOperand at h
    split at h
    · cases rest with
      | nil => cases h
      | cons b rest => exact (ih h).trans (Nat.le_succ _)
    · exact ih h

theorem length_copyOperands {off size : ℕ}
    (h : copyOperands op rest = .ok (off, size, rest')) : rest'.length ≤ rest.length := by
  simp only [copyOperands, bind_eq_ok, pure_eq_ok, Prod.mk.injEq] at h
  obtain ⟨⟨off, mid⟩, hoff, ⟨size, last⟩, hsize, -, -, rfl⟩ := h
  exact (length_copyOperand hsize).trans (length_copyOperand hoff)

/-- The opcodes of a delta whose output is `out` so far and `dst` bytes in all. -/
def deltaOps (base : Bytes) (dst : ℕ) : Bytes → Bytes → Except PackError Bytes
  | [], out => .ok out
  | op :: rest, out =>
    if op.toNat &&& 0x80 ≠ 0 then
      match _h : copyOperands op.toNat rest with
      | .error e => .error e
      | .ok (off, size, rest') =>
        match slice base off (off + size) with
        | none => .error (.config "delta copy out of base bounds")
        | some src =>
          if src.length > dst - out.length then
            .error (.config "delta output runs past its declared size")
          else deltaOps base dst rest' (out ++ src)
    else if op.toNat ≠ 0 then
      match slice rest 0 op.toNat with
      | none => .error (.config "delta insert past end")
      | some ins =>
        if op.toNat > dst - out.length then
          .error (.config "delta output runs past its declared size")
        else deltaOps base dst (rest.drop op.toNat) (out ++ ins)
    else .error (.config "reserved delta opcode 0")
termination_by rest => rest.length
decreasing_by
  · have := length_copyOperands _h
    simp only [List.length_cons]
    omega
  · simp only [List.length_drop, List.length_cons]
    omega

/-- Apply a git delta to `base`, producing at most `budget` bytes. -/
def applyDelta (base delta : Bytes) (budget : ℕ) : Except PackError Bytes := do
  let (src, rest) ← readDeltaSize delta 0 0
  refuseIf (src ≠ base.length) (.config "delta source size does not match its base")
  let (dst, rest) ← readDeltaSize rest 0 0
  let perOpByte := max 1 (min base.length 0xffffff)
  let canProduce := satMul rest.length perOpByte
  refuseIf (dst > min canProduce budget) (.config "delta declares more output than it can produce")
  let out ← deltaOps base dst rest []
  refuseIf (out.length ≠ dst) .integrity
  return out

theorem length_applyDelta (h : applyDelta base delta budget = .ok out) : out.length ≤ budget := by
  simp only [applyDelta, bind_eq_ok, refuseIf_eq_ok, pure_eq_ok] at h
  obtain ⟨-, -, -, -, ⟨dst, rest⟩, -, -, hdst, out', -, -, hlen, rfl⟩ := h
  simp only [gt_iff_lt, not_lt, Nat.le_min, not_not] at hdst hlen
  omega

theorem applyDelta_of_length_le {budget' : ℕ}
    (h : applyDelta base delta budget = .ok out) (hle : out.length ≤ budget') :
    applyDelta base delta budget' = .ok out := by
  simp only [applyDelta, bind_eq_ok, refuseIf_eq_ok, pure_eq_ok] at h ⊢
  obtain ⟨src, hsrc, -, hbase, dst, hdst, -, hfits, out', hops, -, hlen, rfl⟩ := h
  refine ⟨src, hsrc, (), hbase, dst, hdst, (), ?_, out', hops, (), hlen, rfl⟩
  simp only [gt_iff_lt, not_lt, Nat.le_min, not_not] at hfits hlen ⊢
  exact ⟨hfits.1, by omega⟩

end DashForge
