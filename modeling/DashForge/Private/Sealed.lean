import DashForge.Data.BigEndian
import DashForge.Data.Chunks
import DashForge.Data.Unchecked
import DashForge.Pack.Entry
import Mathlib.Algebra.Order.Floor.Div

/-!
# Sealed artifacts: the header and ranged reads

A file of a private repository is stored as a header of 36 bytes and AES-GCM segments of `2 ^ L` bytes
of plaintext, each under a nonce of its own, so that a range is read without the rest of the file
(`private/pack.rs`). AES-GCM is a parameter. Arithmetic that the source leaves unchecked goes through
`addU64` and the like, so that a sum that does not fit shows as a panic.

A header that `parse` accepts is `Accepted`: its sizes fit in 64 bits, so every computation on it is
the one over `ℕ` (`segPlainLen_eq`, `nonce_eq`, `sealedRange_eq`), and no range and no bytes make
`openRange` panic (`noPanic_openRange`).
-/

namespace DashForge.Sealed

/-- The errors of a sealed artifact. -/
inductive PrivateError where
  | sealedPackCorrupt
  | unknownVersion (v : UInt8)
  | sizeMismatch
  | noKey (epoch : ℕ)
  | outOfRange
deriving DecidableEq, Repr

abbrev Io (α : Type) : Type := Except (Fault PrivateError) α

/-- Return an error. -/
def fail {α : Type} (e : PrivateError) : Io α := .error (.err e)

def magic : Bytes := [0x44, 0x46, 0x50, 0x4b]
def version : UInt8 := 0x01
def headerLen : ℕ := 36
def minSegLog2 : ℕ := 10
def maxSegLog2 : ℕ := 20
def tagLen : ℕ := 16

/-! ### AES-GCM and the keys of an epoch -/

/-- AES-256-GCM by key, nonce, associated data and message; `none` where it fails. -/
structure Gcm where
  encrypt : Bytes → Bytes → Bytes → Bytes → Option Bytes
  decrypt : Bytes → Bytes → Bytes → Bytes → Option Bytes

/-- The longest message AES-GCM takes. -/
def gcmMax : ℕ := 2 ^ 36

/-- Encryption takes every message that is not too long, adds the tag and is undone by decryption. -/
def Gcm.Lawful (gcm : Gcm) : Prop :=
  ∀ key nonce ad msg, msg.length ≤ gcmMax → ∃ ct, gcm.encrypt key nonce ad msg = some ct ∧
    ct.length = msg.length + tagLen ∧ gcm.decrypt key nonce ad ct = some msg

/-- The keys of an epoch, as far as sealed files use them. -/
structure EpochKeys where
  epoch : ℕ
  /-- The key of one file. -/
  packKey : Bytes → Bytes

/-! ### The header -/

/-- A header: its fields are read from the 36 bytes `raw`. -/
structure PackHeader where
  raw : Bytes
  segLog2 : ℕ
  epoch : ℕ
  plaintextLen : ℕ
  fileId : Bytes
deriving DecidableEq

namespace PackHeader

def build (segLog2 epoch plaintextLen : ℕ) (fileId : Bytes) : PackHeader where
  raw := magic ++ [version, UInt8.ofNat segLog2, 0, 0] ++ toBe 4 epoch ++ toBe 8 plaintextLen ++ fileId
  segLog2 := segLog2
  epoch := epoch
  plaintextLen := plaintextLen
  fileId := fileId

variable (h : PackHeader)

/-- The bytes of a full segment, `1 << L`. -/
def segSize : Io ℕ := shlU64 1 h.segLog2

def segments : Io ℕ := do
  let s ← h.segSize
  return max (h.plaintextLen ⌈/⌉ s) 1

/-- The length of the sealed file, `none` on overflow. -/
def sealedLen : Io (Option ℕ) := do
  let n ← h.segments
  return (checkedAdd headerLen h.plaintextLen).bind fun body =>
    (checkedMul tagLen n).bind fun tags => checkedAdd body tags

/-- The fields of 36 header bytes. -/
def ofRaw (raw : Bytes) : PackHeader where
  raw := raw
  segLog2 := (raw.getD 5 0).toNat
  epoch := beNat ((raw.take 12).drop 8)
  plaintextLen := beNat ((raw.take 20).drop 12)
  fileId := raw.drop 20

/-- Read a header and check it against the length of the sealed file. -/
def parse (bytes : Bytes) (size : ℕ) : Io PackHeader := do
  let raw ← orErr (slice bytes 0 headerLen) .sealedPackCorrupt
  let h := ofRaw raw
  if raw.take 4 = magic ∧ raw.getD 4 0 ≠ version then fail (.unknownVersion (raw.getD 4 0))
  else if ¬(raw.take 4 = magic ∧ (minSegLog2 ≤ h.segLog2 ∧ h.segLog2 ≤ maxSegLog2) ∧
      (raw.take 8).drop 6 = [0, 0]) then fail .sealedPackCorrupt
  else do
    let len ← h.sealedLen
    if len ≠ some size then fail .sealedPackCorrupt else return h

/-- The nonce of segment `i`: its number, and whether it is the last. -/
def nonce (i : ℕ) : Io Bytes := do
  let next ← addU64 i 1
  let n ← h.segments
  return toBe 8 i ++ [0, 0, 0, if next = n then 1 else 0]

/-- The bytes of plaintext in segment `i`. -/
def segPlainLen (i : ℕ) : Io ℕ := do
  let s ← h.segSize
  let start ← mulU64 i s
  let rest ← subU64 h.plaintextLen (min start h.plaintextLen)
  return min rest s

/-- The key of the file, from the keys of the header's epoch. -/
def fileKey (keys : EpochKeys) : Io Bytes :=
  if keys.epoch ≠ h.epoch then fail (.noKey h.epoch) else return keys.packKey h.fileId

def openSegment (gcm : Gcm) (key : Bytes) (i : ℕ) (seg : Bytes) : Io Bytes := do
  let nonce ← h.nonce i
  orErr (gcm.decrypt key nonce h.raw seg) .sealedPackCorrupt

end PackHeader

/-! ### Ranged reads -/

/-- A range of the plaintext mapped onto the sealed file. -/
structure SealedRange where
  firstSegment : ℕ
  lastSegment : ℕ
  start : ℕ
  stop : ℕ
deriving DecidableEq, Repr

/-- Where a segment starts, for segments of `seg` sealed bytes. -/
def segAt (seg segments : ℕ) : Option ℕ := (checkedMul segments seg).bind (checkedAdd · headerLen)

namespace PackHeader

variable (h : PackHeader)

/-- The sealed bytes to fetch for the plaintext `[a, b)`. -/
def sealedRange (a b : ℕ) : Io SealedRange :=
  if b ≤ a ∨ h.plaintextLen < b then fail .outOfRange
  else do
    let s ← h.segSize
    let seg ← orErr (checkedAdd s tagLen) .sealedPackCorrupt
    let last ← subU64 b 1
    let (s0, s1) := (a >>> h.segLog2, last >>> h.segLog2)
    let len ← h.sealedLen
    let sealed ← orErr len .sealedPackCorrupt
    let start ← orErr (segAt seg s0) .sealedPackCorrupt
    let next ← orErr (checkedAdd s1 1) .sealedPackCorrupt
    let stop ← orErr (segAt seg next) .sealedPackCorrupt
    return ⟨s0, s1, start, min stop sealed⟩

/-- Open the segment `i` at `off` and add its plaintext. -/
def openNext (gcm : Gcm) (key sealed : Bytes) (st : Bytes × ℕ) (i : ℕ) : Io (Bytes × ℕ) := do
  let plain ← h.segPlainLen i
  let len ← addU64 plain tagLen
  let stop ← orErr (checkedAdd st.2 len) .sealedPackCorrupt
  let seg ← orErr (slice sealed st.2 stop) .sealedPackCorrupt
  let pt ← h.openSegment gcm key i seg
  return (st.1 ++ pt, stop)

/-- Cut the plaintext `[a, b)` out of whole segments. -/
def cutRange (firstSegment a b : ℕ) (out : Bytes) : Io Bytes := do
  let first ← shlU64 firstSegment h.segLog2
  let skip ← subU64 a first
  let take ← subU64 b a
  let stop ← addU64 skip take
  orErr (slice out skip stop) .sealedPackCorrupt

/-- The plaintext `[a, b)` from the sealed bytes that `sealedRange` names. -/
def openRange (gcm : Gcm) (keys : EpochKeys) (sealed : Bytes) (a b : ℕ) : Io Bytes := do
  let range ← h.sealedRange a b
  let len ← subU64 range.stop range.start
  if sealed.length ≠ len then fail .sealedPackCorrupt
  else do
    let key ← h.fileKey keys
    let st ← (List.range' range.firstSegment (range.lastSegment + 1 - range.firstSegment)).foldlM
      (h.openNext gcm key sealed) ([], 0)
    h.cutRange range.firstSegment a b st.1

end PackHeader

/-! ### Accepted headers -/

namespace PackHeader

/-- The bytes of a full segment, over `ℕ`. -/
def segBytes (h : PackHeader) : ℕ := 2 ^ h.segLog2

/-- The number of segments, over `ℕ`. -/
def segCount (h : PackHeader) : ℕ := max (h.plaintextLen ⌈/⌉ h.segBytes) 1

/-- The length of the sealed file, over `ℕ`. -/
def fileLen (h : PackHeader) : ℕ := headerLen + h.plaintextLen + tagLen * h.segCount

/-- The nonce of a segment, over `ℕ`. -/
def nonceAt (h : PackHeader) (i : ℕ) : Bytes :=
  toBe 8 i ++ [0, 0, 0, if i + 1 = h.segCount then 1 else 0]

/-- What `parse` guarantees: the segment size is in range and the sizes fit in 64 bits. -/
structure Accepted (h : PackHeader) : Prop where
  minSegLog2_le : minSegLog2 ≤ h.segLog2
  le_maxSegLog2 : h.segLog2 ≤ maxSegLog2
  fileLen_le : h.fileLen ≤ u64Max

variable {h : PackHeader}

theorem segBytes_pos (h : PackHeader) : 0 < h.segBytes := Nat.two_pow_pos _

theorem segCount_pos (h : PackHeader) : 0 < h.segCount := lt_max_of_lt_right one_pos

/-- The segments hold the whole plaintext. -/
theorem plaintextLen_le (h : PackHeader) : h.plaintextLen ≤ h.segCount * h.segBytes := by
  have hceil : h.plaintextLen ⌈/⌉ h.segBytes ≤ h.segCount := le_max_left _ _
  rw [ceilDiv_le_iff_le_mul h.segBytes_pos] at hceil
  rwa [mul_comm]

variable {i size b a : ℕ} {bytes : Bytes}

theorem mul_segBytes_lt (hi : i < h.segCount) (hpos : 0 < i) : i * h.segBytes < h.plaintextLen := by
  have hlt : i < h.plaintextLen ⌈/⌉ h.segBytes := by
    rcases lt_max_iff.mp hi with hlt | hlt
    · exact hlt
    · omega
  rw [← not_le, ceilDiv_le_iff_le_mul h.segBytes_pos, not_le] at hlt
  rwa [mul_comm]

theorem mul_segBytes_le (hi : i < h.segCount) : i * h.segBytes ≤ h.plaintextLen := by
  rcases Nat.eq_zero_or_pos i with rfl | hpos
  · simp
  · exact (mul_segBytes_lt hi hpos).le

theorem segSize_eq_of_le (hL : h.segLog2 ≤ maxSegLog2) : h.segSize = .ok h.segBytes := by
  have hle : h.segBytes ≤ u64Max := (Nat.pow_le_pow_right two_pos hL).trans (by decide)
  rw [segSize, shlU64_eq_ok] <;> rw [one_mul]
  · rfl
  · exact hle

/-- The length of the sealed file is computed exactly, or found too large. -/
theorem sealedLen_eq_of_le (hL : h.segLog2 ≤ maxSegLog2) :
    h.sealedLen = .ok (if h.fileLen ≤ u64Max then some h.fileLen else none) := by
  have hbody : headerLen + h.plaintextLen ≤ h.fileLen := Nat.le_add_right _ _
  have htags : tagLen * h.segCount ≤ h.fileLen := Nat.le_add_left _ _
  rw [sealedLen, segments, segSize_eq_of_le hL]
  change Except.ok ((checkedAdd headerLen h.plaintextLen).bind fun body =>
    (checkedMul tagLen h.segCount).bind fun tags => checkedAdd body tags) = _
  rw [checkedAdd, checkedMul]
  congr 1
  by_cases hfit : h.fileLen ≤ u64Max
  · rw [if_pos (hbody.trans hfit), if_pos (htags.trans hfit), if_pos hfit]
    exact if_pos hfit
  · rw [if_neg hfit]
    split
    · rw [Option.bind_some]
      split
      · exact if_neg hfit
      · rfl
    · rfl

namespace Accepted

variable (ok : h.Accepted)
include ok

theorem segBytes_le : h.segBytes ≤ 2 ^ 20 := Nat.pow_le_pow_right two_pos ok.le_maxSegLog2

theorem plaintextLen_le_u64Max : h.plaintextLen ≤ u64Max := by
  have := ok.fileLen_le
  rw [fileLen] at this
  omega

theorem segCount_lt_u64Max : h.segCount < u64Max := by
  have := ok.fileLen_le
  have := h.segCount_pos
  simp only [fileLen, tagLen] at *
  omega

theorem segSize_eq : h.segSize = .ok h.segBytes := segSize_eq_of_le ok.le_maxSegLog2

theorem segments_eq : h.segments = .ok h.segCount := by
  rw [segments, ok.segSize_eq]
  rfl

theorem sealedLen_eq : h.sealedLen = .ok (some h.fileLen) := by
  rw [sealedLen_eq_of_le ok.le_maxSegLog2, if_pos ok.fileLen_le]

theorem nonce_eq {i : ℕ} (hi : i < h.segCount) : h.nonce i = .ok (h.nonceAt i) := by
  have := ok.segCount_lt_u64Max
  rw [nonce, addU64_eq_ok (by omega), ok.segments_eq]
  rfl

theorem segPlainLen_eq {i : ℕ} (hi : i < h.segCount) :
    h.segPlainLen i = .ok (min (h.plaintextLen - i * h.segBytes) h.segBytes) := by
  have hstart := mul_segBytes_le hi
  have hfit := hstart.trans ok.plaintextLen_le_u64Max
  rw [segPlainLen, ok.segSize_eq, ok_bind, mulU64_eq_ok hfit, ok_bind, min_eq_left hstart, subU64_eq_ok hstart]
  rfl

end Accepted

theorem parse_eq_ok : parse bytes size = .ok h ↔
    headerLen ≤ bytes.length ∧ h = ofRaw (bytes.take headerLen) ∧ h.raw.take 4 = magic ∧
      h.raw.getD 4 0 = version ∧ (h.raw.take 8).drop 6 = [0, 0] ∧ h.Accepted ∧ h.fileLen = size := by
  by_cases hlen : headerLen ≤ bytes.length
  swap
  · simp [parse, slice, hlen, orErr]
  simp only [parse, slice, hlen, orErr, fail, zero_le, and_self, if_true, Option.elim_some, ok_bind,
    List.drop_zero, true_and]
  generalize bytes.take headerLen = raw
  constructor
  · intro hp
    split at hp
    · simp at hp
    rename_i hversion
    split at hp
    · simp at hp
    rename_i hchecks
    obtain ⟨hmagic, ⟨hmin, hmax⟩, hzero⟩ := not_not.mp hchecks
    rw [sealedLen_eq_of_le hmax, ok_bind] at hp
    by_cases hfit : (ofRaw raw).fileLen ≤ u64Max
    · simp only [hfit, if_true, ne_eq, Option.some.injEq, ite_not] at hp
      split at hp
      · rename_i hsize
        obtain rfl := pure_eq_ok.mp hp
        refine ⟨rfl, hmagic, ?_, hzero, ⟨hmin, hmax, hfit⟩, hsize⟩
        by_contra hne
        exact hversion ⟨hmagic, hne⟩
      · simp at hp
    · simp [hfit] at hp
  · rintro ⟨rfl, hmagic, hversion, hzero, ok, hsize⟩
    rw [if_neg fun hv => hv.2 hversion,
      if_neg (not_not.mpr ⟨hmagic, ⟨ok.minSegLog2_le, ok.le_maxSegLog2⟩, hzero⟩), ok.sealedLen_eq,
      ok_bind, if_neg (by simp [hsize])]
    rfl

theorem accepted_of_parse (hp : parse bytes size = .ok h) : h.Accepted :=
  (parse_eq_ok.mp hp).2.2.2.2.2.1

/-! ### Ranges of an accepted header -/

theorem segAt_eq (seg k : ℕ) :
    segAt seg k = if k * seg + headerLen ≤ u64Max then some (k * seg + headerLen) else none := by
  rw [segAt, checkedMul]
  split
  · rfl
  · rw [if_neg (by omega)]
    rfl

/-- The sealed range of the plaintext `[a, b)`, over `ℕ`. -/
def rangeOf (h : PackHeader) (a b : ℕ) : SealedRange where
  firstSegment := a / h.segBytes
  lastSegment := (b - 1) / h.segBytes
  start := a / h.segBytes * (h.segBytes + tagLen) + headerLen
  stop := min (((b - 1) / h.segBytes + 1) * (h.segBytes + tagLen) + headerLen) h.fileLen

theorem lastSegment_lt (hpos : 0 < b) (hb : b ≤ h.plaintextLen) : (b - 1) / h.segBytes < h.segCount := by
  refine Nat.div_lt_of_lt_mul ?_
  rw [mul_comm]
  exact lt_of_lt_of_le (by omega) h.plaintextLen_le

theorem firstSegment_le (hab : a < b) : a / h.segBytes ≤ (b - 1) / h.segBytes :=
  Nat.div_le_div_right (by omega)

theorem start_le_stop (hab : a < b) (hb : b ≤ h.plaintextLen) : (h.rangeOf a b).start ≤ (h.rangeOf a b).stop := by
  have hle := firstSegment_le (h := h) hab
  have hlt := lastSegment_lt (h := h) (by omega) hb
  have hmul := mul_segBytes_le (lt_of_le_of_lt hle hlt)
  refine le_min ?_ ?_
  · exact Nat.add_le_add_right (Nat.mul_le_mul_right _ (hle.trans (Nat.le_succ _))) _
  · simp only [rangeOf, fileLen, mul_add, tagLen]
    omega

theorem noPanic_fileKey (keys : EpochKeys) : NoPanic (h.fileKey keys) :=
  noPanic_ite (fun _ => noPanic_err _) fun _ => noPanic_ok _

namespace Accepted

variable (ok : h.Accepted)
variable {a b i : ℕ}

include ok

/-- A range inside the plaintext is computed exactly, or ends past the 64-bit numbers. -/
theorem sealedRange_eq (hab : a < b) (hb : b ≤ h.plaintextLen) : h.sealedRange a b =
    if ((b - 1) / h.segBytes + 1) * (h.segBytes + tagLen) + headerLen ≤ u64Max
    then .ok (h.rangeOf a b) else fail .sealedPackCorrupt := by
  have hS := ok.segBytes_le
  have hu := ok.plaintextLen_le_u64Max
  have hseg : h.segBytes + tagLen ≤ u64Max := (Nat.add_le_add_right hS _).trans (by decide)
  have hlast : (b - 1) / h.segBytes + 1 ≤ u64Max := by
    have := Nat.div_le_self (b - 1) h.segBytes
    omega
  have hfirst : a / h.segBytes * (h.segBytes + tagLen) ≤ ((b - 1) / h.segBytes + 1) * (h.segBytes + tagLen) :=
    Nat.mul_le_mul_right _ ((firstSegment_le hab).trans (Nat.le_succ _))
  have hshift : ∀ x : ℕ, x >>> h.segLog2 = x / h.segBytes := fun x => Nat.shiftRight_eq_div_pow x _
  rw [sealedRange, if_neg (by omega), ok.segSize_eq, ok_bind, checkedAdd, if_pos hseg, orErr_some,
    ok_bind, subU64_eq_ok (by omega), ok_bind, ok.sealedLen_eq, ok_bind, orErr_some, ok_bind, hshift,
    hshift, checkedAdd, if_pos hlast, orErr_some, segAt_eq]
  by_cases hfit : ((b - 1) / h.segBytes + 1) * (h.segBytes + tagLen) + headerLen ≤ u64Max
  · rw [if_pos (by omega), orErr_some, ok_bind, ok_bind, segAt_eq, if_pos hfit, if_pos hfit]
    rfl
  · rw [if_neg hfit]
    split
    · rw [orErr_some, ok_bind, ok_bind, segAt_eq, if_neg hfit]
      rfl
    · rfl

theorem sealedRange_eq_ok {r : SealedRange} (hr : h.sealedRange a b = .ok r) :
    a < b ∧ b ≤ h.plaintextLen ∧ r = h.rangeOf a b := by
  by_cases hin : b ≤ a ∨ h.plaintextLen < b
  · simp [sealedRange, hin, fail] at hr
  · rw [ok.sealedRange_eq (by omega) (by omega)] at hr
    split at hr
    · exact ⟨by omega, by omega, (Except.ok.inj hr).symm⟩
    · simp [fail] at hr

theorem noPanic_sealedRange (a b : ℕ) : NoPanic (h.sealedRange a b) := by
  by_cases hin : b ≤ a ∨ h.plaintextLen < b
  · rw [sealedRange, if_pos hin]
    exact noPanic_err _
  · rw [ok.sealedRange_eq (by omega) (by omega)]
    exact noPanic_ite (fun _ => noPanic_ok _) fun _ => noPanic_err _

theorem noPanic_openSegment (gcm : Gcm) (key seg : Bytes) (hi : i < h.segCount) :
    NoPanic (h.openSegment gcm key i seg) := by
  rw [openSegment, ok.nonce_eq hi]
  exact noPanic_orErr _ _

theorem sealedSegLen_eq (hi : i < h.segCount) : (h.segPlainLen i >>= fun plain => addU64 plain tagLen) =
      .ok (min (h.plaintextLen - i * h.segBytes) h.segBytes + tagLen) := by
  have hS := ok.segBytes_le
  rw [ok.segPlainLen_eq hi, ok_bind, addU64_eq_ok]
  refine (Nat.add_le_add_right ((min_le_right _ _).trans hS) _).trans (by decide)

theorem noPanic_openNext (gcm : Gcm) (key sealed : Bytes) (st : Bytes × ℕ)
    (hi : i < h.segCount) : NoPanic (h.openNext gcm key sealed st i) := by
  rw [openNext, ← bind_assoc, ok.sealedSegLen_eq hi, ok_bind]
  refine (noPanic_orErr _ _).bind fun stop _ => (noPanic_orErr _ _).bind fun seg _ => ?_
  exact (ok.noPanic_openSegment gcm key seg hi).bind fun pt _ => noPanic_ok _

theorem cutRange_eq (hab : a < b) (hb : b ≤ h.plaintextLen) (out : Bytes) : h.cutRange (a / h.segBytes) a b out =
      orErr (slice out (a - a / h.segBytes * h.segBytes) (b - a / h.segBytes * h.segBytes)) .sealedPackCorrupt := by
  have hu := ok.plaintextLen_le_u64Max
  have hfirst : a / h.segBytes * h.segBytes ≤ a := Nat.div_mul_le_self _ _
  have hshl : (shlU64 (a / h.segBytes) h.segLog2 : Io ℕ) = .ok (a / h.segBytes * h.segBytes) :=
    shlU64_eq_ok (hfirst.trans (by omega))
  have hstop : a - a / h.segBytes * h.segBytes + (b - a) = b - a / h.segBytes * h.segBytes := by omega
  rw [cutRange, hshl, ok_bind, subU64_eq_ok hfirst, ok_bind, subU64_eq_ok hab.le, ok_bind,
    addU64_eq_ok (by omega), ok_bind, hstop]

theorem noPanic_openRange (gcm : Gcm) (keys : EpochKeys) (sealed : Bytes) (a b : ℕ) :
    NoPanic (h.openRange gcm keys sealed a b) := by
  refine (ok.noPanic_sealedRange a b).bind fun r hr => ?_
  obtain ⟨hab, hb, rfl⟩ := ok.sealedRange_eq_ok hr
  rw [subU64_eq_ok (start_le_stop hab hb), ok_bind]
  split
  · exact noPanic_err _
  refine (noPanic_fileKey keys).bind fun key _ => NoPanic.bind ?_ fun st _ => ?_
  · refine NoPanic.foldlM fun st i hi => ok.noPanic_openNext gcm key sealed st ?_
    have hlt := lastSegment_lt (h := h) (by omega) hb
    have hle := firstSegment_le (h := h) hab
    simp only [rangeOf, List.mem_range'_1] at hi
    omega
  · rw [rangeOf, ok.cutRange_eq hab hb]
    exact noPanic_orErr _ _

end Accepted

end PackHeader

end DashForge.Sealed
