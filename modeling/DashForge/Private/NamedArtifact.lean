import DashForge.Private.NamedLetter
import Mathlib.GroupTheory.GroupAction.Ring

/-!
# Artifacts for specific people

`sealArtifactInner` and `openArtifact` are the writer and the reader of a file sealed to a list of people. A file is
split into its header and what follows in one way (`Framed`), and a header is read as that of a file of one epoch
(`packHeader`), whose segments are cut and numbered the same way.

Each segment is bound to its number, to whether it is the last and to the whole header, so a file in which nothing
opens but segments of the sealed one is the sealed one (`SealedArtifact.eq_of_openArtifact`). For bytes of any kind
neither reader panics, and a letter that is shown has a list as its writer makes it (`openLetter_listed`).
-/

namespace DashForge.Named

open List (append_assoc length_append length_nil range_succ take_left)
open Doc Sealed

/-! ### The writer -/

def artifactVersion : UInt8 := 0x02
def artifactMinSegLog2 : ℕ := 10
def artifactMaxSegLog2 : ℕ := 20

/-- The header of an artifact to `n` recipients. -/
def artifactHeaderLen (n : ℕ) : ℕ := 8 + 37 + slotLen * n + 8 + 16

abbrev FileId : Type := { b : Bytes // b.length = 16 }

/-- Why an artifact is not sealed. -/
inductive SealError where
  | malformed
  | sealedPackCorrupt
deriving DecidableEq, Repr

/-- The nonce of segment `i`: its number, and whether it is the last. -/
def artifactNonce {ε : Type} (i segments : ℕ) : Except (Fault ε) Bytes := do
  let next ← addU64 i 1
  return toBe 8 i ++ [0, 0, 0, if next = segments then 1 else 0]

section Seal

variable {K : Type} (env : Envelope K) (c : Crypto) (repoId : Bytes32)

/-- Seal segment `i` and add it. -/
def sealNext (key header plaintext : Bytes) (seg segments : ℕ) (out : Bytes) (i : ℕ) :
    Except (Fault SealError) Bytes := do
  let start ← mulU64 i seg
  let next ← addU64 i 1
  let stop ← mulU64 next seg
  let piece ← orPanic (slice plaintext (min start plaintext.length) (min stop plaintext.length))
  let nonce ← artifactNonce i segments
  let ct ← orErr (c.gcm.encrypt key nonce header piece) .sealedPackCorrupt
  return out ++ ct

/-- Seal an artifact with a given key, file id, segment size and IVs. -/
def sealArtifactInner (sender : K) (senderKeyId : UInt32) (ownerId : Bytes32) (recipients : List Recipient)
    (plaintext : Bytes) (kObj : Bytes32) (fileId : FileId) (segLog2 : UInt8) (ivs : ℕ → Iv) :
    Except (Fault SealError) Bytes :=
  if ¬(artifactMinSegLog2 ≤ segLog2.toNat ∧ segLog2.toNat ≤ artifactMaxSegLog2) then .error (.err .malformed)
  else do
    let block ← slotBlock env c repoId maxArtifactRecipients sender senderKeyId ownerId recipients kObj ivs .malformed
    let header := magic ++ [artifactVersion, segLog2, 0, 0] ++ block ++ toBe 8 plaintext.length ++ fileId.val
    let key := packKey c repoId kObj fileId.val
    let seg ← shlU64 1 segLog2.toNat
    let segments := max (plaintext.length ⌈/⌉ seg) 1
    (List.range segments).foldlM (sealNext c key.val header plaintext seg segments) header

end Seal

/-! ### The reader -/

/-- Why an artifact is not read. -/
inductive ArtifactError where
  | sizeMismatch
  | sealedPackCorrupt
  | malformed
  | notARecipient
deriving DecidableEq, Repr

section Open

variable {K : Type} (env : Envelope K) (c : Crypto) (repoId : Bytes32)

/-- Open the segment `i` at `st.2` and add its plaintext. -/
def openNext (key header sealed : Bytes) (plaintextLen seg segments : ℕ) (st : Bytes × ℕ) (i : ℕ) :
    Except (Fault ArtifactError) (Bytes × ℕ) := do
  let start ← mulU64 i seg
  let rest ← subU64 plaintextLen (min start plaintextLen)
  let len ← addU64 (min rest seg) 16
  let nonce ← artifactNonce i segments
  let stop ← addU64 st.2 len
  let ct ← orPanic (slice sealed st.2 stop)
  let pt ← orErr (c.gcm.decrypt key nonce header ct) .sealedPackCorrupt
  return (st.1 ++ pt, stop)

/-- The key of a reader's slot; a sender key that is not a point is malformed. -/
def readerKey (block : Bytes) (n : ℕ) (senderPublic : Bytes) (reader : Reader K) :
    Except (Fault ArtifactError) Bytes32 :=
  match findSlotKey env c repoId block n senderPublic reader with
  | .error .panic => .error .panic
  | .error (.err ()) => .error (.err .malformed)
  | .ok none => .error (.err .notARecipient)
  | .ok (some (_, kObj)) => .ok kObj

/-- The checks of the first 45 bytes. -/
def artifactFramed (sealed : Bytes) : Bool :=
  8 + 37 ≤ sealed.length ∧ sealed.take 4 = magic ∧ sealed.getD 4 0 = artifactVersion ∧
    artifactMinSegLog2 ≤ (sealed.getD 5 0).toNat ∧ (sealed.getD 5 0).toNat ≤ artifactMaxSegLog2 ∧
    (sealed.take 8).drop 6 = [0, 0]

/-- Open an artifact. -/
def openArtifact (sealed : Bytes) (sizeBytes : ℕ) (ownerKeys : List OwnerKey) (reader : Reader K) :
    Except (Fault ArtifactError) Bytes :=
  if sealed.length ≠ sizeBytes then .error (.err .sizeMismatch)
  else if !artifactFramed sealed then .error (.err .sealedPackCorrupt)
  else do
    let n ← orPanic sealed[8]?
    let n := n.toNat
    let headerLen := artifactHeaderLen n
    if ¬(1 ≤ n ∧ n ≤ maxArtifactRecipients) ∨ sealed.length < headerLen then .error (.err .sealedPackCorrupt)
    else do
      let header ← orPanic (slice sealed 0 headerLen)
      let block ← orPanic (slice header 8 (8 + 37 + slotLen * n))
      let plaintextLen ← orPanic (slice header (headerLen - 24) (headerLen - 16))
      let plaintextLen := beNat plaintextLen
      let fileId ← orPanic (slice header (headerLen - 16) header.length)
      let seg ← shlU64 1 (sealed.getD 5 0).toNat
      let segments := max (plaintextLen ⌈/⌉ seg) 1
      let expected := (checkedAdd headerLen plaintextLen).bind fun x =>
        (checkedMul segments 16).bind fun tags => checkedAdd x tags
      if expected ≠ some sealed.length then .error (.err .sealedPackCorrupt)
      else do
        let keyId ← orPanic (slice block 1 5)
        let senderPublic ← orErr (senderKey ownerKeys (UInt32.ofNat (beNat keyId))) .malformed
        let kObj ← readerKey env c repoId block n senderPublic reader
        let key := packKey c repoId kObj fileId
        let st ← (List.range segments).foldlM
          (openNext c key.val header sealed plaintextLen seg segments) ([], headerLen)
        return st.1

end Open

/-! ### Segments -/

section Segments

variable {h : PackHeader}

/-- Where segment `k` starts behind the header. -/
def segOff (h : PackHeader) (k : ℕ) : ℕ := min (k * h.segBytes) h.plaintextLen + tagLen * k

/-- The bytes of segment `i`, of all that stand behind the header. -/
def piece (h : PackHeader) (rest : Bytes) (i : ℕ) : Bytes := (rest.take (segOff h (i + 1))).drop (segOff h i)

theorem segOff_succ (h : PackHeader) (i : ℕ) :
    segOff h (i + 1) = segOff h i + (min (h.plaintextLen - i * h.segBytes) h.segBytes + tagLen) := by
  rw [segOff, segOff, add_mul, one_mul, mul_add, mul_one]
  omega

theorem segOff_mono {i j : ℕ} (hij : i ≤ j) : segOff h i ≤ segOff h j := by
  have hmul := Nat.mul_le_mul_right h.segBytes hij
  have htags := Nat.mul_le_mul_left tagLen hij
  rw [segOff, segOff]
  omega

theorem segOff_segCount (h : PackHeader) : segOff h h.segCount = h.plaintextLen + tagLen * h.segCount := by
  rw [segOff, min_eq_right h.plaintextLen_le]

theorem flatMap_piece (h : PackHeader) (rest : Bytes) (k : ℕ) :
    (List.range k).flatMap (piece h rest) = rest.take (segOff h k) := by
  induction k with
  | zero => simp [segOff]
  | succ k ih =>
    have htake : rest.take (segOff h k) = (rest.take (segOff h (k + 1))).take (segOff h k) := by
      rw [List.take_take, min_eq_left (segOff_mono (Nat.le_succ k))]
    rw [range_succ, List.flatMap_append, List.flatMap_singleton, ih, htake, piece, List.take_append_drop]

theorem piece_flatMap {gcm : Gcm} (lawful : gcm.Lawful) (ok : h.Accepted) (key : Bytes) {p : Bytes}
    (hp : h.plaintextLen = p.length) {i : ℕ} (hi : i < h.segCount) :
    piece h ((List.range h.segCount).flatMap (sealedSeg gcm key h p)) i = sealedSeg gcm key h p i := by
  have hoff (k : ℕ) : segOff h k = ((List.range k).flatMap (sealedSeg gcm key h p)).length := by
    rw [length_flatMap_sealedSeg key lawful ok, segOff, hp]
  have hsplit := flatMap_range_add (sealedSeg gcm key h p) (i + 1) (h.segCount - (i + 1))
  rw [Nat.add_sub_cancel' hi] at hsplit
  rw [piece, hsplit, hoff (i + 1), take_left, hoff i, range_succ, List.flatMap_append, List.drop_left,
    List.flatMap_singleton]

section Run

variable {ε : Type} {c : Crypto} {key : Bytes}

variable {i k : ℕ} {p rest : Bytes}

theorem artifactNonce_eq (ok : h.Accepted) (hi : i < h.segCount) :
    (artifactNonce i h.segCount : Except (Fault ε) Bytes) = .ok (h.nonceAt i) := by
  have := ok.segCount_lt_u64Max
  rw [artifactNonce, addU64_eq_ok (by omega), ok_bind]
  rfl

theorem sealNext_eq (lawful : c.gcm.Lawful) (ok : h.Accepted) (hp : h.plaintextLen = p.length)
    (hfit : p.length + h.segBytes ≤ u64Max) (hi : i < h.segCount) (out : Bytes) :
    sealNext c key h.raw p h.segBytes h.segCount out i = .ok (out ++ sealedSeg c.gcm key h p i) := by
  have hstart := PackHeader.mul_segBytes_le hi
  have hcount := ok.segCount_lt_u64Max
  have hstop : (i + 1) * h.segBytes ≤ u64Max := by rw [add_mul, one_mul]; omega
  have hchunk : slice p (min (i * h.segBytes) p.length) (min ((i + 1) * h.segBytes) p.length) =
      some (chunk h.segBytes p i) := by
    have hle : i * h.segBytes ≤ (i + 1) * h.segBytes := Nat.mul_le_mul_right _ (Nat.le_succ i)
    have hstop : (i + 1) * h.segBytes = i * h.segBytes + h.segBytes := by rw [add_mul, one_mul]
    rw [slice, if_pos (by omega), min_eq_left (by omega), chunk, List.drop_take, Option.some.injEq,
      List.take_eq_take_iff, List.length_drop]
    omega
  rw [sealNext, mulU64_eq_ok (by omega), ok_bind, addU64_eq_ok (by omega), ok_bind, mulU64_eq_ok hstop, ok_bind,
    hchunk, orPanic_some, ok_bind, artifactNonce_eq ok hi, ok_bind, (sealedSeg_spec lawful ok key p i).1]
  rfl

variable (key) in
theorem foldlM_sealNext (lawful : c.gcm.Lawful) (ok : h.Accepted) (hp : h.plaintextLen = p.length)
    (hfit : p.length + h.segBytes ≤ u64Max) (hk : k ≤ h.segCount) (out : Bytes) :
    (List.range k).foldlM (sealNext c key h.raw p h.segBytes h.segCount) out =
      .ok (out ++ (List.range k).flatMap (sealedSeg c.gcm key h p)) := by
  induction k with
  | zero => simp
  | succ k ih =>
    rw [range_succ, List.foldlM_append, ih (by omega), ok_bind, List.foldlM_cons,
      sealNext_eq lawful ok hp hfit (by omega), ok_bind, List.flatMap_append, List.flatMap_singleton, append_assoc]
    rfl

/-- A segment as it is opened. -/
def opened (c : Crypto) (key : Bytes) (h : PackHeader) (rest : Bytes) (i : ℕ) : Except (Fault ArtifactError) Bytes :=
  orErr (c.gcm.decrypt key (h.nonceAt i) h.raw (piece h rest i)) .sealedPackCorrupt

variable (ok : h.Accepted) (hrest : h.plaintextLen + tagLen * h.segCount ≤ rest.length)
  (hfit : h.raw.length + rest.length ≤ u64Max)

include ok hrest hfit in
theorem openNext_eq (hi : i < h.segCount) (out : Bytes) :
    openNext c key h.raw (h.raw ++ rest) h.plaintextLen h.segBytes h.segCount (out, h.raw.length + segOff h i) i =
      (opened c key h rest i >>= fun pt => .ok (out ++ pt, h.raw.length + segOff h (i + 1))) := by
  have hstart := PackHeader.mul_segBytes_le hi
  have hu := ok.plaintextLen_le_u64Max
  have hS := ok.segBytes_le
  have hsucc := segOff_succ h i
  have hlast : segOff h (i + 1) ≤ rest.length := (segOff_mono hi).trans ((segOff_segCount h).le.trans hrest)
  have hslice : slice (h.raw ++ rest) (h.raw.length + segOff h i) (h.raw.length + segOff h (i + 1)) =
      some (piece h rest i) := by
    rw [slice, if_pos ⟨by omega, by rw [length_append]; omega⟩, piece, List.take_append, List.drop_append]
    simp
  have hlen : min (h.plaintextLen - i * h.segBytes) h.segBytes + 16 ≤ u64Max :=
    (Nat.add_le_add_right ((min_le_right _ _).trans hS) _).trans (by decide)
  rw [openNext, mulU64_eq_ok (by omega), ok_bind, min_eq_left hstart, subU64_eq_ok hstart, ok_bind,
    addU64_eq_ok hlen, ok_bind, artifactNonce_eq ok hi, ok_bind]
  change (addU64 (h.raw.length + segOff h i) (min (h.plaintextLen - i * h.segBytes) h.segBytes + tagLen) >>= _) = _
  rw [addU64_eq_ok (by omega), ok_bind, add_assoc, ← hsucc, hslice, orPanic_some, ok_bind]
  rfl

variable (c key) in
include ok hrest hfit in
theorem foldlM_openNext (hk : k ≤ h.segCount) :
    (List.range k).foldlM (openNext c key h.raw (h.raw ++ rest) h.plaintextLen h.segBytes h.segCount)
        ([], h.raw.length) =
      ((List.range k).mapM (opened c key h rest) >>= fun pts => .ok (pts.flatten, h.raw.length + segOff h k)) := by
  induction k with
  | zero => simp [segOff, pure, Except.pure]
  | succ k ih =>
    rw [range_succ, List.foldlM_append, ih (by omega), List.mapM_append]
    cases (List.range k).mapM (opened c key h rest) with
    | error e => rfl
    | ok pts =>
      simp only [ok_bind, List.foldlM_cons, List.foldlM_nil, openNext_eq ok hrest hfit (Nat.lt_of_succ_le hk),
        List.mapM_cons, List.mapM_nil]
      cases opened c key h rest k with
      | error e => rfl
      | ok pt => simp [pure, Except.pure]

end Run

end Segments

/-! ### Headers -/

/-- The bytes of a header. -/
def headerBytes (segLog2 : UInt8) (block lenBytes fileId : Bytes) : Bytes :=
  magic ++ [artifactVersion, segLog2, 0, 0] ++ block ++ lenBytes ++ fileId

/-- A header as one of a file of one epoch: the segments are cut and numbered the same way. -/
def packHeader (segLog2 : UInt8) (block lenBytes fileId : Bytes) : PackHeader where
  raw := headerBytes segLog2 block lenBytes fileId
  segLog2 := segLog2.toNat
  epoch := 0
  plaintextLen := beNat lenBytes
  fileId := fileId

/-- A header with a block of `n` slots, and what follows it. -/
structure Framed (sealed : Bytes) (n : ℕ) (segLog2 : UInt8) (block lenBytes fileId rest : Bytes) : Prop where
  n_pos : 1 ≤ n
  n_le : n ≤ maxArtifactRecipients
  block_length : block.length = 37 + slotLen * n
  block_head : block.head? = some (UInt8.ofNat n)
  lenBytes_length : lenBytes.length = 8
  fileId_length : fileId.length = 16
  min_le : artifactMinSegLog2 ≤ segLog2.toNat
  le_max : segLog2.toNat ≤ artifactMaxSegLog2
  bytes : sealed = headerBytes segLog2 block lenBytes fileId ++ rest

section Header

variable {sealed : Bytes} {n : ℕ} {segLog2 : UInt8} {block lenBytes fileId rest : Bytes}

namespace Framed

variable (f : Framed sealed n segLog2 block lenBytes fileId rest)
include f

theorem length_header : (headerBytes segLog2 block lenBytes fileId).length = artifactHeaderLen n := by
  simp only [headerBytes, length_append, f.block_length, f.lenBytes_length, f.fileId_length, artifactHeaderLen,
    magic, List.length_cons, length_nil]
  omega

theorem toNat_n : (UInt8.ofNat n).toNat = n :=
  UInt8.toNat_ofNat_of_lt' (lt_of_le_of_lt f.n_le (by decide))

theorem framed : artifactFramed sealed = true := by
  have hlen := f.length_header
  have hblock := f.block_length
  have hmin := f.min_le
  have hmax := f.le_max
  rw [artifactFramed, f.bytes, decide_eq_true_eq]
  refine ⟨by rw [length_append, hlen, artifactHeaderLen]; omega, rfl, rfl, hmin, hmax, rfl⟩

theorem get_eight : sealed[8]? = some (UInt8.ofNat n) := by
  have hhead := f.block_head
  rw [f.bytes]
  cases hb : block with
  | nil => rw [hb] at hhead; cases hhead
  | cons b bs =>
    rw [hb] at hhead
    rw [← hhead]
    rfl

theorem slice_header : slice sealed 0 (artifactHeaderLen n) = some (headerBytes segLog2 block lenBytes fileId) := by
  rw [← f.length_header, f.bytes, slice, if_pos ⟨Nat.zero_le _, by simp⟩, take_left, List.drop_zero]

theorem slice_block : slice (headerBytes segLog2 block lenBytes fileId) 8 (8 + 37 + slotLen * n) = some block := by
  have hstop : 8 + 37 + slotLen * n = (magic ++ [artifactVersion, segLog2, 0, 0] ++ block).length := by
    simp only [length_append, f.block_length, magic, List.length_cons, length_nil]
    omega
  rw [hstop, headerBytes, append_assoc _ lenBytes, append_assoc _ block]
  exact slice_append _ _ _

theorem slice_lenBytes : slice (headerBytes segLog2 block lenBytes fileId) (artifactHeaderLen n - 24)
    (artifactHeaderLen n - 16) = some lenBytes := by
  have hlen := f.length_header
  have hstart : artifactHeaderLen n - 24 = (magic ++ [artifactVersion, segLog2, 0, 0] ++ block).length := by
    rw [← hlen, headerBytes, length_append, length_append, f.lenBytes_length, f.fileId_length]
    omega
  have hstop : artifactHeaderLen n - 16 =
      (magic ++ [artifactVersion, segLog2, 0, 0] ++ block ++ lenBytes).length := by
    rw [← hlen, headerBytes, length_append, f.fileId_length]
    omega
  rw [hstart, hstop, headerBytes, append_assoc _ lenBytes]
  exact slice_append _ _ _

theorem slice_fileId : slice (headerBytes segLog2 block lenBytes fileId) (artifactHeaderLen n - 16)
    (headerBytes segLog2 block lenBytes fileId).length = some fileId := by
  have hstart : artifactHeaderLen n - 16 =
      (magic ++ [artifactVersion, segLog2, 0, 0] ++ block ++ lenBytes).length := by
    rw [← f.length_header, headerBytes, length_append, f.fileId_length]
    omega
  rw [hstart, slice, if_pos ⟨by simp [headerBytes], le_rfl⟩, List.take_length, headerBytes, List.drop_left]

end Framed

/-- The sizes of a file that a reader accepts. -/
def Fits (sealed : Bytes) (n : ℕ) (h : PackHeader) : Prop :=
  artifactHeaderLen n + h.plaintextLen + h.segCount * 16 ≤ u64Max ∧
    sealed.length = artifactHeaderLen n + h.plaintextLen + h.segCount * 16

instance (sealed : Bytes) (n : ℕ) (h : PackHeader) : Decidable (Fits sealed n h) :=
  inferInstanceAs (Decidable (_ ∧ _))

theorem expected_eq (a b s len : ℕ) : ((checkedAdd a b).bind fun x => (checkedMul s 16).bind fun tags =>
    checkedAdd x tags) = some len ↔ a + b + s * 16 ≤ u64Max ∧ len = a + b + s * 16 := by
  simp only [checkedAdd, checkedMul]
  constructor
  · intro h
    split at h
    swap
    · cases h
    rw [Option.bind_some] at h
    split at h
    swap
    · cases h
    rw [Option.bind_some] at h
    split at h
    · exact ⟨by assumption, (Option.some.inj h).symm⟩
    · cases h
  · rintro ⟨hfit, rfl⟩
    rw [if_pos (by omega), Option.bind_some, if_pos (by omega), Option.bind_some, if_pos hfit]

variable {K : Type} {env : Envelope K} {c : Crypto} {repoId : Bytes32}

/-- What `openArtifact` does with a file whose header was split. -/
def openFramed (env : Envelope K) (c : Crypto) (repoId : Bytes32) (n : ℕ) (h : PackHeader) (block rest : Bytes)
    (ownerKeys : List OwnerKey) (reader : Reader K) : Except (Fault ArtifactError) Bytes := do
  let senderPublic ← orErr (senderKey ownerKeys (UInt32.ofNat (beNat ((block.take 5).drop 1)))) .malformed
  let kObj ← readerKey env c repoId block n senderPublic reader
  let pts ← (List.range h.segCount).mapM (opened c (packKey c repoId kObj h.fileId).val h rest)
  return pts.flatten

namespace Framed

variable (f : Framed sealed n segLog2 block lenBytes fileId rest)
include f

theorem accepted (hfits : Fits sealed n (packHeader segLog2 block lenBytes fileId)) :
    (packHeader segLog2 block lenBytes fileId).Accepted where
  minSegLog2_le := f.min_le
  le_maxSegLog2 := f.le_max
  fileLen_le := by
    have hfit := hfits.1
    simp only [PackHeader.fileLen, headerLen, tagLen, artifactHeaderLen] at *
    omega

theorem rest_length (hfits : Fits sealed n (packHeader segLog2 block lenBytes fileId)) :
    rest.length = (packHeader segLog2 block lenBytes fileId).plaintextLen +
      tagLen * (packHeader segLog2 block lenBytes fileId).segCount := by
  have hlen := f.length_header
  have hsealed := hfits.2
  rw [f.bytes, length_append, hlen] at hsealed
  simp only [tagLen]
  omega

/-- A file whose header was split opens if its sizes fit, and only then. -/
theorem openArtifact_eq (ownerKeys : List OwnerKey) (reader : Reader K) :
    openArtifact env c repoId sealed sealed.length ownerKeys reader =
      if Fits sealed n (packHeader segLog2 block lenBytes fileId) then
        openFramed env c repoId n (packHeader segLog2 block lenBytes fileId) block rest ownerKeys reader
      else .error (.err .sealedPackCorrupt) := by
  have hroom : artifactHeaderLen n ≤ sealed.length := by
    rw [f.bytes, length_append, f.length_header]
    exact Nat.le_add_right _ _
  have hrange : ¬(¬(1 ≤ n ∧ n ≤ maxArtifactRecipients) ∨ sealed.length < artifactHeaderLen n) := by
    push Not
    exact ⟨⟨f.n_pos, f.n_le⟩, hroom⟩
  have hexp : sealed.getD 5 0 = segLog2 := by rw [f.bytes]; rfl
  have hseg : (shlU64 1 segLog2.toNat : Except (Fault ArtifactError) ℕ) = .ok (2 ^ segLog2.toNat) := by
    have hle : 2 ^ segLog2.toNat ≤ u64Max := (Nat.pow_le_pow_right two_pos f.le_max).trans (by decide)
    rw [shlU64_eq_ok] <;> rw [one_mul]
    exact hle
  have hblock : 5 ≤ block.length := by rw [f.block_length]; omega
  rw [openArtifact, if_neg (by simp), f.framed, Bool.not_true, if_neg Bool.false_ne_true, f.get_eight, orPanic_some,
    ok_bind, f.toNat_n, if_neg hrange, f.slice_header, orPanic_some, ok_bind, f.slice_block, orPanic_some, ok_bind,
    f.slice_lenBytes, orPanic_some, ok_bind, f.slice_fileId, orPanic_some, ok_bind, hexp, hseg, ok_bind]
  have hexpected := expected_eq (artifactHeaderLen n) (beNat lenBytes)
    (packHeader segLog2 block lenBytes fileId).segCount
    sealed.length
  by_cases hfits : Fits sealed n (packHeader segLog2 block lenBytes fileId)
  · have ok := f.accepted hfits
    have hrest := f.rest_length hfits
    have hsum : (packHeader segLog2 block lenBytes fileId).raw.length + rest.length ≤ u64Max := by
      have hfit := hfits.1
      rw [← hfits.2, f.bytes, length_append] at hfit
      exact hfit
    have hfold (key : Bytes) := foldlM_openNext c key ok hrest.ge hsum le_rfl
    have hkeyId : slice block 1 5 = some ((block.take 5).drop 1) := by rw [slice, if_pos ⟨by decide, hblock⟩]
    rw [if_pos hfits]
    refine (if_neg (not_not.mpr (hexpected.mpr hfits))).trans ?_
    rw [hkeyId, orPanic_some, ok_bind, openFramed, f.bytes, ← f.length_header]
    congr 1
    funext senderPublic
    congr 1
    funext kObj
    change ((List.range (packHeader segLog2 block lenBytes fileId).segCount).foldlM _ _ >>= _) = _
    refine (congrArg (· >>= fun st => pure st.1) (hfold _)).trans ?_
    rw [bind_assoc]
    rfl
  · rw [if_neg hfits]
    exact if_pos fun heq => hfits (hexpected.mp heq)

end Framed

theorem exists_of_artifactFramed (h : artifactFramed sealed = true) : ∃ segLog2 n tail,
    sealed = magic ++ [artifactVersion, segLog2, 0, 0] ++ n :: tail ∧ 36 ≤ tail.length ∧
      artifactMinSegLog2 ≤ segLog2.toNat ∧ segLog2.toNat ≤ artifactMaxSegLog2 := by
  rw [artifactFramed, decide_eq_true_eq] at h
  obtain ⟨hlen, hmagic, hversion, hmin, hmax, hzero⟩ := h
  match sealed, hlen with
  | b₀ :: b₁ :: b₂ :: b₃ :: v :: l :: z₀ :: z₁ :: n :: tail, hlen =>
    obtain rfl : v = artifactVersion := hversion
    obtain ⟨rfl, rfl⟩ : z₀ = 0 ∧ z₁ = 0 := by simpa using hzero
    refine ⟨l, n, tail, ?_, by simpa using hlen, hmin, hmax⟩
    rw [← hmagic]
    rfl

variable (env c repoId) in
theorem refused_or_framed (sealed : Bytes) (sizeBytes : ℕ) (ownerKeys : List OwnerKey) (reader : Reader K) :
    (∃ e, openArtifact env c repoId sealed sizeBytes ownerKeys reader = .error (.err e)) ∨ sealed.length = sizeBytes ∧
      ∃ n segLog2 block lenBytes fileId rest, Framed sealed n segLog2 block lenBytes fileId rest := by
  by_cases hsize : sealed.length = sizeBytes
  swap
  · exact .inl ⟨_, if_pos hsize⟩
  by_cases hframed : artifactFramed sealed = true
  swap
  · exact .inl ⟨.sealedPackCorrupt, by rw [openArtifact, if_neg (not_not.mpr hsize), if_pos (by simpa using hframed)]⟩
  obtain ⟨segLog2, n, tail, hbytes, htail, hmin, hmax⟩ := exists_of_artifactFramed hframed
  have hget : sealed[8]? = some n := by rw [hbytes]; rfl
  by_cases hrange : ¬(1 ≤ n.toNat ∧ n.toNat ≤ maxArtifactRecipients) ∨ sealed.length < artifactHeaderLen n.toNat
  · refine .inl ⟨.sealedPackCorrupt, ?_⟩
    rw [openArtifact, if_neg (not_not.mpr hsize), hframed, Bool.not_true, if_neg Bool.false_ne_true, hget,
      orPanic_some, ok_bind, if_pos hrange]
  push Not at hrange
  obtain ⟨⟨hpos, hle⟩, hroom⟩ := hrange
  have hlen : 61 + slotLen * n.toNat ≤ (n :: tail).length := by
    rw [hbytes, length_append, artifactHeaderLen] at hroom
    simp only [magic, length_append, List.length_cons, length_nil] at hroom ⊢
    omega
  refine .inr ⟨hsize, n.toNat, segLog2, (n :: tail).take (37 + slotLen * n.toNat),
    ((n :: tail).drop (37 + slotLen * n.toNat)).take 8, ((n :: tail).drop (37 + slotLen * n.toNat + 8)).take 16,
    (n :: tail).drop (37 + slotLen * n.toNat + 8 + 16), ?_⟩
  refine
    { n_pos := hpos
      n_le := hle
      block_length := by rw [List.length_take]; omega
      block_head := ?_
      lenBytes_length := by rw [List.length_take, List.length_drop]; omega
      fileId_length := by rw [List.length_take, List.length_drop]; omega
      min_le := hmin
      le_max := hmax
      bytes := ?_ }
  · rw [add_comm, List.take_succ_cons, List.head?_cons, UInt8.ofNat_toNat]
  · rw [hbytes, headerBytes]
    simp only [append_assoc]
    congr 2
    generalize 37 + slotLen * n.toNat = k
    generalize n :: tail = l
    have hfile : l.drop (k + 8) = (l.drop k).drop 8 := List.drop_drop.symm
    have hrest : l.drop (k + 8 + 16) = (l.drop (k + 8)).drop 16 := List.drop_drop.symm
    rw [hrest, List.take_append_drop, hfile, List.take_append_drop, List.take_append_drop]

variable {n' : ℕ} {segLog2' : UInt8} {block' lenBytes' fileId' rest' : Bytes}

theorem headerBytes_inj {sealed' : Bytes} (f : Framed sealed n segLog2 block lenBytes fileId rest)
    (f' : Framed sealed' n' segLog2' block' lenBytes' fileId' rest')
    (h : headerBytes segLog2 block lenBytes fileId = headerBytes segLog2' block' lenBytes' fileId') :
    packHeader segLog2 block lenBytes fileId = packHeader segLog2' block' lenBytes' fileId' := by
  have hn := congrArg List.length h
  rw [f.length_header, f'.length_header, artifactHeaderLen, artifactHeaderLen, slotLen] at hn
  obtain rfl : n = n' := by omega
  have hfile := List.append_inj' h (f.fileId_length.trans f'.fileId_length.symm)
  have hlen := List.append_inj' hfile.1 (f.lenBytes_length.trans f'.lenBytes_length.symm)
  have hblock := List.append_inj' hlen.1 (f.block_length.trans f'.block_length.symm)
  have hlog : segLog2 = segLog2' := by simpa using hblock.1
  rw [hlog, hblock.2, hlen.2, hfile.2]

variable (f : Framed sealed n segLog2 block lenBytes fileId rest)

include f in
theorem Framed.unique (f' : Framed sealed n' segLog2' block' lenBytes' fileId' rest') :
    packHeader segLog2 block lenBytes fileId = packHeader segLog2' block' lenBytes' fileId' ∧ rest = rest' := by
  have hget := f.get_eight.symm.trans f'.get_eight
  obtain rfl : n = n' := by
    rw [← f.toNat_n, ← f'.toNat_n, Option.some.inj hget]
  obtain ⟨hheader, hrest⟩ := List.append_inj (f.bytes.symm.trans f'.bytes)
    (f.length_header.trans f'.length_header.symm)
  exact ⟨headerBytes_inj f f' hheader, hrest⟩

include f in
theorem piece_isInfix (h : PackHeader) (i : ℕ) :
    piece h rest i <:+: sealed := by
  have hrest : rest <:+: sealed := by
    rw [f.bytes]
    exact (List.suffix_append _ _).isInfix
  exact ((List.drop_suffix _ _).isInfix.trans (List.take_prefix _ _).isInfix).trans hrest

include f in
theorem block_isInfix : block <:+: sealed := by
  refine ⟨magic ++ [artifactVersion, segLog2, 0, 0], lenBytes ++ fileId ++ rest, ?_⟩
  rw [f.bytes, headerBytes]
  simp

/-! ### No panic -/

theorem noPanic_readerKey {senderPublic : Bytes} {reader : Reader K} (h : 37 + slotLen * n ≤ block.length) :
    NoPanic (readerKey env c repoId block n senderPublic reader) := by
  have hfind : NoPanic (findSlotKey env c repoId block n senderPublic reader) := noPanic_findSlotKey h
  unfold readerKey
  split
  · rename_i hpanic
    exact absurd hpanic hfind
  · exact noPanic_err _
  · exact noPanic_err _
  · exact noPanic_ok _

theorem noPanic_openArtifact (sealed : Bytes) (sizeBytes : ℕ) (ownerKeys : List OwnerKey) (reader : Reader K) :
    NoPanic (openArtifact env c repoId sealed sizeBytes ownerKeys reader) := by
  rcases refused_or_framed env c repoId sealed sizeBytes ownerKeys reader with
    ⟨e, he⟩ | ⟨rfl, n, segLog2, block, lenBytes, fileId, rest, f⟩
  · rw [he]
    exact noPanic_err _
  · rw [f.openArtifact_eq]
    refine noPanic_ite (fun _ => ?_) fun _ => noPanic_err _
    refine (noPanic_orErr _ _).bind fun senderPublic _ => (noPanic_readerKey f.block_length.ge).bind fun kObj _ => ?_
    exact (NoPanic.mapM fun i _ => noPanic_orErr _ _).bind fun pts _ => noPanic_ok _

end Header

/-! ### What a writer leaves -/

section Sealed

variable {K : Type} {env : Envelope K} {c : Crypto} {repoId : Bytes32} {sender : K} {senderKeyId : UInt32}
  {ownerId kObj : Bytes32} {recipients : List Recipient} {plaintext sealed : Bytes} {fileId : FileId}
  {segLog2 : UInt8} {ivs : ℕ → Iv}

/-- An artifact as it was sealed. -/
structure SealedArtifact (env : Envelope K) (c : Crypto) (repoId : Bytes32) (sender : K) (senderKeyId : UInt32)
    (ownerId : Bytes32) (recipients : List Recipient) (plaintext : Bytes) (kObj : Bytes32) (fileId : FileId)
    (segLog2 : UInt8) (ivs : ℕ → Iv) (sealed block : Bytes) : Prop where
  slots : Block env c repoId maxArtifactRecipients sender senderKeyId ownerId recipients kObj ivs block
  accepted : (packHeader segLog2 block (toBe 8 plaintext.length) fileId.val).Accepted
  plaintextLen : (packHeader segLog2 block (toBe 8 plaintext.length) fileId.val).plaintextLen = plaintext.length
  bytes : sealed = sealedFile c.gcm (packKey c repoId kObj fileId.val).val
    (packHeader segLog2 block (toBe 8 plaintext.length) fileId.val) plaintext

theorem exists_sealedArtifact (lawful : c.gcm.Lawful) (hp : plaintext.length < 2 ^ 63)
    (h : sealArtifactInner env c repoId sender senderKeyId ownerId recipients plaintext kObj fileId segLog2 ivs =
      .ok sealed) : ∃ block, SealedArtifact env c repoId sender senderKeyId ownerId recipients plaintext kObj fileId
        segLog2 ivs sealed block := by
  unfold sealArtifactInner at h
  split at h
  · cases h
  rename_i hrange
  obtain ⟨hmin, hmax⟩ := not_not.mp hrange
  obtain ⟨block, hblock, h⟩ := bind_eq_ok.mp h
  have hlen : beNat (toBe 8 plaintext.length) = plaintext.length := beNat_toBe_of_lt (by omega)
  have hview : (packHeader segLog2 block (toBe 8 plaintext.length) fileId.val).plaintextLen = plaintext.length := hlen
  have ok : (packHeader segLog2 block (toBe 8 plaintext.length) fileId.val).Accepted := by
    have hbuilt := accepted_build segLog2.toNat 0 plaintext.length fileId.val hmin hmax hp
    refine ⟨hmin, hmax, ?_⟩
    have hfile := hbuilt.fileLen_le
    simp only [PackHeader.fileLen, PackHeader.segCount, PackHeader.segBytes, hview] at hfile ⊢
    exact hfile
  have hS := ok.segBytes_le
  have hseg : (shlU64 1 segLog2.toNat : Except (Fault SealError) ℕ) = .ok (2 ^ segLog2.toNat) := by
    have hle : 2 ^ segLog2.toNat ≤ u64Max := hS.trans (by decide)
    rw [shlU64_eq_ok] <;> rw [one_mul]
    exact hle
  have hfold := foldlM_sealNext (packKey c repoId kObj fileId.val).val lawful ok hview
    (show plaintext.length + _ ≤ u64Max by rw [u64Max]; omega) le_rfl
    (packHeader segLog2 block (toBe 8 plaintext.length) fileId.val).raw
  rw [hseg, ok_bind] at h
  refine ⟨block, block_of_slotBlock hblock, ok, hview, ?_⟩
  have hcount : (packHeader segLog2 block (toBe 8 plaintext.length) fileId.val).segCount =
      max (plaintext.length ⌈/⌉ 2 ^ segLog2.toNat) 1 := by
    rw [PackHeader.segCount, hview]
    rfl
  rw [hcount] at hfold
  rw [sealedFile, hcount]
  exact Except.ok.inj (h.symm.trans hfold)

namespace SealedArtifact

variable {block : Bytes} (h : SealedArtifact env c repoId sender senderKeyId ownerId recipients plaintext kObj fileId
  segLog2 ivs sealed block)
include h

theorem framed : Framed sealed recipients.length segLog2 block (toBe 8 plaintext.length) fileId.val
    ((List.range (packHeader segLog2 block (toBe 8 plaintext.length) fileId.val).segCount).flatMap
      (sealedSeg c.gcm (packKey c repoId kObj fileId.val).val
        (packHeader segLog2 block (toBe 8 plaintext.length) fileId.val) plaintext)) where
  n_pos := h.slots.length_pos
  n_le := h.slots.length_le
  block_length := h.slots.length_eq
  block_head := by rw [h.slots.bytes]; rfl
  lenBytes_length := length_toBe 8 _
  fileId_length := fileId.2
  min_le := h.accepted.minSegLog2_le
  le_max := h.accepted.le_maxSegLog2
  bytes := h.bytes

variable (lawful : c.gcm.Lawful)
include lawful

theorem length_eq : sealed.length = artifactHeaderLen recipients.length + plaintext.length +
    (packHeader segLog2 block (toBe 8 plaintext.length) fileId.val).segCount * 16 := by
  have hle := PackHeader.plaintextLen_le (packHeader segLog2 block (toBe 8 plaintext.length) fileId.val)
  rw [h.plaintextLen] at hle
  rw [h.framed.bytes, length_append, h.framed.length_header,
    length_flatMap_sealedSeg _ lawful h.accepted, min_eq_right hle, add_assoc, mul_comm tagLen]
  rfl

theorem fits (hp : plaintext.length < 2 ^ 63) :
    Fits sealed recipients.length (packHeader segLog2 block (toBe 8 plaintext.length) fileId.val) := by
  have hlen := h.length_eq lawful
  have hcount := PackHeader.segCount_le_of_lt h.accepted.minSegLog2_le
    (show (packHeader segLog2 block (toBe 8 plaintext.length) fileId.val).plaintextLen < 2 ^ 63 by
      rw [h.plaintextLen]; exact hp)
  have hn : recipients.length ≤ 64 := h.slots.length_le
  refine ⟨?_, by rw [h.plaintextLen]; exact hlen⟩
  rw [h.plaintextLen]
  simp only [artifactHeaderLen, slotLen, u64Max]
  omega

/-- A reader of an artifact gets its plaintext, if it has a key of a recipient. -/
theorem openArtifact_eq (ideal : env.Ideal) (hp : plaintext.length < 2 ^ 63) {ownerKeys : List OwnerKey}
    (hsender : HoldsSender env sender senderKeyId ownerKeys) (reader : Reader K) :
    openArtifact env c repoId sealed sealed.length ownerKeys reader =
      match reader.keys.findSome? (slotOf env recipients) with
      | none => .error (.err .notARecipient)
      | some _ => .ok plaintext := by
  have hkeyId : UInt32.ofNat (beNat ((block.take 5).drop 1)) = senderKeyId := by
    have hslice := h.slots.slice_keyId
    have hlen := h.slots.length_eq
    rw [slice, if_pos (by omega), Option.some.injEq] at hslice
    rw [hslice, beNat_toBe_of_lt senderKeyId.toNat_lt, UInt32.ofNat_toNat]
  rw [h.framed.openArtifact_eq, if_pos (h.fits lawful hp), openFramed, hkeyId, hsender.senderKey_eq, orErr_some,
    ok_bind, readerKey, findSlotKey_eq ideal h.slots]
  cases reader.keys.findSome? (slotOf env recipients) with
  | none => rfl
  | some slot =>
    have hopened : ∀ i ∈ List.range (packHeader segLog2 block (toBe 8 plaintext.length) fileId.val).segCount,
        opened c (packKey c repoId kObj fileId.val).val (packHeader segLog2 block (toBe 8 plaintext.length) fileId.val)
          ((List.range (packHeader segLog2 block (toBe 8 plaintext.length) fileId.val).segCount).flatMap
            (sealedSeg c.gcm (packKey c repoId kObj fileId.val).val
              (packHeader segLog2 block (toBe 8 plaintext.length) fileId.val) plaintext)) i =
          .ok (chunk (packHeader segLog2 block (toBe 8 plaintext.length) fileId.val).segBytes plaintext i) := by
      intro i hi
      rw [opened, piece_flatMap lawful h.accepted _ h.plaintextLen (List.mem_range.mp hi),
        (sealedSeg_spec lawful h.accepted _ plaintext i).2.2, orErr_some]
    have hall : ((List.range (packHeader segLog2 block (toBe 8 plaintext.length) fileId.val).segCount).map
        (chunk (packHeader segLog2 block (toBe 8 plaintext.length) fileId.val).segBytes plaintext)).flatten =
          plaintext := by
      have hle := PackHeader.plaintextLen_le (packHeader segLog2 block (toBe 8 plaintext.length) fileId.val)
      rw [h.plaintextLen] at hle
      rw [← List.flatMap_def, List.range_eq_range', flatMap_chunk, zero_mul, List.drop_zero,
        List.take_of_length_le hle]
    simp only [Option.map_some, ok_bind]
    refine (congrArg (· >>= fun pts => pure (List.flatten pts)) (mapM_eq_ok_map hopened)).trans ?_
    rw [ok_bind, hall]
    rfl

end SealedArtifact

/-! ### Changed files -/

/-- `ct` is a segment of the file, at its nonce and under its header. -/
def SegmentOf (sealed nonce ad ct : Bytes) : Prop :=
  ∃ n segLog2 block lenBytes fileId rest, Framed sealed n segLog2 block lenBytes fileId rest ∧
    ∃ i < (packHeader segLog2 block lenBytes fileId).segCount,
      nonce = (packHeader segLog2 block lenBytes fileId).nonceAt i ∧
        ad = (packHeader segLog2 block lenBytes fileId).raw ∧
          ct = piece (packHeader segLog2 block lenBytes fileId) rest i

/-- Nothing in the bytes opens, under a key that the reader finds in them, but segments of the file. -/
def Unforged (env : Envelope K) (c : Crypto) (repoId : Bytes32) (sealed bytes : Bytes) (reader : Reader K) : Prop :=
  ∀ block n senderPublic slot kObj, block <:+: bytes →
    findSlotKey env c repoId block n senderPublic reader = .ok (some (slot, kObj)) →
    ∀ fileId nonce ad ct pt, ct <:+: bytes → c.gcm.decrypt (packKey c repoId kObj fileId).val nonce ad ct = some pt →
      SegmentOf sealed nonce ad ct

variable {block : Bytes} {reader : Reader K}

theorem exists_of_readerKey {senderPublic : Bytes} {n : ℕ}
    (h : readerKey env c repoId block n senderPublic reader = .ok kObj) :
    ∃ slot, findSlotKey env c repoId block n senderPublic reader = .ok (some (slot, kObj)) := by
  unfold readerKey at h
  split at h
  · cases h
  · cases h
  · cases h
  · rename_i slot key hfind
    obtain rfl := Except.ok.inj h
    exact ⟨slot, hfind⟩

theorem exists_of_mapM_opened {h : PackHeader} {key rest : Bytes} {k : ℕ} {pts : List Bytes}
    (hpts : (List.range k).mapM (opened c key h rest) = .ok pts) {i : ℕ} (hi : i < k) :
    ∃ pt, c.gcm.decrypt key (h.nonceAt i) h.raw (piece h rest i) = some pt := by
  obtain ⟨hlen, hget⟩ := getElem?_mapM_range hpts
  have hopened := hget i _ (List.getElem?_eq_getElem (hlen.symm ▸ hi))
  exact ⟨_, orErr_eq_ok.mp hopened⟩

/-- What opens is the file: its segments stand at their places, under its header. -/
theorem SealedArtifact.eq_of_openArtifact (h : SealedArtifact env c repoId sender senderKeyId ownerId
    recipients plaintext kObj fileId segLog2 ivs sealed block) (lawful : c.gcm.Lawful)
    (hp : plaintext.length < 2 ^ 63) {bytes out : Bytes} {sizeBytes : ℕ} {ownerKeys : List OwnerKey}
      (hunforged : Unforged env c repoId sealed bytes reader)
    (hopen : openArtifact env c repoId bytes sizeBytes ownerKeys reader = .ok out) : bytes = sealed := by
  rcases refused_or_framed env c repoId bytes sizeBytes ownerKeys reader with
    ⟨e, he⟩ | ⟨rfl, n, segLog2', block', lenBytes', fileId', rest', f'⟩
  · rw [he] at hopen
    cases hopen
  rw [f'.openArtifact_eq] at hopen
  split at hopen
  swap
  · cases hopen
  rename_i hfits'
  obtain ⟨senderPublic, -, hopen⟩ := bind_eq_ok.mp hopen
  obtain ⟨kObj', hkey, hopen⟩ := bind_eq_ok.mp hopen
  obtain ⟨pts, hpts, -⟩ := bind_eq_ok.mp hopen
  obtain ⟨slot, hfind⟩ := exists_of_readerKey hkey
  have hf := h.framed
  have hfits := h.fits lawful hp
  have hseg : ∀ i < (packHeader segLog2' block' lenBytes' fileId').segCount,
      SegmentOf sealed ((packHeader segLog2' block' lenBytes' fileId').nonceAt i)
        (packHeader segLog2' block' lenBytes' fileId').raw
            (piece (packHeader segLog2' block' lenBytes' fileId') rest' i) := by
    intro i hi
    obtain ⟨pt, hpt⟩ := exists_of_mapM_opened hpts hi
    exact hunforged _ _ _ _ _ (block_isInfix f') hfind _ _ _ _ _ (piece_isInfix f' _ i) hpt
  generalize hh : packHeader segLog2 block (toBe 8 plaintext.length) fileId.val = header at *
  generalize hrest : (List.range header.segCount).flatMap
    (sealedSeg c.gcm (packKey c repoId kObj fileId.val).val header plaintext) = rest at *
  -- the header is that of the file: it is bound in the first segment
  have hheader : packHeader segLog2' block' lenBytes' fileId' = header := by
    obtain ⟨n₀, l₀, b₀, len₀, file₀, rest₀, f₀, i, -, -, hraw, -⟩ :=
      hseg 0 (PackHeader.segCount_pos _)
    rw [headerBytes_inj f' f₀ hraw, ← hh]
    exact (f₀.unique hf).1
  rw [hheader] at hseg hfits'
  have hcount := h.accepted.segCount_lt_u64Max
  -- every segment stands at its place: it is bound in its nonce
  have hpiece : ∀ i < header.segCount, piece header rest' i = piece header rest i := by
    intro i hi
    obtain ⟨n₀, l₀, b₀, len₀, file₀, rest₀, f₀, j, hj, hnonce, -, hct⟩ := hseg i hi
    obtain ⟨hsame, rfl⟩ := f₀.unique hf
    rw [hsame, hh] at hj hnonce hct
    rw [hh] at hcount
    have hlt : header.segCount < 2 ^ 64 := hcount.trans (by decide)
    rw [PackHeader.nonceAt_inj (hi.trans hlt) (hj.trans hlt) hnonce] at hct ⊢
    exact hct
  have hlen' := f'.rest_length (by rw [hheader]; exact hfits')
  have hlen := hf.rest_length (by rw [hh]; exact hfits)
  rw [hheader] at hlen'
  rw [hh] at hlen
  have hrests : rest' = rest := by
    have hpieces : (List.range header.segCount).flatMap (piece header rest') =
        (List.range header.segCount).flatMap (piece header rest) :=
      List.flatMap_congr fun i hi => hpiece i (List.mem_range.mp hi)
    rwa [flatMap_piece, flatMap_piece, segOff_segCount, List.take_of_length_le hlen'.le,
      List.take_of_length_le hlen.le] at hpieces
  rw [f'.bytes, hf.bytes, hrests]
  exact congrArg (· ++ rest) ((congrArg PackHeader.raw hheader).trans (congrArg PackHeader.raw hh).symm)

end Sealed

/-- A reader has a key of a recipient, or none. -/
theorem findSome?_slotOf_eq_none {K : Type} {env : Envelope K} {recipients : List Recipient} {keys : List K} :
    keys.findSome? (slotOf env recipients) = none ↔ ∀ q ∈ keys, ∀ r ∈ recipients, env.publicKey q ≠ r.publicKey := by
  rw [List.findSome?_eq_none_iff]
  simp only [slotOf, List.findIdx?_eq_none_iff, decide_eq_false_iff_not, ne_eq]
  exact forall₂_congr fun q _ => forall₂_congr fun r _ => not_congr eq_comm

/-- **An artifact is read by its recipients, as it was sealed, and by no one else.** The sizes are exact; who has a
recipient's key gets the plaintext, who has none is no recipient; bytes that are not the file and hold no forged
segment are refused, and so are a letter's if its list is not as a writer makes it; no bytes make a reader panic. -/
theorem artifact_spec {K : Type} {env : Envelope K} {c : Crypto} (ideal : env.Ideal) (lawful : c.gcm.Lawful) :
    (∀ repoId sender senderKeyId ownerId recipients plaintext kObj fileId segLog2 ivs sealed,
      sealArtifactInner env c repoId sender senderKeyId ownerId recipients plaintext kObj fileId segLog2 ivs =
        .ok sealed → plaintext.length < 2 ^ 63 →
      sealed.length = 69 + 64 * recipients.length + plaintext.length +
        16 * max 1 (plaintext.length ⌈/⌉ 2 ^ segLog2.toNat) ∧
      (∀ ownerKeys reader, HoldsSender env sender senderKeyId ownerKeys →
        ((∃ q ∈ reader.keys, ∃ r ∈ recipients, env.publicKey q = r.publicKey) →
          openArtifact env c repoId sealed sealed.length ownerKeys reader = .ok plaintext) ∧
        ((∀ q ∈ reader.keys, ∀ r ∈ recipients, env.publicKey q ≠ r.publicKey) →
          openArtifact env c repoId sealed sealed.length ownerKeys reader = .error (.err .notARecipient))) ∧
      ∀ bytes sizeBytes ownerKeys reader, bytes ≠ sealed → Unforged env c repoId sealed bytes reader →
        ∃ e, openArtifact env c repoId bytes sizeBytes ownerKeys reader = .error (.err e)) ∧
    (∀ repoId bytes sizeBytes ownerKeys reader,
      NoPanic (openArtifact env c repoId bytes sizeBytes ownerKeys reader)) ∧
    ∀ repoId header enc ownerKeys reader, NoPanic (openLetter env c repoId header enc ownerKeys reader) ∧
      ∀ letter, openLetter env c repoId header enc ownerKeys reader = .ok (.readable letter) →
        Listed env c repoId header enc reader letter := by
  refine ⟨fun repoId sender senderKeyId ownerId recipients plaintext kObj fileId segLog2 ivs sealed h hp => ?_,
    fun repoId bytes sizeBytes ownerKeys reader => noPanic_openArtifact bytes sizeBytes ownerKeys reader,
    fun repoId header enc ownerKeys reader => ⟨noPanic_openLetter, fun letter => openLetter_listed⟩⟩
  obtain ⟨block, hsealed⟩ := exists_sealedArtifact lawful hp h
  refine ⟨?_, fun ownerKeys reader hsender => ?_, fun bytes sizeBytes ownerKeys reader hne hunforged => ?_⟩
  · have hcount : (packHeader segLog2 block (toBe 8 plaintext.length) fileId.val).segCount =
        max 1 (plaintext.length ⌈/⌉ 2 ^ segLog2.toNat) := by
      rw [PackHeader.segCount, hsealed.plaintextLen, max_comm]
      rfl
    rw [hsealed.length_eq lawful, hcount, artifactHeaderLen, slotLen]
    omega
  · have hopen := hsealed.openArtifact_eq lawful ideal hp hsender reader
    refine ⟨fun hheld => ?_, fun hnone => ?_⟩
    · obtain ⟨q, hq, r, hr, hkey⟩ := hheld
      cases hfind : reader.keys.findSome? (slotOf env recipients) with
      | none => exact absurd hkey (findSome?_slotOf_eq_none.mp hfind q hq r hr)
      | some slot => rw [hopen, hfind]
    · rw [hopen, findSome?_slotOf_eq_none.mpr hnone]
  · have hpanic : NoPanic (openArtifact env c repoId bytes sizeBytes ownerKeys reader) :=
      noPanic_openArtifact bytes sizeBytes ownerKeys reader
    cases hopen : openArtifact env c repoId bytes sizeBytes ownerKeys reader with
    | ok out => exact absurd (hsealed.eq_of_openArtifact lawful hp hunforged hopen) hne
    | error e =>
      cases e with
      | err e => exact ⟨e, rfl⟩
      | panic => exact absurd hopen hpanic

/-! ### Samples -/

/-- A tag that every message has. -/
def stampGcm : Gcm where
  encrypt _ _ _ msg := if msg.length ≤ gcmMax then some (msg ++ List.replicate 16 0xaa) else none
  decrypt _ _ _ ct :=
    let msg := ct.take (ct.length - tagLen)
    if ct = msg ++ List.replicate 16 0xaa then some msg else none

theorem stampGcm_lawful : stampGcm.Lawful := by
  intro key nonce ad msg hmsg
  have hlen : (msg ++ List.replicate 16 (0xaa : UInt8)).length = msg.length + tagLen := by simp [tagLen]
  refine ⟨_, if_pos hmsg, hlen, ?_⟩
  simp only [stampGcm, hlen, Nat.add_sub_cancel, take_left, if_true]

/-- Bytes with fewer than 16 bytes of the tag hold no segment. -/
theorem unforged_of_count {K : Type} {env : Envelope K} {repoId : Bytes32} {sealed bytes : Bytes} {reader : Reader K}
    (h : bytes.count 0xaa < 16) : Unforged env (cryptoSample stampGcm) repoId sealed bytes reader := by
  intro block n senderPublic slot kObj _ _ fileId nonce ad ct pt hct hdec
  have hcount : ct.count 0xaa ≤ bytes.count 0xaa := hct.sublist.count_le _
  simp only [cryptoSample, stampGcm] at hdec
  split at hdec
  · rename_i htag
    rw [htag, List.count_append, List.count_replicate_self] at hcount
    omega
  · cases hdec

/-- Seal three bytes to two people. -/
def artifactSample : Except (Fault SealError) Bytes :=
  sealArtifactInner envelopeSample (cryptoSample stampGcm) (digest [1]) firstKey 7 (digest [8])
    [recipientSample 8 firstKey, recipientSample 9 secondKey] [1, 2, 3] (digest [2]) ⟨List.replicate 16 4, rfl⟩ 10
    fun _ => ⟨List.replicate 16 3, rfl⟩

def openArtifactSample (bytes : Bytes) (a : Fin 3) : Except (Fault ArtifactError) Bytes :=
  openArtifact envelopeSample (cryptoSample stampGcm) (digest [1]) bytes bytes.length
    [⟨7, 1, 0, (publicSample firstKey).val⟩] ⟨digest [9], [a]⟩

/-- The second of three people reads, the third does not, and without its last byte the file is refused. -/
theorem artifact_spec_sample : ∃ sealed, artifactSample = .ok sealed ∧ openArtifactSample sealed 1 = .ok [1, 2, 3] ∧
    openArtifactSample sealed 2 = .error (.err .notARecipient) ∧
    ∃ e, openArtifactSample sealed.dropLast 1 = .error (.err e) := by
  have hok : artifactSample.toOption.any fun sealed => sealed.dropLast.count 0xaa < 16 ∧ sealed ≠ [] := by
    decide +kernel
  cases hseal : artifactSample with
  | error e => simp [hseal, Except.toOption] at hok
  | ok sealed =>
    obtain ⟨hcount, hne⟩ : sealed.dropLast.count 0xaa < 16 ∧ sealed ≠ [] := by
      simpa [hseal, Except.toOption] using hok
    obtain ⟨-, hread, hrefused⟩ := (artifact_spec envelopeSample_ideal stampGcm_lawful).1 _ _ _ _ _ _ _ _ _ _ _ hseal
      (by decide)
    have hsender : HoldsSender envelopeSample 0 7 [⟨7, 1, 0, (publicSample 0).val⟩] := rfl
    refine ⟨sealed, rfl, (hread _ _ hsender).1 ⟨1, by decide, recipientSample 9 1, by decide, rfl⟩,
      (hread _ _ hsender).2 (by decide), ?_⟩
    refine hrefused _ _ _ _ (fun heq => ?_) (unforged_of_count hcount)
    have hlen := congrArg List.length heq
    have hpos := List.length_pos_iff.mpr hne
    rw [List.length_dropLast] at hlen
    omega

end DashForge.Named
