import DashForge.Data.CeilDiv
import DashForge.Private.SealedStream
import Mathlib.Algebra.BigOperators.Ring.List

/-!
# Push fees

What a push is quoted (`cost.rs`): the `chunk` documents that store bytes, the quote for artifacts of which only the
total is known (`sealedPartsChunks`), and the estimate of a push. Sums and products that the source leaves unchecked go
through `addU64` and `mulU64`, so that one that does not fit shows as a panic.

Over `ℕ` a cost is linear in the bytes and the documents (`chunksCost`), and rounding up is what a split costs:
`sum_chunksCost_le` is the bound behind the quote.
-/

namespace DashForge.PushFees

open List Sealed

/-- The raw payload of one `chunk` document. -/
def docPayloadMax : ℕ := 4900 * 3

def chunkPerByte : ℕ := 27700
def chunkFlatBase : ℕ := 28000000
def chunkPerLevel : ℕ := 7000000
def chunkTreeLevels : ℕ := 16

/-- A chunk's cost beyond its bytes. -/
def chunkFlat : ℕ := chunkFlatBase + chunkPerLevel * chunkTreeLevels

/-- The bytes a chunk document carries beyond its payload. -/
def chunkOverheadBytes : ℕ := 130

def manifestFirst : ℕ := 140000000
def refFirst : ℕ := 92000000
def urisPerTarget : ℕ := 9000000

/-- The segment size writers use. -/
def writeSegLog2 : ℕ := 14

def fanoutLen : ℕ := 256 * 4
def locatorRowLen : ℕ := 36

/-- The size that `plain` bytes take sealed. -/
def sealedUpperBound (plain : ℕ) : Io ℕ := do
  let segments := max (plain ⌈/⌉ 2 ^ writeSegLog2) 1
  let body ← addU64 plain headerLen
  let tags ← mulU64 16 segments
  addU64 body tags

/-- The credits of one document of `b` bytes. -/
def doc (b : ℕ) : Io ℕ := do
  let size ← addU64 b chunkOverheadBytes
  let perByte ← mulU64 chunkPerByte size
  addU64 perByte chunkFlat

/-- The credits of storing `bytes` as `chunk` documents. -/
def chunks (bytes : ℕ) : Io ℕ := do
  let full := bytes / docPayloadMax
  let rest := bytes % docPayloadMax
  let tail ← if 0 < rest then doc rest else pure 0
  let whole ← doc docPayloadMax
  return satAdd (satMul full whole) tail

/-- The quote for `parts` artifacts of `plain` bytes in all, each sealed and stored as its own documents. -/
def sealedPartsChunks (plain parts : ℕ) : Io ℕ := do
  let extra := parts - 1
  let perSeal ← addU64 headerLen 16
  let sealExtra ← mulU64 extra perSeal
  let overhead ← mulU64 chunkPerByte chunkOverheadBytes
  let perDoc ← addU64 overhead chunkFlat
  let docExtra ← mulU64 extra perDoc
  let bound ← sealedUpperBound plain
  let bytes ← addU64 bound sealExtra
  let cost ← chunks bytes
  addU64 cost docExtra

/-- The size of a browse-index fragment. -/
def locatorBytes (objects : ℕ) : Io ℕ := do
  let rows ← mulU64 locatorRowLen objects
  addU64 (fanoutLen + 76) rows

/-- The bytes an artifact takes stored. -/
def stored (plain : ℕ) (isSealed : Bool) : Io ℕ := if isSealed then sealedUpperBound plain else return plain

/-- The credits of a browse-index fragment stored as `chunk` documents. -/
def indexChunks (objects : ℕ) (isSealed : Bool) : Io ℕ := do
  let bytes ← locatorBytes objects
  let size ← stored bytes isSealed
  chunks size

/-- `n` ref updates, priced as first writes. -/
def estimateRefUpdates (n : ℕ) : Io ℕ := mulU64 refFirst n

/-- What a push writes, as far as its price depends on it. -/
structure PushShape where
  packBytes : ℕ
  objects : ℕ
  /-- The objects that the browse index published with the pack covers. -/
  indexObjects : ℕ
  refs : ℕ
  externalTargets : ℕ
  /-- Platform stores the pack and the index. -/
  platformBytes : Bool
  isSealed : Bool
deriving DecidableEq, Repr

/-- A push's estimate. -/
structure PushEstimate where
  metadataCredits : ℕ
  chunkCredits : ℕ
deriving DecidableEq, Repr

def PushEstimate.total (e : PushEstimate) : Io ℕ := addU64 e.metadataCredits e.chunkCredits

/-- The chunk documents of the pack and of its browse index, where Platform stores them. -/
def chunkCredits (shape : PushShape) : Io ℕ :=
  if shape.platformBytes then do
    let size ← stored shape.packBytes shape.isSealed
    let pack ← chunks size
    let index ← indexChunks (max shape.indexObjects shape.objects) shape.isSealed
    addU64 pack index
  else return 0

/-- What a push writes on chain: two manifests, its ref updates and its chunk documents. -/
def estimatePush (shape : PushShape) : Io PushEstimate := do
  let uris ← mulU64 urisPerTarget shape.externalTargets
  let manifest ← addU64 manifestFirst uris
  let manifests ← mulU64 manifest 2
  let refs ← estimateRefUpdates shape.refs
  let metadata ← addU64 manifests refs
  let credits ← chunkCredits shape
  return ⟨metadata, credits⟩

/-! ### Costs over `ℕ` -/

/-- What every document costs beyond its payload. -/
def docFlat : ℕ := chunkPerByte * chunkOverheadBytes + chunkFlat

/-- The credits of `bytes` as documents. -/
def chunksCost (bytes : ℕ) : ℕ := chunkPerByte * bytes + docFlat * (bytes ⌈/⌉ docPayloadMax)

/-- The size sealed. -/
def sealedSize (plain : ℕ) : ℕ := plain + headerLen + 16 * max (plain ⌈/⌉ 2 ^ writeSegLog2) 1

/-- The quote. -/
def partsCost (plain parts : ℕ) : ℕ :=
  chunksCost (sealedSize plain + (parts - 1) * (headerLen + 16)) + (parts - 1) * docFlat

section Cost

variable {a b n : ℕ}

theorem docPayloadMax_pos : 0 < docPayloadMax := by decide

theorem segment_pos : 0 < 2 ^ writeSegLog2 := Nat.two_pow_pos _

theorem chunksCost_mono (h : a ≤ b) : chunksCost a ≤ chunksCost b := by
  have hdocs : a ⌈/⌉ docPayloadMax ≤ b ⌈/⌉ docPayloadMax := (gc_mul_ceilDiv docPayloadMax_pos).monotone_l h
  exact Nat.add_le_add (Nat.mul_le_mul_left _ h) (Nat.mul_le_mul_left _ hdocs)

theorem chunksCost_add_le (a b : ℕ) : chunksCost (a + b) ≤ chunksCost a + chunksCost b := by
  have h := Nat.mul_le_mul_left docFlat (add_ceilDiv_le docPayloadMax_pos a b)
  simp only [chunksCost, mul_add] at h ⊢
  omega

theorem le_chunksCost_add (a b : ℕ) : chunksCost a + chunksCost b ≤ chunksCost (a + b) + docFlat := by
  have h := Nat.mul_le_mul_left docFlat (ceilDiv_add_ceilDiv_le docPayloadMax_pos a b)
  simp only [chunksCost, mul_add, mul_one] at h ⊢
  omega

theorem sum_sealedSize_le {parts : List ℕ} (hpos : ∀ n ∈ parts, 0 < n) (hne : parts ≠ []) :
    (parts.map sealedSize).sum ≤ sealedSize parts.sum + (parts.length - 1) * (headerLen + 16) := by
  have hlen := length_pos_iff.mpr hne
  have hsize : ∀ n ∈ parts, sealedSize n = n + headerLen + 16 * (n ⌈/⌉ 2 ^ writeSegLog2) := by
    intro n hn
    rw [sealedSize, max_eq_left]
    exact Nat.one_le_iff_ne_zero.mpr fun hzero =>
      (hpos n hn).ne' (by simpa using (ceilDiv_le_iff_le_mul segment_pos).mp hzero.le)
  have hsum : (parts.map sealedSize).sum =
      parts.sum + parts.length * headerLen + 16 * (parts.map (· ⌈/⌉ 2 ^ writeSegLog2)).sum := by
    rw [map_congr_left hsize, sum_map_add, sum_map_add, sum_map_mul_left, map_id',
      map_const', sum_replicate, smul_eq_mul]
  have hround := sum_ceilDiv_le parts segment_pos hne
  have hone := le_max_left (parts.sum ⌈/⌉ 2 ^ writeSegLog2) 1
  obtain ⟨extra, hextra⟩ : ∃ extra, parts.length = extra + 1 := ⟨parts.length - 1, by omega⟩
  rw [hextra] at hround
  rw [hsum, sealedSize, hextra]
  simp only [Nat.add_sub_cancel, add_mul, mul_add, one_mul] at hround ⊢
  omega

/-- Parts cost no more than their total is quoted. -/
theorem sum_chunksCost_le {parts : List ℕ} (hpos : ∀ n ∈ parts, 0 < n) (hne : parts ≠ []) :
    (parts.map fun n => chunksCost (sealedSize n)).sum ≤ partsCost parts.sum parts.length := by
  have hsizes : parts.map sealedSize ≠ [] := fun h => hne (map_eq_nil_iff.mp h)
  have hround := sum_ceilDiv_le (parts.map sealedSize) docPayloadMax_pos hsizes
  have hsum : (parts.map fun n => chunksCost (sealedSize n)).sum =
      chunkPerByte * (parts.map sealedSize).sum + docFlat * ((parts.map sealedSize).map (· ⌈/⌉ docPayloadMax)).sum := by
    simp only [chunksCost, sum_map_add, sum_map_mul_left, map_map]
    rfl
  calc (parts.map fun n => chunksCost (sealedSize n)).sum
      ≤ chunkPerByte * (parts.map sealedSize).sum +
          docFlat * ((parts.map sealedSize).sum ⌈/⌉ docPayloadMax + (parts.length - 1)) := by
        rw [hsum]
        rw [length_map] at hround
        exact Nat.add_le_add_left (Nat.mul_le_mul_left _ hround) _
    _ = chunksCost (parts.map sealedSize).sum + (parts.length - 1) * docFlat := by
        rw [chunksCost, mul_add, add_assoc, mul_comm (parts.length - 1)]
    _ ≤ partsCost parts.sum parts.length :=
        Nat.add_le_add_right (chunksCost_mono (sum_sealedSize_le hpos hne)) _

/-- A byte costs at most its share of a full document. -/
theorem chunksCost_le (n : ℕ) : chunksCost n ≤ 37469 * n + docFlat := by
  have hdocs : n ⌈/⌉ docPayloadMax ≤ n / docPayloadMax + 1 := by
    rw [ceilDiv_eq_div_add docPayloadMax_pos]
    split_ifs <;> omega
  simp only [chunksCost, docFlat, docPayloadMax, chunkPerByte, chunkOverheadBytes, chunkFlat, chunkFlatBase,
    chunkPerLevel, chunkTreeLevels] at hdocs ⊢
  omega

theorem sealedSize_le (n : ℕ) : sealedSize n ≤ 2 * n + 68 := by
  have hsegs : n ⌈/⌉ 2 ^ writeSegLog2 ≤ n / 2 ^ writeSegLog2 + 1 := by
    rw [ceilDiv_eq_div_add segment_pos]
    split_ifs <;> omega
  simp only [sealedSize, writeSegLog2, headerLen] at hsegs ⊢
  omega

end Cost

/-! ### What is computed -/

section Computed

variable {b n plain parts objects : ℕ} {isSealed : Bool} {shape : PushShape}

theorem doc_eq (hb : b ≤ docPayloadMax) : doc b = .ok (chunkPerByte * b + docFlat) := by
  simp only [docPayloadMax] at hb
  simp only [doc, docFlat, chunkPerByte, chunkOverheadBytes, chunkFlat, chunkFlatBase, chunkPerLevel, chunkTreeLevels]
  rw [addU64_eq_ok (by simp only [u64Max]; omega), ok_bind, mulU64_eq_ok (by simp only [u64Max]; omega), ok_bind,
    addU64_eq_ok (by simp only [u64Max]; omega)]
  exact congrArg _ (by omega)

theorem chunksCost_eq (n : ℕ) : chunksCost n = n / docPayloadMax * (chunkPerByte * docPayloadMax + docFlat) +
    if 0 < n % docPayloadMax then chunkPerByte * (n % docPayloadMax) + docFlat else 0 := by
  rw [chunksCost, ceilDiv_eq_div_add docPayloadMax_pos]
  have hsplit := Nat.div_add_mod n docPayloadMax
  generalize n / docPayloadMax = full, n % docPayloadMax = rest at hsplit ⊢
  rw [← hsplit]
  split_ifs with hpos
  · ring
  · rw [Nat.eq_zero_of_not_pos hpos]
    ring

/-- The credits of any number of bytes, up to the largest value. -/
theorem chunks_eq (n : ℕ) : chunks n = .ok (min (chunksCost n) u64Max) := by
  have hrest := (Nat.mod_lt n docPayloadMax_pos).le
  rw [chunks, chunksCost_eq]
  split_ifs with hpos
  · simp only [doc_eq hrest, doc_eq le_rfl, ok_bind]
    exact congrArg Except.ok (by simp only [satAdd, satMul]; omega)
  · simp only [doc_eq le_rfl, ok_bind, pure_bind]
    exact congrArg Except.ok (by simp only [satAdd, satMul]; omega)

theorem sealedUpperBound_eq (hn : n < 2 ^ 62) : sealedUpperBound n = .ok (sealedSize n) := by
  have hle := sealedSize_le n
  rw [sealedSize] at hle
  simp only [headerLen] at hle
  rw [sealedUpperBound, addU64_eq_ok (by simp only [u64Max, headerLen]; omega), ok_bind,
    mulU64_eq_ok (by simp only [u64Max]; omega), ok_bind, addU64_eq_ok (by simp only [u64Max, headerLen]; omega)]
  rfl

theorem stored_eq (isSealed : Bool) (hn : n < 2 ^ 62) : ∃ size ≤ 2 * n + 68, stored n isSealed = .ok size := by
  rw [stored]
  cases isSealed with
  | true => exact ⟨_, sealedSize_le n, by rw [if_pos rfl, sealedUpperBound_eq hn]⟩
  | false => exact ⟨n, by omega, rfl⟩

/-- What one sealed part costs. -/
theorem partChunks_eq (hn : n < 2 ^ 40) :
    (do chunks (← sealedUpperBound n)) = (.ok (chunksCost (sealedSize n)) : Io ℕ) := by
  have hsize := sealedSize_le n
  have hcost := chunksCost_le (sealedSize n)
  rw [sealedUpperBound_eq (by omega), ok_bind, chunks_eq, min_eq_left]
  simp only [docFlat, chunkPerByte, chunkOverheadBytes, chunkFlat, chunkFlatBase, chunkPerLevel,
    chunkTreeLevels] at hcost
  simp only [u64Max]
  omega

/-- The quote is what it should be where that fits in 64 bits, and a panic elsewhere. -/
theorem sealedPartsChunks_eq (hplain : plain < 2 ^ 40) (hparts : parts ≤ 2 ^ 40) : sealedPartsChunks plain parts =
      if partsCost plain parts ≤ u64Max then .ok (partsCost plain parts) else .error .panic := by
  have hsize := sealedSize_le plain
  have hcost := chunksCost_le (sealedSize plain + (parts - 1) * (headerLen + 16))
  have hseal : (addU64 headerLen 16 : Io ℕ) = .ok (headerLen + 16) := rfl
  have hover : (mulU64 chunkPerByte chunkOverheadBytes : Io ℕ) = .ok (chunkPerByte * chunkOverheadBytes) := rfl
  have hdoc : (addU64 (chunkPerByte * chunkOverheadBytes) chunkFlat : Io ℕ) = .ok docFlat := rfl
  have hflat : docFlat = 143601000 := rfl
  rw [hflat] at hcost
  rw [sealedPartsChunks, hseal, ok_bind, mulU64_eq_ok (by simp only [u64Max, headerLen]; omega), ok_bind, hover,
    ok_bind, hdoc, ok_bind, sealedUpperBound_eq (by omega), partsCost]
  by_cases hfits : (parts - 1) * docFlat ≤ u64Max
  · rw [mulU64_eq_ok hfits, ok_bind, ok_bind, addU64_eq_ok (by simp only [u64Max, headerLen]; omega), ok_bind,
      chunks_eq, ok_bind, min_eq_left (by simp only [u64Max, headerLen] at hcost ⊢; omega)]
    rfl
  · rw [mulU64, if_neg hfits, if_neg (by omega)]
    rfl

theorem partsCost_le (hplain : plain < 2 ^ 40) (hparts : parts ≤ 2 ^ 36) : partsCost plain parts ≤ u64Max := by
  have hsize := sealedSize_le plain
  have hcost := chunksCost_le (sealedSize plain + (parts - 1) * (headerLen + 16))
  have hflat : docFlat = 143601000 := rfl
  rw [hflat] at hcost
  rw [partsCost, hflat]
  simp only [headerLen, u64Max] at hcost ⊢
  omega

theorem chunks_stored (isSealed : Bool) (hn : n < 2 ^ 41) :
    ∃ credits ≤ 2 ^ 58, (do chunks (← stored n isSealed)) = (.ok credits : Io ℕ) := by
  obtain ⟨size, hsize, hstored⟩ := stored_eq isSealed (show n < 2 ^ 62 by omega)
  have hcost := chunksCost_le size
  have hflat : docFlat = 143601000 := rfl
  rw [hflat] at hcost
  refine ⟨min (chunksCost size) u64Max, (min_le_left _ _).trans (by omega), ?_⟩
  rw [hstored, ok_bind, chunks_eq]

theorem indexChunks_eq (isSealed : Bool) (hobjects : objects < 2 ^ 32) :
    ∃ credits ≤ 2 ^ 58, indexChunks objects isSealed = .ok credits := by
  obtain ⟨credits, hle, hcredits⟩ := chunks_stored isSealed (n := fanoutLen + 76 + locatorRowLen * objects)
    (by simp only [fanoutLen, locatorRowLen]; omega)
  have hbytes : locatorBytes objects = .ok (fanoutLen + 76 + locatorRowLen * objects) := by
    rw [locatorBytes, mulU64_eq_ok (by simp only [u64Max, locatorRowLen]; omega), ok_bind,
      addU64_eq_ok (by simp only [u64Max, fanoutLen, locatorRowLen]; omega)]
  exact ⟨credits, hle, by rw [indexChunks, hbytes, ok_bind, hcredits]⟩

variable (hpack : shape.packBytes < 2 ^ 40) (hobjects : shape.objects < 2 ^ 32) (hindex : shape.indexObjects < 2 ^ 32)

include hpack hobjects hindex in
theorem chunkCredits_eq : ∃ credits ≤ 2 ^ 59, chunkCredits shape = .ok credits := by
  obtain ⟨pack, hpackle, hpack⟩ := chunks_stored shape.isSealed (n := shape.packBytes) (by omega)
  obtain ⟨index, hindexle, hindex⟩ := indexChunks_eq shape.isSealed (max_lt hindex hobjects)
  rw [chunkCredits]
  split_ifs with hplatform
  · refine ⟨pack + index, by omega, ?_⟩
    rw [← bind_assoc, hpack, ok_bind, hindex, ok_bind, addU64_eq_ok (by simp only [u64Max]; omega)]
  · exact ⟨0, Nat.zero_le _, rfl⟩

include hpack hobjects hindex in
/-- Nothing in the estimate of a push wraps. -/
theorem estimatePush_eq (hrefs : shape.refs < 2 ^ 20) (htargets : shape.externalTargets ≤ 2 ^ 39) :
    ∃ e total, estimatePush shape = .ok e ∧ e.total = .ok total := by
  obtain ⟨credits, hcredits, hchunk⟩ := chunkCredits_eq hpack hobjects hindex
  refine ⟨⟨(manifestFirst + urisPerTarget * shape.externalTargets) * 2 + refFirst * shape.refs, credits⟩, _, ?_,
    addU64_eq_ok (by simp only [manifestFirst, urisPerTarget, refFirst, u64Max]; omega)⟩
  rw [estimatePush, mulU64_eq_ok (by simp only [urisPerTarget, u64Max]; omega), ok_bind,
    addU64_eq_ok (by simp only [manifestFirst, urisPerTarget, u64Max]; omega), ok_bind,
    mulU64_eq_ok (by simp only [manifestFirst, urisPerTarget, u64Max]; omega), ok_bind, estimateRefUpdates,
    mulU64_eq_ok (by simp only [refFirst, u64Max]; omega), ok_bind,
    addU64_eq_ok (by simp only [manifestFirst, urisPerTarget, refFirst, u64Max]; omega), ok_bind, hchunk]
  rfl

end Computed

/-! ### The quote -/

/-- The seal writer gives a file of the size that is priced. -/
theorem sealPieces_length {gcm : Gcm} (lawful : gcm.Lawful) (keys : EpochKeys) {fileId p : Bytes}
    (hid : fileId.length = 16) (hp : p.length < 2 ^ 62) {pieces : List Bytes} (hpieces : pieces.flatten = p) :
    ∃ file, sealPieces gcm keys writeSegLog2 p.length fileId pieces = .ok file ∧
      sealedUpperBound p.length = .ok file.length := by
  have ok := accepted_build writeSegLog2 keys.epoch p.length fileId (by decide) (by decide) (by omega)
  refine ⟨_, sealPieces_eq lawful ok hpieces, ?_⟩
  rw [length_sealedFile _ lawful ok (length_build_raw _ _ _ _ hid) rfl, sealedUpperBound_eq hp]
  exact congrArg Except.ok (by rw [sealedSize, add_comm p.length]; rfl)

/-- A quote from totals is an upper bound for every split, as long as the quote itself fits in 64 bits, which it does
for up to `2 ^ 36` parts. -/
theorem quote_spec :
    (∀ parts : List ℕ, (∀ n ∈ parts, 0 < n) → parts ≠ [] → parts.sum < 2 ^ 40 →
      ∃ costs, parts.mapM (fun n => do chunks (← sealedUpperBound n)) = (.ok costs : Io (List ℕ)) ∧
        (∀ quote, sealedPartsChunks parts.sum parts.length = .ok quote →
          costs.sum ≤ quote ∧ (parts.length = 1 → costs.sum = quote)) ∧
        (parts.length ≤ 2 ^ 36 → ∃ quote, sealedPartsChunks parts.sum parts.length = .ok quote)) ∧
    (∀ a b, a ≤ b → ∃ x y, chunks a = .ok x ∧ chunks b = .ok y ∧ x ≤ y) ∧
    (∀ a b, ∃ x y z, chunks a = .ok x ∧ chunks b = .ok y ∧ chunks (a + b) = .ok z ∧
      z ≤ x + y + docFlat ∧ (a + b < 2 ^ 48 → x + y ≤ z + docFlat)) ∧
    (∀ gcm : Gcm, gcm.Lawful → ∀ (keys : EpochKeys) (fileId p : Bytes) (pieces : List Bytes),
      fileId.length = 16 → p.length < 2 ^ 40 → pieces.flatten = p →
        ∃ file, sealPieces gcm keys writeSegLog2 p.length fileId pieces = .ok file ∧
          sealedUpperBound p.length = .ok file.length) ∧
    (∀ objects isSealed, objects < 2 ^ 32 → ∃ credits, indexChunks objects isSealed = .ok credits) ∧
    ∀ shape : PushShape, shape.packBytes < 2 ^ 40 → shape.objects < 2 ^ 32 → shape.indexObjects < 2 ^ 32 →
      shape.refs < 2 ^ 20 → shape.externalTargets ≤ 2 ^ 39 →
        ∃ e total, estimatePush shape = .ok e ∧ e.total = .ok total := by
  refine ⟨fun parts hpos hne hsum => ?_, fun a b hab => ⟨_, _, chunks_eq a, chunks_eq b, ?_⟩,
    fun a b => ⟨_, _, _, chunks_eq a, chunks_eq b, chunks_eq (a + b), ?_, fun hlt => ?_⟩,
    fun gcm lawful keys fileId p pieces hid hp hpieces => sealPieces_length lawful keys hid (by omega) hpieces,
    fun objects isSealed hobjects => ?_,
    fun shape hpack hobjects hindex hrefs htargets => estimatePush_eq hpack hobjects hindex hrefs htargets⟩
  · have hlt : ∀ n ∈ parts, n < 2 ^ 40 := fun n hn => (single_le_sum (fun _ _ => Nat.zero_le _) n hn).trans_lt hsum
    have hlen : parts.length ≤ parts.sum := length_le_sum_of_one_le parts hpos
    refine ⟨_, mapM_eq_ok_map fun n hn => partChunks_eq (hlt n hn), ?_, fun hfew => ?_⟩
    · intro quote hquote
      rw [sealedPartsChunks_eq hsum (by omega)] at hquote
      split_ifs at hquote
      obtain rfl := Except.ok.inj hquote
      refine ⟨sum_chunksCost_le hpos hne, fun hone => ?_⟩
      obtain ⟨n, rfl⟩ := length_eq_one_iff.mp hone
      simp [partsCost]
    · exact ⟨_, by rw [sealedPartsChunks_eq hsum (by omega), if_pos (partsCost_le hsum hfew)]⟩
  · exact min_le_min_right _ (chunksCost_mono hab)
  · have := chunksCost_add_le a b
    omega
  · have hadd := le_chunksCost_add a b
    have hcost := chunksCost_le (a + b)
    have hflat : docFlat = 143601000 := rfl
    rw [hflat] at hcost
    rw [min_eq_left (show chunksCost (a + b) ≤ u64Max by simp only [u64Max]; omega)]
    exact (Nat.add_le_add (min_le_left _ _) (min_le_left _ _)).trans hadd
  · obtain ⟨credits, -, hcredits⟩ := indexChunks_eq isSealed hobjects
    exact ⟨credits, hcredits⟩

/-- Two parts, one of them of several segments, and a file that is sealed in two pieces. -/
theorem quote_spec_sample :
    (∃ costs quote, [1, 2 ^ 22].mapM (fun n => do chunks (← sealedUpperBound n)) = (.ok costs : Io (List ℕ)) ∧
      sealedPartsChunks [1, 2 ^ 22].sum [1, 2 ^ 22].length = .ok quote ∧ costs.sum ≤ quote) ∧
    ∃ file, sealPieces checksumGcm ⟨7, reverse⟩ writeSegLog2 3 (replicate 16 9) [[1], [2, 3]] =
      .ok file ∧ sealedUpperBound 3 = .ok file.length := by
  obtain ⟨hparts, -, -, hseal, -⟩ := quote_spec
  obtain ⟨costs, hcosts, hbound, hquote⟩ := hparts [1, 2 ^ 22] (by decide) (by decide) (by decide)
  obtain ⟨quote, hquote⟩ := hquote (by decide)
  exact ⟨⟨costs, quote, hcosts, hquote, (hbound quote hquote).1⟩, hseal checksumGcm checksumGcm_lawful
    ⟨7, reverse⟩ (replicate 16 9) [1, 2, 3] [[1], [2, 3]] (by decide) (by decide) (by decide)⟩

/-- With enough parts of one byte each the quote does not fit in 64 bits, and no 64-bit quote is a bound. Where the
cost of the bytes does not fit two halves are not bounded by the whole, and enough external targets make the estimate of
a push wrap. -/
theorem sealedPartsChunks_wraps :
    ((∀ n ∈ replicate (2 ^ 37) 1, 0 < n) ∧ (replicate (2 ^ 37) 1).sum < 2 ^ 40 ∧
      sealedPartsChunks (replicate (2 ^ 37) 1).sum (replicate (2 ^ 37) 1).length = .error .panic ∧
      ∃ costs, (replicate (2 ^ 37) 1).mapM (fun n => do chunks (← sealedUpperBound n)) =
        (.ok costs : Io (List ℕ)) ∧ u64Max < costs.sum) ∧
    (∃ x z, chunks (2 ^ 49) = .ok x ∧ chunks (2 ^ 49 + 2 ^ 49) = .ok z ∧ z + docFlat < x + x) ∧
    estimatePush ⟨1, 1, 1, 1, 2 ^ 63, true, false⟩ = .error .panic := by
  have hone : chunksCost (sealedSize 1) = 145069100 := by decide
  have hquote : ¬partsCost (2 ^ 37) (2 ^ 37) ≤ u64Max := by
    have hflat : docFlat = 143601000 := rfl
    rw [partsCost, hflat]
    simp only [u64Max]
    omega
  refine ⟨⟨fun n hn => by rw [eq_of_mem_replicate hn]; decide, ?_, ?_, _, mapM_eq_ok_map fun n hn =>
    partChunks_eq (by rw [eq_of_mem_replicate hn]; decide), ?_⟩, ⟨_, _, chunks_eq _, chunks_eq _, by decide⟩, rfl⟩
  · rw [sum_replicate]
    decide
  · rw [sum_replicate, length_replicate, smul_eq_mul, mul_one,
      sealedPartsChunks_eq (by decide) (by decide), if_neg hquote]
  · rw [map_replicate, sum_replicate, hone]
    decide

end DashForge.PushFees
