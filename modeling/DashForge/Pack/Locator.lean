import DashForge.Data.LowerBound
import DashForge.Data.SortBy
import DashForge.Pack.Index

/-!
# Object locators

The browse index of a repository (`pack/locator.rs`): a fanout of 256 cumulative row counts, then
rows of fixed width sorted by OID and pack. A reader takes the rows between two fanout entries and
searches them for the first row of an OID.

`parse` accepts a locator exactly when its fanout describes its rows and the rows are in order
(`parse_eq_ok_iff`), and then `lookup` reads only rows that are there and finds the copy with the
lowest pack (`lookup_spec`).
-/

namespace DashForge

open List

/-- The width of a row. -/
def locatorRowLen : ℕ := oidLen + 2 + 5 + 4 + 4 + 1

/-- The bytes of the fanout: 256 cumulative counts. -/
def fanoutLen : ℕ := 256 * 4

/-- What rows are sorted by: the OID, then the pack. -/
def sortKeyLen : ℕ := oidLen + 2

def offPackRef : ℕ := oidLen
def offOffset : ℕ := offPackRef + 2
def offLength : ℕ := offOffset + 5
def offSpan : ℕ := offLength + 4
def offHint : ℕ := offSpan + 4

/-- One decoded row. -/
structure LocatorEntry where
  /-- The pack's place in the manifest's pack list. -/
  packRef : ℕ
  offset : ℕ
  length : ℕ
  deltaChainSpan : ℕ
  deltaDepth : ℕ
deriving DecidableEq, Repr

/-- A serialized locator and its number of rows. -/
structure ObjectLocator where
  bytes : Bytes
  count : ℕ
deriving DecidableEq, Repr

/-! ### Rows -/

/-- The OID of a row. -/
def rowOid (row : Bytes) : Bytes := row.take oidLen

/-- The OID and the pack of a row, as stored. -/
def rowKey (row : Bytes) : Bytes := row.take sortKeyLen

/-- `row[s..e]` as a number. -/
def rowField (row : Bytes) (s e : ℕ) : ℕ := beNat ((row.take e).drop s)

/-- The pack a row names. -/
def rowPackRef (row : Bytes) : ℕ := rowField row offPackRef (offPackRef + 2)

def decodeRow (row : Bytes) : LocatorEntry where
  packRef := rowPackRef row
  offset := rowField row offOffset (offOffset + 5)
  length := rowField row offLength (offLength + 4)
  deltaChainSpan := rowField row offSpan (offSpan + 4)
  deltaDepth := (row.getD offHint 0).toNat

/-- The first byte of a row's OID, which says its bucket. -/
def rowByte (row : Bytes) : ℕ := (row.headD 0).toNat

/-! ### Parsing -/

/-- The rows up to and with first byte `b`, as the fanout has it. -/
def fanoutAt (bytes : Bytes) (b : ℕ) : ℕ := beNat ((bytes.take (b * 4 + 4)).drop (b * 4))

def rowAt (bytes : Bytes) (i : ℕ) : Bytes :=
  (bytes.take (fanoutLen + (i * locatorRowLen + locatorRowLen))).drop
    (fanoutLen + i * locatorRowLen)

/-- Check the bucket of `b`, which starts at row `lo`; its end. -/
def checkBucket (bytes : Bytes) (count lo b : ℕ) : Except PackError ℕ := do
  let hi := fanoutAt bytes b
  refuseIf (¬(lo ≤ hi ∧ hi ≤ count)) (.config "locator fanout is not cumulative")
  refuseIf ((List.range' lo (hi - lo)).any fun i => rowByte (rowAt bytes i) ≠ b)
    (.config "locator row outside its fanout bucket")
  return hi

namespace ObjectLocator

/-- Parse a serialized locator for reading. -/
def parse (bytes : Bytes) : Except PackError ObjectLocator := do
  refuseIf (bytes.length < fanoutLen) (.config "locator shorter than fanout")
  let count := fanoutAt bytes 255
  refuseIf ((checkedMul count locatorRowLen).bind (checkedAdd · fanoutLen) ≠ some bytes.length)
    (.config "locator length inconsistent with fanout")
  let _ ← (range 256).foldlM (checkBucket bytes count) 0
  refuseIf ((List.range' 1 (count - 1)).any fun i =>
      rowKey (rowAt bytes i) < rowKey (rowAt bytes (i - 1)))
    (.config "locator rows out of order")
  return ⟨bytes, count⟩

/-! ### Lookup

`none` stands for an index out of range, which stops the program. -/

def fanout (loc : ObjectLocator) (byte : ℕ) : Option ℕ :=
  (slice loc.bytes (byte * 4) (byte * 4 + 4)).map beNat

def row (loc : ObjectLocator) (i : ℕ) : Option Bytes :=
  slice loc.bytes (fanoutLen + i * locatorRowLen)
    (fanoutLen + (i * locatorRowLen + locatorRowLen))

/-- Look up an object: its row with the lowest pack. -/
def lookup (loc : ObjectLocator) (oid : Bytes) : Option (Option LocatorEntry) :=
  if oid.length ≠ oidLen then some none
  else do
    let b := (oid.headD 0).toNat
    let lo ← (if b = 0 then some 0 else loc.fanout (b - 1))
    let stop ← loc.fanout b
    let lo ← lowerBound (fun mid => (loc.row mid).map fun row => decide (rowOid row < oid)) lo stop
    if lo < stop then do
      let row ← loc.row lo
      return if rowOid row = oid then some (decodeRow row) else none
    else return none

/-- The rows of a locator, in order. -/
def rows (loc : ObjectLocator) : List Bytes := (range loc.count).map (rowAt loc.bytes)

end ObjectLocator

/-! ### What an accepted locator is -/

/-- Where the bucket of `b` starts. -/
def bucketStart (bytes : Bytes) (b : ℕ) : ℕ := if b = 0 then 0 else fanoutAt bytes (b - 1)

/-- The bucket of `b` ends after it starts, and brackets rows that start with `b`. -/
def BucketOk (bytes : Bytes) (count b : ℕ) : Prop :=
  bucketStart bytes b ≤ fanoutAt bytes b ∧ fanoutAt bytes b ≤ count ∧
    ∀ i, bucketStart bytes b ≤ i → i < fanoutAt bytes b → rowByte (rowAt bytes i) = b

variable {bytes row : Bytes}

theorem checkBucket_eq_ok_iff {count b hi : ℕ} : checkBucket bytes count (bucketStart bytes b) b = .ok hi ↔
      BucketOk bytes count b ∧ hi = bucketStart bytes (b + 1) := by
  have hnext : bucketStart bytes (b + 1) = fanoutAt bytes b := by simp [bucketStart]
  have hrows : (¬(List.range' (bucketStart bytes b) (fanoutAt bytes b - bucketStart bytes b)).any
      (fun i => decide (rowByte (rowAt bytes i) ≠ b)) = true) ↔
      ∀ i, bucketStart bytes b ≤ i → i < fanoutAt bytes b → rowByte (rowAt bytes i) = b := by
    simp only [any_eq_true, mem_range'_1, decide_eq_true_eq, not_exists, not_and, not_not]
    exact ⟨fun h i h₁ h₂ => h i ⟨h₁, by omega⟩, fun h i hi => h i hi.1 (by omega)⟩
  simp only [checkBucket, bind_eq_ok, refuseIf_eq_ok, pure_eq_ok, not_not, hrows, BucketOk, hnext]
  constructor
  · rintro ⟨-, ⟨hlo, hhi⟩, -, hall, rfl⟩
    exact ⟨⟨hlo, hhi, hall⟩, rfl⟩
  · rintro ⟨⟨hlo, hhi, hall⟩, rfl⟩
    exact ⟨(), ⟨hlo, hhi⟩, (), hall, rfl⟩

theorem checkBuckets_eq_ok_iff {count n lo : ℕ} : (range n).foldlM (checkBucket bytes count) 0 = .ok lo ↔
      (∀ b < n, BucketOk bytes count b) ∧ lo = bucketStart bytes n := by
  induction n generalizing lo with
  | zero =>
    rw [range_zero, foldlM_nil, pure_eq_ok]
    simp [bucketStart, eq_comm]
  | succ n ih =>
    rw [range_succ, foldlM_append, bind_eq_ok]
    simp only [ih, foldlM_cons, foldlM_nil, bind_pure]
    constructor
    · rintro ⟨mid, ⟨hall, rfl⟩, hmid⟩
      obtain ⟨hn, hlo⟩ := checkBucket_eq_ok_iff.mp hmid
      refine ⟨fun b hb => ?_, hlo⟩
      rcases Nat.lt_succ_iff_lt_or_eq.mp hb with hb | rfl
      · exact hall b hb
      · exact hn
    · rintro ⟨hall, rfl⟩
      exact ⟨_, ⟨fun b hb => hall b (by omega), rfl⟩, checkBucket_eq_ok_iff.mpr ⟨hall n (by omega), rfl⟩⟩

theorem fanoutAt_lt (bytes : Bytes) (b : ℕ) : fanoutAt bytes b < 2 ^ 32 := by
  have hlt := beNat_lt ((bytes.take (b * 4 + 4)).drop (b * 4))
  have hlen : ((bytes.take (b * 4 + 4)).drop (b * 4)).length ≤ 4 := by
    rw [length_drop, length_take]
    omega
  calc fanoutAt bytes b < 256 ^ ((bytes.take (b * 4 + 4)).drop (b * 4)).length := hlt
    _ ≤ 256 ^ 4 := Nat.pow_le_pow_right (by decide) hlen
    _ = 2 ^ 32 := by decide

/-- What an accepted locator satisfies. -/
structure LocatorOk (loc : ObjectLocator) : Prop where
  count_eq : loc.count = fanoutAt loc.bytes 255
  length_eq : loc.bytes.length = fanoutLen + loc.count * locatorRowLen
  bucket : ∀ b < 256, BucketOk loc.bytes loc.count b
  sorted : loc.rows.Pairwise fun r r' => rowKey r ≤ rowKey r'

theorem pairwise_map_range_iff {α κ : Type*} [LinearOrder κ] (key : α → κ) {f : ℕ → α} {n : ℕ} :
    ((range n).map f).Pairwise (fun a b => key a ≤ key b) ↔ ∀ i, 1 ≤ i → i < n → key (f (i - 1)) ≤ key (f i) := by
  rw [pairwise_map, pairwise_iff_getElem]
  simp only [length_range, getElem_range]
  constructor
  · intro h i h₁ h₂
    exact h (i - 1) i (by omega) h₂ (by omega)
  · intro h i j hi hj hij
    induction j with
    | zero => omega
    | succ j ih =>
      have hstep := h (j + 1) (by omega) hj
      rcases Nat.lt_succ_iff_lt_or_eq.mp hij with hlt | rfl
      · exact (ih (by omega) hlt).trans hstep
      · exact hstep

/-- `parse` accepts exactly the bytes whose fanout describes their sorted rows. -/
theorem ObjectLocator.parse_eq_ok_iff {loc : ObjectLocator} :
    parse bytes = .ok loc ↔ LocatorOk loc ∧ loc.bytes = bytes := by
  have hbound := fanoutAt_lt bytes 255
  have hlen : (checkedMul (fanoutAt bytes 255) locatorRowLen).bind (checkedAdd · fanoutLen) =
      some (fanoutLen + fanoutAt bytes 255 * locatorRowLen) := by
    have h₁ : fanoutAt bytes 255 * locatorRowLen ≤ u64Max := by
      simp only [locatorRowLen, oidLen, u64Max]
      omega
    have h₂ : fanoutAt bytes 255 * locatorRowLen + fanoutLen ≤ u64Max := by
      simp only [locatorRowLen, oidLen, fanoutLen, u64Max]
      omega
    simp only [checkedMul, if_pos h₁, Option.bind_some, checkedAdd, if_pos h₂, Option.some.injEq]
    omega
  have hsorted : (¬(List.range' 1 (fanoutAt bytes 255 - 1)).any (fun i =>
      decide (rowKey (rowAt bytes i) < rowKey (rowAt bytes (i - 1)))) = true) ↔
      ((range (fanoutAt bytes 255)).map (rowAt bytes)).Pairwise
        fun r r' => rowKey r ≤ rowKey r' := by
    rw [pairwise_map_range_iff rowKey]
    simp only [any_eq_true, mem_range'_1, decide_eq_true_eq, not_exists, not_and, not_lt]
    exact ⟨fun h i h₁ h₂ => h i ⟨h₁, by omega⟩, fun h i hi => h i hi.1 (by omega)⟩
  simp only [parse, bind_eq_ok, refuseIf_eq_ok, pure_eq_ok, hlen, checkBuckets_eq_ok_iff, hsorted, not_not]
  constructor
  · rintro ⟨-, hfan, -, heq, lo, ⟨hbuckets, -⟩, -, hrows, rfl⟩
    exact ⟨⟨rfl, (Option.some.inj heq).symm, hbuckets, hrows⟩, rfl⟩
  · rintro ⟨hok, rfl⟩
    obtain ⟨bytes, count⟩ := loc
    obtain rfl : count = fanoutAt bytes 255 := hok.count_eq
    have heq : bytes.length = fanoutLen + fanoutAt bytes 255 * locatorRowLen := hok.length_eq
    exact ⟨(), by simp only; omega, (), congrArg some heq.symm, _, ⟨hok.bucket, rfl⟩, (), hok.sorted, rfl⟩

/-! ### Rows as numbers -/

theorem rowField_lt (row : Bytes) (s e : ℕ) : rowField row s e < 256 ^ (e - s) := by
  refine (beNat_lt _).trans_le (Nat.pow_le_pow_right (by decide) ?_)
  rw [length_drop, length_take]
  omega

variable (hrow : row.length = locatorRowLen)

include hrow in
theorem beNat_rowKey :
    beNat (rowKey row) = beNat (rowOid row) * 65536 + rowPackRef row := by
  have hsplit : rowKey row = rowOid row ++ (row.take (offPackRef + 2)).drop offPackRef := by
    have htake : rowOid row = (row.take (offPackRef + 2)).take offPackRef := by
      rw [take_take]
      rfl
    rw [htake, take_append_drop]
    rfl
  have hlen : ((row.take (offPackRef + 2)).drop offPackRef).length = 2 := by
    simp only [length_drop, length_take, hrow, locatorRowLen, offPackRef, oidLen]
    omega
  rw [hsplit, beNat_append, hlen]
  rfl

include hrow in
theorem length_rowKey : (rowKey row).length = sortKeyLen := by
  simp only [rowKey, length_take, hrow, sortKeyLen, locatorRowLen]
  omega

include hrow in
theorem length_rowOid : (rowOid row).length = oidLen := by
  simp only [rowOid, length_take, hrow, locatorRowLen]
  omega

theorem rowKey_le_iff {r r' : Bytes} (hr : r.length = locatorRowLen) (hr' : r'.length = locatorRowLen) :
    rowKey r ≤ rowKey r' ↔ beNat (rowOid r) * 65536 + rowPackRef r ≤ beNat (rowOid r') * 65536 + rowPackRef r' := by
  rw [← beNat_le_beNat_iff ((length_rowKey hr).trans (length_rowKey hr').symm), beNat_rowKey hr, beNat_rowKey hr']

theorem rowPackRef_lt (row : Bytes) : rowPackRef row < 65536 := rowField_lt _ _ _

include hrow in
theorem rowByte_eq_of_rowOid : rowByte row = ((rowOid row).headD 0).toNat := by
  cases row with
  | nil => simp [locatorRowLen] at hrow
  | cons b row => rfl

/-! ### Lookup in an accepted locator -/

namespace LocatorOk

variable {loc : ObjectLocator} (h : LocatorOk loc)
include h

theorem length_rowAt {i : ℕ} (hi : i < loc.count) : (rowAt loc.bytes i).length = locatorRowLen := by
  have hle : (i + 1) * locatorRowLen ≤ loc.count * locatorRowLen := Nat.mul_le_mul_right _ hi
  have hlen := h.length_eq
  rw [add_mul] at hle
  rw [rowAt, length_drop, length_take]
  omega

theorem row_eq {i : ℕ} (hi : i < loc.count) : loc.row i = some (rowAt loc.bytes i) := by
  have hle : (i + 1) * locatorRowLen ≤ loc.count * locatorRowLen := Nat.mul_le_mul_right _ hi
  have hlen := h.length_eq
  rw [add_mul] at hle
  rw [ObjectLocator.row, slice, if_pos (by omega), rowAt]

theorem fanout_eq {b : ℕ} (hb : b < 256) : loc.fanout b = some (fanoutAt loc.bytes b) := by
  have hlen := h.length_eq
  have hfan : fanoutLen = 1024 := rfl
  rw [ObjectLocator.fanout, slice, if_pos (by omega)]
  rfl

theorem mem_bucket_iff {i b : ℕ} (hi : i < loc.count) (hb : b < 256) :
    rowByte (rowAt loc.bytes i) = b ↔ bucketStart loc.bytes b ≤ i ∧ i < fanoutAt loc.bytes b := by
  constructor
  · intro hbyte
    -- the row lies in the first bucket that ends after it
    have hex : ∃ c, i < fanoutAt loc.bytes c := ⟨255, h.count_eq ▸ hi⟩
    have hlast : Nat.find hex ≤ 255 := Nat.find_min' hex (h.count_eq ▸ hi)
    have hstart : bucketStart loc.bytes (Nat.find hex) ≤ i := by
      unfold bucketStart
      split
      · exact Nat.zero_le _
      · have := Nat.find_min hex (by omega : Nat.find hex - 1 < Nat.find hex)
        omega
    have hstop := Nat.find_spec hex
    have hrow := (h.bucket _ (by omega)).2.2 i hstart hstop
    obtain rfl : Nat.find hex = b := hrow.symm.trans hbyte
    exact ⟨hstart, hstop⟩
  · rintro ⟨hlo, hhi⟩
    exact (h.bucket b hb).2.2 i hlo hhi

theorem rowNum_le {i j : ℕ} (hij : i ≤ j) (hj : j < loc.count) :
    beNat (rowOid (rowAt loc.bytes i)) * 65536 + rowPackRef (rowAt loc.bytes i) ≤
      beNat (rowOid (rowAt loc.bytes j)) * 65536 + rowPackRef (rowAt loc.bytes j) := by
  rw [← rowKey_le_iff (h.length_rowAt (by omega)) (h.length_rowAt hj)]
  rcases Nat.lt_or_eq_of_le hij with hlt | rfl
  · have hsorted := pairwise_iff_getElem.mp (pairwise_map.mp h.sorted) i j
      (by rw [length_range]; omega) (by rw [length_range]; omega) hlt
    rwa [getElem_range, getElem_range] at hsorted
  · exact le_refl _

/-- `lookup` reads no row out of range, and finds the row with the lowest pack among the rows of
an OID, if there is one. -/
theorem lookup_spec (oid : Bytes) : (loc.lookup oid = some none ∧ ∀ row ∈ loc.rows, rowOid row ≠ oid) ∨
      ∃ row ∈ loc.rows, rowOid row = oid ∧ loc.lookup oid = some (some (decodeRow row)) ∧
        ∀ row' ∈ loc.rows, rowOid row' = oid → rowPackRef row ≤ rowPackRef row' := by
  by_cases hlen : oid.length = oidLen
  swap
  · refine .inl ⟨by simp [ObjectLocator.lookup, hlen], ?_⟩
    rintro row hrow rfl
    obtain ⟨i, hi, rfl⟩ := mem_map.mp hrow
    exact hlen (length_rowOid (h.length_rowAt (mem_range.mp hi)))
  set b := (oid.headD 0).toNat with hb
  have hb256 : b < 256 := (oid.headD 0).toNat_lt
  obtain ⟨hstart, hstop, -⟩ := h.bucket b hb256
  have hlo : (if b = 0 then some 0 else loc.fanout (b - 1)) = some (bucketStart loc.bytes b) := by
    unfold bucketStart
    split
    · rfl
    · exact h.fanout_eq (by omega)
  -- the search compares OIDs as numbers
  have hread : ∀ i, bucketStart loc.bytes b ≤ i → i < fanoutAt loc.bytes b →
      (loc.row i).map (fun row => decide (rowOid row < oid)) =
        some (decide (beNat (rowOid (rowAt loc.bytes i)) < beNat oid)) := by
    intro i _ hi
    rw [h.row_eq (by omega), Option.map_some]
    congr 2
    rw [eq_iff_iff, beNat_lt_beNat_iff]
    rw [length_rowOid (h.length_rowAt (by omega)), hlen]
  have hdown : ∀ i j, bucketStart loc.bytes b ≤ i → i ≤ j → j < fanoutAt loc.bytes b →
      beNat (rowOid (rowAt loc.bytes j)) < beNat oid → beNat (rowOid (rowAt loc.bytes i)) < beNat oid := by
    intro i j _ hij hj hlt
    have hle := h.rowNum_le hij (by omega)
    have := rowPackRef_lt (rowAt loc.bytes i)
    have := rowPackRef_lt (rowAt loc.bytes j)
    omega
  obtain ⟨m, hm, hmlo, hmhi, hbelow, habove⟩ := lowerBound_spec hstart hread hdown
  -- every row of the OID is in the bucket, from the row found on
  have hrows : ∀ row ∈ loc.rows, rowOid row = oid → ∃ j, m ≤ j ∧ j < fanoutAt loc.bytes b ∧
      row = rowAt loc.bytes j := by
    intro row hrow hoid
    obtain ⟨j, hj, rfl⟩ := mem_map.mp hrow
    have hj := mem_range.mp hj
    have hbyte : rowByte (rowAt loc.bytes j) = b := by
      rw [rowByte_eq_of_rowOid (h.length_rowAt hj), hoid]
    obtain ⟨hj₁, hj₂⟩ := (h.mem_bucket_iff hj hb256).mp hbyte
    refine ⟨j, ?_, hj₂, rfl⟩
    by_contra hlt
    have := hbelow j hj₁ (by omega)
    rw [hoid] at this
    exact lt_irrefl _ this
  have hlookup : loc.lookup oid = some (if m < fanoutAt loc.bytes b ∧
      rowOid (rowAt loc.bytes m) = oid then some (decodeRow (rowAt loc.bytes m)) else none) := by
    simp only [ObjectLocator.lookup, hlen, ne_eq, not_true, if_false, ← hb, hlo,
      h.fanout_eq hb256, hm, some_bind]
    by_cases hlt : m < fanoutAt loc.bytes b
    · simp [hlt, h.row_eq (by omega : m < loc.count)]
    · simp [hlt]
  by_cases hfound : m < fanoutAt loc.bytes b ∧ rowOid (rowAt loc.bytes m) = oid
  · refine .inr ⟨rowAt loc.bytes m, ?_, hfound.2, by rw [hlookup, if_pos hfound], ?_⟩
    · exact mem_map_of_mem (mem_range.mpr (by omega))
    · intro row hrow hoid
      obtain ⟨j, hmj, hj, rfl⟩ := hrows row hrow hoid
      have hle := h.rowNum_le hmj (by omega)
      rw [hfound.2, hoid] at hle
      omega
  · refine .inl ⟨by rw [hlookup, if_neg hfound], fun row hrow hoid => hfound ?_⟩
    obtain ⟨j, hmj, hj, rfl⟩ := hrows row hrow hoid
    refine ⟨by omega, ?_⟩
    have hle := h.rowNum_le hmj (by omega)
    have hge := habove m le_rfl (by omega)
    have := rowPackRef_lt (rowAt loc.bytes m)
    have := rowPackRef_lt (rowAt loc.bytes j)
    rw [hoid] at hle
    refine beNat_inj ?_ (by omega)
    rw [length_rowOid (h.length_rowAt (by omega)), hlen]

end LocatorOk

end DashForge
