import DashForge.Data.BinarySearch
import DashForge.Pack.HistoryFormat

/-!
# The flat index

A tip commit's recursive file listing as one compressed artifact (`pack/flatindex.rs`): its rows, the writer, the
reader of untrusted bytes and the search for a path.

A written index is read back whatever its rows (`parse_toCompressed`), and `fromParts` puts them in path order. The
reader takes rows in any order, and the search of an index finds all of its paths exactly where the rows are in the
order that the search needs: of rows with distinct paths, where they are in path order (`flatIndex_spec`).
-/

namespace DashForge

open List

/-- One entry of a flat index. -/
structure FlatEntry where
  path : String
  oid : {bs : Bytes // bs.length = oidLen}
  mode : UInt32
  size : UInt64
deriving DecidableEq

structure FlatIndex where
  tip : {bs : Bytes // bs.length = oidLen}
  entries : List FlatEntry
deriving DecidableEq

namespace FlatIndex

open History DashForge.Parser Leb128

def maxInflated : ℕ := 64 * 1024 * 1024

/-- The fewest body bytes a row takes. -/
def minRowLen : ℕ := 4 + oidLen + 1 + 1

/-- Paths compare by their bytes. -/
def pathKey (e : FlatEntry) : Bytes := utf8 e.path

def fromParts (tip : {bs : Bytes // bs.length = oidLen}) (entries : List FlatEntry) : FlatIndex :=
  ⟨tip, sortByKey pathKey entries⟩

def lookup (ix : FlatIndex) (path : String) : Option FlatEntry :=
  (binarySearchByKey pathKey (utf8 path) ix.entries).bind fun i => ix.entries[i]?

/-! ### Writing -/

def writeRow (e : FlatEntry) : Bytes :=
  toBe 4 e.mode.toNat ++ (e.oid.1 ++ (writeVarint e.size.toNat ++ (writeVarint (utf8 e.path).length ++ utf8 e.path)))

def body (ix : FlatIndex) : Bytes :=
  ix.tip.1 ++ (writeVarint ix.entries.length ++ ix.entries.flatMap writeRow)

def toCompressed (gz : Gzip) (ix : FlatIndex) : Bytes := gz.compress (body ix)

/-! ### Reading -/

abbrev Read (α : Type) : Type := Parser PackError UInt8 α

def flatTake (n : ℕ) (what : String) : Read Bytes :=
  Parser.take n (.config ("flatIndex truncated (" ++ what ++ ")"))

def flatVarint : Read ℕ :=
  Leb128.varint (.config "flatIndex truncated (varint)") (.config "flatIndex varint overflow")

/-- `OID_LEN` bytes as an array. -/
def oidArray (bs : Bytes) : Except (Fault PackError) {bs : Bytes // bs.length = oidLen} :=
  if h : bs.length = oidLen then .ok ⟨bs, h⟩ else .error .panic

def parseOid (what : String) : Read {bs : Bytes // bs.length = oidLen} := do
  let bs ← flatTake oidLen what
  run (oidArray bs)

def parseRow : Read FlatEntry := do
  let mode ← flatTake 4 "mode"
  let oid ← parseOid "oid"
  let size ← flatVarint
  let plen ← flatVarint
  let path ← flatTake plen "path"
  match fromUtf8 path with
  | none => fail (.config "flatIndex non-utf8 path")
  | some path => return ⟨path, oid, .ofNat (beNat mode), .ofNat size⟩

def parseIndex : Read FlatIndex := do
  let tip ← parseOid "tip"
  let nrows ← flatVarint
  let left ← remaining
  if left / minRowLen < nrows then fail (.config "flatIndex declares more rows than it holds")
  else
    let entries ← many nrows parseRow
    return ⟨tip, entries⟩

/-- Read a compressed index that inflates to no more than `limit` bytes. -/
def parseBounded (gz : Gzip) (compressed : Bytes) (limit : ℕ) : Except (Fault PackError) FlatIndex :=
  match gz.inflate compressed (limit + 1) with
  | .error e => .error (.err (.io e))
  | .ok bytes =>
    if limit < bytes.length then .error (.err (.config "flatIndex inflates past its size limit"))
    else do
      let (ix, _) ← parseIndex bytes
      return ix

def parse (gz : Gzip) (compressed : Bytes) : Except (Fault PackError) FlatIndex :=
  parseBounded gz compressed maxInflated

/-! ### What is written is read back -/

theorem reads_flatTake (bs : Bytes) {n : ℕ} (what : String) (hn : bs.length = n) : Reads (flatTake n what) bs bs :=
  hn ▸ reads_take bs _

theorem reads_parseOid (oid : {bs : Bytes // bs.length = oidLen}) (what : String) :
    Reads (parseOid what) oid.1 oid := by
  refine (reads_flatTake oid.1 what oid.2).bind_last ?_
  exact reads_run (dif_pos oid.2)

theorem reads_flatVarint {v : ℕ} (hv : v ≤ u64Max) : Reads flatVarint (writeVarint v) v := reads_varint _ _ hv

theorem reads_parseRow {e : FlatEntry} (hpath : (utf8 e.path).length ≤ u64Max) : Reads parseRow (writeRow e) e := by
  have hmode : UInt32.ofNat (beNat (toBe 4 e.mode.toNat)) = e.mode := by
    rw [beNat_toBe_of_lt e.mode.toNat_lt, UInt32.ofNat_toNat]
  have hsize : UInt64.ofNat e.size.toNat = e.size := UInt64.ofNat_toNat
  refine (reads_flatTake _ "mode" (length_toBe 4 _)).bind ?_
  refine (reads_parseOid e.oid "oid").bind ?_
  refine (reads_flatVarint (Nat.le_of_lt_succ e.size.toNat_lt)).bind ?_
  refine (reads_flatVarint hpath).bind ?_
  refine (reads_flatTake (utf8 e.path) "path" rfl).bind_last ?_
  rw [fromUtf8_utf8, hmode, hsize]
  exact reads_pure e

theorem length_writeVarint_pos (v : ℕ) : 0 < (writeVarint v).length := by
  rw [writeVarint, writeGo]
  split <;> exact Nat.succ_pos _

theorem minRowLen_le (e : FlatEntry) : minRowLen + (utf8 e.path).length ≤ (writeRow e).length := by
  have hsize := length_writeVarint_pos e.size.toNat
  have hpath := length_writeVarint_pos (utf8 e.path).length
  simp only [writeRow, length_append, length_toBe, e.oid.2, minRowLen]
  omega

theorem length_mul_minRowLen_le (entries : List FlatEntry) :
    entries.length * minRowLen ≤ (entries.flatMap writeRow).length := by
  induction entries with
  | nil => exact Nat.zero_le _
  | cons e entries ih =>
    have hrow := minRowLen_le e
    rw [flatMap_cons, length_append, length_cons, Nat.succ_mul]
    omega

variable {ix : FlatIndex}

theorem parseIndex_body (hlen : (body ix).length ≤ u64Max) : parseIndex (body ix) = .ok (ix, []) := by
  have hrows : (ix.entries.flatMap writeRow).length ≤ u64Max := by
    simp only [body, length_append] at hlen
    omega
  have hcount := length_mul_minRowLen_le ix.entries
  have hmin : 0 < minRowLen := by decide
  have hle : ix.entries.length ≤ (ix.entries.flatMap writeRow).length / minRowLen :=
    (Nat.le_div_iff_mul_le hmin).mpr hcount
  refine (reads_parseOid ix.tip "tip").bind_apply ?_
  refine (reads_flatVarint (hle.trans ((Nat.div_le_self _ _).trans hrows))).bind_apply ?_
  rw [remaining_bind, if_neg (not_lt.mpr hle)]
  have hpath : ∀ e ∈ ix.entries, (utf8 e.path).length ≤ u64Max := fun e he => by
    have hrow := minRowLen_le e
    have hmem := (sublist_flatten_of_mem (mem_map_of_mem he : writeRow e ∈ ix.entries.map writeRow)).length_le
    rw [← flatMap_def] at hmem
    omega
  have hread : Reads (many ix.entries.length parseRow) (ix.entries.flatMap writeRow) ix.entries := by
    have h := Reads.many fun e he => reads_parseRow (hpath e he)
    rwa [map_id'] at h
  have h := (hread.bind_pure fun entries => (⟨ix.tip, entries⟩ : FlatIndex)) []
  rwa [append_nil] at h

theorem parse_toCompressed {gz : Gzip} (hgz : gz.Lossless) (hlen : (body ix).length ≤ maxInflated) :
    parse gz (toCompressed gz ix) = .ok ix := by
  have hmax : maxInflated ≤ u64Max := by decide
  have htake : (body ix).take (maxInflated + 1) = body ix := take_of_length_le (by omega)
  rw [parse, parseBounded, toCompressed, hgz, htake]
  dsimp only
  rw [if_neg (not_lt.mpr hlen), parseIndex_body (hlen.trans hmax)]
  rfl

/-! ### What is found -/

/-- Whatever the path, the search gives a row with it if there is one. -/
def Answers (ix : FlatIndex) : Prop :=
  ∀ path, (∃ e ∈ ix.entries, ix.lookup path = some e ∧ e.path = path) ↔ ∃ e ∈ ix.entries, e.path = path

theorem pathKey_eq_iff {e : FlatEntry} {path : String} : pathKey e = utf8 path ↔ e.path = path :=
  ⟨utf8_injective, fun h => congrArg utf8 h⟩

theorem lookup_iff {path : String} : (∃ e ∈ ix.entries, ix.lookup path = some e ∧ e.path = path) ↔
      ∃ i, binarySearchByKey pathKey (utf8 path) ix.entries = some i := by
  constructor
  · rintro ⟨e, -, he, -⟩
    obtain ⟨i, hi, -⟩ := Option.bind_eq_some_iff.mp he
    exact ⟨i, hi⟩
  · rintro ⟨i, hi⟩
    obtain ⟨e, he, hkey, -⟩ := binarySearchByKey_eq_some.mp hi
    refine ⟨e, mem_of_getElem? he, ?_, pathKey_eq_iff.mp hkey⟩
    rw [lookup, hi]
    exact he

theorem answers_iff : Answers ix ↔ InSearchOrder pathKey ix.entries := by
  rw [← binarySearchByKey_iff]
  constructor
  · intro h k
    constructor
    · rintro ⟨i, hi⟩
      obtain ⟨e, he, hkey, -⟩ := binarySearchByKey_eq_some.mp hi
      exact ⟨e, mem_of_getElem? he, hkey⟩
    · rintro ⟨e, he, rfl⟩
      exact lookup_iff.mp ((h e.path).mpr ⟨e, he, rfl⟩)
  · intro h path
    rw [lookup_iff, h (utf8 path)]
    simp [pathKey_eq_iff]

theorem answers_iff_sorted (h : (ix.entries.map FlatEntry.path).Nodup) :
    Answers ix ↔ ix.entries.Pairwise fun a b => pathKey a ≤ pathKey b := by
  have hkeys : (ix.entries.map pathKey).Nodup := by
    have hmap := h.map fun _ _ => utf8_injective
    rwa [map_map] at hmap
  rw [answers_iff, inSearchOrder_iff_sorted hkeys]

/-- What is found and what is read back: every row of an accepted index is found exactly where its rows are in the
order that the search needs, which rows in path order are and no others when paths are distinct; an index put together
by `fromParts` has its rows in path order and is read back. -/
theorem flatIndex_spec (gz : Gzip) :
    (∀ compressed ix, parse gz compressed = .ok ix → (Answers ix ↔ InSearchOrder pathKey ix.entries) ∧
      ((ix.entries.map FlatEntry.path).Nodup →
        (Answers ix ↔ ix.entries.Pairwise fun a b => pathKey a ≤ pathKey b)) ∧
      ((ix.entries.Pairwise fun a b => pathKey a ≤ pathKey b) → Answers ix)) ∧
    (gz.Lossless → ∀ tip entries, (body (fromParts tip entries)).length ≤ maxInflated →
      parse gz (toCompressed gz (fromParts tip entries)) = .ok ⟨tip, sortByKey pathKey entries⟩ ∧
      Answers (fromParts tip entries)) := by
  refine ⟨fun _ ix _ => ⟨answers_iff, answers_iff_sorted, fun h => ?_⟩, fun hgz tip entries hlen => ⟨?_, ?_⟩⟩
  · exact answers_iff.mpr (inSearchOrder_of_sorted h)
  · exact parse_toCompressed hgz hlen
  · exact answers_iff.mpr (inSearchOrder_of_sorted (pairwise_sortByKey pathKey entries))

/-- A row of a path, of a file with one byte. -/
def fileRow (path : String) : FlatEntry := ⟨path, ⟨replicate 20 1, rfl⟩, 0o100644, 1⟩

def rowsOf (rows : List FlatEntry) : FlatIndex := ⟨⟨replicate 20 7, rfl⟩, rows⟩

/-- Three rows that are given out of order. -/
def shuffled : List FlatEntry := [fileRow "b/c", fileRow "a", fileRow "b"]

theorem flatIndex_spec_sample :
    storedGzip.Lossless ∧ (body (fromParts (rowsOf []).tip shuffled)).length ≤ maxInflated ∧
      parse storedGzip (toCompressed storedGzip (fromParts (rowsOf []).tip shuffled)) =
        .ok (rowsOf [fileRow "a", fileRow "b", fileRow "b/c"]) ∧
      Answers (rowsOf [fileRow "a", fileRow "b", fileRow "b/c"]) := by
  have hgz : storedGzip.Lossless := fun _ _ => rfl
  have hlen : (body (fromParts (rowsOf []).tip shuffled)).length ≤ maxInflated := by decide +kernel
  have hsorted : sortByKey pathKey shuffled = [fileRow "a", fileRow "b", fileRow "b/c"] := by decide +kernel
  obtain ⟨hparse, -⟩ := (flatIndex_spec storedGzip).2 hgz (rowsOf []).tip shuffled hlen
  rw [hsorted] at hparse
  exact ⟨hgz, hlen, hparse, ((flatIndex_spec storedGzip).1 _ _ hparse).2.2 (by decide +kernel)⟩

/-- An index with its rows out of order is read, and a path it has is not found. -/
theorem lookup_out_of_order :
    ∃ compressed ix e, parse storedGzip compressed = .ok ix ∧ e ∈ ix.entries ∧ ix.lookup e.path = none := by
  have hlen : (body (rowsOf [fileRow "b", fileRow "a"])).length ≤ maxInflated := by decide +kernel
  refine ⟨_, _, fileRow "b", parse_toCompressed (fun _ _ => rfl) hlen, mem_cons_self, ?_⟩
  have hbefore : pathKey (fileRow "a") < utf8 (fileRow "b").path := by decide +kernel
  simp [lookup, rowsOf, binarySearchByKey, binarySearchBy, searchEnd, compare_lt_iff_lt.mpr hbefore]

end FlatIndex

end DashForge
