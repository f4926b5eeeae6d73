import DashForge.Data.BigEndian
import DashForge.Pack.Entry

/-!
# Pack indexes

A v2 pack index (`pack/parse.rs`): the fanout's object count, the OID table and the offset table,
whose large entries point into a table of 64-bit offsets. The layout has to account for every byte
of the file.
-/

namespace DashForge

/-- Trailing checksum length of a SHA-1 packfile. -/
def packTrailer : ℕ := 20

def readU32 (buf : Bytes) (pos : ℕ) : Except PackError ℕ :=
  okOr ((slice buf pos (satAdd pos 4)).map beNat) (.config "index truncated (u32)")

def readU64 (buf : Bytes) (pos : ℕ) : Except PackError ℕ :=
  okOr ((slice buf pos (satAdd pos 8)).map beNat) (.config "index truncated (u64)")

/-- Whether an entry of the 32-bit offset table points into the 64-bit one. -/
def isBigOffset (v : ℕ) : Bool := v &&& 0x80000000 != 0

/-- The offset an entry of the 32-bit table stands for. -/
def readOffset (idx : Bytes) (bigAt v : ℕ) : Except PackError ℕ :=
  if isBigOffset v then do
    let pos ← okOr ((checkedMul (v &&& 0x7fffffff) 8).bind (checkedAdd · bigAt))
      (.config "index truncated (u64)")
    readU64 idx pos
  else .ok v

/-- Parse a v2 index: OIDs and offsets, in index order. -/
def parseIdxV2 (idx : Bytes) : Except PackError (List Bytes × List ℕ) := do
  refuseIf (idx.length < 8 + 1024 ∨ idx.take 4 ≠ [0xff, 0x74, 0x4f, 0x63])
    (.config "not a v2 pack index")
  refuseIf (beNat ((idx.take 8).drop 4) ≠ 2) (.config "unsupported pack index version")
  let fanoutAt := 8
  let n ← readU32 idx (fanoutAt + 255 * 4)
  let tables := n * (oidLen + 4 + 4)
  refuseIf (8 + 1024 + tables + 2 * packTrailer > idx.length)
    (.config "pack index too short for its object count")
  let oidsAt := fanoutAt + 256 * 4
  let off32At := oidsAt + n * oidLen + n * 4
  let bigAt := off32At + n * 4
  let offs ← (List.range n).mapM fun i => readU32 idx (off32At + i * 4)
  -- a SHA-256 index has the same magic and version, and is always longer
  refuseIf (8 + 1024 + tables + offs.countP isBigOffset * 8 + 2 * packTrailer ≠ idx.length)
    (.config ("pack index length does not match a SHA-1 v2 layout " ++
      "(SHA-256 packs are unsupported in v1, or the index is corrupt)"))
  let oids := (List.range n).map fun i =>
    (idx.take (oidsAt + i * oidLen + oidLen)).drop (oidsAt + i * oidLen)
  let offsets ← offs.mapM (readOffset idx bigAt)
  return (oids, offsets)

theorem length_parseIdxV2 {idx : Bytes} {oids : List Bytes} {offsets : List ℕ}
    (h : parseIdxV2 idx = .ok (oids, offsets)) : offsets.length = oids.length := by
  simp only [parseIdxV2, bind_eq_ok, pure_eq_ok, Prod.mk.injEq] at h
  obtain ⟨-, -, -, -, n, -, -, -, offs, hoffs, -, -, offsets', hoffsets, rfl, rfl⟩ := h
  have hlen := congrArg List.length (map_eq_map_ok hoffs)
  have hlen' := congrArg List.length (map_eq_map_ok hoffsets)
  simp only [List.length_map, List.length_range] at hlen hlen' ⊢
  omega

end DashForge
