import DashForge.Data.Except
import DashForge.Data.Saturating

/-!
# Pack entries

The header of an entry of a packfile (`pack/parse.rs`): its type code, the size it declares, where
its zlib stream starts and the base a delta names.

A header read from the start of a buffer reads the same from the whole of it
(`readEntry_of_take`), and from a later start of the buffer with its place moved (`readEntry_add`):
an entry read within its own extent or within a range of the pack is the one read from the whole.
Sizes and positions are those of a 64-bit machine.
-/

namespace DashForge

open List

abbrev Bytes := List UInt8

/-- The errors a pack read fails with. -/
inductive PackError where
  | config (msg : String)
  | io (msg : String)
  /-- Bytes that do not match what declares them. -/
  | integrity
  | notFound
deriving DecidableEq, Repr

/-- What the pack reader takes from outside the repository. -/
structure PackEnv where
  /-- What a `ZlibDecoder` over the input gives when it is read to its end through a limit. -/
  zlibRead : Bytes → ℕ → Except String Bytes
  sha1 : Bytes → Bytes
  sha256 : Bytes → Bytes

def oidLen : ℕ := 20

/-- `buf.get(s..e)`. -/
def slice (buf : Bytes) (s e : ℕ) : Option Bytes :=
  if s ≤ e ∧ e ≤ buf.length then some ((buf.take e).drop s) else none

/-- `bits << shift`, or `none` when a bit would fall off the top of a `u64`. -/
def shlExact (bits shift : ℕ) : Option ℕ :=
  let v := bits <<< shift % 2 ^ 64
  if shift < 64 ∧ v >>> shift = bits then some v else none

/-! ### Type codes -/

@[match_pattern, simp] abbrev tCommit : ℕ := 1
@[match_pattern, simp] abbrev tTree : ℕ := 2
@[match_pattern, simp] abbrev tBlob : ℕ := 3
@[match_pattern, simp] abbrev tTag : ℕ := 4
@[match_pattern, simp] abbrev tOfsDelta : ℕ := 6
@[match_pattern, simp] abbrev tRefDelta : ℕ := 7

/-- The type of an object whose delta chain is resolved. -/
inductive GitObjType where
  | commit
  | tree
  | blob
  | tag
deriving DecidableEq, Repr

namespace GitObjType

def fromCode : ℕ → Except PackError GitObjType
  | tCommit => .ok .commit
  | tTree => .ok .tree
  | tBlob => .ok .blob
  | tTag => .ok .tag
  | other => .error (.config ("non-base pack object type " ++ toString other))

/-- The keyword git puts before the payload when hashing. -/
def headerKeyword : GitObjType → String
  | commit => "commit"
  | tree => "tree"
  | blob => "blob"
  | tag => "tag"

end GitObjType

/-! ### Headers -/

/-- What a delta names as its base, as stored. -/
inductive EntryBase where
  /-- Not a delta. -/
  | none
  /-- `OFS_DELTA`: the base starts this many bytes before the delta. -/
  | ofs (rel : ℕ)
  /-- `REF_DELTA`: the base's OID. -/
  | ref (oid : Bytes)
deriving DecidableEq, Repr

/-- An entry's header. -/
structure Entry where
  t : ℕ
  size : ℕ
  /-- Where the zlib stream starts. -/
  data : ℕ
  base : EntryBase
deriving DecidableEq, Repr

/-- The rest of a size varint: `size` so far, the next byte's shift, and its position. -/
def sizeVarint : Bytes → ℕ → ℕ → ℕ → Except PackError (ℕ × ℕ)
  | [], _, _, _ => .error (.config "truncated object size varint")
  | c :: rest, size, shift, p => do
    let v ← okOr (shlExact (c.toNat &&& 0x7f) shift) (.config "object size varint overflow")
    if c.toNat &&& 0x80 ≠ 0 then sizeVarint rest (size ||| v) (shift + 7) (p + 1)
    else .ok (size ||| v, p + 1)

/-- What follows the byte `c` of a size varint, if it has more bytes. -/
def sizeAfter (c : UInt8) (rest : Bytes) (size shift p : ℕ) : Except PackError (ℕ × ℕ) :=
  if c.toNat &&& 0x80 ≠ 0 then sizeVarint rest size shift p else .ok (size, p)

/-- An object header from its first byte on: type code, decoded size, position after it. -/
def objHeader (pos : ℕ) : Bytes → Except PackError (ℕ × ℕ × ℕ)
  | [] => .error (.config "truncated object header")
  | c :: rest => do
    let t := c.toNat >>> 4 &&& 7
    let (size, p) ← sizeAfter c rest (c.toNat &&& 0x0f) 4 (pos + 1)
    return (t, size, p)

def parseObjHeader (buf : Bytes) (pos : ℕ) : Except PackError (ℕ × ℕ × ℕ) :=
  objHeader pos (buf.drop pos)

/-- The rest of an `OFS_DELTA` back-pointer: `ofs` so far and the next byte's position. -/
def ofsVarint : Bytes → ℕ → ℕ → Except PackError (ℕ × ℕ)
  | [], _, _ => .error (.config "truncated OFS base varint")
  | c :: rest, ofs, p => do
    let high ← okOr ((checkedAdd ofs 1).bind (checkedMul · 128))
      (.config "OFS base varint overflow")
    let ofs := high ||| (c.toNat &&& 0x7f)
    if c.toNat &&& 0x80 ≠ 0 then ofsVarint rest ofs (p + 1) else .ok (ofs, p + 1)

/-- What follows the byte `c` of a back-pointer, if it has more bytes. -/
def ofsAfter (c : UInt8) (rest : Bytes) (ofs p : ℕ) : Except PackError (ℕ × ℕ) :=
  if c.toNat &&& 0x80 ≠ 0 then ofsVarint rest ofs p else .ok (ofs, p)

/-- A back-pointer from its first byte on: the distance to the base, and the position after it. -/
def ofsBase (pos : ℕ) : Bytes → Except PackError (ℕ × ℕ)
  | [] => .error (.config "truncated OFS base varint")
  | c :: rest => do
    let (ofs, p) ← ofsAfter c rest (c.toNat &&& 0x7f) (pos + 1)
    -- git reads a zero back-pointer as out of bounds
    refuseIf (ofs = 0) (.config "OFS delta names itself as its base")
    return (ofs, p)

def parseOfsBase (buf : Bytes) (pos : ℕ) : Except PackError (ℕ × ℕ) :=
  ofsBase pos (buf.drop pos)

/-- Where an entry's stream starts and the base it names, by its type code. -/
def readBase (buf : Bytes) (after : ℕ) : ℕ → Except PackError (ℕ × EntryBase)
  | tOfsDelta => do
    let (rel, data) ← parseOfsBase buf after
    return (data, .ofs rel)
  | tRefDelta => do
    let oid ← okOr (slice buf after (after + oidLen)) (.config "truncated REF_DELTA base oid")
    return (after + oidLen, .ref oid)
  | _ => .ok (after, .none)

/-- Read the entry header at `pos`. -/
def readEntry (buf : Bytes) (pos : ℕ) : Except PackError Entry := do
  let (t, size, after) ← parseObjHeader buf pos
  let (data, base) ← readBase buf after t
  return ⟨t, size, data, base⟩

/-! ### Reading within the start of a buffer -/

variable {l buf : Bytes} {k p pos : ℕ} {entry : Entry}

variable {size shift ofs s e after t : ℕ} {r : ℕ × ℕ} {s' : Bytes}

theorem ite_eq_ok {α : Type} {c : Prop} [Decidable c] {x x' y : Except PackError α} {r : α}
    (hx : x = .ok r → x' = .ok r)
    (h : (if c then x else y) = .ok r) : (if c then x' else y) = .ok r := by
  split_ifs at h ⊢
  · exact hx h
  · exact h

theorem sizeVarint_of_take (h : sizeVarint (l.take k) size shift p = .ok r) : sizeVarint l size shift p = .ok r := by
  induction l generalizing k size shift p with
  | nil => simpa using h
  | cons c l ih =>
    cases k with
    | zero => simp [sizeVarint] at h
    | succ k =>
      simp only [take_succ_cons, sizeVarint, bind_eq_ok] at h ⊢
      obtain ⟨v, hv, h⟩ := h
      exact ⟨v, hv, ite_eq_ok ih h⟩

theorem objHeader_of_take {r : ℕ × ℕ × ℕ} (h : objHeader pos (l.take k) = .ok r) : objHeader pos l = .ok r := by
  cases l with
  | nil => simpa using h
  | cons c l =>
    cases k with
    | zero => simp [objHeader] at h
    | succ k =>
      simp only [take_succ_cons, objHeader, bind_eq_ok] at h ⊢
      obtain ⟨sp, hsp, h⟩ := h
      exact ⟨sp, ite_eq_ok sizeVarint_of_take hsp, h⟩

theorem ofsVarint_of_take (h : ofsVarint (l.take k) ofs p = .ok r) : ofsVarint l ofs p = .ok r := by
  induction l generalizing k ofs p with
  | nil => simpa using h
  | cons c l ih =>
    cases k with
    | zero => simp [ofsVarint] at h
    | succ k =>
      simp only [take_succ_cons, ofsVarint, bind_eq_ok] at h ⊢
      obtain ⟨v, hv, h⟩ := h
      exact ⟨v, hv, ite_eq_ok ih h⟩

theorem ofsBase_of_take (h : ofsBase pos (l.take k) = .ok r) : ofsBase pos l = .ok r := by
  cases l with
  | nil => simpa using h
  | cons c l =>
    cases k with
    | zero => simp [ofsBase] at h
    | succ k =>
      simp only [take_succ_cons, ofsBase, bind_eq_ok] at h ⊢
      obtain ⟨op, hop, h⟩ := h
      exact ⟨op, ite_eq_ok ofsVarint_of_take hop, h⟩

theorem slice_of_take (h : slice (buf.take k) s e = some s') : slice buf s e = some s' := by
  unfold slice at h ⊢
  split at h
  case isFalse => simp at h
  case isTrue hse =>
    obtain ⟨hs, he⟩ := hse
    rw [length_take] at he
    rw [if_pos ⟨hs, by omega⟩, ← h, take_take, min_eq_left (by omega)]

theorem readBase_of_take {r : ℕ × EntryBase}
    (h : readBase (buf.take k) after t = .ok r) : readBase buf after t = .ok r := by
  unfold readBase at h ⊢
  split at h
  · simp only [parseOfsBase, drop_take, bind_eq_ok] at h ⊢
    obtain ⟨op, hop, h⟩ := h
    exact ⟨op, ofsBase_of_take hop, h⟩
  · simp only [bind_eq_ok, okOr_eq_ok] at h ⊢
    obtain ⟨oid, hoid, h⟩ := h
    exact ⟨oid, slice_of_take hoid, h⟩
  · exact h

/-- An entry read within the start of a buffer is the one read from the whole. -/
theorem readEntry_of_take (h : readEntry (buf.take k) pos = .ok entry) : readEntry buf pos = .ok entry := by
  simp only [readEntry, parseObjHeader, drop_take, bind_eq_ok] at h ⊢
  obtain ⟨header, hheader, base, hbase, h⟩ := h
  exact ⟨header, objHeader_of_take hheader, base, readBase_of_take hbase, h⟩

/-! ### Reading from a later start -/

theorem sizeVarint_add (l : Bytes) (size shift p k : ℕ) :
    sizeVarint l size shift (p + k) = (sizeVarint l size shift p).map fun r => (r.1, r.2 + k) := by
  induction l generalizing size shift p with
  | nil => rfl
  | cons c l ih =>
    simp only [sizeVarint, okOr]
    cases shlExact (c.toNat &&& 0x7f) shift with
    | none => rfl
    | some v =>
      have hp : p + k + 1 = p + 1 + k := by omega
      simp only [Option.elim_some, bind, Except.bind, hp]
      split
      · exact ih _ _ _
      · rfl

theorem objHeader_add (l : Bytes) (pos k : ℕ) :
    objHeader (pos + k) l = (objHeader pos l).map fun r => (r.1, r.2.1, r.2.2 + k) := by
  cases l with
  | nil => rfl
  | cons c l =>
    have hp : pos + k + 1 = pos + 1 + k := by omega
    simp only [objHeader, sizeAfter, hp, sizeVarint_add l _ _ (pos + 1) k]
    split
    · cases sizeVarint l (c.toNat &&& 0x0f) 4 (pos + 1) <;> rfl
    · rfl

theorem ofsVarint_add (l : Bytes) (ofs p k : ℕ) :
    ofsVarint l ofs (p + k) = (ofsVarint l ofs p).map fun r => (r.1, r.2 + k) := by
  induction l generalizing ofs p with
  | nil => rfl
  | cons c l ih =>
    simp only [ofsVarint, okOr]
    cases (checkedAdd ofs 1).bind (checkedMul · 128) with
    | none => rfl
    | some v =>
      have hp : p + k + 1 = p + 1 + k := by omega
      simp only [Option.elim_some, bind, Except.bind, hp]
      split
      · exact ih _ _
      · rfl

theorem ofsBase_add (l : Bytes) (pos k : ℕ) : ofsBase (pos + k) l = (ofsBase pos l).map fun r => (r.1, r.2 + k) := by
  cases l with
  | nil => rfl
  | cons c l =>
    have hp : pos + k + 1 = pos + 1 + k := by omega
    simp only [ofsBase, ofsAfter, hp, ofsVarint_add l _ (pos + 1) k]
    split
    · cases ofsVarint l (c.toNat &&& 0x7f) (pos + 1) with
      | error e => rfl
      | ok r =>
        simp only [Except.map, bind, Except.bind]
        by_cases hr : r.1 = 0 <;> simp [refuseIf, hr, pure, Except.pure]
    · by_cases hc : c.toNat &&& 0x7f = 0 <;>
        simp [refuseIf, hc, bind, Except.bind, pure, Except.pure, Except.map]

theorem slice_drop (buf : Bytes) (k s e : ℕ) (hse : s < e) : slice (buf.drop k) s e = slice buf (s + k) (e + k) := by
  unfold slice
  rw [length_drop, take_drop, drop_drop, add_comm k e, add_comm k s]
  congr 1
  rw [eq_iff_iff]
  omega

theorem readBase_add (buf : Bytes) (after t k : ℕ) :
    readBase buf (after + k) t = (readBase (buf.drop k) after t).map fun r => (r.1 + k, r.2) := by
  have hdrop : buf.drop (after + k) = (buf.drop k).drop after := by
    rw [drop_drop, add_comm]
  unfold readBase
  split
  · simp only [parseOfsBase, hdrop, ofsBase_add]
    cases ofsBase after ((buf.drop k).drop after) <;> rfl
  · have hk : after + k + oidLen = after + oidLen + k := by omega
    rw [slice_drop buf k after (after + oidLen) (by simp [oidLen]), hk]
    cases slice buf (after + k) (after + oidLen + k) <;> rfl
  · rfl

theorem readEntry_add (buf : Bytes) (pos k : ℕ) : readEntry buf (pos + k) =
      (readEntry (buf.drop k) pos).map fun e => { e with data := e.data + k } := by
  have hdrop : buf.drop (pos + k) = (buf.drop k).drop pos := by rw [drop_drop, add_comm]
  simp only [readEntry, parseObjHeader, hdrop, objHeader_add]
  cases objHeader pos ((buf.drop k).drop pos) with
  | error e => rfl
  | ok r =>
    simp only [Except.map, bind, Except.bind, readBase_add]
    cases readBase (buf.drop k) r.2.2 r.1 <;> rfl

/-! ### Where a stream starts -/

theorem sizeVarint_le (h : sizeVarint l size shift p = .ok r) : p ≤ r.2 ∧ r.2 ≤ p + l.length := by
  induction l generalizing size shift p with
  | nil => cases h
  | cons c l ih =>
    simp only [sizeVarint, bind_eq_ok] at h
    obtain ⟨v, -, h⟩ := h
    rw [length_cons]
    split at h
    · have := ih h
      omega
    · obtain rfl := Except.ok.inj h
      simp only
      omega

theorem objHeader_le {r : ℕ × ℕ × ℕ} (h : objHeader pos l = .ok r) : pos < r.2.2 ∧ r.2.2 ≤ pos + l.length := by
  cases l with
  | nil => cases h
  | cons c l =>
    simp only [objHeader, bind_eq_ok, pure_eq_ok] at h
    obtain ⟨sp, hsp, rfl⟩ := h
    rw [length_cons]
    unfold sizeAfter at hsp
    split at hsp
    · have := sizeVarint_le hsp
      simp only
      omega
    · obtain rfl := Except.ok.inj hsp
      simp only
      omega

theorem ofsVarint_le (h : ofsVarint l ofs p = .ok r) : p ≤ r.2 ∧ r.2 ≤ p + l.length := by
  induction l generalizing ofs p with
  | nil => cases h
  | cons c l ih =>
    simp only [ofsVarint, bind_eq_ok] at h
    obtain ⟨v, -, h⟩ := h
    rw [length_cons]
    split at h
    · have := ih h
      omega
    · obtain rfl := Except.ok.inj h
      simp only
      omega

theorem ofsBase_le (h : ofsBase pos l = .ok r) : pos < r.2 ∧ r.2 ≤ pos + l.length := by
  cases l with
  | nil => cases h
  | cons c l =>
    simp only [ofsBase, bind_eq_ok, pure_eq_ok] at h
    obtain ⟨op, hop, -, -, rfl⟩ := h
    rw [length_cons]
    unfold ofsAfter at hop
    split at hop
    · have := ofsVarint_le hop
      simp only
      omega
    · obtain rfl := Except.ok.inj hop
      simp only
      omega

theorem readEntry_le (h : readEntry buf pos = .ok entry) : pos < entry.data ∧ entry.data ≤ buf.length := by
  simp only [readEntry, parseObjHeader, bind_eq_ok, pure_eq_ok] at h
  obtain ⟨⟨t, size, after⟩, hheader, ⟨data, base⟩, hbase, rfl⟩ := h
  have hpos : pos < buf.length := by
    by_contra hle
    rw [drop_eq_nil_of_le (by omega)] at hheader
    cases hheader
  have hafter := objHeader_le hheader
  simp only [length_drop] at hafter hbase
  unfold readBase at hbase
  split at hbase
  · simp only [parseOfsBase, bind_eq_ok, pure_eq_ok, Prod.mk.injEq] at hbase
    obtain ⟨op, hop, rfl, -⟩ := hbase
    have hdata := ofsBase_le hop
    rw [length_drop] at hdata
    simp only
    omega
  · simp only [bind_eq_ok, okOr_eq_ok, pure_eq_ok, Prod.mk.injEq] at hbase
    obtain ⟨oid, hoid, rfl, -⟩ := hbase
    unfold slice at hoid
    split at hoid
    · simp only
      omega
    · cases hoid
  · obtain ⟨rfl, -⟩ := Prod.mk.inj (Except.ok.inj hbase)
    simp only
    omega

theorem length_of_slice (h : slice buf s e = some s') : s'.length = e - s := by
  unfold slice at h
  split at h
  case isFalse => simp at h
  case isTrue hse =>
    rw [← Option.some.inj h, length_drop, length_take, min_eq_left hse.2]

theorem readBase_eq_none_iff {data : ℕ} {base : EntryBase} (h : readBase buf after t = .ok (data, base)) :
    base = .none ↔ t ≠ tOfsDelta ∧ t ≠ tRefDelta := by
  unfold readBase at h
  split at h
  · simp only [bind_eq_ok, pure_eq_ok, Prod.mk.injEq] at h
    obtain ⟨_, -, -, rfl⟩ := h
    simp
  · simp only [bind_eq_ok, pure_eq_ok, Prod.mk.injEq] at h
    obtain ⟨_, -, -, rfl⟩ := h
    simp
  · simp only [Except.ok.injEq, Prod.mk.injEq] at h
    obtain ⟨-, rfl⟩ := h
    simp_all

theorem readEntry_base_eq_none_iff (h : readEntry buf pos = .ok entry) :
    entry.base = .none ↔ entry.t ≠ tOfsDelta ∧ entry.t ≠ tRefDelta := by
  simp only [readEntry, bind_eq_ok, pure_eq_ok] at h
  obtain ⟨header, -, base, hbase, rfl⟩ := h
  exact readBase_eq_none_iff hbase

theorem length_oid_of_readEntry (h : readEntry buf pos = .ok entry) {oid : Bytes} (hoid : entry.base = .ref oid) :
    oid.length = oidLen := by
  simp only [readEntry, bind_eq_ok, pure_eq_ok] at h
  obtain ⟨header, -, base, hbase, rfl⟩ := h
  unfold readBase at hbase
  split at hbase
  · simp only [bind_eq_ok, pure_eq_ok] at hbase
    obtain ⟨_, -, rfl⟩ := hbase
    simp at hoid
  · simp only [bind_eq_ok, pure_eq_ok, okOr_eq_ok] at hbase
    obtain ⟨oid', hslice, rfl⟩ := hbase
    obtain rfl : oid' = oid := by simpa using hoid
    simpa using length_of_slice hslice
  · obtain rfl := Except.ok.inj hbase
    simp at hoid

end DashForge
