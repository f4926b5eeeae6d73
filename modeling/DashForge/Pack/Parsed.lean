import DashForge.Data.SortBy
import DashForge.Pack.Chain
import DashForge.Pack.Index

/-!
# Parsed packs

A packfile parsed with its index (`pack/parse.rs`): the objects in index order with their extents
and delta geometry, and the base of each object by index.

`PackOk` is what an accepted pack satisfies (`packOk_of_parse`): its objects start at distinct
offsets, each reads as an entry, and the bases form a forest of depth at most `maxDeltaDepth` whose
roots are the objects that are no deltas.
-/

namespace DashForge

open List

/-! ### Tables with one index per key -/

/-- The last index at which `l` holds `a`: the entry a map collected from `l` keeps. -/
def lastIdxOf {α : Type*} [DecidableEq α] (l : List α) (a : α) : Option ℕ :=
  (range l.length).reverse.find? fun i => l[i]? = some a

section

variable {α : Type*} [DecidableEq α] {l : List α} {a : α} {i : ℕ}

theorem getElem?_of_lastIdxOf (h : lastIdxOf l a = some i) : l[i]? = some a := by
  simpa using find?_some h

theorem lastIdxOf_eq_some (hl : l.Nodup) (h : l[i]? = some a) : lastIdxOf l a = some i := by
  have hi := (List.getElem?_eq_some_iff.mp h).1
  cases hlast : lastIdxOf l a with
  | none =>
    have hne := find?_eq_none.mp hlast i (by simpa using hi)
    simp [h] at hne
  | some j =>
    have hj := getElem?_of_lastIdxOf hlast
    have hjlt := (List.getElem?_eq_some_iff.mp hj).1
    rw [(getElem?_inj hjlt hl).mp (hj.trans h.symm)]

end

/-! ### Objects -/

/-- One object as located in a packfile. -/
structure PackObject where
  oid : Bytes
  /-- Where the object's header starts. -/
  offset : ℕ
  /-- The bytes the object occupies. -/
  length : ℕ
  /-- The type of its chain's root. -/
  objType : GitObjType
  /-- Delta hops down to its root. -/
  deltaDepth : ℕ
  isRefDelta : Bool
  /-- The bytes from its lowest base to its end, when its chain is contiguous. -/
  deltaChainSpan : ℕ
  contiguous : Bool
deriving DecidableEq, Repr

instance : Inhabited PackObject := ⟨[], 0, 0, .blob, 0, false, 0, false⟩

/-- A parsed packfile. -/
structure ParsedPack where
  packBytes : Bytes
  packHash : Bytes
  /-- Objects in index order. -/
  objects : List PackObject
  oidToIdx : Bytes → Option ℕ
  atOffset : ℕ → Option ℕ
  /-- Each object's immediate base, when it is in this pack. -/
  bases : List (Option ℕ)

namespace ParsedPack

/-- The object at an index. -/
def obj (pp : ParsedPack) (i : ℕ) : PackObject := pp.objects.getD i default

/-- The base of the object at an index. -/
def base (pp : ParsedPack) (i : ℕ) : Option ℕ := pp.bases.getD i none

/-- Look up an object by OID. -/
def object (pp : ParsedPack) (oid : Bytes) : Option PackObject :=
  if oid.length = oidLen then (pp.oidToIdx oid).map pp.obj else none

end ParsedPack

/-! ### Parsing -/

/-- The end of every object, in offset order: the next object's start, or that of the trailer. -/
def objectEnds (packLen : ℕ) (off : ℕ → ℕ) (order : List ℕ) : List (ℕ × ℕ) :=
  order.zip (order.tail.map off ++ [packLen - packTrailer])

/-- The offset of the base an entry at `off` names, if it is known. -/
def baseOffset (off : ℕ) (refOffset : Bytes → Option ℕ) :
    EntryBase → Except PackError (Option ℕ)
  | .none => .ok none
  | .ofs rel => okOr ((checkedSub off rel).map some) (.config "OFS base before pack start")
  | .ref oid => .ok (refOffset oid)

/-- An object's entry and the offset of its base. -/
def readObject (packBytes : Bytes) (off : ℕ) (refOffset : Bytes → Option ℕ) :
    Except PackError (Entry × Option ℕ) := do
  let entry ← readEntry packBytes off
  let base ← baseOffset off refOffset entry.base
  return (entry, base)

/-- An object with chain `chain`. -/
def packObject (oid : Bytes) (offset length : ℕ) (isRefDelta : Bool) (chain : Chain) :
    Except PackError PackObject := do
  let objType ← GitObjType.fromCode chain.root
  return {
    oid := oid
    offset := offset
    length := length
    objType := objType
    deltaDepth := chain.depth
    isRefDelta := isRefDelta
    deltaChainSpan := if chain.contiguous then offset + length - chain.minOff else length
    contiguous := chain.contiguous }

/-- What the chains are resolved from. -/
def chainInput (off : ℕ → ℕ) (atOffset : ℕ → Option ℕ) (entries : List (Entry × Option ℕ)) :
    ChainInput where
  offset := off
  rawType i := (entries[i]?.map fun e => e.1.t).getD 0
  baseOff i := entries[i]?.bind Prod.snd
  atOffset := atOffset

def isRefEntry (entries : List (Entry × Option ℕ)) (i : ℕ) : Bool :=
  entries[i]?.any fun e => match e.1.base with
    | .ref _ => true
    | _ => false

/-- Parse a packfile and its index. -/
def ParsedPack.parse (env : PackEnv) (packBytes idxBytes : Bytes) :
    Except PackError ParsedPack := do
  let (oids, offsets) ← parseIdxV2 idxBytes
  let n := oids.length
  refuseIf (packBytes.length < packTrailer) (.config "packfile shorter than its trailer")
  let off := fun i => offsets.getD i 0
  let order := sortByKey off (range n)
  refuseIf ((order.zip order.tail).any fun w => off w.1 = off w.2)
    (.config "two pack objects share one offset")
  let ends := objectEnds packBytes.length off order
  refuseIf (ends.any fun e => decide (e.2 < off e.1)) (.config "overlapping pack offsets")
  let length := fun i => (ends.lookup i).getD 0 - off i
  let oidToIdx := lastIdxOf oids
  let atOffset := lastIdxOf offsets
  let entries ← (range n).mapM fun i =>
    readObject packBytes (off i) fun oid => (oidToIdx oid).map off
  let chains ← (chainInput off atOffset entries).resolveChains order n
  let objects ← (range n).mapM fun i =>
    packObject (oids.getD i []) (off i) (length i) (isRefEntry entries i)
      (chains.getD i ⟨0, 0, 0, false⟩)
  return {
    packBytes := packBytes
    packHash := env.sha256 packBytes
    objects := objects
    oidToIdx := oidToIdx
    atOffset := atOffset
    bases := entries.map fun e => e.2.bind atOffset }

/-! ### What an accepted pack is -/

namespace ParsedPack

/-- The offset of the base that an entry at `off` names. -/
def baseAddr (pp : ParsedPack) (off : ℕ) : EntryBase → Option ℕ
  | .none => none
  | .ofs rel => checkedSub off rel
  | .ref oid => (pp.object oid).map PackObject.offset

/-- The entry of object `i` agrees with its place in the delta forest. -/
inductive EntryOk (pp : ParsedPack) (i : ℕ) (entry : Entry) : Prop
  | root (hbase : pp.base i = none) (hentry : entry.base = .none)
      (htype : GitObjType.fromCode entry.t = .ok (pp.obj i).objType)
      (hdepth : (pp.obj i).deltaDepth = 0)
  | delta {b : ℕ} (hbase : pp.base i = some b) (hb : b < pp.objects.length)
      (haddr : pp.baseAddr (pp.obj i).offset entry.base = some (pp.obj b).offset)
      (htype : (pp.obj i).objType = (pp.obj b).objType)
      (hdepth : (pp.obj i).deltaDepth = (pp.obj b).deltaDepth + 1)

/-- What an accepted pack satisfies. -/
structure PackOk (pp : ParsedPack) : Prop where
  bases_length : pp.bases.length = pp.objects.length
  atOffset : ∀ i < pp.objects.length, pp.atOffset (pp.obj i).offset = some i
  entry : ∀ i < pp.objects.length, ∃ entry,
    readEntry pp.packBytes (pp.obj i).offset = .ok entry ∧ pp.EntryOk i entry
  depth_le : ∀ i < pp.objects.length, (pp.obj i).deltaDepth ≤ maxDeltaDepth

end ParsedPack

theorem eq_map_getD_range (l : List ℕ) : l = (range l.length).map fun i => l.getD i 0 := by
  refine ext_getElem (by simp) fun i hi _ => ?_
  simp [hi]

theorem nodup_offsets {off : ℕ → ℕ} {n : ℕ}
    (h : ¬((sortByKey off (range n)).zip (sortByKey off (range n)).tail).any
      (fun w => off w.1 = off w.2) = true) : ((range n).map off).Nodup := by
  have hlt : (sortByKey off (range n)).Pairwise fun i j => off i < off j :=
    pairwise_lt_of_neighbours off (pairwise_sortByKey off _) (by simpa using h)
  have hnodup : ((sortByKey off (range n)).map off).Nodup :=
    pairwise_map.mpr (hlt.imp ne_of_lt)
  exact ((perm_sortByKey off _).map off).nodup_iff.mp hnodup

theorem fromCode_eq_ok {code : ℕ} {t : GitObjType} (h : GitObjType.fromCode code = .ok t) :
    code ≠ tOfsDelta ∧ code ≠ tRefDelta := by
  constructor <;> rintro rfl <;> cases h

theorem packObject_eq_ok {oid : Bytes} {offset length : ℕ} {isRefDelta : Bool} {chain : Chain}
    {o : PackObject} (h : packObject oid offset length isRefDelta chain = .ok o) :
    o.offset = offset ∧ GitObjType.fromCode chain.root = .ok o.objType ∧ o.deltaDepth = chain.depth := by
  simp only [packObject, bind_eq_ok, pure_eq_ok] at h
  obtain ⟨t, ht, rfl⟩ := h
  exact ⟨rfl, ht, rfl⟩

section

/-! The parts a pack is parsed from, with what is known of each once it is accepted. -/

variable {packBytes packHash : Bytes} {oids : List Bytes} {offsets : List ℕ} {n : ℕ}
  {entries : List (Entry × Option ℕ)} {chains : List Chain} {objects : List PackObject}
  {off : ℕ → ℕ} {length : ℕ → ℕ} {isRef : ℕ → Bool} {pp : ParsedPack}
  (hoids : oids.length = n)
  (hoffsets : offsets.length = n) (hoff : off = fun i => offsets.getD i 0)
  (hnodup : offsets.Nodup)
  (hentries : entries.length = n ∧ ∀ i e, entries[i]? = some e →
    readObject packBytes (off i) (fun oid => (lastIdxOf oids oid).map off) = .ok e)
  (hchains : chains.length = n ∧ ∀ i c, chains[i]? = some c →
    (chainInput off (lastIdxOf offsets) entries).Resolved i c)
  (hobjects : objects.length = n ∧ ∀ i o, objects[i]? = some o →
    packObject (oids.getD i []) (off i) (length i) (isRef i) (chains.getD i ⟨0, 0, 0, false⟩) =
      .ok o)
  (hpp : pp = ⟨packBytes, packHash, objects, lastIdxOf oids, lastIdxOf offsets,
    entries.map fun e => e.2.bind (lastIdxOf offsets)⟩)

include hchains hobjects hpp in
theorem obj_of_lt {i : ℕ} (hi : i < n) : ∃ c, chains[i]? = some c ∧ (pp.obj i).offset = off i ∧
      GitObjType.fromCode c.root = .ok (pp.obj i).objType ∧ (pp.obj i).deltaDepth = c.depth := by
  have hic : i < chains.length := hchains.1 ▸ hi
  have hio : i < objects.length := hobjects.1 ▸ hi
  have hobj : pp.obj i = objects[i] := by simp [hpp, ParsedPack.obj, hio]
  have hpack := hobjects.2 i objects[i] (getElem?_eq_getElem hio)
  have hget : chains.getD i ⟨0, 0, 0, false⟩ = chains[i] := by simp [hic]
  rw [hget] at hpack
  exact ⟨chains[i], getElem?_eq_getElem hic, hobj ▸ packObject_eq_ok hpack⟩

include hoids hchains hobjects hpp in
theorem baseAddr_of_readObject {i b : ℕ} {entry : Entry}
    (h : readObject packBytes (off i) (fun oid => (lastIdxOf oids oid).map off) =
      .ok (entry, some b)) : pp.baseAddr (off i) entry.base = some b := by
  simp only [readObject, bind_eq_ok, pure_eq_ok, Prod.mk.injEq] at h
  obtain ⟨entry', hentry, base, hbase, rfl, rfl⟩ := h
  cases hb : entry'.base with
  | none => simp [hb, baseOffset] at hbase
  | ofs rel => simpa [hb, baseOffset, ParsedPack.baseAddr] using hbase
  | ref oid =>
    have hlen := length_oid_of_readEntry hentry hb
    rw [hb, baseOffset, Except.ok.injEq, Option.map_eq_some_iff] at hbase
    obtain ⟨k, hk, rfl⟩ := hbase
    have hkn : k < n := hoids ▸ (List.getElem?_eq_some_iff.mp (getElem?_of_lastIdxOf hk)).1
    obtain ⟨-, -, hoffset, -⟩ := obj_of_lt hchains hobjects hpp hkn
    have hidx : pp.oidToIdx oid = some k := by rw [hpp]; exact hk
    simp [ParsedPack.baseAddr, ParsedPack.object, hlen, hidx, hoffset]

include hoids hoffsets hoff hentries hchains hobjects hpp in
theorem entryOk_of_lt {i : ℕ} (hi : i < n) :
    ∃ entry, readEntry pp.packBytes (pp.obj i).offset = .ok entry ∧ pp.EntryOk i entry := by
  obtain ⟨chain, hchain, hoffset, htype, hdepth⟩ := obj_of_lt hchains hobjects hpp hi
  have hie : i < entries.length := hentries.1 ▸ hi
  obtain ⟨⟨entry, baseOff⟩, hget⟩ : ∃ e, entries[i]? = some e :=
    ⟨entries[i], getElem?_eq_getElem hie⟩
  have hread := hentries.2 i _ hget
  have hparts := hread
  simp only [readObject, bind_eq_ok, pure_eq_ok, Prod.mk.injEq] at hparts
  obtain ⟨entry', hentry, baseOff', hbaseOff, rfl, rfl⟩ := hparts
  have hbase : pp.base i = baseOff'.bind (lastIdxOf offsets) := by
    simp [hpp, ParsedPack.base, hget]
  have hbytes : pp.packBytes = packBytes := by rw [hpp]
  refine ⟨entry', by rw [hbytes, hoffset]; exact hentry, ?_⟩
  -- an entry that names a base is a delta, whose own type is no object type
  have hnone : GitObjType.fromCode entry'.t = .ok (pp.obj i).objType → entry'.base = .none :=
    fun ht => (readEntry_base_eq_none_iff hentry).mpr (fromCode_eq_ok ht)
  have hraw : (chainInput off (lastIdxOf offsets) entries).rawType i = entry'.t := by
    simp [chainInput, hget]
  have hinput : (chainInput off (lastIdxOf offsets) entries).baseOff i = baseOff' := by
    simp [chainInput, hget]
  cases (hchains.2 i chain hchain).1 with
  | root hroot =>
    rw [hinput] at hroot
    have ht : GitObjType.fromCode entry'.t = .ok (pp.obj i).objType := hraw ▸ htype
    exact .root (by rw [hbase, hroot]; rfl) (hnone ht) ht hdepth
  | missing hroot hmissing =>
    have ht : GitObjType.fromCode entry'.t = .ok (pp.obj i).objType := hraw ▸ htype
    rw [hnone ht, baseOffset, Except.ok.injEq] at hbaseOff
    rw [hinput, ← hbaseOff] at hroot
    cases hroot
  | @delta _ b next c hroot hnext hnextChain =>
    rw [hinput] at hroot
    subst hroot
    have hatNext : offsets[next]? = some b := getElem?_of_lastIdxOf hnext
    have hlt : next < n := hoffsets ▸ (List.getElem?_eq_some_iff.mp hatNext).1
    obtain ⟨chain', hchain', hoffset', htype', hdepth'⟩ := obj_of_lt hchains hobjects hpp hlt
    obtain rfl : c = chain' := hnextChain.unique (hchains.2 next chain' hchain').1
    have hb : (pp.obj next).offset = b := by
      rw [hoffset', hoff]
      simp [List.getD, hatNext]
    have hlen : pp.objects.length = n := by rw [hpp]; exact hobjects.1
    refine .delta (by rw [hbase]; exact hnext) (hlen.symm ▸ hlt) ?_ ?_ ?_
    · rw [hb, hoffset]
      exact baseAddr_of_readObject hoids hchains hobjects hpp hread
    · exact Except.ok.inj (htype.symm.trans htype')
    · rw [hdepth, hdepth']
      rfl

include hoids hoffsets hoff hnodup hentries hchains hobjects hpp in
theorem packOk_of_parts : pp.PackOk where
  bases_length := by simp [hpp, hentries.1, hobjects.1]
  atOffset i hi := by
    have hin : i < n := by simpa [hpp, hobjects.1] using hi
    obtain ⟨-, -, hoffset, -⟩ := obj_of_lt hchains hobjects hpp hin
    rw [hoffset, hpp, hoff]
    exact lastIdxOf_eq_some hnodup (by simp [hoffsets, hin])
  entry i hi :=
    entryOk_of_lt hoids hoffsets hoff hentries hchains hobjects hpp
      (by simpa [hpp, hobjects.1] using hi)
  depth_le i hi := by
    have hin : i < n := by simpa [hpp, hobjects.1] using hi
    obtain ⟨c, hc, -, -, hdepth⟩ := obj_of_lt hchains hobjects hpp hin
    rw [hdepth]
    exact (hchains.2 i c hc).2

end

/-- Every accepted pack is a sound one. -/
theorem packOk_of_parse {env : PackEnv} {packBytes idxBytes : Bytes} {pp : ParsedPack}
    (h : ParsedPack.parse env packBytes idxBytes = .ok pp) : pp.PackOk ∧ pp.packBytes = packBytes := by
  simp only [ParsedPack.parse, bind_eq_ok, refuseIf_eq_ok, pure_eq_ok] at h
  obtain ⟨⟨oids, offsets⟩, hidx, -, -, -, hdistinct, -, -, entries, hentries, chains, hchains,
    objects, hobjects, rfl⟩ := h
  have hoffsets := length_parseIdxV2 hidx
  refine ⟨packOk_of_parts rfl hoffsets rfl ?_ (getElem?_mapM_range hentries)
    (ChainInput.resolveChains_eq_ok hchains) (getElem?_mapM_range hobjects) rfl, rfl⟩
  rw [eq_map_getD_range offsets, hoffsets]
  exact nodup_offsets hdistinct

end DashForge
