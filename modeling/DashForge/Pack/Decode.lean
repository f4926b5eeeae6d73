import DashForge.Pack.Delta
import DashForge.Pack.Parsed
import Mathlib.Data.Finset.Insert

/-!
# Decoding one object

`decodeAt` (`pack/parse.rs`) rebuilds an object from the bytes of a pack: it walks the delta chain
down to its base, then inflates the base and applies the deltas back up, all within the budget the
bytes of the chain allow (`ReadBudget`).

In an accepted pack the walk follows the bases of the parse and never loops or runs too deep, so
decoding an object is building it from its base's bytes: `Builds` is that, step by step under a
fixed budget, and `decodeAt_eq_ok_iff` states the equivalence.
-/

namespace DashForge

open Option

/-! ### Budgets -/

/-- How many single steps' worth of bytes one read may build over its whole chain. -/
def chainBuildHeadroom : ℕ := 256

/-- What one read may build: each step at most `step` bytes, and `left` more in all. -/
structure ReadBudget where
  step : ℕ
  left : ℕ
deriving DecidableEq, Repr

namespace ReadBudget

/-- The budget of a read whose chain is stored in `covered` bytes. -/
def new (covered : ℕ) : ReadBudget :=
  let step := satMul covered deflateMaxRatio
  ⟨step, satMul step chainBuildHeadroom⟩

/-- The most the next step may produce. -/
def nextStep (b : ReadBudget) : ℕ := min b.step b.left

/-- Count `n` bytes built. -/
def spend (b : ReadBudget) (n : ℕ) : Except PackError ReadBudget :=
  okOr ((checkedSub b.left n).map fun left => { b with left := left })
    (.config "delta chain builds more than one read may")

theorem spend_eq_ok {b b' : ReadBudget} {n : ℕ} : b.spend n = .ok b' ↔ n ≤ b.left ∧ b' = ⟨b.step, b.left - n⟩ := by
  simp only [spend, okOr_eq_ok, map_eq_some_iff, checkedSub_eq_some]
  constructor
  · rintro ⟨left, ⟨hle, rfl⟩, rfl⟩
    exact ⟨hle, rfl⟩
  · rintro ⟨hle, rfl⟩
    exact ⟨b.left - n, ⟨hle, rfl⟩, rfl⟩

theorem step_new_le {m n : ℕ} (h : m ≤ n) : (new m).step ≤ (new n).step := satMul_le_satMul h _

theorem left_new_le {m n : ℕ} (h : m ≤ n) : (new m).left ≤ (new n).left :=
  satMul_le_satMul (step_new_le h) _

theorem left_new_le_u64Max (m : ℕ) : (new m).left ≤ u64Max := satMul_le_u64Max _ _

end ReadBudget

/-! ### The stored chain of an object -/

/-- One zlib stream of a chain: `buf[start..stop]` inflates to `size` bytes. -/
structure Link where
  start : ℕ
  stop : ℕ
  size : ℕ
deriving DecidableEq, Repr

/-- An object's delta chain as stored. -/
structure Links where
  objType : GitObjType
  base : Link
  /-- Outermost (the object itself) first. -/
  deltas : List Link
  /-- The bytes the chain is stored in. -/
  covered : ℕ
deriving DecidableEq, Repr

namespace ParsedPack

/-- Where the object at an offset starts and ends. -/
def extent (pp : ParsedPack) (addr : ℕ) : Except PackError (ℕ × ℕ) := do
  let i ← okOr (pp.atOffset addr) (.config "delta base is not an object in the pack")
  let stop ← okOr ((checkedAdd (pp.obj i).offset (pp.obj i).length).filter fun e =>
      decide (e ≤ pp.packBytes.length ∧ (pp.obj i).offset ≤ e))
    (.config "object runs outside the pack")
  return ((pp.obj i).offset, stop)

/-- Where the stored bytes of the object at `addr` end in `buf`, and what the chain then covers. -/
def linkEnd (pp : ParsedPack) (buf : Bytes) (allowRef : Bool) (addr covered : ℕ) :
    Except PackError (ℕ × ℕ) :=
  if allowRef then do
    let (start, stop) ← pp.extent addr
    return (stop, satAdd covered (stop - start))
  else .ok (buf.length, covered)

/-- The entry and the link of the object at `addr`, `buf` starting at `baseAddr`. -/
def linkAt (pp : ParsedPack) (buf : Bytes) (baseAddr : ℕ) (allowRef : Bool) (addr covered : ℕ) :
    Except PackError (Entry × Link × ℕ) := do
  let pos ← okOr (checkedSub addr baseAddr) (.config "delta base outside the bytes read")
  let (stop, covered) ← pp.linkEnd buf allowRef addr covered
  refuseIf (buf.length < stop) (.config "pack object outside the bytes read")
  let entry ← readEntry (buf.take stop) pos
  return (entry, ⟨entry.data, stop, entry.size⟩, covered)

/-- The offset of the base that an entry at `addr` names; `none` for no delta. -/
def nextAddr (pp : ParsedPack) (allowRef : Bool) (addr : ℕ) :
    EntryBase → Except PackError (Option ℕ)
  | .none => .ok none
  | .ofs rel => okOr ((checkedSub addr rel).map some) (.config "OFS base before pack start")
  | .ref oid =>
    if allowRef then okOr ((pp.object oid).map fun o => some o.offset) .notFound
    else .error (.config "REF_DELTA in a span read (pack is not self-contained/OFS-only)")

/-- The walk down the chain from `addr`, past the objects at `seen`, with room for `room` more
deltas. -/
def linksFrom (pp : ParsedPack) (buf : Bytes) (baseAddr : ℕ) (allowRef : Bool) (room : ℕ)
    (seen : Finset ℕ) (addr : ℕ) (deltas : List Link) (covered : ℕ) : Except PackError Links :=
  if addr ∈ seen then .error (.config "delta chain loops back on itself")
  else match pp.linkAt buf baseAddr allowRef addr covered with
    | .error e => .error e
    | .ok (entry, link, covered) =>
      match pp.nextAddr allowRef addr entry.base with
      | .error e => .error e
      | .ok none => do
        let objType ← GitObjType.fromCode entry.t
        return ⟨objType, link, deltas, covered⟩
      | .ok (some next) =>
        match room with
        | 0 => .error (.config ("delta chain deeper than " ++ toString maxDeltaDepth))
        | room + 1 =>
          linksFrom pp buf baseAddr allowRef room (insert addr seen) next (deltas ++ [link]) covered

/-- The stored delta chain of the object at `absOff`. -/
def linksAt (pp : ParsedPack) (buf : Bytes) (baseAddr absOff : ℕ) (allowRef : Bool) :
    Except PackError Links := do
  let links ← pp.linksFrom buf baseAddr allowRef maxDeltaDepth ∅ absOff [] 0
  return if allowRef then links else { links with covered := buf.length }

end ParsedPack

/-- The bytes of a link in `buf`, inflated. -/
def Link.inflated (env : PackEnv) (buf : Bytes) (link : Link) : Except PackError Bytes :=
  inflate env ((buf.take link.stop).drop link.start) link.size

/-- One delta applied to the bytes built so far. -/
def buildStep (env : PackEnv) (buf : Bytes) (st : Bytes × ReadBudget) (link : Link) :
    Except PackError (Bytes × ReadBudget) := do
  let delta ← link.inflated env buf
  let data ← applyDelta st.1 delta st.2.nextStep
  let budget ← st.2.spend data.length
  return (data, budget)

/-- The base inflated, and `deltas` (outermost first) applied back up. -/
def buildFrom (env : PackEnv) (buf : Bytes) (base : Link) (deltas : List Link)
    (budget : ReadBudget) : Except PackError (Bytes × ReadBudget) := do
  let data ← base.inflated env buf
  let budget ← budget.spend data.length
  deltas.reverse.foldlM (buildStep env buf) (data, budget)

/-- Build a stored chain's object within `budget`. -/
def build (env : PackEnv) (buf : Bytes) (links : Links) (budget : ReadBudget) :
    Except PackError Bytes := do
  let (data, _) ← buildFrom env buf links.base links.deltas budget
  return data

namespace ParsedPack

/-- Decode the object at `absOff`, `buf` starting at `baseAddr`. -/
def decodeAt (env : PackEnv) (pp : ParsedPack) (buf : Bytes) (baseAddr absOff : ℕ)
    (allowRef : Bool) : Except PackError (GitObjType × Bytes) := do
  let links ← pp.linksAt buf baseAddr absOff allowRef
  let data ← build env buf links (ReadBudget.new links.covered)
  return (links.objType, data)

/-- An object's bytes from the whole pack. -/
def objectBytes (env : PackEnv) (pp : ParsedPack) (oid : Bytes) :
    Except PackError (GitObjType × Bytes) := do
  let o ← okOr (pp.object oid) .notFound
  pp.decodeAt env pp.packBytes 0 o.offset true

end ParsedPack

/-- The git OID of an object. -/
def gitOid (env : PackEnv) (t : GitObjType) (payload : Bytes) : Bytes :=
  env.sha1 (t.headerKeyword.toUTF8.toList ++ " ".toUTF8.toList
    ++ (toString payload.length).toUTF8.toList ++ [0] ++ payload)

/-! ### The chain of an object of an accepted pack -/

namespace ParsedPack

/-- The entry of object `i` read within its own extent, and its end. -/
def ownEntry (pp : ParsedPack) (i : ℕ) : Except PackError (Entry × ℕ) := do
  let (start, stop) ← pp.extent (pp.obj i).offset
  let entry ← readEntry (pp.packBytes.take stop) start
  return (entry, stop)

/-- The stream of object `i`. -/
def ownLink (pp : ParsedPack) (i : ℕ) : Except PackError Link := do
  let (entry, stop) ← pp.ownEntry i
  return ⟨entry.data, stop, entry.size⟩

/-- What the stream of object `i` inflates to: the object, or its delta. -/
def ownData (env : PackEnv) (pp : ParsedPack) (i : ℕ) : Except PackError Bytes := do
  let link ← pp.ownLink i
  link.inflated env pp.packBytes

/-- The bytes an object and `k` bases under it are stored in. -/
def bytesDown (pp : ParsedPack) : ℕ → ℕ → ℕ
  | 0, i => (pp.obj i).length
  | k + 1, i =>
    match pp.base i with
    | none => (pp.obj i).length
    | some b => bytesDown pp k b + (pp.obj i).length

/-- The bytes the chain of an object is stored in. -/
def chainBytes (pp : ParsedPack) (i : ℕ) : ℕ := pp.bytesDown (pp.obj i).deltaDepth i

/-- The budget a read of object `i` has. -/
def budgetOf (pp : ParsedPack) (i : ℕ) : ReadBudget :=
  .new (min (pp.chainBytes i) u64Max)

/-- The links of an object's chain: its deltas, outermost first, and its base. -/
inductive ChainLinks (pp : ParsedPack) : ℕ → List Link → Link → Prop
  | root {i : ℕ} {link : Link} (hbase : pp.base i = none) (hlink : pp.ownLink i = .ok link) :
      ChainLinks pp i [] link
  | delta {i b : ℕ} {link base : Link} {deltas : List Link} (hbase : pp.base i = some b)
      (hlink : pp.ownLink i = .ok link) (hchain : ChainLinks pp b deltas base) :
      ChainLinks pp i (link :: deltas) base

/-- Object `i` is built from its chain with the bytes `data`, `built` bytes in all, when a step may
produce `step` and all steps together `left`. -/
inductive Builds (env : PackEnv) (pp : ParsedPack) (step left : ℕ) : ℕ → Bytes → ℕ → Prop
  | root {i : ℕ} {data : Bytes} (hbase : pp.base i = none) (hdata : pp.ownData env i = .ok data)
      (hle : data.length ≤ left) : Builds env pp step left i data data.length
  | delta {i b built : ℕ} {base delta data : Bytes} (hbase : pp.base i = some b)
      (hb : Builds env pp step left b base built) (hdelta : pp.ownData env i = .ok delta)
      (happly : applyDelta base delta (min step (left - built)) = .ok data) :
      Builds env pp step left i data (built + data.length)

/-- Object `i` is built within its own budget. -/
def Decodes (env : PackEnv) (pp : ParsedPack) (i : ℕ) (data : Bytes) (built : ℕ) : Prop :=
  pp.Builds env (pp.budgetOf i).step (pp.budgetOf i).left i data built

variable {env : PackEnv} {pp : ParsedPack} {step left i built : ℕ} {data : Bytes} {deltas : List Link} {link : Link}

variable (h : pp.Builds env step left i data built)

include h in
theorem Builds.built_le : built ≤ left := by
  induction h with
  | root _ _ hle => exact hle
  | delta _ _ _ happly ih =>
    have := length_applyDelta happly
    omega

variable {step' left' b : ℕ} {base : Link}

include h in
theorem Builds.mono (hstep : step ≤ step')
    (hleft : left ≤ left') : pp.Builds env step' left' i data built := by
  induction h with
  | root hbase hdata hle => exact .root hbase hdata (hle.trans hleft)
  | delta hbase _ hdelta happly ih =>
    refine .delta hbase ih hdelta (applyDelta_of_length_le happly ?_)
    have := length_applyDelta happly
    omega

theorem Builds.unique {built' : ℕ} {data' : Bytes} (h : pp.Builds env step left i data built)
    (h' : pp.Builds env step' left' i data' built') : data = data' ∧ built = built' := by
  induction h generalizing data' built' with
  | root hbase hdata _ =>
    cases h' with
    | root _ hdata' => simp_all
    | delta hbase' => simp_all
  | @delta i b built base delta data hbase _ hdelta happly ih =>
    cases h' with
    | root hbase' => simp_all
    | @delta _ b' built' base' delta' data' hbase' hb' hdelta' happly' =>
      obtain rfl : b = b' := by simpa using hbase.symm.trans hbase'
      obtain rfl : delta = delta' := by simpa using hdelta.symm.trans hdelta'
      obtain ⟨rfl, rfl⟩ := ih hb'
      -- the two budgets only bound the length, so the larger of both lengths admits both
      have hmax := applyDelta_of_length_le happly (Nat.le_max_left data.length data'.length)
      have hmax' := applyDelta_of_length_le happly' (Nat.le_max_right data.length data'.length)
      obtain rfl : data = data' := by simpa using hmax.symm.trans hmax'
      exact ⟨rfl, rfl⟩

theorem chainLinks_root_iff (hbase : pp.base i = none) :
    pp.ChainLinks i deltas base ↔ deltas = [] ∧ pp.ownLink i = .ok base := by
  constructor
  · intro h
    cases h with
    | root _ hlink => exact ⟨rfl, hlink⟩
    | delta hbase' => simp [hbase] at hbase'
  · rintro ⟨rfl, hlink⟩
    exact .root hbase hlink

theorem chainLinks_delta_iff (hbase : pp.base i = some b) :
    pp.ChainLinks i deltas base ↔ ∃ link rest, deltas = link :: rest ∧
      pp.ownLink i = .ok link ∧ pp.ChainLinks b rest base := by
  constructor
  · intro h
    cases h with
    | root hbase' => simp [hbase] at hbase'
    | delta hbase' hlink hchain =>
      obtain rfl := some.inj (hbase.symm.trans hbase')
      exact ⟨_, _, rfl, hlink, hchain⟩
  · rintro ⟨link, rest, rfl, hlink, hchain⟩
    exact .delta hbase hlink hchain

theorem chainBytes_root (hbase : pp.base i = none) : pp.chainBytes i = (pp.obj i).length := by
  rw [chainBytes]
  cases (pp.obj i).deltaDepth <;> simp [bytesDown, hbase]

theorem chainBytes_delta (hbase : pp.base i = some b) (hdepth : (pp.obj i).deltaDepth = (pp.obj b).deltaDepth + 1) :
    pp.chainBytes i = pp.chainBytes b + (pp.obj i).length := by
  rw [chainBytes, hdepth, bytesDown, hbase]
  rfl

theorem ownLink_eq_ok_iff : pp.ownLink i = .ok link ↔
      ∃ entry stop, pp.ownEntry i = .ok (entry, stop) ∧ link = ⟨entry.data, stop, entry.size⟩ := by
  simp only [ownLink, bind_eq_ok, pure_eq_ok, Prod.exists]
  grind

theorem nextAddr_eq_ok {addr next : ℕ} {base : EntryBase}
    (h : pp.baseAddr addr base = some next) : pp.nextAddr true addr base = .ok (some next) := by
  cases base with
  | none => simp [baseAddr] at h
  | ofs rel => simpa [baseAddr, nextAddr] using h
  | ref oid => simpa [baseAddr, nextAddr] using h

theorem ownData_eq_inflated (h : pp.ownLink i = .ok link) : pp.ownData env i = link.inflated env pp.packBytes := by
  rw [ownData, h]
  rfl

/-! ### Building a stored chain -/

theorem buildFrom_cons (env : PackEnv) (buf : Bytes) (base link : Link) (deltas : List Link) (budget : ReadBudget) :
    buildFrom env buf base (link :: deltas) budget =
      buildFrom env buf base deltas budget >>= fun st => buildStep env buf st link := by
  simp [buildFrom]

theorem buildStep_eq_ok_iff {buf : Bytes} {st st' : Bytes × ReadBudget} : buildStep env buf st link = .ok st' ↔
      ∃ delta, link.inflated env buf = .ok delta ∧
        applyDelta st.1 delta st.2.nextStep = .ok st'.1 ∧ st'.1.length ≤ st.2.left ∧
          st'.2 = ⟨st.2.step, st.2.left - st'.1.length⟩ := by
  obtain ⟨data', budget'⟩ := st'
  simp only [buildStep, bind_eq_ok, pure_eq_ok, ReadBudget.spend_eq_ok, Prod.mk.injEq]
  constructor
  · rintro ⟨delta, hdelta, data, hdata, budget, ⟨hle, rfl⟩, rfl, rfl⟩
    exact ⟨delta, hdelta, hdata, hle, rfl⟩
  · rintro ⟨delta, hdelta, hdata, hle, rfl⟩
    exact ⟨delta, hdelta, data', hdata, _, ⟨hle, rfl⟩, rfl, rfl⟩

theorem ChainLinks.buildFrom_eq_ok_iff (h : pp.ChainLinks i deltas base) {budget : ReadBudget} :
    buildFrom env pp.packBytes base deltas ⟨step, left⟩ = .ok (data, budget) ↔
      ∃ built, pp.Builds env step left i data built ∧ budget = ⟨step, left - built⟩ := by
  induction h generalizing data budget with
  | root hbase hlink =>
    simp only [buildFrom, List.reverse_nil, List.foldlM_nil, bind_eq_ok, pure_eq_ok,
      ReadBudget.spend_eq_ok, ← ownData_eq_inflated hlink, Prod.mk.injEq]
    constructor
    · rintro ⟨data, hdata, budget, ⟨hle, rfl⟩, rfl, rfl⟩
      exact ⟨data.length, .root hbase hdata hle, rfl⟩
    · rintro ⟨built, hbuilds, rfl⟩
      cases hbuilds with
      | root _ hdata hle => exact ⟨data, hdata, _, ⟨hle, rfl⟩, rfl, rfl⟩
      | delta hbase' => simp [hbase] at hbase'
  | @delta i b link base deltas hbase hlink _ ih =>
    rw [buildFrom_cons, bind_eq_ok]
    constructor
    · rintro ⟨⟨data', budget'⟩, hfrom, hstep⟩
      obtain ⟨built, hb, rfl⟩ := ih.mp hfrom
      obtain ⟨delta, hdelta, happly, -, hbudget⟩ := buildStep_eq_ok_iff.mp hstep
      rw [← ownData_eq_inflated hlink] at hdelta
      refine ⟨built + data.length, .delta hbase hb hdelta happly, hbudget.trans ?_⟩
      simp [Nat.sub_sub]
    · rintro ⟨built, hbuilds, rfl⟩
      have hle := hbuilds.built_le
      cases hbuilds with
      | root hbase' => simp [hbase] at hbase'
      | @delta _ b' built' base' delta _ hbase' hb hdelta happly =>
        obtain rfl := some.inj (hbase.symm.trans hbase')
        refine ⟨(base', ⟨step, left - built'⟩), ih.mpr ⟨built', hb, rfl⟩, ?_⟩
        refine buildStep_eq_ok_iff.mpr ⟨delta, ?_, happly, ?_, ?_⟩
        · rw [← ownData_eq_inflated hlink]
          exact hdelta
        · simp only
          omega
        · simp [Nat.sub_sub]

include h in
theorem Builds.exists_chainLinks :
    ∃ deltas base, pp.ChainLinks i deltas base := by
  induction h with
  | root hbase hdata =>
    simp only [ownData, bind_eq_ok] at hdata
    obtain ⟨link, hlink, -⟩ := hdata
    exact ⟨[], link, .root hbase hlink⟩
  | delta hbase _ hdelta _ ih =>
    simp only [ownData, bind_eq_ok] at hdelta
    obtain ⟨link, hlink, -⟩ := hdelta
    obtain ⟨deltas, base, hchain⟩ := ih
    exact ⟨link :: deltas, base, .delta hbase hlink hchain⟩

/-! ### Decoding from the whole pack -/

/-- The offsets are those of objects deeper than the object. -/
def Deeper (pp : ParsedPack) (seen : Finset ℕ) (i : ℕ) : Prop :=
  ∀ a ∈ seen, ∃ j < pp.objects.length, (pp.obj j).offset = a ∧ (pp.obj i).deltaDepth < (pp.obj j).deltaDepth

@[simp]
theorem deeper_empty : pp.Deeper ∅ i := fun a ha => absurd ha (Finset.notMem_empty a)

theorem Deeper.insert {seen : Finset ℕ} (h : pp.Deeper seen i) (hi : i < pp.objects.length)
    (hlt : (pp.obj b).deltaDepth < (pp.obj i).deltaDepth) : pp.Deeper (insert (pp.obj i).offset seen) b := by
  intro a ha
  rcases Finset.mem_insert.mp ha with rfl | ha
  · exact ⟨i, hi, rfl, hlt⟩
  · obtain ⟨j, hj, hoffset, hdepth⟩ := h a ha
    exact ⟨j, hj, hoffset, hlt.trans hdepth⟩

namespace PackOk

variable {env : PackEnv} {pp : ParsedPack} (hpp : pp.PackOk) {i : ℕ} (hi : i < pp.objects.length)
variable {stop : ℕ} {entry : Entry}

include hpp hi

theorem extent_eq_ok_iff {start : ℕ} : pp.extent (pp.obj i).offset = .ok (start, stop) ↔
      start = (pp.obj i).offset ∧ stop = (pp.obj i).offset + (pp.obj i).length ∧
        stop ≤ u64Max ∧ stop ≤ pp.packBytes.length := by
  simp only [extent, hpp.atOffset i hi, bind_eq_ok, okOr_eq_ok, some.injEq, pure_eq_ok,
    Prod.mk.injEq, exists_eq_left', filter_eq_some_iff, checkedAdd]
  constructor
  · rintro ⟨e, ⟨he, hfits⟩, rfl, rfl⟩
    split at he <;> grind
  · rintro ⟨rfl, rfl, hmax, hlen⟩
    exact ⟨_, ⟨if_pos hmax, by simp [hlen]⟩, rfl, rfl⟩

theorem ownEntry_eq_ok (h : pp.ownEntry i = .ok (entry, stop)) :
    pp.EntryOk i entry ∧ stop = (pp.obj i).offset + (pp.obj i).length ∧ stop ≤ u64Max := by
  simp only [ownEntry, bind_eq_ok, pure_eq_ok, Prod.mk.injEq] at h
  obtain ⟨⟨start, stop'⟩, hextent, entry', hread, rfl, rfl⟩ := h
  obtain ⟨rfl, hstop, hmax, -⟩ := (hpp.extent_eq_ok_iff hi).mp hextent
  obtain ⟨whole, hwhole, hok⟩ := hpp.entry i hi
  obtain rfl : whole = entry' := Except.ok.inj (hwhole.symm.trans (readEntry_of_take hread))
  exact ⟨hok, hstop, hmax⟩

variable {covered room : ℕ} {seen : Finset ℕ} {deltas : List Link} {links : Links}

theorem linkAt_eq_ok_iff {covered' : ℕ} :
    pp.linkAt pp.packBytes 0 true (pp.obj i).offset covered = .ok (entry, link, covered') ↔
      ∃ stop, pp.ownEntry i = .ok (entry, stop) ∧ link = ⟨entry.data, stop, entry.size⟩ ∧
        covered' = satAdd covered (pp.obj i).length := by
  have hsub : checkedSub (pp.obj i).offset 0 = some (pp.obj i).offset := by simp [checkedSub]
  simp only [linkAt, linkEnd, ownEntry, hsub, bind_eq_ok, okOr_eq_ok, refuseIf_eq_ok, pure_eq_ok,
    if_true, Prod.mk.injEq, some.injEq, exists_eq_left']
  constructor
  · rintro ⟨_, ⟨⟨start, stop⟩, hextent, rfl⟩, -, -, entry', hread, rfl, rfl, rfl⟩
    obtain ⟨rfl, rfl, -⟩ := (hpp.extent_eq_ok_iff hi).mp hextent
    exact ⟨_, ⟨_, hextent, entry', hread, rfl, rfl⟩, rfl, by rw [Nat.add_sub_cancel_left]⟩
  · rintro ⟨stop, ⟨⟨start, stop'⟩, hextent, entry', hread, rfl, rfl⟩, rfl, rfl⟩
    obtain ⟨rfl, rfl, -, hlen⟩ := (hpp.extent_eq_ok_iff hi).mp hextent
    refine ⟨_, ⟨_, hextent, rfl⟩, (), not_lt.mpr hlen, entry', hread, rfl, rfl, ?_⟩
    rw [Nat.add_sub_cancel_left]

omit hi in
theorem not_mem_seen (hi : i < pp.objects.length) (hseen : pp.Deeper seen i) : (pp.obj i).offset ∉ seen := by
  intro hmem
  obtain ⟨j, hj, hoffset, hdepth⟩ := hseen _ hmem
  have hij : some i = some j := by
    rw [← hpp.atOffset i hi, ← hpp.atOffset j hj, hoffset]
  obtain rfl := some.inj hij
  exact lt_irrefl _ hdepth

theorem exists_linkAt (covered : ℕ) : (∃ link entry, pp.ownLink i = .ok link ∧ pp.EntryOk i entry ∧
      pp.linkAt pp.packBytes 0 true (pp.obj i).offset covered = .ok (entry, link, satAdd covered (pp.obj i).length)) ∨
    (∃ e, pp.linkAt pp.packBytes 0 true (pp.obj i).offset covered = .error e) ∧ ∀ link, pp.ownLink i ≠ .ok link := by
  cases hlink : pp.linkAt pp.packBytes 0 true (pp.obj i).offset covered with
  | error e =>
    refine .inr ⟨⟨e, rfl⟩, fun link hown => ?_⟩
    obtain ⟨entry, stop, hentry, hl⟩ := ownLink_eq_ok_iff.mp hown
    have hok := (hpp.linkAt_eq_ok_iff hi).mpr ⟨stop, hentry, hl, @rfl _ (satAdd covered _)⟩
    simp [hlink] at hok
  | ok r =>
    obtain ⟨entry, link, covered'⟩ := r
    obtain ⟨stop, hentry, hl, rfl⟩ := (hpp.linkAt_eq_ok_iff hi).mp hlink
    exact .inl ⟨link, entry, ownLink_eq_ok_iff.mpr ⟨entry, stop, hentry, hl⟩, (hpp.ownEntry_eq_ok hi hentry).1, rfl⟩

theorem linksFrom_root_iff (hbase : pp.base i = none) (hseen : (pp.obj i).offset ∉ seen) :
    pp.linksFrom pp.packBytes 0 true room seen (pp.obj i).offset deltas covered = .ok links ↔
      ∃ link, pp.ownLink i = .ok link ∧
        links = ⟨(pp.obj i).objType, link, deltas, satAdd covered (pp.obj i).length⟩ := by
  unfold linksFrom
  rw [if_neg hseen]
  rcases hpp.exists_linkAt hi covered with ⟨link, entry, hlink, hentry, hread⟩ | ⟨⟨e, hread⟩, hlink⟩
  · cases hentry with
    | delta hbase' => simp [hbase] at hbase'
    | root _ hnone htype =>
      simp only [hread, hnone, nextAddr, htype, hlink, bind_eq_ok, pure_eq_ok, Except.ok.injEq, exists_eq_left']
      exact eq_comm
  · simp only [hread, reduceCtorEq, false_iff]
    rintro ⟨link, hown, -⟩
    exact hlink link hown

theorem linksFrom_delta_iff {b : ℕ} (hbase : pp.base i = some b) (hseen : (pp.obj i).offset ∉ seen) :
    pp.linksFrom pp.packBytes 0 true (room + 1) seen (pp.obj i).offset deltas covered = .ok links ↔
      ∃ link, pp.ownLink i = .ok link ∧
        pp.linksFrom pp.packBytes 0 true room (insert (pp.obj i).offset seen) (pp.obj b).offset
          (deltas ++ [link]) (satAdd covered (pp.obj i).length) = .ok links := by
  nth_rewrite 1 [linksFrom]
  rw [if_neg hseen]
  rcases hpp.exists_linkAt hi covered with ⟨link, entry, hlink, hentry, hread⟩ | ⟨⟨e, hread⟩, hlink⟩
  · cases hentry with
    | root hbase' => simp [hbase] at hbase'
    | delta hbase' _ haddr =>
      obtain rfl := some.inj (hbase.symm.trans hbase')
      simp [hread, nextAddr_eq_ok haddr, hlink, exists_eq_left']
  · simp only [hread, reduceCtorEq, false_iff]
    rintro ⟨link, hown, -⟩
    exact hlink link hown

omit hi in
theorem linksFrom_eq_ok_iff (hi : i < pp.objects.length) (hroom : (pp.obj i).deltaDepth ≤ room)
    (hseen : pp.Deeper seen i) : pp.linksFrom pp.packBytes 0 true room seen (pp.obj i).offset deltas
      covered = .ok links ↔
      ∃ rest base, pp.ChainLinks i rest base ∧ links =
        ⟨(pp.obj i).objType, base, deltas ++ rest, satAdd covered (pp.chainBytes i)⟩ := by
  induction room generalizing i seen deltas covered with
  | zero =>
    obtain ⟨entry, -, hentry⟩ := hpp.entry i hi
    cases hentry with
    | delta _ _ _ _ hdepth => omega
    | root hbase =>
      rw [hpp.linksFrom_root_iff hi hbase (hpp.not_mem_seen hi hseen)]
      simp [chainLinks_root_iff hbase, chainBytes_root hbase, and_assoc]
  | succ room ih =>
    obtain ⟨entry, -, hentry⟩ := hpp.entry i hi
    cases hentry with
    | root hbase =>
      rw [hpp.linksFrom_root_iff hi hbase (hpp.not_mem_seen hi hseen)]
      simp [chainLinks_root_iff hbase, chainBytes_root hbase, and_assoc]
    | @delta b hbase hb _ htype hdepth =>
      rw [hpp.linksFrom_delta_iff hi hbase (hpp.not_mem_seen hi hseen)]
      have hcovered : satAdd (satAdd covered (pp.obj i).length) (pp.chainBytes b) =
          satAdd covered (pp.chainBytes i) := by
        rw [satAdd_satAdd, chainBytes_delta hbase hdepth, satAdd]
        congr 1
        omega
      simp only [ih hb (by omega) (hseen.insert hi (by omega)), hcovered, ← htype, chainLinks_delta_iff hbase]
      constructor
      · rintro ⟨link, hlink, rest, base, hchain, rfl⟩
        exact ⟨link :: rest, base, ⟨link, rest, rfl, hlink, hchain⟩, by simp⟩
      · rintro ⟨_, base, ⟨link, rest, rfl, hlink, hchain⟩, rfl⟩
        exact ⟨link, hlink, rest, base, hchain, by simp⟩

/-- Decoding an object from the whole pack is building it from its base within its budget. -/
theorem decodeAt_eq_ok_iff {t : GitObjType} : pp.decodeAt env pp.packBytes 0 (pp.obj i).offset true = .ok (t, data) ↔
      t = (pp.obj i).objType ∧ ∃ built, pp.Decodes env i data built := by
  have hlinks : ∀ links, pp.linksAt pp.packBytes 0 (pp.obj i).offset true = .ok links ↔
      ∃ deltas base, pp.ChainLinks i deltas base ∧
        links = ⟨(pp.obj i).objType, base, deltas, min (pp.chainBytes i) u64Max⟩ := by
    intro links
    simp only [linksAt, if_true, bind_eq_ok, pure_eq_ok, exists_eq_right,
      hpp.linksFrom_eq_ok_iff hi (hpp.depth_le i hi) deeper_empty, List.nil_append, satAdd, Nat.zero_add]
  simp only [decodeAt, build, bind_eq_ok, pure_eq_ok, Prod.mk.injEq, hlinks]
  constructor
  · rintro ⟨_, ⟨deltas, base, hchain, rfl⟩, _, ⟨⟨data', budget⟩, hbuild, rfl⟩, rfl, rfl⟩
    obtain ⟨built, hbuilds, -⟩ := hchain.buildFrom_eq_ok_iff.mp hbuild
    exact ⟨rfl, built, hbuilds⟩
  · rintro ⟨rfl, built, hbuilds⟩
    obtain ⟨deltas, base, hchain⟩ := hbuilds.exists_chainLinks
    exact ⟨_, ⟨deltas, base, hchain, rfl⟩, data,
      ⟨_, hchain.buildFrom_eq_ok_iff.mpr ⟨built, hbuilds, rfl⟩, rfl⟩, rfl, rfl⟩

end PackOk

end ParsedPack

end DashForge
