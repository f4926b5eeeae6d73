import DashForge.Pack.HistoryFormat
import DashForge.Pack.HistoryWalk

/-!
# Building a history index

From the lists of a walk to an index (`pack/historyindex.rs`): the table of the commits they name, the column of
last changes, and the lists cut to a limit (`assemble`). A limit at which the index would not be read is halved
(`shrink`). What git is asked for besides the log is a parameter.

An index has of each path the changes of the walk that the limit leaves (`compute_spec`).
-/

namespace DashForge.History

open List SortedMap

/-! ### The index of a tip -/

/-- What the index keeps of a commit. -/
structure CommitMeta where
  authorTime : ℕ
  subject : String
  author : String

/-- What git says of the tip. -/
structure TipInfo where
  tip : Bytes
  commitCount : ℕ
  firstParentCount : ℕ
  rootTime : ℕ
  tipTime : ℕ

/-- A list's first `limit` changes. -/
def kept (l : RawList) (limit : ℕ) : List RawVersion := l.versions.take limit

section Assemble

variable (commitMeta : Bytes → CommitMeta)

/-- The commit table, and each commit's slot in it. -/
def commitTable (distinct : List Bytes) : List IndexedCommit × (Bytes → Option ℕ) :=
  (distinct.map fun oid =>
    ⟨oid, (commitMeta oid).authorTime, (commitMeta oid).subject, (commitMeta oid).author⟩,
    fun oid => (distinct.zipIdx.lookup oid).map fun i => min i u32Max)

/-- A change as the index stores it. -/
def RawVersion.stored (v : RawVersion) (commit : ℕ) : PathVersion where
  commit := commit
  mode := v.mode
  oid := v.oid.take (storedOidLen v.mode oidPrefixLen)

/-- The commit table, the column and the version lists cut to `limit`. -/
def assemble (found : RawLists) (limit : ℕ) :
    Except (Fault PackError) (List IndexedCommit × PathMap × VersionLists) :=
  let distinct := sortedDistinct (found.entries.flatMap fun e => (kept e.2 limit).map RawVersion.commit)
  let (commits, slot) := commitTable commitMeta distinct
  -- a list without changes, or a commit without a slot, is a panic
  if ∀ e ∈ found.entries, (e.2.versions.head?.bind fun v => slot v.commit).isSome ∧
      ∀ v ∈ kept e.2 limit, (slot v.commit).isSome then
    .ok (commits,
      found.mapVals fun _ l => (l.versions.head?.bind fun v => slot v.commit).getD 0,
      found.mapVals fun _ l =>
        ⟨(kept l limit).map fun v => v.stored ((slot v.commit).getD 0), l.complete && l.versions.length ≤ limit⟩)
  else .error .panic

def buildIndex (info : TipInfo) (found : RawLists) (limit : ℕ) : Except (Fault PackError) HistoryIndex := do
  let (commits, paths, lists) ← assemble commitMeta found limit
  return { tip := info.tip
           base := none
           commitCount := info.commitCount
           firstParentCount := info.firstParentCount
           rootTime := info.rootTime
           tipTime := info.tipTime
           commits := commits
           paths := paths
           versions := some ⟨limit, oidPrefixLen, lists⟩ }

end Assemble

/-- Whether every reader accepts an index. -/
def fits (ix : HistoryIndex) : Except (Fault PackError) Bool :=
  let entries := ix.versions.elim 0 fun v => (v.lists.entries.map fun e => e.2.versions.length).sum
  if ix.commits.length ≤ maxRows ∧ ix.paths.entries.length ≤ maxRows ∧ entries ≤ maxRows then do
    let bytes ← body ix
    return bytes.length ≤ maxInflated
  else return false

/-- Halve the limit until the index fits. The limit itself is `fuel` enough. -/
def shrink (build : ℕ → Except (Fault PackError) HistoryIndex) : ℕ → ℕ → Except (Fault PackError) HistoryIndex
  | 0, _ => .error .panic
  | fuel + 1, limit => do
    let ix ← build limit
    let fit ← fits ix
    if fit then return ix
    else if limit = 1 then
      .error (.err (bad "the index is over the readers' size limits even at one version per path"))
    else shrink build fuel (limit / 2)

/-- The index of a tip with the paths `tipPaths`, from its log: a full one, or with `since` a delta. -/
def compute (commitMeta : Bytes → CommitMeta) (info : TipInfo) (tokens : List LogToken) (tipPaths : List Bytes)
    (since : Bool) (limit : ℕ) : Except (Fault PackError) HistoryIndex := do
  let limit := max 1 (min limit maxVersionsPerPath)
  let found ← firstParentChanges limit tokens tipPaths
  if !since ∧ found.entries.length ≠ tipPaths.length then
    .error (.err (bad "git log did not account for every path of the tip"))
  else shrink (buildIndex commitMeta info found) limit limit

/-! ### What it lists -/

/-- A change as a reader resolves it. -/
def RawVersion.resolved (v : RawVersion) : Bytes × ℕ × Bytes :=
  (v.commit, v.mode, v.oid.take (storedOidLen v.mode oidPrefixLen))

/-- The list of a path that a limit leaves of a walk's. -/
def cutList (limit : ℕ) (l : RawList) : ResolvedList where
  versions := (kept l limit).map RawVersion.resolved
  complete := l.complete && l.versions.length ≤ limit

section Build

variable {commitMeta : Bytes → CommitMeta} {found : RawLists} {limit : ℕ}

theorem slot_eq {distinct : List Bytes} (hlen : distinct.length ≤ u32Max) {oid : Bytes} (hoid : oid ∈ distinct) :
    ∃ i, (commitTable commitMeta distinct).2 oid = some i ∧
      ((commitTable commitMeta distinct).1[i]?.elim [] IndexedCommit.oid) = oid ∧
        i < (commitTable commitMeta distinct).1.length := by
  obtain ⟨i, hi, hget⟩ := lookup_zipIdx hoid 0
  obtain ⟨hlt, -⟩ := List.getElem?_eq_some_iff.mp hget
  refine ⟨i, ?_, ?_, by simpa [commitTable] using hlt⟩
  · change (distinct.zipIdx.lookup oid).map _ = _
    rw [hi, Option.map_some, Nat.zero_add, Nat.min_eq_left (by omega)]
  · simp [commitTable, hget]

variable {ix : HistoryIndex}

theorem buildIndex_spec {info : TipInfo} (h : buildIndex commitMeta info found limit = .ok ix)
    (hrows : ix.commits.length ≤ maxRows) : ix.paths.keys = found.keys ∧ (∃ v, ix.versions = some v ∧ v.limit = limit) ∧
      ∃ lists, ix.resolvedVersions = .ok (some lists) ∧ ∀ p, lists.lookup p = (found.lookup p).map (cutList limit) := by
  obtain ⟨⟨commits, paths, lists⟩, hassemble, hix⟩ := bind_eq_ok.mp h
  obtain rfl := pure_eq_ok.mp hix
  rw [assemble] at hassemble
  generalize hdistinct : sortedDistinct (found.entries.flatMap fun e =>
    (kept e.2 limit).map RawVersion.commit) = distinct at hassemble
  dsimp only at hassemble
  split at hassemble
  · obtain ⟨hcommits, hrest⟩ := Prod.mk.inj (Except.ok.inj hassemble)
    obtain ⟨rfl, rfl⟩ := Prod.mk.inj hrest
    subst hcommits
    have hlen : distinct.length ≤ u32Max := by
      have hmax : maxRows ≤ u32Max := by decide
      simp only [commitTable, length_map] at hrows
      omega
    have hslot : ∀ e ∈ found.entries, ∀ v ∈ kept e.2 limit, ∃ i, (commitTable commitMeta distinct).2 v.commit = some i ∧
        ((commitTable commitMeta distinct).1[i]?.elim [] IndexedCommit.oid) = v.commit ∧
          i < (commitTable commitMeta distinct).1.length := by
      intro e he v hv
      refine slot_eq hlen ?_
      rw [← hdistinct, mem_sortedDistinct]
      exact mem_flatMap.mpr ⟨e, he, mem_map_of_mem hv⟩
    refine ⟨by simp [SortedMap.keys, SortedMap.mapVals], ⟨_, rfl, rfl⟩, _, if_pos ?_, fun p => ?_⟩
    · intro e he x hx
      obtain ⟨e', he', rfl⟩ := mem_map.mp he
      obtain ⟨v, hv, rfl⟩ := mem_map.mp hx
      obtain ⟨i, hi, -, hlt⟩ := hslot e' he' v hv
      simpa [RawVersion.stored, hi] using hlt
    · rw [lookup_mapVals, lookup_mapVals, Option.map_map]
      cases hlookup : found.lookup p with
      | none => rfl
      | some l =>
        rw [Option.map_some, Option.map_some, Option.some_inj, cutList, Function.comp_apply, resolveList]
        refine congrArg₂ ResolvedList.mk ?_ rfl
        rw [map_map]
        refine map_congr_left fun v hv => ?_
        obtain ⟨i, hi, hget, -⟩ := hslot _ (lookup_eq_some_iff.mp hlookup) v hv
        simp [RawVersion.stored, hi, hget, RawVersion.resolved]
  · cases hassemble

theorem commits_of_fits (h : fits ix = .ok true) : ix.commits.length ≤ maxRows := by
  rw [fits] at h
  split at h
  · next hrows => exact hrows.1
  · cases pure_eq_ok.mp h

theorem shrink_spec {build : ℕ → Except (Fault PackError) HistoryIndex} {fuel : ℕ}
    (h : shrink build fuel limit = .ok ix) (hlimit : 1 ≤ limit) :
    ∃ l, 1 ≤ l ∧ l ≤ limit ∧ build l = .ok ix ∧ fits ix = .ok true := by
  induction fuel generalizing limit with
  | zero => cases h
  | succ fuel ih =>
    obtain ⟨ix', hbuild, h⟩ := bind_eq_ok.mp h
    obtain ⟨fit, hfits, h⟩ := bind_eq_ok.mp h
    cases fit with
    | true =>
      obtain rfl := pure_eq_ok.mp h
      exact ⟨limit, hlimit, le_rfl, hbuild, hfits⟩
    | false =>
      rw [if_neg Bool.false_ne_true] at h
      split at h
      · cases h
      · obtain ⟨l, hl, hle, hrest⟩ := ih h (by omega)
        exact ⟨l, hl, by omega, hrest⟩

end Build

/-- The paths of the tip of a history. -/
def tipPaths (h : List Commit) : List Bytes := h.head?.elim [] fun c => c.tree.keys

theorem mem_tipPaths {h : List Commit} {p : Bytes} : p ∈ tipPaths h ↔ entryAt h p ≠ none := by
  cases h with
  | nil => simp [tipPaths, entryAt]
  | cons c h => rw [tipPaths, head?_cons, Option.elim_some, entryAt, ne_eq, SortedMap.lookup_eq_none_iff, not_not]

/-- What an index lists of the newest commits of a history: of each path they changed, the changes that a limit `l`
leaves of those the walk took at a limit `L`. -/
structure Lists (base new : List Commit) (L l : ℕ) (ix : HistoryIndex) : Prop where
  pos : 1 ≤ l
  le : l ≤ L
  paths : ∀ p, p ∈ ix.paths.keys ↔ entryAt (new ++ base) p ≠ none ∧ changesIn base p new ≠ []
  limit : ∃ v, ix.versions = some v ∧ v.limit = l
  lists : ∃ lists, ix.resolvedVersions = .ok (some lists) ∧ ∀ p, lists.lookup p =
    if entryAt (new ++ base) p ≠ none ∧ changesIn base p new ≠ [] then
      some (cutList l (listOf L (changesIn base p new))) else none

/-- **An index lists the changes of its paths.** -/
theorem compute_spec {commitMeta : Bytes → CommitMeta} {info : TipInfo} {base new : List Commit}
    {tokens : List LogToken} (hlog : LogOf base new tokens) {since : Bool} {limit : ℕ} {ix : HistoryIndex}
    (h : compute commitMeta info tokens (tipPaths (new ++ base)) since limit = .ok ix) :
    ∃ l, Lists base new (max 1 (min limit maxVersionsPerPath)) l ix := by
  obtain ⟨found, hfound, hlookup⟩ := firstParentChanges_spec hlog (le_max_left 1 (min limit maxVersionsPerPath))
    fun p hp => mem_tipPaths.mp hp
  rw [compute, hfound, ok_bind] at h
  split at h
  · cases h
  · obtain ⟨l, hl, hle, hbuild, hfits⟩ := shrink_spec h (le_max_left 1 _)
    obtain ⟨hkeys, hv, lists, hlists, hget⟩ := buildIndex_spec hbuild (commits_of_fits hfits)
    refine ⟨l, hl, hle, fun p => ?_, hv, lists, hlists, fun p => ?_⟩
    · simp only [hkeys, mem_keys_iff, hlookup, mem_tipPaths]
      split
      · next hp => exact iff_of_true ⟨_, rfl⟩ hp
      · next hp => exact iff_of_false (by simp) hp
    · simp only [hget, hlookup, mem_tipPaths, apply_ite (Option.map (cutList l))]
      rfl

end DashForge.History
