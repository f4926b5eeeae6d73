import DashForge.Pack.HistoryCompute

/-!
# A delta laid over its base

The history of a path at a tip, from the full index of an earlier tip and the delta since (`overlayVersions`,
`pack/historyindex.rs`). Each index lists of each path what its own limit leaves, so the two meet in a gap only
where the delta's list was cut; there its limit cuts what the base would add.

`overlay_isPrefix` is the result: the list of a path is the newest part of its changes, and `complete` only when it
is all of them.
-/

namespace DashForge.History

open List Option SortedMap

/-! ### The overlay -/

/-- The first version of each commit. -/
def firstOfCommit : List Bytes → List (Bytes × ℕ × Bytes) → List (Bytes × ℕ × Bytes)
  | _, [] => []
  | seen, e :: es => if e.1 ∈ seen then firstOfCommit seen es else e :: firstOfCommit (e.1 :: seen) es

/-- Lay the list of one path of the delta over the base's. -/
def overlayPath (limit : ℕ) (baseLists deltaLists : Option (SortedMap Bytes ResolvedList))
    (out : SortedMap Bytes ResolvedList) (path : Bytes) : SortedMap Bytes ResolvedList :=
  match deltaLists.bind fun d => d.lookup path with
  | none => out.erase path
  | some d =>
    match (baseLists.bind fun b => b.lookup path).filter fun _ => !d.complete with
    | none => out.insert path d
    | some b =>
      let versions := firstOfCommit [] (d.versions ++ b.versions)
      let cut := limit < versions.length
      out.insert path ⟨versions.take limit, b.complete && !cut⟩

/-- The lists of a delta's tip; `none` when neither index has lists. The limit is the delta's own: what it cut must
not have the base's versions after a gap. -/
def overlayVersions (base delta : HistoryIndex) : Except (Fault Empty) (Option (SortedMap Bytes ResolvedList)) :=
  match delta.versions.or base.versions with
  | none => return none
  | some v => do
    let baseLists ← base.resolvedVersions
    let deltaLists ← delta.resolvedVersions
    return some (delta.paths.keys.foldl (overlayPath v.limit baseLists deltaLists) (baseLists.getD .empty))

section Overlay

variable {limit : ℕ} {baseLists deltaLists : Option (SortedMap Bytes ResolvedList)}

/-- What a path of the delta gets. -/
def overlaid (limit : ℕ) (base delta : Option ResolvedList) : Option ResolvedList :=
  delta.map fun d =>
    match base.filter fun _ => !d.complete with
    | none => d
    | some b =>
      let versions := firstOfCommit [] (d.versions ++ b.versions)
      ⟨versions.take limit, b.complete && !(limit < versions.length : Bool)⟩

theorem lookup_overlayPath (out : SortedMap Bytes ResolvedList) (path p : Bytes) :
    (overlayPath limit baseLists deltaLists out path).lookup p =
      if p = path then overlaid limit (baseLists.bind fun b => b.lookup path) (deltaLists.bind fun d => d.lookup path)
      else out.lookup p := by
  rw [overlayPath, overlaid]
  cases deltaLists.bind fun d => d.lookup path with
  | none => simp [lookup_erase]
  | some d =>
    rw [map_some]
    cases hbase : (baseLists.bind fun b => b.lookup path).filter fun _ => !d.complete <;>
      simp [hbase, lookup_insert]

theorem lookup_foldl_overlayPath (paths : List Bytes) (out : SortedMap Bytes ResolvedList) (p : Bytes) :
    (paths.foldl (overlayPath limit baseLists deltaLists) out).lookup p =
      if p ∈ paths then overlaid limit (baseLists.bind fun b => b.lookup p) (deltaLists.bind fun d => d.lookup p)
      else out.lookup p := by
  induction paths generalizing out with
  | nil => rfl
  | cons path paths ih =>
    rw [foldl_cons, ih, lookup_overlayPath]
    by_cases hp : p = path
    · subst hp
      simp
    · simp [hp]

end Overlay

theorem firstOfCommit_eq_self {seen : List Bytes} {es : List (Bytes × ℕ × Bytes)} (hnodup : (es.map Prod.fst).Nodup)
    (hseen : ∀ e ∈ es, e.1 ∉ seen) : firstOfCommit seen es = es := by
  induction es generalizing seen with
  | nil => rfl
  | cons e es ih =>
    obtain ⟨he, hes⟩ := nodup_cons.mp hnodup
    rw [firstOfCommit, if_neg (hseen e mem_cons_self), ih hes]
    intro x hx
    rw [mem_cons, not_or]
    exact ⟨fun h => he (h ▸ mem_map_of_mem hx), hseen x (mem_cons_of_mem e hx)⟩

/-! ### The changes of a longer history -/

section Changes

variable {base new : List Commit} {p : Bytes}

theorem changesIn_append (h : entryAt (new ++ base) p ≠ none) : changesIn [] p (new ++ base) =
    changesIn base p new ++ if (changesIn base p new).any Change.added then [] else changesIn [] p base := by
  induction new with
  | nil => rfl
  | cons c new ih =>
    obtain ⟨e, he⟩ := ne_none_iff_exists'.mp h
    replace he : c.tree.lookup p = some e := he
    rw [cons_append, changesIn, changesIn, he, append_nil]
    dsimp only
    split
    · next hsame => exact ih (by rw [hsame]; simp)
    · cases hbefore : entryAt (new ++ base) p with
      | none => simp
      | some b => simp [ih (by rw [hbefore]; simp)]

theorem added_of_mem_dropLast {ch : Change} (h : ch ∈ (changesIn base p new).dropLast) : ch.added = false := by
  induction new with
  | nil => simp [changesIn] at h
  | cons c new ih =>
    rw [changesIn] at h
    split at h
    · exact ih h
    · split at h
      · simp at h
      · cases hbefore : entryAt (new ++ base) p with
        | none => simp [hbefore] at h
        | some b =>
          cases hchanges : changesIn base p new with
          | nil => simp [hbefore, hchanges] at h
          | cons ch' cs =>
            rw [hbefore, hchanges, isNone_some, if_neg Bool.false_ne_true, dropLast_cons_cons] at h
            rcases mem_cons.mp h with rfl | h
            · rfl
            · exact ih (hchanges ▸ h)

theorem commits_changesIn : ((changesIn base p new).map fun ch => ch.version.commit).Sublist (new.map Commit.oid) := by
  induction new with
  | nil => exact .slnil
  | cons c new ih =>
    rw [changesIn]
    split
    · exact ih.cons c.oid
    · split
      · exact nil_sublist _
      · split
        · exact (nil_sublist _).cons_cons c.oid
        · exact ih.cons_cons c.oid

end Changes

/-! ### What a limit leaves -/

section Cut

/-- A change as a reader resolves it. -/
def Change.resolved (ch : Change) : Bytes × ℕ × Bytes := ch.version.resolved

/-- The true list of a path: all its changes back to the newest that added it, newest first. -/
def trueList (h : List Commit) (p : Bytes) : List (Bytes × ℕ × Bytes) := (changesIn [] p h).map Change.resolved

variable {base new : List Commit} {p : Bytes} {L l : ℕ}

theorem versions_cutList (hle : l ≤ L) (cs : List Change) :
    (cutList l (listOf L cs)).versions = (cs.take l).map Change.resolved := by
  rw [cutList, kept, listOf, ← map_take, take_take, min_eq_left hle, List.map_map]
  rfl

theorem complete_cutList (cs : List Change) : (cutList l (listOf L cs)).complete = true ↔
    (∃ ch ∈ (cs.take L).getLast?, ch.added) ∧ (cs.take L).length ≤ l := by
  simp [cutList, listOf, Option.any_eq_true]

/-- A complete list is whole, and the path was added since the base. -/
theorem whole_of_complete (h : (cutList l (listOf L (changesIn base p new))).complete = true) :
    (changesIn base p new).length ≤ l ∧ (changesIn base p new).any Change.added = true := by
  obtain ⟨⟨ch, hch, hadd⟩, hlen⟩ := (complete_cutList _).mp h
  have hmem := mem_of_mem_getLast? hch
  -- the change that added the path is the oldest, so the walk was not cut before it
  have hwhole : (changesIn base p new).length ≤ L := by
    by_contra hlt
    have htake : (changesIn base p new).take L = (changesIn base p new).dropLast.take L := by
      rw [dropLast_eq_take, take_take, min_eq_left (by omega)]
    rw [htake] at hmem
    exact absurd (hadd.symm.trans (added_of_mem_dropLast (mem_of_mem_take hmem))) (by simp)
  rw [take_of_length_le hwhole] at hmem hlen
  exact ⟨hlen, List.any_eq_true.mpr ⟨ch, hmem, hadd⟩⟩

theorem cut_of_incomplete (hle : l ≤ L) (h : (cutList l (listOf L (changesIn base p new))).complete = false) :
    l < (changesIn base p new).length ∨ (changesIn base p new).any Change.added = false := by
  refine or_iff_not_imp_left.mpr fun hlen => ?_
  have hwhole : (changesIn base p new).take L = changesIn base p new := take_of_length_le (by omega)
  rw [← Bool.not_eq_true, complete_cutList, hwhole] at h
  rw [List.any_eq_false]
  intro ch hch hadd
  refine h ⟨?_, not_lt.mp hlen⟩
  obtain ⟨init, last, hinit⟩ := 
    (eq_nil_or_concat' (changesIn base p new)).resolve_left (ne_nil_of_mem hch)
  rw [hinit] at hch ⊢
  rcases mem_append.mp hch with hmem | hmem
  · have hdrop : ch ∈ (changesIn base p new).dropLast := by rw [hinit, dropLast_concat]; exact hmem
    exact absurd (hadd.symm.trans (added_of_mem_dropLast hdrop)) (by simp)
  · obtain rfl := mem_singleton.mp hmem
    exact ⟨ch, by simp, hadd⟩

end Cut

/-! ### One path -/

section Path

variable {base new : List Commit} {p : Bytes} {L l Lb lb : ℕ}

/-- The newest part of the changes of a path, and whole where it says so. -/
def NewestOf (h : List Commit) (p : Bytes) (list : ResolvedList) : Prop :=
  list.versions <+: trueList h p ∧ (list.complete → list.versions = trueList h p)

variable (hp : entryAt (new ++ base) p ≠ none)

include hp in
theorem trueList_append : trueList (new ++ base) p =
    (changesIn base p new).map Change.resolved ++
      if (changesIn base p new).any Change.added then [] else trueList base p := by
  rw [trueList, changesIn_append hp, map_append, apply_ite (map Change.resolved)]
  rfl

theorem newestOf_base (hle : lb ≤ Lb) : NewestOf base p (cutList lb (listOf Lb (changesIn [] p base))) := by
  rw [NewestOf, versions_cutList hle, trueList]
  refine ⟨(List.take_prefix lb _).map _, fun hcomplete => ?_⟩
  rw [take_of_length_le (whole_of_complete hcomplete).1]

include hp in
theorem trueList_unchanged (hnil : changesIn base p new = []) :
    trueList (new ++ base) p = trueList base p := by
  rw [trueList_append hp, hnil]
  rfl

include hp in
theorem newestOf_delta (hle : l ≤ L) :
    NewestOf (new ++ base) p (cutList l (listOf L (changesIn base p new))) := by
  rw [NewestOf, versions_cutList hle, trueList_append hp]
  refine ⟨((List.take_prefix l _).map _).trans (prefix_append _ _), fun hcomplete => ?_⟩
  obtain ⟨hlen, hadd⟩ := whole_of_complete hcomplete
  rw [take_of_length_le hlen, if_pos hadd, append_nil]

theorem firstOfCommit_versions (hoids : ((new ++ base).map Commit.oid).Nodup) (n m : ℕ) :
    firstOfCommit [] (((changesIn base p new).take n).map Change.resolved ++
        ((changesIn [] p base).take m).map Change.resolved) =
      ((changesIn base p new).take n).map Change.resolved ++ ((changesIn [] p base).take m).map Change.resolved := by
  refine firstOfCommit_eq_self ?_ (by simp)
  have hcommits : ∀ (cs : List Change) (k : ℕ), ((cs.take k).map Change.resolved).map Prod.fst =
      (cs.map fun ch => ch.version.commit).take k := by
    intro cs k
    rw [List.map_map, ← map_take]
    rfl
  rw [map_append, hcommits, hcommits]
  refine hoids.sublist ?_
  rw [map_append]
  exact ((take_sublist _ _).trans commits_changesIn).append ((take_sublist _ _).trans commits_changesIn)

theorem newestOf_overlaid (hoids : ((new ++ base).map Commit.oid).Nodup) (hp : entryAt (new ++ base) p ≠ none)
    (hle : l ≤ L) (hleb : lb ≤ Lb) (hposb : 1 ≤ lb) (hbase : changesIn [] p base ≠ [])
    (hd : (cutList l (listOf L (changesIn base p new))).complete = false) :
    let versions := firstOfCommit [] ((cutList l (listOf L (changesIn base p new))).versions ++
      (cutList lb (listOf Lb (changesIn [] p base))).versions)
    NewestOf (new ++ base) p ⟨versions.take l,
      (cutList lb (listOf Lb (changesIn [] p base))).complete && !(l < versions.length : Bool)⟩ := by
  rw [versions_cutList hle, versions_cutList hleb, firstOfCommit_versions hoids]
  intro versions
  by_cases hcut : l < (changesIn base p new).length
  · -- the delta's list was cut: its limit leaves nothing of the base's
    have hlen : (((changesIn base p new).take l).map Change.resolved).length = l := by
      rw [length_map, length_take, min_eq_left hcut.le]
    have hpos := length_pos_iff.mpr hbase
    have hlt : l < versions.length := by
      rw [length_append, hlen, length_map, length_take]
      omega
    refine ⟨?_, fun hcomplete => ?_⟩
    · change versions.take l <+: _
      rw [take_left' hlen, trueList_append hp]
      exact ((List.take_prefix l _).map _).trans (prefix_append _ _)
    · rw [decide_eq_true hlt, Bool.not_true, Bool.and_false] at hcomplete
      cases hcomplete
  · -- it is whole and the path was there at the base, so its changes go on there
    have hadd := (cut_of_incomplete hle hd).resolve_left hcut
    have hwhole : (changesIn base p new).take l = changesIn base p new := take_of_length_le (not_lt.mp hcut)
    have htrue := trueList_append hp
    rw [if_neg (by rw [hadd]; exact Bool.false_ne_true)] at htrue
    have hprefix : versions <+: trueList (new ++ base) p := by
      rw [htrue]
      change _ ++ _ <+: _
      rw [hwhole, prefix_append_right_inj]
      exact (List.take_prefix lb _).map _
    refine ⟨(List.take_prefix l _).trans hprefix, fun hcomplete => ?_⟩
    rw [Bool.and_eq_true, Bool.not_eq_true', decide_eq_false_iff_not, not_lt] at hcomplete
    change versions.take l = _
    rw [take_of_length_le hcomplete.2, htrue]
    change _ ++ _ = _
    rw [hwhole, take_of_length_le (whole_of_complete hcomplete.1).1]
    rfl

end Path

/-! ### The two indexes -/

/-- An index as a reader has it: with its lists, or its column alone. -/
def AsRead (full ix : HistoryIndex) : Prop := ix = full ∨ full.column = .ok ix

theorem column_frame {full ix : HistoryIndex} (h : full.column = .ok ix) :
    ix.versions = none ∧ ix.paths.keys = full.paths.keys := by
  unfold HistoryIndex.column at h
  obtain ⟨slots, -, h⟩ := bind_eq_ok.mp h
  obtain ⟨commits, -, h⟩ := bind_eq_ok.mp h
  split at h
  · obtain rfl := pure_eq_ok.mp h
    exact ⟨rfl, by simp [SortedMap.keys, SortedMap.mapVals]⟩
  · cases h

/-- The lists of an index, or that it has none. -/
def HasLists (base new : List Commit) (L l : ℕ) (ix : HistoryIndex) : Option (SortedMap Bytes ResolvedList) → Prop
  | none => ix.versions = none
  | some lists => (∃ v, ix.versions = some v ∧ v.limit = l) ∧ ∀ p, lists.lookup p =
      if entryAt (new ++ base) p ≠ none ∧ changesIn base p new ≠ [] then
        some (cutList l (listOf L (changesIn base p new))) else none

section Indexes

variable {base new : List Commit} {L l Lb lb : ℕ} {full part baseIx deltaIx : HistoryIndex}

variable {ix : HistoryIndex} {baseLists deltaLists : Option (SortedMap Bytes ResolvedList)} {v : Versions} {p : Bytes}
  {list : ResolvedList}

theorem AsRead.spec (h : AsRead full ix) (hfull : Lists base new L l full) :
    (∀ p, p ∈ ix.paths.keys ↔ entryAt (new ++ base) p ≠ none ∧ changesIn base p new ≠ []) ∧
      ∃ lists, ix.resolvedVersions = .ok lists ∧ HasLists base new L l ix lists := by
  rcases h with rfl | h
  · obtain ⟨lists, hlists, hget⟩ := hfull.lists
    exact ⟨hfull.paths, some lists, hlists, hfull.limit, hget⟩
  · obtain ⟨hnone, hkeys⟩ := column_frame h
    refine ⟨fun p => by rw [hkeys, hfull.paths], none, ?_, hnone⟩
    rw [HistoryIndex.resolvedVersions, hnone]

/-- What a delta laid over its base has of a path. -/
theorem lookup_overlayVersions
    (hbase : baseIx.resolvedVersions = .ok baseLists) (hdelta : deltaIx.resolvedVersions = .ok deltaLists)
      (hv : deltaIx.versions.or baseIx.versions = some v) :
    ∃ lists, overlayVersions baseIx deltaIx = .ok (some lists) ∧ ∀ p, lists.lookup p = if p ∈ deltaIx.paths.keys then
        overlaid v.limit (baseLists.bind fun b => b.lookup p) (deltaLists.bind fun d => d.lookup p)
      else (baseLists.getD .empty).lookup p := by
  refine ⟨_, ?_, fun p => lookup_foldl_overlayPath _ _ p⟩
  rw [overlayVersions, hv]
  dsimp only
  rw [hbase, hdelta]
  rfl

/-- A path without a list has none that resolves. -/
theorem lookup_resolvedVersions_eq_none {lists : Option (SortedMap Bytes ResolvedList)}
    (h : ix.resolvedVersions = .ok lists) (hp : ∀ v ∈ ix.versions, v.lists.lookup p = none) :
    (lists.bind fun ls => ls.lookup p) = none := by
  rw [HistoryIndex.resolvedVersions] at h
  split at h
  · obtain rfl := Except.ok.inj h
    rfl
  · next v hv =>
    split at h
    · obtain rfl := Except.ok.inj h
      rw [bind_some, lookup_mapVals, hp v hv]
      rfl
    · cases h

/-- A list within the limit of an index. -/
def WithinLimit (ix : HistoryIndex) (list : ResolvedList) : Prop :=
  ∃ v, ix.versions = some v ∧ list.versions.length ≤ v.limit

theorem length_versions_cutList (hle : l ≤ L) (cs : List Change) : (cutList l (listOf L cs)).versions.length ≤ l := by
  rw [versions_cutList hle, length_map]
  exact length_take_le l cs

/-- A path no commit changed since keeps the base's list. -/
theorem unchanged_spec (hleb : lb ≤ Lb)
    (hbase : HasLists [] base Lb lb baseIx baseLists) (hp : entryAt (new ++ base) p ≠ none)
    (hnil : changesIn base p new = []) (h : (baseLists.getD .empty).lookup p = some list) :
    NewestOf (new ++ base) p list ∧ WithinLimit baseIx list := by
  cases baseLists with
  | none => cases h
  | some lists =>
    obtain ⟨⟨v, hv, hlimit⟩, hget⟩ := hbase
    rw [getD_some, hget] at h
    split at h
    · obtain rfl := some.inj h
      refine ⟨?_, v, hv, hlimit ▸ length_versions_cutList hleb _⟩
      rw [NewestOf, trueList_unchanged hp hnil]
      exact newestOf_base hleb
    · cases h

/-- A path of the delta has the delta's list, continued by the base's where it can be. -/
theorem changed_spec (hoids : ((new ++ base).map Commit.oid).Nodup) (hle : l ≤ L) (hleb : lb ≤ Lb) (hposb : 1 ≤ lb)
    (hbase : HasLists [] base Lb lb baseIx baseLists) (hdelta : HasLists base new L l deltaIx deltaLists)
    (hv : deltaIx.versions.or baseIx.versions = some v) (hp : entryAt (new ++ base) p ≠ none)
    (h : overlaid v.limit (baseLists.bind fun b => b.lookup p) (deltaLists.bind fun d => d.lookup p) = some list) :
    NewestOf (new ++ base) p list ∧ WithinLimit deltaIx list := by
  cases deltaLists with
  | none => cases h
  | some dl =>
    obtain ⟨⟨v', hv', rfl⟩, hget⟩ := hdelta
    rw [hv', some_or] at hv
    obtain rfl := some.inj hv
    rw [bind_some, hget] at h
    split at h
    · rw [overlaid, map_some, some_inj] at h
      cases hb : (baseLists.bind fun b => b.lookup p).filter
          fun _ => !(cutList v'.limit (listOf L (changesIn base p new))).complete with
      | none =>
        rw [hb] at h
        subst h
        exact ⟨newestOf_delta hp hle, v', hv', length_versions_cutList hle _⟩
      | some b =>
        obtain ⟨hb', hd⟩ := filter_eq_some_iff.mp hb
        rw [Bool.not_eq_true'] at hd
        cases baseLists with
        | none => cases hb'
        | some bl =>
          obtain ⟨-, hgetb⟩ := hbase
          rw [bind_some, hgetb] at hb'
          split at hb'
          · next hpb =>
            obtain rfl := some.inj hb'
            rw [hb] at h
            subst h
            refine ⟨newestOf_overlaid hoids hp hle hleb hposb hpb.2 hd, v', hv', ?_⟩
            exact length_take_le _ _
          · cases hb'
    · cases h

end Indexes

/-- **A delta over its base gives true histories.** Of a path at the tip, the list is the newest part of the changes
of the path, back to the newest that added it, within the limit of the delta, or of the base where the delta does not
have the path; it is complete only when it is all of them. A path that the delta has without a list has none. -/
theorem overlay_isPrefix {commitMeta : Bytes → CommitMeta} {baseInfo deltaInfo : TipInfo} {base new : List Commit}
    {baseTokens deltaTokens : List LogToken} {baseLimit deltaLimit : ℕ} {full part baseIx deltaIx : HistoryIndex}
    (hoids : ((new ++ base).map Commit.oid).Nodup) (hbaseLog : LogOf [] base baseTokens)
    (hdeltaLog : LogOf base new deltaTokens)
    (hfull : compute commitMeta baseInfo baseTokens (tipPaths base) false baseLimit = .ok full)
    (hpart : compute commitMeta deltaInfo deltaTokens (tipPaths (new ++ base)) true deltaLimit = .ok part)
    (hbase : AsRead full baseIx) (hdelta : AsRead part deltaIx) :
    ∃ out, overlayVersions baseIx deltaIx = .ok out ∧
      (out = none ↔ baseIx.versions = none ∧ deltaIx.versions = none) ∧
      ∀ lists, out = some lists → ∀ p, entryAt (new ++ base) p ≠ none →
        (∀ list, lists.lookup p = some list → NewestOf (new ++ base) p list ∧
          WithinLimit (if p ∈ deltaIx.paths.keys then deltaIx else baseIx) list) ∧
        (p ∈ deltaIx.paths.keys → (∀ v ∈ deltaIx.versions, v.lists.lookup p = none) → lists.lookup p = none) := by
  rw [← append_nil base] at hfull
  obtain ⟨lb, hb⟩ := compute_spec hbaseLog hfull
  obtain ⟨l, hd⟩ := compute_spec hdeltaLog hpart
  obtain ⟨-, baseLists, hbaseLists, hbaseHas⟩ := hbase.spec hb
  obtain ⟨hkeys, deltaLists, hdeltaLists, hdeltaHas⟩ := hdelta.spec hd
  cases hv : deltaIx.versions.or baseIx.versions with
  | none =>
    obtain ⟨hdnone, hbnone⟩ := Option.or_eq_none_iff.mp hv
    refine ⟨none, by rw [overlayVersions, hv]; rfl, iff_of_true rfl ⟨hbnone, hdnone⟩, ?_⟩
    intro lists hlists
    cases hlists
  | some v =>
    obtain ⟨lists, hoverlay, hget⟩ := lookup_overlayVersions hbaseLists hdeltaLists hv
    refine ⟨some lists, hoverlay, iff_of_false (by simp) ?_, ?_⟩
    · rintro ⟨hbnone, hdnone⟩
      rw [hbnone, hdnone] at hv
      cases hv
    · rintro lists' hlists p hp
      obtain rfl := Option.some.inj hlists
      refine ⟨fun list hlist => ?_, fun hpkeys hunknown => ?_⟩
      · rw [hget] at hlist
        by_cases hpkeys : p ∈ deltaIx.paths.keys
        · rw [if_pos hpkeys] at hlist ⊢
          exact changed_spec hoids hd.le hb.le hb.pos hbaseHas hdeltaHas hv hp hlist
        · rw [if_neg hpkeys] at hlist ⊢
          have hnil : changesIn base p new = [] := by
            by_contra hne
            exact hpkeys ((hkeys p).mpr ⟨hp, hne⟩)
          exact unchanged_spec hb.le hbaseHas hp hnil hlist
      · rw [hget, if_pos hpkeys, lookup_resolvedVersions_eq_none hdeltaLists hunknown]
        rfl

/-! ### A file, a file that becomes a directory -/

def oidSample (k : UInt8) : Bytes := replicate 20 k

def fileSample (k : UInt8) : TreeEntry := ⟨0o100644, oidSample k, by decide⟩

def dirSample (k : UInt8) : TreeEntry := ⟨0o40000, oidSample k, by decide⟩

def firstSample : Commit := ⟨oidSample 1, .ofList [(utf8 "a", fileSample 1), (utf8 "b", fileSample 1)]⟩

def secondSample : Commit := ⟨oidSample 2, .ofList [(utf8 "a", fileSample 2), (utf8 "b", fileSample 1)]⟩

def thirdSample : Commit :=
  ⟨oidSample 3, .ofList [(utf8 "a", fileSample 2), (utf8 "b", dirSample 3), (utf8 "b/x", fileSample 4)]⟩

def baseSample : List Commit := [secondSample, firstSample]

/-- The line of an added path. -/
def addLine (p : String) (e : TreeEntry) : Bytes × ℕ × ℕ × Bytes := (utf8 p, 0, e.mode, e.oid)

def baseLog : List LogToken :=
  .commit secondSample.oid :: ([(utf8 "a", 0o100644, 0o100644, oidSample 2)].map rawToken ++
    (.commit firstSample.oid :: ([addLine "a" (fileSample 1), addLine "b" (fileSample 1)].map rawToken ++ [])))

def deltaLog : List LogToken :=
  .commit thirdSample.oid :: ([(utf8 "b", 0o100644, 0, oidSample 0), addLine "b" (dirSample 3),
    addLine "b/x" (fileSample 4)].map rawToken ++ [])

def metaSample (_ : Bytes) : CommitMeta := ⟨1, "s", "n"⟩

def infoSample (tip : Bytes) (n : ℕ) : TipInfo := ⟨tip, n, n, 1, 1⟩

def fullSample : HistoryIndex where
  tip := oidSample 2
  base := none
  commitCount := 2
  firstParentCount := 2
  rootTime := 1
  tipTime := 1
  commits := [⟨oidSample 1, 1, "s", "n"⟩, ⟨oidSample 2, 1, "s", "n"⟩]
  paths := .ofList [(utf8 "a", 1), (utf8 "b", 0)]
  versions := some ⟨2, 6, .ofList [
    (utf8 "a", ⟨[⟨1, 0o100644, replicate 6 2⟩, ⟨0, 0o100644, replicate 6 1⟩], true⟩),
    (utf8 "b", ⟨[⟨0, 0o100644, replicate 6 1⟩], true⟩)]⟩

/-- The delta of the third commit, at a limit. -/
def deltaSample (limit : ℕ) : HistoryIndex where
  tip := oidSample 3
  base := none
  commitCount := 3
  firstParentCount := 3
  rootTime := 1
  tipTime := 1
  commits := [⟨oidSample 3, 1, "s", "n"⟩]
  paths := .ofList [(utf8 "b", 0), (utf8 "b/x", 0)]
  versions := some ⟨limit, 6, .ofList [
    (utf8 "b", ⟨[⟨0, 0o40000, []⟩], false⟩), (utf8 "b/x", ⟨[⟨0, 0o100644, replicate 6 4⟩], true⟩)]⟩

theorem baseLog_spec : LogOf [] baseSample baseLog := by
  refine .cons (fun p => ?_) (.cons (fun p => ?_) .nil)
  · by_cases ha : utf8 "a" = p
    · subst ha
      exact .modify (fileSample 1) (fileSample 2) (by decide)
    · have hlines : linesAt p [(utf8 "a", 0o100644, 0o100644, oidSample 2)] = [] := by simp [linesAt, ha]
      have hsame : entryAt [firstSample] p = secondSample.tree.lookup p := by
        simp [entryAt, firstSample, secondSample, ofList, lookup_insert, Ne.symm ha]
      rw [hlines]
      exact hsame ▸ .same _
  · by_cases ha : utf8 "a" = p
    · subst ha
      exact .add (fileSample 1)
    · by_cases hb : utf8 "b" = p
      · subst hb
        exact .add (fileSample 1)
      · have hlines : linesAt p [addLine "a" (fileSample 1), addLine "b" (fileSample 1)] = [] := by
          simp [linesAt, addLine, ha, hb]
        have hnone : firstSample.tree.lookup p = none := by
          simp [firstSample, ofList, lookup_insert, lookup_empty, Ne.symm ha, Ne.symm hb]
        rw [hlines, hnone]
        exact .same none

theorem deltaLog_spec : LogOf baseSample [thirdSample] deltaLog := by
  refine .cons (fun p => ?_) .nil
  by_cases hb : utf8 "b" = p
  · subst hb
    exact .deleteAdd (fileSample 1) (dirSample 3) _ (by decide)
  · by_cases hx : utf8 "b/x" = p
    · subst hx
      exact .add (fileSample 4)
    · have hlines : linesAt p [(utf8 "b", 0o100644, 0, oidSample 0), addLine "b" (dirSample 3),
          addLine "b/x" (fileSample 4)] = [] := by
        simp [linesAt, addLine, hb, hx]
      have hsame : entryAt baseSample p = thirdSample.tree.lookup p := by
        simp [entryAt, baseSample, secondSample, thirdSample, ofList, lookup_insert, Ne.symm hb,
          Ne.symm hx]
      rw [hlines]
      exact hsame ▸ .same _

theorem compute_fullSample : compute metaSample (infoSample (oidSample 2) 2) baseLog (tipPaths baseSample) false 2 =
    .ok fullSample := by
  decide +kernel

theorem compute_deltaSample : ∀ limit ∈ [1, 2], compute metaSample (infoSample (oidSample 3) 3) deltaLog
    (tipPaths ([thirdSample] ++ baseSample)) true limit = .ok (deltaSample limit) := by
  decide +kernel

/-- The directory that was a file has both versions. -/
theorem overlay_isPrefix_sample : ∃ lists list, overlayVersions fullSample (deltaSample 2) = .ok (some lists) ∧
    lists.lookup (utf8 "b") = some list ∧ list.complete ∧
      list.versions = trueList ([thirdSample] ++ baseSample) (utf8 "b") ∧ list.versions.length = 2 := by
  obtain ⟨out, hout, hnone, hspec⟩ := overlay_isPrefix (by decide) baseLog_spec deltaLog_spec compute_fullSample
    (compute_deltaSample 2 (by decide)) (Or.inl rfl) (Or.inl rfl)
  cases out with
  | none => exact absurd (hnone.mp rfl).1 (by decide)
  | some lists =>
    have hb : (overlayVersions fullSample (deltaSample 2)).map (fun out => out.bind fun ls => ls.lookup (utf8 "b")) =
        .ok (some ⟨[(oidSample 3, 0o40000, []), (oidSample 1, 0o100644, replicate 6 1)], true⟩) := by
      decide +kernel
    rw [hout] at hb
    have hlist : lists.lookup (utf8 "b") = some _ := Except.ok.inj hb
    obtain ⟨⟨-, hwhole⟩, -⟩ := (hspec lists rfl (utf8 "b") (by decide)).1 _ hlist
    exact ⟨lists, _, hout, hlist, rfl, hwhole rfl, rfl⟩

/-- The list of a path that the delta does not have can be longer than the delta's limit. -/
theorem overlay_beyondDeltaLimit : LogOf [] baseSample baseLog ∧ LogOf baseSample [thirdSample] deltaLog ∧
    compute metaSample (infoSample (oidSample 2) 2) baseLog (tipPaths baseSample) false 2 = .ok fullSample ∧
    compute metaSample (infoSample (oidSample 3) 3) deltaLog (tipPaths ([thirdSample] ++ baseSample)) true 1 =
      .ok (deltaSample 1) ∧
    (overlayVersions fullSample (deltaSample 1)).map (fun out => out.bind fun ls =>
      (ls.lookup (utf8 "a")).map fun list => list.versions.length) = .ok (some 2) ∧
    (deltaSample 1).versions.map Versions.limit = some 1 :=
  ⟨baseLog_spec, deltaLog_spec, compute_fullSample, compute_deltaSample 1 (by decide), by decide +kernel, rfl⟩

end DashForge.History
