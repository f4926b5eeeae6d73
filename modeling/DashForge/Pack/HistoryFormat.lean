import DashForge.Pack.HistoryIndex
import Mathlib.Algebra.Order.BigOperators.Group.List

/-!
# The history index format

An index within the reader's bounds is read back from its serialization (`parse_toCompressed`). Whatever
the bytes, reading ends without a panic, and the indexes into the commit table that an accepted index
holds are in range (`safe_parse`), so that nothing read off it is out of range; its column index has the
last changes of the index, without their authors (`column_spec`).
-/

namespace DashForge.History

open DashForge.Parser Leb128 SortedMap
open List

/-! ### Reading back what was written -/

theorem reads_takeBytes (bs : Bytes) {n : ℕ} (hn : bs.length = n) : Reads (takeBytes n) bs bs :=
  hn ▸ reads_take bs _

theorem reads_number {v : ℕ} (hv : v ≤ u64Max) : Reads varint (writeVarint v) v :=
  reads_varint _ _ hv

theorem reads_count {n : ℕ} (hn : n ≤ maxRows) : Reads count (writeVarint n) n := by
  have hmax : maxRows ≤ u64Max := by decide
  refine (reads_number (hn.trans hmax)).bind_last ?_
  exact reads_if_neg (not_lt.mpr hn) (reads_pure n)

theorem len_apply {bs : Bytes} (hbs : bs.length ≤ u64Max) (rest : Bytes) :
    len (writeVarint bs.length ++ (bs ++ rest)) = .ok (bs.length, bs ++ rest) := by
  refine (reads_number hbs).bind_apply ?_
  have henough : ¬(bs ++ rest).length < bs.length := by simp
  change (if (bs ++ rest).length < bs.length then fail (bad "truncated") else pure bs.length) (bs ++ rest) = _
  rw [if_neg henough]
  rfl

theorem reads_block {bs : Bytes} (hbs : bs.length ≤ u64Max) : Reads block (writeBlock bs) bs := by
  intro rest
  rw [writeBlock, append_assoc]
  change (len (writeVarint bs.length ++ (bs ++ rest)) >>= fun r => takeBytes r.1 r.2) = _
  rw [len_apply hbs, ok_bind]
  exact reads_takeBytes bs rfl rest

theorem reads_text (what : String) {s : String} (hs : (utf8 s).length ≤ u64Max) :
    Reads (text what) (writeBlock (utf8 s)) s := by
  refine (reads_block hs).bind_last ?_
  rw [fromUtf8_utf8]
  exact reads_pure s

theorem reads_index {n i : ℕ} (what : String) (hi : i < n) (hn : n ≤ maxRows) :
    Reads (index n what) (writeVarint i) i := by
  have hmax : maxRows ≤ u32Max := by decide
  have hmax' : maxRows ≤ u64Max := by decide
  refine (reads_number (by omega)).bind_last ?_
  refine reads_if_neg (not_le.mpr hi) ?_
  exact reads_if_neg (by omega) (reads_pure i)

/-- A commit of the table as it is read, before its author is filled in. -/
def IndexedCommit.anonymous (c : IndexedCommit) : IndexedCommit := { c with author := "" }

variable {c : IndexedCommit} {nCommits : ℕ} {paths : PathMap} {v : Versions} {path : Bytes} {lists : VersionLists}

theorem reads_commit (hoid : c.oid.length = oidLen) (htime : c.authorTime ≤ u64Max)
    (hsubject : (utf8 c.subject).length ≤ u64Max) : Reads parseCommit (writeCommit c) c.anonymous := by
  rw [writeCommit, append_assoc]
  refine (reads_takeBytes c.oid hoid).bind ?_
  refine (reads_number htime).bind ?_
  exact (reads_text _ hsubject).bind_pure _

theorem take_sharedLen (prev path : Bytes) :
    sharedLen prev path ≤ prev.length ∧ prev.take (sharedLen prev path) ++ path.drop (sharedLen prev path) = path := by
  unfold sharedLen
  induction prev generalizing path with
  | nil => simp
  | cons a prev ih =>
    cases path with
    | nil => simp
    | cons b path =>
      rw [zip_cons_cons, takeWhile_cons]
      split
      · rename_i hab
        obtain rfl : a = b := by simpa using hab
        obtain ⟨hlen, happ⟩ := ih path
        exact ⟨by simpa using hlen, by simpa using happ⟩
      · simp

theorem reads_paths (hn : nCommits ≤ maxRows) {rows : List (Bytes × ℕ)} {out : PathMap}
    {prev : Bytes} (hout : out.entries = paths.entries ++ rows)
    (hprev : paths.entries = [] ∧ prev = [] ∨ ∃ i, paths.entries.getLast? = some (prev, i))
    (hrange : ∀ e ∈ rows, e.2 < nCommits) (hlen : prev.length + (writePaths prev rows).length ≤ u64Max) :
    Reads (parsePaths nCommits rows.length paths prev) (writePaths prev rows) out := by
  induction rows generalizing paths prev with
  | nil =>
    obtain rfl : out = paths := SortedMap.ext (by simpa using hout)
    exact reads_pure out
  | cons e rows ih =>
    obtain ⟨path, commit⟩ := e
    obtain ⟨hshared, happ⟩ := take_sharedLen prev path
    have hsorted := out.sorted
    rw [hout] at hsorted
    have hbelow : ∀ x ∈ paths.entries, x.1 < path := fun x hx =>
      (pairwise_append.mp hsorted).2.2 x hx _ mem_cons_self
    have hfirst : ¬(path ≤ prev ∧ paths.entries ≠ []) := by
      rintro ⟨hle, hne⟩
      rcases hprev with ⟨hnil, -⟩ | ⟨i, hlast⟩
      · exact hne hnil
      · exact absurd (hbelow _ (mem_of_getLast? hlast)) (not_lt_of_ge hle)
    have hlast : (paths.insert path commit).entries.getLast? = some (path, commit) := by
      rw [entries_insert_of_forall_lt hbelow, getLast?_concat]
    have hpath : path.length ≤ prev.length + (path.drop (sharedLen prev path)).length := by
      rw [length_drop]
      omega
    simp only [writePaths, writeBlock, length_append] at hlen
    have hrest := @ih (paths.insert path commit) path
      (by rw [hout, entries_insert_of_forall_lt hbelow, append_assoc]; rfl)
      (.inr ⟨commit, hlast⟩) (fun x hx => hrange x (mem_cons_of_mem _ hx)) (by omega)
    simp only [writePaths, append_assoc]
    refine (reads_number (by omega)).bind ?_
    refine reads_if_neg (not_lt.mpr hshared) ?_
    refine (reads_run (a := prev.take (sharedLen prev path)) (by simp [slice, hshared])).bind_nil ?_
    refine (reads_block (by omega)).bind ?_
    refine (reads_index _ (hrange _ mem_cons_self) hn).bind ?_
    rw [happ]
    exact reads_if_neg hfirst hrest

/-! ### The author table -/

theorem foldl_addAuthor (commits : List IndexedCommit) {st : List (String × ℕ) × List String}
    (hst : ∀ a i, st.1.lookup a = some i → st.2[i]? = some a) :
    (∀ a i, (commits.foldl addAuthor st).1.lookup a = some i → (commits.foldl addAuthor st).2[i]? = some a) ∧
      (∀ a, (st.1.lookup a).isSome ∨ (∃ c ∈ commits, c.author = a) → ((commits.foldl addAuthor st).1.lookup a).isSome) ∧
      (commits.foldl addAuthor st).2.length ≤ st.2.length + commits.length := by
  induction commits generalizing st with
  | nil => exact ⟨hst, fun a ha => by simpa using ha, by simp⟩
  | cons c commits ih =>
    have hstep : (∀ a i, (addAuthor st c).1.lookup a = some i → (addAuthor st c).2[i]? = some a) ∧
        (∀ a, (st.1.lookup a).isSome ∨ c.author = a → ((addAuthor st c).1.lookup a).isSome) ∧
        (addAuthor st c).2.length ≤ st.2.length + 1 := by
      unfold addAuthor
      split
      · rename_i hknown
        exact ⟨hst, fun a ha => ha.elim id fun h => h ▸ hknown, by omega⟩
      · refine ⟨fun a i hi => ?_, fun a ha => ?_, by simp⟩
        · by_cases ha : a = c.author
          · subst ha
            obtain rfl : st.2.length = i := by simpa using hi
            simp
          · rw [lookup_cons, beq_false_of_ne ha] at hi
            have hget := hst a i hi
            rw [getElem?_append_left (List.getElem?_eq_some_iff.mp hget).1, hget]
        · by_cases h : a = c.author
          · simp [h]
          · rw [lookup_cons, beq_false_of_ne h]
            exact ha.resolve_right fun h' => h h'.symm
    obtain ⟨hright, hknown, hlen⟩ := ih hstep.1
    rw [foldl_cons]
    refine ⟨hright, fun a ha => hknown a ?_, ?_⟩
    · rcases ha with ha | ⟨c', hc', rfl⟩
      · exact .inl (hstep.2.1 a (.inl ha))
      · rcases mem_cons.mp hc' with rfl | hc'
        · exact .inl (hstep.2.1 _ (.inr rfl))
        · exact .inr ⟨c', hc', rfl⟩
    · have := hstep.2.2
      simp only [length_cons]
      omega

/-- The place of a commit's author in the table. -/
def authorPlace (commits : List IndexedCommit) (c : IndexedCommit) : ℕ :=
  ((authorTable commits).1.lookup c.author).getD 0

theorem length_authorTable (commits : List IndexedCommit) : (authorTable commits).2.length ≤ commits.length := by
  have h := (@foldl_addAuthor commits ([], []) (by simp)).2.2
  rwa [length_nil, zero_add] at h

theorem authorTable_spec {commits : List IndexedCommit} (hc : c ∈ commits) :
    (authorTable commits).1.lookup c.author = some (authorPlace commits c) ∧
      (authorTable commits).2[authorPlace commits c]? = some c.author := by
  obtain ⟨hright, hknown, -⟩ := @foldl_addAuthor commits ([], []) (by simp)
  obtain ⟨i, hi⟩ := Option.isSome_iff_exists.mp (hknown c.author (.inr ⟨c, hc, rfl⟩))
  have hplace : authorPlace commits c = i := by
    rw [authorPlace, authorTable, hi]
    rfl
  rw [hplace]
  exact ⟨hi, hright _ i hi⟩

theorem reads_author {commits : List IndexedCommit} (hc : c ∈ commits)
    (hn : commits.length ≤ maxRows) : Reads (parseAuthor (authorTable commits).2 c.anonymous)
      (writeVarint (authorPlace commits c)) c := by
  obtain ⟨-, hget⟩ := authorTable_spec hc
  have hlen := length_authorTable commits
  refine (reads_index _ (List.getElem?_eq_some_iff.mp hget).1 (by omega)).bind_last ?_
  exact (reads_run (a := c.author) (by rw [hget, orPanic_some])).bind_nil (reads_pure c)

/-! ### The version lists -/

/-- The indexes into the commit table are in range. -/
structure InRange (ix : HistoryIndex) : Prop where
  paths : ∀ e ∈ ix.paths.entries, e.2 < ix.commits.length
  versions : ∀ v ∈ ix.versions, ∀ e ∈ v.lists.entries, ∀ x ∈ e.2.versions, x.commit < ix.commits.length

/-- Version lists the reader's bounds admit. -/
structure VersionsFit (paths : PathMap) (v : Versions) : Prop where
  limit : 1 ≤ v.limit ∧ v.limit ≤ maxVersionsPerPath
  oidLen : minOidPrefixLen ≤ v.oidLen ∧ v.oidLen ≤ oidLen
  rows : (v.lists.entries.map fun e => e.2.versions.length).sum ≤ maxRows
  keys : ∀ k ∈ v.lists.keys, k ∈ paths.keys
  known : ∀ e ∈ v.lists.entries, e.2.versions ≠ [] ∨ e.2.complete
  modes : ∀ e ∈ v.lists.entries, ∀ x ∈ e.2.versions, x.mode ≤ u32Max

theorem reads_version {oidLen : ℕ} {x : PathVersion} {bs : Bytes} (hn : nCommits ≤ maxRows)
    (hx : x.commit < nCommits) (hmode : x.mode ≤ u32Max) (hbs : writeVersion oidLen x = .ok bs) :
    Reads (parseVersion nCommits oidLen) bs x := by
  have hmax : u32Max ≤ u64Max := by decide
  unfold writeVersion at hbs
  split at hbs
  · cases hbs
  · rename_i hoid
    obtain rfl := Except.ok.inj hbs
    rw [append_assoc]
    refine (reads_index _ hx hn).bind ?_
    refine (reads_number (hmode.trans hmax)).bind ?_
    refine reads_if_neg (not_lt.mpr hmode) ?_
    exact (reads_takeBytes x.oid (not_not.mp hoid)).bind_pure _

theorem reads_versionRows {oidLen : ℕ} {xs : List PathVersion} {rows : List Bytes}
    (hn : nCommits ≤ maxRows) (hx : ∀ x ∈ xs, x.commit < nCommits ∧ x.mode ≤ u32Max)
    (hrows : xs.mapM (writeVersion oidLen) = .ok rows) :
    Reads (many xs.length (parseVersion nCommits oidLen)) rows.flatten xs := by
  induction xs generalizing rows with
  | nil =>
    obtain rfl : [] = rows := by simpa using hrows
    exact reads_pure []
  | cons x xs ih =>
    rw [mapM_cons] at hrows
    obtain ⟨bs, hbs, hrows⟩ := bind_eq_ok.mp hrows
    obtain ⟨rest, hrest, hrows⟩ := bind_eq_ok.mp hrows
    obtain rfl := pure_eq_ok.mp hrows
    obtain ⟨hcommit, hmode⟩ := hx x mem_cons_self
    rw [flatten_cons]
    refine (reads_version hn hcommit hmode hbs).bind ?_
    exact (ih (fun y hy => hx y (mem_cons_of_mem x hy)) hrest).bind_pure _

theorem shift_head (n : ℕ) (complete : Bool) : ((n <<< 1) ||| (if complete then 1 else 0)) >>> 1 = n ∧
      ((((n <<< 1) ||| (if complete then 1 else 0)) &&& 1 = 1) ↔ complete) ∧
      (n <<< 1) ||| (if complete then 1 else 0) ≤ 2 * n + 1 := by
  have hor : (n <<< 1) ||| (if complete then 1 else 0) = 2 * n + if complete then 1 else 0 := by
    rw [← Nat.shiftLeft_add_eq_or_of_lt (by cases complete <;> decide), Nat.shiftLeft_eq]
    omega
  rw [hor, Nat.shiftRight_eq_div_pow, Nat.and_one_is_mod]
  cases complete <;> simp
  omega

theorem writeList_of_lookup {l : VersionList} (hl : v.lists.lookup path = some l) {bs : Bytes} :
    writeList v path = .ok bs ↔ l.versions.length ≤ v.limit ∧ ∃ rows,
      l.versions.mapM (writeVersion v.oidLen) = .ok rows ∧
        writeVarint ((l.versions.length <<< 1) ||| (if l.complete then 1 else 0)) ++ rows.flatten = bs := by
  simp only [writeList, hl]
  split
  · rename_i hlong
    simp [not_le.mpr hlong]
  · rename_i hlen
    simp only [bind_eq_ok, pure_eq_ok, Nat.le_of_not_lt hlen, true_and]

theorem reads_lists (hn : nCommits ≤ maxRows) (hlimit : v.limit ≤ maxVersionsPerPath)
    (hknown : ∀ e ∈ v.lists.entries, e.2.versions ≠ [] ∨ e.2.complete)
    (hx : ∀ e ∈ v.lists.entries, ∀ x ∈ e.2.versions, x.commit < nCommits ∧ x.mode ≤ u32Max)
    {keys : List Bytes} {entries : ℕ} {rows : List Bytes} (hrows : keys.mapM (writeList v) = .ok rows)
    (hlists : v.lists.entries = lists.entries ++ keys.filterMap fun k => (v.lists.lookup k).map fun l => (k, l))
    (hentries : entries + ((keys.filterMap fun k => (v.lists.lookup k).map fun l => (k, l)).map
      fun e => e.2.versions.length).sum ≤ maxRows) :
    Reads (parseLists v.limit v.oidLen nCommits keys lists entries) rows.flatten v.lists := by
  have hmax : maxRows ≤ u64Max := by decide
  have hmax' : 2 * maxVersionsPerPath + 1 ≤ u64Max := by decide
  induction keys generalizing lists entries rows with
  | nil =>
    obtain rfl : [] = rows := by simpa using hrows
    rw [SortedMap.ext (hlists.trans (append_nil _))]
    exact reads_pure lists
  | cons k keys ih =>
    rw [mapM_cons] at hrows
    obtain ⟨bs, hbs, hrows⟩ := bind_eq_ok.mp hrows
    obtain ⟨rest, hrest, hrows⟩ := bind_eq_ok.mp hrows
    obtain rfl := pure_eq_ok.mp hrows
    rw [flatten_cons]
    cases hk : v.lists.lookup k with
    | none =>
      simp only [writeList, hk, pure_eq_ok] at hbs
      subst hbs
      simp only [filterMap_cons, hk, Option.map_none] at hlists hentries
      refine (reads_number (Nat.zero_le _)).bind ?_
      refine reads_if_neg (by simp) ?_
      refine (reads_run (addU64_eq_ok (by simp; omega))).bind_nil ?_
      refine reads_if_neg (by simp; omega) ?_
      rw [if_pos (by simp)]
      exact ih hrest hlists hentries
    | some l =>
      simp only [filterMap_cons, hk, Option.map_some, map_cons, sum_cons] at hlists hentries
      have hmem : (k, l) ∈ v.lists.entries := lookup_eq_some_iff.mp hk
      obtain ⟨hlen, rows', hrows', rfl⟩ := (writeList_of_lookup hk).mp hbs
      obtain ⟨hhead, hbit, hle⟩ := shift_head l.versions.length l.complete
      have hbelow : ∀ x ∈ lists.entries, x.1 < k := by
        have hsorted := v.lists.sorted
        rw [hlists] at hsorted
        exact fun x hx => (pairwise_append.mp hsorted).2.2 x hx _ mem_cons_self
      have hnext := @ih (lists.insert k l) (entries + l.versions.length) _ hrest
        (by rw [hlists, entries_insert_of_forall_lt hbelow, append_assoc]; rfl) (by omega)
      rw [append_assoc]
      refine (reads_number (by omega)).bind ?_
      simp only [hhead, hbit]
      refine reads_if_neg (not_lt.mpr hlen) ?_
      refine (reads_run (addU64_eq_ok (by omega))).bind_nil ?_
      refine reads_if_neg (by omega) ?_
      refine reads_if_neg ?_ ?_
      · rintro ⟨hzero, hc⟩
        exact (hknown _ hmem).elim (fun h => h (length_eq_zero_iff.mp hzero)) hc
      · refine (reads_versionRows hn (hx _ hmem) hrows').bind ?_
        simpa using hnext

theorem versionsSection_eq_ok {ix : HistoryIndex} {bs : Bytes} :
    versionsSection ix v = .ok bs ↔ ∃ rows, ix.paths.keys.mapM (writeList v) = .ok rows ∧
      writeVarint v.limit ++ [UInt8.ofNat v.oidLen] ++ writeVarint (authorTable ix.commits).2.length ++
        (authorTable ix.commits).2.flatMap (fun name => writeBlock (utf8 name)) ++
        ix.commits.flatMap (fun c => writeVarint (authorPlace ix.commits c)) ++ rows.flatten = bs := by
  have hauthors : (ix.commits.mapM fun c => do
      let a ← (orPanic ((authorTable ix.commits).1.lookup c.author) : Except (Fault PackError) ℕ)
      return writeVarint a) = .ok (ix.commits.map fun c => writeVarint (authorPlace ix.commits c)) := by
    refine mapM_eq_ok_map fun c hc => ?_
    rw [(authorTable_spec hc).1]
    rfl
  unfold versionsSection
  simp only [hauthors, ok_bind, bind_eq_ok, pure_eq_ok, flatMap_def]

theorem length_le_length_flatMap {α β : Type} {l : List α} {a : α} (ha : a ∈ l) (f : α → List β) :
    (f a).length ≤ (l.flatMap f).length := by
  rw [length_flatMap]
  exact single_le_sum (fun _ _ => Nat.zero_le _) _ (mem_map_of_mem ha)

theorem reads_versions {ix : HistoryIndex} {bs : Bytes} (hn : ix.commits.length ≤ maxRows)
    (hrange : ∀ e ∈ v.lists.entries, ∀ x ∈ e.2.versions, x.commit < ix.commits.length)
    (hv : VersionsFit ix.paths v) (hbs : versionsSection ix v = .ok bs) (hlen : bs.length ≤ u64Max) :
    Reads (parseVersions (ix.commits.map IndexedCommit.anonymous) ix.paths) bs (ix.commits, v) := by
  have hmax : maxVersionsPerPath ≤ u64Max := by decide
  obtain ⟨rows, hrows, rfl⟩ := versionsSection_eq_ok.mp hbs
  obtain ⟨hpos, hlimit⟩ := hv.limit
  have hkeys : ix.paths.keys.Pairwise (· < ·) := pairwise_map.mpr ix.paths.sorted
  have hentries := filterMap_lookup hkeys hv.keys
  have hname : ∀ name ∈ (authorTable ix.commits).2, (utf8 name).length ≤ u64Max := by
    intro name hname
    have h := length_le_length_flatMap hname fun name => writeBlock (utf8 name)
    simp only [length_append, writeBlock] at hlen h
    omega
  have hoid : ((([UInt8.ofNat v.oidLen] : Bytes).headD 0).toNat) = v.oidLen := by
    have := hv.oidLen.2
    rw [oidLen] at this
    rw [headD_cons, UInt8.toNat_ofNat']
    omega
  simp only [append_assoc]
  refine (reads_number (hlimit.trans hmax)).bind ?_
  refine reads_if_neg (by omega) ?_
  refine (reads_takeBytes [UInt8.ofNat v.oidLen] rfl).bind ?_
  rw [hoid]
  refine reads_if_neg (not_not.mpr hv.oidLen) ?_
  refine (reads_count ((length_authorTable _).trans hn)).bind ?_
  refine (Reads.many fun name hmem => reads_text "an author" (hname name hmem)).bind ?_
  rw [map_id', mapM_map]
  refine (Reads.mapM fun c hc => reads_author hc hn).bind ?_
  rw [map_id']
  refine Reads.bind_pure _ (reads_lists hn hlimit hv.known ?_ hrows ?_ ?_)
  · exact fun e he x hx => ⟨hrange e he x hx, hv.modes e he x hx⟩
  · rw [hentries]
    rfl
  · rw [hentries, zero_add]
    exact hv.rows

/-! ### The index -/

/-- An index the reader's bounds admit; widths and lengths are those of the source's types. -/
structure Fits (ix : HistoryIndex) : Prop where
  tip : ix.tip.length = oidLen
  base : ∀ b ∈ ix.base, b.length = 32 ∧ b ≠ replicate 32 0
  counts : ix.commitCount ≤ u64Max ∧ ix.firstParentCount ≤ u64Max
  times : ix.rootTime ≤ u64Max ∧ ix.tipTime ≤ u64Max
  commits : ∀ c ∈ ix.commits, c.oid.length = oidLen ∧ c.authorTime ≤ u64Max
  rows : ix.commits.length ≤ maxRows ∧ ix.paths.entries.length ≤ maxRows
  inRange : InRange ix
  versions : ∀ v ∈ ix.versions, VersionsFit ix.paths v
  authors : ix.versions = none → ∀ c ∈ ix.commits, c.author = ""

/-- The lists the writer does not refuse. -/
def Writable (ix : HistoryIndex) : Prop :=
  ∀ v ∈ ix.versions, ∀ e ∈ v.lists.entries, e.1 ∈ ix.paths.keys → e.2.versions.length ≤ v.limit ∧
    ∀ x ∈ e.2.versions, x.oid.length = storedOidLen x.mode v.oidLen

theorem parseSections_versions {ix : HistoryIndex} {bs : Bytes}
    (hread : Reads (parseVersions (ix.commits.map IndexedCommit.anonymous) ix.paths) bs (ix.commits, v))
    (hlen : bs.length ≤ u64Max) {fuel : ℕ} (hfuel : fuel ≠ 0) :
    parseSections ix.paths fuel (ix.commits.map IndexedCommit.anonymous) none
      (writeVarint tagVersions ++ writeBlock bs) = .ok ((ix.commits, some v), []) := by
  obtain ⟨fuel, rfl⟩ := Nat.exists_eq_succ_of_ne_zero hfuel
  have hall := hread []
  rw [append_nil] at hall
  rw [parseSections, remaining_bind, if_neg (by simp [writeVarint, writeGo, tagVersions])]
  refine (reads_number (by decide)).bind_apply ?_
  rw [← append_nil (writeBlock bs)]
  refine (reads_block hlen).bind_apply ?_
  rw [if_pos rfl, if_neg (by simp)]
  refine Reads.bind_apply (x := []) (y := []) (reads_run hall) ?_
  simp only [ne_eq, not_true_eq_false, if_false]
  cases fuel <;> rfl

theorem parseIndex_body {ix : HistoryIndex} (hix : Fits ix) {bs : Bytes} {commits : List IndexedCommit}
    {versions : Option Versions} (hlen : (headBody ix ++ bs).length ≤ u64Max)
    (hsections : parseSections ix.paths bs.length (ix.commits.map IndexedCommit.anonymous) none bs =
      .ok ((commits, versions), [])) :
    parseIndex (headBody ix ++ bs) = .ok ({ ix with commits := commits, versions := versions }, []) := by
  have hsubject : ∀ c ∈ ix.commits, (utf8 c.subject).length ≤ u64Max := by
    intro c hc
    have h := length_le_length_flatMap hc writeCommit
    simp only [headBody, length_append, writeCommit, writeBlock] at hlen h
    omega
  have hbase : (ix.base.getD (replicate 32 0)).length = 32 := by
    cases hb : ix.base with
    | none => rfl
    | some b => exact (hix.base b hb).1
  have hbase' : (if ix.base.getD (replicate 32 0) = replicate 32 0 then none
      else some (ix.base.getD (replicate 32 0))) = ix.base := by
    cases hb : ix.base with
    | none => rfl
    | some b => exact if_neg (hix.base b hb).2
  have hpaths : Reads (parsePaths ix.commits.length ix.paths.entries.length .empty [])
      (writePaths [] ix.paths.entries) ix.paths := by
    refine reads_paths hix.rows.1 rfl (.inl ⟨rfl, rfl⟩) hix.inRange.paths ?_
    simp only [headBody, length_append] at hlen
    simp only [length_nil]
    omega
  have hversion : versionV1 ≤ ix.version ∧ ix.version ≤ versionV2 := by
    unfold HistoryIndex.version
    split <;> decide
  unfold headBody
  simp only [append_assoc]
  refine (reads_takeBytes magic rfl).bind_apply ?_
  rw [if_neg (not_not.mpr rfl)]
  refine (reads_takeBytes [ix.version] rfl).bind_apply ?_
  rw [headD_cons, if_neg (not_not.mpr hversion)]
  refine (reads_takeBytes ix.tip hix.tip).bind_apply ?_
  refine (reads_takeBytes _ hbase).bind_apply ?_
  refine (reads_number hix.counts.1).bind_apply ?_
  refine (reads_number hix.counts.2).bind_apply ?_
  refine (reads_number hix.times.1).bind_apply ?_
  refine (reads_number hix.times.2).bind_apply ?_
  refine (reads_count hix.rows.1).bind_apply ?_
  refine (Reads.many fun c hc => reads_commit (hix.commits c hc).1 (hix.commits c hc).2 (hsubject c hc)).bind_apply ?_
  refine (reads_count hix.rows.2).bind_apply ?_
  rw [length_map]
  refine hpaths.bind_apply ?_
  rw [remaining_bind]
  change (parseSections ix.paths bs.length (ix.commits.map IndexedCommit.anonymous) none bs >>= _) = _
  rw [hsections, ok_bind, hbase']
  rfl

theorem parseBody_body {ix : HistoryIndex} (hix : Fits ix) {bs : Bytes} (hbs : body ix = .ok bs)
    (hlen : bs.length ≤ u64Max) : parseBody bs = .ok ix := by
  unfold body at hbs
  cases hv : ix.versions with
  | none =>
    simp only [hv, pure_eq_ok] at hbs
    subst hbs
    have hanon : ix.commits.map IndexedCommit.anonymous = ix.commits := by
      refine (map_congr_left fun c hc => ?_).trans (map_id' _)
      rw [IndexedCommit.anonymous, ← hix.authors hv c hc]
    have h := @parseIndex_body ix hix [] ix.commits none
      (by rwa [append_nil]) (by rw [hanon]; rfl)
    rw [append_nil, ← hv] at h
    rw [parseBody, h]
    rfl
  | some v =>
    simp only [hv, bind_eq_ok, pure_eq_ok] at hbs
    obtain ⟨section_, hsection, rfl⟩ := hbs
    have hshort : section_.length ≤ u64Max := by
      simp only [length_append, writeBlock] at hlen
      omega
    have hread := reads_versions hix.rows.1 (hix.inRange.versions v hv) (hix.versions v hv) hsection hshort
    have hfuel : (writeVarint tagVersions ++ writeBlock section_).length ≠ 0 := by
      simp [writeVarint, writeGo, tagVersions]
    rw [append_assoc] at hlen ⊢
    have h := parseIndex_body hix hlen (parseSections_versions hread hshort hfuel)
    rw [← hv] at h
    rw [parseBody, h]
    rfl

theorem exists_body {ix : HistoryIndex} (hix : Writable ix) : ∃ bs, body ix = .ok bs := by
  unfold body
  cases hv : ix.versions with
  | none => exact ⟨_, rfl⟩
  | some v =>
    have hlists : ∀ k ∈ ix.paths.keys, ∃ bs, writeList v k = .ok bs := by
      intro k hk
      cases hl : v.lists.lookup k with
      | none => exact ⟨writeVarint 0, by rw [writeList, hl]; rfl⟩
      | some l =>
        obtain ⟨hlen, hoid⟩ := hix v hv (k, l) (lookup_eq_some_iff.mp hl) hk
        refine ⟨_, (writeList_of_lookup hl).mpr ⟨hlen, _, mapM_eq_ok_map
          (g := fun x => writeVarint x.commit ++ writeVarint x.mode ++ x.oid) fun x hx => ?_, rfl⟩⟩
        rw [writeVersion, if_neg (not_not.mpr (hoid x hx))]
        rfl
    choose! f hf using hlists
    have hsection := versionsSection_eq_ok.mpr ⟨_, mapM_eq_ok_map hf, rfl⟩
    exact ⟨_, by simp only [hsection, ok_bind]; rfl⟩

variable {gz : Gzip} {ix : HistoryIndex}

theorem exists_toCompressed (hix : Writable ix) : ∃ z, toCompressed gz ix = .ok z := by
  obtain ⟨bs, hbs⟩ := exists_body hix
  exact ⟨gz.compress bs, by rw [toCompressed, hbs]; rfl⟩

/-- An index that was written and compressed is read back. -/
theorem parse_toCompressed (hgz : gz.Lossless) (hix : Fits ix)
    (hlen : ∀ bs, body ix = .ok bs → bs.length ≤ maxInflated) {z : Bytes} (hz : toCompressed gz ix = .ok z) :
    parse gz z = .ok ix := by
  have hmax : maxInflated ≤ u64Max := by decide
  obtain ⟨bs, hbs, hz⟩ := bind_eq_ok.mp hz
  obtain rfl := pure_eq_ok.mp hz
  have hshort := hlen bs hbs
  rw [parse, parseBounded, hgz bs, take_of_length_le (by omega)]
  simp only [if_neg (not_lt.mpr hshort)]
  exact parseBody_body hix hbs (by omega)

/-! ### Whatever the bytes -/

theorem safe_takeBytes (n : ℕ) : Safe (takeBytes n) n fun x => x.length = n := safe_take n _

theorem safe_number : Safe varint 1 fun v => v ≤ u64Max := safe_varint _ _

theorem safe_count : Safe count 1 fun n => n ≤ maxRows := by
  refine safe_number.bind (l := 0) fun n _ => ?_
  exact safe_ite (fun _ => safe_fail _) fun hn => safe_pure (not_lt.mp hn)

theorem safe_remaining : Safe (remaining : Read ℕ) 0 fun _ => True :=
  fun bs => ⟨noPanic_ok _, fun a rest h => ⟨trivial, by cases h; exact le_rfl⟩⟩

theorem safe_block : Safe block 1 fun _ => True := by
  have hlen : Safe len 1 fun _ => True := by
    refine safe_number.bind (l := 0) fun n _ => safe_remaining.bind (l := 0) fun left _ => ?_
    exact safe_ite (fun _ => safe_fail _) fun _ => safe_pure trivial
  exact hlen.bind (l := 0) fun n _ => (safe_takeBytes n).mono (Nat.zero_le _) fun _ _ => trivial

theorem safe_text (what : String) : Safe (text what) 0 fun _ => True := by
  refine safe_block.bind_zero fun bs _ => ?_
  split
  · exact safe_pure trivial
  · exact safe_fail _

theorem safe_index (n : ℕ) (what : String) : Safe (index n what) 0 fun i => i < n := by
  refine safe_number.bind_zero fun i _ => ?_
  refine safe_ite (fun _ => safe_fail _) fun hi => ?_
  exact safe_ite (fun _ => safe_fail _) fun _ => safe_pure (not_le.mp hi)

theorem safe_commit : Safe parseCommit 0 fun _ => True := by
  refine (safe_takeBytes oidLen).bind_zero fun _ _ => safe_number.bind_zero fun _ _ => ?_
  exact (safe_text _).bind_zero fun _ _ => safe_pure trivial

/-- The paths read are added in the order of the bytes, none in the place of another. -/
theorem safe_paths (nCommits n : ℕ) {prev : Bytes}
    (hprev : paths.entries = [] ∨ ∃ i, paths.entries.getLast? = some (prev, i)) :
    Safe (parsePaths nCommits n paths prev) 0 fun out => ∃ rows, rows.length = n ∧
      out.entries = paths.entries ++ rows ∧ ∀ e ∈ rows, e.2 < nCommits := by
  induction n generalizing paths prev with
  | zero => exact safe_pure ⟨[], rfl, (append_nil _).symm, by simp⟩
  | succ n ih =>
    refine safe_number.bind_zero fun shared _ => ?_
    refine safe_ite (fun _ => safe_fail _) fun hshared => ?_
    refine Safe.bind_zero (Q := fun _ => True) (k := 0) (safe_run ?_ fun _ _ => trivial) fun start _ => ?_
    · rw [slice, if_pos ⟨Nat.zero_le _, Nat.not_lt.mp hshared⟩]
      exact noPanic_ok _
    refine safe_block.bind_zero fun suffix _ => ?_
    refine (safe_index nCommits _).bind_zero fun commit hcommit => ?_
    refine safe_ite (fun _ => safe_fail _) fun hsorted => ?_
    have hbelow : ∀ x ∈ paths.entries, x.1 < start ++ suffix := by
      intro x hx
      have hne : paths.entries ≠ [] := ne_nil_of_mem hx
      obtain ⟨i, hlast⟩ := hprev.resolve_left hne
      have hlt : prev < start ++ suffix := not_le.mp fun hle => hsorted ⟨hle, hne⟩
      exact lt_of_le_of_lt (le_of_getLast? hlast hx) hlt
    have hentries := entries_insert_of_forall_lt hbelow commit
    have hrest := @ih (paths.insert (start ++ suffix) commit) (start ++ suffix)
      (.inr ⟨commit, by rw [hentries, getLast?_concat]⟩)
    refine hrest.mono le_rfl ?_
    rintro out ⟨rows, hlen, hout, hrows⟩
    refine ⟨(start ++ suffix, commit) :: rows, by simp [hlen], ?_, ?_⟩
    · rw [hout, hentries, append_assoc]
      rfl
    · intro e he
      rcases mem_cons.mp he with rfl | he
      · exact hcommit
      · exact hrows e he

theorem safe_version (nCommits oidLen : ℕ) : Safe (parseVersion nCommits oidLen) 0 fun x => x.commit < nCommits := by
  refine (safe_index nCommits _).bind_zero fun commit hcommit => safe_number.bind_zero fun mode _ => ?_
  refine safe_ite (fun _ => safe_fail _) fun _ => ?_
  exact (safe_takeBytes _).bind_zero fun _ _ => safe_pure hcommit

theorem safe_lists {limit oidLen : ℕ} (hlimit : limit ≤ maxVersionsPerPath)
    (keys : List Bytes) {entries : ℕ} (hentries : entries ≤ maxRows)
    (hlists : ∀ e ∈ lists.entries, ∀ x ∈ e.2.versions, x.commit < nCommits) :
    Safe (parseLists limit oidLen nCommits keys lists entries) 0 fun out =>
      ∀ e ∈ out.entries, ∀ x ∈ e.2.versions, x.commit < nCommits := by
  have hmax : maxRows + maxVersionsPerPath ≤ u64Max := by decide
  induction keys generalizing lists entries with
  | nil => exact safe_pure hlists
  | cons k keys ih =>
    refine safe_number.bind_zero fun head _ => ?_
    refine safe_ite (fun _ => safe_fail _) fun hn => ?_
    have hadd : (addU64 entries (head >>> 1) : Except (Fault PackError) ℕ) = .ok (entries + head >>> 1) :=
      addU64_eq_ok (by omega)
    rw [hadd]
    refine Safe.bind_zero (Q := fun e => e = entries + head >>> 1) (k := 0)
      (safe_run (noPanic_ok _) fun e he => (Except.ok.inj he).symm) fun e _ => ?_
    refine safe_ite (fun _ => safe_fail _) fun hrows => ?_
    refine safe_ite (fun _ => ih (not_lt.mp hrows) hlists) fun _ => ?_
    refine ((safe_version nCommits oidLen).many _).bind_zero fun versions hversions => ?_
    refine ih (not_lt.mp hrows) fun x hx => ?_
    simp only [SortedMap.insert, mem_append, mem_cons, mem_filter] at hx
    rcases hx with ⟨hx, -⟩ | rfl | ⟨hx, -⟩
    · exact hlists x hx
    · exact hversions.2
    · exact hlists x hx

theorem safe_author (authors : List String) (c : IndexedCommit) : Safe (parseAuthor authors c) 0 fun _ => True := by
  refine (safe_index authors.length _).bind_zero fun a ha => ?_
  refine Safe.bind_zero (Q := fun _ => True) (k := 0) (safe_run ?_ fun _ _ => trivial) fun _ _ =>
    safe_pure trivial
  rw [getElem?_eq_getElem ha]
  exact noPanic_ok _

theorem safe_versions (commits : List IndexedCommit) (paths : PathMap) :
    Safe (parseVersions commits paths) 0 fun out => out.1.length = commits.length ∧
      ∀ e ∈ out.2.lists.entries, ∀ x ∈ e.2.versions, x.commit < commits.length := by
  refine safe_number.bind_zero fun limit _ => ?_
  refine safe_ite (fun _ => safe_fail _) fun hlimit => ?_
  refine (safe_takeBytes 1).bind_zero fun oidBytes _ => ?_
  refine safe_ite (fun _ => safe_fail _) fun _ => ?_
  refine safe_count.bind_zero fun nAuthors _ => ?_
  refine ((safe_text _).many nAuthors).bind_zero fun authors _ => ?_
  refine (Safe.mapM fun c _ => safe_author authors c).bind_zero fun out hout => ?_
  refine (safe_lists (by omega) paths.keys (Nat.zero_le _) (by simp [empty])).bind_zero
    fun lists hlists => ?_
  rw [← hout.length_eq] at hlists
  exact safe_pure ⟨hout.length_eq.symm, hlists⟩

theorem safeAt_sections {fuel : ℕ} {commits : List IndexedCommit} {versions : Option Versions}
    {bs : Bytes} (hfuel : bs.length ≤ fuel)
    (hversions : ∀ v ∈ versions, ∀ e ∈ v.lists.entries, ∀ x ∈ e.2.versions, x.commit < commits.length) :
    SafeAt (parseSections paths fuel commits versions) bs fun out => out.1.length = commits.length ∧
      ∀ v ∈ out.2, ∀ e ∈ v.lists.entries, ∀ x ∈ e.2.versions, x.commit < commits.length := by
  induction fuel generalizing commits versions bs with
  | zero =>
    obtain rfl : bs = [] := length_eq_zero_iff.mp (Nat.le_zero.mp hfuel)
    exact (safe_pure ⟨rfl, hversions⟩ : Safe (pure (commits, versions)) 0 _).safeAt []
  | succ fuel ih =>
    unfold parseSections SafeAt
    rw [remaining_bind]
    refine safeAt_ite (fun _ => ?_) fun _ => ?_
    · exact (safe_pure ⟨rfl, hversions⟩ : Safe (pure (commits, versions)) 0 _).safeAt bs
    refine safe_number.bind_at fun tag bs₁ _ hlen₁ => safe_block.bind_at fun bytes bs₂ _ hlen₂ => ?_
    refine safeAt_ite (fun _ => ?_) fun _ => ih (by omega) hversions
    refine safeAt_ite (fun _ => safeAt_fail _ bs₂) fun _ => ?_
    obtain ⟨hsafe, hok⟩ := (safe_versions commits paths).safeAt bytes
    refine Safe.bind_at (k := 0) (safe_run hsafe fun out hout => hok out.1 out.2 hout) ?_
    rintro ⟨⟨commits', v⟩, rest⟩ bs₃ ⟨hcommits, hlists⟩ hlen₃
    refine safeAt_ite (fun _ => safeAt_fail _ bs₃) fun _ => ?_
    simp only [← hcommits] at hlists ⊢
    refine ih (by omega) fun v' hv' => ?_
    rwa [← Option.some.inj hv']

/-- Reading ends without a panic, and the indexes of an accepted index are in range. -/
theorem safe_parseBody (bytes : Bytes) : NoPanic (parseBody bytes) ∧
    ∀ ix, parseBody bytes = .ok ix → InRange ix ∧ ix.commits.length ≤ maxRows := by
  have hindex : SafeAt parseIndex bytes fun ix => InRange ix ∧ ix.commits.length ≤ maxRows := by
    refine (safe_takeBytes 4).bind_at fun start bs₁ _ _ => ?_
    refine safeAt_ite (fun _ => safeAt_fail _ bs₁) fun _ => ?_
    refine (safe_takeBytes 1).bind_at fun versionBytes bs₂ _ _ => ?_
    refine safeAt_ite (fun _ => safeAt_fail _ bs₂) fun _ => ?_
    refine (safe_takeBytes oidLen).bind_at fun tip _ _ _ => (safe_takeBytes 32).bind_at fun base _ _ _ => ?_
    refine safe_number.bind_at fun commitCount _ _ _ => safe_number.bind_at fun firstParentCount _ _ _ => ?_
    refine safe_number.bind_at fun rootTime _ _ _ => safe_number.bind_at fun tipTime _ _ _ => ?_
    refine safe_count.bind_at fun nCommits _ hn _ => (safe_commit.many nCommits).bind_at fun commits _ hc _ => ?_
    refine safe_count.bind_at fun nPaths _ _ _ => ?_
    refine (safe_paths commits.length nPaths (.inl rfl)).bind_at fun paths bs₃ hpaths _ => ?_
    obtain ⟨rows, -, hrows, hrange⟩ := hpaths
    obtain ⟨hsafe, hok⟩ := @safeAt_sections paths _ commits none _ (le_refl bs₃.length) (by simp)
    unfold SafeAt
    rw [remaining_bind]
    refine ⟨hsafe.bind fun _ _ => noPanic_ok _, fun ix rest h => ?_⟩
    obtain ⟨⟨⟨commits', versions⟩, rest'⟩, hsections, h⟩ := bind_eq_ok.mp h
    obtain ⟨hlen, hversions⟩ := hok _ _ hsections
    obtain ⟨rfl, rfl⟩ := Prod.mk.inj (Except.ok.inj h)
    rw [← hlen] at hrange hversions
    refine ⟨⟨fun e he => hrange e ?_, hversions⟩, by rw [hlen, hc.1]; exact hn⟩
    rwa [hrows, empty, nil_append] at he
  refine ⟨hindex.1.bind fun _ _ => noPanic_ok _, fun ix h => ?_⟩
  obtain ⟨⟨ix', rest⟩, hix, h⟩ := bind_eq_ok.mp h
  obtain rfl := pure_eq_ok.mp h
  exact hindex.2 _ rest hix

/-! ### What is read off an accepted index -/

theorem lookup_zipIdx {α : Type*} [BEq α] [LawfulBEq α] {l : List α} {a : α} (ha : a ∈ l) (k : ℕ) :
    ∃ j, (l.zipIdx k).lookup a = some (k + j) ∧ l[j]? = some a := by
  induction l generalizing k with
  | nil => simp at ha
  | cons b l ih =>
    rw [zipIdx_cons, lookup_cons]
    by_cases hab : a = b
    · exact ⟨0, by simp [hab], by simp [hab]⟩
    · obtain ⟨j, hj, hget⟩ := ih ((mem_cons.mp ha).resolve_left hab) (k + 1)
      exact ⟨j + 1, by rw [beq_false_of_ne hab, hj, Nat.add_right_comm, add_assoc], by simpa using hget⟩

theorem length_keep_le (hix : InRange ix) :
    (sortedDistinct (ix.paths.entries.map Prod.snd)).length ≤ ix.commits.length := by
  have hsub : sortedDistinct (ix.paths.entries.map Prod.snd) ⊆ range ix.commits.length := by
    intro i hi
    obtain ⟨e, he, rfl⟩ := mem_map.mp (mem_sortedDistinct.mp hi)
    exact mem_range.mpr (hix.paths e he)
  have h := (subperm_of_subset (nodup_sortedDistinct _) hsub).length_le
  rwa [length_range] at h

/-- The column index of an accepted index has its last changes, without their authors. -/
theorem column_spec (hix : InRange ix) (hn : ix.commits.length ≤ maxRows) : ∃ c, ix.column = .ok c ∧
    ∀ path, c.lastChange path = (ix.lastChange path).map IndexedCommit.anonymous := by
  have hmax : maxRows ≤ u32Max := by decide
  have hkeep := length_keep_le hix
  have hmem : ∀ e ∈ ix.paths.entries, e.2 ∈ sortedDistinct (ix.paths.entries.map Prod.snd) := fun e he =>
    mem_sortedDistinct.mpr (mem_map_of_mem he)
  have hrange : ∀ i ∈ sortedDistinct (ix.paths.entries.map Prod.snd), i < ix.commits.length := by
    intro i hi
    obtain ⟨e, he, rfl⟩ := mem_map.mp (mem_sortedDistinct.mp hi)
    exact hix.paths e he
  generalize hkeep' : sortedDistinct (ix.paths.entries.map Prod.snd) = keep at hkeep hmem hrange
  have hslots : (keep.zipIdx.mapM fun x => do
      let new ← HistoryIndex.expectU32 x.2
      return (x.1, new)) = (.ok keep.zipIdx : Except (Fault Empty) _) := by
    refine (mapM_eq_ok_map (g := id) fun x hx => ?_).trans (by rw [map_id])
    have hlt := (mem_zipIdx hx).2.1
    rw [HistoryIndex.expectU32, if_pos (by omega)]
    rfl
  have hcommits : (keep.mapM fun i => do
      let c ← orPanic ix.commits[i]?
      return { c with author := "" }) =
        (.ok (keep.map fun i => (ix.commits[i]?.getD ⟨[], 0, "", ""⟩).anonymous) : Except (Fault Empty) _) := by
    refine mapM_eq_ok_map fun i hi => ?_
    rw [getElem?_eq_getElem (hrange i hi)]
    rfl
  have hall : ∀ e ∈ ix.paths.entries, (keep.zipIdx.lookup e.2).isSome := by
    intro e he
    obtain ⟨j, hj, -⟩ := lookup_zipIdx (hmem e he) 0
    rw [hj]
    rfl
  unfold HistoryIndex.column
  simp only [hkeep', hslots, hcommits, ok_bind, if_pos hall]
  refine ⟨_, rfl, fun path => ?_⟩
  simp only [HistoryIndex.lastChange, lookup_mapVals]
  cases hpath : ix.paths.lookup path with
  | none => rfl
  | some i =>
    have hi : i ∈ keep := hmem _ (lookup_eq_some_iff.mp hpath)
    obtain ⟨j, hj, hget⟩ := lookup_zipIdx hi 0
    simp [hj, hget, getElem?_eq_getElem (hrange i hi)]

theorem resolvedVersions_eq_ok (hix : InRange ix) : ∃ lists, ix.resolvedVersions = .ok lists := by
  unfold HistoryIndex.resolvedVersions
  cases hv : ix.versions with
  | none => exact ⟨none, rfl⟩
  | some v => exact ⟨_, if_pos (hix.versions v hv)⟩

theorem isSome_lastChange (hix : InRange ix) (hpath : path ∈ ix.paths.keys) : (ix.lastChange path).isSome := by
  obtain ⟨i, hi⟩ := mem_keys_iff.mp hpath
  have hlt := hix.paths _ (lookup_eq_some_iff.mp hi)
  simp [HistoryIndex.lastChange, hi, hlt]

/-- The format round-trips, reading it is safe, and what is read off an accepted index is in range; its
column has the same last changes, without authors. -/
theorem historyIndex_spec (gz : Gzip) (hgz : gz.Lossless) :
    (∀ ix, Fits ix → (∀ bs, body ix = .ok bs → bs.length ≤ maxInflated) →
        (Writable ix → ∃ z, toCompressed gz ix = .ok z) ∧
          ∀ z, toCompressed gz ix = .ok z → parse gz z = .ok ix) ∧
      (∀ nCommits n bs paths rest, parsePaths nCommits n .empty [] bs = .ok (paths, rest) →
        paths.entries.length = n) ∧
      ∀ bytes, NoPanic (parseBody bytes) ∧ ∀ ix, parseBody bytes = .ok ix →
        ix.paths.keys.Pairwise (· < ·) ∧ InRange ix ∧
          (∃ lists, ix.resolvedVersions = .ok lists) ∧
          (∀ path ∈ ix.paths.keys, (ix.lastChange path).isSome) ∧
          ∃ c, ix.column = .ok c ∧
            ∀ path, c.lastChange path = (ix.lastChange path).map IndexedCommit.anonymous := by
  refine ⟨fun ix hix hlen => ⟨exists_toCompressed, fun z => parse_toCompressed hgz hix hlen⟩, ?_, fun bytes => ?_⟩
  · intro nCommits n bs paths rest h
    obtain ⟨rows, hlen, hrows, -⟩ := ((safe_paths nCommits n (.inl rfl)).safeAt bs).2 paths rest h
    rw [hrows, empty, nil_append, hlen]
  obtain ⟨hsafe, hok⟩ := safe_parseBody bytes
  refine ⟨hsafe, fun ix hix => ?_⟩
  obtain ⟨hrange, hn⟩ := hok ix hix
  exact ⟨pairwise_map.mpr ix.paths.sorted, hrange, resolvedVersions_eq_ok hrange,
    fun path hpath => isSome_lastChange hrange hpath, column_spec hrange hn⟩

/-- Bytes as they are, in place of compressed ones. -/
def storedGzip : Gzip := ⟨id, fun bytes limit => .ok (bytes.take limit)⟩

/-- An index of one path, changed by one commit. -/
def smallIndex : HistoryIndex where
  tip := replicate 20 7
  base := some (replicate 32 1)
  commitCount := 1
  firstParentCount := 1
  rootTime := 300
  tipTime := 300
  commits := [⟨replicate 20 7, 300, "s", "a"⟩]
  paths := empty.insert [102] 0
  versions := some ⟨1, 4, empty.insert [102] ⟨[⟨0, 0o100644, [1, 2, 3, 4]⟩], true⟩⟩

/-- Its column. -/
def smallColumn : HistoryIndex :=
  { smallIndex with commits := [⟨replicate 20 7, 300, "s", ""⟩], versions := none }

theorem historyIndex_spec_small : storedGzip.Lossless ∧ Fits smallIndex ∧
    ∃ z, toCompressed storedGzip smallIndex = .ok z ∧ parse storedGzip z = .ok smallIndex := by
  have hgz : storedGzip.Lossless := fun _ _ => rfl
  have hversions : VersionsFit smallIndex.paths
      ⟨1, 4, empty.insert [102] ⟨[⟨0, 0o100644, [1, 2, 3, 4]⟩], true⟩⟩ := by
    constructor <;> decide
  have hfits : Fits smallIndex := by
    refine ⟨rfl, ?_, by decide, by decide, by decide, by decide, ⟨by decide, ?_⟩, ?_, by simp [smallIndex]⟩
    · rintro b ⟨⟩
      decide
    · rintro v ⟨⟩
      decide
    · rintro v ⟨⟩
      exact hversions
  have hlen : ∀ bs, body smallIndex = .ok bs → bs.length ≤ maxInflated := by
    have h : (body smallIndex).map List.length = .ok 110 := by decide +kernel
    intro bs hbs
    rw [hbs] at h
    rw [Except.ok.inj h]
    decide
  have hwrite : Writable smallIndex := by
    rintro v ⟨⟩
    decide
  obtain ⟨hwrites, hreads⟩ := (historyIndex_spec storedGzip hgz).1 smallIndex hfits hlen
  obtain ⟨z, hz⟩ := hwrites hwrite
  exact ⟨hgz, hfits, z, hz, hreads z hz⟩

/-- A last change read off the column is not the index's: its author is gone. -/
theorem column_dropsAuthor : ¬∀ bytes ix c, parseBody bytes = .ok ix → ix.column = .ok c →
    ∀ path, c.lastChange path = ix.lastChange path := by
  intro h
  have hread : (body smallIndex >>= parseBody) = .ok smallIndex := by decide +kernel
  obtain ⟨bytes, -, hbytes⟩ := bind_eq_ok.mp hread
  have hcolumn : smallIndex.column = .ok smallColumn := by decide +kernel
  exact absurd (h bytes smallIndex smallColumn hbytes hcolumn [102]) (by decide)

end DashForge.History
