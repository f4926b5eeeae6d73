import DashForge.Private.Release

/-!
# The fold over a repository's release revisions

`fold` (`private/release.rs`) sorts the revisions a reader opened into the live release of each tag, the
history, the copies it ignores and the counts shown beside them. It returns positions in the list it was
given; `IsFold` says what the revisions at those positions are, as a function of the set of revisions alone,
so that the fold does not depend on their order (`IsFold.unique`).

A copy of an earlier revision drops out of every part but one. The warning that the list may be out of date
compares with every readable revision, copies included, and a copy written last turns it off
(`fold_copy`).
-/

namespace DashForge.Release

open Doc (Unreadable)
open List SortedMap Function

/-- One revision as the fold sees it. -/
structure Revision where
  id : Bytes
  createdAt : ℕ
  epoch : UInt32
  tagName : String
  opened : Opened
  /-- Only its equality matters. -/
  enc : Bytes
deriving DecidableEq

namespace Revision

def key (r : Revision) : ℕ ×ₗ Bytes := toLex (r.createdAt, r.id)

def fields (r : Revision) : Option ReleaseFields :=
  match r.opened with
  | .readable f => some f
  | _ => none

/-- Whether the revision is one of a tag whose content is unknown. -/
def shadows (r : Revision) : Bool := r.opened = .unreadable .badTag ∨ r.opened = .malformed

/-- Whether the reader lacks the key. -/
def noKey (r : Revision) : Bool := r.opened = .unreadable .noKey

end Revision

/-- The parts of the fold, as positions in the revisions it was given or as those revisions. -/
structure Fold (ι : Type) where
  /-- The release of each live tag, in tag order. -/
  live : List ι := []
  /-- Every other readable revision that is not a copy, newest first. -/
  history : List ι := []
  /-- Live tags whose release is not a draft. -/
  count : ℕ := 0
  /-- Readable revisions whose `enc` repeats an earlier one's. -/
  replays : List ι := []
  /-- Tags with a newer revision under one of their names that does not open. -/
  unknownTags : List String := []
  /-- A revision under a key the reader lacks is newer than every readable one. -/
  stale : Bool := false
  /-- Revisions that did not open. -/
  hidden : ℕ := 0
deriving DecidableEq

/-- The fold's parts under other names. -/
def Fold.map {ι κ : Type} (f : ι → κ) (out : Fold ι) : Fold κ where
  live := out.live.map f
  history := out.history.map f
  count := out.count
  replays := out.replays.map f
  unknownTags := out.unknownTags
  stale := out.stale
  hidden := out.hidden

section Source

variable (revs : List Revision)

/-- The revision at a position. -/
def nth (i : Fin revs.length) : Revision := revs.get i

/-- What the pass in time order has found. -/
structure Pass where
  hidden : ℕ := 0
  seenEnc : List Bytes := []
  replays : List (Fin revs.length) := []
  byTag : SortedMap String (List (Fin revs.length)) := .empty

/-- One revision of the pass: hidden, a copy, or in the group of its tag. -/
def Pass.read (st : Pass revs) (i : Fin revs.length) : Pass revs :=
  match (nth revs i).fields with
  | none => { st with hidden := st.hidden + 1 }
  | some f =>
    -- honest writers never repeat a hedged nonce, so an equal `enc` is a copy
    if (nth revs i).enc ∈ st.seenEnc then { st with replays := st.replays ++ [i] }
    else { st with seenEnc := (nth revs i).enc :: st.seenEnc, byTag := st.byTag.pushTo f.tag i }

def byTime : List (Fin revs.length) := sortByKey (fun i => (nth revs i).key) (List.finRange revs.length)

/-- Whether a newer revision that shares an epoch and a name with a group does not open. -/
def shadowed (group : List (Fin revs.length)) (newest : Fin revs.length) : Bool :=
  revs.any fun u => u.shadows && (group.any fun i => u.epoch = (nth revs i).epoch ∧ u.tagName = (nth revs i).tagName) &&
    decide ((nth revs newest).key < u.key)

/-- One tag of the second loop: the newest revision of its group, and the older ones. -/
def readGroup (out : Fold (Fin revs.length)) (e : String × List (Fin revs.length)) :
    Except (Fault Empty) (Fold (Fin revs.length)) := do
  let newest ← orPanic e.2.getLast?
  let nf ← orPanic (nth revs newest).fields
  let out :=
    if nf.unpublished then { out with history := out.history ++ e.2 }
    else { out with
      live := out.live ++ [newest]
      count := out.count + if nf.draft then 0 else 1
      history := out.history ++ e.2.dropLast }
  return if shadowed revs e.2 newest then { out with unknownTags := out.unknownTags ++ [e.1] } else out

/-- The newest readable revision's position in time. -/
def newestReadable : Option (ℕ ×ₗ Bytes) :=
  ((revs.filter fun r => r.fields.isSome).map Revision.key).max?

def isStale : Bool :=
  revs.any fun r => r.noKey && (newestReadable revs).all fun n => decide (n < r.key)

/-- The fold: live tags, history, the count, copies, tags whose state is unknown, and whether the list may be
out of date. -/
def fold : Except (Fault Empty) (Fold (Fin revs.length)) := do
  let st := (byTime revs).foldl (Pass.read revs) {}
  let out ← st.byTag.entries.foldlM (readGroup revs) { replays := st.replays, hidden := st.hidden }
  return { out with
    history := sortByKey (fun i => OrderDual.toDual (nth revs i).key) out.history
    stale := isStale revs }

end Source

/-! ### What the fold is -/

namespace Revision

variable (r : Revision)

def readable : Bool := r.fields.isSome

def tag : String := (r.fields.map ReleaseFields.tag).getD ""

def unpublished : Bool := r.fields.any ReleaseFields.unpublished

def draft : Bool := r.fields.any ReleaseFields.draft

end Revision

section Spec

variable (l : List Revision)

/-- A readable revision with the `enc` of an earlier one. -/
def IsCopy (r : Revision) : Prop :=
  r.readable ∧ ∃ s ∈ l, s.readable ∧ s.enc = r.enc ∧ s.key < r.key

instance (r : Revision) : Decidable (IsCopy l r) := inferInstanceAs (Decidable (_ ∧ _))

/-- A readable revision that is no copy. -/
def IsOriginal (r : Revision) : Prop := r ∈ l ∧ r.readable ∧ ¬IsCopy l r

instance (r : Revision) : Decidable (IsOriginal l r) := inferInstanceAs (Decidable (_ ∧ _ ∧ _))

/-- The newest revision of its tag, copies aside. -/
def IsNewest (r : Revision) : Prop := IsOriginal l r ∧ ∀ s, IsOriginal l s → s.tag = r.tag → s.key ≤ r.key

/-- The release of a live tag. -/
def IsLive (r : Revision) : Prop := IsNewest l r ∧ r.unpublished = false

/-- The tag of a newest revision that a newer one under one of the tag's names may replace. -/
def IsUnknownTag (t : String) : Prop :=
  ∃ r, IsNewest l r ∧ r.tag = t ∧ ∃ u ∈ l, u.shadows ∧ r.key < u.key ∧
    ∃ s, IsOriginal l s ∧ s.tag = t ∧ u.epoch = s.epoch ∧ u.tagName = s.tagName

/-- What the fold of a set of revisions is. -/
structure IsFold (out : Fold Revision) : Prop where
  live : ∀ r, r ∈ out.live ↔ IsLive l r
  live_sorted : out.live.Pairwise fun r s => r.tag < s.tag
  history : ∀ r, r ∈ out.history ↔ IsOriginal l r ∧ ¬IsLive l r
  history_sorted : out.history.Pairwise fun r s => s.key < r.key
  count : out.count = out.live.countP fun r => !r.draft
  replays : ∀ r, r ∈ out.replays ↔ r ∈ l ∧ IsCopy l r
  replays_sorted : out.replays.Pairwise fun r s => r.key < s.key
  unknownTags : ∀ t, t ∈ out.unknownTags ↔ IsUnknownTag l t
  unknownTags_sorted : out.unknownTags.Pairwise (· < ·)
  stale : out.stale = true ↔ ∃ u ∈ l, u.noKey ∧ ∀ v ∈ l, v.readable → v.key < u.key
  hidden : out.hidden = l.countP fun r => !r.readable

end Spec

/-! ### The pass in time order -/

section Pass

variable {revs : List Revision} (hkey : (revs.map Revision.key).Nodup)

theorem mem_byTime (i : Fin revs.length) : i ∈ byTime revs := by
  rw [byTime, mem_sortByKey]
  exact mem_finRange i

include hkey

theorem key_injective : Injective fun i : Fin revs.length => (nth revs i).key := by
  intro i j hij
  have hget := nodup_iff_injective_get.mp hkey
  have hij' : (revs.map Revision.key).get (i.cast (length_map ..).symm) =
      (revs.map Revision.key).get (j.cast (length_map ..).symm) := by simpa [nth] using hij
  simpa [Fin.ext_iff] using hget hij'

theorem pairwise_byTime : (byTime revs).Pairwise fun i j => (nth revs i).key < (nth revs j).key := by
  have hle := pairwise_sortByKey (fun i : Fin revs.length => (nth revs i).key) (List.finRange revs.length)
  have hnodup : (byTime revs).Nodup := (perm_sortByKey _ _).nodup_iff.mpr (nodup_finRange _)
  exact hle.imp₂ (fun _ _ hle hne => lt_of_le_of_ne hle fun heq => hne (key_injective hkey heq)) hnodup

variable {before after : List (Fin revs.length)} {i : Fin revs.length}

theorem mem_before_iff {j : Fin revs.length}
    (h : before ++ i :: after = byTime revs) : j ∈ before ↔ (nth revs j).key < (nth revs i).key := by
  have hsorted := pairwise_byTime hkey
  rw [← h, pairwise_append, pairwise_cons] at hsorted
  refine ⟨fun hj => hsorted.2.2 j hj i mem_cons_self, fun hj => ?_⟩
  have hmem := mem_byTime j
  rw [← h] at hmem
  rcases mem_append.mp hmem with hj' | hj'
  · exact hj'
  · rcases mem_cons.mp hj' with rfl | hj'
    · exact absurd hj (lt_irrefl _)
    · exact absurd hj (hsorted.2.1.1 j hj').asymm

omit hkey in
theorem exists_position {r : Revision} (hr : r ∈ revs) : ∃ i, nth revs i = r := by
  obtain ⟨n, hn⟩ := get_of_mem hr
  exact ⟨n, hn⟩

theorem isCopy_iff (h : before ++ i :: after = byTime revs) (hi : (nth revs i).readable) :
    IsCopy revs (nth revs i) ↔ ∃ j ∈ before, (nth revs j).readable ∧ (nth revs j).enc = (nth revs i).enc := by
  constructor
  · rintro ⟨-, s, hs, hread, henc, hlt⟩
    obtain ⟨j, rfl⟩ := exists_position hs
    exact ⟨j, (mem_before_iff hkey h).mpr hlt, hread, henc⟩
  · rintro ⟨j, hj, hread, henc⟩
    exact ⟨hi, nth revs j, get_mem _ _, hread, henc, (mem_before_iff hkey h).mp hj⟩

omit hkey in
/-- What the pass has found after the positions `before`. -/
structure PassOk (before : List (Fin revs.length)) (st : Pass revs) : Prop where
  hidden : st.hidden = before.countP fun i => !(nth revs i).readable
  seenEnc : ∀ b, b ∈ st.seenEnc ↔ ∃ j ∈ before, (nth revs j).readable ∧ (nth revs j).enc = b
  replays : st.replays = before.filter fun i => IsCopy revs (nth revs i)
  byTag : st.byTag = .gather ((before.filter fun i => IsOriginal revs (nth revs i)).map fun i => ((nth revs i).tag, i))

theorem PassOk.read {st : Pass revs} (hst : PassOk before st) (h : before ++ i :: after = byTime revs) :
    PassOk (before ++ [i]) (Pass.read revs st i) := by
  unfold Pass.read
  split
  · next hnone =>
    have hread : (nth revs i).readable = false := by simp [Revision.readable, hnone]
    have hcopy : ¬IsCopy revs (nth revs i) := fun hc => by simpa [hread] using hc.1
    refine ⟨?_, fun b => ?_, ?_, ?_⟩
    · simp [hst.hidden, hread]
    · simp [hst.seenEnc, hread]
    · simp [hst.replays, hcopy]
    · simp [hst.byTag, IsOriginal, hread]
  · next f hf =>
    have hread : (nth revs i).readable := by simp [Revision.readable, hf]
    have htag : (nth revs i).tag = f.tag := by simp [Revision.tag, hf]
    have hseen : (nth revs i).enc ∈ st.seenEnc ↔ IsCopy revs (nth revs i) :=
      (hst.seenEnc _).trans (isCopy_iff hkey h hread).symm
    split
    · next hin =>
      have hcopy := hseen.mp hin
      refine ⟨?_, fun b => ?_, ?_, ?_⟩
      · simp [hst.hidden, hread]
      · -- the `enc` of a copy was seen before
        rw [hst.seenEnc]
        constructor
        · rintro ⟨j, hj, hb⟩
          exact ⟨j, mem_append_left _ hj, hb⟩
        · rintro ⟨j, hj, hb⟩
          rcases mem_append.mp hj with hj | hj
          · exact ⟨j, hj, hb⟩
          · obtain rfl := mem_singleton.mp hj
            obtain ⟨k, hk, hk'⟩ := (hst.seenEnc _).mp hin
            exact ⟨k, hk, hk'.1, hk'.2.trans hb.2⟩
      · simp [hst.replays, hcopy]
      · simp [hst.byTag, IsOriginal, hcopy]
    · next hnot =>
      have hcopy : ¬IsCopy revs (nth revs i) := fun hc => hnot (hseen.mpr hc)
      have horiginal : IsOriginal revs (nth revs i) := ⟨get_mem _ _, hread, hcopy⟩
      refine ⟨?_, fun b => ?_, ?_, ?_⟩
      · simp [hst.hidden, hread]
      · simp only [mem_cons, hst.seenEnc, mem_append, not_mem_nil, or_false, or_and_right, exists_or,
          exists_eq_left, hread, true_and]
        rw [or_comm, @eq_comm _ b]
      · simp [hst.replays, hcopy]
      · rw [filter_append, map_append, hst.byTag, filter_cons_of_pos (by simpa using horiginal),
          filter_nil, map_cons, map_nil, gather_concat, htag]

theorem passOk_foldl : PassOk (byTime revs) ((byTime revs).foldl (Pass.read revs) {}) := by
  have hgo : ∀ before after : List (Fin revs.length), before ++ after = byTime revs →
      PassOk before (before.foldl (Pass.read revs) {}) := by
    intro before
    induction before using reverseRecOn with
    | nil => exact fun _ _ => ⟨rfl, by simp, rfl, rfl⟩
    | append_singleton before i ih =>
      intro after h
      rw [append_assoc] at h
      rw [foldl_append]
      exact (ih _ h).read hkey h
  exact hgo (byTime revs) [] (append_nil _)

end Pass

/-! ### The pass over the tags -/

section Groups

variable {revs : List Revision}

/-- A tag's group: its originals in time order, and at least one. -/
structure GroupOk (e : String × List (Fin revs.length)) : Prop where
  mem : ∀ i, i ∈ e.2 ↔ IsOriginal revs (nth revs i) ∧ (nth revs i).tag = e.1
  sorted : e.2.Pairwise fun i j => (nth revs i).key < (nth revs j).key
  ne_nil : e.2 ≠ []

/-- The release of a group, when it is live. -/
def liveOf (e : String × List (Fin revs.length)) : List (Fin revs.length) :=
  e.2.getLast?.toList.filter fun i => !(nth revs i).unpublished

/-- The revisions of a group that are history. -/
def historyOf (e : String × List (Fin revs.length)) : List (Fin revs.length) :=
  if liveOf e = [] then e.2 else e.2.dropLast

/-- The tag of a group, when a revision that does not open may be its newest. -/
def unknownOf (e : String × List (Fin revs.length)) : List String :=
  (e.2.getLast?.filter fun i => shadowed revs e.2 i).toList.map fun _ => e.1

namespace GroupOk

variable {e : String × List (Fin revs.length)} (he : GroupOk e)

include he

theorem exists_newest : ∃ init i, e.2 = init ++ [i] ∧ IsNewest revs (nth revs i) ∧ (nth revs i).tag = e.1 := by
  obtain ⟨init, i, hinit⟩ := (eq_nil_or_concat e.2).resolve_left he.ne_nil
  rw [concat_eq_append] at hinit
  obtain ⟨horiginal, htag⟩ := (he.mem i).mp (by simp [hinit])
  refine ⟨init, i, hinit, ⟨horiginal, fun s hs hst => ?_⟩, htag⟩
  obtain ⟨j, rfl⟩ := exists_position hs.1
  have hj := (he.mem j).mpr ⟨hs, hst.trans htag⟩
  have hsorted := he.sorted
  rw [hinit] at hj hsorted
  rcases mem_append.mp hj with hj | hj
  · exact ((pairwise_append.mp hsorted).2.2 j hj i mem_cons_self).le
  · rw [mem_singleton.mp hj]

theorem readGroup_eq (out : Fold (Fin revs.length)) : readGroup revs out e = .ok { out with
    live := out.live ++ liveOf e
    count := out.count + (liveOf e).countP fun i => !(nth revs i).draft
    history := out.history ++ historyOf e
    unknownTags := out.unknownTags ++ unknownOf e } := by
  obtain ⟨init, i, hinit, hnewest, -⟩ := he.exists_newest
  obtain ⟨f, hf⟩ := Option.isSome_iff_exists.mp hnewest.1.2.1
  have hlast : e.2.getLast? = some i := by rw [hinit, getLast?_concat]
  have hlive : liveOf e = if f.unpublished then [] else [i] := by
    cases hu : f.unpublished <;> simp [liveOf, hlast, Revision.unpublished, hf, hu]
  have hunknown : unknownOf e = if shadowed revs e.2 i then [e.1] else [] := by
    cases hs : shadowed revs e.2 i <;> simp [unknownOf, hlast, Option.filter, hs]
  simp only [readGroup, hlast, orPanic_some, ok_bind, hf, historyOf, hlive, hunknown]
  cases f.unpublished <;> cases hd : f.draft <;> cases shadowed revs e.2 i <;>
    simp [pure, Except.pure, Revision.draft, hf, hd]

end GroupOk

theorem foldlM_readGroup {es : List (String × List (Fin revs.length))} (hes : ∀ e ∈ es, GroupOk e)
    (out : Fold (Fin revs.length)) : es.foldlM (readGroup revs) out = .ok { out with
      live := out.live ++ es.flatMap liveOf
      count := out.count + (es.flatMap liveOf).countP fun i => !(nth revs i).draft
      history := out.history ++ es.flatMap historyOf
      unknownTags := out.unknownTags ++ es.flatMap unknownOf } := by
  induction es generalizing out with
  | nil => simp [pure, Except.pure]
  | cons e es ih =>
    rw [foldlM_cons, (hes e mem_cons_self).readGroup_eq, ok_bind,
      ih fun e' he' => hes e' (mem_cons_of_mem _ he')]
    simp only [flatMap_cons, countP_append, append_assoc, Nat.add_assoc]

/-- The groups of the tags, in tag order. -/
def groups (revs : List Revision) : SortedMap String (List (Fin revs.length)) :=
  .gather (((byTime revs).filter fun i => IsOriginal revs (nth revs i)).map fun i => ((nth revs i).tag, i))

variable (revs) in
theorem listAt_groups (t : String) : (groups revs).listAt t =
    ((byTime revs).filter fun i => IsOriginal revs (nth revs i)).filter fun i => (nth revs i).tag = t := by
  rw [groups, listAt_gather, filter_map, map_map]
  exact map_id _

variable {i : Fin revs.length} {e : String × List (Fin revs.length)}

theorem mem_listAt_groups {t : String} :
    i ∈ (groups revs).listAt t ↔ IsOriginal revs (nth revs i) ∧ (nth revs i).tag = t := by
  simp [listAt_groups, mem_byTime, and_comm]

theorem listAt_of_mem_groups (he : e ∈ (groups revs).entries) :
    (groups revs).listAt e.1 = e.2 := (mem_entries_gather.mp he).2

variable (hkey : (revs.map Revision.key).Nodup)

include hkey

theorem groupOk (he : e ∈ (groups revs).entries) : GroupOk e := by
  have hlist := listAt_of_mem_groups he
  refine ⟨fun i => ?_, ?_, (mem_entries_gather.mp he).1⟩
  · rw [← hlist]
    exact mem_listAt_groups
  · rw [← hlist, listAt_groups]
    exact ((pairwise_byTime hkey).filter _).filter _

omit hkey in
theorem exists_group {r : Revision} (hr : IsOriginal revs r) : ∃ e ∈ (groups revs).entries, e.1 = r.tag := by
  obtain ⟨i, rfl⟩ := exists_position hr.1
  have hi : i ∈ (groups revs).listAt (nth revs i).tag := mem_listAt_groups.mpr ⟨hr, rfl⟩
  exact ⟨(_, _), mem_entries_gather.mpr ⟨ne_nil_of_mem hi, rfl⟩, rfl⟩

theorem IsNewest.unique {r s : Revision} (hr : IsNewest revs r) (hs : IsNewest revs s) (ht : r.tag = s.tag) : r = s :=
  inj_on_of_nodup_map hkey hr.1.1 hs.1.1 (le_antisymm (hs.2 r hr.1 ht) (hr.2 s hs.1 ht.symm))

theorem getLast?_eq_some_iff (he : e ∈ (groups revs).entries) :
    e.2.getLast? = some i ↔ IsNewest revs (nth revs i) ∧ (nth revs i).tag = e.1 := by
  obtain ⟨init, j, hinit, hnewest, htag⟩ := (groupOk hkey he).exists_newest
  rw [hinit, getLast?_concat, Option.some.injEq]
  constructor
  · rintro rfl
    exact ⟨hnewest, htag⟩
  · rintro ⟨hi, hit⟩
    have hij := hnewest.unique hkey hi (htag.trans hit.symm)
    exact key_injective hkey (congrArg Revision.key hij)

theorem mem_liveOf (he : e ∈ (groups revs).entries) :
    i ∈ liveOf e ↔ IsLive revs (nth revs i) ∧ (nth revs i).tag = e.1 := by
  rw [liveOf, mem_filter, Option.mem_toList, getLast?_eq_some_iff hkey he, IsLive,
    Bool.not_eq_true', and_right_comm]

theorem mem_historyOf (he : e ∈ (groups revs).entries) : i ∈ historyOf e ↔
      (IsOriginal revs (nth revs i) ∧ ¬IsLive revs (nth revs i)) ∧ (nth revs i).tag = e.1 := by
  have hok := groupOk hkey he
  have hiff : i ∈ historyOf e ↔ i ∈ e.2 ∧ i ∉ liveOf e := by
    obtain ⟨init, j, hinit, -, -⟩ := hok.exists_newest
    rw [historyOf]
    split
    · next hnil => simp [hnil]
    · next hne =>
      have hlive : liveOf e = [j] := by
        have hsub : (liveOf e).Sublist [j] := by
          rw [liveOf, hinit, getLast?_concat]
          exact filter_sublist
        exact (sublist_singleton.mp hsub).resolve_left hne
      -- no revision is in a group twice
      have hsorted := hok.sorted
      rw [hinit, pairwise_append] at hsorted
      have hj : ∀ k ∈ init, k ≠ j := by
        rintro k hk rfl
        exact lt_irrefl _ (hsorted.2.2 k hk k mem_cons_self)
      rw [hlive, hinit, dropLast_concat, mem_append, mem_singleton]
      constructor
      · exact fun hi => ⟨.inl hi, hj i hi⟩
      · exact fun hi => hi.1.resolve_right hi.2
  rw [hiff, mem_liveOf hkey he, hok.mem]
  tauto

theorem mem_unknownOf (he : e ∈ (groups revs).entries) {t : String} :
    t ∈ unknownOf e ↔ IsUnknownTag revs t ∧ e.1 = t := by
  obtain ⟨init, i, hinit, hnewest, htag⟩ := (groupOk hkey he).exists_newest
  have hlast : e.2.getLast? = some i := by rw [hinit, getLast?_concat]
  have hshadow : shadowed revs e.2 i = true ↔ IsUnknownTag revs e.1 := by
    simp only [shadowed, any_eq_true, Bool.and_eq_true, decide_eq_true_eq, (groupOk hkey he).mem]
    constructor
    · rintro ⟨u, hu, ⟨hsh, j, ⟨hj, hjt⟩, hname⟩, hlt⟩
      exact ⟨_, hnewest, htag, u, hu, hsh, hlt, _, hj, hjt, hname⟩
    · rintro ⟨r, hr, hrt, u, hu, hsh, hlt, s, hs, hst, hname⟩
      obtain rfl := hr.unique hkey hnewest (hrt.trans htag.symm)
      obtain ⟨j, rfl⟩ := exists_position hs.1
      exact ⟨u, hu, ⟨hsh, j, ⟨hs, hst⟩, hname⟩, hlt⟩
  rw [unknownOf, hlast]
  by_cases h : shadowed revs e.2 i = true
  · simp only [Option.filter, h, if_true, Option.toList_some, map_cons, map_nil, mem_singleton]
    constructor
    · rintro rfl
      exact ⟨hshadow.mp h, rfl⟩
    · exact fun ht => ht.2.symm
  · simp only [Option.filter, h, Bool.false_eq_true, if_false, Option.toList_none, map_nil, not_mem_nil, false_iff]
    rintro ⟨hun, rfl⟩
    exact h (hshadow.mpr hun)

end Groups

/-! ### The fold is what it should be -/

section Spec

variable {revs : List Revision}

theorem mem_map_nth {is : List (Fin revs.length)} {p : Revision → Prop} (hmem : ∀ i, i ∈ is ↔ p (nth revs i))
    (hsub : ∀ r, p r → r ∈ revs) (r : Revision) : r ∈ is.map (nth revs) ↔ p r := by
  rw [mem_map]
  constructor
  · rintro ⟨i, hi, rfl⟩
    exact (hmem i).mp hi
  · intro hr
    obtain ⟨i, rfl⟩ := exists_position (hsub r hr)
    exact ⟨i, (hmem i).mpr hr, rfl⟩

variable (revs) in
theorem isStale_eq_true_iff : isStale revs = true ↔ ∃ u ∈ revs, u.noKey ∧ ∀ v ∈ revs, v.readable → v.key < u.key := by
  have hnewest : ∀ k, (newestReadable revs).all (fun n => decide (n < k)) = true ↔
      ∀ v ∈ revs, v.readable → v.key < k := by
    intro k
    cases h : newestReadable revs with
    | none =>
      rw [newestReadable, max?_eq_none_iff, map_eq_nil_iff, filter_eq_nil_iff] at h
      exact iff_of_true rfl fun v hv hread => absurd hread (h v hv)
    | some n =>
      obtain ⟨hn, hmax⟩ := max?_eq_some_iff.mp h
      obtain ⟨w, hw, rfl⟩ := mem_map.mp hn
      rw [Option.all_some, decide_eq_true_iff]
      constructor
      · exact fun hlt v hv hread =>
          (hmax _ (mem_map_of_mem (mem_filter.mpr ⟨hv, hread⟩))).trans_lt hlt
      · exact fun hall => hall w (mem_filter.mp hw).1 (mem_filter.mp hw).2
  simp [isStale, hnewest]

variable (hkey : (revs.map Revision.key).Nodup)

include hkey

omit hkey in
theorem mem_flatMap_groups {β : Type} {f : String × List (Fin revs.length) → List β} {p : β → Prop}
    {tagOf : β → String} (hf : ∀ e ∈ (groups revs).entries, ∀ b, b ∈ f e ↔ p b ∧ tagOf b = e.1)
    (hp : ∀ b, p b → ∃ r, IsOriginal revs r ∧ r.tag = tagOf b) (b : β) : b ∈ (groups revs).entries.flatMap f ↔ p b := by
  rw [mem_flatMap]
  constructor
  · rintro ⟨e, he, hb⟩
    exact ((hf e he b).mp hb).1
  · intro hb
    obtain ⟨r, hr, htag⟩ := hp b hb
    obtain ⟨e, he, het⟩ := exists_group hr
    exact ⟨e, he, (hf e he b).mpr ⟨hb, htag.symm.trans het.symm⟩⟩

theorem pairwise_flatMap_liveOf : ((groups revs).entries.flatMap liveOf).Pairwise fun i j =>
    (nth revs i).tag < (nth revs j).tag := by
  refine pairwise_flatMap.mpr ⟨fun e _ => ?_, ?_⟩
  · refine List.Pairwise.sublist filter_sublist ?_
    cases e.2.getLast? with
    | none => exact .nil
    | some i => exact pairwise_singleton _ _
  · refine List.Pairwise.imp_of_mem (fun he he' hlt i hi j hj => ?_) (groups revs).sorted
    rwa [((mem_liveOf hkey he).mp hi).2, ((mem_liveOf hkey he').mp hj).2]

theorem pairwise_flatMap_unknownOf : ((groups revs).entries.flatMap unknownOf).Pairwise (· < ·) := by
  refine pairwise_flatMap.mpr ⟨fun e _ => ?_, ?_⟩
  · rw [unknownOf]
    cases e.2.getLast?.filter fun i => shadowed revs e.2 i with
    | none => exact .nil
    | some i => exact pairwise_singleton _ _
  · refine List.Pairwise.imp_of_mem (fun he he' hlt t ht t' ht' => ?_) (groups revs).sorted
    rwa [← ((mem_unknownOf hkey he).mp ht).2, ← ((mem_unknownOf hkey he').mp ht').2]

theorem nodup_flatMap_historyOf : ((groups revs).entries.flatMap historyOf).Nodup := by
  refine nodup_flatMap.mpr ⟨fun e he => ?_, ?_⟩
  · have hnodup : e.2.Nodup := (groupOk hkey he).sorted.imp fun hlt heq => absurd (heq ▸ hlt) (lt_irrefl _)
    rw [historyOf]
    split
    · exact hnodup
    · exact hnodup.sublist (dropLast_sublist _)
  · refine List.Pairwise.imp_of_mem (fun he he' hlt i hi hi' => ?_) (groups revs).sorted
    have htag := ((mem_historyOf hkey he).mp hi).2.symm.trans ((mem_historyOf hkey he').mp hi').2
    exact hlt.ne htag

/-- The fold does not fail, and finds what it should. -/
theorem fold_isFold : ∃ out, fold revs = .ok out ∧ IsFold revs (out.map (nth revs)) := by
  obtain ⟨hhidden, -, hreplays, hbyTag⟩ := passOk_foldl hkey
  have hfold := foldlM_readGroup (fun e he => groupOk hkey he)
    { replays := ((byTime revs).foldl (Pass.read revs) {}).replays
      hidden := ((byTime revs).foldl (Pass.read revs) {}).hidden }
  refine ⟨_, by rw [fold, hbyTag, ← groups, hfold, ok_bind]; rfl, ?_⟩
  have horiginal : ∀ i, IsOriginal revs (nth revs i) → ∃ r, IsOriginal revs r ∧ r.tag = (nth revs i).tag :=
    fun i hi => ⟨_, hi, rfl⟩
  have hlive := mem_flatMap_groups (fun _ he _ => mem_liveOf hkey he) fun i hi => horiginal i hi.1.1
  have hhistory := mem_flatMap_groups (fun _ he _ => mem_historyOf hkey he) fun i hi => horiginal i hi.1
  have hof : ∀ e ∈ (groups revs).entries, ∀ t, t ∈ unknownOf e ↔ IsUnknownTag revs t ∧ t = e.1 :=
    fun _ he t => (mem_unknownOf hkey he).trans (and_congr_right' eq_comm)
  have hunknown := mem_flatMap_groups hof fun t ht => ht.imp fun r hr => ⟨hr.1.1, hr.2.1⟩
  constructor
  case live => exact mem_map_nth (by simpa using hlive) fun r hr => hr.1.1.1
  case live_sorted => exact pairwise_map.mpr (by simpa using pairwise_flatMap_liveOf hkey)
  case history => exact mem_map_nth (by simpa using hhistory) fun r hr => hr.1.1
  case history_sorted =>
    have hnodup := (perm_sortByKey (fun i => OrderDual.toDual (nth revs i).key) _).nodup_iff.mpr
      (nodup_flatMap_historyOf hkey)
    refine pairwise_map.mpr ?_
    refine (pairwise_sortByKey (fun i => OrderDual.toDual (nth revs i).key) _).imp₂ (fun i j hle hne => ?_)
      (by simpa only [nil_append] using nodup_iff_pairwise_ne.mp hnodup)
    exact lt_of_le_of_ne (OrderDual.toDual_le_toDual.mp hle) fun heq => hne (key_injective hkey heq.symm)
  case count => simp [Fold.map, countP_map, comp_def]
  case replays =>
    refine mem_map_nth (p := fun r => r ∈ revs ∧ IsCopy revs r) (fun i => ?_) fun r hr => hr.1
    have hi : nth revs i ∈ revs := get_mem _ _
    simp [hreplays, mem_byTime, hi]
  case replays_sorted =>
    refine pairwise_map.mpr ?_
    simpa [hreplays] using (pairwise_byTime hkey).filter _
  case unknownTags => simpa [Fold.map] using hunknown
  case unknownTags_sorted => simpa [Fold.map] using pairwise_flatMap_unknownOf hkey
  case stale => exact isStale_eq_true_iff revs
  case hidden =>
    have hall : (byTime revs).map (nth revs) = sortByKey Revision.key revs := by
      rw [byTime, ← sortByKey_map]
      exact congrArg _ (map_get_finRange revs)
    have hcount := (perm_sortByKey Revision.key revs).countP_eq fun r => !r.readable
    rw [← hall, countP_map] at hcount
    exact hhidden.trans hcount

omit hkey in
theorem IsFold.unique {out out' : Fold Revision} (h : IsFold revs out) (h' : IsFold revs out') : out = out' := by
  have hlive : out.live = out'.live :=
    eq_of_pairwise_lt_of_mem_iff Revision.tag h.live_sorted h'.live_sorted fun r => (h.live r).trans (h'.live r).symm
  have hhistory : out.history = out'.history := by
    refine eq_of_pairwise_lt_of_mem_iff (fun r : Revision => OrderDual.toDual r.key) ?_ ?_ fun r =>
      (h.history r).trans (h'.history r).symm
    · exact h.history_sorted
    · exact h'.history_sorted
  have hreplays : out.replays = out'.replays :=
    eq_of_pairwise_lt_of_mem_iff Revision.key h.replays_sorted h'.replays_sorted fun r =>
      (h.replays r).trans (h'.replays r).symm
  have hunknown : out.unknownTags = out'.unknownTags :=
    eq_of_pairwise_lt_of_mem_iff id h.unknownTags_sorted h'.unknownTags_sorted fun t =>
      (h.unknownTags t).trans (h'.unknownTags t).symm
  have hstale : out.stale = out'.stale := Bool.eq_iff_iff.mpr (h.stale.trans h'.stale.symm)
  have hcount : out.count = out'.count := by rw [h.count, h'.count, hlive]
  have hhidden : out.hidden = out'.hidden := h.hidden.trans h'.hidden.symm
  cases out
  cases out'
  simp only [Fold.mk.injEq]
  exact ⟨hlive, hhistory, hcount, hreplays, hunknown, hstale, hhidden⟩

omit hkey in
theorem IsFold.of_perm {revs' : List Revision} {out : Fold Revision} (h : IsFold revs out)
    (hperm : revs.Perm revs') : IsFold revs' out := by
  have hmem : ∀ r, r ∈ revs' ↔ r ∈ revs := fun r => hperm.symm.mem_iff
  exact { h with
    live := by simpa only [IsLive, IsNewest, IsOriginal, IsCopy, hmem] using h.live
    history := by simpa only [IsLive, IsNewest, IsOriginal, IsCopy, hmem] using h.history
    replays := by simpa only [IsCopy, hmem] using h.replays
    unknownTags := by simpa only [IsUnknownTag, IsNewest, IsOriginal, IsCopy, hmem] using h.unknownTags
    stale := by simpa only [hmem] using h.stale
    hidden := h.hidden.trans (hperm.countP_eq _) }

end Spec

/-! ### A copy written last -/

section Copy

variable {revs : List Revision} {r : Revision} (hread : r.readable) (hlater : ∀ s ∈ revs, s.key < r.key)
  (hcopied : ∃ s ∈ revs, s.readable ∧ s.enc = r.enc)

include hread hlater hcopied

theorem mem_isCopy_concat (s : Revision) :
    s ∈ revs ++ [r] ∧ IsCopy (revs ++ [r]) s ↔ s ∈ revs ∧ IsCopy revs s ∨ s = r := by
  obtain ⟨s₀, hs₀, hread₀, henc₀⟩ := hcopied
  rw [mem_append, mem_singleton]
  constructor
  · rintro ⟨hs | rfl, hscopy, s', hs', h'⟩
    · rcases mem_append.mp hs' with hs' | hs'
      · exact .inl ⟨hs, hscopy, s', hs', h'⟩
      · obtain rfl := mem_singleton.mp hs'
        exact absurd h'.2.2 (hlater s hs).asymm
    · exact .inr rfl
  · rintro (⟨hs, hscopy, s', hs', h'⟩ | rfl)
    · exact ⟨.inl hs, hscopy, s', mem_append_left _ hs', h'⟩
    · exact ⟨.inr rfl, hread, s₀, mem_append_left _ hs₀, hread₀, henc₀, hlater s₀ hs₀⟩

theorem isOriginal_concat (s : Revision) : IsOriginal (revs ++ [r]) s ↔ IsOriginal revs s := by
  have hcopy := mem_isCopy_concat hread hlater hcopied
  have hr : r ∉ revs := fun hr => lt_irrefl _ (hlater r hr)
  constructor
  · rintro ⟨hs, hsread, hnot⟩
    have hnot' : ¬(s ∈ revs ∧ IsCopy revs s ∨ s = r) := fun h => hnot ((hcopy s).mpr h).2
    rw [not_or, not_and] at hnot'
    have hs' : s ∈ revs := by simpa [hnot'.2] using hs
    exact ⟨hs', hsread, hnot'.1 hs'⟩
  · rintro ⟨hs, hsread, hnot⟩
    refine ⟨mem_append_left _ hs, hsread, fun hc => ?_⟩
    rcases (hcopy s).mp ⟨mem_append_left _ hs, hc⟩ with h | rfl
    · exact hnot h.2
    · exact hr hs

theorem IsFold.copy {out : Fold Revision} (h : IsFold revs out) :
    IsFold (revs ++ [r]) { out with replays := out.replays ++ [r], stale := false } := by
  have horiginal := isOriginal_concat hread hlater hcopied
  have hnotNew : r.shadows = false ∧ r.noKey = false := by
    obtain ⟨f, hf⟩ := Option.isSome_iff_exists.mp hread
    unfold Revision.fields at hf
    split at hf
    · next hopened => simp [Revision.shadows, Revision.noKey, hopened]
    · cases hf
  constructor
  case live => simpa only [IsLive, IsNewest, horiginal] using h.live
  case live_sorted => exact h.live_sorted
  case history => simpa only [IsLive, IsNewest, horiginal] using h.history
  case history_sorted => exact h.history_sorted
  case count => exact h.count
  case replays =>
    intro s
    rw [mem_isCopy_concat hread hlater hcopied, mem_append, mem_singleton, h.replays]
  case replays_sorted =>
    refine pairwise_append.mpr ⟨h.replays_sorted, pairwise_singleton _ _, fun s hs s' hs' => ?_⟩
    rw [mem_singleton.mp hs']
    exact hlater s ((h.replays s).mp hs).1
  case unknownTags =>
    intro t
    have hshadow : ∀ P : Revision → Prop, (∃ u ∈ revs ++ [r], u.shadows ∧ P u) ↔ ∃ u ∈ revs, u.shadows ∧ P u := by
      intro P
      simp [or_and_right, exists_or, hnotNew.1]
    simpa only [IsUnknownTag, IsNewest, horiginal, hshadow] using h.unknownTags t
  case unknownTags_sorted => exact h.unknownTags_sorted
  case stale =>
    refine iff_of_false (by simp) ?_
    rintro ⟨u, hu, hno, hall⟩
    have hru := hall r (by simp) hread
    rcases mem_append.mp hu with hu | hu
    · exact hru.asymm (hlater u hu)
    · rw [mem_singleton.mp hu, hnotNew.2] at hno
      cases hno
  case hidden => simp [h.hidden, hread]

end Copy

/-! ### Positions -/

namespace Fold

theorem map_injective {ι κ : Type} {f : ι → κ} (hf : Injective f) : Injective (Fold.map f) := by
  intro out out' h
  cases out
  cases out'
  simpa [Fold.map, (map_injective_iff.mpr hf).eq_iff] using h

end Fold

section Positions

variable (revs : List Revision) (r : Revision)

/-- A position after another revision is put at the end. -/
def kept (i : Fin revs.length) : Fin (revs ++ [r]).length := i.castLE (by simp)

/-- The position of the revision at the end. -/
def added : Fin (revs ++ [r]).length := ⟨revs.length, by simp⟩

theorem nth_kept (i : Fin revs.length) : nth (revs ++ [r]) (kept revs r i) = nth revs i := by
  simp [nth, kept]

theorem nth_added : nth (revs ++ [r]) (added revs r) = r := by
  simp [nth, added]

end Positions

theorem nth_injective {revs : List Revision} (hkey : (revs.map Revision.key).Nodup) :
    Injective (nth revs) := fun _ _ h => key_injective hkey (congrArg Revision.key h)

section Fold

variable {revs : List Revision} (hkey : (revs.map Revision.key).Nodup) {out : Fold (Fin revs.length)}
  (hspec : IsFold revs (out.map (nth revs)))

include hkey hspec

theorem mem_live_iff (i : Fin revs.length) : i ∈ out.live ↔ IsLive revs (nth revs i) :=
  (mem_map_of_injective (nth_injective hkey)).symm.trans (hspec.live _)

theorem mem_history_iff (i : Fin revs.length) :
    i ∈ out.history ↔ IsOriginal revs (nth revs i) ∧ ¬IsLive revs (nth revs i) :=
  (mem_map_of_injective (nth_injective hkey)).symm.trans (hspec.history _)

theorem mem_replays_iff (i : Fin revs.length) : i ∈ out.replays ↔ IsCopy revs (nth revs i) :=
  (mem_map_of_injective (nth_injective hkey)).symm.trans
    ((hspec.replays _).trans (and_iff_right (get_mem _ _)))

/-- A readable revision is in one part. -/
theorem perm_parts : (out.live ++ out.history ++ out.replays).Perm
    ((List.finRange revs.length).filter fun i => (nth revs i).readable) := by
  have hlive := mem_live_iff hkey hspec
  have hhistory := mem_history_iff hkey hspec
  have hreplays := mem_replays_iff hkey hspec
  have hnodup : (out.live ++ out.history ++ out.replays).Nodup := by
    have hlt : ∀ {κ : Type} [LinearOrder κ] {f : Revision → κ} {is : List (Fin revs.length)},
        ((is.map (nth revs)).Pairwise fun r s => f r < f s) → is.Nodup := fun h =>
      List.Nodup.of_map _ (h.imp fun hlt heq => absurd (heq ▸ hlt) (lt_irrefl _))
    refine nodup_append'.mpr ⟨nodup_append'.mpr ⟨hlt hspec.live_sorted, ?_, ?_⟩, hlt hspec.replays_sorted, ?_⟩
    · exact hlt (f := fun r => OrderDual.toDual r.key) hspec.history_sorted
    · exact fun i hi hi' => ((hhistory i).mp hi').2 ((hlive i).mp hi)
    · intro i hi hi'
      rcases mem_append.mp hi with hi | hi
      · exact ((hlive i).mp hi).1.1.2.2 ((hreplays i).mp hi')
      · exact ((hhistory i).mp hi).1.2.2 ((hreplays i).mp hi')
  refine (perm_ext_iff_of_nodup hnodup ((nodup_finRange _).filter _)).mpr fun i => ?_
  rw [mem_append, mem_append, hlive, hhistory, hreplays, mem_filter]
  constructor
  · rintro ((h | h) | h)
    · exact ⟨mem_finRange i, h.1.1.2.1⟩
    · exact ⟨mem_finRange i, h.1.2.1⟩
    · exact ⟨mem_finRange i, h.1⟩
  · rintro ⟨-, hread⟩
    by_cases hcopy : IsCopy revs (nth revs i)
    · exact .inr hcopy
    · have horiginal : IsOriginal revs (nth revs i) := ⟨get_mem _ _, hread, hcopy⟩
      by_cases hi : IsLive revs (nth revs i)
      · exact .inl (.inl hi)
      · exact .inl (.inr ⟨horiginal, hi⟩)

/-- The fold of the same revisions in another order. -/
theorem exists_fold_of_perm {revs' : List Revision} (hperm : revs.Perm revs') :
    ∃ out', fold revs' = .ok out' ∧ out'.map (nth revs') = out.map (nth revs) := by
  obtain ⟨out', hout', hspec'⟩ := fold_isFold ((hperm.map Revision.key).nodup_iff.mp hkey)
  exact ⟨out', hout', hspec'.unique (hspec.of_perm hperm)⟩

/-- The fold after a copy is written last. -/
theorem exists_fold_copy {r : Revision} (hread : r.readable) (hlater : ∀ s ∈ revs, s.key < r.key)
    (hcopied : ∃ s ∈ revs, s.readable ∧ s.enc = r.enc) : fold (revs ++ [r]) = .ok { out.map (kept revs r) with
      replays := out.replays.map (kept revs r) ++ [added revs r]
      stale := false } := by
  have hkey' : ((revs ++ [r]).map Revision.key).Nodup := by
    rw [map_append, nodup_append']
    refine ⟨hkey, nodup_singleton _, fun k hk hk' => ?_⟩
    obtain ⟨s, hs, rfl⟩ := mem_map.mp hk
    exact (hlater s hs).ne (by simpa using hk')
  obtain ⟨out', hout', hspec'⟩ := fold_isFold hkey'
  have hnth : nth (revs ++ [r]) ∘ kept revs r = nth revs := funext (nth_kept revs r)
  have heq := hspec'.unique (hspec.copy hread hlater hcopied)
  rw [hout']
  refine congrArg Except.ok (Fold.map_injective (nth_injective hkey') (heq.trans ?_))
  simp [Fold.map, hnth, nth_added]

end Fold

/-- The fold does not depend on the order of the revisions, and puts each in one place. A copy written last
changes nothing but the copies exactly when no revision under a key the reader lacks is newer than all the
readable ones: otherwise it turns the warning off. -/
theorem fold_copy (revs : List Revision) (hkey : (revs.map Revision.key).Nodup) :
    ∃ out, fold revs = .ok out ∧
      (∀ revs', revs.Perm revs' → ∃ out', fold revs' = .ok out' ∧ out'.map (nth revs') = out.map (nth revs)) ∧
      ((out.live ++ out.history ++ out.replays).Perm
          ((List.finRange revs.length).filter fun i => (nth revs i).readable) ∧
        out.hidden = revs.countP fun r => !r.readable) ∧
      (out.live.Pairwise fun i j => (nth revs i).tag < (nth revs j).tag) ∧
      (out.history.Pairwise fun i j => (nth revs j).key < (nth revs i).key) ∧
      (∀ i, i ∈ out.replays ↔ IsCopy revs (nth revs i)) ∧
      (∀ i, i ∈ out.live ↔ IsNewest revs (nth revs i) ∧ (nth revs i).unpublished = false) ∧
      ∀ r : Revision, r.readable → (∀ s ∈ revs, s.key < r.key) →
        (∃ s ∈ revs, s.readable ∧ s.enc = r.enc) → ∃ out', fold (revs ++ [r]) = .ok out' ∧
          (out' = { out.map (kept revs r) with replays := out.replays.map (kept revs r) ++ [added revs r] } ↔
            ∀ u ∈ revs, u.noKey → ∃ v ∈ revs, v.readable ∧ u.key ≤ v.key) := by
  obtain ⟨out, hout, hspec⟩ := fold_isFold hkey
  refine ⟨out, hout, fun _ => exists_fold_of_perm hkey hspec, ⟨perm_parts hkey hspec, hspec.hidden⟩,
    by simpa [Fold.map, pairwise_map] using hspec.live_sorted,
    by simpa [Fold.map, pairwise_map] using hspec.history_sorted,
    mem_replays_iff hkey hspec, mem_live_iff hkey hspec, fun r hread hlater hcopied => ?_⟩
  refine ⟨_, exists_fold_copy hkey hspec hread hlater hcopied, ?_⟩
  have hstale : out.stale = false ↔ ∀ u ∈ revs, u.noKey → ∃ v ∈ revs, v.readable ∧ u.key ≤ v.key := by
    have hwarned : out.stale = true ↔ _ := hspec.stale
    rw [← Bool.not_eq_true, hwarned]
    push Not
    rfl
  rw [← hstale]
  simp only [Fold.mk.injEq, true_and, and_true]
  exact eq_comm

/-! ### A run -/

/-- A release, a revision under a key the reader lacks, and a copy of the release. -/
def staleSample : List Revision × Revision :=
  let release : Revision :=
    { id := [1], createdAt := 1, epoch := 0, tagName := "n", opened := .readable { tag := "v1" }, enc := [7] }
  ([release, { release with id := [2], createdAt := 2, epoch := 1, opened := .unreadable .noKey, enc := [8] }],
    { release with id := [3], createdAt := 3 })

/-- A copy of a release turns the warning off. -/
theorem stale_staleSample : (fold staleSample.1).map Fold.stale = .ok true ∧
    (fold (staleSample.1 ++ [staleSample.2])).map Fold.stale = .ok false := by
  decide

theorem fold_copy_staleSample : ∃ out out', fold staleSample.1 = .ok out ∧
    fold (staleSample.1 ++ [staleSample.2]) = .ok out' ∧
    (out' = { out.map (kept _ staleSample.2) with
        replays := out.replays.map (kept _ staleSample.2) ++ [added _ staleSample.2] } ↔
      ∀ u ∈ staleSample.1, u.noKey → ∃ v ∈ staleSample.1, v.readable ∧ u.key ≤ v.key) := by
  obtain ⟨out, hout, -, -, -, -, -, -, hcopy⟩ := fold_copy staleSample.1 (by decide)
  obtain ⟨out', hout', hiff⟩ := hcopy staleSample.2 (by decide) (by decide) (by decide)
  exact ⟨out, out', hout, hout', hiff⟩

end DashForge.Release
