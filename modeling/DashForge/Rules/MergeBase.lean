import DashForge.Rules.Event
import DashForge.Rules.ResolveRef

/-!
# The base a merge is judged against

A merge counts as found on its base when its commit has ever been a valid tip of the base ref
(`rules.rs`, `collab/v2.rs`). `mergeBaseTips` lists those tips, `prBaseTips` withholds them from a
PR whose base was no branch when it was opened, and `patchMergeOnBase` is what a PR's view shows.

Updates are judged as of their own time, and later updates only append to the causal order, so the
history only grows (`validUpdates_of_isUnion`): `mergeOnBase_append_only` says that a merge found on
the base stays found.
-/

namespace DashForge

open List

/-- A PR's base ref as merge verification sees it. -/
structure MergeBaseTips where
  /-- Every commit a valid update has set the ref to, oldest first, each once. -/
  historical : List Oid
  /-- The newest of `historical`. -/
  tip : Option Oid
  /-- Where the ref points now. -/
  current : Option Oid
deriving DecidableEq, Repr

/-- Whether `oid` has been a valid tip of the base. -/
def MergeBaseTips.contains (tips : MergeBaseTips) (oid : Oid) : Bool :=
  tips.historical.any fun t => t == oid

/-- Record the tip an update sets, unless it is null or recorded already. -/
def pushTip (historical : List Oid) (u : RefUpdate) : List Oid :=
  if !isNullOid u.newOid && !historical.contains u.newOid then historical ++ [u.newOid]
  else historical

section Defs

variable (env : RefEnv) (updates : List RefUpdate) (configHistory : List ConfigDoc)
  (refNameHash : String)

/-- The base-ref history a PR merge is verified against. -/
def mergeBaseTips : MergeBaseTips :=
  let valid := validUpdates env updates configHistory refNameHash
  { historical := valid.foldl pushTip []
    tip := (valid.reverse.find? fun u => !isNullOid u.newOid).map RefUpdate.newOid
    current := (valid.getLast?.filter fun u => !isNullOid u.newOid).map RefUpdate.newOid }

/-- The base history a PR opened at `openedAt` is folded against: no tips, when the base was no
branch then. -/
def prBaseTips (openedAt : ℕ) : MergeBaseTips :=
  let tips := mergeBaseTips env updates configHistory refNameHash
  let before := updates.filter fun u => u.createdAt ≤ openedAt
  if (mergeBaseTips env before configHistory refNameHash).current.isSome then tips
  else { tips with historical := [], tip := none }

/-- Every tip the ref has validly pointed at, and the time of its newest valid update. -/
def validTips : Finset Oid × Option ℕ :=
  let valid := validUpdates env updates configHistory refNameHash
  (((valid.filter fun u => !isNullOid u.newOid).map RefUpdate.newOid).toFinset,
    valid.getLast?.map RefUpdate.createdAt)

/-- What a PR's view says of its merge: the base by `prMergeBase`, its tips by `prBaseTips` and the
answer by `prStateV2`, all from the merge transition the reader holds. -/
def patchMergeOnBase (baseRefName : String) (createdAt : ℕ) (transitions : List Transition)
    (events : List Event) : Option Bool :=
  let merge := mergeTransition transitions
  let base := prMergeBase baseRefName createdAt events (merge.map Transition.createdAt)
  let tips := prBaseTips env updates configHistory (env.sha256Hex base.refName) base.since
  (prStateV2 (stateCode transitions) (merge.bind Transition.oid) events tips.tip
    fun oid _ => tips.contains oid).mergeOnBase

end Defs

/-! ### What the tips are -/

theorem prefix_foldl_pushTip (valid : List RefUpdate) (historical : List Oid) :
    historical <+: valid.foldl pushTip historical := by
  induction valid generalizing historical with
  | nil => exact prefix_rfl
  | cons u valid ih =>
    rw [foldl_cons]
    refine List.IsPrefix.trans ?_ (ih _)
    rw [pushTip]
    split_ifs
    · exact prefix_append _ _
    · exact prefix_rfl

theorem mem_foldl_pushTip {valid : List RefUpdate} {historical : List Oid} {oid : Oid} :
    oid ∈ valid.foldl pushTip historical ↔
      oid ∈ historical ∨ ∃ u ∈ valid, isNullOid u.newOid = false ∧ u.newOid = oid := by
  induction valid generalizing historical with
  | nil => simp
  | cons u valid ih =>
    have hpush : oid ∈ pushTip historical u ↔ oid ∈ historical ∨ (isNullOid u.newOid = false ∧ u.newOid = oid) := by
      rw [pushTip]
      split_ifs with h
      · rw [Bool.and_eq_true, Bool.not_eq_true'] at h
        simp [h.1, eq_comm]
      · refine ⟨.inl, fun hor => hor.elim id ?_⟩
        rintro ⟨hnull, rfl⟩
        simpa [hnull] using h
    rw [foldl_cons, ih, hpush, exists_mem_cons_iff, or_assoc]

section Tips

variable {env : RefEnv} {us : List RefUpdate} {cfgs : List ConfigDoc} {refNameHash : String}

theorem contains_mergeBaseTips {oid : Oid} : (mergeBaseTips env us cfgs refNameHash).contains oid = true ↔
      ∃ u ∈ validUpdates env us cfgs refNameHash, isNullOid u.newOid = false ∧ u.newOid = oid := by
  rw [MergeBaseTips.contains, any_beq', mergeBaseTips, contains_iff_mem, mem_foldl_pushTip]
  simp

theorem isSome_tip_mergeBaseTips : (mergeBaseTips env us cfgs refNameHash).tip.isSome = true ↔
    ∃ u ∈ validUpdates env us cfgs refNameHash, isNullOid u.newOid = false := by
  simp [mergeBaseTips]

theorem exists_of_isSome_current (h : (mergeBaseTips env us cfgs refNameHash).current.isSome = true) :
    ∃ u ∈ validUpdates env us cfgs refNameHash, isNullOid u.newOid = false := by
  rw [mergeBaseTips, Option.isSome_map] at h
  obtain ⟨u, hu⟩ := Option.isSome_iff_exists.mp h
  obtain ⟨hlast, hnull⟩ := Option.filter_eq_some_iff.mp hu
  exact ⟨u, mem_of_getLast? hlast, by simpa using hnull⟩

theorem prBaseTips_eq_of_isSome_tip {openedAt : ℕ}
    (h : (prBaseTips env us cfgs refNameHash openedAt).tip.isSome = true) :
    prBaseTips env us cfgs refNameHash openedAt = mergeBaseTips env us cfgs refNameHash := by
  rw [prBaseTips] at h ⊢
  split_ifs at h ⊢
  · rfl
  · simp at h

end Tips

/-! ### A history and what is written after it -/

/-- `all` holds the documents of two lists: one after the other or, ids being distinct, in any
order. -/
def IsUnion {α : Type*} (id : α → String) (l later all : List α) : Prop :=
  all = l ++ later ∨ all.Perm (l ++ later) ∧ (all.map id).Nodup

theorem IsUnion.filter {α : Type*} {id : α → String} {l later all : List α}
    (h : IsUnion id l later all) (p : α → Bool) : IsUnion id (l.filter p) (later.filter p) (all.filter p) := by
  obtain rfl | ⟨hperm, hids⟩ := h
  · exact .inl (filter_append _ _)
  · refine .inr ⟨?_, hids.sublist (filter_sublist.map id)⟩
    rw [← filter_append]
    exact hperm.filter p

section Growth

variable {env : RefEnv} {us later all : List RefUpdate} {cfgs laterCfgs allCfgs : List ConfigDoc}
  {refNameHash : String}

theorem isUpdateValid_of_isUnion (hcfgs : IsUnion ConfigDoc.id cfgs laterCfgs allCfgs)
    {u : RefUpdate} (hu : ∀ c ∈ laterCfgs, u.createdAt < c.createdAt) :
    isUpdateValid env u allCfgs = isUpdateValid env u cfgs := by
  obtain rfl | ⟨hperm, hids⟩ := hcfgs
  · exact isUpdateValid_append env u cfgs hu
  · rw [isUpdateValid_eq_of_perm env u hperm hids, isUpdateValid_append env u cfgs hu]

variable (hus : IsUnion RefUpdate.id us later all)
  (hcfgs : IsUnion ConfigDoc.id cfgs laterCfgs allCfgs)
  (hlater : ∀ u ∈ us, ∀ v ∈ later, u.createdAt < v.createdAt)
  (hlaterCfgs : ∀ u ∈ us, ∀ c ∈ laterCfgs, u.createdAt < c.createdAt)
include hus hcfgs hlater hlaterCfgs

/-- **Growth**: the valid updates of a history stay valid and in their order, and later ones come
after them. -/
theorem validUpdates_of_isUnion : validUpdates env all allCfgs refNameHash =
      validUpdates env us cfgs refNameHash ++ validUpdates env later allCfgs refNameHash := by
  have happend : validUpdates env (us ++ later) allCfgs refNameHash =
      validUpdates env us cfgs refNameHash ++ validUpdates env later allCfgs refNameHash := by
    have hvalid : us.filter (fun u => u.refNameHash == refNameHash &&
        isUpdateValid env u allCfgs) = us.filter fun u => u.refNameHash == refNameHash &&
          isUpdateValid env u cfgs := by
      refine filter_congr fun u hu => ?_
      rw [isUpdateValid_of_isUnion hcfgs (hlaterCfgs u hu)]
    rw [validUpdates, filter_append, hvalid, causalOrder_append]
    · rfl
    · intro u hu v hv
      exact hlater u (mem_of_mem_filter hu) v (mem_of_mem_filter hv)
  obtain rfl | ⟨hperm, hids⟩ := hus
  · exact happend
  · rw [← happend]
    exact causalOrder_eq_of_perm (hperm.filter _) (hids.sublist (filter_sublist.map _))

omit hlater in
theorem current_before_of_isUnion {openedAt : ℕ} (hopened : ∀ v ∈ later, openedAt < v.createdAt) :
    (mergeBaseTips env (all.filter fun u => u.createdAt ≤ openedAt) allCfgs refNameHash).current =
      (mergeBaseTips env (us.filter fun u => u.createdAt ≤ openedAt) cfgs refNameHash).current := by
  have hnil : later.filter (fun u => u.createdAt ≤ openedAt) = [] := by
    rw [filter_eq_nil_iff]
    intro v hv
    simpa using hopened v hv
  have hunion := hus.filter fun u => decide (u.createdAt ≤ openedAt)
  rw [hnil] at hunion
  have hvalid := @validUpdates_of_isUnion env _ _ _ _ _ _ refNameHash hunion hcfgs (by simp)
    fun u hu => hlaterCfgs u (mem_of_mem_filter hu)
  rw [mergeBaseTips, mergeBaseTips, hvalid]
  simp [validUpdates, causalOrder, blocks, sortByKey]

theorem historical_prefix_of_isUnion : (mergeBaseTips env us cfgs refNameHash).historical <+:
      (mergeBaseTips env all allCfgs refNameHash).historical := by
  rw [mergeBaseTips, mergeBaseTips, validUpdates_of_isUnion hus hcfgs hlater hlaterCfgs]
  simp only [foldl_append]
  exact prefix_foldl_pushTip _ _

theorem contains_of_isUnion {oid : Oid} (h : (mergeBaseTips env us cfgs refNameHash).contains oid = true) :
    (mergeBaseTips env all allCfgs refNameHash).contains oid = true := by
  obtain ⟨u, hu, htip⟩ := contains_mergeBaseTips.mp h
  refine contains_mergeBaseTips.mpr ⟨u, ?_, htip⟩
  rw [validUpdates_of_isUnion hus hcfgs hlater hlaterCfgs]
  exact mem_append_left _ hu

theorem isSome_tip_prBaseTips_of_isUnion {openedAt : ℕ} (hopened : ∀ v ∈ later, openedAt < v.createdAt) :
    (prBaseTips env all allCfgs refNameHash openedAt).tip.isSome =
      (prBaseTips env us cfgs refNameHash openedAt).tip.isSome := by
  have hcur := @current_before_of_isUnion env _ _ _ _ _ _ refNameHash hus hcfgs hlaterCfgs
    openedAt hopened
  rw [prBaseTips, prBaseTips, hcur]
  split_ifs with hbranch
  · -- a branch at `openedAt` has had a tip, in the history and in what extends it
    obtain ⟨u, hmem, hnull⟩ := exists_of_isSome_current hbranch
    simp only [validUpdates, mem_causalOrder, mem_filter] at hmem
    have hvalid : u ∈ validUpdates env us cfgs refNameHash :=
      mem_causalOrder.mpr (mem_filter.mpr ⟨hmem.1.1, hmem.2⟩)
    rw [Bool.eq_iff_iff, isSome_tip_mergeBaseTips, isSome_tip_mergeBaseTips,
      validUpdates_of_isUnion hus hcfgs hlater hlaterCfgs]
    exact iff_of_true ⟨u, mem_append_left _ hvalid, hnull⟩ ⟨u, hvalid, hnull⟩
  · rfl

/-- A merge found on the base is found again, whatever the events the state is folded from. -/
theorem mergeOnBase_of_isUnion {openedAt : ℕ} (hopened : ∀ v ∈ later, openedAt < v.createdAt)
    {code : ℤ} {mergeOid : Option Oid} {events events' : List Event}
    (h : (prStateV2 code mergeOid events (prBaseTips env us cfgs refNameHash openedAt).tip
      fun oid _ => (prBaseTips env us cfgs refNameHash openedAt).contains oid).mergeOnBase = some true) :
    (prStateV2 code mergeOid events' (prBaseTips env all allCfgs refNameHash openedAt).tip
      fun oid _ => (prBaseTips env all allCfgs refNameHash openedAt).contains oid).mergeOnBase = some true := by
  obtain ⟨hmerged, oid, tip, hoid, hne, htip, hcontains⟩ := mergeOnBase_prStateV2_eq_some_true.mp h
  have hsome : (prBaseTips env us cfgs refNameHash openedAt).tip.isSome = true := by
    rw [htip]
    rfl
  have hsome' : (prBaseTips env all allCfgs refNameHash openedAt).tip.isSome = true := by
    rw [isSome_tip_prBaseTips_of_isUnion hus hcfgs hlater hlaterCfgs hopened, hsome]
  obtain ⟨tip', htip'⟩ := Option.isSome_iff_exists.mp hsome'
  refine mergeOnBase_prStateV2_eq_some_true.mpr ⟨hmerged, oid, tip', hoid, hne, htip', ?_⟩
  rw [prBaseTips_eq_of_isSome_tip hsome] at hcontains
  rw [prBaseTips_eq_of_isSome_tip hsome']
  exact contains_of_isUnion hus hcfgs hlater hlaterCfgs hcontains

end Growth

/-- The base a merge is judged against is the one the PR was opened with, or a retarget's. -/
theorem since_prMergeBase (openedBase : String) (openedAt : ℕ) (events : List Event) (mergedAt : Option ℕ) :
    (prMergeBase openedBase openedAt events mergedAt).since = openedAt ∨
      ∃ e ∈ events, (prMergeBase openedBase openedAt events mergedAt).since = e.createdAt := by
  rw [prMergeBase]
  split
  · exact .inl rfl
  · rename_i v time hlast
    refine .inr ?_
    obtain ⟨e, he, hbase⟩ := mem_filterMap.mp (mem_of_getLast? hlast)
    obtain ⟨w, hw⟩ := Option.map_eq_some_iff.mp hbase
    simp only [metaLog, mem_filter, mem_sortByKey] at he
    exact ⟨e, he.1.1.1, (congrArg Prod.snd hw.2).symm⟩

/-- **A merge found on its base stays found.** Let a history be extended by any updates and configs
written after it. Then the base's tips are extended at the end, its valid tips only grow, a base is
accepted for a PR opened before the extension exactly when it was, and a PR whose merge was found
on the base has it found still: against any base, and in the PR's own view also when further events
were written after the merge. -/
theorem mergeOnBase_append_only (env : RefEnv) (us later all : List RefUpdate)
    (cfgs laterCfgs allCfgs : List ConfigDoc) (hus : IsUnion RefUpdate.id us later all)
    (hcfgs : IsUnion ConfigDoc.id cfgs laterCfgs allCfgs)
    (hlater : ∀ u ∈ us, ∀ v ∈ later, u.createdAt < v.createdAt)
    (hlaterCfgs : ∀ u ∈ us, ∀ c ∈ laterCfgs, u.createdAt < c.createdAt) :
    (∀ refNameHash, (mergeBaseTips env us cfgs refNameHash).historical <+:
      (mergeBaseTips env all allCfgs refNameHash).historical) ∧
    (∀ refNameHash, (validTips env us cfgs refNameHash).1 ⊆
      (validTips env all allCfgs refNameHash).1) ∧
    (∀ refNameHash openedAt, (∀ v ∈ later, openedAt < v.createdAt) →
      (prBaseTips env all allCfgs refNameHash openedAt).tip.isSome =
        (prBaseTips env us cfgs refNameHash openedAt).tip.isSome ∧
      ∀ code mergeOid events events',
        (prStateV2 code mergeOid events (prBaseTips env us cfgs refNameHash openedAt).tip
          fun oid _ => (prBaseTips env us cfgs refNameHash openedAt).contains oid).mergeOnBase =
            some true →
        (prStateV2 code mergeOid events' (prBaseTips env all allCfgs refNameHash openedAt).tip
          fun oid _ => (prBaseTips env all allCfgs refNameHash openedAt).contains oid).mergeOnBase =
            some true) ∧
    ∀ baseRefName openedAt transitions events laterEvents,
      (∀ v ∈ later, openedAt < v.createdAt) →
      (∀ e ∈ events, ∀ v ∈ later, e.createdAt < v.createdAt) →
      (∀ t, mergeTransition transitions = some t → ∀ e ∈ laterEvents, t.createdAt < e.createdAt) →
      patchMergeOnBase env us cfgs baseRefName openedAt transitions events = some true →
      patchMergeOnBase env all allCfgs baseRefName openedAt transitions (events ++ laterEvents) =
        some true := by
  refine ⟨fun _ => historical_prefix_of_isUnion hus hcfgs hlater hlaterCfgs, ?_, ?_, ?_⟩
  · intro refNameHash oid hoid
    simp only [validTips, mem_toFinset, mem_map, mem_filter] at hoid ⊢
    obtain ⟨u, ⟨hu, hnull⟩, rfl⟩ := hoid
    rw [validUpdates_of_isUnion hus hcfgs hlater hlaterCfgs]
    exact ⟨u, ⟨mem_append_left _ hu, hnull⟩, rfl⟩
  · intro refNameHash openedAt hopened
    exact ⟨isSome_tip_prBaseTips_of_isUnion hus hcfgs hlater hlaterCfgs hopened,
      fun _ _ _ _ h => mergeOnBase_of_isUnion hus hcfgs hlater hlaterCfgs hopened h⟩
  · intro baseRefName openedAt transitions events laterEvents hopened hevents hmerge h
    rw [patchMergeOnBase] at h ⊢
    cases ht : mergeTransition transitions with
    | none =>
      -- without a merge transition there is no commit to look for
      rw [ht] at h
      obtain ⟨-, oid, -, hoid, -⟩ := mergeOnBase_prStateV2_eq_some_true.mp h
      simp at hoid
    | some t =>
      rw [ht] at h
      simp only [Option.map_some] at h ⊢
      rw [prMergeBase_append baseRefName openedAt events (hmerge t ht)]
      refine mergeOnBase_of_isUnion hus hcfgs hlater hlaterCfgs (fun v hv => ?_) h
      rcases since_prMergeBase baseRefName openedAt events (some t.createdAt) with hs | ⟨e, he, hs⟩
      · rw [hs]
        exact hopened v hv
      · rw [hs]
        exact hevents e he v hv

/-- The branch of `raceUpdates` is deleted later. -/
def raceDeleted : List RefUpdate :=
  [⟨"d1", "k", "refs/heads/main", "cc", "", false, false, "cat", 3⟩]

theorem mergeOnBase_raceDeleted :
    (prStateV2 2 (some "bb") [] (prBaseTips plainEnv raceUpdates [] "k" 2).tip fun oid _ =>
      (prBaseTips plainEnv raceUpdates [] "k" 2).contains oid).mergeOnBase = some true ∧
    (prStateV2 2 (some "bb") [] (prBaseTips plainEnv (raceUpdates ++ raceDeleted) [] "k" 2).tip
      fun oid _ => (prBaseTips plainEnv (raceUpdates ++ raceDeleted) [] "k" 2).contains
        oid).mergeOnBase = some true := by
  have hfound : (prStateV2 2 (some "bb") [] (prBaseTips plainEnv raceUpdates [] "k" 2).tip
      fun oid _ => (prBaseTips plainEnv raceUpdates [] "k" 2).contains oid).mergeOnBase =
        some true := by decide
  exact ⟨hfound, ((mergeOnBase_append_only plainEnv raceUpdates raceDeleted _ [] [] []
    (.inl rfl) (.inl rfl) (by decide) (by decide)).2.2.1 "k" 2 (by decide)).2 2 (some "bb") []
      [] hfound⟩

end DashForge
