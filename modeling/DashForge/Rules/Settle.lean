import DashForge.Rules.ResolveRef

/-!
# Settling a diverged ref

There is no compare-and-swap on chain, so a merge of racing heads is recorded as one update per
head, each naming the head it merged in `prevOid` (`settlingPrevOids` of `rules.rs`). Readers hold
no commits and fold with identity ancestry, so only those `prevOid`s supersede the heads.

`resolveRef_settling` is the protocol: when every update has landed the merge is the only head, for
every reader, and until then no head is dropped that no landed update names.
-/

namespace DashForge

open List

/-- Identity ancestry, which every reader folds with. -/
def sameOid (a b : Oid) : Bool := a == b

/-- The `prevOid`s a non-forced move of a ref to `newOid` records, one update each: the live heads
but `newOid` itself. `error` is the first head that `newOid` does not contain. -/
def settlingPrevOids (isAncestor : Oid → Oid → Bool) (heads : List Oid) (newOid : Oid) :
    Except Oid (List Oid) :=
  (heads.filter fun h => h != newOid).mapM fun head =>
    if !isAncestor head newOid then .error head else .ok head

/-- Every head but `newOid` is named, once, in the order of the heads. -/
theorem settlingPrevOids_eq_ok {isAncestor : Oid → Oid → Bool} {heads prevs : List Oid}
    {newOid : Oid} (h : settlingPrevOids isAncestor heads newOid = .ok prevs) :
    prevs = heads.filter fun h => h != newOid := by
  rw [settlingPrevOids] at h
  generalize heads.filter (fun h => h != newOid) = named at h
  induction named generalizing prevs with
  | nil =>
    rw [mapM_nil] at h
    exact (Except.ok.inj h).symm
  | cons head named ih =>
    rw [mapM_cons] at h
    cases hanc : isAncestor head newOid with
    | false =>
      simp only [hanc, Bool.not_false, if_true] at h
      cases h
    | true =>
      simp only [hanc, Bool.not_true, Bool.false_eq_true, if_false] at h
      cases hrest : named.mapM fun head =>
          if !isAncestor head newOid then Except.error head else Except.ok head with
      | error e =>
        rw [hrest] at h
        cases h
      | ok rest =>
        rw [hrest] at h
        rw [← ih hrest]
        exact (Except.ok.inj h).symm

/-! ### Updates that land after a history -/

/-- `v` is a valid, non-forced move of the ref to `newOid`, written after all of `us`. -/
structure Settles (env : RefEnv) (us : List RefUpdate) (cfgs : List ConfigDoc)
    (refNameHash : String) (newOid : Oid) (v : RefUpdate) : Prop where
  refNameHash_eq : v.refNameHash = refNameHash
  isValid : isUpdateValid env v cfgs = true
  not_force : v.force = false
  newOid_eq : v.newOid = newOid
  later : ∀ u ∈ us, u.createdAt < v.createdAt

section Landed

variable {env : RefEnv} {us landed : List RefUpdate} {cfgs : List ConfigDoc}
  {refNameHash : String} {newOid : Oid}

/-- Later valid updates only append to the causal order. -/
theorem validUpdates_append_of_settles (hl : ∀ v ∈ landed, Settles env us cfgs refNameHash newOid v) :
    validUpdates env (us ++ landed) cfgs refNameHash = validUpdates env us cfgs refNameHash ++ causalOrder landed := by
  have hkeep : landed.filter (fun u => u.refNameHash == refNameHash &&
      isUpdateValid env u cfgs) = landed := by
    refine filter_eq_self.mpr fun v hv => ?_
    rw [(hl v hv).refNameHash_eq, (hl v hv).isValid, beq_self_eq_true]
    rfl
  rw [validUpdates, filter_append, hkeep, causalOrder_append]
  · rfl
  · intro u hu v hv
    exact (hl v hv).later u (mem_of_mem_filter hu)

theorem newestSetter_append {valid more later : List RefUpdate} {u : RefUpdate} :
    NewestSetter (valid ++ more) u later ↔ NewestSetter more u later ∨
      ∃ later', later = later' ++ more ∧ NewestSetter valid u later' ∧ ∀ v ∈ more, v.newOid ≠ u.newOid := by
  induction valid with
  | nil => simp [NewestSetter]
  | cons a valid ih =>
    rw [cons_append, newestSetter_cons, ih]
    constructor
    · rintro ((hmore | ⟨later', rfl, hset, hlast⟩) | ⟨rfl, rfl, hlast⟩)
      · exact .inl hmore
      · exact .inr ⟨later', rfl, newestSetter_cons.mpr (.inl hset), hlast⟩
      · refine .inr ⟨valid, rfl, newestSetter_cons.mpr (.inr ⟨rfl, rfl, ?_⟩), ?_⟩
        · exact fun v hv => hlast v (mem_append_left _ hv)
        · exact fun v hv => hlast v (mem_append_right _ hv)
    · rintro (hmore | ⟨later', rfl, hset, hlast⟩)
      · exact .inl (.inl hmore)
      · rcases newestSetter_cons.mp hset with hset | ⟨rfl, rfl, hlast'⟩
        · exact .inl (.inr ⟨later', rfl, hset, hlast⟩)
        · refine .inr ⟨rfl, rfl, fun v hv => ?_⟩
          exact (mem_append.mp hv).elim (hlast' v) (hlast v)

theorem supersedes_of_settles {u v : RefUpdate} (hnew : isNullOid newOid = false)
    (hv : Settles env us cfgs refNameHash newOid v) (hu : isNullOid u.newOid = false) (hne : u.newOid ≠ newOid) :
    supersedes sameOid u v = true ↔ v.prevOid = u.newOid := by
  have hbuilds : buildsOn v u = true ↔ v.prevOid = u.newOid := by
    simp only [buildsOn, Bool.and_eq_true, Bool.not_eq_true', beq_iff_eq, bne_iff_ne, hv.newOid_eq]
    exact ⟨fun h => h.1.2, fun h => ⟨⟨h ▸ hu, h⟩, hne.symm⟩⟩
  have hsame : sameOid u.newOid newOid = false := by
    rw [sameOid, beq_eq_false_iff_ne]
    exact hne
  rw [supersedes, hv.newOid_eq, hnew, hv.not_force, hsame, Bool.false_or, Bool.false_or, Bool.or_false, hbuilds]

/-- A head that no landed update names, and that is not the new tip, stays live. -/
theorem mem_liveHeads_append (hnew : isNullOid newOid = false)
    (hl : ∀ v ∈ landed, Settles env us cfgs refNameHash newOid v) {h : RefHead}
    (hh : h ∈ liveHeads sameOid env us cfgs refNameHash)
    (hnamed : ∀ v ∈ landed, v.prevOid ≠ h.oid) (hne : h.oid ≠ newOid) :
    h ∈ liveHeads sameOid env (us ++ landed) cfgs refNameHash := by
  rw [liveHeads_eq_collectHeads, mem_collectHeads_iff] at hh
  obtain ⟨u, later, hset, hlive, rfl⟩ := hh
  rw [liveHeads_eq_collectHeads, validUpdates_append_of_settles hl, mem_collectHeads_iff]
  refine ⟨u, later ++ causalOrder landed, newestSetter_append.mpr (.inr ⟨later, rfl, hset, ?_⟩),
    ⟨hlive.1, fun v hv => ?_⟩, rfl⟩
  · intro v hv
    rw [(hl v (mem_causalOrder.mp hv)).newOid_eq]
    exact hne.symm
  · rcases mem_append.mp hv with hv | hv
    · exact hlive.2 v hv
    · have hv' := mem_causalOrder.mp hv
      rw [← Bool.not_eq_true, supersedes_of_settles hnew (hl v hv') hlive.1 hne]
      exact hnamed v hv'

variable (hnew : isNullOid newOid = false) (hl : ∀ v ∈ landed, Settles env us cfgs refNameHash newOid v)
  (hne : landed ≠ []) (hnamed : ∀ h ∈ liveHeads sameOid env us cfgs refNameHash, h.oid ≠ newOid →
    ∃ v ∈ landed, v.prevOid = h.oid)

include hnew hl hne hnamed in
theorem oid_eq_of_mem_liveHeads_append {h : RefHead}
    (hh : h ∈ liveHeads sameOid env (us ++ landed) cfgs refNameHash) : h.oid = newOid := by
  rw [liveHeads_eq_collectHeads, validUpdates_append_of_settles hl, mem_collectHeads_iff] at hh
  obtain ⟨u, later, hset, hlive, rfl⟩ := hh
  rcases newestSetter_append.mp hset with hset | ⟨later', rfl, hset, hlast⟩
  · exact (hl u (mem_causalOrder.mp hset.mem.1)).newOid_eq
  · -- an older tip would be a head of the history, and a landed update names it
    exfalso
    obtain ⟨w, hw⟩ := exists_mem_of_ne_nil landed hne
    have hune : u.newOid ≠ newOid := by
      rw [← (hl w hw).newOid_eq]
      exact (hlast w (mem_causalOrder.mpr hw)).symm
    have hhead : u.toHead ∈ liveHeads sameOid env us cfgs refNameHash := by
      rw [liveHeads_eq_collectHeads, mem_collectHeads_iff]
      exact ⟨u, later', hset, ⟨hlive.1, fun v hv => hlive.2 v (mem_append_left _ hv)⟩, rfl⟩
    obtain ⟨v, hv, hprev⟩ := hnamed u.toHead hhead hune
    have hsup := (supersedes_of_settles hnew (hl v hv) hlive.1 hune).mpr hprev
    rw [hlive.2 v (mem_append_right _ (mem_causalOrder.mpr hv))] at hsup
    exact absurd hsup (by simp)

include hnew hl hne hnamed in
theorem resolveRef_eq_resolved :
    ∃ v ∈ landed, resolveRef sameOid env (us ++ landed) cfgs refNameHash = .resolved newOid v.author v.createdAt := by
  have hvalid := validUpdates_append_of_settles hl
  have hne' : causalOrder landed ≠ [] := by
    intro hnil
    exact hne (nil_perm.mp (hnil ▸ perm_causalOrder landed))
  obtain ⟨v, hlast⟩ : ∃ v, (causalOrder landed).getLast? = some v :=
    ⟨_, getLast?_eq_some_getLast hne'⟩
  have hv : v ∈ landed := mem_causalOrder.mp (mem_of_getLast? hlast)
  have hhead : (liveHeads sameOid env (us ++ landed) cfgs refNameHash).head? = some v.toHead := by
    rw [liveHeads_eq_collectHeads, hvalid]
    refine head?_collectHeads ?_ (by rw [(hl v hv).newOid_eq, hnew])
    rw [getLast?_append, hlast, Option.some_or]
  have hoid := fun h => @oid_eq_of_mem_liveHeads_append _ _ _ _ _ _ hnew hl hne hnamed h
  have hnodup : ((liveHeads sameOid env (us ++ landed) cfgs refNameHash).map
      RefHead.oid).Nodup := by
    rw [liveHeads_eq_collectHeads]
    exact nodup_oid_collectHeads _
  refine ⟨v, hv, ?_⟩
  rw [resolveRef]
  cases hheads : liveHeads sameOid env (us ++ landed) cfgs refNameHash with
  | nil => simp [hheads] at hhead
  | cons h heads =>
    cases heads with
    | nil =>
      obtain rfl : h = v.toHead := by simpa [hheads] using hhead
      simp [RefUpdate.toHead, (hl v hv).newOid_eq]
    | cons h' heads =>
      rw [hheads] at hoid hnodup
      have hsame : h.oid = h'.oid := (hoid h (by simp)).trans (hoid h' (by simp)).symm
      simp [hsame] at hnodup

end Landed

/-- **Settling works for every reader.** When an update has landed for each of
`settlingPrevOids`, in any order and at any later times, the ref resolves to `newOid` alone. While
only some have landed, a head that none of them names, other than `newOid`, is still live. -/
theorem resolveRef_settling (env : RefEnv) (us : List RefUpdate) (cfgs : List ConfigDoc)
    (refNameHash : String) (isAncestor : Oid → Oid → Bool) (newOid : Oid) (prevs : List Oid)
    (hnew : isNullOid newOid = false)
    (hok : settlingPrevOids isAncestor
      ((liveHeads sameOid env us cfgs refNameHash).map RefHead.oid) newOid = .ok prevs)
    (hprevs : prevs ≠ []) :
    ∀ landed : List RefUpdate, (∀ v ∈ landed, Settles env us cfgs refNameHash newOid v) →
      ((landed.map RefUpdate.prevOid).Perm prevs →
        ∃ v ∈ landed, resolveRef sameOid env (us ++ landed) cfgs refNameHash =
          .resolved newOid v.author v.createdAt) ∧
      (∀ h ∈ liveHeads sameOid env us cfgs refNameHash,
        h.oid ∉ landed.map RefUpdate.prevOid → h.oid ≠ newOid →
          h ∈ liveHeads sameOid env (us ++ landed) cfgs refNameHash) := by
  intro landed hl
  refine ⟨fun hperm => ?_, fun h hh hnamed hne => ?_⟩
  · refine resolveRef_eq_resolved hnew hl ?_ fun h hh hne => ?_
    · rintro rfl
      exact hprevs (nil_perm.mp hperm)
    · have hmem : h.oid ∈ prevs := by
        rw [settlingPrevOids_eq_ok hok, mem_filter]
        exact ⟨mem_map_of_mem hh, by simpa using hne⟩
      exact mem_map.mp (hperm.mem_iff.mpr hmem)
  · refine mem_liveHeads_append hnew hl hh (fun v hv hprev => ?_) hne
    exact hnamed (hprev ▸ mem_map_of_mem hv)

/-- Two updates that settle `raceUpdates` with the merge `dd`, in one block. -/
def raceSettled : List RefUpdate :=
  [⟨"s1", "k", "refs/heads/main", "bb", "dd", false, false, "ann", 3⟩,
    ⟨"s2", "k", "refs/heads/main", "cc", "dd", false, false, "ann", 3⟩]

theorem resolveRef_settling_raceUpdates :
    settlingPrevOids (fun _ _ => true)
      ((liveHeads sameOid plainEnv raceUpdates [] "k").map RefHead.oid) "dd" =
        .ok ["cc", "bb"] ∧
    ∃ v ∈ raceSettled, resolveRef sameOid plainEnv (raceUpdates ++ raceSettled) [] "k" =
      .resolved "dd" v.author v.createdAt := by
  refine ⟨by decide, ?_⟩
  refine (resolveRef_settling plainEnv raceUpdates [] "k" (fun _ _ => true) "dd" ["cc", "bb"]
    (by decide) (by decide) (by decide) raceSettled ?_).1 (by decide)
  intro v hv
  simp only [raceSettled, mem_cons, not_mem_nil, or_false] at hv
  rcases hv with rfl | rfl <;>
    exact ⟨rfl, by decide, rfl, rfl, by decide⟩

end DashForge
