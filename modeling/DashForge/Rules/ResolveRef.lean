import DashForge.Rules.CausalOrder

/-!
# Ref resolution

`resolveRef` folds a ref's updates into its state (`rules.rs`): the valid updates in causal order
(`validUpdates`), then the live heads, that is the tips no later update supersedes (`liveHeads`),
then one head, several or none.

The walk over the updates is `collectHeads`, from the newest to the oldest. An update supersedes a
tip, not a document (`supersedes` reads only the tip of what it supersedes), so the walk may decide
about a tip at its newest setter. `mem_collectHeads_iff` says which heads come out,
`collectHeads_eq_map` in which order, and `head?_collectHeads` that the newest push leads.
-/

namespace DashForge

open List

/-- One live tip, with the update that set it. -/
structure RefHead where
  id : String
  oid : Oid
  author : String
  createdAt : ℕ
deriving DecidableEq, Repr

/-- The resolved state of a ref. -/
inductive RefState where
  /-- No valid update, or the newest one is a deletion. -/
  | unborn
  | resolved (oid : Oid) (author : String) (createdAt : ℕ)
  /-- Two or more tips are live, newest first. -/
  | diverged (heads : List RefHead)
deriving DecidableEq, Repr

/-- The tip a ref points at. -/
def tipOf : RefState → Option Oid
  | .unborn => none
  | .resolved oid _ _ => some oid
  | .diverged heads => heads.head?.map RefHead.oid

/-- The head an update sets. -/
def RefUpdate.toHead (u : RefUpdate) : RefHead := ⟨u.id, u.newOid, u.author, u.createdAt⟩

/-- The valid updates of the ref keyed `refNameHash`, in causal order. -/
def validUpdates (env : RefEnv) (updates : List RefUpdate) (configHistory : List ConfigDoc)
    (refNameHash : String) : List RefUpdate :=
  causalOrder (updates.filter fun u =>
    u.refNameHash == refNameHash && isUpdateValid env u configHistory)

section Heads

variable (isAncestor : Oid → Oid → Bool)

/-- Whether the later update `v` supersedes the tip of `u`. -/
def supersedes (u v : RefUpdate) : Bool :=
  isNullOid v.newOid || v.force || buildsOn v u || isAncestor u.newOid v.newOid

/-- The heads of a causal order, collected from its end: a tip already collected or superseded by
a later update is skipped. -/
def collectHeads : List RefUpdate → List RefHead
  | [] => []
  | u :: later =>
    let heads := collectHeads later
    if isNullOid u.newOid || heads.any fun h => h.oid == u.newOid then heads
    else if later.any (supersedes isAncestor u) then heads
    else heads ++ [u.toHead]

/-- The ref's live heads, newest first. Empty when the ref is unborn or deleted. -/
def liveHeads (env : RefEnv) (updates : List RefUpdate) (configHistory : List ConfigDoc)
    (refNameHash : String) : List RefHead :=
  let valid := validUpdates env updates configHistory refNameHash
  match valid.getLast? with
  | none => []
  | some newest => if isNullOid newest.newOid then [] else collectHeads isAncestor valid

/-- Fold a ref's history into its state. -/
def resolveRef (env : RefEnv) (updates : List RefUpdate) (configHistory : List ConfigDoc)
    (refNameHash : String) : RefState :=
  match liveHeads isAncestor env updates configHistory refNameHash with
  | [] => .unborn
  | [h] => .resolved h.oid h.author h.createdAt
  | heads => .diverged heads

/-! ### What the walk collects -/

/-- `u` is the newest update of `valid` that set its tip, and `later` what follows it. -/
def NewestSetter (valid : List RefUpdate) (u : RefUpdate) (later : List RefUpdate) : Prop :=
  (∃ earlier, valid = earlier ++ u :: later) ∧ ∀ v ∈ later, v.newOid ≠ u.newOid

/-- `u` is a non-null tip that nothing in `later` supersedes. -/
def Live (u : RefUpdate) (later : List RefUpdate) : Prop :=
  isNullOid u.newOid = false ∧ ∀ v ∈ later, supersedes isAncestor u v = false

variable {isAncestor}

variable {u : RefUpdate} {valid : List RefUpdate}

theorem supersedes_congr {u' : RefUpdate} (h : u.newOid = u'.newOid) (v : RefUpdate) :
    supersedes isAncestor u v = supersedes isAncestor u' v := by
  simp [supersedes, buildsOn, h]

variable {later : List RefUpdate} {newest : RefUpdate}

theorem newestSetter_cons {a : RefUpdate} : NewestSetter (a :: valid) u later ↔ NewestSetter valid u later ∨
        (u = a ∧ later = valid ∧ ∀ v ∈ valid, v.newOid ≠ a.newOid) := by
  constructor
  · rintro ⟨⟨earlier, hsplit⟩, hlast⟩
    cases earlier with
    | nil =>
      obtain ⟨rfl, rfl⟩ := List.cons.inj hsplit
      exact .inr ⟨rfl, rfl, hlast⟩
    | cons b earlier => exact .inl ⟨⟨earlier, (List.cons.inj hsplit).2⟩, hlast⟩
  · rintro (⟨⟨earlier, rfl⟩, hlast⟩ | ⟨rfl, rfl, hlast⟩)
    · exact ⟨⟨a :: earlier, rfl⟩, hlast⟩
    · exact ⟨⟨[], rfl⟩, hlast⟩

theorem exists_newestSetter {v : RefUpdate} (hv : v ∈ valid) :
    ∃ u later, NewestSetter valid u later ∧ u.newOid = v.newOid := by
  induction valid generalizing v with
  | nil => simp at hv
  | cons a valid ih =>
    by_cases hex : ∃ w ∈ valid, w.newOid = v.newOid
    · obtain ⟨w, hw, hwv⟩ := hex
      obtain ⟨u, later, hu, huw⟩ := ih hw
      exact ⟨u, later, newestSetter_cons.mpr (.inl hu), huw.trans hwv⟩
    · push Not at hex
      obtain rfl : v = a := (mem_cons.mp hv).resolve_right fun hv' => hex v hv' rfl
      exact ⟨v, valid, newestSetter_cons.mpr (.inr ⟨rfl, rfl, hex⟩), rfl⟩

theorem NewestSetter.mem (h : NewestSetter valid u later) : u ∈ valid ∧ later ⊆ valid := by
  obtain ⟨⟨earlier, rfl⟩, -⟩ := h
  exact ⟨by simp, fun v hv => by simp [hv]⟩

/-- **The heads**: the newest setters that nothing later supersedes. -/
theorem mem_collectHeads_iff {h : RefHead} : h ∈ collectHeads isAncestor valid ↔
      ∃ u later, NewestSetter valid u later ∧ Live isAncestor u later ∧ h = u.toHead := by
  induction valid generalizing h with
  | nil => simp [collectHeads, NewestSetter]
  | cons a valid ih =>
    -- the setters found in the tail, and possibly `a` itself
    have hcons : (∃ u later, NewestSetter (a :: valid) u later ∧ Live isAncestor u later ∧
        h = u.toHead) ↔ h ∈ collectHeads isAncestor valid ∨
          ((∀ v ∈ valid, v.newOid ≠ a.newOid) ∧ Live isAncestor a valid ∧ h = a.toHead) := by
      rw [ih]
      constructor
      · rintro ⟨u, later, hset, hlive, rfl⟩
        rcases newestSetter_cons.mp hset with hset | ⟨rfl, rfl, hlast⟩
        · exact .inl ⟨u, later, hset, hlive, rfl⟩
        · exact .inr ⟨hlast, hlive, rfl⟩
      · rintro (⟨u, later, hset, hlive, rfl⟩ | ⟨hlast, hlive, rfl⟩)
        · exact ⟨u, later, newestSetter_cons.mpr (.inl hset), hlive, rfl⟩
        · exact ⟨a, valid, newestSetter_cons.mpr (.inr ⟨rfl, rfl, hlast⟩), hlive, rfl⟩
    rw [hcons, collectHeads]
    split_ifs with hskip hsup
    · -- a null tip, or one already collected at a newer setter
      refine ⟨.inl, fun hor => hor.resolve_right ?_⟩
      rintro ⟨hlast, hlive, -⟩
      simp only [Bool.or_eq_true, hlive.1, Bool.false_eq_true, false_or, any_eq_true, beq_iff_eq] at hskip
      obtain ⟨g, hg, hoid⟩ := hskip
      obtain ⟨u, later, hset, -, rfl⟩ := ih.mp hg
      exact hlast u hset.mem.1 hoid
    · refine ⟨.inl, fun hor => hor.resolve_right ?_⟩
      rintro ⟨-, hlive, -⟩
      obtain ⟨v, hv, hsv⟩ := any_eq_true.mp hsup
      rw [hlive.2 v hv] at hsv
      exact absurd hsv (by simp)
    · simp only [Bool.or_eq_true, any_eq_true, beq_iff_eq, not_or, not_exists, not_and,
        Bool.not_eq_true] at hskip hsup
      rw [mem_append, mem_singleton]
      refine or_congr_right ⟨fun hh => ⟨fun v hv hva => ?_, ⟨hskip.1, hsup⟩, hh⟩, fun hh => hh.2.2⟩
      -- a newer setter of the same tip would be live as well, so already collected
      obtain ⟨u, later, hset, huv⟩ := exists_newestSetter hv
      have hua : u.newOid = a.newOid := huv.trans hva
      have hlive : Live isAncestor u later :=
        ⟨hua ▸ hskip.1, fun w hw => (supersedes_congr hua w).trans (hsup w (hset.mem.2 hw))⟩
      exact hskip.2 u.toHead (ih.mpr ⟨u, later, hset, hlive, rfl⟩) hua

theorem collectHeads_prefix_cons (a : RefUpdate) (later : List RefUpdate) :
    collectHeads isAncestor later <+: collectHeads isAncestor (a :: later) := by
  rw [collectHeads]
  split_ifs
  · exact prefix_rfl
  · exact prefix_rfl
  · exact prefix_append _ _

/-- Newest first: the heads are set by updates in descending causal order. -/
theorem collectHeads_eq_map (valid : List RefUpdate) : ∃ us : List RefUpdate, us.Sublist valid.reverse ∧
      collectHeads isAncestor valid = us.map RefUpdate.toHead := by
  induction valid with
  | nil => exact ⟨[], nil_sublist _, rfl⟩
  | cons a valid ih =>
    obtain ⟨us, hsub, heq⟩ := ih
    rw [collectHeads, reverse_cons]
    split_ifs
    · exact ⟨us, hsub.trans (sublist_append_left _ _), heq⟩
    · exact ⟨us, hsub.trans (sublist_append_left _ _), heq⟩
    · exact ⟨us ++ [a], hsub.append (List.Sublist.refl _), by rw [heq, map_append]; rfl⟩

/-- Each tip is one head. -/
theorem nodup_oid_collectHeads (valid : List RefUpdate) : ((collectHeads isAncestor valid).map RefHead.oid).Nodup := by
  induction valid with
  | nil => exact nodup_nil
  | cons a valid ih =>
    rw [collectHeads]
    split_ifs with hskip hsup
    · exact ih
    · exact ih
    · rw [map_append, nodup_append]
      refine ⟨ih, nodup_singleton _, ?_⟩
      rintro oid hoid _ hb rfl
      obtain ⟨h, hh, rfl⟩ := mem_map.mp hoid
      rw [map_singleton, mem_singleton] at hb
      refine hskip (Bool.or_eq_true_iff.mpr (.inr (any_eq_true.mpr ⟨h, hh, ?_⟩)))
      exact beq_iff_eq.mpr hb

/-- The newest update leads, unless it is a deletion. -/
theorem head?_collectHeads (hlast : valid.getLast? = some newest) (hnull : isNullOid newest.newOid = false) :
    (collectHeads isAncestor valid).head? = some newest.toHead := by
  induction valid with
  | nil => simp at hlast
  | cons a valid ih =>
    cases valid with
    | nil =>
      obtain rfl : a = newest := by simpa using hlast
      simp [collectHeads, hnull]
    | cons b valid =>
      have hhead := ih (by simpa using hlast)
      obtain ⟨t, ht⟩ := @collectHeads_prefix_cons isAncestor a (b :: valid)
      rw [← ht, head?_append, hhead]
      rfl

/-- A deletion at the end leaves no head. -/
theorem collectHeads_eq_nil (hlast : valid.getLast? = some newest) (hnull : isNullOid newest.newOid = true) :
    collectHeads isAncestor valid = [] := by
  rw [eq_nil_iff_forall_not_mem]
  intro h hh
  obtain ⟨u, later, ⟨⟨earlier, rfl⟩, -⟩, hlive, -⟩ := mem_collectHeads_iff.mp hh
  rw [getLast?_append, getLast?_cons, Option.some_or, Option.some_inj] at hlast
  cases hl : later.getLast? with
  | none =>
    rw [hl, Option.getD_none] at hlast
    have hnot := hlive.1
    rw [hlast, hnull] at hnot
    exact absurd hnot (by simp)
  | some v =>
    rw [hl, Option.getD_some] at hlast
    have := hlive.2 v (mem_of_getLast? hl)
    simp [supersedes, hlast, hnull] at this

end Heads

/-! ### Resolution -/

section Resolve

variable (isAncestor : Oid → Oid → Bool) (env : RefEnv) (us : List RefUpdate)
  (cfgs : List ConfigDoc) (refNameHash : String)

/-- The live heads are what the walk collects: a deletion at the end leaves it nothing. -/
theorem liveHeads_eq_collectHeads : liveHeads isAncestor env us cfgs refNameHash =
    collectHeads isAncestor (validUpdates env us cfgs refNameHash) := by
  rw [liveHeads]
  cases hlast : (validUpdates env us cfgs refNameHash).getLast? with
  | none =>
    rw [getLast?_eq_none_iff] at hlast
    rw [hlast]
    rfl
  | some newest =>
    dsimp only
    split_ifs with hnull
    · rw [collectHeads_eq_nil hlast hnull]
    · rfl

theorem resolveRef_eq_unborn_iff : resolveRef isAncestor env us cfgs refNameHash = .unborn ↔
    liveHeads isAncestor env us cfgs refNameHash = [] := by
  rw [resolveRef]
  split <;> simp_all

theorem exists_resolveRef_eq_diverged_iff : (∃ heads, resolveRef isAncestor env us cfgs refNameHash = .diverged heads) ↔
      2 ≤ (liveHeads isAncestor env us cfgs refNameHash).length := by
  rw [resolveRef]
  match liveHeads isAncestor env us cfgs refNameHash with
  | [] => simp
  | [h] => simp
  | h :: h' :: heads => simp

theorem tipOf_resolveRef : tipOf (resolveRef isAncestor env us cfgs refNameHash) =
    (liveHeads isAncestor env us cfgs refNameHash).head?.map RefHead.oid := by
  rw [resolveRef]
  split <;> simp_all [tipOf]

/-- The order of the updates does not matter to the state of a ref. -/
theorem resolveRef_sortByKey : resolveRef isAncestor env (sortByKey RefUpdate.key us) cfgs refNameHash =
    resolveRef isAncestor env us cfgs refNameHash := by
  have hvalid : validUpdates env (sortByKey RefUpdate.key us) cfgs refNameHash =
      validUpdates env us cfgs refNameHash := by
    rw [validUpdates, ← sortByKey_filter, causalOrder_sortByKey, validUpdates]
  rw [resolveRef, liveHeads, hvalid, resolveRef, liveHeads]

variable {us cfgs} in
theorem validUpdates_eq_of_perm {us' : List RefUpdate} {cfgs' : List ConfigDoc}
    (hus : (us.map RefUpdate.id).Nodup) (hcfgs : (cfgs.map ConfigDoc.id).Nodup)
    (hp : us.Perm us') (hpc : cfgs.Perm cfgs') :
    validUpdates env us cfgs refNameHash = validUpdates env us' cfgs' refNameHash := by
  simp only [validUpdates, isUpdateValid_eq_of_perm env _ hpc hcfgs]
  exact causalOrder_eq_of_perm (hp.filter _) (hus.sublist (filter_sublist.map _))

variable {cfgs refNameHash} in
/-- An update of another ref, or one that validity rejects, takes no part. -/
theorem validUpdates_insert {u : RefUpdate} (hu : u.refNameHash ≠ refNameHash ∨ isUpdateValid env u cfgs = false)
    (us₁ us₂ : List RefUpdate) : validUpdates env (us₁ ++ u :: us₂) cfgs refNameHash =
      validUpdates env (us₁ ++ us₂) cfgs refNameHash := by
  have hdrop : (u.refNameHash == refNameHash && isUpdateValid env u cfgs) = false := by
    rcases hu with hu | hu <;> simp [hu]
  rw [validUpdates, validUpdates, filter_append, filter_append, filter_cons_of_neg (by simp [hdrop])]

/-- **Ref resolution is well defined and never loses the newest push.** (a) The heads and the
state do not depend on the order of the documents, nor on updates that take no part. (b) The
newest valid update decides: a deletion leaves the ref unborn, anything else leads the heads.
(c) The heads are exactly the tips whose newest setter nothing later clears, replaces, builds on
or descends from, each once, newest first. -/
theorem resolveRef_wellDefined (hus : (us.map RefUpdate.id).Nodup)
    (hcfgs : (cfgs.map ConfigDoc.id).Nodup) :
    (∀ us' cfgs', us.Perm us' → cfgs.Perm cfgs' →
      liveHeads isAncestor env us' cfgs' refNameHash =
          liveHeads isAncestor env us cfgs refNameHash ∧
        resolveRef isAncestor env us' cfgs' refNameHash =
          resolveRef isAncestor env us cfgs refNameHash) ∧
    (∀ us₁ u us₂, u.refNameHash ≠ refNameHash ∨ isUpdateValid env u cfgs = false →
      liveHeads isAncestor env (us₁ ++ u :: us₂) cfgs refNameHash =
          liveHeads isAncestor env (us₁ ++ us₂) cfgs refNameHash ∧
        resolveRef isAncestor env (us₁ ++ u :: us₂) cfgs refNameHash =
          resolveRef isAncestor env (us₁ ++ us₂) cfgs refNameHash) ∧
    (∀ newest, (validUpdates env us cfgs refNameHash).getLast? = some newest →
      (isNullOid newest.newOid = true →
        resolveRef isAncestor env us cfgs refNameHash = .unborn) ∧
      (isNullOid newest.newOid = false →
        resolveRef isAncestor env us cfgs refNameHash ≠ .unborn ∧
        (liveHeads isAncestor env us cfgs refNameHash).head? = some newest.toHead ∧
        tipOf (resolveRef isAncestor env us cfgs refNameHash) = some newest.newOid)) ∧
    (∀ oid, (∃ h ∈ liveHeads isAncestor env us cfgs refNameHash, h.oid = oid) ↔
      isNullOid oid = false ∧
      ∃ u later, NewestSetter (validUpdates env us cfgs refNameHash) u later ∧ u.newOid = oid ∧
        ∀ v ∈ later, ¬(isNullOid v.newOid = true ∨ v.force = true ∨ buildsOn v u = true ∨
          isAncestor oid v.newOid = true)) ∧
    ((liveHeads isAncestor env us cfgs refNameHash).map RefHead.oid).Nodup ∧
    (∀ h ∈ liveHeads isAncestor env us cfgs refNameHash, ∃ u later,
      NewestSetter (validUpdates env us cfgs refNameHash) u later ∧ h = u.toHead) ∧
    ∃ setters : List RefUpdate,
      setters.Sublist (validUpdates env us cfgs refNameHash).reverse ∧
      liveHeads isAncestor env us cfgs refNameHash = setters.map RefUpdate.toHead := by
  refine ⟨fun us' cfgs' hp hpc => ?_, fun us₁ u us₂ hu => ?_, fun newest hlast => ⟨?_, ?_⟩,
    fun oid => ?_, ?_, fun h hh => ?_, ?_⟩
  · have hvalid := validUpdates_eq_of_perm env refNameHash hus hcfgs hp hpc
    simp only [resolveRef, liveHeads_eq_collectHeads, hvalid, and_self]
  · have hvalid := validUpdates_insert env hu us₁ us₂
    simp only [resolveRef, liveHeads_eq_collectHeads, hvalid, and_self]
  · intro hnull
    rw [resolveRef_eq_unborn_iff, liveHeads_eq_collectHeads, collectHeads_eq_nil hlast hnull]
  · intro hnull
    have hhead := @head?_collectHeads isAncestor _ _ hlast hnull
    rw [Ne, resolveRef_eq_unborn_iff, tipOf_resolveRef, liveHeads_eq_collectHeads, hhead]
    exact ⟨fun hnil => by simp [hnil] at hhead, rfl, rfl⟩
  · simp only [liveHeads_eq_collectHeads, mem_collectHeads_iff]
    constructor
    · rintro ⟨_, ⟨u, later, hset, hlive, rfl⟩, rfl⟩
      refine ⟨hlive.1, u, later, hset, rfl, fun v hv => ?_⟩
      have hsup := hlive.2 v hv
      simp only [supersedes, Bool.or_eq_false_iff] at hsup
      simp [hsup, RefUpdate.toHead]
    · rintro ⟨hnull, u, later, hset, rfl, hlater⟩
      refine ⟨u.toHead, ⟨u, later, hset, ⟨hnull, fun v hv => ?_⟩, rfl⟩, rfl⟩
      have hsup := hlater v hv
      simp only [not_or, Bool.not_eq_true] at hsup
      simp [supersedes, hsup]
  · rw [liveHeads_eq_collectHeads]
    exact nodup_oid_collectHeads _
  · rw [liveHeads_eq_collectHeads] at hh
    obtain ⟨u, later, hset, -, hhu⟩ := mem_collectHeads_iff.mp hh
    exact ⟨u, later, hset, hhu⟩
  · rw [liveHeads_eq_collectHeads]
    exact collectHeads_eq_map _

end Resolve

/-- Two pushes race from the same tip, in one block. -/
def raceUpdates : List RefUpdate :=
  [⟨"u1", "k", "refs/heads/main", "", "aa", false, false, "ann", 1⟩,
    ⟨"u2", "k", "refs/heads/main", "aa", "bb", false, false, "bob", 2⟩,
    ⟨"u3", "k", "refs/heads/main", "aa", "cc", false, false, "cat", 2⟩]

/-- An environment for keys that are no hashes and histories that protect nothing. -/
def plainEnv : RefEnv := ⟨fun _ => "", fun _ _ => false⟩

theorem resolveRef_raceUpdates_perm : (raceUpdates.map RefUpdate.id).Nodup ∧
    ∀ us', raceUpdates.Perm us' →
      resolveRef (· == ·) plainEnv us' [] "k" = resolveRef (· == ·) plainEnv raceUpdates [] "k" :=
  ⟨by decide, fun us' hp =>
    ((resolveRef_wellDefined (· == ·) plainEnv raceUpdates [] "k" (by decide) (by decide)).1
      us' [] hp (List.Perm.refl _)).2⟩

example : resolveRef (· == ·) plainEnv raceUpdates [] "k" =
    .diverged [⟨"u3", "cc", "cat", 2⟩, ⟨"u2", "bb", "bob", 2⟩] := by decide

end DashForge
