import DashForge.Data.BigEndian
import DashForge.Data.SortBy
import DashForge.Pack.Entry
import Mathlib.Data.Finset.Basic

/-!
# Epoch anchors

Which epochs of a private repository exist (`private/epoch.rs`). The anchor of an epoch is the first
config for it by a current maintainer, in the order of block height and id, that comes after the key
of the epoch below was first stated by anyone. `anchorTurns` is the loop of `selectAnchors`, one turn
for each epoch that exists.

The result is fixed history (`selectAnchors_fixed`): it does not depend on the order of the input,
later configs only add epochs at the top, and a re-anchor that repeats a removed maintainer's
commitment changes no epoch.
-/

namespace DashForge

open List Option

/-- A `config` document. -/
structure ConfigRow where
  id : Bytes
  owner : Bytes
  epoch : ℕ
  createdAtBlockHeight : ℕ
  enc : Bytes
deriving DecidableEq, Repr

/-- The network-set order of configs. -/
def ConfigRow.order (c : ConfigRow) : ℕ ×ₗ Bytes := toLex (c.createdAtBlockHeight, c.id)

/-- The `enc` version of a config. -/
def v2 : UInt8 := 0x02

/-- The smallest v0x02 `enc`: version, commitment, nonce and tag. -/
def minV2 : ℕ := 1 + 32 + 12 + 16

/-- One existing epoch's anchor. -/
structure Anchor where
  id : Bytes
  owner : Bytes
  height : ℕ
  /-- The commitment its `enc` carries. -/
  commit : Option Bytes
  /-- When the epoch's key was first stated. -/
  statedHeight : ℕ
deriving DecidableEq, Repr

def anchorOf (c : ConfigRow) : Anchor where
  id := c.id
  owner := c.owner
  height := c.createdAtBlockHeight
  commit := if c.enc.length ≥ minV2 ∧ c.enc.head? = some v2 then some ((c.enc.take 33).drop 1)
    else none
  statedHeight := c.createdAtBlockHeight

/-- The configs for `e` that state a key, in order. -/
def byEpoch (configs : List ConfigRow) (e : ℕ) : List ConfigRow :=
  sortByKey ConfigRow.order (configs.filter fun c => !c.enc.isEmpty && c.epoch == e)

/-- The configs of epoch `e` that come after `stated`. -/
def validAfter (configs : List ConfigRow) (e : ℕ) (stated : Option (ℕ ×ₗ Bytes)) :
    List ConfigRow :=
  (byEpoch configs e).filter fun c => stated.all fun b => decide (b < c.order)

/-- One turn of the loop over epochs: the configs that may anchor the epoch, its anchor, and the
first config that states the anchor's key. -/
structure AnchorTurn where
  epoch : ℕ
  valid : List ConfigRow
  anchor : ConfigRow
  first : ConfigRow
deriving DecidableEq, Repr

/-- The first of `valid` that carries the anchor's commitment, or the anchor. -/
def firstStated (valid : List ConfigRow) (anchor : ConfigRow) : ConfigRow :=
  let commit := (anchorOf anchor).commit
  (valid.find? fun c => commit.isSome && (anchorOf c).commit == commit).getD anchor

/-- The turns from epoch `e` on, the key of the epoch below stated at `stated`; at most `room`. -/
def anchorTurns (configs : List ConfigRow) (maintainers : Finset Bytes) :
    ℕ → ℕ → Option (ℕ ×ₗ Bytes) → List AnchorTurn
  | 0, _, _ => []
  | room + 1, e, stated =>
    let valid := validAfter configs e stated
    match valid.find? fun c => decide (c.owner ∈ maintainers) with
    | none => []
    | some anchor =>
      let first := firstStated valid anchor
      ⟨e, valid, anchor, first⟩ :: anchorTurns configs maintainers room (e + 1) (some first.order)

/-- Every turn, over all epoch numbers. -/
def allTurns (configs : List ConfigRow) (maintainers : Finset Bytes) : List AnchorTurn :=
  anchorTurns configs maintainers (2 ^ 32) 0 none

/-- The epochs some config states a key for, the keys of the source's `by_epoch`. -/
def namedEpochs (configs : List ConfigRow) : List ℕ :=
  (configs.filter fun c => !c.enc.isEmpty).map ConfigRow.epoch

/-- The first config by a current maintainer of an epoch. -/
def firstByMaintainer (configs : List ConfigRow) (maintainers : Finset Bytes) (e : ℕ) :
    Option ConfigRow :=
  (byEpoch configs e).find? fun c => decide (c.owner ∈ maintainers)

/-- The anchors by epoch, each with the height its key was stated at, and the first config of every
other epoch a current maintainer named. -/
def selectAnchors (configs : List ConfigRow) (maintainers : Finset Bytes) :
    List (ℕ × ConfigRow × ℕ) × List ConfigRow :=
  let anchors := (allTurns configs maintainers).map fun t =>
    (t.epoch, t.anchor, t.first.createdAtBlockHeight)
  let gaps := ((sortedDistinct (namedEpochs configs)).filter fun e =>
    !(anchors.map Prod.fst).contains e).filterMap (firstByMaintainer configs maintainers)
  (anchors, gaps)

/-! ### One turn -/

section

variable {configs : List ConfigRow} {maintainers : Finset Bytes}

/-- What one turn does: its valid configs are those after `stated`, its anchor is the first of them
by a current maintainer, and its key is stated by the first with the anchor's commitment. -/
structure IsTurn (configs : List ConfigRow) (maintainers : Finset Bytes) (e : ℕ)
    (stated : Option (ℕ ×ₗ Bytes)) (t : AnchorTurn) : Prop where
  epoch : t.epoch = e
  valid : t.valid = validAfter configs e stated
  anchor : t.valid.find? (fun c => decide (c.owner ∈ maintainers)) = some t.anchor
  first : t.first = firstStated t.valid t.anchor

variable (configs maintainers) in
theorem anchorTurns_succ_cases (room e : ℕ) (stated : Option (ℕ ×ₗ Bytes)) :
    (anchorTurns configs maintainers (room + 1) e stated = [] ∧
      ∀ c ∈ validAfter configs e stated, c.owner ∉ maintainers) ∨ ∃ t, IsTurn configs maintainers e stated t ∧
      anchorTurns configs maintainers (room + 1) e stated =
        t :: anchorTurns configs maintainers room (e + 1) (some t.first.order) := by
  cases hfind : (validAfter configs e stated).find? fun c => decide (c.owner ∈ maintainers) with
  | none =>
    refine .inl ⟨by simp only [anchorTurns, hfind], fun c hc => ?_⟩
    simpa using find?_eq_none.mp hfind c hc
  | some anchor =>
    refine .inr ⟨⟨e, validAfter configs e stated, anchor,
      firstStated (validAfter configs e stated) anchor⟩, ⟨rfl, rfl, hfind, rfl⟩, ?_⟩
    simp [anchorTurns, hfind]

variable {valid : List ConfigRow} {anchor c : ConfigRow}

theorem firstStated_append (h : anchor ∈ valid)
    (later : List ConfigRow) : firstStated (valid ++ later) anchor = firstStated valid anchor := by
  simp only [firstStated, find?_append]
  cases hfind : valid.find? fun c =>
      (anchorOf anchor).commit.isSome && (anchorOf c).commit == (anchorOf anchor).commit with
  | some c => rfl
  | none =>
    have hno : (anchorOf anchor).commit.isSome = false := by
      simpa using find?_eq_none.mp hfind anchor h
    have hlater : later.find? (fun c => false && (anchorOf c).commit == (anchorOf anchor).commit) =
        none := find?_eq_none.mpr (by simp)
    rw [hno, hlater, or_none]

theorem firstStated_eq_of_commit {a b : ConfigRow} {k : Bytes}
    (ha : (anchorOf a).commit = some k) (hb : (anchorOf b).commit = some k) (hmem : b ∈ valid) :
    firstStated valid a = firstStated valid b := by
  simp only [firstStated, ha, hb]
  cases hfind : valid.find? fun c => (some k).isSome && (anchorOf c).commit == some k with
  | some c => rfl
  | none => simpa [hb] using find?_eq_none.mp hfind b hmem

variable {e : ℕ} {stated : Option (ℕ ×ₗ Bytes)} {t : AnchorTurn} {configs' : List ConfigRow}

theorem mem_byEpoch : c ∈ byEpoch configs e ↔ c ∈ configs ∧ c.enc ≠ [] ∧ c.epoch = e := by
  simp [byEpoch]

theorem mem_validAfter : c ∈ validAfter configs e stated ↔
      (c ∈ configs ∧ c.enc ≠ [] ∧ c.epoch = e) ∧ ∀ b ∈ stated, b < c.order := by
  simp [validAfter, mem_byEpoch, Option.all_eq_true]

theorem IsTurn.anchor_mem (h : IsTurn configs maintainers e stated t) : t.anchor ∈ validAfter configs e stated :=
  h.valid ▸ mem_of_find?_eq_some h.anchor

theorem IsTurn.owner_mem (h : IsTurn configs maintainers e stated t) : t.anchor.owner ∈ maintainers := by
  simpa using find?_some h.anchor

/-- When another pool of configs has an anchor at the same place, its turn is there. -/
theorem anchorTurns_succ_of_find {room : ℕ}
    (h : (validAfter configs e stated).find? (fun c => decide (c.owner ∈ maintainers)) = some anchor) :
    anchorTurns configs maintainers (room + 1) e stated =
      ⟨e, validAfter configs e stated, anchor, firstStated (validAfter configs e stated) anchor⟩ ::
        anchorTurns configs maintainers room (e + 1)
          (some (firstStated (validAfter configs e stated) anchor).order) := by
  simp [anchorTurns, h]

/-! ### Every turn -/

/-- When the key of the epoch below `i` was stated. -/
def statedBelow (turns : List AnchorTurn) : ℕ → Option (ℕ ×ₗ Bytes)
  | 0 => none
  | i + 1 => turns[i]?.map fun t => t.first.order

variable (configs maintainers) in
theorem anchorTurns_epochs (room e : ℕ) (stated : Option (ℕ ×ₗ Bytes)) :
    ∃ n ≤ room, (anchorTurns configs maintainers room e stated).map AnchorTurn.epoch = List.range' e n := by
  induction room generalizing e stated with
  | zero => exact ⟨0, le_rfl, rfl⟩
  | succ room ih =>
    rcases anchorTurns_succ_cases configs maintainers room e stated with ⟨hnil, -⟩ | ⟨t, ht, hcons⟩
    · exact ⟨0, Nat.zero_le _, by simp [hnil]⟩
    · obtain ⟨n, hn, hmap⟩ := ih (e + 1) (some t.first.order)
      refine ⟨n + 1, by omega, ?_⟩
      rw [hcons, map_cons, hmap, ht.epoch, range'_succ]

/-- The turn of each epoch is the one its rule names, the key below stated in the turn before. -/
theorem isTurn_of_getElem? (room e : ℕ) (stated : Option (ℕ ×ₗ Bytes)) {i : ℕ}
    (h : (anchorTurns configs maintainers room e stated)[i]? = some t) : IsTurn configs maintainers (e + i)
      (if i = 0 then stated else statedBelow (anchorTurns configs maintainers room e stated) i) t := by
  induction room generalizing e stated i with
  | zero => simp [anchorTurns] at h
  | succ room ih =>
    rcases anchorTurns_succ_cases configs maintainers room e stated with ⟨hnil, -⟩ | ⟨t', ht', hcons⟩
    · simp [hnil] at h
    · rw [hcons] at h ⊢
      cases i with
      | zero =>
        obtain rfl : t' = t := by simpa using h
        simpa using ht'
      | succ i =>
        have hi := ih (e + 1) (some t'.first.order) (i := i) (by simpa using h)
        cases i with
        | zero => simpa [statedBelow, add_assoc] using hi
        | succ i => simpa [statedBelow, add_assoc, add_comm 1] using hi

theorem anchorTurns_congr (h : ∀ e, byEpoch configs e = byEpoch configs' e) (room e : ℕ)
    (stated : Option (ℕ ×ₗ Bytes)) : anchorTurns configs maintainers room e stated =
      anchorTurns configs' maintainers room e stated := by
  induction room generalizing e stated with
  | zero => rfl
  | succ room ih => simp only [anchorTurns, validAfter, h, ih]

theorem byEpoch_eq_of_perm (hids : (configs.map ConfigRow.id).Nodup)
    (hp : configs'.Perm configs) (e : ℕ) : byEpoch configs' e = byEpoch configs e := by
  refine sortByKey_eq_of_perm _ (hp.filter _) fun a ha b hb hab => ?_
  have hmem : ∀ c, c ∈ configs'.filter (fun c => !c.enc.isEmpty && c.epoch == e) → c ∈ configs :=
    fun c hc => hp.mem_iff.mp (mem_of_mem_filter hc)
  have hid : a.id = b.id := congrArg (fun o => (ofLex o).2) hab
  exact inj_on_of_nodup_map hids (hmem a ha) (hmem b hb) hid

theorem selectAnchors_eq_of_perm (hids : (configs.map ConfigRow.id).Nodup) (hp : configs'.Perm configs) :
    selectAnchors configs' maintainers = selectAnchors configs maintainers := by
  have hby := byEpoch_eq_of_perm hids hp
  have hepochs : sortedDistinct (namedEpochs configs') = sortedDistinct (namedEpochs configs) :=
    sortByKey_eq_of_perm _ (((hp.filter _).map _).dedup) (Function.injective_id.injOn)
  have hfirst : firstByMaintainer configs' maintainers = firstByMaintainer configs maintainers := by
    funext e
    rw [firstByMaintainer, hby, firstByMaintainer]
  simp [selectAnchors, allTurns, hepochs, hfirst, anchorTurns_congr hby]

/-! ### Later configs -/

section Later

variable {later : List ConfigRow}

variable (h : ∀ c ∈ configs, ∀ d ∈ later, c.order < d.order)

include h in
theorem byEpoch_append (e : ℕ) :
    byEpoch (configs ++ later) e = byEpoch configs e ++ byEpoch later e := by
  rw [byEpoch, filter_append]
  refine sortByKey_append _ fun c hc d hd => (h c ?_ d ?_).le
  · exact mem_of_mem_filter hc
  · exact mem_of_mem_filter hd

include h in
theorem validAfter_append (e : ℕ) (stated : Option (ℕ ×ₗ Bytes)) :
    validAfter (configs ++ later) e stated = validAfter configs e stated ++ validAfter later e stated := by
  rw [validAfter, byEpoch_append h, filter_append, validAfter, validAfter]

/-- What a turn decides. -/
def AnchorTurn.decided (t : AnchorTurn) : ℕ × ConfigRow × ConfigRow := (t.epoch, t.anchor, t.first)

include h in
/-- Later configs keep every turn. -/
theorem prefix_anchorTurns (room e : ℕ)
    (stated : Option (ℕ ×ₗ Bytes)) : (anchorTurns configs maintainers room e stated).map AnchorTurn.decided <+:
      (anchorTurns (configs ++ later) maintainers room e stated).map AnchorTurn.decided := by
  induction room generalizing e stated with
  | zero => exact List.nil_prefix
  | succ room ih =>
    cases hfind : (validAfter configs e stated).find? fun c => decide (c.owner ∈ maintainers) with
    | none => simp [anchorTurns, hfind]
    | some anchor =>
      have hmem := mem_of_find?_eq_some hfind
      have hfind' : (validAfter (configs ++ later) e stated).find?
          (fun c => decide (c.owner ∈ maintainers)) = some anchor := by
        rw [validAfter_append h, find?_append, hfind, some_or]
      rw [anchorTurns_succ_of_find hfind, anchorTurns_succ_of_find hfind', validAfter_append h, firstStated_append hmem]
      exact prefix_cons_inj _ |>.mpr (ih _ _)

variable (hout : ∀ d ∈ later, d.owner ∉ maintainers)

include hout in
include h in
theorem anchorTurns_outsiders (room e : ℕ) (stated : Option (ℕ ×ₗ Bytes)) :
    (anchorTurns (configs ++ later) maintainers room e stated).map AnchorTurn.decided =
      (anchorTurns configs maintainers room e stated).map AnchorTurn.decided := by
  induction room generalizing e stated with
  | zero => rfl
  | succ room ih =>
    have hlater : (validAfter later e stated).find? (fun c => decide (c.owner ∈ maintainers)) =
        none := by
      refine find?_eq_none.mpr fun d hd => ?_
      simpa using hout d (mem_validAfter.mp hd).1.1
    have hboth : (validAfter (configs ++ later) e stated).find?
        (fun c => decide (c.owner ∈ maintainers)) =
          (validAfter configs e stated).find? (fun c => decide (c.owner ∈ maintainers)) := by
      rw [validAfter_append h, find?_append, hlater, or_none]
    cases hfind : (validAfter configs e stated).find? fun c => decide (c.owner ∈ maintainers) with
    | none => simp [anchorTurns, hboth, hfind]
    | some anchor =>
      have hmem := mem_of_find?_eq_some hfind
      rw [anchorTurns_succ_of_find hfind, anchorTurns_succ_of_find (hboth.trans hfind),
        validAfter_append h, firstStated_append hmem]
      exact congrArg (List.cons _) (ih _ _)

/-- The decided anchors are what `selectAnchors` lists. -/
theorem selectAnchors_fst : (selectAnchors configs maintainers).1 = ((allTurns configs maintainers).map
      AnchorTurn.decided).map fun d => (d.1, d.2.1, d.2.2.createdAtBlockHeight) := by
  simp only [selectAnchors, List.map_map]
  rfl

theorem sortedDistinct_append_filter (l₁ l₂ : List ℕ) :
    (sortedDistinct (l₁ ++ l₂)).filter (· ∈ l₁) = sortedDistinct l₁ := by
  refine List.Perm.eq_of_pairwise (fun a b _ _ hab hba => absurd hab (lt_asymm hba)) ?_
    (pairwise_sortedDistinct l₁) ?_
  · exact (pairwise_sortedDistinct _).filter _
  · refine (perm_ext_iff_of_nodup ((nodup_sortedDistinct _).filter _)
      (nodup_sortedDistinct _)).mpr fun a => ?_
    simp only [mem_filter, mem_sortedDistinct, mem_append, decide_eq_true_eq]
    tauto

theorem filterMap_filter_of_none {α β : Type*} {f : α → Option β} {p : α → Bool} {l : List α}
    (h : ∀ a ∈ l, p a = false → f a = none) : (l.filter p).filterMap f = l.filterMap f := by
  induction l with
  | nil => rfl
  | cons a l ih =>
    have ih' := ih fun b hb => h b (mem_cons_of_mem a hb)
    by_cases hp : p a
    · rw [filter_cons_of_pos hp, filterMap_cons, filterMap_cons, ih']
    · rw [filter_cons_of_neg hp, ih', filterMap_cons_none (h a mem_cons_self (by simpa using hp))]

include hout in
include h in
theorem firstByMaintainer_outsiders :
    firstByMaintainer (configs ++ later) maintainers = firstByMaintainer configs maintainers := by
  funext e
  have hlater : (byEpoch later e).find? (fun c => decide (c.owner ∈ maintainers)) = none := by
    refine find?_eq_none.mpr fun d hd => ?_
    simpa using hout d (mem_byEpoch.mp hd).1
  rw [firstByMaintainer, byEpoch_append h, find?_append, hlater, or_none, firstByMaintainer]

theorem firstByMaintainer_eq_none (he : e ∉ namedEpochs configs) : firstByMaintainer configs maintainers e = none := by
  refine find?_eq_none.mpr fun c hc => absurd ?_ he
  obtain ⟨hmem, henc, rfl⟩ := mem_byEpoch.mp hc
  exact mem_map_of_mem (mem_filter.mpr ⟨hmem, by simpa using henc⟩)

include hout in
include h in
/-- Later configs by others change neither the anchors nor the gaps. -/
theorem selectAnchors_outsiders :
    selectAnchors (configs ++ later) maintainers = selectAnchors configs maintainers := by
  have hfst : (selectAnchors (configs ++ later) maintainers).1 = (selectAnchors configs maintainers).1 := by
    rw [selectAnchors_fst, selectAnchors_fst, allTurns, anchorTurns_outsiders h hout, ← allTurns]
  -- an epoch only the later configs name has no config by a current maintainer
  have hgaps : ∀ keep : ℕ → Bool, ((sortedDistinct (namedEpochs (configs ++ later))).filter keep).filterMap
          (firstByMaintainer configs maintainers) = ((sortedDistinct (namedEpochs configs)).filter keep).filterMap
          (firstByMaintainer configs maintainers) := by
    intro keep
    have happ : namedEpochs (configs ++ later) = namedEpochs configs ++ namedEpochs later := by
      simp [namedEpochs]
    rw [happ, ← sortedDistinct_append_filter (namedEpochs configs) (namedEpochs later), filter_comm]
    symm
    refine filterMap_filter_of_none fun e _ he => firstByMaintainer_eq_none ?_
    simpa using he
  have hsnd : ∀ cs, (selectAnchors cs maintainers).2 = ((sortedDistinct (namedEpochs cs)).filter
      fun e => !((selectAnchors cs maintainers).1.map Prod.fst).contains e).filterMap
        (firstByMaintainer cs maintainers) := fun _ => rfl
  refine Prod.ext hfst ?_
  rw [hsnd, hsnd, hfst, firstByMaintainer_outsiders h hout, hgaps]

end Later

/-! ### A removed maintainer -/

section Removed

variable {m : Bytes}

/-- If `m` anchored the epoch, the first valid config by a remaining maintainer repeats `m`'s
commitment. -/
def Reanchored (maintainers : Finset Bytes) (m : Bytes) (t : AnchorTurn) : Prop :=
  t.anchor.owner = m → ∃ r k,
    t.valid.find? (fun c => decide (c.owner ∈ maintainers.erase m)) = some r ∧
      (anchorOf t.anchor).commit = some k ∧ (anchorOf r).commit = some k

/-- What a removal must keep of a turn. -/
def AnchorTurn.lasting (t : AnchorTurn) : ℕ × Option Bytes × ConfigRow :=
  (t.epoch, (anchorOf t.anchor).commit, t.first)

variable {a : ConfigRow}

theorem find?_erase_of_ne {l : List ConfigRow}
    (h : l.find? (fun c => decide (c.owner ∈ maintainers)) = some a) (hne : a.owner ≠ m) :
    l.find? (fun c => decide (c.owner ∈ maintainers.erase m)) = some a := by
  obtain ⟨ha, pre, post, rfl, hpre⟩ := find?_eq_some_iff_append.mp h
  refine find?_eq_some_iff_append.mpr ⟨by simpa [hne] using ha, pre, post, rfl, ?_⟩
  intro c hc
  have hc' := hpre c hc
  simp only [Bool.not_eq_eq_eq_not, Bool.not_true, decide_eq_false_iff_not] at hc' ⊢
  exact fun hmem => hc' (Finset.mem_of_mem_erase hmem)

theorem exists_anchor_erase (h : (validAfter configs e stated).find? (fun c => decide (c.owner ∈ maintainers)) = some a)
    (hre : Reanchored maintainers m ⟨e, validAfter configs e stated, a, firstStated (validAfter configs e stated) a⟩) :
    ∃ r, (validAfter configs e stated).find? (fun c => decide (c.owner ∈ maintainers.erase m)) =
        some r ∧ (anchorOf r).commit = (anchorOf a).commit ∧
      firstStated (validAfter configs e stated) r = firstStated (validAfter configs e stated) a := by
  by_cases hm : a.owner = m
  · obtain ⟨r, k, hr, hak, hrk⟩ := hre hm
    refine ⟨r, hr, hrk.trans hak.symm, ?_⟩
    exact firstStated_eq_of_commit hrk hak (mem_of_find?_eq_some h)
  · exact ⟨a, find?_erase_of_ne h hm, rfl, rfl⟩

theorem anchorTurns_erase (room e : ℕ) (stated : Option (ℕ ×ₗ Bytes))
    (h : ∀ t ∈ anchorTurns configs maintainers room e stated, Reanchored maintainers m t) :
    (anchorTurns configs (maintainers.erase m) room e stated).map AnchorTurn.lasting =
      (anchorTurns configs maintainers room e stated).map AnchorTurn.lasting := by
  induction room generalizing e stated with
  | zero => rfl
  | succ room ih =>
    cases hfind : (validAfter configs e stated).find? fun c => decide (c.owner ∈ maintainers) with
    | none =>
      have herase : (validAfter configs e stated).find?
          (fun c => decide (c.owner ∈ maintainers.erase m)) = none := by
        refine find?_eq_none.mpr fun c hc => ?_
        have hc' := find?_eq_none.mp hfind c hc
        simp only [decide_eq_true_eq] at hc' ⊢
        exact fun hmem => hc' (Finset.mem_of_mem_erase hmem)
      simp only [anchorTurns, hfind, herase]
    | some a =>
      rw [anchorTurns_succ_of_find hfind] at h ⊢
      obtain ⟨r, hr, hcommit, hfirst⟩ := exists_anchor_erase hfind (h _ mem_cons_self)
      rw [anchorTurns_succ_of_find hr, map_cons, map_cons, hfirst,
        ih _ _ fun t ht => h t (mem_cons_of_mem _ ht)]
      simp only [AnchorTurn.lasting, hcommit]

end Removed

/-! ### Anchors are fixed history -/

/-- The anchors are a run of epochs from 0 whatever the order of the configs, each by a current
maintainer and after the key below it was stated. Later configs only append epochs, and change
nothing when they are by others; removing a maintainer whose epochs were anchored again with the
same commitments keeps every epoch, its commitment and the height its key was stated at. -/
theorem selectAnchors_fixed (maintainers : Finset Bytes) (configs : List ConfigRow)
    (hids : (configs.map ConfigRow.id).Nodup) :
    (∃ n, (selectAnchors configs maintainers).1.map Prod.fst = range n) ∧
    (∀ configs', configs'.Perm configs →
      selectAnchors configs' maintainers = selectAnchors configs maintainers) ∧
    (∀ (e : ℕ) t, (allTurns configs maintainers)[e]? = some t →
      IsTurn configs maintainers e (statedBelow (allTurns configs maintainers) e) t ∧
      (selectAnchors configs maintainers).1[e]? =
        some (e, t.anchor, t.first.createdAtBlockHeight) ∧
      t.anchor ∈ configs ∧ t.anchor.epoch = e ∧ t.anchor.owner ∈ maintainers ∧
      ∀ b ∈ statedBelow (allTurns configs maintainers) e, b < t.anchor.order) ∧
    (∀ later all, (∀ c ∈ configs, ∀ d ∈ later, c.order < d.order) →
      all.Perm (configs ++ later) → (all.map ConfigRow.id).Nodup →
      (selectAnchors configs maintainers).1 <+: (selectAnchors all maintainers).1 ∧
      ((∀ d ∈ later, d.owner ∉ maintainers) →
        selectAnchors all maintainers = selectAnchors configs maintainers)) ∧
    ∀ m, (∀ t ∈ allTurns configs maintainers, Reanchored maintainers m t) →
      (selectAnchors configs (maintainers.erase m)).1.map
          (fun a => (a.1, (anchorOf a.2.1).commit, a.2.2)) =
        (selectAnchors configs maintainers).1.map
          fun a => (a.1, (anchorOf a.2.1).commit, a.2.2) := by
  refine ⟨?_, fun _ => selectAnchors_eq_of_perm hids, fun e t ht => ?_, ?_, ?_⟩
  · obtain ⟨n, -, hn⟩ := anchorTurns_epochs configs maintainers (2 ^ 32) 0 none
    refine ⟨n, ?_⟩
    rw [List.range_eq_range', ← hn, selectAnchors, List.map_map]
    rfl
  · have hturn : IsTurn configs maintainers e (statedBelow (allTurns configs maintainers) e) t := by
      have := isTurn_of_getElem? _ _ _ ht
      cases e with
      | zero => simpa [statedBelow] using this
      | succ e => simpa [allTurns] using this
    obtain ⟨⟨hmem, -, hepoch⟩, hafter⟩ := mem_validAfter.mp hturn.anchor_mem
    refine ⟨hturn, ?_, hmem, hepoch, hturn.owner_mem, hafter⟩
    simp only [selectAnchors, List.getElem?_map, ht, Option.map_some, hturn.epoch]
  · intro later all hlater hperm hall
    have hids' : ((configs ++ later).map ConfigRow.id).Nodup := (hperm.map _).nodup_iff.mp hall
    rw [selectAnchors_eq_of_perm hids' hperm]
    refine ⟨?_, selectAnchors_outsiders hlater⟩
    rw [selectAnchors_fst, selectAnchors_fst]
    exact (prefix_anchorTurns hlater _ _ _).map _
  · intro m hm
    have hkept := congrArg (map fun l : ℕ × Option Bytes × ConfigRow =>
      (l.1, l.2.1, l.2.2.createdAtBlockHeight)) (anchorTurns_erase _ _ _ hm)
    simpa [selectAnchors, allTurns, AnchorTurn.lasting, Function.comp_def] using hkept

/-- Maintainer 1 anchored epochs 0 and 1, and maintainer 2 anchored both again with the same
commitments. -/
def reanchoredSample : List ConfigRow :=
  let enc (k : UInt8) : Bytes := v2 :: replicate 60 k
  [⟨[1], [1], 0, 5, enc 7⟩, ⟨[2], [1], 1, 8, enc 9⟩, ⟨[3], [2], 0, 11, enc 7⟩,
    ⟨[4], [2], 1, 12, enc 9⟩]

theorem selectAnchors_fixed_reanchored :
    (reanchoredSample.map ConfigRow.id).Nodup ∧
    ((selectAnchors reanchoredSample {[1], [2]}).1.map fun a => (a.1, a.2.1.id, a.2.2)) =
      [(0, [1], 5), (1, [2], 8)] ∧
    (selectAnchors reanchoredSample (({[1], [2]} : Finset Bytes).erase [1])).1.map
        (fun a => (a.1, (anchorOf a.2.1).commit, a.2.2)) =
      (selectAnchors reanchoredSample {[1], [2]}).1.map
        fun a => (a.1, (anchorOf a.2.1).commit, a.2.2) := by
  refine ⟨by decide, by decide +kernel,
    (selectAnchors_fixed {[1], [2]} reanchoredSample (by decide)).2.2.2.2 [1] ?_⟩
  have hall : ∀ t ∈ allTurns reanchoredSample {[1], [2]}, ∃ r ∈ reanchoredSample,
      ∃ k ∈ [replicate 32 7, replicate 32 9],
        t.valid.find? (fun c => decide (c.owner ∈ ({[1], [2]} : Finset Bytes).erase [1])) = some r ∧
          (anchorOf t.anchor).commit = some k ∧ (anchorOf r).commit = some k := by
    decide +kernel
  intro t ht _
  obtain ⟨r, -, k, -, h⟩ := hall t ht
  exact ⟨r, k, h⟩

end

end DashForge
