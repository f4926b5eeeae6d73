import DashForge.Data.SortedMap
import DashForge.Rules.Role
import Mathlib.Data.Finset.Card
import Mathlib.Data.String.Basic

/-!
# Superseded packs

Which git packs a repack superseded and in which order a reader takes them (`supersede.rs`). `supersededBy` reads the
claims off the pack manifests; `coveredPacks` are the packs a reader need not handle, and `roundNow` those to handle
now.

`mem_coveredPacks_iff` says that a pack is covered if a chain of claims leads from it to a pack at hand. The rounds of a
reader are the step relation `Round`, where what arrives and how much of the covered is dropped is left open.
-/

namespace DashForge.Supersede

open List

/-- The kind of a git pack. -/
def kindGitPack : ℕ := 0

/-- What the storage rules read of a `packManifest`. -/
structure PackManifestInfo where
  createdAt : ℕ
  ownerId : String
  packHash : String
  kind : ℕ
  sizeBytes : ℕ
  chunkCount : ℕ
  /-- 0 Platform, 1 external. -/
  storage : ℕ
  uris : List String
  supersedes : List String
deriving DecidableEq, Repr

/-- The role of each current member. -/
abbrev RoleMap := SortedMap String Role

/-- Each superseded pack, with the packs that supersede it. -/
abbrev Claims := SortedMap String (Finset String)

/-- The packs that supersede a pack. -/
def superseding (claims : Claims) (h : String) : Finset String := (claims.lookup h).getD ∅

/-- Note that a pack supersedes another. -/
def addClaim (claims : Claims) (old packHash : String) : Claims :=
  claims.insert old (insert packHash (superseding claims old))

/-- The roles whose manifests supersede. -/
def mayRecord : Role → Bool
  | .maintainer | .writer => true
  | _ => false

/-- A git pack recorded by a current maintainer or writer. -/
def isClaimant (roles : RoleMap) (m : PackManifestInfo) : Bool :=
  m.kind == kindGitPack && (roles.lookup m.ownerId).any mayRecord

/-- Each git pack a repack superseded, with the packs that supersede it. -/
def supersededBy (manifests : List PackManifestInfo) (roles : RoleMap) : Claims :=
  (manifests.filter (isClaimant roles)).foldl (fun claims m =>
    (m.supersedes.filter (· != m.packHash)).foldl (fun claims old => addClaim claims old m.packHash) claims) .empty

/-- The packs of `pending` to handle this round. -/
def roundNow (pending : List String) (claims : Claims) : Finset String :=
  let waiting := pending.toFinset
  let now := (pending.filter fun h => (claims.lookup h).all fun sup => ∀ s ∈ sup, s ∉ waiting).toFinset
  if now = ∅ then waiting else now

/-- The packs one more pass finds covered. -/
def moreCovered (claims : Claims) (has : String → Bool) (covered : Finset String) : List String :=
  (claims.entries.filter fun x => x.1 ∉ covered ∧ ∃ s ∈ x.2, has s = true ∨ s ∈ covered).map Prod.fst

section Covered

variable {claims : Claims} {has : String → Bool} {covered : Finset String} {h s old packHash : String}

theorem mem_superseding_iff : s ∈ superseding claims h ↔ ∃ sup, claims.lookup h = some sup ∧ s ∈ sup := by
  rw [superseding]
  cases claims.lookup h with
  | none => simp
  | some sup => simp

theorem mem_moreCovered_iff :
    h ∈ moreCovered claims has covered ↔ h ∉ covered ∧ ∃ s ∈ superseding claims h, has s = true ∨ s ∈ covered := by
  simp only [moreCovered, mem_map, mem_filter, decide_eq_true_eq, Prod.exists, mem_superseding_iff,
    SortedMap.lookup_eq_some_iff]
  constructor
  · rintro ⟨old, sup, ⟨hmem, hnot, s, hs, hat⟩, rfl⟩
    exact ⟨hnot, s, ⟨sup, hmem, hs⟩, hat⟩
  · rintro ⟨hnot, s, ⟨sup, hmem, hs⟩, hat⟩
    exact ⟨h, sup, ⟨hmem, hnot, s, hs, hat⟩, rfl⟩

theorem card_sdiff_lt (hmore : moreCovered claims has covered ≠ []) :
    (claims.keys.toFinset \ (covered ∪ (moreCovered claims has covered).toFinset)).card <
      (claims.keys.toFinset \ covered).card := by
  obtain ⟨h, hh⟩ := exists_mem_of_ne_nil _ hmore
  have hkey : h ∈ claims.keys := by
    obtain ⟨-, s, hs, -⟩ := mem_moreCovered_iff.mp hh
    obtain ⟨sup, hsup, -⟩ := mem_superseding_iff.mp hs
    exact SortedMap.mem_keys_iff.mpr ⟨sup, hsup⟩
  refine Finset.card_lt_card (Finset.ssubset_iff_of_subset ?_ |>.mpr ⟨h, ?_, ?_⟩)
  · exact Finset.sdiff_subset_sdiff le_rfl Finset.subset_union_left
  · simpa [hkey] using (mem_moreCovered_iff.mp hh).1
  · simp [hh]

variable (claims has) in
/-- Passes over the claims until one finds nothing. -/
def coveredFrom (covered : Finset String) : Finset String :=
  let more := moreCovered claims has covered
  if _hmore : more = [] then covered else coveredFrom (covered ∪ more.toFinset)
termination_by (claims.keys.toFinset \ covered).card
decreasing_by exact card_sdiff_lt _hmore

end Covered

/-- The superseded packs a reader need not handle: those a pack it `has` supersedes, directly or through a chain. -/
def coveredPacks (claims : Claims) (has : String → Bool) : Finset String := coveredFrom claims has ∅

/-! ### What is covered -/

section Reach

variable {claims : Claims} {has : String → Bool} {covered : Finset String} {h s old packHash : String}

variable (claims) in
/-- One claim: from a pack to one that supersedes it. -/
def SupersededBy (old new : String) : Prop := new ∈ superseding claims old

variable (claims has) in
/-- A chain of claims leads from the pack to one at hand. -/
def Reaches (h : String) : Prop := ∃ p, has p = true ∧ Relation.TransGen (SupersededBy claims) h p

theorem reaches_iff : Reaches claims has h ↔ ∃ s ∈ superseding claims h, has s = true ∨ Reaches claims has s := by
  constructor
  · rintro ⟨p, hp, hchain⟩
    obtain ⟨s, hs, hrest⟩ := Relation.TransGen.head'_iff.mp hchain
    rcases Relation.reflTransGen_iff_eq_or_transGen.mp hrest with rfl | hrest
    · exact ⟨_, hs, .inl hp⟩
    · exact ⟨s, hs, .inr ⟨p, hp, hrest⟩⟩
  · rintro ⟨s, hs, hat | ⟨p, hp, hchain⟩⟩
    · exact ⟨s, hat, .single hs⟩
    · exact ⟨p, hp, .head hs hchain⟩

theorem mem_coveredFrom_iff (hsound : ∀ h ∈ covered, Reaches claims has h) :
    h ∈ coveredFrom claims has covered ↔ Reaches claims has h := by
  induction covered using coveredFrom.induct claims has with
  | case1 covered more hmore =>
    rw [coveredFrom, dif_pos hmore]
    refine ⟨hsound h, ?_⟩
    rintro ⟨p, hp, hchain⟩
    -- closed under one more pass, so under the chain read from its end
    have hclosed : ∀ h s, SupersededBy claims h s → has s = true ∨ s ∈ covered → h ∈ covered := by
      intro h s hs hat
      by_contra hnot
      have := mem_moreCovered_iff.mpr ⟨hnot, s, hs, hat⟩
      rw [show moreCovered claims has covered = [] from hmore] at this
      cases this
    induction hchain using Relation.TransGen.head_induction_on with
    | single hs => exact hclosed _ _ hs (.inl hp)
    | head hs _ ih => exact hclosed _ _ hs (.inr ih)
  | case2 covered more hmore ih =>
    rw [coveredFrom, dif_neg hmore]
    refine ih fun h hh => ?_
    rcases Finset.mem_union.mp hh with hh | hh
    · exact hsound h hh
    · obtain ⟨-, s, hs, hat⟩ := mem_moreCovered_iff.mp (mem_toFinset.mp hh)
      exact reaches_iff.mpr ⟨s, hs, hat.imp_right (hsound s)⟩

/-- Covered are exactly the packs from which a pack at hand is reached. -/
theorem mem_coveredPacks_iff : h ∈ coveredPacks claims has ↔ Reaches claims has h :=
  mem_coveredFrom_iff fun _ h => absurd h (Finset.notMem_empty _)

theorem superseding_empty : superseding .empty h = ∅ := rfl

theorem mem_superseding_addClaim_iff :
    s ∈ superseding (addClaim claims old packHash) h ↔ s ∈ superseding claims h ∨ h = old ∧ s = packHash := by
  rw [superseding, addClaim, SortedMap.lookup_insert]
  split_ifs with hold
  · rw [Option.getD_some, Finset.mem_insert, hold]
    tauto
  · rw [superseding]
    tauto

theorem mem_superseding_supersededBy_iff {manifests : List PackManifestInfo} {roles : RoleMap} :
    s ∈ superseding (supersededBy manifests roles) h ↔
      ∃ m ∈ manifests, isClaimant roles m ∧ m.packHash = s ∧ h ∈ m.supersedes ∧ h ≠ s := by
  have hone : ∀ (packHash : String) (olds : List String) (claims : Claims),
      s ∈ superseding (olds.foldl (fun claims old => addClaim claims old packHash) claims) h ↔
        s ∈ superseding claims h ∨ h ∈ olds ∧ s = packHash := by
    intro packHash olds
    induction olds with
    | nil => simp
    | cons old olds ih =>
      intro claims
      rw [foldl_cons, ih, mem_superseding_addClaim_iff, mem_cons]
      tauto
  have hall : ∀ (ms : List PackManifestInfo) (claims : Claims),
      s ∈ superseding (ms.foldl (fun claims m => (m.supersedes.filter (· != m.packHash)).foldl
        (fun claims old => addClaim claims old m.packHash) claims) claims) h ↔
        s ∈ superseding claims h ∨ ∃ m ∈ ms, m.packHash = s ∧ h ∈ m.supersedes ∧ h ≠ s := by
    intro ms
    induction ms with
    | nil => simp
    | cons m ms ih =>
      intro claims
      rw [foldl_cons, ih, hone, exists_mem_cons_iff, or_assoc, mem_filter, bne_iff_ne]
      refine or_congr_right (or_congr_left ?_)
      constructor
      · rintro ⟨⟨hmem, hne⟩, rfl⟩
        exact ⟨rfl, hmem, hne⟩
      · rintro ⟨rfl, hmem, hne⟩
        exact ⟨⟨hmem, hne⟩, rfl⟩
  rw [supersededBy, hall, superseding_empty]
  simp only [Finset.notMem_empty, false_or, mem_filter, and_assoc]

/-- No pack supersedes itself. -/
theorem notMem_superseding_supersededBy (manifests : List PackManifestInfo) (roles : RoleMap) (h : String) :
    h ∉ superseding (supersededBy manifests roles) h := fun hh => by
  obtain ⟨m, -, -, -, -, hne⟩ := mem_superseding_supersededBy_iff.mp hh
  exact hne rfl

end Reach

end DashForge.Supersede
