import DashForge.Rules.PackCopy
import Mathlib.Data.Finset.Card

/-!
# The pack list

`v2PackList` gives every pack of a repository its position among the packs of its kind, the
`packRef` a locator stores (`rules/v2.rs`). A pack's kind is that of its representative, the best
ranked copy that did not fail verification; its position is by `first`, the earliest of all its
copies.

`Listed` says on the copies alone which packs are listed, with which kind and `first`, and
`mem_v2PackList` and `exists_mem_v2PackList` say that the list holds exactly these, each numbered by
the packs of its kind before it.
-/

namespace DashForge

open List

/-- A document's position in the platform order. -/
abbrev CopyKey := ℕ ×ₗ String

/-- One `packManifest` document, flattened. -/
structure PackCopyRow where
  id : String
  packHash : String
  /-- 0 git pack, 1 objectLocator, 2 flatIndex. -/
  kind : ℕ
  createdAt : ℕ
  ownerRole : Option Role
  sizeBytes : ℕ
  objectCount : ℕ
  chunkCount : ℕ
  supersedes : List String
  /-- Whether the copy's bytes hash to `packHash`; `none` when not checked. -/
  verified : Option Bool
deriving DecidableEq, Repr

namespace PackCopyRow

def key (c : PackCopyRow) : CopyKey := toLex (c.createdAt, c.id)

/-- The order a reader tries copies in. -/
def rankKey (c : PackCopyRow) : ℕ ×ₗ ℕ ×ₗ String := toLex (roleRank c.ownerRole, c.key)

/-- The copy did not fail verification. -/
def usable (c : PackCopyRow) : Bool := c.verified != some false

end PackCopyRow

/-- One pack of the list. -/
structure V2Pack where
  /-- The position among the packs of its kind. -/
  packRef : ℕ
  packHash : String
  kind : ℕ
  sizeBytes : ℕ
  objectCount : ℕ
  chunkCount : ℕ
  supersedes : List String
  /-- The earliest position of all copies of the hash. -/
  first : CopyKey
  /-- The usable copies of the representative's kind, in the order a reader tries them. -/
  copies : List String
  superseded : Bool
deriving DecidableEq

/-- Whether a `supersedes` entry counts: on another pack, of the claimant's kind. -/
def supersedesClaimCounts (claimantHash : String) (claimantKind : ℕ) (claimedHash : String)
    (claimedKind : ℕ) : Bool :=
  claimedHash != claimantHash && claimedKind == claimantKind

/-- The copies not after `asOf`. -/
def copiesAsOf (copies : List PackCopyRow) (asOf : Option CopyKey) : List PackCopyRow :=
  copies.filter fun c => asOf.all fun a => decide (c.key ≤ a)

/-- The copies of one pack that did not fail, best ranked first. -/
def usableCopies (live : List PackCopyRow) (hash : String) : List PackCopyRow :=
  (sortByKey PackCopyRow.rankKey (live.filter fun c => c.packHash == hash)).filter
    PackCopyRow.usable

/-- The pack of one hash, not numbered yet, and whether its representative verified; `none` when it
has no usable copy. -/
def packOf (live : List PackCopyRow) (hash : String) : Option (V2Pack × Bool) :=
  match ((live.filter fun c => c.packHash == hash).map PackCopyRow.key).min?,
      usableCopies live hash with
  | some first, rep :: rest =>
    some ({ packRef := 0, packHash := hash, kind := rep.kind, sizeBytes := rep.sizeBytes,
            objectCount := rep.objectCount, chunkCount := rep.chunkCount,
            supersedes := claimedSupersedes rep.ownerRole rep.supersedes, first,
            copies := ((rep :: rest).filter fun c => c.kind == rep.kind).map PackCopyRow.id,
            superseded := false },
          rep.verified == some true)
  | _, _ => none

/-- The packs with a usable copy, by hash. -/
def packsOf (live : List PackCopyRow) : List (V2Pack × Bool) :=
  (sortedDistinct (live.map PackCopyRow.packHash)).filterMap (packOf live)

/-- The packs that a verified representative of the same kind claims to consolidate. -/
def supersededPacks (packs : List (V2Pack × Bool)) : Finset String :=
  let kindOf (s : String) : Option ℕ :=
    (packs.find? fun q => q.1.packHash == s).map fun q => q.1.kind
  ((packs.filter fun q => q.2).flatMap fun q =>
    q.1.supersedes.filter fun s =>
      (kindOf s).any fun kind => supersedesClaimCounts q.1.packHash q.1.kind s kind).toFinset

/-- Number the packs, from 0 in each run of one kind. -/
def assignRefs (superseded : Finset String) : Option ℕ → ℕ → List V2Pack → List V2Pack
  | _, _, [] => []
  | kind, index, p :: ps =>
    let index := if kind ≠ some p.kind then 0 else index
    { p with packRef := index, superseded := decide (p.packHash ∈ superseded) } ::
      assignRefs superseded (some p.kind) (index + 1) ps

/-- Every pack of a repository with its position, from all its copies not after `asOf`. -/
def v2PackList (copies : List PackCopyRow) (asOf : Option CopyKey) : List V2Pack :=
  let packs := packsOf (copiesAsOf copies asOf)
  let out := sortByKey (fun p : V2Pack => toLex (p.kind, p.first)) (packs.map Prod.fst)
  assignRefs (supersededPacks packs) none 0 out

/-! ### Numbering -/

/-- A pack with its number and flag. -/
def V2Pack.numbered (p : V2Pack) (superseded : Finset String) (packRef : ℕ) : V2Pack :=
  { p with packRef, superseded := decide (p.packHash ∈ superseded) }

/-- Number each pack by the packs of its kind before it, `done` included. -/
def refsFrom (superseded : Finset String) (done : List V2Pack) : List V2Pack → List V2Pack
  | [] => []
  | p :: ps => p.numbered superseded (done.countP fun q => q.kind == p.kind) ::
      refsFrom superseded (done ++ [p]) ps

variable {done ps : List V2Pack} {k' first : CopyKey} {kind : ℕ} {q : V2Pack × Bool} {p : V2Pack}

theorem assignRefs_eq_refsFrom (superseded : Finset String) {kind : Option ℕ} {index : ℕ}
    (hsorted : (done ++ ps).Pairwise fun p q => p.kind ≤ q.kind) (hkind : kind = done.getLast?.map V2Pack.kind)
    (hindex : ∀ q ∈ done.getLast?, index = done.countP fun p => p.kind == q.kind) :
    assignRefs superseded kind index ps = refsFrom superseded done ps := by
  induction ps generalizing done kind index with
  | nil => rfl
  | cons p ps ih =>
    have hcount : (if kind ≠ some p.kind then 0 else index) = done.countP fun q => q.kind == p.kind := by
      split_ifs with hne
      · -- a new kind: everything before it has a smaller one
        rw [eq_comm, countP_eq_zero]
        intro q hq hqp
        rw [beq_iff_eq] at hqp
        have hdone := ne_nil_of_mem hq
        have hlast : (done.getLast hdone).kind ≠ p.kind := by
          rw [hkind, getLast?_eq_some_getLast hdone] at hne
          simpa using hne
        have hle : (done.getLast hdone).kind ≤ p.kind :=
          (pairwise_append.mp hsorted).2.2 _ (getLast_mem hdone) p (by simp)
        have hqlast : q.kind ≤ (done.getLast hdone).kind :=
          (pairwise_append.mp hsorted).1.rel_getLast_of_rel_getLast_getLast hq le_rfl
        omega
      · rw [not_not, hkind, Option.map_eq_some_iff] at hne
        obtain ⟨r, hr, hrp⟩ := hne
        rw [hindex r hr, hrp]
    have hnext := @ih (done ++ [p]) (some p.kind)
      ((if kind ≠ some p.kind then 0 else index) + 1) (by simpa using hsorted) (by simp) (by
        intro q hq
        obtain rfl : p = q := by simpa using hq
        rw [hcount, countP_append, countP_singleton]
        simp)
    rw [assignRefs, refsFrom, hnext, hcount]
    rfl

variable {x : V2Pack} {live copies : List PackCopyRow} {hash : String} {r : PackCopyRow} {k : CopyKey}
  {asOf : Option CopyKey}

theorem mem_refsFrom {superseded : Finset String} : x ∈ refsFrom superseded done ps ↔ ∃ l₁ p l₂, ps = l₁ ++ p :: l₂ ∧
      x = p.numbered superseded ((done ++ l₁).countP fun q => q.kind == p.kind) := by
  induction ps generalizing done with
  | nil => simp [refsFrom]
  | cons p ps ih =>
    rw [refsFrom, mem_cons, ih]
    constructor
    · rintro (rfl | ⟨l₁, q, l₂, rfl, rfl⟩)
      · exact ⟨[], p, ps, rfl, by rw [append_nil]⟩
      · exact ⟨p :: l₁, q, l₂, rfl, by rw [append_assoc, singleton_append]⟩
    · rintro ⟨l₁, q, l₂, heq, rfl⟩
      cases l₁ with
      | nil =>
        obtain ⟨rfl, rfl⟩ := List.cons.inj heq
        exact Or.inl (by rw [append_nil])
      | cons r l₁ =>
        obtain ⟨rfl, rfl⟩ := List.cons.inj heq
        exact Or.inr ⟨l₁, q, l₂, rfl, by rw [append_assoc, singleton_append]⟩

theorem map_refsFrom {β : Type*} (f : V2Pack → β) (superseded : Finset String)
    (hf : ∀ p n, f (V2Pack.numbered p superseded n) = f p) (done ps : List V2Pack) :
    (refsFrom superseded done ps).map f = ps.map f := by
  induction ps generalizing done with
  | nil => rfl
  | cons p ps ih => rw [refsFrom, map_cons, map_cons, ih, hf]

theorem map_packRef_refsFrom (superseded : Finset String) (done ps : List V2Pack) (k : ℕ) :
    ((refsFrom superseded done ps).filter fun p => p.kind == k).map V2Pack.packRef =
      List.range' (done.countP fun p => p.kind == k) (ps.countP fun p => p.kind == k) := by
  induction ps generalizing done with
  | nil => rfl
  | cons p ps ih =>
    have hnext := ih (done ++ [p])
    rw [countP_append, countP_singleton] at hnext
    by_cases hk : p.kind = k
    · rw [refsFrom, filter_cons_of_pos (by simpa [V2Pack.numbered] using hk), map_cons,
        hnext, countP_cons_of_pos (by simpa using hk), range'_succ]
      simp [V2Pack.numbered, hk]
    · rw [refsFrom, filter_cons_of_neg (by simpa [V2Pack.numbered] using hk), hnext,
        countP_cons_of_neg (by simpa using hk)]
      simp [hk]

/-! ### Which packs are listed -/

/-- `r` is the copy a pack is described by: the first of its best ranked usable copies. -/
def Representative (live : List PackCopyRow) (hash : String) (r : PackCopyRow) : Prop :=
  IsFirstLeast PackCopyRow.rankKey (live.filter fun c => c.packHash == hash && c.usable) r

/-- `k` is the earliest position of the copies of a pack. -/
def Earliest (live : List PackCopyRow) (hash : String) (k : CopyKey) : Prop :=
  (∃ q ∈ live, q.packHash = hash ∧ q.key = k) ∧ ∀ q ∈ live, q.packHash = hash → k ≤ q.key

/-- A pack is listed with the kind of its representative and its earliest position. -/
def Listed (live : List PackCopyRow) (hash : String) (kind : ℕ) (first : CopyKey) : Prop :=
  (∃ r, Representative live hash r ∧ r.kind = kind) ∧ Earliest live hash first

theorem Representative.spec (h : Representative live hash r) : r ∈ live ∧ r.packHash = hash ∧ r.usable = true := by
  simpa [mem_filter] using h.mem

theorem exists_representative_iff :
    (∃ r, Representative live hash r) ↔ ∃ q ∈ live, q.packHash = hash ∧ q.usable = true := by
  constructor
  · rintro ⟨r, hr⟩
    exact ⟨r, hr.spec⟩
  · rintro ⟨q, hq, hhash, husable⟩
    obtain ⟨r, -, hr⟩ := exists_head?_sortByKey PackCopyRow.rankKey
      (ne_nil_of_mem (mem_filter.mpr ⟨hq, by simp [hhash, husable]⟩) :
        live.filter (fun c => c.packHash == hash && c.usable) ≠ [])
    exact ⟨r, hr⟩

theorem min?_key_eq_some_iff : ((live.filter fun c => c.packHash == hash).map PackCopyRow.key).min? = some k ↔
      Earliest live hash k := by
  have hmem : ∀ x, x ∈ (live.filter fun c => c.packHash == hash).map PackCopyRow.key ↔
      ∃ q ∈ live, q.packHash = hash ∧ q.key = x := by
    intro x
    simp [and_assoc]
  rw [min?_eq_some_iff, hmem, Earliest]
  refine and_congr_right fun _ => ⟨fun h q hq hhash => ?_, fun h x hx => ?_⟩
  · exact h q.key ((hmem _).mpr ⟨q, hq, hhash, rfl⟩)
  · obtain ⟨q, hq, hhash, rfl⟩ := (hmem _).mp hx
    exact h q hq hhash

theorem Earliest.unique (h : Earliest live hash k) (h' : Earliest live hash k') : k = k' := by
  obtain ⟨⟨q, hq, hhash, rfl⟩, hle⟩ := h
  obtain ⟨⟨q', hq', hhash', rfl⟩, hle'⟩ := h'
  exact le_antisymm (hle q' hq' hhash') (hle' q hq hhash)

theorem exists_earliest {q : PackCopyRow} (hq : q ∈ live) (hhash : q.packHash = hash) : ∃ k, Earliest live hash k := by
  have hne : (live.filter fun c => c.packHash == hash).map PackCopyRow.key ≠ [] := by
    refine ne_nil_of_mem (mem_map_of_mem (mem_filter.mpr ⟨hq, ?_⟩))
    simpa using hhash
  cases h : ((live.filter fun c => c.packHash == hash).map PackCopyRow.key).min? with
  | none => exact absurd (min?_eq_none_iff.mp h) hne
  | some k => exact ⟨k, min?_key_eq_some_iff.mp h⟩

theorem Listed.unique {kind' : ℕ} (h : Listed live hash kind k) (h' : Listed live hash kind' k') :
    kind = kind' ∧ k = k' := by
  obtain ⟨⟨r, hr, rfl⟩, hk⟩ := h
  obtain ⟨⟨r', hr', rfl⟩, hk'⟩ := h'
  exact ⟨by rw [IsFirstLeast.unique hr hr'], hk.unique hk'⟩

/-- The representative heads the usable copies. -/
theorem head?_usableCopies : (usableCopies live hash).head? = some r ↔ Representative live hash r := by
  rw [usableCopies, ← sortByKey_filter, head?_sortByKey_eq_some_iff, filter_filter, Representative]
  simp only [Bool.and_comm]

theorem packOf_eq_some (h : packOf live hash = some q) :
    ∃ r, Representative live hash r ∧ Earliest live hash q.1.first ∧ q.1.packHash = hash ∧ q.1.kind = r.kind := by
  rw [packOf] at h
  split at h
  · rename_i first rep rest hfirst husable
    obtain rfl := Option.some.inj h
    refine ⟨rep, head?_usableCopies.mp ?_, min?_key_eq_some_iff.mp hfirst, rfl, rfl⟩
    rw [husable]
    rfl
  · simp at h

theorem packOf_representative (h : packOf live hash = some q) (hr : Representative live hash r) :
    q.1.copies.head? = some r.id ∧ q.1.supersedes = claimedSupersedes r.ownerRole r.supersedes ∧
      q.2 = (r.verified == some true) := by
  rw [packOf] at h
  split at h
  · rename_i first rep rest hfirst husable
    obtain rfl := Option.some.inj h
    have hrep : rep = r := by
      have hhead := head?_usableCopies.mpr hr
      rw [husable] at hhead
      exact Option.some.inj hhead
    subst hrep
    exact ⟨by simp, rfl, rfl⟩
  · simp at h

theorem exists_packOf (hr : Representative live hash r) : ∃ q, packOf live hash = some q := by
  obtain ⟨k, hk⟩ := exists_earliest hr.spec.1 hr.spec.2.1
  obtain ⟨rest, hrest⟩ := head?_eq_some_iff.mp (head?_usableCopies.mpr hr)
  rw [packOf, min?_key_eq_some_iff.mpr hk, hrest]
  exact ⟨_, rfl⟩

/-! ### The list -/

/-- The packs of a kind before a position. -/
def aheadHashes (live : List PackCopyRow) (kind : ℕ) (first : CopyKey) (hash : String) :
    Finset String :=
  (live.map PackCopyRow.packHash).toFinset.filter fun h => (packOf live h).any fun q =>
    q.1.kind == kind && decide (toLex (q.1.first, h) < toLex (first, hash))

theorem mem_aheadHashes {h : String} : h ∈ aheadHashes live kind first hash ↔
      ∃ f, Listed live h kind f ∧ toLex (f, h) < toLex (first, hash) := by
  simp only [aheadHashes, Finset.mem_filter, mem_toFinset, mem_map, Option.any_eq_true,
    Bool.and_eq_true, beq_iff_eq, decide_eq_true_eq]
  constructor
  · rintro ⟨-, q, hq, rfl, hlt⟩
    obtain ⟨r, hr, hfirst, -, hkind⟩ := packOf_eq_some hq
    exact ⟨q.1.first, ⟨⟨r, hr, hkind.symm⟩, hfirst⟩, hlt⟩
  · rintro ⟨f, ⟨⟨r, hr, rfl⟩, hf⟩, hlt⟩
    obtain ⟨q, hq⟩ := exists_packOf hr
    obtain ⟨r', hr', hfirst, -, hkind⟩ := packOf_eq_some hq
    obtain rfl := IsFirstLeast.unique hr hr'
    refine ⟨⟨r, hr.spec.1, hr.spec.2.1⟩, q, hq, hkind, ?_⟩
    rwa [hfirst.unique hf]

theorem mem_packsOf : q ∈ packsOf live ↔ packOf live q.1.packHash = some q := by
  rw [packsOf, mem_filterMap]
  constructor
  · rintro ⟨hash, -, hq⟩
    obtain ⟨-, -, -, rfl, -⟩ := packOf_eq_some hq
    exact hq
  · intro hq
    obtain ⟨r, hr, -⟩ := packOf_eq_some hq
    refine ⟨q.1.packHash, mem_sortedDistinct.mpr ?_, hq⟩
    exact mem_map.mpr ⟨r, hr.spec.1, hr.spec.2.1⟩

theorem pairwise_packsOf (live : List PackCopyRow) :
    ((packsOf live).map Prod.fst).Pairwise fun p q => p.packHash < q.packHash := by
  rw [pairwise_map, packsOf, pairwise_filterMap]
  refine (pairwise_sortedDistinct _).imp fun hlt p hp q hq => ?_
  obtain ⟨-, -, -, rfl, -⟩ := packOf_eq_some hp
  obtain ⟨-, -, -, rfl, -⟩ := packOf_eq_some hq
  exact hlt

/-- The packs in the order they are numbered. -/
def orderedPacks (live : List PackCopyRow) : List V2Pack :=
  sortByKey (fun p : V2Pack => toLex (p.kind, p.first)) ((packsOf live).map Prod.fst)

/-- By kind, then by first position, then by hash. -/
theorem pairwise_orderedPacks (live : List PackCopyRow) : (orderedPacks live).Pairwise fun p q =>
    p.kind < q.kind ∨ p.kind = q.kind ∧ toLex (p.first, p.packHash) < toLex (q.first, q.packHash) := by
  refine (pairwise_sortByKey_stable _ (pairwise_packsOf live)).imp fun h => ?_
  simp only [Prod.Lex.toLex_lt_toLex, EmbeddingLike.apply_eq_iff_eq, Prod.mk.injEq] at h ⊢
  tauto

theorem mem_orderedPacks : p ∈ orderedPacks live ↔ ∃ verified, packOf live p.packHash = some (p, verified) := by
  rw [orderedPacks, mem_sortByKey, mem_map]
  constructor
  · rintro ⟨q, hq, rfl⟩
    exact ⟨q.2, mem_packsOf.mp hq⟩
  · rintro ⟨verified, hq⟩
    exact ⟨(p, verified), mem_packsOf.mpr hq, rfl⟩

theorem nodup_packHash_orderedPacks (live : List PackCopyRow) : ((orderedPacks live).map V2Pack.packHash).Nodup := by
  have hperm : ((orderedPacks live).map V2Pack.packHash).Perm
      (((packsOf live).map Prod.fst).map V2Pack.packHash) := (perm_sortByKey _ _).map _
  rw [hperm.nodup_iff, nodup_iff_pairwise_ne, pairwise_map]
  exact (pairwise_packsOf live).imp ne_of_lt

theorem countP_eq_card_aheadHashes {l₁ l₂ : List V2Pack} (h : orderedPacks live = l₁ ++ p :: l₂) :
    (l₁.countP fun q => q.kind == p.kind) = (aheadHashes live p.kind p.first p.packHash).card := by
  have hsorted := pairwise_orderedPacks live
  have hnodup : ((l₁.filter fun q => q.kind == p.kind).map V2Pack.packHash).Nodup := by
    refine (nodup_packHash_orderedPacks live).sublist (List.Sublist.map _ ?_)
    rw [h]
    exact filter_sublist.trans (sublist_append_left _ _)
  have hset : ((l₁.filter fun q => q.kind == p.kind).map V2Pack.packHash).toFinset =
      aheadHashes live p.kind p.first p.packHash := by
    ext hash
    rw [mem_toFinset, mem_map, mem_aheadHashes]
    rw [h, pairwise_append] at hsorted
    obtain ⟨-, htail, hbefore⟩ := hsorted
    constructor
    · rintro ⟨q, hq, rfl⟩
      obtain ⟨hq, hkind⟩ := mem_filter.mp hq
      rw [beq_iff_eq] at hkind
      obtain ⟨verified, hpack⟩ :=
        mem_orderedPacks.mp (h ▸ mem_append_left _ hq : q ∈ orderedPacks live)
      obtain ⟨r, hr, hfirst, -, hkind'⟩ := packOf_eq_some hpack
      refine ⟨q.first, ⟨⟨r, hr, hkind'.symm.trans hkind⟩, hfirst⟩, ?_⟩
      exact ((hbefore q hq p (by simp)).resolve_left (by omega)).2
    · rintro ⟨f, ⟨⟨r, hr, hkind⟩, hf⟩, hlt⟩
      obtain ⟨q, hq⟩ := exists_packOf hr
      obtain ⟨r', hr', hfirst, rfl, hkind'⟩ := packOf_eq_some hq
      obtain rfl := IsFirstLeast.unique hr hr'
      obtain rfl := hf.unique hfirst
      have hmem : q.1 ∈ l₁ ++ p :: l₂ := h ▸ mem_orderedPacks.mpr ⟨q.2, hq⟩
      have hqp : q.1.kind = p.kind := hkind'.trans hkind
      rcases mem_append.mp hmem with hmem | hmem
      · exact ⟨q.1, mem_filter.mpr ⟨hmem, by simpa using hqp⟩, rfl⟩
      · rcases mem_cons.mp hmem with heq | hmem
        · rw [heq] at hlt
          exact absurd hlt (lt_irrefl _)
        · have hafter := ((pairwise_cons.mp htail).1 q.1 hmem).resolve_left (by omega)
          exact absurd hafter.2 (lt_asymm hlt)
  rw [← hset, toFinset_card_of_nodup hnodup, length_map, countP_eq_length_filter]

theorem v2PackList_eq_refsFrom (copies : List PackCopyRow) (asOf : Option CopyKey) :
    v2PackList copies asOf = refsFrom (supersededPacks (packsOf (copiesAsOf copies asOf))) []
      (orderedPacks (copiesAsOf copies asOf)) := by
  refine assignRefs_eq_refsFrom _ ?_ rfl (by simp)
  exact (pairwise_orderedPacks _).imp fun h => h.elim le_of_lt fun h => h.1.le

theorem mem_v2PackList_iff : x ∈ v2PackList copies asOf ↔ ∃ q, packOf (copiesAsOf copies asOf) q.1.packHash = some q ∧
      x = q.1.numbered (supersededPacks (packsOf (copiesAsOf copies asOf)))
        (aheadHashes (copiesAsOf copies asOf) q.1.kind q.1.first q.1.packHash).card := by
  rw [v2PackList_eq_refsFrom, mem_refsFrom]
  constructor
  · rintro ⟨l₁, p, l₂, heq, rfl⟩
    obtain ⟨verified, hpack⟩ := mem_orderedPacks.mp
      (heq ▸ by simp : p ∈ orderedPacks (copiesAsOf copies asOf))
    refine ⟨(p, verified), hpack, ?_⟩
    rw [nil_append, countP_eq_card_aheadHashes heq]
  · rintro ⟨q, hq, rfl⟩
    obtain ⟨l₁, l₂, heq⟩ := append_of_mem (mem_orderedPacks.mpr ⟨q.2, hq⟩)
    refine ⟨l₁, q.1, l₂, heq, ?_⟩
    rw [nil_append, countP_eq_card_aheadHashes heq]

/-- A pack of the list is a listed one, numbered by the packs ahead of it. -/
theorem mem_v2PackList (hx : x ∈ v2PackList copies asOf) : Listed (copiesAsOf copies asOf) x.packHash x.kind x.first ∧
      x.packRef = (aheadHashes (copiesAsOf copies asOf) x.kind x.first x.packHash).card := by
  obtain ⟨q, hq, rfl⟩ := mem_v2PackList_iff.mp hx
  obtain ⟨r, hr, hfirst, -, hkind⟩ := packOf_eq_some hq
  exact ⟨⟨⟨r, hr, hkind.symm⟩, hfirst⟩, rfl⟩

theorem exists_mem_v2PackList (h : Listed (copiesAsOf copies asOf) hash kind first) :
    ∃ x ∈ v2PackList copies asOf, x.packHash = hash ∧ x.kind = kind ∧ x.first = first := by
  obtain ⟨⟨r, hr, rfl⟩, hf⟩ := h
  obtain ⟨q, hq⟩ := exists_packOf hr
  obtain ⟨r', hr', hfirst, rfl, hkind⟩ := packOf_eq_some hq
  obtain rfl := IsFirstLeast.unique hr hr'
  exact ⟨_, mem_v2PackList_iff.mpr ⟨q, hq, rfl⟩, rfl, hkind, hfirst.unique hf⟩

/-- The packs of each kind are numbered 0, 1, … by their first position, each hash once. -/
structure NumberedByFirst (out : List V2Pack) : Prop where
  nodup : (out.map V2Pack.packHash).Nodup
  packRef : ∀ k, (out.filter fun p => p.kind == k).map V2Pack.packRef =
    List.range (out.filter fun p => p.kind == k).length
  first : ∀ k, (out.filter fun p => p.kind == k).Pairwise fun p q => p.first ≤ q.first

theorem numberedByFirst_v2PackList (copies : List PackCopyRow) (asOf : Option CopyKey) :
    NumberedByFirst (v2PackList copies asOf) := by
  rw [v2PackList_eq_refsFrom]
  generalize supersededPacks (packsOf (copiesAsOf copies asOf)) = superseded
  have hsorted := pairwise_orderedPacks (copiesAsOf copies asOf)
  have hnodup := nodup_packHash_orderedPacks (copiesAsOf copies asOf)
  generalize orderedPacks (copiesAsOf copies asOf) = ps at hsorted hnodup
  constructor
  · rwa [map_refsFrom V2Pack.packHash superseded fun _ _ => rfl]
  · intro k
    have hrefs := map_packRef_refsFrom superseded [] ps k
    have hlen := congrArg List.length hrefs
    rw [length_map, length_range'] at hlen
    rw [hrefs, hlen, countP_nil, range_eq_range']
  · intro k
    have hfirst : (refsFrom superseded [] ps).Pairwise fun p q =>
        p.kind < q.kind ∨ p.kind = q.kind ∧ p.first ≤ q.first := by
      have hmap := map_refsFrom (fun p => (p.kind, p.first)) superseded (fun _ _ => rfl) [] ps
      have hps : (ps.map fun p => (p.kind, p.first)).Pairwise fun a b =>
          a.1 < b.1 ∨ a.1 = b.1 ∧ a.2 ≤ b.2 := by
        refine pairwise_map.mpr (hsorted.imp fun h => h.imp_right fun h => ⟨h.1, ?_⟩)
        exact (Prod.Lex.toLex_lt_toLex.mp h.2).elim le_of_lt fun h => h.1.le
      rw [← hmap, pairwise_map] at hps
      exact hps
    refine (hfirst.filter _).imp_of_mem fun {p q} hp hq h => ?_
    have hpk : p.kind = k := by simpa using (mem_filter.mp hp).2
    have hqk : q.kind = k := by simpa using (mem_filter.mp hq).2
    exact (h.resolve_left (by omega)).2

end DashForge
