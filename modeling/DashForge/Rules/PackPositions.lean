import DashForge.Rules.PackList

/-!
# When pack positions are stable

A locator stores `packRef`s, so a pack that was listed should keep its kind and its number when a
further copy is uploaded (`KeepsPositions`). It does not always: a later copy that outranks the
representative and claims another kind moves the pack to that kind, and a usable copy of a pack all
of whose copies failed lists it at its first position, before packs that were listed after it.

`StableCopy` is the condition on the copies and the further copy under which neither happens, and
`v2PackList_keepsPositions_iff` says it is exact.
-/

namespace DashForge

open List

/-- Every pack listed before `c` keeps its kind and its number, and a pack listed only with `c` is
the last of its kind. -/
structure KeepsPositions (copies : List PackCopyRow) (asOf : Option CopyKey) (c : PackCopyRow) :
    Prop where
  keeps : ∀ p ∈ v2PackList copies asOf, ∃ p' ∈ v2PackList (copies ++ [c]) asOf,
    p'.packHash = p.packHash ∧ p'.kind = p.kind ∧ p'.packRef = p.packRef
  appends : ∀ p' ∈ v2PackList (copies ++ [c]) asOf,
    (∀ p ∈ v2PackList copies asOf, p.packHash ≠ p'.packHash) →
      ∀ p ∈ v2PackList (copies ++ [c]) asOf, p.kind = p'.kind → p.packRef ≤ p'.packRef

/-- The condition on the copies and the further copy `c`: it is after `asOf`, or it failed, or its
pack has a representative that is ranked no worse or has its kind, or all copies of its pack failed
and each is after some copy of every pack of its kind. -/
def StableCopy (copies : List PackCopyRow) (asOf : Option CopyKey) (c : PackCopyRow) : Prop :=
  let live := copiesAsOf copies asOf
  (∃ a ∈ asOf, a < c.key) ∨ c.verified = some false ∨
    (∃ r, Representative live c.packHash r ∧
      (roleRank r.ownerRole ≤ roleRank c.ownerRole ∨ r.kind = c.kind)) ∨
    (∀ q ∈ live, q.packHash = c.packHash → q.verified = some false ∧
      ∀ hash r, Representative live hash r → r.kind = c.kind →
        ∃ q' ∈ live, q'.packHash = hash ∧ toLex (q'.key, hash) < toLex (q.key, c.packHash))

section OneMore

variable {live : List PackCopyRow} {c : PackCopyRow}

/-! ### One more copy -/

variable {q r : PackCopyRow} {hash : String} {kind : ℕ} {first : CopyKey}

theorem usable_eq_false_iff : q.usable = false ↔ q.verified = some false := by
  simp [PackCopyRow.usable]

theorem representative_concat_of_ne (h : ¬(c.packHash = hash ∧ c.usable = true)) :
    Representative (live ++ [c]) hash r ↔ Representative live hash r := by
  rw [Representative, filter_append, filter_cons_of_neg (by simpa using h),
    filter_nil, append_nil, Representative]

theorem representative_concat (h : c.usable = true) : Representative (live ++ [c]) c.packHash r ↔
      (Representative live c.packHash r ∧ r.rankKey ≤ c.rankKey) ∨ (r = c ∧
          ∀ q ∈ live, q.packHash = c.packHash → q.usable = true → c.rankKey < q.rankKey) := by
  rw [Representative, filter_append, filter_cons_of_pos (by simpa using h),
    filter_nil, isFirstLeast_concat, ← Representative]
  simp [mem_filter]

theorem earliest_concat_of_ne {k : CopyKey} (h : c.packHash ≠ hash) :
    Earliest (live ++ [c]) hash k ↔ Earliest live hash k := by
  have hmem : ∀ q, q ∈ live ++ [c] → q.packHash = hash → q ∈ live := by
    intro q hq hhash
    rcases mem_append.mp hq with hq | hq
    · exact hq
    · rw [mem_singleton.mp hq] at hhash
      exact absurd hhash h
  constructor
  · rintro ⟨⟨q, hq, hhash, rfl⟩, hle⟩
    exact ⟨⟨q, hmem q hq hhash, hhash, rfl⟩, fun q' hq' => hle q' (mem_append_left _ hq')⟩
  · rintro ⟨⟨q, hq, hhash, rfl⟩, hle⟩
    exact ⟨⟨q, mem_append_left _ hq, hhash, rfl⟩, fun q' hq' hhash' => hle q' (hmem q' hq' hhash') hhash'⟩

theorem listed_concat_of_ne (h : c.packHash ≠ hash) :
    Listed (live ++ [c]) hash kind first ↔ Listed live hash kind first := by
  rw [Listed, Listed, earliest_concat_of_ne h]
  simp only [representative_concat_of_ne fun hc => h hc.1]

variable (hlast : ∀ q ∈ live, q.key < c.key)
include hlast

/-- A later copy is not the first one. -/
theorem earliest_concat (hq : q ∈ live) (hhash : q.packHash = hash) {k : CopyKey} :
    Earliest (live ++ [c]) hash k ↔ Earliest live hash k := by
  obtain ⟨k', hk'⟩ := exists_earliest hq hhash
  have hk : Earliest (live ++ [c]) hash k' := by
    obtain ⟨⟨q', hq', hhash', rfl⟩, hle⟩ := hk'
    refine ⟨⟨q', mem_append_left _ hq', hhash', rfl⟩, fun q'' hq'' hhash'' => ?_⟩
    rcases mem_append.mp hq'' with hq'' | hq''
    · exact hle q'' hq'' hhash''
    · rw [mem_singleton.mp hq'']
      exact (hlast q' hq').le
  exact ⟨fun h => h.unique hk ▸ hk', fun h => h.unique hk' ▸ hk⟩

theorem rankKey_le_iff (hq : q ∈ live) : q.rankKey ≤ c.rankKey ↔ roleRank q.ownerRole ≤ roleRank c.ownerRole := by
  rw [PackCopyRow.rankKey, PackCopyRow.rankKey, Prod.Lex.toLex_le_toLex]
  constructor
  · rintro (h | h)
    · exact h.le
    · exact h.1.le
  · intro h
    exact h.lt_or_eq.imp_right fun h => ⟨h, (hlast q hq).le⟩

theorem listed_concat_of_failed (h : c.usable = false) :
    Listed (live ++ [c]) hash kind first ↔ Listed live hash kind first := by
  have hrep : ∀ r, Representative (live ++ [c]) hash r ↔ Representative live hash r := fun r =>
    representative_concat_of_ne (by simp [h])
  rw [Listed, Listed]
  simp only [hrep]
  refine and_congr_right fun ⟨r, hr, _⟩ => ?_
  exact earliest_concat hlast hr.spec.1 hr.spec.2.1

variable (h : c.usable = true) (hr : Representative live c.packHash r)

include h hr in
theorem representative_concat_of_le (hle : roleRank r.ownerRole ≤ roleRank c.ownerRole) :
    Representative (live ++ [c]) c.packHash r :=
  (representative_concat h).mpr (.inl ⟨hr, (rankKey_le_iff hlast hr.spec.1).mpr hle⟩)

include h hr in
theorem representative_concat_of_lt (hlt : ¬roleRank r.ownerRole ≤ roleRank c.ownerRole) :
    Representative (live ++ [c]) c.packHash c := by
  refine (representative_concat h).mpr (.inr ⟨rfl, fun q hq hhash husable => ?_⟩)
  have hrq : r.rankKey ≤ q.rankKey :=
    IsFirstLeast.le hr (mem_filter.mpr ⟨hq, by simp [hhash, husable]⟩)
  exact (not_le.mp fun hle => hlt ((rankKey_le_iff hlast hr.spec.1).mp hle)).trans_le hrq

include h hr in
theorem listed_concat_of_representative (hkind : roleRank r.ownerRole ≤ roleRank c.ownerRole ∨ r.kind = c.kind) :
    Listed (live ++ [c]) hash kind first ↔ Listed live hash kind first := by
  by_cases hhash : c.packHash = hash
  · subst hhash
    obtain ⟨r', hr', hrk⟩ : ∃ r', Representative (live ++ [c]) c.packHash r' ∧ r'.kind = r.kind := by
      by_cases hle : roleRank r.ownerRole ≤ roleRank c.ownerRole
      · exact ⟨r, representative_concat_of_le hlast h hr hle, rfl⟩
      · exact ⟨c, representative_concat_of_lt hlast h hr hle, (hkind.resolve_left hle).symm⟩
    rw [Listed, Listed, earliest_concat hlast hr.spec.1 hr.spec.2.1]
    refine and_congr_left fun _ => ⟨?_, ?_⟩
    · rintro ⟨s, hs, rfl⟩
      exact ⟨r, hr, by rw [IsFirstLeast.unique hs hr', hrk]⟩
    · rintro ⟨s, hs, rfl⟩
      exact ⟨r', hr', by rw [IsFirstLeast.unique hs hr, hrk]⟩
  · exact listed_concat_of_ne hhash

omit hlast in
theorem representative_concat_new (h : c.usable = true)
    (hnone : ∀ q ∈ live, q.packHash = c.packHash → q.usable = false) : Representative (live ++ [c]) c.packHash c := by
  refine (representative_concat h).mpr (.inr ⟨rfl, fun q hq hhash husable => ?_⟩)
  rw [hnone q hq hhash] at husable
  exact absurd husable (by simp)

end OneMore

/-! ### Positions -/

section Positions

variable {copies : List PackCopyRow} {asOf : Option CopyKey} {c : PackCopyRow}

variable {first : CopyKey} {hash : String}

theorem aheadHashes_congr {live live' : List PackCopyRow} {kind : ℕ} (h : ∀ g f, toLex (f, g) < toLex (first, hash) →
      (Listed live' g kind f ↔ Listed live g kind f)) :
    aheadHashes live' kind first hash = aheadHashes live kind first hash := by
  ext g
  rw [mem_aheadHashes, mem_aheadHashes]
  exact exists_congr fun f => and_congr_left fun hlt => h g f hlt

theorem keepsPositions_of_listed_iff (h : ∀ hash kind first, Listed (copiesAsOf (copies ++ [c]) asOf) hash kind first ↔
      Listed (copiesAsOf copies asOf) hash kind first) : KeepsPositions copies asOf c := by
  constructor
  · intro p hp
    obtain ⟨hlisted, href⟩ := mem_v2PackList hp
    obtain ⟨p', hp', hhash, hkind, hfirst⟩ := exists_mem_v2PackList ((h _ _ _).mpr hlisted)
    refine ⟨p', hp', hhash, hkind, ?_⟩
    rw [(mem_v2PackList hp').2, href, hhash, hkind, hfirst]
    exact congrArg _ (aheadHashes_congr fun g f _ => h g p.kind f)
  · intro p' hp' hnew
    obtain ⟨p, hp, hhash, -⟩ := exists_mem_v2PackList ((h _ _ _).mp (mem_v2PackList hp').1)
    exact absurd hhash (hnew p hp)

theorem keepsPositions_of_last (hold : ∀ hash, hash ≠ c.packHash → ∀ kind f,
      (Listed (copiesAsOf (copies ++ [c]) asOf) hash kind f ↔ Listed (copiesAsOf copies asOf) hash kind f))
    (hnone : ∀ kind f, ¬Listed (copiesAsOf copies asOf) c.packHash kind f)
    (hnew : Listed (copiesAsOf (copies ++ [c]) asOf) c.packHash c.kind first)
    (hlast : ∀ hash f, Listed (copiesAsOf copies asOf) hash c.kind f →
      toLex (f, hash) < toLex (first, c.packHash)) : KeepsPositions copies asOf c := by
  have hne : ∀ {hash kind f}, Listed (copiesAsOf copies asOf) hash kind f → hash ≠ c.packHash := by
    rintro hash kind f hlisted rfl
    exact hnone kind f hlisted
  constructor
  · intro p hp
    obtain ⟨hlisted, href⟩ := mem_v2PackList hp
    obtain ⟨p', hp', hhash, hkind, hfirst⟩ :=
      exists_mem_v2PackList ((hold _ (hne hlisted) _ _).mpr hlisted)
    refine ⟨p', hp', hhash, hkind, ?_⟩
    rw [(mem_v2PackList hp').2, href, hhash, hkind, hfirst]
    refine congrArg _ (aheadHashes_congr fun g f hlt => ?_)
    by_cases hg : g = c.packHash
    · -- the new pack is not ahead of an old one
      subst hg
      refine ⟨fun hg => ?_, fun hg => absurd hg (hnone _ _)⟩
      obtain ⟨hk, rfl⟩ := hg.unique hnew
      rw [hk] at hlisted
      exact absurd (hlast _ _ hlisted) (lt_asymm hlt)
    · exact hold g hg _ _
  · intro p' hp' hp'new p hp hkind
    obtain ⟨hlisted, href⟩ := mem_v2PackList hp
    obtain ⟨hlisted', href'⟩ := mem_v2PackList hp'
    have hhash' : p'.packHash = c.packHash := by
      by_contra hne'
      obtain ⟨q, hq, hqhash, -⟩ := exists_mem_v2PackList ((hold _ hne' _ _).mp hlisted')
      exact hp'new q hq hqhash
    rw [hhash'] at hlisted' href'
    obtain ⟨hk, hf⟩ := hlisted'.unique hnew
    rw [href, href', hkind]
    -- what is ahead of `p` is ahead of the last pack
    refine Finset.card_le_card fun g hg => ?_
    rw [mem_aheadHashes] at hg ⊢
    obtain ⟨f, hgf, hlt⟩ := hg
    refine ⟨f, hgf, ?_⟩
    by_cases hpc : p.packHash = c.packHash
    · rw [hpc] at hlisted hlt
      rwa [hf, ← (hlisted.unique hnew).2]
    · rw [hkind, hk] at hlisted
      rw [hf]
      exact hlt.trans (hlast _ _ ((hold _ hpc _ _).mp hlisted))

theorem copiesAsOf_concat_of_lt (h : ∃ a ∈ asOf, a < c.key) :
    copiesAsOf (copies ++ [c]) asOf = copiesAsOf copies asOf := by
  obtain ⟨a, rfl, hlt⟩ := h
  rw [copiesAsOf, filter_append, filter_cons_of_neg (by simpa using hlt),
    filter_nil, append_nil, copiesAsOf]

theorem copiesAsOf_concat_of_not_lt (h : ¬∃ a ∈ asOf, a < c.key) :
    copiesAsOf (copies ++ [c]) asOf = copiesAsOf copies asOf ++ [c] := by
  have hle : asOf.all (fun a => decide (c.key ≤ a)) = true := by
    rw [Option.all_eq_true]
    intro a ha
    exact decide_eq_true (not_lt.mp fun hlt => h ⟨a, ha, hlt⟩)
  rw [copiesAsOf, filter_append, filter_cons_of_pos (by exact hle), filter_nil, copiesAsOf]

/-- The condition is enough. -/
theorem keepsPositions_of_stableCopy (hlast : ∀ q ∈ copies, q.key < c.key)
    (h : StableCopy copies asOf c) : KeepsPositions copies asOf c := by
  by_cases hasOf : ∃ a ∈ asOf, a < c.key
  · exact keepsPositions_of_listed_iff fun _ _ _ => by rw [copiesAsOf_concat_of_lt hasOf]
  have hlive : ∀ q ∈ copiesAsOf copies asOf, q.key < c.key := fun q hq =>
    hlast q (mem_of_mem_filter hq)
  have hconcat : copiesAsOf (copies ++ [c]) asOf = copiesAsOf copies asOf ++ [c] :=
    copiesAsOf_concat_of_not_lt hasOf
  by_cases hfailed : c.usable = false
  · exact keepsPositions_of_listed_iff fun _ _ _ => by
      rw [hconcat, listed_concat_of_failed hlive hfailed]
  rw [Bool.not_eq_false] at hfailed
  have hverified : c.verified ≠ some false := by
    rw [Ne, ← usable_eq_false_iff, hfailed]
    simp
  rcases h with h | h | ⟨r, hr, hkind⟩ | h
  · exact absurd h hasOf
  · exact absurd h hverified
  · exact keepsPositions_of_listed_iff fun _ _ _ => by
      rw [hconcat, listed_concat_of_representative hlive hfailed hr hkind]
  · have hunusable : ∀ q ∈ copiesAsOf copies asOf, q.packHash = c.packHash → q.usable = false :=
      fun q hq hhash => usable_eq_false_iff.mpr (h q hq hhash).1
    obtain ⟨first, hfirst⟩ : ∃ k, Earliest (copiesAsOf copies asOf ++ [c]) c.packHash k :=
      exists_earliest (mem_append_right _ (mem_singleton_self c)) rfl
    refine @keepsPositions_of_last copies asOf c first ?_ ?_ ?_ ?_
    · intro hash hne kind f
      rw [hconcat, listed_concat_of_ne hne.symm]
    · rintro kind f ⟨⟨r, hr, -⟩, -⟩
      have husable := hr.spec.2.2
      rw [hunusable r hr.spec.1 hr.spec.2.1] at husable
      exact absurd husable (by simp)
    · rw [hconcat]
      exact ⟨⟨c, representative_concat_new hfailed hunusable, rfl⟩, hfirst⟩
    · rintro hash f ⟨⟨r, hr, hkind⟩, hf⟩
      -- the new pack's first copy is `c` itself, or a failed one after some copy of `hash`
      obtain ⟨⟨q, hq, hhash, rfl⟩, -⟩ := hfirst
      rcases mem_append.mp hq with hq | hq
      · obtain ⟨q', hq', hhash', hlt⟩ := (h q hq hhash).2 hash r hr hkind
        refine lt_of_le_of_lt ?_ hlt
        rw [Prod.Lex.toLex_le_toLex]
        exact (hf.2 q' hq' hhash').lt_or_eq.imp_right fun heq => ⟨heq, le_rfl⟩
      · rw [mem_singleton.mp hq]
        obtain ⟨⟨q', hq', -, rfl⟩, -⟩ := hf
        exact Prod.Lex.toLex_lt_toLex.mpr (.inl (hlive q' hq'))

theorem kind_of_keepsPositions (hlive : ∀ q ∈ copiesAsOf copies asOf, q.key < c.key)
    (hconcat : copiesAsOf (copies ++ [c]) asOf = copiesAsOf copies asOf ++ [c])
    (husable : c.usable = true) (h : KeepsPositions copies asOf c) {r : PackCopyRow}
    (hr : Representative (copiesAsOf copies asOf) c.packHash r) :
    roleRank r.ownerRole ≤ roleRank c.ownerRole ∨ r.kind = c.kind := by
  by_contra hcon
  push Not at hcon
  obtain ⟨k, hk⟩ := exists_earliest hr.spec.1 hr.spec.2.1
  obtain ⟨p, hp, hhash, hkind, -⟩ := exists_mem_v2PackList ⟨⟨r, hr, rfl⟩, hk⟩
  obtain ⟨p', hp', hhash', hkind', -⟩ := h.keeps p hp
  obtain ⟨⟨r', hr', hr'k⟩, -⟩ := (mem_v2PackList hp').1
  rw [hhash', hhash, hconcat] at hr'
  obtain rfl := IsFirstLeast.unique hr'
    (representative_concat_of_lt hlive husable hr (not_le.mpr hcon.1))
  exact hcon.2 (by rw [hr'k, hkind', hkind])

theorem not_keepsPositions_of_before (hconcat : copiesAsOf (copies ++ [c]) asOf = copiesAsOf copies asOf ++ [c])
    (hnone : ∀ kind f, ¬Listed (copiesAsOf copies asOf) c.packHash kind f)
    (hnew : Listed (copiesAsOf copies asOf ++ [c]) c.packHash c.kind first)
    {k : CopyKey} (hlisted : Listed (copiesAsOf copies asOf) hash c.kind k)
    (hlt : toLex (first, c.packHash) < toLex (k, hash)) : ¬KeepsPositions copies asOf c := by
  intro h
  have hne : ∀ {g kind f}, Listed (copiesAsOf copies asOf) g kind f → c.packHash ≠ g := by
    rintro g kind f hg rfl
    exact hnone kind f hg
  obtain ⟨p, hp, rfl, hpkind, rfl⟩ := exists_mem_v2PackList hlisted
  obtain ⟨p', hp', hhash', hkind', href'⟩ := h.keeps p hp
  obtain ⟨hlisted', hcount'⟩ := mem_v2PackList hp'
  have hfirst' : p'.first = p.first := by
    rw [hhash', hkind', hconcat, listed_concat_of_ne (hne hlisted)] at hlisted'
    exact (hlisted'.unique (mem_v2PackList hp).1).2
  rw [hkind', hhash', hfirst', href', (mem_v2PackList hp).2, hconcat, hpkind] at hcount'
  have hssub : aheadHashes (copiesAsOf copies asOf) c.kind p.first p.packHash ⊂
      aheadHashes (copiesAsOf copies asOf ++ [c]) c.kind p.first p.packHash := by
    refine Finset.ssubset_iff_subset_ne.mpr ⟨fun g hg => ?_, fun heq => ?_⟩
    · rw [mem_aheadHashes] at hg ⊢
      obtain ⟨f, hgf, hltf⟩ := hg
      exact ⟨f, (listed_concat_of_ne (hne hgf)).mpr hgf, hltf⟩
    · have hmem : c.packHash ∈ aheadHashes (copiesAsOf copies asOf ++ [c]) c.kind p.first p.packHash :=
        mem_aheadHashes.mpr ⟨first, hnew, hlt⟩
      rw [← heq, mem_aheadHashes] at hmem
      obtain ⟨f, hf, -⟩ := hmem
      exact hnone _ _ hf
  exact absurd hcount' (Finset.card_lt_card hssub).ne

/-- The condition is necessary. -/
theorem stableCopy_of_keepsPositions (hlast : ∀ q ∈ copies, q.key < c.key)
    (h : KeepsPositions copies asOf c) : StableCopy copies asOf c := by
  by_cases hasOf : ∃ a ∈ asOf, a < c.key
  · exact .inl hasOf
  by_cases hfailed : c.usable = false
  · exact .inr (.inl (usable_eq_false_iff.mp hfailed))
  rw [Bool.not_eq_false] at hfailed
  have hlive : ∀ q ∈ copiesAsOf copies asOf, q.key < c.key := fun q hq =>
    hlast q (mem_of_mem_filter hq)
  have hconcat : copiesAsOf (copies ++ [c]) asOf = copiesAsOf copies asOf ++ [c] :=
    copiesAsOf_concat_of_not_lt hasOf
  by_cases hrep : ∃ r, Representative (copiesAsOf copies asOf) c.packHash r
  · obtain ⟨r, hr⟩ := hrep
    exact .inr (.inr (.inl ⟨r, hr, kind_of_keepsPositions hlive hconcat hfailed h hr⟩))
  · have hunusable : ∀ q ∈ copiesAsOf copies asOf, q.packHash = c.packHash → q.usable = false := by
      intro q hq hhash
      by_contra husable
      exact hrep (exists_representative_iff.mpr ⟨q, hq, hhash, by simpa using husable⟩)
    refine .inr (.inr (.inr fun q hq hhash =>
      ⟨usable_eq_false_iff.mp (hunusable q hq hhash), fun hash r hr hkind => ?_⟩))
    by_contra hcon
    push Not at hcon
    obtain ⟨k, hk⟩ := exists_earliest hr.spec.1 hr.spec.2.1
    obtain ⟨first, hfirst⟩ := exists_earliest hq hhash
    have hne : c.packHash ≠ hash := by
      rintro rfl
      exact hrep ⟨r, hr⟩
    have hlt : toLex (first, c.packHash) < toLex (k, hash) := by
      obtain ⟨⟨q', hq', hq'hash, rfl⟩, -⟩ := hk
      have hle : toLex (q.key, c.packHash) ≤ toLex (q'.key, hash) := hcon q' hq' hq'hash
      have hlt' : toLex (q.key, c.packHash) < toLex (q'.key, hash) :=
        lt_of_le_of_ne hle fun heq => hne (congrArg (fun x => (ofLex x).2) heq)
      refine lt_of_le_of_lt ?_ hlt'
      rw [Prod.Lex.toLex_le_toLex]
      exact (hfirst.2 q hq hhash).lt_or_eq.imp_right fun heq => ⟨heq, le_rfl⟩
    refine not_keepsPositions_of_before hconcat ?_ ?_ ⟨⟨r, hr, hkind⟩, hk⟩ hlt h
    · rintro kind f ⟨⟨r', hr', -⟩, -⟩
      exact hrep ⟨r', hr'⟩
    · exact ⟨⟨c, representative_concat_new hfailed hunusable, rfl⟩, (earliest_concat hlive hq hhash).mpr hfirst⟩

end Positions

/-- **Pack positions.** Whatever the copies, the packs of each kind are numbered from 0 by their
first position, each hash once. A further copy, later than all others, keeps every listed pack's
kind and number, and adds a pack at the end of its kind only, exactly when `StableCopy` holds. -/
theorem v2PackList_keepsPositions_iff (copies : List PackCopyRow) (asOf : Option CopyKey)
    (c : PackCopyRow) (hlast : ∀ q ∈ copies, q.key < c.key) :
    (∀ copies', NumberedByFirst (v2PackList copies' asOf)) ∧
      (KeepsPositions copies asOf c ↔ StableCopy copies asOf c) :=
  ⟨fun copies' => numberedByFirst_v2PackList copies' asOf,
    stableCopy_of_keepsPositions hlast, keepsPositions_of_stableCopy hlast⟩

/-- A writer's copy of a git pack. -/
def writerCopy : PackCopyRow := ⟨"m1", "aa", 0, 1, some .writer, 9, 2, 1, [], some true⟩

/-- A maintainer's later copy of the same pack, as an object locator. -/
def maintainerCopy : PackCopyRow := ⟨"m2", "aa", 1, 2, some .maintainer, 9, 2, 1, [], some true⟩

theorem v2PackList_keepsPositions_writerCopy :
    (∀ q ∈ [writerCopy], q.key < { maintainerCopy with kind := 0 }.key) ∧
      KeepsPositions [writerCopy] none { maintainerCopy with kind := 0 } := by
  refine ⟨by decide, (v2PackList_keepsPositions_iff _ none _ (by decide)).2.mpr ?_⟩
  exact .inr (.inr (.inl ⟨writerCopy, ⟨[], [], rfl, by simp, by simp⟩, .inr rfl⟩))

theorem not_keepsPositions_maintainerCopy :
    (∀ q ∈ [writerCopy], q.key < maintainerCopy.key) ∧
      ¬KeepsPositions [writerCopy] none maintainerCopy := by
  refine ⟨by decide, fun h => ?_⟩
  obtain ⟨p', hp', -, hkind, -⟩ := h.keeps
    ⟨0, "aa", 0, 9, 2, 1, [], toLex (1, "m1"), ["m1"], false⟩ (by decide)
  have hone : ∀ p ∈ v2PackList ([writerCopy] ++ [maintainerCopy]) none, p.kind = 1 := by decide
  rw [hone p' hp'] at hkind
  exact absurd hkind (by decide)

end DashForge
