import DashForge.Rules.PackList

/-!
# The two pack readers agree

`packReadOrder` and `v2PackList` group, rank and select the copies of packs independently
(`rules/v2.rs`). When every copy's bytes were checked and all are of one kind, both list the packs
with a verified copy, read each from the same copy and flag the same packs superseded. Neither can
be made to hide a pack: only verified copies of members move a flag.
-/

namespace DashForge

open List

/-- A checked manifest row as the copy `packReadOrder` reads. -/
def PackCopyRow.toPackCopy (r : PackCopyRow) : PackCopy :=
  ⟨r.id, r.packHash, r.ownerRole, r.createdAt, r.verified == some true, r.supersedes⟩

/-- Every copy has one kind and was checked. -/
structure CheckedRows (kind : ℕ) (rows : List PackCopyRow) : Prop where
  kind_eq : ∀ r ∈ rows, r.kind = kind
  checked : ∀ r ∈ rows, r.verified.isSome = true
  nodup : (rows.map PackCopyRow.id).Nodup

/-- `rows'` has every verified copy of `rows`, and its other verified copies are bots'. What failed
may be added, dropped or changed at will. -/
structure AddsBotsAndFailed (rows rows' : List PackCopyRow) : Prop where
  keeps : ∀ r ∈ rows, r.verified = some true → r ∈ rows'
  adds : ∀ r ∈ rows', r.verified = some true → r ∈ rows ∨ r.ownerRole = some .bot

section Selected

variable {kind : ℕ} {rows : List PackCopyRow}

@[simp]
theorem copiesAsOf_none (copies : List PackCopyRow) : copiesAsOf copies none = copies := by
  simp [copiesAsOf]

variable {r : PackCopyRow} {c : PackCopy} {rows' : List PackCopyRow}

variable (h : CheckedRows kind rows)

include h in
theorem CheckedRows.usable_iff (hr : r ∈ rows) :
    r.usable = true ↔ r.verified = some true := by
  have hsome := h.checked r hr
  obtain ⟨b, hb⟩ := Option.isSome_iff_exists.mp hsome
  cases b <;> simp [PackCopyRow.usable, hb]

variable {hash : String}

include h in
theorem CheckedRows.representative_iff : Representative rows hash r ↔
      (r ∈ rows ∧ r.packHash = hash ∧ r.verified = some true) ∧
        ∀ q ∈ rows, q.packHash = hash → q.verified = some true → r.rankKey ≤ q.rankKey := by
  have hmem : ∀ q, q ∈ rows.filter (fun c => c.packHash == hash && c.usable) ↔
      q ∈ rows ∧ q.packHash = hash ∧ q.verified = some true := by
    intro q
    rw [mem_filter, Bool.and_eq_true, beq_iff_eq]
    exact and_congr_right fun hq => and_congr_right fun _ => h.usable_iff hq
  have hinj : Set.InjOn PackCopyRow.rankKey
      {q | q ∈ rows.filter fun c => c.packHash == hash && c.usable} := by
    intro q hq q' hq' heq
    have hid : q.id = q'.id := congrArg (fun x => (ofLex (ofLex x).2).2) heq
    exact inj_on_of_nodup_map h.nodup (mem_of_mem_filter hq) (mem_of_mem_filter hq')
      hid
  rw [Representative, isFirstLeast_iff hinj]
  simp [hmem]

include h in
theorem CheckedRows.selectPackCopy_eq_some_iff :
    selectPackCopy ((rows.map PackCopyRow.toPackCopy).filter fun c => c.packHash == hash) = some c ↔
      ∃ r, Representative rows hash r ∧ r.toPackCopy = c := by
  have hfilter : (rows.map PackCopyRow.toPackCopy).filter (fun c => c.packHash == hash) =
      (rows.filter fun r => r.packHash == hash).map PackCopyRow.toPackCopy := by
    rw [filter_map]
    rfl
  have hverified : ((rows.filter fun r => r.packHash == hash).filter fun r =>
      r.verified == some true) = rows.filter fun r => r.packHash == hash && r.usable := by
    rw [filter_filter]
    refine filter_congr fun r hr => ?_
    rw [Bool.eq_iff_iff, Bool.and_eq_true, Bool.and_eq_true, h.usable_iff hr, beq_iff_eq, and_comm]
  rw [selectPackCopy, orderPackCopies, hfilter, sortByKey_map, find?_map, Option.map_eq_some_iff]
  refine exists_congr fun r => and_congr_left fun _ => ?_
  rw [← head?_filter, ← sortByKey_filter, head?_sortByKey_eq_some_iff]
  change IsFirstLeast PackCopyRow.rankKey ((rows.filter fun r => r.packHash == hash).filter fun r =>
    r.verified == some true) r ↔ _
  rw [hverified, Representative]

include h in
theorem CheckedRows.mem_selectedCopies :
    c ∈ selectedCopies (rows.map PackCopyRow.toPackCopy) ↔
      ∃ r, Representative rows r.packHash r ∧ r.toPackCopy = c := by
  rw [selectedCopies, mem_filterMap]
  simp only [h.selectPackCopy_eq_some_iff]
  constructor
  · rintro ⟨hash, -, r, hr, rfl⟩
    obtain rfl := hr.spec.2.1
    exact ⟨r, hr, rfl⟩
  · rintro ⟨r, hr, rfl⟩
    refine ⟨r.packHash, mem_sortedDistinct.mpr ?_, r, hr, rfl⟩
    exact mem_map_of_mem (mem_map_of_mem hr.spec.1)

include h in
theorem CheckedRows.mem_supersededBy :
    hash ∈ supersededBy (selectedCopies (rows.map PackCopyRow.toPackCopy)) ↔
      ∃ r, Representative rows r.packHash r ∧ hash ≠ r.packHash ∧
        hash ∈ claimedSupersedes r.ownerRole r.supersedes := by
  simp only [supersededBy, mem_toFinset, mem_flatMap, mem_filter, bne_iff_ne, h.mem_selectedCopies]
  constructor
  · rintro ⟨_, ⟨r, hr, rfl⟩, hclaim, hne⟩
    exact ⟨r, hr, hne, hclaim⟩
  · rintro ⟨r, hr, hne, hclaim⟩
    exact ⟨_, ⟨r, hr, rfl⟩, hclaim, hne⟩

include h in
theorem CheckedRows.mem_supersededPacks (hlisted : ∃ r, Representative rows hash r) :
    hash ∈ supersededPacks (packsOf rows) ↔ hash ∈ supersededBy (selectedCopies (rows.map PackCopyRow.toPackCopy)) := by
  obtain ⟨s, hs⟩ := hlisted
  obtain ⟨qs, hqs⟩ := exists_packOf hs
  have hkind : ∀ {q : V2Pack × Bool} {g : String}, packOf rows g = some q → q.1.kind = kind := by
    intro q g hq
    obtain ⟨r, hr, -, -, hk⟩ := packOf_eq_some hq
    rw [hk, h.kind_eq r hr.spec.1]
  have hfind : ∃ q, (packsOf rows).find? (fun q => q.1.packHash == hash) = some q ∧ q.1.kind = kind := by
    have hsome : ((packsOf rows).find? fun q => q.1.packHash == hash).isSome = true := by
      obtain ⟨-, -, -, rfl, -⟩ := packOf_eq_some hqs
      rw [find?_isSome]
      exact ⟨qs, mem_packsOf.mpr hqs, by simp⟩
    obtain ⟨q, hq⟩ := Option.isSome_iff_exists.mp hsome
    exact ⟨q, hq, hkind (mem_packsOf.mp (mem_of_find?_eq_some hq))⟩
  obtain ⟨qh, hqh, hqk⟩ := hfind
  rw [h.mem_supersededBy]
  simp only [supersededPacks, mem_toFinset, mem_flatMap, mem_filter, mem_packsOf]
  constructor
  · rintro ⟨q, ⟨hq, -⟩, hclaim, hcounts⟩
    obtain ⟨r, hr, -⟩ := packOf_eq_some hq
    rw [(packOf_representative hq hr).2.1] at hclaim
    simp only [hqh, Option.map_some, Option.any_some, supersedesClaimCounts, Bool.and_eq_true, bne_iff_ne] at hcounts
    have hhash := hr.spec.2.1
    rw [← hhash] at hcounts
    exact ⟨r, by rwa [hhash], hcounts.1, hclaim⟩
  · rintro ⟨r, hr, hne, hclaim⟩
    obtain ⟨q, hq⟩ := exists_packOf hr
    obtain ⟨-, hsup, hver⟩ := packOf_representative hq hr
    obtain ⟨-, -, -, hhash, -⟩ := packOf_eq_some hq
    have hverified := (h.usable_iff hr.spec.1).mp hr.spec.2.2
    refine ⟨q, ⟨hhash ▸ hq, by rw [hver, hverified]; rfl⟩, hsup ▸ hclaim, ?_⟩
    simp only [hqh, Option.map_some, Option.any_some, supersedesClaimCounts, Bool.and_eq_true, bne_iff_ne, beq_iff_eq]
    exact ⟨hhash ▸ hne, hqk.trans (hkind hq).symm⟩

/-! ### What each reader lists -/

include h in
theorem CheckedRows.exists_representative_iff :
    (∃ r, Representative rows hash r) ↔ ∃ r ∈ rows, r.packHash = hash ∧ r.verified = some true := by
  rw [DashForge.exists_representative_iff]
  exact exists_congr fun r => and_congr_right fun hr => and_congr_right fun _ => h.usable_iff hr

include h in
theorem CheckedRows.mem_packReadOrder {pick : PackPick} :
    pick ∈ packReadOrder (rows.map PackCopyRow.toPackCopy) ↔
      ∃ r, Representative rows pick.packHash r ∧ pick.copyId = r.id ∧ pick.superseded = decide (pick.packHash ∈
          supersededBy (selectedCopies (rows.map PackCopyRow.toPackCopy))) := by
  rw [packReadOrder, mem_map]
  simp only [mem_sortByKey, h.mem_selectedCopies]
  constructor
  · rintro ⟨_, ⟨r, hr, rfl⟩, rfl⟩
    exact ⟨r, hr, rfl, rfl⟩
  · rintro ⟨r, hr, hid, hsup⟩
    have hhash := hr.spec.2.1
    refine ⟨_, ⟨r, hhash.symm ▸ hr, rfl⟩, ?_⟩
    obtain ⟨hash, copyId, superseded⟩ := pick
    dsimp only at hhash hid hsup
    subst hhash hid
    rw [hsup]
    rfl

include h in
theorem CheckedRows.mem_v2PackList {p : V2Pack}
    (hp : p ∈ v2PackList rows none) : ∃ r, Representative rows p.packHash r ∧
      p.copies.head? = some r.id ∧ p.superseded = decide (p.packHash ∈
        supersededBy (selectedCopies (rows.map PackCopyRow.toPackCopy))) := by
  obtain ⟨q, hq, rfl⟩ := mem_v2PackList_iff.mp hp
  rw [copiesAsOf_none] at hq ⊢
  obtain ⟨r, hr, -⟩ := packOf_eq_some hq
  refine ⟨r, hr, (packOf_representative hq hr).1, ?_⟩
  exact decide_eq_decide.mpr (h.mem_supersededPacks ⟨r, hr⟩)

include h in
theorem CheckedRows.mem_map_packHash_v2PackList :
    hash ∈ (v2PackList rows none).map V2Pack.packHash ↔ ∃ r, Representative rows hash r := by
  rw [mem_map]
  constructor
  · rintro ⟨p, hp, rfl⟩
    obtain ⟨r, hr, -⟩ := h.mem_v2PackList hp
    exact ⟨r, hr⟩
  · rintro ⟨r, hr⟩
    obtain ⟨k, hk⟩ := exists_earliest hr.spec.1 hr.spec.2.1
    have hlisted : Listed (copiesAsOf rows none) hash r.kind k := by
      rw [copiesAsOf_none]
      exact ⟨⟨r, hr, rfl⟩, hk⟩
    obtain ⟨p, hp, hhash, -⟩ := exists_mem_v2PackList hlisted
    exact ⟨p, hp, hhash⟩

include h in
theorem CheckedRows.mem_map_packHash_packReadOrder :
    hash ∈ (packReadOrder (rows.map PackCopyRow.toPackCopy)).map PackPick.packHash ↔
      ∃ r, Representative rows hash r := by
  rw [mem_map]
  constructor
  · rintro ⟨pick, hpick, rfl⟩
    obtain ⟨r, hr, -⟩ := h.mem_packReadOrder.mp hpick
    exact ⟨r, hr⟩
  · rintro ⟨r, hr⟩
    refine ⟨⟨hash, r.id, decide (hash ∈ supersededBy (selectedCopies (rows.map PackCopyRow.toPackCopy)))⟩, ?_, rfl⟩
    exact h.mem_packReadOrder.mpr ⟨r, hr, rfl, rfl⟩

/-- Superseded packs come last. -/
theorem pairwise_packReadOrder (copies : List PackCopy) :
    (packReadOrder copies).Pairwise fun a b => a.superseded = true → b.superseded = true := by
  rw [packReadOrder, pairwise_map]
  refine (pairwise_sortByKey _ _).imp fun {a b} h ha => ?_
  rw [Prod.Lex.toLex_le_toLex] at h
  have hle : decide (a.packHash ∈ supersededBy (selectedCopies copies)) ≤
      decide (b.packHash ∈ supersededBy (selectedCopies copies)) := h.elim le_of_lt fun h => h.1.le
  exact Bool.eq_true_of_true_le (le_of_eq_of_le ha.symm hle)

theorem nodup_packHash_packReadOrder (copies : List PackCopy) :
    ((packReadOrder copies).map PackPick.packHash).Nodup := by
  have hperm : ((packReadOrder copies).map PackPick.packHash).Perm
      ((selectedCopies copies).map PackCopy.packHash) := by
    rw [packReadOrder, map_map]
    exact (perm_sortByKey _ _).map _
  rw [hperm.nodup_iff, nodup_iff_pairwise_ne, pairwise_map, selectedCopies, pairwise_filterMap]
  refine (nodup_sortedDistinct _).imp fun hne c hc c' hc' heq => hne ?_
  have hhash : ∀ {hash : String} {c : PackCopy},
      selectPackCopy (copies.filter fun c => c.packHash == hash) = some c → c.packHash = hash := by
    intro hash c hc
    have hmem := mem_of_find?_eq_some hc
    rw [orderPackCopies, mem_sortByKey, mem_filter, beq_iff_eq] at hmem
    exact hmem.2
  rw [← hhash hc, heq, hhash hc']

/-! ### Nothing can be hidden -/

include h in
/-- A claim that counts after bots' and failed copies were added counted before. -/
theorem CheckedRows.mem_supersededBy_of_adds (h' : CheckedRows kind rows')
    (hadds : AddsBotsAndFailed rows rows')
    (hsup : hash ∈ supersededBy (selectedCopies (rows'.map PackCopyRow.toPackCopy))) :
    hash ∈ supersededBy (selectedCopies (rows.map PackCopyRow.toPackCopy)) := by
  obtain ⟨r, hr, hne, hclaim⟩ := h'.mem_supersededBy.mp hsup
  obtain ⟨⟨hmem, -, hverified⟩, hleast⟩ := h'.representative_iff.mp hr
  have hbot : r.ownerRole ≠ some .bot := by
    intro hbot
    simp [claimedSupersedes, hbot] at hclaim
  have hmem' : r ∈ rows := (hadds.adds r hmem hverified).resolve_right hbot
  refine h.mem_supersededBy.mpr ⟨r, h.representative_iff.mpr ⟨⟨hmem', rfl, hverified⟩, ?_⟩, hne, hclaim⟩
  intro q hq hhash hqv
  exact hleast q (hadds.keeps q hq hqv) hhash hqv

include h in
theorem CheckedRows.exists_representative_of_adds (h' : CheckedRows kind rows')
    (hadds : AddsBotsAndFailed rows rows')
    (hrep : ∃ r, Representative rows hash r) : ∃ r, Representative rows' hash r := by
  obtain ⟨r, hr, hhash, hverified⟩ := h.exists_representative_iff.mp hrep
  exact h'.exists_representative_iff.mpr ⟨r, hadds.keeps r hr hverified, hhash, hverified⟩

end Selected

/-- **The two readers agree, and no pack can be hidden.** On checked copies of one kind both list
exactly the packs with a verified copy, each once, read each from the same copy and flag the same
ones superseded; the read order puts those last. Adding bots' copies and failed copies, whatever
they claim, removes no listed pack from either reader and flags none that was not. -/
theorem packReaders_agree {kind : ℕ} {rows : List PackCopyRow} (h : CheckedRows kind rows) :
    ((packReadOrder (rows.map PackCopyRow.toPackCopy)).map PackPick.packHash).Nodup ∧
    ((v2PackList rows none).map V2Pack.packHash).Nodup ∧
    (∀ hash, hash ∈ (packReadOrder (rows.map PackCopyRow.toPackCopy)).map PackPick.packHash ↔
      ∃ r ∈ rows, r.packHash = hash ∧ r.verified = some true) ∧
    (∀ hash, hash ∈ (v2PackList rows none).map V2Pack.packHash ↔
      ∃ r ∈ rows, r.packHash = hash ∧ r.verified = some true) ∧
    (∀ pick ∈ packReadOrder (rows.map PackCopyRow.toPackCopy), ∀ p ∈ v2PackList rows none,
      pick.packHash = p.packHash →
        p.copies.head? = some pick.copyId ∧ pick.superseded = p.superseded) ∧
    (packReadOrder (rows.map PackCopyRow.toPackCopy)).Pairwise
      (fun a b => a.superseded = true → b.superseded = true) ∧
    ∀ rows', CheckedRows kind rows' → AddsBotsAndFailed rows rows' →
      (∀ pick ∈ packReadOrder (rows.map PackCopyRow.toPackCopy),
        ∃ pick' ∈ packReadOrder (rows'.map PackCopyRow.toPackCopy),
          pick'.packHash = pick.packHash ∧ (pick'.superseded = true → pick.superseded = true)) ∧
      ∀ p ∈ v2PackList rows none, ∃ p' ∈ v2PackList rows' none,
        p'.packHash = p.packHash ∧ (p'.superseded = true → p.superseded = true) := by
  refine ⟨nodup_packHash_packReadOrder _, (numberedByFirst_v2PackList rows none).nodup,
    fun hash => ?_, fun hash => ?_, fun pick hpick p hp heq => ?_, pairwise_packReadOrder _,
    fun rows' h' hadds => ⟨fun pick hpick => ?_, fun p hp => ?_⟩⟩
  · rw [h.mem_map_packHash_packReadOrder, h.exists_representative_iff]
  · rw [h.mem_map_packHash_v2PackList, h.exists_representative_iff]
  · obtain ⟨r, hr, hid, hsup⟩ := h.mem_packReadOrder.mp hpick
    obtain ⟨r', hr', hhead, hsup'⟩ := h.mem_v2PackList hp
    rw [← heq] at hr' hsup'
    rw [hhead, hid, IsFirstLeast.unique hr hr', hsup, hsup']
    exact ⟨rfl, rfl⟩
  · obtain ⟨r, hr, -, hsup⟩ := h.mem_packReadOrder.mp hpick
    have hlisted := h'.mem_map_packHash_packReadOrder.mpr
      (h.exists_representative_of_adds h' hadds ⟨r, hr⟩)
    obtain ⟨pick', hpick', hhash⟩ := mem_map.mp hlisted
    obtain ⟨-, -, -, hsup'⟩ := h'.mem_packReadOrder.mp hpick'
    refine ⟨pick', hpick', hhash, fun htrue => ?_⟩
    rw [hsup', hhash, decide_eq_true_eq] at htrue
    rw [hsup, decide_eq_true_eq]
    exact h.mem_supersededBy_of_adds h' hadds htrue
  · obtain ⟨r, hr, -, hsup⟩ := h.mem_v2PackList hp
    have hlisted := h'.mem_map_packHash_v2PackList.mpr
      (h.exists_representative_of_adds h' hadds ⟨r, hr⟩)
    obtain ⟨p', hp', hhash⟩ := mem_map.mp hlisted
    obtain ⟨-, -, -, hsup'⟩ := h'.mem_v2PackList hp'
    refine ⟨p', hp', hhash, fun htrue => ?_⟩
    rw [hsup', hhash, decide_eq_true_eq] at htrue
    rw [hsup, decide_eq_true_eq]
    exact h.mem_supersededBy_of_adds h' hadds htrue

/-- A pack, and one that consolidates it. -/
def consolidatedRows : List PackCopyRow :=
  [⟨"m1", "aa", 0, 1, some .writer, 9, 2, 1, [], some true⟩,
    ⟨"m2", "bb", 0, 2, some .maintainer, 9, 4, 1, ["aa"], some true⟩]

theorem packReaders_agree_consolidatedRows : CheckedRows 0 consolidatedRows ∧
    ∀ hash, hash ∈ (v2PackList consolidatedRows none).map V2Pack.packHash ↔
      ∃ r ∈ consolidatedRows, r.packHash = hash ∧ r.verified = some true := by
  have h : CheckedRows 0 consolidatedRows := ⟨by decide, by decide, by decide⟩
  exact ⟨h, (packReaders_agree h).2.2.2.1⟩

example : packReadOrder (consolidatedRows.map PackCopyRow.toPackCopy) =
    [⟨"bb", "m2", false⟩, ⟨"aa", "m1", true⟩] := by decide

end DashForge
