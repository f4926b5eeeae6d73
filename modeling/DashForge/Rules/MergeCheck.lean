import DashForge.Data.SortBy
import DashForge.Data.SortedMap

/-!
# Whether a merge holds its pull request

The fold checks of a recorded merge only that its commit has been a tip of the base, so readers look at git
(`rules/merge_check.rs`): a walk tells whether the pull request's head is in the merge, and three tree changes
(`MergeFacts`) whether the merge makes the pull request's change without its commits. `mergeContent` labels the merge
from these facts, of which each may be unread.

A tree is a map from paths to blobs, and `Tree.change` the change between two. On the changes of four trees the label
says what the merged tree is, path by path (`MergedTree`): `mem_differing` and `sameChanges_eq` read the code's
comparisons of the changes as comparisons of the trees. `sameChanges_eq_none` says which facts rule a change out, and
these stay as they are when others become known.
-/

namespace DashForge.MergeCheck

open List SortedMap

/-- A tree-level change between two commits: each changed path and the blob it ends with, `""` where the change
deletes it. -/
abbrev TreeChange := SortedMap String String

/-- What a reader found in git about a recorded merge; `none` where it could not be read. -/
structure MergeFacts where
  /-- The head of the pull request when it was merged. -/
  headOid : String
  mergeOid : String
  /-- The base's tip before the merge, `""` when there is none. -/
  tipBefore : String := ""
  mergeParents : List String := []
  /-- The head is the merge commit or one of its ancestors. -/
  headInMerge : Option Bool := none
  /-- The tip before is an ancestor of the merge commit. -/
  tipBeforeInMerge : Option Bool := none
  /-- What the merge changed from the tip before. -/
  mergeChange : Option TreeChange := none
  /-- What the pull request changes from the merge base. -/
  prChange : Option TreeChange := none
  /-- What the base changed meanwhile, from the merge base to the tip before. -/
  baseChange : Option TreeChange := none

inductive MergeVerdict where
  | contains
  | squash
  | rebase
  | missing
  | unknown
deriving DecidableEq, Repr

/-- How a recorded merge relates to the pull request. -/
structure MergeContent where
  verdict : MergeVerdict
  /-- The paths the base changed too whose merged blob is not the pull request's. -/
  combined : List String
deriving DecidableEq, Repr

/-- The paths that the merge does not leave with the pull request's blob. -/
def differing (merge pr : TreeChange) : List String :=
  (pr.entries.filter fun x => merge.lookup x.1 ≠ some x.2).map Prod.fst

/-- Whether the merge's change is the pull request's: the combined paths when it is, `none` when it is not, and an
error when a fact needed to decide could not be read. -/
def sameChanges (f : MergeFacts) : Except Unit (Option (List String)) :=
  if f.tipBefore = "" ∨ f.tipBeforeInMerge = some false then .ok none
  else
    match f.tipBeforeInMerge, f.mergeChange, f.prChange with
    | some true, some merge, some pr =>
      if merge.keys.any fun p => (pr.lookup p).isNone then .ok none
      else if differing merge pr = [] then .ok (some [])
      else
        match f.baseChange with
        | none => .error ()
        | some base =>
          if (differing merge pr).all fun p => (base.lookup p).isSome then
            -- What the base already changed as the pull request does, and the merge left alone, is not combined.
            .ok (some ((differing merge pr).filter fun p => ¬(merge.lookup p = none ∧ base.lookup p = pr.lookup p)))
          else .ok none
    | _, _, _ => .error ()

/-- Label a recorded merge from git facts. -/
def mergeContent (f : MergeFacts) : MergeContent :=
  if f.headInMerge = some true ∨ f.headOid ≠ "" ∧ f.headOid = f.mergeOid then ⟨.contains, []⟩
  else
    match sameChanges f with
    | .ok (some combined) => ⟨if f.mergeParents = [f.tipBefore] then .squash else .rebase, combined⟩
    | .ok none => if f.headInMerge = some false then ⟨.missing, []⟩ else ⟨.unknown, []⟩
    | .error _ => ⟨.unknown, []⟩

/-! ### Trees and their changes -/

/-- A tree: the blob of each of its paths. -/
structure Tree where
  blobs : SortedMap String String
  blob_ne : ∀ p, blobs.lookup p ≠ some ""

/-- The blob at a path. -/
def Tree.blob (t : Tree) (p : String) : Option String := t.blobs.lookup p

/-- The tree of some paths, each with its blob. -/
def Tree.ofEntries (entries : List (String × String)) (hnodup : (entries.map Prod.fst).Nodup)
    (hne : ∀ x ∈ entries, x.2 ≠ "") : Tree where
  blobs := .ofList entries
  blob_ne := fun p hp => hne (p, "") ((lookup_ofList hnodup).mp hp) rfl

/-- The change between two trees. -/
def Tree.change (t t' : Tree) : TreeChange :=
  .ofList ((sortedDistinct (t.blobs.keys ++ t'.blobs.keys)).filterMap fun p =>
    if t.blob p = t'.blob p then none else some (p, (t'.blob p).getD ""))

/-- A change lists the paths whose blob it changes, with what it leaves there. -/
theorem Tree.lookup_change (t t' : Tree) (p : String) :
    (t.change t').lookup p = if t.blob p = t'.blob p then none else some ((t'.blob p).getD "") := by
  have hnodup : (((sortedDistinct (t.blobs.keys ++ t'.blobs.keys)).filterMap fun p =>
      if t.blob p = t'.blob p then none else some (p, (t'.blob p).getD "")).map Prod.fst).Nodup := by
    rw [map_filterMap]
    refine (nodup_sortedDistinct _).filterMap fun a a' b hb hb' => ?_
    obtain ⟨x, hx, rfl⟩ := Option.map_eq_some_iff.mp hb
    obtain ⟨x', hx', heq⟩ := Option.map_eq_some_iff.mp hb'
    split_ifs at hx hx'
    rw [← Option.some.inj hx, ← Option.some.inj hx'] at heq
    exact heq.symm
  refine Option.ext fun b => ?_
  rw [change, lookup_ofList hnodup, mem_filterMap]
  constructor
  · rintro ⟨q, -, hq⟩
    split_ifs at hq with hne
    obtain ⟨rfl, rfl⟩ := Prod.mk.inj (Option.some.inj hq)
    rw [if_neg hne]
  · intro hb
    split_ifs at hb with hne
    refine ⟨p, ?_, by rw [if_neg hne, Option.some.inj hb]⟩
    -- a path in neither tree has no blob in both
    by_contra hmem
    rw [mem_sortedDistinct, mem_append, not_or] at hmem
    exact hne ((lookup_eq_none_iff.mpr hmem.1).trans (lookup_eq_none_iff.mpr hmem.2).symm)

variable {t t' : Tree} {p : String}

theorem Tree.getD_inj : (t.blob p).getD "" = (t'.blob p).getD "" ↔ t.blob p = t'.blob p := by
  refine ⟨fun h => ?_, fun h => by rw [h]⟩
  have hne := t.blob_ne p
  have hne' := t'.blob_ne p
  rw [← Tree.blob] at hne hne'
  rcases hb : t.blob p with _ | b <;> rcases hb' : t'.blob p with _ | b'
  · rfl
  · rw [hb, hb'] at h
    exact absurd (hb'.trans (congrArg some h.symm)) hne'
  · rw [hb, hb'] at h
    exact absurd (hb.trans (congrArg some h)) hne
  · rw [hb, hb'] at h
    exact congrArg some h

theorem Tree.lookup_change_eq_none : (t.change t').lookup p = none ↔ t.blob p = t'.blob p := by
  rw [lookup_change]
  split_ifs with h <;> simp [h]

theorem Tree.lookup_change_eq_some {b : String} :
    (t.change t').lookup p = some b ↔ t.blob p ≠ t'.blob p ∧ (t'.blob p).getD "" = b := by
  rw [lookup_change]
  split_ifs with h <;> simp [h]

theorem mem_differing {merge pr : TreeChange} :
    p ∈ differing merge pr ↔ ∃ b, pr.lookup p = some b ∧ merge.lookup p ≠ some b := by
  simp only [differing, mem_map, mem_filter, decide_eq_true_eq, SortedMap.lookup_eq_some_iff]
  constructor
  · rintro ⟨x, ⟨hx, hne⟩, rfl⟩
    exact ⟨x.2, hx, hne⟩
  · rintro ⟨b, hb, hne⟩
    exact ⟨(p, b), ⟨hb, hne⟩, rfl⟩

/-! ### Facts that were read -/

variable {base tip head merged : Tree} {f f' : MergeFacts}

/-- The facts read from four trees, for a merge on the base's tip that does not have the head in it. -/
structure Read (base tip head merged : Tree) (f : MergeFacts) : Prop where
  mergeChange : f.mergeChange = some (tip.change merged)
  prChange : f.prChange = some (base.change head)
  baseChange : f.baseChange = some (base.change tip)
  tipBefore : f.tipBefore ≠ ""
  tipBeforeInMerge : f.tipBeforeInMerge = some true
  headInMerge : f.headInMerge = some false
  /-- The head would be in a merge that is the head. -/
  headOid : f.headOid ≠ f.mergeOid

/-- The merged tree is a clean merge's: the head's where the pull request changed a path, the tip's elsewhere. -/
def MergedTree (base tip head merged : Tree) : Prop :=
  ∀ p, merged.blob p = if head.blob p ≠ base.blob p then head.blob p else tip.blob p

/-- What the code asks of the changes: the merge leaves alone what the pull request does, and the base changed what the
merge does not leave with the head's blob by its own change. -/
def Allowed (base tip head merged : Tree) : Prop :=
  (∀ p, base.blob p = head.blob p → tip.blob p = merged.blob p) ∧
    ∀ p, base.blob p ≠ head.blob p → (tip.blob p = merged.blob p ∨ merged.blob p ≠ head.blob p) →
      base.blob p ≠ tip.blob p

theorem mem_differing_change : p ∈ differing (tip.change merged) (base.change head) ↔
    base.blob p ≠ head.blob p ∧ (tip.blob p = merged.blob p ∨ merged.blob p ≠ head.blob p) := by
  simp only [mem_differing, Tree.lookup_change_eq_some, ne_eq, not_and, and_assoc, exists_and_left, exists_eq_left',
    Tree.getD_inj]
  refine and_congr_right fun _ => ?_
  rw [imp_iff_or_not, not_not, or_comm]

/-- **What the comparison of the changes says of the trees.** -/
theorem sameChanges_eq (h : Read base tip head merged f) : (sameChanges f = .ok none ∧ ¬Allowed base tip head merged) ∨
      ∃ combined, sameChanges f = .ok (some combined) ∧ Allowed base tip head merged ∧
        ∀ p, p ∈ combined ↔ base.blob p ≠ head.blob p ∧ merged.blob p ≠ head.blob p := by
  have htip : ¬(f.tipBefore = "" ∨ f.tipBeforeInMerge = some false) := by
    rw [h.tipBeforeInMerge]
    exact fun hor => hor.elim h.tipBefore (by simp)
  have houtside : ((tip.change merged).keys.any fun p => ((base.change head).lookup p).isNone) = true ↔
      ¬∀ p, base.blob p = head.blob p → tip.blob p = merged.blob p := by
    simp only [any_eq_true, Option.isNone_iff_eq_none, Tree.lookup_change_eq_none, mem_keys_iff,
      Tree.lookup_change_eq_some, not_forall]
    constructor
    · rintro ⟨p, ⟨b, hne, -⟩, heq⟩
      exact ⟨p, heq, hne⟩
    · rintro ⟨p, heq, hne⟩
      exact ⟨p, ⟨_, hne, rfl⟩, heq⟩
  have hbase : ((differing (tip.change merged) (base.change head)).all fun p => ((base.change tip).lookup p).isSome) =
      true ↔ ∀ p, base.blob p ≠ head.blob p → (tip.blob p = merged.blob p ∨ merged.blob p ≠ head.blob p) →
        base.blob p ≠ tip.blob p := by
    simp only [all_eq_true, Option.isSome_iff_ne_none, ne_eq, Tree.lookup_change_eq_none, mem_differing_change,
      and_imp]
  rw [sameChanges, if_neg htip, h.tipBeforeInMerge, h.mergeChange, h.prChange, h.baseChange]
  dsimp only
  split_ifs with hout hnil hall
  · exact .inl ⟨rfl, fun hok => houtside.mp hout hok.1⟩
  · refine .inr ⟨[], rfl, ⟨not_not.mp (mt houtside.mpr hout), ?_⟩, fun p => ?_⟩
    · rw [← hbase, hnil, all_nil]
    · refine iff_of_false not_mem_nil fun hp => ?_
      have hmem : p ∈ differing (tip.change merged) (base.change head) := mem_differing_change.mpr ⟨hp.1, .inr hp.2⟩
      rw [hnil] at hmem
      exact not_mem_nil hmem
  · refine .inr ⟨_, rfl, ⟨not_not.mp (mt houtside.mpr hout), hbase.mp hall⟩, fun p => ?_⟩
    rw [mem_filter, mem_differing_change, decide_eq_true_eq, Tree.lookup_change_eq_none]
    constructor
    · rintro ⟨⟨hne, hor⟩, hleft⟩
      refine ⟨hne, fun hhead => hleft ?_⟩
      -- the merged blob is the head's, so the merge left the path as it was on the base
      have htipMerged : tip.blob p = merged.blob p := hor.resolve_right (not_not.mpr hhead)
      have hchanged := hbase.mp hall p hne hor
      refine ⟨htipMerged, ?_⟩
      rw [Tree.lookup_change, Tree.lookup_change, if_neg hchanged, if_neg hne, htipMerged, hhead]
    · rintro ⟨hne, hmerged⟩
      refine ⟨⟨hne, .inr hmerged⟩, fun hkept => hmerged ?_⟩
      have hchanged := hbase.mp hall p hne (.inr hmerged)
      have hblobs := hkept.2
      rw [Tree.lookup_change, Tree.lookup_change, if_neg hchanged, if_neg hne] at hblobs
      exact hkept.1.symm.trans (Tree.getD_inj.mp (Option.some.inj hblobs))
  · exact .inl ⟨rfl, fun hok => hall (hbase.mpr hok.2)⟩

theorem MergedTree.allowed (h : MergedTree base tip head merged) : Allowed base tip head merged := by
  refine ⟨fun p heq => ?_, fun p hne hor htip => ?_⟩
  · rw [h p, if_neg (not_not.mpr heq.symm)]
  · -- the merge leaves the head's blob, so it did nothing where the base holds it already
    have hmerged : merged.blob p = head.blob p := by rw [h p, if_pos (Ne.symm hne)]
    exact hne (htip.trans ((hor.resolve_right (not_not.mpr hmerged)).trans hmerged))

/-- The label on facts that were read, by whether the comparison found the change. -/
theorem mergeContent_eq (h : Read base tip head merged f) : mergeContent f = match sameChanges f with
      | .ok (some combined) => ⟨if f.mergeParents = [f.tipBefore] then .squash else .rebase, combined⟩
      | .ok none => ⟨.missing, []⟩
      | .error _ => ⟨.unknown, []⟩ := by
  have hnot : ¬(f.headInMerge = some true ∨ f.headOid ≠ "" ∧ f.headOid = f.mergeOid) := by
    rw [h.headInMerge]
    exact fun hor => hor.elim (by simp) fun hhead => h.headOid hhead.2
  rw [mergeContent, if_neg hnot, if_pos h.headInMerge]

/-! ### Facts that were not read -/

/-- `f'` knows what `f` knows, and perhaps more. -/
structure Completes (f f' : MergeFacts) : Prop where
  headOid : f'.headOid = f.headOid
  mergeOid : f'.mergeOid = f.mergeOid
  tipBefore : f'.tipBefore = f.tipBefore
  mergeParents : f'.mergeParents = f.mergeParents
  headInMerge : f.headInMerge = none ∨ f'.headInMerge = f.headInMerge
  tipBeforeInMerge : f.tipBeforeInMerge = none ∨ f'.tipBeforeInMerge = f.tipBeforeInMerge
  mergeChange : f.mergeChange = none ∨ f'.mergeChange = f.mergeChange
  prChange : f.prChange = none ∨ f'.prChange = f.prChange
  baseChange : f.baseChange = none ∨ f'.baseChange = f.baseChange

theorem eq_of_completes {α : Type*} {x x' : Option α} {a : α} (h : x = none ∨ x' = x)
    (hx : x = some a) : x' = some a := by
  rcases h with h | h
  · exact absurd (h.symm.trans hx) (by simp)
  · exact h.trans hx

theorem sameChanges_eq_none : sameChanges f = .ok none ↔ f.tipBefore = "" ∨ f.tipBeforeInMerge = some false ∨
      ∃ merge pr, f.tipBeforeInMerge = some true ∧ f.mergeChange = some merge ∧ f.prChange = some pr ∧
        ((∃ p ∈ merge.keys, pr.lookup p = none) ∨
          ∃ base, f.baseChange = some base ∧ ∃ p ∈ differing merge pr, base.lookup p = none) := by
  rw [sameChanges]
  by_cases htip : f.tipBefore = "" ∨ f.tipBeforeInMerge = some false
  · rw [if_pos htip]
    exact iff_of_true rfl (htip.imp_right .inl)
  rw [if_neg htip]
  rw [not_or] at htip
  simp only [htip.1, htip.2, false_or]
  split
  · next merge pr hin hmerge hpr =>
    simp only [hin, hmerge, hpr, Option.some.injEq, exists_and_left, exists_eq_left', true_and, any_eq_true,
      Option.isNone_iff_eq_none]
    by_cases hout : ∃ p ∈ merge.keys, pr.lookup p = none
    · rw [if_pos hout]
      exact iff_of_true rfl (.inl hout)
    rw [if_neg hout]
    simp only [hout, false_or]
    by_cases hnil : differing merge pr = []
    · simp [hnil]
    rw [if_neg hnil]
    cases f.baseChange with
    | none => simp
    | some base => simp
  · next hunread =>
    refine iff_of_false (by simp) ?_
    rintro ⟨merge, pr, hin, hmerge, hpr, -⟩
    exact hunread merge pr hin hmerge hpr

/-- A change that is ruled out stays so, whatever else becomes known. -/
theorem Completes.sameChanges_eq_none (h : Completes f f') (hnone : sameChanges f = .ok none) :
    sameChanges f' = .ok none := by
  rw [MergeCheck.sameChanges_eq_none] at hnone ⊢
  rw [h.tipBefore]
  refine hnone.imp_right (Or.imp (eq_of_completes h.tipBeforeInMerge) ?_)
  rintro ⟨merge, pr, hin, hmerge, hpr, hout⟩
  refine ⟨merge, pr, eq_of_completes h.tipBeforeInMerge hin, eq_of_completes h.mergeChange hmerge,
    eq_of_completes h.prChange hpr, hout.imp_right ?_⟩
  rintro ⟨base, hbase, hleft⟩
  exact ⟨base, eq_of_completes h.baseChange hbase, hleft⟩

theorem verdict_eq_missing : (mergeContent f).verdict = .missing ↔
    ¬(f.headOid ≠ "" ∧ f.headOid = f.mergeOid) ∧ sameChanges f = .ok none ∧ f.headInMerge = some false := by
  rw [mergeContent]
  by_cases hin : f.headInMerge = some true ∨ f.headOid ≠ "" ∧ f.headOid = f.mergeOid
  · rw [if_pos hin]
    refine iff_of_false (by simp) fun hmissing => ?_
    rcases hin with hin | hin
    · simp [hin] at hmissing
    · exact hmissing.1 hin
  · rw [if_neg hin]
    rw [not_or] at hin
    rcases sameChanges f with _ | _ | combined
    · simp
    · by_cases hout : f.headInMerge = some false
      · simp [hout, hin.2]
      · simp [hout]
    · by_cases hparents : f.mergeParents = [f.tipBefore] <;> simp [hparents]

/-- **The label of a merge** on facts that were read from the base, the tip, the head and the merged tree: a squash or
a rebase without combined paths is the clean merge, and the clean merge is labelled so; the combined paths of a squash or
a rebase are all those the pull request changes whose merged blob is not its own, and no other label has any. On facts
that may be unread, a merge is missing only if it would be with every other fact known. -/
theorem mergeContent_spec :
    (∀ base tip head merged f, Read base tip head merged f →
      ((mergeContent f).verdict = .squash ∨ (mergeContent f).verdict = .rebase →
        ((mergeContent f).combined = [] → MergedTree base tip head merged) ∧
        ∀ p, head.blob p ≠ base.blob p → merged.blob p ≠ head.blob p → p ∈ (mergeContent f).combined) ∧
      (MergedTree base tip head merged →
        ((mergeContent f).verdict = .squash ∨ (mergeContent f).verdict = .rebase) ∧ (mergeContent f).combined = []) ∧
      ((mergeContent f).verdict ≠ .squash ∧ (mergeContent f).verdict ≠ .rebase → (mergeContent f).combined = [])) ∧
    ∀ f f', Completes f f' → (mergeContent f).verdict = .missing → (mergeContent f').verdict = .missing := by
  refine ⟨fun base tip head merged f h => ?_, fun f f' h hmissing => ?_⟩
  · rcases sameChanges_eq h with ⟨hsame, hnot⟩ | ⟨combined, hsame, hallowed, hmem⟩
    · rw [mergeContent_eq h, hsame]
      exact ⟨by simp, fun hmerged => absurd hmerged.allowed hnot, fun _ => rfl⟩
    · rw [mergeContent_eq h, hsame]
      refine ⟨fun _ => ⟨fun hnil p => ?_, fun p hne hmerged => (hmem p).mpr ⟨hne.symm, hmerged⟩⟩,
        fun hmerged => ⟨?_, ?_⟩,
        fun hnot => ?_⟩
      · -- no path is combined, so the merged blob is the head's wherever the head changed it
        obtain rfl : combined = [] := hnil
        split_ifs with hne
        · by_contra hmerged
          exact not_mem_nil ((hmem p).mpr ⟨hne.symm, hmerged⟩)
        · exact (hallowed.1 p (not_not.mp hne).symm).symm
      · by_cases hparents : f.mergeParents = [f.tipBefore] <;> simp [hparents]
      · refine eq_nil_iff_forall_not_mem.mpr fun p hp => ?_
        obtain ⟨hne, hmerged'⟩ := (hmem p).mp hp
        exact hmerged' (by rw [hmerged p, if_pos hne.symm])
      · by_cases hparents : f.mergeParents = [f.tipBefore] <;> simp [hparents] at hnot
  · obtain ⟨hhead, hsame, hin⟩ := verdict_eq_missing.mp hmissing
    refine verdict_eq_missing.mpr ⟨?_, h.sameChanges_eq_none hsame, eq_of_completes h.headInMerge hin⟩
    rw [h.headOid, h.mergeOid]
    exact hhead

/-- The facts of a merge that changed another path than its pull request, with the base's changes unread. -/
def unreadFacts : MergeFacts where
  headOid := "h"
  mergeOid := "m"
  tipBefore := "t"
  mergeParents := ["t"]
  headInMerge := some false
  tipBeforeInMerge := some true
  mergeChange := some (.ofList [("a", "1")])
  prChange := some (.ofList [("b", "2")])

/-- A squash: the pull request changed one path and the base added another. And a merge that is missing while the
changes of the base are unread is missing when they are read. -/
theorem mergeContent_spec_sample :
    MergedTree (.ofEntries [("a", "1")] (by decide) (by decide))
      (.ofEntries [("a", "1"), ("b", "2")] (by decide) (by decide)) (.ofEntries [("a", "3")] (by decide) (by decide))
      (.ofEntries [("a", "3"), ("b", "2")] (by decide) (by decide)) ∧
    (mergeContent { unreadFacts with baseChange := some (.ofList [("a", "3")]) }).verdict = .missing := by
  refine ⟨((mergeContent_spec.1 _ _ _ _
    { headOid := "h", mergeOid := "m", tipBefore := "t", mergeParents := ["t"], headInMerge := some false
      tipBeforeInMerge := some true, mergeChange := some _, prChange := some _, baseChange := some _ }
    ⟨rfl, rfl, rfl, by decide, rfl, rfl, by decide⟩).1 (.inl (by decide +kernel))).1 (by decide +kernel), ?_⟩
  exact mergeContent_spec.2 unreadFacts _ (by constructor <;> simp [unreadFacts]) (by decide +kernel)

end DashForge.MergeCheck
