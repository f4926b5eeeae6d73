import DashForge.Rules.RefUpdate
import DashForge.Rules.Role
import Mathlib.Data.Finset.Sort

/-!
# Approvals and branch policy

`countApprovals` folds a PR's reviews into the identities whose standing verdict is an approval and
those whose standing verdict requests changes (`rules/v2.rs`), and `meetsPolicy` judges them against
a branch policy (`rules/review.rs`).

The fold adds to one set and clears from the other, review by review. `mem_foldl_applyVerdict` says
what remains: an identity is where its last review put it. With the sort before it, the last one is
the newest (`Standing`), so the outcome depends on the set of counting reviews only.
-/

namespace DashForge

open List

/-- A review verdict, as recorded on chain. -/
inductive Verdict where
  | approve
  | requestChanges
  | comment
  | approveNonMember
  | requestChangesNonMember
  | unknown (code : ℕ)
deriving DecidableEq, Repr

/-- Decode the on-chain integer. -/
def Verdict.fromCode : ℕ → Verdict
  | 1 => approve
  | 2 => requestChanges
  | 3 => comment
  | 4 => approveNonMember
  | 5 => requestChangesNonMember
  | other => unknown other

/-- A `review` document, flattened. -/
structure Review where
  id : String
  reviewer : String
  /-- The verdict's code. -/
  verdict : ℕ
  commitOid : Oid
  createdAt : ℕ
deriving DecidableEq, Repr

/-- The position of a review. -/
def Review.key (r : Review) : ℕ ×ₗ String := toLex (r.createdAt, r.id)

/-- The reviewers whose verdict stands on a PR's head. -/
structure Approvals where
  approvers : Finset String
  changesRequested : Finset String
deriving DecidableEq

/-- Record one counting review: its reviewer moves to the set of its verdict. -/
def applyVerdict (out : Approvals) (p : Review × Verdict) : Approvals :=
  if p.2 = .approve then
    ⟨insert p.1.reviewer out.approvers, out.changesRequested.erase p.1.reviewer⟩
  else ⟨out.approvers.erase p.1.reviewer, insert p.1.reviewer out.changesRequested⟩

section Count

variable (oracle : RoleOracle) (headOid : Oid) (dismissed : Finset String) (prAuthor : String)

/-- Whether a review with its decoded verdict counts. -/
def reviewCounts (p : Review × Verdict) : Bool :=
  (p.2 == .approve || p.2 == .requestChanges)
    && p.1.reviewer != prAuthor
    && !decide (p.1.id ∈ dismissed)
    && p.1.commitOid == headOid
    && oracle.approverAt p.1.reviewer p.1.createdAt

/-- Count a PR's approvals on `headOid`. -/
def countApprovals (reviews : List Review) : Approvals :=
  let counting := (reviews.map fun r => (r, Verdict.fromCode r.verdict)).filter
    (reviewCounts oracle headOid dismissed prAuthor)
  (sortByKey (fun p => p.1.key) counting).foldl applyVerdict ⟨∅, ∅⟩

end Count

/-! ### Branch policy -/

/-- A `policy` document, flattened to the fields the approvals are judged by. -/
structure Policy where
  requiredApprovals : UInt32
  /-- 0: maintainers' and writers' approvals count; otherwise maintainers' only. -/
  approverRole : UInt8
deriving DecidableEq, Repr

/-- How far the approvals are from a policy. -/
structure PolicyStatus where
  met : Bool
  /-- Approvers whose current role counts. -/
  haveCount : ℕ
  need : UInt32
  /-- Reviewers whose standing request for changes blocks the merge, sorted. -/
  blockedBy : List String
deriving DecidableEq, Repr

/-- Whether `identity`'s verdict counts toward `policy` now. -/
def countsFor (oracle : RoleOracle) (policy : Policy) (identity : String) : Bool :=
  match oracle.currentRole identity with
  | some .maintainer => true
  | some .writer => policy.approverRole == 0
  | _ => false

/-- Whether the approvals meet a policy. -/
def meetsPolicy (approvals : Approvals) (oracle : RoleOracle) (policy : Policy) : PolicyStatus :=
  let counts := countsFor oracle policy
  let haveCount := min (approvals.approvers.filter fun a => counts a).card u32Max
  let blockedBy := if policy.requiredApprovals == 0 then []
    else (approvals.changesRequested.filter fun a => counts a).sort
  { met := decide (policy.requiredApprovals.toNat ≤ haveCount) && blockedBy.isEmpty
    haveCount, need := policy.requiredApprovals, blockedBy }

/-! ### The fold -/

/-- Where the fold puts an identity: its last review decides. -/
theorem mem_foldl_applyVerdict (l : List (Review × Verdict)) (a : String) :
    (a ∈ (l.foldl applyVerdict ⟨∅, ∅⟩).approvers ↔
      ∃ p, (l.filter fun p => p.1.reviewer == a).getLast? = some p ∧ p.2 = .approve) ∧
    (a ∈ (l.foldl applyVerdict ⟨∅, ∅⟩).changesRequested ↔
      ∃ p, (l.filter fun p => p.1.reviewer == a).getLast? = some p ∧ p.2 ≠ .approve) := by
  induction l using reverseRecOn with
  | nil => simp
  | append_singleton l p ih =>
    rw [foldl_concat, filter_append]
    by_cases ha : p.1.reviewer = a
    · rw [filter_cons_of_pos (by simpa using ha), filter_nil, getLast?_concat, applyVerdict]
      split_ifs with hp <;> simp [ha, hp]
    · rw [filter_cons_of_neg (by simpa using ha), filter_nil, append_nil, ← ih.1, ← ih.2, applyVerdict]
      split_ifs <;> simp [Ne.symm ha]

section Standing

variable (oracle : RoleOracle) (headOid : Oid) (dismissed : Finset String) (prAuthor : String)
  (reviews : List Review)

/-- An undismissed approve or request-changes review of the head, written by an approver. -/
structure Eligible (r : Review) : Prop where
  verdict : Verdict.fromCode r.verdict = .approve ∨ Verdict.fromCode r.verdict = .requestChanges
  undismissed : r.id ∉ dismissed
  onHead : r.commitOid = headOid
  approver : oracle.approverAt r.reviewer r.createdAt = true

/-- `r` is the newest eligible review of `a`. -/
structure Standing (a : String) (r : Review) : Prop where
  mem : r ∈ reviews
  reviewer : r.reviewer = a
  eligible : Eligible oracle headOid dismissed r
  newest : ∀ r' ∈ reviews, r'.reviewer = a → Eligible oracle headOid dismissed r' → r'.key ≤ r.key

variable {oracle headOid dismissed prAuthor reviews}

variable {r : Review} {a : String}

theorem reviewCounts_iff : reviewCounts oracle headOid dismissed prAuthor (r, Verdict.fromCode r.verdict) = true ↔
      r.reviewer ≠ prAuthor ∧ Eligible oracle headOid dismissed r := by
  simp only [reviewCounts, Bool.and_eq_true, Bool.or_eq_true, beq_iff_eq, bne_iff_ne,
    Bool.not_eq_true', decide_eq_false_iff_not]
  constructor
  · rintro ⟨⟨⟨⟨hv, hne⟩, hd⟩, ho⟩, hr⟩
    exact ⟨hne, hv, hd, ho, hr⟩
  · rintro ⟨hne, hv, hd, ho, hr⟩
    exact ⟨⟨⟨⟨hv, hne⟩, hd⟩, ho⟩, hr⟩

theorem mem_counting_iff {p : Review × Verdict} : p ∈ ((reviews.map fun r => (r, Verdict.fromCode r.verdict)).filter
        (reviewCounts oracle headOid dismissed prAuthor)).filter (fun p => p.1.reviewer == a) ↔
      p.1 ∈ reviews ∧ p.2 = Verdict.fromCode p.1.verdict ∧ p.1.reviewer = a ∧ a ≠ prAuthor ∧
        Eligible oracle headOid dismissed p.1 := by
  obtain ⟨r, v⟩ := p
  simp only [mem_filter, mem_map, Prod.mk.injEq, beq_iff_eq]
  constructor
  · rintro ⟨⟨⟨r, hr, rfl, rfl⟩, hcounts⟩, rfl⟩
    obtain ⟨hne, helig⟩ := reviewCounts_iff.mp hcounts
    exact ⟨hr, rfl, rfl, hne, helig⟩
  · rintro ⟨hr, rfl, rfl, hne, helig⟩
    exact ⟨⟨⟨r, hr, rfl, rfl⟩, reviewCounts_iff.mpr ⟨hne, helig⟩⟩, rfl⟩

variable (hids : (reviews.map Review.id).Nodup)

include hids in
theorem injOn_counting : Set.InjOn (fun p : Review × Verdict => p.1.key)
      {p | p ∈ (reviews.map fun r => (r, Verdict.fromCode r.verdict)).filter
        (reviewCounts oracle headOid dismissed prAuthor)} := by
  intro p hp q hq hpq
  obtain ⟨r, hr, rfl⟩ := mem_map.mp (mem_of_mem_filter hp)
  obtain ⟨r', hr', rfl⟩ := mem_map.mp (mem_of_mem_filter hq)
  rw [injOn_key_of_nodup Review.createdAt hids hr hr' hpq]

include hids in
theorem getLast?_counting_eq_some_iff {p : Review × Verdict} :
    ((sortByKey (fun p => p.1.key) ((reviews.map fun r => (r, Verdict.fromCode r.verdict)).filter
        (reviewCounts oracle headOid dismissed prAuthor))).filter fun p => p.1.reviewer == a).getLast? = some p ↔
      a ≠ prAuthor ∧ Standing oracle headOid dismissed reviews a p.1 ∧ p.2 = Verdict.fromCode p.1.verdict := by
  have hinj : Set.InjOn (fun p : Review × Verdict => p.1.key)
      {p | p ∈ ((reviews.map fun r => (r, Verdict.fromCode r.verdict)).filter
        (reviewCounts oracle headOid dismissed prAuthor)).filter fun p => p.1.reviewer == a} :=
    (injOn_counting hids).mono fun p hp => mem_of_mem_filter hp
  rw [← sortByKey_filter, getLast?_sortByKey, maxByKey_eq_some_iff _ hinj, mem_counting_iff]
  constructor
  · rintro ⟨⟨hmem, hv, ha, hne, helig⟩, hmax⟩
    refine ⟨hne, ⟨hmem, ha, helig, fun r' hr' ha' helig' => ?_⟩, hv⟩
    exact hmax (r', Verdict.fromCode r'.verdict)
      (mem_counting_iff.mpr ⟨hr', rfl, ha', hne, helig'⟩)
  · rintro ⟨hne, hstand, hv⟩
    refine ⟨⟨hstand.mem, hv, hstand.reviewer, hne, hstand.eligible⟩, fun q hq => ?_⟩
    obtain ⟨hq, -, ha, -, helig⟩ := mem_counting_iff.mp hq
    exact hstand.newest q.1 hq ha helig

include hids in
theorem mem_approvers_iff :
    a ∈ (countApprovals oracle headOid dismissed prAuthor reviews).approvers ↔
      a ≠ prAuthor ∧ ∃ r, Standing oracle headOid dismissed reviews a r ∧ Verdict.fromCode r.verdict = .approve := by
  rw [countApprovals, (mem_foldl_applyVerdict _ a).1]
  simp only [getLast?_counting_eq_some_iff hids]
  constructor
  · rintro ⟨p, ⟨hne, hstand, hv⟩, happrove⟩
    exact ⟨hne, p.1, hstand, hv.symm.trans happrove⟩
  · rintro ⟨hne, r, hstand, happrove⟩
    exact ⟨(r, Verdict.fromCode r.verdict), ⟨hne, hstand, rfl⟩, happrove⟩

include hids in
theorem mem_changesRequested_iff :
    a ∈ (countApprovals oracle headOid dismissed prAuthor reviews).changesRequested ↔
      a ≠ prAuthor ∧ ∃ r, Standing oracle headOid dismissed reviews a r ∧
        Verdict.fromCode r.verdict = .requestChanges := by
  rw [countApprovals, (mem_foldl_applyVerdict _ a).2]
  simp only [getLast?_counting_eq_some_iff hids]
  constructor
  · rintro ⟨p, ⟨hne, hstand, hv⟩, happrove⟩
    exact ⟨hne, p.1, hstand, hstand.eligible.verdict.resolve_left (hv ▸ happrove)⟩
  · rintro ⟨hne, r, hstand, hchanges⟩
    exact ⟨(r, Verdict.fromCode r.verdict), ⟨hne, hstand, rfl⟩, by simp [hchanges]⟩

/-- A review that is not eligible takes no part. -/
theorem countApprovals_insert (hr : ¬Eligible oracle headOid dismissed r) (l₁ l₂ : List Review) :
    countApprovals oracle headOid dismissed prAuthor (l₁ ++ r :: l₂) =
      countApprovals oracle headOid dismissed prAuthor (l₁ ++ l₂) := by
  have hdrop : ¬reviewCounts oracle headOid dismissed prAuthor
      (r, Verdict.fromCode r.verdict) = true := fun h => hr (reviewCounts_iff.mp h).2
  rw [countApprovals, countApprovals, map_append, map_append, map_cons,
    filter_append, filter_append, filter_cons_of_neg hdrop]

include hids in
theorem countApprovals_eq_of_perm {reviews' : List Review}
    (hp : reviews.Perm reviews') : countApprovals oracle headOid dismissed prAuthor reviews =
      countApprovals oracle headOid dismissed prAuthor reviews' := by
  rw [countApprovals, countApprovals, sortByKey_eq_of_perm _ ((hp.map _).filter _) (injOn_counting hids)]

/-- An approver's review is one a maintainer or a writer wrote. -/
theorem not_eligible_of_roleAt (h : oracle.roleAt r.reviewer r.createdAt ≠ some .maintainer)
    (h' : oracle.roleAt r.reviewer r.createdAt ≠ some .writer) : ¬Eligible oracle headOid dismissed r := by
  intro helig
  have happrover := helig.approver
  rw [RoleOracle.approverAt, Option.any_eq_true] at happrover
  obtain ⟨role, hrole, hrank⟩ := happrover
  cases role <;> simp_all [Role.isApprover]

end Standing

/-! ### The policy -/

variable {oracle : RoleOracle} {policy : Policy}

theorem countsFor_iff {a : String} : countsFor oracle policy a = true ↔ oracle.currentRole a = some .maintainer ∨
      (oracle.currentRole a = some .writer ∧ policy.approverRole = 0) := by
  rw [countsFor]
  split <;> simp_all

/-- Saturating the count at 32 bits changes no comparison with a 32-bit bound. -/
theorem met_meetsPolicy_iff {approvals : Approvals} : (meetsPolicy approvals oracle policy).met = true ↔
      policy.requiredApprovals.toNat ≤ (approvals.approvers.filter fun a => countsFor oracle policy a).card ∧
        (0 < policy.requiredApprovals.toNat → ∀ a ∈ approvals.changesRequested, countsFor oracle policy a = false) := by
  have hmax : policy.requiredApprovals.toNat ≤ u32Max :=
    Nat.le_pred_of_lt policy.requiredApprovals.toNat_lt
  have hblocked : ((approvals.changesRequested.filter fun a => countsFor oracle policy a).sort
      ).isEmpty = true ↔ ∀ a ∈ approvals.changesRequested, countsFor oracle policy a = false := by
    rw [List.isEmpty_iff, ← length_eq_zero_iff, Finset.length_sort, Finset.card_eq_zero,
      Finset.filter_eq_empty_iff]
    simp
  rw [meetsPolicy]
  simp only [Bool.and_eq_true, decide_eq_true_eq, Nat.le_min, hmax, and_true]
  refine and_congr_right fun _ => ?_
  by_cases hzero : policy.requiredApprovals = 0
  · simp [hzero]
  · have hpos : 0 < policy.requiredApprovals.toNat :=
      Nat.pos_of_ne_zero fun h => hzero (UInt32.toNat_inj.mp h)
    simp [hzero, hblocked, hpos]

/-- **A met policy means enough independent approvals.** The count does not depend on the order of
the reviews; an identity approves (requests changes) exactly when it is not the PR's author and its
newest eligible review approves (requests changes), never both; the policy is met exactly when
enough approvers hold a role that counts now and, if it requires any, none that counts requests
changes. A review that is no verdict, of another head, dismissed, or not written by a maintainer or
writer changes nothing. -/
theorem meetsPolicy_countApprovals (oracle : RoleOracle) (headOid : Oid)
    (dismissed : Finset String) (prAuthor : String) (reviews : List Review)
    (hids : (reviews.map Review.id).Nodup) :
    (∀ reviews', reviews.Perm reviews' →
      countApprovals oracle headOid dismissed prAuthor reviews' =
        countApprovals oracle headOid dismissed prAuthor reviews) ∧
    Disjoint (countApprovals oracle headOid dismissed prAuthor reviews).approvers
      (countApprovals oracle headOid dismissed prAuthor reviews).changesRequested ∧
    (∀ a, a ∈ (countApprovals oracle headOid dismissed prAuthor reviews).approvers ↔
      a ≠ prAuthor ∧ ∃ r, Standing oracle headOid dismissed reviews a r ∧
        Verdict.fromCode r.verdict = .approve) ∧
    (∀ a, a ∈ (countApprovals oracle headOid dismissed prAuthor reviews).changesRequested ↔
      a ≠ prAuthor ∧ ∃ r, Standing oracle headOid dismissed reviews a r ∧
        Verdict.fromCode r.verdict = .requestChanges) ∧
    (∀ policy, (meetsPolicy (countApprovals oracle headOid dismissed prAuthor reviews) oracle
        policy).met = true ↔
      policy.requiredApprovals.toNat ≤
          ((countApprovals oracle headOid dismissed prAuthor reviews).approvers.filter fun a =>
            oracle.currentRole a = some .maintainer ∨
              (oracle.currentRole a = some .writer ∧ policy.approverRole = 0)).card ∧
        (0 < policy.requiredApprovals.toNat →
          ∀ a ∈ (countApprovals oracle headOid dismissed prAuthor reviews).changesRequested,
            ¬(oracle.currentRole a = some .maintainer ∨
              (oracle.currentRole a = some .writer ∧ policy.approverRole = 0)))) ∧
    ∀ l₁ r l₂,
      (Verdict.fromCode r.verdict ≠ .approve ∧ Verdict.fromCode r.verdict ≠ .requestChanges) ∨
        r.commitOid ≠ headOid ∨ r.id ∈ dismissed ∨
        (oracle.roleAt r.reviewer r.createdAt ≠ some .maintainer ∧
          oracle.roleAt r.reviewer r.createdAt ≠ some .writer) →
      countApprovals oracle headOid dismissed prAuthor (l₁ ++ r :: l₂) =
          countApprovals oracle headOid dismissed prAuthor (l₁ ++ l₂) ∧
        ∀ policy, meetsPolicy (countApprovals oracle headOid dismissed prAuthor (l₁ ++ r :: l₂))
            oracle policy =
          meetsPolicy (countApprovals oracle headOid dismissed prAuthor (l₁ ++ l₂)) oracle
            policy := by
  refine ⟨fun reviews' hp => (countApprovals_eq_of_perm hids hp).symm, ?_,
    fun a => mem_approvers_iff hids, fun a => mem_changesRequested_iff hids, fun policy => ?_,
    fun l₁ r l₂ hr => ?_⟩
  · rw [Finset.disjoint_left]
    intro a happrove hchanges
    -- the newest review of `a` is one review, and has one verdict
    obtain ⟨p, hp, hv⟩ := (mem_foldl_applyVerdict _ a).1.mp happrove
    obtain ⟨q, hq, hw⟩ := (mem_foldl_applyVerdict _ a).2.mp hchanges
    obtain rfl : p = q := Option.some.inj (hp.symm.trans hq)
    exact hw hv
  · simp only [met_meetsPolicy_iff, ← countsFor_iff, Bool.not_eq_true]
  · have hnot : ¬Eligible oracle headOid dismissed r := by
      rcases hr with hr | hr | hr | hr
      · exact fun h => h.verdict.elim hr.1 hr.2
      · exact fun h => hr h.onHead
      · exact fun h => h.undismissed hr
      · exact not_eligible_of_roleAt hr.1 hr.2
    have hsame : countApprovals oracle headOid dismissed prAuthor (l₁ ++ r :: l₂) =
        countApprovals oracle headOid dismissed prAuthor (l₁ ++ l₂) :=
      countApprovals_insert hnot l₁ l₂
    exact ⟨hsame, fun policy => by rw [hsame]⟩

/-- A maintainer and a writer. -/
def twoMembers : RoleOracle := ⟨[⟨"ann", .maintainer, 1⟩, ⟨"bob", .writer, 2⟩]⟩

/-- A request for changes, and then an approval. -/
def twoReviews : List Review := [⟨"r1", "bob", 2, "aa", 5⟩, ⟨"r2", "bob", 1, "aa", 7⟩]

theorem met_twoReviews : (twoReviews.map Review.id).Nodup ∧
    (meetsPolicy (countApprovals twoMembers "aa" ∅ "ann" twoReviews) twoMembers
      ⟨1, 0⟩).met = true :=
  ⟨by decide, ((meetsPolicy_countApprovals twoMembers "aa" ∅ "ann" twoReviews
    (by decide)).2.2.2.2.1 ⟨1, 0⟩).mpr (by decide)⟩

end DashForge
