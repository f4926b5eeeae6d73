import DashForge.Data.Inserted
import DashForge.Rules.RequiredChecks

/-!
# Rules at merge time

Branch rules are the clients', so a merge is judged afterwards by what is on chain (`rules/merge_audit.rs`): `auditMerge`
takes the policy and the protection in force at the merge, the reviews, dismissals, memberships and check runs as they
stood then, and the bypasses recorded for the merge commit.

What is written after the merge changes none of the rules in force nor the approvals (`Extended`, `auditMerge_extended`).
Check runs are replaced as they go on, and a run replaced after the merge reads as one that had not ended, so a check
that was not passed is not passed later (`runsAt_agree`). A merge found unmet stays so unless a bypass is recorded.
-/

namespace DashForge

open List

namespace Audit

open Checks

/-- How long before a merge a change of the rules is flagged, in ms. -/
def rulesChangeWindowMs : ℕ := 3600000

/-- A `policy` document. -/
structure PolicyDoc where
  id : String
  createdAt : ℕ
  policy : BranchPolicy
deriving DecidableEq, Repr

/-- Whether a `config` document protected the base branch. -/
structure ProtectionDoc where
  id : String
  createdAt : ℕ
  isProtected : Bool
deriving DecidableEq, Repr

/-- A dismissal: the review stops counting from then on. -/
structure DismissalAt where
  reviewId : String
  createdAt : ℕ
deriving DecidableEq, Repr

/-- A policy bypass recorded on the pull request. -/
structure BypassEvent where
  id : String
  actor : String
  createdAt : ℕ
  /-- The merge commit it names. -/
  oid : String := ""
  /-- The rules it says were not met. -/
  value : String := ""
deriving DecidableEq, Repr

/-- A bypass that does not count, with its writer's role then by the current documents. -/
structure UncountedBypass where
  event : BypassEvent
  role : Option Role
deriving DecidableEq, Repr

structure MergeAuditInput where
  mergedAt : ℕ
  merger : String
  mergeOid : String
  /-- The pull request's head when it was merged. -/
  mergeHead : String
  prAuthor : String
  policies : List PolicyDoc := []
  protection : List ProtectionDoc := []
  memberships : List Membership := []
  reviews : List Review := []
  dismissals : List DismissalAt := []
  /-- The check runs on the head; `none` when they were not read. -/
  runs : Option (List CheckRunRow) := none
  runners : Finset String := ∅
  bypasses : List BypassEvent := []
deriving DecidableEq

inductive AuditVerdict where
  /-- No branch rule applied. -/
  | none
  | met
  | bypassed
  | unmet
  /-- Nothing found unmet, but a rule was not judged. -/
  | unknown
deriving DecidableEq, Repr

/-- The rules in force at a merge and how the merge stood against them. -/
structure MergeAudit where
  verdict : AuditVerdict
  policy : Option BranchPolicy
  isProtected : Bool
  mergerRole : Option Role
  protectionUnmet : Bool
  approvals : Option PolicyStatus
  checks : Option ChecksState
  checksUnread : Bool
  codeOwnersUnaudited : Bool
  bypass : Option BypassEvent
  uncountedBypass : Option UncountedBypass
  rulesChanged : Bool
deriving DecidableEq

/-! ### What stood at the merge -/

/-- The newest of some documents written by a time. -/
def newestAt {α : Type*} (createdAt : α → ℕ) (id : α → String) (items : List α) (time : ℕ) : Option α :=
  maxByKey (fun x => toLex (createdAt x, id x)) (items.filter fun x => createdAt x ≤ time)

/-- Whether a document written in the window before a time changed what the one before it said. -/
def changedBefore {α : Type*} (createdAt : α → ℕ) (id : α → String) (same : α → α → Bool) (items : List α) (time : ℕ) :
    Bool :=
  let sorted := sortByKey (fun x => toLex (createdAt x, id x)) (items.filter fun x => createdAt x ≤ time)
  (sorted.zip sorted.tail).any fun w => time - rulesChangeWindowMs < createdAt w.2 && !same w.1 w.2

/-- The membership as it stood at a time. -/
def membersAt (memberships : List Membership) (time : ℕ) : RoleOracle :=
    ⟨memberships.filter fun m => m.createdAt ≤ time⟩

/-- The approvals standing at the merge against a policy. -/
def approvalsAt (input : MergeAuditInput) (then' : RoleOracle) (policy : Policy) : PolicyStatus :=
  let dismissed := ((input.dismissals.filter fun d => d.createdAt ≤ input.mergedAt).map DismissalAt.reviewId).toFinset
  let reviews := input.reviews.filter fun r => r.createdAt ≤ input.mergedAt
  meetsPolicy (countApprovals then' input.mergeHead dismissed input.prAuthor reviews) then' policy

/-- A check run as it stood at a time: one that ended counts as ended only if it was last replaced by then. -/
def runAt (time : ℕ) (run : CheckRunRow) : CheckRunRow :=
  if run.status = "completed" ∧ run.updatedAt.all (fun u => time < u) then
    { run with status := "in_progress", conclusion := none }
  else run

def runsAt (runs : List CheckRunRow) (time : ℕ) : List CheckRunRow :=
  (runs.filter fun run => run.createdAt ≤ time).map (runAt time)

/-- The first bypass that a maintainer recorded for the merge, else the first one that does not count. -/
def recordedBypass (input : MergeAuditInput) (oracle : RoleOracle) : Option BypassEvent × Option UncountedBypass :=
  let events := sortByKey (fun b => toLex (b.createdAt, b.id))
    (input.bypasses.filter fun b => eqIgnoreAsciiCase b.oid input.mergeOid)
  let role (b : BypassEvent) := oracle.roleAt b.actor b.createdAt
  match events.find? fun b => role b = some .maintainer with
  | some b => (some b, none)
  | none => (none, events.head?.map fun b => ⟨b, role b⟩)

/-- The policy in force at the merge. -/
def policyAt (input : MergeAuditInput) : Option BranchPolicy :=
  (newestAt PolicyDoc.createdAt PolicyDoc.id input.policies input.mergedAt).map PolicyDoc.policy

/-- Whether a policy requires checks. -/
def checksRequired (policy : Option BranchPolicy) : Bool :=
  policy.any fun p => p.requireChecks || p.requiredChecks.any (· ≠ "")

/-- The required checks at the merge; `none` where there are none or the runs were not read. -/
def checksAt (input : MergeAuditInput) (then' : RoleOracle) : Option ChecksState :=
  match policyAt input, input.runs with
  | some policy, some runs =>
    if checksRequired (some policy) then
      some (checksState (runsAt runs input.mergedAt) input.mergeHead then' input.runners policy.checksPolicy)
    else none
  | _, _ => none

/-- Judge a merge against the branch rules in force when it was recorded. -/
def auditMerge (input : MergeAuditInput) : MergeAudit :=
  let oracle : RoleOracle := ⟨input.memberships⟩
  let then' := membersAt input.memberships input.mergedAt
  let policy := policyAt input
  let isProtected := (newestAt ProtectionDoc.createdAt ProtectionDoc.id input.protection input.mergedAt).any
    ProtectionDoc.isProtected
  let mergerRole := oracle.roleAt input.merger input.mergedAt
  let protectionUnmet := isProtected && mergerRole != some .maintainer
  let approvals := policy.map fun p => approvalsAt input then' p.toPolicy
  let checks := checksAt input then'
  let checksUnread := checksRequired policy && input.runs.isNone
  let codeOwnersUnaudited := policy.any BranchPolicy.requireCodeOwners
  let bypass := recordedBypass input oracle
  let unmet := protectionUnmet || (approvals.any fun a => !a.met) || checks.any fun c => !c.met
  { verdict :=
      if bypass.1.isSome then .bypassed
      else if unmet then .unmet
      else if checksUnread || codeOwnersUnaudited then .unknown
      else if policy.isNone && !isProtected then .none
      else .met
    policy, isProtected, mergerRole, protectionUnmet, approvals, checks, checksUnread, codeOwnersUnaudited
    bypass := bypass.1
    uncountedBypass := bypass.2
    rulesChanged :=
      changedBefore PolicyDoc.createdAt PolicyDoc.id (fun a b => a.policy == b.policy) input.policies input.mergedAt ||
        changedBefore ProtectionDoc.createdAt ProtectionDoc.id (fun a b =>
          a.isProtected == b.isProtected) input.protection
          input.mergedAt }

/-! ### What is written later -/

/-- A check run replaced after a time. -/
structure ReplacedAfter (time : ℕ) (run run' : CheckRunRow) : Prop where
  id : run'.id = run.id
  headOid : run'.headOid = run.headOid
  name : run'.name = run.name
  reporter : run'.reporter = run.reporter
  createdAt : run'.createdAt = run.createdAt
  updatedAt : ∃ u, run'.updatedAt = some u ∧ time < u

/-- Check runs with some replaced after a time, and others created after it. -/
inductive RunsExtended (time : ℕ) : List CheckRunRow → List CheckRunRow → Prop
  | nil : RunsExtended time [] []
  | keep (run : CheckRunRow) {runs runs' : List CheckRunRow} (h : RunsExtended time runs runs') :
      RunsExtended time (run :: runs) (run :: runs')
  | replace {run run' : CheckRunRow} (hrun : ReplacedAfter time run run') {runs runs' : List CheckRunRow}
      (h : RunsExtended time runs runs') : RunsExtended time (run :: runs) (run' :: runs')
  | add {run : CheckRunRow} (hrun : time < run.createdAt) {runs runs' : List CheckRunRow}
      (h : RunsExtended time runs runs') : RunsExtended time runs (run :: runs')

/-- What a merge is judged by, read again when more was written since the merge. -/
structure Extended (input input' : MergeAuditInput) : Prop where
  mergedAt : input'.mergedAt = input.mergedAt
  merger : input'.merger = input.merger
  mergeOid : input'.mergeOid = input.mergeOid
  mergeHead : input'.mergeHead = input.mergeHead
  prAuthor : input'.prAuthor = input.prAuthor
  policies : Inserted (fun p => input.mergedAt < p.createdAt) input.policies input'.policies
  protection : Inserted (fun p => input.mergedAt < p.createdAt) input.protection input'.protection
  memberships : Inserted (fun m => input.mergedAt < m.createdAt) input.memberships input'.memberships
  reviews : Inserted (fun r => input.mergedAt < r.createdAt) input.reviews input'.reviews
  dismissals : Inserted (fun d => input.mergedAt < d.createdAt) input.dismissals input'.dismissals
  runs : ∀ runs ∈ input.runs, ∃ runs' ∈ input'.runs, RunsExtended input.mergedAt runs runs'
  runners : input'.runners = input.runners
  bypasses : input'.bypasses = input.bypasses

variable {time : ℕ} {run : CheckRunRow}

variable {input input' : MergeAuditInput}

/-- What was written by the merge is read again. -/
theorem filter_createdAt {α : Type*} {createdAt : α → ℕ} {l l' : List α}
    (h : Inserted (fun a => time < createdAt a) l l') :
    l'.filter (fun a => createdAt a ≤ time) = l.filter fun a => createdAt a ≤ time :=
  h.filter_eq fun _ ha => decide_eq_false (Nat.not_le.mpr ha)

theorem newestAt_inserted {α : Type*} {createdAt : α → ℕ} (id : α → String) {l l' : List α}
    (h : Inserted (fun a => time < createdAt a) l l') :
    newestAt createdAt id l' time = newestAt createdAt id l time := by
  rw [newestAt, newestAt, filter_createdAt h]

/-- A role that someone held at a time does not depend on later memberships. -/
theorem roleAt_inserted {l l' : List Membership} (h : Inserted (fun m => time < m.createdAt) l l')
    (identity : String) : RoleOracle.roleAt ⟨l'⟩ identity time = RoleOracle.roleAt ⟨l⟩ identity time := by
  rw [RoleOracle.roleAt, RoleOracle.roleAt,
    h.filter_eq (p := fun m => m.identity == identity && decide (m.createdAt ≤ time)) fun m hm => ?_]
  simp [Nat.not_le.mpr hm]

theorem checkStateOf_runAt (h : ∃ u, run.updatedAt = some u ∧ time < u) : checkStateOf (runAt time run) = .pending := by
  obtain ⟨u, hu, hlt⟩ := h
  by_cases hstatus : run.status = "completed"
  · rw [runAt, if_pos ⟨hstatus, by simp [hu, hlt]⟩, checkStateOf, if_neg (by simp)]
  · rw [runAt, if_neg fun hand => hstatus hand.1, checkStateOf, if_neg hstatus]

theorem runAt_replaced {run' : CheckRunRow} (h : ReplacedAfter time run run') :
    RunsAgree (runAt time run) (runAt time run') := by
  have hfields : ∀ r : CheckRunRow, (runAt time r).id = r.id ∧ (runAt time r).headOid = r.headOid ∧
      (runAt time r).name = r.name ∧ (runAt time r).reporter = r.reporter ∧ (runAt time r).createdAt = r.createdAt :=
    fun r => by rw [runAt]; split_ifs <;> exact ⟨rfl, rfl, rfl, rfl, rfl⟩
  obtain ⟨hid, hhead, hname, hreporter, hcreated⟩ := hfields run
  obtain ⟨hid', hhead', hname', hreporter', hcreated'⟩ := hfields run'
  exact ⟨by rw [hid, hid', h.id], by rw [hhead, hhead', h.headOid], by rw [hname, hname', h.name],
    by rw [hreporter, hreporter', h.reporter], by rw [hcreated, hcreated', h.createdAt],
    .inr (checkStateOf_runAt h.updatedAt)⟩

theorem runsAt_agree {runs runs' : List CheckRunRow} (h : RunsExtended time runs runs') :
    List.Forall₂ RunsAgree (runsAt runs time) (runsAt runs' time) := by
  induction h with
  | nil => exact .nil
  | keep run h ih =>
    by_cases hle : run.createdAt ≤ time
    · rw [runsAt, runsAt, filter_cons_of_pos (by simpa using hle), filter_cons_of_pos (by simpa using hle)]
      exact .cons (.refl _) ih
    · rw [runsAt, runsAt, filter_cons_of_neg (by simpa using hle), filter_cons_of_neg (by simpa using hle)]
      exact ih
  | @replace run run' hrun runs runs' h ih =>
    by_cases hle : run.createdAt ≤ time
    · rw [runsAt, runsAt, filter_cons_of_pos (by simpa using hle),
        filter_cons_of_pos (by simpa [hrun.createdAt] using hle)]
      exact .cons (runAt_replaced hrun) ih
    · rw [runsAt, runsAt, filter_cons_of_neg (by simpa using hle),
        filter_cons_of_neg (by simpa [hrun.createdAt] using hle)]
      exact ih
  | add hrun h ih =>
    rw [runsAt, runsAt, filter_cons_of_neg (by simpa using hrun)]
    exact ih

theorem policyAt_extended (h : Extended input input') : policyAt input' = policyAt input := by
  rw [policyAt, policyAt, h.mergedAt, newestAt_inserted PolicyDoc.id h.policies]

theorem membersAt_extended (h : Extended input input') :
    membersAt input'.memberships input'.mergedAt = membersAt input.memberships input.mergedAt := by
  rw [membersAt, membersAt, h.mergedAt, filter_createdAt h.memberships]

theorem approvalsAt_extended (h : Extended input input') (then' : RoleOracle) (policy : Policy) :
    approvalsAt input' then' policy = approvalsAt input then' policy := by
  rw [approvalsAt, approvalsAt, h.mergedAt, h.mergeHead, h.prAuthor, filter_createdAt h.dismissals,
    filter_createdAt h.reviews]

/-- Required checks that were not met are not met later. -/
theorem checksAt_extended (h : Extended input input') {then' : RoleOracle}
    (hmet : (checksAt input then').any (fun c => !c.met) = true) :
    (checksAt input' then').any (fun c => !c.met) = true := by
  rw [checksAt] at hmet ⊢
  rw [policyAt_extended h, h.mergedAt, h.mergeHead, h.runners]
  rcases hpolicy : policyAt input with _ | policy <;> rcases hruns : input.runs with _ | runs <;>
    simp only [hpolicy, hruns, Option.any_none, Bool.false_eq_true] at hmet
  obtain ⟨runs', hruns', hext⟩ := h.runs runs hruns
  split_ifs at hmet with hrequired
  · simp only [Option.mem_def.mp hruns', if_pos hrequired, Option.any_some, Bool.not_eq_true'] at hmet ⊢
    by_contra hnot
    rw [Bool.not_eq_false] at hnot
    exact absurd hmet (by rw [met_of_runsAgree (runsAt_agree hext) hnot]; decide)
  · exact absurd hmet (by simp)

/-- A merge once found unmet cannot be made met by what is written after it. -/
theorem auditMerge_extended (h : Extended input input') :
    (auditMerge input').policy = (auditMerge input).policy ∧
    (auditMerge input').isProtected = (auditMerge input).isProtected ∧
    (auditMerge input').mergerRole = (auditMerge input).mergerRole ∧
    (auditMerge input').protectionUnmet = (auditMerge input).protectionUnmet ∧
    (auditMerge input').approvals = (auditMerge input).approvals ∧
    ((auditMerge input).verdict = .unmet → (auditMerge input').verdict = .unmet ∨
        (auditMerge input').verdict = .bypassed) := by
  have hpolicy : (auditMerge input').policy = (auditMerge input).policy := policyAt_extended h
  have hprotected : (auditMerge input').isProtected = (auditMerge input).isProtected := by
    simp only [auditMerge, h.mergedAt, newestAt_inserted ProtectionDoc.id h.protection]
  have hrole : (auditMerge input').mergerRole = (auditMerge input).mergerRole := by
    simp only [auditMerge, h.mergedAt, h.merger, roleAt_inserted h.memberships]
  have hprotection : (auditMerge input').protectionUnmet = (auditMerge input).protectionUnmet :=
    congrArg₂ (fun p r => p && r != some Role.maintainer) hprotected hrole
  have happrovals : (auditMerge input').approvals = (auditMerge input).approvals := by
    simp only [auditMerge, policyAt_extended h, membersAt_extended h, approvalsAt_extended h]
  refine ⟨hpolicy, hprotected, hrole, hprotection, happrovals, fun hunmet => ?_⟩
  have hverdict : ∀ i : MergeAuditInput, (auditMerge i).verdict =
      if (auditMerge i).bypass.isSome then .bypassed
      else if (auditMerge i).protectionUnmet || ((auditMerge i).approvals.any fun a => !a.met) ||
        (auditMerge i).checks.any fun c => !c.met then .unmet
      else if (auditMerge i).checksUnread || (auditMerge i).codeOwnersUnaudited then .unknown
      else if (auditMerge i).policy.isNone && !(auditMerge i).isProtected then .none
      else .met := fun _ => rfl
  have hrule : ((auditMerge input).protectionUnmet || ((auditMerge input).approvals.any fun a => !a.met) ||
      (auditMerge input).checks.any fun c => !c.met) = true := by
    rw [hverdict] at hunmet
    split_ifs at hunmet with hbypass hrule
    exact hrule
  have hrule' : ((auditMerge input').protectionUnmet || ((auditMerge input').approvals.any fun a => !a.met) ||
      (auditMerge input').checks.any fun c => !c.met) = true := by
    rw [hprotection, happrovals]
    rw [Bool.or_eq_true] at hrule ⊢
    refine hrule.imp_right fun hchecks => ?_
    change (checksAt input' (membersAt input'.memberships input'.mergedAt)).any (fun c => !c.met) = true
    rw [membersAt_extended h]
    exact checksAt_extended h hchecks
  rw [hverdict]
  split_ifs
  · exact .inr rfl
  · exact .inl rfl

/-- A merge with a failed check, on a repository that requires checks. -/
def failedMerge : MergeAuditInput where
  mergedAt := 10
  merger := "m"
  mergeOid := "aa"
  mergeHead := "bb"
  prAuthor := "a"
  policies := [⟨"p", 1, { requiredApprovals := 0, approverRole := 0, requireChecks := true }⟩]
  memberships := [⟨"m", .maintainer, 1⟩]
  runs := some [⟨"r", "bb", "ci", "completed", some "failure", "m", 5, some 6⟩]

/-- The check is run again and passes, a second one passes, and the policy is taken back. -/
def failedMergeLater : MergeAuditInput :=
  { failedMerge with
    policies := failedMerge.policies ++ [⟨"q", 11, { requiredApprovals := 0, approverRole := 0 }⟩]
    runs := some [⟨"r", "bb", "ci", "completed", some "success", "m", 5, some 12⟩,
      ⟨"s", "bb", "ci", "completed", some "success", "m", 13, some 13⟩] }

theorem auditMerge_extended_sample :
    (auditMerge failedMerge).verdict = .unmet ∧
      ((auditMerge failedMergeLater).verdict = .unmet ∨ (auditMerge failedMergeLater).verdict = .bypassed) := by
  have hunmet : (auditMerge failedMerge).verdict = .unmet := by decide +kernel
  have hext : Extended failedMerge failedMergeLater :=
    { mergedAt := rfl
      merger := rfl
      mergeOid := rfl
      mergeHead := rfl
      prAuthor := rfl
      policies := .keep _ (.add (by decide) .nil)
      protection := .nil
      memberships := .keep _ .nil
      reviews := .nil
      dismissals := .nil
      runs := fun runs hruns => by
        obtain rfl := Option.some.inj hruns
        refine ⟨_, rfl, ?_⟩
        apply RunsExtended.replace
        · exact ⟨rfl, rfl, rfl, rfl, rfl, 12, rfl, by decide⟩
        · exact .add (by decide) .nil
      runners := rfl
      bypasses := rfl }
  exact ⟨hunmet, (auditMerge_extended hext).2.2.2.2.2 hunmet⟩

end Audit

end DashForge
