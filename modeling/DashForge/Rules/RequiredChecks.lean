import DashForge.Data.SortedMap
import DashForge.Rules.Approvals

/-!
# Required checks

Whether the check runs on a head meet a branch policy's required checks (`rules/parity.rs`): the newest run of each name
decides it, of those that a trusted identity reported and, where the policy names a source for the check, that the source
did (`newestRuns`, `checksState`).

A run that is replaced while it moves on keeps its name, its reporter and its place, so it decides the same checks
(`RunsAgree`). Where the runs agree up to some that have not ended, the checks that pass with these do without
(`met_of_runsAgree`).
-/

namespace DashForge

open List SortedMap

namespace Checks

/-- A `checkRun` document, flattened. -/
structure CheckRunRow where
  id : String
  headOid : String
  name : String
  /-- `queued`, `in_progress` or `completed`. -/
  status : String
  conclusion : Option String
  reporter : String
  createdAt : ℕ
  /-- When the run was last replaced, where it was read. -/
  updatedAt : Option ℕ
deriving DecidableEq, Repr

def CheckRunRow.key (run : CheckRunRow) : ℕ ×ₗ String := toLex (run.createdAt, run.id)

/-- What a branch policy says about checks. -/
structure ChecksPolicy where
  requireChecks : Bool
  requiredChecks : List String
  /-- Who alone decides each of the required checks, by position. -/
  requiredCheckSources : List String
deriving DecidableEq, Repr

end Checks

/-- A `policy` document, flattened: what the approvals are judged by, and its other rules. -/
structure BranchPolicy extends Policy where
  requireChecks : Bool := false
  /-- The allowed merge methods, a bit each; 0 is any. -/
  mergeMethods : UInt8 := 0
  requiredChecks : List String := []
  requiredCheckSources : List String := []
  /-- Every changed file with code owners needs the approval of one of them. -/
  requireCodeOwners : Bool := false
deriving DecidableEq, Repr

/-- The policy's check rules. -/
def BranchPolicy.checksPolicy (p : BranchPolicy) : Checks.ChecksPolicy :=
    ⟨p.requireChecks, p.requiredChecks, p.requiredCheckSources⟩

namespace Checks

/-- Where a required check stands. -/
inductive CheckState where
  | passed
  | failing
  | pending
  | missing
deriving DecidableEq, Repr

structure RequiredCheck where
  name : String
  state : CheckState
  /-- The run that decides it. -/
  runId : Option String
deriving DecidableEq, Repr

/-- A head's checks against a policy. -/
structure ChecksState where
  required : List RequiredCheck
  met : Bool
  /-- Runs on the head that are not counted. -/
  untrusted : ℕ
deriving DecidableEq, Repr

def passingConclusions : List String := ["success", "neutral", "skipped"]

def checkStateOf (run : CheckRunRow) : CheckState :=
  if run.status = "completed" then
    if run.conclusion.any fun c => passingConclusions.contains c then .passed else .failing
  else .pending

/-- Each pinned check and the sources that may decide it. -/
def pinnedSources (policy : ChecksPolicy) : SortedMap String (List String) :=
  if policy.requiredCheckSources.length ≠ policy.requiredChecks.length then .empty
  else .gather ((policy.requiredChecks.zip policy.requiredCheckSources).filter fun x => x.1 ≠ "" ∧ x.2 ≠ "")

section

variable (oracle : RoleOracle) (runners : Finset String) (policy : ChecksPolicy)

/-- Whether the runs of a reporter count. -/
def trusted (who : String) : Bool := oracle.approverAt who u64Max || decide (who ∈ runners)

/-- Whether the policy leaves the run's check to others. -/
def pinnedOut (run : CheckRunRow) : Bool :=
  ((pinnedSources policy).lookup run.name).any fun sources => !sources.contains run.reporter

/-- One run on the head, after the newest runs and the number of untrusted ones so far. -/
def takeRun (st : SortedMap String CheckRunRow × ℕ) (run : CheckRunRow) : SortedMap String CheckRunRow × ℕ :=
  if ¬trusted oracle runners run.reporter then (st.1, min (st.2 + 1) u32Max)
  else if pinnedOut policy run then st
  else if (st.1.lookup run.name).all fun held => held.key < run.key then (st.1.insert run.name run, st.2)
  else st

/-- The newest run of each name that counts, and the number of untrusted runs. -/
def newestRuns (runs : List CheckRunRow) (headOid : String) : SortedMap String CheckRunRow × ℕ :=
  (runs.filter fun run => eqIgnoreAsciiCase run.headOid headOid && run.name ≠ "").foldl (takeRun oracle runners policy)
    (.empty, 0)

end

/-- The check of a name. -/
def requiredCheck (newest : SortedMap String CheckRunRow) (name : String) : RequiredCheck :=
  match newest.lookup name with
  | some run => ⟨name, checkStateOf run, some run.id⟩
  | none => ⟨name, .missing, none⟩

/-- The checks a policy lists by name. -/
def listedChecks (policy : ChecksPolicy) : List String := sortedDistinct (policy.requiredChecks.filter (· ≠ ""))

/-- Whether the check runs on a head meet a policy. -/
def checksState (runs : List CheckRunRow) (headOid : String) (oracle : RoleOracle) (runners : Finset String)
    (policy : ChecksPolicy) : ChecksState :=
  let newest := newestRuns oracle runners policy runs headOid
  let requireAll := listedChecks policy = [] ∧ policy.requireChecks
  let required := (if requireAll then newest.1.keys else listedChecks policy).map (requiredCheck newest.1)
  { required
    met := (required.all fun c => c.state = .passed) && !(decide requireAll && required.isEmpty)
    untrusted := newest.2 }

/-! ### Runs that agree -/

/-- The same run, or one that it was before it ended. -/
structure RunsAgree (run run' : CheckRunRow) : Prop where
  id : run'.id = run.id
  headOid : run'.headOid = run.headOid
  name : run'.name = run.name
  reporter : run'.reporter = run.reporter
  createdAt : run'.createdAt = run.createdAt
  state : checkStateOf run' = checkStateOf run ∨ checkStateOf run' = .pending

theorem RunsAgree.refl (run : CheckRunRow) : RunsAgree run run := ⟨rfl, rfl, rfl, rfl, rfl, .inl rfl⟩

theorem RunsAgree.key {run run' : CheckRunRow} (h : RunsAgree run run') : run'.key = run.key := by
  rw [CheckRunRow.key, CheckRunRow.key, h.createdAt, h.id]

/-- Newest runs that agree, name by name. -/
def MapsAgree (m m' : SortedMap String CheckRunRow) : Prop :=
  ∀ name, (m.lookup name = none ∧ m'.lookup name = none) ∨
    ∃ run run', m.lookup name = some run ∧ m'.lookup name = some run' ∧ RunsAgree run run'

section

variable {oracle : RoleOracle} {runners : Finset String} {policy : ChecksPolicy}

theorem MapsAgree.insert {m m' : SortedMap String CheckRunRow} (hm : MapsAgree m m') {run run' : CheckRunRow}
    (h : RunsAgree run run') : MapsAgree (m.insert run.name run) (m'.insert run'.name run') := by
  intro name
  rw [lookup_insert, lookup_insert, h.name]
  split_ifs
  · exact .inr ⟨run, run', rfl, rfl, h⟩
  · exact hm name

theorem takeRun_agree {st st' : SortedMap String CheckRunRow × ℕ} {run run' : CheckRunRow} (hm : MapsAgree st.1 st'.1)
    (h : RunsAgree run run') :
    MapsAgree (takeRun oracle runners policy st run).1 (takeRun oracle runners policy st' run').1 := by
  have hpin : pinnedOut policy run' = pinnedOut policy run := by rw [pinnedOut, pinnedOut, h.name, h.reporter]
  have hnewer : (st'.1.lookup run'.name).all (fun held => held.key < run'.key) =
      (st.1.lookup run.name).all fun held => held.key < run.key := by
    rw [h.name, h.key]
    rcases hm run.name with ⟨hnone, hnone'⟩ | ⟨held, held', hheld, hheld', hagree⟩
    · rw [hnone, hnone']
    · rw [hheld, hheld', Option.all_some, Option.all_some, hagree.key]
  rw [takeRun, takeRun, h.reporter, hpin, hnewer]
  split_ifs
  · exact hm
  · exact hm.insert h
  · exact hm
  · exact hm

theorem newestRuns_agree {runs runs' : List CheckRunRow} (h : List.Forall₂ RunsAgree runs runs') (headOid : String) :
    MapsAgree (newestRuns oracle runners policy runs headOid).1 (newestRuns oracle runners policy runs' headOid).1 := by
  suffices hfold : ∀ st st' : SortedMap String CheckRunRow × ℕ, MapsAgree st.1 st'.1 → MapsAgree
        ((runs.filter fun run => eqIgnoreAsciiCase run.headOid headOid && run.name ≠ "").foldl
          (takeRun oracle runners policy) st).1
        ((runs'.filter fun run => eqIgnoreAsciiCase run.headOid headOid && run.name ≠ "").foldl
          (takeRun oracle runners policy) st').1 from
    hfold _ _ fun name => .inl ⟨rfl, rfl⟩
  induction h with
  | nil => exact fun st st' hm => hm
  | cons hrun hrest ih =>
    intro st st' hm
    rw [filter_cons, filter_cons, hrun.headOid, hrun.name]
    split_ifs
    · exact ih _ _ (takeRun_agree hm hrun)
    · exact ih _ _ hm

end

theorem requiredCheck_passed {m m' : SortedMap String CheckRunRow} (hm : MapsAgree m m') {name : String}
    (h : (requiredCheck m' name).state = .passed) : (requiredCheck m name).state = .passed := by
  rw [requiredCheck] at h ⊢
  rcases hm name with ⟨-, hnone'⟩ | ⟨run, run', hrun, hrun', hagree⟩
  · rw [hnone'] at h
    exact absurd h (by simp)
  · rw [hrun'] at h
    rw [hrun]
    -- a run that has not ended passes nothing
    rcases hagree.state with hstate | hstate
    · exact hstate.symm.trans h
    · exact absurd (hstate.symm.trans h) (by simp)

theorem mem_keys_of_agree {m m' : SortedMap String CheckRunRow} (hm : MapsAgree m m') (name : String) :
    name ∈ m.keys ↔ name ∈ m'.keys := by
  rw [mem_keys_iff, mem_keys_iff]
  rcases hm name with ⟨hnone, hnone'⟩ | ⟨run, run', hrun, hrun', -⟩
  · simp [hnone, hnone']
  · simp [hrun, hrun']

theorem met_of_runsAgree {runs runs' : List CheckRunRow} (h : List.Forall₂ RunsAgree runs runs') {headOid : String}
    {oracle : RoleOracle} {runners : Finset String} {policy : ChecksPolicy}
    (hmet : (checksState runs' headOid oracle runners policy).met = true) :
    (checksState runs headOid oracle runners policy).met = true := by
  have hm : MapsAgree (newestRuns oracle runners policy runs headOid).1
      (newestRuns oracle runners policy runs' headOid).1 :=
    newestRuns_agree h headOid
  simp only [checksState, Bool.and_eq_true, all_map, all_eq_true, Function.comp_apply, decide_eq_true_eq,
    Bool.not_eq_true', Bool.and_eq_false_iff, decide_eq_false_iff_not, isEmpty_eq_false_iff, ne_eq,
    map_eq_nil_iff] at hmet ⊢
  obtain ⟨hall, hany⟩ := hmet
  split_ifs at hall hany ⊢ with hrequire
  · refine ⟨fun name hname => ?_, hany.imp_right fun hne hnil => hne ?_⟩
    · exact requiredCheck_passed hm (hall name ((mem_keys_of_agree hm name).mp hname))
    · rw [eq_nil_iff_forall_not_mem] at hnil ⊢
      exact fun name hname => hnil name ((mem_keys_of_agree hm name).mpr hname)
  · exact ⟨fun name hname => requiredCheck_passed hm (hall name hname), hany⟩

end Checks

end DashForge
