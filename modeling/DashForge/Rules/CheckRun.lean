import Mathlib.Order.Lattice.Nat

/-!
# Check-run reports

A CI's report on a check run is written as a new `checkRun` document or as a replace of the stored
one (`rules/parity.rs`). `checkRunWrite` decides which, and which of the set-once fields
(`startedAt`, `completedAt`, `conclusion`, `externalId`) the write carries.

A repository's stored runs change by such writes only (`RunStep`). `RunInv` is what consensus
requires of a run, and `Forward` what a replace may do to it: `checkRuns_invariant` states both for
every sequence of reports.
-/

namespace DashForge

open List Option Relation

/-- The stored run a report would update. -/
structure StoredRun where
  /-- `queued`, `in_progress` or `completed`. -/
  status : String
  startedAt : Option ℕ
  completedAt : Option ℕ
  conclusion : Option String
  /-- The CI's own run id. -/
  externalId : Option String
deriving DecidableEq, Repr

/-- What a reporter says now. -/
structure RunReport where
  status : String
  conclusion : Option String
  startedAt : Option ℕ
  completedAt : Option ℕ
  externalId : Option String
deriving DecidableEq, Repr

/-- How a report is written. -/
inductive RunWriteAction where
  | create
  | replace
deriving DecidableEq, Repr

/-- The write a report makes; `none` keeps the stored value of a field. -/
structure RunWrite where
  action : RunWriteAction
  startedAt : Option ℕ
  completedAt : Option ℕ
  conclusion : Option String
  externalId : Option String
deriving DecidableEq, Repr

def statusRank : String → Option ℕ
  | "queued" => some 0
  | "in_progress" => some 1
  | "completed" => some 2
  | _ => none

/-- Whether `stored` can take `report` as a replace: the same run moving forwards, and a completed
run's conclusion unchanged. -/
def continues (stored : StoredRun) (report : RunReport) (rank : ℕ) : Bool :=
  match statusRank stored.status with
  | none => false
  | some held =>
    let sameRun := match stored.externalId, report.externalId with
      | some a, some b => a == b
      | _, _ => true
    let conclusionKept := stored.conclusion.isNone || stored.conclusion == report.conclusion
    sameRun && decide (held ≤ rank) && conclusionKept

/-- A given value, unless one is held. -/
def unset (held given : Option String) : Option String := if held.isSome then none else given

/-- The write of a report of rank `rank`, a replace of `stored` if there is one. -/
def runWrite (stored : Option StoredRun) (report : RunReport) (rank nowMs : ℕ) : RunWrite :=
  let heldStart := stored.bind StoredRun.startedAt
  let heldEnd := stored.bind StoredRun.completedAt
  let start := heldStart.or (if 1 ≤ rank then some (report.startedAt.getD nowMs) else none)
  let finish := heldEnd.or (if rank == 2 then
      let finish := report.completedAt.getD nowMs
      some (start.elim finish fun s => max finish s)
    else none)
  { action := if stored.isSome then .replace else .create
    startedAt := if heldStart.isSome then none else start
    completedAt := if heldEnd.isSome then none else finish
    conclusion := unset (stored.bind StoredRun.conclusion) report.conclusion
    externalId := unset (stored.bind StoredRun.externalId) report.externalId }

/-- The write that records `report` against `stored` at `nowMs`; `none` when consensus would refuse
the report whatever is stored. A run that cannot take the report as a replace is left alone. -/
def checkRunWrite (stored : Option StoredRun) (report : RunReport) (nowMs : ℕ) :
    Option RunWrite := do
  let rank ← statusRank report.status
  if (rank == 2) != report.conclusion.isSome then none
  else return runWrite (stored.filter fun s => continues s report rank) report rank nowMs

/-! ### Writes and runs of writes -/

/-- The stored run a create makes. -/
def RunWrite.created (w : RunWrite) (report : RunReport) : StoredRun :=
  ⟨report.status, w.startedAt, w.completedAt, w.conclusion, w.externalId⟩

/-- A stored run after a replace: the new status, and the fields the write carries. -/
def RunWrite.replaced (w : RunWrite) (s : StoredRun) (report : RunReport) : StoredRun :=
  ⟨report.status, w.startedAt.or s.startedAt, w.completedAt.or s.completedAt,
    w.conclusion.or s.conclusion, w.externalId.or s.externalId⟩

/-- One report, against no stored run or any of them. -/
inductive RunStep : List StoredRun → List StoredRun → Prop
  | create (runs : List StoredRun) (stored : Option StoredRun) (report : RunReport) (nowMs : ℕ)
      {w : RunWrite} (hstored : ∀ s ∈ stored, s ∈ runs)
      (hw : checkRunWrite stored report nowMs = some w) (ha : w.action = .create) :
      RunStep runs (runs ++ [w.created report])
  | replace (before after : List StoredRun) (s : StoredRun) (report : RunReport) (nowMs : ℕ)
      {w : RunWrite} (hw : checkRunWrite (some s) report nowMs = some w)
      (ha : w.action = .replace) :
      RunStep (before ++ s :: after) (before ++ w.replaced s report :: after)

/-- What consensus requires of a stored run. -/
structure RunInv (s : StoredRun) : Prop where
  status : s.status = "queued" ∨ s.status = "in_progress" ∨ s.status = "completed"
  conclusion : s.conclusion.isSome = true ↔ s.status = "completed"
  startedAt : s.startedAt.isSome = true ↔ s.status ≠ "queued"
  completedAt : s.completedAt.isSome = true ↔ s.status = "completed"
  le : ∀ start ∈ s.startedAt, ∀ finish ∈ s.completedAt, start ≤ finish

/-- What a replace may do to a run: it moves forwards and keeps what is set. -/
structure Forward (s s' : StoredRun) : Prop where
  status : ∃ held ∈ statusRank s.status, ∃ rank ∈ statusRank s'.status, held ≤ rank
  startedAt : ∀ x, s.startedAt = some x → s'.startedAt = some x
  completedAt : ∀ x, s.completedAt = some x → s'.completedAt = some x
  conclusion : ∀ x, s.conclusion = some x → s'.conclusion = some x
  externalId : ∀ x, s.externalId = some x → s'.externalId = some x

/-! ### What one report does -/

variable {rank : ℕ} {report : RunReport} {s : StoredRun} {runs runs' : List StoredRun}

theorem statusRank_eq_some {status : String} (h : statusRank status = some rank) :
    (status = "queued" ∧ rank = 0) ∨ (status = "in_progress" ∧ rank = 1) ∨ (status = "completed" ∧ rank = 2) := by
  unfold statusRank at h
  split at h <;> simp_all

theorem checkRunWrite_eq_some {stored : Option StoredRun} {nowMs : ℕ}
    {w : RunWrite} (h : checkRunWrite stored report nowMs = some w) : ∃ rank, statusRank report.status = some rank ∧
      (report.conclusion.isSome = true ↔ rank = 2) ∧
      w = runWrite (stored.filter fun s => continues s report rank) report rank nowMs := by
  simp only [checkRunWrite, bind_eq_bind, bind_eq_some_iff] at h
  obtain ⟨rank, hrank, hw⟩ := h
  split_ifs at hw with hc
  refine ⟨rank, hrank, ?_, (some.inj hw).symm⟩
  simp only [bne_iff_ne, ne_eq, not_not] at hc
  rw [← hc, beq_iff_eq]

theorem runInv_created (nowMs : ℕ) (hrank : statusRank report.status = some rank)
    (hc : report.conclusion.isSome = true ↔ rank = 2) : RunInv ((runWrite none report rank nowMs).created report) := by
  rcases statusRank_eq_some hrank with ⟨hs, rfl⟩ | ⟨hs, rfl⟩ | ⟨hs, rfl⟩ <;>
    constructor <;> simp_all [RunWrite.created, runWrite, unset]

theorem continues_eq_true (h : continues s report rank = true) : (∃ held ∈ statusRank s.status, held ≤ rank) ∧
      (s.conclusion = none ∨ s.conclusion = report.conclusion) := by
  rw [continues] at h
  split at h
  · simp at h
  · rename_i held hheld
    simp only [Bool.and_eq_true, decide_eq_true_eq, Bool.or_eq_true, isNone_iff_eq_none, beq_iff_eq] at h
    exact ⟨⟨held, hheld, h.1.2⟩, h.2⟩

theorem forward_replaced (nowMs : ℕ)
    (hrank : statusRank report.status = some rank) (hcont : continues s report rank = true) :
    Forward s ((runWrite (some s) report rank nowMs).replaced s report) := by
  obtain ⟨⟨held, hheld, hle⟩, -⟩ := continues_eq_true hcont
  refine ⟨⟨held, hheld, rank, hrank, hle⟩, ?_, ?_, ?_, ?_⟩ <;> intro x hx <;>
    simp [RunWrite.replaced, runWrite, unset, hx]

theorem runInv_replaced (nowMs : ℕ) (hi : RunInv s) (hrank : statusRank report.status = some rank)
    (hc : report.conclusion.isSome = true ↔ rank = 2) (hcont : continues s report rank = true) :
    RunInv ((runWrite (some s) report rank nowMs).replaced s report) := by
  obtain ⟨⟨held, hheld, hle⟩, -⟩ := continues_eq_true hcont
  obtain ⟨-, hconclusion, hstarted, hcompleted, hbound⟩ := hi
  have hreport := statusRank_eq_some hrank
  obtain ⟨status, startedAt, completedAt, conclusion, externalId⟩ := s
  dsimp only at *
  rcases statusRank_eq_some hheld with ⟨rfl, rfl⟩ | ⟨rfl, rfl⟩ | ⟨rfl, rfl⟩
  · -- nothing is set yet, so the write is that of a new run
    obtain rfl : startedAt = none := by simpa using hstarted
    obtain rfl : completedAt = none := by simpa using hcompleted
    obtain rfl : conclusion = none := by simpa using hconclusion
    rcases hreport with ⟨hs, rfl⟩ | ⟨hs, rfl⟩ | ⟨hs, rfl⟩ <;> constructor <;>
      simp_all [RunWrite.replaced, runWrite, unset]
  · obtain ⟨start, rfl⟩ := isSome_iff_exists.mp (hstarted.mpr (by decide))
    obtain rfl : completedAt = none := by simpa using hcompleted
    obtain rfl : conclusion = none := by simpa using hconclusion
    rcases hreport with ⟨hs, rfl⟩ | ⟨hs, rfl⟩ | ⟨hs, rfl⟩
    · omega
    all_goals constructor <;> simp_all [RunWrite.replaced, runWrite, unset]
  · obtain ⟨start, rfl⟩ := isSome_iff_exists.mp (hstarted.mpr (by decide))
    obtain ⟨finish, rfl⟩ := isSome_iff_exists.mp (hcompleted.mpr rfl)
    obtain ⟨verdict, rfl⟩ := isSome_iff_exists.mp (hconclusion.mpr rfl)
    rcases hreport with ⟨hs, rfl⟩ | ⟨hs, rfl⟩ | ⟨hs, rfl⟩
    · omega
    · omega
    · constructor <;> simp_all [RunWrite.replaced, runWrite, unset]

/-! ### Whole runs -/

theorem Forward.refl (hi : RunInv s) : Forward s s := by
  refine ⟨?_, fun _ h => h, fun _ h => h, fun _ h => h, fun _ h => h⟩
  rcases hi.status with hs | hs | hs <;> rw [hs]
  · exact ⟨0, rfl, 0, rfl, le_rfl⟩
  · exact ⟨1, rfl, 1, rfl, le_rfl⟩
  · exact ⟨2, rfl, 2, rfl, le_rfl⟩

theorem Forward.trans {s' s'' : StoredRun} (h : Forward s s') (h' : Forward s' s'') : Forward s s'' := by
  obtain ⟨held, hheld, rank, hrank, hle⟩ := h.status
  obtain ⟨held', hheld', rank', hrank', hle'⟩ := h'.status
  obtain rfl : rank = held' := some.inj (hrank.symm.trans hheld')
  exact ⟨⟨held, hheld, rank', hrank', hle.trans hle'⟩, fun x hx => h'.startedAt x (h.startedAt x hx),
    fun x hx => h'.completedAt x (h.completedAt x hx), fun x hx => h'.conclusion x (h.conclusion x hx),
    fun x hx => h'.externalId x (h.externalId x hx)⟩

variable (hs : RunStep runs runs') (hi : ∀ s ∈ runs, RunInv s)

include hs hi in
theorem RunStep.cases : (∃ s, RunInv s ∧ runs' = runs ++ [s]) ∨
      ∃ before s s' after, runs = before ++ s :: after ∧ runs' = before ++ s' :: after ∧ RunInv s' ∧ Forward s s' := by
  cases hs with
  | create _ stored report nowMs hstored hw ha =>
    obtain ⟨rank, hrank, hc, rfl⟩ := checkRunWrite_eq_some hw
    -- a create leaves no stored run to replace
    have hnone : stored.filter (fun s => continues s report rank) = none := by
      cases h : stored.filter fun s => continues s report rank with
      | none => rfl
      | some s =>
        rw [h] at ha
        simp [runWrite] at ha
    rw [hnone]
    exact Or.inl ⟨_, runInv_created nowMs hrank hc, rfl⟩
  | replace before after s report nowMs hw ha =>
    obtain ⟨rank, hrank, hc, rfl⟩ := checkRunWrite_eq_some hw
    have hcont : continues s report rank = true := by
      by_contra hcont
      rw [filter_some, if_neg hcont] at ha
      simp [runWrite] at ha
    rw [filter_some, if_pos hcont]
    exact Or.inr ⟨before, s, _, after, rfl, rfl,
      runInv_replaced nowMs (hi s (by simp)) hrank hc hcont, forward_replaced nowMs hrank hcont⟩

include hs hi in
theorem RunStep.inv : ∀ s ∈ runs', RunInv s := by
  rcases hs.cases hi with ⟨s, hnew, rfl⟩ | ⟨before, s, s', after, rfl, rfl, hs', -⟩
  · intro t ht
    rcases mem_append.mp ht with ht | ht
    · exact hi t ht
    · rw [mem_singleton.mp ht]
      exact hnew
  · intro t ht
    rcases mem_append.mp ht with ht | ht
    · exact hi t (mem_append_left _ ht)
    · rcases mem_cons.mp ht with rfl | ht
      · exact hs'
      · exact hi t (mem_append_right _ (mem_cons_of_mem _ ht))

include hs hi in
theorem RunStep.forward {i : ℕ} (hget : runs[i]? = some s) :
    ∃ s', runs'[i]? = some s' ∧ Forward s s' := by
  have hrefl : Forward s s := Forward.refl (hi s (mem_of_getElem? hget))
  rcases hs.cases hi with ⟨t, -, rfl⟩ | ⟨before, t, t', after, rfl, rfl, -, hfwd⟩
  · exact ⟨s, by rw [getElem?_append_left (List.getElem?_eq_some_iff.mp hget).1, hget], hrefl⟩
  · rcases lt_trichotomy i before.length with hlt | rfl | hgt
    · rw [getElem?_append_left hlt] at hget ⊢
      exact ⟨s, hget, hrefl⟩
    · rw [getElem?_append_right le_rfl, Nat.sub_self, getElem?_cons_zero] at hget ⊢
      obtain rfl := some.inj hget
      exact ⟨t', rfl, hfwd⟩
    · obtain ⟨k, rfl⟩ : ∃ k, i = before.length + (k + 1) :=
        ⟨i - before.length - 1, by omega⟩
      rw [getElem?_append_right (by omega), Nat.add_sub_cancel_left, getElem?_cons_succ] at hget ⊢
      exact ⟨s, hget, hrefl⟩

/-- **Check runs keep their invariants.** In every state reached from no stored run by reports that
are written, each stored run has a conclusion and a completion time exactly when it is completed, a
start time exactly when it is not queued, and does not complete before it starts. In every
continuation the same run has a status at least as far, and keeps its start, completion time,
conclusion and external id once set. -/
theorem checkRuns_invariant (runs : List StoredRun)
    (hreach : ReflTransGen RunStep [] runs) :
    (∀ s ∈ runs, RunInv s) ∧
    ∀ runs', ReflTransGen RunStep runs runs' → ∀ (i : ℕ) s, runs[i]? = some s →
      ∃ s', runs'[i]? = some s' ∧ Forward s s' := by
  have hinv : ∀ {runs runs'}, (∀ s ∈ runs, RunInv s) → ReflTransGen RunStep runs runs' →
      ∀ s ∈ runs', RunInv s := by
    intro runs runs' hi hrun
    induction hrun with
    | refl => exact hi
    | tail _ hs ih => exact hs.inv ih
  have hi : ∀ s ∈ runs, RunInv s := hinv (by simp) hreach
  refine ⟨hi, fun runs' hrun i s hget => ?_⟩
  induction hrun with
  | refl => exact ⟨s, hget, Forward.refl (hi s (List.mem_of_getElem? hget))⟩
  | tail hrun hs ih =>
    obtain ⟨s', hget', hfwd⟩ := ih
    obtain ⟨s'', hget'', hfwd'⟩ := hs.forward (hinv hi hrun) hget'
    exact ⟨s'', hget'', hfwd.trans hfwd'⟩

/-- A run reported in progress, and then completed before it says it started. -/
theorem checkRuns_invariant_completed :
    ReflTransGen RunStep [] [⟨"completed", some 9, some 9, some "success", none⟩] ∧
      RunInv ⟨"completed", some 9, some 9, some "success", none⟩ := by
  have hreach : ReflTransGen RunStep []
      [⟨"completed", some 9, some 9, some "success", none⟩] :=
    .head (.create [] none ⟨"in_progress", none, some 9, none, none⟩ 10 (by simp) rfl rfl)
      (.single (.replace [] [] _ ⟨"completed", some "success", none, some 5, none⟩ 11 rfl rfl))
  exact ⟨hreach, (checkRuns_invariant _ hreach).1 _ (by simp)⟩

end DashForge
