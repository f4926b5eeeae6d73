import DashForge.Data.SortBy
import DashForge.Rules.Role

/-!
# Publication dates

A coordinated fix has a date at which a release bot publishes it (`rules/embargo.rs`): records of one
target, each a schedule, a cancellation or a completion. `embargoOf` takes the newest schedule that counts
and what ended it. A schedule counts while its writer is the owner or holds a role that may set a date; an
ending always counts (`recordCounts`).

So a removed member's ending still holds: a target without an embargo, or with one that ended, stays so,
and one that waits stays as it is while the writer of its own date counts (`embargoOf_removal`).
-/

namespace DashForge

open List

/-! ### Records -/

/-- What is published at the date. -/
structure EmbargoPlan where
  /-- Unix seconds. -/
  at_ : ℕ
  pr : Option ℕ
  branch : Option String
  onto : Option String
  tag : Option String
  message : Option String
deriving DecidableEq, Repr

inductive EmbargoValue where
  | schedule (plan : EmbargoPlan)
  | cancel
  | done (commit : String)
deriving DecidableEq, Repr

structure EmbargoRecord where
  id : String
  targetId : String
  number : ℕ
  value : EmbargoValue
  actor : String
  /-- Milliseconds. -/
  createdAt : ℕ
deriving DecidableEq, Repr

/-- The position of a record in the platform order. -/
def EmbargoRecord.key (r : EmbargoRecord) : ℕ ×ₗ String := toLex (r.createdAt, r.id)

def EmbargoRecord.isSchedule (r : EmbargoRecord) : Bool :=
  match r.value with
  | .schedule _ => true
  | _ => false

/-- Whether a record counts: an ending always, a schedule by its writer's role. -/
def recordCounts (owner : String) (oracle : RoleOracle) (r : EmbargoRecord) : Bool :=
  !r.isSchedule || r.actor == owner || oracle.approverAt r.actor r.createdAt

/-! ### The embargo of a target -/

inductive EmbargoState where
  | scheduled
  | cancelled (by_ : String) (at_ : ℕ)
  | done (commit by_ : String) (at_ : ℕ)
deriving DecidableEq, Repr

structure Embargo where
  targetId : String
  number : ℕ
  plan : EmbargoPlan
  setBy : String
  setAt : ℕ
  id : String
  state : EmbargoState
deriving DecidableEq, Repr

/-- Whether it waits and its date has come. -/
def Embargo.due (e : Embargo) (now : ℕ) : Bool := e.state = .scheduled ∧ e.plan.at_ ≤ now

/-- The last schedule, its plan and what follows it. -/
def lastSchedule : List EmbargoRecord → Option (EmbargoRecord × EmbargoPlan × List EmbargoRecord)
  | [] => none
  | r :: later =>
    (lastSchedule later).or <|
      match r.value with
      | .schedule plan => some (r, plan, later)
      | _ => none

/-- How a record ends an embargo. -/
def endingOf (r : EmbargoRecord) : Option EmbargoState :=
  match r.value with
  | .cancel => some (.cancelled r.actor r.createdAt)
  | .done commit => some (.done commit r.actor r.createdAt)
  | .schedule _ => none

/-- The embargo a schedule and the records after it make. -/
def embargoFrom (s : EmbargoRecord × EmbargoPlan × List EmbargoRecord) : Embargo :=
  ⟨s.1.targetId, s.1.number, s.2.1, s.1.actor, s.1.createdAt, s.1.id, (s.2.2.findSome? endingOf).getD .scheduled⟩

/-- The embargo of a target: its newest schedule, ended by a newer cancellation or completion. -/
def embargoOf (targetId : String) (records : List EmbargoRecord) : Option Embargo :=
  let mine := sortByKey EmbargoRecord.key (records.filter fun r => r.targetId == targetId)
  (lastSchedule mine).map embargoFrom

/-! ### The last schedule -/

variable {l later : List EmbargoRecord} {s : EmbargoRecord} {plan : EmbargoPlan}

theorem lastSchedule_eq_none : lastSchedule l = none ↔ ∀ r ∈ l, r.isSchedule = false := by
  induction l with
  | nil => simp [lastSchedule]
  | cons r l ih =>
    rw [lastSchedule, Option.or_eq_none_iff, ih, forall_mem_cons, and_comm]
    cases h : r.value <;> simp [EmbargoRecord.isSchedule, h]

theorem lastSchedule_eq_some : lastSchedule l = some (s, plan, later) ↔ s.value = .schedule plan ∧
      (∀ r ∈ later, r.isSchedule = false) ∧ ∃ before, l = before ++ s :: later := by
  constructor
  · intro h
    induction l with
    | nil => simp [lastSchedule] at h
    | cons r l ih =>
      rw [lastSchedule, Option.or_eq_some_iff] at h
      rcases h with h | ⟨hnone, h⟩
      · obtain ⟨hs, hlater, before, rfl⟩ := ih h
        exact ⟨hs, hlater, r :: before, rfl⟩
      · split at h
        · rename_i plan' hr
          obtain ⟨rfl, rfl, rfl⟩ : r = s ∧ plan' = plan ∧ l = later := by simpa using h
          exact ⟨hr, lastSchedule_eq_none.mp hnone, [], rfl⟩
        · cases h
  · rintro ⟨hs, hlater, before, rfl⟩
    have htail : lastSchedule (s :: later) = some (s, plan, later) := by
      rw [lastSchedule, lastSchedule_eq_none.mpr hlater, Option.none_or]
      simp [hs]
    induction before with
    | nil => exact htail
    | cons r before ih => rw [cons_append, lastSchedule, ih, Option.some_or]

/-- Dropping schedules other than the last one drops nothing of the embargo. -/
theorem lastSchedule_filter {p : EmbargoRecord → Bool} (hp : ∀ r, r.isSchedule = false → p r)
    (h : lastSchedule l = some (s, plan, later)) (hs : p s) : lastSchedule (l.filter p) = some (s, plan, later) := by
  obtain ⟨hvalue, hlater, before, rfl⟩ := lastSchedule_eq_some.mp h
  refine lastSchedule_eq_some.mpr ⟨hvalue, hlater, before.filter p, ?_⟩
  have hkeep : later.filter p = later := filter_eq_self.mpr fun r hr => hp r (hlater r hr)
  rw [filter_append, filter_cons_of_pos hs, hkeep]

/-- After any schedule that is left comes everything that came after the last one. -/
theorem later_subset_of_lastSchedule_filter {later' : List EmbargoRecord} {s' : EmbargoRecord}
    {plan' : EmbargoPlan} {p : EmbargoRecord → Bool} (hp : ∀ r, r.isSchedule = false → p r)
    (h : lastSchedule l = some (s, plan, later)) (h' : lastSchedule (l.filter p) = some (s', plan', later')) :
    later ⊆ later' := by
  obtain ⟨-, hlater, before, rfl⟩ := lastSchedule_eq_some.mp h
  obtain ⟨hvalue, -, before', heq⟩ := lastSchedule_eq_some.mp h'
  have hkeep : later.filter p = later := filter_eq_self.mpr fun r hr => hp r (hlater r hr)
  have hnot : s' ∉ later := by
    intro hmem
    have hsched := hlater s' hmem
    simp [EmbargoRecord.isSchedule, hvalue] at hsched
  -- `later` ends the filtered list, and `s'` is not in it
  have hsuffix : later <:+ before' ++ s' :: later' := by
    rw [← heq, filter_append, filter_cons]
    split
    · rw [hkeep]
      exact ⟨before.filter p ++ [s], by simp⟩
    · rw [hkeep]
      exact ⟨before.filter p, rfl⟩
  rcases suffix_or_suffix_of_suffix hsuffix (suffix_append before' (s' :: later')) with hs | hs
  · rcases suffix_cons_iff.mp hs with rfl | hs
    · exact absurd mem_cons_self hnot
    · exact hs.subset
  · exact absurd (hs.subset mem_cons_self) hnot

theorem endingOf_eq_none {r : EmbargoRecord} : endingOf r = none ↔ r.isSchedule := by
  cases h : r.value <;> simp [endingOf, EmbargoRecord.isSchedule, h]

theorem endingOf_ne_scheduled (r : EmbargoRecord) : endingOf r ≠ some .scheduled := by
  cases h : r.value <;> simp [endingOf, h]

/-- An embargo has ended when something after its schedule ends it. -/
theorem embargoFrom_state : (embargoFrom (s, plan, later)).state = .scheduled ↔ ∀ r ∈ later, r.isSchedule := by
  simp only [← endingOf_eq_none, ← findSome?_eq_none_iff]
  cases h : later.findSome? endingOf with
  | none => simp [embargoFrom, h]
  | some state =>
    obtain ⟨r, -, hr⟩ := exists_of_findSome?_eq_some h
    have hne : state ≠ .scheduled := fun heq => endingOf_ne_scheduled r (heq ▸ hr)
    simp [embargoFrom, h, hne]

/-! ### Removing members -/

section Removal

variable {owner : String} {oracle oracle' : RoleOracle}

theorem recordCounts_mono (hsub : oracle'.memberships ⊆ oracle.memberships) {r : EmbargoRecord}
    (h : recordCounts owner oracle' r) : recordCounts owner oracle r := by
  unfold recordCounts at h ⊢
  simp only [Bool.or_eq_true] at h ⊢
  refine h.imp_right fun happ => ?_
  obtain ⟨m, hm, hrest⟩ := RoleOracle.approverAt_iff.mp happ
  exact RoleOracle.approverAt_iff.mpr ⟨m, hsub hm, hrest⟩

/-- The records of a target that count, in order. -/
def countedOf (owner : String) (oracle : RoleOracle) (targetId : String) (records : List EmbargoRecord) :
    List EmbargoRecord :=
  (sortByKey EmbargoRecord.key (records.filter fun r => r.targetId == targetId)).filter (recordCounts owner oracle)

theorem embargoOf_filter (targetId : String) (records : List EmbargoRecord) :
    embargoOf targetId (records.filter (recordCounts owner oracle)) =
      (lastSchedule (countedOf owner oracle targetId records)).map embargoFrom := by
  have hcomm : (records.filter (recordCounts owner oracle)).filter (fun r => r.targetId == targetId) =
      (records.filter fun r => r.targetId == targetId).filter (recordCounts owner oracle) := by
    simp only [filter_filter, Bool.and_comm]
  rw [embargoOf, hcomm, sortByKey_filter, ← countedOf]

theorem countedOf_filter (hsub : oracle'.memberships ⊆ oracle.memberships) (targetId : String)
    (records : List EmbargoRecord) : countedOf owner oracle' targetId records =
      (countedOf owner oracle targetId records).filter (recordCounts owner oracle') := by
  rw [countedOf, countedOf, filter_filter]
  refine filter_congr fun r _ => ?_
  cases h : recordCounts owner oracle' r with
  | false => rfl
  | true => rw [recordCounts_mono hsub h]; rfl

theorem recordCounts_of_not_isSchedule {r : EmbargoRecord} (h : r.isSchedule = false) :
    recordCounts owner oracle r := by simp [recordCounts, h]

/-- **Removing members brings no ended date back.** When the embargo folded from the records that count is
absent or has ended, so is the one folded with fewer members; while it waits and the writer of its own date
still counts, it stays as it is. So one that is not due stays not due, unless its own date no longer counts. -/
theorem embargoOf_removal (targetId owner : String) (now : ℕ) (records : List EmbargoRecord)
    (oracle oracle' : RoleOracle) (hsub : oracle'.memberships ⊆ oracle.memberships) :
    ((∀ e, embargoOf targetId (records.filter (recordCounts owner oracle)) = some e → e.state ≠ .scheduled) →
      ∀ e, embargoOf targetId (records.filter (recordCounts owner oracle')) = some e → e.state ≠ .scheduled) ∧
    (∀ e, embargoOf targetId (records.filter (recordCounts owner oracle)) = some e →
      (e.setBy = owner ∨ oracle'.approverAt e.setBy e.setAt) →
      embargoOf targetId (records.filter (recordCounts owner oracle')) = some e) ∧
    ((∀ e, embargoOf targetId (records.filter (recordCounts owner oracle)) = some e → e.due now = false ∧
        (e.state = .scheduled → e.setBy = owner ∨ oracle'.approverAt e.setBy e.setAt)) →
      ∀ e, embargoOf targetId (records.filter (recordCounts owner oracle')) = some e → e.due now = false) := by
  have hended : (∀ e, embargoOf targetId (records.filter (recordCounts owner oracle)) = some e →
        e.state ≠ .scheduled) →
      ∀ e, embargoOf targetId (records.filter (recordCounts owner oracle')) = some e → e.state ≠ .scheduled := by
    rw [embargoOf_filter, embargoOf_filter, countedOf_filter hsub]
    generalize countedOf owner oracle targetId records = l
    intro h e he
    obtain ⟨⟨s', plan', later'⟩, h', rfl⟩ := Option.map_eq_some_iff.mp he
    cases hlast : lastSchedule l with
    | none =>
      obtain ⟨hvalue, -, before, heq⟩ := lastSchedule_eq_some.mp h'
      have hmem : s' ∈ l := mem_of_mem_filter (heq ▸ mem_append_right before mem_cons_self)
      have hno := lastSchedule_eq_none.mp hlast s' hmem
      simp [EmbargoRecord.isSchedule, hvalue] at hno
    | some found =>
      obtain ⟨s, plan, later⟩ := found
      have hsubset := later_subset_of_lastSchedule_filter (fun r => recordCounts_of_not_isSchedule) hlast h'
      have hend := h (embargoFrom (s, plan, later)) (by rw [hlast]; rfl)
      rw [ne_eq, embargoFrom_state] at hend ⊢
      exact fun hall => hend fun r hr => hall r (hsubset hr)
  have hstays : ∀ e, embargoOf targetId (records.filter (recordCounts owner oracle)) = some e →
      (e.setBy = owner ∨ oracle'.approverAt e.setBy e.setAt) →
      embargoOf targetId (records.filter (recordCounts owner oracle')) = some e := by
    rw [embargoOf_filter, embargoOf_filter, countedOf_filter hsub]
    intro e he hcounts
    obtain ⟨⟨s, plan, later⟩, hlast, rfl⟩ := Option.map_eq_some_iff.mp he
    have hs : recordCounts owner oracle' s := by
      simp only [recordCounts, Bool.or_eq_true, beq_iff_eq, or_assoc]
      exact Or.inr hcounts
    rw [lastSchedule_filter (fun r => recordCounts_of_not_isSchedule) hlast hs]
    rfl
  refine ⟨hended, hstays, fun h e he => ?_⟩
  by_cases hwait : ∃ e₀, embargoOf targetId (records.filter (recordCounts owner oracle)) = some e₀ ∧
      e₀.state = .scheduled
  · obtain ⟨e₀, he₀, hstate⟩ := hwait
    obtain rfl : e₀ = e := Option.some.inj ((hstays e₀ he₀ ((h e₀ he₀).2 hstate)).symm.trans he)
    exact (h e₀ he₀).1
  · push Not at hwait
    simp [Embargo.due, hended hwait e he]

end Removal

/-- Two dates of one target: `ann`'s, and a later one `bob` postponed it to. -/
def postponed : List EmbargoRecord :=
  [⟨"s1", "t", 1, .schedule ⟨10, some 3, none, none, none, none⟩, "ann", 1⟩,
    ⟨"s2", "t", 1, .schedule ⟨1000, some 3, none, none, none, none⟩, "bob", 2⟩]

/-- `postponed`, withdrawn by `cat`. -/
def withdrawn : List EmbargoRecord := postponed ++ [⟨"c", "t", 1, .cancel, "cat", 3⟩]

theorem embargoOf_removal_withdrawn :
    ∃ e, embargoOf "t" (withdrawn.filter (recordCounts "own" ⟨[⟨"ann", .writer, 0⟩]⟩)) = some e ∧
      e.state ≠ .scheduled := by
  have hfold : embargoOf "t" (withdrawn.filter (recordCounts "own" ⟨[⟨"ann", .writer, 0⟩]⟩)) =
      some ⟨"t", 1, ⟨10, some 3, none, none, none, none⟩, "ann", 1, "s1", .cancelled "cat" 3⟩ := by decide +kernel
  exact ⟨_, hfold, (embargoOf_removal "t" "own" 20 withdrawn
    ⟨[⟨"ann", .writer, 0⟩, ⟨"bob", .maintainer, 0⟩, ⟨"cat", .triage, 0⟩]⟩ ⟨[⟨"ann", .writer, 0⟩]⟩ (by decide)).1
    (by decide +kernel) _ hfold⟩

/-- A date that was postponed fires once the member who postponed it is removed: their schedule no longer
counts, and the earlier one is the newest. -/
theorem postponed_due_again : ¬∀ (targetId owner : String) (now : ℕ) (records : List EmbargoRecord)
    (oracle oracle' : RoleOracle), oracle'.memberships ⊆ oracle.memberships →
    (∀ e, embargoOf targetId (records.filter (recordCounts owner oracle)) = some e → e.due now = false) →
    ∀ e, embargoOf targetId (records.filter (recordCounts owner oracle')) = some e → e.due now = false := by
  intro h
  have hdue := h "t" "own" 20 postponed ⟨[⟨"ann", .writer, 0⟩, ⟨"bob", .maintainer, 0⟩]⟩ ⟨[⟨"ann", .writer, 0⟩]⟩
    (by decide) (by decide +kernel) ⟨"t", 1, ⟨10, some 3, none, none, none, none⟩, "ann", 1, "s1", .scheduled⟩
    (by decide +kernel)
  exact absurd hdue (by decide)

end DashForge
