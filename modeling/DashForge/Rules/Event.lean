import DashForge.Rules.RefUpdate
import DashForge.Rules.Transition
import Mathlib.Data.Finset.Basic

/-!
# Events and PR state

An issue's or PR's `event` log and the PR state folded from it (`rules.rs`, `rules/v2.rs`). Open,
merged and draft come from the state code of the transitions; labels, assignees and the base ref
come from the log. `prStateV2` also says whether the merge commit was found on the base, and
`prMergeBase` which base that is.
-/

namespace DashForge

/-- A collaboration `event` kind. -/
inductive EventKind where
  | close
  | reopen
  | merge
  | labelAdd
  | labelRemove
  | assign
  | unassign
  | retarget
  | draft
  | ready
  | threadResolve
  | threadUnresolve
  | reviewRequest
  | reviewRequestRemove
  | reviewDismiss
  | headUpdate
  | milestoneSet
  | milestoneClear
  | pin
  | unpin
  | lock
  | unlock
  | policyBypass
  | hide
  | unhide
deriving DecidableEq, Repr

/-- An `event` document, flattened. -/
structure Event where
  id : String
  targetId : String
  kind : EventKind
  actor : String
  /-- A label, an assignee or a base ref, by kind. -/
  value : Option String
  /-- A merge commit or a new head, by kind. -/
  oid : Option Oid
  /-- The document or identity a review kind refers to. -/
  refId : Option String
  createdAt : ℕ
deriving DecidableEq, Repr

/-- The position of an event in the order every fold applies. -/
def Event.key (e : Event) : ℕ ×ₗ String := toLex (e.createdAt, e.id)

/-- A PR's state after folding its log. -/
structure PrState where
  isOpen : Bool
  merged : Bool
  draft : Bool
  baseRef : Option String
  labels : Finset String
  assignees : Finset String
  /-- Whether the merge commit was a valid tip of the base; `none` when not merged or not known. -/
  mergeOnBase : Option Bool
deriving DecidableEq

/-- The state before any event. -/
def PrState.default : PrState := ⟨true, false, false, none, ∅, ∅, none⟩

/-- Apply one event to a PR's state. -/
def applyPrEvent (state : PrState) (e : Event) : PrState :=
  match e.kind with
  | .close => { state with isOpen := false }
  | .reopen => if !state.merged then { state with isOpen := true } else state
  | .merge => { state with merged := true, isOpen := false }
  | .labelAdd => match e.value with
    | some v => { state with labels := insert v state.labels }
    | none => state
  | .labelRemove => match e.value with
    | some v => { state with labels := state.labels.erase v }
    | none => state
  | .assign => match e.value with
    | some v => { state with assignees := insert v state.assignees }
    | none => state
  | .unassign => match e.value with
    | some v => { state with assignees := state.assignees.erase v }
    | none => state
  | .retarget => match e.value with
    | some v => if isLegalRefName v then { state with baseRef := some v } else state
    | none => state
  | .draft => { state with draft := true }
  | .ready => { state with draft := false }
  | _ => state

/-- The kinds that live in `transition` only; the log's folds ignore them. -/
def isStateKind : EventKind → Bool
  | .close | .reopen | .merge | .draft | .ready | .lock | .unlock => true
  | _ => false

/-- The events that fold into labels, assignees and the base ref, in order. -/
def metaLog (events : List Event) : List Event :=
  sortByKey Event.key (events.filter fun e => !isStateKind e.kind)

/-- A PR's state from its state code, its merge commit and its log, against a base tip and an
ancestry predicate. -/
def prStateV2 (stateCode : ℤ) (mergeOid : Option Oid) (events : List Event) (baseTip : Option Oid)
    (isAncestor : Oid → Oid → Bool) : PrState :=
  let state := (metaLog events).foldl applyPrEvent PrState.default
  let status := statusOfCode stateCode
  -- an empty oid is "not known"
  let mergeOid := mergeOid.filter fun o => !o.isEmpty
  { state with
    isOpen := status.isOpen
    merged := status.merged
    draft := status.draft
    mergeOnBase := match status.merged, mergeOid, baseTip with
      | false, _, _ | true, none, _ => none
      | true, some _, none => some false
      | true, some oid, some tip => some (isAncestor oid tip) }

/-- The base a PR's merge is judged against. -/
structure MergeBase where
  refName : String
  /-- The time from which it must have been a branch. -/
  since : ℕ
  retargeted : Bool
deriving DecidableEq, Repr

/-- The base a PR merges into: the newest legal retarget not written after the merge, else the base
it was opened with. -/
def prMergeBase (openedBase : String) (openedAt : ℕ) (events : List Event)
    (mergedAt : Option ℕ) : MergeBase :=
  let retargets := ((metaLog events).filter fun e => e.kind == .retarget).filter fun e =>
    mergedAt.all fun m => decide (e.createdAt ≤ m)
  let bases := retargets.filterMap fun e =>
    (e.value.filter isLegalRefName).map fun v => (v, e.createdAt)
  match bases.getLast? with
  | none => ⟨openedBase, openedAt, false⟩
  | some (v, time) => ⟨v, time, true⟩

/-- A merge is on the base exactly when it is merged, its commit is known, and the base, if it has a
tip, has it. -/
theorem mergeOnBase_prStateV2_eq_some_true {stateCode : ℤ} {mergeOid : Option Oid}
    {events : List Event} {baseTip : Option Oid} {isAncestor : Oid → Oid → Bool} :
    (prStateV2 stateCode mergeOid events baseTip isAncestor).mergeOnBase = some true ↔
      (statusOfCode stateCode).merged = true ∧ ∃ oid tip, mergeOid = some oid ∧ oid ≠ "" ∧
        baseTip = some tip ∧ isAncestor oid tip = true := by
  simp only [prStateV2]
  cases hm : (statusOfCode stateCode).merged with
  | false => simp
  | true =>
    cases mergeOid with
    | none => simp
    | some oid =>
      by_cases hoid : oid = ""
      · have hfilter : (some oid).filter (fun o : Oid => !o.isEmpty) = none := by
          rw [Option.filter_some, if_neg (by simp [hoid])]
        rw [hfilter]
        simp [hoid]
      · have hfilter : (some oid).filter (fun o : Oid => !o.isEmpty) = some oid := by
          rw [Option.filter_some, if_pos (by simpa using hoid)]
        rw [hfilter]
        cases baseTip with
        | none => simp
        | some tip => simp [hoid]

/-- Events written after the merge do not move the base it is judged against. -/
theorem prMergeBase_append (openedBase : String) (openedAt : ℕ) (events : List Event)
    {later : List Event} {m : ℕ} (h : ∀ e ∈ later, m < e.createdAt) :
    prMergeBase openedBase openedAt (events ++ later) (some m) = prMergeBase openedBase openedAt events (some m) := by
  have hfilter : ∀ es : List Event, ((metaLog es).filter fun e => e.kind == .retarget).filter
      (fun e => (some m).all fun m => decide (e.createdAt ≤ m)) =
      sortByKey Event.key ((es.filter fun e => decide (e.createdAt ≤ m)).filter fun e =>
        !isStateKind e.kind && e.kind == .retarget) := by
    intro es
    simp only [metaLog, Option.all_some, ← sortByKey_filter, List.filter_filter]
    congr 2
    funext e
    rw [Bool.and_comm, Bool.and_comm (e.kind == .retarget)]
  have hnil : later.filter (fun e => decide (e.createdAt ≤ m)) = [] := by
    rw [List.filter_eq_nil_iff]
    intro e he
    simpa using h e he
  simp only [prMergeBase, hfilter, List.filter_append, hnil, List.append_nil]

end DashForge
