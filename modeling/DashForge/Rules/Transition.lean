import Mathlib.Algebra.BigOperators.Group.List.Basic
import Mathlib.Algebra.Ring.Int.Defs

/-!
# Issue and PR state from transitions

Every state change of an issue or a PR is a `transition` document with a signed delta, and the sum
of a target's deltas is its state (`rules/transition.rs`): bit 0 closed, bit 1 merged, bit 3 draft,
and 16 for a locked conversation. `nextTransition` is the legal move from a sum.

The legal moves are the edges of a small machine (`IssueStep`, `PatchStep`), and `IssueInv` and
`PatchInv` say what the transitions of a target that moved along them satisfy: the sum is the code
of the state, and per kind the counts differ by the bits of the state.
-/

namespace DashForge

/-! ### Kinds and deltas -/

namespace TransitionKind

@[match_pattern, simp] abbrev issueClose : ℕ := 1
@[match_pattern, simp] abbrev issueReopen : ℕ := 2
@[match_pattern, simp] abbrev issueLock : ℕ := 3
@[match_pattern, simp] abbrev issueUnlock : ℕ := 4
@[match_pattern, simp] abbrev prClose : ℕ := 11
@[match_pattern, simp] abbrev prReopen : ℕ := 12
@[match_pattern, simp] abbrev prMerge : ℕ := 13
@[match_pattern, simp] abbrev prDraft : ℕ := 14
@[match_pattern, simp] abbrev prReady : ℕ := 15
@[match_pattern, simp] abbrev prDraftClose : ℕ := 16
@[match_pattern, simp] abbrev prDraftReopen : ℕ := 17
@[match_pattern, simp] abbrev prLock : ℕ := 18
@[match_pattern, simp] abbrev prUnlock : ℕ := 19

end TransitionKind

open TransitionKind

/-- The delta of a lock: the bit above every state code. -/
def lockDelta : ℤ := 16

/-- The delta of a kind, `none` for a kind the contract does not have. -/
def deltaOf : ℕ → Option ℤ
  | issueClose | prClose | prDraftClose => some 1
  | issueReopen | prReopen | prDraftReopen => some (-1)
  | prMerge => some 2
  | prDraft => some 8
  | prReady => some (-8)
  | issueLock | prLock => some lockDelta
  | issueUnlock | prUnlock => some (-lockDelta)
  | _ => none

/-- What a transition names. -/
inductive TransitionTarget where
  | issue
  | patch
deriving DecidableEq, Repr

/-- The stored `targetKind`. -/
def TransitionTarget.code : TransitionTarget → ℕ
  | .issue => 0
  | .patch => 1

/-- A state change a user asks for. -/
inductive StateAction where
  | close
  | reopen
  | merge
  | draft
  | ready
  | lock
  | unlock
deriving DecidableEq, Repr

/-- Who asks for a state change. -/
inductive Actor where
  /-- A current maintainer or writer. -/
  | member
  /-- The target's author, not a member. -/
  | author
  | other
deriving DecidableEq, Repr

/-- Whether the actor writes as a member, `none` when no operand admits them. -/
def Actor.isMember : Actor → Option Bool
  | .member => some true
  | .author => some false
  | .other => none

/-- The fields of the transition a client writes. -/
structure TransitionMove where
  kind : ℕ
  delta : ℤ
  targetKind : ℕ
  /-- 0 for a member, the target's number for its author. -/
  asAuthor : ℕ
  /-- The sum after the move. -/
  after : ℤ
deriving DecidableEq, Repr

/-- A sum as its state code and whether the conversation is locked. -/
def foldSum (sum : ℤ) : ℤ × Bool := (sum % lockDelta, lockDelta ≤ sum)

/-- The kind of the move `action` makes from a state, if there is one. -/
def moveKind (target : TransitionTarget) (action : StateAction) (code : ℤ) (locked member : Bool) :
    Option ℕ :=
  match target, action, code with
  | .issue, .lock, _ => if member && !locked then some issueLock else none
  | .issue, .unlock, _ => if member && locked then some issueUnlock else none
  | .patch, .lock, _ => if member && !locked then some prLock else none
  | .patch, .unlock, _ => if member && locked then some prUnlock else none
  | .issue, .close, 0 => some issueClose
  | .issue, .reopen, 1 => some issueReopen
  | .patch, .close, 0 => some prClose
  | .patch, .close, 8 => some prDraftClose
  | .patch, .reopen, 1 => some prReopen
  | .patch, .reopen, 9 => some prDraftReopen
  | .patch, .merge, 0 => if member then some prMerge else none
  | .patch, .draft, 0 => some prDraft
  | .patch, .ready, 8 => some prReady
  | _, _, _ => none

/-- The move that carries out `action` on a target whose transitions sum to `sum`, `none` when
consensus would refuse it. -/
def nextTransition (target : TransitionTarget) (sum : ℤ) (action : StateAction) (actor : Actor)
    (targetNumber : ℕ) : Option TransitionMove := do
  let member ← actor.isMember
  let (code, locked) := foldSum sum
  let kind ← moveKind target action code locked member
  let delta ← deltaOf kind
  return { kind, delta, targetKind := target.code,
           asAuthor := if member then 0 else targetNumber, after := sum + delta }

/-- A target's state, read off its code. -/
structure StateStatus where
  isOpen : Bool
  merged : Bool
  draft : Bool
  locked : Bool
deriving DecidableEq, Repr

/-- The state a code or a whole sum stands for. -/
def statusOfCode (sum : ℤ) : StateStatus :=
  let (code, locked) := foldSum sum
  let closed := code.toNat &&& 1 != 0
  let merged := code.toNat &&& 2 != 0
  let draft := code.toNat &&& 8 != 0
  { isOpen := !closed && !merged, merged, draft, locked }

/-- A `transition` document, flattened. -/
structure Transition where
  id : String
  kind : ℕ
  actor : String
  /-- The merge commit, hex. -/
  oid : Option String
  asAuthor : ℕ
  createdAt : ℕ
deriving DecidableEq, Repr

/-- The sum of a target's deltas; unknown kinds count 0. -/
def stateSum (transitions : List Transition) : ℤ :=
  (transitions.filterMap fun t => deltaOf t.kind).sum

def stateCode (transitions : List Transition) : ℤ := (foldSum (stateSum transitions)).1

def isLocked (transitions : List Transition) : Bool := (foldSum (stateSum transitions)).2

/-- The target's merge transition, if any. -/
def mergeTransition (transitions : List Transition) : Option Transition :=
  transitions.find? fun t => t.kind == prMerge

/-! ### The moves as an abstract machine

A patch is in one of five phases and an issue in one of two, each locked or not. The legal moves
are the edges of this machine, and a sum is the code of its state. -/

/-- The states of a patch. -/
inductive PatchPhase where
  | ready
  | closed
  | merged
  | draft
  | closedDraft
deriving DecidableEq, Repr

def PatchPhase.code : PatchPhase → ℤ
  | .ready => 0
  | .closed => 1
  | .merged => 2
  | .draft => 8
  | .closedDraft => 9

/-- The moves of an issue, by kind: from closed and locked or not, to closed and locked or not. -/
inductive IssueStep : Bool → Bool → ℕ → Bool → Bool → Prop
  | close {locked} : IssueStep false locked issueClose true locked
  | reopen {locked} : IssueStep true locked issueReopen false locked
  | lock {closed} : IssueStep closed false issueLock closed true
  | unlock {closed} : IssueStep closed true issueUnlock closed false

/-- The moves of a patch, by kind. A merged patch is only locked and unlocked. -/
inductive PatchStep : PatchPhase → Bool → ℕ → PatchPhase → Bool → Prop
  | close {locked} : PatchStep .ready locked prClose .closed locked
  | reopen {locked} : PatchStep .closed locked prReopen .ready locked
  | merge {locked} : PatchStep .ready locked prMerge .merged locked
  | draft {locked} : PatchStep .ready locked prDraft .draft locked
  | ready {locked} : PatchStep .draft locked prReady .ready locked
  | draftClose {locked} : PatchStep .draft locked prDraftClose .closedDraft locked
  | draftReopen {locked} : PatchStep .closedDraft locked prDraftReopen .draft locked
  | lock {phase} : PatchStep phase false prLock phase true
  | unlock {phase} : PatchStep phase true prUnlock phase false

theorem foldSum_add {code : ℤ} (h0 : 0 ≤ code) (h16 : code < 16) (locked : Bool) :
    foldSum (code + 16 * locked.toNat) = (code, locked) := by
  cases locked with
  | false => simp [foldSum, lockDelta, Int.emod_eq_of_lt h0 h16, h16]
  | true =>
    have hle : 16 ≤ code + 16 := by omega
    simp [foldSum, lockDelta, Int.emod_eq_of_lt h0 h16, hle]

theorem foldSum_issue (closed locked : Bool) :
    foldSum (closed.toNat + 16 * locked.toNat) = ((closed.toNat : ℤ), locked) :=
  foldSum_add (by cases closed <;> decide) (by cases closed <;> decide) locked

theorem foldSum_patch (phase : PatchPhase) (locked : Bool) :
    foldSum (phase.code + 16 * locked.toNat) = (phase.code, locked) :=
  foldSum_add (by cases phase <;> decide) (by cases phase <;> decide) locked

variable {action : StateAction} {actor : Actor} {n : ℕ} {m : TransitionMove} {closed locked : Bool} {phase : PatchPhase}
  {ts : List Transition}

theorem nextTransition_eq_some {target : TransitionTarget} {sum : ℤ}
    (h : nextTransition target sum action actor n = some m) :
    ∃ member, moveKind target action (foldSum sum).1 (foldSum sum).2 member = some m.kind := by
  simp only [nextTransition, Option.bind_eq_bind, Option.bind_eq_some_iff] at h
  obtain ⟨member, -, kind, hkind, delta, -, hm⟩ := h
  obtain rfl := Option.some.inj hm
  exact ⟨member, hkind⟩

theorem issueStep_of_nextTransition
    (h : nextTransition .issue (closed.toNat + 16 * locked.toNat) action actor n = some m) :
    ∃ closed' locked', IssueStep closed locked m.kind closed' locked' := by
  obtain ⟨member, hkind⟩ := nextTransition_eq_some h
  rw [foldSum_issue] at hkind
  generalize m.kind = kind at hkind
  cases action <;> cases closed <;> cases locked <;> cases member <;>
    simp [moveKind] at hkind <;> subst hkind <;> exact ⟨_, _, by constructor⟩

theorem patchStep_of_nextTransition
    (h : nextTransition .patch (phase.code + 16 * locked.toNat) action actor n = some m) :
    ∃ phase' locked', PatchStep phase locked m.kind phase' locked' := by
  obtain ⟨member, hkind⟩ := nextTransition_eq_some h
  rw [foldSum_patch] at hkind
  generalize m.kind = kind at hkind
  cases action <;> cases phase <;> cases locked <;> cases member <;>
    simp [moveKind, PatchPhase.code] at hkind <;> subst hkind <;> exact ⟨_, _, by constructor⟩

/-! ### One target's transitions -/

/-- How many of the transitions have the kind `k`. -/
def kindCount (transitions : List Transition) (k : ℕ) : ℕ :=
  transitions.countP fun t => t.kind == k

@[simp]
theorem stateSum_concat (ts : List Transition) (t : Transition) :
    stateSum (ts ++ [t]) = stateSum ts + (deltaOf t.kind).getD 0 := by
  rw [stateSum, List.filterMap_append, List.sum_append, stateSum]
  cases h : deltaOf t.kind <;> simp [h]

@[simp]
theorem kindCount_concat (ts : List Transition) (t : Transition) (k : ℕ) :
    kindCount (ts ++ [t]) k = kindCount ts k + if t.kind = k then 1 else 0 := by
  simp [kindCount, List.countP_singleton]

/-- What an issue's transitions satisfy, with the bits of its state. -/
structure IssueInv (ts : List Transition) (closed locked : Bool) : Prop where
  sum : stateSum ts = closed.toNat + 16 * locked.toNat
  closes : kindCount ts issueClose = kindCount ts issueReopen + closed.toNat
  locks : kindCount ts issueLock = kindCount ts issueUnlock + locked.toNat

/-- What a patch's transitions satisfy, with its phase and lock. -/
structure PatchInv (ts : List Transition) (phase : PatchPhase) (locked : Bool) : Prop where
  sum : stateSum ts = phase.code + 16 * locked.toNat
  closes : kindCount ts prClose =
    kindCount ts prReopen + if phase = .closed then 1 else 0
  draftCloses : kindCount ts prDraftClose =
    kindCount ts prDraftReopen + if phase = .closedDraft then 1 else 0
  merges : kindCount ts prMerge = if phase = .merged then 1 else 0
  drafts : kindCount ts prDraft =
    kindCount ts prReady + if phase = .draft ∨ phase = .closedDraft then 1 else 0
  locks : kindCount ts prLock = kindCount ts prUnlock + locked.toNat

theorem IssueInv.statusOfCode_eq (hi : IssueInv ts closed locked) :
    statusOfCode (stateSum ts) = ⟨!closed, false, false, locked⟩ := by
  rw [hi.sum, statusOfCode, foldSum_issue]
  cases closed <;> rfl

/-- The state read off a patch's sum. -/
theorem PatchInv.statusOfCode_eq (hi : PatchInv ts phase locked) :
    statusOfCode (stateSum ts) = ⟨phase = .ready ∨ phase = .draft, phase = .merged,
      phase = .draft ∨ phase = .closedDraft, locked⟩ := by
  rw [hi.sum, statusOfCode, foldSum_patch]
  cases phase <;> rfl

theorem IssueInv.nil : IssueInv [] false false := ⟨rfl, rfl, rfl⟩

theorem PatchInv.nil : PatchInv [] .ready false := ⟨rfl, rfl, rfl, rfl, rfl, rfl⟩

variable {locked' : Bool} {t : Transition} {kind : ℕ}

theorem IssueInv.concat {closed' : Bool} (hi : IssueInv ts closed locked) (hk : t.kind = kind)
    (hs : IssueStep closed locked kind closed' locked') : IssueInv (ts ++ [t]) closed' locked' := by
  constructor
  · rw [stateSum_concat, hi.sum, hk]
    cases hs <;> simp [deltaOf, lockDelta, add_comm]
  · rw [kindCount_concat, kindCount_concat, hi.closes, hk]
    cases hs <;> simp
  · rw [kindCount_concat, kindCount_concat, hi.locks, hk]
    cases hs <;> simp

theorem PatchInv.concat {phase' : PatchPhase} (hi : PatchInv ts phase locked)
    (hk : t.kind = kind) (hs : PatchStep phase locked kind phase' locked') : PatchInv (ts ++ [t]) phase' locked' := by
  constructor
  · rw [stateSum_concat, hi.sum, hk]
    cases hs <;> simp [deltaOf, lockDelta, PatchPhase.code] <;> omega
  · rw [kindCount_concat, kindCount_concat, hi.closes, hk]
    cases hs <;> simp
  · rw [kindCount_concat, kindCount_concat, hi.draftCloses, hk]
    cases hs <;> simp
  · rw [kindCount_concat, hi.merges, hk]
    cases hs <;> simp
  · rw [kindCount_concat, kindCount_concat, hi.drafts, hk]
    cases hs <;> simp
  · rw [kindCount_concat, kindCount_concat, hi.locks, hk]
    cases hs <;> simp

end DashForge
