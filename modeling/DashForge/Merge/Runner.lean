import DashForge.Data.Stage
import Mathlib.Data.List.Basic
import Mathlib.Order.Basic

/-!
# The steps of a browser merge

A merge in the browser as a chain of steps that a retry resumes (`lib/merge/runner.ts`). A step's write may fail
before or after it took effect; one that is repeated under its intent takes effect once. An attempt is what its
operations come to, and the chain is what took effect.
-/

namespace DashForge.Runner

inductive MergeStepId where
  | fetch
  | merge
  | pack
  | upload
  | manifest
  | index
  | ref
  | event
  | bypass
deriving DecidableEq, Repr

/-- The steps in the order they are made. -/
def mergeStepIds : List MergeStepId := [.fetch, .merge, .pack, .upload, .manifest, .index, .ref, .event, .bypass]

def MergeStepId.rank (step : MergeStepId) : ℕ := mergeStepIds.idxOf step

/-- The steps a merge shows: the bypass record only when it bypasses the branch rules. -/
def mergeSteps (bypassing : Bool) : List MergeStepId :=
  if bypassing then mergeStepIds else mergeStepIds.filter fun s => s ≠ .bypass

/-! ### Runs -/

/-- What a merge is asked to do, as far as a run is built for it. -/
structure MergeInput where
  baseTip : String
  headOid : String
  squash : Option String
  noFastForward : Bool
  message : Option String
  rebase : Bool
deriving DecidableEq

/-- What a run was built for. -/
structure RunKey where
  baseTip : String
  headOid : String
  squash : Option String
  noFastForward : Bool
  message : Option String
  rebase : Bool
deriving DecidableEq

/-- A merge that was built: its new tip, with the pack of what it adds. -/
structure Built where
  newTip : String
  pack : List UInt8
  packHash : String
  objectCount : ℕ
deriving DecidableEq

inductive MergeResult where
  | built (b : Built)
  | conflict (reason : Option String) (paths : List String)
  | malformed (reason : String)
  | tooLarge (reason : String)
  | upToDate
  | unrelated
deriving DecidableEq

structure StoredPack where
  platform : Bool
  chunkCount : ℕ
  uris : List String
deriving DecidableEq

/-- What has been done so far. -/
structure MergeRun extends RunKey where
  baseRef : Option String := none
  done : List MergeStepId := []
  result : Option Built := none
  stored : Option StoredPack := none
  manifestId : Option String := none
  refDocumentId : Option String := none
  eventId : Option String := none
  bypassEventId : Option String := none

/-- What a run for an input is built for. -/
def runKey (input : MergeInput) : RunKey where
  baseTip := input.baseTip
  headOid := input.headOid
  squash := input.squash
  noFastForward := input.noFastForward && input.squash.isNone
  message := if input.squash.isNone then input.message else none
  rebase := input.rebase && input.squash.isNone

def newRun (input : MergeInput) (baseRef : Option String) : MergeRun := { toRunKey := runKey input, baseRef }

def runMatches (run : MergeRun) (input : MergeInput) : Bool := run.toRunKey = runKey input

/-- What the runner works with. -/
structure Deps where
  isPublic : Bool
  baseRefName : String
  input : MergeInput
  /-- What is wrong with the base's name, its tip or the head. -/
  refProblem : Option String
  canUpload : Bool
  canPublish : Bool
  bypassing : Bool

/-- A merge that cannot go on. -/
inductive Stop where
  | notPublic
  | changed
  | badRef (problem : String)
  | notBuilt (result : MergeResult)
  | unfetchable (missing : List String)
  | diverged (heads : List String)
  | moved (tip : String)
  | retargeted (base : String)
deriving DecidableEq

/-- Why an attempt ended: it cannot go on, or a step failed. -/
inductive Halt where
  | stopped (why : Stop)
  | stepError (step : MergeStepId) (reason : String)
deriving DecidableEq

/-! ### The chain -/

/-- The base branch and what writes took effect. -/
structure Chain where
  /-- The live heads of the base branch. -/
  heads : List String
  /-- The base the pull request names. -/
  base : String
  /-- The steps whose writes took effect, the first one first. -/
  effects : List MergeStepId := []
  /-- The live heads at each ref update that took effect. -/
  movedFrom : List (List String) := []

/-- A write takes effect, once. -/
def Chain.write (c : Chain) (step : MergeStepId) : Chain :=
  if step ∈ c.effects then c else { c with effects := c.effects ++ [step] }

/-- The base branch moves, once. -/
def Chain.move (c : Chain) (newTip : String) : Chain :=
  if .ref ∈ c.effects then c
  else { c with heads := [newTip], effects := c.effects ++ [.ref], movedFrom := c.movedFrom ++ [c.heads] }

/-- What a write comes to: it took effect with an answer, or failed before or after it did. -/
inductive Outcome (α : Type) where
  | done (a : α)
  | failed (applied : Bool) (reason : String)

def Outcome.applied {α : Type} : Outcome α → Bool
  | done _ => true
  | failed applied _ => applied

inductive Phase where
  | analyse
  | merge
  | pack

/-- What the operations of one attempt come to, those it gets to. -/
structure Attempt where
  /-- The phases the worker reports before it ends. -/
  phases : List Phase
  merge : Except String MergeResult
  verifyPack : Except String (List String)
  /-- What a read of the base branch or of the pull request fails with. -/
  uploadHeads : Option String
  refBase : Option String
  refHeads : Option String
  eventBase : Option String
  upload : Outcome StoredPack
  manifest : Outcome String
  index : Outcome Unit
  ref : Outcome String
  event : Outcome String
  bypass : Outcome String

structure State where
  chain : Chain
  run : MergeRun

namespace State

variable (s : State)

def mark (step : MergeStepId) (patch : MergeRun → MergeRun) : State :=
  { s with run := { patch s.run with done := s.run.done ++ [step] } }

/-- Mark a step that is not marked. -/
def markNew (step : MergeStepId) : State := if step ∈ s.run.done then s else s.mark step id

end State

/-! ### Stages -/

section Stages

variable (d : Deps) (a : Attempt)

/-- The attempt is for this run, and for a merge that may be tried. -/
def checkStage : Stage State Halt := fun s =>
  if !d.isPublic then (s, some (.stopped .notPublic))
  else if (s.run.baseRef.any fun base => base ≠ d.baseRefName) || !runMatches s.run d.input then
    (s, some (.stopped .changed))
  else
    match d.refProblem with
    | some problem => (s, some (.stopped (.badRef problem)))
    | none => (s, none)

/-- A report of the worker marks the steps before it. -/
def reportPhase (s : State) : Phase → State
  | .analyse => s
  | .merge => s.markNew .fetch
  | .pack => (s.markNew .fetch).markNew .merge

/-- The step that a failure of the worker is reported against. -/
def failedPhase (phases : List Phase) : MergeStepId :=
  phases.foldl (fun step p => match p with | .analyse => step | .merge => .merge | .pack => .pack) .fetch

/-- The merge and its pack, built and verified. -/
def mergeStage : Stage State Halt := fun s =>
  if s.run.result.isSome then (s, none)
  else
    let s := a.phases.foldl reportPhase s
    match a.merge with
    | .error reason => (s, some (.stepError (failedPhase a.phases) reason))
    | .ok (.built b) =>
      let s := (s.markNew .fetch).markNew .merge
      match a.verifyPack with
      | .error reason => (s, some (.stepError .pack reason))
      | .ok (o :: missing) => (s, some (.stopped (.unfetchable (o :: missing))))
      | .ok [] => (s.mark .pack fun run => { run with result := some b }, none)
    | .ok result => (s, some (.stopped (.notBuilt result)))

/-- The base branch has one head, the tip the run merged into. -/
def checkHeads (step : MergeStepId) (fails : Option String) : Stage State Halt := fun s =>
  match fails with
  | some reason => (s, some (.stepError step reason))
  | none =>
    if 1 < s.chain.heads.length then (s, some (.stopped (.diverged s.chain.heads)))
    else if s.chain.heads.head?.getD "" ≠ s.run.baseTip then
      (s, some (.stopped (.moved (s.chain.heads.head?.getD ""))))
    else (s, none)

/-- Nothing new has to be stored. -/
def State.empty (s : State) : Bool := s.run.result.all fun b => b.objectCount = 0

/-- Before anything is paid for: the base is as it was merged into. -/
def headsStage : Stage State Halt := fun s =>
  if .upload ∉ s.run.done ∧ !s.empty ∧ d.canUpload then checkHeads .upload a.uploadHeads s else (s, none)

/-- A write and what the run keeps of its answer. -/
def writeStage {α : Type} (step : MergeStepId) (outcome : Outcome α) (patch : α → MergeRun → MergeRun) :
    Stage State Halt := fun s =>
  match outcome with
  | .done answer => ({ s with chain := s.chain.write step }.mark step (patch answer), none)
  | .failed applied reason =>
    (if applied then { s with chain := s.chain.write step } else s, some (.stepError step reason))

def uploadStage : Stage State Halt := fun s =>
  if .upload ∈ s.run.done then (s, none)
  else if s.empty then (s.mark .upload id, none)
  else if !d.canUpload then
    (s, some (.stepError .upload "this build cannot upload packs from the browser yet; merge with \x60dg pr merge\x60"))
  else writeStage .upload a.upload (fun stored run => { run with stored := some stored }) s

def manifestStage : Stage State Halt := fun s =>
  if .manifest ∈ s.run.done then (s, none)
  else if s.empty then (s.mark .manifest id, none)
  else writeStage .manifest a.manifest (fun id run => { run with manifestId := some id }) s

/-- The browse index is best effort: a failure is skipped. -/
def indexStage : Stage State Halt := fun s =>
  if .index ∈ s.run.done then (s, none)
  else if s.empty || !d.canPublish then (s.mark .index id, none)
  else ((if a.index.applied then { s with chain := s.chain.write .index } else s).mark .index id, none)

/-- The pull request still has the base that is moved. -/
def checkBase (step : MergeStepId) (fails : Option String) : Stage State Halt := fun s =>
  match fails with
  | some reason => (s, some (.stepError step reason))
  | none => if s.chain.base = d.baseRefName then (s, none) else (s, some (.stopped (.retargeted s.chain.base)))

/-- The ref update. -/
def moveStage : Stage State Halt := fun s =>
  let newTip := (s.run.result.map Built.newTip).getD ""
  match a.ref with
  | .done id =>
    ({ s with chain := s.chain.move newTip }.mark .ref fun run => { run with refDocumentId := some id }, none)
  | .failed applied reason =>
    (if applied then { s with chain := s.chain.move newTip } else s, some (.stepError .ref reason))

def refStage : Stage State Halt := fun s =>
  if .ref ∈ s.run.done then (s, none)
  else ((checkBase d .ref a.refBase).andThen ((checkHeads .ref a.refHeads).andThen (moveStage a))) s

def eventStage : Stage State Halt := fun s =>
  if .event ∈ s.run.done then (s, none)
  else
    ((checkBase d .event a.eventBase).andThen
      (writeStage .event a.event fun id run => { run with eventId := some id })) s

def bypassStage : Stage State Halt := fun s =>
  if d.bypassing ∧ .bypass ∉ s.run.done then
    writeStage .bypass a.bypass (fun id run => { run with bypassEventId := some id }) s
  else (s, none)

/-- Run the merge chain, or resume it. -/
def runMergeSteps : Stage State Halt :=
  (checkStage d).andThen <| (mergeStage a).andThen <| (headsStage d a).andThen <| (uploadStage d a).andThen <|
    (manifestStage a).andThen <| (indexStage d a).andThen <| (refStage d a).andThen <| (eventStage d a).andThen <|
      bypassStage d a

end Stages

end DashForge.Runner
