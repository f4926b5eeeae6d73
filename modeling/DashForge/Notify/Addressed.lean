import DashForge.Data.SortBy
import Mathlib.Data.Finset.Insert

/-!
# Addressed notices

How the notification service reads the assignments and review requests of a subscriber
(`services/forge-notify`): the two queries past one cursor and their merge (`chain.rs`), the loop of
`poll_addressed_one` over what they return (`index.rs`), and the delivery of a notice (`dispatch.rs`). A poll
is a state machine whose steps interleave with the documents that land. What a call of the store, the chain or
a sink returns is an argument of the step that makes it, with `none` or `false` for an error. Times are below
2 ^ 63, as the database keeps them.
-/

namespace DashForge.Notify

/-! ### Reading -/

/-- A document of the type `event` or `authorEvent` addressed to the subscriber. -/
structure Row where
  id : String
  ownerId : String
  createdAt : ℕ
  kind : Option ℕ
  repoId : Option String
  targetId : Option String
deriving DecidableEq

/-- A row with its fields. -/
structure Addressed where
  docId : String
  kind : ℕ
  repoId : String
  targetId : String
  author : String
  createdAt : ℕ
  /-- An `authorEvent`. -/
  viaAuthor : Bool
deriving DecidableEq

/-- The most documents a query returns. -/
def addressedPage : ℕ := 50

/-- The row of a document, where it has its fields. -/
def addressed? (viaAuthor : Bool) (d : Row) : Option Addressed := do
  let kind ← d.kind
  let repoId ← d.repoId
  let targetId ← d.targetId
  return { docId := d.id, kind, repoId, targetId, author := d.ownerId, createdAt := d.createdAt, viaAuthor }

/-- The rows of a page that have their fields. -/
def addressedOf (viaAuthor : Bool) (page : List Row) : List Addressed := page.filterMap (addressed? viaAuthor)

def full (page : List Addressed) : Bool := addressedPage ≤ page.length

/-- Where the first full page ends. -/
def horizon (a b : List Addressed) : Option ℕ :=
  (([a, b].filter full).filterMap fun page => (page.map Addressed.createdAt).max?).min?

/-- Merge two pages read past one cursor, oldest first, up to the end of the first full one. -/
def mergePages (a b : List Addressed) : List Addressed :=
  sortByKey Addressed.createdAt ((a ++ b).filter fun x => (horizon a b).all fun h => x.createdAt ≤ h)

/-- What a query past `since` returns, and what it leaves out: the documents in order, cut off at a page.
Documents of one time come in any order. -/
structure IsPage (docs : List Row) (since : ℕ) (page rest : List Row) : Prop where
  perm : (page ++ rest).Perm (docs.filter fun d => since < d.createdAt)
  sorted : (page ++ rest).Pairwise fun d d' => d.createdAt ≤ d'.createdAt
  length_le : page.length ≤ addressedPage
  full : rest ≠ [] → page.length = addressedPage

instance (docs : List Row) (since : ℕ) (page rest : List Row) : Decidable (IsPage docs since page rest) :=
  decidable_of_iff ((page ++ rest).Perm (docs.filter fun d => since < d.createdAt) ∧
      (page ++ rest).Pairwise (fun d d' => d.createdAt ≤ d'.createdAt) ∧ page.length ≤ addressedPage ∧
      (rest ≠ [] → page.length = addressedPage))
    ⟨fun ⟨h₁, h₂, h₃, h₄⟩ => ⟨h₁, h₂, h₃, h₄⟩, fun ⟨h₁, h₂, h₃, h₄⟩ => ⟨h₁, h₂, h₃, h₄⟩⟩

/-! ### Notices -/

def kindAssign : ℕ := 6

def kindReviewRequest : ℕ := 13

inductive Reason where
  | assigned
  | reviewRequested
deriving DecidableEq, Repr

/-- The kinds of notice a subscriber wants. -/
structure Wanted where
  assigned : Bool
  reviewRequested : Bool
deriving DecidableEq

def Wanted.wants (w : Wanted) : Reason → Bool
  | .assigned => w.assigned
  | .reviewRequested => w.reviewRequested

structure TargetInfo where
  isPr : Bool
  repoId : String
  number : ℕ
deriving DecidableEq

/-- What the chain says of a row's thread and repository. -/
structure Reads where
  target : Option (Option TargetInfo)
  /-- The repository's id. -/
  repo : Option (Option String)
deriving DecidableEq

structure OutNotice where
  id : String
  repoId : String
  /-- Groups the notices of one thread. -/
  tag : String
  reason : Reason
deriving DecidableEq

/-- What a row asks of the subscriber. -/
def reasonOf (a : Addressed) : Option Reason :=
  if a.kind = kindAssign ∧ ¬a.viaAuthor then some .assigned
  else if a.kind = kindReviewRequest then some .reviewRequested
  else none

/-- The notice of a row, where the inbox rules give one and it is wanted; an error where a read fails. -/
def noticeOf (identity : String) (wanted : Wanted) (a : Addressed) (reads : Reads) : Option (Option OutNotice) :=
  match reasonOf a with
  | none => some none
  | some reason =>
    if a.author = identity then some none
    else do
      let some target ← reads.target | return none
      if target.repoId ≠ a.repoId ∨ (reason = .reviewRequested ∧ ¬target.isPr) then return none
      let some repoId ← reads.repo | return none
      let kind := if target.isPr then "pr" else "issue"
      let n : OutNotice :=
        { id := "addressed:" ++ a.docId, repoId, tag := repoId ++ ":" ++ kind ++ ":" ++ toString target.number, reason }
      return if wanted.wants reason then some n else none

/-! ### Delivery -/

/-- The sinks that are configured. -/
structure Dispatcher where
  mailer : Bool
  pusher : Bool
deriving DecidableEq

/-- The subscriber as the dispatcher reads it. -/
structure Recipient where
  mutedRepos : List String
  mailOk : Bool
  daily : Bool
  push : Bool
deriving DecidableEq

/-- What the calls of a delivery return. -/
structure Calls where
  subscriber : Option (Option Recipient)
  /-- The insert that marks the notice sent goes through. -/
  markSent : Bool
  userQuota : Option Bool
  pushDigest : Bool
  /-- A mail went out, and the mailing returned without an error. -/
  mail : Bool × Bool
  /-- The subscriptions pushed to, and whether that returned without an error. -/
  push : List ℕ × Bool
deriving DecidableEq

inductive Action where
  | mail
  | push (rows : List ℕ)
  | digest
deriving DecidableEq

/-- The marks after a delivery, what it sent or queued, and whether it returned without an error. -/
structure Delivery where
  marks : Finset String
  actions : List Action
  ok : Bool
deriving DecidableEq

/-- The sends of a notice that is neither held back nor queued. -/
def sendNow (disp : Dispatcher) (calls : Calls) (s : Recipient) : List Action × Bool :=
  let (mailed, ok) := if s.mailOk && disp.mailer then (if calls.mail.1 then [Action.mail] else [],
    calls.mail.2) else ([], true)
  if !ok then (mailed, false)
  else if s.push && disp.pusher then
    (mailed ++ if calls.push.1 = [] then [] else [.push calls.push.1], calls.push.2)
  else (mailed, true)

/-- Deliver a notice now, or queue it for the digest; once for each notice. -/
def deliver (disp : Dispatcher) (calls : Calls) (marks : Finset String) (n : OutNotice) : Delivery :=
  match calls.subscriber with
  | none => ⟨marks, [], false⟩
  | some none => ⟨marks, [], true⟩
  | some (some s) =>
    if n.repoId ∈ s.mutedRepos then ⟨marks, [], true⟩
    else if !calls.markSent then ⟨marks, [], false⟩
    else if n.id ∈ marks then ⟨marks, [], true⟩
    else
      let marks := insert n.id marks
      let canDigest := s.mailOk && disp.mailer
      let daily := canDigest && s.daily
      match if daily then some false else calls.userQuota.map not with
      | none => ⟨marks, [], false⟩
      | some overCap =>
        if daily || (overCap && canDigest) then ⟨marks, if calls.pushDigest then [.digest] else [], calls.pushDigest⟩
        else if overCap then ⟨marks, [], true⟩
        else ⟨marks, (sendNow disp calls s).1, (sendNow disp calls s).2⟩

/-! ### Polls -/

/-- How far a poll has got. -/
inductive Phase where
  | idle
  /-- The cursor is read. -/
  | reading (wanted : Wanted) (since : ℕ)
  /-- The first query has returned; when it did, `landed` events had landed, and it left out `cut`. -/
  | readEvents (wanted : Wanted) (since : ℕ) (events : List Addressed) (landed : ℕ) (cut : List Row)
  /-- The loop has the rows `found` before it. -/
  | handling (wanted : Wanted) (cursor : ℕ) (found : List Addressed)
deriving DecidableEq

/-- What came of a row. -/
inductive Outcome where
  /-- It gives no notice the subscriber wants. -/
  | refused
  | delivered
  /-- A read or the delivery returned an error. -/
  | failed
deriving DecidableEq, Repr

/-- Platform's documents, the stored cursor and marks, and the poll. -/
structure State where
  events : List Row
  authorEvents : List Row
  cursor : ℕ
  marks : Finset String
  /-- The deliveries that sent or queued something, the last first. -/
  log : List (String × List Action) := []
  /-- The rows the loops came to, the last first. -/
  history : List (Addressed × Outcome) := []
  phase : Phase := .idle
deriving DecidableEq

/-- A step: of Platform (`land`) or of the poll. -/
inductive Act where
  | land (viaAuthor : Bool) (d : Row)
  | start (wanted : Wanted)
  | queryEvents (page rest : List Row)
  | queryAuthorEvents (page rest : List Row)
  | handle (reads : Reads) (calls : Calls)
  /-- The cursor is stored, or that fails. -/
  | store (ok : Bool)

structure Service where
  identity : String
  dispatcher : Dispatcher

/-- The loop's body for a row. -/
def Service.handle (w : Service) (st : State) (wanted : Wanted) (cursor : ℕ) (a : Addressed) (found : List Addressed)
    (reads : Reads) (calls : Calls) : State :=
  let next : Phase := .handling wanted (max cursor a.createdAt) found
  match noticeOf w.identity wanted a reads with
  | none => { st with history := (a, .failed) :: st.history, phase := .idle }
  | some none => { st with history := (a, .refused) :: st.history, phase := next }
  | some (some n) =>
    let d := deliver w.dispatcher calls st.marks n
    { st with
      marks := d.marks
      log := if d.actions = [] then st.log else (n.id, d.actions) :: st.log
      history := (a, if d.ok then .delivered else .failed) :: st.history
      phase := if d.ok then next else .idle }

def Service.step (w : Service) (st : State) : Act → Option State
  | .land viaAuthor d =>
    if ∀ d' ∈ st.events ++ st.authorEvents, d'.createdAt ≤ d.createdAt then
      some (if viaAuthor then { st with authorEvents := st.authorEvents ++ [d] }
        else { st with events := st.events ++ [d] })
    else none
  | .start wanted =>
    match st.phase with
    | .idle => some { st with phase := .reading wanted st.cursor }
    | _ => none
  | .queryEvents page rest =>
    match st.phase with
    | .reading wanted since =>
      if IsPage st.events since page rest then
        some { st with phase := .readEvents wanted since (addressedOf false page) st.events.length rest }
      else none
    | _ => none
  | .queryAuthorEvents page rest =>
    match st.phase with
    | .readEvents wanted since events _ _ =>
      if IsPage st.authorEvents since page rest then
        some { st with phase := .handling wanted since (mergePages events (addressedOf true page)) }
      else none
    | _ => none
  | .handle reads calls =>
    match st.phase with
    | .handling wanted cursor (a :: found) => some (w.handle st wanted cursor a found reads calls)
    | _ => none
  | .store ok =>
    match st.phase with
    | .handling _ cursor [] => some { st with cursor := if ok then cursor else st.cursor, phase := .idle }
    | _ => none

end DashForge.Notify
