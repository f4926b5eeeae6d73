import DashForge.Data.Linearizable
import DashForge.Data.SortedMap
import Mathlib.Data.String.Basic

/-!
# The addresses of the notification service

The subscriber and pending rows of the store and the calls that change them (`services/forge-notify`,
`store.rs`). Every acquisition of the database lock is one atomic step: `confirmPending` reads the pending
row in one and confirms it in another, and `unsubscribe` compares the epoch in one and removes the address in
another. What a call reads of the clock, and the random epoch a row starts with, are its arguments.
-/

namespace DashForge.Notify

/-- A pending address change, waiting for its confirmation. -/
structure Pending where
  identity : String
  emailSealed : List UInt8
  emailIdx : String
  expiresAt : ℕ
deriving DecidableEq

/-- A row of the subscriber table. -/
structure Subscriber where
  emailSealed : Option (List UInt8) := none
  emailIdx : Option String := none
  emailVerified : Bool := false
  emailPaused : Bool := false
  emailFailures : ℕ := 0
  prefs : String
  unsubEpoch : ℕ := 0
  name : Option String := none
  createdAt : ℕ
  updatedAt : ℕ
deriving DecidableEq

/-- The two tables, by identity and by token hash. -/
structure Store where
  subscriber : SortedMap String Subscriber := .empty
  pendingEmail : SortedMap String Pending := .empty
deriving DecidableEq

def toI64 (v : ℕ) : ℕ := min v (2 ^ 63 - 1)

/-- The default preferences as JSON. -/
def defaultPrefs : String :=
  "\x7b\"participating\":true,\"reviewRequested\":true,\"assigned\":true,\"mentioned\":true,\"watching\":true," ++
  "\"ownRepos\":true,\"releases\":true,\"privateActivity\":false,\"delivery\":\"instant\",\"email\":true," ++
  "\"push\":true,\"mutedRepos\":[]\x7d"

namespace Store

variable (s : Store)

/-- `DELETE FROM pending_email WHERE identity = ?`. -/
def deletePending (identity : String) : Store :=
  { s with pendingEmail := s.pendingEmail.filter fun _ p => p.identity ≠ identity }

/-- `UPDATE subscriber SET … WHERE identity = ?`, with the number of rows. -/
def updateSubscriber (identity : String) (f : Subscriber → Subscriber) : Store × ℕ :=
  match s.subscriber.lookup identity with
  | some row => ({ s with subscriber := s.subscriber.insert identity (f row) }, 1)
  | none => (s, 0)

/-- Create the row of a subscriber who has none. -/
def ensureSubscriber (identity : String) (now : ℕ) (random : UInt32) : Store × Bool :=
  match s.subscriber.lookup identity with
  | some _ => (s, false)
  | none =>
    let row : Subscriber :=
      { prefs := defaultPrefs, createdAt := toI64 now, updatedAt := toI64 now, unsubEpoch := (random >>> 1).toNat }
    ({ s with subscriber := s.subscriber.insert identity row }, true)

/-- Record a pending address in place of the identity's earlier ones; `false` when the insert fails, which
leaves those deleted. -/
def addPending (tokenHash : String) (p : Pending) : Store × Bool :=
  let s := s.deletePending p.identity
  match s.pendingEmail.lookup tokenHash with
  | some _ => (s, false)
  | none => ({ s with pendingEmail := s.pendingEmail.insert tokenHash { p with expiresAt := toI64 p.expiresAt } }, true)

/-- A pending address that has not expired. -/
def pending (tokenHash : String) (now : ℕ) : Option Pending :=
  (s.pendingEmail.lookup tokenHash).filter fun p => toI64 now < p.expiresAt

/-- The transaction of `confirm_pending`: the address becomes the identity's verified one. -/
def confirm (p : Pending) (now : ℕ) : Store × Option String :=
  let (s, n) := (s.deletePending p.identity).updateSubscriber p.identity fun row => { row with
    emailSealed := some p.emailSealed
    emailIdx := some p.emailIdx
    emailVerified := true
    emailPaused := false
    emailFailures := 0
    unsubEpoch := row.unsubEpoch + 1
    updatedAt := toI64 now }
  (s, if n = 1 then some p.identity else none)

/-- Forget an identity's address and pending ones, and void its unsubscribe links. -/
def removeEmail (identity : String) (now : ℕ) : Store :=
  ((s.deletePending identity).updateSubscriber identity fun row => { row with
    emailSealed := none
    emailIdx := none
    emailVerified := false
    emailPaused := false
    emailFailures := 0
    unsubEpoch := row.unsubEpoch + 1
    updatedAt := toI64 now }).1

def unsubEpoch (identity : String) : Option ℕ := (s.subscriber.lookup identity).map Subscriber.unsubEpoch

/-- Delete both tables' rows of an identity. -/
def deleteIdentity (identity : String) : Store :=
  { s.deletePending identity with subscriber := s.subscriber.erase identity }

end Store

/-! ### Calls -/

/-- A call with what it reads of the clock and of the random source. -/
inductive Op where
  | addPending (tokenHash : String) (p : Pending)
  | confirmPending (tokenHash : String) (readAt writtenAt : ℕ)
  | removeEmail (identity : String) (now : ℕ)
  | unsubscribe (identity : String) (epoch : UInt32) (now : ℕ)
  | deleteIdentity (identity : String)
  | ensureSubscriber (identity : String) (now : ℕ) (random : UInt32)
deriving DecidableEq

/-- The next step of a call. -/
inductive Next where
  | enter (op : Op)
  /-- The transaction that confirms the row read for a token. -/
  | confirm (tokenHash : String) (p : Pending) (writtenAt : ℕ)
  /-- The removal by a link whose epoch was current. -/
  | remove (identity : String) (epoch : UInt32) (now : ℕ)
deriving DecidableEq

inductive Result where
  | done
  | failed
  | confirmed (identity : Option String)
  | removed (done : Bool)
  | created (new : Bool)
deriving DecidableEq, Repr

/-- One acquisition of the lock. -/
def Next.run : Next → Store → Store × (Next ⊕ Result)
  | .enter (.addPending tokenHash p), s =>
    let (s, inserted) := s.addPending tokenHash p
    (s, .inr (if inserted then .done else .failed))
  | .enter (.confirmPending tokenHash readAt writtenAt), s =>
    match s.pending tokenHash readAt with
    | some p => (s, .inl (.confirm tokenHash p writtenAt))
    | none => (s, .inr (.confirmed none))
  | .enter (.removeEmail identity now), s => (s.removeEmail identity now, .inr .done)
  | .enter (.unsubscribe identity epoch now), s =>
    if s.unsubEpoch identity = some epoch.toNat then (s, .inl (.remove identity epoch now))
    else (s, .inr (.removed false))
  | .enter (.deleteIdentity identity), s => (s.deleteIdentity identity, .inr .done)
  | .enter (.ensureSubscriber identity now random), s =>
    let (s, new) := s.ensureSubscriber identity now random
    (s, .inr (.created new))
  | .confirm _ p writtenAt, s =>
    let (s, identity) := s.confirm p writtenAt
    (s, .inr (.confirmed identity))
  | .remove identity _ now, s => (s.removeEmail identity now, .inr (.removed true))

/-- The store as an object whose calls take steps. -/
def storeObject : CallObject Store Op Next Result := ⟨.enter, Next.run⟩

end DashForge.Notify
