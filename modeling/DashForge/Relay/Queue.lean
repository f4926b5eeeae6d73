import DashForge.Data.Loop
import DashForge.Data.Saturating
import DashForge.Data.SortBy
import DashForge.Data.SortedMap
import Mathlib.Data.Finset.Sort

/-!
# The delivery retry queue

The queue of failed webhook deliveries (`crates/forge-relay`, `queue.rs`): the entries, the indexes its bounds
use, and the calls that change them, each under one lock. Times are milliseconds.

The order a hash map is iterated in is an argument of a call (`HashOrder`). A loop that drops entries counts
its rounds and is `none` when they run out (`loop`). Two things are recorded that the source does not keep:
`Index.drift` counts the saturating subtractions that saturate and the runs of `purge_pending_keys`, and
`State.evicted` the evictions past a global bound.
-/

namespace DashForge.Relay

inductive Status where
  | pending
  | dropped
deriving DecidableEq, Repr

/-- `(ms, id)`, in age order. -/
abbrev Key := ℕ ×ₗ String

/-- `(repo id, hook id)`. -/
abbrev Hook := String ×ₗ String

abbrev Aged := Finset Key

/-- The oldest. -/
def first (aged : Aged) : Option Key := if h : aged.Nonempty then some (aged.min' h) else none

/-- One queued delivery. -/
structure Entry where
  id : String
  repoId : String
  hookId : String
  event : String
  sourceDocId : String
  createdMs : ℕ
  tries : ℕ
  nextMs : ℕ
  lastError : String
  status : Status
  dropReason : Option String := none
  droppedMs : Option ℕ := none
  /-- The body as its serialized text. -/
  payload : Option String
  bytes : ℕ
deriving DecidableEq

namespace Entry

variable (e : Entry)

/-- A copy without the body. -/
def head : Entry := { e with payload := none }

def key : Key := toLex (e.createdMs, e.id)

def droppedKey : Key := toLex (e.droppedMs.getD 0, e.id)

def hook : Hook := toLex (e.repoId, e.hookId)

end Entry

/-- One repo's pending entries. -/
structure Tally where
  aged : Aged := ∅
  bytes : ℕ := 0
deriving DecidableEq

/-- What the bounds are checked against. -/
@[ext]
structure Index where
  aged : Aged := ∅
  repos : SortedMap String Tally := .empty
  hooks : SortedMap Hook Aged := .empty
  bytes : ℕ := 0
  dropped : Aged := ∅
  /-- Saturated subtractions and purges. -/
  drift : ℕ := 0
deriving DecidableEq

namespace Index

variable (ix : Index)

def index (e : Entry) : Index :=
  match e.status with
  | .pending => { ix with
      aged := insert e.key ix.aged
      repos := ix.repos.alter e.repoId fun repo =>
        some { aged := insert e.key (repo.getD {}).aged, bytes := (repo.getD {}).bytes + e.bytes }
      hooks := ix.hooks.alter e.hook fun aged => some (insert e.key (aged.getD ∅))
      bytes := ix.bytes + e.bytes }
  | .dropped => { ix with dropped := insert e.droppedKey ix.dropped }

/-- The subtractions in `unindex` that saturate. -/
def saturations (e : Entry) : ℕ :=
  (((ix.repos.lookup e.repoId).toList.filter fun repo => repo.bytes < e.bytes).length) +
    if ix.bytes < e.bytes then 1 else 0

def unindex (e : Entry) : Index :=
  match e.status with
  | .pending => { ix with
      aged := ix.aged.erase e.key
      repos := ix.repos.alter e.repoId fun repo =>
        (repo.map fun t => { aged := t.aged.erase e.key, bytes := t.bytes - e.bytes }).filter (·.aged ≠ ∅)
      hooks := ix.hooks.alter e.hook fun aged => (aged.map (·.erase e.key)).filter (· ≠ ∅)
      bytes := ix.bytes - e.bytes
      drift := ix.drift + ix.saturations e }
  | .dropped => { ix with dropped := ix.dropped.erase e.droppedKey }

/-- Remove every pending key of an id. -/
def purgePendingKeys (id : String) : Index :=
  let hit (aged : Aged) : Aged := aged.filter fun k => (ofLex k).2 ≠ id
  { ix with
    aged := hit ix.aged
    repos := (ix.repos.mapVals fun _ t => { t with aged := hit t.aged }).filter fun _ t => t.aged ≠ ∅
    hooks := (ix.hooks.mapVals fun _ aged => hit aged).filter fun _ aged => aged ≠ ∅
    drift := ix.drift + 1 }

end Index

/-- The index of a map of entries, entry by entry. -/
def rebuild (entries : SortedMap String Entry) : Index := entries.values.foldl Index.index {}

/-- An eviction past a global bound: the entries it found and the id it took. -/
structure Eviction where
  entries : SortedMap String Entry
  id : String

structure State extends Index where
  entries : SortedMap String Entry := .empty
  /-- Retries handed to a worker and not finished yet. -/
  claimed : Finset String := ∅
  evicted : List Eviction := []

/-- What failed, for `fail`. -/
structure Failure where
  id : String
  repoId : String
  hookId : String
  event : String
  sourceDocId : String
  /-- The body serialized, where it can be. -/
  payload : Option String
  error : String
  /-- The caller holds this id's claim. -/
  claimed : Bool
deriving DecidableEq

/-- The bounds on pending entries and their bodies. -/
structure Limits where
  perHook : ℕ := 500
  perRepo : ℕ := 1000
  total : ℕ := 5000
  bytes : ℕ := 256 * 1024 * 1024
deriving DecidableEq

def hours (n : ℕ) : ℕ := n * 60 * 60 * 1000

def mins (n : ℕ) : ℕ := n * 60 * 1000

def defaultSchedule : List ℕ := [mins 1, mins 5, mins 30, hours 2, hours 12, hours 24]

/-- A pending delivery this old is dropped. -/
def expiry : ℕ := hours 48

/-- How long a dropped entry is kept. -/
def droppedRetention : ℕ := hours (7 * 24)

/-- Dropped entries kept. -/
def maxDropped : ℕ := 1000

def maxErrorLen : ℕ := 300

/-- The milliseconds of a duration, saturating. -/
def ms (d : ℕ) : ℕ := min d u64Max

/-- The size of a body. -/
def bodySize (payload : Option String) : ℕ := (payload.map String.utf8ByteSize).getD 0

/-- The orders the hash maps are iterated in during a call. -/
structure HashOrder where
  repos : ℕ → SortedMap String Tally → List (String × Tally)
  hooks : SortedMap Hook Aged → List (Hook × Aged)
  repos_perm : ∀ round m, (repos round m).Perm m.entries
  hooks_perm : ∀ m, (hooks m).Perm m.entries

instance : Inhabited HashOrder := ⟨fun _ m => m.entries, fun m => m.entries, fun _ _ => .refl _, fun _ => .refl _⟩

namespace State

variable (st : State)

/-- Index an entry and add it. -/
def add (e : Entry) : State :=
  { st with toIndex := st.toIndex.index e, entries := st.entries.insert e.id e }

def isPending (id : String) : Bool := (st.entries.lookup id).any fun e => e.status = .pending

/-- Forget the oldest dropped record. -/
def popDropped : State :=
  match first st.dropped with
  | some k => { st with dropped := st.dropped.erase k, entries := st.entries.erase (ofLex k).2 }
  | none => st

theorem card_dropped_popDropped {k : Key} (h : first st.dropped = some k) :
    st.popDropped.dropped.card < st.dropped.card := by
  rw [popDropped, h]
  refine Finset.card_erase_lt_of_mem ?_
  rw [first] at h
  split at h
  · next hne => exact Option.some.inj h ▸ Finset.min'_mem _ hne
  · cases h

theorem exists_first {aged : Aged} (h : aged.Nonempty) : ∃ k, first aged = some k :=
  ⟨aged.min' h, dif_pos h⟩

/-- Trim the dropped records to `maxDropped`. -/
def trimDropped (st : State) : State :=
  if maxDropped < st.dropped.card then trimDropped st.popDropped else st
termination_by st.dropped.card
decreasing_by
  obtain ⟨k, hk⟩ := exists_first (Finset.card_pos.mp (by omega : 0 < st.dropped.card))
  exact st.card_dropped_popDropped hk

/-- Forget the dropped records past `droppedRetention`. -/
def pruneDropped (st : State) (now : ℕ) : State :=
  match _h : first st.dropped with
  | some k => if now - (ofLex k).1 < droppedRetention then st else pruneDropped st.popDropped now
  | none => st
termination_by st.dropped.card
decreasing_by exact st.card_dropped_popDropped _h

/-- Drop a pending entry, keeping it as a record without its body. -/
def markDropped (id reason : String) (now : ℕ) : State :=
  match st.entries.lookup id with
  | none => { st with toIndex := st.toIndex.purgePendingKeys id }
  | some e =>
    let st := { st with entries := st.entries.erase id }
    match e.status with
    | .pending =>
      let st := { st with toIndex := st.toIndex.unindex e }
      (st.add { e with
        status := .dropped, dropReason := some reason, droppedMs := some now, payload := none, bytes := 0 }).trimDropped
    | .dropped =>
      trimDropped { st with toIndex := st.toIndex.purgePendingKeys id, entries := st.entries.insert e.id e }

end State

/-- The retry schedule and the bounds. -/
structure Queue where
  schedule : List ℕ := defaultSchedule
  schedule_pos : 0 < schedule.length := by decide
  limits : Limits := {}

namespace Queue

variable (q : Queue)

/-- The delay before the retry after `tries` failed deliveries. -/
def delayAfter (tries : ℕ) : ℕ :=
  q.schedule.get ⟨min (max tries 1 - 1) (q.schedule.length - 1), by
    have := q.schedule_pos
    omega⟩

/-- A round of `enforceHookBound`. -/
def hookRound (hook : Hook) (now : ℕ) (st : State) : Option State :=
  (((st.hooks.lookup hook).filter fun a => q.limits.perHook < a.card).bind first).map fun k =>
    st.markDropped (ofLex k).2 "queue full for this hook (oldest dropped)" now

def enforceHookBound (hook : Hook) (now : ℕ) (st : State) : Option State :=
  loop (fun _ => q.hookRound hook now) (st.aged.card + 1) st

/-- A round of `enforceRepoBound`. -/
def repoRound (repo : String) (now : ℕ) (st : State) : Option State :=
  (((st.repos.lookup repo).filter fun t => q.limits.perRepo < t.aged.card).bind fun t => first t.aged).map fun k =>
    st.markDropped (ofLex k).2 "queue full for this repo (oldest dropped)" now

def enforceRepoBound (repo : String) (now : ℕ) (st : State) : Option State :=
  loop (fun _ => q.repoRound repo now) (st.aged.card + 1) st

/-- A round of `enforceGlobalBounds`. -/
def globalRound (order : HashOrder) (now round : ℕ) (st : State) : Option State :=
  let byCount : Bool := q.limits.total < st.aged.card
  if !byCount && st.bytes ≤ q.limits.bytes then none
  else
    let held := ((order.repos round st.repos).map Prod.snd)
    ((maxByKey (fun t : Tally => if byCount then t.aged.card else t.bytes) held).bind fun t =>
        first t.aged).map fun k =>
      let st := { st with evicted := st.evicted ++ [Eviction.mk st.entries (ofLex k).2] }
      st.markDropped (ofLex k).2 "queue full (oldest of the repo with the most queued dropped)" now

def enforceGlobalBounds (order : HashOrder) (now : ℕ) (st : State) : Option State :=
  loop (q.globalRound order now) (st.aged.card + 1) st

def enforceBounds (order : HashOrder) (hook : Hook) (now : ℕ) (st : State) : Option State := do
  let st ← q.enforceHookBound hook now st
  let st ← q.enforceRepoBound (ofLex hook).1 now st
  q.enforceGlobalBounds order now st

def enforceAll (order : HashOrder) (now : ℕ) (st : State) : Option State := do
  let hooks := (order.hooks st.hooks).map Prod.fst
  let st ← hooks.foldlM (fun st hook => q.enforceHookBound hook now st) st
  let repos := (order.repos 0 st.repos).map Prod.fst
  let st ← repos.foldlM (fun st repo => q.enforceRepoBound repo now st) st
  let st ← q.enforceGlobalBounds order now st
  return st.trimDropped

/-- The entries of the queue's files, indexed. -/
def readEntries (files : List Entry) : State :=
  files.foldl (fun st e => st.add { e with bytes := bodySize e.payload }) {}

/-- `open`, on what the files hold. -/
def load (order : HashOrder) (files : List Entry) (now : ℕ) : Option State :=
  let bodiless := (files.filter fun e => e.status = .pending ∧ e.payload = none).map Entry.id
  let st := bodiless.foldl (fun st id => st.markDropped id "no body stored (unreadable entry)" now) (readEntries files)
  q.enforceAll order now st

/-- The entry of a first failure. -/
def newEntry (f : Failure) (now : ℕ) : Entry where
  id := f.id
  repoId := f.repoId
  hookId := f.hookId
  event := f.event
  sourceDocId := f.sourceDocId
  createdMs := now
  tries := 0
  nextMs := now
  lastError := ""
  status := .pending
  payload := f.payload
  bytes := bodySize f.payload

/-- One more failed try of a pending entry. -/
def retried (f : Failure) (now : ℕ) (count : Bool) (deferUntil : Option ℕ) (e : Entry) : Entry :=
  let tries := if count then min (e.tries + 1) u32Max else e.tries
  { e with
    tries := tries
    lastError := String.ofList (f.error.toList.take maxErrorLen)
    nextMs := (deferUntil.map fun t => max t now).getD (satAdd now (ms (q.delayAfter tries))) }

def failLocked (order : HashOrder) (f : Failure) (now : ℕ) (count : Bool) (deferUntil : Option ℕ) (st : State) :
    Option (State × Bool) :=
  let st := if (st.entries.lookup f.id).isSome then st else st.add (newEntry f now)
  match (st.entries.lookup f.id).filter fun e => e.status = .pending with
  | none => some (st, false)
  | some e =>
    let st := { st with entries := st.entries.insert f.id (q.retried f now count deferUntil e) }
    (q.enforceBounds order e.hook now st).map fun st => (st, st.isPending f.id)

/-- Record a failed delivery; whether it is queued. -/
def fail (order : HashOrder) (f : Failure) (now : ℕ) (count : Bool) (deferUntil : Option ℕ) (st : State) :
    Option (State × Bool) :=
  (q.failLocked order f now count deferUntil st).map fun (st, queued) =>
    (if f.claimed then { st with claimed := st.claimed.erase f.id } else st, queued)

end Queue

namespace State

variable (st : State)

/-- Put a due entry back until `t`. -/
def defer (id : String) (t : ℕ) : State :=
  match (st.entries.lookup id).filter fun e => e.status = .pending ∧ e.nextMs ≠ t with
  | some e => { st with entries := st.entries.insert id { e with nextMs := t } }
  | none => st

def succeeded (id : String) : State :=
  let st := match st.entries.lookup id with
    | some e => { st with toIndex := st.toIndex.unindex e, entries := st.entries.erase id }
    | none => st
  { st with claimed := st.claimed.erase id }

def dropEntry (id reason : String) (now : ℕ) : State :=
  let st := if st.isPending id then st.markDropped id reason now else st
  { st with claimed := st.claimed.erase id }

/-- Drop the pending entries of the hooks that match. -/
def dropWhere (order : HashOrder) (hits : String → String → Bool) (reason : String) (now : ℕ) : State :=
  let ids := ((order.hooks st.hooks).filter fun x => hits (ofLex x.1).1 (ofLex x.1).2).flatMap fun x =>
    (x.2.sort (· ≤ ·)).map fun k => (ofLex k).2
  ids.foldl (fun st id => st.markDropped id reason now) st

/-- A round of `expire`. -/
def expiryRound (now : ℕ) : Option State :=
  ((first st.aged).filter fun k => expiry ≤ now - (ofLex k).1).map fun k =>
    st.markDropped (ofLex k).2 "expired: undelivered for 48 h" now

/-- Drop the pending entries past `expiry`, oldest first. -/
def expire (now : ℕ) : Option State := loop (fun _ st => st.expiryRound now) (st.aged.card + 1) st

/-- Housekeeping, then the pending entries due that are not handed out. -/
def due (now : ℕ) : Option (State × List Entry) :=
  (st.expire now).map fun st =>
    let st := st.pruneDropped now
    (st, (st.entries.values.filter fun e =>
      (e.status = .pending ∧ e.nextMs ≤ now) ∧ e.id ∉ st.claimed).map Entry.head)

/-- Hand an entry to a worker: its body, unless it is handed out already. -/
def claim (id : String) : State × Option String :=
  match ((st.entries.lookup id).filter fun e => e.status = .pending).bind Entry.payload with
  | none => (st, none)
  | some payload => ({ st with claimed := insert id st.claimed }, if id ∈ st.claimed then none else some payload)

def release (id : String) : State := { st with claimed := st.claimed.erase id }

end State

/-- A call with its arguments. -/
inductive Op where
  | fail (f : Failure) (now : ℕ) (count : Bool) (deferUntil : Option ℕ)
  | defer (id : String) (t : ℕ)
  | succeeded (id : String)
  | dropEntry (id reason : String) (now : ℕ)
  | dropWhere (hits : String → String → Bool) (reason : String) (now : ℕ)
  | due (now : ℕ)
  | claim (id : String)
  | release (id : String)

/-- What a call returns. -/
inductive Answer where
  | done
  | queued (b : Bool)
  | due (entries : List Entry)
  | body (payload : Option String)
deriving DecidableEq

def Queue.step (q : Queue) (order : HashOrder) (st : State) : Op → Option (State × Answer)
  | .fail f now count deferUntil =>
    (q.fail order f now count deferUntil st).map fun (st, b) => (st, .queued b)
  | .defer id t => some (st.defer id t, .done)
  | .succeeded id => some (st.succeeded id, .done)
  | .dropEntry id reason now => some (st.dropEntry id reason now, .done)
  | .dropWhere hits reason now => some (st.dropWhere order hits reason now, .done)
  | .due now => (st.due now).map fun (st, entries) => (st, .due entries)
  | .claim id => some ((st.claim id).1, .body (st.claim id).2)
  | .release id => some (st.release id, .done)

end DashForge.Relay
