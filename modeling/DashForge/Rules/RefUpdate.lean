import DashForge.Data.SortBy
import DashForge.Rules.RefName

/-!
# Ref updates, configs and validity

The documents ref resolution folds (`rules.rs`): append-only ref updates and the config history
that says which refs were protected when. An update is judged as of its own time: `configAsOf`
picks the config in force, and `isUpdateValid` is the whole test an update passes before it can
move its ref.

Both documents are ordered by `($createdAt, $id)` (`RefUpdate.key`, `ConfigDoc.key`). Validity
does not depend on the order of the config history (`isUpdateValid_eq_of_perm`), nor on configs
written after the update (`isUpdateValid_append`).
-/

namespace DashForge

open List

/-- A git object id, hex-encoded. -/
abbrev Oid := String

/-- The git null oid: all zeros, or empty. -/
def isNullOid (oid : Oid) : Bool :=
  oid.isEmpty || oid.toList.all fun c => c == '0'

/-- A `refUpdate` or `protectedRefUpdate` document, flattened. -/
structure RefUpdate where
  id : String
  refNameHash : String
  refName : String
  /-- Recorded previous tip (null: create). -/
  prevOid : Oid
  /-- New tip (null: delete). -/
  newOid : Oid
  force : Bool
  /-- Whether it arrived through the maintainer-gated `protectedRefUpdate` type. -/
  isProtected : Bool
  author : String
  /-- Consensus `$createdAt` (ms). -/
  createdAt : ℕ
deriving DecidableEq, Repr

/-- A `config` document, flattened. -/
structure ConfigDoc where
  id : String
  createdAt : ℕ
  protectedPatterns : List String
deriving DecidableEq, Repr

/-- The position of an update in the platform order. -/
def RefUpdate.key (u : RefUpdate) : ℕ ×ₗ String := toLex (u.createdAt, u.id)

/-- The position of a config in the platform order. -/
def ConfigDoc.key (c : ConfigDoc) : ℕ ×ₗ String := toLex (c.createdAt, c.id)

/-! ### Validity as of the update's time -/

/-- The config in force at `time`: the newest one not written after it. -/
def configAsOf (configHistory : List ConfigDoc) (time : ℕ) : Option ConfigDoc :=
  maxByKey ConfigDoc.key (configHistory.filter fun c => c.createdAt ≤ time)

/-- Whether `u` is a valid mover of its ref: a legal name that hashes to its key and, when the
config in force protects the ref, a protected update. -/
def isUpdateValid (env : RefEnv) (u : RefUpdate) (configHistory : List ConfigDoc) : Bool :=
  if !isLegalRefName u.refName then false
  else if isSha256Hex u.refNameHash && !refNameHashMatches env u.refName u.refNameHash then false
  else match configAsOf configHistory u.createdAt with
    | none => true
    | some cfg => if matchesProtected env u.refName cfg.protectedPatterns then u.isProtected
        else true

/-- Documents with distinct ids have distinct positions. -/
theorem injOn_key_of_nodup {α : Type*} {f : α → String} (time : α → ℕ) {l : List α}
    (h : (l.map f).Nodup) : Set.InjOn (fun a => toLex (time a, f a)) {a | a ∈ l} := by
  intro a ha b hb hab
  have hid : f a = f b := congrArg (fun k => (ofLex k).2) hab
  exact inj_on_of_nodup_map h ha hb hid

variable {cfgs cfgs' later : List ConfigDoc}

theorem configAsOf_eq_of_perm (hp : cfgs.Perm cfgs') (hids : (cfgs.map ConfigDoc.id).Nodup) (time : ℕ) :
    configAsOf cfgs time = configAsOf cfgs' time := by
  refine maxByKey_eq_of_perm _ (hp.filter _) ?_
  exact (injOn_key_of_nodup ConfigDoc.createdAt hids).mono fun c hc => mem_of_mem_filter hc

theorem configAsOf_append (cfgs : List ConfigDoc) {time : ℕ} (h : ∀ c ∈ later, time < c.createdAt) :
    configAsOf (cfgs ++ later) time = configAsOf cfgs time := by
  have hnil : later.filter (fun c => c.createdAt ≤ time) = [] := by
    rw [filter_eq_nil_iff]
    intro c hc
    simpa using h c hc
  rw [configAsOf, filter_append, hnil, append_nil, configAsOf]

theorem isUpdateValid_eq_of_perm (env : RefEnv) (u : RefUpdate)
    (hp : cfgs.Perm cfgs') (hids : (cfgs.map ConfigDoc.id).Nodup) :
    isUpdateValid env u cfgs = isUpdateValid env u cfgs' := by
  rw [isUpdateValid, isUpdateValid, configAsOf_eq_of_perm hp hids]

theorem isUpdateValid_append (env : RefEnv) (u : RefUpdate) (cfgs : List ConfigDoc)
    (h : ∀ c ∈ later, u.createdAt < c.createdAt) :
    isUpdateValid env u (cfgs ++ later) = isUpdateValid env u cfgs := by
  rw [isUpdateValid, isUpdateValid, configAsOf_append cfgs h]

end DashForge
