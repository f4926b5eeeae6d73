import DashForge.Refs.Document
import DashForge.Rules.ResolveRef

/-!
# Refs as the public and as members read them

One history, read by two readers (`refs.rs`). The public folds the plaintext updates, grouped by the digest
they are filed under (`publicRefs`). A member folds them with the members-only updates that open, grouped by
name (`membersUpdatesOf`): those sealed with the members key and those of narrower branches. A name the public
sees live keeps its public updates only, and of the sealed updates of a name the narrower ones go first.

The member's read is one pass over the rows (`readRow`, `MembersRead.take`) and one over the names
(`settleName`), which edit one state.
-/

namespace DashForge

open Doc (Bytes32 Opened)
open Tlv (DocKind)

/-- The raw history of one repository. -/
structure GitState where
  refUpdates : List FetchedDocument
  protectedRefUpdates : List FetchedDocument
  configs : List FetchedDocument

/-! ### The public read -/

namespace GitState

variable (env : PlatformEnv) (state : GitState)

/-- The ref update rows, each with its `protected` flag. -/
def rows : List (FetchedDocument × Bool) :=
  state.refUpdates.map (fun d => (d, false)) ++ state.protectedRefUpdates.map fun d => (d, true)

/-- The well-formed public updates with the digest they are filed under. -/
def updates : List (FetchedDocument × Bool × Bytes32) :=
  (state.rows.filter fun r => wellFormedIn env .refUpdate r.1).filterMap fun r =>
    (r.1.fieldBytes32 "refNameHash").map fun h => (r.1, r.2, h)

/-- The public updates in the order they are read. -/
def publicUpdates : List (Bytes32 × RefUpdate) :=
  (state.updates env).map fun x => (x.2.2, refUpdateFromDoc x.1 (hexEncode x.2.2.val) x.2.1)

/-- The public updates of each ref. -/
def refHistories : SortedMap Bytes32 (List RefUpdate) := SortedMap.gather (state.publicUpdates env)

/-- The public config timeline. -/
def configHistory : List ConfigDoc := (state.configs.filter fun d => wellFormedIn env .config d).map configDoc

end GitState

/-- The name of a ref: that of its newest update whose name has the digest. -/
def displayRefName (env : RefEnv) (updates : List RefUpdate) (refNameHash : String) : Option String :=
  (maxByKey RefUpdate.key (updates.filter fun u =>
    u.refNameHash = refNameHash && refNameHashMatches env u.refName refNameHash)).map RefUpdate.refName

/-- The refs of a public repository, folded over a config timeline. -/
def publicRefsOver (env : PlatformEnv) (configs : List ConfigDoc) (state : GitState) : List (String × RefState) :=
  (state.refHistories env).entries.filterMap fun x =>
    (displayRefName env.toRefEnv x.2 (hexEncode x.1.val)).map fun name =>
      (name, resolveRef (· == ·) env.toRefEnv x.2 configs (hexEncode x.1.val))

/-- Every ref of a public repository as the public folds it. -/
def publicRefs (env : PlatformEnv) (state : GitState) : List (String × RefState) :=
  publicRefsOver env (state.configHistory env) state

/-! ### What a member sees of a row -/

/-- The envelope of a narrower branch's ref update. -/
def BranchKey.v6 : UInt8 := 0x06

/-- The blind a members-only update carries, with what it stands for. -/
structure UpdateBlind where
  blind : Bytes
  real : Bytes
  salt : Bytes
deriving DecidableEq

inductive RefAlertKind where
  | blind (alert : Blind.Alert)
  /-- The public sees the name live. -/
  | publicName
  /-- A narrower branch has the name. -/
  | narrowerName
deriving DecidableEq, Repr

structure RefAlert where
  id : String
  kind : RefAlertKind
deriving DecidableEq, Repr

/-- A narrower branch's update that does not open. -/
structure Unopened where
  createdAt : ℕ
  id : String
  nameHash : Bytes32
  deleted : Bool
deriving DecidableEq

/-- Platform order. -/
def Unopened.key (u : Unopened) : ℕ ×ₗ String := toLex (u.createdAt, u.id)

/-- A members-only update that opens. -/
structure OpenedUpdate where
  narrower : Bool
  /-- The update restated on its real values. -/
  update : RefUpdate
  real : RealRefUpdate
  blind : Option UpdateBlind
deriving DecidableEq

/-- What a member reads of a row. -/
inductive RowRead where
  | plain (name : String) (u : RefUpdate)
  | ignored
  | unreadable (narrower : Bool) (unopened : Option Unopened)
  | opened (o : OpenedUpdate)
deriving DecidableEq

/-- Whether a row is a members-only ref update: sealed, in a public repository. -/
def isMembersOnlyRef (d : FetchedDocument) : Bool :=
  (d.fieldBytes "enc").any (fun e => e ≠ []) && d.fieldStr "vis" = some "public"

section ReadRow

variable (env : PlatformEnv) (open_ : DocKind → FetchedDocument → Opened)

/-- An opened update restated on its real values. -/
def openedUpdate (d : FetchedDocument) (isProtected narrower : Bool) (real : RealRefUpdate) : OpenedUpdate where
  narrower := narrower
  update :=
    { refUpdateFromDoc d (env.toRefEnv.sha256Hex real.name) isProtected with
      refName := real.name
      newOid := hexEncode real.newOid
      prevOid := (real.prevOid.map hexEncode).getD "" }
  real := real
  blind := do
    let newChecked := real.alerts.all fun a => a.field ≠ .newOid
    let blind ← (d.fieldBytes "newOid").filter fun b => newChecked && !Blind.isNull b
    let salt ← real.salt
    return { blind := blind, real := real.newOid, salt := salt }

/-- Read one row. An update opens only in the envelope of the members key or of a narrower branch, with its
name only inside. -/
def readRow (row : FetchedDocument × Bool) : RowRead :=
  let d := row.1
  let kind := if row.2 then .protectedRefUpdate else .refUpdate
  if wellFormedIn env .refUpdate d then
    match d.fieldStr "refName" with
    | some name => .plain name (refUpdateFromDoc d (env.toRefEnv.sha256Hex name) row.2)
    | none => .ignored
  else if !isMembersOnlyRef d then .ignored
  else
    let version := (d.fieldBytes "enc").bind List.head?
    let narrower : Bool := version = some BranchKey.v6
    let opens := (version = some Doc.v3 || narrower) && (d.fieldU64 "epoch").isSome && (d.fieldStr "refName").isNone
    let header := (headerOf env kind d).filter fun _ => opens
    match header.map fun h => RefOpened.fromOpened env.sha256 h (open_ kind d) with
    | some (.readable real) => .opened (openedUpdate env d row.2 narrower real)
    | _ =>
      let deleted := (d.fieldBytes "newOid").any Blind.isNull
      .unreadable narrower (if narrower then
        (d.fieldBytes32 "refNameHash").map fun h => ⟨d.createdAt.getD 0, d.id, h, deleted⟩ else none)

/-- The rows as a member reads them. -/
def memberRows (state : GitState) : List RowRead := state.rows.map (readRow env open_)

end ReadRow

/-! ### The member's read -/

/-- A member's view of a public repository's refs. -/
structure MembersUpdates where
  byName : SortedMap String (List RefUpdate) := .empty
  alerts : List RefAlert := []
  /-- The members-only updates that do not open. -/
  unreadable : ℕ := 0
  /-- Those of them outside narrower branches. -/
  unreadableMembers : ℕ := 0
  /-- The commits of the updates the members key opens. -/
  openedNewOids : Finset String := ∅
  /-- The folded members-only updates by document, each with its blind where that checked. -/
  sealed : SortedMap String (Option UpdateBlind) := .empty
  /-- The folded updates of narrower branches. -/
  narrower : Finset String := ∅
  /-- The commits of the narrower updates that open, with the branch's name. -/
  openedNarrower : SortedMap String String := .empty
  /-- The narrower branches whose newest unopened update is no delete. -/
  unreadableNarrower : Finset Bytes32 := ∅

/-- The state of the pass over the rows. -/
structure MembersRead where
  out : MembersUpdates := {}
  members : SortedMap String (List RefUpdate) := .empty
  unopened : List Unopened := []

/-- Take in what one row reads as. -/
def MembersRead.take (r : MembersRead) : RowRead → MembersRead
  | .plain name u => { r with out := { r.out with byName := r.out.byName.pushTo name u } }
  | .ignored => r
  | .unreadable narrower unopened =>
    { r with
      out := { r.out with
        unreadable := r.out.unreadable + 1
        unreadableMembers := if narrower then r.out.unreadableMembers else r.out.unreadableMembers + 1 }
      unopened := r.unopened ++ unopened.toList }
  | .opened o =>
    let live := !Blind.isNull o.real.newOid
    { r with
      out := { r.out with
        alerts := r.out.alerts ++ o.real.alerts.map fun a => ⟨o.update.id, .blind a⟩
        openedNewOids := if live && !o.narrower then insert o.update.newOid r.out.openedNewOids else r.out.openedNewOids
        openedNarrower :=
          if live && o.narrower then r.out.openedNarrower.insert o.update.newOid o.real.name else r.out.openedNarrower
        narrower := if o.narrower then insert o.update.id r.out.narrower else r.out.narrower
        sealed := r.out.sealed.insert o.update.id o.blind }
      members := r.members.pushTo o.real.name o.update }

/-- The narrower branches a reader has no key of: the newest update of a name hash decides. -/
def unreadableNarrowerOf (unopened : List Unopened) : Finset Bytes32 :=
  (sortByKey Unopened.key unopened).foldl
    (fun s u => if u.deleted then s.erase u.nameHash else insert u.nameHash s) ∅

namespace MembersUpdates

/-- Leave out a sealed update that a narrower branch has the name of. -/
def dropNarrowerName (out : MembersUpdates) (u : RefUpdate) : MembersUpdates :=
  { out with sealed := out.sealed.erase u.id, alerts := out.alerts ++ [⟨u.id, .narrowerName⟩] }

/-- Leave out a sealed update whose name the public sees live. -/
def dropPublicName (out : MembersUpdates) (u : RefUpdate) : MembersUpdates :=
  { out with
    sealed := out.sealed.erase u.id
    narrower := out.narrower.erase u.id
    alerts := out.alerts ++ [⟨u.id, .publicName⟩] }

end MembersUpdates

section Settle

variable (env : PlatformEnv) (configs : List ConfigDoc)

/-- Whether the public updates of a name alone make it a live ref. -/
def liveName (name : String) (public_ : List RefUpdate) : Bool :=
  !public_.isEmpty && resolveRef (· == ·) env.toRefEnv public_ configs (env.toRefEnv.sha256Hex name) ≠ .unborn

/-- Settle the sealed updates of one name. -/
def settleName (out : MembersUpdates) (entry : String × List RefUpdate) : MembersUpdates :=
  let narrower := entry.2.any fun u => u.id ∈ out.narrower
  let drop := if narrower then entry.2.filter fun u => u.id ∉ out.narrower else []
  let keep := if narrower then entry.2.filter fun u => u.id ∈ out.narrower else entry.2
  let sealed_ := sortByKey RefUpdate.key keep
  let out := drop.foldl MembersUpdates.dropNarrowerName out
  let public_ := out.byName.listAt entry.1
  if liveName env configs entry.1 public_ then sealed_.foldl MembersUpdates.dropPublicName out
  else { out with byName := out.byName.insert entry.1 (public_ ++ sealed_) }

/-- The updates of every ref as a member folds them. -/
def membersUpdatesOf (state : GitState) (open_ : DocKind → FetchedDocument → Opened) : MembersUpdates :=
  let r := (memberRows env open_ state).foldl MembersRead.take {}
  let out := { r.out with unreadableNarrower := unreadableNarrowerOf r.unopened }
  let out := r.members.entries.foldl (settleName env configs) out
  { out with byName := out.byName.mapVals fun _ us => sortByKey RefUpdate.key us }

end Settle

end DashForge
