import DashForge.Private.Doc

/-!
# The real values of members-only ref updates

A members-only ref update carries blinds in place of its commits, and the commits, the name and the salt of
the blinds inside `enc` (`private/blind.rs`, `private/members_ref.rs`). `realValues` takes an opened update to
its real values: a blind that does not check is kept with an alert, and what no writer produces is malformed.
-/

namespace DashForge

open Tlv (Fields)
open Doc

namespace Blind

def domain : Bytes := utf8 "dash-forge/v2/oid-blind" ++ [0]

/-- The null OID: empty, or all zero. -/
def isNull (oid : Bytes) : Bool := oid.all fun b => b = 0

section Check

variable (sha256 : Bytes → Bytes32)

/-- The blind of a commit under a salt. -/
def blind (salt oid : Bytes) : Option Bytes :=
  if Tlv.isOidWidth oid.length then some ((sha256 (domain ++ salt ++ oid)).val.take oid.length) else none

/-- How a plaintext OID reads against the real value and salt beside it. -/
inductive Check where
  | ok
  | null
  | mismatch
  | width
  | malformed
deriving DecidableEq, Repr

def check (plain : Bytes) (real salt : Option Bytes) : Check :=
  if isNull plain then if real.isNone then .null else .malformed
  else
    match real, salt with
    | some real, some salt =>
      if real.length ≠ plain.length then .width
      else
        match blind sha256 salt real with
        | some b => if b = plain then .ok else .mismatch
        | none => .malformed
    | _, _ => .malformed

end Check

inductive OidField where
  | newOid
  | prevOid
  | headOid
deriving DecidableEq, Repr

inductive AlertKind where
  | mismatch
  | width
deriving DecidableEq, Repr

/-- A blind that does not match the real value beside it. -/
structure Alert where
  field : OidField
  kind : AlertKind
deriving DecidableEq, Repr

def Alert.of (field : OidField) : Check → Option Alert
  | .mismatch => some ⟨field, .mismatch⟩
  | .width => some ⟨field, .width⟩
  | _ => none

end Blind

/-- A members-only ref update as members fold it. -/
structure RealRefUpdate where
  name : String
  newOid : Bytes
  prevOid : Option Bytes
  alerts : List Blind.Alert
  salt : Option Bytes
deriving DecidableEq

section RealValues

variable (sha256 : Bytes → Bytes32)

/-- A plaintext OID taken to its real value, with the alert it raises. -/
def judge (fields : Fields) (field : Blind.OidField) (plain : Bytes) (real : Option Bytes) :
    Option (Bytes × List Blind.Alert) :=
  let c := Blind.check sha256 plain real fields.oidSalt
  if c = .malformed then none else some (real.getD plain, (Blind.Alert.of field c).toList)

/-- The real values of an opened update; `none` where it is malformed. -/
def realValues (header : DocHeader) (fields : Fields) : Option RealRefUpdate := do
  let name ← fields.refName
  let plain ← header.newOid
  let (newOid, newAlerts) ← judge sha256 fields .newOid plain fields.newOid
  let (prevOid, prevAlerts) ←
    match header.prevOid with
    | some p => (judge sha256 fields .prevOid p fields.prevOid).map fun x => (some x.1, x.2)
    | none => if fields.prevOid.isSome then none else some (none, [])
  -- one repository has one object format
  let mixed := fields.newOid.any fun n => fields.prevOid.any fun p => n.length ≠ p.length
  if mixed then none
  else if Blind.isNull newOid ∧ prevOid.all Blind.isNull then none
  else
    return { name := name, newOid := newOid, prevOid := prevOid, alerts := newAlerts ++ prevAlerts
             salt := fields.oidSalt }

/-- How a reader sees one members-only ref update. -/
inductive RefOpened where
  | readable (real : RealRefUpdate)
  | unreadable (why : Unreadable)
  | malformed
deriving DecidableEq

def RefOpened.fromOpened (header : DocHeader) : Opened → RefOpened
  | .readable f => (realValues sha256 header f).elim .malformed .readable
  | .unreadable u => .unreadable u
  | .malformed => .malformed

end RealValues

end DashForge
