import DashForge.Data.Saturating
import Mathlib.Data.List.MinMax

/-!
# Membership roles

Membership of a repository is the set of its current `maintainer` and `writer` documents
(`rules/v2.rs`). Roles are ordered best first, and an identity's role at a time is the best one of
its documents written by then.
-/

namespace DashForge

/-- A membership role, best first. -/
inductive Role where
  | maintainer
  | writer
  | triage
  | reader
  | bot
deriving DecidableEq, Repr

namespace Role

/-- The position of a role, best first. -/
def ordinal : Role → ℕ
  | maintainer => 0
  | writer => 1
  | triage => 2
  | reader => 3
  | bot => 4

theorem ordinal_injective : Function.Injective ordinal := by
  intro a b h
  cases a <;> cases b <;> first | rfl | cases h

instance : LinearOrder Role := LinearOrder.lift' ordinal ordinal_injective

/-- Whether the role counts as an approver. -/
def isApprover : Role → Bool
  | maintainer | writer => true
  | _ => false

theorem isApprover_of_le {r r' : Role} (h : r ≤ r') (h' : r'.isApprover) : r.isApprover := by
  change r.ordinal ≤ r'.ordinal at h
  cases r <;> cases r' <;> simp_all [isApprover, ordinal]

end Role

/-- A current `maintainer` or `writer` document. -/
structure Membership where
  identity : String
  role : Role
  createdAt : ℕ
deriving DecidableEq, Repr

/-- Membership of one repository. -/
structure RoleOracle where
  memberships : List Membership
deriving DecidableEq, Repr

namespace RoleOracle

variable (oracle : RoleOracle) (identity : String)

/-- The best role `identity` held at `time`. -/
def roleAt (time : ℕ) : Option Role :=
  ((oracle.memberships.filter fun m => m.identity == identity && decide (m.createdAt ≤ time)).map
    Membership.role).min?

/-- Whether `identity` was an approver at `time`. -/
def approverAt (time : ℕ) : Bool := (oracle.roleAt identity time).any Role.isApprover

/-- The best role `identity` holds now. -/
def currentRole : Option Role := oracle.roleAt identity u64Max

variable {oracle identity}

theorem approverAt_iff {time : ℕ} : oracle.approverAt identity time ↔
    ∃ m ∈ oracle.memberships, m.identity = identity ∧ m.createdAt ≤ time ∧ m.role.isApprover := by
  have hmem : ∀ role, role ∈ (oracle.memberships.filter fun m =>
      m.identity == identity && decide (m.createdAt ≤ time)).map Membership.role ↔
        ∃ m ∈ oracle.memberships, m.identity = identity ∧ m.createdAt ≤ time ∧ m.role = role := by
    intro role
    simp [and_assoc]
  simp only [approverAt, roleAt, Option.any_eq_true]
  constructor
  · rintro ⟨role, hmin, happ⟩
    obtain ⟨m, hm, hid, htime, rfl⟩ := (hmem role).mp (List.min?_eq_some_iff.mp hmin).1
    exact ⟨m, hm, hid, htime, happ⟩
  · rintro ⟨m, hm, hid, htime, happ⟩
    have hin := (hmem m.role).mpr ⟨m, hm, hid, htime, rfl⟩
    obtain ⟨role, hmin⟩ := Option.isSome_iff_exists.mp (List.isSome_min?_of_mem hin)
    exact ⟨role, hmin, Role.isApprover_of_le ((List.min?_eq_some_iff.mp hmin).2 _ hin) happ⟩

end RoleOracle

end DashForge
