import DashForge.Private.Doc
import DashForge.Rules.Role

/-!
# Who a letter goes to

The recipients of an issue, comment or review sealed to specific people are fixed when it is posted
(`rules/letters.rs`). `LetterInput.wanted` is everyone it would go to, and `LetterInput.plan` leaves out who has
no key, checks the rest and puts the writer first. A group is who it is when the letter is written, so a parent's
group is resolved again at each reply.

The letters of a thread are a `LetterChain`: each lists letters written before it as its parents. Owner, members
and keys may be others at each letter. `plan_spec` says what a reply keeps of its parents.
-/

namespace DashForge

open Tlv (LetterGroup)
open List

/-- At most this many recipients, the writer included. -/
def maxLetterRecipients : ℕ := Doc.maxRecipients

/-- A member of the repository, as the member documents say now. -/
structure LetterMember where
  identity : String
  role : Role
deriving DecidableEq, Repr

/-- What the writer asked for: a preset, people named one by one, or both. -/
structure LetterRequest where
  group : Option LetterGroup := none
  people : List String := []
deriving DecidableEq

/-- A letter a new one replies under, as its writer listed it. -/
structure ParentLetter where
  /-- In slot order: the first is its writer. -/
  recipients : List String
  group : Option LetterGroup := none
deriving DecidableEq

structure LetterInput where
  owner : String
  sender : String
  members : List LetterMember
  /-- Identities with no usable encryption key. -/
  keyless : List String
  /-- What the writer asked for; `none` lists the parents again. -/
  request : Option LetterRequest := none
  /-- The picker's exact list, instead of a request. -/
  exact : Option (List String) := none
  parents : List ParentLetter
  /-- Whether it is written under a members-only parent. -/
  membersOnlyParent : Bool
deriving DecidableEq

structure LetterPlan where
  /-- In slot order: the writer, then the rest by id. -/
  recipients : List String
  /-- People it would have gone to who have no usable encryption key. -/
  skipped : List String
  group : Option LetterGroup
deriving DecidableEq

/-- Why a letter is refused before signing. -/
inductive LetterRefusal where
  | noRecipients
  | narrower (people : List String)
  | noEncryptionKey (people : List String)
  | notMembers (people : List String)
  | tooMany (count : ℕ)
deriving DecidableEq

/-! ### Groups and parents -/

/-- Whether a member with `role` is in `group`. -/
def inGroup (group : LetterGroup) (role : Role) : Bool :=
  match group with
  | .maintainers => role == .maintainer
  | .writers => role == .maintainer || role == .writer

section Now

variable (owner : String) (members : List LetterMember)

/-- The people `group` is now: the owner, and every member whose role is in it. -/
def groupNow (group : LetterGroup) : List String :=
  sortedDistinct (owner :: (members.filter fun m => inGroup group m.role).map LetterMember.identity)

/-- What a reply lists of a parent when it asks for nothing: its list, or its group now and its writer. -/
def ParentLetter.inherited (p : ParentLetter) : List String :=
  match p.group with
  | some g => sortedDistinct (groupNow owner members g ++ p.recipients.head?.toList)
  | none => sortedDistinct p.recipients

/-- Who a reply must still go to under a parent: its list, less those of a group who have left it. -/
def ParentLetter.required (p : ParentLetter) : List String :=
  match p.group with
  | none => sortedDistinct p.recipients
  | some g =>
    let now := groupNow owner members g
    sortedDistinct ((p.recipients.zipIdx.filter fun x => x.2 == 0 || now.contains x.1).map Prod.fst)

end Now

/-! ### The plan -/

namespace LetterInput

variable (i : LetterInput)

/-- The people named one by one. -/
def named : List String := sortedDistinct (i.request.elim [] LetterRequest.people)

/-- Everyone a letter would go to before anyone without a key is left out, and the people named one by one. -/
def wanted : Except LetterRefusal (List String × List String) :=
  match i.exact with
  | some exact => do
    let want := sortedDistinct (i.sender :: exact)
    let missing := sortedDistinct
      ((i.parents.flatMap fun p => p.required i.owner i.members).filter fun r => !want.contains r)
    refuseIf (missing ≠ []) (.narrower missing)
    return (want, [])
  | none => do
    refuseIf (i.request = none ∧ i.parents = []) .noRecipients
    let group := (i.request.bind LetterRequest.group).elim [] (groupNow i.owner i.members)
    return (sortedDistinct (i.sender :: i.parents.flatMap (fun p => p.inherited i.owner i.members) ++ group ++
      i.named), i.named)

/-- The group the letter might name: the one asked for alone, or the one all its parents have. -/
def candidate : Option LetterGroup :=
  if i.exact.isSome then none
  else match i.request with
    | some r => if r.people = [] then r.group else none
    | none => match (i.parents.map ParentLetter.group).dedup with
      | [only] => only
      | _ => none

/-- Whether everyone but the writer is in the group now. -/
def within (recipients : List String) (g : LetterGroup) : Bool :=
  recipients.all fun r => r == i.sender || (groupNow i.owner i.members g).contains r

/-- Those of a list, the writer apart, who have no key. -/
def withoutKey (people : List String) : List String :=
  people.filter fun p => p != i.sender && i.keyless.contains p

/-- The writer, and those of a list who have a key. -/
def slots (want : List String) : List String :=
  i.sender :: want.filter fun p => p != i.sender && !i.keyless.contains p

/-- Those of a list who are neither the owner nor a member. -/
def outside (want : List String) : List String :=
  want.filter fun p => p != i.owner && !i.members.any fun m => m.identity == p

/-- Who a letter goes to, or why it is refused. -/
def plan : Except LetterRefusal LetterPlan := do
  let (want, named) ← i.wanted
  refuseIf (i.withoutKey named ≠ []) (.noEncryptionKey (i.withoutKey named))
  refuseIf (i.membersOnlyParent ∧ i.outside want ≠ []) (.notMembers (i.outside want))
  let recipients := i.slots want
  refuseIf (maxLetterRecipients < recipients.length) (.tooMany recipients.length)
  return ⟨recipients, i.withoutKey want, i.candidate.filter (i.within recipients)⟩

end LetterInput

/-! ### What a plan holds -/

section Wanted

variable {i : LetterInput} {want named : List String}

variable {r : String}

theorem LetterInput.mem_slots : r ∈ i.slots want ↔ r = i.sender ∨ (r ∈ want ∧ r ≠ i.sender ∧ r ∉ i.keyless) := by
  simp [LetterInput.slots]

theorem LetterInput.mem_withoutKey : r ∈ i.withoutKey want ↔ r ∈ want ∧ r ≠ i.sender ∧ r ∈ i.keyless := by
  simp [LetterInput.withoutKey]

theorem ParentLetter.inherited_of_required {owner : String} {members : List LetterMember}
    {p : ParentLetter} (h : r ∈ p.required owner members) : r ∈ p.inherited owner members := by
  cases hg : p.group with
  | none => simpa [required, inherited, hg] using h
  | some g =>
    simp only [required, hg, mem_sortedDistinct, mem_map, mem_filter, Bool.or_eq_true, beq_iff_eq,
      contains_iff_mem] at h
    simp only [inherited, hg, mem_sortedDistinct, mem_append, Option.mem_toList]
    obtain ⟨⟨r, k⟩, ⟨hmem, hk | hnow⟩, rfl⟩ := h
    · obtain ⟨hlt, hr⟩ := mem_zipIdx' hmem
      obtain rfl : k = 0 := hk
      exact .inr (by rw [head?_eq_getElem?, getElem?_eq_getElem hlt, hr])
    · exact .inl hnow

/-- A list that is accepted is in order, has the writer and everyone each parent requires. -/
theorem LetterInput.wanted_spec (h : i.wanted = .ok (want, named)) : want.Pairwise (· < ·) ∧ i.sender ∈ want ∧
      ∀ p ∈ i.parents, ∀ r ∈ p.required i.owner i.members, r ∈ want := by
  rw [wanted] at h
  cases hexact : i.exact with
  | some exact =>
    simp only [hexact, refuseIf_bind_eq_ok, pure_eq_ok, Prod.mk.injEq, not_not] at h
    obtain ⟨hmissing, rfl, -⟩ := h
    refine ⟨pairwise_sortedDistinct _, by simp, fun p hp r hr => ?_⟩
    by_contra hnot
    have : r ∈ ([] : List String) := by
      rw [← hmissing, mem_sortedDistinct, mem_filter]
      exact ⟨mem_flatMap.mpr ⟨p, hp, hr⟩, by simpa using hnot⟩
    cases this
  | none =>
    simp only [hexact, refuseIf_bind_eq_ok, pure_eq_ok, Prod.mk.injEq] at h
    obtain ⟨-, rfl, -⟩ := h
    refine ⟨pairwise_sortedDistinct _, by simp, fun p hp r hr => ?_⟩
    have hin : r ∈ i.parents.flatMap fun p => p.inherited i.owner i.members :=
      mem_flatMap.mpr ⟨p, hp, ParentLetter.inherited_of_required hr⟩
    simp [hin]

theorem LetterInput.failsIn_wanted (h : i.exact = none) :
    FailsIn (fun e => ∀ people, e ≠ .narrower people) i.wanted := by
  rw [wanted, h]
  exact (failsIn_refuseIf (by simp)).bind fun _ _ => failsIn_ok _ _

theorem LetterInput.failsIn_plan (h : i.exact = none) : FailsIn (fun e => ∀ people, e ≠ .narrower people) i.plan :=
  (failsIn_wanted h).bind fun _ _ => (failsIn_refuseIf (by simp)).bind fun _ _ =>
    (failsIn_refuseIf (by simp)).bind fun _ _ => (failsIn_refuseIf (by simp)).bind fun _ _ => failsIn_ok _ _

variable {out : LetterPlan}

/-- A plan is made from a list that was accepted, by the checks it passed. -/
theorem LetterInput.plan_eq_ok : i.plan = .ok out ↔ ∃ want named, i.wanted = .ok (want, named) ∧
    i.withoutKey named = [] ∧ (i.membersOnlyParent = true → i.outside want = []) ∧
    (i.slots want).length ≤ maxLetterRecipients ∧
    ⟨i.slots want, i.withoutKey want, i.candidate.filter (i.within (i.slots want))⟩ = out := by
  rw [plan, bind_eq_ok]
  simp only [refuseIf_bind_eq_ok, pure_eq_ok, Prod.exists, not_not, not_and, not_lt]

/-- Whom a reply goes to: the writer and everyone it lists, those without a key left out. -/
def LetterPlan.Keeps (out : LetterPlan) (keyless : List String) (r : String) : Prop :=
  r ∈ out.recipients ∨ (r ∈ keyless ∧ r ∈ out.skipped)

theorem LetterInput.keeps_of_mem (hr : r ∈ want) :
    (⟨i.slots want, i.withoutKey want, i.candidate.filter (i.within (i.slots want))⟩ : LetterPlan).Keeps
      i.keyless r := by
  by_cases hs : r = i.sender
  · exact .inl (mem_slots.mpr (.inl hs))
  · by_cases hk : r ∈ i.keyless
    · exact .inr ⟨hk, mem_withoutKey.mpr ⟨hr, hs, hk⟩⟩
    · exact .inl (mem_slots.mpr (.inr ⟨hr, hs, hk⟩))

/-- The writer is first, and the rest ascend without it. -/
theorem LetterInput.plan_order (h : i.plan = .ok out) :
    ∃ rest, out.recipients = i.sender :: rest ∧ rest.Pairwise (· < ·) ∧ i.sender ∉ rest ∧
      out.recipients.length ≤ maxLetterRecipients := by
  obtain ⟨want, named, hwanted, -, -, hlen, rfl⟩ := plan_eq_ok.mp h
  refine ⟨_, rfl, (wanted_spec hwanted).1.filter _, ?_, hlen⟩
  simp

/-- A plan keeps everyone a parent requires. -/
theorem LetterInput.plan_keeps (h : i.plan = .ok out) {p : ParentLetter} (hp : p ∈ i.parents)
    (hr : r ∈ p.required i.owner i.members) : out.Keeps i.keyless r := by
  obtain ⟨want, named, hwanted, -, -, -, rfl⟩ := plan_eq_ok.mp h
  exact keeps_of_mem ((wanted_spec hwanted).2.2 p hp r hr)

/-- Under a members-only parent, everyone who gets the letter is the owner or a member. -/
theorem LetterInput.plan_members (h : i.plan = .ok out) (hm : i.membersOnlyParent = true)
    (hr : r ∈ out.recipients) : r = i.owner ∨ ∃ m ∈ i.members, m.identity = r := by
  obtain ⟨want, named, hwanted, -, hout, -, rfl⟩ := plan_eq_ok.mp h
  have hwant : r ∈ want := by
    rcases mem_slots.mp hr with rfl | ⟨hr, -⟩
    · exact (wanted_spec hwanted).2.1
    · exact hr
  have hin : r ∉ i.outside want := by
    rw [hout hm]
    exact not_mem_nil
  by_contra hnot
  rw [not_or] at hnot
  exact hin (mem_filter.mpr ⟨hwant, by simpa using hnot⟩)

/-- The group a letter names has everyone but the writer. -/
theorem LetterInput.plan_group (h : i.plan = .ok out) {g : LetterGroup} (hg : out.group = some g)
    (hr : r ∈ out.recipients) (hs : r ≠ i.sender) : r ∈ groupNow i.owner i.members g := by
  obtain ⟨want, named, -, -, -, -, rfl⟩ := plan_eq_ok.mp h
  have hwithin := (Option.filter_eq_some_iff.mp hg).2
  simpa [hs] using all_eq_true.mp hwithin r hr

end Wanted

/-! ### Threads -/

/-- A letter that was planned. -/
structure Letter where
  input : LetterInput
  plan : LetterPlan
  planned : input.plan = .ok plan

/-- A letter as a parent of later ones. -/
def Letter.parent (l : Letter) : ParentLetter := ⟨l.plan.recipients, l.plan.group⟩

/-- Whether a letter replies only under letters of a thread. -/
def LetterInput.RepliesIn (i : LetterInput) (t : List Letter) : Prop :=
  ∀ p ∈ i.parents, ∃ l ∈ t, l.parent = p

/-- Letters, oldest first, each of which replies under letters before it. -/
inductive LetterChain : List Letter → Prop
  | nil : LetterChain []
  | concat {t : List Letter} {l : Letter} (hc : LetterChain t) (hl : l.input.RepliesIn t) : LetterChain (t ++ [l])

/-- What a parent requires: its writer, and those of its list who are not of a group they have left. -/
theorem Letter.mem_required (l : Letter) {owner : String} {members : List LetterMember} {r : String} :
    r ∈ l.parent.required owner members ↔ r = l.input.sender ∨
      (r ∈ l.plan.recipients ∧ ∀ g, l.plan.group = some g → r ∈ groupNow owner members g) := by
  obtain ⟨rest, hrec, -⟩ := LetterInput.plan_order l.planned
  cases hg : l.plan.group with
  | none => simp [ParentLetter.required, parent, hg, hrec]
  | some g =>
    simp only [ParentLetter.required, parent, hg, hrec, mem_sortedDistinct, mem_map, mem_filter,
      Bool.or_eq_true, beq_iff_eq, contains_iff_mem, Option.some.injEq, forall_eq']
    constructor
    · rintro ⟨⟨r, k⟩, ⟨hmem, hk | hnow⟩, rfl⟩
      · obtain ⟨hlt, hr⟩ := mem_zipIdx' hmem
        obtain rfl : k = 0 := hk
        exact .inl hr
      · exact .inr ⟨(mem_zipIdx' hmem).2 ▸ getElem_mem _, hnow⟩
    · rintro (rfl | ⟨hr, hnow⟩)
      · exact ⟨(l.input.sender, 0), ⟨by simp [zipIdx_cons], .inl rfl⟩, rfl⟩
      · obtain ⟨k, hk, rfl⟩ := mem_iff_getElem.mp hr
        exact ⟨(_, k), ⟨mk_mem_zipIdx_iff_getElem?.mpr (getElem?_eq_getElem hk), .inr hnow⟩, rfl⟩

/-- Every letter of a thread replies in the part of it written before. -/
theorem LetterChain.repliesIn {t : List Letter} (hc : LetterChain t) {k : ℕ} (hk : k < t.length) :
    t[k].input.RepliesIn (t.take k) := by
  induction hc with
  | nil => exact absurd hk (Nat.not_lt_zero k)
  | @concat t l hc hl ih =>
    rw [length_append, length_singleton, Nat.lt_succ_iff] at hk
    rcases hk.lt_or_eq with hlt | rfl
    · rw [getElem_append_left hlt, take_append_of_le_length hlt.le]
      exact ih hlt
    · rw [getElem_concat_length rfl, take_left' rfl]
      exact hl

/-- A reply keeps its parents' readers. Each letter of a thread goes to distinct people, the writer first and the
rest ascending. It replies under letters before it, and of each of them it keeps the writer and every recipient,
except those of a group who have left it. Under a members-only parent it goes to the owner and members only, and
the group it names has everyone but the writer. Only an exact list is ever refused as narrower. -/
theorem plan_spec {t : List Letter} (hc : LetterChain t) :
    (∀ k (hk : k < t.length),
      (t[k].plan.recipients.Nodup ∧
        (∃ rest, t[k].plan.recipients = t[k].input.sender :: rest ∧ rest.Pairwise (· < ·)) ∧
        t[k].plan.recipients.length ≤ 16) ∧
      (∀ p ∈ t[k].input.parents, ∃ j, ∃ hj : j < k, t[j].parent = p ∧ ∀ r, r = t[j].input.sender ∨
        (r ∈ t[j].plan.recipients ∧
          ∀ g, t[j].plan.group = some g → r ∈ groupNow t[k].input.owner t[k].input.members g) →
        t[k].plan.Keeps t[k].input.keyless r) ∧
      (t[k].input.membersOnlyParent = true → ∀ r ∈ t[k].plan.recipients,
        r = t[k].input.owner ∨ ∃ m ∈ t[k].input.members, m.identity = r) ∧
      ∀ g, t[k].plan.group = some g → ∀ r ∈ t[k].plan.recipients, r ≠ t[k].input.sender →
        r ∈ groupNow t[k].input.owner t[k].input.members g) ∧
    ∀ i : LetterInput, i.exact = none → ∀ people, i.plan ≠ .error (.narrower people) := by
  refine ⟨fun k hk => ?_, fun i hexact people h => LetterInput.failsIn_plan hexact _ h people rfl⟩
  have hplan := t[k].planned
  obtain ⟨rest, hrec, hsorted, hnot, hlen⟩ := LetterInput.plan_order hplan
  refine ⟨⟨?_, ⟨rest, hrec, hsorted⟩, hlen⟩, fun p hp => ?_, fun hm r hr => LetterInput.plan_members hplan hm hr,
    fun g hg r hr hs => LetterInput.plan_group hplan hg hr hs⟩
  · rw [hrec]
    exact nodup_cons.mpr ⟨hnot, hsorted.imp ne_of_lt⟩
  · obtain ⟨l, hl, rfl⟩ := hc.repliesIn hk p hp
    obtain ⟨j, hj, rfl⟩ := mem_take_iff_getElem.mp hl
    refine ⟨j, by omega, rfl, fun r hr => ?_⟩
    exact LetterInput.plan_keeps hplan hp ((Letter.mem_required _).mpr hr)

/-- A letter to the maintainers. -/
def maintainersInput : LetterInput where
  owner := "own"
  sender := "amy"
  members := [⟨"bob", .maintainer⟩, ⟨"cat", .maintainer⟩]
  keyless := []
  request := some ⟨some .maintainers, []⟩
  parents := []
  membersOnlyParent := false

def maintainersLetter : Letter where
  input := maintainersInput
  plan := ⟨["amy", "bob", "cat", "own"], [], some .maintainers⟩
  planned := by decide

/-- A reply to it after a maintainer left and another lost the key. -/
def laterReply : Letter where
  input := {
    owner := "own"
    sender := "own"
    members := [⟨"bob", .maintainer⟩, ⟨"dan", .maintainer⟩]
    keyless := ["bob"]
    parents := [maintainersLetter.parent]
    membersOnlyParent := false }
  plan := ⟨["own", "amy", "dan"], ["bob"], none⟩
  planned := by decide

theorem laterReply_chain : LetterChain [maintainersLetter, laterReply] :=
  .concat (.concat .nil (fun _ hp => absurd hp not_mem_nil))
    fun _ hp => ⟨maintainersLetter, by simp, (mem_singleton.mp hp).symm⟩

theorem plan_spec_laterReply : LetterChain [maintainersLetter, laterReply] ∧
    ["own", "amy", "dan"].Nodup ∧ (["own", "amy", "dan"] : List String).length ≤ 16 :=
  ⟨laterReply_chain, ((plan_spec laterReply_chain).1 1 (by decide)).1.1,
    ((plan_spec laterReply_chain).1 1 (by decide)).1.2.2⟩

end DashForge
