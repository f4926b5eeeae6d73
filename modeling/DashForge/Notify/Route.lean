import DashForge.Data.SortedMap
import Mathlib.Data.Prod.Lex
import Mathlib.Data.String.Basic
import Mathlib.Order.Bounds.Basic

/-!
# From the relay's events to the subscribers who want them

What the router makes of one event (`services/forge-notify`, `route.rs`): the people it finds, each with the
strongest reason it found them for (`found`), and the notices it hands to the dispatcher (`route`). Preferences
are asked once a person, of that one reason.

`Applies` is every reason an event gives a person. Where someone turned the strongest of theirs off and wants
another, the router is silent (`HeldBack`).
-/

namespace DashForge.Route

open List SortedMap

/-- Why a notice reached someone, strongest first. -/
inductive Reason where
  | reviewRequested
  | assigned
  | mentioned
  | participating
  | release
  | watching
  | privateActivity
deriving DecidableEq, Repr

/-- The position of a reason, strongest first. -/
def Reason.ordinal : Reason → ℕ
  | .reviewRequested => 0
  | .assigned => 1
  | .mentioned => 2
  | .participating => 3
  | .release => 4
  | .watching => 5
  | .privateActivity => 6

theorem Reason.ordinal_injective : Function.Injective Reason.ordinal := by
  intro a b h
  cases a <;> cases b <;> first | rfl | cases h

instance : LinearOrder Reason := LinearOrder.lift' Reason.ordinal Reason.ordinal_injective

/-- Why an identity follows a repository. -/
inductive FollowReason where
  | watch
  | member
deriving DecidableEq, Repr

/-- What a subscriber wants to hear of. -/
structure Prefs where
  participating : Bool := true
  reviewRequested : Bool := true
  assigned : Bool := true
  mentioned : Bool := true
  watching : Bool := true
  ownRepos : Bool := true
  releases : Bool := true
  privateActivity : Bool := false
deriving DecidableEq, Repr

/-- Whether preferences let a notice through, given how their owner follows the repository. -/
def wants (p : Prefs) (reason : Reason) (follow : Option FollowReason) : Bool :=
  match reason with
  | .reviewRequested => p.reviewRequested
  | .assigned => p.assigned
  | .mentioned => p.mentioned
  | .participating => p.participating
  | .release => p.releases && (follow != some .member || p.ownRepos)
  | .watching => p.watching && (follow != some .member || p.ownRepos)
  | .privateActivity => p.privateActivity

/-- Whether an event is worth a watcher's or participant's attention. -/
def isActivity (event action : String) : Bool :=
  if event = "issues" then action ∈ ["opened", "closed", "reopened"]
  else if event = "pull_request" then action ∈ ["opened", "closed", "reopened", "ready_for_review"]
  else if event = "issue_comment" then action = "created"
  else if event = "pull_request_review" then action = "submitted"
  else false

/-- The texts and people the router reads of an event's payload, empty where the path is missing. -/
structure Payload where
  issueBody : String := ""
  issueUser : String := ""
  pullRequestBody : String := ""
  pullRequestUser : String := ""
  commentBody : String := ""
  commentUser : String := ""
  reviewBody : String := ""
  reviewUser : String := ""
  /-- Whether it is marked as a post made public. -/
  madePublic : Bool := false
deriving DecidableEq

structure WebhookEvent where
  event : String
  action : Option String
  payload : Payload
deriving DecidableEq

/-- An event as it was rendered. -/
structure Notice where
  repo : String
  event : String
  action : String
  actor : String
  title : String
  excerpt : String
  url : String
  /-- Whether its thread is a PR, and the number. -/
  thread : Option (Bool × ℕ)
  id : String
deriving DecidableEq

/-- A notice for one subscriber. -/
structure OutNotice where
  id : String
  repoId : String
  repo : String
  title : String
  excerpt : String
  url : String
  tag : String
  reason : Reason
deriving DecidableEq

namespace WebhookEvent

variable (e : WebhookEvent)

/-- The full text an event carries, for mentions. -/
def bodyOf : String :=
  if e.event = "issues" ∧ e.action.getD "" = "opened" then e.payload.issueBody
  else if e.event = "pull_request" ∧ e.action.getD "" = "opened" then e.payload.pullRequestBody
  else if e.event = "issue_comment" then e.payload.commentBody
  else if e.event = "pull_request_review" then e.payload.reviewBody
  else ""

/-- Who wrote the post an event is about. -/
def postAuthor : String :=
  if e.event = "issue_comment" then e.payload.commentUser
  else if e.event = "pull_request_review" then e.payload.reviewUser
  else e.payload.issueUser

/-- Who opened the thread an event is about. -/
def threadAuthor : String := if e.payload.issueUser = "" then e.payload.pullRequestUser else e.payload.issueUser

end WebhookEvent

/-- The thread key. -/
def threadKey (n : Notice) : Option String :=
  n.thread.map fun t => (if t.1 then "pr" else "issue") ++ ":" ++ toString t.2

/-- The rows the router reads: preferences by identity, follows by identity and repository, and who took part in
which thread of which repository. -/
structure Store where
  subscriber : SortedMap String Prefs := .empty
  follow : SortedMap (String ×ₗ String) FollowReason := .empty
  participant : List (String × String × String) := []

namespace Store

variable (s : Store)

/-- Who follows a repository, and why. -/
def followers (repoId : String) : List (String × FollowReason) :=
  (s.follow.entries.filter fun x => (ofLex x.1).2 = repoId).map fun x => ((ofLex x.1).1, x.2)

/-- Note that a subscriber took part in a thread. -/
def addParticipant (repoId thread who : String) : Store :=
  if (s.subscriber.lookup who).isSome then
    { s with participant := (repoId, thread, who) :: s.participant.filter fun x => x ≠ (repoId, thread, who) }
  else s

/-- The subscribers who took part in a thread. -/
def participants (repoId thread : String) : List String :=
  (s.participant.filter fun x => x.1 = repoId ∧ x.2.1 = thread).map fun x => x.2.2

end Store

/-- Each person found, with a reason and how they follow the repository. -/
abbrev Found := SortedMap String (Reason × Option FollowReason)

/-- Add a person, or give one found already a stronger reason. -/
def Found.add (m : Found) (who : String) (reason : Reason) (follow : Option FollowReason) : Found :=
  let e := (m.lookup who).getD (reason, follow)
  m.insert who (if reason < e.1 then (reason, follow.or e.2) else e)

/-- Add people who share a reason. -/
def Found.addAll (m : Found) (people : List String) (reason : Reason) : Found :=
  people.foldl (fun m who => m.add who reason none) m

section Route

variable (s : Store) (mentioned : String → List String) (repoId : String) (e : WebhookEvent) (n : Notice)

/-- The store once the event's people took part in its thread. -/
def noted : Store :=
  match threadKey n with
  | none => s
  | some t => [n.actor, e.threadAuthor].foldl (fun s who =>
      if who ≠ "" ∧ isActivity n.event n.action then s.addParticipant repoId t who else s) s

def isRelease : Bool := n.event == "release" && n.action == "published"

/-- The reason a follow gives, if any. -/
def followReason : Option Reason :=
  if isRelease n then some .release else if isActivity n.event n.action then some .watching else none

/-- Who takes part in the event's thread, where it is activity. -/
def taking : List String :=
  match threadKey n with
  | none => []
  | some t => if isActivity n.event n.action then (noted s repoId e n).participants repoId t else []

/-- The author of a post made public. -/
def madePublicAuthor : List String :=
  if e.payload.madePublic ∧ e.postAuthor ≠ "" then [e.postAuthor] else []

/-- Who the event mentions; a post made public is no news to anyone it mentions. -/
def mentionedIn : List String :=
  let body := if e.payload.madePublic then "" else e.bodyOf
  if body ≠ "" then mentioned body else []

/-- Everyone the event reaches, with their strongest reason. -/
def found : Found :=
  let followed : Found := match followReason n with
    | none => .empty
    | some r => ((noted s repoId e n).followers repoId).foldl (fun m x => m.add x.1 r (some x.2)) .empty
  let joined := followed.addAll (taking s repoId e n) .participating
  let told := joined.addAll (madePublicAuthor e) .participating
  told.addAll (mentionedIn mentioned e) .mentioned

/-- The notice of one person. -/
def outNotice (reason : Reason) : OutNotice where
  id := n.id
  repoId := repoId
  repo := n.repo
  title := n.title
  excerpt := n.excerpt
  url := n.url
  tag := repoId ++ ":" ++ (threadKey n).getD n.event
  reason := reason

/-- What an event hands to the dispatcher, in order. -/
def route : List (String × OutNotice) :=
  (found s mentioned repoId e n).entries.filterMap fun x =>
    if x.1 = n.actor then none
    else (s.subscriber.lookup x.1).bind fun p =>
      if wants p x.2.1 x.2.2 then some (x.1, outNotice repoId n x.2.1) else none

end Route

/-! ### The strongest reason -/

/-- A person found, with a reason and how they follow the repository. -/
abbrev Finding := String × Reason × Option FollowReason

/-- Add findings one after another. -/
def Found.ofList (l : List Finding) : Found := l.foldl (fun m x => m.add x.1 x.2.1 x.2.2) .empty

/-- A finding whose reason is asked of the follow only where it has one. -/
def Asked (x : Finding) : Prop := x.2.2.isSome ∨ ∀ p f f', wants p x.2.1 f = wants p x.2.1 f'

/-- What the router keeps of the findings of one person: the strongest reason, asked as it was found. -/
structure IsStrongest (l : List Finding) (who : String) (x : Reason × Option FollowReason) : Prop where
  found : ∃ f, (who, x.1, f) ∈ l ∧ ∀ p, wants p x.1 x.2 = wants p x.1 f
  le : ∀ r f, (who, r, f) ∈ l → x.1 ≤ r

theorem lookup_add (m : Found) (who : String) (reason : Reason) (follow : Option FollowReason) (who' : String) :
    (m.add who reason follow).lookup who' = if who' = who then
      some (if reason < ((m.lookup who).getD (reason, follow)).1 then
        (reason, follow.or ((m.lookup who).getD (reason, follow)).2) else (m.lookup who).getD (reason, follow))
    else m.lookup who' := by
  rw [Found.add, lookup_insert]

theorem lookup_ofList {l : List Finding} (hl : ∀ x ∈ l, Asked x) (who : String) :
    ((Found.ofList l).lookup who = none ∧ ∀ r f, (who, r, f) ∉ l) ∨
      ∃ x, (Found.ofList l).lookup who = some x ∧ IsStrongest l who x := by
  induction l using List.reverseRecOn with
  | nil => exact .inl ⟨rfl, by simp⟩
  | append_singleton l c ih =>
    obtain ⟨who', reason, follow⟩ := c
    have hof : Found.ofList (l ++ [(who', reason, follow)]) = (Found.ofList l).add who' reason follow := by
      simp [Found.ofList]
    rw [hof, lookup_add]
    have ih := ih fun x hx => hl x (mem_append_left _ hx)
    by_cases hwho : who = who'
    · subst hwho
      rw [if_pos rfl]
      refine .inr ⟨_, rfl, ?_⟩
      rcases ih with ⟨hnone, hno⟩ | ⟨x, hx, hfound, hle⟩
      · rw [hnone, Option.getD_none, if_neg (lt_irrefl _)]
        refine ⟨⟨follow, by simp, fun _ => rfl⟩, fun r f hr => ?_⟩
        rcases mem_append.mp hr with hr | hr
        · exact absurd hr (hno r f)
        · simp only [mem_singleton, Prod.mk.injEq] at hr
          exact hr.2.1.ge
      · rw [hx, Option.getD_some]
        split_ifs with hlt
        · refine ⟨⟨follow, by simp, fun p => ?_⟩, fun r f hr => ?_⟩
          · rcases hl _ (mem_append_right l (mem_singleton_self _)) with hsome | hall
            · obtain ⟨f, rfl⟩ := Option.isSome_iff_exists.mp hsome
              rfl
            · exact hall p _ _
          · rcases mem_append.mp hr with hr | hr
            · exact hlt.le.trans (hle r f hr)
            · simp only [mem_singleton, Prod.mk.injEq] at hr
              exact hr.2.1.ge
        · obtain ⟨f, hf, hsame⟩ := hfound
          refine ⟨⟨f, mem_append_left _ hf, hsame⟩, fun r f hr => ?_⟩
          rcases mem_append.mp hr with hr | hr
          · exact hle r f hr
          · simp only [mem_singleton, Prod.mk.injEq] at hr
            exact hr.2.1 ▸ not_lt.mp hlt
    · rw [if_neg hwho]
      rcases ih with ⟨hnone, hno⟩ | ⟨x, hx, ⟨f, hf, hsame⟩, hle⟩
      · exact .inl ⟨hnone, fun r f hr => (mem_append.mp hr).elim (hno r f) (by simp [hwho])⟩
      · refine .inr ⟨x, hx, ⟨f, mem_append_left _ hf, hsame⟩, fun r f hr => ?_⟩
        exact (mem_append.mp hr).elim (hle r f) (by simp [hwho])

/-! ### The reasons of an event -/

section Reasons

variable {s : Store} {mentioned : String → List String} {repoId : String} {e : WebhookEvent} {n : Notice}

theorem noted_subscriber : (noted s repoId e n).subscriber = s.subscriber ∧ (noted s repoId e n).follow = s.follow := by
  have hadd : ∀ (s : Store) (t who : String), (s.addParticipant repoId t who).subscriber = s.subscriber ∧
      (s.addParticipant repoId t who).follow = s.follow := by
    intro s t who
    rw [Store.addParticipant]
    split_ifs <;> exact ⟨rfl, rfl⟩
  rw [noted]
  split
  · exact ⟨rfl, rfl⟩
  · next t _ =>
    simp only [foldl_cons, foldl_nil]
    split_ifs <;> simp [hadd]

theorem followers_noted : (noted s repoId e n).followers repoId = s.followers repoId := by
  rw [Store.followers, noted_subscriber.2, Store.followers]

variable {who : String} {r : Reason}

theorem followers_unique {f f' : FollowReason} (hf : (who, f) ∈ s.followers repoId)
    (hf' : (who, f') ∈ s.followers repoId) : f = f' := by
  simp only [Store.followers, mem_map, mem_filter, decide_eq_true_eq, Prod.mk.injEq] at hf hf'
  obtain ⟨x, ⟨hx, hrepo⟩, hwho, rfl⟩ := hf
  obtain ⟨y, ⟨hy, hrepo'⟩, hwho', rfl⟩ := hf'
  have hkey : x.1 = y.1 := by
    refine ofLex_inj.mp (Prod.ext (hwho.trans hwho'.symm) (hrepo.trans hrepo'.symm))
  exact congrArg Prod.snd (eq_of_mem_entries hx hy hkey)

variable (s mentioned repoId e n) in
/-- Whether an event is told to a person for a reason, given how they follow the repository. -/
def Applies (who : String) (r : Reason) (follow : Option FollowReason) : Prop :=
  (followReason n = some r ∧ ∃ f, (who, f) ∈ s.followers repoId ∧ follow = some f) ∨
    (r = .participating ∧ follow = none ∧ (who ∈ taking s repoId e n ∨ who ∈ madePublicAuthor e)) ∨
    (r = .mentioned ∧ follow = none ∧ who ∈ mentionedIn mentioned e)

variable (s repoId n) in
/-- The followers' findings. -/
def followed : List Finding :=
  match followReason n with
  | none => []
  | some r => (s.followers repoId).map fun x => (x.1, r, some x.2)

variable (s mentioned repoId e n) in
/-- The router's findings, in the order it makes them. -/
def findings : List Finding :=
  followed s repoId n ++ (taking s repoId e n).map (fun who => (who, .participating, none)) ++
    (madePublicAuthor e).map (fun who => (who, .participating, none)) ++
    (mentionedIn mentioned e).map fun who => (who, .mentioned, none)

variable {follow : Option FollowReason}

theorem mem_followed : (who, r, follow) ∈ followed s repoId n ↔
      followReason n = some r ∧ ∃ f, (who, f) ∈ s.followers repoId ∧ follow = some f := by
  rw [followed]
  cases followReason n with
  | none => simp
  | some r' =>
    simp only [mem_map, Prod.mk.injEq, Prod.exists, Option.some.injEq]
    constructor
    · rintro ⟨who, f, hf, rfl, rfl, rfl⟩
      exact ⟨rfl, f, hf, rfl⟩
    · rintro ⟨rfl, f, hf, rfl⟩
      exact ⟨who, f, hf, rfl, rfl, rfl⟩

theorem mem_findings :
    (who, r, follow) ∈ findings s mentioned repoId e n ↔ Applies s mentioned repoId e n who r follow := by
  simp only [findings, mem_append, mem_followed, mem_map, Prod.mk.injEq, Applies]
  constructor
  · rintro (((h | ⟨who, hw, rfl, rfl, rfl⟩) | ⟨who, hw, rfl, rfl, rfl⟩) | ⟨who, hw, rfl, rfl, rfl⟩)
    · exact .inl h
    · exact .inr (.inl ⟨rfl, rfl, .inl hw⟩)
    · exact .inr (.inl ⟨rfl, rfl, .inr hw⟩)
    · exact .inr (.inr ⟨rfl, rfl, hw⟩)
  · rintro (h | ⟨rfl, rfl, hw | hw⟩ | ⟨rfl, rfl, hw⟩)
    · exact .inl (.inl (.inl h))
    · exact .inl (.inl (.inr ⟨who, hw, rfl, rfl, rfl⟩))
    · exact .inl (.inr ⟨who, hw, rfl, rfl, rfl⟩)
    · exact .inr ⟨who, hw, rfl, rfl, rfl⟩

theorem found_eq : found s mentioned repoId e n = Found.ofList (findings s mentioned repoId e n) := by
  rw [found, followers_noted, Found.ofList, findings, followed]
  cases followReason n <;>
    simp only [Found.addAll, foldl_append, foldl_map, foldl_nil]

theorem asked_findings : ∀ x ∈ findings s mentioned repoId e n, Asked x := by
  rintro ⟨who, r, follow⟩ hx
  rcases mem_findings.mp hx with ⟨-, f, -, rfl⟩ | ⟨rfl, -, -⟩ | ⟨rfl, -, -⟩
  · exact .inl rfl
  · exact .inr fun _ _ _ => rfl
  · exact .inr fun _ _ _ => rfl

/-- Who is told, and of what reason. -/
theorem mem_route {out : OutNotice} : (who, out) ∈ route s mentioned repoId e n ↔
    who ≠ n.actor ∧ ∃ p, s.subscriber.lookup who = some p ∧ ∃ x, (found s mentioned repoId e n).lookup who = some x ∧
      wants p x.1 x.2 = true ∧ outNotice repoId n x.1 = out := by
  rw [route, mem_filterMap]
  constructor
  · rintro ⟨⟨who', r, f⟩, hmem, hout⟩
    split at hout
    · cases hout
    · next hactor =>
      obtain ⟨p, hp, hw⟩ := Option.bind_eq_some_iff.mp hout
      split at hw
      · next hwants =>
        obtain ⟨rfl, rfl⟩ := Prod.mk.inj (Option.some.inj hw)
        exact ⟨hactor, p, hp, (r, f), lookup_eq_some_iff.mpr hmem, hwants, rfl⟩
      · cases hw
  · rintro ⟨hactor, p, hp, ⟨r, f⟩, hx, hwants, rfl⟩
    exact ⟨(who, r, f), lookup_eq_some_iff.mp hx, by simp [hactor, hp, hwants]⟩

theorem followReason_eq (h : followReason n = some r) : r = .release ∨ r = .watching := by
  rw [followReason] at h
  split_ifs at h <;> simp_all

end Reasons

/-! ### Who is silenced -/

section Silenced

variable (s : Store) (mentioned : String → List String) (repoId : String) (e : WebhookEvent) (n : Notice)

/-- Every subscriber but the actor is told exactly when they want a reason that applies to them, and of the
strongest such reason. -/
def Exact : Prop :=
  ∀ who p, s.subscriber.lookup who = some p → who ≠ n.actor →
    ((∃ out, (who, out) ∈ route s mentioned repoId e n) ↔
      ∃ r follow, Applies s mentioned repoId e n who r follow ∧ wants p r follow = true) ∧
    ∀ out, (who, out) ∈ route s mentioned repoId e n →
      (∃ follow, Applies s mentioned repoId e n who out.reason follow ∧ wants p out.reason follow = true) ∧
      ∀ r follow, Applies s mentioned repoId e n who r follow → wants p r follow = true → out.reason ≤ r

/-- Whether the event is about a conversation of theirs. -/
def TakesPart (who : String) : Prop := who ∈ taking s repoId e n ∨ who ∈ madePublicAuthor e

/-- Whether they follow the repository and want to hear of the event for it. -/
def WantsFollowed (who : String) (p : Prefs) : Prop :=
  ∃ r, followReason n = some r ∧ ∃ f, (who, f) ∈ s.followers repoId ∧ wants p r (some f) = true

/-- Whether someone turned off the strongest reason an event gives them and wants a weaker one: mentions, but not
taking part or their follow, or taking part, but not their follow. -/
def HeldBack (who : String) (p : Prefs) : Prop :=
  (who ∈ mentionedIn mentioned e ∧ p.mentioned = false ∧
    (TakesPart s repoId e n who ∧ p.participating = true ∨ WantsFollowed s repoId n who p)) ∨
  (who ∉ mentionedIn mentioned e ∧ TakesPart s repoId e n who ∧ p.participating = false ∧
    WantsFollowed s repoId n who p)

variable {s mentioned repoId e n}

variable {who : String} {p : Prefs}

theorem HeldBack.applies (h : HeldBack s mentioned repoId e n who p) :
    ∃ r follow, Applies s mentioned repoId e n who r follow ∧ wants p r follow = true := by
  have hfollow : WantsFollowed s repoId n who p →
      ∃ r follow, Applies s mentioned repoId e n who r follow ∧ wants p r follow = true := by
    rintro ⟨r, hr, f, hf, hw⟩
    exact ⟨r, some f, .inl ⟨hr, f, hf, rfl⟩, hw⟩
  rcases h with ⟨-, -, ⟨htakes, hp⟩ | hw⟩ | ⟨-, -, -, hw⟩
  · exact ⟨.participating, none, .inr (.inl ⟨rfl, rfl, htakes⟩), hp⟩
  · exact hfollow hw
  · exact hfollow hw

variable {x : Reason × Option FollowReason}

/-- The strongest reason of someone held back is not wanted. -/
theorem HeldBack.not_wants (h : HeldBack s mentioned repoId e n who p)
    (hx : IsStrongest (findings s mentioned repoId e n) who x) :
    wants p x.1 x.2 = false := by
  obtain ⟨f, hfound, -⟩ := hx.found
  have happlies := mem_findings.mp hfound
  rcases h with ⟨hmention, hp, -⟩ | ⟨hmention, htakes, hp, -⟩
  · have hle := hx.le .mentioned none (mem_findings.mpr (.inr (.inr ⟨rfl, rfl, hmention⟩)))
    have heq : x.1 = .mentioned := by
      rcases happlies with ⟨hr, -⟩ | ⟨hr, -⟩ | ⟨hr, -⟩
      · rcases followReason_eq hr with hr | hr <;> rw [hr] at hle <;> exact absurd hle (by decide)
      · rw [hr] at hle
        exact absurd hle (by decide)
      · exact hr
    rw [heq]
    exact hp
  · have hle := hx.le .participating none (mem_findings.mpr (.inr (.inl ⟨rfl, rfl, htakes⟩)))
    have heq : x.1 = .participating := by
      rcases happlies with ⟨hr, -⟩ | ⟨hr, -⟩ | ⟨-, -, hr⟩
      · rcases followReason_eq hr with hr | hr <;> rw [hr] at hle <;> exact absurd hle (by decide)
      · exact hr
      · exact absurd hr hmention
    rw [heq]
    exact hp

/-- Where someone is not held back, their strongest reason is wanted as soon as one is. -/
theorem wants_strongest (h : ¬HeldBack s mentioned repoId e n who p)
    (hx : IsStrongest (findings s mentioned repoId e n) who x)
    {r : Reason} {follow : Option FollowReason} (hr : Applies s mentioned repoId e n who r follow)
    (hw : wants p r follow = true) : wants p x.1 x.2 = true := by
  obtain ⟨f, hfound, hsame⟩ := hx.found
  have hle := hx.le r follow (mem_findings.mpr hr)
  rw [hsame]
  rcases mem_findings.mp hfound with ⟨hfr, g, hg, rfl⟩ | ⟨hx1, rfl, htakes⟩ | ⟨hx1, rfl, hmention⟩
  · -- the follow is all there is
    rcases hr with ⟨hr, g', hg', rfl⟩ | ⟨rfl, -, -⟩ | ⟨rfl, -, -⟩
    · rwa [Option.some.inj (hfr.symm.trans hr), followers_unique hg hg']
    · rcases followReason_eq hfr with hx1 | hx1 <;> rw [hx1] at hle <;> exact absurd hle (by decide)
    · rcases followReason_eq hfr with hx1 | hx1 <;> rw [hx1] at hle <;> exact absurd hle (by decide)
  · rw [hx1] at hle ⊢
    by_contra hp
    have hp : p.participating = false := by simpa [wants] using hp
    have hnot : who ∉ mentionedIn mentioned e := fun hmention => by
      have := hx.le .mentioned none (mem_findings.mpr (.inr (.inr ⟨rfl, rfl, hmention⟩)))
      rw [hx1] at this
      exact absurd this (by decide)
    rcases hr with ⟨hr, g, hg, rfl⟩ | ⟨rfl, -, -⟩ | ⟨rfl, -, hmention⟩
    · exact h (.inr ⟨hnot, htakes, hp, r, hr, g, hg, hw⟩)
    · simp [wants, hp] at hw
    · exact hnot hmention
  · rw [hx1]
    by_contra hp
    have hp : p.mentioned = false := by simpa [wants] using hp
    rcases hr with ⟨hr, g, hg, rfl⟩ | ⟨rfl, -, htakes⟩ | ⟨rfl, -, -⟩
    · exact h (.inl ⟨hmention, hp, .inr ⟨r, hr, g, hg, hw⟩⟩)
    · exact h (.inl ⟨hmention, hp, .inl ⟨htakes, hw⟩⟩)
    · simp [wants, hp] at hw

/-- An event is told exactly as it is wanted if and only if it holds no subscriber but the actor back. -/
theorem route_exact_iff : Exact s mentioned repoId e n ↔
    ∀ who p, s.subscriber.lookup who = some p → who ≠ n.actor → ¬HeldBack s mentioned repoId e n who p := by
  have hstrongest : ∀ who x, (found s mentioned repoId e n).lookup who = some x →
      IsStrongest (findings s mentioned repoId e n) who x := by
    intro who x hx
    rw [found_eq] at hx
    rcases lookup_ofList asked_findings who with ⟨hnone, -⟩ | ⟨y, hy, hst⟩
    · rw [hnone] at hx
      cases hx
    · rwa [Option.some.inj (hx.symm.trans hy)]
  constructor
  · intro h who p hp hactor hheld
    obtain ⟨out, hout⟩ := (h who p hp hactor).1.mpr hheld.applies
    obtain ⟨-, p', hp', x, hx, hw, -⟩ := mem_route.mp hout
    obtain rfl := Option.some.inj (hp.symm.trans hp')
    rw [hheld.not_wants (hstrongest who x hx)] at hw
    cases hw
  · intro h who p hp hactor
    have hnot := h who p hp hactor
    refine ⟨⟨fun ⟨out, hout⟩ => ?_, fun ⟨r, follow, hr, hw⟩ => ?_⟩, fun out hout => ?_⟩
    · obtain ⟨-, p', hp', x, hx, hw, -⟩ := mem_route.mp hout
      obtain rfl := Option.some.inj (hp.symm.trans hp')
      obtain ⟨f, hf, hsame⟩ := (hstrongest who x hx).found
      exact ⟨x.1, f, mem_findings.mp hf, (hsame p).symm.trans hw⟩
    · have hasked : ∀ x ∈ findings s mentioned repoId e n, Asked x := asked_findings
      rcases lookup_ofList hasked who with ⟨-, hno⟩ | ⟨x, hx, hst⟩
      · exact absurd (mem_findings.mpr hr) (hno r follow)
      · rw [← found_eq] at hx
        exact ⟨_, mem_route.mpr ⟨hactor, p, hp, x, hx, wants_strongest hnot hst hr hw, rfl⟩⟩
    · obtain ⟨-, p', hp', x, hx, hw, rfl⟩ := mem_route.mp hout
      obtain rfl := Option.some.inj (hp.symm.trans hp')
      have hst := hstrongest who x hx
      obtain ⟨f, hf, hsame⟩ := hst.found
      exact ⟨⟨f, mem_findings.mp hf, (hsame p).symm.trans hw⟩, fun r follow hr _ =>
        hst.le r follow (mem_findings.mpr hr)⟩

end Silenced

/-- One subscriber, who watches the repository and has no use for mentions. -/
def watcherStore : Store where
  subscriber := empty.insert "amy" { mentioned := false }
  follow := empty.insert (toLex ("amy", "repo")) .watch

/-- Bob's comment on an issue. -/
def bobsComment (body : String) : WebhookEvent where
  event := "issue_comment"
  action := some "created"
  payload := { issueUser := "bob", commentBody := body, commentUser := "bob" }

def bobsNotice : Notice where
  repo := "own/repo"
  event := "issue_comment"
  action := "created"
  actor := "bob"
  title := "bob commented on issue #3"
  excerpt := ""
  url := ""
  thread := some (false, 3)
  id := "issue_comment:C1"

/-- Mentions of one name. -/
def mentionsAmy (body : String) : List String := if body = "cc @amy" then ["amy"] else []

/-- The mention takes the notice away that the watcher had without it. -/
theorem route_mention_silences :
    (route watcherStore mentionsAmy "repo" (bobsComment "done") bobsNotice).map Prod.fst = ["amy"] ∧
      (route watcherStore mentionsAmy "repo" (bobsComment "cc @amy") bobsNotice).map Prod.fst = [] ∧
      ¬Exact watcherStore mentionsAmy "repo" (bobsComment "cc @amy") bobsNotice := by
  refine ⟨by decide, by decide, fun h => ?_⟩
  obtain ⟨out, hout⟩ := (h "amy" { mentioned := false } (by decide) (by decide)).1.mpr
    ⟨.watching, some .watch, .inl ⟨by decide, .watch, by decide, rfl⟩, by decide⟩
  have hnil : route watcherStore mentionsAmy "repo" (bobsComment "cc @amy") bobsNotice = [] := by decide
  rw [hnil] at hout
  cases hout

end DashForge.Route
