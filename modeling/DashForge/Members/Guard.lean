import DashForge.Members.Plan
import DashForge.Private.BranchKey

/-!
# The publication guard

Before a push, the guard refuses a batch that would give sealed commits to people they are not for
(`members_git/guard.rs`). `S` is every oid known to be sealed: the ledger's commits, what the pusher can
decrypt and the sealed tips of the batch, each with one audience. A public update may add nothing `S`
reaches; a sealed update nothing that only audiences it is not within hold.

The object graph is a parameter, each of whose calls may fail.
-/

namespace DashForge.Members

/-! ### What the guard is given -/

inductive ObjectType where
  | commit
  | tree
  | blob
  | tag
deriving DecidableEq, Repr

/-- What a ref target peels to, with the tags on the way. -/
structure Peeled where
  tags : List String
  target : String
  kind : ObjectType
deriving DecidableEq, Repr

/-- A gitlink a commit introduces. -/
structure Gitlink where
  commit : String
  path : String
  target : String
deriving DecidableEq, Repr

/-- The object graph the guard asks. -/
structure ObjectGraph where
  /-- The commits reachable from the first tips and from none of the second. -/
  commits : List String → List String → Except PackError (Finset String)
  /-- The objects of every type, likewise. -/
  objects : List String → List String → Except PackError (Finset String)
  peel : String → Except PackError Peeled
  noteTargets : String → Except PackError (List String)
  gitlinks : List String → List String → Except PackError (List Gitlink)
  patchIds : List String → Except PackError (SortedMap String String)

/-- A narrower branch's audience: a group, or none, and people. -/
structure NarrowAudience where
  group : Option BranchKey.Group
  people : Finset String
deriving DecidableEq

abbrev NarrowAudiences := SortedMap String NarrowAudience

structure GuardInput where
  membersKey : Bool
  ledger : LedgerState
  decryptable : Option (List String)
  publicTips : List String
  batch : List BatchRef
  publishPrivate : Option String
  patchIds : Bool
  audiences : NarrowAudiences
  decryptableNarrower : List (String × String)

def groupRank : Option BranchKey.Group → ℕ
  | none => 0
  | some .maintainers => 1
  | some .writers => 2
  | some .members => 3

/-- The audience a token names, if it is known. -/
def audienceOf (audiences : NarrowAudiences) (t : String) : Option NarrowAudience :=
  if t = "members" then some ⟨some .members, ∅⟩ else audiences.lookup t

/-- Whether everyone `dst` is for may already read what `src` is for. -/
def within (dst src : String) (audiences : NarrowAudiences) : Bool :=
  if dst = src then true
  else
    match audienceOf audiences dst, audienceOf audiences src with
    | some d, some s => groupRank d.group ≤ groupRank s.group ∧ d.people ⊆ s.people
    | _, _ => false

/-! ### What the guard says -/

inductive Verdict where
  | pass
  | refuse
  | unavailable
deriving DecidableEq, Repr

inductive FindingKind where
  | commits
  | tag
  | object
  | note
  | replace
deriving DecidableEq, Repr

/-- The objects a ref would publish. -/
structure Finding where
  dst : String
  kind : FindingKind
  oids : List String
deriving DecidableEq, Repr

inductive Note where
  | noKeyEmptyLedger
deriving DecidableEq, Repr

/-- A gitlink naming a members-only commit that a public update adds. -/
structure GitlinkNote where
  dst : String
  commit : String
  path : String
  target : String
deriving DecidableEq, Repr

/-- A public commit with the changes of a members-only one. -/
structure Remade where
  dst : String
  commit : String
  like : String
deriving DecidableEq, Repr

structure Outcome where
  verdict : Verdict
  findings : List Finding
  notes : List Note
  published : List Finding
  gitlinks : List GitlinkNote
  remade : List Remade
deriving DecidableEq, Repr

/-! ### The sealed oids -/

/-- The token of an entry's audience. -/
def tokenOf (a : EntryAudience) : String := a.token.getD "members"

/-- Add an entry unless its key has one. -/
def orInsert (s : SortedMap String EntryAudience) (oid : String) (a : EntryAudience) :
    SortedMap String EntryAudience := if (s.lookup oid).isSome then s else s.insert oid a

/-- What each audience holds before the batch adds its tips. -/
def heldBefore (input : GuardInput) : SortedMap String EntryAudience :=
  let s := match input.ledger with
    | .present l => l.commits
    | _ => .empty
  let s := (input.decryptable.getD []).foldl (fun s oid => orInsert s oid .members) s
  input.decryptableNarrower.foldl (fun s e => recordIn s e.1 (.narrower e.2)) s

/-- The sealed tips of a batch; of two narrower audiences of one tip, the first counts. -/
def batchTips (batch : List BatchRef) : SortedMap String EntryAudience :=
  batch.foldl (fun tips u =>
    match u.new, u.audience.entry with
    | some t, some a => recordIn tips t a
    | _, _ => tips) .empty

/-- The oids known to be sealed, each with its audience. -/
def sealedOids (input : GuardInput) : SortedMap String EntryAudience :=
  (batchTips input.batch).entries.foldl (fun s e => orInsert s e.1 e.2) (heldBefore input)

/-- The oids by the token of their audience. -/
def byAudience (s : SortedMap String EntryAudience) : SortedMap String (List String) :=
  s.entries.foldl (fun m e => m.insert (tokenOf e.2) ((m.lookup (tokenOf e.2)).getD [] ++ [e.1])) .empty

/-- The oids whose audience has a property. -/
def oidsWhere (s : SortedMap String EntryAudience) (p : String → Bool) : List String :=
  ((byAudience s).entries.filter fun e => p e.1).flatMap Prod.snd

/-! ### One update -/

section Update

variable (g : ObjectGraph) (input : GuardInput)

/-- A finding, unless it names nothing. -/
def finding (dst : String) (kind : FindingKind) (oids : List String) : List Finding :=
  if oids = [] then [] else [⟨dst, kind, oids⟩]

/-- Whether an oid is among the objects of the sealed oids. -/
def isSealedObject (oid : String) : Except PackError Bool :=
  let all := (sealedOids input).keys
  if all = [] then return false
  else do
    let objects ← g.objects all input.publicTips
    return oid ∈ objects

/-- The commits of a set that another does not hold, unless there is nothing to ask. -/
def minusHeld (covered : List String) (cs : Finset String) : Except PackError (Finset String) :=
  if covered = [] then return cs
  else do
    let held ← g.commits covered input.publicTips
    return cs \ held

/-- What a sealed update adds that only audiences it is not within hold. -/
def sealedFindings (u : BatchRef) (t : String) : Except PackError (List Finding) :=
  let dst := u.audience.asStr
  let wider := oidsWhere (sealedOids input) fun a => !within dst a input.audiences
  if wider = [] then return []
  else do
    let adds ← g.commits [t] input.publicTips
    let onlyWider ← g.commits wider input.publicTips
    let covered := oidsWhere (heldBefore input) fun a => within dst a input.audiences
    let onlyWider ← minusHeld g input covered onlyWider
    return finding u.dst .commits ((adds ∩ onlyWider).sort (· ≤ ·))

/-- A public update of a commit: what it adds, and what of it no sealed oid reaches. -/
structure PublicCommit where
  dst : String
  target : String
  adds : Finset String
  publicOnly : Finset String

/-- The findings of the commits a public update adds. -/
def commitFindings (u : BatchRef) (target : String) : Except PackError (List Finding × List PublicCommit) := do
  let adds ← g.commits [target] input.publicTips
  let publicOnly ← g.commits [target] (input.publicTips ++ (sealedOids input).keys)
  return (finding u.dst .commits ((adds \ publicOnly).sort (· ≤ ·)), [⟨u.dst, target, adds, publicOnly⟩])

/-- The findings about what a public update's target is. -/
def targetFindings (u : BatchRef) (peeled : Peeled) : Except PackError (List Finding × List PublicCommit) :=
  if peeled.kind = .commit then
    if (sealedOids input).keys = [] then return ([], []) else commitFindings g input u peeled.target
  else do
    let hit ← isSealedObject g input peeled.target
    return (if hit then [⟨u.dst, .object, [peeled.target]⟩] else [], [])

/-- The tags of a chain that are sealed objects, each a finding. -/
def tagFindings (u : BatchRef) (tags : List String) : Except PackError (List Finding) := do
  let hits ← tags.filterM (isSealedObject g input)
  return hits.map fun tag => ⟨u.dst, .tag, [tag]⟩

/-- A notes ref that names sealed objects. -/
def noteFindings (u : BatchRef) (peeled : Peeled) : Except PackError (List Finding) :=
  if "refs/notes/".toList.isPrefixOf u.dst.toList ∧ peeled.kind = .commit then do
    let targets ← g.noteTargets peeled.target
    let named ← targets.filterM (isSealedObject g input)
    return finding u.dst .note (sortedDistinct named)
  else return []

/-- A replace ref of a sealed object. -/
def replaceFindings (u : BatchRef) : Except PackError (List Finding) :=
  if "refs/replace/".toList.isPrefixOf u.dst.toList then do
    let x := String.ofList (u.dst.toList.drop "refs/replace/".length)
    let hit ← isSealedObject g input x
    return if hit then [⟨u.dst, .replace, [x]⟩] else []
  else return []

def publicFindings (u : BatchRef) (t : String) : Except PackError (List Finding × List PublicCommit) := do
  let peeled ← g.peel t
  let tags ← tagFindings g input u peeled.tags
  let (target, commits) ← targetFindings g input u peeled
  let notes ← noteFindings g input u peeled
  let replaced ← replaceFindings g input u
  return (tags ++ target ++ notes ++ replaced, commits)

/-- The findings of an update, with its tip. -/
def examine (u : BatchRef) : Except PackError (Option String × List Finding × List PublicCommit) :=
  match u.new with
  | none => return (none, [], [])
  | some t =>
    if u.audience.isSealed then do
      let found ← sealedFindings g input u t
      return (some t, found, [])
    else do
      let (found, commits) ← publicFindings g input u t
      return (some t, found, commits)

end Update

/-! ### The batch -/

/-- The gitlinks to members-only commits that each public update adds. -/
def gitlinkNotes (links : List Gitlink) (publicCommits : List PublicCommit) : List GitlinkNote :=
  publicCommits.flatMap fun c => (links.filter fun l => l.commit ∈ c.adds).map fun l =>
    ⟨c.dst, l.commit, l.path, l.target⟩

/-- The order of gitlinks. -/
def Gitlink.order (l : Gitlink) : String ×ₗ String ×ₗ String := toLex (l.commit, toLex (l.path, l.target))

/-- The public commits with the patch id of a members-only one. -/
def remadeOf (g : ObjectGraph) (membersOnly : Finset String) (publicCommits : List PublicCommit) :
    Except PackError (List Remade) := do
  let fresh := sortedDistinct (publicCommits.flatMap fun c => c.publicOnly.sort (· ≤ ·))
  if fresh = [] then return []
  else do
    let ours ← g.patchIds (membersOnly.sort (· ≤ ·))
    let byPatch := ours.entries.map fun e => (e.2, e.1)
    let theirs ← g.patchIds fresh
    return publicCommits.flatMap fun c => (c.publicOnly.sort (· ≤ ·)).filterMap fun x =>
      ((theirs.lookup x).bind fun pid => byPatch.lookup pid).map fun like => ⟨c.dst, x, like⟩

/-- The notes about the public updates of a batch. -/
def notesOver (g : ObjectGraph) (input : GuardInput) (publicCommits : List PublicCommit) :
    Except PackError (List GitlinkNote × List Remade) :=
  let all := (sealedOids input).keys
  if publicCommits.isEmpty ∨ all = [] then return ([], [])
  else do
    let membersOnly ← g.commits all input.publicTips
    if membersOnly = ∅ then return ([], [])
    else do
      let links ← g.gitlinks (publicCommits.map PublicCommit.target) input.publicTips
      let links := sortByKey Gitlink.order (links.filter fun l => l.target ∈ membersOnly)
      let remade ← if input.patchIds then remadeOf g membersOnly publicCommits else pure []
      return (gitlinkNotes links publicCommits, remade)

/-- Whether a finding is one `publishPrivate` lets through. -/
def isPublished (input : GuardInput) (r : Option String × List Finding × List PublicCommit) : Bool :=
  r.2.1 ≠ [] ∧ r.1.isSome ∧ input.publishPrivate = r.1

def ledgerIsEmpty : LedgerState → Bool
  | .present l => l.isEmpty
  | _ => false

/-- Whether the guard cannot run. -/
def isUnavailable (input : GuardInput) : Bool :=
  input.ledger = .unknown ∨ input.membersKey ∧ input.decryptable = none ∧ input.ledger = .absent

/-- Run the guard over a batch. -/
def guard (g : ObjectGraph) (input : GuardInput) : Except PackError Outcome :=
  if isUnavailable input then return ⟨.unavailable, [], [], [], [], []⟩
  else
    let notes := if input.decryptable = none ∧ ledgerIsEmpty input.ledger then [.noKeyEmptyLedger] else []
    if (sealedOids input).keys = [] then return ⟨.pass, [], notes, [], [], []⟩
    else do
      let rows ← input.batch.mapM (examine g input)
      let findings := (rows.filter fun r => !isPublished input r).flatMap fun r => r.2.1
      let published := (rows.filter fun r => isPublished input r).flatMap fun r => r.2.1
      let (gitlinks, remade) ← notesOver g input (rows.flatMap fun r => r.2.2)
      return ⟨if findings = [] then .pass else .refuse, findings, notes, published, gitlinks, remade⟩

end DashForge.Members
