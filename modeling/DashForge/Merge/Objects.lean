import DashForge.Merge.GitObjects

/-!
# The objects a merge pushes

What is reachable from the new tip and not in the base repository (`lib/merge/objects.ts`): `newCommits` walks the
commits newest first and paints what the base repository has, and `objectsToPack` compares the tree of each new commit
with those of its parents, path by path.
-/

namespace DashForge.Git

/-- Commits a walk may read. -/
def walkCommitCap : ℕ := 5000

/-- Tree visits the pack walk may make. -/
def treeVisitCap : ℕ := 100000

/-! ### Commits -/

structure CommitWalk where
  info : List (String × CommitInfo) := []
  uninteresting : List String := []
  queued : List String := []
  queue : List (String × ℕ) := []
  out : List String := []

section NewCommits

variable (reader : ObjectReader) (cap : ℕ)

def isA (oid : String) (actual : GitObjType) (expected : String) : GitError :=
  .wrongType (shortOid oid ++ " is a " ++ actual.headerKeyword ++ ", not a " ++ expected)

def CommitWalk.load (w : CommitWalk) (oid : String) : Except GitError (CommitWalk × CommitInfo) :=
  match w.info.lookup oid with
  | some known => .ok (w, known)
  | none => do
    refuseIf (cap ≤ w.info.length) (.walkLimit cap "commit")
    let obj ← reader oid
    refuseIf (obj.type ≠ .commit) (isA oid obj.type "commit")
    let value := parseCommit obj.bytes
    .ok ({ w with info := w.info ++ [(oid, value)] }, value)

def CommitWalk.enqueue (w : CommitWalk) (oid : String) : Except GitError CommitWalk :=
  if oid ∈ w.queued then .ok w
  else do
    let (w, c) ← CommitWalk.load reader cap { w with queued := w.queued ++ [oid] } oid
    .ok { w with queue := w.queue ++ [(oid, c.when)] }

/-- Queue a commit, painted or not. -/
def CommitWalk.paint (bad : Bool) (w : CommitWalk) (oid : String) : Except GitError CommitWalk :=
  CommitWalk.enqueue reader cap (if bad then { w with uninteresting := oid :: w.uninteresting } else w) oid

/-- The first of the newest commits of a queue. -/
def bestIndex (queue : List (String × ℕ)) : ℕ :=
  let when i := (queue[i]?.map Prod.snd).getD 0
  (List.range queue.length).foldl (fun best i => if when best < when i then i else best) 0

/-- Take the newest commit of the queue. -/
def CommitWalk.takeBest (w : CommitWalk) : Except GitError CommitWalk :=
  match w.queue[bestIndex w.queue]? with
  | none => .ok w
  | some (oid, _) => do
    let (w, c) ← CommitWalk.load reader cap { w with queue := w.queue.eraseIdx (bestIndex w.queue) } oid
    let bad := decide (oid ∈ w.uninteresting)
    let w := if bad then w else { w with out := w.out ++ [oid] }
    c.parents.foldlM (CommitWalk.paint reader cap bad) w

/-- Rounds until only painted commits are queued. Each takes a commit that was read, so there are as many as may be
read at most. -/
def CommitWalk.rounds : ℕ → CommitWalk → Except GitError CommitWalk
  | 0, w => .ok w
  | n + 1, w =>
    if ∃ q ∈ w.queue, q.1 ∉ w.uninteresting then (CommitWalk.takeBest reader cap w).bind
      (CommitWalk.rounds n) else .ok w

def walkCommits (tip : String) (have_ : List String) : Except GitError CommitWalk := do
  let w ← (have_.filter (· ≠ "")).foldlM (CommitWalk.paint reader cap true) {}
  let w ← CommitWalk.enqueue reader cap w tip
  CommitWalk.rounds reader cap cap w

/-- The commits reachable from `tip` and from none of `have_`. One that was painted after it was taken is left out. -/
def newCommits (tip : String) (have_ : List String) : Except GitError (List String) :=
  (walkCommits reader cap tip have_).map fun w => w.out.filter (· ∉ w.uninteresting)

end NewCommits

/-! ### Trees and blobs -/

section ObjectsToPack

variable (reader : ObjectReader) (visitCap : ℕ)

def readTreeEntries (oid : String) : Except GitError (List TreeEntry) := do
  let obj ← reader oid
  refuseIf (obj.type ≠ .tree) (isA oid obj.type "tree")
  checkTree oid obj.bytes
  .ok (parseTree obj.bytes)

/-- A visit of a tree: its id, the levels below it that may still be walked, and what it is compared with. -/
structure Visit where
  oid : String
  levels : ℕ
  parents : List String
deriving DecidableEq

structure PackWalk where
  taken : List String := []
  out : List GitObject := []
  walked : List Visit := []

/-- A tree that is taken is checked. -/
def checkTaken (oid : String) (obj : GitObject) : Except GitError Unit :=
  if obj.type = .tree then checkTree oid obj.bytes else .ok ()

def PackWalk.take (s : PackWalk) (oid : String) : Except GitError (PackWalk × Option GitObject) :=
  if oid ∈ s.taken then .ok (s, none)
  else do
    let obj ← reader oid
    checkTaken oid obj
    .ok ({ s with taken := s.taken ++ [oid], out := s.out ++ [obj] }, some obj)

/-- The entries of a name in the trees that one is compared with. -/
def sameName (parentEntries : List (List TreeEntry)) (name : String) : List TreeEntry :=
  parentEntries.filterMap fun entries => entries.find? fun x => x.name = name

/-- An entry of the tree `oid`; `walk` is how its subtrees are walked. -/
def walkEntry (walk : String → List String → PackWalk → Except GitError PackWalk) (oid : String)
    (parentEntries : List (List TreeEntry)) (s : PackWalk) (e : TreeEntry) : Except GitError PackWalk :=
  if e.mode = modeGitlink then .ok s
  else
    let same := sameName parentEntries e.name
    if same.any fun x => x.oid = e.oid && x.mode = e.mode && x.mode ≠ modeGitlink then .ok s
    else do
      refuseIf (specialFileName e.name ≠ none) (.unsupportedChange e.name)
      -- Whether it is a tree or a blob comes from the object itself, never only from the mode.
      let obj ← reader e.oid
      let want := if e.mode = modeTree then GitObjType.tree else .blob
      refuseIf (obj.type ≠ want) (.malformed oid ("entry \"" ++ e.name ++ "\" is a " ++ obj.type.headerKeyword ++
        " under mode " ++ String.ofList (Nat.toDigits 8 e.mode)))
      if obj.type = .tree then walk e.oid ((same.filter fun x => x.mode = modeTree).map TreeEntry.oid) s
      else
        let (s, _) ← s.take reader e.oid
        .ok s

/-- Walk a tree that may have `levels` more levels below the root of a commit's tree, against the trees at its path in
the commit's parents. An identical visit is not repeated. -/
def walkTree : ℕ → String → List String → PackWalk → Except GitError PackWalk
  | 0, oid, parents, s => if oid ∈ parents then .ok s else .error (treeTooDeep oid)
  | levels + 1, oid, parents, s =>
    let visit : Visit := { oid, levels, parents := parents.mergeSort }
    if oid ∈ parents then .ok s
    else if visit ∈ s.walked then .ok s
    else do
      refuseIf (visitCap ≤ s.walked.length) (.walkLimit visitCap "tree visit")
      let (s, _) ← { s with walked := s.walked ++ [visit] }.take reader oid
      let entries ← readTreeEntries reader oid
      let parentEntries ← parents.mapM (readTreeEntries reader)
      entries.foldlM (walkEntry reader (walkTree levels) oid parentEntries) s

/-- A commit, and what its tree has that no parent's does. -/
def packCommit (s : PackWalk) (c : String) : Except GitError PackWalk := do
  let (s, obj?) ← s.take reader c
  match obj? with
  | none => .ok s
  | some obj => do
    refuseIf (obj.type ≠ .commit) (isA c obj.type "commit")
    checkCommit c obj.bytes
    let commit := parseCommit obj.bytes
    let parentTrees ← commit.parents.mapM fun p => (reader p).map fun po => (parseCommit po.bytes).tree
    walkTree reader visitCap (maxTreeDepth + 1) commit.tree parentTrees s

/-- Every object that a pack must carry for the commits. -/
def objectsToPack (commits : List String) : Except GitError (List GitObject) :=
  (commits.foldlM (packCommit reader visitCap) {}).map PackWalk.out

end ObjectsToPack

/-! ### Histories -/

section Histories

variable (reader : ObjectReader)

/-- `p` is a parent of the commit `c`. -/
def Parent (c p : String) : Prop :=
  ∃ obj, reader c = .ok obj ∧ obj.type = .commit ∧ p ∈ (parseCommit obj.bytes).parents

/-- The commits of a history. -/
def Reaches : String → String → Prop := Relation.ReflTransGen (Parent reader)

/-- What an object names: the parents and the tree of a commit, the entries of a tree that are no gitlinks. -/
def Child (x y : String) : Prop :=
  Parent reader x y ∨
  (∃ obj, reader x = .ok obj ∧ obj.type = .commit ∧ y = (parseCommit obj.bytes).tree) ∨
  ∃ obj, reader x = .ok obj ∧ obj.type = .tree ∧ ∃ e ∈ parseTree obj.bytes, e.mode ≠ modeGitlink ∧ y = e.oid

def Holds : String → String → Prop := Relation.ReflTransGen (Child reader)

/-- The entries of a tree, none where it cannot be read. -/
def entriesOf (oid : String) : List TreeEntry :=
  match reader oid with
  | .ok obj => if obj.type = .tree then parseTree obj.bytes else []
  | .error _ => []

/-- A tree that can be read and passes the checks. -/
def Checked (oid : String) : Prop := ∃ obj, reader oid = .ok obj ∧ obj.type = .tree ∧ checkTree oid obj.bytes = .ok ()

/-- The entry at a path. -/
def entryAt : String → List String → Option TreeEntry
  | _, [] => none
  | root, [name] => (entriesOf reader root).find? fun x => x.name = name
  | root, name :: rest =>
    ((entriesOf reader root).find? fun x => x.name = name).bind fun x =>
        if x.mode = modeTree then entryAt x.oid rest else none

/-- The tree of a commit. -/
def treeOf (c : String) : String :=
  match reader c with
  | .ok obj => (parseCommit obj.bytes).tree
  | .error _ => ""

end Histories

end DashForge.Git
