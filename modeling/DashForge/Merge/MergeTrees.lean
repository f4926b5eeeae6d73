import DashForge.Merge.Merge3
import DashForge.Merge.Objects
import DashForge.Merge.TreeBytes

/-!
# The tree a three-way merge makes

Three trees walked name by name (`mergeTrees` of `lib/merge/engine.ts`): what one side left as it was the other side has
its way with, directories that both sides changed merge one level down, and a file that both changed is merged by its
mode and its lines. Anything else is a conflict at its path.
-/

namespace DashForge.Git

open Merge (XdChange merge3 merge3MaxBytes)

/-- What a name in a tree is. -/
structure Entry where
  mode : ℕ
  oid : String
deriving DecidableEq, Repr

/-- What a merge works with. -/
structure MergeEnv where
  reader : ObjectReader
  sha1 : List UInt8 → List UInt8
  diffChanges : List String → List String → Except String (List XdChange)

/-- The id git gives an object. -/
def gitOidHex (sha1 : List UInt8 → List UInt8) (obj : GitObject) : String :=
  hexEncode (sha1 (utf8 (obj.type.headerKeyword ++ " " ++ toString obj.bytes.length ++ "\x00") ++ obj.bytes))

/-- The only entries whose contents merge. -/
def isRegular (e : Entry) : Bool := e.mode = modeFile || e.mode = modeExecutable

def isTree (e : Entry) : Bool := e.mode = modeTree

/-- A name's entry in a `Map`: the last one, at the first one's place. -/
def setEntry (m : List (String × Entry)) (e : TreeEntry) : List (String × Entry) :=
  if e.name ∈ m.map Prod.fst then m.map fun x => if x.1 = e.name then (x.1, { mode := e.mode, oid := e.oid }) else x
  else m ++ [(e.name, { mode := e.mode, oid := e.oid })]

/-- What became of a directory. -/
inductive Walked where
  | tree (oid : String)
  /-- Nothing is left in it. -/
  | empty
  | conflict
deriving DecidableEq, Repr

structure WalkOut where
  result : Walked
  conflicts : List String := []
  written : List GitObject := []
deriving DecidableEq

/-- What became of a name: its entry, if any, or a conflict. -/
structure Picked where
  pick : Option (Option Entry)
  conflicts : List String := []
  written : List GitObject := []

inductive MergeTreesResult where
  | merged (oid : String) (written : List GitObject)
  | conflict (paths : List String)
deriving DecidableEq

section MergeTrees

variable (env : MergeEnv)

def entries : Option String → Except GitError (List (String × Entry))
  | none => .ok []
  | some oid => do
    let obj ← env.reader oid
    refuseIf (obj.type ≠ .tree) (.malformed oid ("a " ++ obj.type.headerKeyword ++ " where a tree was expected"))
    .ok ((parseTree obj.bytes).foldl setEntry [])

/-- A file's bytes, or none of one that is too large. -/
def blob (oid : String) : Except GitError (Option (List UInt8)) := do
  let obj ← env.reader oid
  if merge3MaxBytes < obj.bytes.length then .ok none
  else if obj.type ≠ .blob then
    .error (.malformed oid ("a " ++ obj.type.headerKeyword ++ " where a file was expected"))
  else .ok (some obj.bytes)

/-- The merge of the lines of three files, if they merge. -/
def mergeLines (bb oo tt : String) : Except GitError (Option (List UInt8)) := do
  let b? ← blob env bb
  let o? ← blob env oo
  let t? ← blob env tt
  match b?, o?, t? with
  | some b, some o, some t =>
    match merge3 env.diffChanges b o t with
    | .clean bytes => .ok (some bytes)
    | _ => .ok none
  | _, _, _ => .ok none

/-- A file in all three that both sides changed: its entry and what was written for it, or none for a conflict. -/
def mergeFile (bb oo tt : Entry) (attributes : Bool) : Except GitError (Option (Entry × List GitObject)) :=
  -- The same change on both sides.
  if oo = tt then .ok (some (oo, []))
  else if !isRegular bb || !isRegular oo || !isRegular tt then .ok none
  else
    let mode := if oo.mode = tt.mode ∨ oo.mode = bb.mode then tt.mode else oo.mode
    if oo.oid = tt.oid ∨ oo.oid = bb.oid then .ok (some ({ mode, oid := tt.oid }, []))
    else if tt.oid = bb.oid then .ok (some ({ mode, oid := oo.oid }, []))
    else if attributes then .ok none
    else (mergeLines env bb.oid oo.oid tt.oid).map <| Option.map fun bytes =>
      ({ mode, oid := gitOidHex env.sha1 ⟨.blob, bytes⟩ }, [⟨.blob, bytes⟩])

/-- A name in three directories; `walk` is how directories below are walked. -/
def mergeName (walk : Option String → String → String → String → Bool → Except GitError WalkOut)
    (be oe te : List (String × Entry)) (above : String) (attributes : Bool) (name : String) : Except GitError Picked :=
  let bb := be.lookup name
  let oo := oe.lookup name
  let tt := te.lookup name
  let path := above ++ name
  if oo = bb then .ok { pick := some tt }
  else if tt = bb then .ok { pick := some oo }
  else
    match oo, tt with
    | some o, some t =>
      if isTree o && isTree t && bb.all isTree then do
        let sub ← walk (bb.map Entry.oid) o.oid t.oid (path ++ "/") attributes
        match sub.result with
        | .conflict => .ok { pick := none, conflicts := sub.conflicts, written := sub.written }
        -- Emptied by the deletions of both sides together.
        | .empty => .ok { pick := some none, conflicts := sub.conflicts, written := sub.written }
        | .tree oid =>
          .ok { pick := some (some { mode := modeTree, oid }), conflicts := sub.conflicts, written := sub.written }
      else
        match bb with
        | some b =>
          if isTree b || isTree o || isTree t then .ok { pick := none, conflicts := [path] }
          else do
            match ← mergeFile env b o t attributes with
            | some (file, written) => .ok { pick := some (some file), written }
            | none => .ok { pick := none, conflicts := [path] }
        | none => .ok { pick := none, conflicts := [path] }
    | _, _ => .ok { pick := none, conflicts := [path] }

/-- The path that a conflict of a whole directory is at. -/
def conflictPath (above : String) : String := if above = "" then "/" else String.ofList above.toList.dropLast

/-- The entries that the names of a directory are merged to. -/
def pickedEntries (picks : List (String × Picked)) : List TreeEntry :=
  picks.filterMap fun p => p.2.pick.join.map fun e => TreeEntry.mk e.mode p.1 e.oid

/-- What a directory's names come to. -/
def finishWalk (picks : List (String × Picked)) : Except GitError WalkOut :=
  let conflicts := picks.flatMap fun p => p.2.conflicts
  let written := picks.flatMap fun p => p.2.written
  if picks.any fun p => p.2.pick.isNone then .ok { result := .conflict, conflicts, written }
  else
    let out := pickedEntries picks
    if out = [] then .ok { result := .empty, conflicts, written }
    else do
      let bytes ← okOr (serializeTree out) (.wrongType "hex string expected")
      let oid := gitOidHex env.sha1 ⟨.tree, bytes⟩
      -- What is written is held to the same checks as what is read.
      checkTree oid bytes
      .ok { result := .tree oid, conflicts, written := written ++ [⟨.tree, bytes⟩] }

/-- The names of three directories, each where it comes first. -/
def namesOf (be oe te : List (String × Entry)) : List String :=
  (be.map Prod.fst ++ oe.map Prod.fst ++ te.map Prod.fst).reverse.dedup.reverse

/-- A git attributes file is in one of the directories. -/
def hasAttributes (be oe te : List (String × Entry)) : Bool :=
  (be ++ oe ++ te).any fun x => specialFileName x.1 = some .gitattributes

/-- Merge three directories that may have `levels` levels, themselves one. -/
def mergeWalk : ℕ → Option String → String → String → String → Bool → Except GitError WalkOut
  | levels, b, o, t, above, attributesAbove =>
    if b = some o then .ok { result := .tree t }
    else if b = some t then .ok { result := .tree o }
    -- Two directories changed into the same tree: there may be renames below them.
    else if o = t then .ok { result := .conflict, conflicts := [conflictPath above] }
    else
      match levels with
      | 0 => .error (treeTooDeep o)
      | levels + 1 => do
        let be ← entries env b
        let oe ← entries env (some o)
        let te ← entries env (some t)
        if oe = [] ∨ te = [] then .ok { result := .conflict, conflicts := [conflictPath above] }
        else do
          let attributes := attributesAbove || hasAttributes be oe te
          let picks ← (namesOf be oe te).mapM fun name =>
            (mergeName env (mergeWalk levels) be oe te above attributes name).map fun p => (name, p)
          finishWalk env picks

/-- The tree that the merge of `ours` and `theirs` from `base` makes, and what it wrote, or where it conflicts. -/
def mergeTrees (base ours theirs : String) : Except GitError MergeTreesResult := do
  let out ← mergeWalk env (maxTreeDepth + 1) (some base) ours theirs "" false
  match out.result with
  | .conflict => .ok (.conflict out.conflicts)
  | .empty => .ok (.merged (gitOidHex env.sha1 ⟨.tree, []⟩) [⟨.tree, []⟩])
  | .tree oid => .ok (.merged oid out.written)

end MergeTrees

end DashForge.Git
