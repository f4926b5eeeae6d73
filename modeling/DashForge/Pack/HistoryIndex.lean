import DashForge.Data.BigEndian
import DashForge.Data.Leb128
import DashForge.Data.SortBy
import DashForge.Data.SortedMap
import DashForge.Data.Utf8
import DashForge.Pack.Entry

/-!
# The history index

For one tip commit, each path's last change and its list of first-parent changes, with a table of the
commits they name (`pack/historyindex.rs`). This module has the index, its serialization (`body`) and
the reader of untrusted bytes (`parseBody`), and what is read off an index: `lastChange`, `column` and
`resolvedVersions`.

Reading is by `Parser`, over the bytes that are left; compression is a parameter. Where the source would
index out of range or run on, the model panics.
-/

namespace DashForge.History

def magic : Bytes := [0x44, 0x46, 0x48, 0x49]
/-- The layout without version lists. -/
def versionV1 : UInt8 := 1
/-- The layout with version lists. -/
def versionV2 : UInt8 := 2
def tagVersions : ℕ := 1
def maxVersionsPerPath : ℕ := 4096
def oidPrefixLen : ℕ := 6
def minOidPrefixLen : ℕ := 4
def maxRows : ℕ := 4000000
def maxInflated : ℕ := 64 * 1024 * 1024
def modeTree : ℕ := 0o40000
def modeGitlink : ℕ := 0o160000

/-- The bytes of blob oid a version of a mode stores: none for a directory or a gitlink. -/
def storedOidLen (mode oidLen : ℕ) : ℕ := if mode = modeTree ∨ mode = modeGitlink then 0 else oidLen

/-- A commit an index refers to. -/
structure IndexedCommit where
  oid : Bytes
  authorTime : ℕ
  subject : String
  /-- Carried by the version lists; empty in an index without them. -/
  author : String
deriving DecidableEq

/-- A path to an index into the commit table. -/
abbrev PathMap := SortedMap Bytes ℕ

/-- One change of a path. -/
structure PathVersion where
  commit : ℕ
  mode : ℕ
  oid : Bytes
deriving DecidableEq

/-- A path's newest changes, newest first; `complete` when nothing older changed it. -/
structure VersionList where
  versions : List PathVersion
  complete : Bool
deriving DecidableEq

abbrev VersionLists := SortedMap Bytes VersionList

structure Versions where
  limit : ℕ
  oidLen : ℕ
  lists : VersionLists
deriving DecidableEq

structure HistoryIndex where
  tip : Bytes
  base : Option Bytes
  commitCount : ℕ
  firstParentCount : ℕ
  rootTime : ℕ
  tipTime : ℕ
  commits : List IndexedCommit
  paths : PathMap
  versions : Option Versions
deriving DecidableEq

def bad (what : String) : PackError := .config ("history index: " ++ what)

/-! ### Reading off an index -/

namespace HistoryIndex

/-- The last change of a path. -/
def lastChange (ix : HistoryIndex) (path : Bytes) : Option IndexedCommit :=
  (ix.paths.lookup path).bind fun i => ix.commits[i]?

def version (ix : HistoryIndex) : UInt8 := if ix.versions.isSome then versionV2 else versionV1

/-- `u32::try_from(new).expect(..)`. -/
def expectU32 (n : ℕ) : Except (Fault Empty) ℕ := if n ≤ u32Max then .ok n else .error .panic

/-- The same index without version lists and authors, its table cut to the commits the paths name. -/
def column (ix : HistoryIndex) : Except (Fault Empty) HistoryIndex := do
  let keep := sortedDistinct (ix.paths.entries.map Prod.snd)
  let slots ← keep.zipIdx.mapM fun x => do
    let new ← expectU32 x.2
    return (x.1, new)
  let commits ← keep.mapM fun i => do
    let c ← orPanic ix.commits[i]?
    return { c with author := "" }
  if ∀ e ∈ ix.paths.entries, (slots.lookup e.2).isSome then
    return { ix with
      commits := commits
      paths := ix.paths.mapVals fun _ c => (slots.lookup c).getD 0
      versions := none }
  else .error .panic

end HistoryIndex

/-- A path's list with the oids of its commits. -/
structure ResolvedList where
  versions : List (Bytes × ℕ × Bytes)
  complete : Bool
deriving DecidableEq

/-- A list with the oids of its commits, all of which the table has. -/
def resolveList (commits : List IndexedCommit) (l : VersionList) : ResolvedList where
  versions := l.versions.map fun e => ((commits[e.commit]?.elim [] IndexedCommit.oid), e.mode, e.oid)
  complete := l.complete

/-- Every path's list with the oids of its commits; `none` without version lists. -/
def HistoryIndex.resolvedVersions (ix : HistoryIndex) :
    Except (Fault Empty) (Option (SortedMap Bytes ResolvedList)) :=
  match ix.versions with
  | none => .ok none
  | some v =>
    -- an index past the table is a panic
    if ∀ e ∈ v.lists.entries, ∀ x ∈ e.2.versions, x.commit < ix.commits.length then
      .ok (some (v.lists.mapVals fun _ l => resolveList ix.commits l))
    else .error .panic

/-! ### The writer -/

section Writer

open Leb128

/-- A length and the bytes. -/
def writeBlock (bs : Bytes) : Bytes := writeVarint bs.length ++ bs

def writeCommit (c : IndexedCommit) : Bytes :=
  c.oid ++ writeVarint c.authorTime ++ writeBlock (utf8 c.subject)

/-- How many bytes two paths share at their start. -/
def sharedLen (prev path : Bytes) : ℕ := ((prev.zip path).takeWhile fun x => x.1 = x.2).length

/-- The paths, each without what it shares with the one before. -/
def writePaths : Bytes → List (Bytes × ℕ) → Bytes
  | _, [] => []
  | prev, (path, commit) :: rest =>
    let shared := sharedLen prev path
    writeVarint shared ++ writeBlock (path.drop shared) ++ writeVarint commit ++ writePaths path rest

/-- Enter an author that is not in the table yet. -/
def addAuthor (st : List (String × ℕ) × List String) (c : IndexedCommit) : List (String × ℕ) × List String :=
  if (st.1.lookup c.author).isSome then st
  else ((c.author, st.2.length) :: st.1, st.2 ++ [c.author])

/-- The place of each author, and the distinct authors in the order of the table. -/
def authorTable (commits : List IndexedCommit) : List (String × ℕ) × List String :=
  commits.foldl addAuthor ([], [])

def writeVersion (oidLen : ℕ) (e : PathVersion) : Except (Fault PackError) Bytes :=
  if e.oid.length ≠ storedOidLen e.mode oidLen then
    .error (.err (bad "a version's oid prefix has the wrong length"))
  else return writeVarint e.commit ++ writeVarint e.mode ++ e.oid

/-- The list of a path, if it has one. -/
def writeList (v : Versions) (path : Bytes) : Except (Fault PackError) Bytes :=
  match v.lists.lookup path with
  | none => return writeVarint 0
  | some list =>
    if v.limit < list.versions.length then
      .error (.err (bad "a version list is longer than its limit"))
    else do
      let rows ← list.versions.mapM (writeVersion v.oidLen)
      return writeVarint ((list.versions.length <<< 1) ||| (if list.complete then 1 else 0)) ++ rows.flatten

def versionsSection (ix : HistoryIndex) (v : Versions) : Except (Fault PackError) Bytes := do
  let (names, order) := authorTable ix.commits
  let authors ← ix.commits.mapM fun c => do
    let a ← orPanic (names.lookup c.author)
    return writeVarint a
  let lists ← ix.paths.keys.mapM (writeList v)
  return writeVarint v.limit ++ [UInt8.ofNat v.oidLen] ++ writeVarint order.length ++
    order.flatMap (fun name => writeBlock (utf8 name)) ++ authors.flatten ++ lists.flatten

/-- All but the versions section. -/
def headBody (ix : HistoryIndex) : Bytes :=
  magic ++ [ix.version] ++ ix.tip ++ ix.base.getD (List.replicate 32 0) ++ writeVarint ix.commitCount ++
    writeVarint ix.firstParentCount ++ writeVarint ix.rootTime ++ writeVarint ix.tipTime ++
    writeVarint ix.commits.length ++ ix.commits.flatMap writeCommit ++
    writeVarint ix.paths.entries.length ++ writePaths [] ix.paths.entries

/-- The serialized index, before it is compressed. -/
def body (ix : HistoryIndex) : Except (Fault PackError) Bytes :=
  match ix.versions with
  | none => return headBody ix
  | some v => do
    let section_ ← versionsSection ix v
    return headBody ix ++ writeVarint tagVersions ++ writeBlock section_

end Writer

/-! ### The reader -/

abbrev Read (α : Type) : Type := Parser PackError UInt8 α

section Reader

open DashForge.Parser

def takeBytes (n : ℕ) : Read Bytes := take n (bad "truncated")

def varint : Read ℕ := Leb128.varint (bad "truncated") (bad "varint overflow")

/-- A row count. -/
def count : Read ℕ := do
  let n ← varint
  if maxRows < n then fail (bad "too many rows") else return n

/-- A byte length, bounded by what is left. -/
def len : Read ℕ := do
  let n ← varint
  let left ← remaining
  if left < n then fail (bad "truncated") else return n

/-- Bytes after their length. -/
def block : Read Bytes := do
  let n ← len
  takeBytes n

/-- A string after its length. -/
def text (what : String) : Read String := do
  let bs ← block
  match fromUtf8 bs with
  | some s => return s
  | none => fail (bad (what ++ " is not UTF-8"))

/-- An index into a table of `n` rows. -/
def index (n : ℕ) (what : String) : Read ℕ := do
  let i ← varint
  if n ≤ i then fail (bad what) else if u32Max < i then fail (bad what) else return i

def parseCommit : Read IndexedCommit := do
  let oid ← takeBytes oidLen
  let authorTime ← varint
  let subject ← text "a subject"
  return ⟨oid, authorTime, subject, ""⟩

/-- Read `n` paths after `paths`, the last of which is `prev`. -/
def parsePaths (nCommits : ℕ) : ℕ → PathMap → Bytes → Read PathMap
  | 0, paths, _ => return paths
  | n + 1, paths, prev => do
    let shared ← varint
    if prev.length < shared then fail (bad "a path shares more than its predecessor holds")
    else do
      let start ← run (orPanic (slice prev 0 shared))
      let suffix ← block
      let path := start ++ suffix
      let commit ← index nCommits "a path names a commit the table does not hold"
      if path ≤ prev ∧ paths.entries ≠ [] then fail (bad "paths are not strictly sorted")
      else parsePaths nCommits n (paths.insert path commit) path

def parseVersion (nCommits oidLen : ℕ) : Read PathVersion := do
  let commit ← index nCommits "a version names a commit the table does not hold"
  let mode ← varint
  if u32Max < mode then fail (bad "a mode overflows")
  else do
    let oid ← takeBytes (storedOidLen mode oidLen)
    return ⟨commit, mode, oid⟩

/-- Read the list of each path, with `entries` rows read before. -/
def parseLists (limit oidLen nCommits : ℕ) : List Bytes → VersionLists → ℕ → Read VersionLists
  | [], lists, _ => return lists
  | path :: paths, lists, entries => do
    let head ← varint
    let n := head >>> 1
    let complete := head &&& 1 = 1
    if limit < n then fail (bad "a version list is longer than its limit")
    else do
      let entries ← run (addU64 entries n)
      if maxRows < entries then fail (bad "too many rows")
      else if n = 0 ∧ ¬complete then parseLists limit oidLen nCommits paths lists entries
      else do
        let versions ← many n (parseVersion nCommits oidLen)
        parseLists limit oidLen nCommits paths (lists.insert path ⟨versions, complete⟩) entries

/-- Fill in the author of a commit. -/
def parseAuthor (authors : List String) (c : IndexedCommit) : Read IndexedCommit := do
  let a ← index authors.length "a commit names an author the table does not hold"
  let author ← run (orPanic authors[a]?)
  return { c with author := author }

/-- Read the versions section, filling in each commit's author. -/
def parseVersions (commits : List IndexedCommit) (paths : PathMap) :
    Read (List IndexedCommit × Versions) := do
  let limit ← varint
  if limit = 0 ∨ maxVersionsPerPath < limit then fail (bad "the version list limit is out of range")
  else do
    let oidBytes ← takeBytes 1
    let oidLen_ := (oidBytes.headD 0).toNat
    if ¬(minOidPrefixLen ≤ oidLen_ ∧ oidLen_ ≤ oidLen) then
      fail (bad "the oid prefix length is out of range")
    else do
      let nAuthors ← count
      let authors ← many nAuthors (text "an author")
      let commits ← commits.mapM (parseAuthor authors)
      let lists ← parseLists limit oidLen_ commits.length paths.keys .empty 0
      return (commits, ⟨limit, oidLen_, lists⟩)

/-- Read the extension sections; one other than the versions section is skipped. Each takes two bytes
at least, so that `fuel` is what is left. -/
def parseSections (paths : PathMap) :
    ℕ → List IndexedCommit → Option Versions → Read (List IndexedCommit × Option Versions)
  | 0, commits, versions => do
    let left ← remaining
    if left = 0 then return (commits, versions) else run (.error .panic)
  | fuel + 1, commits, versions => do
    let left ← remaining
    if left = 0 then return (commits, versions)
    else do
      let tag ← varint
      let bytes ← block
      if tag = tagVersions then
        if versions.isSome then fail (bad "the versions section appears twice")
        else do
          let ((commits, v), rest) ← run (parseVersions commits paths bytes)
          if rest ≠ [] then fail (bad "the versions section has trailing bytes")
          else parseSections paths fuel commits (some v)
      else parseSections paths fuel commits versions

def unknownFormat (version : UInt8) : PackError :=
  .config ("history index format " ++ toString version.toNat ++
    " is not one this client reads (1-2); update dg / git-remote-dash")

/-- Read an index from its inflated bytes. -/
def parseIndex : Read HistoryIndex := do
  let start ← takeBytes 4
  if start ≠ magic then fail (bad "not a history index")
  else do
    let versionBytes ← takeBytes 1
    let version := versionBytes.headD 0
    if ¬(versionV1 ≤ version ∧ version ≤ versionV2) then fail (unknownFormat version)
    else do
      let tip ← takeBytes oidLen
      let base ← takeBytes 32
      let commitCount ← varint
      let firstParentCount ← varint
      let rootTime ← varint
      let tipTime ← varint
      let nCommits ← count
      let commits ← many nCommits parseCommit
      let nPaths ← count
      let paths ← parsePaths commits.length nPaths .empty []
      let left ← remaining
      let (commits, versions) ← parseSections paths left commits none
      return ⟨tip, if base = List.replicate 32 0 then none else some base, commitCount, firstParentCount,
        rootTime, tipTime, commits, paths, versions⟩

def parseBody (bytes : Bytes) : Except (Fault PackError) HistoryIndex := do
  let (ix, _) ← parseIndex bytes
  return ix

end Reader

/-- Compression; reading is through a limit. -/
structure Gzip where
  compress : Bytes → Bytes
  inflate : Bytes → ℕ → Except String Bytes

/-- What was compressed is inflated again. -/
def Gzip.Lossless (gz : Gzip) : Prop :=
  ∀ bytes limit, gz.inflate (gz.compress bytes) limit = .ok (bytes.take limit)

def toCompressed (gz : Gzip) (ix : HistoryIndex) : Except (Fault PackError) Bytes := do
  let b ← body ix
  return gz.compress b

/-- Read a compressed index that inflates to no more than `limit` bytes. -/
def parseBounded (gz : Gzip) (compressed : Bytes) (limit : ℕ) : Except (Fault PackError) HistoryIndex :=
  match gz.inflate compressed (limit + 1) with
  | .error e => .error (.err (.io ("history index: " ++ e)))
  | .ok bytes =>
    if limit < bytes.length then .error (.err (bad "inflates past its size limit"))
    else parseBody bytes

def parse (gz : Gzip) (compressed : Bytes) : Except (Fault PackError) HistoryIndex :=
  parseBounded gz compressed maxInflated

end DashForge.History
