import DashForge.Data.SortedMap
import DashForge.Data.Utf8
import Mathlib.Data.Finset.Card
import Mathlib.Data.Prod.Lex
import Mathlib.Data.String.Basic

/-!
# The deny list

The gateway's list of what it refuses (`services/forge-gateway`, `deny.rs`): its file, the reads of the repositories
the listed names stand for, and what a request asks of it. Each call that holds the list's lock is one step; a read
of Platform starts and ends outside it. Times are arguments; base58 and the homograph-safe form of a name are
parameters.
-/

namespace DashForge.Deny

/-- How Platform reads ids and names. -/
structure Platform where
  /-- Whether a text is the base58 of 32 bytes. -/
  decodesIdentifier : String → Bool
  /-- A DPNS name in its homograph-safe form. -/
  dpnsNormalize : String → String

/-! ### Names -/

/-- A listed owner: an identity id, or a DPNS name in its homograph-safe form. -/
inductive Owner where
  | id (s : String)
  | name (s : String)
deriving DecidableEq, Repr

namespace Owner

def isName : Owner → Bool
  | id _ => false
  | name _ => true

def text : Owner → String
  | id s => s
  | name s => s

end Owner

/-- A listed `<owner>/<name>` as it is compared. -/
@[ext]
structure Key where
  owner : Owner
  name : String
deriving DecidableEq, Repr

/-- A key as it is ordered. -/
def Key.ordering (k : Key) : Bool ×ₗ String ×ₗ String := toLex (k.owner.isName, toLex (k.owner.text, k.name))

theorem Key.ordering_injective : Function.Injective Key.ordering := by
  rintro ⟨o, n⟩ ⟨o', n'⟩ h
  obtain ⟨hkind, hrest⟩ := Prod.mk.inj (toLex_inj.mp h)
  obtain ⟨htext, rfl⟩ := Prod.mk.inj (toLex_inj.mp hrest)
  cases o <;> cases o' <;> simp_all [Owner.isName, Owner.text]

instance : LinearOrder Key := LinearOrder.lift' Key.ordering Key.ordering_injective

def toAsciiLowercase (s : String) : String := String.ofList (s.toList.map Char.toLower)

/-- A text without an ending, where it has it. -/
def dropEnding (s ending : String) : String :=
  if ending.toList <:+ s.toList then String.ofList (s.toList.take (s.toList.length - ending.toList.length)) else s

def maxRepoNameLen : ℕ := 63

/-- `^[a-z0-9][a-z0-9._-]{0,62}$`. -/
def isValidRepoName (name : String) : Bool :=
  match name.toList with
  | [] => false
  | first :: rest =>
    let alnum : Char → Bool := fun c => c.isLower || c.isDigit
    name.utf8ByteSize ≤ maxRepoNameLen && alnum first && rest.all fun c => alnum c || c = '.' || c = '_' || c = '-'

def normalizeRepoName (input : String) : Option String :=
  let lowered := toAsciiLowercase input
  if isValidRepoName lowered then some lowered else none

/-- A repository name as it is compared. -/
def nameKey (n : String) : Option String := normalizeRepoName (dropEnding (toAsciiLowercase n) ".git")

section Parse

variable (p : Platform)

/-- An owner that is read as an id and not as a DPNS name. -/
def looksLikeIdentityId (s : String) : Bool :=
  (40 ≤ s.utf8ByteSize && s.utf8ByteSize ≤ 44) &&
    (s.toList.all fun c => c.isAlphanum && !(['0', 'O', 'I', 'l'].contains c)) && p.decodesIdentifier s

/-- An owner as it is compared. -/
def ownerKey (s : String) : Option Owner :=
  if looksLikeIdentityId p s then some (.id s)
  else
    let label := dropEnding (toAsciiLowercase s) ".dash"
    if label ≠ "" && label.utf8ByteSize ≤ 63 && label.toList.all fun c => c.isAlphanum || c = '-' then
      some (.name (p.dpnsNormalize label))
    else none

/-! ### Lists -/

/-- A deny list's lines. -/
structure Entries where
  /-- Repository ids and owner identity ids. -/
  ids : Finset String := ∅
  /-- `<owner>/<name>` entries, with the owner as written. -/
  named : SortedMap Key String := .empty

/-- The lines of a text, without their ends (`str::lines`). -/
def lines (text : String) : List (List Char) :=
  let parts := text.toList.splitOn '\n'
  (parts.dropLast.map fun l => if l.getLast? = some '\r' then l.dropLast else l) ++
    parts.getLast?.toList.filter fun l => l ≠ []

/-- A line that is an entry puts it into the list. -/
def Entries.addLine (entries : Entries) (line : String) : Option Entries :=
  match line.toList.idxOf? '/' with
  | none => if p.decodesIdentifier line then some { entries with ids := insert line entries.ids } else none
  | some i => do
    let owner := String.ofList (line.toList.take i)
    let key : Key := ⟨← ownerKey p owner, ← nameKey (String.ofList (line.toList.drop (i + 1)))⟩
    match entries.named.lookup key with
    | some _ => some entries
    | none => some { entries with named := entries.named.insert key owner }

/-- A list, and the numbers of its lines that are not an entry. -/
def Entries.parse (text : String) : Entries × List ℕ :=
  (lines text).zipIdx.foldl (fun (entries, rejected) (raw, i) =>
    let line := String.ofList (trim (raw.takeWhile (· ≠ '#')))
    if line = "" then (entries, rejected)
    else
      match entries.addLine p line with
      | some entries => (entries, rejected)
      | none => (entries, rejected ++ [i + 1])) ({}, [])

/-- Whether `owner/name` is listed, as it is spelled. -/
def Entries.names (entries : Entries) (owner name : String) : Bool :=
  match ownerKey p owner, nameKey name with
  | some o, some n => (entries.named.lookup ⟨o, n⟩).isSome
  | _, _ => false

end Parse

namespace Entries

variable (entries : Entries)

def len : ℕ := entries.ids.card + entries.named.entries.length

def isEmpty : Bool := entries.len = 0

/-- Whether an entry is listed. -/
def has (k : Key) : Bool := (entries.named.lookup k).isSome

end Entries

/-- A listed name entry, as it is read from Platform. -/
structure NamedEntry where
  key : Key
  /-- The owner as the file wrote it. -/
  owner : String
  name : String
deriving DecidableEq

def NamedEntry.of (x : Key × String) : NamedEntry := ⟨x.1, x.2, x.1.name⟩

namespace Entries

variable (entries : Entries)

/-- The listed `<DPNS name>/<name>` entries for a repository name. -/
def namedEntriesCalled (name : String) : List NamedEntry :=
  (entries.named.entries.filter fun x => x.1.owner.isName && x.1.name = name).map .of

def namedEntries : List NamedEntry := entries.named.entries.map .of

end Entries

/-! ### The list in force -/

/-- A repository as the gateway addresses it. -/
structure RepoInfo where
  repoId : String
  ownerId : String
  name : String
deriving DecidableEq

/-- What a read of a listed name found. -/
structure Resolution where
  repoId : Option String
  time : ℕ
  /-- The read worked. -/
  read : Bool
deriving DecidableEq

structure State where
  checked : Option ℕ := none
  /-- The file as last applied. -/
  stamp : Option (ℕ × ℕ) := none
  entries : Entries := {}
  /-- Listed names resolved to repository ids. -/
  resolved : SortedMap Key Resolution := .empty
  /-- The ids in `resolved`, for the lookup. -/
  resolvedIds : Finset String := ∅
  generation : ℕ := 0
  loaded : Bool := false
  unreadable : Bool := false

/-- The file as a look at it finds it. -/
structure FileView where
  /-- Its modification time, where the system has one, and its length. -/
  metadata : Except String (Option ℕ × ℕ)
  /-- How long ago it was modified, where that is not in the future. -/
  age : Option ℕ
  text : Except String String

/-- The configuration of a list. -/
structure Config where
  path : Option String
  every : ℕ
  settle : ℕ

def maxFileBytes : ℕ := 4 <<< 20

def absentRecheck : ℕ := 30000

def readRetry : ℕ := 60000

def absentRetry : ℕ := 600000

def resolvePerPass : ℕ := 32

/-- The ids of resolutions. -/
def idsOf (resolved : SortedMap Key Resolution) : Finset String :=
    (resolved.values.filterMap Resolution.repoId).toFinset

/-- What a look at the file comes to. -/
inductive Look where
  | unchanged
  | same
  | unreadable (why : String)
  | apply (stamp : ℕ × ℕ) (entries : Entries)

section List

variable (p : Platform) (cfg : Config)

def look (st : State) (force : Bool) (file : FileView) : Look :=
  match cfg.path, file.metadata with
  | none, _ => .unchanged
  | some _, .error e => .unreadable e
  | some _, .ok (modified, len) =>
    if st.stamp = some (modified.getD 0, len) then .same
    else if !force && file.age.any fun age => age < cfg.settle then .unchanged
    else if maxFileBytes < len then .unreadable ("larger than " ++ toString maxFileBytes ++ " bytes")
    else
      match file.text with
      | .error e => .unreadable e
      | .ok text => .apply (modified.getD 0, len) (Entries.parse p text).1

/-- Look at the file, and apply it where it changed. -/
def load (st : State) (force : Bool) (file : FileView) : State × Bool :=
  match look p cfg st force file with
  | .unchanged => (st, false)
  | .same => ({ st with unreadable := false }, false)
  | .unreadable _ => ({ st with unreadable := true }, false)
  | .apply stamp entries =>
    let resolved := st.resolved.filter fun k _ => entries.has k
    ({ st with
        unreadable := false
        loaded := true
        stamp := some stamp
        generation := st.generation + 1
        resolved := resolved
        resolvedIds := idsOf resolved
        entries := entries }, true)

/-- Look at the file now. -/
def reloadNow (st : State) (now : ℕ) (file : FileView) : State × Bool :=
  load p cfg { st with checked := some now } true file

/-- Look at the file if it was last looked at `every` ago. -/
def stateFresh (st : State) (now : ℕ) (file : FileView) : State :=
  if cfg.path ≠ none && st.checked.all fun t => cfg.every ≤ now - t then
    (load p cfg { st with checked := some now } false file).1
  else st

namespace State

variable (st : State)

/-- Whether a request for `owner/name` is refused before anything is read. -/
def deniesRequest (owner name : String) : Bool := !st.entries.isEmpty && st.entries.names p owner name

/-- Whether a repository that a request named `owner/name` is refused. -/
def denies (info : RepoInfo) (owner name : String) : Bool :=
  !st.entries.isEmpty && (info.repoId ∈ st.entries.ids || info.ownerId ∈
    st.entries.ids || info.repoId ∈ st.resolvedIds ||
    st.entries.names p owner name || st.entries.names p info.ownerId info.name)

/-- The listed names that might stand for a repository but are not resolved yet. -/
def unsettledFor (now : ℕ) (info : RepoInfo) : List NamedEntry :=
  match nameKey info.name with
  | none => []
  | some name => (st.entries.namedEntriesCalled name).filter fun e =>
    match st.resolved.lookup e.key with
    | none => true
    | some r => !r.read || (r.repoId = none && absentRecheck ≤ now - r.time)

/-- The names a pass of the background resolution reads. -/
def due (now : ℕ) : List NamedEntry :=
  (st.entries.namedEntries.filter fun e =>
    match st.resolved.lookup e.key with
    | none => true
    | some r => if !r.read then readRetry ≤ now - r.time else r.repoId = none && absentRetry ≤
      now - r.time).take resolvePerPass

/-- The end of a read of a listed name: `none` when it failed. -/
def readEntry (e : NamedEntry) (answer : Option (Option RepoInfo)) (now : ℕ) : State × Bool :=
  let resolution : Resolution := ⟨(answer.getD none).map RepoInfo.repoId, now, answer.isSome⟩
  let st := if st.entries.has e.key then
    { st with
      resolvedIds := match resolution.repoId with
        | some id => insert id st.resolvedIds
        | none => st.resolvedIds
      resolved := st.resolved.insert e.key resolution }
  else st
  (st, answer.isSome)

end State

end List

end DashForge.Deny
