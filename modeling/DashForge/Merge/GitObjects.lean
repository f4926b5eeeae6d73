import DashForge.Data.BigEndian
import DashForge.Data.JsonText
import DashForge.Data.SortBy
import DashForge.Pack.Entry
import Mathlib.Data.FinEnum

/-!
# Git objects

How the browser reads commits and trees (`lib/view/git-objects.ts`): `parseCommit` and `parseTree` take them apart as
git does, and `checkCommit` and `checkTree` refuse what `git fsck --strict` would refuse. `serializeTree` writes a tree
as git writes it.
-/

namespace DashForge.Git

/-- Why a walk over git objects ends. -/
inductive GitError where
  | malformed (oid why : String)
  | unsupportedChange (entry : String)
  | walkLimit (cap : ℕ) (what : String)
  /-- A read that failed. -/
  | unread (reason : String)
  | wrongType (message : String)
deriving DecidableEq, Repr

/-- An object as the browse plane hands it back. -/
structure GitObject where
  type : GitObjType
  bytes : List UInt8
deriving DecidableEq

/-- What objects are read through. -/
abbrev ObjectReader := String → Except GitError GitObject

/-- The start of an id that messages show. -/
def shortOid (oid : String) : String := String.ofList (oid.toList.take 9)

/-- White space to a JavaScript `trim` and `\\s`. -/
def isJsSpace (c : Char) : Bool :=
  let x := c.toNat
  decide (0x9 ≤ x ∧ x ≤ 0xd) || decide (0x2000 ≤ x ∧ x ≤ 0x200a) ||
    [0x20, 0xa0, 0x1680, 0x2028, 0x2029, 0x202f, 0x205f, 0x3000, 0xfeff].contains x

def jsTrim (cs : List Char) : List Char := (cs.dropWhile isJsSpace).rdropWhile isJsSpace

/-- The text after what it starts with. -/
def afterStart {α : Type} [DecidableEq α] (start text : List α) : Option (List α) :=
  if start <+: text then some (text.drop start.length) else none

/-! ### Commits -/

/-- What a walk keeps of a commit. -/
structure CommitInfo where
  /-- The committer's time, in milliseconds. -/
  when : ℕ
  tree : String
  parents : List String
deriving DecidableEq, Repr

/-- The latest time a date holds, in milliseconds. -/
def maxDateMs : ℕ := 8640000000000000

/-- Where a list starts in a text. -/
def indexOf {α : Type} [DecidableEq α] (part text : List α) : Option ℕ := text.tails.findIdx? fun rest => part <+: rest

def lastIndexOf (c : Char) (text : List Char) : Option ℕ :=
  (text.reverse.findIdx? (· = c)).map fun i => text.length - 1 - i

/-- The time of a `Name <email> seconds zone` line, 0 where it has none (`parseIdent`). -/
def parseWhen (line : List Char) : ℕ :=
  match indexOf [' ', '<'] line, lastIndexOf '>' line with
  | some opening, some close =>
    if close ≤ opening + 1 then 0
    else
      let digits := ((line.drop (close + 1)).dropWhile isJsSpace).takeWhile Char.isDigit
      let ms := digits.foldl (fun n c => n * 10 + (c.toNat - 0x30)) 0 * 1000
      if ms ≤ maxDateMs then ms else 0
  | _, _ => 0

def parseCommit (bytes : List UInt8) : CommitInfo :=
  let text := (fromUtf8Lossy bytes).toList
  let header := match indexOf ['\n', '\n'] text with
    | some sep => text.take sep
    | none => text
  let lines := header.splitOn '\n'
  let parents := (lines.tail.map (afterStart "parent ".toList)).takeWhile Option.isSome
  let committer := lines.findSome? (afterStart "committer ".toList)
  {
    when := (committer.map fun line => parseWhen (jsTrim line)).getD 0
    tree := String.ofList (((lines.head?.bind (afterStart "tree ".toList)).map jsTrim).getD [])
    parents := parents.reduceOption.map fun oid => String.ofList (jsTrim oid)
  }

/-- `[0-9a-f]{40}` -/
def isOidHex (oid : List UInt8) : Bool :=
  oid.length = 40 && oid.all fun b => (0x30 ≤ b && b ≤ 0x39) || (0x61 ≤ b && b ≤ 0x66)

/-- What the bytes from 0x80 are: the platform's latin1 is windows-1252. -/
def latin1High : List ℕ :=
  [0x20ac, 0x81, 0x201a, 0x192, 0x201e, 0x2026, 0x2020, 0x2021, 0x2c6, 0x2030, 0x160, 0x2039, 0x152, 0x8d,
    0x17d, 0x8f, 0x90, 0x2018, 0x2019, 0x201c, 0x201d, 0x2022, 0x2013, 0x2014, 0x2dc, 0x2122, 0x161, 0x203a,
    0x153, 0x9d, 0x17e, 0x178]

/-- One character to a byte. -/
def latin1 (bytes : List UInt8) : String :=
  let code (n : ℕ) := if n < 0x80 then n else latin1High.getD (n - 0x80) n
  String.ofList (bytes.map fun b => Char.ofNat (code b.toNat))

/-- The lines after the parents of a commit's header. -/
def dropParents (oid : String) : List (List UInt8) → Except GitError (List (List UInt8))
  | [] => .ok []
  | line :: lines =>
    match afterStart (utf8 "parent ") line with
    | some parent => if isOidHex parent then dropParents oid lines else .error (.malformed oid "bad parent oid")
    | none => .ok (line :: lines)

/-- A header line after the committer. -/
def checkHeader (oid : String) (line : List UInt8) : Except GitError Unit :=
  if line.head? = some 0x20 then .ok ()
  else
    let key := latin1 (line.takeWhile (· ≠ 0x20))
    if key = "tree" ∨ key = "parent" ∨ key = "author" ∨ key = "committer" then
      .error (.malformed oid ("a second \"" ++ key ++ "\" header"))
    else if key = "" then .error (.malformed oid "an empty header line")
    else .ok ()

/-- Refuse a commit that `git fsck --strict` would refuse, or that git and the browser could read differently. -/
def checkCommit (oid : String) (bytes : List UInt8) : Except GitError Unit := do
  refuseIf (¬utf8 "tree " <+: bytes) (.malformed oid "the object must start with \"tree \"")
  refuseIf (0 ∈ bytes) (.malformed oid "a NUL byte in the commit")
  let sep ← okOr (indexOf [0x0a, 0x0a] bytes) (.malformed oid "no blank line after the header")
  let lines := (bytes.take sep).splitOn 0x0a
  let tree := lines.head?.bind (afterStart (utf8 "tree "))
  refuseIf (¬tree.any isOidHex) (.malformed oid "the first header line must be \"tree <oid>\"")
  let lines ← dropParents oid lines.tail
  refuseIf ((lines.head?.bind (afterStart (utf8 "author "))).isNone)
    (.malformed oid "\"author\" must follow the parents")
  refuseIf ((lines.tail.head?.bind (afterStart (utf8 "committer "))).isNone)
    (.malformed oid "\"committer\" must follow the author")
  lines.tail.tail.forM (checkHeader oid)

/-! ### Names that a filesystem reads as another one -/

/-- Code points that HFS+ ignores in names. -/
def hfsIgnorable : List ℕ :=
  [0x200c, 0x200d, 0x200e, 0x200f, 0x202a, 0x202b, 0x202c, 0x202d, 0x202e, 0x206a, 0x206b, 0x206c, 0x206d,
    0x206e, 0x206f,
    0xfeff]

def hfsChars (name : String) : List ℕ := (name.toList.map Char.toNat).filter fun c => c ∉ hfsIgnorable

/-- ASCII lower case. -/
def lower (c : ℕ) : ℕ := if 0x41 ≤ c ∧ c ≤ 0x5a then c + 32 else c

def charCodeAt (s : String) (i : ℕ) : ℕ := (s.toList.getD i '\x00').toNat

def isHfsDot (name needle : String) : Bool :=
  match hfsChars name with
  | 0x2e :: cs => cs.length = needle.length && (cs.zip needle.toList).all fun (c, n) => c ≤ 127 && lower c = n.toNat
  | _ => false

/-- A byte of a C string: 0 past the end. -/
def byteAt (b : List UInt8) (i : ℕ) : ℕ := (b.getD i 0).toNat

/-- `strncasecmp(b + from, s, n) == 0`. -/
def ncaseEq (b : List UInt8) (start : ℕ) (s : String) (n : ℕ) : Bool :=
  (List.range n).all fun i => lower (byteAt b (start + i)) = charCodeAt s i && byteAt b (start + i) ≠ 0

/-- Only spaces and periods from `i` to the end or a `:`. -/
def onlySpacesAndPeriods (b : List UInt8) (i : ℕ) : Bool :=
  match (b.drop i).dropWhile fun c => c = 0x20 || c = 0x2e with
  | [] => true
  | c :: _ => c = 0 || c = 0x3a

def isNtfsDotGit (b : List UInt8) : Bool :=
  let tail? : Option ℕ :=
    if byteAt b 0 = 0x2e then if ncaseEq b 1 "git" 3 then some 4 else none
    else if lower (byteAt b 0) = 0x67 then
      if ncaseEq b 1 "it" 2 && byteAt b 3 = 0x7e && byteAt b 4 = 0x31 then some 5 else none
    else none
  tail?.any fun i =>
    match (b.drop i).dropWhile fun c => c = 0x20 || c = 0x2e with
    | [] => true
    | c :: _ => [0, 0x2f, 0x5c, 0x3a].contains c

/-- The end of a fall-back short name (`<prefix>~<digits>`), in at most `n` steps from `i`. -/
def shortNameEnd (b : List UInt8) (short : String) : ℕ → ℕ → Bool → Option ℕ
  | 0, i, _ => some i
  | n + 1, i, sawTilde =>
    let c := byteAt b i
    if 8 ≤ i then some i
    else if c = 0 then none
    else if sawTilde then if c < 0x30 ∨ 0x39 < c then none else shortNameEnd b short n (i + 1) true
    else if c = 0x7e then
      if byteAt b (i + 1) < 0x31 ∨ 0x39 < byteAt b (i + 1) then none else shortNameEnd b short n (i + 2) true
    else if 6 ≤ i then none
    else if 0x80 ≤ c then none
    else if lower c ≠ charCodeAt short i then none
    else shortNameEnd b short n (i + 1) false

def isNtfsDot (b : List UInt8) (dotName short : String) : Bool :=
  if byteAt b 0 = 0x2e && ncaseEq b 1 dotName dotName.length then onlySpacesAndPeriods b (dotName.length + 1)
  else if ncaseEq b 0 dotName 6 && byteAt b 6 = 0x7e && 0x31 ≤ byteAt b 7 && byteAt b 7 ≤ 0x34 then
    onlySpacesAndPeriods b 8
  else (shortNameEnd b short 9 0 false).any (onlySpacesAndPeriods b)

/-- The special files of git. -/
inductive SpecialFile where
  | gitmodules
  | gitattributes
deriving DecidableEq, Repr

def SpecialFile.name : SpecialFile → String
  | gitmodules => "gitmodules"
  | gitattributes => "gitattributes"

/-- Which of git's special files a name is to some filesystem. -/
def specialFileName (name : String) : Option SpecialFile :=
  if isHfsDot name "gitmodules" || isNtfsDot (utf8 name) "gitmodules" "gi7eba" then some .gitmodules
  else if isHfsDot name "gitattributes" || isNtfsDot (utf8 name) "gitattributes" "gi7d29" then some .gitattributes
  else none

def isIgnoreOrMailmap (name : String) : Bool :=
  isHfsDot name "gitignore" || isNtfsDot (utf8 name) "gitignore" "gi250a" || isHfsDot name "mailmap" ||
    isNtfsDot (utf8 name) "mailmap" "maba30"

/-- `.`, `..`, or a name that git reads as the repository directory. -/
def isDotGitLike (name : String) : Bool :=
  hfsChars name = [0x2e] || hfsChars name = [0x2e, 0x2e] || isHfsDot name "git" || isNtfsDotGit (utf8 name)

/-! ### Trees -/

@[match_pattern] abbrev modeTree : ℕ := 0o40000
@[match_pattern] abbrev modeFile : ℕ := 0o100644
@[match_pattern] abbrev modeExecutable : ℕ := 0o100755
@[match_pattern] abbrev modeSymlink : ℕ := 0o120000
@[match_pattern] abbrev modeGitlink : ℕ := 0o160000

structure TreeEntry where
  mode : ℕ
  name : String
  oid : String
deriving DecidableEq, Repr

/-- The bytes of an entry of a tree. -/
structure TreeRow where
  /-- Up to a space. -/
  modeText : List UInt8
  /-- Up to a NUL. -/
  raw : List UInt8
  oid : List UInt8
  /-- Nothing is missing. -/
  whole : Bool

/-- The first entry of a tree, and the bytes after it. -/
def takeRow (bytes : List UInt8) : TreeRow × List UInt8 :=
  let modeText := bytes.takeWhile (· ≠ 0x20)
  let rest := bytes.drop (modeText.length + 1)
  let raw := rest.takeWhile (· ≠ 0)
  let tail := rest.drop raw.length
  ({ modeText, raw, oid := (tail.drop 1).take 20, whole := 21 ≤ tail.length }, tail.drop 21)

def treeRowsFrom : ℕ → List UInt8 → List TreeRow
  | _, [] => []
  | 0, _ => []
  | n + 1, bytes => (takeRow bytes).1 :: treeRowsFrom n (takeRow bytes).2

def treeRows (bytes : List UInt8) : List TreeRow := treeRowsFrom bytes.length bytes

/-- The octal digits that a mode starts with; a checked tree has nothing else there. -/
def parseMode (text : List UInt8) : ℕ :=
  (text.takeWhile fun b => 0x30 ≤ b && b ≤ 0x37).foldl (fun n b => n * 8 + (b.toNat - 0x30)) 0

def TreeRow.entry (row : TreeRow) : TreeEntry where
  mode := parseMode row.modeText
  name := fromUtf8Lossy row.raw
  oid := hexEncode row.oid

def parseTree (bytes : List UInt8) : List TreeEntry := (treeRows bytes).map TreeRow.entry

/-- The modes git writes. -/
def gitTreeModes : List ℕ := [modeTree, modeFile, modeExecutable, modeSymlink, modeGitlink]

def maxTreeEntryName : ℕ := 4096

/-- The deepest nesting of trees that git walks; the root tree is at depth 0. -/
def maxTreeDepth : ℕ := 2048

def treeTooDeep (oid : String) : GitError :=
  .malformed oid ("trees nested more than " ++ toString maxTreeDepth ++ " deep, deeper than git walks")

/-- What trees are in the order of: a subtree's name as if it ended in `/`. -/
def treeKey (name : List UInt8) (mode : ℕ) : List UInt8 := if mode = modeTree then name ++ [0x2f] else name

/-- `[1-7][0-7]*` -/
def isModeText (text : List UInt8) : Bool :=
  text.head?.any (fun b => 0x31 ≤ b && b ≤ 0x37) && text.all fun b => 0x30 ≤ b && b ≤ 0x37

def jsonString (s : String) : String := String.ofList (Json.quote s)

/-- One of git's special files is a file. -/
def checkSpecial (oid name : String) (mode : ℕ) : Except GitError Unit :=
  match specialFileName name with
  | some special =>
    refuseIf (mode ≠ modeFile ∧ mode ≠ modeExecutable)
      (.malformed oid ("\"." ++ special.name ++ "\" (as " ++ jsonString name ++ ") that is not a file"))
  | none => .ok ()

/-- Refuse an entry that `git fsck --strict` would refuse after entries of these names, the last one of this key. Its
name and key. -/
def checkRow (oid : String) (names : List String) (prev : Option (List UInt8)) (row : TreeRow) :
    Except GitError (String × List UInt8) := do
  let modeText := latin1 row.modeText
  let mode := parseMode row.modeText
  refuseIf (¬isModeText row.modeText) (.malformed oid ("bad mode \"" ++ modeText ++ "\""))
  refuseIf (mode ∉ gitTreeModes) (.malformed oid ("mode " ++ modeText ++ " is not one git writes"))
  refuseIf (¬row.whole) (.malformed oid "truncated entry")
  refuseIf (∀ b ∈ row.oid, b = 0) (.malformed oid "an entry naming the null oid")
  refuseIf (maxTreeEntryName < row.raw.length)
    (.malformed oid ("an entry name over " ++ toString maxTreeEntryName ++ " bytes"))
  -- Names must be UTF-8: paths are compared and shown as text.
  let name ← okOr (fromUtf8 row.raw) (.malformed oid "an entry name that is not UTF-8")
  refuseIf (name = "" ∨ '/' ∈ name.toList ∨ '\\' ∈ name.toList ∨ isDotGitLike name)
    (.malformed oid ("bad entry name " ++ jsonString name))
  checkSpecial oid name mode
  refuseIf (mode = modeSymlink ∧ isIgnoreOrMailmap name) (.malformed oid (jsonString name ++ " as a symbolic link"))
  refuseIf (name ∈ names) (.malformed oid ("entry " ++ jsonString name ++ " twice"))
  let key := treeKey row.raw mode
  refuseIf (∃ last ∈ prev, ¬last < key) (.malformed oid "entries out of order")
  .ok (name, key)

def checkRows (oid : String) : List String → Option (List UInt8) → List TreeRow → Except GitError Unit
  | _, _, [] => .ok ()
  | names, prev, row :: rows => do
    let (name, key) ← checkRow oid names prev row
    checkRows oid (name :: names) (some key) rows

/-- Refuse a tree that `git fsck --strict` would refuse. -/
def checkTree (oid : String) (bytes : List UInt8) : Except GitError Unit := checkRows oid [] none (treeRows bytes)

/-- The octal digits of a mode. -/
def modeBytes (mode : ℕ) : List UInt8 := utf8 (String.ofList (Nat.toDigits 8 mode))

/-- An entry as git writes it; `none` where its id is no hex. -/
def entryBytes (e : TreeEntry) : Option (List UInt8) :=
  (hexDecode e.oid).map fun oid => modeBytes e.mode ++ 0x20 :: (utf8 e.name ++ 0 :: oid)

def TreeEntry.key (e : TreeEntry) : List UInt8 := treeKey (utf8 e.name) e.mode

/-- The bytes of a tree that holds the entries, in git's order. -/
def serializeTree (entries : List TreeEntry) : Option (List UInt8) :=
  ((sortByKey TreeEntry.key entries).mapM entryBytes).map List.flatten

/-! ### What the checks let through -/

/-- An entry that passes the checks, after entries of these names, the last one of this key. -/
structure RowOk (names : List String) (prev : Option (List UInt8)) (row : TreeRow) (name : String) (key : List UInt8) :
    Prop where
  digits : isModeText row.modeText = true
  mode : parseMode row.modeText ∈ gitTreeModes
  whole : row.whole = true
  not_null : ∃ b ∈ row.oid, b ≠ 0
  length : row.raw.length ≤ maxTreeEntryName
  decodes : fromUtf8 row.raw = some name
  legal : name ≠ "" ∧ '/' ∉ name.toList ∧ '\\' ∉ name.toList ∧ isDotGitLike name = false
  special : specialFileName name ≠ none → parseMode row.modeText = modeFile ∨ parseMode row.modeText = modeExecutable
  symlink : ¬(parseMode row.modeText = modeSymlink ∧ isIgnoreOrMailmap name = true)
  fresh : name ∉ names
  key_eq : key = treeKey row.raw (parseMode row.modeText)
  order : ∀ last ∈ prev, last < key

variable {oid name : String} {names : List String} {prev : Option (List UInt8)} {row : TreeRow}

theorem checkSpecial_eq_ok {mode : ℕ} {u : Unit} :
    checkSpecial oid name mode = .ok u ↔ (specialFileName name ≠ none → mode = modeFile ∨ mode = modeExecutable) := by
  unfold checkSpecial
  split
  · next special h =>
    rw [refuseIf_eq_ok, h]
    constructor
    · exact fun hnot _ => by_contra fun hor => hnot (not_or.mp hor)
    · exact fun himp hnot => not_or.mpr hnot (himp nofun)
  · next h => simp [h]

theorem checkRow_eq_ok
    {key : List UInt8} (h : checkRow oid names prev row = .ok (name, key)) : RowOk names prev row name key := by
  obtain ⟨hmodeText, h⟩ := refuseIf_bind_eq_ok.mp h
  obtain ⟨hmode, h⟩ := refuseIf_bind_eq_ok.mp h
  obtain ⟨hwhole, h⟩ := refuseIf_bind_eq_ok.mp h
  obtain ⟨hoid, h⟩ := refuseIf_bind_eq_ok.mp h
  obtain ⟨hlength, h⟩ := refuseIf_bind_eq_ok.mp h
  obtain ⟨name', hname, h⟩ := bind_eq_ok.mp h
  obtain ⟨hlegal, h⟩ := refuseIf_bind_eq_ok.mp h
  obtain ⟨u, hspecial, h⟩ := bind_eq_ok.mp h
  obtain ⟨hsymlink, h⟩ := refuseIf_bind_eq_ok.mp h
  obtain ⟨hfresh, h⟩ := refuseIf_bind_eq_ok.mp h
  obtain ⟨horder, h⟩ := refuseIf_bind_eq_ok.mp h
  obtain ⟨rfl, rfl⟩ := Prod.mk.inj (Except.ok.inj h)
  simp only [not_or, Bool.not_eq_true] at hlegal
  refine ⟨by simpa using hmodeText, by simpa using hmode, by simpa using hwhole, by simpa using hoid,
    Nat.le_of_not_lt hlength, okOr_eq_ok.mp hname, hlegal, checkSpecial_eq_ok.mp hspecial, hsymlink, hfresh, rfl, ?_⟩
  exact fun last hlast => by_contra fun hnot => horder ⟨last, hlast, hnot⟩

theorem checkRows_cons {rows : List TreeRow} (h : checkRows oid names prev (row :: rows) = .ok ()) :
    ∃ name key, RowOk names prev row name key ∧ checkRows oid (name :: names) (some key) rows = .ok () := by
  rw [checkRows] at h
  obtain ⟨⟨name, key⟩, hrow, h⟩ := bind_eq_ok.mp h
  exact ⟨name, key, checkRow_eq_ok hrow, h⟩

theorem rowOk_of_mem {rows : List TreeRow} (h : checkRows oid names prev rows = .ok ()) (hrow : row ∈ rows) :
    ∃ names prev name key, RowOk names prev row name key := by
  induction rows generalizing names prev with
  | nil => cases hrow
  | cons r rows ih =>
    obtain ⟨name, key, hr, hrest⟩ := checkRows_cons h
    rcases List.mem_cons.mp hrow with rfl | hrow
    · exact ⟨names, prev, name, key, hr⟩
    · exact ih hrest hrow

theorem RowOk.entry_name {key : List UInt8} (h : RowOk names prev row name key) : row.entry.name = name := by
  rw [TreeRow.entry, fromUtf8Lossy, h.decodes]
  rfl

theorem mode_of_special {bytes : List UInt8} (h : checkTree oid bytes = .ok ()) {e : TreeEntry}
    (he : e ∈ parseTree bytes) (hspecial : specialFileName e.name ≠ none) :
    e.mode = modeFile ∨ e.mode = modeExecutable := by
  obtain ⟨row, hrow, rfl⟩ := List.mem_map.mp he
  obtain ⟨names, prev, name, key, hok⟩ := rowOk_of_mem h hrow
  exact hok.special (hok.entry_name ▸ hspecial)

end DashForge.Git
