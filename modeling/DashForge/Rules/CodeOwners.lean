import DashForge.Data.Glob
import DashForge.Data.Saturating
import DashForge.Data.SortedMap
import DashForge.Data.Utf8
import Mathlib.Data.Prod.Lex
import Mathlib.Order.Lattice.Nat

/-!
# Code owners

Which identities own which paths, read from a repository's `CODEOWNERS` file (`rules/codeowners.rs`). A rule has a
pattern of path segments (`compile`), and in each section the last rule that matches a path decides its owners
(`decidingRules`).

`SegsMatch` says what a compiled pattern matches. The matcher remembers what it found for each pair of positions; what it
remembers is right for the pattern and the path of the call (`MemoOk`), so it gives the answer of the relation
(`matchesParts_iff`). A file is parsed into rules whose section exists, which the type of a parsed file keeps
(`CodeOwners.section_lt`), and `decidingRules_eq` says which of its rules decide.
-/

namespace DashForge

open List Option

namespace CodeOwners

/-! ### Patterns -/

abbrev Tok := Glob.Tok Char

/-- One segment of a compiled pattern. -/
inductive Seg where
  /-- `**`. -/
  | any
  /-- Exactly `*`. -/
  | one
  | glob (toks : List Tok)
deriving DecidableEq, Repr

/-- The glob of one segment. -/
def glob : List Char → List Tok
  | [] => []
  | ['\\'] => [.lit '\\']
  | '\\' :: c :: cs => .lit c :: glob cs
  | '*' :: cs => .star :: glob cs
  | '?' :: cs => .quest :: glob cs
  | c :: cs => .lit c :: glob cs

def segOf (s : List Char) : Seg :=
  if s = ['*', '*'] then .any else if s = ['*'] then .one else .glob (glob s)

/-- A pattern as segments; `none` where it matches nothing. -/
def compile (pattern : List Char) : Option (List Seg) :=
  let anchored := pattern.head? = some '/'
  let p := if anchored then pattern.tail else pattern
  let trailing := p.getLast? = some '/' ∧ ¬['\\', '/'].isSuffixOf p
  let p := if trailing then p.dropLast else p
  if p = [] then none
  else
    let segs := (p.splitOn '/').map segOf
    let segs := if ¬anchored ∧ segs.length = 1 ∧ segs.head? ≠ some .any then .any :: segs else segs
    some (if trailing then segs ++ [.any] else segs)

/-! ### Matching -/

/-- What the matcher has found so far, by positions in the pattern and the path. -/
abbrev Memo := SortedMap (ℕ ×ₗ ℕ) Bool

/-- The answer remembered for two positions, or else found and remembered. -/
def recalled (memo : Memo) (i j : ℕ) (find : Memo → Bool × Memo) : Bool × Memo :=
  match memo.lookup (toLex (i, j)) with
  | some known => (known, memo)
  | none =>
    let found := find memo
    (found.1, found.2.insert (toLex (i, j)) found.1)

/-- Whether some end of the path satisfies `f`, from position `j` on. -/
def anyEnd (f : List (List Char) → ℕ → Memo → Bool × Memo) : List (List Char) → ℕ → Memo → Bool × Memo
  | [], j, memo => f [] j memo
  | s :: path, j, memo =>
    let found := f (s :: path) j memo
    if found.1 then (true, found.2) else anyEnd f path (j + 1) found.2

/-- Whether the segments from `i` on match the path from `j` on. -/
def matchesFrom : List Seg → ℕ → List (List Char) → ℕ → Memo → Bool × Memo
  | [], i, path, j, memo => recalled memo i j fun memo => (path.isEmpty, memo)
  | seg :: segs, i, path, j, memo => recalled memo i j fun memo =>
    match seg, path with
    | .any, path =>
      if segs = [] then (!path.isEmpty, memo) else anyEnd (fun path => matchesFrom segs (i + 1) path) path j memo
    | _, [] => (false, memo)
    | .one, _ :: path => if segs = [] then (path.isEmpty, memo) else matchesFrom segs (i + 1) path (j + 1) memo
    | .glob toks, s :: path =>
      if Glob.globMatches toks s then
        if segs = [] then (true, memo) else matchesFrom segs (i + 1) path (j + 1) memo
      else (false, memo)

def pathParts (path : String) : List (List Char) := path.toList.splitOn '/'

/-- What a compiled pattern matches. -/
inductive SegsMatch : List Seg → List (List Char) → Prop
  | nil : SegsMatch [] []
  /-- A trailing `**`: everything under. -/
  | anyLast (s : List Char) (rest : List (List Char)) : SegsMatch [.any] (s :: rest)
  | any (skipped : List (List Char)) {seg : Seg} {segs : List Seg} {rest : List (List Char)}
      (h : SegsMatch (seg :: segs) rest) : SegsMatch (.any :: seg :: segs) (skipped ++ rest)
  /-- A trailing `*`: only what is directly there. -/
  | oneLast (s : List Char) : SegsMatch [.one] [s]
  | one (s : List Char) {seg : Seg} {segs : List Seg} {rest : List (List Char)} (h : SegsMatch (seg :: segs) rest) :
      SegsMatch (.one :: seg :: segs) (s :: rest)
  /-- Any other last segment, and what is below it. -/
  | globLast {toks : List Tok} {s : List Char} (hs : Glob.Matches toks s) (below : List (List Char)) :
      SegsMatch [.glob toks] (s :: below)
  | glob {toks : List Tok} {s : List Char} (hs : Glob.Matches toks s) {seg : Seg} {segs : List Seg}
      {rest : List (List Char)} (h : SegsMatch (seg :: segs) rest) : SegsMatch (.glob toks :: seg :: segs) (s :: rest)

variable {path : List (List Char)} {seg : Seg} {segs : List Seg} {s : List Char}

theorem segsMatch_any_last : SegsMatch [.any] path ↔ path ≠ [] := by
  constructor
  · rintro ⟨⟩
    exact cons_ne_nil _ _
  · intro h
    obtain ⟨s, rest, rfl⟩ := exists_cons_of_ne_nil h
    exact .anyLast s rest

theorem segsMatch_any :
    SegsMatch (.any :: seg :: segs) path ↔ ∃ skipped rest, path = skipped ++ rest ∧ SegsMatch (seg :: segs) rest := by
  constructor
  · intro h
    generalize hpattern : Seg.any :: seg :: segs = pattern at h
    cases h with
    | any skipped h =>
      obtain ⟨rfl, rfl⟩ := List.cons.inj (List.cons.inj hpattern).2
      exact ⟨skipped, _, rfl, h⟩
    | nil | anyLast | oneLast | one | globLast | glob => simp at hpattern
  · rintro ⟨skipped, rest, rfl, h⟩
    exact .any skipped h

theorem segsMatch_one_last : SegsMatch [.one] (s :: path) ↔ path = [] := by
  constructor
  · rintro ⟨⟩
    rfl
  · rintro rfl
    exact .oneLast s

theorem segsMatch_one : SegsMatch (.one :: seg :: segs) (s :: path) ↔ SegsMatch (seg :: segs) path := by
  constructor
  · rintro ⟨⟩
    assumption
  · exact .one s

theorem segsMatch_glob_last {toks : List Tok} : SegsMatch [.glob toks] (s :: path) ↔ Glob.Matches toks s := by
  constructor
  · rintro ⟨⟩
    assumption
  · exact fun h => .globLast h path

theorem segsMatch_glob {toks : List Tok} :
    SegsMatch (.glob toks :: seg :: segs) (s :: path) ↔ Glob.Matches toks s ∧ SegsMatch (seg :: segs) path := by
  constructor
  · rintro ⟨⟩
    exact ⟨by assumption, by assumption⟩
  · exact fun h => .glob h.1 h.2

theorem segsMatch_nil_left : SegsMatch [] path ↔ path = [] := by
  constructor
  · rintro ⟨⟩
    rfl
  · rintro rfl
    exact .nil

theorem not_segsMatch_nil (h : seg ≠ .any) : ¬SegsMatch (seg :: segs) [] := by
  intro hmatch
  generalize hpath : ([] : List (List Char)) = path at hmatch
  cases hmatch with
  | any => exact h rfl
  | anyLast | oneLast | one | globLast | glob => simp at hpath

/-! ### What the matcher remembers -/

section Memo

variable (segs₀ : List Seg) (path₀ : List (List Char))

/-- Every answer remembered is right. -/
def MemoOk (memo : Memo) : Prop :=
  ∀ i j b, memo.lookup (toLex (i, j)) = some b → (b = true ↔ SegsMatch (segs₀.drop i) (path₀.drop j))

/-- An answer that is right, with all that is remembered after it. -/
structure Finds (found : Bool × Memo) (P : Prop) : Prop where
  memo : MemoOk segs₀ path₀ found.2
  iff : found.1 = true ↔ P

variable {segs₀ path₀}

theorem Finds.recalled {memo : Memo} {i j : ℕ} {find : Memo → Bool × Memo} (hmemo : MemoOk segs₀ path₀ memo)
    (hfind : Finds segs₀ path₀ (find memo) (SegsMatch (segs₀.drop i) (path₀.drop j))) :
    Finds segs₀ path₀ (recalled memo i j find) (SegsMatch (segs₀.drop i) (path₀.drop j)) := by
  rw [CodeOwners.recalled]
  split
  · next known hknown => exact ⟨hmemo, hmemo i j known hknown⟩
  · refine ⟨fun i' j' b hb => ?_, hfind.iff⟩
    rw [SortedMap.lookup_insert] at hb
    split_ifs at hb with heq
    · obtain ⟨rfl, rfl⟩ := Prod.mk.inj (toLex_inj.mp heq)
      rw [← some.inj hb]
      exact hfind.iff
    · exact hfind.memo i' j' b hb

theorem finds_anyEnd {segs : List Seg} {f : List (List Char) → ℕ → Memo → Bool × Memo}
    (hf : ∀ path j memo, path = path₀.drop j → MemoOk segs₀ path₀ memo →
      Finds segs₀ path₀ (f path j memo) (SegsMatch segs path))
    {path : List (List Char)} {j : ℕ} {memo : Memo} (hpath : path = path₀.drop j) (hmemo : MemoOk segs₀ path₀ memo) :
    Finds segs₀ path₀ (anyEnd f path j memo) (∃ skipped rest, path = skipped ++ rest ∧ SegsMatch segs rest) := by
  induction path generalizing j memo with
  | nil =>
    obtain ⟨hmemo', hiff⟩ := hf [] j memo hpath hmemo
    refine ⟨hmemo', hiff.trans ⟨fun h => ⟨[], [], rfl, h⟩, ?_⟩⟩
    rintro ⟨skipped, rest, happend, h⟩
    rwa [(append_eq_nil_iff.mp happend.symm).2] at h
  | cons s path ih =>
    obtain ⟨hmemo', hiff⟩ := hf (s :: path) j memo hpath hmemo
    have hends : (∃ skipped rest, s :: path = skipped ++ rest ∧ SegsMatch segs rest) ↔
        SegsMatch segs (s :: path) ∨ ∃ skipped rest, path = skipped ++ rest ∧ SegsMatch segs rest := by
      constructor
      · rintro ⟨_ | ⟨s', skipped⟩, rest, happend, h⟩
        · rw [nil_append] at happend
          exact .inl (happend ▸ h)
        · exact .inr ⟨skipped, rest, (List.cons.inj happend).2, h⟩
      · rintro (h | ⟨skipped, rest, rfl, h⟩)
        · exact ⟨[], _, rfl, h⟩
        · exact ⟨s :: skipped, rest, rfl, h⟩
    rw [hends, anyEnd]
    split_ifs with hfound
    · exact ⟨hmemo', iff_of_true rfl (.inl (hiff.mp hfound))⟩
    · have hrest : path = path₀.drop (j + 1) := by
        rw [← tail_drop, ← hpath, tail_cons]
      rw [or_iff_right (mt hiff.mpr hfound)]
      exact ih hrest hmemo'

theorem finds_matchesFrom {segs : List Seg} {i j : ℕ} {path : List (List Char)} {memo : Memo}
    (hsegs : segs = segs₀.drop i)
    (hpath : path = path₀.drop j) (hmemo : MemoOk segs₀ path₀ memo) :
    Finds segs₀ path₀ (matchesFrom segs i path j memo) (SegsMatch segs path) := by
  induction segs generalizing i path j memo with
  | nil =>
    rw [matchesFrom, hsegs, hpath]
    refine .recalled hmemo ⟨hmemo, ?_⟩
    rw [← hsegs, ← hpath, segsMatch_nil_left, List.isEmpty_iff]
  | cons seg segs ih =>
    have hsegs' : segs = segs₀.drop (i + 1) := by rw [← tail_drop, ← hsegs, tail_cons]
    have hpath' : ∀ {s rest}, path = s :: rest → rest = path₀.drop (j + 1) := fun heq => by
      rw [← tail_drop, ← hpath, heq, tail_cons]
    rw [matchesFrom, hsegs, hpath]
    refine .recalled hmemo ?_
    rw [← hsegs, ← hpath]
    -- whether this is the last segment
    rcases segs with _ | ⟨seg', segs⟩
    · cases seg with
      | any => exact ⟨hmemo, by rw [segsMatch_any_last]; simp⟩
      | one =>
        rcases path with _ | ⟨s, rest⟩
        · exact ⟨hmemo, iff_of_false (by simp) (not_segsMatch_nil (by simp))⟩
        · exact ⟨hmemo, by rw [segsMatch_one_last]; simp⟩
      | glob toks =>
        rcases path with _ | ⟨s, rest⟩
        · exact ⟨hmemo, iff_of_false (by simp) (not_segsMatch_nil (by simp))⟩
        · rw [segsMatch_glob_last, ← Glob.globMatches_iff]
          by_cases hglob : Glob.globMatches toks s = true
          · simp only [if_pos hglob]
            exact ⟨hmemo, iff_of_true rfl hglob⟩
          · simp only [if_neg hglob]
            exact ⟨hmemo, iff_of_false (by simp) hglob⟩
    · cases seg with
      | any =>
        rw [segsMatch_any]
        exact finds_anyEnd (fun path j memo hpath hmemo => ih hsegs' hpath hmemo) hpath hmemo
      | one =>
        rcases path with _ | ⟨s, rest⟩
        · exact ⟨hmemo, iff_of_false (by simp) (not_segsMatch_nil (by simp))⟩
        · rw [segsMatch_one]
          exact ih hsegs' (hpath' rfl) hmemo
      | glob toks =>
        rcases path with _ | ⟨s, rest⟩
        · exact ⟨hmemo, iff_of_false (by simp) (not_segsMatch_nil (by simp))⟩
        · rw [segsMatch_glob, ← Glob.globMatches_iff]
          by_cases hglob : Glob.globMatches toks s = true
          · simp only [if_pos hglob, and_iff_right hglob]
            exact ih hsegs' (hpath' rfl) hmemo
          · simp only [if_neg hglob]
            exact ⟨hmemo, iff_of_false (by simp) fun h => hglob h.1⟩

end Memo

/-- The matcher, which starts with nothing remembered, decides what a compiled pattern matches. -/
theorem matchesFrom_iff : (matchesFrom segs 0 path 0 .empty).1 = true ↔ SegsMatch segs path :=
  (@finds_matchesFrom segs path segs 0 0 path .empty rfl rfl fun _ _ b hb =>
    absurd (hb.symm.trans (SortedMap.lookup_empty _)) (some_ne_none b)).iff

/-- A non-anchored pattern of one segment is compiled to one that starts at any depth. -/
theorem compile_free {name : List Char} (hne : name ≠ []) (hslash : '/' ∉ name) (hany : name ≠ ['*', '*'])
    (trailing : Bool) (hesc : trailing = true → name.getLast? ≠ some '\\') :
    compile (name ++ if trailing then ['/'] else []) =
      some (.any :: segOf name :: if trailing then [.any] else []) := by
  have hone : name ≠ ['*', '*'] → segOf name ≠ .any := fun h => by
    rw [segOf, if_neg h]
    split_ifs <;> simp
  obtain ⟨c, cs, rfl⟩ := exists_cons_of_ne_nil hne
  have hanchor : ((c :: cs) ++ if trailing then ['/'] else []).head? ≠ some '/' := by
    rw [cons_append, head?_cons, ne_eq, some.injEq]
    rintro rfl
    exact hslash mem_cons_self
  have hsplit : (c :: cs).splitOn '/' = [c :: cs] := splitOn_eq_singleton hslash
  have hsegs : [segOf (c :: cs)].length = 1 ∧ [segOf (c :: cs)].head? ≠ some .any :=
    ⟨rfl, fun h => hone hany (some.inj h)⟩
  have hlast : (c :: cs).getLast? ≠ some '/' := fun h => hslash (mem_of_getLast? h)
  rw [compile]
  simp only [if_neg hanchor]
  cases trailing with
  | false =>
    have hnot : ¬((c :: cs).getLast? = some '/' ∧ ¬['\\', '/'].isSuffixOf (c :: cs)) := fun h => hlast h.1
    simp only [Bool.false_eq_true, if_false, append_nil, if_neg hnot, hsplit, map_cons, map_nil] at hanchor ⊢
    rw [if_neg (by simp), if_pos ⟨hanchor, hsegs⟩]
  | true =>
    have htrailing : ((c :: cs) ++ ['/']).getLast? = some '/' ∧ ¬['\\', '/'].isSuffixOf ((c :: cs) ++ ['/']) := by
      refine ⟨getLast?_concat, ?_⟩
      rw [isSuffixOf_iff_suffix]
      rintro ⟨t, ht⟩
      have happend : (t ++ ['\\']) ++ ['/'] = (c :: cs) ++ ['/'] := by rw [append_assoc]; exact ht
      refine hesc rfl ?_
      rw [← (append_inj' happend rfl).1, getLast?_concat]
    simp only [if_true] at hanchor ⊢
    simp only [if_pos htrailing, dropLast_concat, hsplit, map_cons, map_nil]
    rw [if_neg (by simp), if_pos ⟨hanchor, hsegs⟩]
    rfl

/-! ### The file -/

def isWs (c : Char) : Bool := c == ' ' || c == '\t'

def trimWs (cs : List Char) : List Char := (cs.dropWhile isWs).rdropWhile isWs

/-- The owner tokens of a text, up to one that starts a comment. -/
def tokens (rest : List Char) : List String :=
  (((rest.splitOnP isWs).filter (· ≠ [])).takeWhile fun t => t.head? ≠ some '#').map String.ofList

/-- A section header's name and default owners. -/
def sectionHeader (toLowercase : String → String) (line : List Char) : Option (String × List String) := do
  let inner ← ((line.dropPrefix? ['^']).getD line).dropPrefix? ['[']
  let (name, rest) ← splitOnce ']' inner
  guard (trimWs name ≠ [])
  -- the approvals count that GitLab reads is read past
  let rest ← match rest.dropPrefix? ['['] with
    | none => some rest
    | some count => ((splitOnce ']' count).filter fun x => x.1 ≠ [] && x.1.all Char.isDigit).map Prod.snd
  guard (rest = [] ∨ rest.head?.any isWs)
  return (toLowercase (String.ofList (trimWs name)), tokens rest)

/-- The pattern at the start of a line, up to the first unescaped blank, and the rest. -/
def splitPattern (escaped : Bool) : List Char → List Char × List Char
  | [] => ([], [])
  | c :: cs =>
    if !escaped && isWs c then ([], c :: cs)
    else
      let split := splitPattern (!escaped && c == '\\') cs
      (c :: split.1, split.2)

structure OwnerRule where
  line : ℕ
  pattern : String
  owners : List String
  /-- Its section, an index. -/
  inSection : ℕ
  segs : List Seg
deriving DecidableEq, Repr

/-- A line skipped as malformed. -/
structure OwnersError where
  line : ℕ
  error : String
deriving DecidableEq, Repr

end CodeOwners

/-- A parsed code owners file. -/
structure CodeOwners where
  rules : List CodeOwners.OwnerRule
  /-- The sections' names; the first is that of the rules before any header. -/
  sections : List String
  errors : List CodeOwners.OwnersError
  section_lt : ∀ r ∈ rules, r.inSection < sections.length

namespace CodeOwners

/-- A file parsed up to a line, with the section the next rules belong to. -/
structure Parsing extends CodeOwners where
  current : ℕ
  defaults : List String
  current_lt : current < sections.length

/-- A section starts, which the file may have had before. -/
def Parsing.enter (p : Parsing) (name : String) (owners : List String) : Parsing :=
  if h : name ∈ p.sections then
    { p with current := p.sections.idxOf name, defaults := owners, current_lt := idxOf_lt_length_iff.mpr h }
  else
    { p with
      sections := p.sections ++ [name]
      current := p.sections.length
      defaults := owners
      current_lt := by simp
      section_lt := fun r hr => by
        rw [length_append]
        exact Nat.lt_add_right _ (p.section_lt r hr) }

def Parsing.addError (p : Parsing) (line : ℕ) (error : String) : Parsing :=
    { p with errors := p.errors ++ [⟨line, error⟩] }

/-- A rule without owners takes its section's. -/
def Parsing.addRule (p : Parsing) (line : ℕ) (pattern : List Char) (owners : List String) : Parsing :=
  { p with
    rules := p.rules ++
      [⟨line, String.ofList pattern, if owners = [] then p.defaults else owners, p.current, (compile pattern).getD []⟩]
    section_lt := fun r hr => by
      rcases mem_append.mp hr with hr | hr
      · exact p.section_lt r hr
      · rw [mem_singleton.mp hr]
        exact p.current_lt }

/-- Why a pattern is none. -/
def patternError (pattern : List Char) : Option String :=
  if pattern.head? = some '!' then some "negation"
  else if ['*', '*', '*'] <:+: pattern then some "pattern"
  else none

/-- One line read. -/
def Parsing.read (toLowercase : String → String) (p : Parsing) (raw : List Char × ℕ) : Parsing :=
  let number := min (raw.2 + 1) u32Max
  let line := trimWs (if raw.1.getLast? = some '\r' then raw.1.dropLast else raw.1)
  if line = [] ∨ line.head? = some '#' then p
  else
    match sectionHeader toLowercase line with
    | some (name, owners) => p.enter name owners
    | none =>
      let split := splitPattern false line
      match patternError split.1 with
      | some e => p.addError number e
      | none => p.addRule number split.1 (tokens split.2)

/-- Parse a code owners file. -/
def parseCodeOwners (toLowercase : String → String) (text : String) : CodeOwners :=
  let cs := text.toList
  let body := (cs.dropPrefix? [Char.ofNat 0xfeff]).getD cs
  let start : Parsing := ⟨⟨[], [""], [], fun _ hr => absurd hr not_mem_nil⟩, 0, [], Nat.zero_lt_one⟩
  (((body.splitOn '\n').zipIdx).foldl (Parsing.read toLowercase) start).toCodeOwners

/-! ### The rules that decide -/

/-- Whether a rule matches a path. -/
def OwnerRule.matchesParts (rule : OwnerRule) (parts : List (List Char)) : Bool :=
  !rule.segs.isEmpty && (matchesFrom rule.segs 0 parts 0 .empty).1

/-- One pass over the rules, newest first, while some section has none. -/
def findRules (parts : List (List Char)) : List OwnerRule → List (Option OwnerRule) → ℕ → List (Option OwnerRule)
  | [], found, _ => found
  | rule :: rules, found, left =>
    if left = 0 then found
    else if found[rule.inSection]? = some none ∧ rule.matchesParts parts then
      findRules parts rules (found.set rule.inSection (some rule)) (left - 1)
    else findRules parts rules found left

variable (owners : CodeOwners) (path : String)

/-- The rules that decide a path's owners. -/
def decidingRules : List OwnerRule :=
  (findRules (pathParts path) owners.rules.reverse (replicate owners.sections.length none)
    owners.sections.length).filterMap id

/-- The owner tokens of a path, each once. -/
def ownersOf : List String :=
  (owners.decidingRules path).foldl
    (fun out rule => rule.owners.foldl (fun out t => if out.contains t then out else out ++ [t]) out) []

/-- The last rule of a section that matches a path. -/
def lastMatching (i : ℕ) : Option OwnerRule :=
  (owners.rules.filter fun rule => rule.inSection = i && rule.matchesParts (pathParts path)).getLast?

theorem matchesParts_iff {rule : OwnerRule} {parts : List (List Char)} :
    rule.matchesParts parts = true ↔ rule.segs ≠ [] ∧ SegsMatch rule.segs parts := by
  rw [OwnerRule.matchesParts, Bool.and_eq_true, matchesFrom_iff]
  simp

theorem getElem?_findRules {parts : List (List Char)} {rules : List OwnerRule}
    {found : List (Option OwnerRule)} {left : ℕ}
    (hrange : ∀ r ∈ rules, r.inSection < found.length) (hleft : found.count none = left) (i : ℕ) :
    (findRules parts rules found left)[i]? =
      found[i]?.map fun f => f.or (rules.find? fun rule => rule.inSection = i && rule.matchesParts parts) := by
  induction rules generalizing found left with
  | nil => simp [findRules]
  | cons rule rules ih =>
    have hlt := hrange rule mem_cons_self
    rw [findRules]
    split_ifs with hzero hfind
    · -- every section has its rule
      have hnot : none ∉ found := count_eq_zero.mp (hleft.trans hzero)
      rcases hf : found[i]? with _ | _ | f
      · rfl
      · exact absurd (mem_of_getElem? hf) hnot
      · rfl
    · obtain ⟨hnone, hmatches⟩ := hfind
      have hcount : (found.set rule.inSection (some rule)).count none = left - 1 := by
        rw [getElem?_eq_getElem hlt, some.injEq] at hnone
        rw [count_set hlt, hnone, hleft]
        simp
      rw [ih (by simpa using fun r hr => hrange r (mem_cons_of_mem rule hr)) hcount, getElem?_set]
      by_cases hi : rule.inSection = i
      · subst hi
        rw [if_pos rfl, if_pos hlt, hnone, find?_cons_of_pos (by simpa using hmatches)]
        rfl
      · rw [if_neg hi, find?_cons_of_neg (by simp [hi])]
    · rw [ih (fun r hr => hrange r (mem_cons_of_mem rule hr)) hleft]
      by_cases hi : rule.inSection = i ∧ rule.matchesParts parts = true
      · obtain ⟨rfl, hmatches⟩ := hi
        rcases hf : found[rule.inSection]? with _ | _ | f
        · rfl
        · exact absurd ⟨hf, hmatches⟩ hfind
        · rfl
      · rw [find?_cons_of_neg (by simpa using hi)]

/-- The deciding rules are the last matching ones, section by section. -/
theorem decidingRules_eq : owners.decidingRules path =
    (range owners.sections.length).filterMap (owners.lastMatching path) := by
  have hfound : findRules (pathParts path) owners.rules.reverse (replicate owners.sections.length none)
      owners.sections.length = (range owners.sections.length).map (owners.lastMatching path) := by
    refine ext_getElem? fun i => ?_
    rw [getElem?_findRules (by simpa using owners.section_lt) (by simp), getElem?_replicate, getElem?_map]
    rcases Nat.lt_or_ge i owners.sections.length with hi | hi
    · rw [if_pos hi, getElem?_range hi, map_some, map_some, none_or, lastMatching,
        getLast?_filter]
    · rw [if_neg (Nat.not_lt.mpr hi), getElem?_eq_none (by simpa using hi)]
      rfl
  rw [decidingRules, hfound, filterMap_map]
  rfl

end CodeOwners

end DashForge
