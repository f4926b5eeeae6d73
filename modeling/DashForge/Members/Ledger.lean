import DashForge.Data.SortedMap
import Mathlib.Data.String.Basic

/-!
# The sealed-object ledger

The file in which a clone records every members-only commit and pack it fetched or pushed, with the
audience each is for (`members_git/ledger.rs`). `parse` reads it whole or not at all, and keeps one
audience for each id: the narrowest recorded (`narrowestOf`), which is what `parse_spec` says of the
lines of the file.
-/

namespace DashForge.Members

open List Option

/-! ### Audiences -/

/-- Who an entry is for. -/
inductive EntryAudience where
  | members
  /-- A narrower audience, by its token. -/
  | narrower (token : String)
deriving DecidableEq, Repr

namespace EntryAudience

/-- A character of a narrower audience's token. -/
def isTokenChar (c : Char) : Bool :=
  ('a' ≤ c ∧ c ≤ 'z') ∨ ('0' ≤ c ∧ c ≤ '9') ∨ c ∈ [':', '.', '_', '-']

/-- The audience a token names. -/
def parse (token : List Char) : Option EntryAudience :=
  if token = "members".toList then some .members
  else if token ≠ [] ∧ token.all isTokenChar then some (.narrower (String.ofList token))
  else none

/-- The token written for it, none for the members. -/
def token : EntryAudience → Option String
  | members => none
  | narrower t => some t

/-- The narrower of two audiences: of two narrower ones, the first recorded. -/
def narrowest : EntryAudience → EntryAudience → EntryAudience
  | members, o => o
  | n, _ => n

end EntryAudience

/-- The audience kept of those recorded for an id, in order. -/
def narrowestOf : List EntryAudience → Option EntryAudience
  | [] => none
  | a :: l => some (l.foldl EntryAudience.narrowest a)

/-- Record one more audience after those recorded. -/
def record (prev : Option EntryAudience) (a : EntryAudience) : EntryAudience :=
  prev.elim a fun p => p.narrowest a

theorem narrowestOf_concat (l : List EntryAudience) (a : EntryAudience) :
    narrowestOf (l ++ [a]) = some (record (narrowestOf l) a) := by
  cases l with
  | nil => rfl
  | cons b l => simp [narrowestOf, record, foldl_append]

theorem narrowestOf_append (l l' : List EntryAudience) :
    narrowestOf (l ++ l') = l'.foldl (fun o a => some (record o a)) (narrowestOf l) := by
  induction l' using reverseRecOn with
  | nil => simp
  | append_singleton l' a ih => rw [← append_assoc, narrowestOf_concat, ih, foldl_concat]

theorem narrowestOf_eq_none {l : List EntryAudience} : narrowestOf l = none ↔ l = [] := by
  cases l <;> simp [narrowestOf]

/-- What is kept is one of those recorded, and a narrower one if there is any. -/
theorem narrowestOf_spec {l : List EntryAudience} {a : EntryAudience} (h : narrowestOf l = some a) :
    a ∈ l ∧ (a = .members → ∀ b ∈ l, b = .members) := by
  induction l using reverseRecOn generalizing a with
  | nil => simp [narrowestOf] at h
  | append_singleton l b ih =>
    rw [narrowestOf_concat] at h
    obtain rfl := some.inj h
    cases hl : narrowestOf l with
    | none =>
      rw [narrowestOf_eq_none.mp hl]
      simp [record]
    | some p =>
      obtain ⟨hmem, hall⟩ := ih hl
      cases p with
      | members =>
        refine ⟨by simp [record, EntryAudience.narrowest], fun hb c hc => ?_⟩
        rcases mem_append.mp hc with hc | hc
        · exact hall rfl c hc
        · rw [mem_singleton.mp hc]
          exact hb
      | narrower t => exact ⟨mem_append_left _ hmem, fun hb => by cases hb⟩

/-! ### The file -/

/-- What a line records. -/
inductive EntryKind where
  | commit
  | pack
deriving DecidableEq, Repr

structure Entry where
  kind : EntryKind
  id : String
  audience : EntryAudience
deriving DecidableEq, Repr

def header : String := "# dash sealed-object ledger v1"

def isHex (c : Char) : Bool := ('0' ≤ c ∧ c ≤ '9') ∨ ('a' ≤ c ∧ c ≤ 'f')

def validId (kind : EntryKind) (id : List Char) : Bool :=
  (match kind with
    | .commit => id.length = 40 ∨ id.length = 64
    | .pack => id.length = 64) && id.all isHex

/-- Each recorded commit and pack with its narrowest recorded audience. -/
structure Ledger where
  commits : SortedMap String EntryAudience
  packs : SortedMap String EntryAudience
deriving DecidableEq

def Ledger.empty : Ledger := ⟨.empty, .empty⟩

def Ledger.isEmpty (l : Ledger) : Bool := l.commits.entries.isEmpty && l.packs.entries.isEmpty

/-- The ledger as a guard reads it. -/
inductive LedgerState where
  | absent
  | unknown
  | present (ledger : Ledger)
deriving DecidableEq

/-- The lines of a text, each without its ending; a carriage return counts as part of the ending of a
terminated line only. -/
def lines (text : List Char) : List (List Char) :=
  let pieces := text.splitOn '\n'
  pieces.dropLast.map (fun l => if l.getLast? = some '\r' then l.dropLast else l) ++
    (pieces.getLast?.toList.filter fun l => l ≠ [])

def parseKind (word : List Char) : Option EntryKind :=
  if word = "commit".toList then some .commit
  else if word = "pack".toList then some .pack
  else none

/-- The entry of a line, if it is one. -/
def parseEntry (line : List Char) : Option Entry :=
  match line.splitOn ' ' with
  | [word, id] => do
    let kind ← parseKind word
    if validId kind id then some ⟨kind, String.ofList id, .members⟩ else none
  | [word, id, token] => do
    let kind ← parseKind word
    if validId kind id then do
      let audience ← EntryAudience.parse token
      some ⟨kind, String.ofList id, audience⟩
    else none
  | _ => none

/-- A line that records nothing. -/
def isBlank (line : List Char) : Bool := line = [] ∨ line.head? = some '#'

def recordIn (m : SortedMap String EntryAudience) (id : String) (a : EntryAudience) :
    SortedMap String EntryAudience := m.insert id (record (m.lookup id) a)

def Ledger.add (out : Ledger) (e : Entry) : Ledger :=
  match e.kind with
  | .commit => { out with commits := recordIn out.commits e.id e.audience }
  | .pack => { out with packs := recordIn out.packs e.id e.audience }

def readLine (out : Ledger) (line : List Char) : Option Ledger :=
  if isBlank line then some out else (parseEntry line).map out.add

/-- Parse the text of a ledger; `none` when it is unknown. -/
def parse (text : String) : Option Ledger :=
  match lines text.toList with
  | [] => none
  | first :: rest => if first ≠ header.toList then none else rest.foldlM readLine Ledger.empty

/-! ### What is kept of the lines -/

/-- The audiences the lines record for a commit, in order. -/
def audiencesIn (rows : List (List Char)) (id : String) : List EntryAudience :=
  rows.filterMap fun line => if isBlank line then none
    else (parseEntry line).bind fun e => if e.kind = .commit ∧ e.id = id then some e.audience else none

/-- The audiences a text records for a commit, in order. -/
def recordedAudiences (text : String) (id : String) : List EntryAudience :=
  audiencesIn (lines text.toList).tail id

theorem lookup_recordIn (m : SortedMap String EntryAudience) (id id' : String) (a : EntryAudience) :
    (recordIn m id a).lookup id' = if id' = id then some (record (m.lookup id) a) else m.lookup id' :=
  SortedMap.lookup_insert m id _ id'

theorem foldlM_readLine {rows : List (List Char)} {l : Ledger}
    (h : rows.foldlM readLine Ledger.empty = some l) (id : String) :
    l.commits.lookup id = narrowestOf (audiencesIn rows id) := by
  induction rows using reverseRecOn generalizing l with
  | nil =>
    obtain rfl := some.inj h
    rfl
  | append_singleton rows line ih =>
    rw [foldlM_append] at h
    obtain ⟨mid, hmid, h⟩ := bind_eq_some_iff.mp h
    have hread : readLine mid line = some l := by simpa using h
    have hih := ih hmid
    unfold readLine at hread
    rw [audiencesIn, filterMap_append, ← audiencesIn]
    split at hread
    · rename_i hblank
      obtain rfl := some.inj hread
      rw [hih]
      simp [hblank]
    · rename_i hentry
      obtain ⟨e, he, rfl⟩ := map_eq_some_iff.mp hread
      obtain ⟨kind, eid, a⟩ := e
      simp only [filterMap_cons, hentry, he, bind_some, filterMap_nil]
      cases kind with
      | pack => simpa [Ledger.add] using hih
      | commit =>
        by_cases hid : eid = id
        · subst hid
          simp [Ledger.add, lookup_recordIn, narrowestOf_concat, hih]
        · have hid' : id ≠ eid := fun h => hid h.symm
          simpa [Ledger.add, lookup_recordIn, hid, hid'] using hih

theorem parse_spec {text : String} {l : Ledger} (h : parse text = some l) (id : String) :
    l.commits.lookup id = narrowestOf (recordedAudiences text id) := by
  unfold parse at h
  unfold recordedAudiences
  split at h
  · cases h
  · rename_i first rest hlines
    split at h
    · cases h
    · rw [hlines]
      exact foldlM_readLine h id

end DashForge.Members
