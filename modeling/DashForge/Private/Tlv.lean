import DashForge.Data.BigEndian
import DashForge.Data.Unchecked
import DashForge.Data.Utf8
import DashForge.Pack.Entry

/-!
# The plaintext of an encrypted field

The content of an encrypted document is a list of records, each a tag, a length of two bytes and a
value, in ascending order of the tags (`private/tlv.rs`). `parseInner` is the source's loop over the
records with the tables of tags and limits it checks, `encode` its writer and `padRecord` the padding.

The loop is a fold over the records of the bytes (`parseInner_flatMap`, `exists_of_parseInner`). A step
that is accepted is one of three (`Stepped`), and what an accepted run leaves in the fields does not
depend on the checks (`stepFold_fields`).
-/

namespace DashForge.Tlv

open List Option

/-! ### Kinds, tags and fields -/

/-- The types of encrypted documents. -/
inductive DocKind where
  | issue
  | patch
  | comment
  | review
  | refUpdate
  | protectedRefUpdate
  | config
  | event
  | authorEvent
  | release
deriving DecidableEq, Repr

/-- The tags of content fields. -/
inductive Tag where
  | title
  | body
  | refName
  | baseRefName
  | sourceRefName
  | defaultBranch
  | protectedPattern
  | prevEpoch
  | prevEpochKey
  | path
  | burned
  | skipEpochKey
  | importedAuthor
  | importedUrl
  | eventValue
  | newOid
  | prevOid
  | headOid
  | oidSalt
deriving DecidableEq, Repr

def Tag.code : Tag → UInt8
  | .title => 1
  | .body => 2
  | .refName => 3
  | .baseRefName => 4
  | .sourceRefName => 5
  | .defaultBranch => 6
  | .protectedPattern => 7
  | .prevEpoch => 8
  | .prevEpochKey => 9
  | .path => 10
  | .burned => 11
  | .skipEpochKey => 12
  | .importedAuthor => 13
  | .importedUrl => 14
  | .eventValue => 15
  | .newOid => 22
  | .prevOid => 23
  | .headOid => 24
  | .oidSalt => 27

def Tag.all : List Tag :=
  [.title, .body, .refName, .baseRefName, .sourceRefName, .defaultBranch, .protectedPattern, .prevEpoch,
    .prevEpochKey, .path, .burned, .skipEpochKey, .importedAuthor, .importedUrl, .eventValue, .newOid,
    .prevOid, .headOid, .oidSalt]

/-- The content tag of a byte; the others are reserved, of letters or extensions. -/
def Tag.ofCode (b : UInt8) : Option Tag := Tag.all.find? fun t => t.code = b

/-- A recipient of a letter. -/
def recipient : UInt8 := 25
/-- The role group a letter was sent to. -/
def group : UInt8 := 29
def firstExtension : UInt8 := 64
def pad : UInt8 := firstExtension
/-- An extension that is read in configs only. -/
def sealOff : UInt8 := 65
def padBucket : ℕ := 64
def maxPatterns : ℕ := 8

/-- The content fields of a document. -/
structure Fields where
  title : Option String := none
  body : Option String := none
  refName : Option String := none
  baseRefName : Option String := none
  sourceRefName : Option String := none
  defaultBranch : Option String := none
  protectedPatterns : List String := []
  prevEpoch : Option UInt32 := none
  prevEpochKey : Option Bytes := none
  path : Option String := none
  burned : Bool := false
  skipEpochKey : Option Bytes := none
  importedAuthor : Option String := none
  importedUrl : Option String := none
  eventValue : Option String := none
  newOid : Option Bytes := none
  prevOid : Option Bytes := none
  headOid : Option Bytes := none
  oidSalt : Option Bytes := none
  sealOff : Option Bytes := none
deriving DecidableEq

/-- How the value of a field is checked. -/
inductive Cap where
  /-- UTF-8: fewer bytes than `min` count as absent. -/
  | text (min chars bytes : ℕ)
  | fixed (n : ℕ)
  | oid
deriving DecidableEq, Repr

def cap : Tag → Cap
  | .title => .text 1 256 1024
  | .body => .text 0 5120 5120
  | .refName | .baseRefName | .sourceRefName | .defaultBranch => .text 1 255 255
  | .protectedPattern => .text 1 100 400
  | .prevEpoch => .fixed 4
  | .prevEpochKey | .skipEpochKey | .oidSalt => .fixed 32
  | .newOid | .prevOid | .headOid => .oid
  | .burned => .fixed 1
  | .path => .text 0 500 1000
  | .importedAuthor | .eventValue => .text 1 120 480
  | .importedUrl => .text 1 300 300

/-- The tags a kind may carry. -/
def allowed (kind : DocKind) (tag : Tag) (anchorWithPrev blinds : Bool) : Bool :=
  let imported := tag = .importedAuthor ∨ tag = .importedUrl
  let head := blinds ∧ (tag = .headOid ∨ tag = .oidSalt)
  match kind with
  | .issue => tag = .title ∨ tag = .body ∨ imported
  | .patch =>
    tag = .title ∨ tag = .body ∨ tag = .baseRefName ∨ tag = .sourceRefName ∨ imported ∨ head
  | .comment => tag = .body ∨ tag = .path ∨ imported
  | .review => tag = .body ∨ imported
  | .refUpdate | .protectedRefUpdate =>
    tag = .refName ∨ blinds ∧ (tag = .newOid ∨ tag = .prevOid ∨ tag = .oidSalt)
  | .event => tag = .eventValue ∨ head
  | .authorEvent => tag = .eventValue
  | .release => false
  | .config =>
    tag = .defaultBranch ∨ tag = .protectedPattern ∨
      anchorWithPrev ∧ (tag = .prevEpoch ∨ tag = .prevEpochKey ∨ tag = .burned ∨ tag = .skipEpochKey)

/-- The kinds a letter may carry. -/
def letterKind (kind : DocKind) : Bool :=
  kind = .issue ∨ kind = .patch ∨ kind = .comment ∨ kind = .review ∨ kind = .event

/-- The role group a letter was sent to. -/
inductive LetterGroup where
  | maintainers
  | writers
deriving DecidableEq, Repr

def LetterGroup.code : LetterGroup → UInt8
  | .maintainers => 1
  | .writers => 2

def LetterGroup.fromCode (b : UInt8) : Option LetterGroup :=
  if b = 1 then some .maintainers else if b = 2 then some .writers else none

/-- What only a letter carries. -/
structure LetterParts where
  recipients : List Bytes := []
  group : Option LetterGroup := none
deriving DecidableEq

/-! ### The parser -/

/-- Split the first record off. -/
def takeRecord : Bytes → Option ((UInt8 × Bytes) × Bytes)
  | [] => none
  | tag :: tail => do
    let lenBytes ← slice tail 0 2
    let len := beNat lenBytes
    let value ← slice tail 2 (2 + len)
    return ((tag, value), tail.drop (2 + len))

/-- The text of a record under its limits; `some none` where it counts as absent. -/
def readText (min chars bytes : ℕ) (value : Bytes) : Option (Option String) := do
  let s ← fromUtf8 value
  if bytes < s.utf8ByteSize ∨ chars < s.length then none
  else if s.utf8ByteSize < min then some none
  else some (some s)

/-- Set a text field; no other tag has a text limit. -/
def setText (f : Fields) (s : String) : Tag → Fields
  | .title => { f with title := some s }
  | .body => { f with body := some s }
  | .refName => { f with refName := some s }
  | .baseRefName => { f with baseRefName := some s }
  | .sourceRefName => { f with sourceRefName := some s }
  | .defaultBranch => { f with defaultBranch := some s }
  | .protectedPattern => { f with protectedPatterns := f.protectedPatterns ++ [s] }
  | .path => { f with path := some s }
  | .importedAuthor => { f with importedAuthor := some s }
  | .importedUrl => { f with importedUrl := some s }
  | .eventValue => { f with eventValue := some s }
  | _ => f

/-- Set a field of raw bytes of a fixed length. -/
def setFixed (f : Fields) (value : Bytes) : Tag → Option Fields
  | .prevEpoch => some { f with prevEpoch := some (UInt32.ofNat (beNat value)) }
  | .prevEpochKey => some { f with prevEpochKey := some value }
  | .oidSalt => some { f with oidSalt := some value }
  | .skipEpochKey => some { f with skipEpochKey := some value }
  -- the flag has one value; any other byte is malformed
  | .burned => if value = [0x01] then some { f with burned := true } else none
  | _ => none

/-- Set an OID field; no other tag has an OID limit. -/
def setOid (f : Fields) (value : Bytes) : Tag → Fields
  | .newOid => { f with newOid := some value }
  | .prevOid => { f with prevOid := some value }
  | .headOid => { f with headOid := some value }
  | _ => f

def isOidWidth (len : ℕ) : Bool := len = 20 ∨ len = 32

/-- Check the value of a content tag and set its field. -/
def readContent (f : Fields) (tag : Tag) (value : Bytes) : Option Fields :=
  match cap tag with
  | .fixed n => if value.length ≠ n then none else setFixed f value tag
  | .oid => if !isOidWidth value.length then none else some (setOid f value tag)
  | .text min chars bytes => do
    let s ← readText min chars bytes value
    return s.elim f fun s => setText f s tag

/-- The state of the loop. -/
structure State where
  f : Fields := {}
  last : Option UInt8 := none
  patterns : ℕ := 0
  letter : Option LetterParts := none
deriving DecidableEq

/-- Whether a tag may not follow the last one: tags ascend, and only 7 and 25 repeat. -/
def outOfOrder (last : Option UInt8) (tag : UInt8) : Bool :=
  last.any fun prev =>
    tag < prev ∨ tag = prev ∧ tag ≠ Tag.protectedPattern.code ∧ tag ≠ recipient

/-- Read a recipient or the group of a letter. -/
def readLetter (parts : LetterParts) (tag : UInt8) (value : Bytes) : Option LetterParts :=
  if tag = recipient then
    if value.length = 32 then some { parts with recipients := parts.recipients ++ [value] } else none
  else
    match value with
    | [b] => do
      let g ← LetterGroup.fromCode b
      return { parts with group := some g }
    | _ => none

section Parser

variable (kind : DocKind) (anchorWithPrev blinds : Bool)

/-- Read one record. -/
def step (st : State) (r : UInt8 × Bytes) : Option State :=
  if outOfOrder st.last r.1 then none
  else if firstExtension ≤ r.1 then
    if r.1 = sealOff ∧ kind = .config then
      some { st with f := { st.f with sealOff := some r.2 }, last := some r.1 }
    else some { st with last := some r.1 }
  else if r.1 = recipient ∨ r.1 = group then do
    let parts ← st.letter
    if !letterKind kind then none
    else do
      let parts ← readLetter parts r.1 r.2
      return { st with letter := some parts, last := some r.1 }
  else do
    let tag ← Tag.ofCode r.1
    if !allowed kind tag anchorWithPrev blinds then none
    else do
      let patterns := if tag = .protectedPattern then st.patterns + 1 else st.patterns
      if tag = .protectedPattern ∧ maxPatterns < patterns then none
      else do
        let f ← readContent st.f tag r.2
        return { st with f := f, patterns := patterns, last := some r.1 }

/-- The loop over the records; each takes three bytes at least. -/
def loop : ℕ → State → Bytes → Option State
  | 0, st, rest => if rest = [] then some st else none
  | fuel + 1, st, rest =>
    if rest = [] then some st
    else do
      let (r, rest) ← takeRecord rest
      let st ← step kind anchorWithPrev blinds st r
      loop fuel st rest

/-- The fields a kind requires. -/
def required (f : Fields) : Bool :=
  match kind with
  | .issue | .patch => f.title.isSome
  | .comment => f.body.any fun b => b ≠ ""
  | .refUpdate | .protectedRefUpdate => f.refName.isSome
  | .config => !anchorWithPrev || (f.prevEpoch.isSome &&
      if f.burned then f.prevEpochKey.isNone && f.skipEpochKey.isNone else f.prevEpochKey.isSome)
  | .review => true
  | .event => f.eventValue.isSome || f.headOid.isSome
  | .authorEvent => f.eventValue.isSome
  | .release => false

/-- Whether an OID is blinded. -/
def blinded (f : Fields) : Bool := f.newOid.isSome || f.prevOid.isSome || f.headOid.isSome

/-- The checks after the last record. -/
def finish (st : State) : Option State :=
  if required kind anchorWithPrev st.f && blinded st.f == st.f.oidSalt.isSome then some st else none

def parseInner (pt : Bytes) (letter : Option LetterParts) : Option State := do
  let st ← loop kind anchorWithPrev blinds pt.length { letter := letter } pt
  finish kind anchorWithPrev st

end Parser

def parse (pt : Bytes) (kind : DocKind) (anchorWithPrev : Bool) : Option Fields := do
  let st ← parseInner kind anchorWithPrev false pt none
  return st.f

/-- Parse a members-only document, which may carry blinded OIDs. -/
def parseMembers (pt : Bytes) (kind : DocKind) : Option Fields := do
  let st ← parseInner kind false true pt none
  return st.f

structure LetterTlv where
  fields : Fields
  recipients : List Bytes
  group : Option LetterGroup
deriving DecidableEq

/-- Parse a letter to specific people. -/
def parseLetter (pt : Bytes) (kind : DocKind) : Option LetterTlv := do
  let st ← parseInner kind false false pt (some {})
  let parts := st.letter.getD {}
  return { fields := st.f, recipients := parts.recipients, group := parts.group }

/-! ### The encoder -/

def u16Max : ℕ := 65535

/-- A record; a length over 16 bits is not written as it is. -/
def record (r : UInt8 × Bytes) : Bytes := r.1 :: (toBe 2 (min r.2.length u16Max) ++ r.2)

def pushRecord (out : Bytes) (r : UInt8 × Bytes) : Bytes := out ++ record r

def textRecords (tag : Tag) (v : Option String) : List (UInt8 × Bytes) :=
  v.toList.map fun s => (tag.code, utf8 s)

def bytesRecords (tag : Tag) (v : Option Bytes) : List (UInt8 × Bytes) :=
  v.toList.map fun b => (tag.code, b)

/-- The records of the fields, in ascending order of their tags. -/
def records (f : Fields) : List (UInt8 × Bytes) :=
  textRecords .title f.title ++ textRecords .body f.body ++ textRecords .refName f.refName ++
  textRecords .baseRefName f.baseRefName ++ textRecords .sourceRefName f.sourceRefName ++
  textRecords .defaultBranch f.defaultBranch ++
  f.protectedPatterns.map (fun p => (Tag.protectedPattern.code, utf8 p)) ++
  f.prevEpoch.toList.map (fun e => (Tag.prevEpoch.code, toBe 4 e.toNat)) ++
  bytesRecords .prevEpochKey f.prevEpochKey ++ textRecords .path f.path ++
  (if f.burned then [(Tag.burned.code, [0x01])] else []) ++ bytesRecords .skipEpochKey f.skipEpochKey ++
  textRecords .importedAuthor f.importedAuthor ++ textRecords .importedUrl f.importedUrl ++
  textRecords .eventValue f.eventValue ++ bytesRecords .newOid f.newOid ++ bytesRecords .prevOid f.prevOid ++
  bytesRecords .headOid f.headOid ++ bytesRecords .oidSalt f.oidSalt ++
  f.sealOff.toList.map (fun v => (sealOff, v))

def encode (f : Fields) : Bytes := (records f).foldl pushRecord []

/-- The records of the recipients and the group of a letter. -/
def letterRecords (recipients : List Bytes) (g : Option LetterGroup) : List (UInt8 × Bytes) :=
  recipients.map (fun r => (recipient, r)) ++ g.toList.map fun g => (group, [g.code])

def pushRecipients (out : Bytes) (recipients : List Bytes) (g : Option LetterGroup) : Bytes :=
  (letterRecords recipients g).foldl pushRecord out

/-- The padding record for `n` bytes, to a multiple of `bucket` or to `max`. -/
def padRecordIn (n max bucket : ℕ) : Except (Fault Empty) Bytes := do
  let start ← addU64 n 3
  if max < start then return []
  else do
    let excess ← subU64 bucket (start % bucket)
    let room ← subU64 max 3
    let room ← subU64 room n
    return pushRecord [] (pad, List.replicate (min (excess % bucket) room) 0)

def padRecord (n max : ℕ) : Except (Fault Empty) Bytes := padRecordIn n max padBucket

/-! ### Records -/

/-- Records whose lengths fit in 16 bits. -/
def Short (rs : List (UInt8 × Bytes)) : Prop := ∀ r ∈ rs, r.2.length ≤ u16Max

theorem foldl_pushRecord (rs : List (UInt8 × Bytes)) (out : Bytes) :
    rs.foldl pushRecord out = out ++ rs.flatMap record := by
  induction rs generalizing out with
  | nil => simp
  | cons r rs ih => rw [foldl_cons, ih, pushRecord, flatMap_cons, append_assoc]

variable {r : UInt8 × Bytes} {bs : Bytes} {rs : List (UInt8 × Bytes)} {fuel : ℕ}

theorem takeRecord_record (hr : r.2.length ≤ u16Max) (rest : Bytes) :
    takeRecord (record r ++ rest) = some (r, rest) := by
  have hlen : beNat (toBe 2 r.2.length) = r.2.length :=
    beNat_toBe_of_lt (lt_of_le_of_lt hr (by decide))
  have hhead : slice (toBe 2 r.2.length ++ r.2 ++ rest) 0 2 = some (toBe 2 r.2.length) := by
    rw [slice, if_pos (by simp)]
    simp
  have hvalue : slice (toBe 2 r.2.length ++ r.2 ++ rest) 2 (2 + r.2.length) = some r.2 := by
    rw [slice, if_pos (by simp)]
    simp [take_append]
  have hrest : (toBe 2 r.2.length ++ r.2 ++ rest).drop (2 + r.2.length) = rest := by
    simp [drop_append]
  simp only [record, min_eq_left hr, cons_append, takeRecord, hhead, some_bind, hlen, hvalue, hrest]
  rfl

theorem takeRecord_eq_some {rest : Bytes} (h : takeRecord bs = some (r, rest)) :
    bs = record r ++ rest ∧ r.2.length ≤ u16Max := by
  cases bs with
  | nil => simp [takeRecord] at h
  | cons tag tail =>
    simp only [takeRecord, slice, zero_le, true_and, bind_eq_bind, drop_zero] at h
    split at h
    swap
    · simp at h
    rename_i htwo
    rw [bind_some] at h
    split at h
    swap
    · simp at h
    rename_i hlen
    rw [bind_some] at h
    obtain ⟨rfl, rfl⟩ := Prod.mk.inj (Option.some.inj h)
    have hbe := beNat_lt (tail.take 2)
    have hwidth : (tail.take 2).length = 2 := by rw [length_take]; omega
    rw [hwidth] at hbe
    have hvalue : ((tail.take (2 + beNat (tail.take 2))).drop 2).length = beNat (tail.take 2) := by
      rw [length_drop, length_take]
      omega
    refine ⟨?_, ?_⟩
    · have hback : toBe 2 (beNat (tail.take 2)) = tail.take 2 := by
        have := toBe_beNat (tail.take 2)
        rwa [hwidth] at this
      have htake : tail.take 2 = (tail.take (2 + beNat (tail.take 2))).take 2 := by
        rw [take_take, min_eq_left (Nat.le_add_right _ _)]
      rw [record, hvalue, u16Max, min_eq_left (by omega), hback, cons_append]
      nth_rewrite 2 [htake]
      rw [take_append_drop, take_append_drop]
    · rw [hvalue, u16Max]
      omega

/-- Split bytes into records. -/
def frames : ℕ → Bytes → Option (List (UInt8 × Bytes))
  | 0, rest => if rest = [] then some [] else none
  | fuel + 1, rest =>
    if rest = [] then some []
    else do
      let (r, rest) ← takeRecord rest
      let rs ← frames fuel rest
      return r :: rs

theorem frames_flatMap (hrs : Short rs)
    (hfuel : (rs.flatMap record).length ≤ fuel) : frames fuel (rs.flatMap record) = some rs := by
  induction rs generalizing fuel with
  | nil => cases fuel <;> rfl
  | cons r rs ih =>
    rw [flatMap_cons, length_append] at hfuel
    have hne : record r ++ rs.flatMap record ≠ [] := by simp [record]
    have hpos : 0 < (record r).length := by simp [record]
    obtain ⟨fuel, rfl⟩ : ∃ k, fuel = k + 1 := ⟨fuel - 1, by omega⟩
    rw [flatMap_cons, frames, if_neg hne, takeRecord_record (hrs r mem_cons_self)]
    have hrest := ih (fun r' hr' => hrs r' (mem_cons_of_mem r hr'))
      (show (rs.flatMap record).length ≤ fuel by omega)
    simp [hrest]

theorem frames_eq_some (h : frames fuel bs = some rs) : bs = rs.flatMap record ∧ Short rs := by
  induction fuel generalizing bs rs with
  | zero =>
    simp only [frames] at h
    split at h
    · rename_i hbs
      cases h
      exact ⟨by simp [hbs], by simp [Short]⟩
    · cases h
  | succ fuel ih =>
    rw [frames] at h
    split at h
    · rename_i hbs
      cases h
      exact ⟨by simp [hbs], by simp [Short]⟩
    simp only [bind_eq_some, Option.pure_def, Option.some.injEq] at h
    obtain ⟨⟨r, rest⟩, hr, rs', hrs', rfl⟩ := h
    obtain ⟨rfl, hshort⟩ := takeRecord_eq_some hr
    obtain ⟨rfl, hrest⟩ := ih hrs'
    refine ⟨by rw [flatMap_cons], fun x hx => ?_⟩
    rcases mem_cons.mp hx with rfl | hx
    · exact hshort
    · exact hrest x hx

/-! ### The loop as a fold -/

section Fold

variable (kind : DocKind) (anchorWithPrev blinds : Bool)

theorem loop_eq (fuel : ℕ) (st : State) (rest : Bytes) : loop kind anchorWithPrev blinds fuel st rest =
    (frames fuel rest).bind fun rs => rs.foldlM (step kind anchorWithPrev blinds) st := by
  induction fuel generalizing st rest with
  | zero =>
    simp only [loop, frames]
    split <;> simp
  | succ fuel ih =>
    rw [loop, frames]
    split
    · simp
    cases takeRecord rest with
    | none => rfl
    | some x =>
      simp only [some_bind, Option.pure_def, ih]
      cases hframes : frames fuel x.2 with
      | none => cases step kind anchorWithPrev blinds st x.1 <;> rfl
      | some rs => simp

/-- Bytes that are records are read record by record. -/
theorem parseInner_flatMap {rs : List (UInt8 × Bytes)} (hrs : Short rs) (letter : Option LetterParts) :
    parseInner kind anchorWithPrev blinds (rs.flatMap record) letter =
      (rs.foldlM (step kind anchorWithPrev blinds) { letter := letter }).bind
        (finish kind anchorWithPrev) := by
  rw [parseInner, loop_eq, frames_flatMap hrs le_rfl]
  rfl

variable {kind anchorWithPrev blinds}

theorem finish_eq_some {st st' : State} : finish kind anchorWithPrev st = some st' ↔
    st = st' ∧ required kind anchorWithPrev st.f ∧ blinded st.f = st.f.oidSalt.isSome := by
  unfold finish
  split
  · simp_all
  · rename_i hbad
    refine ⟨by simp, ?_⟩
    rintro ⟨rfl, hreq, hsalt⟩
    simp [hreq, hsalt] at hbad

theorem exists_of_parseInner {pt : Bytes} {letter : Option LetterParts} {st : State}
    (h : parseInner kind anchorWithPrev blinds pt letter = some st) : ∃ rs, pt = rs.flatMap record ∧ Short rs ∧
      rs.foldlM (step kind anchorWithPrev blinds) { letter := letter } = some st ∧
      blinded st.f = st.f.oidSalt.isSome := by
  simp only [parseInner, loop_eq, bind_eq_bind, bind_eq_some_iff] at h
  obtain ⟨st', ⟨rs, hframes, hfold⟩, hfinish⟩ := h
  obtain ⟨rfl, hshort⟩ := frames_eq_some hframes
  obtain ⟨rfl, -, hsalt⟩ := finish_eq_some.mp hfinish
  exact ⟨rs, rfl, hshort, hfold, hsalt⟩

end Fold

/-! ### What a record does -/

/-- What an accepted content record does to the fields. -/
def assign (f : Fields) (value : Bytes) (tag : Tag) : Fields :=
  match cap tag with
  | .fixed _ => (setFixed f value tag).getD f
  | .oid => setOid f value tag
  | .text min _ _ => (fromUtf8 value).elim f fun s => if s.utf8ByteSize < min then f else setText f s tag

/-- What an accepted record does to the fields. -/
def put (kind : DocKind) (f : Fields) (r : UInt8 × Bytes) : Fields :=
  if firstExtension ≤ r.1 then
    if r.1 = sealOff ∧ kind = .config then { f with sealOff := some r.2 } else f
  else (Tag.ofCode r.1).elim f (assign f r.2)

/-- What an accepted record does to the parts of a letter. -/
def putLetter (parts : LetterParts) (r : UInt8 × Bytes) : LetterParts :=
  if r.1 = recipient then { parts with recipients := parts.recipients ++ [r.2] }
  else if r.1 = group then { parts with group := r.2.head?.bind LetterGroup.fromCode }
  else parts

/-- The three ways a record is accepted. -/
inductive Stepped (kind : DocKind) (anchorWithPrev blinds : Bool) (st : State) (r : UInt8 × Bytes) :
    State → Prop
  | extension (hext : firstExtension ≤ r.1) :
      Stepped kind anchorWithPrev blinds st r { st with f := put kind st.f r, last := some r.1 }
  | letter (hletter : r.1 = recipient ∨ r.1 = group) (hkind : letterKind kind) (parts : LetterParts)
      (hparts : st.letter = some parts) :
      Stepped kind anchorWithPrev blinds st r
        { st with letter := some (putLetter parts r), last := some r.1 }
  | content (tag : Tag) (htag : Tag.ofCode r.1 = some tag)
      (hallowed : allowed kind tag anchorWithPrev blinds)
      (hpatterns : tag = .protectedPattern → st.patterns + 1 ≤ maxPatterns) :
      Stepped kind anchorWithPrev blinds st r
        { st with f := assign st.f r.2 tag, last := some r.1
                  patterns := if tag = .protectedPattern then st.patterns + 1 else st.patterns }

theorem readContent_eq_some {f f' : Fields} {tag : Tag} {value : Bytes}
    (h : readContent f tag value = some f') : f' = assign f value tag := by
  unfold readContent at h
  unfold assign
  split at h
  · split at h
    · cases h
    · rw [h, getD_some]
  · split at h
    · cases h
    · exact (Option.some.inj h).symm
  · simp only [readText, bind_eq_some, Option.pure_def, Option.some.injEq] at h
    obtain ⟨s, ⟨t, ht, hs⟩, rfl⟩ := h
    rw [ht, Option.elim_some]
    split at hs
    · cases hs
    split at hs <;> rename_i hmin <;> rw [← Option.some.inj hs]
    · rw [if_pos hmin]
      rfl
    · rw [if_neg hmin]
      rfl

theorem readLetter_eq_some {parts parts' : LetterParts}
    (hr : r.1 = recipient ∨ r.1 = group) (h : readLetter parts r.1 r.2 = some parts') : parts' = putLetter parts r := by
  unfold readLetter at h
  unfold putLetter
  split at h
  · rename_i hrec
    split at h
    · rw [if_pos hrec]
      exact (Option.some.inj h).symm
    · cases h
  · rename_i hrec
    rw [if_neg hrec, if_pos (hr.resolve_left hrec)]
    split at h
    · rename_i b hb
      simp only [bind_eq_some, Option.pure_def, Option.some.injEq] at h
      obtain ⟨g, hg, rfl⟩ := h
      rw [hb, head?_cons, bind_some, hg]
    · cases h

section Step

variable {kind : DocKind} {anchorWithPrev blinds : Bool} {st st' : State} {r : UInt8 × Bytes}

/-- What a step that succeeds does. -/
theorem stepped_of_step (h : step kind anchorWithPrev blinds st r = some st') :
    outOfOrder st.last r.1 = false ∧ Stepped kind anchorWithPrev blinds st r st' := by
  unfold step at h
  split at h
  · cases h
  rename_i hord
  refine ⟨by simpa using hord, ?_⟩
  split at h
  · rename_i hext
    split at h <;> rename_i hseal
    · have hput : put kind st.f r = { st.f with sealOff := some r.2 } := by
        rw [put, if_pos hext, if_pos hseal]
      rw [← Option.some.inj h, ← hput]
      exact .extension hext
    · have hput : put kind st.f r = st.f := by rw [put, if_pos hext, if_neg hseal]
      rw [← Option.some.inj h]
      have hstep : Stepped kind anchorWithPrev blinds st r
          { st with f := put kind st.f r, last := some r.1 } := .extension hext
      rwa [hput] at hstep
  split at h
  · rename_i hletter
    simp only [bind_eq_bind, bind_eq_some_iff, Option.pure_def] at h
    obtain ⟨parts, hparts, h⟩ := h
    split at h
    · cases h
    rename_i hkind
    simp only [bind_eq_some_iff, Option.some.injEq] at h
    obtain ⟨parts', hread, rfl⟩ := h
    rw [readLetter_eq_some hletter hread]
    exact .letter hletter (by simpa using hkind) parts hparts
  · simp only [bind_eq_bind, bind_eq_some_iff, Option.pure_def] at h
    obtain ⟨tag, htag, h⟩ := h
    split at h
    · cases h
    rename_i hallowed
    by_cases hmany : tag = .protectedPattern ∧
        maxPatterns < if tag = .protectedPattern then st.patterns + 1 else st.patterns
    · rw [if_pos hmany] at h
      cases h
    rw [if_neg hmany] at h
    simp only [bind_eq_some_iff, Option.some.injEq] at h
    obtain ⟨f, hread, rfl⟩ := h
    rw [readContent_eq_some hread]
    refine .content tag htag (by simpa using hallowed) fun hpat => ?_
    simpa [hpat] using hmany

theorem Tag.code_of_ofCode {b : UInt8} {t : Tag} (h : Tag.ofCode b = some t) : t.code = b := by
  simpa using find?_some h

theorem Tag.ofCode_code (t : Tag) : Tag.ofCode t.code = some t := by
  cases t <;> decide

/-- No content tag is a tag of letters or an extension. -/
theorem Tag.code_lt (t : Tag) : t.code < firstExtension ∧ t.code ≠ recipient ∧ t.code ≠ group := by
  cases t <;> decide

theorem put_code (kind : DocKind) (f : Fields) (t : Tag) (value : Bytes) :
    put kind f (t.code, value) = assign f value t := by
  rw [put, if_neg (not_le.mpr t.code_lt.1), Tag.ofCode_code]
  rfl

variable (h : Stepped kind anchorWithPrev blinds st r st')

include h in
theorem Stepped.fields_eq : st'.f = put kind st.f r := by
  cases h with
  | extension hext => rfl
  | letter hletter hkind parts hparts => rcases hletter with hr | hr <;> rw [put, hr] <;> rfl
  | content tag htag hallowed hpatterns =>
    obtain ⟨b, value⟩ := r
    obtain rfl := Tag.code_of_ofCode htag
    exact (put_code kind st.f tag value).symm

include h in
theorem Stepped.letter_eq :
    st'.letter = st.letter.map fun parts => putLetter parts r := by
  have hsame (hr : r.1 ≠ recipient ∧ r.1 ≠ group) : st.letter = st.letter.map fun parts => putLetter parts r := by
    have hput : ∀ parts, putLetter parts r = parts := fun parts => by
      rw [putLetter, if_neg hr.1, if_neg hr.2]
    simp [hput]
  cases h with
  | extension hext =>
    refine hsame ⟨?_, ?_⟩ <;> intro hr <;> rw [hr] at hext <;> exact absurd hext (by decide)
  | letter hletter hkind parts hparts => rw [hparts, map_some]
  | content tag htag hallowed hpatterns =>
    have hcode := tag.code_lt
    rw [Tag.code_of_ofCode htag] at hcode
    exact hsame hcode.2

include h in
theorem Stepped.last_eq : st'.last = some r.1 := by
  cases h <;> rfl

/-- An accepted run changes the fields and the letter record by record. -/
theorem stepFold_fields {rs : List (UInt8 × Bytes)} (h : rs.foldlM (step kind anchorWithPrev blinds) st = some st') :
    st'.f = rs.foldl (put kind) st.f ∧ st'.letter = st.letter.map fun parts => rs.foldl putLetter parts := by
  induction rs generalizing st with
  | nil =>
    obtain rfl : st = st' := by simpa using h
    simp
  | cons r rs ih =>
    simp only [foldlM_cons, bind_eq_some] at h
    obtain ⟨st₁, hstep, hrest⟩ := h
    obtain ⟨-, hstepped⟩ := stepped_of_step hstep
    obtain ⟨hf, hletter⟩ := ih hrest
    rw [hf, hletter, hstepped.fields_eq, hstepped.letter_eq, Option.map_map]
    exact ⟨rfl, rfl⟩

end Step

end DashForge.Tlv
