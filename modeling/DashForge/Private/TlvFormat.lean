import DashForge.Private.Tlv
import Mathlib.Tactic.FinCases

/-!
# The format of an encrypted field

Reading back what was encoded is a computation on `Fields` (`foldl_put_records`): every field is read as
it is, but that an empty text may count as absent and that the seal-off marker is read in configs only.
A padding record is not seen (`parse_pad`), and bytes that are accepted are records in order with no
reserved tag (`recordsOk_of_parseInner`).
-/

namespace DashForge.Tlv

open List

/-! ### Reading back what was encoded -/

/-- Set a text field if there is a text. -/
def orText (f : Fields) (o : Option String) : Tag → Fields
  | .title => { f with title := o.or f.title }
  | .body => { f with body := o.or f.body }
  | .refName => { f with refName := o.or f.refName }
  | .baseRefName => { f with baseRefName := o.or f.baseRefName }
  | .sourceRefName => { f with sourceRefName := o.or f.sourceRefName }
  | .defaultBranch => { f with defaultBranch := o.or f.defaultBranch }
  | .protectedPattern => { f with protectedPatterns := f.protectedPatterns ++ o.toList }
  | .path => { f with path := o.or f.path }
  | .importedAuthor => { f with importedAuthor := o.or f.importedAuthor }
  | .importedUrl => { f with importedUrl := o.or f.importedUrl }
  | .eventValue => { f with eventValue := o.or f.eventValue }
  | _ => f

/-- Set a field of raw bytes if there are bytes. -/
def orBytes (f : Fields) (o : Option Bytes) : Tag → Fields
  | .prevEpochKey => { f with prevEpochKey := o.or f.prevEpochKey }
  | .skipEpochKey => { f with skipEpochKey := o.or f.skipEpochKey }
  | .newOid => { f with newOid := o.or f.newOid }
  | .prevOid => { f with prevOid := o.or f.prevOid }
  | .headOid => { f with headOid := o.or f.headOid }
  | .oidSalt => { f with oidSalt := o.or f.oidSalt }
  | _ => f

theorem elim_setText (f : Fields) (o : Option String) (t : Tag) : (o.elim f fun s => setText f s t) = orText f o t := by
  cases o with
  | none => cases t <;> simp [orText]
  | some s => cases t <;> rfl

/-- A text that counts as absent. -/
def keepsEmpty (t : Tag) : Bool := t = .body ∨ t = .path

/-- The text of a field as it is read back. -/
def kept (t : Tag) (o : Option String) : Option String := o.filter fun s => keepsEmpty t || s ≠ ""

section ReadBack

variable (kind : DocKind) (f : Fields)

variable {t : Tag} {min chars bytes : ℕ}

theorem absent_iff (hcap : cap t = .text min chars bytes) (s : String) :
    s.utf8ByteSize < min ↔ ¬(keepsEmpty t || s ≠ "") := by
  have hmin : min = if keepsEmpty t then 0 else 1 := by cases t <;> cases hcap <;> rfl
  rw [hmin]
  split <;> simp [*]

theorem assign_text (hcap : cap t = .text min chars bytes) (s : String) :
    assign f (utf8 s) t = orText f (kept t (some s)) t := by
  rw [assign, hcap, ← elim_setText, kept, Option.filter_some]
  simp only [fromUtf8_utf8, Option.elim_some, absent_iff hcap]
  by_cases hkeep : keepsEmpty t || s ≠ ""
  · rw [if_neg (not_not.mpr hkeep), if_pos hkeep, Option.elim_some]
  · rw [if_pos hkeep, if_neg hkeep, Option.elim_none]

theorem foldl_textRecords (hcap : cap t = .text min chars bytes)
    (o : Option String) : (textRecords t o).foldl (put kind) f = orText f (kept t o) t := by
  cases o with
  | none => rw [← elim_setText]; rfl
  | some s => rw [← assign_text f hcap, ← put_code kind]; rfl

theorem foldl_patterns (ps : List String) : (ps.map fun p => (Tag.protectedPattern.code, utf8 p)).foldl (put kind) f =
      { f with protectedPatterns := f.protectedPatterns ++ ps.filter fun p => p ≠ "" } := by
  induction ps generalizing f with
  | nil => simp
  | cons p ps ih =>
    rw [map_cons, foldl_cons, put_code, assign_text f rfl, ih, filter_cons]
    by_cases hp : p = "" <;> simp [orText, kept, keepsEmpty, hp, Option.filter_some]

theorem foldl_bytesRecords (ht : cap t = .fixed 32 ∨ cap t = .oid) (o : Option Bytes) :
    (bytesRecords t o).foldl (put kind) f = orBytes f o t := by
  cases o with
  | none => cases t <;> simp [orBytes, bytesRecords]
  | some b =>
    change put kind f (t.code, b) = _
    rw [put_code]
    cases t <;> first | rfl | simp [cap] at ht

theorem foldl_prevEpoch (o : Option UInt32) :
    (o.toList.map fun e => (Tag.prevEpoch.code, toBe 4 e.toNat)).foldl (put kind) f =
      { f with prevEpoch := o.or f.prevEpoch } := by
  cases o with
  | none => simp
  | some e =>
    change put kind f (Tag.prevEpoch.code, toBe 4 e.toNat) = _
    rw [put_code]
    change { f with prevEpoch := some (UInt32.ofNat (beNat (toBe 4 e.toNat))) } = _
    rw [beNat_toBe_of_lt e.toNat_lt, UInt32.ofNat_toNat]
    rfl

theorem foldl_burned (b : Bool) :
    (if b then [(Tag.burned.code, [0x01])] else []).foldl (put kind) f = { f with burned := b || f.burned } := by
  cases b <;> rfl

theorem foldl_sealOff (o : Option Bytes) : (o.toList.map fun v => (sealOff, v)).foldl (put kind) f =
    { f with sealOff := (if kind = .config then o else none).or f.sealOff } := by
  cases o with
  | none => simp
  | some v =>
    change put kind f (sealOff, v) = _
    rw [put, if_pos (show firstExtension ≤ sealOff by decide)]
    by_cases hkind : kind = .config <;> simp [hkind]

/-- The fields with the empty texts absent that the limits do not keep. -/
def Fields.dropEmpty : Fields :=
  { f with
    title := f.title.filter (· ≠ "")
    refName := f.refName.filter (· ≠ "")
    baseRefName := f.baseRefName.filter (· ≠ "")
    sourceRefName := f.sourceRefName.filter (· ≠ "")
    defaultBranch := f.defaultBranch.filter (· ≠ "")
    protectedPatterns := f.protectedPatterns.filter (· ≠ "")
    importedAuthor := f.importedAuthor.filter (· ≠ "")
    importedUrl := f.importedUrl.filter (· ≠ "")
    eventValue := f.eventValue.filter (· ≠ "") }

/-- The fields as they are read back: the seal-off marker is read in configs only. -/
def Fields.readBack : Fields :=
  { f.dropEmpty with sealOff := if kind = .config then f.sealOff else none }

theorem foldl_put_records : (records f).foldl (put kind) {} = f.readBack kind := by
  unfold records
  simp only [foldl_append]
  rw [foldl_textRecords kind {} (t := .title) rfl, foldl_textRecords kind _ (t := .body) rfl,
    foldl_textRecords kind _ (t := .refName) rfl, foldl_textRecords kind _ (t := .baseRefName) rfl,
    foldl_textRecords kind _ (t := .sourceRefName) rfl, foldl_textRecords kind _ (t := .defaultBranch) rfl,
    foldl_patterns, foldl_prevEpoch, foldl_bytesRecords kind _ (t := .prevEpochKey) (.inl rfl),
    foldl_textRecords kind _ (t := .path) rfl, foldl_burned, foldl_bytesRecords kind _ (t := .skipEpochKey) (.inl rfl),
    foldl_textRecords kind _ (t := .importedAuthor) rfl, foldl_textRecords kind _ (t := .importedUrl) rfl,
    foldl_textRecords kind _ (t := .eventValue) rfl, foldl_bytesRecords kind _ (t := .newOid) (.inr rfl),
    foldl_bytesRecords kind _ (t := .prevOid) (.inr rfl), foldl_bytesRecords kind _ (t := .headOid) (.inr rfl),
    foldl_bytesRecords kind _ (t := .oidSalt) (.inl rfl), foldl_sealOff]
  have hkeep : ∀ o : Option String, (o.filter fun _ => true) = o := fun o => by cases o <;> rfl
  simp [orText, orBytes, kept, keepsEmpty, Fields.readBack, Fields.dropEmpty, hkeep]

end ReadBack

section Letter

variable (kind : DocKind) (f : Fields) (recipients : List Bytes) (g : Option LetterGroup)

theorem foldl_eq_self {α β : Type} {op : α → β → α} {l : List β} {a : α} (h : ∀ b ∈ l, op a b = a) :
    l.foldl op a = a := by
  induction l with
  | nil => rfl
  | cons b l ih =>
    rw [foldl_cons, h b mem_cons_self]
    exact ih fun b' hb' => h b' (mem_cons_of_mem b hb')

theorem foldl_put_letterRecords : (letterRecords recipients g).foldl (put kind) f = f := by
  refine foldl_eq_self fun r hr => ?_
  simp only [letterRecords, mem_append, mem_map] at hr
  rcases hr with ⟨_, -, rfl⟩ | ⟨_, -, rfl⟩ <;> rfl

theorem code_of_mem_records : ∀ r ∈ records f, r.1 ≠ recipient ∧ r.1 ≠ group := by
  have hmap {α : Type} (l : List α) (b : UInt8) (v : α → Bytes) (hb : b ≠ recipient ∧ b ≠ group) :
      ∀ r ∈ l.map fun x => (b, v x), r.1 ≠ recipient ∧ r.1 ≠ group := by
    simp [hb]
  unfold records
  simp only [forall_mem_append, textRecords, bytesRecords]
  repeat' apply And.intro
  all_goals first
    | exact hmap _ _ _ (by decide)
    | cases f.burned <;> decide

theorem foldl_putLetter_records (parts : LetterParts) : (records f).foldl putLetter parts = parts := by
  refine foldl_eq_self fun r hr => ?_
  obtain ⟨hrec, hgroup⟩ := code_of_mem_records f r hr
  rw [putLetter, if_neg hrec, if_neg hgroup]

theorem foldl_putLetter_letterRecords : (letterRecords recipients g).foldl putLetter {} = ⟨recipients, g⟩ := by
  have hrec (rs : List Bytes) (parts : LetterParts) : (rs.map fun r => (recipient, r)).foldl putLetter parts =
        { parts with recipients := parts.recipients ++ rs } := by
    induction rs generalizing parts with
    | nil => simp
    | cons r rs ih =>
      rw [map_cons, foldl_cons, ih]
      simp [putLetter]
  rw [letterRecords, foldl_append, hrec]
  cases g with
  | none => rfl
  | some g => cases g <;> rfl

end Letter

theorem encode_eq (f : Fields) : encode f = (records f).flatMap record := by
  rw [encode, foldl_pushRecord, nil_append]

variable {kind : DocKind} {anchorWithPrev blinds : Bool} {f : Fields} {st : State} {n max : ℕ} {b a : UInt8}

/-- An accepted encoding is read back. -/
theorem fields_of_parseInner_encode (hshort : Short (records f))
    (h : parseInner kind anchorWithPrev blinds (encode f) none = some st) : st.f = f.readBack kind := by
  rw [encode_eq, parseInner_flatMap kind anchorWithPrev blinds hshort, Option.bind_eq_some_iff] at h
  obtain ⟨st', hfold, hfinish⟩ := h
  obtain ⟨rfl, -⟩ := finish_eq_some.mp hfinish
  rw [(stepFold_fields hfold).1, foldl_put_records]

/-- An accepted letter is read back with its recipients and its group. -/
theorem letter_of_parseInner_encode {recipients : List Bytes} {g : Option LetterGroup} (hshort : Short (records f))
    (hrecipients : ∀ r ∈ recipients, r.length = 32)
    (h : parseInner kind anchorWithPrev blinds (pushRecipients (encode f) recipients g) (some {}) =
      some st) : st.f = f.readBack kind ∧ st.letter = some ⟨recipients, g⟩ := by
  have hletter : Short (letterRecords recipients g) := by
    intro r hr
    simp only [letterRecords, mem_append, mem_map] at hr
    rcases hr with ⟨b, hb, rfl⟩ | ⟨g, -, rfl⟩
    · rw [hrecipients b hb]
      decide
    · exact Nat.le_of_ble_eq_true rfl
  have hall : Short (records f ++ letterRecords recipients g) := by
    intro r hr
    rcases mem_append.mp hr with hr | hr
    · exact hshort r hr
    · exact hletter r hr
  rw [pushRecipients, foldl_pushRecord, encode_eq, ← flatMap_append,
    parseInner_flatMap kind anchorWithPrev blinds hall, Option.bind_eq_some_iff] at h
  obtain ⟨st', hfold, hfinish⟩ := h
  obtain ⟨rfl, -⟩ := finish_eq_some.mp hfinish
  obtain ⟨hf, hparts⟩ := stepFold_fields hfold
  rw [hf, hparts, foldl_append, foldl_put_records, foldl_put_letterRecords, Option.map_some,
    foldl_append, foldl_putLetter_records, foldl_putLetter_letterRecords]
  exact ⟨rfl, rfl⟩

/-! ### Padding -/

/-- A padding record of fewer than `padBucket` zeros, or nothing. -/
theorem padRecord_eq (hn : n + 3 ≤ u64Max) : padRecord n max = .ok (if max < n + 3 then [] else
      record (pad, replicate (min ((padBucket - (n + 3) % padBucket) % padBucket) (max - 3 - n)) 0)) := by
  have hmod : (n + 3) % padBucket ≤ padBucket := (Nat.mod_lt _ (by decide)).le
  rw [padRecord, padRecordIn, addU64_eq_ok hn, ok_bind]
  split
  · rfl
  · rw [subU64_eq_ok hmod, ok_bind, subU64_eq_ok (by omega), ok_bind, subU64_eq_ok (by omega)]
    rfl

theorem length_record {value : Bytes} : (record (b, value)).length = 3 + value.length := by
  simp [record]
  omega

theorem padRecord_spec (hn : n + 3 ≤ u64Max) : ∃ r, padRecord n max = .ok r ∧
    (r = [] ↔ max < n + 3) ∧ (n + 3 ≤ max → padBucket ∣ n + r.length ∨ n + r.length = max) := by
  refine ⟨_, padRecord_eq hn, ?_, fun hle => ?_⟩
  · split <;> simp_all [record]
  · rw [if_neg (by omega), length_record, length_replicate, padBucket]
    omega

/-- What the parsers read of the last state. -/
def State.content (st : State) : Fields × Option LetterParts := (st.f, st.letter)

section Padded

variable {kind : DocKind} {anchorWithPrev blinds : Bool} {rs : List (UInt8 × Bytes)}

theorem stepFold_last {st st' : State} (h : rs.foldlM (step kind anchorWithPrev blinds) st = some st') :
    st'.last = (rs.getLast?.map Prod.fst).or st.last := by
  induction rs generalizing st with
  | nil =>
    obtain rfl : st = st' := by simpa using h
    rfl
  | cons r rs ih =>
    simp only [foldlM_cons, bind_eq_some] at h
    obtain ⟨st₁, hstep, hrest⟩ := h
    rw [ih hrest, (stepped_of_step hstep).2.last_eq, getLast?_cons]
    cases rs.getLast? <;> rfl

theorem parseInner_pad (hshort : Short rs) (hlast : ∀ r ∈ rs.getLast?, r.1 < firstExtension)
    {k : ℕ} (hk : k ≤ u16Max) (letter : Option LetterParts) : parseInner kind anchorWithPrev blinds
        (rs.flatMap record ++ record (pad, replicate k 0)) letter =
      (parseInner kind anchorWithPrev blinds (rs.flatMap record) letter).map
        fun st => { st with last := some pad } := by
  have hall : Short (rs ++ [(pad, replicate k 0)]) := by
    intro r hr
    rcases mem_append.mp hr with hr | hr
    · exact hshort r hr
    · obtain rfl := mem_singleton.mp hr
      simpa using hk
  have happ := parseInner_flatMap kind anchorWithPrev blinds hall letter
  rw [flatMap_append, flatMap_singleton] at happ
  rw [happ, parseInner_flatMap kind anchorWithPrev blinds hshort, foldlM_append]
  cases hfold : rs.foldlM (step kind anchorWithPrev blinds) { letter := letter } with
  | none => rfl
  | some st =>
    have hord : outOfOrder st.last pad = false := by
      rw [stepFold_last hfold, Option.or_none]
      cases hget : rs.getLast? with
      | none => rfl
      | some r =>
        have hlt := hlast r hget
        simp [outOfOrder, pad, hlt.le, hlt.ne']
    have hstep : step kind anchorWithPrev blinds st (pad, replicate k 0) = some { st with last := some pad } := by
      simp only [step, hord, Bool.false_eq_true, if_false]
      rfl
    simp only [Option.bind_eq_bind, Option.bind_some, foldlM_cons, foldlM_nil, Option.pure_def, hstep, finish]
    split <;> rfl

/-- Padding is not seen by the parsers. -/
theorem parse_pad (hshort : Short rs) (hlast : ∀ r ∈ rs.getLast?, r.1 < firstExtension) {max : ℕ}
    {r : Bytes} (hr : padRecord (rs.flatMap record).length max = .ok r) (letter : Option LetterParts) :
    (parseInner kind anchorWithPrev blinds (rs.flatMap record ++ r) letter).map State.content =
      (parseInner kind anchorWithPrev blinds (rs.flatMap record) letter).map State.content := by
  have hn : (rs.flatMap record).length + 3 ≤ u64Max := by
    by_contra hn
    rw [padRecord, padRecordIn, addU64, if_neg hn, error_bind] at hr
    cases hr
  rw [padRecord_eq hn] at hr
  obtain rfl := Except.ok.inj hr
  split
  · rw [append_nil]
  · rw [parseInner_pad hshort hlast, Option.map_map]
    · rfl
    · have hmod := Nat.mod_lt (padBucket - ((rs.flatMap record).length + 3) % padBucket)
        (show 0 < padBucket by decide)
      rw [u16Max]
      rw [padBucket] at *
      omega

end Padded

/-! ### What is accepted -/

/-- Tags ascend, and only 7 and 25 repeat. -/
def Ascends (a b : UInt8) : Prop := a < b ∨ a = b ∧ (a = Tag.protectedPattern.code ∨ a = recipient)

/-- The fields of blinded OIDs and their salt. -/
def Fields.raw (f : Fields) : Tag → Option Bytes
  | .newOid => f.newOid
  | .prevOid => f.prevOid
  | .headOid => f.headOid
  | .oidSalt => f.oidSalt
  | _ => none

/-- Records that a parser may accept; `letter` says whether the envelope is a letter. -/
structure RecordsOk (kind : DocKind) (anchorWithPrev blinds letter : Bool)
    (rs : List (UInt8 × Bytes)) : Prop where
  ascending : rs.Pairwise fun a b => Ascends a.1 b.1
  tags : ∀ r ∈ rs, firstExtension ≤ r.1 ∨
    (letter ∧ letterKind kind ∧ (r.1 = recipient ∨ r.1 = group)) ∨
    ∃ tag : Tag, r.1 = tag.code ∧ allowed kind tag anchorWithPrev blinds
  patterns : rs.countP (fun r => r.1 = Tag.protectedPattern.code) ≤ maxPatterns
  salt : (∃ r ∈ rs, r.1 = Tag.oidSalt.code) ↔
    ∃ r ∈ rs, r.1 = Tag.newOid.code ∨ r.1 = Tag.prevOid.code ∨ r.1 = Tag.headOid.code

theorem ascends_of_inOrder (h : outOfOrder (some a) b = false) : Ascends a b := by
  simp only [outOfOrder, Option.any_some, decide_eq_false_iff_not, not_or, not_lt, not_and] at h
  obtain ⟨hle, heq⟩ := h
  rcases hle.lt_or_eq with hlt | rfl
  · exact .inl hlt
  · refine .inr ⟨rfl, ?_⟩
    by_contra hne
    rw [not_or] at hne
    exact heq rfl hne.1 hne.2

theorem ascends_trans {c : UInt8} (hab : Ascends a b) (hbc : Ascends b c) : Ascends a c := by
  rcases hab with hab | ⟨rfl, -⟩
  · rcases hbc with hbc | ⟨rfl, -⟩
    · exact .inl (hab.trans hbc)
    · exact .inl hab
  · exact hbc

section Accepted

variable {kind : DocKind} {anchorWithPrev blinds : Bool} {rs : List (UInt8 × Bytes)}

variable {st st' : State} {t : Tag}

variable {r : UInt8 × Bytes} {t' : Tag}

theorem Stepped.tag_ok (h : Stepped kind anchorWithPrev blinds st r st') : firstExtension ≤ r.1 ∨
      (st.letter.isSome ∧ letterKind kind ∧ (r.1 = recipient ∨ r.1 = group)) ∨
      ∃ tag : Tag, r.1 = tag.code ∧ allowed kind tag anchorWithPrev blinds := by
  cases h with
  | extension hext => exact .inl hext
  | letter hletter hkind parts hparts => exact .inr (.inl ⟨by simp [hparts], hkind, hletter⟩)
  | content tag htag hallowed hpatterns =>
    exact .inr (.inr ⟨tag, (Tag.code_of_ofCode htag).symm, hallowed⟩)

theorem Stepped.patterns_eq (h : Stepped kind anchorWithPrev blinds st r st') :
    st'.patterns = st.patterns + (if r.1 = Tag.protectedPattern.code then 1 else 0) ∧
      (st.patterns ≤ maxPatterns → st'.patterns ≤ maxPatterns) := by
  have hcode (hne : r.1 ≠ Tag.protectedPattern.code) :
      st.patterns = st.patterns + if r.1 = Tag.protectedPattern.code then 1 else 0 := by
    rw [if_neg hne]
    rfl
  cases h with
  | extension hext =>
    refine ⟨hcode ?_, id⟩
    rintro hr
    rw [hr] at hext
    exact absurd hext (by decide)
  | letter hletter hkind parts hparts =>
    refine ⟨hcode ?_, id⟩
    rcases hletter with hr | hr <;> rw [hr] <;> decide
  | content tag htag hallowed hpatterns =>
    have htag' := Tag.code_of_ofCode htag
    by_cases hpat : tag = .protectedPattern
    · subst hpat
      rw [if_pos htag'.symm]
      exact ⟨rfl, fun _ => hpatterns rfl⟩
    · have hne : r.1 ≠ Tag.protectedPattern.code := by
        intro hr
        rw [hr, Tag.ofCode_code] at htag
        exact hpat (Option.some.inj htag).symm
      refine ⟨?_, fun hle => ?_⟩ <;> simp only [if_neg hpat, if_neg hne]
      · rfl
      · exact hle

/-- What the checks of an accepted run guarantee. -/
theorem stepFold_ok (h : rs.foldlM (step kind anchorWithPrev blinds) st = some st') :
    (∀ last ∈ st.last, ∀ r ∈ rs, Ascends last r.1) ∧ (rs.Pairwise fun a b => Ascends a.1 b.1) ∧
      (∀ r ∈ rs, firstExtension ≤ r.1 ∨ (st.letter.isSome ∧ letterKind kind ∧ (r.1 = recipient ∨ r.1 = group)) ∨
        ∃ tag : Tag, r.1 = tag.code ∧ allowed kind tag anchorWithPrev blinds) ∧
      st'.patterns = st.patterns + rs.countP (fun r => r.1 = Tag.protectedPattern.code) ∧
      (st.patterns ≤ maxPatterns → st'.patterns ≤ maxPatterns) := by
  induction rs generalizing st with
  | nil =>
    obtain rfl : st = st' := by simpa using h
    simp
  | cons r rs ih =>
    simp only [foldlM_cons, bind_eq_some] at h
    obtain ⟨st₁, hstep, hrest⟩ := h
    obtain ⟨hord, hstepped⟩ := stepped_of_step hstep
    obtain ⟨hlast, hpairs, htags, hpatterns, hmax⟩ := ih hrest
    obtain ⟨hcount, hle⟩ := hstepped.patterns_eq
    have hletter : st₁.letter.isSome = st.letter.isSome := by rw [hstepped.letter_eq, Option.isSome_map]
    have hafter := hlast r.1 hstepped.last_eq
    rw [hletter] at htags
    refine ⟨fun last hl r' hr' => ?_, pairwise_cons.mpr ⟨hafter, hpairs⟩, ?_, ?_, fun h => hmax (hle h)⟩
    · rw [Option.mem_def.mp hl] at hord
      rcases mem_cons.mp hr' with rfl | hr'
      · exact ascends_of_inOrder hord
      · exact ascends_trans (ascends_of_inOrder hord) (hafter r' hr')
    · intro r' hr'
      rcases mem_cons.mp hr' with rfl | hr'
      · exact hstepped.tag_ok
      · exact htags r' hr'
    · rw [hpatterns, hcount, countP_cons]
      simp only [decide_eq_true_eq]
      omega

theorem raw_setText (f : Fields) (s : String) (t t' : Tag) : (setText f s t').raw t = f.raw t := by
  cases t' <;> cases t <;> rfl

/-- The tags of blinded OIDs and their salt. -/
def rawTags : List Tag := [.newOid, .prevOid, .headOid, .oidSalt]

theorem isSome_raw_setFixed (ht : t ∈ rawTags) (f : Fields) (value : Bytes) {n : ℕ} (hcap : cap t' = .fixed n) :
    (((setFixed f value t').getD f).raw t).isSome = ((f.raw t).isSome || t' = t) := by
  by_cases hflag : value = [0x01] <;> fin_cases ht <;> cases t' <;> cases hcap <;>
    simp [setFixed, Fields.raw, hflag]

theorem isSome_raw_setOid (ht : t ∈ rawTags) (f : Fields) (value : Bytes)
    (hcap : cap t' = .oid) : ((setOid f value t').raw t).isSome = ((f.raw t).isSome || t' = t) := by
  fin_cases ht <;> cases t' <;> cases hcap <;> simp [setOid, Fields.raw]

theorem isSome_raw_assign (ht : t ∈ rawTags) (f : Fields) (value : Bytes) (t' : Tag) :
    ((assign f value t').raw t).isSome = ((f.raw t).isSome || t' = t) := by
  unfold assign
  split
  · rename_i hcap
    exact isSome_raw_setFixed ht f value hcap
  · rename_i hcap
    exact isSome_raw_setOid ht f value hcap
  · rename_i min chars bytes hcap
    have hne : t' ≠ t := by
      rintro rfl
      fin_cases ht <;> cases hcap
    have hraw : ((fromUtf8 value).elim f fun s =>
        if s.utf8ByteSize < min then f else setText f s t').raw t = f.raw t := by
      cases fromUtf8 value with
      | none => rfl
      | some s =>
        rw [Option.elim_some]
        split
        · rfl
        · exact raw_setText f s t t'
    simp [hraw, hne]

theorem isSome_raw_put (ht : t ∈ rawTags) (f : Fields) (r : UInt8 × Bytes) :
    ((put kind f r).raw t).isSome = ((f.raw t).isSome || r.1 = t.code) := by
  unfold put
  split
  · rename_i hext
    have hne : r.1 ≠ t.code := fun hr => not_lt.mpr hext (hr ▸ t.code_lt.1)
    have hraw (v : Option Bytes) : ({ f with sealOff := v } : Fields).raw t = f.raw t := by cases t <;> rfl
    split <;> simp [hne, hraw]
  · cases hcode : Tag.ofCode r.1 with
    | none =>
      have hne : r.1 ≠ t.code := fun hr => by simp [hr, Tag.ofCode_code] at hcode
      simp [hne]
    | some t' =>
      have hiff : t' = t ↔ r.1 = t.code := by
        rw [← Tag.code_of_ofCode hcode]
        refine ⟨fun h => by rw [h], fun h => ?_⟩
        rw [← Tag.code_of_ofCode hcode, h, Tag.ofCode_code] at hcode
        exact (Option.some.inj hcode).symm
      rw [Option.elim_some, isSome_raw_assign ht]
      simp [hiff]

theorem isSome_raw_foldl (ht : t ∈ rawTags) (rs : List (UInt8 × Bytes)) (f : Fields) :
    ((rs.foldl (put kind) f).raw t).isSome ↔ (f.raw t).isSome ∨ ∃ r ∈ rs, r.1 = t.code := by
  induction rs generalizing f with
  | nil => simp
  | cons r rs ih =>
    rw [foldl_cons, ih, isSome_raw_put ht]
    simp [or_assoc]

/-- Accepted bytes are records in order, with no reserved tag. -/
theorem recordsOk_of_parseInner {pt : Bytes} {letter : Option LetterParts}
    (h : parseInner kind anchorWithPrev blinds pt letter = some st) :
    ∃ rs, pt = rs.flatMap record ∧ Short rs ∧ RecordsOk kind anchorWithPrev blinds letter.isSome rs := by
  obtain ⟨rs, hpt, hshort, hfold, hsalt⟩ := exists_of_parseInner h
  obtain ⟨-, hpairs, htags, hpatterns, hmax⟩ := stepFold_ok hfold
  refine ⟨rs, hpt, hshort, hpairs, htags, ?_, ?_⟩
  · have hle := hmax (Nat.zero_le _)
    rw [hpatterns] at hle
    exact (Nat.le_add_left _ _).trans hle
  · have hraw (t) (ht : t ∈ rawTags) : (st.f.raw t).isSome ↔ ∃ r ∈ rs, r.1 = t.code := by
      have hnone : ({} : Fields).raw t = none := by cases t <;> rfl
      rw [(stepFold_fields hfold).1, isSome_raw_foldl ht, hnone]
      simp
    simp only [and_or_left, exists_or]
    rw [← hraw .oidSalt (by decide), ← hraw .newOid (by decide), ← hraw .prevOid (by decide),
      ← hraw .headOid (by decide)]
    change st.f.oidSalt.isSome ↔ st.f.newOid.isSome ∨ st.f.prevOid.isSome ∨ st.f.headOid.isSome
    rw [← hsalt, blinded, Bool.or_eq_true, Bool.or_eq_true, or_assoc]

end Accepted

/-! ### The format -/

theorem parse_eq (pt : Bytes) (kind : DocKind) (anchorWithPrev : Bool) : parse pt kind anchorWithPrev =
    ((parseInner kind anchorWithPrev false pt none).map State.content).map Prod.fst := by
  rw [parse]
  cases parseInner kind anchorWithPrev false pt none <;> rfl

theorem parseMembers_eq (pt : Bytes) (kind : DocKind) : parseMembers pt kind =
    ((parseInner kind false true pt none).map State.content).map Prod.fst := by
  rw [parseMembers]
  cases parseInner kind false true pt none <;> rfl

theorem parseLetter_eq (pt : Bytes) (kind : DocKind) : parseLetter pt kind =
    ((parseInner kind false false pt (some {})).map State.content).map
      fun x => ⟨x.1, (x.2.getD {}).recipients, (x.2.getD {}).group⟩ := by
  rw [parseLetter]
  cases parseInner kind false false pt (some {}) <;> rfl

/-- What is encoded is read back as it is, but for empty texts and a seal-off marker outside configs;
padding fills the bucket or the room and is not seen; and whatever is accepted is in order, with no
reserved tag. -/
theorem tlv_spec :
    (∀ f kind, Short (records f) →
      (∀ anchorWithPrev g, parse (encode f) kind anchorWithPrev = some g → g = f.readBack kind) ∧
      (∀ g, parseMembers (encode f) kind = some g → g = f.readBack kind) ∧
      ∀ recipients g l, (∀ r ∈ recipients, r.length = 32) →
        parseLetter (pushRecipients (encode f) recipients g) kind = some l →
          l = ⟨f.readBack kind, recipients, g⟩) ∧
    (∀ n max, n + 3 ≤ u64Max → ∃ r, padRecord n max = .ok r ∧ (r = [] ↔ max < n + 3) ∧
      (n + 3 ≤ max → 64 ∣ n + r.length ∨ n + r.length = max)) ∧
    (∀ rs max r, Short rs → (∀ x ∈ rs.getLast?, x.1 < 64) →
      padRecord (rs.flatMap record).length max = .ok r → ∀ kind,
        (∀ anchorWithPrev, parse (rs.flatMap record ++ r) kind anchorWithPrev =
          parse (rs.flatMap record) kind anchorWithPrev) ∧
        parseMembers (rs.flatMap record ++ r) kind = parseMembers (rs.flatMap record) kind ∧
        parseLetter (rs.flatMap record ++ r) kind = parseLetter (rs.flatMap record) kind) ∧
    ∀ pt kind,
      (∀ anchorWithPrev, (parse pt kind anchorWithPrev).isSome → ∃ rs, pt = rs.flatMap record ∧
        Short rs ∧ RecordsOk kind anchorWithPrev false false rs) ∧
      ((parseMembers pt kind).isSome → ∃ rs, pt = rs.flatMap record ∧
        Short rs ∧ RecordsOk kind false true false rs) ∧
      ((parseLetter pt kind).isSome → ∃ rs, pt = rs.flatMap record ∧
        Short rs ∧ RecordsOk kind false false true rs) := by
  simp only [parse_eq, parseMembers_eq, parseLetter_eq, Option.map_map, Option.map_eq_some_iff,
    Option.isSome_map, Option.isSome_iff_exists]
  refine ⟨fun f kind hshort => ⟨?_, ?_, ?_⟩, fun n max hn => padRecord_spec hn, ?_,
    fun pt kind => ⟨?_, ?_, ?_⟩⟩
  · rintro anchorWithPrev g ⟨st, hst, rfl⟩
    exact fields_of_parseInner_encode hshort hst
  · rintro g ⟨st, hst, rfl⟩
    exact fields_of_parseInner_encode hshort hst
  · rintro recipients g l hrec ⟨st, hst, rfl⟩
    obtain ⟨hf, hletter⟩ := letter_of_parseInner_encode hshort hrec hst
    simp only [Function.comp, State.content, hf, hletter, Option.getD_some]
  · intro rs max r hshort hlast hr kind
    simp only [← Option.map_map, parse_pad hshort hlast hr, implies_true, and_self]
  · rintro anchorWithPrev ⟨st, hst⟩
    exact recordsOk_of_parseInner hst
  · rintro ⟨st, hst⟩
    exact recordsOk_of_parseInner hst
  · rintro ⟨st, hst⟩
    exact recordsOk_of_parseInner hst

/-- An issue with a seal-off marker. -/
def markedIssue : Fields := { title := some "t", sealOff := some [1] }

/-- A seal-off marker is lost outside configs, and the padding of a length near the top of the 64-bit
numbers overflows. -/
theorem parse_encode_markedIssue : Short (records markedIssue) ∧
    (∃ g, parse (encode markedIssue) .issue false = some g ∧ g ≠ markedIssue.dropEmpty) ∧
    padRecord u64Max 64 = .error .panic := by
  refine ⟨?_, ⟨{ title := some "t" }, by decide +kernel, by decide +kernel⟩, by decide +kernel⟩
  unfold Short
  decide +kernel

/-- A patch of a letter that is read back. -/
theorem tlv_spec_letter : ∃ l, parseLetter (pushRecipients (encode { title := some "t", body := some "" })
    [replicate 32 7] (some .writers)) .patch = some l ∧
      l = ⟨{ title := some "t", body := some "" }, [replicate 32 7], some .writers⟩ := by
  have haccepted : (parseLetter (pushRecipients (encode { title := some "t", body := some "" })
      [replicate 32 7] (some .writers)) .patch).isSome := by decide +kernel
  obtain ⟨l, hl⟩ := Option.isSome_iff_exists.mp haccepted
  have hshort : Short (records { title := some "t", body := some "" }) := by
    unfold Short
    decide +kernel
  exact ⟨l, hl, (tlv_spec.1 _ .patch hshort).2.2 _ _ l (by decide) hl⟩

end DashForge.Tlv
