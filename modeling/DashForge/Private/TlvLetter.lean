import DashForge.Private.TlvFormat

/-!
# The records of a letter

A letter is the records of its content, then one record for each recipient and one for the group. What parses as
content parses as a letter with its recipients (`parseInner_letter`), unless an extension stands before them: then
the recipients are out of order (`parseInner_marked`).
-/

namespace DashForge.Tlv

open List

section Parts

variable (kind : DocKind) (anchorWithPrev blinds : Bool)

/-- A state with the parts of a letter. -/
def State.withLetter (st : State) (letter : Option LetterParts) : State := { st with letter := letter }

theorem step_withLetter (st : State) (letter : Option LetterParts) {r : UInt8 × Bytes}
    (hr : r.1 ≠ recipient ∧ r.1 ≠ group) : step kind anchorWithPrev blinds (st.withLetter letter) r =
      (step kind anchorWithPrev blinds st r).map fun st => st.withLetter letter := by
  simp only [step, State.withLetter, hr.1, hr.2, or_self, if_false]
  split
  · rfl
  split
  · split <;> rfl
  cases Tag.ofCode r.1 with
  | none => rfl
  | some tag =>
    simp only [some_bind]
    split
    · rfl
    · split_ifs <;> first | rfl | (cases readContent st.f tag r.2 <;> rfl)

theorem foldlM_step_withLetter {rs : List (UInt8 × Bytes)} (hrs : ∀ r ∈ rs, r.1 ≠ recipient ∧ r.1 ≠ group)
    (st : State) (letter : Option LetterParts) : rs.foldlM (step kind anchorWithPrev blinds) (st.withLetter letter) =
      (rs.foldlM (step kind anchorWithPrev blinds) st).map fun st => st.withLetter letter := by
  induction rs generalizing st with
  | nil => rfl
  | cons r rs ih =>
    have hrest := ih fun r' hr' => hrs r' (mem_cons_of_mem r hr')
    rw [foldlM_cons, foldlM_cons, 
      step_withLetter kind anchorWithPrev blinds st letter (hrs r mem_cons_self)]
    cases step kind anchorWithPrev blinds st r with
    | none => rfl
    | some st₁ => exact hrest st₁

variable {kind}

theorem foldlM_step_recipients (hkind : letterKind kind) {ids : List Bytes} (hids : ∀ r ∈ ids, r.length = 32)
    {st : State} {parts : LetterParts} (hparts : st.letter = some parts)
      (hlast : outOfOrder st.last recipient = false) :
    ∃ last, outOfOrder last recipient = false ∧ outOfOrder last group = false ∧
      (ids.map fun r => (recipient, r)).foldlM (step kind anchorWithPrev blinds) st =
        some { st with letter := some { parts with recipients := parts.recipients ++ ids }, last := last } := by
  induction ids generalizing st parts with
  | nil =>
    refine ⟨st.last, hlast, ?_, by simp [← hparts]⟩
    cases hst : st.last with
    | none => rfl
    | some prev =>
      rw [hst] at hlast
      simp only [outOfOrder, Option.any_some, decide_eq_false_iff_not, not_or, not_lt] at hlast ⊢
      have hle : prev ≤ recipient := hlast.1
      have hlt : prev < group := lt_of_le_of_lt hle (by decide)
      exact ⟨hlt.le, fun h => absurd h.1.symm hlt.ne⟩
  | cons r ids ih =>
    have hr := hids r mem_cons_self
    have hstep : step kind anchorWithPrev blinds st (recipient, r) = some
        { st with letter := some { parts with recipients := parts.recipients ++ [r] }, last := some recipient } := by
      have hext : ¬firstExtension ≤ recipient := by decide
      simp only [step, hlast, Bool.false_eq_true, if_false, hext, true_or, if_true, hparts, some_bind, hkind, Bool.not_true, readLetter, hr]
      rfl
    have hletter : State.letter { st with letter := some { parts with recipients := parts.recipients ++ [r] }, last := some recipient } =
        some { parts with recipients := parts.recipients ++ [r] } := rfl
    obtain ⟨last, hrec, hgroup, hfold⟩ := ih (fun r' hr' => hids r' (mem_cons_of_mem r hr')) hletter rfl
    refine ⟨last, hrec, hgroup, ?_⟩
    rw [map_cons, foldlM_cons, hstep]
    simpa using hfold

theorem foldlM_step_letterRecords (hkind : letterKind kind) {ids : List Bytes} (hids : ∀ r ∈ ids, r.length = 32)
    (g : Option LetterGroup) {st : State} (hletter : st.letter = some {})
    (hlast : outOfOrder st.last recipient = false) :
    ∃ last, (letterRecords ids g).foldlM (step kind anchorWithPrev blinds) st =
      some { st with letter := some ⟨ids, g⟩, last := last } := by
  obtain ⟨last, -, hgroup, hfold⟩ := foldlM_step_recipients anchorWithPrev blinds hkind hids hletter hlast
  rw [letterRecords, foldlM_append, hfold]
  cases g with
  | none => exact ⟨last, by simp⟩
  | some g =>
    refine ⟨some group, ?_⟩
    have hext : ¬firstExtension ≤ group := by decide
    have hrec : group ≠ recipient := by decide
    have hcode : LetterGroup.fromCode g.code = some g := by cases g <;> rfl
    simp only [some_bind, Option.toList_some, map_cons, map_nil,
      foldlM_cons, foldlM_nil, step, hgroup, Bool.false_eq_true, if_false, hext, or_true, if_true, hkind,
      Bool.not_true, readLetter, hrec, hcode]
    simp

end Parts

/-! ### Letters that parse -/

theorem code_lt_recipient {kind : DocKind} (hkind : letterKind kind) {tag : Tag} (h : allowed kind tag false false) :
    tag.code < recipient := by
  cases kind <;> cases tag <;> first | decide | exact absurd h (by decide)

variable {kind : DocKind} {f : Fields} {ids : List Bytes} {g : Option LetterGroup}

theorem pushRecipients_eq (f : Fields) (ids : List Bytes) (g : Option LetterGroup) :
    pushRecipients (encode f) ids g = (records f ++ letterRecords ids g).flatMap record := by
  rw [pushRecipients, foldl_pushRecord, encode_eq, flatMap_append]

theorem parseInner_letter (hkind : letterKind kind) (hids : ∀ r ∈ ids, r.length = 32)
    (hshort : Short (records f ++ letterRecords ids g)) (hlt : ∀ r ∈ records f, r.1 < firstExtension) {fields : Fields}
    (hparse : parse (encode f) kind false = some fields) :
    (parseInner kind false false ((records f ++ letterRecords ids g).flatMap record) (some {})).map State.content =
      some (fields, some ⟨ids, g⟩) := by
  have hrecords : Short (records f) := fun r hr => hshort r (mem_append_left _ hr)
  rw [parse, bind_eq_some] at hparse
  obtain ⟨st, hst, hfields⟩ := hparse
  rw [encode_eq, parseInner_flatMap kind false false hrecords, Option.bind_eq_some_iff] at hst
  obtain ⟨st', hfold, hfinish⟩ := hst
  obtain ⟨rfl, hchecks⟩ := finish_eq_some.mp hfinish
  have htags := (stepFold_ok hfold).2.2.1
  have hlast : outOfOrder st'.last recipient = false := by
    rw [stepFold_last hfold, Option.or_none]
    cases hget : (records f).getLast? with
    | none => rfl
    | some r =>
      -- the last record is content, whose tags are lower
      have hmem := mem_of_getLast? hget
      have hcode : r.1 < recipient := by
        rcases htags r hmem with hext | hletter | ⟨tag, htag, hallowed⟩
        · exact absurd hext (not_le.mpr (hlt r hmem))
        · exact absurd hletter.1 (by decide)
        · rw [htag]
          exact code_lt_recipient hkind hallowed
      simp [outOfOrder, hcode.le]
  have hstart : ({ letter := some {} } : State) = ({ letter := none } : State).withLetter (some {}) := rfl
  obtain ⟨last, hrest⟩ := foldlM_step_letterRecords false false hkind hids g (show
    (st'.withLetter (some {})).letter = some {} from rfl) hlast
  have hend : finish kind false { st'.withLetter (some {}) with letter := some ⟨ids, g⟩, last := last } =
      some { st'.withLetter (some {}) with letter := some ⟨ids, g⟩, last := last } :=
    finish_eq_some.mpr ⟨rfl, hchecks⟩
  rw [parseInner_flatMap kind false false hshort, foldlM_append, hstart,
    foldlM_step_withLetter kind false false (code_of_mem_records f), hfold, Option.map_some,
      some_bind, hrest, Option.bind_some, hend, Option.map_some, ← Option.some.inj hfields]
  rfl

theorem sealOff_mem_records {v : Bytes} (h : f.sealOff = some v) : (sealOff, v) ∈ records f := by
  unfold records
  refine mem_append_right _ ?_
  rw [h]
  simp

theorem parseInner_marked (hne : ids ≠ []) (hmark : f.sealOff.isSome) {rs : List (UInt8 × Bytes)}
    (hshort : Short (records f ++ letterRecords ids g ++ rs)) (letter : Option LetterParts) :
    parseInner kind false false ((records f ++ letterRecords ids g ++ rs).flatMap record) letter = none := by
  obtain ⟨v, hv⟩ := Option.isSome_iff_exists.mp hmark
  obtain ⟨r, hr⟩ := exists_mem_of_ne_nil ids hne
  rw [parseInner_flatMap kind false false hshort]
  cases hfold : (records f ++ letterRecords ids g ++ rs).foldlM (step kind false false) { letter := letter } with
  | none => rfl
  | some st =>
    have hpairs := (stepFold_ok hfold).2.1
    rw [pairwise_append, pairwise_append] at hpairs
    have hmarker := sealOff_mem_records hv
    have hrecipient : (recipient, r) ∈ letterRecords ids g := mem_append_left _ (mem_map.mpr ⟨r, hr, rfl⟩)
    have hbad : Ascends sealOff recipient := hpairs.1.2.2 _ hmarker _ hrecipient
    exact absurd hbad (by unfold Ascends; decide)

end DashForge.Tlv
