import DashForge.Data.SortBy
import DashForge.Data.Utf8

/-!
# The issues a text closes

`linkedIssues` reads "Fixes #12" and its like out of a description, by a scan with one cursor over the text's words
and one that looks ahead from the end of a verb. What it finds is what the grammar says of the text (`Closes`,
`linkedIssues_spec`): where a reference is left half way, the scan goes on at a place before which none starts.
-/

namespace DashForge

open Bool (not_eq_false not_eq_true' or_eq_true)
open Option (any_some map_some mem_some some_ne_none)
open List

/-! ### Bytes -/

def isAsciiAlphabetic (b : UInt8) : Bool :=
  decide (0x41 ≤ b.toNat ∧ b.toNat ≤ 0x5a) || decide (0x61 ≤ b.toNat ∧ b.toNat ≤ 0x7a)

def isAsciiDigit (b : UInt8) : Bool := decide (0x30 ≤ b.toNat ∧ b.toNat ≤ 0x39)

/-- A letter, a digit or an underscore. -/
def isWordByte (b : UInt8) : Bool := isAsciiAlphabetic b || isAsciiDigit b || b == 0x5f

/-- A space or a tab. -/
def isBlankByte (b : UInt8) : Bool := b == 0x20 || b == 0x09

def lowerByte (b : UInt8) : UInt8 := if 0x41 ≤ b.toNat ∧ b.toNat ≤ 0x5a then b + 0x20 else b

/-- Whether a character starts at `i`, or the text ends there (`is_char_boundary`). -/
def isCharBoundary (bytes : List UInt8) (i : ℕ) : Bool :=
  i == 0 || if i < bytes.length then bytes[i]?.any fun b =>
    decide (¬(0x80 ≤ b.toNat ∧ b.toNat < 0xc0)) else i == bytes.length

/-- `text[a..b]`, which is `none` where it panics. -/
def sliceBytes (bytes : List UInt8) (a b : ℕ) : Option (List UInt8) :=
  if a ≤ b ∧ isCharBoundary bytes a ∧ isCharBoundary bytes b then some ((bytes.drop a).take (b - a)) else none

/-- The first index from `i` on where the text ends or its byte fails `p`. -/
def skipWhile (p : UInt8 → Bool) (bytes : List UInt8) (i : ℕ) : ℕ := i + ((bytes.drop i).takeWhile p).length

/-- The value of a run of digits. -/
def decimalValue (ds : List UInt8) : ℕ := ds.foldl (fun n b => 10 * n + (b.toNat - 0x30)) 0

/-- `str::parse::<u32>` of a run of digits. -/
def parseDigitsU32 (ds : List UInt8) : Option ℕ := if decimalValue ds < 2 ^ 32 then some (decimalValue ds) else none

/-! ### The scan -/

/-- The verbs before a reference, in lower case. -/
def linkVerbs : List (List UInt8) :=
  ["close", "closes", "closed", "fix", "fixes", "fixed", "resolve", "resolves", "resolved"].map fun v =>
    v.toList.map Char.toUInt8

/-- The reference from the end `i` of a verb on, if there is one: where it ends, and its number. -/
def linkTarget (bytes : List UInt8) (i : ℕ) : Option (Option (ℕ × Option ℕ)) :=
  let j := if bytes[i]? = some 0x3a then i + 1 else i
  let ws := j
  let j := skipWhile isBlankByte bytes j
  if j = ws ∨ bytes[j]? ≠ some 0x23 then some none
  else
    let digits := j + 1
    let j := skipWhile isAsciiDigit bytes digits
    if j = digits ∨ bytes[j]?.any isWordByte then some none
    else (sliceBytes bytes digits j).map fun ds => some (j, (parseDigitsU32 ds).filter (0 < ·))

/-- One round of the scan at `i`: where the next one is, and the number found. -/
def linkRound (bytes : List UInt8) (i : ℕ) : Option (ℕ × Option ℕ) :=
  if !bytes[i]?.any isAsciiAlphabetic || (decide (0 < i) && bytes[i - 1]?.any isWordByte) then some (i + 1, none)
  else
    let start := i
    let i := skipWhile isAsciiAlphabetic bytes i
    (sliceBytes bytes start i).bind fun word =>
      if bytes[i]?.any isWordByte || !linkVerbs.contains (word.map lowerByte) then some (i, none)
      else (linkTarget bytes i).map fun found => found.getD (i, none)

/-- The scan from `i` on, within a number of rounds. -/
def linkScan (bytes : List UInt8) : ℕ → ℕ → List ℕ → Option (List ℕ)
  | 0, _, _ => none
  | n + 1, i, out =>
    if i < bytes.length then (linkRound bytes i).bind fun (j, found) => linkScan bytes n j (out ++ found.toList)
    else some out

/-- The numbers of the issues a text closes, ascending. It is `none` where a slice panics or the scan does not end. -/
def linkedIssues (text : String) : Option (List ℕ) :=
  (linkScan (utf8 text) ((utf8 text).length + 1) 0 []).map sortedDistinct

/-! ### The grammar -/

/-- What follows a verb: a colon or none, blanks, a hash sign and the number, with no word character after it. -/
def Target (rest : List UInt8) (n : ℕ) : Prop :=
  ∃ colon gap digits after, rest = colon ++ (gap ++ 0x23 :: (digits ++ after)) ∧ (colon = [] ∨ colon = [0x3a]) ∧
    gap ≠ [] ∧ (∀ b ∈ gap, isBlankByte b = true) ∧ digits ≠ [] ∧ (∀ b ∈ digits, isAsciiDigit b = true) ∧
    (∀ b ∈ after.head?, isWordByte b = false) ∧ decimalValue digits = n ∧ 0 < n ∧ n < 2 ^ 32

/-- A text closes an issue with a verb, of any case, that no word character stands before, and a reference to it. None
stands after the verb either, as the reference starts with a colon or a blank. -/
def Closes (text : List UInt8) (n : ℕ) : Prop :=
  ∃ front verb rest, text = front ++ (verb ++ rest) ∧ (∀ b ∈ front.getLast?, isWordByte b = false) ∧
    verb.map lowerByte ∈ linkVerbs ∧ Target rest n

/-! ### Runs of bytes -/

section Runs

variable {p : UInt8 → Bool}

variable {l r : List UInt8}

variable (hl : ∀ b ∈ l, p b = true) (hr : ∀ b ∈ r.head?, p b = false)

include hl hr in
theorem takeWhile_run : (l ++ r).takeWhile p = l := by
  rw [takeWhile_append_of_pos hl]
  cases r with
  | nil => rw [takeWhile_nil, append_nil]
  | cons b r => rw [takeWhile_cons_of_neg (by simp [hr b rfl]), append_nil]

include hl hr in
theorem dropWhile_run : (l ++ r).dropWhile p = r := by
  have h := takeWhile_append_dropWhile (p := p) (l := l ++ r)
  rw [takeWhile_run hl hr] at h
  exact append_cancel_left h

theorem mem_takeWhile {b : UInt8} (h : b ∈ l.takeWhile p) : p b = true :=
  all_eq_true.mp all_takeWhile b h

theorem drop_skipWhile (bytes : List UInt8) (i : ℕ) :
    bytes.drop (skipWhile p bytes i) = (bytes.drop i).dropWhile p := by
  rw [skipWhile, ← drop_drop]
  have h := takeWhile_append_dropWhile (p := p) (l := bytes.drop i)
  calc (bytes.drop i).drop ((bytes.drop i).takeWhile p).length
      = ((bytes.drop i).takeWhile p ++ (bytes.drop i).dropWhile p).drop ((bytes.drop i).takeWhile p).length := by rw [h]
    _ = (bytes.drop i).dropWhile p := drop_left

theorem le_skipWhile (bytes : List UInt8) (i : ℕ) : i ≤ skipWhile p bytes i := Nat.le_add_right _ _

theorem skipWhile_eq_self {bytes : List UInt8} {i : ℕ} : skipWhile p bytes i = i ↔ (bytes.drop i).takeWhile p = [] := by
  rw [skipWhile, Nat.add_eq_left, length_eq_zero_iff]

/-- The bytes that are skipped. -/
theorem getElem?_of_lt_skipWhile {bytes : List UInt8} {i a : ℕ} (ha : i ≤ a) (hlt : a < skipWhile p bytes i) :
    ∃ b, bytes[a]? = some b ∧ p b = true := by
  rw [skipWhile] at hlt
  have hlen : a - i < ((bytes.drop i).takeWhile p).length := by omega
  refine ⟨_, ?_, mem_takeWhile (getElem_mem hlen)⟩
  have hget := prefix_iff_getElem?.mp (List.takeWhile_prefix (l := bytes.drop i) p) (a - i) hlen
  rwa [getElem?_drop, Nat.add_sub_cancel' ha] at hget

end Runs

/-! ### Character boundaries -/

variable {bytes rest : List UInt8} {i n : ℕ} {b : UInt8}

theorem isCharBoundary_of_ascii (h : bytes[i]? = some b) (hb : b.toNat < 0x80) : isCharBoundary bytes i = true := by
  obtain ⟨hlt, -⟩ := List.getElem?_eq_some_iff.mp h
  have hcont : decide (¬(0x80 ≤ b.toNat ∧ b.toNat < 0xc0)) = true := decide_eq_true fun hc => by omega
  rw [isCharBoundary, if_pos hlt, h, any_some, hcont, Bool.or_true]

theorem isCharBoundary_succ (text : String) (h : (utf8 text)[i]? = some b) (hb : b.toNat < 0x80) :
    isCharBoundary (utf8 text) (i + 1) = true := by
  obtain ⟨hlt, hget⟩ := List.getElem?_eq_some_iff.mp h
  rw [isCharBoundary]
  by_cases hend : i + 1 < (utf8 text).length
  · have hchain := isChain_iff_getElem.mp (isChain_utf8 text) i hend (by rw [hget]; exact hb)
    have hcont : decide (¬(0x80 ≤ (utf8 text)[i + 1].toNat ∧ (utf8 text)[i + 1].toNat < 0xc0)) = true :=
      decide_eq_true hchain
    rw [if_pos hend, getElem?_eq_getElem hend, any_some, hcont, Bool.or_true]
  · have heq : i + 1 = (utf8 text).length := by omega
    rw [if_neg hend, heq, beq_self_eq_true, Bool.or_true]

theorem sliceBytes_skipWhile (text : String) {p : UInt8 → Bool} (hp : ∀ b, p b = true → b.toNat < 0x80)
    (hne : skipWhile p (utf8 text) i ≠ i) : sliceBytes (utf8 text) i (skipWhile p (utf8 text) i) =
      some (((utf8 text).drop i).takeWhile p) := by
  have hle := le_skipWhile (p := p) (utf8 text) i
  obtain ⟨b, hb, hpb⟩ := getElem?_of_lt_skipWhile le_rfl (lt_of_le_of_ne hle (Ne.symm hne))
  have hlast : skipWhile p (utf8 text) i - 1 < skipWhile p (utf8 text) i := by omega
  obtain ⟨c, hc, hpc⟩ := getElem?_of_lt_skipWhile (by omega) hlast
  have hend := isCharBoundary_succ text hc (hp c hpc)
  rw [Nat.sub_add_cancel (by omega)] at hend
  rw [sliceBytes, if_pos ⟨hle, isCharBoundary_of_ascii hb (hp b hpb), hend⟩, skipWhile, Nat.add_sub_cancel_left,
    ← prefix_iff_eq_take.mp (List.takeWhile_prefix p)]

theorem isAsciiAlphabetic_lt (h : isAsciiAlphabetic b = true) : b.toNat < 0x80 := by
  simp only [isAsciiAlphabetic, or_eq_true, decide_eq_true_eq] at h
  omega

theorem isAsciiDigit_lt (h : isAsciiDigit b = true) : b.toNat < 0x80 := by
  simp only [isAsciiDigit, decide_eq_true_eq] at h
  omega

/-! ### What stands where -/

theorem isWordByte_of_isAsciiAlphabetic (h : isAsciiAlphabetic b = true) : isWordByte b = true := by
  rw [isWordByte, h, Bool.true_or, Bool.true_or]

theorem isWordByte_of_isAsciiDigit (h : isAsciiDigit b = true) : isWordByte b = true := by
  rw [isWordByte, h, Bool.or_true, Bool.true_or]

theorem isAsciiAlphabetic_of_isAsciiDigit (h : isAsciiDigit b = true) : isAsciiAlphabetic b = false := by
  simp only [isAsciiDigit, decide_eq_true_eq] at h
  simp only [isAsciiAlphabetic, Bool.or_eq_false_iff, decide_eq_false_iff_not]
  omega

theorem isWordByte_of_isBlankByte (h : isBlankByte b = true) : isWordByte b = false := by
  simp only [isBlankByte, or_eq_true, beq_iff_eq] at h
  rcases h with rfl | rfl <;> decide

theorem isAsciiAlphabetic_of_isBlankByte (h : isBlankByte b = true) : isAsciiAlphabetic b = false := by
  simp only [isBlankByte, or_eq_true, beq_iff_eq] at h
  rcases h with rfl | rfl <;> decide

theorem not_any_isWordByte {o : Option UInt8} : ¬o.any isWordByte = true ↔ ∀ b ∈ o, isWordByte b = false := by
  cases o with
  | none => simp
  | some b => simp

theorem isAsciiAlphabetic_of_verb {verb : List UInt8} (h : verb.map lowerByte ∈ linkVerbs) :
    verb ≠ [] ∧ ∀ b ∈ verb, isAsciiAlphabetic b = true := by
  have hverbs : (linkVerbs.all fun v => !v.isEmpty && v.all fun b =>
      decide (0x61 ≤ b.toNat ∧ b.toNat ≤ 0x7a)) = true := by
    decide
  have hverb := all_eq_true.mp hverbs _ h
  rw [Bool.and_eq_true, not_eq_true', isEmpty_eq_false_iff] at hverb
  have hne := hverb.1
  have hlower := fun b hb => of_decide_eq_true (all_eq_true.mp hverb.2 b hb)
  refine ⟨fun hnil => hne (by rw [hnil]; rfl), fun b hb => ?_⟩
  have hb := hlower _ (mem_map_of_mem hb)
  rw [lowerByte] at hb
  simp only [isAsciiAlphabetic, or_eq_true, decide_eq_true_eq]
  split at hb
  · exact .inl ‹_›
  · exact .inr hb

theorem target_iff : Target rest n ↔
    ∃ r d, (if rest.head? = some 0x3a then rest.tail else rest) = r ∧ r.takeWhile isBlankByte ≠ [] ∧
      r.dropWhile isBlankByte = 0x23 :: d ∧ d.takeWhile isAsciiDigit ≠ [] ∧
      (∀ b ∈ (d.dropWhile isAsciiDigit).head?, isWordByte b = false) ∧
      decimalValue (d.takeWhile isAsciiDigit) = n ∧ 0 < n ∧ n < 2 ^ 32 := by
  constructor
  · rintro ⟨colon, gap, digits, after, rfl, hcolon, hgap, hblank, hdigits, hdigit, hafter, hval, hpos, hmax⟩
    have hrun : ∀ b ∈ after.head?, isAsciiDigit b = false := fun b hb => by
      by_contra h
      rw [not_eq_false] at h
      exact Bool.false_ne_true ((hafter b hb).symm.trans (isWordByte_of_isAsciiDigit h))
    refine ⟨gap ++ 0x23 :: (digits ++ after), digits ++ after, ?_, ?_, ?_, ?_, ?_, ?_, hpos, hmax⟩
    · rcases hcolon with rfl | rfl
      · obtain ⟨b, bs, rfl⟩ := exists_cons_of_ne_nil hgap
        refine if_neg fun hb => ?_
        rw [nil_append, cons_append, head?_cons, Option.some.injEq] at hb
        exact absurd (hblank b mem_cons_self) (by rw [hb]; decide)
      · exact if_pos rfl
    · rwa [takeWhile_run hblank (by simp; decide)]
    · exact dropWhile_run hblank (by simp; decide)
    · rwa [takeWhile_run hdigit hrun]
    · rwa [dropWhile_run hdigit hrun]
    · rwa [takeWhile_run hdigit hrun]
  · rintro ⟨r, d, hr, hgap, hhash, hdigits, hafter, hval, hpos, hmax⟩
    refine ⟨if rest.head? = some 0x3a then [0x3a] else [], r.takeWhile isBlankByte, d.takeWhile isAsciiDigit,
      d.dropWhile isAsciiDigit, ?_, ?_, hgap, fun b => mem_takeWhile, hdigits, fun b => mem_takeWhile, hafter, hval,
      hpos, hmax⟩
    · rw [takeWhile_append_dropWhile, ← hhash, takeWhile_append_dropWhile, ← hr]
      split
      · next h =>
        obtain ⟨t, rfl⟩ := head?_eq_some_iff.mp h
        rfl
      · rfl
    · split
      exacts [.inr rfl, .inl rfl]

theorem filter_parseDigitsU32 {ds : List UInt8} :
    (parseDigitsU32 ds).filter (0 < ·) = some n ↔ decimalValue ds = n ∧ 0 < n ∧ n < 2 ^ 32 := by
  rw [parseDigitsU32]
  split
  · next h =>
    rw [Option.filter_some]
    split
    · next hpos =>
      rw [Option.some.injEq]
      refine ⟨fun heq => ⟨heq, ?_, heq ▸ h⟩, fun heq => heq.1⟩
      exact heq ▸ of_decide_eq_true hpos
    · next hpos =>
      refine iff_of_false (some_ne_none n).symm fun heq => hpos ?_
      rw [heq.1]
      exact decide_eq_true heq.2.1
  · next h => exact iff_of_false (some_ne_none n).symm fun heq => h (heq.1 ▸ heq.2.2)

theorem linkTarget_spec (text : String) (i : ℕ) : ∃ found, linkTarget (utf8 text) i = some found ∧
    (∀ n, (∃ j, found = some (j, some n)) ↔ Target ((utf8 text).drop i) n) ∧
    ∀ j m, found = some (j, m) → i < j ∧ ∀ a, i ≤ a → a < j → ∀ b ∈ (utf8 text)[a]?, isAsciiAlphabetic b = false := by
  simp only [target_iff, linkTarget]
  have hr : (if ((utf8 text).drop i).head? = some 0x3a then ((utf8 text).drop i).tail else (utf8 text).drop i) =
      (utf8 text).drop (if (utf8 text)[i]? = some 0x3a then i + 1 else i) := by
    rw [head?_drop, tail_drop]
    split <;> rfl
  have hcolon : ∀ a, i ≤ a → a < (if (utf8 text)[i]? = some 0x3a then i + 1 else i) →
      ∀ b ∈ (utf8 text)[a]?, isAsciiAlphabetic b = false := fun a ha hlt b hb => by
    split at hlt
    · next h =>
      obtain rfl : a = i := by omega
      rw [h, mem_some] at hb
      rw [← hb]
      decide
    · omega
  have hle : i ≤ if (utf8 text)[i]? = some 0x3a then i + 1 else i := by split <;> omega
  rw [hr]
  generalize (if (utf8 text)[i]? = some 0x3a then i + 1 else i) = j at hcolon hle ⊢
  have hblank := drop_skipWhile (p := isBlankByte) (utf8 text) j
  have hlej := le_skipWhile (p := isBlankByte) (utf8 text) j
  have hself : skipWhile isBlankByte (utf8 text) j = j ↔ _ := skipWhile_eq_self
  have hskip : ∀ a, j ≤ a → a < skipWhile isBlankByte (utf8 text) j → ∃ b, (utf8 text)[a]? = some b ∧
      isBlankByte b = true :=
    fun a ha hlt => getElem?_of_lt_skipWhile ha hlt
  split
  · next h =>
    refine ⟨none, rfl, fun n => iff_of_false ?_ ?_, fun j m hsome => (some_ne_none _ hsome.symm).elim⟩
    · rintro ⟨k, hk⟩
      exact some_ne_none _ hk.symm
    · rintro ⟨r, d, rfl, hgap, hhash, -⟩
      rcases h with h | h
      · exact hgap (skipWhile_eq_self.mp h)
      · rw [← head?_drop, hblank, hhash] at h
        exact h rfl
  · next h =>
    rw [not_or, not_not] at h
    obtain ⟨hne, hhash⟩ := h
    generalize skipWhile isBlankByte (utf8 text) j = k at hne hhash hblank hlej hself hskip ⊢
    have hdrop : ((utf8 text).drop j).dropWhile isBlankByte = 0x23 :: (utf8 text).drop (k + 1) := by
      obtain ⟨hlt, hget⟩ := List.getElem?_eq_some_iff.mp hhash
      rw [← hblank, drop_eq_getElem_cons hlt, hget]
    have hafter := drop_skipWhile (p := isAsciiDigit) (utf8 text) (k + 1)
    have hlek := le_skipWhile (p := isAsciiDigit) (utf8 text) (k + 1)
    split
    · next h =>
      refine ⟨none, rfl, fun n => iff_of_false ?_ ?_, fun j m hsome => (some_ne_none _ hsome.symm).elim⟩
      · rintro ⟨k, hk⟩
        exact some_ne_none _ hk.symm
      · rintro ⟨r, d, rfl, -, hd, hdigits, hword, -⟩
        obtain rfl := (List.cons.inj (hdrop.symm.trans hd)).2
        rcases h with h | h
        · exact hdigits (skipWhile_eq_self.mp h)
        · rw [← hafter, head?_drop] at hword
          exact not_any_isWordByte.mpr hword h
    · next h =>
      rw [not_or] at h
      refine ⟨_, by rw [sliceBytes_skipWhile text (fun b => isAsciiDigit_lt) h.1, map_some], fun n => ?_, ?_⟩
      · constructor
        · rintro ⟨e, he⟩
          obtain ⟨-, hfilter⟩ := Prod.mk.inj (Option.some.inj he)
          refine ⟨_, _, rfl, fun hnil => hne (hself.mpr hnil), hdrop, fun hnil => h.1 (skipWhile_eq_self.mpr hnil), ?_,
            filter_parseDigitsU32.mp hfilter⟩
          rw [← hafter, head?_drop]
          exact not_any_isWordByte.mp h.2
        · rintro ⟨r, d, rfl, -, hd, -, -, hvalue⟩
          obtain rfl := (List.cons.inj (hdrop.symm.trans hd)).2
          exact ⟨_, by rw [filter_parseDigitsU32.mpr hvalue]⟩
      · intro e m he
        obtain ⟨rfl, -⟩ := Prod.mk.inj (Option.some.inj he)
        refine ⟨by omega, fun a ha hlt b hb => ?_⟩
        -- The colon, the blanks, the hash sign and the digits.
        rcases lt_or_ge a j with haj | haj
        · exact hcolon a ha haj b hb
        rcases Nat.lt_trichotomy a k with hak | rfl | hak
        · obtain ⟨c, hc, hblankc⟩ := hskip a haj hak
          rw [hc, mem_some] at hb
          exact isAsciiAlphabetic_of_isBlankByte (hb ▸ hblankc)
        · rw [hhash, mem_some] at hb
          rw [← hb]
          decide
        · obtain ⟨c, hc, hdigit⟩ := getElem?_of_lt_skipWhile hak hlt
          rw [hc, mem_some] at hb
          exact isAsciiAlphabetic_of_isAsciiDigit (hb ▸ hdigit)

/-! ### The scan finds what the grammar says -/

/-- A verb at `a` closes issue `n`. -/
def ClosesAt (bytes : List UInt8) (a n : ℕ) : Prop :=
  ¬(0 < a ∧ bytes[a - 1]?.any isWordByte = true) ∧
    ((bytes.drop a).takeWhile isAsciiAlphabetic).map lowerByte ∈ linkVerbs ∧
      Target ((bytes.drop a).dropWhile isAsciiAlphabetic) n

theorem Target.not_word (h : Target rest n) : ∀ b ∈ rest.head?, isWordByte b = false := by
  obtain ⟨colon, gap, digits, after, rfl, rfl | rfl, hgap, hblank, -⟩ := h
  · obtain ⟨g, gs, rfl⟩ := exists_cons_of_ne_nil hgap
    intro b hb
    rw [nil_append, cons_append, head?_cons, mem_some] at hb
    exact isWordByte_of_isBlankByte (hb ▸ hblank g mem_cons_self)
  · intro b hb
    rw [singleton_append, head?_cons, mem_some] at hb
    rw [← hb]
    decide

theorem Target.head (h : Target rest n) : ∀ b ∈ rest.head?, isAsciiAlphabetic b = false := by
  intro b hb
  by_contra hletter
  rw [not_eq_false] at hletter
  exact Bool.false_ne_true ((h.not_word b hb).symm.trans (isWordByte_of_isAsciiAlphabetic hletter))

theorem closes_iff : Closes bytes n ↔ ∃ a, ClosesAt bytes a n := by
  constructor
  · rintro ⟨front, verb, rest, rfl, hfront, hverb, htarget⟩
    refine ⟨front.length, fun ⟨hpos, hword⟩ => ?_, ?_⟩
    · rw [getElem?_append_left (by omega), ← List.getLast?_eq_getElem?] at hword
      exact not_any_isWordByte.mpr hfront hword
    · rw [drop_left, takeWhile_run (isAsciiAlphabetic_of_verb hverb).2 htarget.head,
        dropWhile_run (isAsciiAlphabetic_of_verb hverb).2 htarget.head]
      exact ⟨hverb, htarget⟩
  · rintro ⟨a, hfront, hverb, htarget⟩
    refine ⟨bytes.take a, _, _, ?_, not_any_isWordByte.mp fun hword => hfront ?_, hverb, htarget⟩
    · rw [takeWhile_append_dropWhile, take_append_drop]
    · rw [getLast?_take] at hword
      split at hword
      · exact absurd hword (by decide)
      · next ha =>
        refine ⟨Nat.pos_of_ne_zero ha, ?_⟩
        have hlt : a < bytes.length := by
          by_contra h
          rw [drop_eq_nil_of_le (Nat.le_of_not_lt h)] at hverb
          exact (isAsciiAlphabetic_of_verb hverb).1 rfl
        rwa [getElem?_eq_getElem (by omega), Option.some_or, ← getElem?_eq_getElem] at hword

theorem ClosesAt.alphabetic {a : ℕ} (h : ClosesAt bytes a n) : bytes[a]?.any isAsciiAlphabetic = true := by
  have hne := (isAsciiAlphabetic_of_verb h.2.1).1
  obtain ⟨b, hb, hp⟩ := getElem?_of_lt_skipWhile (p := isAsciiAlphabetic) le_rfl
    (lt_of_le_of_ne (le_skipWhile bytes a) fun heq => hne (skipWhile_eq_self.mp heq.symm))
  rw [hb, any_some, hp]

theorem not_closesAt_of_lt_skipWhile {a : ℕ} (ha : i < a)
    (hlt : a < skipWhile isAsciiAlphabetic bytes i) : ¬ClosesAt bytes a n := by
  intro h
  have hprev : a - 1 < skipWhile isAsciiAlphabetic bytes i := by omega
  obtain ⟨b, hb, hp⟩ := getElem?_of_lt_skipWhile (by omega) hprev
  refine h.1 ⟨by omega, ?_⟩
  rw [hb, any_some]
  exact isWordByte_of_isAsciiAlphabetic hp

theorem exists_closesAt_iff {j : ℕ} (hij : i < j) (hnone : ∀ a, i < a → a < j → ¬ClosesAt bytes a n) :
    (∃ a, i ≤ a ∧ a < j ∧ ClosesAt bytes a n) ↔ ClosesAt bytes i n := by
  constructor
  · rintro ⟨a, hia, haj, h⟩
    rcases Nat.eq_or_lt_of_le hia with rfl | hlt
    exacts [h, absurd h (hnone a hlt haj)]
  · exact fun h => ⟨i, le_rfl, hij, h⟩

theorem linkRound_spec (text : String) (hi : i < (utf8 text).length) : ∃ j found,
    linkRound (utf8 text) i = some (j, found) ∧ i < j ∧
      ∀ n, found = some n ↔ ∃ a, i ≤ a ∧ a < j ∧ ClosesAt (utf8 text) a n := by
  rw [linkRound]
  split
  · next h =>
    refine ⟨i + 1, none, rfl, by omega, fun n => ?_⟩
    rw [exists_closesAt_iff (by omega) fun a _ _ => by omega]
    refine iff_of_false (some_ne_none n).symm fun hat => ?_
    rw [hat.alphabetic, Bool.not_true, Bool.false_or, Bool.and_eq_true, decide_eq_true_eq] at h
    exact hat.1 h
  · next h =>
    rw [or_eq_true, not_or, not_eq_true', not_eq_false, Bool.and_eq_true, decide_eq_true_eq] at h
    obtain ⟨halpha, hfront⟩ := h
    have hne : skipWhile isAsciiAlphabetic (utf8 text) i ≠ i := fun heq => by
      rw [getElem?_eq_getElem hi, any_some] at halpha
      rw [skipWhile_eq_self, drop_eq_getElem_cons hi, takeWhile_cons_of_pos halpha] at heq
      exact cons_ne_nil _ _ heq
    have hlt := lt_of_le_of_ne (le_skipWhile (utf8 text) i) hne.symm
    have hdrop := drop_skipWhile (p := isAsciiAlphabetic) (utf8 text) i
    have hin : ∀ a, i < a → a < skipWhile isAsciiAlphabetic (utf8 text) i → ∀ n, ¬ClosesAt (utf8 text) a n :=
      fun a ha hlt n => not_closesAt_of_lt_skipWhile ha hlt
    have hslice := sliceBytes_skipWhile text (fun b => isAsciiAlphabetic_lt) hne
    dsimp only
    rw [hslice, Option.bind_some]
    generalize skipWhile isAsciiAlphabetic (utf8 text) i = e at hlt hdrop hin ⊢
    split
    · next hstop =>
      refine ⟨e, none, rfl, hlt, fun n => ?_⟩
      rw [exists_closesAt_iff hlt fun a ha hae => hin a ha hae n]
      refine iff_of_false (some_ne_none n).symm fun hat => ?_
      rw [or_eq_true, not_eq_true', ← Bool.not_eq_true, contains_iff_mem] at hstop
      refine hstop.elim ?_ fun hverb => hverb hat.2.1
      rw [← head?_drop, hdrop]
      exact not_any_isWordByte.mpr hat.2.2.not_word
    · next hgo =>
      rw [or_eq_true, not_or, not_eq_true', not_eq_false, contains_iff_mem] at hgo
      obtain ⟨found, hfound, hspec, hskip⟩ := linkTarget_spec text e
      rw [hfound, map_some]
      have hat : ∀ n, ClosesAt (utf8 text) i n ↔ ∃ j, found = some (j, some n) := fun n => by
        rw [hspec, hdrop]
        exact ⟨fun h => h.2.2, fun h => ⟨hfront, hgo.2, h⟩⟩
      cases found with
      | none =>
        refine ⟨e, none, rfl, hlt, fun n => ?_⟩
        rw [exists_closesAt_iff hlt fun a ha hae => hin a ha hae n, hat]
        exact iff_of_false (some_ne_none n).symm fun ⟨_, h⟩ => some_ne_none _ h.symm
      | some res =>
        obtain ⟨j, m⟩ := res
        obtain ⟨hej, hnone⟩ := hskip j m rfl
        refine ⟨j, m, rfl, hlt.trans hej, fun n => ?_⟩
        rw [exists_closesAt_iff (hlt.trans hej), hat]
        · exact ⟨fun h => ⟨j, by rw [h]⟩, fun ⟨_, h⟩ => (Prod.mk.inj (Option.some.inj h)).2⟩
        · -- No letter stands between the verb and the end of the reference.
          intro a ha haj hclose
          rcases lt_or_ge a e with hae | hae
          · exact hin a ha hae n hclose
          · obtain ⟨b, hb, hletter⟩ := (Option.any_eq_true _ _).mp hclose.alphabetic
            exact Bool.false_ne_true ((hnone a hae haj b hb).symm.trans hletter)

theorem linkScan_spec (text : String) {rounds : ℕ} (hrounds : (utf8 text).length - i < rounds) (out : List ℕ) :
    ∃ found, linkScan (utf8 text) rounds i out = some found ∧
      ∀ n, n ∈ found ↔ n ∈ out ∨ ∃ a, i ≤ a ∧ ClosesAt (utf8 text) a n := by
  have hend : ∀ a n, (utf8 text).length ≤ a → ¬ClosesAt (utf8 text) a n := fun a n ha h => by
    have hletter := h.alphabetic
    rw [getElem?_eq_none ha] at hletter
    exact Bool.false_ne_true hletter
  induction rounds generalizing i out with
  | zero => exact absurd hrounds (Nat.not_lt_zero _)
  | succ rounds ih =>
    rw [linkScan]
    split
    · next hi =>
      obtain ⟨j, found, hround, hij, hfound⟩ := linkRound_spec text hi
      obtain ⟨rest, hrest, hmem⟩ := ih (i := j) (by omega) (out ++ found.toList)
      refine ⟨rest, by rw [hround]; exact hrest, fun n => ?_⟩
      rw [hmem, mem_append, Option.mem_toList, hfound, or_assoc]
      refine or_congr_right ⟨?_, ?_⟩
      · rintro (⟨a, ha, -, h⟩ | ⟨a, ha, h⟩)
        exacts [⟨a, ha, h⟩, ⟨a, hij.le.trans ha, h⟩]
      · rintro ⟨a, ha, h⟩
        exact (lt_or_ge a j).imp (fun hlt => ⟨a, ha, hlt, h⟩) fun hge => ⟨a, hge, h⟩
    · next hi =>
      refine ⟨out, rfl, fun n => (or_iff_left ?_).symm⟩
      rintro ⟨a, ha, h⟩
      exact hend a n (by omega) h

/-- The scan ends, cuts no character and finds what the grammar says, each number once and in order. -/
theorem linkedIssues_spec (text : String) : ∃ issues, linkedIssues text = some issues ∧
    issues.Pairwise (· < ·) ∧ ∀ n, n ∈ issues ↔ Closes (utf8 text) n := by
  obtain ⟨found, hfound, hmem⟩ := linkScan_spec text (show (utf8 text).length - 0 < (utf8 text).length + 1 by omega) []
  refine ⟨sortedDistinct found, by rw [linkedIssues, hfound, Option.map_some],
      pairwise_sortedDistinct found, fun n => ?_⟩
  rw [mem_sortedDistinct, hmem, closes_iff, or_iff_right List.not_mem_nil]
  exact exists_congr fun a => and_iff_right (Nat.zero_le a)

end DashForge
