import DashForge.Data.Hex
import DashForge.Rules.LongBodyCut

/-!
# Long bodies

A text longer than its field is stored as an artifact, and the field keeps a prefix of it and a last line that names the
artifact by hash and length (`rules/long_body.rs`). `storedText` writes the field, `parse` reads it, and `refit` writes
it again for a smaller room.

`parse_append_trailer` reads a written field back: the trailer has no newline, so it is the last line whatever the prefix
is, and the reader takes the prefix up to its own newlines. The length that a reader takes from a field is within its
limits, which its type says (`BodyLength`), so `refit` can write it again.
-/

namespace DashForge

open List Option

namespace LongBody

/-- The longest text that a trailer names, in bytes. -/
def maxBytes : ℕ := 262144

/-- What the trailer line starts with. -/
def opening : List Char := "<!-- forge:body ".toList

/-- What the trailer line ends with. -/
def closing : List Char := " -->".toList

/-- What stands between the prefix and the trailer. -/
def separator : List Char := ['\n', '\n']

/-- The hash of an artifact's bytes. -/
abbrev PackHash := {b : List UInt8 // b.length = 32}

/-- The length of a text that a trailer may name. -/
abbrev BodyLength := {n : ℕ // 1 ≤ n ∧ n ≤ maxBytes}

end LongBody

/-- What a stored field says about its text. -/
inductive LongBody where
  /-- The field is the whole text. -/
  | plain
  /-- The text goes on in an artifact, named by its hash and the length of the text. -/
  | continued (pre : List Char) (sha256 : LongBody.PackHash) (bytes : LongBody.BodyLength)
  /-- The last line starts like a trailer but cannot be read as one. -/
  | unsupported (pre : List Char)
deriving DecidableEq

namespace LongBody

/-! ### Reading -/

def isHexDigit (c : Char) : Bool := ('0' ≤ c && c ≤ '9') || ('a' ≤ c && c ≤ 'f')

/-- A hash of 64 lowercase hex digits. -/
def hex64 (v : List Char) : Option PackHash :=
  if byteLen v = 64 ∧ v.all isHexDigit then
    (hexDecodeDigits v).bind fun b => if h : b.length = 32 then some ⟨b, h⟩ else none
  else none

/-- A length in decimal, without leading zeros. -/
def length (v : List Char) : Option BodyLength :=
  if v = [] ∨ 7 < byteLen v ∨ v.head? = some '0' ∨ ¬v.all Char.isDigit then none
  else
    let n := Nat.ofDigitChars 10 v 0
    if h : 1 ≤ n ∧ n ≤ maxBytes then some ⟨n, h⟩ else none

/-- One attribute read, after those found so far. -/
def readAttribute (found : Option PackHash × Option BodyLength) (token : List Char) :
    Option (Option PackHash × Option BodyLength) := do
  let (key, value) ← splitOnce '=' token
  if key = "sha256".toList ∧ found.1 = none then
    let sha ← hex64 value
    return (some sha, found.2)
  else if key = "bytes".toList ∧ found.2 = none then
    let bytes ← length value
    return (found.1, some bytes)
  else none

/-- The hash and the length that a trailer line names. -/
def attributes (line : List Char) : Option (PackHash × BodyLength) := do
  let rest ← line.dropPrefix? opening
  let inner ← rest.dropSuffix? closing
  let (sha, bytes) ← (inner.splitOn ' ').foldlM readAttribute (none, none)
  return (← sha, ← bytes)

/-- The text without the newlines at its end. -/
def trimNewlines (s : List Char) : List Char := s.rdropWhile (· == '\n')

/-- Read a stored field. -/
def parse (stored : List Char) : LongBody :=
  let line := stored.rtakeWhile (· ≠ '\n')
  let head := (stored.rdropWhile (· ≠ '\n')).dropLast
  if ¬opening.isPrefixOf line then .plain
  else
    match attributes line with
    | some (sha256, bytes) => .continued (trimNewlines head) sha256 bytes
    | none => .unsupported (trimNewlines head)

/-! ### Writing -/

/-- The trailer line of an artifact. -/
def trailer (sha256 : PackHash) (bytes : ℕ) : List Char :=
  opening ++ "sha256=".toList ++ hexDigits sha256.1 ++ " bytes=".toList ++ Nat.toDigits 10 bytes ++ closing

/-- Whether a text must be stored as an artifact: it is too long, or would be read as a field with a trailer. -/
def needsArtifact (full : List Char) (room : ℕ) : Prop := room < byteLen full ∨ parse full ≠ .plain

instance decidableNeedsArtifact (full : List Char) (room : ℕ) : Decidable (needsArtifact full room) :=
  inferInstanceAs (Decidable (_ ∨ _))

/-- What a field keeps of a text before the trailer, in what the room leaves after that and the separator. -/
def keptPrefix (text line : List Char) (room : ℕ) : List Char :=
  if room - byteLen line < byteLen separator then [] else fitPrefix text (room - byteLen line - byteLen separator)

/-- A text's prefix and the trailer. -/
def withTrailer (text line : List Char) (room : ℕ) : Option (List Char) :=
  if room < byteLen line then none
  else if keptPrefix text line room = [] then some line
  else some (keptPrefix text line room ++ separator ++ line)

/-- The field that stores a text in an artifact. -/
def storedText (full : List Char) (room : ℕ) (sha256 : PackHash) : Option (List Char) :=
  if byteLen full = 0 ∨ maxBytes < byteLen full then none
  else withTrailer full (trailer sha256 (byteLen full)) room

/-- The field again within another room. -/
def refit (stored : List Char) (room : ℕ) : Option (List Char) :=
  match parse stored with
  | .continued pre sha256 bytes =>
    if byteLen stored ≤ room then some stored else withTrailer pre (trailer sha256 bytes) room
  | _ => some stored

/-- The hash that a writer compares prefixes with. -/
def zeroHash : PackHash := ⟨replicate 32 0, rfl⟩

/-- Whether a field states a text as a writer with some room would store it. -/
def states (stored full : List Char) (room : ℕ) : Prop :=
  if ¬needsArtifact full room then stored = full
  else
    match parse stored, storedText full room zeroHash with
    | .continued held _ bytes, some mine =>
      match parse mine with
      | .continued want _ _ => bytes.1 = byteLen full ∧ held = want
      | _ => False
    | _, _ => False

/-! ### What the writer writes is read -/

theorem byteLen_append (s t : List Char) : byteLen (s ++ t) = byteLen s + byteLen t := by
  induction s with
  | nil => rw [nil_append, byteLen, zero_add]
  | cons c s ih => rw [cons_append, byteLen, byteLen, ih, add_assoc]

variable {s text line full : List Char} {room : ℕ} {sha : PackHash}

theorem byteLen_eq_length (h : ∀ c ∈ s, c.utf8Size = 1) : byteLen s = s.length := by
  induction s with
  | nil => rfl
  | cons c s ih =>
    rw [byteLen, h c mem_cons_self, ih fun d hd => h d (mem_cons_of_mem c hd), length_cons, add_comm]

theorem hexDigit_facts : ∀ n < 16, isHexDigit (hexDigit n) = true ∧ (hexDigit n).utf8Size = 1 ∧ hexDigit n ≠ ' ' ∧
    hexDigit n ≠ '\n' := by decide

theorem exists_of_mem_hexDigits {bs : List UInt8} {c : Char} (h : c ∈ hexDigits bs) : ∃ n < 16, c = hexDigit n := by
  obtain ⟨b, -, hb⟩ := mem_flatMap.mp h
  have hlt := b.toNat_lt
  rcases mem_cons.mp hb with rfl | hb
  · exact ⟨_, by omega, rfl⟩
  · exact ⟨_, by omega, mem_singleton.mp hb⟩

theorem length_hexDigits (bs : List UInt8) : (hexDigits bs).length = 2 * bs.length := by
  induction bs with
  | nil => rfl
  | cons b bs ih =>
    rw [hexDigits, flatMap_cons, ← hexDigits, length_append, ih, length_cons]
    simp only [length_cons, length_nil]
    omega

theorem hex64_hexDigits (sha : PackHash) : hex64 (hexDigits sha.1) = some sha := by
  have hall : (hexDigits sha.1).all isHexDigit = true := all_eq_true.mpr fun c hc => by
    obtain ⟨n, hn, rfl⟩ := exists_of_mem_hexDigits hc
    exact (hexDigit_facts n hn).1
  have hlen : byteLen (hexDigits sha.1) = 64 := by
    rw [byteLen_eq_length, length_hexDigits, sha.2]
    intro c hc
    obtain ⟨n, hn, rfl⟩ := exists_of_mem_hexDigits hc
    exact (hexDigit_facts n hn).2.1
  rw [hex64, if_pos ⟨hlen, hall⟩, hexDecodeDigits_hexDigits, bind_some, dif_pos sha.2]

theorem isDigit_of_mem {n : ℕ} {c : Char} (h : c ∈ Nat.toDigits 10 n) : c.isDigit = true :=
  Nat.isDigit_of_mem_toDigits (by omega) (by omega) h

theorem head?_toDigits {n : ℕ} (h : n ≠ 0) : (Nat.toDigits 10 n).head? ≠ some '0' := by
  induction n using Nat.strong_induction_on with
  | _ n ih =>
    rcases lt_or_ge n 10 with hlt | hge
    · have hdigit : ∀ m < 10, m ≠ 0 → m.digitChar ≠ '0' := by decide
      rw [Nat.toDigits_of_lt_base hlt, head?_cons, ne_eq, some.injEq]
      exact hdigit n hlt h
    · rw [Nat.toDigits_of_base_le (by omega) hge, head?_append_of_ne_nil _ Nat.toDigits_ne_nil]
      exact ih (n / 10) (by omega) (by omega)

theorem length_toDigits (n : BodyLength) : length (Nat.toDigits 10 n.1) = some n := by
  obtain ⟨n, hpos, hle⟩ := n
  have hsize : ∀ c ∈ Nat.toDigits 10 n, c.utf8Size = 1 := fun c hc => by
    have hlt : c.toNat < 128 := toNat_lt_of_isAlphanum (by simp [Char.isAlphanum, isDigit_of_mem hc])
    rw [Char.utf8Size_eq_one_iff, UInt32.le_iff_toNat_le]
    exact Nat.le_of_lt_succ hlt
  have hlen : byteLen (Nat.toDigits 10 n) ≤ 7 := by
    rw [byteLen_eq_length hsize, Nat.length_toDigits_le_iff (by omega) (by omega)]
    exact Nat.lt_of_le_of_lt hle (by decide)
  rw [length, if_neg, Nat.ofDigitChars_ten_toDigits, dif_pos ⟨hpos, hle⟩]
  rw [not_or, not_or, not_or, not_not]
  exact ⟨Nat.toDigits_ne_nil, not_lt.mpr hlen, head?_toDigits (Nat.ne_of_gt hpos),
    all_eq_true.mpr fun c hc => isDigit_of_mem hc⟩

theorem attributes_trailer (sha : PackHash) (n : BodyLength) : attributes (trailer sha n.1) = some (sha, n) := by
  have hhex : ' ' ∉ "sha256=".toList ++ hexDigits sha.1 := fun h => by
    rcases mem_append.mp h with h | h
    · exact absurd h (by decide)
    · obtain ⟨m, hm, heq⟩ := exists_of_mem_hexDigits h
      exact (hexDigit_facts m hm).2.2.1 heq.symm
  have hdigits : ' ' ∉ "bytes=".toList ++ Nat.toDigits 10 n.1 := fun h => by
    rcases mem_append.mp h with h | h
    · exact absurd h (by decide)
    · exact absurd (isDigit_of_mem h) (by decide)
  have hsplit : ("sha256=".toList ++ hexDigits sha.1 ++ ' ' :: ("bytes=".toList ++ Nat.toDigits 10 n.1)).splitOn ' ' =
      ["sha256=".toList ++ hexDigits sha.1, "bytes=".toList ++ Nat.toDigits 10 n.1] := by
    rw [splitOn_append_cons_self, splitOn_eq_singleton hhex, splitOn_eq_singleton hdigits]
    rfl
  have hline : trailer sha n.1 = opening ++ (("sha256=".toList ++ hexDigits sha.1 ++ ' ' ::
      ("bytes=".toList ++ Nat.toDigits 10 n.1)) ++ closing) := by
    simp [trailer]
  have hsha : splitOnce '=' ("sha256=".toList ++ hexDigits sha.1) = some ("sha256".toList, hexDigits sha.1) :=
    splitOnce_append (a := "sha256".toList) (by decide) _
  have hbytes : splitOnce '=' ("bytes=".toList ++ Nat.toDigits 10 n.1) = some ("bytes".toList, Nat.toDigits 10 n.1) :=
    splitOnce_append (a := "bytes".toList) (by decide) _
  have hopen : (trailer sha n.1).dropPrefix? opening = some (("sha256=".toList ++ hexDigits sha.1 ++ ' ' ::
      ("bytes=".toList ++ Nat.toDigits 10 n.1)) ++ closing) := by
    rw [hline, dropPrefix?_eq_some_iff]
    exact ⟨opening, rfl, beq_self_eq_true _⟩
  have hclose : (("sha256=".toList ++ hexDigits sha.1 ++ ' ' :: ("bytes=".toList ++ Nat.toDigits 10 n.1)) ++
      closing).dropSuffix? closing = some ("sha256=".toList ++ hexDigits sha.1 ++ ' ' ::
        ("bytes=".toList ++ Nat.toDigits 10 n.1)) := by
    rw [dropSuffix?_eq_some_iff]
    exact ⟨closing, rfl, beq_self_eq_true _⟩
  rw [attributes, hopen]
  simp only [bind_eq_bind, bind_some, hclose, hsplit, foldlM_cons, foldlM_nil, readAttribute, hsha,
    hbytes, hex64_hexDigits, length_toDigits]
  rfl

theorem newline_notMem_trailer (sha : PackHash) (n : ℕ) : '\n' ∉ trailer sha n := by
  intro h
  simp only [trailer, mem_append] at h
  rcases h with ((((h | h) | h) | h) | h) | h
  · exact absurd h (by decide)
  · exact absurd h (by decide)
  · obtain ⟨m, hm, heq⟩ := exists_of_mem_hexDigits h
    exact (hexDigit_facts m hm).2.2.2 heq.symm
  · exact absurd h (by decide)
  · exact absurd (isDigit_of_mem h) (by decide)
  · exact absurd h (by decide)

theorem opening_isPrefixOf_trailer (sha : PackHash) (n : ℕ) : opening.isPrefixOf (trailer sha n) = true := by
  rw [List.isPrefixOf_iff_prefix, trailer]
  simp only [append_assoc]
  exact prefix_append _ _

theorem parse_append_trailer (head : List Char) (sha : PackHash) (n : BodyLength) :
    parse (head ++ '\n' :: trailer sha n.1) = .continued (trimNewlines head) sha n := by
  have hne : ∀ c ∈ (trailer sha n.1).reverse, decide (c ≠ '\n') = true := fun c hc =>
    decide_eq_true fun heq => newline_notMem_trailer sha n.1 (heq ▸ mem_reverse.mp hc)
  have hline : (head ++ '\n' :: trailer sha n.1).rtakeWhile (· ≠ '\n') = trailer sha n.1 := by
    rw [List.rtakeWhile, reverse_append, reverse_cons, append_assoc, takeWhile_append_of_pos hne]
    simp
  have hhead : (head ++ '\n' :: trailer sha n.1).rdropWhile (· ≠ '\n') = head ++ ['\n'] := by
    rw [List.rdropWhile, reverse_append, reverse_cons, append_assoc, dropWhile_append_of_pos hne]
    simp
  rw [parse, hline, hhead, dropLast_concat, if_neg (not_not.mpr (opening_isPrefixOf_trailer sha n.1)),
    attributes_trailer]

theorem parse_trailer (sha : PackHash) (n : BodyLength) : parse (trailer sha n.1) = .continued [] sha n := by
  have hne : ∀ c ∈ (trailer sha n.1).reverse, decide (c ≠ '\n') = true := fun c hc =>
    decide_eq_true fun heq => newline_notMem_trailer sha n.1 (heq ▸ mem_reverse.mp hc)
  have hline : (trailer sha n.1).rtakeWhile (· ≠ '\n') = trailer sha n.1 := by
    rw [List.rtakeWhile, takeWhile_eq_self_iff.mpr hne, reverse_reverse]
  have hhead : (trailer sha n.1).rdropWhile (· ≠ '\n') = [] := by
    rw [List.rdropWhile, dropWhile_eq_nil_iff.mpr hne, reverse_nil]
  rw [parse, hline, hhead, if_neg (not_not.mpr (opening_isPrefixOf_trailer sha n.1)), attributes_trailer]
  rfl

theorem parse_withTrailer {n : BodyLength} (h : withTrailer text (trailer sha n.1) room = some s) :
    parse s = .continued (trimNewlines (keptPrefix text (trailer sha n.1) room)) sha n := by
  rw [withTrailer] at h
  split_ifs at h with hroom hnil
  · rw [← some.inj h, parse_trailer, hnil]
    rfl
  · have hsep : s = (keptPrefix text (trailer sha n.1) room ++ ['\n']) ++ '\n' :: trailer sha n.1 := by
      rw [← some.inj h, separator, append_assoc, append_assoc]
      rfl
    have htrim : trimNewlines (keptPrefix text (trailer sha n.1) room ++ ['\n']) =
        trimNewlines (keptPrefix text (trailer sha n.1) room) := rdropWhile_concat_pos _ _ _ rfl
    rw [hsep, parse_append_trailer, htrim]

theorem byteLen_withTrailer_le (h : withTrailer text line room = some s) : byteLen s ≤ room := by
  rw [withTrailer] at h
  split_ifs at h with hroom hnil
  · rw [← some.inj h]
    omega
  · have hkept : byteLen (keptPrefix text line room) + byteLen separator ≤ room - byteLen line := by
      rw [keptPrefix] at hnil ⊢
      split_ifs at hnil ⊢ with hsep
      · exact absurd rfl hnil
      have hfit := byteLen_fitPrefix_le text (room - byteLen line - byteLen separator)
      omega
    rw [← some.inj h, byteLen_append, byteLen_append]
    omega

theorem withTrailer_eq_none : withTrailer text line room = none ↔ room < byteLen line := by
  rw [withTrailer]
  split_ifs with hroom hnil <;> simp [hroom]

theorem byteLen_trailer (sha sha' : PackHash) (n : ℕ) : byteLen (trailer sha n) = byteLen (trailer sha' n) := by
  have hhex : ∀ h : PackHash, byteLen (hexDigits h.1) = 64 := fun h => by
    have hsome := hex64_hexDigits h
    rw [hex64] at hsome
    split_ifs at hsome with hlen
    exact hlen.1
  simp only [trailer, byteLen_append, hhex]

theorem keptPrefix_congr (text : List Char) {line' : List Char} (h : byteLen line = byteLen line') (room : ℕ) :
    keptPrefix text line room = keptPrefix text line' room := by
  rw [keptPrefix, keptPrefix, h]

theorem storedText_eq_none : storedText full room sha = none ↔
      room < byteLen (trailer sha (byteLen full)) ∨ byteLen full = 0 ∨ maxBytes < byteLen full := by
  rw [storedText]
  split_ifs with hlen
  · exact iff_of_true rfl (.inr hlen)
  · rw [withTrailer_eq_none, or_iff_left hlen]

/-- A stored text is read back: its hash, its length and the prefix that was kept. -/
theorem parse_storedText (h : storedText full room sha = some s) :
    ∃ n : BodyLength, n.1 = byteLen full ∧ byteLen s ≤ room ∧
      parse s = .continued (trimNewlines (keptPrefix full (trailer sha (byteLen full)) room)) sha n := by
  rw [storedText] at h
  split_ifs at h with hlen
  rw [not_or] at hlen
  exact ⟨⟨byteLen full, Nat.pos_of_ne_zero hlen.1, not_lt.mp hlen.2⟩, rfl, byteLen_withTrailer_le h,
    parse_withTrailer (n := ⟨byteLen full, _⟩) h⟩

/-- What a writer stores states the text, whatever the hash. -/
theorem states_storedText (hneeds : needsArtifact full room)
    (h : storedText full room sha = some s) : states s full room := by
  obtain ⟨n, hn, -, hparse⟩ := parse_storedText h
  have hsome : storedText full room zeroHash ≠ none := by
    rw [ne_eq, storedText_eq_none, byteLen_trailer zeroHash sha, ← storedText_eq_none, h]
    simp
  obtain ⟨mine, hmine⟩ := ne_none_iff_exists'.mp hsome
  obtain ⟨m, -, -, hparse'⟩ := parse_storedText hmine
  rw [states, if_neg (not_not.mpr hneeds)]
  simp only [hparse, hmine, hparse']
  exact ⟨hn, by rw [keptPrefix_congr full (byteLen_trailer sha zeroHash (byteLen full))]⟩

/-- A field written again for a room names the same artifact. -/
theorem parse_refit {stored pre : List Char} {n : BodyLength}
    (h : parse stored = .continued pre sha n) (hroom : byteLen (trailer sha n.1) ≤ room) :
    ∃ s pre', refit stored room = some s ∧ byteLen s ≤ room ∧ parse s = .continued pre' sha n := by
  rw [refit]
  simp only [h]
  split_ifs with hfits
  · exact ⟨stored, pre, rfl, hfits, h⟩
  · have hsome : withTrailer pre (trailer sha n.1) room ≠ none := by
      rw [ne_eq, withTrailer_eq_none, not_lt]
      exact hroom
    obtain ⟨s, hs⟩ := ne_none_iff_exists'.mp hsome
    exact ⟨s, _, hs, byteLen_withTrailer_le hs, parse_withTrailer hs⟩

/-- Long bodies read back what they store, and the rounds of a cut end. -/
theorem longBody_spec (full : List Char) (room : ℕ) (sha : PackHash) :
    (storedText full room sha = none ↔
      room < byteLen (trailer sha (byteLen full)) ∨ byteLen full = 0 ∨ maxBytes < byteLen full) ∧
    (∀ s, storedText full room sha = some s → ∃ n : BodyLength, n.1 = byteLen full ∧ byteLen s ≤ room ∧
      parse s = .continued (trimNewlines (keptPrefix full (trailer sha (byteLen full)) room)) sha n) ∧
    (needsArtifact full room → ∀ s, storedText full room sha = some s → states s full room) ∧
    (¬needsArtifact full room → parse full = .plain) ∧
    (∀ stored pre n room', parse stored = .continued pre sha n → byteLen (trailer sha n.1) ≤ room' →
      ∃ s pre', refit stored room' = some s ∧ byteLen s ≤ room' ∧ parse s = .continued pre' sha n) ∧
    (∀ text max, max < byteLen text →
      ∃ last, Rounds text max max last ∧ fitPrefix text max = closeCode (cutAt text last)) := by
  refine ⟨storedText_eq_none, fun s hs => parse_storedText hs, fun hneeds s hs => states_storedText hneeds hs, ?_,
    fun stored pre n room' hparse hroom => parse_refit hparse hroom, fun text max hmax => ?_⟩
  · intro hneeds
    rw [needsArtifact, not_or, not_not] at hneeds
    exact hneeds.2
  · obtain ⟨last, hlast⟩ := exists_rounds text max max
    exact ⟨last, hlast, by rw [fitPrefix, if_neg (not_le.mpr hmax), hlast.fitFrom]⟩

end LongBody

end DashForge
