import Mathlib.Data.List.Chain
import Mathlib.Data.List.DropRight

/-!
# Strings as bytes

The UTF-8 bytes of a string, and the string of bytes that are UTF-8; the characters that are white space, and the parts
of a text before and after a character.
-/

namespace DashForge

open List Option String

/-- The bytes of a string. -/
def utf8 (s : String) : List UInt8 := s.toByteArray.data.toList

/-- The string of UTF-8 bytes. -/
def fromUtf8 (bs : List UInt8) : Option String := fromUTF8? ⟨bs.toArray⟩

theorem fromUtf8_utf8 (s : String) : fromUtf8 (utf8 s) = some s := by
  have hs : (⟨(utf8 s).toArray⟩ : ByteArray) = s.toByteArray := by simp [utf8]
  rw [fromUtf8, hs, fromUTF8?, dif_pos s.isValidUTF8]
  rfl

variable {s : String} {b : UInt8} {c : Char}

theorem utf8_injective {t : String} (h : utf8 s = utf8 t) : s = t := by
  have hs := fromUtf8_utf8 s
  rw [h, fromUtf8_utf8] at hs
  exact (some.inj hs).symm

theorem utf8_eq_flatMap (s : String) : utf8 s = s.toList.flatMap utf8EncodeChar := by
  rw [utf8, ← utf8Encode_toList, List.utf8Encode]
  simp

/-- A character is one ASCII byte, or a byte from `0xc0` on and others from `0x80` on. -/
theorem utf8EncodeChar_cases (c : Char) : (c.toNat < 0x80 ∧ utf8EncodeChar c = [UInt8.ofNat c.toNat]) ∨
      ∃ b bs, utf8EncodeChar c = b :: bs ∧ 0xc0 ≤ b.toNat ∧ ∀ x ∈ bs, 0x80 ≤ x.toNat := by
  have htoNat : ∀ n < 2 ^ 8, (UInt8.ofNat n).toNat = n := fun n hn => UInt8.toNat_ofNat_of_lt hn
  have hlast : ∀ n, 0x80 ≤ (UInt8.ofNat (n % 64 + 128)).toNat := fun n => by
    rw [htoNat _ (by omega)]
    omega
  rw [utf8EncodeChar]
  split
  · next hle => exact .inl ⟨Nat.lt_succ_of_le hle, rfl⟩
  · refine .inr ?_
    split
    · refine ⟨_, _, rfl, by rw [htoNat _ (by omega)]; omega, fun x hx => ?_⟩
      rw [mem_singleton.mp hx]
      exact hlast _
    · split
      · refine ⟨_, _, rfl, by rw [htoNat _ (by omega)]; omega, fun x hx => ?_⟩
        simp only [mem_cons, not_mem_nil, or_false] at hx
        rcases hx with rfl | rfl <;> exact hlast _
      · refine ⟨_, _, rfl, by rw [htoNat _ (by omega)]; omega, fun x hx => ?_⟩
        simp only [mem_cons, not_mem_nil, or_false] at hx
        rcases hx with rfl | rfl | rfl <;> exact hlast _

theorem mem_of_mem_utf8 (h : b ∈ utf8 s) (hb : b.toNat < 0x80) : Char.ofNat b.toNat ∈ s.toList := by
  rw [utf8_eq_flatMap] at h
  obtain ⟨c, hc, hbc⟩ := mem_flatMap.mp h
  rcases utf8EncodeChar_cases c with ⟨hlt, henc⟩ | ⟨b', bs, henc, hlead, hrest⟩
  · rw [henc, mem_singleton] at hbc
    rw [hbc, UInt8.toNat_ofNat', Nat.mod_eq_of_lt (hlt.trans (by decide)), Char.ofNat_toNat]
    exact hc
  · rw [henc] at hbc
    rcases mem_cons.mp hbc with rfl | hbc
    · omega
    · exact absurd (hrest b hbc) (by omega)

/-- A byte that continues a character. -/
def IsContinuation (b : UInt8) : Prop := 0x80 ≤ b.toNat ∧ b.toNat < 0xc0

theorem not_isContinuation_of_mem_head?_utf8 {cs : List Char}
    (h : b ∈ (cs.flatMap utf8EncodeChar).head?) : ¬IsContinuation b := by
  rintro ⟨hge, hlt⟩
  cases cs with
  | nil => exact some_ne_none _ h.symm
  | cons c cs =>
    rw [flatMap_cons] at h
    rcases utf8EncodeChar_cases c with ⟨hc, henc⟩ | ⟨b', bs, henc, hlead, -⟩
    · rw [henc, singleton_append, head?_cons] at h
      rw [← some.inj h, UInt8.toNat_ofNat', Nat.mod_eq_of_lt (hc.trans (by decide))] at hge
      omega
    · rw [henc, cons_append, head?_cons] at h
      rw [← some.inj h] at hlt
      omega

theorem isChain_utf8 (s : String) : (utf8 s).IsChain fun a b => a.toNat < 0x80 → ¬IsContinuation b := by
  rw [utf8_eq_flatMap]
  induction s.toList with
  | nil => exact .nil
  | cons c cs ih =>
    rw [flatMap_cons, isChain_append]
    refine ⟨?_, ih, fun a _ b hb _ => not_isContinuation_of_mem_head?_utf8 hb⟩
    rcases utf8EncodeChar_cases c with ⟨-, henc⟩ | ⟨b', bs, henc, hlead, hrest⟩
    · rw [henc]
      exact .singleton _
    · rw [henc]
      refine List.Pairwise.isChain (pairwise_cons.mpr ⟨fun b hb hlt => by omega, ?_⟩)
      exact pairwise_of_forall_mem_list fun a ha b hb hlt => absurd (hrest a ha) (by omega)

/-- Where a decoder is within a character: the bytes it still needs, the bounds of the next one and what it has. -/
structure Utf8State where
  needed : ℕ
  lower : ℕ := 0x80
  upper : ℕ := 0xbf
  codePoint : ℕ

/-- The first byte of a character, or one that stands for no character. -/
def utf8Lead (b : ℕ) : List Char × Option Utf8State :=
  if b ≤ 0x7f then ([Char.ofNat b], none)
  else if 0xc2 ≤ b ∧ b ≤ 0xdf then ([], some { needed := 1, codePoint := b - 0xc0 })
  else if 0xe0 ≤ b ∧ b ≤ 0xef then
    let lower := if b = 0xe0 then 0xa0 else 0x80
    let upper := if b = 0xed then 0x9f else 0xbf
    ([], some { needed := 2, lower, upper, codePoint := b - 0xe0 })
  else if 0xf0 ≤ b ∧ b ≤ 0xf4 then
    let lower := if b = 0xf0 then 0x90 else 0x80
    let upper := if b = 0xf4 then 0x8f else 0xbf
    ([], some { needed := 3, lower, upper, codePoint := b - 0xf0 })
  else (['\uFFFD'], none)

/-- The text of bytes with U+FFFD for what is no UTF-8 (`TextDecoder`). -/
def replaceInvalid : Option Utf8State → List UInt8 → List Char
  | none, [] => []
  | some _, [] => ['\uFFFD']
  | none, b :: bs =>
    let (out, state) := utf8Lead b.toNat
    out ++ replaceInvalid state bs
  | some s, b :: bs =>
    if s.lower ≤ b.toNat ∧ b.toNat ≤ s.upper then
      let codePoint := s.codePoint * 64 + (b.toNat - 0x80)
      if s.needed = 1 then Char.ofNat codePoint :: replaceInvalid none bs
      else replaceInvalid (some { needed := s.needed - 1, codePoint }) bs
    else
      -- The byte is read again, as the first one of a character.
      let (out, state) := utf8Lead b.toNat
      '\uFFFD' :: (out ++ replaceInvalid state bs)

/-- The text of bytes: of UTF-8 itself, else with what is none replaced. -/
def fromUtf8Lossy (bs : List UInt8) : String := (fromUtf8 bs).getD (ofList (replaceInvalid none bs))

/-- Unicode white space (`char::is_whitespace`). -/
def isWhitespace (c : Char) : Bool :=
  let x := c.toNat
  decide (0x9 ≤ x ∧ x ≤ 0xd) || decide (0x2000 ≤ x ∧ x ≤ 0x200a) ||
    [0x20, 0x85, 0xa0, 0x1680, 0x2028, 0x2029, 0x202f, 0x205f, 0x3000].contains x

theorem of_ascii {P : Char → Prop} (h : ∀ n < 128, P (Char.ofNat n)) (hc : c.toNat < 128) : P c :=
  Char.ofNat_toNat c ▸ h c.toNat hc

theorem toNat_lt_of_isAlphanum (h : c.isAlphanum = true) : c.toNat < 128 := by
  have h : (decide (c.val ≥ 'A'.val ∧ c.val ≤ 'Z'.val) || (decide (c.val ≥ 'a'.val) && decide (c.val ≤ 'z'.val)) ||
      (decide (c.val ≥ '0'.val) && decide (c.val ≤ '9'.val))) = true := h
  simp only [Bool.or_eq_true, Bool.and_eq_true, decide_eq_true_eq, ge_iff_le, UInt32.le_iff_toNat_le] at h
  have hval : c.toNat = c.val.toNat := rfl
  have hupper : 'Z'.val.toNat = 90 := rfl
  have hlower : 'z'.val.toNat = 122 := rfl
  have hdigit : '9'.val.toNat = 57 := rfl
  omega

/-- The text without white space at either end. -/
def trim (cs : List Char) : List Char := (cs.dropWhile isWhitespace).rdropWhile isWhitespace

theorem eq_of_append_cons {α : Type*} {a : α} {l₁ l₂ m₁ m₂ : List α} (h : l₁ ++ a :: m₁ = l₂ ++ a :: m₂)
    (h₁ : a ∉ m₁) (h₂ : a ∉ m₂) : l₁ = l₂ ∧ m₁ = m₂ := by
  induction l₁ generalizing l₂ with
  | nil =>
    cases l₂ with
    | nil => exact ⟨rfl, (List.cons.inj h).2⟩
    | cons b l₂ =>
      refine absurd ?_ h₁
      rw [(List.cons.inj h).2]
      simp
  | cons b l₁ ih =>
    cases l₂ with
    | nil =>
      refine absurd ?_ h₂
      rw [← (List.cons.inj h).2]
      simp
    | cons c l₂ =>
      obtain ⟨rfl, htail⟩ := List.cons.inj h
      obtain ⟨rfl, rfl⟩ := ih htail
      exact ⟨rfl, rfl⟩

/-- The text before and after the first `c` (`split_once`). -/
def splitOnce (c : Char) (cs : List Char) : Option (List Char × List Char) :=
  if c ∈ cs then some (cs.takeWhile (· ≠ c), (cs.dropWhile (· ≠ c)).tail) else none

theorem splitOnce_append {a : List Char} (h : c ∉ a) (b : List Char) : splitOnce c (a ++ c :: b) = some (a, b) := by
  have hne : ∀ x ∈ a, decide (x ≠ c) = true := fun x hx => decide_eq_true fun heq => h (heq ▸ hx)
  rw [splitOnce, if_pos (mem_append_right a mem_cons_self), takeWhile_append_of_pos hne,
    dropWhile_append_of_pos hne, takeWhile_cons_of_neg (by simp), dropWhile_cons_of_neg (by simp),
    append_nil, tail_cons]

end DashForge
