import Mathlib.Data.String.Basic

/-!
# Lowercase hex

Bytes as two digits each (`hex::encode`). The encoding is injective, and as it has no capital letters it is
also injective up to case. The decoder takes digits of either case, and without capitals it takes only what the
encoder writes (`hexDecode_eq_some_iff`).
-/

namespace DashForge

open List Option String

def hexDigit (n : ℕ) : Char := Char.ofNat (if n < 10 then 0x30 + n else 0x57 + n)

def hexDigits (bs : List UInt8) : List Char :=
  bs.flatMap fun b => [hexDigit (b.toNat / 16), hexDigit (b.toNat % 16)]

def hexEncode (bs : List UInt8) : String := ofList (hexDigits bs)

theorem toLower_hexDigit : ∀ n < 16, (hexDigit n).toLower = hexDigit n := by decide

theorem hexDigit_inj : ∀ m < 16, ∀ n < 16, hexDigit m = hexDigit n → m = n := by decide

theorem toLower_hexDigits (bs : List UInt8) : (hexDigits bs).map Char.toLower = hexDigits bs := by
  induction bs with
  | nil => rfl
  | cons b bs ih =>
    have hb := b.toNat_lt
    simp only [hexDigits, flatMap_cons, map_append, map_cons, map_nil] at ih ⊢
    rw [toLower_hexDigit _ (by omega), toLower_hexDigit _ (by omega), ih]

variable {bs bs' : List UInt8}

theorem hexDigits_injective (h : hexDigits bs = hexDigits bs') : bs = bs' := by
  induction bs generalizing bs' with
  | nil =>
    cases bs' with
    | nil => rfl
    | cons b bs' => cases h
  | cons b bs ih =>
    cases bs' with
    | nil => cases h
    | cons b' bs' =>
      have hb := b.toNat_lt
      have hb' := b'.toNat_lt
      obtain ⟨hhigh, hrest⟩ := List.cons.inj h
      obtain ⟨hlow, hrest⟩ := List.cons.inj hrest
      have hdiv := hexDigit_inj _ (by omega) _ (by omega) hhigh
      have hmod := hexDigit_inj _ (by omega) _ (by omega) hlow
      rw [UInt8.toNat_inj.mp (show b.toNat = b'.toNat by omega), ih hrest]

@[simp]
theorem toList_hexEncode (bs : List UInt8) : (hexEncode bs).toList = hexDigits bs := by simp [hexEncode]

theorem hexEncode_injective (h : hexEncode bs = hexEncode bs') : bs = bs' := by
  apply hexDigits_injective
  rw [← toList_hexEncode, h, toList_hexEncode]

/-! ### Decoding -/

/-- The value of a hex digit of either case. -/
def hexVal (c : Char) : Option ℕ :=
  if '0' ≤ c ∧ c ≤ '9' then some (c.toNat - 0x30)
  else if 'a' ≤ c ∧ c ≤ 'f' then some (c.toNat - 0x57)
  else if 'A' ≤ c ∧ c ≤ 'F' then some (c.toNat - 0x37)
  else none

def hexDecodeDigits : List Char → Option (List UInt8)
  | [] => some []
  | [_] => none
  | a :: b :: cs => do
    let high ← hexVal a
    let low ← hexVal b
    let bs ← hexDecodeDigits cs
    return UInt8.ofNat (16 * high + low) :: bs

/-- The bytes of a string of hex digits (`hex::decode`). -/
def hexDecode (s : String) : Option (List UInt8) := hexDecodeDigits s.toList

theorem hexVal_hexDigit : ∀ n < 16, hexVal (hexDigit n) = some n := by decide

theorem isUpper_hexDigit : ∀ n < 16, (hexDigit n).isUpper = false := by decide

theorem hexDigit_of_hexVal {c : Char} {n : ℕ} (h : hexVal c = some n) (hc : c.isUpper = false) :
    n < 16 ∧ hexDigit n = c := by
  have hval : ∀ m, c.toNat = m → Char.ofNat m = c := fun m hm => by rw [← hm, Char.ofNat_toNat]
  rw [hexVal] at h
  split_ifs at h with h₁ h₂ h₃
  · have h₁' : 0x30 ≤ c.toNat ∧ c.toNat ≤ 0x39 := h₁
    obtain rfl := some.inj h
    refine ⟨by omega, ?_⟩
    rw [hexDigit, if_pos (by omega)]
    exact hval _ (by omega)
  · have h₂' : 0x61 ≤ c.toNat ∧ c.toNat ≤ 0x66 := h₂
    obtain rfl := some.inj h
    refine ⟨by omega, ?_⟩
    rw [hexDigit, if_neg (by omega)]
    exact hval _ (by omega)
  · have h₃' : 0x41 ≤ c.toNat ∧ c.toNat ≤ 0x46 := h₃
    have hupper : c.isUpper = true := decide_eq_true ⟨h₃'.1, h₃'.2.trans (by decide)⟩
    rw [hupper] at hc
    cases hc

theorem hexDecodeDigits_hexDigits (bs : List UInt8) : hexDecodeDigits (hexDigits bs) = some bs := by
  induction bs with
  | nil => rfl
  | cons b bs ih =>
    have hb := b.toNat_lt
    have hbyte : UInt8.ofNat (16 * (b.toNat / 16) + b.toNat % 16) = b := by
      rw [Nat.div_add_mod, UInt8.ofNat_toNat]
    simp only [hexDigits, flatMap_cons, cons_append, nil_append] at ih ⊢
    simp only [hexDecodeDigits, hexVal_hexDigit _ (show b.toNat / 16 < 16 by omega),
      hexVal_hexDigit _ (show b.toNat % 16 < 16 by omega), ih, hbyte, bind_eq_bind, bind_some, Option.pure_def]

theorem hexDigits_of_hexDecodeDigits {cs : List Char} (h : hexDecodeDigits cs = some bs)
    (hlower : ∀ c ∈ cs, c.isUpper = false) : hexDigits bs = cs := by
  induction cs using hexDecodeDigits.induct generalizing bs with
  | case1 => cases h; rfl
  | case2 c => cases h
  | case3 a b cs ih =>
    simp only [hexDecodeDigits, bind_eq_bind, bind_eq_some_iff, Option.pure_def, some.injEq] at h
    obtain ⟨high, hhigh, low, hlow, bs', hbs', rfl⟩ := h
    obtain ⟨hlt, rfl⟩ := hexDigit_of_hexVal hhigh (hlower a (by simp))
    obtain ⟨hlt', rfl⟩ := hexDigit_of_hexVal hlow (hlower b (by simp))
    have hrest := ih hbs' fun c hc => hlower c (by simp [hc])
    have hnat : (UInt8.ofNat (16 * high + low)).toNat = 16 * high + low :=
      UInt8.toNat_ofNat_of_lt' (show _ < 256 by omega)
    rw [hexDigits, flatMap_cons, ← hexDigits, hrest, hnat, show (16 * high + low) / 16 = high by omega,
      show (16 * high + low) % 16 = low by omega]
    rfl

/-- Without capitals, only what the encoder writes is decoded. -/
theorem hexDecode_eq_some_iff {s : String} :
    hexDecode s = some bs ∧ (∀ c ∈ s.toList, c.isUpper = false) ↔ s = hexEncode bs := by
  constructor
  · rintro ⟨h, hlower⟩
    rw [hexEncode, hexDigits_of_hexDecodeDigits h hlower, ofList_toList]
  · rintro rfl
    refine ⟨by rw [hexDecode, toList_hexEncode, hexDecodeDigits_hexDigits], fun c hc => ?_⟩
    rw [toList_hexEncode, hexDigits, mem_flatMap] at hc
    obtain ⟨b, -, hc⟩ := hc
    have hb := b.toNat_lt
    simp only [mem_cons, not_mem_nil, or_false] at hc
    rcases hc with rfl | rfl
    · exact isUpper_hexDigit _ (by omega)
    · exact isUpper_hexDigit _ (by omega)

theorem utf8ByteSize_hexEncode (bs : List UInt8) : (hexEncode bs).utf8ByteSize = 2 * bs.length := by
  have hsize : ∀ n < 16, (hexDigit n).utf8Size = 1 := by decide
  induction bs with
  | nil => rfl
  | cons b bs ih =>
    have hb := b.toNat_lt
    have hcons : hexEncode (b :: bs) =
        singleton (hexDigit (b.toNat / 16)) ++ (singleton (hexDigit (b.toNat % 16)) ++ hexEncode bs) := by
      rw [← toList_inj]
      simp [hexDigits]
    rw [hcons, utf8ByteSize_append, utf8ByteSize_append, utf8ByteSize_singleton,
      utf8ByteSize_singleton, hsize _ (by omega), hsize _ (by omega), ih, length_cons]
    omega

end DashForge
