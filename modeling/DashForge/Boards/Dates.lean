import DashForge.Boards.Calendar
import DashForge.Data.Lex

/-!
# Dates as texts

`YYYY-MM-DD` texts and the day numbers they stand for (`rules/boards.rs`). A number in a fixed width of decimal
digits is read back, and such texts are in the order of their numbers; so the dates that are read are exactly those
that are written for the days of the years 1–9999, and in the order of these days (`dateDays_lt_iff`).
-/

namespace DashForge

open List

/-! ### Numbers in a fixed width -/

/-- The last `width` decimal digits of `v`. -/
def decDigits (v : ℕ) : ℕ → List Char
  | 0 => []
  | width + 1 => decDigits (v / 10) width ++ [Nat.digitChar (v % 10)]

theorem length_decDigits (v width : ℕ) : (decDigits v width).length = width := by
  induction width generalizing v with
  | zero => rfl
  | succ width ih => simp [decDigits, ih]

theorem digitsVal_concat (cs : List Char) (c : Char) : digitsVal (cs ++ [c]) = 10 * digitsVal cs + (c.toNat - 48) := by
  rw [digitsVal, foldl_append]
  rfl

variable {v width : ℕ} {s : String} {n : ℤ}

theorem isDigit_of_mem_decDigits {c : Char} (h : c ∈ decDigits v width) : c.isDigit = true := by
  induction width generalizing v with
  | zero => exact absurd h not_mem_nil
  | succ width ih =>
    rcases mem_append.mp h with h | h
    · exact ih h
    · rw [mem_singleton.mp h, Nat.isDigit_digitChar, decide_eq_true_eq]
      exact Nat.mod_lt v (by decide)

theorem digitsVal_decDigits (h : v < 10 ^ width) : digitsVal (decDigits v width) = v := by
  induction width generalizing v with
  | zero =>
    obtain rfl : v = 0 := by simpa using h
    rfl
  | succ width ih =>
    have hlt : v / 10 < 10 ^ width := by
      rw [Nat.div_lt_iff_lt_mul (by decide), ← pow_succ]
      exact h
    rw [decDigits, digitsVal_concat, ih hlt, Nat.toNat_digitChar_sub_48_of_lt_ten (Nat.mod_lt v (by decide))]
    omega

theorem digitChar_of_isDigit {c : Char} (h : c.isDigit = true) :
    c.toNat - 48 < 10 ∧ Nat.digitChar (c.toNat - 48) = c := by
  have hc : 48 ≤ c.toNat ∧ c.toNat ≤ 57 := by
    simpa [Char.isDigit, UInt32.le_iff_toNat_le] using h
  refine ⟨by omega, Char.toNat_inj.mp ?_⟩
  rw [Nat.toNat_digitChar_of_lt_ten (by omega)]
  omega

theorem decDigits_digitsVal {cs : List Char} (h : ∀ c ∈ cs, c.isDigit = true) :
    decDigits (digitsVal cs) cs.length = cs ∧ digitsVal cs < 10 ^ cs.length := by
  induction cs using reverseRecOn with
  | nil => exact ⟨rfl, Nat.one_pos⟩
  | append_singleton cs c ih =>
    obtain ⟨ih, hlt⟩ := ih fun d hd => h d (mem_append_left _ hd)
    obtain ⟨hc, hchar⟩ := digitChar_of_isDigit (h c (by simp))
    have hdiv : digitsVal (cs ++ [c]) / 10 = digitsVal cs := by
      rw [digitsVal_concat]
      omega
    have hmod : digitsVal (cs ++ [c]) % 10 = c.toNat - 48 := by
      rw [digitsVal_concat]
      omega
    constructor
    · rw [length_append, length_singleton, decDigits, hdiv, hmod, ih, hchar]
    · rw [digitsVal_concat, length_append, length_singleton, pow_succ]
      omega

theorem decDigits_zero (width : ℕ) : decDigits 0 width = replicate width '0' := by
  induction width with
  | zero => rfl
  | succ width ih =>
    rw [decDigits, Nat.zero_div, ih, replicate_succ']
    rfl

theorem decDigits_lt {w : ℕ} (h : v < w) (hw : w < 10 ^ width) : decDigits v width < decDigits w width := by
  induction width generalizing v w with
  | zero => rw [pow_zero] at hw; omega
  | succ width ih =>
    have hw' : w / 10 < 10 ^ width := by
      rw [Nat.div_lt_iff_lt_mul (by decide), ← pow_succ]
      exact hw
    rw [decDigits, decDigits]
    rcases Nat.lt_or_ge (v / 10) (w / 10) with hlt | hge
    · exact Lex.append_lt_append_of_lt (ih hlt hw') (by rw [length_decDigits, length_decDigits]) _ _
    · have heq : v / 10 = w / 10 := by omega
      have hchar : ∀ x y : ℕ, x < y → y < 10 → Nat.digitChar x < Nat.digitChar y := fun x y hxy hy => by
        show (Nat.digitChar x).toNat < (Nat.digitChar y).toNat
        rw [Nat.toNat_digitChar_of_lt_ten (by omega), Nat.toNat_digitChar_of_lt_ten hy]
        omega
      rw [heq, Lex.append_lt_append_iff]
      exact Lex.cons_lt_cons (hchar _ _ (by omega) (Nat.mod_lt w (by decide))) [] []

theorem zeroPad_natCast (width v : ℕ) : zeroPad width (v : ℤ) =
    replicate (width - (Nat.toDigits 10 v).length) '0' ++ Nat.toDigits 10 v := by
  rw [zeroPad, Int.natAbs_natCast, if_neg (not_lt.mpr (Int.natCast_nonneg v)), Nat.toString_eq_repr, Nat.toList_repr]

theorem zeroPad_eq_decDigits (width : ℕ) (h : v < 10 ^ (width + 1)) :
    zeroPad (width + 1) (v : ℤ) = decDigits v (width + 1) := by
  rw [zeroPad_natCast]
  induction width generalizing v with
  | zero =>
    rw [Nat.toDigits_of_lt_base (by simpa using h), decDigits, Nat.mod_eq_of_lt (by simpa using h)]
    rfl
  | succ width ih =>
    rcases Nat.lt_or_ge v 10 with hlow | hhigh
    · rw [Nat.toDigits_of_lt_base hlow, decDigits, Nat.div_eq_of_lt hlow, Nat.mod_eq_of_lt hlow, decDigits_zero]
      rfl
    · have hdiv : v / 10 < 10 ^ (width + 1) := by
        rw [Nat.div_lt_iff_lt_mul (by decide), ← pow_succ]
        exact h
      have hdigits : Nat.toDigits 10 v = Nat.toDigits 10 (v / 10) ++ [Nat.digitChar (v % 10)] := by
        have := Nat.toDigits_append_toDigits (b := 10) (n := v / 10) (d := v % 10) (by decide)
          (Nat.div_pos hhigh (by decide)) (Nat.mod_lt v (by decide))
        rw [Nat.toDigits_of_lt_base (Nat.mod_lt v (by decide)), Nat.div_add_mod] at this
        exact this.symm
      rw [hdigits, decDigits, ← ih hdiv, length_append, length_singleton, append_assoc]
      congr 2
      omega

/-! ### Date texts -/

/-- A date as it is written. -/
def dateText (y m d : ℕ) : String := String.ofList (decDigits y 4 ++ ['-'] ++ decDigits m 2 ++ ['-'] ++ decDigits d 2)

theorem monthDays_eq {y m : ℕ} (hm : 1 ≤ m) (hm' : m ≤ 12) : (monthDays y m : ℤ) = monthLength y m := by
  have hleap : ((y % 4 == 0 && y % 100 != 0) || y % 400 == 0) = decide (IsLeap (y : ℤ)) := by
    rw [Bool.eq_iff_iff, decide_eq_true_iff]
    simp only [IsLeap, Bool.or_eq_true, Bool.and_eq_true, beq_iff_eq, bne_iff_ne]
    omega
  unfold monthDays monthLength
  rw [hleap]
  by_cases hly : IsLeap (y : ℤ)
  · simp only [hly, decide_true, if_true]
    interval_cases m <;> rfl
  · simp only [hly, decide_false, if_false]
    interval_cases m <;> rfl

theorem civilFromDays_eq (n : ℤ) : civilFromDays n = String.ofList (zeroPad 4 (civilOf n).1 ++ ['-'] ++
    zeroPad 2 (civilOf n).2.1 ++ ['-'] ++ zeroPad 2 (civilOf n).2.2) := rfl

section Text

variable {y m d : ℕ}

theorem IsDate.day_lt (h : IsDate y m d) : m < 10 ^ 2 ∧ d < 10 ^ 2 := by
  have hm := h.month
  have hd := h.day.2
  unfold monthLength at hd
  split_ifs at hd <;> omega

theorem civilFromDays_daysFromCivil (h : IsDate y m d) (hy : y < 10 ^ 4) :
    civilFromDays (daysFromCivil y m d) = dateText y m d := by
  obtain ⟨hm, hd⟩ := h.day_lt
  rw [civilFromDays_eq, civilOf_daysFromCivil h, dateText]
  rw [zeroPad_eq_decDigits 3 hy, zeroPad_eq_decDigits 1 hm, zeroPad_eq_decDigits 1 hd]

theorem dateDays_dateText (h : IsDate y m d) (hy : 1 ≤ y) (hy' : y < 10 ^ 4) :
    dateDays (dateText y m d) = some (daysFromCivil y m d) := by
  obtain ⟨hm, hd⟩ := h.day_lt
  obtain ⟨y₁, y₂, y₃, y₄, hyear⟩ : ∃ y₁ y₂ y₃ y₄, decDigits y 4 = [y₁, y₂, y₃, y₄] :=
    ⟨_, _, _, _, rfl⟩
  obtain ⟨m₁, m₂, hmonth⟩ : ∃ m₁ m₂, decDigits m 2 = [m₁, m₂] := ⟨_, _, rfl⟩
  obtain ⟨d₁, d₂, hday⟩ : ∃ d₁ d₂, decDigits d 2 = [d₁, d₂] := ⟨_, _, rfl⟩
  have hdigits : [y₁, y₂, y₃, y₄, m₁, m₂, d₁, d₂].all Char.isDigit = true := by
    rw [show [y₁, y₂, y₃, y₄, m₁, m₂, d₁, d₂] = [y₁, y₂, y₃, y₄] ++ [m₁, m₂] ++ [d₁, d₂] from rfl, ← hyear, ← hmonth,
      ← hday, all_eq_true]
    intro c hc
    rcases mem_append.mp hc with hc | hc
    · exact (mem_append.mp hc).elim isDigit_of_mem_decDigits isDigit_of_mem_decDigits
    · exact isDigit_of_mem_decDigits hc
  have hvy : digitsVal [y₁, y₂, y₃, y₄] = y := by rw [← hyear, digitsVal_decDigits hy']
  have hvm : digitsVal [m₁, m₂] = m := by rw [← hmonth, digitsVal_decDigits hm]
  have hvd : digitsVal [d₁, d₂] = d := by rw [← hday, digitsVal_decDigits hd]
  have hlist : (dateText y m d).toList = [y₁, y₂, y₃, y₄, '-', m₁, m₂, '-', d₁, d₂] := by
    rw [dateText, String.toList_ofList, hyear, hmonth, hday]
    rfl
  have hmonth' : 1 ≤ m ∧ m ≤ 12 := by exact_mod_cast h.month
  have hday' : 1 ≤ d ∧ d ≤ monthDays y m := by
    have := h.day
    rw [← monthDays_eq hmonth'.1 hmonth'.2] at this
    exact_mod_cast this
  rw [dateDays, hlist]
  simp only [hdigits, if_true, hvy, hvm, hvd]
  rw [if_neg (by omega), if_pos hday'.2]

end Text

theorem dateDays_eq_some_iff : dateDays s = some n ↔
    ∃ y m d : ℕ, s = dateText y m d ∧ IsDate y m d ∧ 1 ≤ y ∧ y < 10 ^ 4 ∧ n = daysFromCivil y m d := by
  constructor
  · intro h
    unfold dateDays at h
    split at h
    case h_2 => cases h
    case h_1 y₁ y₂ y₃ y₄ m₁ m₂ d₁ d₂ hlist =>
      split at h
      case isFalse => cases h
      case isTrue hdigits =>
        simp only [Option.ite_none_left_eq_some, Option.ite_none_right_eq_some, Option.some.injEq] at h
        obtain ⟨hrange, hday, rfl⟩ := h
        rw [not_or, not_or, not_not] at hrange
        have hall : ∀ c ∈ [y₁, y₂, y₃, y₄] ++ ([m₁, m₂] ++ [d₁, d₂]), c.isDigit = true := all_eq_true.mp hdigits
        obtain ⟨hyear, hylt⟩ := decDigits_digitsVal fun c hc => hall c (mem_append_left _ hc)
        obtain ⟨hmonth, -⟩ := decDigits_digitsVal fun c hc =>
          hall c (mem_append_right _ (mem_append_left _ hc))
        obtain ⟨hdate, -⟩ := decDigits_digitsVal fun c hc =>
          hall c (mem_append_right _ (mem_append_right _ hc))
        refine ⟨digitsVal [y₁, y₂, y₃, y₄], digitsVal [m₁, m₂], digitsVal [d₁, d₂], ?_, ⟨?_, ?_⟩, ?_, hylt, rfl⟩
        · rw [dateText, show decDigits (digitsVal [y₁, y₂, y₃, y₄]) 4 = [y₁, y₂, y₃, y₄] from hyear,
            show decDigits (digitsVal [m₁, m₂]) 2 = [m₁, m₂] from hmonth,
            show decDigits (digitsVal [d₁, d₂]) 2 = [d₁, d₂] from hdate]
          rw [← String.toList_inj, String.toList_ofList, hlist]
          rfl
        · exact_mod_cast hrange.2.1
        · rw [← monthDays_eq hrange.2.1.1 hrange.2.1.2]
          exact ⟨by exact_mod_cast not_lt.mp hrange.2.2, by exact_mod_cast hday⟩
        · exact not_lt.mp hrange.1
  · rintro ⟨y, m, d, rfl, hdate, hy, hy', rfl⟩
    exact dateDays_dateText hdate hy hy'

/-- A date that is read is written back. -/
theorem civilFromDays_of_dateDays (h : dateDays s = some n) : civilFromDays n = s := by
  obtain ⟨y, m, d, rfl, hdate, -, hy, rfl⟩ := dateDays_eq_some_iff.mp h
  exact civilFromDays_daysFromCivil hdate hy

/-- The day of a date of the years 1–9999 is read back. -/
theorem dateDays_civilFromDays (h1 : 1 ≤ (civilOf n).1) (h2 : (civilOf n).1 ≤ 9999) :
    dateDays (civilFromDays n) = some n := by
  obtain ⟨y, m, d, hcivil, hdate, rfl⟩ := daysFromCivil_civilOf n
  simp only [hcivil] at h1 h2
  have hpos := hdate.month
  have hd := hdate.day
  obtain ⟨y, rfl⟩ := Int.eq_ofNat_of_zero_le (show 0 ≤ y from by linarith)
  obtain ⟨m, rfl⟩ := Int.eq_ofNat_of_zero_le (show 0 ≤ m from by linarith)
  obtain ⟨d, rfl⟩ := Int.eq_ofNat_of_zero_le (show 0 ≤ d from by linarith)
  have hy : 1 ≤ y ∧ y < 10 ^ 4 := by
    have : 1 ≤ y ∧ y ≤ 9999 := by exact_mod_cast And.intro h1 h2
    omega
  rw [civilFromDays_daysFromCivil hdate hy.2]
  exact dateDays_dateText hdate hy.1 hy.2

theorem dateText_lt {y m d y' m' d' : ℕ} (h' : IsDate y' m' d') (hy : y' < 10 ^ 4)
    (hlt : y < y' ∨ (y = y' ∧ (m < m' ∨ (m = m' ∧ d < d')))) : dateText y m d < dateText y' m' d' := by
  have hsep : ∀ x y z : List Char, x ++ ['-'] ++ y ++ ['-'] ++ z = x ++ ('-' :: (y ++ ('-' :: z))) := fun x y z => by
    simp
  rw [String.lt_iff_toList_lt, dateText, dateText, String.toList_ofList, String.toList_ofList, hsep, hsep]
  rcases hlt with hlt | ⟨rfl, hlt | ⟨rfl, hlt⟩⟩
  · exact Lex.append_lt_append_of_lt (decDigits_lt hlt hy) (by rw [length_decDigits, length_decDigits]) _ _
  · rw [Lex.append_lt_append_iff, cons_lt_cons_self]
    exact Lex.append_lt_append_of_lt (decDigits_lt hlt h'.day_lt.1) (by rw [length_decDigits, length_decDigits]) _ _
  · rw [Lex.append_lt_append_iff, cons_lt_cons_self, Lex.append_lt_append_iff, cons_lt_cons_self]
    exact decDigits_lt hlt h'.day_lt.2

/-- Date texts are in the order of their days. -/
theorem dateDays_lt_iff {s' : String} {n' : ℤ} (h : dateDays s = some n) (h' : dateDays s' = some n') :
    s < s' ↔ n < n' := by
  obtain ⟨y, m, d, rfl, hdate, hy, hy', rfl⟩ := dateDays_eq_some_iff.mp h
  obtain ⟨y', m', d', rfl, hdate', hy₁, hy₂, rfl⟩ := dateDays_eq_some_iff.mp h'
  have hcases : (y < y' ∨ (y = y' ∧ (m < m' ∨ (m = m' ∧ d < d')))) ∨ (y = y' ∧ m = m' ∧ d = d') ∨
      (y' < y ∨ (y' = y ∧ (m' < m ∨ (m' = m ∧ d' < d)))) := by omega
  rcases hcases with hlt | ⟨rfl, rfl, rfl⟩ | hgt
  · exact iff_of_true (dateText_lt hdate' hy₂ hlt) (daysFromCivil_lt hdate hdate' (by exact_mod_cast hlt))
  · exact iff_of_false (lt_irrefl _) (lt_irrefl _)
  · exact iff_of_false (lt_asymm (dateText_lt hdate hy' hgt))
      (lt_asymm (daysFromCivil_lt hdate' hdate (by exact_mod_cast hgt)))

end DashForge
