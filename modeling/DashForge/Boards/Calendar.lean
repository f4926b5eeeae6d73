import DashForge.Boards.Value
import Mathlib.Tactic.IntervalCases
import Mathlib.Tactic.Linarith

/-!
# The calendar

The civil dates of `rules/boards.rs` and their day numbers. A year is counted from March, so that a leap day ends it;
400 of these are an era, in which a day is a century, a cycle of four years, a year and a day (`IsDayOfEra`). From that
the two conversions are inverse on every date of the Gregorian calendar, and the day numbers are in the order of the
dates (`civilOf_daysFromCivil`, `daysFromCivil_civilOf`, `daysFromCivil_lt`).
-/

namespace DashForge

/-! ### Days of an era -/

/-- A day of an era: the day `doy` of year `r` of cycle `q` of century `c`. -/
structure IsDayOfEra (doe c q r doy : ℤ) : Prop where
  eq : doe = 36524 * c + 1461 * q + 365 * r + doy
  century : 0 ≤ c ∧ c ≤ 3
  cycle : 0 ≤ q ∧ q ≤ 24
  year : 0 ≤ r ∧ r ≤ 3
  day : 0 ≤ doy ∧ doy ≤ 365
  /-- A year's 366th day ends a cycle, and one that ends a century ends the era. -/
  leap : doy = 365 → r = 3 ∧ (q = 24 → c = 3)

variable {doe c q r doy y y' m d : ℤ}

theorem exists_isDayOfEra (h0 : 0 ≤ doe) (h1 : doe < 146097) : ∃ c q r doy, IsDayOfEra doe c q r doy := by
  obtain ⟨c, hc⟩ : ∃ c, c = min 3 (doe / 36524) := ⟨_, rfl⟩
  obtain ⟨s, hs⟩ : ∃ s, s = doe - 36524 * c := ⟨_, rfl⟩
  obtain ⟨q, hq⟩ : ∃ q, q = s / 1461 := ⟨_, rfl⟩
  obtain ⟨t, ht⟩ : ∃ t, t = s - 1461 * q := ⟨_, rfl⟩
  obtain ⟨r, hr⟩ : ∃ r, r = min 3 (t / 365) := ⟨_, rfl⟩
  have hsb : 0 ≤ c ∧ c ≤ 3 ∧ 0 ≤ s ∧ s ≤ 36524 ∧ (s = 36524 → c = 3) := by omega
  clear hc
  have htb : 0 ≤ q ∧ q ≤ 24 ∧ 0 ≤ t ∧ t ≤ 1460 := by omega
  have hrb : 0 ≤ r ∧ r ≤ 3 ∧ 0 ≤ t - 365 * r ∧ t - 365 * r ≤ 365 ∧ (t - 365 * r = 365 → r = 3) := by omega
  clear hr hq
  exact ⟨c, q, r, t - 365 * r, by omega, by omega, by omega, by omega, by omega, by omega⟩

theorem IsDayOfEra.yoe_eq (h : IsDayOfEra doe c q r doy) :
    (doe - doe / 1460 + doe / 36524 - doe / 146096) / 365 = 100 * c + 4 * q + r := by
  obtain ⟨heq, hc, hq, hr, hd, hl⟩ := h
  obtain ⟨s, hs⟩ : ∃ s, s = 1461 * q + 365 * r + doy := ⟨_, rfl⟩
  have hcentury : doe / 36524 - doe / 146096 = c := by
    have hsb : 0 ≤ s ∧ s ≤ 36524 ∧ (s = 36524 → c = 3) := by omega
    have hsum : doe = 36524 * c + s := by omega
    clear heq hs hq hr hd hl
    obtain ⟨hc, hc'⟩ := hc
    interval_cases c <;> omega
  -- The quotient by 1460 counts the cycles, and one more day near the end of a cycle.
  obtain ⟨e, he⟩ : ∃ e, e = (q + 24 * c + 365 * r + doy) / 1460 := ⟨_, rfl⟩
  have hcycle : doe / 1460 = 25 * c + q + e := by omega
  have hday : 0 ≤ doy - e ∧ doy - e ≤ 364 := by omega
  clear he
  omega

theorem IsDayOfEra.bounds (h : IsDayOfEra doe c q r doy) : 0 ≤ doe ∧ doe < 146097 := by
  obtain ⟨heq, hc, hq, hr, hd, hl⟩ := h
  omega

/-! ### Dates -/

/-- Whether a year has a leap day. -/
def IsLeap (y : ℤ) : Prop := (y % 4 = 0 ∧ y % 100 ≠ 0) ∨ y % 400 = 0

instance decidableIsLeap (y : ℤ) : Decidable (IsLeap y) := inferInstanceAs (Decidable (_ ∨ _))

/-- The number of days of a month. -/
def monthLength (y m : ℤ) : ℤ :=
  if m = 2 then if IsLeap y then 29 else 28 else if m = 4 ∨ m = 6 ∨ m = 9 ∨ m = 11 then 30 else 31

/-- A date of the calendar. -/
structure IsDate (y m d : ℤ) : Prop where
  month : 1 ≤ m ∧ m ≤ 12
  day : 1 ≤ d ∧ d ≤ monthLength y m

/-- The year, month and day of a day number. -/
def civilOf (days : ℤ) : ℤ × ℤ × ℤ :=
  let z := days + 719468
  let era := z / 146097
  let doe := z - era * 146097
  let yoe := (doe - doe / 1460 + doe / 36524 - doe / 146096) / 365
  let doy := doe - (365 * yoe + yoe / 4 - yoe / 100)
  let mp := (5 * doy + 2) / 153
  let d := doy - (153 * mp + 2) / 5 + 1
  let m := if mp < 10 then mp + 3 else mp - 9
  (yoe + era * 400 + (if m ≤ 2 then 1 else 0), m, d)

/-- The year counted from March. -/
def marchYear (y m : ℤ) : ℤ := if m ≤ 2 then y - 1 else y

/-- The months since March. -/
def marchMonth (m : ℤ) : ℤ := if m ≤ 2 then m + 9 else m - 3

/-- The days since the first of March. -/
def marchDay (m d : ℤ) : ℤ := (153 * marchMonth m + 2) / 5 + d - 1

theorem daysFromCivil_eq (y m d : ℤ) : daysFromCivil y m d =
    365 * marchYear y m + marchYear y m / 4 - marchYear y m / 100 + marchYear y m / 400 + marchDay m d - 719468 := by
  have hmonth : (if m > 2 then -3 else 9) + m = marchMonth m := by
    unfold marchMonth
    split_ifs <;> omega
  unfold marchDay
  rw [← hmonth, add_comm _ m]
  show marchYear y m / 400 * 146097 + ((marchYear y m - marchYear y m / 400 * 400) * 365
    + (marchYear y m - marchYear y m / 400 * 400) / 4 - (marchYear y m - marchYear y m / 400 * 400) / 100
    + ((153 * (m + if m > 2 then -3 else 9) + 2) / 5 + d - 1)) - 719468 = _
  omega

section Date

variable {y m d : ℤ}

theorem IsDate.marchDay_bounds (h : IsDate y m d) :
    0 ≤ marchDay m d ∧ marchDay m d ≤ 365 ∧ (marchDay m d = 365 → m = 2 ∧ IsLeap y) := by
  obtain ⟨⟨hm, hm'⟩, hd, hd'⟩ := h
  unfold monthLength at hd'
  unfold marchDay marchMonth
  by_cases hleap : IsLeap y
  · simp only [hleap, if_true] at hd' ⊢
    interval_cases m <;> simp at hd' ⊢ <;> omega
  · simp only [hleap, if_false] at hd' ⊢
    interval_cases m <;> simp at hd' ⊢ <;> omega

theorem IsDate.isDayOfEra (h : IsDate y m d) :
    ∃ yoe c q r : ℤ, marchYear y m = 400 * (marchYear y m / 400) + yoe ∧ yoe = 100 * c + 4 * q + r ∧
      IsDayOfEra (365 * yoe + yoe / 4 - yoe / 100 + marchDay m d) c q r (marchDay m d) := by
  obtain ⟨hlow, hhigh, hleap⟩ := h.marchDay_bounds
  obtain ⟨yoe, hyoe⟩ : ∃ yoe, yoe = marchYear y m - 400 * (marchYear y m / 400) := ⟨_, rfl⟩
  obtain ⟨c, hc⟩ : ∃ c, c = yoe / 100 := ⟨_, rfl⟩
  obtain ⟨q, hq⟩ : ∃ q, q = (yoe - 100 * c) / 4 := ⟨_, rfl⟩
  obtain ⟨r, hr⟩ : ∃ r, r = yoe - 100 * c - 4 * q := ⟨_, rfl⟩
  have hyear : marchDay m d = 365 → marchYear y m = y - 1 ∧ IsLeap y := by
    intro hday
    obtain ⟨rfl, hly⟩ := hleap hday
    exact ⟨rfl, hly⟩
  refine ⟨yoe, c, q, r, by omega, by omega, by omega, by omega, by omega, by omega, ⟨hlow, hhigh⟩, fun hday => ?_⟩
  obtain ⟨hy, hly⟩ := hyear hday
  unfold IsLeap at hly
  omega

theorem IsDate.marchDay_lt_next (h : IsDate y m d) :
    (153 * marchMonth m + 2) / 5 ≤ marchDay m d ∧ marchDay m d < (153 * (marchMonth m + 1) + 2) / 5 := by
  obtain ⟨⟨hm, hm'⟩, hd, hd'⟩ := h
  have hlen : d ≤ if m = 2 then 29 else if m = 4 ∨ m = 6 ∨ m = 9 ∨ m = 11 then 30 else 31 := by
    unfold monthLength at hd'
    split_ifs at hd' ⊢ <;> omega
  unfold marchDay marchMonth
  interval_cases m <;> simp at hlen ⊢ <;> omega

theorem marchMonth_of_marchDay (h : IsDate y m d) : (5 * marchDay m d + 2) / 153 = marchMonth m := by
  obtain ⟨hlow, hhigh⟩ := h.marchDay_lt_next
  omega

theorem civilOf_daysFromCivil (h : IsDate y m d) : civilOf (daysFromCivil y m d) = (y, m, d) := by
  obtain ⟨yoe, c, q, r, hera, hyoe, hdoe⟩ := h.isDayOfEra
  have hmonth := marchMonth_of_marchDay h
  obtain ⟨hlow, hhigh⟩ := hdoe.bounds
  have hformula := hdoe.yoe_eq
  have hdays := daysFromCivil_eq y m d
  obtain ⟨era, hera'⟩ : ∃ era, era = marchYear y m / 400 := ⟨_, rfl⟩
  rw [← hera'] at hera
  set doe := 365 * yoe + yoe / 4 - yoe / 100 + marchDay m d with hdoe'
  have hz : daysFromCivil y m d + 719468 = era * 146097 + doe := by
    have hfour : marchYear y m / 4 = 100 * era + yoe / 4 := by omega
    have hcentury : marchYear y m / 100 = 4 * era + yoe / 100 := by omega
    rw [hdays, hfour, hcentury, ← hera', hera]
    omega
  have hquot : (daysFromCivil y m d + 719468) / 146097 = era := by omega
  have hrest : daysFromCivil y m d + 719468 - era * 146097 = doe := by omega
  have hdoy : doe - (365 * yoe + yoe / 4 - yoe / 100) = marchDay m d := by omega
  unfold civilOf
  simp only [hquot, hrest, hformula, ← hyoe, hdoy, hmonth]
  obtain ⟨hm, hm'⟩ := h.month
  have hback : (if marchMonth m < 10 then marchMonth m + 3 else marchMonth m - 9) = m := by
    unfold marchMonth
    split_ifs <;> omega
  rw [hback]
  refine Prod.ext ?_ (Prod.ext rfl ?_)
  · show yoe + era * 400 + (if m ≤ 2 then 1 else 0) = y
    unfold marchYear at hera
    split_ifs at hera ⊢ <;> omega
  · show marchDay m d - (153 * marchMonth m + 2) / 5 + 1 = d
    unfold marchDay
    omega

end Date

section Read

variable {y m d : ℤ}

theorem IsDayOfEra.doy_eq {doe c q r doy yoe : ℤ} (h : IsDayOfEra doe c q r doy) (hyoe : yoe = 100 * c + 4 * q + r) :
    doe - (365 * yoe + yoe / 4 - yoe / 100) = doy := by
  obtain ⟨heq, hc, hq, hr, -, -⟩ := h
  have hfour : yoe / 4 = 25 * c + q := by omega
  have hcentury : yoe / 100 = c := by omega
  rw [hfour, hcentury]
  omega

theorem monthDay_of_doy {doy mp : ℤ} (hd : 0 ≤ doy ∧ doy ≤ 365) (hmp : mp = (5 * doy + 2) / 153) (y : ℤ)
    (hleap : doy = 365 → IsLeap y) : 0 ≤ mp ∧ mp ≤ 11 ∧ 1 ≤ doy - (153 * mp + 2) / 5 + 1 ∧
      doy - (153 * mp + 2) / 5 + 1 ≤ monthLength y (if mp < 10 then mp + 3 else mp - 9) := by
  have hbounds : 0 ≤ mp ∧ mp ≤ 11 := by omega
  refine ⟨hbounds.1, hbounds.2, ?_⟩
  obtain ⟨hlow, hhigh⟩ := hbounds
  have hfull : doy ≤ 364 ∨ IsLeap y := by
    rcases hd.2.lt_or_eq with hlt | heq
    · exact .inl (by omega)
    · exact .inr (hleap heq)
  unfold monthLength
  by_cases hly : IsLeap y
  · simp only [hly, if_true]
    interval_cases mp <;> simp <;> omega
  · simp only [hly, if_false, or_false] at hfull ⊢
    interval_cases mp <;> simp <;> omega

theorem marchYear_of_civil (yoe era : ℤ) {mp m : ℤ} (hm : m = if mp < 10 then mp + 3 else mp - 9)
    (hmp : 0 ≤ mp ∧ mp ≤ 11) :
    marchYear (yoe + era * 400 + if m ≤ 2 then 1 else 0) m = yoe + era * 400 ∧ marchMonth m = mp ∧ 1 ≤ m ∧ m ≤ 12 := by
  unfold marchYear marchMonth
  split_ifs at hm ⊢ <;> omega

theorem daysFromCivil_civilOf (n : ℤ) : ∃ y m d, civilOf n = (y, m, d) ∧ IsDate y m d ∧ daysFromCivil y m d = n := by
  obtain ⟨era, hera⟩ : ∃ era, era = (n + 719468) / 146097 := ⟨_, rfl⟩
  obtain ⟨doe, hdoe⟩ : ∃ doe, doe = n + 719468 - era * 146097 := ⟨_, rfl⟩
  obtain ⟨c, q, r, doy, h⟩ := exists_isDayOfEra (show 0 ≤ doe by omega) (by omega)
  have hn : n = era * 146097 + doe - 719468 := by omega
  obtain ⟨yoe, hyoe⟩ : ∃ yoe, yoe = 100 * c + 4 * q + r := ⟨_, rfl⟩
  obtain ⟨mp, hmp⟩ : ∃ mp, mp = (5 * doy + 2) / 153 := ⟨_, rfl⟩
  obtain ⟨m, hm⟩ : ∃ m, m = if mp < 10 then mp + 3 else mp - 9 := ⟨_, rfl⟩
  obtain ⟨d, hday⟩ : ∃ d, d = doy - (153 * mp + 2) / 5 + 1 := ⟨_, rfl⟩
  obtain ⟨y, hy⟩ : ∃ y, y = yoe + era * 400 + if m ≤ 2 then 1 else 0 := ⟨_, rfl⟩
  have hformula := h.yoe_eq
  have hdoy := h.doy_eq hyoe
  have hyears : 0 ≤ yoe ∧ yoe ≤ 399 := by
    have := h.century
    have := h.cycle
    have := h.year
    omega
  -- A year's 366th day falls in February of the year after, which is a leap year.
  have hleap : doy = 365 → IsLeap y := fun h365 => by
    obtain ⟨hr, hlast⟩ := h.leap h365
    have hfeb : m ≤ 2 := by
      rw [hm, hmp, h365]
      decide
    rw [hy, if_pos hfeb]
    have := h.century
    have := h.cycle
    unfold IsLeap
    clear hformula hdoy hera hdoe hn hmp hm hday hy
    omega
  obtain ⟨hlow, hhigh, hfirst, hlast⟩ := monthDay_of_doy h.day hmp y hleap
  obtain ⟨hyear, hmonth, hm₁, hm₂⟩ := marchYear_of_civil yoe era hm ⟨hlow, hhigh⟩
  refine ⟨y, m, d, ?_, ⟨⟨hm₁, hm₂⟩, ?_, ?_⟩, ?_⟩
  · simp only [civilOf, ← hera, ← hdoe, hformula, ← hyoe, hdoy, ← hmp, ← hm, ← hday, ← hy]
  · rwa [hday]
  · rwa [hday, hm]
  · rw [daysFromCivil_eq, hy, hyear, marchDay, hmonth, hn, hday]
    have hfour : (yoe + era * 400) / 4 = yoe / 4 + 100 * era := by omega
    have hcentury : (yoe + era * 400) / 100 = yoe / 100 + 4 * era := by omega
    have hera' : (yoe + era * 400) / 400 = era := by omega
    rw [hfour, hcentury, hera']
    linarith

end Read

/-! ### The order of dates -/

theorem marchYears_le (h : y < y') :
    365 * y + y / 4 - y / 100 + y / 400 + 365 ≤ 365 * y' + y' / 4 - y' / 100 + y' / 400 ∧ (IsLeap (y + 1) →
        365 * y + y / 4 - y / 100 + y / 400 + 366 ≤ 365 * y' + y' / 4 - y' / 100 + y' / 400) := by
  obtain ⟨c, hc⟩ : ∃ c, c = y / 400 := ⟨_, rfl⟩
  have hnext : 365 * (y + 1) + (y + 1) / 4 - (y + 1) / 100 + (y + 1) / 400 ≤
      365 * y' + y' / 4 - y' / 100 + y' / 400 := by
    clear hc
    omega
  refine ⟨le_trans ?_ hnext, fun hleap => le_trans ?_ hnext⟩
  · clear hnext hc
    omega
  · unfold IsLeap at hleap
    clear hnext hc
    omega

theorem daysFromCivil_lt {m' d' : ℤ} (h : IsDate y m d) (h' : IsDate y' m' d')
    (hlt : y < y' ∨ (y = y' ∧ (m < m' ∨ (m = m' ∧ d < d')))) : daysFromCivil y m d < daysFromCivil y' m' d' := by
  rw [daysFromCivil_eq, daysFromCivil_eq]
  obtain ⟨-, hhigh, hfull⟩ := h.marchDay_bounds
  obtain ⟨hlow', -, -⟩ := h'.marchDay_bounds
  obtain ⟨hm, hm'⟩ := h.month
  obtain ⟨hn, hn'⟩ := h'.month
  have horder : marchYear y m < marchYear y' m' ∨ (marchYear y m = marchYear y' m' ∧
      (marchMonth m < marchMonth m' ∨ (m = m' ∧ d < d'))) := by
    unfold marchYear marchMonth
    split_ifs <;> omega
  rcases horder with hyear | ⟨hyear, hmonth | ⟨rfl, hday⟩⟩
  · obtain ⟨hle, hle'⟩ := marchYears_le hyear
    rcases hhigh.lt_or_eq with hshort | hlong
    · linarith
    · obtain ⟨rfl, hleap⟩ := hfull hlong
      have := hle' (by simpa [marchYear] using hleap)
      linarith
  · have hend := h.marchDay_lt_next.2
    have hstart := h'.marchDay_lt_next.1
    have hmono : (153 * (marchMonth m + 1) + 2) / 5 ≤ (153 * marchMonth m' + 2) / 5 :=
      Int.ediv_le_ediv (by decide) (by linarith)
    rw [hyear]
    linarith
  · rw [hyear]
    unfold marchDay
    linarith

end DashForge
