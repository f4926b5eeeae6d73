import DashForge.Boards.Rank
import DashForge.Data.Lex
import Mathlib.Data.List.Infix

/-!
# A rank between two others

`rankBetween` (`rules/boards.rs`) makes the rank of a card that is dropped between two cards of a column. It copies
the lower bound, then zeros, until a position leaves it a digit strictly between the bounds. What it has copied
begins every rank between the bounds (`Forced`), so where it gives up there is none (`rankBetween_spec`).
-/

namespace DashForge

open List Option

/-- Why no rank was made. -/
inductive RankError where
  /-- A bound is not 0–63 rank digits. -/
  | invalid
  /-- The lower bound is above the upper. -/
  | order
  /-- No rank of at most 63 digits fits: re-rank the column. -/
  | rerank
deriving DecidableEq, Repr

/-- A bound's digit, as it is read. -/
def digitValue (c : Char) : ℕ := (digitOf c).getD 0

/-- The lower bound's digit at `i`, 0 where it does not bound. -/
def floorAt (lo : List Char) (i : ℕ) (inLo : Bool) : Option ℕ :=
  if inLo then lo[i]?.map digitValue else some 0

/-- The upper bound's digit at `i`, 62 where it does not bound. -/
def topAt (hi : List Char) (i : ℕ) (hiTight : Bool) : Option ℕ :=
  if hiTight then hi[i]?.map digitValue else some 62

/-- The rounds of `rankBetween` from digit `i` on. It has none as its value when the rounds run out, and where the
source would panic: at an index past a bound, or past the digits. -/
def rankLoop (lo hi : List Char) : ℕ → ℕ → Bool → Bool → List Char → Option (Except RankError (List Char))
  | 0, _, _, _, _ => none
  | rounds + 1, i, loTight, hiTight, out =>
    if rankMax ≤ i ∨ (hiTight = true ∧ hi.length ≤ i) then some (.error .rerank)
    else do
      let inLo := loTight && decide (i < lo.length)
      let floor ← floorAt lo i inLo
      let hd ← topAt hi i hiTight
      let ceil := if hiTight && decide (i + 1 < hi.length) then hd + 1 else hd
      if floor + 2 ≤ ceil then
        let c ← rankDigits[(floor + ceil) / 2]?
        return .ok (out ++ [c])
      else
        let c ← rankDigits[floor]?
        rankLoop lo hi rounds (i + 1) inLo (hiTight && decide (floor = hd)) (out ++ [c])

/-- A bound: at most 63 rank digits. -/
def isRankBound (r : String) : Bool :=
  decide (r.utf8ByteSize ≤ rankMax) && r.toList.all fun c => (digitOf c).isSome

/-- A rank strictly between `a` and `b`; the empty string is open. -/
def rankBetween (a b : String) : Option (Except RankError String) :=
  if !isRankBound a || !isRankBound b then some (.error .invalid)
  else if b ≠ "" ∧ b ≤ a then some (.error (if a = b then .rerank else .order))
  else (rankLoop a.toList b.toList (rankMax + 1) 0 true (b ≠ "") []).map fun r => r.map String.ofList

/-! ### Digits -/

variable {c : Char} {x : ℕ} {l hi : List Char} {hiTight : Bool} {s : String}

theorem digitOf_eq_some : digitOf c = some x ↔
    (48 ≤ c.toNat ∧ c.toNat ≤ 57 ∧ x = c.toNat - 48) ∨ (65 ≤ c.toNat ∧ c.toNat ≤ 90 ∧ x = c.toNat - 55) ∨
      (97 ≤ c.toNat ∧ c.toNat ≤ 122 ∧ x = c.toNat - 61) := by
  have hle : ∀ a b : Char, a ≤ b ↔ a.toNat ≤ b.toNat := fun _ _ => Iff.rfl
  have h0 : '0'.toNat = 48 := rfl
  have h9 : '9'.toNat = 57 := rfl
  have hA : 'A'.toNat = 65 := rfl
  have hZ : 'Z'.toNat = 90 := rfl
  have ha : 'a'.toNat = 97 := rfl
  have hz : 'z'.toNat = 122 := rfl
  simp only [digitOf, hle, h0, h9, hA, hZ, ha, hz]
  split_ifs
  all_goals simp
  all_goals omega

theorem digitOf_lt (h : digitOf c = some x) : x < 62 := by
  have := digitOf_eq_some.mp h
  omega

/-- The digits are in the order of their values. -/
theorem lt_iff_digitOf_lt {d : Char} {y : ℕ} (hc : digitOf c = some x) (hd : digitOf d = some y) : c < d ↔ x < y := by
  have hx := digitOf_eq_some.mp hc
  have hy := digitOf_eq_some.mp hd
  rw [show c < d ↔ c.toNat < d.toNat from Iff.rfl]
  omega

theorem rankDigits_getElem? (h : x < 62) : ∃ c, rankDigits[x]? = some c ∧ digitOf c = some x := by
  have hall : ∀ x < 62, rankDigits[x]?.bind digitOf = some x := by decide +kernel
  exact bind_eq_some_iff.mp (hall x h)

theorem digitOf_injective {d : Char} (hc : digitOf c = some x) (hd : digitOf d = some x) : c = d := by
  rcases lt_trichotomy c d with hlt | rfl | hlt
  · exact absurd ((lt_iff_digitOf_lt hc hd).mp hlt) (lt_irrefl x)
  · rfl
  · exact absurd ((lt_iff_digitOf_lt hd hc).mp hlt) (lt_irrefl x)

theorem digitOf_zero : digitOf '0' = some 0 := by decide

/-- A list of rank digits. -/
def IsDigits (l : List Char) : Prop := ∀ c ∈ l, ∃ x, digitOf c = some x

theorem digitOf_eq_digitValue (hl : IsDigits l) (hc : c ∈ l) : digitOf c = some (digitValue c) := by
  obtain ⟨x, hx⟩ := hl c hc
  rw [digitValue, hx, getD_some]

theorem utf8Len_of_isDigits (hl : IsDigits l) : String.utf8Len l = l.length := by
  induction l with
  | nil => rfl
  | cons c l ih =>
    obtain ⟨x, hx⟩ := hl c mem_cons_self
    have hsize : c.utf8Size = 1 := by
      have hval : c.val.toNat ≤ 127 := by
        have : c.val.toNat = c.toNat := rfl
        have := digitOf_eq_some.mp hx
        omega
      exact if_pos (UInt32.le_iff_toNat_le.mpr hval)
    rw [String.utf8Len_cons, hsize, ih fun d hd => hl d (mem_cons_of_mem c hd), length_cons]

/-! ### What the loop has copied -/

/-- An explicit rank's digits. -/
structure IsRank (r : List Char) : Prop where
  ne_nil : r ≠ []
  length_le : r.length ≤ rankMax
  digits : IsDigits r
  not_zero : ¬['0'] <:+ r

/-- Strictly between the bounds, of which an empty upper one is open. -/
def Between (lo hi r : List Char) : Prop := lo < r ∧ (hi ≠ [] → r < hi)

/-- What the loop knows of the digits it has copied. -/
structure Copied (lo hi : List Char) (loTight hiTight : Bool) (out : List Char) : Prop where
  digits : IsDigits out
  low : loTight = true → out <+: lo
  past : loTight = false → ∃ k, out = lo ++ replicate (k + 1) '0'
  high : hiTight = true → hi ≠ [] ∧ out <+: hi
  under : hiTight = false → hi = [] ∨ ∀ x, out ++ x < hi
  /-- Every rank between the bounds begins with them. -/
  forced : ∀ r, IsRank r → Between lo hi r → out <+: r

section Copied

variable {lo hi out r : List Char} {loTight hiTight : Bool} {floor hd : ℕ} {c : Char}

variable (h : Copied lo hi loTight hiTight out)

variable (hlo : IsDigits lo) (hfloor : floorAt lo out.length (loTight && decide (out.length < lo.length)) = some floor)

include hlo hfloor in
include h in
theorem Copied.lt_of_floor_lt {x : ℕ}
    (hc : digitOf c = some x) (hlt : floor < x) : lo < out ++ [c] := by
  cases loTight with
  | false =>
    obtain ⟨k, hout⟩ := h.past rfl
    rw [hout, append_assoc]
    exact Lex.lt_append lo (by simp)
  | true =>
    obtain ⟨rest, rfl⟩ := h.low rfl
    rw [Lex.append_lt_append_iff]
    cases rest with
    | nil => exact Lex.nil_lt (cons_ne_nil c [])
    | cons d rest =>
      have hd := digitOf_eq_digitValue hlo (c := d) (by simp)
      obtain rfl : digitValue d = floor := by simpa [floorAt] using hfloor
      exact Lex.cons_lt_cons ((lt_iff_digitOf_lt hd hc).mpr hlt) _ _

include hlo hfloor in
include h in
theorem Copied.floor_le (hr : IsRank r) (hlow : lo < r) (hpre : out <+: r) : ∃ c x,
    r = out ++ c :: x ∧ floor ≤ digitValue c := by
  obtain ⟨y, rfl⟩ := hpre
  cases y with
  | nil =>
    rw [append_nil] at hr hlow
    cases loTight with
    | false =>
      obtain ⟨k, hout⟩ := h.past rfl
      refine absurd ?_ hr.not_zero
      rw [hout, replicate_succ', ← append_assoc]
      exact suffix_append _ _
    | true =>
      obtain ⟨rest, rfl⟩ := h.low rfl
      exact absurd hlow (Lex.not_append_lt out rest)
  | cons c x =>
    refine ⟨c, x, rfl, ?_⟩
    have hc := digitOf_eq_digitValue hr.digits (c := c) (by simp)
    cases loTight with
    | false =>
      obtain rfl : 0 = floor := by simpa [floorAt] using hfloor
      exact Nat.zero_le _
    | true =>
      obtain ⟨rest, rfl⟩ := h.low rfl
      cases rest with
      | nil =>
        obtain rfl : 0 = floor := by simpa [floorAt] using hfloor
        exact Nat.zero_le _
      | cons d rest =>
        have hd := digitOf_eq_digitValue hlo (c := d) (by simp)
        obtain rfl : digitValue d = floor := by simpa [floorAt] using hfloor
        rw [Lex.append_lt_append_iff, cons_lt_cons_iff] at hlow
        rcases hlow with hlt | ⟨rfl, -⟩
        · exact ((lt_iff_digitOf_lt hd hc).mp hlt).le
        · exact le_rfl

include h in
theorem Copied.lt_of_lt_ceil (hhi : IsDigits hi)
    (hroom : hiTight = true → out.length < hi.length) (htop : topAt hi out.length hiTight = some hd) {x : ℕ}
    (hc : digitOf c = some x)
    (hlt : x < if hiTight && decide (out.length + 1 < hi.length) then hd + 1 else hd) (hne : hi ≠ []) :
    out ++ [c] < hi := by
  cases hiTight with
  | false => exact (h.under rfl).resolve_left hne [c]
  | true =>
    obtain ⟨-, rest, rfl⟩ := h.high rfl
    rw [Lex.append_lt_append_iff]
    cases rest with
    | nil => simp at hroom
    | cons d rest =>
      have hd' := digitOf_eq_digitValue hhi (c := d) (by simp)
      obtain rfl : digitValue d = hd := by simpa [topAt] using htop
      rcases lt_or_ge x (digitValue d) with hxd | hxd
      · exact Lex.cons_lt_cons ((lt_iff_digitOf_lt hc hd').mpr hxd) _ _
      · -- The bound's own digit is below the ceiling only where the bound has more of them.
        cases rest with
        | nil => simp at hlt; omega
        | cons e rest =>
          obtain rfl : x = digitValue d := by simp at hlt; omega
          obtain rfl := digitOf_injective hc hd'
          exact Lex.lt_append [c] (cons_ne_nil e rest)

include h in
theorem Copied.lt_ceil (hhi : IsDigits hi) {x : List Char}
    (hroom : hiTight = true → out.length < hi.length) (htop : topAt hi out.length hiTight = some hd)
    (hr : IsRank (out ++ c :: x)) (hlt : hi ≠ [] → out ++ c :: x < hi) :
    digitValue c < if hiTight && decide (out.length + 1 < hi.length) then hd + 1 else hd := by
  have hc := digitOf_eq_digitValue hr.digits (c := c) (by simp)
  cases hiTight with
  | false =>
    obtain rfl : 62 = hd := by simpa [topAt] using htop
    exact digitOf_lt hc
  | true =>
    obtain ⟨hne, rest, rfl⟩ := h.high rfl
    have hlt' := (Lex.append_lt_append_iff out).mp (hlt hne)
    cases rest with
    | nil => simp at hroom
    | cons d rest =>
      have hd' := digitOf_eq_digitValue hhi (c := d) (by simp)
      obtain rfl : digitValue d = hd := by simpa [topAt] using htop
      rcases cons_lt_cons_iff.mp hlt' with hcd | ⟨rfl, hrest⟩
      · have := (lt_iff_digitOf_lt hc hd').mp hcd
        split <;> omega
      · cases rest with
        | nil => exact absurd hrest (not_lt_nil x)
        | cons e rest => simp

include h in
theorem Copied.floor_le_top (hlo : IsDigits lo) (hhi : IsDigits hi)
    (hbounds : hi = [] ∨ lo < hi) (hhigh : hiTight = true) (hroom : hiTight = true → out.length < hi.length)
    (hfloor : floorAt lo out.length (loTight && decide (out.length < lo.length)) = some floor)
    (htop : topAt hi out.length hiTight = some hd) : floor ≤ hd := by
  obtain ⟨hne, rest, rfl⟩ := h.high hhigh
  cases loTight with
  | false =>
    obtain rfl : 0 = floor := by simpa [floorAt] using hfloor
    exact Nat.zero_le _
  | true =>
    obtain ⟨rest', rfl⟩ := h.low rfl
    have hlt := (Lex.append_lt_append_iff out).mp (hbounds.resolve_left hne)
    cases rest with
    | nil => simp [hhigh] at hroom
    | cons d rest =>
      have hd' := digitOf_eq_digitValue hhi (c := d) (by simp)
      obtain rfl : digitValue d = hd := by simpa [topAt, hhigh] using htop
      cases rest' with
      | nil =>
        obtain rfl : 0 = floor := by simpa [floorAt] using hfloor
        exact Nat.zero_le _
      | cons e rest' =>
        have he := digitOf_eq_digitValue hlo (c := e) (by simp)
        obtain rfl : digitValue e = floor := by simpa [floorAt] using hfloor
        rcases cons_lt_cons_iff.mp hlt with hed | ⟨rfl, -⟩
        · exact ((lt_iff_digitOf_lt he hd').mp hed).le
        · exact le_rfl

include h in
theorem Copied.concat (hlo : IsDigits lo) (hhi : IsDigits hi)
    (hbounds : hi = [] ∨ lo < hi) (hroom : hiTight = true → out.length < hi.length)
    (hfloor : floorAt lo out.length (loTight && decide (out.length < lo.length)) = some floor)
    (htop : topAt hi out.length hiTight = some hd)
    (hnarrow : ¬floor + 2 ≤ if hiTight && decide (out.length + 1 < hi.length) then hd + 1 else hd)
    (hc : digitOf c = some floor) :
    Copied lo hi (loTight && decide (out.length < lo.length)) (hiTight && decide (floor = hd)) (out ++ [c]) where
  digits d hd := by
    rcases mem_append.mp hd with hd | hd
    · exact h.digits d hd
    · exact ⟨floor, by rwa [mem_singleton.mp hd]⟩
  low hin := by
    rw [Bool.and_eq_true, decide_eq_true_eq] at hin
    obtain ⟨rest, rfl⟩ := h.low hin.1
    cases rest with
    | nil => simp at hin
    | cons d rest =>
      obtain rfl : digitValue d = floor := by simpa [floorAt, hin.1] using hfloor
      obtain rfl := digitOf_injective hc (digitOf_eq_digitValue hlo (c := d) (by simp))
      exact ⟨rest, by simp⟩
  past hin := by
    obtain rfl : 0 = floor := by simpa [floorAt, hin] using hfloor
    obtain rfl := digitOf_injective hc digitOf_zero
    cases hlow : loTight with
    | false =>
      obtain ⟨k, rfl⟩ := h.past hlow
      exact ⟨k + 1, by rw [append_assoc, ← replicate_succ']⟩
    | true =>
      obtain ⟨rest, rfl⟩ := h.low hlow
      obtain rfl : rest = [] := by simpa [hlow] using hin
      exact ⟨0, by simp⟩
  high hhigh := by
    rw [Bool.and_eq_true, decide_eq_true_eq] at hhigh
    obtain ⟨hne, rest, rfl⟩ := h.high hhigh.1
    refine ⟨hne, ?_⟩
    cases rest with
    | nil => simp [hhigh.1] at hroom
    | cons d rest =>
      obtain rfl : digitValue d = hd := by simpa [topAt, hhigh.1] using htop
      have hd' := digitOf_eq_digitValue hhi (c := d) (by simp)
      rw [← hhigh.2] at hd'
      obtain rfl := digitOf_injective hc hd'
      exact ⟨rest, by simp⟩
  under hhigh := by
    cases htight : hiTight with
    | false =>
      refine (h.under htight).imp_right fun hlt x => ?_
      rw [append_assoc]
      exact hlt _
    | true =>
      have hne : floor ≠ hd := by simpa [htight] using hhigh
      have hle := h.floor_le_top hlo hhi hbounds htight hroom hfloor htop
      obtain ⟨-, rest, rfl⟩ := h.high htight
      cases rest with
      | nil => simp [htight] at hroom
      | cons d rest =>
        obtain rfl : digitValue d = hd := by simpa [topAt, htight] using htop
        have hd' := digitOf_eq_digitValue hhi (c := d) (by simp)
        refine .inr fun x => ?_
        rw [append_assoc, Lex.append_lt_append_iff]
        exact Lex.cons_lt_cons ((lt_iff_digitOf_lt hc hd').mpr (lt_of_le_of_ne hle hne)) _ _
  forced r hr hbetween := by
    obtain ⟨d, x, rfl, hle⟩ := h.floor_le hlo hfloor hr hbetween.1 (h.forced r hr hbetween)
    have hlt := h.lt_ceil hhi hroom htop hr hbetween.2
    have hd' := digitOf_eq_digitValue hr.digits (c := d) (by simp)
    obtain rfl : floor = digitValue d := by omega
    obtain rfl := digitOf_injective hc hd'
    exact ⟨x, by simp⟩

include h in
theorem Copied.not_between (hstop : rankMax ≤ out.length ∨ (hiTight = true ∧ hi.length ≤ out.length)) (hr : IsRank r)
    (hbetween : Between lo hi r) : False := by
  have hpre := h.forced r hr hbetween
  rcases hstop with hlong | ⟨htight, hlong⟩
  · obtain rfl : out = r := hpre.eq_of_length_le (hr.length_le.trans hlong)
    cases hlow : loTight with
    | false =>
      obtain ⟨k, hout⟩ := h.past hlow
      refine hr.not_zero ?_
      rw [hout, replicate_succ', ← append_assoc]
      exact suffix_append _ _
    | true =>
      obtain ⟨rest, rfl⟩ := h.low hlow
      exact Lex.not_append_lt out rest hbetween.1
  · obtain ⟨hne, hout⟩ := h.high htight
    obtain rfl := hout.eq_of_length_le hlong
    obtain ⟨x, rfl⟩ := hpre
    exact Lex.not_append_lt out x (hbetween.2 hne)

include h in
theorem Copied.isRank_concat (hlen : out.length < rankMax) {x : ℕ}
    (hc : digitOf c = some x) (hx : 0 < x) : IsRank (out ++ [c]) where
  ne_nil := by simp
  length_le := by simpa using Nat.succ_le_of_lt hlen
  digits d hd := by
    rcases mem_append.mp hd with hd | hd
    · exact h.digits d hd
    · exact ⟨x, by rwa [mem_singleton.mp hd]⟩
  not_zero hzero := by
    obtain ⟨y, hy⟩ := hzero
    obtain ⟨-, hcz⟩ := append_inj' hy rfl
    obtain rfl : '0' = c := by simpa using hcz
    rw [digitOf_zero] at hc
    obtain rfl : 0 = x := by simpa using hc
    exact lt_irrefl 0 hx

end Copied

/-! ### The loop -/

/-- How the loop ends: with a rank between the bounds, or where there is none. -/
def LoopEnds (lo hi : List Char) : Except RankError (List Char) → Prop
  | .ok r => IsRank r ∧ Between lo hi r
  | .error e => e = .rerank ∧ ∀ r, IsRank r → ¬Between lo hi r

theorem floorAt_isSome (lo : List Char) (i : ℕ) (loTight : Bool) :
    ∃ floor, floorAt lo i (loTight && decide (i < lo.length)) = some floor := by
  by_cases hin : loTight = true ∧ i < lo.length
  · exact ⟨digitValue lo[i], by simp [floorAt, hin]⟩
  · refine ⟨0, if_neg ?_⟩
    simpa using hin

theorem topAt_isSome {i : ℕ} (hroom : hiTight = true → i < hi.length) : ∃ hd, topAt hi i hiTight = some hd := by
  cases hiTight with
  | false => exact ⟨62, rfl⟩
  | true => exact ⟨digitValue (hi.get ⟨i, hroom rfl⟩), by simp [topAt, hroom rfl]⟩

theorem topAt_le (hhi : IsDigits hi) {i hd : ℕ}
    (htop : topAt hi i hiTight = some hd) : (hiTight = true → hd < 62) ∧ hd ≤ 62 := by
  cases hiTight with
  | false =>
    obtain rfl : 62 = hd := by simpa [topAt] using htop
    exact ⟨fun h => absurd h Bool.false_ne_true, le_rfl⟩
  | true =>
    simp only [topAt, if_true, map_eq_some_iff] at htop
    obtain ⟨d, hd', rfl⟩ := htop
    have := digitOf_lt (digitOf_eq_digitValue hhi (mem_of_getElem? hd'))
    exact ⟨fun _ => this, this.le⟩

theorem rankLoop_spec {lo : List Char} (hlo : IsDigits lo) (hhi : IsDigits hi) (hbounds : hi = [] ∨ lo < hi)
    (rounds : ℕ) {loTight : Bool} {out : List Char} (h : Copied lo hi loTight hiTight out)
    (hlen : out.length ≤ rankMax) (hrounds : rankMax < out.length + rounds) :
    ∃ res, rankLoop lo hi rounds out.length loTight hiTight out = some res ∧ LoopEnds lo hi res := by
  induction rounds generalizing loTight hiTight out with
  | zero => omega
  | succ rounds ih =>
    by_cases hstop : rankMax ≤ out.length ∨ (hiTight = true ∧ hi.length ≤ out.length)
    · exact ⟨.error .rerank, by rw [rankLoop, if_pos hstop], rfl, fun r hr => h.not_between hstop hr⟩
    have hroom : hiTight = true → out.length < hi.length := fun htight => by
      by_contra hlong
      exact hstop (.inr ⟨htight, not_lt.mp hlong⟩)
    have hshort : out.length < rankMax := not_le.mp fun hlong => hstop (.inl hlong)
    obtain ⟨floor, hfloor⟩ := floorAt_isSome lo out.length loTight
    obtain ⟨hd, htop⟩ := topAt_isSome hroom
    rw [rankLoop, if_neg hstop]
    simp only [bind_eq_bind, hfloor, htop, bind_some]
    set ceil := if (hiTight && decide (out.length + 1 < hi.length)) = true then hd + 1 else hd with hceil
    have hmost : ceil ≤ 62 := by
      have := topAt_le hhi htop
      rw [hceil]
      split
      · next hmore =>
        rw [Bool.and_eq_true] at hmore
        have := this.1 hmore.1
        omega
      · exact this.2
    by_cases hwide : floor + 2 ≤ ceil
    · -- A digit between the two ends the rank.
      obtain ⟨c, hget, hc⟩ := rankDigits_getElem? (x := (floor + ceil) / 2) (by omega)
      rw [if_pos hwide, hget, bind_some]
      refine ⟨_, rfl, h.isRank_concat hshort hc (by omega), h.lt_of_floor_lt hlo hfloor hc (by omega), fun hne => ?_⟩
      exact h.lt_of_lt_ceil hhi hroom htop hc (by omega) hne
    · have hfloorLt : floor < 62 := by
        unfold floorAt at hfloor
        split at hfloor
        · obtain ⟨d, hget, rfl⟩ := map_eq_some_iff.mp hfloor
          exact digitOf_lt (digitOf_eq_digitValue hlo (mem_of_getElem? hget))
        · obtain rfl := some.inj hfloor
          decide
      obtain ⟨c, hget, hc⟩ := rankDigits_getElem? hfloorLt
      rw [if_neg hwide, hget, bind_some]
      have hnext := h.concat hlo hhi hbounds hroom hfloor htop hwide hc
      have := ih hnext (by simpa using Nat.succ_le_of_lt hshort) (by simp; omega)
      rwa [length_append, length_singleton] at this

/-! ### Bounds and ranks as texts -/

theorem isDigits_iff : (l.all fun c => (digitOf c).isSome) = true ↔ IsDigits l := by
  simp [IsDigits, List.all_eq_true, isSome_iff_exists]

theorem utf8ByteSize_of_isDigits (h : IsDigits s.toList) : s.utf8ByteSize = s.toList.length := by
  conv_lhs => rw [← String.ofList_toList (s := s)]
  rw [String.utf8ByteSize_ofList, utf8Len_of_isDigits h]

theorem isRankBound_iff : isRankBound s = true ↔ IsDigits s.toList ∧ s.toList.length ≤ rankMax := by
  rw [isRankBound, Bool.and_eq_true, isDigits_iff, decide_eq_true_eq]
  constructor
  · rintro ⟨hsize, hdigits⟩
    exact ⟨hdigits, by rwa [utf8ByteSize_of_isDigits hdigits] at hsize⟩
  · rintro ⟨hdigits, hlen⟩
    exact ⟨by rwa [utf8ByteSize_of_isDigits hdigits], hdigits⟩

theorem isExplicitRank_iff : isExplicitRank s = true ↔ IsRank s.toList := by
  rw [isExplicitRank, Bool.and_eq_true, Bool.and_eq_true, isDigits_iff, decide_eq_true_eq, Bool.not_eq_true',
    decide_eq_false_iff_not]
  constructor
  · rintro ⟨⟨⟨hpos, hsize⟩, hdigits⟩, hzero⟩
    rw [utf8ByteSize_of_isDigits hdigits] at hpos hsize
    exact ⟨ne_nil_of_length_pos hpos, hsize, hdigits, hzero⟩
  · intro h
    rw [utf8ByteSize_of_isDigits h.digits]
    exact ⟨⟨⟨length_pos_of_ne_nil h.ne_nil, h.length_le⟩, h.digits⟩, h.not_zero⟩

theorem between_toList_iff {a b r : String} : Between a.toList b.toList r.toList ↔ a < r ∧ (b ≠ "" → r < b) := by
  rw [Between, ← String.lt_iff_toList_lt, ← String.lt_iff_toList_lt, ne_eq, ne_eq, String.toList_eq_nil_iff]

/-- Where its bounds are in order, `rankBetween` ends as its loop does. -/
theorem rankBetween_ends {a b : String} (ha : isRankBound a = true) (hb : isRankBound b = true) (hab : b = "" ∨ a < b) :
    ∃ res, rankBetween a b = some (res.map String.ofList) ∧ LoopEnds a.toList b.toList res := by
  obtain ⟨hlo, -⟩ := isRankBound_iff.mp ha
  obtain ⟨hhi, -⟩ := isRankBound_iff.mp hb
  have hbounds : b.toList = [] ∨ a.toList < b.toList :=
    hab.imp (String.toList_eq_nil_iff.mpr) (String.lt_iff_toList_lt.mp)
  have hstart : Copied a.toList b.toList true (decide (b ≠ "")) [] := by
    refine ⟨fun c hc => absurd hc not_mem_nil, fun _ => List.nil_prefix, fun h => absurd h.symm Bool.false_ne_true,
      fun hne => ⟨?_, List.nil_prefix⟩, fun heq => .inl ?_, fun _ _ _ => List.nil_prefix⟩
    · rwa [decide_eq_true_eq, ne_eq, ← String.toList_eq_nil_iff] at hne
    · rwa [decide_eq_false_iff_not, not_not, ← String.toList_eq_nil_iff] at heq
  obtain ⟨res, hloop, hends⟩ := rankLoop_spec hlo hhi hbounds (rankMax + 1) hstart (Nat.zero_le _) (by simp)
  refine ⟨res, ?_, hends⟩
  have hnot : ¬(b ≠ "" ∧ b ≤ a) := fun h => hab.elim h.1 fun hlt => absurd hlt (not_lt.mpr h.2)
  rw [rankBetween, ha, hb, if_neg (by simp), if_neg hnot]
  rw [length_nil] at hloop
  rw [hloop, map_some]

end DashForge
