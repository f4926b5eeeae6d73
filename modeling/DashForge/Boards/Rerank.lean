import DashForge.Boards.RankBetween
import DashForge.Data.Loop
import Mathlib.Data.List.DropRight

/-!
# Re-ranking a column

The ranks of a column that is ranked anew, and those that put a card at its edges (`rules/boards.rs`). `rerank` counts
up in base 62 by steps of at least 62 and drops trailing zeros, which keeps the order (`dropZeros_lt`). Every explicit
rank that is made is below `V` or not below `W`, and every implicit one starts with `V`.
-/

namespace DashForge

open String (lt_iff_toList_lt toList_ofList)
open List Option

/-- The rank that puts a card at the top of a column whose first rank is `first`, above the sourced pool. -/
def topRank (first : Option String) : Option (Except RankError String) :=
  rankBetween "" ((first.filter fun f => f ≤ "V").getD "V")

/-- The rank that puts a card at the bottom of a column whose last rank is `last`, below the sourced pool. -/
def bottomRank (last : Option String) : Option (Except RankError String) :=
  rankBetween ((last.filter fun l => "W" ≤ l).getD "W") ""

def rerankMax : ℕ := 1000000

/-- The fewest digits that leave 62 free ranks between neighbours. -/
def rerankWidth (n : ℕ) : Option ℕ :=
  loop (fun _ width => if 31 * 62 ^ (width - 1) < 62 * (n + 1) then some (width + 1) else none) 64 1

/-- Digits without their trailing zeros. -/
def dropZeros (l : List Char) : List Char := l.rdropWhile (· = '0')

/-- `n` evenly spaced explicit ranks, ascending. It has none as its value when its loop runs out of rounds. -/
def rerank (n : ℕ) : Option (Except RankError (List String)) :=
  if rerankMax < n then some (.error .invalid)
  else do
    let width ← rerankWidth n
    let space := 31 * 62 ^ (width - 1)
    return .ok ((range n).map fun k =>
      String.ofList (dropZeros (base62 (((k + 1) * space / (n + 1) : ℕ) : ℤ) width)))

/-! ### Numbers in a fixed width -/

theorem digitOf_rankDigit {x : ℕ} (h : x < 62) : digitOf (rankDigit x) = some x := by
  obtain ⟨c, hget, hc⟩ := rankDigits_getElem? h
  rw [rankDigit, getD_eq_getElem?_getD, hget, getD_some, hc]

theorem isDigits_base62Digits (v width : ℕ) : IsDigits (base62Digits v width) := by
  induction width generalizing v with
  | zero => exact fun c hc => absurd hc not_mem_nil
  | succ width ih =>
    intro c hc
    rcases mem_append.mp hc with hc | hc
    · exact ih (v / 62) c hc
    · exact ⟨v % 62, by rw [mem_singleton.mp hc, digitOf_rankDigit (Nat.mod_lt v (by decide))]⟩

variable {v width k n : ℕ} {l m : List Char} {r : String}

/-- The digits are ordered as the numbers are. -/
theorem base62Digits_lt {w : ℕ} (h : v < w) (hw : w < 62 ^ width) : base62Digits v width < base62Digits w width := by
  induction width generalizing v w with
  | zero => rw [pow_zero] at hw; omega
  | succ width ih =>
    have hw' : w / 62 < 62 ^ width := by
      rw [Nat.div_lt_iff_lt_mul (by decide), ← pow_succ]
      exact hw
    rw [base62Digits, base62Digits]
    rcases Nat.lt_or_ge (v / 62) (w / 62) with hlt | hge
    · exact Lex.append_lt_append_of_lt (ih hlt hw') (by rw [length_base62Digits, length_base62Digits]) _ _
    · have heq : v / 62 = w / 62 := by omega
      rw [heq, Lex.append_lt_append_iff]
      refine Lex.cons_lt_cons ((lt_iff_digitOf_lt (digitOf_rankDigit ?_) (digitOf_rankDigit ?_)).mpr ?_) [] []
      all_goals omega

theorem base62_eq (h : v < 62 ^ width) : base62 v width = base62Digits v width := by
  rw [base62]
  congr 1
  have : (v : ℤ) < 62 ^ width := by exact_mod_cast h
  omega

theorem base62Digits_half (k : ℕ) : base62Digits (31 * 62 ^ k) (k + 1) = 'V' :: replicate k '0' := by
  induction k with
  | zero => rfl
  | succ k ih =>
    have hdiv : 31 * 62 ^ (k + 1) / 62 = 31 * 62 ^ k := by
      rw [pow_succ, ← mul_assoc]
      exact Nat.mul_div_cancel _ (by decide)
    have hmod : 31 * 62 ^ (k + 1) % 62 = 0 := by
      rw [pow_succ, ← mul_assoc]
      exact Nat.mul_mod_left _ _
    rw [base62Digits, hdiv, hmod, ih, replicate_succ', cons_append]
    rfl

/-! ### Trailing zeros -/

theorem dropZeros_append (l : List Char) : ∃ k, l = dropZeros l ++ replicate k '0' := by
  induction l using reverseRecOn with
  | nil => exact ⟨0, rfl⟩
  | append_singleton l c ih =>
    rw [dropZeros, rdropWhile_concat]
    split
    · next hc =>
      obtain ⟨k, hk⟩ := ih
      refine ⟨k + 1, ?_⟩
      rw [← dropZeros, replicate_succ', ← append_assoc, ← hk, of_decide_eq_true hc]
    · exact ⟨0, (append_nil _).symm⟩

theorem dropZeros_isPrefix (l : List Char) : dropZeros l <+: l := List.rdropWhile_prefix _ l

theorem not_zero_suffix_dropZeros (l : List Char) : ¬['0'] <:+ dropZeros l := by
  rintro ⟨m, hm⟩
  have hne : dropZeros l ≠ [] := by simp [← hm]
  have hlast := rdropWhile_last_not (p := (· = '0')) (l := l) hne
  refine hlast ?_
  rw [decide_eq_true_eq]
  calc (dropZeros l).getLast hne = (m ++ ['0']).getLast (by simp) := by simp only [hm]
    _ = '0' := getLast_append_singleton m

theorem not_lt_zeros (hl : IsDigits l) (hlen : k ≤ l.length) : ¬l < replicate k '0' := by
  induction l generalizing k with
  | nil =>
    obtain rfl : k = 0 := Nat.le_zero.mp hlen
    exact lt_irrefl _
  | cons c l ih =>
    cases k with
    | zero => exact not_lt_nil _
    | succ k =>
      rw [replicate_succ, cons_lt_cons_iff, not_or]
      obtain ⟨x, hc⟩ := hl c mem_cons_self
      refine ⟨fun hlt => absurd ((lt_iff_digitOf_lt hc digitOf_zero).mp hlt) (Nat.not_lt_zero x), fun h => ?_⟩
      exact ih (fun d hd => hl d (mem_cons_of_mem c hd)) (Nat.le_of_succ_le_succ hlen) h.2

theorem lt_of_lt_append_zeros (hl : IsDigits l)
    (hlen : m.length + k ≤ l.length) (h : l < m ++ replicate k '0') : l < m := by
  by_contra hnot
  rcases (not_lt.mp hnot).lt_or_eq with hlt | rfl
  · by_cases hpre : m <+: l
    · obtain ⟨y, rfl⟩ := hpre
      refine not_lt_zeros (fun c hc => hl c (mem_append_right m hc)) ?_ ((Lex.append_lt_append_iff m).mp h)
      rw [length_append] at hlen
      omega
    · exact lt_asymm h (Lex.append_lt_of_lt hlt hpre _)
  · obtain rfl : k = 0 := by omega
    rw [replicate_zero, append_nil] at h
    exact lt_irrefl m h

theorem lt_dropZeros (hl : IsDigits l) (hlen : m.length ≤ l.length) (h : l < m) : l < dropZeros m := by
  obtain ⟨k, hm⟩ := dropZeros_append m
  have hlen' := congrArg List.length hm
  rw [length_append, length_replicate] at hlen'
  rw [hm] at h
  exact lt_of_lt_append_zeros hl (by omega) h

theorem dropZeros_le (l : List Char) : dropZeros l ≤ l := by
  obtain ⟨y, hy⟩ := dropZeros_isPrefix l
  refine not_lt.mp fun h => Lex.not_append_lt (dropZeros l) y ?_
  rwa [hy]

theorem dropZeros_lt (hl : IsDigits l) (hlen : m.length ≤ l.length) (h : l < m) : dropZeros l < dropZeros m :=
  lt_of_le_of_lt (dropZeros_le l) (lt_dropZeros hl hlen h)

theorem isRank_dropZeros (hpos : 0 < v) (hv : v < 62 ^ width) (hwidth : width ≤ rankMax) :
    IsRank (dropZeros (base62Digits v width)) where
  ne_nil hnil := by
    have hzero := base62Digits_lt hpos hv
    have hlt := lt_dropZeros (isDigits_base62Digits 0 width) (by rw [length_base62Digits, length_base62Digits]) hzero
    rw [hnil] at hlt
    exact not_lt_nil _ hlt
  length_le := (dropZeros_isPrefix _).length_le.trans (by rwa [length_base62Digits])
  digits c hc := isDigits_base62Digits v width c ((dropZeros_isPrefix _).subset hc)
  not_zero := not_zero_suffix_dropZeros _

/-! ### The spacing -/

theorem rerankWidth_spec (hn : n ≤ rerankMax) : ∃ k ≤ 4, rerankWidth n = some (k + 1) ∧ 62 * (n + 1) ≤ 31 * 62 ^ k := by
  let P : ℕ → Prop := fun width => 1 ≤ width ∧ width ≤ 5
  have hround : ∀ m w w', P w →
      (fun (_ : ℕ) width => if 31 * 62 ^ (width - 1) < 62 * (n + 1) then some (width + 1) else none) m w = some w' →
      P w' ∧ 6 - w' < 6 - w := by
    rintro m w w' ⟨hpos, hle⟩ hstep
    simp only [ite_none_right_eq_some, some.injEq] at hstep
    obtain ⟨hlt, rfl⟩ := hstep
    have hfour : w ≠ 5 := by
      rintro rfl
      rw [rerankMax] at hn
      norm_num at hlt
      omega
    refine ⟨⟨by omega, by omega⟩, by omega⟩
  obtain ⟨w, m, hloop, ⟨hpos, hle⟩, hstop⟩ :=
    exists_loop_eq_some P (fun w => 6 - w) hround (n := 64) (s := 1) ⟨le_rfl, by decide⟩ (by decide)
  obtain ⟨k, rfl⟩ : ∃ k, w = k + 1 := ⟨w - 1, by omega⟩
  refine ⟨k, by omega, hloop, ?_⟩
  simpa using hstop

section Spacing

variable {n space : ℕ}

theorem spacing_lt (hspace : 62 * (n + 1) ≤ space) (hk : k < n + 1) : k * space / (n + 1) < space := by
  rw [Nat.div_lt_iff_lt_mul (Nat.succ_pos n), mul_comm space]
  exact Nat.mul_lt_mul_of_pos_right hk (by omega)

theorem spacing_add_le (hspace : 62 * (n + 1) ≤ space) (k : ℕ) :
    k * space / (n + 1) + 62 ≤ (k + 1) * space / (n + 1) := by
  rw [Nat.le_div_iff_mul_le (Nat.succ_pos n), add_mul, add_mul, one_mul]
  exact Nat.add_le_add (Nat.div_mul_le_self _ _) hspace

theorem spacing_strictMono (hspace : 62 * (n + 1) ≤ space) : StrictMono fun k => k * space / (n + 1) :=
  strictMono_nat_of_lt_succ fun k => by
    have := spacing_add_le hspace k
    omega

end Spacing

theorem rerank_no_overflow (hn : n ≤ rerankMax) (hwidth : rerankWidth n = some width) (hk : k ≤ n) :
    k * (31 * 62 ^ (width - 1)) < 2 ^ 63 ∧ 62 * (n + 1) < 2 ^ 63 := by
  obtain ⟨d, hd, hw, -⟩ := rerankWidth_spec hn
  obtain rfl : width = d + 1 := some.inj (hwidth.symm.trans hw)
  rw [rerankMax] at hn
  refine ⟨?_, by omega⟩
  calc k * (31 * 62 ^ (d + 1 - 1)) ≤ 1000000 * (31 * 62 ^ 4) :=
        Nat.mul_le_mul (hk.trans hn) (Nat.mul_le_mul_left 31 (Nat.pow_le_pow_right (by decide) (by omega)))
    _ < 2 ^ 63 := by norm_num

/-! ### The ranks in order -/

/-- What can be a card's rank. -/
def IsColumnRank (r : String) : Prop :=
  isExplicitRank r = true ∨ ∃ (createdAtMs : ℤ) (bytes : List ℕ), r = implicitRank createdAtMs bytes

theorem lt_implicitRank (createdAtMs : ℤ) (bytes : List ℕ) : "V" < implicitRank createdAtMs bytes := by
  have hcons : ∀ x : List Char, 'V' :: x = ['V'] ++ x := fun _ => rfl
  rw [lt_iff_toList_lt, show "V".toList = ['V'] from rfl, implicitRank, toList_ofList, hcons]
  refine Lex.lt_append ['V'] fun hnil => ?_
  have := congrArg List.length hnil
  simp [base62, length_base62Digits] at this

theorem implicitRank_lt (createdAtMs : ℤ) (bytes : List ℕ) : implicitRank createdAtMs bytes < "W" := by
  rw [lt_iff_toList_lt, implicitRank, toList_ofList]
  exact Lex.cons_lt_cons (by decide) _ []

/-- A later time has the higher implicit rank, whatever the ids. -/
theorem implicitRank_lt_implicitRank {t t' : ℤ} (ht : 0 ≤ t) (htt : t < t') (ht' : t' < 62 ^ 8)
    (bytes bytes' : List ℕ) :
    implicitRank t bytes < implicitRank t' bytes' := by
  obtain ⟨v, rfl⟩ := Int.eq_ofNat_of_zero_le ht
  obtain ⟨w, rfl⟩ := Int.eq_ofNat_of_zero_le (ht.trans htt.le)
  have hvw : v < w := by exact_mod_cast htt
  have hw : w < 62 ^ 8 := by exact_mod_cast ht'
  rw [lt_iff_toList_lt, implicitRank, implicitRank, toList_ofList, toList_ofList,
    cons_lt_cons_self, base62_eq hw, base62_eq (hvw.trans hw)]
  exact Lex.append_lt_append_of_lt (base62Digits_lt hvw hw) (by rw [length_base62Digits, length_base62Digits]) _ _

variable {a b : String} {column : List String}

theorem IsColumnRank.ne_empty (h : IsColumnRank r) : r ≠ "" := by
  rcases h with hrank | ⟨t, bytes, rfl⟩
  · rintro rfl
    exact absurd hrank (by decide)
  · intro hnil
    exact absurd (hnil ▸ lt_implicitRank t bytes) (by decide)

theorem rankBetween_eq_ok (h : rankBetween a b = some (.ok r)) :
    isExplicitRank r = true ∧ a < r ∧ (b ≠ "" → r < b) := by
  have hbounds : isRankBound a = true ∧ isRankBound b = true := by
    by_contra hnot
    rw [rankBetween, if_pos] at h
    · simp at h
    · rw [Bool.or_eq_true, Bool.not_eq_true', Bool.not_eq_true']
      by_cases ha : isRankBound a = true
      · exact .inr (by simpa [ha] using hnot)
      · exact .inl (by simpa using ha)
  by_cases hab : b = "" ∨ a < b
  · obtain ⟨res, hres, hends⟩ := rankBetween_ends hbounds.1 hbounds.2 hab
    cases res with
    | error e => simp [hres, Except.map] at h
    | ok l =>
      obtain rfl : String.ofList l = r := by simpa [hres, Except.map] using h
      rw [← toList_ofList (l := l)] at hends
      exact ⟨isExplicitRank_iff.mpr hends.1, between_toList_iff.mp hends.2⟩
  · obtain ⟨hne, hle⟩ := not_or.mp hab
    simp [rankBetween, hbounds, hne, not_lt.mp hle] at h

theorem exists_rankBetween (ha : isRankBound a = true) (hb : isRankBound b = true)
    (hr : isExplicitRank r = true) (har : a < r) (hrb : r < b) : ∃ r', rankBetween a b = some (.ok r') := by
  obtain ⟨res, hres, hends⟩ := rankBetween_ends ha hb (.inr (har.trans hrb))
  cases res with
  | error e => exact absurd (between_toList_iff.mpr ⟨har, fun _ => hrb⟩) (hends.2 _ (isExplicitRank_iff.mp hr))
  | ok l => exact ⟨_, hres⟩

/-- The ranks of a re-ranked column. -/
structure Reranked (n : ℕ) (ranks : List String) : Prop where
  length_eq : ranks.length = n
  ascending : ranks.Pairwise (· < ·)
  explicit : ∀ r ∈ ranks, isExplicitRank r = true ∧ r < "V"
  below_implicit : ∀ r ∈ ranks, ∀ (createdAtMs : ℤ) (bytes : List ℕ), r < implicitRank createdAtMs bytes
  room : ∀ x ∈ ranks.zip ranks.tail, ∃ r, rankBetween x.1 x.2 = some (.ok r)

/-- The rank of a number of a width. -/
def rankOf (width v : ℕ) : String := String.ofList (dropZeros (base62Digits v width))

theorem toList_rankOf (width v : ℕ) : (rankOf width v).toList = dropZeros (base62Digits v width) :=
  toList_ofList

section RankOf

variable {k v w : ℕ}

theorem rankOf_lt (hvw : v < w) (hw : w < 62 ^ k) : rankOf k v < rankOf k w := by
  rw [lt_iff_toList_lt, toList_rankOf, toList_rankOf]
  exact dropZeros_lt (isDigits_base62Digits v k) (by rw [length_base62Digits, length_base62Digits])
    (base62Digits_lt hvw hw)

theorem isExplicitRank_rankOf (hpos : 0 < v) (hv : v < 62 ^ k) (hk : k ≤ rankMax) :
    isExplicitRank (rankOf k v) = true := by
  rw [isExplicitRank_iff, toList_rankOf]
  exact isRank_dropZeros hpos hv hk

theorem isRankBound_of_isExplicitRank (h : isExplicitRank r = true) : isRankBound r = true :=
  isRankBound_iff.mpr ⟨(isExplicitRank_iff.mp h).digits, (isExplicitRank_iff.mp h).length_le⟩

theorem half_lt (k : ℕ) : 31 * 62 ^ k < 62 ^ (k + 1) := by
  rw [pow_succ, mul_comm (62 ^ k)]
  exact Nat.mul_lt_mul_of_pos_right (by decide) (Nat.pow_pos (by decide))

theorem rankOf_lt_V (hv : v < 31 * 62 ^ k) : rankOf (k + 1) v < "V" := by
  have hlt := base62Digits_lt hv (half_lt k)
  rw [base62Digits_half, ← singleton_append] at hlt
  rw [lt_iff_toList_lt, toList_rankOf, show "V".toList = ['V'] from rfl]
  refine lt_of_le_of_lt (dropZeros_le _) (lt_of_lt_append_zeros (isDigits_base62Digits v (k + 1)) ?_ hlt)
  rw [length_base62Digits, length_singleton, add_comm]

theorem exists_rankBetween_rankOf (hk : k ≤ rankMax) (hpos : 0 < v) (hvw : v + 1 < w) (hw : w < 62 ^ k) :
    ∃ r, rankBetween (rankOf k v) (rankOf k w) = some (.ok r) := by
  obtain ⟨u, hvu, huw⟩ : ∃ u, v < u ∧ u < w := ⟨v + 1, by omega, by omega⟩
  have hv := isExplicitRank_rankOf hpos (by omega) hk
  have hu := isExplicitRank_rankOf (hpos.trans hvu) (huw.trans hw) hk
  have hwr := isExplicitRank_rankOf (by omega) hw hk
  exact exists_rankBetween (isRankBound_of_isExplicitRank hv) (isRankBound_of_isExplicitRank hwr) hu
    (rankOf_lt hvu (huw.trans hw)) (rankOf_lt huw hw)

end RankOf

theorem rerank_eq (hn : n ≤ rerankMax) (hwidth : rerankWidth n = some (k + 1)) (hspace : 62 * (n + 1) ≤ 31 * 62 ^ k) :
    rerank n = some (.ok ((range n).map fun i => rankOf (k + 1) ((i + 1) * (31 * 62 ^ k) / (n + 1)))) := by
  rw [rerank, if_neg (not_lt.mpr hn), hwidth]
  refine congrArg (fun l => some (Except.ok l)) (map_congr_left fun i hi => ?_)
  have hlt := (spacing_lt hspace (k := i + 1) (by simpa using hi)).trans (half_lt k)
  rw [rankOf, ← base62_eq hlt]
  rfl

/-- Up to a million ranks are made; they ascend below every implicit one, with room between neighbours. -/
theorem rerank_reranked (hn : n ≤ rerankMax) : ∃ ranks, rerank n = some (.ok ranks) ∧ Reranked n ranks := by
  obtain ⟨k, hk, hwidth, hspace⟩ := rerankWidth_spec hn
  have hwide : k + 1 ≤ rankMax := by
    have : rankMax = 63 := rfl
    omega
  set v : ℕ → ℕ := fun i => (i + 1) * (31 * 62 ^ k) / (n + 1)
  have hmono : StrictMono v := fun i j hij => spacing_strictMono hspace (Nat.succ_lt_succ hij)
  have hpos : ∀ i, 0 < v i := fun i => by
    have hstep : i * (31 * 62 ^ k) / (n + 1) + 62 ≤ v i := spacing_add_le hspace i
    exact Nat.lt_of_lt_of_le (by decide) ((Nat.le_add_left 62 _).trans hstep)
  have hlt : ∀ i < n, v i < 31 * 62 ^ k := fun i hi => spacing_lt hspace (Nat.succ_lt_succ hi)
  have hmem : ∀ r ∈ (range n).map (fun i => rankOf (k + 1) (v i)), ∃ i < n, rankOf (k + 1) (v i) = r := by
    intro r hr
    obtain ⟨i, hi, rfl⟩ := mem_map.mp hr
    exact ⟨i, mem_range.mp hi, rfl⟩
  have hexplicit : ∀ r ∈ (range n).map (fun i => rankOf (k + 1) (v i)), isExplicitRank r = true ∧ r < "V" := by
    intro r hr
    obtain ⟨i, hi, rfl⟩ := hmem r hr
    exact ⟨isExplicitRank_rankOf (hpos i) ((hlt i hi).trans (half_lt k)) hwide, rankOf_lt_V (hlt i hi)⟩
  refine ⟨_, rerank_eq hn hwidth hspace, by rw [length_map, length_range], ?_, hexplicit, ?_, ?_⟩
  · refine pairwise_map.mpr ((pairwise_lt_range (n := n)).imp_of_mem fun {i j} _ hj hij => ?_)
    exact rankOf_lt (hmono hij) ((hlt j (mem_range.mp hj)).trans (half_lt k))
  · exact fun r hr t bytes => (hexplicit r hr).2.trans (lt_implicitRank t bytes)
  · intro x hx
    obtain ⟨i, hi⟩ := mem_iff_getElem?.mp hx
    obtain ⟨hfst, hsnd⟩ := getElem?_zip_eq_some.mp hi
    rw [getElem?_tail] at hsnd
    obtain ⟨hi₁, hx₁⟩ := List.getElem?_eq_some_iff.mp hfst
    obtain ⟨hi₂, hx₂⟩ := List.getElem?_eq_some_iff.mp hsnd
    rw [getElem_map, getElem_range] at hx₁ hx₂
    rw [length_map, length_range] at hi₂
    rw [← hx₁, ← hx₂]
    refine exists_rankBetween_rankOf hwide (hpos i) ?_ ((hlt (i + 1) hi₂).trans (half_lt k))
    have hstep : v i + 62 ≤ v (i + 1) := spacing_add_le hspace (i + 1)
    exact Nat.lt_of_lt_of_le (Nat.add_lt_add_left (by decide) (v i)) hstep

/-- Between any two ranks of a re-ranked column there is the one between the first and the rank right below it. -/
theorem Reranked.pairwise_room (h : Reranked n ranks) :
    ranks.Pairwise fun a b => ∃ r, rankBetween a b = some (.ok r) := by
  refine pairwise_iff_getElem.mpr fun i j hi hj hij => ?_
  have hnext : (ranks[i], ranks[i + 1]) ∈ ranks.zip ranks.tail :=
    mem_iff_getElem?.mpr ⟨i, getElem?_zip_eq_some.mpr ⟨by simp [hi], by simp [show i + 1 < ranks.length by omega]⟩⟩
  obtain ⟨r, hr⟩ := h.room _ hnext
  obtain ⟨hrank, hlow, hhigh⟩ := rankBetween_eq_ok hr
  have hle : ranks[i + 1] ≤ ranks[j] := by
    rcases (Nat.succ_le_of_lt hij).eq_or_lt with rfl | hlt
    · exact le_rfl
    · exact (pairwise_iff_getElem.mp h.ascending (i + 1) j _ hj hlt).le
  have hbound : ∀ s ∈ ranks, isRankBound s = true := fun s hs => isRankBound_of_isExplicitRank (h.explicit s hs).1
  have hne : ranks[i + 1] ≠ "" := IsColumnRank.ne_empty (.inl (h.explicit _ (getElem_mem _)).1)
  exact exists_rankBetween (hbound _ (getElem_mem hi)) (hbound _ (getElem_mem hj)) hrank hlow ((hhigh hne).trans_le hle)

/-- There is a rank above a re-ranked column. -/
theorem exists_rank_lt_rerank (hn : n ≤ rerankMax) (h : rerank n = some (.ok ranks)) :
    ∃ r, isExplicitRank r = true ∧ ∀ s ∈ ranks, r < s := by
  obtain ⟨k, hk, hwidth, hspace⟩ := rerankWidth_spec hn
  rw [rerank_eq hn hwidth hspace] at h
  obtain rfl := Except.ok.inj (Option.some.inj h)
  have hpow : 62 ≤ 62 ^ (k + 1) := Nat.le_self_pow k.succ_ne_zero 62
  refine ⟨rankOf (k + 1) 1, isExplicitRank_rankOf one_pos (by omega) (Nat.succ_le_of_lt (hk.trans_lt (by decide))), ?_⟩
  refine forall_mem_map.mpr fun i hi => rankOf_lt ?_ ?_
  · exact Nat.lt_of_lt_of_le (by decide) ((Nat.le_add_left 62 _).trans (spacing_add_le hspace i))
  · exact (spacing_lt hspace (Nat.succ_lt_succ (mem_range.mp hi))).trans (half_lt k)

/-! ### The edges of a column -/

/-- A rank at the top is below the column's first one and below every implicit one. -/
theorem topRank_lt (hcolumn : ∀ r ∈ column, IsColumnRank r) (hsorted : column.Pairwise (· ≤ ·))
    (h : topRank column.head? = some (.ok r)) :
    (∀ s ∈ column, r < s) ∧ ∀ (createdAtMs : ℤ) (bytes : List ℕ), r < implicitRank createdAtMs bytes := by
  obtain ⟨-, -, hlt⟩ := rankBetween_eq_ok h
  have hV : ("V" : String) ≠ "" := by decide
  have hcase : r < "V" ∧ ∀ s ∈ column, r < s := by
    cases column with
    | nil => exact ⟨hlt hV, fun s hs => absurd hs not_mem_nil⟩
    | cons first column =>
      have hfirst := (hcolumn first mem_cons_self).ne_empty
      have hle : ∀ s ∈ first :: column, first ≤ s := by
        intro s hs
        rcases mem_cons.mp hs with rfl | hs
        · exact le_rfl
        · exact (pairwise_cons.mp hsorted).1 s hs
      rw [head?_cons] at hlt
      by_cases hlow : first ≤ "V"
      · rw [filter_some_pos (by simpa using hlow), getD_some] at hlt
        exact ⟨(hlt hfirst).trans_le hlow, fun s hs => (hlt hfirst).trans_le (hle s hs)⟩
      · rw [filter_some_neg (by simpa using hlow), getD_none] at hlt
        exact ⟨hlt hV, fun s hs => (hlt hV).trans_le ((not_le.mp hlow).le.trans (hle s hs))⟩
  exact ⟨hcase.2, fun t bytes => hcase.1.trans (lt_implicitRank t bytes)⟩

/-- A rank at the bottom is above the column's last one and above every implicit one. -/
theorem lt_bottomRank (hsorted : column.Pairwise (· ≤ ·)) (h : bottomRank column.getLast? = some (.ok r)) :
    (∀ s ∈ column, s < r) ∧ ∀ (createdAtMs : ℤ) (bytes : List ℕ), implicitRank createdAtMs bytes < r := by
  obtain ⟨-, hlt, -⟩ := rankBetween_eq_ok h
  have hcase : "W" < r ∧ ∀ s ∈ column, s < r := by
    cases column using reverseRecOn with
    | nil => exact ⟨hlt, fun s hs => absurd hs not_mem_nil⟩
    | append_singleton column last =>
      have hle : ∀ s ∈ column ++ [last], s ≤ last := by
        intro s hs
        rcases mem_append.mp hs with hs | hs
        · exact (pairwise_append.mp hsorted).2.2 s hs last (mem_singleton.mpr rfl)
        · exact (mem_singleton.mp hs).le
      rw [getLast?_concat] at hlt
      by_cases hhigh : "W" ≤ last
      · rw [filter_some_pos (by simpa using hhigh), getD_some] at hlt
        exact ⟨hhigh.trans_lt hlt, fun s hs => (hle s hs).trans_lt hlt⟩
      · rw [filter_some_neg (by simpa using hhigh), getD_none] at hlt
        exact ⟨hlt, fun s hs => (hle s hs).trans_lt ((not_le.mp hhigh).trans hlt)⟩
  exact ⟨hcase.2, fun t bytes => (implicitRank_lt t bytes).trans hcase.1⟩

/-- A column stays in order: re-ranked it ascends below the implicit ranks with room between neighbours, the ranks at
its edges are beyond every rank it has and every implicit one, and implicit ranks follow the time. -/
theorem ranks_ordered :
    (∀ n ≤ rerankMax, ∃ ranks, rerank n = some (.ok ranks) ∧ Reranked n ranks) ∧
    (∀ column : List String, (∀ r ∈ column, IsColumnRank r) → column.Pairwise (· ≤ ·) →
      (∀ r, topRank column.head? = some (.ok r) →
        (∀ s ∈ column, r < s) ∧ ∀ (createdAtMs : ℤ) (bytes : List ℕ), r < implicitRank createdAtMs bytes) ∧
      ∀ r, bottomRank column.getLast? = some (.ok r) →
        (∀ s ∈ column, s < r) ∧ ∀ (createdAtMs : ℤ) (bytes : List ℕ), implicitRank createdAtMs bytes < r) ∧
    ∀ t t' : ℤ, 0 ≤ t → t < t' → t' < 62 ^ 8 → ∀ bytes bytes' : List ℕ,
      implicitRank t bytes < implicitRank t' bytes' :=
  ⟨fun _ hn => rerank_reranked hn,
    fun _ hcolumn hsorted => ⟨fun _ h => topRank_lt hcolumn hsorted h, fun _ h => lt_bottomRank hsorted h⟩,
    fun _ _ ht htt ht' => implicitRank_lt_implicitRank ht htt ht'⟩

example : rerank 3 = some (.ok ["7k", "FV", "NF"]) := by decide +kernel

end DashForge
