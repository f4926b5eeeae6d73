import DashForge.Data.SortBy
import Mathlib.Algebra.GroupWithZero.Nat
import Mathlib.Algebra.Order.BigOperators.Group.List

/-!
# Merging sorted lists by a key

A k-way merge takes the least of the heads, the first list's on a tie, and drops every element with
its key from all lists before it goes on. Merging sorted lists gives every key of theirs once, in
ascending order, each with the first element that has it (`mergeByKey_spec`); a list merged with
itself or with lists it was merged from is itself (`mergeByKey_absorb`).
-/

namespace DashForge

open List Option

variable {α κ : Type*} [LinearOrder κ] (key : α → κ)

/-- The first of the least heads and the place of its list, `n` being the place of the first list
and `pick` the best head before it. -/
def leastHead : List (List α) → ℕ → Option (ℕ × α) → Option (ℕ × α)
  | [], _, pick => pick
  | [] :: parts, n, pick => leastHead parts (n + 1) pick
  | (a :: _) :: parts, n, none => leastHead parts (n + 1) (some (n, a))
  | (a :: _) :: parts, n, some (j, b) =>
    leastHead parts (n + 1) (if key a < key b then some (n, a) else some (j, b))

/-- What is left of the lists once `a`, the head of list `i`, is taken: no element with its key. -/
def dropKey (parts : List (List α)) (i : ℕ) (a : α) : List (List α) :=
  (parts.modify i tail).map fun part => part.dropWhile fun b => key b = key a

variable {key}

/-- `a` is the head of list `i` of `parts`, and the first of the least heads. -/
structure IsLeastHead (key : α → κ) (parts : List (List α)) (i : ℕ) (a : α) : Prop where
  split : ∃ pre rest post, parts = pre ++ (a :: rest) :: post ∧ i = pre.length ∧
    (∀ part ∈ pre, ∀ b, part.head? = some b → key a < key b) ∧
    ∀ part ∈ post, ∀ b, part.head? = some b → key a ≤ key b

variable {parts : List (List α)} {i : ℕ} {a : α}

variable {n : ℕ} {pick : Option (ℕ × α)} {k : κ}

theorem leastHead_eq_some (h : leastHead key parts n pick = some (i, a)) :
    (pick = some (i, a) ∧ ∀ part ∈ parts, ∀ b, part.head? = some b → key a ≤ key b) ∨
      ∃ pre rest post, parts = pre ++ (a :: rest) :: post ∧ i = n + pre.length ∧
        (∀ part ∈ pre, ∀ b, part.head? = some b → key a < key b) ∧
        (∀ part ∈ post, ∀ b, part.head? = some b → key a ≤ key b) ∧ ∀ p, pick = some p → key a < key p.2 := by
  induction parts generalizing n pick with
  | nil => exact .inl ⟨h, by simp⟩
  | cons part parts ih =>
    cases part with
    | nil =>
      rw [leastHead] at h
      rcases ih h with ⟨hpick, hle⟩ | ⟨pre, rest, post, rfl, rfl, hlt, hle, hpick⟩
      · exact .inl ⟨hpick, by simpa using hle⟩
      · refine .inr ⟨[] :: pre, rest, post, rfl, by simp; omega, by simpa using hlt, hle, hpick⟩
    | cons c rest =>
      -- the head competes with the best one so far, which stays on a tie
      cases pick with
      | none =>
        rw [leastHead] at h
        rcases ih h with ⟨hpick, hle⟩ | ⟨pre, rest', post, rfl, rfl, hlt, hle, hpick⟩
        · obtain ⟨rfl, rfl⟩ := Prod.mk.inj (some.inj hpick)
          exact .inr ⟨[], rest, parts, rfl, rfl, by simp, hle, by simp⟩
        · refine .inr ⟨(c :: rest) :: pre, rest', post, rfl, by simp; omega, ?_, hle, by simp⟩
          have hc := hpick (n, c) rfl
          simpa [hc] using hlt
      | some p =>
        obtain ⟨j, b⟩ := p
        rw [leastHead] at h
        split at h
        case isTrue hcb =>
          rcases ih h with ⟨hpick, hle⟩ | ⟨pre, rest', post, rfl, rfl, hlt, hle, hpick⟩
          · obtain ⟨rfl, rfl⟩ := Prod.mk.inj (some.inj hpick)
            exact .inr ⟨[], rest, parts, rfl, rfl, by simp, hle, by simpa using hcb⟩
          · have hc := hpick (n, c) rfl
            refine .inr ⟨(c :: rest) :: pre, rest', post, rfl, by simp; omega, ?_, hle, ?_⟩
            · simpa [hc] using hlt
            · simpa using hc.trans hcb
        case isFalse hcb =>
          rcases ih h with ⟨hpick, hle⟩ | ⟨pre, rest', post, rfl, rfl, hlt, hle, hpick⟩
          · refine .inl ⟨hpick, ?_⟩
            obtain ⟨rfl, rfl⟩ := Prod.mk.inj (some.inj hpick)
            simpa [not_lt.mp hcb] using hle
          · have hb := hpick (j, b) rfl
            refine .inr ⟨(c :: rest) :: pre, rest', post, rfl, by simp; omega, ?_, hle, hpick⟩
            simpa [hb.trans_le (not_lt.mp hcb)] using hlt

theorem isLeastHead_of_leastHead (h : leastHead key parts 0 none = some (i, a)) : IsLeastHead key parts i a := by
  rcases leastHead_eq_some h with ⟨hpick, -⟩ | ⟨pre, rest, post, hparts, hi, hlt, hle, -⟩
  · cases hpick
  · exact ⟨pre, rest, post, hparts, by simpa using hi, hlt, hle⟩

theorem leastHead_ne_none (h : pick ≠ none ∨ parts.flatten ≠ []) : leastHead key parts n pick ≠ none := by
  induction parts generalizing n pick with
  | nil => simpa [leastHead] using h
  | cons part parts ih =>
    cases part with
    | nil => exact ih (by simpa using h)
    | cons c rest =>
      cases pick with
      | none => exact ih (.inl (by simp))
      | some p =>
        rw [leastHead]
        exact ih (.inl (by split <;> simp))

theorem leastHead_eq_none_iff : leastHead key parts 0 none = none ↔ parts.flatten = [] := by
  constructor
  · intro h
    by_contra hne
    exact leastHead_ne_none (.inr hne) h
  · intro h
    cases hhead : leastHead key parts 0 none with
    | none => rfl
    | some p =>
      obtain ⟨pre, rest, post, rfl, -⟩ := (isLeastHead_of_leastHead hhead).split
      simp at h

/-- Taking the head of its own list is dropping its key there. -/
theorem IsLeastHead.dropKey_eq (h : IsLeastHead key parts i a) :
    dropKey key parts i a = parts.map fun part => part.dropWhile fun b => key b = key a := by
  obtain ⟨pre, rest, post, rfl, rfl, -⟩ := h.split
  have hmodify : (pre ++ (a :: rest) :: post).modify pre.length tail = pre ++ rest :: post := by
    clear h
    induction pre with
    | nil => rfl
    | cons _ pre ih => simp [ih]
  simp [dropKey, hmodify]

theorem length_dropKey_lt (h : leastHead key parts 0 none = some (i, a)) :
    ((dropKey key parts i a).map List.length).sum < (parts.map List.length).sum := by
  have hleast := isLeastHead_of_leastHead h
  rw [hleast.dropKey_eq]
  obtain ⟨pre, rest, post, rfl, -⟩ := hleast.split
  have hle : ∀ l : List (List α), ((l.map fun part => part.dropWhile fun b =>
      decide (key b = key a)).map List.length).sum ≤ (l.map List.length).sum := by
    intro l
    rw [List.map_map]
    exact sum_le_sum fun part _ => (dropWhile_sublist _).length_le
  have hpre := hle pre
  have hpost := hle post
  have hrest := (dropWhile_sublist (l := rest) fun b => decide (key b = key a)).length_le
  simp only [map_append, map_cons, sum_append, sum_cons, length_cons,
    decide_true, dropWhile_cons_of_pos] at hpre hpost ⊢
  omega

variable (key) in
/-- Merge lists by a key, each key once. -/
def mergeByKey (parts : List (List α)) : List α :=
  match _h : leastHead key parts 0 none with
  | none => []
  | some (i, a) => a :: mergeByKey (dropKey key parts i a)
termination_by (parts.map List.length).sum
decreasing_by exact length_dropKey_lt _h

/-! ### What a merge of sorted lists holds -/

theorem dropWhile_eq_filter {l : List α} (hl : l.Pairwise fun a b => key a ≤ key b) (hk : ∀ a ∈ l, k ≤ key a) :
    (l.dropWhile fun b => key b = k) = l.filter fun b => key b ≠ k := by
  induction l with
  | nil => rfl
  | cons a l ih =>
    obtain ⟨ha, hl⟩ := pairwise_cons.mp hl
    by_cases hak : key a = k
    · have hrest := ih hl fun b hb => hk b (mem_cons_of_mem _ hb)
      rw [dropWhile_cons_of_pos (by simpa using hak), filter_cons_of_neg (by simpa using hak), hrest]
    · have hlt : k < key a := lt_of_le_of_ne (hk a mem_cons_self) (Ne.symm hak)
      have hall : ∀ b ∈ a :: l, key b ≠ k := by
        intro b hb
        rcases mem_cons.mp hb with rfl | hb
        · exact hak
        · exact (hlt.trans_le (ha b hb)).ne'
      rw [dropWhile_cons_of_neg (by simpa using hak), filter_eq_self.mpr (by simpa using hall)]

/-- All lists are sorted by the key. -/
def AllSorted (key : α → κ) (parts : List (List α)) : Prop :=
  ∀ part ∈ parts, part.Pairwise fun a b => key a ≤ key b

theorem IsLeastHead.le {b : α} (h : IsLeastHead key parts i a)
    (hsorted : AllSorted key parts) (hb : b ∈ parts.flatten) : key a ≤ key b := by
  obtain ⟨part, hpart, hb⟩ := mem_flatten.mp hb
  obtain ⟨pre, rest, post, rfl, -, hlt, hle⟩ := h.split
  -- every element is at least the head of its list
  have hhead : ∃ c, part.head? = some c ∧ key c ≤ key b := by
    cases part with
    | nil => simp at hb
    | cons c l =>
      refine ⟨c, rfl, ?_⟩
      rcases mem_cons.mp hb with rfl | hb
      · exact le_rfl
      · exact (pairwise_cons.mp (hsorted _ hpart)).1 b hb
  obtain ⟨c, hc, hcb⟩ := hhead
  rcases mem_append.mp hpart with hpart | hpart
  · exact (hlt part hpart c hc).le.trans hcb
  · rcases mem_cons.mp hpart with rfl | hpart
    · obtain rfl : a = c := by simpa using hc
      exact hcb
    · exact (hle part hpart c hc).trans hcb

variable (h : IsLeastHead key parts i a) (hsorted : AllSorted key parts)

include h hsorted in
theorem IsLeastHead.find?_eq :
    parts.flatten.find? (fun b => key b = key a) = some a := by
  obtain ⟨pre, rest, post, rfl, -, hlt, -⟩ := h.split
  have hnone : pre.flatten.find? (fun b => key b = key a) = none := by
    simp only [find?_eq_none, mem_flatten, decide_eq_true_eq]
    rintro b ⟨part, hpart, hb⟩ hkey
    cases part with
    | nil => simp at hb
    | cons c l =>
      have hc := hlt _ hpart c rfl
      have hcb : key c ≤ key b := by
        rcases mem_cons.mp hb with rfl | hb
        · exact le_rfl
        · exact (pairwise_cons.mp (hsorted _ (mem_append_left _ hpart))).1 b hb
      exact absurd hkey (hc.trans_le hcb).ne'
  simp [hnone]

include h hsorted in
theorem IsLeastHead.flatten_dropKey :
    (dropKey key parts i a).flatten = parts.flatten.filter fun b => key b ≠ key a := by
  rw [h.dropKey_eq, filter_flatten]
  congr 1
  refine map_congr_left fun part hpart => dropWhile_eq_filter (hsorted part hpart) ?_
  exact fun b hb => h.le hsorted (mem_flatten.mpr ⟨part, hpart, hb⟩)

include h hsorted in
theorem IsLeastHead.allSorted_dropKey :
    AllSorted key (dropKey key parts i a) := by
  rw [h.dropKey_eq]
  intro part hpart
  obtain ⟨part', hpart', rfl⟩ := mem_map.mp hpart
  exact (hsorted part' hpart').sublist (dropWhile_sublist _)

/-- A merge of sorted lists has strictly ascending keys, and holds exactly the first element of
each key in list order. -/
theorem mergeByKey_spec (hsorted : AllSorted key parts) : (mergeByKey key parts).Pairwise (fun a b => key a < key b) ∧
      ∀ a, a ∈ mergeByKey key parts ↔ parts.flatten.find? (fun b => key b = key a) = some a := by
  induction parts using mergeByKey.induct key with
  | case1 parts hnone =>
    rw [mergeByKey, hnone]
    simp [leastHead_eq_none_iff.mp hnone]
  | case2 parts i a hhead ih =>
    have hleast := isLeastHead_of_leastHead hhead
    obtain ⟨hlt, hmem⟩ := ih (hleast.allSorted_dropKey hsorted)
    have hflat := hleast.flatten_dropKey hsorted
    have hrest : ∀ b, b ∈ mergeByKey key (dropKey key parts i a) ↔
        key b ≠ key a ∧ parts.flatten.find? (fun c => key c = key b) = some b := by
      intro b
      rw [hmem b, hflat, find?_filter]
      constructor
      · intro hfind
        have hb : key b ≠ key a := by
          simpa using (find?_some hfind)
        refine ⟨hb, ?_⟩
        rw [← hfind]
        congr 1
        funext c
        by_cases hc : key c = key b <;> simp [hc, hb]
      · rintro ⟨hb, hfind⟩
        rw [← hfind]
        congr 1
        funext c
        by_cases hc : key c = key b <;> simp [hc, hb]
    rw [mergeByKey, hhead]
    refine ⟨pairwise_cons.mpr ⟨fun b hb => ?_, hlt⟩, fun b => ?_⟩
    · obtain ⟨hne, hfind⟩ := (hrest b).mp hb
      exact lt_of_le_of_ne (hleast.le hsorted (mem_of_find?_eq_some hfind)) (Ne.symm hne)
    · rw [mem_cons, hrest b]
      constructor
      · rintro (rfl | ⟨-, hfind⟩)
        · exact hleast.find?_eq hsorted
        · exact hfind
      · intro hfind
        by_cases hb : key b = key a
        · have := hleast.find?_eq hsorted
          simp only [hb] at hfind
          exact .inl (some.inj (hfind.symm.trans this))
        · exact .inr ⟨hb, hfind⟩

theorem exists_mem_mergeByKey_iff (hsorted : AllSorted key parts) :
    (∃ a ∈ mergeByKey key parts, key a = k) ↔ ∃ a ∈ parts.flatten, key a = k := by
  obtain ⟨-, hmem⟩ := mergeByKey_spec hsorted
  constructor
  · rintro ⟨a, ha, rfl⟩
    exact ⟨a, mem_of_find?_eq_some ((hmem a).mp ha), rfl⟩
  · rintro ⟨a, ha, rfl⟩
    cases hfind : parts.flatten.find? (fun b => key b = key a) with
    | none => simpa using find?_eq_none.mp hfind a ha
    | some b =>
      have hb : key b = key a := by simpa using find?_some hfind
      exact ⟨b, (hmem b).mpr (by rw [hb]; exact hfind), hb⟩

theorem mergeByKey_absorb {parts' : List (List α)} (hsorted : AllSorted key parts) (hsorted' : AllSorted key parts')
    (hkeys : ∀ a ∈ parts'.flatten, ∃ b ∈ parts.flatten, key b = key a) :
    mergeByKey key (mergeByKey key parts :: parts') = mergeByKey key parts := by
  obtain ⟨hlt, -⟩ := mergeByKey_spec hsorted
  have hboth : AllSorted key (mergeByKey key parts :: parts') := by
    intro part hpart
    rcases mem_cons.mp hpart with rfl | hpart
    · exact hlt.imp le_of_lt
    · exact hsorted' part hpart
  obtain ⟨hlt', hmem'⟩ := mergeByKey_spec hboth
  have hnodup : ((mergeByKey key parts).map key).Nodup := pairwise_map.mpr (hlt.imp ne_of_lt)
  refine eq_of_pairwise_lt_of_mem_iff key hlt' hlt fun a => ?_
  rw [hmem' a, flatten_cons, find?_append]
  constructor
  · intro hfind
    rcases or_eq_some_iff.mp hfind with hfirst | ⟨hnone, hrest⟩
    · exact mem_of_find?_eq_some hfirst
    · obtain ⟨b, hb, hba⟩ := hkeys a (mem_of_find?_eq_some hrest)
      obtain ⟨c, hc, hca⟩ := (exists_mem_mergeByKey_iff hsorted).mpr ⟨b, hb, hba⟩
      exact absurd hca (by simpa using find?_eq_none.mp hnone c hc)
  · intro ha
    cases hfind : (mergeByKey key parts).find? (fun b => key b = key a) with
    | none => simpa using find?_eq_none.mp hfind a ha
    | some b =>
      have hb : key b = key a := by simpa using find?_some hfind
      rw [inj_on_of_nodup_map hnodup (mem_of_find?_eq_some hfind) ha hb]
      rfl

end DashForge
