import Mathlib.Data.List.Dedup
import Mathlib.Data.List.Induction
import Mathlib.Data.List.Pairwise
import Mathlib.Data.List.Sort
import Mathlib.Data.Prod.Lex
import Mathlib.Data.String.Basic

/-!
# Sorting and selecting by a key

The folds of the client rules order documents by a key (`($createdAt, $id)` and the like) and
take the greatest one. `sortByKey key` is the stable sort with the comparison `key a ≤ key b`,
and `maxByKey key` keeps the last of the greatest elements, as a left fold does.

The results a fold relies on are independence of the input order when the key tells the
elements apart (`sortByKey_eq_of_perm`, `maxByKey_eq_of_perm`), the splitting of a sort at a
bound (`sortByKey_append`), stability (`pairwise_sortByKey_stable`), and that the sort starts with
the first least element (`head?_sortByKey_eq_some_iff`) and ends with the greatest one
(`getLast?_sortByKey`). `sortedDistinct` is the order in which an ordered set is walked. A merge keeps
the order of the elements picked from one side only (`filter_merge`).
-/

namespace DashForge

open List

/-! ### The order of strings -/

instance instIsTransString : IsTrans String fun a b => a ≤ b := inferInstance

instance instAntisymmString : Std.Antisymm fun a b : String => a ≤ b := inferInstance

instance instTotalString : Std.Total fun a b : String => a ≤ b := inferInstance

variable {α β κ : Type*} [LinearOrder κ] (key : α → κ)

/-! ### Stable sort -/

/-- The stable sort of a list in ascending order of a key. -/
def sortByKey (l : List α) : List α :=
  l.insertionSort fun a b => key a ≤ key b

@[simp]
theorem sortByKey_nil : sortByKey key [] = [] := rfl

theorem perm_sortByKey (l : List α) : (sortByKey key l).Perm l := perm_insertionSort _ l

variable {a : α} {l₁ l₂ : List α}

variable {l s : List α} {r : α → α → Prop} {b : α}

@[simp]
theorem mem_sortByKey : a ∈ sortByKey key l ↔ a ∈ l := (perm_sortByKey key l).mem_iff

theorem pairwise_sortByKey (l : List α) : (sortByKey key l).Pairwise fun a b => key a ≤ key b := by
  have : Std.Total (fun a b : α => key a ≤ key b) := ⟨fun a b => le_total (key a) (key b)⟩
  have : IsTrans α (fun a b : α => key a ≤ key b) := ⟨fun _ _ _ => le_trans⟩
  exact pairwise_insertionSort _ l

theorem pairwise_lt_of_neighbours (h : l.Pairwise fun a b => key a ≤ key b)
    (hne : ∀ w ∈ l.zip l.tail, key w.1 ≠ key w.2) : l.Pairwise fun a b => key a < key b := by
  induction l with
  | nil => exact List.Pairwise.nil
  | cons a l ih =>
    obtain ⟨hle, hl⟩ := pairwise_cons.mp h
    cases l with
    | nil => exact pairwise_singleton _ _
    | cons b l =>
      simp only [tail_cons, zip_cons_cons, mem_cons, forall_eq_or_imp] at hne
      have hlt : key a < key b := lt_of_le_of_ne (hle b mem_cons_self) hne.1
      have ih' := ih hl (by simpa using hne.2)
      refine pairwise_cons.mpr ⟨fun c hc => ?_, ih'⟩
      rcases mem_cons.mp hc with rfl | hc
      · exact hlt
      · exact hlt.trans ((pairwise_cons.mp ih').1 c hc)

theorem eq_of_perm_of_pairwise_key (hp : l₁.Perm l₂)
    (hinj : Set.InjOn key {a | a ∈ l₁}) (h₁ : l₁.Pairwise fun a b => key a ≤ key b)
    (h₂ : l₂.Pairwise fun a b => key a ≤ key b) : l₁ = l₂ := by
  refine List.Perm.eq_of_pairwise (fun a b ha hb hab hba => ?_) h₁ h₂ hp
  exact hinj ha (hp.mem_iff.mpr hb) (le_antisymm hab hba)

theorem eq_of_pairwise_lt_of_mem_iff {l' : List α} (hl : l.Pairwise fun a b => key a < key b)
    (hl' : l'.Pairwise fun a b => key a < key b) (hmem : ∀ a, a ∈ l ↔ a ∈ l') : l = l' := by
  have hnodup : ∀ {m : List α}, (m.Pairwise fun a b => key a < key b) → m.Nodup :=
    fun h => h.imp fun hlt heq => absurd (congrArg key heq) hlt.ne
  refine List.Perm.eq_of_pairwise (fun a b _ _ hab hba => absurd hab hba.asymm) hl hl' ?_
  exact (perm_ext_iff_of_nodup (hnodup hl) (hnodup hl')).mpr hmem

/-- The sort does not depend on the order of the input when the key tells its elements
apart. -/
theorem sortByKey_eq_of_perm (hp : l₁.Perm l₂)
    (hinj : Set.InjOn key {a | a ∈ l₁}) : sortByKey key l₁ = sortByKey key l₂ := by
  refine eq_of_perm_of_pairwise_key key ?_ ?_ (pairwise_sortByKey key l₁)
    (pairwise_sortByKey key l₂)
  · exact (perm_sortByKey key l₁).trans (hp.trans (perm_sortByKey key l₂).symm)
  · simpa only [mem_sortByKey] using hinj

private theorem orderedInsert_append (h : ∀ b ∈ l₂, key a ≤ key b) :
    (l₁ ++ l₂).orderedInsert (fun a b => key a ≤ key b) a = l₁.orderedInsert (fun a b => key a ≤ key b) a ++ l₂ := by
  induction l₁ with
  | nil =>
    cases l₂ with
    | nil => rfl
    | cons b l₂ => simp [h b]
  | cons b l₁ ih =>
    simp only [cons_append, orderedInsert_cons, ih]
    split_ifs <;> rfl

/-- Sorting splits at a bound: elements below it sort before the elements above it. -/
theorem sortByKey_append (h : ∀ a ∈ l₁, ∀ b ∈ l₂, key a ≤ key b) :
    sortByKey key (l₁ ++ l₂) = sortByKey key l₁ ++ sortByKey key l₂ := by
  induction l₁ with
  | nil => rfl
  | cons a l₁ ih =>
    have ih' := ih fun x hx b hb => h x (mem_cons_of_mem a hx) b hb
    simp only [sortByKey, cons_append, insertionSort_cons] at ih' ⊢
    rw [ih']
    exact orderedInsert_append key fun b hb => h a mem_cons_self b ((mem_sortByKey key).mp hb)

theorem sortByKey_sortByKey (l : List α) : sortByKey key (sortByKey key l) = sortByKey key l :=
  (pairwise_sortByKey key l).insertionSort_eq

theorem sortByKey_append_sortByKey (l l' : List α) :
    sortByKey key (l ++ sortByKey key l') = sortByKey key (l ++ l') := by
  induction l with
  | nil => exact sortByKey_sortByKey key l'
  | cons a l ih =>
    simp only [sortByKey, cons_append, insertionSort_cons] at ih ⊢
    rw [ih]

/-- The sort of a filtered list is the filtered sort. -/
theorem sortByKey_filter (p : α → Bool) (l : List α) : sortByKey key (l.filter p) = (sortByKey key l).filter p := by
  induction l with
  | nil => rfl
  | cons a l ih =>
    have hs := pairwise_sortByKey key l
    simp only [sortByKey, insertionSort_cons] at ih hs ⊢
    generalize l.insertionSort (fun a b => key a ≤ key b) = s at ih hs ⊢
    by_cases ha : p a
    · rw [filter_cons_of_pos ha, insertionSort_cons, ih]
      clear ih
      induction s with
      | nil => simp [ha]
      | cons b s ihs =>
        have hs' := (pairwise_cons.mp hs)
        by_cases hb : p b
        · by_cases hab : key a ≤ key b
          · simp [filter_cons_of_pos, ha, hb, hab]
          · simp [filter_cons_of_pos, hb, hab, ihs hs'.2]
        · by_cases hab : key a ≤ key b
          · have hall : ∀ c ∈ s.filter p, key a ≤ key c := fun c hc =>
              hab.trans (hs'.1 c (mem_of_mem_filter hc))
            simpa [ha, hb, hab] using @orderedInsert_append α κ _ key a [] _ hall
          · simp [hb, hab, ihs hs'.2]
    · rw [filter_cons_of_neg ha, ih]
      clear ih
      induction s with
      | nil => simp [ha]
      | cons b s ihs =>
        have ihs' := ihs (pairwise_cons.mp hs).2
        by_cases hab : key a ≤ key b
        · simp [ha, hab]
        · by_cases hb : p b <;> simp [hb, hab, ← ihs']

private theorem pairwise_orderedInsert_stable
    (ha : ∀ b ∈ s, r a b) (hs : s.Pairwise fun a b => key a < key b ∨ key a = key b ∧ r a b) :
    (s.orderedInsert (fun a b => key a ≤ key b) a).Pairwise fun a b => key a < key b ∨ key a = key b ∧ r a b := by
  induction s with
  | nil => simp
  | cons b s ih =>
    obtain ⟨hb, hs⟩ := pairwise_cons.mp hs
    rw [orderedInsert_cons]
    split_ifs with hab
    · refine pairwise_cons.mpr ⟨fun c hc => ?_, pairwise_cons.mpr ⟨hb, hs⟩⟩
      have hac : key a ≤ key c := by
        rcases mem_cons.mp hc with rfl | hc
        · exact hab
        · rcases hb c hc with h | h
          · exact hab.trans h.le
          · exact hab.trans h.1.le
      exact hac.lt_or_eq.imp_right fun h => ⟨h, ha c hc⟩
    · refine pairwise_cons.mpr ⟨fun c hc => ?_, ih (fun c hc => ha c (by simp [hc])) hs⟩
      rcases (mem_orderedInsert _).mp hc with rfl | hc
      · exact .inl (not_le.mp hab)
      · exact hb c hc

theorem pairwise_sortByKey_stable (h : l.Pairwise r) :
    (sortByKey key l).Pairwise fun a b => key a < key b ∨ key a = key b ∧ r a b := by
  induction h with
  | nil => exact List.Pairwise.nil
  | @cons a l ha _ ih =>
    refine pairwise_orderedInsert_stable key (fun b hb => ?_) ih
    exact ha b ((mem_sortByKey key).mp hb)

/-- Sorting the images is mapping the sort. -/
theorem sortByKey_map (f : β → α) (l : List β) :
    sortByKey key (l.map f) = (sortByKey (fun b => key (f b)) l).map f := by
  rw [sortByKey, sortByKey]
  exact (map_insertionSort _ _ f l fun _ _ _ _ => Iff.rfl).symm

/-! ### The first least element -/

/-- `a` is the first of the elements of `l` with the least key. -/
def IsFirstLeast (l : List α) (a : α) : Prop :=
  ∃ l₁ l₂, l = l₁ ++ a :: l₂ ∧ (∀ b ∈ l₁, key a < key b) ∧ ∀ b ∈ l₂, key a ≤ key b

variable {key}

theorem IsFirstLeast.mem (h : IsFirstLeast key l a) : a ∈ l := by
  obtain ⟨l₁, l₂, rfl, -, -⟩ := h
  simp

theorem IsFirstLeast.le (h : IsFirstLeast key l a) (hb : b ∈ l) : key a ≤ key b := by
  obtain ⟨l₁, l₂, rfl, h₁, h₂⟩ := h
  rcases mem_append.mp hb with hb | hb
  · exact (h₁ b hb).le
  · rcases mem_cons.mp hb with rfl | hb
    · exact le_rfl
    · exact h₂ b hb

theorem IsFirstLeast.unique (ha : IsFirstLeast key l a) (hb : IsFirstLeast key l b) : a = b := by
  obtain ⟨l₁, l₂, rfl, h₁, h₂⟩ := ha
  obtain ⟨m₁, m₂, heq, h₁', h₂'⟩ := hb
  rcases append_eq_append_iff.mp heq with ⟨t, rfl, ht⟩ | ⟨t, rfl, ht⟩
  · cases t with
    | nil => exact (List.cons.inj ht).1
    | cons x t =>
      obtain ⟨rfl, rfl⟩ := List.cons.inj ht
      exact absurd (h₂ b (by simp)) (not_le.mpr (h₁' _ (by simp)))
  · cases t with
    | nil => exact (List.cons.inj ht).1.symm
    | cons x t =>
      obtain ⟨rfl, rfl⟩ := List.cons.inj ht
      exact absurd (h₂' a (by simp)) (not_le.mpr (h₁ _ (by simp)))

variable (key) in
/-- The sort of a non-empty list starts with the first of the least elements. -/
theorem exists_head?_sortByKey (hne : l ≠ []) : ∃ a, (sortByKey key l).head? = some a ∧ IsFirstLeast key l a := by
  induction l with
  | nil => exact absurd rfl hne
  | cons b l ih =>
    cases l with
    | nil => exact ⟨b, rfl, [], [], rfl, by simp, by simp⟩
    | cons d l =>
      obtain ⟨a, hhead, hleast⟩ := ih (by simp)
      obtain ⟨s, hs⟩ := head?_eq_some_iff.mp hhead
      have hcons : sortByKey key (b :: d :: l) = (a :: s).orderedInsert (fun a b => key a ≤ key b) b := by
        rw [← hs]
        rfl
      rw [hcons, orderedInsert_cons]
      split_ifs with hba
      · exact ⟨b, rfl, [], d :: l, rfl, by simp, fun c hc => hba.trans (hleast.le hc)⟩
      · obtain ⟨l₁, l₂, heq, h₁, h₂⟩ := hleast
        refine ⟨a, rfl, b :: l₁, l₂, by rw [heq]; rfl, fun c hc => ?_, h₂⟩
        rcases mem_cons.mp hc with rfl | hc
        · exact not_le.mp hba
        · exact h₁ c hc

theorem head?_sortByKey_eq_some_iff : (sortByKey key l).head? = some a ↔ IsFirstLeast key l a := by
  constructor
  · intro h
    have hne : l ≠ [] := by
      rintro rfl
      simp at h
    obtain ⟨b, hb, hleast⟩ := exists_head?_sortByKey key hne
    rwa [Option.some.inj (h.symm.trans hb)]
  · intro h
    obtain ⟨b, hb, hleast⟩ := exists_head?_sortByKey key (ne_nil_of_mem h.mem)
    rw [hb, hleast.unique h]

theorem isFirstLeast_iff (hinj : Set.InjOn key {a | a ∈ l}) :
    IsFirstLeast key l a ↔ a ∈ l ∧ ∀ b ∈ l, key a ≤ key b := by
  refine ⟨fun h => ⟨h.mem, fun b hb => h.le hb⟩, fun ⟨ha, hle⟩ => ?_⟩
  obtain ⟨b, -, hb⟩ := exists_head?_sortByKey key (ne_nil_of_mem ha)
  rwa [hinj ha hb.mem (le_antisymm (hle b hb.mem) (hb.le ha))]

theorem isFirstLeast_concat {c : α} : IsFirstLeast key (l ++ [c]) a ↔
      (IsFirstLeast key l a ∧ key a ≤ key c) ∨ (a = c ∧ ∀ b ∈ l, key c < key b) := by
  constructor
  · rintro ⟨l₁, l₂, heq, h₁, h₂⟩
    rcases eq_nil_or_concat l₂ with rfl | ⟨l₂, d, rfl⟩
    · obtain ⟨rfl, hac⟩ := append_inj' heq rfl
      obtain rfl : c = a := by simpa using hac
      exact .inr ⟨rfl, h₁⟩
    · rw [concat_eq_append, ← cons_append, ← append_assoc] at heq
      obtain ⟨rfl, hcd⟩ := append_inj' heq rfl
      obtain rfl : c = d := by simpa using hcd
      exact .inl ⟨⟨l₁, l₂, rfl, h₁, fun b hb => h₂ b (by simp [hb])⟩, h₂ c (by simp)⟩
  · rintro (⟨⟨l₁, l₂, rfl, h₁, h₂⟩, hle⟩ | ⟨rfl, h⟩)
    · refine ⟨l₁, l₂ ++ [c], by simp, h₁, fun b hb => ?_⟩
      rcases mem_append.mp hb with hb | hb
      · exact h₂ b hb
      · rwa [mem_singleton.mp hb]
    · exact ⟨l, [], rfl, h, by simp⟩

variable (key)

/-! ### The last greatest element -/

/-- Of two candidates the later one unless its key is smaller. -/
def laterOfMax (best : Option α) (a : α) : Option α :=
  match best with
  | none => some a
  | some b => if key b ≤ key a then some a else some b

/-- The last of the elements with the greatest key, scanning from the left. -/
def maxByKey (l : List α) : Option α :=
  l.foldl (laterOfMax key) none

private theorem exists_foldl_laterOfMax (l : List α) (b : α) :
    ∃ c, l.foldl (laterOfMax key) (some b) = some c ∧ c ∈ b :: l ∧ ∀ x ∈ b :: l, key x ≤ key c := by
  induction l generalizing b with
  | nil => exact ⟨b, rfl, by simp, by simp⟩
  | cons a l ih =>
    simp only [foldl_cons, laterOfMax]
    split_ifs with hba
    · obtain ⟨c, hc, hmem, hmax⟩ := ih a
      refine ⟨c, hc, mem_cons_of_mem b hmem, fun x hx => ?_⟩
      rcases mem_cons.mp hx with rfl | hx
      · exact hba.trans (hmax a mem_cons_self)
      · exact hmax x hx
    · obtain ⟨c, hc, hmem, hmax⟩ := ih b
      refine ⟨c, hc, ?_, fun x hx => ?_⟩
      · rcases mem_cons.mp hmem with rfl | hmem
        · exact mem_cons_self
        · exact mem_cons_of_mem b (mem_cons_of_mem a hmem)
      · rcases mem_cons.mp hx with rfl | hx
        · exact hmax _ mem_cons_self
        · rcases mem_cons.mp hx with rfl | hx
          · exact (not_le.mp hba).le.trans (hmax b mem_cons_self)
          · exact hmax x (mem_cons_of_mem b hx)

@[simp]
theorem maxByKey_nil : maxByKey key [] = none := rfl

/-- What `maxByKey` returns is in the list and has the greatest key. -/
theorem maxByKey_spec (h : maxByKey key l = some a) : a ∈ l ∧ ∀ b ∈ l, key b ≤ key a := by
  cases l with
  | nil => simp at h
  | cons b l =>
    obtain ⟨c, hc, hmem, hmax⟩ := exists_foldl_laterOfMax key l b
    obtain rfl : c = a := Option.some_injective _ (hc.symm.trans h)
    exact ⟨hmem, hmax⟩

theorem maxByKey_eq_none_iff : maxByKey key l = none ↔ l = [] := by
  refine ⟨fun h => ?_, fun h => h ▸ rfl⟩
  cases l with
  | nil => rfl
  | cons b l =>
    obtain ⟨c, hc, -, -⟩ := exists_foldl_laterOfMax key l b
    exact absurd (hc.symm.trans h) (by simp)

theorem maxByKey_eq_some_iff (hinj : Set.InjOn key {a | a ∈ l}) :
    maxByKey key l = some a ↔ a ∈ l ∧ ∀ b ∈ l, key b ≤ key a := by
  refine ⟨maxByKey_spec key, fun ⟨hmem, hmax⟩ => ?_⟩
  cases hl : maxByKey key l with
  | none =>
    rw [maxByKey_eq_none_iff] at hl
    subst hl
    simp at hmem
  | some c =>
    obtain ⟨hc, hcmax⟩ := maxByKey_spec key hl
    rw [hinj hc hmem (le_antisymm (hmax c hc) (hcmax a hmem))]

theorem maxByKey_eq_of_perm (hp : l₁.Perm l₂)
    (hinj : Set.InjOn key {a | a ∈ l₁}) : maxByKey key l₁ = maxByKey key l₂ := by
  have hinj' : Set.InjOn key {a | a ∈ l₂} := by simpa only [hp.mem_iff] using hinj
  cases h : maxByKey key l₁ with
  | none =>
    rw [maxByKey_eq_none_iff] at h
    subst h
    rw [hp.symm.eq_nil, maxByKey_nil]
  | some a =>
    rw [maxByKey_eq_some_iff key hinj] at h
    refine ((maxByKey_eq_some_iff key hinj').mpr ?_).symm
    simpa only [← hp.mem_iff] using h

theorem maxByKey_cons (a : α) (l : List α) :
    maxByKey key (a :: l) = (maxByKey key l).elim (some a) fun m => if key a ≤ key m then some m else some a := by
  induction l using List.reverseRecOn with
  | nil => rfl
  | append_singleton l b ih =>
    simp only [maxByKey] at ih
    simp only [maxByKey, ← cons_append, foldl_concat, ih]
    cases l.foldl (laterOfMax key) none with
    | none => rfl
    | some m =>
      by_cases ham : key a ≤ key m
      · by_cases hmb : key m ≤ key b
        · simp [laterOfMax, ham, hmb, ham.trans hmb]
        · simp [laterOfMax, ham, hmb]
      · have hma : key m < key a := not_le.mp ham
        by_cases hab : key a ≤ key b
        · simp [laterOfMax, ham, hab, hma.le.trans hab]
        · by_cases hmb : key m ≤ key b <;> simp [laterOfMax, ham, hmb, hab]

private theorem getLast?_orderedInsert (hs : s.Pairwise fun a b => key a ≤ key b) :
    (s.orderedInsert (fun a b => key a ≤ key b) a).getLast? =
      s.getLast?.elim (some a) fun m => if key a ≤ key m then some m else some a := by
  induction s with
  | nil => rfl
  | cons b s ih =>
    have hlast := ih (pairwise_cons.mp hs).2
    rw [orderedInsert_cons]
    split_ifs with hab
    · have hmem : (b :: s).getLast (cons_ne_nil b s) ∈ b :: s := getLast_mem _
      have hle : key b ≤ key ((b :: s).getLast (cons_ne_nil b s)) := by
        rcases mem_cons.mp hmem with heq | hin
        · rw [heq]
        · exact (pairwise_cons.mp hs).1 _ hin
      rw [getLast?_cons_cons, getLast?_eq_some_getLast (cons_ne_nil b s)]
      simp [hab.trans hle]
    · cases s with
      | nil => simp [hab]
      | cons c s =>
        have hne : (c :: s).orderedInsert (fun a b => key a ≤ key b) a ≠ [] :=
          ne_nil_of_mem ((mem_orderedInsert _).mpr (.inl rfl))
        obtain ⟨x, t, ht⟩ := exists_cons_of_ne_nil hne
        rw [getLast?_cons_cons, ← hlast, ht, getLast?_cons_cons]

theorem getLast?_sortByKey (l : List α) : (sortByKey key l).getLast? = maxByKey key l := by
  induction l with
  | nil => rfl
  | cons a l ih =>
    rw [maxByKey_cons, ← ih]
    exact getLast?_orderedInsert key (pairwise_sortByKey key l)

/-! ### Distinct elements in order -/

section Distinct

variable [LinearOrder α]

/-- The distinct elements of a list, ascending. -/
def sortedDistinct (l : List α) : List α := sortByKey id l.dedup

@[simp]
theorem mem_sortedDistinct {l : List α} : a ∈ sortedDistinct l ↔ a ∈ l := by
  simp [sortedDistinct]

theorem pairwise_sortedDistinct (l : List α) : (sortedDistinct l).Pairwise (· < ·) := by
  have hnodup : (sortedDistinct l).Nodup :=
    (perm_sortByKey id l.dedup).nodup_iff.mpr (nodup_dedup l)
  exact (pairwise_sortByKey id l.dedup).imp₂ (fun a b hle hne => lt_of_le_of_ne hle hne) hnodup

theorem nodup_sortedDistinct (l : List α) : (sortedDistinct l).Nodup :=
  (pairwise_sortedDistinct l).imp ne_of_lt

end Distinct

/-! ### Merges and greatest numbers -/

section Merge

variable {le le' : α → α → Bool} {p : α → Bool}

theorem merge_congr {xs ys : List α} (h : ∀ x ∈ xs, ∀ y ∈ ys, le x y = le' x y) : xs.merge ys le = xs.merge ys le' := by
  induction xs generalizing ys with
  | nil => simp
  | cons x xs ihx =>
    induction ys with
    | nil => simp
    | cons y ys ihy =>
      have hxy := h x mem_cons_self y mem_cons_self
      rw [cons_merge_cons, cons_merge_cons, hxy, ihx fun x' hx' => h x' (mem_cons_of_mem x hx'),
        ihy fun x' hx' y' hy' => h x' hx' y' (mem_cons_of_mem y hy')]

theorem filter_merge {xs ys : List α} (h : ∀ x ∈ xs, ∀ y ∈ ys, p y → p x = false) :
    (xs.merge ys le).filter p = xs.filter p ++ ys.filter p := by
  induction xs generalizing ys with
  | nil => simp
  | cons x xs ihx =>
    induction ys with
    | nil => simp
    | cons y ys ihy =>
      have ihx' := ihx fun x' hx' => h x' (mem_cons_of_mem x hx')
      have ihy' := ihy fun x' hx' y' hy' => h x' hx' y' (mem_cons_of_mem y hy')
      rw [cons_merge_cons]
      split_ifs
      · rw [filter_cons, filter_cons, ihx']
        split_ifs <;> rfl
      · rw [filter_cons, ihy', @filter_cons _ y ys]
        split_ifs with hy
        · -- then nothing on the left has the property
          have hnil : (x :: xs).filter p = [] := filter_eq_nil_iff.mpr fun x' hx' => by
            simp [h x' hx' y mem_cons_self hy]
          rw [hnil]
          rfl
        · rfl

end Merge

theorem max?_eq_of_perm {l l' : List ℕ} (h : l.Perm l') : l.max? = l'.max? := by
  cases hl : l.max? with
  | none =>
    rw [max?_eq_none_iff.mp hl, nil_perm] at h
    rw [h]
    rfl
  | some t =>
    obtain ⟨ht, hle⟩ := max?_eq_some_iff.mp hl
    exact (max?_eq_some_iff.mpr ⟨h.mem_iff.mp ht, fun b hb => hle b (h.mem_iff.mpr hb)⟩).symm

end DashForge
