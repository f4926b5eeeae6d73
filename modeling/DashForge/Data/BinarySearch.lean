import Mathlib.Data.List.Nodup
import Mathlib.Data.Nat.Find
import Mathlib.Order.Lattice

/-!
# Binary search of the standard library

`binarySearchByKey` is the search of Rust's slices, round for round: it halves a range of indexes until one is left, and
gives that one if its element compares equal. On its way to an index it probes others (`probes`), so that every key of a
list is found exactly where some element of that key is on the right side of all it is compared with
(`binarySearchByKey_iff`). A list in order is one like that, and where no key comes twice it is the only one
(`inSearchOrder_iff_sorted`).
-/

namespace DashForge

open List Option

/-! ### Where a search ends -/

/-- The index where the search of `size` indexes from `base` on ends; `isAfter` says which elements come after what is
searched. -/
def searchEnd (isAfter : ℕ → Bool) (base size : ℕ) : ℕ :=
  if size ≤ 1 then base
  else
    let half := size / 2
    let mid := base + half
    searchEnd isAfter (if isAfter mid then base else mid) (size - half)
termination_by size
decreasing_by omega

/-- The indexes that a search which ends at index `i` compares with. -/
def probes (base size i : ℕ) : List ℕ :=
  if size ≤ 1 then []
  else
    let half := size / 2
    let mid := base + half
    mid :: probes (if i < mid then base else mid) (size - half) i
termination_by size
decreasing_by omega

variable {size base i : ℕ}

theorem searchEnd_mem (isAfter : ℕ → Bool) (base : ℕ) (hsize : 0 < size) :
    base ≤ searchEnd isAfter base size ∧ searchEnd isAfter base size < base + size ∧
      (searchEnd isAfter base size ≠ base → isAfter (searchEnd isAfter base size) = false) := by
  induction size using Nat.strong_induction_on generalizing base with
  | _ size ih =>
    unfold searchEnd
    split
    · exact ⟨le_rfl, by omega, fun h => absurd rfl h⟩
    · dsimp only
      by_cases hmid : isAfter (base + size / 2) = true
      · rw [if_pos hmid]
        obtain ⟨hle, hlt, hafter⟩ := ih (size - size / 2) (by omega) base (by omega)
        exact ⟨hle, by omega, hafter⟩
      · rw [if_neg hmid]
        obtain ⟨hle, hlt, hafter⟩ := ih (size - size / 2) (by omega) (base + size / 2) (by omega)
        refine ⟨by omega, by omega, fun _ => ?_⟩
        rcases eq_or_ne (searchEnd isAfter (base + size / 2) (size - size / 2)) (base + size / 2) with heq | hne
        · rw [heq]
          exact Bool.not_eq_true _ ▸ hmid
        · exact hafter hne

theorem mem_probes {m : ℕ} (h : m ∈ probes base size i) : base < m ∧ m < base + size := by
  induction size using Nat.strong_induction_on generalizing base with
  | _ size ih =>
    unfold probes at h
    split at h
    · exact absurd h not_mem_nil
    · rcases mem_cons.mp h with rfl | h
      · omega
      · have hrest := ih (size - size / 2) (by omega) h
        split at hrest <;> omega

theorem searchEnd_eq_iff {isAfter : ℕ → Bool} (hbase : base ≤ i) (hi : i < base + size) :
    searchEnd isAfter base size = i ↔ ∀ m ∈ probes base size i, (isAfter m = true ↔ i < m) := by
  induction size using Nat.strong_induction_on generalizing base with
  | _ size ih =>
    unfold searchEnd probes
    split
    · refine iff_of_true (by omega) fun m hm => absurd hm not_mem_nil
    · dsimp only
      rw [forall_mem_cons]
      by_cases hleft : i < base + size / 2
      · rw [if_pos hleft]
        by_cases hmid : isAfter (base + size / 2) = true
        · rw [if_pos hmid, ih (size - size / 2) (by omega) hbase (by omega)]
          exact (and_iff_right (iff_of_true hmid hleft)).symm
        · rw [if_neg hmid]
          refine iff_of_false (fun heq => ?_) fun h => hmid (h.1.mpr hleft)
          obtain ⟨hle, -⟩ := searchEnd_mem isAfter (base + size / 2) (show 0 < size - size / 2 by omega)
          omega
      · rw [if_neg hleft]
        by_cases hmid : isAfter (base + size / 2) = true
        · rw [if_pos hmid]
          refine iff_of_false (fun heq => ?_) fun h => hleft (h.1.mp hmid)
          -- The range to the left may hold the middle, but the search does not end there.
          obtain ⟨-, hlt, hafter⟩ := searchEnd_mem isAfter base (show 0 < size - size / 2 by omega)
          obtain rfl : i = base + size / 2 := by omega
          rw [heq, hmid] at hafter
          exact Bool.noConfusion (hafter (by omega))
        · rw [if_neg hmid, ih (size - size / 2) (by omega) (by omega) (by omega)]
          exact (and_iff_right (iff_of_false hmid hleft)).symm

theorem exists_probe_between {j : ℕ} (hbase : base ≤ i) (hij : i < j) (hj : j < base + size) :
    ∃ m, m ∈ probes base size i ∧ m ∈ probes base size j ∧ i < m ∧ m ≤ j := by
  induction size using Nat.strong_induction_on generalizing base with
  | _ size ih =>
    unfold probes
    rw [if_neg (by omega), if_neg (by omega)]
    dsimp only
    by_cases hi : i < base + size / 2
    · by_cases hj' : j < base + size / 2
      · obtain ⟨m, hmi, hmj, hlt, hle⟩ := ih (size - size / 2) (by omega) hbase (by omega)
        rw [if_pos hi, if_pos hj']
        exact ⟨m, mem_cons_of_mem _ hmi, mem_cons_of_mem _ hmj, hlt, hle⟩
      · exact ⟨base + size / 2, mem_cons_self, mem_cons_self, hi, by omega⟩
    · have hbase' : base + size / 2 ≤ i := by omega
      obtain ⟨m, hmi, hmj, hlt, hle⟩ := ih (size - size / 2) (by omega) hbase' (by omega)
      rw [if_neg hi, if_neg (by omega)]
      exact ⟨m, mem_cons_of_mem _ hmi, mem_cons_of_mem _ hmj, hlt, hle⟩

/-! ### Searching a list -/

variable {α κ : Type*}

/-- An index whose element compares equal (`slice::binary_search_by`). -/
def binarySearchBy (cmp : α → Ordering) (l : List α) : Option ℕ :=
  if l.length = 0 then none
  else
    let base := searchEnd (fun i => l[i]?.any fun a => cmp a == .gt) 0 l.length
    if l[base]?.any fun a => cmp a == .eq then some base else none

variable [LinearOrder κ] (key : α → κ)

/-- An index whose element has the key `k` (`slice::binary_search_by_key`). -/
def binarySearchByKey (k : κ) (l : List α) : Option ℕ := binarySearchBy (fun a => compare (key a) k) l

/-- Some element of every key is on the right side of all that a search ending at it compares with. -/
def InSearchOrder (l : List α) : Prop :=
  ∀ a ∈ l, ∃ i b, l[i]? = some b ∧ key b = key a ∧ ∀ m ∈ probes 0 l.length i, ∀ c ∈ l[m]?, key b < key c ↔ i < m

variable {key}

theorem any_compare_eq {l : List α} {k : κ} :
    l[i]?.any (fun a => compare (key a) k == .eq) = true ↔ ∃ a, l[i]? = some a ∧ key a = k := by
  rw [Option.any_eq_true]
  exact exists_congr fun a => and_congr_right fun _ => by rw [beq_iff_eq, compare_eq_iff_eq]

theorem binarySearchByKey_eq_some {l : List α} {k : κ} : binarySearchByKey key k l = some i ↔
    ∃ b, l[i]? = some b ∧ key b = k ∧ ∀ m ∈ probes 0 l.length i, ∀ c ∈ l[m]?, k < key c ↔ i < m := by
  rw [binarySearchByKey, binarySearchBy]
  split
  · next hlen =>
    rw [length_eq_zero_iff] at hlen
    subst hlen
    refine iff_of_false (some_ne_none i).symm ?_
    rintro ⟨b, hb, -⟩
    exact some_ne_none b hb.symm
  · next hlen =>
    dsimp only
    generalize hafter : (fun i : ℕ => l[i]?.any fun a => compare (key a) k == .gt) = isAfter
    have hmem := searchEnd_mem isAfter 0 (Nat.pos_of_ne_zero hlen)
    have hafter_iff : ∀ m < l.length, ((isAfter m = true ↔ i < m) ↔ ∀ c ∈ l[m]?, k < key c ↔ i < m) := fun m hm => by
      rw [← hafter]
      beta_reduce
      rw [getElem?_eq_getElem hm, any_some, beq_iff_eq, compare_gt_iff_gt]
      exact ⟨fun h c hc => some.inj hc ▸ h, fun h => h _ rfl⟩
    constructor
    · intro h
      split at h
      · next heq =>
        obtain rfl := some.inj h
        obtain ⟨b, hb, hkey⟩ := any_compare_eq.mp heq
        refine ⟨b, hb, hkey, fun m hm => ?_⟩
        rw [← hafter_iff m (by have := mem_probes hm; omega)]
        exact (searchEnd_eq_iff (Nat.zero_le _) (by omega)).mp rfl m hm
      · exact absurd h.symm (some_ne_none i)
    · rintro ⟨b, hb, hkey, hprobes⟩
      have hi := (List.getElem?_eq_some_iff.mp hb).1
      have hend : searchEnd isAfter 0 l.length = i := by
        refine (searchEnd_eq_iff (Nat.zero_le _) (by omega)).mpr fun m hm => ?_
        rw [hafter_iff m (by have := mem_probes hm; omega)]
        exact hprobes m hm
      rw [hend, if_pos (any_compare_eq.mpr ⟨b, hb, hkey⟩)]

theorem binarySearchByKey_iff {l : List α} :
    (∀ k, (∃ i, binarySearchByKey key k l = some i) ↔ ∃ a ∈ l, key a = k) ↔ InSearchOrder key l := by
  simp only [binarySearchByKey_eq_some]
  constructor
  · intro h a ha
    obtain ⟨i, b, hb, hkey, hprobes⟩ := (h (key a)).mpr ⟨a, ha, rfl⟩
    exact ⟨i, b, hb, hkey, by rwa [hkey]⟩
  · intro h k
    constructor
    · rintro ⟨i, b, hb, hkey, -⟩
      exact ⟨b, mem_of_getElem? hb, hkey⟩
    · rintro ⟨a, ha, rfl⟩
      obtain ⟨i, b, hb, hkey, hprobes⟩ := h a ha
      exact ⟨i, b, hb, hkey, by rwa [← hkey]⟩

theorem inSearchOrder_of_sorted {l : List α} (h : l.Pairwise fun a b => key a ≤ key b) : InSearchOrder key l := by
  classical
  have hle : ∀ i j (hi : i < l.length) (hj : j < l.length), i ≤ j → key l[i] ≤ key l[j] := fun i j hi hj hij => by
    rcases Nat.eq_or_lt_of_le hij with rfl | hlt
    exacts [le_rfl, pairwise_iff_getElem.mp h i j hi hj hlt]
  intro a ha
  -- The last element of the key.
  let P : ℕ → Prop := fun i => ∃ b, l[i]? = some b ∧ key b = key a
  obtain ⟨j, hj⟩ := mem_iff_getElem?.mp ha
  have hjlen := (List.getElem?_eq_some_iff.mp hj).1
  obtain ⟨b, hb, hkey⟩ : P (Nat.findGreatest P l.length) := Nat.findGreatest_spec hjlen.le ⟨a, hj, rfl⟩
  have hgreatest : ∀ m, Nat.findGreatest P l.length < m → m ≤ l.length → ¬P m := fun m =>
    Nat.findGreatest_is_greatest
  generalize Nat.findGreatest P l.length = i at hb hgreatest
  refine ⟨i, b, hb, hkey, fun m _ c hc => ?_⟩
  obtain ⟨hi, rfl⟩ := List.getElem?_eq_some_iff.mp hb
  obtain ⟨hm, rfl⟩ := List.getElem?_eq_some_iff.mp hc
  constructor
  · intro hlt
    by_contra hmi
    exact absurd (hle m i hm hi (Nat.le_of_not_lt hmi)) (not_le_of_gt hlt)
  · intro him
    refine lt_of_le_of_ne (hle i m hi hm him.le) fun heq => hgreatest m him hm.le ⟨l[m], hc, ?_⟩
    rw [← heq, hkey]

theorem inSearchOrder_iff_sorted {l : List α} (h : (l.map key).Nodup) :
    InSearchOrder key l ↔ l.Pairwise fun a b => key a ≤ key b := by
  refine ⟨fun horder => pairwise_iff_getElem.mpr fun i j hi hj hij => ?_, inSearchOrder_of_sorted⟩
  have hat : ∀ i (hi : i < l.length), ∀ m ∈ probes 0 l.length i, ∀ c ∈ l[m]?, key l[i] < key c ↔ i < m := fun i hi => by
    obtain ⟨k, b, hb, hkey, hprobes⟩ := horder l[i] (getElem_mem hi)
    obtain ⟨hk, rfl⟩ := List.getElem?_eq_some_iff.mp hb
    obtain rfl : k = i := by
      refine (getElem?_inj (by rwa [length_map]) h).mp ?_
      rw [getElem?_map, getElem?_map, getElem?_eq_getElem hk, getElem?_eq_getElem hi]
      exact congrArg some hkey
    exact hprobes
  obtain ⟨m, hmi, hmj, him, hmj'⟩ := exists_probe_between (Nat.zero_le i) hij (by rwa [Nat.zero_add] : j < 0 + l.length)
  have hm : m < l.length := by omega
  have hlt := (hat i hi m hmi l[m] (getElem?_eq_getElem hm)).mpr him
  have hle := mt (hat j hj m hmj l[m] (getElem?_eq_getElem hm)).mp (not_lt.mpr hmj')
  exact hlt.le.trans (not_lt.mp hle)

end DashForge
