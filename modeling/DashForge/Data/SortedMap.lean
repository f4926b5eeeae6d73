import Mathlib.Data.List.Induction
import Mathlib.Data.List.Nodup
import Mathlib.Data.List.Perm.Subperm
import Mathlib.Order.Lattice

/-!
# Maps in key order

A finite map as the list of its entries in strictly increasing order of their keys, which is the order
it is iterated in. Two maps with the same entries are the same, and inserting a key above all others adds
its entry at the end (`entries_insert_of_forall_lt`).
-/

namespace DashForge

open List Option

/-- A map as its entries in key order. -/
@[ext]
structure SortedMap (α β : Type*) [LinearOrder α] where
  entries : List (α × β)
  sorted : entries.Pairwise fun x y => x.1 < y.1

namespace SortedMap

variable {α β γ : Type*} [LinearOrder α]

instance [DecidableEq β] : DecidableEq (SortedMap α β) := fun m m' =>
  decidable_of_iff (m.entries = m'.entries) SortedMap.ext_iff.symm

def empty : SortedMap α β := ⟨[], .nil⟩

def keys (m : SortedMap α β) : List α := m.entries.map Prod.fst

def lookup (m : SortedMap α β) (a : α) : Option β := (m.entries.find? fun x => x.1 = a).map Prod.snd

/-- Add an entry in place of the one its key has. -/
def insert (m : SortedMap α β) (a : α) (b : β) : SortedMap α β where
  entries := m.entries.filter (fun x => x.1 < a) ++ (a, b) :: m.entries.filter fun x => a < x.1
  sorted := by
    have hlow := m.sorted.filter fun x => x.1 < a
    have hhigh := m.sorted.filter fun x => a < x.1
    refine pairwise_append.mpr ⟨hlow, pairwise_cons.mpr ⟨fun x hx => ?_, hhigh⟩, ?_⟩
    · simpa using (mem_filter.mp hx).2
    · intro x hx y hy
      have hxa : x.1 < a := by simpa using (mem_filter.mp hx).2
      rcases mem_cons.mp hy with rfl | hy
      · exact hxa
      · exact hxa.trans (by simpa using (mem_filter.mp hy).2)

/-- Remove an entry. -/
def erase (m : SortedMap α β) (a : α) : SortedMap α β where
  entries := m.entries.filter fun x => x.1 ≠ a
  sorted := m.sorted.filter _

/-- Keep some entries. -/
def filter (m : SortedMap α β) (p : α → β → Bool) : SortedMap α β where
  entries := m.entries.filter fun x => p x.1 x.2
  sorted := m.sorted.filter _

/-- Change the values. -/
def mapVals (m : SortedMap α β) (f : α → β → γ) : SortedMap α γ where
  entries := m.entries.map fun x => (x.1, f x.1 x.2)
  sorted := pairwise_map.mpr m.sorted

variable {a : α} {x : α × β} {b : β} {l : List (α × β)}

theorem entries_insert_of_forall_lt {m : SortedMap α β} (h : ∀ x ∈ m.entries, x.1 < a) (b : β) :
    (m.insert a b).entries = m.entries ++ [(a, b)] := by
  have hlow : m.entries.filter (fun x => x.1 < a) = m.entries := by
    simpa [filter_eq_self] using h
  have hhigh : (m.entries.filter fun x => a < x.1) = [] := by
    simpa [filter_eq_nil_iff] using fun x y hxy => (h (x, y) hxy).le
  simp [insert, hlow, hhigh]

theorem le_of_getLast? {m : SortedMap α β} {y : α × β} (hlast : m.entries.getLast? = some y)
    (hx : x ∈ m.entries) : x.1 ≤ y.1 := by
  obtain ⟨init, hinit⟩ := getLast?_eq_some_iff.mp hlast
  have hsorted := m.sorted
  rw [hinit] at hsorted hx
  rcases mem_append.mp hx with hx | hx
  · exact ((pairwise_append.mp hsorted).2.2 x hx y mem_cons_self).le
  · rw [mem_singleton.mp hx]

/-- Entries with one key are the same. -/
theorem eq_of_mem_entries {m : SortedMap α β} {y : α × β} (hx : x ∈ m.entries) (hy : y ∈ m.entries)
    (hkey : x.1 = y.1) : x = y := by
  have hnodup : (m.entries.map Prod.fst).Nodup := pairwise_map.mpr (m.sorted.imp fun h => h.ne)
  exact inj_on_of_nodup_map hnodup hx hy hkey

theorem lookup_eq_some_iff {m : SortedMap α β} : m.lookup a = some b ↔ (a, b) ∈ m.entries := by
  rw [lookup, map_eq_some_iff]
  constructor
  · rintro ⟨x, hx, rfl⟩
    have hkey : x.1 = a := by simpa using find?_some hx
    rw [← hkey]
    exact mem_of_find?_eq_some hx
  · intro hmem
    have hsome : (m.entries.find? fun x => x.1 = a).isSome := by
      rw [find?_isSome]
      exact ⟨(a, b), hmem, by simp⟩
    obtain ⟨x, hx⟩ := isSome_iff_exists.mp hsome
    have hkey : x.1 = a := by simpa using find?_some hx
    have hxa := eq_of_mem_entries (mem_of_find?_eq_some hx) hmem hkey
    exact ⟨x, hx, by rw [hxa]⟩

theorem mem_keys_iff {m : SortedMap α β} : a ∈ m.keys ↔ ∃ b, m.lookup a = some b := by
  simp only [keys, List.mem_map, lookup_eq_some_iff]
  constructor
  · rintro ⟨x, hx, rfl⟩
    exact ⟨x.2, hx⟩
  · rintro ⟨b, hb⟩
    exact ⟨(a, b), hb, rfl⟩

theorem lookup_eq_none_iff {m : SortedMap α β} : m.lookup a = none ↔ a ∉ m.keys := by
  rw [mem_keys_iff, eq_none_iff_forall_ne_some, not_exists]

theorem filterMap_lookup {m : SortedMap α β} {keys : List α} (hkeys : keys.Pairwise (· < ·))
    (hsub : ∀ a ∈ m.keys, a ∈ keys) : keys.filterMap (fun a => (m.lookup a).map fun b => (a, b)) = m.entries := by
  have hsorted : (keys.filterMap fun a => (m.lookup a).map fun b => (a, b)).Pairwise fun x y => x.1 < y.1 := by
    refine pairwise_filterMap.mpr (hkeys.imp fun hlt x hx y hy => ?_)
    obtain ⟨b, -, rfl⟩ := map_eq_some_iff.mp hx
    obtain ⟨b', -, rfl⟩ := map_eq_some_iff.mp hy
    exact hlt
  have hmem : ∀ x, x ∈ keys.filterMap (fun a => (m.lookup a).map fun b => (a, b)) ↔ x ∈ m.entries := by
    rintro ⟨a, b⟩
    simp only [mem_filterMap, map_eq_some_iff, Prod.mk.injEq]
    constructor
    · rintro ⟨a', -, b', hb, rfl, rfl⟩
      exact lookup_eq_some_iff.mp hb
    · intro hx
      exact ⟨a, hsub a (mem_map_of_mem hx), b, lookup_eq_some_iff.mpr hx, rfl, rfl⟩
  have hperm := (perm_ext_iff_of_nodup (hsorted.imp fun h => ne_of_apply_ne Prod.fst h.ne)
    (m.sorted.imp fun h => ne_of_apply_ne Prod.fst h.ne)).mpr hmem
  exact hperm.eq_of_pairwise (fun x y _ _ hxy hyx => absurd (hxy.trans hyx) (lt_irrefl _)) hsorted m.sorted

theorem lookup_empty (a : α) : (empty : SortedMap α β).lookup a = none := rfl

theorem lookup_insert (m : SortedMap α β) (a : α) (b : β) (a' : α) :
    (m.insert a b).lookup a' = if a' = a then some b else m.lookup a' := by
  apply Option.ext
  intro b'
  rw [lookup_eq_some_iff]
  simp only [insert, mem_append, mem_cons, mem_filter, decide_eq_true_eq, Prod.mk.injEq]
  split
  · rename_i h
    subst h
    simp [eq_comm]
  · rename_i h
    rw [lookup_eq_some_iff]
    rcases lt_or_gt_of_ne h with hlt | hgt
    · simp [h, hlt, hlt.not_gt]
    · simp [h, hgt, hgt.not_gt]

theorem lookup_erase (m : SortedMap α β) (a a' : α) : (m.erase a).lookup a' = if a' = a then none else m.lookup a' := by
  apply Option.ext
  intro b'
  rw [lookup_eq_some_iff]
  simp only [erase, mem_filter, decide_eq_true_eq]
  split <;> simp [*, lookup_eq_some_iff]

theorem lookup_filter (m : SortedMap α β) (p : α → β → Bool) (a : α) :
    (m.filter p).lookup a = (m.lookup a).filter (p a) := by
  apply Option.ext
  intro b
  rw [lookup_eq_some_iff, filter_eq_some_iff, lookup_eq_some_iff]
  simp [filter]

theorem lookup_mapVals (m : SortedMap α β) (f : α → β → γ) (a : α) :
    (m.mapVals f).lookup a = (m.lookup a).map (f a) := by
  apply Option.ext
  intro c
  rw [lookup_eq_some_iff, map_eq_some_iff]
  simp only [mapVals, List.mem_map, Prod.mk.injEq, lookup_eq_some_iff]
  constructor
  · rintro ⟨x, hx, rfl, rfl⟩
    exact ⟨x.2, hx, rfl⟩
  · rintro ⟨b, hb, rfl⟩
    exact ⟨(a, b), hb, rfl, rfl⟩

section Lists

variable (m : SortedMap α (List β))

/-- The list of a key, empty where there is none. -/
def listAt (a : α) : List β := (m.lookup a).getD []

/-- Add to the list of a key. -/
def pushTo (a : α) (b : β) : SortedMap α (List β) := m.insert a (m.listAt a ++ [b])

/-- The values of pairs, gathered by key. -/
def gather (l : List (α × β)) : SortedMap α (List β) := l.foldl (fun m x => m.pushTo x.1 x.2) empty

theorem gather_concat (l : List (α × β)) (x : α × β) : gather (l ++ [x]) = (gather l).pushTo x.1 x.2 := by
  simp [gather]

theorem lookup_gather (l : List (α × β)) (a : α) : (gather l).lookup a =
    if (l.filter fun x => x.1 = a) = [] then none else some ((l.filter fun x => x.1 = a).map Prod.snd) := by
  induction l using reverseRecOn with
  | nil => rfl
  | append_singleton l x ih =>
    rw [gather_concat, pushTo, lookup_insert, filter_append, filter_singleton]
    by_cases hxa : x.1 = a
    · subst hxa
      have hgot : (gather l).listAt x.1 = (l.filter fun y => y.1 = x.1).map Prod.snd := by
        rw [listAt, ih]
        split
        · next hnil => rw [hnil]; rfl
        · rfl
      rw [hgot, if_pos rfl, decide_eq_true rfl, cond_true, if_neg (by simp), map_append]
      rfl
    · rw [if_neg (Ne.symm hxa), ih, decide_eq_false hxa, cond_false, append_nil]

theorem listAt_gather (l : List (α × β)) (a : α) : (gather l).listAt a = (l.filter fun x => x.1 = a).map Prod.snd := by
  rw [listAt, lookup_gather]
  split
  · next h => rw [h]; rfl
  · rfl

theorem listAt_insert (a : α) (bs : List β) (a' : α) :
    (m.insert a bs).listAt a' = if a' = a then bs else m.listAt a' := by
  rw [listAt, lookup_insert, apply_ite (fun o : Option (List β) => o.getD [])]
  rfl

theorem listAt_mapVals (f : List β → List γ) (hnil : f [] = []) (a : α) :
    (m.mapVals fun _ => f).listAt a = f (m.listAt a) := by
  rw [listAt, lookup_mapVals, listAt]
  cases m.lookup a with
  | none => exact hnil.symm
  | some bs => rfl

theorem mem_listAt_gather : b ∈ (gather l).listAt a ↔ (a, b) ∈ l := by
  simp [listAt_gather]

/-- The entries are the keys that have values. -/
theorem mem_entries_gather {bs : List β} : (a, bs) ∈ (gather l).entries ↔ bs ≠ [] ∧ (gather l).listAt a = bs := by
  rw [← lookup_eq_some_iff, listAt_gather, lookup_gather]
  constructor
  · intro h
    split at h
    · cases h
    · next hne =>
      obtain rfl := some.inj h
      exact ⟨fun hnil => hne (map_eq_nil_iff.mp hnil), rfl⟩
  · rintro ⟨hne, rfl⟩
    rw [if_neg fun hnil => hne (by rw [hnil]; rfl)]

theorem flatMap_filter_entries (f : α × List β → List γ) (hnil : f (a, []) = []) :
    (m.entries.filter fun x => x.1 = a).flatMap f = f (a, m.listAt a) := by
  have hfilter : (m.entries.filter fun x => x.1 = a) = (m.lookup a).toList.map fun bs => (a, bs) := by
    have hsorted := m.sorted.filter fun x => x.1 = a
    cases hlookup : m.lookup a with
    | none =>
      rw [lookup_eq_none_iff] at hlookup
      refine filter_eq_nil_iff.mpr fun x hx hxa => hlookup ?_
      exact of_decide_eq_true hxa ▸ mem_map_of_mem hx
    | some bs =>
      rw [lookup_eq_some_iff] at hlookup
      refine List.Perm.eq_of_pairwise (fun x y _ _ hxy hyx => absurd (hxy.trans hyx) (lt_irrefl _)) hsorted
        (pairwise_singleton _ _) ((perm_ext_iff_of_nodup ?_ (nodup_singleton _)).mpr fun x => ?_)
      · exact hsorted.imp fun h => ne_of_apply_ne Prod.fst h.ne
      · rw [mem_filter, mem_singleton, decide_eq_true_eq]
        refine ⟨fun hx => eq_of_mem_entries hx.1 hlookup hx.2, ?_⟩
        rintro rfl
        exact ⟨hlookup, rfl⟩
  rw [hfilter, listAt]
  cases m.lookup a with
  | none => exact hnil.symm
  | some bs => exact append_nil _

end Lists

/-- The map of a list of pairs, the last of a key winning. -/
def ofList (l : List (α × β)) : SortedMap α β := l.foldl (fun m x => m.insert x.1 x.2) empty

theorem ofList_concat (l : List (α × β)) (x : α × β) : ofList (l ++ [x]) = (ofList l).insert x.1 x.2 := by
  simp [ofList]

theorem lookup_ofList (hnodup : (l.map Prod.fst).Nodup) : (ofList l).lookup a = some b ↔ (a, b) ∈ l := by
  induction l using reverseRecOn with
  | nil => simp [ofList, lookup_empty]
  | append_singleton l x ih =>
    obtain ⟨hl, -, hdisj⟩ := nodup_append.mp (map_append ▸ hnodup)
    rw [ofList_concat, lookup_insert, mem_append, mem_singleton]
    split
    · next h =>
      subst h
      have hnot : (x.1, b) ∉ l := fun hb =>
        hdisj x.1 (mem_map.mpr ⟨_, hb, rfl⟩) x.1 (by simp) rfl
      simp [hnot, Prod.ext_iff, eq_comm]
    · next h =>
      have hne : (a, b) ≠ x := fun hx => h (by rw [← hx])
      simp [hne, ih hl]

/-- Remove the entries of several keys. -/
def eraseAll (m : SortedMap α β) (as : List α) : SortedMap α β := as.foldl erase m

variable (m : SortedMap α β)

include m in
theorem eraseAll_append (as as' : List α) : m.eraseAll (as ++ as') = (m.eraseAll as).eraseAll as' :=
  foldl_append

include m in
theorem lookup_eraseAll (as : List α) (a : α) :
    (m.eraseAll as).lookup a = if a ∈ as then none else m.lookup a := by
  induction as generalizing m with
  | nil => rfl
  | cons b as ih =>
    rw [eraseAll, foldl_cons, ← eraseAll, ih, lookup_erase]
    by_cases hab : a = b <;> simp [hab]

/-- Two maps with the same lookups are the same. -/
theorem ext_lookup {m m' : SortedMap α β} (h : ∀ a, m.lookup a = m'.lookup a) : m = m' := by
  have hmem : ∀ x, x ∈ m.entries ↔ x ∈ m'.entries := fun x => by
    rw [← lookup_eq_some_iff, ← lookup_eq_some_iff, h]
  have hnodup : ∀ m : SortedMap α β, m.entries.Nodup := fun m =>
    m.sorted.imp fun hlt => ne_of_apply_ne Prod.fst hlt.ne
  refine SortedMap.ext (List.Perm.eq_of_pairwise ?_ m.sorted m'.sorted
    ((perm_ext_iff_of_nodup (hnodup m) (hnodup m')).mpr hmem))
  exact fun x y _ _ hxy hyx => absurd (hxy.trans hyx) (lt_irrefl _)

include m in
theorem nodup_keys : m.keys.Nodup := pairwise_map.mpr (m.sorted.imp fun h => h.ne)

include m in
theorem ofList_entries : ofList m.entries = m :=
  ext_lookup fun a => Option.ext fun b => by rw [lookup_ofList m.nodup_keys, lookup_eq_some_iff]

theorem perm_entries_insert {m : SortedMap α β} (h : m.lookup a = none) (b : β) :
    (m.entries ++ [(a, b)]).Perm (m.insert a b).entries := by
  have hnodup : ∀ m : SortedMap α β, m.entries.Nodup := fun m => m.sorted.imp fun hlt => ne_of_apply_ne Prod.fst hlt.ne
  have hnew : ∀ x ∈ m.entries, x.1 ≠ a := fun x hx hxa =>
    lookup_eq_none_iff.mp h (hxa ▸ mem_map_of_mem hx)
  have hnodup' : (m.entries ++ [(a, b)]).Nodup := by
    refine nodup_append.mpr ⟨hnodup m, nodup_singleton _, fun x hx y hy hxy => ?_⟩
    exact hnew x hx (by rw [hxy, mem_singleton.mp hy])
  refine (perm_ext_iff_of_nodup hnodup' (hnodup _)).mpr fun ⟨a', b'⟩ => ?_
  rw [← lookup_eq_some_iff, lookup_insert, mem_append, mem_singleton, Prod.mk.injEq]
  split
  · next haa =>
    subst haa
    have hnot : (a', b') ∉ m.entries := fun hx => hnew _ hx rfl
    simp [hnot, eq_comm]
  · next haa => simp [haa, lookup_eq_some_iff]

/-- A list of pairs with different keys has the entries of its map. -/
theorem perm_ofList (hnodup : (l.map Prod.fst).Nodup) : l.Perm (ofList l).entries := by
  have hentries : (ofList l).entries.Nodup := (ofList l).sorted.imp fun hlt => ne_of_apply_ne Prod.fst hlt.ne
  refine (perm_ext_iff_of_nodup (List.Nodup.of_map _ hnodup) hentries).mpr fun ⟨a, b⟩ => ?_
  rw [← lookup_eq_some_iff, lookup_ofList hnodup]

theorem eq_ofList {m : SortedMap α β} (hnodup : (l.map Prod.fst).Nodup)
    (hlength : m.entries.length = l.length) (h : ∀ x ∈ l, m.lookup x.1 = some x.2) : m = ofList l := by
  have hsub : l ⊆ m.entries := fun x hx => lookup_eq_some_iff.mp (h x hx)
  have hperm : l.Perm m.entries :=
    (subperm_of_subset (List.Nodup.of_map _ hnodup) hsub).perm_of_length_le (Nat.le_of_eq hlength)
  refine ext_lookup fun a => Option.ext fun b => ?_
  rw [lookup_eq_some_iff, lookup_ofList hnodup, hperm.mem_iff]

/-- Insert the pairs of a list one after another. -/
def insertAll (m : SortedMap α β) (l : List (α × β)) : SortedMap α β := l.foldl (fun m x => m.insert x.1 x.2) m

include m in
theorem lookup_insertAll_of_notMem (h : a ∉ l.map Prod.fst) :
    (m.insertAll l).lookup a = m.lookup a := by
  induction l generalizing m with
  | nil => rfl
  | cons x l ih =>
    rw [map_cons, mem_cons, not_or] at h
    rw [insertAll, foldl_cons, ← insertAll, ih _ h.2, lookup_insert, if_neg h.1]

include m in
theorem lookup_insertAll_of_mem (hnodup : (l.map Prod.fst).Nodup)
    (h : x ∈ l) : (m.insertAll l).lookup x.1 = some x.2 := by
  induction l generalizing m with
  | nil => cases h
  | cons y l ih =>
    obtain ⟨hy, hnodup⟩ := nodup_cons.mp (map_cons ▸ hnodup)
    rw [insertAll, foldl_cons, ← insertAll]
    rcases mem_cons.mp h with rfl | h
    · rw [lookup_insertAll_of_notMem _ hy, lookup_insert, if_pos rfl]
    · exact ih _ hnodup h

/-- Give a key the value `f` makes of the one it has, or of none. -/
def alter (m : SortedMap α β) (a : α) (f : Option β → Option β) : SortedMap α β :=
  match f (m.lookup a) with
  | some b => m.insert a b
  | none => m.erase a

include m in
theorem lookup_alter (a : α) (f : Option β → Option β) (a' : α) :
    (m.alter a f).lookup a' = if a' = a then f (m.lookup a) else m.lookup a' := by
  rw [alter]
  cases h : f (m.lookup a) with
  | some b => exact lookup_insert m a b a'
  | none => exact lookup_erase m a a'

/-! ### Values -/

/-- The values in the order of their keys. -/
def values (m : SortedMap α β) : List β := m.entries.map Prod.snd

theorem mem_values {m : SortedMap α β} : b ∈ m.values ↔ ∃ a, m.lookup a = some b := by
  simp only [values, List.mem_map, lookup_eq_some_iff]
  constructor
  · rintro ⟨x, hx, rfl⟩
    exact ⟨x.1, hx⟩
  · rintro ⟨a, ha⟩
    exact ⟨(a, b), ha, rfl⟩

theorem values_perm_erase {m : SortedMap α β} (h : m.lookup a = some b) : m.values.Perm (b :: (m.erase a).values) := by
  have hentries : m.entries.Perm ((a, b) :: (m.erase a).entries) := by
    have hnodup : m.entries.Nodup := m.sorted.imp fun hlt => ne_of_apply_ne Prod.fst hlt.ne
    have hnodup' : ((a, b) :: (m.erase a).entries).Nodup := by
      refine nodup_cons.mpr ⟨fun hmem => ?_, hnodup.filter _⟩
      simp [erase] at hmem
    refine (perm_ext_iff_of_nodup hnodup hnodup').mpr fun x => ?_
    simp only [erase, mem_cons, mem_filter, decide_eq_true_eq]
    constructor
    · intro hx
      by_cases hxa : x.1 = a
      · exact .inl (eq_of_mem_entries hx (lookup_eq_some_iff.mp h) hxa)
      · exact .inr ⟨hx, hxa⟩
    · rintro (rfl | ⟨hx, -⟩)
      · exact lookup_eq_some_iff.mp h
      · exact hx
  exact hentries.map Prod.snd

include m in
theorem erase_insert (a : α) (b : β) : (m.insert a b).erase a = m.erase a := by
  refine ext_lookup fun a' => ?_
  rw [lookup_erase, lookup_erase, lookup_insert]
  split <;> rfl

theorem erase_eq_self {m : SortedMap α β} (h : m.lookup a = none) : m.erase a = m := by
  refine ext_lookup fun a' => ?_
  rw [lookup_erase]
  split
  · next haa => rw [haa, h]
  · rfl

include m in
/-- Inserting puts one value beside those of the other keys. -/
theorem values_perm_insert (a : α) (b : β) :
    (m.insert a b).values.Perm (b :: (m.erase a).values) := by
  have h := values_perm_erase (m := m.insert a b) (by rw [lookup_insert, if_pos rfl])
  rwa [erase_insert] at h

end SortedMap

end DashForge
