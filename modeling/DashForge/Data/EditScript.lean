import DashForge.Data.SortBy

/-!
# Hunks

A list changed in places: a hunk puts lines in the place of a range of the list, and hunks that keep a line between
them are applied together, in order (`Hunk.applyFrom`). Two sets of hunks are merged where every two of them keep a
line between them or are the same hunk (`Hunk.IsUnion`); there is one merge at most (`Hunk.IsUnion.unique`).
-/

namespace DashForge

open List

variable {α β : Type*}

/-! ### Ranges of a list -/

/-- The elements from `i` up to `j`. -/
def between (l : List α) (i j : ℕ) : List α := (l.drop i).take (j - i)

@[simp]
theorem between_self (l : List α) (i : ℕ) : between l i i = [] := by
  rw [between, Nat.sub_self, take_zero]

theorem length_between (l : List α) (i j : ℕ) : (between l i j).length = min (j - i) (l.length - i) := by
  rw [between, length_take, length_drop]

variable {l : List α} {i j k : ℕ}

theorem length_between_of_le (hj : j ≤ l.length) : (between l i j).length = j - i := by
  rw [length_between]
  omega

theorem between_append_between (l : List α) (hij : i ≤ j) (hjk : j ≤ k) :
    between l i j ++ between l j k = between l i k := by
  have hdrop : l.drop j = (l.drop i).drop (j - i) := by rw [drop_drop, Nat.add_sub_cancel' hij]
  have hsub : k - i = (j - i) + (k - j) := by omega
  rw [between, between, between, hdrop, hsub, take_add]

theorem between_append_drop (l : List α) (hij : i ≤ j) : between l i j ++ l.drop j = l.drop i := by
  have hdrop : l.drop j = (l.drop i).drop (j - i) := by rw [drop_drop, Nat.add_sub_cancel' hij]
  rw [between, hdrop, take_append_drop]

theorem map_between (f : α → β) (l : List α) (i j : ℕ) : (between l i j).map f = between (l.map f) i j := by
  rw [between, between, map_take, map_drop]

theorem getElem?_between (hk : k < j - i) : (between l i j)[k]? = l[i + k]? := by
  rw [between, getElem?_take_of_lt hk, getElem?_drop]

/-! ### Hunks -/

/-- `lines` in the place of the `len` lines from `start`. -/
@[ext]
structure Hunk (α : Type*) where
  start : ℕ
  len : ℕ
  lines : List α

namespace Hunk

/-- The first line after those a hunk replaces. -/
def stop (h : Hunk α) : ℕ := h.start + h.len

/-- A line is between the hunks. -/
def Apart (h k : Hunk α) : Prop := h.stop < k.start

/-- Hunks of two sides that do not conflict. -/
def Compatible (h k : Hunk α) : Prop := h.Apart k ∨ k.Apart h ∨ h = k

variable {h k : Hunk α}

theorem Compatible.symm (hk : h.Compatible k) : k.Compatible h := by
  rcases hk with hlt | hgt | rfl
  · exact .inr (.inl hlt)
  · exact .inl hgt
  · exact .inr (.inr rfl)

theorem start_le_stop (h : Hunk α) : h.start ≤ h.stop := Nat.le_add_right _ _

theorem Apart.ne (hk : h.Apart k) : h ≠ k := by
  rintro rfl
  exact absurd h.start_le_stop (not_le.mpr hk)

theorem Apart.start_lt (hk : h.Apart k) : h.start < k.start := h.start_le_stop.trans_lt hk

/-- The list from `p` on, with hunks applied. -/
def applyFrom (base : List α) : ℕ → List (Hunk α) → List α
  | p, [] => base.drop p
  | p, h :: hs => between base p h.start ++ h.lines ++ applyFrom base h.stop hs

/-- The hunks of two sides in order, each once. -/
structure IsUnion (hs hs₁ hs₂ : List (Hunk α)) : Prop where
  apart : hs.Pairwise Apart
  mem_iff : ∀ h, h ∈ hs ↔ h ∈ hs₁ ∨ h ∈ hs₂

namespace IsUnion

variable {hs hs' hs₁ hs₂ : List (Hunk α)} {h : Hunk α}

theorem symm (hu : IsUnion hs hs₁ hs₂) : IsUnion hs hs₂ hs₁ :=
  ⟨hu.apart, fun h => (hu.mem_iff h).trans or_comm⟩

theorem unique (hu : IsUnion hs hs₁ hs₂) (hu' : IsUnion hs' hs₁ hs₂) : hs = hs' := by
  have hnodup : hs.Nodup := hu.apart.imp Apart.ne
  have hnodup' : hs'.Nodup := hu'.apart.imp Apart.ne
  have hperm : hs.Perm hs' := (perm_ext_iff_of_nodup hnodup hnodup').mpr fun h =>
    (hu.mem_iff h).trans (hu'.mem_iff h).symm
  refine hperm.eq_of_pairwise (fun a b _ _ hab hba => ?_) hu.apart hu'.apart
  exact absurd (hab.start_lt.trans hba.start_lt) (lt_irrefl _)

theorem of_nil (hapart : hs₂.Pairwise Apart) : IsUnion hs₂ [] hs₂ := ⟨hapart, fun _ => by simp⟩

variable (hu : IsUnion hs hs₁ hs₂) (hh : ∀ k, k ∈ hs₁ ∨ k ∈ hs₂ → h.Apart k)

include hu hh in
theorem cons_left :
    IsUnion (h :: hs) (h :: hs₁) hs₂ := by
  refine ⟨pairwise_cons.mpr ⟨fun k hk => hh k ((hu.mem_iff k).mp hk), hu.apart⟩, fun k => ?_⟩
  rw [mem_cons, mem_cons, hu.mem_iff, or_assoc]

include hu hh in
theorem cons_right :
    IsUnion (h :: hs) hs₁ (h :: hs₂) :=
  (hu.symm.cons_left fun k hk => hh k hk.symm).symm

include hu hh in
theorem cons_both :
    IsUnion (h :: hs) (h :: hs₁) (h :: hs₂) := by
  refine ⟨(hu.cons_left hh).apart, fun k => ?_⟩
  rw [mem_cons, mem_cons, mem_cons, hu.mem_iff]
  tauto

end IsUnion

end Hunk

end DashForge
