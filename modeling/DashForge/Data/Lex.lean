import Mathlib.Data.String.Basic

/-!
# Lists in dictionary order

How a list compares with its extensions and with lists that share a beginning with it. A word that is not above
another, though not a beginning of it, stays below it however it goes on (`append_lt_of_lt`).
-/

namespace DashForge.Lex

open List

variable {α : Type*} [LinearOrder α] {l m x y : List α} {a b : α}

theorem append_lt_append_iff (l : List α) : l ++ x < l ++ y ↔ x < y := by
  induction l with
  | nil => rfl
  | cons a l ih => rw [cons_append, cons_append, cons_lt_cons_self, ih]

theorem nil_lt (h : x ≠ []) : [] < x := by
  obtain ⟨a, x, rfl⟩ := exists_cons_of_ne_nil h
  exact nil_lt_cons a x

theorem lt_append (l : List α) (h : x ≠ []) : l < l ++ x := by
  have := (append_lt_append_iff l).mpr (nil_lt h)
  rwa [append_nil] at this

theorem cons_lt_cons (h : a < b) (x y : List α) : a :: x < b :: y :=
  cons_lt_cons_iff.mpr (.inl h)

/-- A beginning is not above what it is a beginning of. -/
theorem not_append_lt (l x : List α) : ¬l ++ x < l := by
  intro h
  cases x with
  | nil =>
    rw [append_nil] at h
    exact lt_irrefl l h
  | cons a x => exact lt_asymm h (lt_append l (cons_ne_nil a x))

theorem append_lt_of_lt (h : l < m) (hnot : ¬l <+: m) (x : List α) : l ++ x < m := by
  induction l generalizing m with
  | nil => exact absurd (List.nil_prefix) hnot
  | cons a l ih =>
    cases m with
    | nil => exact absurd h (not_lt_nil _)
    | cons b m =>
      rcases cons_lt_cons_iff.mp h with hab | ⟨rfl, hlm⟩
      · exact cons_lt_cons hab _ _
      · rw [cons_append, cons_lt_cons_self]
        exact ih hlm fun hpre => hnot ((cons_prefix_cons).mpr ⟨rfl, hpre⟩)

/-- Words of one length are ordered as their beginnings, once these differ. -/
theorem append_lt_append_of_lt (h : l < m) (hlen : l.length = m.length) (x y : List α) : l ++ x < m ++ y := by
  refine append_lt_of_lt (h.trans_le ?_) (fun hpre => ?_) x
  · cases y with
    | nil => rw [append_nil]
    | cons b y => exact (lt_append m (cons_ne_nil b y)).le
  · have := prefix_of_prefix_length_le hpre (prefix_append m y) hlen.le
    exact h.ne (this.eq_of_length hlen)

end DashForge.Lex
