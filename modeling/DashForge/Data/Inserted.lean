import Mathlib.Data.List.Basic

/-!
# Lists with elements put in

A list that keeps the elements of another in their order and has further ones between them, of some kind (`Inserted`).
What is read from a list without elements of that kind is read from the longer one.
-/

namespace DashForge

variable {α : Type*} {P : α → Prop} {l l' : List α}

/-- `l'` is `l` with further elements put in, all with `P`. -/
inductive Inserted (P : α → Prop) : List α → List α → Prop
  | nil : Inserted P [] []
  | keep (a : α) {l l' : List α} (h : Inserted P l l') : Inserted P (a :: l) (a :: l')
  | add {a : α} (ha : P a) {l l' : List α} (h : Inserted P l l') : Inserted P l (a :: l')

theorem Inserted.filter_eq (h : Inserted P l l') {p : α → Bool} (hp : ∀ a, P a → p a = false) :
    l'.filter p = l.filter p := by
  induction h with
  | nil => rfl
  | keep a h ih => rw [List.filter_cons, List.filter_cons, ih]
  | add ha h ih => rw [List.filter_cons_of_neg (by simp [hp _ ha]), ih]

end DashForge
