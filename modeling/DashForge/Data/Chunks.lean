import Mathlib.Data.List.Basic

/-!
# Chunks of a list

The `i`-th run of `n` elements of a list. Consecutive chunks make up the part of the list they
cover (`flatMap_chunk`), and only the last one can be short (`length_chunk`).
-/

namespace DashForge

open List

variable {α : Type*}

/-- The `i`-th run of `n` elements. -/
def chunk (n : ℕ) (l : List α) (i : ℕ) : List α := (l.drop (i * n)).take n

theorem length_chunk (n : ℕ) (l : List α) (i : ℕ) : (chunk n l i).length = min n (l.length - i * n) := by
  simp [chunk]

/-- Consecutive chunks make up what they cover. -/
theorem flatMap_chunk (n : ℕ) (l : List α) (i m : ℕ) :
    (List.range' i m).flatMap (chunk n l) = (l.drop (i * n)).take (m * n) := by
  induction m with
  | zero => simp
  | succ m ih =>
    rw [range'_1_concat, flatMap_append, ih, flatMap_singleton, chunk, Nat.add_mul,
      Nat.add_mul, Nat.one_mul, take_add, drop_drop]

theorem chunk_append_of_le {n i : ℕ} {l l' : List α} (h : (i + 1) * n ≤ l.length) :
    chunk n (l ++ l') i = chunk n l i := by
  rw [Nat.add_mul, Nat.one_mul] at h
  rw [chunk, chunk, drop_append_of_le_length (by omega),
    take_append_of_le_length (by rw [length_drop]; omega)]

theorem chunk_flatMap {β : Type*} {f : β → List α} {n : ℕ} {l : List β} (h : ∀ b ∈ l, (f b).length = n) {i : ℕ}
    (hi : i < l.length) : chunk n (l.flatMap f) i = f l[i] := by
  induction l generalizing i with
  | nil => exact absurd hi (Nat.not_lt_zero i)
  | cons b l ih =>
    have hb := h b mem_cons_self
    cases i with
    | zero => rw [chunk, Nat.zero_mul, drop_zero, flatMap_cons, take_left' hb]; rfl
    | succ i =>
      have hdrop : (f b ++ l.flatMap f).drop ((i + 1) * n) = (l.flatMap f).drop (i * n) := by
        rw [Nat.add_mul, Nat.one_mul, Nat.add_comm, ← drop_drop, drop_left' hb]
      rw [chunk, flatMap_cons, hdrop]
      exact ih (fun b' hb' => h b' (mem_cons_of_mem b hb')) (Nat.lt_of_succ_lt_succ hi)

theorem length_flatMap_of_length {β : Type*} {f : β → List α} {n : ℕ} {l : List β} (h : ∀ b ∈ l, (f b).length = n) :
    (l.flatMap f).length = n * l.length := by
  induction l with
  | nil => rfl
  | cons b l ih =>
    rw [flatMap_cons, length_append, h b mem_cons_self,
      ih fun b' hb' => h b' (mem_cons_of_mem b hb'), length_cons, Nat.mul_succ, Nat.add_comm]

end DashForge
