import Mathlib.Data.Option.Basic
import Mathlib.Order.Basic

/-!
# Loops with a bound on their rounds

A `while` loop whose body stops by giving `none` (`loop`). It counts its rounds down and is `none` itself
when they run out, so that a loop with a measure that falls is shown to stop (`exists_loop_eq_some`).
-/

namespace DashForge

variable {σ α : Type*}

/-- Repeat `body`, which sees how many rounds are left, until it gives `none`. -/
def loop (body : ℕ → σ → Option σ) : ℕ → σ → Option σ
  | 0, _ => none
  | n + 1, s =>
    match body n s with
    | none => some s
    | some s' => loop body n s'

variable {body : ℕ → σ → Option σ} {n : ℕ} {s : σ} {f : σ → α → Option σ}

theorem loop_eq_self (h : body n s = none) : loop body (n + 1) s = some s := by
  rw [loop, h]

/-- A loop whose rounds keep `P` and lower `μ` stops, at a state where `P` holds and its body has no round
left. -/
theorem exists_loop_eq_some (P : σ → Prop) (μ : σ → ℕ)
    (hbody : ∀ n s s', P s → body n s = some s' → P s' ∧ μ s' < μ s) (hs : P s)
    (hn : μ s < n) : ∃ s' m, loop body n s = some s' ∧ P s' ∧ body m s' = none := by
  induction n generalizing s with
  | zero => exact absurd hn (Nat.not_lt_zero _)
  | succ n ih =>
    cases hround : body n s with
    | none => exact ⟨s, n, loop_eq_self hround, hs, hround⟩
    | some s' =>
      obtain ⟨hs', hlt⟩ := hbody n s s' hs hround
      obtain ⟨s'', m, hloop, hstop⟩ := ih hs' (by omega)
      exact ⟨s'', m, by simp only [loop, hround, hloop], hstop⟩

theorem foldlM_eq_self {l : List α} (h : ∀ a ∈ l, f s a = some s) : l.foldlM f s = some s := by
  induction l with
  | nil => rfl
  | cons a l ih =>
    rw [List.foldlM_cons, h a List.mem_cons_self]
    exact ih fun b hb => h b (List.mem_cons_of_mem _ hb)

theorem exists_foldlM_eq_some {P : σ → Prop} {R : α → σ → Prop}
    (hf : ∀ s a, P s → ∃ s', f s a = some s' ∧ P s' ∧ R a s' ∧ ∀ b, R b s → R b s') (l : List α)
    (hs : P s) : ∃ s', l.foldlM f s = some s' ∧ P s' ∧ (∀ a ∈ l, R a s') ∧ ∀ b, R b s → R b s' := by
  induction l generalizing s with
  | nil => exact ⟨s, rfl, hs, by simp, fun _ hb => hb⟩
  | cons a l ih =>
    obtain ⟨s₁, hstep, hs₁, ha, hkeep⟩ := hf s a hs
    obtain ⟨s₂, hrest, hs₂, hl, hkeep'⟩ := ih hs₁
    refine ⟨s₂, by simp [hstep, hrest], hs₂, fun b hb => ?_, fun b hb => hkeep' b (hkeep b hb)⟩
    rcases List.mem_cons.mp hb with rfl | hb
    · exact hkeep' b ha
    · exact hl b hb

end DashForge
