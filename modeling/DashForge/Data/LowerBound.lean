import Mathlib.Data.Nat.Basic

/-!
# Binary search for the first index not below a bound

`lowerBound below lo hi` searches `[lo, hi)`; `below` says whether an index is below the bound, and
`none` when it cannot be read. When the indexes below the bound come first, the search ends at the
first one that is not (`lowerBound_spec`), reading only indexes of the range.
-/

namespace DashForge

/-- The first index of `[lo, hi)` that is not below the bound, or `hi`. -/
def lowerBound (below : ℕ → Option Bool) (lo hi : ℕ) : Option ℕ :=
  if lo < hi then
    let mid := (lo + hi) / 2
    match below mid with
    | none => none
    | some true => lowerBound below (mid + 1) hi
    | some false => lowerBound below lo mid
  else some lo
termination_by hi - lo

theorem lowerBound_spec {below : ℕ → Option Bool} {isBelow : ℕ → Prop} [DecidablePred isBelow]
    {lo hi : ℕ} (hle : lo ≤ hi) (hread : ∀ i, lo ≤ i → i < hi → below i = some (decide (isBelow i)))
    (hdown : ∀ i j, lo ≤ i → i ≤ j → j < hi → isBelow j → isBelow i) :
    ∃ m, lowerBound below lo hi = some m ∧ lo ≤ m ∧ m ≤ hi ∧
      (∀ i, lo ≤ i → i < m → isBelow i) ∧ ∀ i, m ≤ i → i < hi → ¬isBelow i := by
  induction hgap : hi - lo using Nat.strong_induction_on generalizing lo hi with
  | _ gap ih =>
    unfold lowerBound
    split
    case isFalse hlt =>
      obtain rfl : lo = hi := by omega
      exact ⟨lo, rfl, le_rfl, le_rfl, by omega, by omega⟩
    case isTrue hlt =>
      have hmid := hread ((lo + hi) / 2) (by omega) (by omega)
      by_cases hbelow : isBelow ((lo + hi) / 2)
      · -- everything up to the middle is below
        obtain ⟨m, hm, hlom, hmhi, hlow, hhigh⟩ :=
          ih (hi - ((lo + hi) / 2 + 1)) (by omega) (show (lo + hi) / 2 + 1 ≤ hi by omega)
            (fun i hi₁ hi₂ => hread i (by omega) hi₂)
            (fun i j h₁ h₂ h₃ => hdown i j (by omega) h₂ h₃) rfl
        refine ⟨m, by simp [hmid, hbelow, hm], by omega, hmhi, fun i hi₁ hi₂ => ?_, hhigh⟩
        by_cases hi' : i ≤ (lo + hi) / 2
        · exact hdown i _ hi₁ hi' (by omega) hbelow
        · exact hlow i (by omega) hi₂
      · obtain ⟨m, hm, hlom, hmhi, hlow, hhigh⟩ :=
          ih ((lo + hi) / 2 - lo) (by omega) (show lo ≤ (lo + hi) / 2 by omega)
            (fun i hi₁ hi₂ => hread i hi₁ (by omega))
            (fun i j h₁ h₂ h₃ => hdown i j h₁ h₂ (by omega)) rfl
        refine ⟨m, by simp [hmid, hbelow, hm], hlom, by omega, hlow, fun i hi₁ hi₂ hi₃ => ?_⟩
        by_cases hi' : i < (lo + hi) / 2
        · exact hhigh i hi₁ hi' hi₃
        · exact hbelow (hdown _ i (by omega) (by omega) hi₂ hi₃)

end DashForge
