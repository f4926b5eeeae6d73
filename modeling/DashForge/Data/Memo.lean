import Mathlib.Data.List.Basic

/-!
# Memo tables

A recursion that keeps its answers in a table of fixed size (`recalled`). An index outside the table is `none`. A
search that starts from right answers only (`Ok`) finds what the plain recursion does and leaves right answers behind
(`Finds`): `Finds.recalled` is the step of one call, `finds_anyOf` a loop of calls that stops at the first success.
-/

namespace DashForge.Memo

open List

variable {α β : Type*}

/-- Cells that hold an answer or nothing yet. -/
abbrev Table (β : Type*) := List (Option β)

/-- The answer in a cell, or the one found and kept there. -/
def recalled (key : ℕ) (memo : Table β) (find : Table β → Option (β × Table β)) : Option (β × Table β) :=
  match memo[key]? with
  | none => none
  | some (some known) => some (known, memo)
  | some none => (find memo).bind fun found =>
    if key < found.2.length then some (found.1, found.2.set key (some found.1)) else none

/-- Whether some element succeeds, each tried with what the ones before it kept. -/
def anyOf (f : α → Table Bool → Option (Bool × Table Bool)) : List α → Table Bool → Option (Bool × Table Bool)
  | [], memo => some (false, memo)
  | a :: l, memo => (f a memo).bind fun found => if found.1 then some found else anyOf f l found.2

section Right

variable (answer : ℕ → β) (n : ℕ)

/-- A table of `n` cells that holds right answers only. -/
structure Ok (memo : Table β) : Prop where
  length : memo.length = n
  right : ∀ key b, memo[key]? = some (some b) → b = answer key

/-- A search that finds `b` and leaves right answers. -/
def Finds (found : Option (β × Table β)) (b : β) : Prop := ∃ memo, found = some (b, memo) ∧ Ok answer n memo

variable {answer n} {memo : Table β}

theorem ok_replicate : Ok answer n (List.replicate n none) := by
  refine ⟨length_replicate, fun key b h => ?_⟩
  rw [getElem?_replicate] at h
  split at h <;> simp at h

theorem finds_some (hmemo : Ok answer n memo) (b : β) : Finds answer n (some (b, memo)) b := ⟨memo, rfl, hmemo⟩

theorem Finds.recalled {key : ℕ} {find : Table β → Option (β × Table β)} (hmemo : Ok answer n memo) (hkey : key < n)
    (hfind : Finds answer n (find memo) (answer key)) : Finds answer n (recalled key memo find) (answer key) := by
  rw [Memo.recalled]
  have hlt : key < memo.length := hmemo.length ▸ hkey
  rw [getElem?_eq_getElem hlt]
  cases hcell : memo[key] with
  | some known =>
    have hright := hmemo.right key known (by rw [getElem?_eq_getElem hlt, hcell])
    exact ⟨memo, by rw [hright], hmemo⟩
  | none =>
    obtain ⟨memo', hfound, hlen, hright⟩ := hfind
    rw [hfound]
    refine ⟨memo'.set key (some (answer key)), by simp [hlen, hkey], by simpa using hlen, fun key' b hb => ?_⟩
    rw [getElem?_set] at hb
    split_ifs at hb with heq
    · rw [← heq]
      exact (Option.some.inj (Option.some.inj hb)).symm
    · exact hright key' b hb

end Right

theorem finds_anyOf {answer : ℕ → Bool} {n : ℕ} {f : α → Table Bool → Option (Bool × Table Bool)} {g : α → Bool}
    {l : List α} (hf : ∀ a ∈ l, ∀ memo, Ok answer n memo → Finds answer n (f a memo) (g a)) {memo : Table Bool}
    (hmemo : Ok answer n memo) : Finds answer n (anyOf f l memo) (l.any g) := by
  induction l generalizing memo with
  | nil => exact finds_some hmemo false
  | cons a l ih =>
    obtain ⟨memo', hfound, hmemo'⟩ := hf a mem_cons_self memo hmemo
    rw [anyOf, hfound, Option.bind_some, any_cons]
    cases hg : g a with
    | true => exact finds_some hmemo' true
    | false => exact ih (fun b hb => hf b (mem_cons_of_mem a hb)) hmemo'

end DashForge.Memo
