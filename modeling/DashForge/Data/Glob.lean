import DashForge.Data.Loop
import Mathlib.Data.List.Basic

/-!
# Wildcards

Patterns of literals, `?` and `*` (`Tok`) against lists. `Matches` says what a pattern matches, and `globMatches` is the
walk that decides it with one place to go back to: on a mismatch the last star takes one more character.

The walk is right to forget the stars before the last (`WalkInv`): between two stars it has matched single characters
only, as many on either side, so whatever an earlier star could take more, the last one can take too.
-/

namespace DashForge.Glob

open List Option

variable {α : Type*}

inductive Tok (α : Type*) where
  | lit (a : α)
  | star
  | quest
deriving DecidableEq, Repr

/-- What a pattern matches: a star any run, `?` one character, a literal itself. -/
inductive Matches : List (Tok α) → List α → Prop
  | nil : Matches [] []
  | star (skipped : List α) {toks : List (Tok α)} {rest : List α} (h : Matches toks rest) :
      Matches (.star :: toks) (skipped ++ rest)
  | quest (a : α) {toks : List (Tok α)} {rest : List α} (h : Matches toks rest) : Matches (.quest :: toks) (a :: rest)
  | lit (a : α) {toks : List (Tok α)} {rest : List α} (h : Matches toks rest) : Matches (.lit a :: toks) (a :: rest)

/-- The state of the walk: what is left of the pattern and of the name, and what was left of both behind the last star. -/
structure Walk (α : Type*) where
  toks : List (Tok α)
  name : List α
  star : Option (List (Tok α) × List α)

section Walk

variable [DecidableEq α]

/-- The last star takes one more. -/
def Walk.backtrack (w : Walk α) : Option (Walk α) := w.star.map fun s => ⟨s.1, s.2.tail, some (s.1, s.2.tail)⟩

/-- One round of the walk, while there is a character left. -/
def Walk.round (w : Walk α) : Option (Walk α) :=
  match w.name, w.toks with
  | [], _ => none
  | a :: rest, .star :: toks => some ⟨toks, a :: rest, some (toks, a :: rest)⟩
  | _ :: rest, .quest :: toks => some ⟨toks, rest, w.star⟩
  | a :: rest, .lit b :: toks => if b = a then some ⟨toks, rest, w.star⟩ else w.backtrack
  | _ :: _, [] => w.backtrack

/-- Whether a pattern matches a whole list. -/
def globMatches (toks : List (Tok α)) (name : List α) : Bool :=
  match loop (fun _ => Walk.round) ((name.length + 2) * (toks.length + 1)) ⟨toks, name, none⟩ with
  | some w => w.name.isEmpty && w.toks.all (· = .star)
  | none => false

end Walk

/-! ### What a pattern matches -/

variable {name : List α} {toks : List (Tok α)}

theorem matches_nil_iff : Matches [] name ↔ name = [] := by
  constructor
  · rintro ⟨⟩
    rfl
  · rintro rfl
    exact .nil

theorem matches_quest_cons {a : α} {rest : List α} : Matches (.quest :: toks) (a :: rest) ↔ Matches toks rest := by
  constructor
  · rintro ⟨⟩
    assumption
  · exact .quest a

theorem matches_lit_cons {a b : α} {rest : List α} :
    Matches (.lit b :: toks) (a :: rest) ↔ b = a ∧ Matches toks rest := by
  constructor
  · rintro ⟨⟩
    exact ⟨rfl, by assumption⟩
  · rintro ⟨rfl, h⟩
    exact .lit b h

theorem matches_star_iff : Matches (.star :: toks) name ↔ ∃ k, k ≤ name.length ∧ Matches toks (name.drop k) := by
  constructor
  · intro h
    generalize htoks : Tok.star :: toks = pattern at h
    cases h with
    | nil => simp at htoks
    | @star skipped toks' rest h =>
      obtain rfl := (List.cons.inj htoks).2
      exact ⟨skipped.length, by simp, by simpa using h⟩
    | quest a h => simp at htoks
    | lit a h => simp at htoks
  · rintro ⟨k, -, h⟩
    rw [← take_append_drop k name]
    exact .star _ h

theorem matches_star_of_drop {k : ℕ} (h : Matches (.star :: toks) (name.drop k)) : Matches (.star :: toks) name := by
  obtain ⟨m, -, hm⟩ := matches_star_iff.mp h
  rw [drop_drop] at hm
  rw [← take_append_drop (k + m) name]
  exact .star _ hm

theorem matches_nil_right : Matches toks [] ↔ ∀ t ∈ toks, t = .star := by
  induction toks with
  | nil => simp [matches_nil_iff]
  | cons t toks ih =>
    rw [forall_mem_cons]
    cases t with
    | lit a => exact iff_of_false (by rintro ⟨⟩) (by simp)
    | quest => exact iff_of_false (by rintro ⟨⟩) (by simp)
    | star => simp [matches_star_iff, ih]

theorem exists_drop_of_append {seen : List (Tok α)} (hseen : Tok.star ∉ seen)
    (h : Matches (seen ++ toks) name) : seen.length ≤ name.length ∧ Matches toks (name.drop seen.length) := by
  induction seen generalizing name with
  | nil => exact ⟨Nat.zero_le _, h⟩
  | cons t seen ih =>
    rw [mem_cons, not_or] at hseen
    rw [cons_append] at h
    cases name with
    | nil => exact absurd (matches_nil_right.mp h t mem_cons_self).symm hseen.1
    | cons a name =>
      have hrest : Matches (seen ++ toks) name := by
        cases t with
        | lit b => exact (matches_lit_cons.mp h).2
        | quest => exact matches_quest_cons.mp h
        | star => exact absurd rfl hseen.1
      obtain ⟨hle, hmatch⟩ := ih hseen.2 hrest
      exact ⟨Nat.succ_le_succ hle, hmatch⟩

/-! ### The walk -/

section Correct

variable (toks : List (Tok α)) (name : List α)

/-- The last star can still take more. -/
def Walk.Later (w : Walk α) : Prop :=
  ∃ s, w.star = some s ∧ ∃ k, 1 ≤ k ∧ k ≤ s.2.length ∧ Matches s.1 (s.2.drop k)

/-- What the walk of a pattern over a list keeps. -/
structure WalkInv (w : Walk α) : Prop where
  iff : Matches toks name ↔ Matches w.toks w.name ∨ w.Later
  toks_le : w.toks.length ≤ toks.length
  name_le : w.name.length ≤ name.length
  /-- Since the last star, single characters were matched. -/
  star : ∀ s, w.star = some s → s.1.length ≤ toks.length ∧ s.2.length ≤ name.length ∧
    ∃ seen pre, Tok.star ∉ seen ∧ pre.length = seen.length ∧ s.1 = seen ++ w.toks ∧ s.2 = pre ++ w.name

/-- What is left to do: the last star's list first, then the pattern. -/
def Walk.measure (w : Walk α) : ℕ :=
  (w.star.elim (name.length + 1) fun s => s.2.length) * (toks.length + 1) + w.toks.length

variable {toks name} {w w' : Walk α}

theorem WalkInv.matches_drop_of_later (h : WalkInv toks name w) (hlater : w.Later) :
    ∃ k, 1 ≤ k ∧ k ≤ w.name.length ∧ Matches w.toks (w.name.drop k) := by
  obtain ⟨s, hs, k, hpos, hle, hmatch⟩ := hlater
  obtain ⟨-, -, seen, pre, hseen, hlen, htoks, hname⟩ := h.star s hs
  rw [htoks] at hmatch
  obtain ⟨hle', hmatch⟩ := exists_drop_of_append hseen hmatch
  rw [hname] at hle hle' hmatch
  rw [length_drop, length_append] at hle'
  rw [length_append] at hle
  refine ⟨k, hpos, by omega, ?_⟩
  rwa [drop_drop, Nat.add_comm, ← hlen, drop_length_add_append] at hmatch

theorem WalkInv.start (toks : List (Tok α)) (name : List α) : WalkInv toks name ⟨toks, name, none⟩ where
  iff := (or_iff_left fun hlater => by obtain ⟨s, hs, -⟩ := hlater; simp at hs).symm
  toks_le := Nat.le_refl _
  name_le := Nat.le_refl _
  star := fun s hs => absurd hs (by simp)

variable {a : α} {rest : List α} {toks' : List (Tok α)} {star : Option (List (Tok α) × List α)}

theorem WalkInv.meet (h : WalkInv toks name ⟨.star :: toks', a :: rest, star⟩) :
    WalkInv toks name ⟨toks', a :: rest, some (toks', a :: rest)⟩ where
  iff := by
    rw [h.iff, or_iff_left_of_imp]
    · rw [matches_star_iff]
      constructor
      · rintro ⟨k, hle, hmatch⟩
        rcases Nat.eq_zero_or_pos k with rfl | hpos
        · exact .inl hmatch
        · exact .inr ⟨_, rfl, k, hpos, hle, hmatch⟩
      · rintro (hmatch | ⟨s, hs, k, -, hle, hmatch⟩)
        · exact ⟨0, Nat.zero_le _, hmatch⟩
        · obtain rfl := some.inj hs
          exact ⟨k, hle, hmatch⟩
    · intro hlater
      obtain ⟨k, -, -, hmatch⟩ := h.matches_drop_of_later hlater
      exact matches_star_of_drop hmatch
  toks_le := Nat.le_trans (Nat.le_succ _) h.toks_le
  name_le := h.name_le
  star := fun s hs => by
    obtain rfl := some.inj hs
    exact ⟨Nat.le_trans (Nat.le_succ _) h.toks_le, h.name_le, [], [], not_mem_nil, rfl, rfl, rfl⟩

theorem WalkInv.advance {t : Tok α} (h : WalkInv toks name ⟨t :: toks', a :: rest, star⟩) (ht : t ≠ .star)
    (hmatch : Matches (t :: toks') (a :: rest) ↔ Matches toks' rest) : WalkInv toks name ⟨toks', rest, star⟩ where
  iff := by
    rw [h.iff]
    exact or_congr_left hmatch
  toks_le := Nat.le_trans (Nat.le_succ _) h.toks_le
  name_le := Nat.le_trans (Nat.le_succ _) h.name_le
  star := fun s hs => by
    obtain ⟨htoks, hname, seen, pre, hseen, hlen, hs₁, hs₂⟩ := h.star s hs
    refine ⟨htoks, hname, seen ++ [t], pre ++ [a], ?_, by simp [hlen], by simp [hs₁], by simp [hs₂]⟩
    rw [mem_append, not_or]
    exact ⟨hseen, fun hmem => ht (mem_singleton.mp hmem).symm⟩

theorem WalkInv.backtrack (h : WalkInv toks name w) (hname : w.name ≠ []) (hmatch : ¬Matches w.toks w.name)
    (hw : w.backtrack = some w') : WalkInv toks name w' ∧ w'.measure toks name < w.measure toks name := by
  obtain ⟨s, hs, rfl⟩ := map_eq_some_iff.mp hw
  obtain ⟨htoks, hle, seen, pre, -, -, -, hs₂⟩ := h.star s hs
  obtain ⟨b, tail, htail⟩ : ∃ b tail, s.2 = b :: tail :=
    exists_cons_of_ne_nil (by rw [hs₂]; simp [hname])
  rw [htail] at hle
  have hlater : w.Later ↔ Matches s.1 tail ∨ ∃ k, 1 ≤ k ∧ k ≤ tail.length ∧ Matches s.1 (tail.drop k) := by
    constructor
    · rintro ⟨s', hs', k, hpos, hlen, hk⟩
      obtain rfl := some.inj (hs.symm.trans hs')
      obtain ⟨k, rfl⟩ := Nat.exists_eq_succ_of_ne_zero (Nat.ne_of_gt hpos)
      rw [htail, drop_succ_cons] at hk
      rw [htail, length_cons] at hlen
      rcases Nat.eq_zero_or_pos k with rfl | hpos'
      · exact .inl hk
      · exact .inr ⟨k, hpos', by omega, hk⟩
    · rintro (hk | ⟨k, -, hlen, hk⟩)
      · exact ⟨s, hs, 1, Nat.le_refl _, by rw [htail]; simp, by rw [htail]; exact hk⟩
      · exact ⟨s, hs, k + 1, by omega, by rw [htail, length_cons]; omega, by rw [htail]; exact hk⟩
  refine ⟨⟨?_, htoks, ?_, ?_⟩, ?_⟩
  · rw [h.iff, or_iff_right hmatch, hlater, htail]
    refine or_congr_right ⟨fun ⟨k, hk⟩ => ⟨_, rfl, k, hk⟩, ?_⟩
    rintro ⟨s', hs', k, hk⟩
    obtain rfl := some.inj hs'
    exact ⟨k, hk⟩
  · rw [htail]
    exact Nat.le_trans (Nat.le_succ _) hle
  · intro s' hs'
    obtain rfl := some.inj hs'
    refine ⟨htoks, ?_, [], [], not_mem_nil, rfl, rfl, rfl⟩
    rw [htail]
    exact Nat.le_trans (Nat.le_succ _) hle
  · simp only [Walk.measure, hs, elim_some, htail, tail_cons, length_cons, Nat.succ_mul]
    omega

variable [DecidableEq α]

theorem WalkInv.round (h : WalkInv toks name w) (hw : w.round = some w') :
    WalkInv toks name w' ∧ w'.measure toks name < w.measure toks name := by
  obtain ⟨wtoks, wname, star⟩ := w
  rcases wname with _ | ⟨a, rest⟩
  · simp [Walk.round] at hw
  rcases wtoks with _ | ⟨_ | _ | _, toks'⟩
  · refine h.backtrack (by simp) (fun hmatch => ?_) hw
    exact absurd (matches_nil_iff.mp hmatch) (by simp)
  · next b =>
    simp only [Walk.round] at hw
    split_ifs at hw with hb
    · obtain rfl := some.inj hw
      refine ⟨h.advance (by simp) ?_, ?_⟩
      · rw [matches_lit_cons, and_iff_right hb]
      · simp only [Walk.measure, length_cons]
        omega
    · exact h.backtrack (by simp) (fun hmatch => hb (matches_lit_cons.mp hmatch).1) hw
  · obtain rfl := some.inj hw
    refine ⟨h.meet, ?_⟩
    have hle : (a :: rest).length ≤ star.elim (name.length + 1) fun s => s.2.length := by
      rcases star with _ | s
      · exact Nat.le_trans h.name_le (Nat.le_succ _)
      · obtain ⟨-, -, seen, pre, -, -, -, hs₂⟩ := h.star s rfl
        rw [elim_some, hs₂, length_append]
        exact Nat.le_add_left _ _
    have hmul := Nat.mul_le_mul_right (toks.length + 1) hle
    simp only [Walk.measure, elim_some, length_cons] at hmul ⊢
    omega
  · obtain rfl := some.inj hw
    refine ⟨h.advance (by simp) matches_quest_cons, ?_⟩
    simp only [Walk.measure, length_cons]
    omega

theorem WalkInv.stop (h : WalkInv toks name w) (hw : w.round = none) :
    (w.name.isEmpty && w.toks.all (· = .star)) = true ↔ Matches toks name := by
  obtain ⟨wtoks, wname, star⟩ := w
  rw [h.iff, Bool.and_eq_true, List.isEmpty_iff, List.all_eq_true]
  simp only [decide_eq_true_eq]
  rcases wname with _ | ⟨a, rest⟩
  · rw [and_iff_right rfl, ← matches_nil_right, or_iff_left]
    intro hlater
    obtain ⟨k, hpos, hle, -⟩ := h.matches_drop_of_later hlater
    exact absurd hle (Nat.not_le.mpr hpos)
  · -- a mismatch, and no star to go back to
    have hno : star = none ∧ ¬Matches wtoks (a :: rest) := by
      rcases wtoks with _ | ⟨_ | _ | _, toks'⟩
      · exact ⟨map_eq_none_iff.mp hw, fun hmatch => absurd (matches_nil_iff.mp hmatch) (by simp)⟩
      · simp only [Walk.round] at hw
        split_ifs at hw with hb
        exact ⟨map_eq_none_iff.mp hw, fun hmatch => hb (matches_lit_cons.mp hmatch).1⟩
      · exact absurd hw (by simp [Walk.round])
      · exact absurd hw (by simp [Walk.round])
    refine iff_of_false (by simp) ?_
    rintro (hmatch | ⟨s, hs, -⟩)
    · exact hno.2 hmatch
    · exact absurd (hno.1.symm.trans hs) (by simp)

end Correct

/-- The walk decides what a pattern matches. -/
theorem globMatches_iff [DecidableEq α] : globMatches toks name = true ↔ Matches toks name := by
  have hfuel : Walk.measure toks name ⟨toks, name, none⟩ < (name.length + 2) * (toks.length + 1) := by
    simp only [Walk.measure, elim_none, Nat.succ_mul]
    omega
  obtain ⟨w, -, hloop, hw, hstop⟩ := exists_loop_eq_some (WalkInv toks name)
    (Walk.measure toks name) (fun _ s s' hs hround => hs.round hround) (WalkInv.start toks name) hfuel
  rw [globMatches, hloop]
  exact hw.stop hstop

end DashForge.Glob
