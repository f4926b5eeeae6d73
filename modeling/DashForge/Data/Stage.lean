import Mathlib.Logic.Basic

/-!
# Stages

Computations on a state that may halt, one after another, and triples about them: from a state that meets the first
condition a stage ends in one that meets the second, or halts in one that meets the third.
-/

namespace DashForge

variable {σ ε : Type*}

/-- A computation on a state, and why it halts where it does. -/
abbrev Stage (σ ε : Type*) := σ → σ × Option ε

namespace Stage

/-- `b` where `a` did not halt. -/
def andThen (a b : Stage σ ε) : Stage σ ε := fun s =>
  match a s with
  | (s', none) => b s'
  | (s', some e) => (s', some e)

/-- What holds after a stage that started where `P` does. -/
def Triple (P : σ → Prop) (a : Stage σ ε) (Q : σ → Prop) (E : ε → σ → Prop) : Prop :=
  ∀ s, P s → (∀ s', a s = (s', none) → Q s') ∧ ∀ s' e, a s = (s', some e) → E e s'

variable {P Q R : σ → Prop} {E : ε → σ → Prop} {a b : Stage σ ε}

theorem Triple.andThen (ha : Triple P a Q E) (hb : Triple Q b R E) : Triple P (a.andThen b) R E := by
  intro s hs
  obtain ⟨hnone, hsome⟩ := ha s hs
  rw [Stage.andThen]
  cases h : a s with
  | mk s' o =>
    cases o with
    | none => exact hb s' (hnone s' h)
    | some e =>
      refine ⟨fun s'' heq => ?_, fun s'' e' heq => ?_⟩
      · simp at heq
      · obtain ⟨rfl, he⟩ := Prod.mk.inj heq
        obtain rfl := Option.some.inj he
        exact hsome s' e h

/-- A stage that does not halt. -/
theorem Triple.done {f : σ → σ} (h : ∀ s, P s → Q (f s)) : Triple P (fun s => (f s, none)) Q E := by
  intro s hs
  refine ⟨fun s' heq => ?_, fun s' e heq => ?_⟩
  · obtain rfl := (Prod.mk.inj heq).1
    exact h s hs
  · cases (Prod.mk.inj heq).2

/-- A stage that halts. -/
theorem Triple.halted {f : σ → σ} {e : σ → ε} (h : ∀ s, P s → E (e s) (f s)) :
    Triple P (fun s => (f s, some (e s))) Q E := by
  intro s hs
  refine ⟨fun s' heq => ?_, fun s' e' heq => ?_⟩
  · cases (Prod.mk.inj heq).2
  · obtain ⟨rfl, he⟩ := Prod.mk.inj heq
    obtain rfl := Option.some.inj he
    exact h s hs

theorem Triple.ite {c : σ → Prop} [DecidablePred c] (ha : Triple (fun s => P s ∧ c s) a Q E)
    (hb : Triple (fun s => P s ∧ ¬c s) b Q E) : Triple P (fun s => if c s then a s else b s) Q E := by
  intro s hs
  by_cases h : c s
  · simp only [if_pos h]
    exact ha s ⟨hs, h⟩
  · simp only [if_neg h]
    exact hb s ⟨hs, h⟩

theorem Triple.imp {P' Q' : σ → Prop} (h : Triple P a Q E) (hP : ∀ s, P' s → P s) (hQ : ∀ s, Q s → Q' s) :
    Triple P' a Q' E := fun s hs => ⟨fun s' heq => hQ s' ((h s (hP s hs)).1 s' heq), (h s (hP s hs)).2⟩

end Stage

end DashForge
