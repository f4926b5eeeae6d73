import Mathlib.Data.List.Induction
import Mathlib.Data.List.Nodup

/-!
# Calls made of atomic steps

Calls of an object run concurrently, each as a sequence of atomic steps on the shared state (`Config.next?`).
A run is linearizable when its calls give the results, and leave the state, that they give one after another
in an order that keeps two calls apart of which one returned before the other was made (`Linearizable`).

The rule proved here is for calls that take effect with their last step (`linearizable_of_lastStep`): the
steps before leave the state alone, and a call run alone from the state of its last step does the same.
-/

namespace DashForge

open List Option

universe u

/-- An object: how a call starts, and what a step of it does. A step goes on or gives the result. -/
structure CallObject (σ ω ℓ ρ : Type) where
  enter : ω → ℓ
  step : ℓ → σ → σ × (ℓ ⊕ ρ)

namespace CallObject

variable {σ ω ℓ ρ : Type} (obj : CallObject σ ω ℓ ρ)

/-- A call run to its end with nothing in between. -/
inductive Alone : ℓ → σ → σ → ρ → Prop
  | last {l : ℓ} {s s' : σ} {r : ρ} (h : obj.step l s = (s', .inr r)) : Alone l s s' r
  | next {l l' : ℓ} {s s₁ s' : σ} {r : ρ} (h : obj.step l s = (s₁, .inl l')) (rest : Alone l' s₁ s' r) :
    Alone l s s' r

/-- Calls run one after another. -/
inductive Sequential : σ → List (ω × ρ) → σ → Prop
  | nil (s : σ) : Sequential s [] s
  | cons {s s₁ s' : σ} {op : ω} {r : ρ} {rest : List (ω × ρ)} (h : obj.Alone (obj.enter op) s s₁ r)
    (hrest : Sequential s₁ rest s') : Sequential s ((op, r) :: rest) s'

variable {s s₁ s₂ : σ} {op : ω} {l : ℓ}

variable {obj} in
theorem Sequential.concat {s' : σ} {calls : List (ω × ρ)} {r : ρ}
    (h : obj.Sequential s calls s₁) (hlast : obj.Alone (obj.enter op) s₁ s' r) :
    obj.Sequential s (calls ++ [(op, r)]) s' := by
  induction h with
  | nil s => exact .cons hlast (.nil _)
  | cons h _ ih => exact .cons h (ih hlast)

variable {obj} in
theorem Alone.unique {r₁ r₂ : ρ} (h₁ : obj.Alone l s s₁ r₁) (h₂ : obj.Alone l s s₂ r₂) : s₁ = s₂ ∧ r₁ = r₂ := by
  induction h₁ with
  | last h =>
    match h₂ with
    | .last h' => simpa [h] using h'
    | .next h' _ => simp [h] at h'
  | next h _ ih =>
    match h₂ with
    | .last h' => simp [h] at h'
    | .next h' rest =>
      obtain ⟨rfl, rfl⟩ : _ = _ ∧ _ = _ := by simpa [h] using h'
      exact ih rest

variable {obj} in
/-- Calls run one after another give one list of results and one state. -/
theorem Sequential.unique {calls₁ calls₂ : List (ω × ρ)} (h₁ : obj.Sequential s calls₁ s₁)
    (h₂ : obj.Sequential s calls₂ s₂) (hops : calls₁.map Prod.fst = calls₂.map Prod.fst) :
    calls₁ = calls₂ ∧ s₁ = s₂ := by
  induction h₁ generalizing calls₂ with
  | nil s =>
    match h₂ with
    | .nil _ => exact ⟨rfl, rfl⟩
    | .cons _ _ => simp at hops
  | cons h _ ih =>
    match h₂ with
    | .nil _ => simp at hops
    | .cons h' rest =>
      simp only [map_cons, List.cons.injEq] at hops
      obtain ⟨rfl, hrest⟩ := hops
      obtain ⟨rfl, rfl⟩ := h.unique h'
      obtain ⟨rfl, rfl⟩ := ih rest hrest
      exact ⟨rfl, rfl⟩

/-- Where a call stands. -/
inductive Status (ω ℓ ρ : Type) where
  | unused
  | running (op : ω) (at_ : ℓ)
  | done (op : ω) (result : ρ) (returned : Bool)
deriving DecidableEq

/-- What happens in a run: a call is made, takes a step, or returns. -/
inductive Event (ω : Type) where
  | call (i : ℕ) (op : ω)
  | step (i : ℕ)
  | ret (i : ℕ)
deriving DecidableEq

/-- The shared state and the calls, by number. -/
structure Config (σ ω ℓ ρ : Type) where
  state : σ
  calls : ℕ → Status ω ℓ ρ

/-- The start of a run. -/
def init (s : σ) : Config σ ω ℓ ρ := ⟨s, fun _ => .unused⟩

/-- Give a call another status. -/
def Config.set (c : Config σ ω ℓ ρ) (i : ℕ) (st : Status ω ℓ ρ) : Config σ ω ℓ ρ :=
  { c with calls := Function.update c.calls i st }

/-- One event of a run, where it can happen. -/
def next? (c : Config σ ω ℓ ρ) : Event ω → Option (Config σ ω ℓ ρ)
  | .call i op =>
    match c.calls i with
    | .unused => some (c.set i (.running op (obj.enter op)))
    | _ => none
  | .step i =>
    match c.calls i with
    | .running op l =>
      match obj.step l c.state with
      | (s, .inl l') => some ({ c with state := s }.set i (.running op l'))
      | (s, .inr r) => some ({ c with state := s }.set i (.done op r false))
    | _ => none
  | .ret i =>
    match c.calls i with
    | .done op r false => some (c.set i (.done op r true))
    | _ => none

/-- A run. -/
def run (c : Config σ ω ℓ ρ) (es : List (Event ω)) : Option (Config σ ω ℓ ρ) := es.foldlM obj.next? c

/-- Whether a call returned before another was made. -/
def Precedes (es : List (Event ω)) (i j : ℕ) : Prop := ∃ op, [Event.ret i, .call j op].Sublist es

/-- The finished calls of a run, in an order in which one after another they do what they did. -/
structure IsLinearization (s : σ) (es : List (Event ω)) (c : Config σ ω ℓ ρ) (order : List (ℕ × ω × ρ)) :
    Prop where
  finished : ∀ i op r, (i, op, r) ∈ order ↔ ∃ returned, c.calls i = .done op r returned
  once : (order.map Prod.fst).Nodup
  sequential : obj.Sequential s (order.map Prod.snd) c.state
  realTime : order.Pairwise fun x y => ¬Precedes es y.1 x.1

/-- The finished calls of a run can be put in order. -/
def Linearizable (s : σ) (es : List (Event ω)) (c : Config σ ω ℓ ρ) : Prop :=
  ∃ order, obj.IsLinearization s es c order

/-! ### One event -/

section Next

variable {obj} {c c' : Config σ ω ℓ ρ}

theorem Config.set_calls (i : ℕ) (st : Status ω ℓ ρ) (j : ℕ) :
    (c.set i st).calls j = if j = i then st else c.calls j := by
  exact Function.update_apply ..

variable {i : ℕ}

theorem next?_call {op : ω} (h : obj.next? c (.call i op) = some c') :
    c.calls i = .unused ∧ c' = c.set i (.running op (obj.enter op)) := by
  simp only [next?] at h
  split at h
  · next hun => exact ⟨hun, (some.inj h).symm⟩
  · cases h

theorem next?_ret (h : obj.next? c (.ret i) = some c') :
    ∃ op r, c.calls i = .done op r false ∧ c' = c.set i (.done op r true) := by
  simp only [next?] at h
  split at h
  · next op r hdone => exact ⟨op, r, hdone, (some.inj h).symm⟩
  · cases h

/-- A step goes on or ends the call. -/
theorem next?_step (h : obj.next? c (.step i) = some c') : ∃ op l, c.calls i = .running op l ∧
    ((∃ s l', obj.step l c.state = (s, .inl l') ∧ c' = { c with state := s }.set i (.running op l')) ∨
      ∃ s r, obj.step l c.state = (s, .inr r) ∧ c' = { c with state := s }.set i (.done op r false)) := by
  simp only [next?] at h
  split at h
  · next op l hrun =>
    refine ⟨op, l, hrun, ?_⟩
    split at h
    · next s l' hstep => exact .inl ⟨s, l', hstep, (some.inj h).symm⟩
    · next s r hstep => exact .inr ⟨s, r, hstep, (some.inj h).symm⟩
  · cases h

end Next

theorem run_concat {c c' : Config σ ω ℓ ρ} {es : List (Event ω)} {e : Event ω} :
    obj.run c (es ++ [e]) = some c' ↔ ∃ c₁, obj.run c es = some c₁ ∧ obj.next? c₁ e = some c' := by
  simp [run, foldlM_append, bind_eq_some_iff]

theorem run_append {c c' : Config σ ω ℓ ρ} {es es' : List (Event ω)} :
    obj.run c (es ++ es') = some c' ↔ ∃ c₁, obj.run c es = some c₁ ∧ obj.run c₁ es' = some c' := by
  simp [run, foldlM_append, bind_eq_some_iff]

theorem running_of_run {P : ω → ℓ → Prop} (henter : ∀ op, P op (obj.enter op))
    (hstep : ∀ {op l s s' l'}, P op l → obj.step l s = (s', .inl l') → P op l') {es : List (Event ω)}
    {c : Config σ ω ℓ ρ} (h : obj.run (init s) es = some c) {i : ℕ} (hrun : c.calls i = .running op l) : P op l := by
  induction es using reverseRecOn generalizing c i op l with
  | nil =>
    obtain rfl : init s = c := by simpa [run] using h
    cases hrun
  | append_singleton es e ih =>
    obtain ⟨c₁, hrun₁, hnext⟩ := (run_concat obj).mp h
    match e with
    | .call j op' =>
      obtain ⟨-, rfl⟩ := next?_call hnext
      rw [Config.set_calls] at hrun
      split at hrun
      · obtain ⟨rfl, rfl⟩ : op' = op ∧ obj.enter op' = l := by simpa using hrun
        exact henter op'
      · exact ih hrun₁ hrun
    | .step j =>
      obtain ⟨op', l₁, hrun', ⟨s₁, l', hl, rfl⟩ | ⟨s₁, r, -, rfl⟩⟩ := next?_step hnext <;>
        rw [Config.set_calls] at hrun <;> split at hrun
      · obtain ⟨rfl, rfl⟩ : op' = op ∧ l' = l := by simpa using hrun
        exact hstep (ih hrun₁ hrun') hl
      · exact ih hrun₁ hrun
      · cases hrun
      · exact ih hrun₁ hrun
    | .ret j =>
      obtain ⟨op', r, -, rfl⟩ := next?_ret hnext
      rw [Config.set_calls] at hrun
      split at hrun
      · cases hrun
      · exact ih hrun₁ hrun

theorem exists_step_of_run {P : σ → Prop} {c c' : Config σ ω ℓ ρ} {es : List (Event ω)}
    (h : obj.run c es = some c') (hstart : ¬P c.state) (hend : P c'.state) :
    ∃ before i after c₁ op l s x, es = before ++ .step i :: after ∧ obj.run c before = some c₁ ∧
      c₁.calls i = .running op l ∧ obj.step l c₁.state = (s, x) ∧ ¬P c₁.state ∧ P s := by
  induction es using reverseRecOn generalizing c' with
  | nil =>
    obtain rfl : c = c' := by simpa [run] using h
    exact absurd hend hstart
  | append_singleton es e ih =>
    obtain ⟨c₁, hrun, hnext⟩ := (run_concat obj).mp h
    by_cases hP : P c₁.state
    · obtain ⟨before, i, after, c₂, op, l, s, x, rfl, hc₂⟩ := ih hrun hP
      exact ⟨before, i, after ++ [e], c₂, op, l, s, x, by simp, hc₂⟩
    · match e with
      | .call j op =>
        obtain ⟨-, rfl⟩ := next?_call hnext
        exact absurd hend hP
      | .ret j =>
        obtain ⟨op, r, -, rfl⟩ := next?_ret hnext
        exact absurd hend hP
      | .step j =>
        obtain ⟨op, l, hj, ⟨s, l', hstep, rfl⟩ | ⟨s, r, hstep, rfl⟩⟩ := next?_step hnext
        · exact ⟨es, j, [], c₁, op, l, s, _, rfl, hrun, hj, hstep, hP, hend⟩
        · exact ⟨es, j, [], c₁, op, l, s, _, rfl, hrun, hj, hstep, hP, hend⟩

/-! ### Calls that take effect with their last step -/

section LastStep

variable {obj}

/-- What the events so far say about a call. -/
structure EventsOk (es : List (Event ω)) (c : Config σ ω ℓ ρ) : Prop where
  returned : ∀ i, Event.ret i ∈ es → ∃ op r, c.calls i = .done op r true
  made : ∀ i op, Event.call i op ∈ es → c.calls i ≠ .unused

variable {e : Event ω} {s : σ} {i : ℕ} {order : List (ℕ × ω × ρ)}

theorem EventsOk.next {es : List (Event ω)} {c c' : Config σ ω ℓ ρ} (h : EventsOk es c)
    (hnext : obj.next? c e = some c') : EventsOk (es ++ [e]) c' := by
  -- a call whose status the event does not change
  have hkeep : ∀ {i j : ℕ} {st : Status ω ℓ ρ} {s : σ}, j ≠ i →
      (Config.set ⟨s, c.calls⟩ i st).calls j = c.calls j := fun hj => by rw [Config.set_calls, if_neg hj]
  have hself : ∀ {i : ℕ} {st : Status ω ℓ ρ} {s : σ}, (Config.set ⟨s, c.calls⟩ i st).calls i = st := by
    intro i st s
    rw [Config.set_calls, if_pos rfl]
  match e with
  | .call i op =>
    obtain ⟨hun, rfl⟩ := next?_call hnext
    constructor
    · intro j hj
      have hj' : Event.ret j ∈ es := by simpa using hj
      obtain ⟨op', r, hdone⟩ := h.returned j hj'
      have hji : j ≠ i := by rintro rfl; rw [hun] at hdone; cases hdone
      exact ⟨op', r, (hkeep hji).trans hdone⟩
    · intro j op' hj
      by_cases hji : j = i
      · rw [hji, hself]
        exact nofun
      · rw [hkeep hji]
        exact h.made j op' (by simpa [hji] using hj)
  | .step i =>
    obtain ⟨op, l, hrun, hcases⟩ := next?_step hnext
    have hst : ∃ s st, st ≠ .unused ∧ c' = Config.set ⟨s, c.calls⟩ i st := by
      rcases hcases with ⟨s, l', -, rfl⟩ | ⟨s, r, -, rfl⟩
      · exact ⟨s, .running op l', nofun, rfl⟩
      · exact ⟨s, .done op r false, nofun, rfl⟩
    obtain ⟨s, st, hst, rfl⟩ := hst
    constructor
    · intro j hj
      obtain ⟨op', r, hdone⟩ := h.returned j (by simpa using hj)
      have hji : j ≠ i := by rintro rfl; rw [hrun] at hdone; cases hdone
      exact ⟨op', r, (hkeep hji).trans hdone⟩
    · intro j op' hj
      by_cases hji : j = i
      · rwa [hji, hself]
      · rw [hkeep hji]
        exact h.made j op' (by simpa using hj)
  | .ret i =>
    obtain ⟨op, r, hdone, rfl⟩ := next?_ret hnext
    constructor
    · intro j hj
      by_cases hji : j = i
      · exact ⟨op, r, by rw [hji, hself]⟩
      · obtain ⟨op', r', hdone'⟩ := h.returned j (by simpa [hji] using hj)
        exact ⟨op', r', (hkeep hji).trans hdone'⟩
    · intro j op' hj
      by_cases hji : j = i
      · rw [hji, hself]
        exact nofun
      · rw [hkeep hji]
        exact h.made j op' (by simpa using hj)

theorem eventsOk_of_run {es : List (Event ω)} {c : Config σ ω ℓ ρ}
    (h : obj.run (init s) es = some c) : EventsOk es c := by
  induction es using reverseRecOn generalizing c with
  | nil =>
    obtain rfl : init s = c := by simpa [run] using h
    exact ⟨nofun, nofun⟩
  | append_singleton es e ih =>
    obtain ⟨c₁, hrun, hnext⟩ := (run_concat obj).mp h
    exact (ih hrun).next hnext

theorem precedes_concat {es : List (Event ω)} {j : ℕ} :
    Precedes (es ++ [e]) i j ↔ Precedes es i j ∨ ∃ op, e = .call j op ∧ Event.ret i ∈ es := by
  have hpair : ∀ a b : Event ω, [a, b].Sublist (es ++ [e]) ↔ [a, b].Sublist es ∨ e = b ∧ a ∈ es := by
    intro a b
    rw [← reverse_sublist, reverse_append, reverse_singleton, singleton_append]
    rw [show [a, b].reverse = [b, a] from rfl, sublist_cons_iff]
    rw [show [b, a] = [a, b].reverse from rfl, reverse_sublist]
    constructor
    · rintro (h | ⟨r, hr, hsub⟩)
      · exact .inl h
      · simp only [reverse_cons, reverse_nil, nil_append, cons_append, List.cons.injEq] at hr
        obtain ⟨rfl, rfl⟩ := hr
        exact .inr ⟨rfl, by simpa using hsub⟩
    · rintro (h | ⟨rfl, ha⟩)
      · exact .inl h
      · exact .inr ⟨[a], rfl, by simpa using ha⟩
  simp only [Precedes, hpair, exists_or]

/-- A call takes effect with its last step: before it the state stays as it is, and the call run alone from
there does the same. -/
def EffectAtLast (obj : CallObject σ ω ℓ ρ) (c : Config σ ω ℓ ρ) (i : ℕ) : Prop :=
  ∀ op l, c.calls i = .running op l →
    (∀ s l', obj.step l c.state = (s, .inl l') → s = c.state) ∧
    ∀ s r, obj.step l c.state = (s, .inr r) → obj.Alone (obj.enter op) c.state s r

theorem IsLinearization.keep {es : List (Event ω)} {c c' : Config σ ω ℓ ρ}
    (h : obj.IsLinearization s es c order) (hstate : c'.state = c.state)
    (hdone : ∀ i op r, (∃ returned, c'.calls i = .done op r returned) ↔ ∃ returned, c.calls i = .done op r returned)
    (hcall : ∀ i op, e = .call i op → c.calls i = .unused) : obj.IsLinearization s (es ++ [e]) c' order := by
  refine ⟨fun i op r => (h.finished i op r).trans (hdone i op r).symm, h.once, hstate ▸ h.sequential, ?_⟩
  refine h.realTime.imp_of_mem fun {x y} hx _ hxy hprec => ?_
  rcases precedes_concat.mp hprec with hprec | ⟨op, he, -⟩
  · exact hxy hprec
  · obtain ⟨returned, hx'⟩ := (h.finished x.1 x.2.1 x.2.2).mp hx
    rw [hcall x.1 op he] at hx'
    cases hx'

theorem IsLinearization.finish {s' : σ} {es : List (Event ω)} {c : Config σ ω ℓ ρ} {op : ω} {l : ℓ}
    {r : ρ} (h : obj.IsLinearization s es c order) (hok : EventsOk es c)
    (hrun : c.calls i = .running op l) (halone : obj.Alone (obj.enter op) c.state s' r) :
    obj.IsLinearization s (es ++ [.step i]) (Config.set ⟨s', c.calls⟩ i (.done op r false))
      (order ++ [(i, op, r)]) := by
  have hnew : ∀ x ∈ order, x.1 ≠ i := by
    rintro x hx rfl
    obtain ⟨returned, hx'⟩ := (h.finished x.1 x.2.1 x.2.2).mp hx
    rw [hrun] at hx'
    cases hx'
  constructor
  · intro j op' r'
    rw [mem_append, mem_singleton, Config.set_calls]
    by_cases hji : j = i
    · subst hji
      rw [if_pos rfl]
      constructor
      · rintro (hmem | heq)
        · exact absurd rfl (hnew _ hmem)
        · obtain ⟨rfl, rfl⟩ : op' = op ∧ r' = r := by simpa using heq
          exact ⟨false, rfl⟩
      · rintro ⟨returned, heq⟩
        obtain ⟨rfl, rfl, -⟩ : op = op' ∧ r = r' ∧ false = returned := by simpa using heq
        exact .inr rfl
    · rw [if_neg hji, ← h.finished j op' r']
      simp [hji]
  · rw [map_append, nodup_append']
    refine ⟨h.once, nodup_singleton _, fun k hk hk' => ?_⟩
    obtain ⟨x, hx, rfl⟩ := mem_map.mp hk
    exact hnew x hx (by simpa using hk')
  · rw [map_append]
    exact h.sequential.concat halone
  · -- the call has not returned, so it precedes none before it
    have hkeep : ∀ j k, Precedes (es ++ [.step i]) j k → Precedes es j k := fun j k hprec =>
      (precedes_concat.mp hprec).resolve_right fun ⟨_, he, _⟩ => nomatch he
    refine pairwise_append.mpr ⟨h.realTime.imp fun hxy hprec => hxy (hkeep _ _ hprec),
      pairwise_singleton _ _, fun x _ y hy hprec => ?_⟩
    obtain ⟨op', hsub⟩ := hkeep _ _ hprec
    rw [mem_singleton.mp hy] at hsub
    obtain ⟨op₁, r₁, hret⟩ := hok.returned i (hsub.subset mem_cons_self)
    rw [hrun] at hret
    cases hret

theorem IsLinearization.next {es : List (Event ω)} {c c' : Config σ ω ℓ ρ}
    (h : obj.IsLinearization s es c order) (hok : EventsOk es c)
    (hnext : obj.next? c e = some c') (heffect : ∀ i, e = .step i → EffectAtLast obj c i) :
    obj.Linearizable s (es ++ [e]) c' := by
  match e with
  | .call i op =>
    obtain ⟨hun, rfl⟩ := next?_call hnext
    refine ⟨order, h.keep rfl (fun j op' r => ?_) fun j op' he => ?_⟩
    · rw [Config.set_calls]
      split
      · next hji => simp [hji, hun]
      · rfl
    · obtain ⟨rfl, -⟩ : i = j ∧ op = op' := by simpa using he
      exact hun
  | .step i =>
    obtain ⟨op, l, hrun, ⟨s₁, l', hstep, rfl⟩ | ⟨s₁, r, hstep, rfl⟩⟩ := next?_step hnext
    · obtain rfl := (heffect i rfl op l hrun).1 s₁ l' hstep
      refine ⟨order, h.keep rfl (fun j op' r => ?_) nofun⟩
      rw [Config.set_calls]
      split
      · next hji => simp [hji, hrun]
      · rfl
    · exact ⟨_, h.finish hok hrun ((heffect i rfl op l hrun).2 s₁ r hstep)⟩
  | .ret i =>
    obtain ⟨op, r, hdone, rfl⟩ := next?_ret hnext
    refine ⟨order, h.keep rfl (fun j op' r' => ?_) nofun⟩
    rw [Config.set_calls]
    split
    · next hji => simp [hji, hdone]
    · rfl

/-- A run whose calls take effect with their last steps is linearizable. -/
theorem linearizable_of_lastStep {es : List (Event ω)} {c : Config σ ω ℓ ρ} (h : obj.run (init s) es = some c)
    (heffect : ∀ before i after c₁, es = before ++ .step i :: after → obj.run (init s) before = some c₁ →
      EffectAtLast obj c₁ i) : obj.Linearizable s es c := by
  induction es using reverseRecOn generalizing c with
  | nil =>
    obtain rfl : init s = c := by simpa [run] using h
    exact ⟨[], by simp [init], .nil, .nil s, .nil⟩
  | append_singleton es e ih =>
    obtain ⟨c₁, hrun, hnext⟩ := (run_concat obj).mp h
    obtain ⟨order, horder⟩ := ih hrun fun before i after c₂ hes =>
      heffect before i (after ++ [e]) c₂ (by simp [hes])
    exact horder.next (eventsOk_of_run hrun) hnext fun i hi => heffect es i [] c₁ (by rw [hi]) hrun

end LastStep

end CallObject

end DashForge
