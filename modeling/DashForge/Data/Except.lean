import Mathlib.Data.List.Forall2

/-!
# Computations that may fail

How a successful computation in `Except` is taken apart: a bind succeeds exactly when its
steps do, a check when its condition fails, a `mapM` when every element does.
-/

namespace DashForge

open List Option Except

universe u v w

variable {ε : Type v} {α β : Type u} {ι : Type w}

/-- The value of an option, or a failure. -/
def okOr (o : Option α) (err : ε) : Except ε α := o.elim (.error err) .ok

variable {err : ε} {x : Except ε α} {P : ε → Prop} {r : ι → β → Prop}

variable {o : Option α} {a : α} {p : Prop} {l : List ι} {out : List β} {w : α → ι} {g : ι → β}

@[simp]
theorem okOr_eq_ok : okOr o err = .ok a ↔ o = some a := by
  cases o <;> simp [okOr]

@[simp]
theorem pure_eq_ok {b : α} : (pure a : Except ε α) = .ok b ↔ a = b := by
  simp [pure, Except.pure]

@[simp]
theorem ok_bind (a : α) (f : α → Except ε β) : (ok a >>= f) = f a := rfl

@[simp]
theorem error_bind (e : ε) (f : α → Except ε β) : (error e >>= f) = .error e := rfl

theorem bind_eq_ok {f : α → Except ε β} {b : β} : (x >>= f) = .ok b ↔ ∃ a, x = .ok a ∧ f a = .ok b := by
  cases x <;> simp [bind, Except.bind]

theorem bind_eq_some {f : α → Option β} {b : β} : (o >>= f) = some b ↔ ∃ a, o = some a ∧ f a = some b :=
  bind_eq_some_iff

theorem some_bind (a : α) (f : α → Option β) : (some a >>= f) = f a := rfl

theorem map_eq_ok {f : α → β} {b : β} : x.map f = .ok b ↔ ∃ a, x = .ok a ∧ f a = b := by
  cases x <;> simp [Except.map]

/-- Fail when `p` holds. -/
def refuseIf (p : Prop) [Decidable p] (err : ε) : Except ε Unit :=
  if p then .error err else .ok ()

@[simp]
theorem refuseIf_eq_ok [Decidable p] {u : Unit} : refuseIf p err = .ok u ↔ ¬p := by
  unfold refuseIf
  split <;> simp [*]

/-- A computation that fails with errors only of which `P` holds. -/
def FailsIn (P : ε → Prop) (x : Except ε α) : Prop := ∀ e, x = .error e → P e

theorem failsIn_ok (P : ε → Prop) (a : α) : FailsIn P (.ok a) := fun _ h => by cases h

theorem failsIn_error {e : ε} (h : P e) : FailsIn P (.error e : Except ε α) := fun _ he => by
  rwa [← error.inj he]

theorem FailsIn.bind {f : α → Except ε β} (hx : FailsIn P x)
    (hf : ∀ a, x = .ok a → FailsIn P (f a)) : FailsIn P (x >>= f) := by
  cases x with
  | error e => exact failsIn_error (hx e rfl)
  | ok a => exact hf a rfl

theorem failsIn_okOr (h : P err) : FailsIn P (okOr o err) := by
  cases o with
  | none => exact failsIn_error h
  | some a => exact failsIn_ok P a

theorem failsIn_refuseIf [Decidable p] (h : P err) : FailsIn P (refuseIf p err) := by
  unfold refuseIf
  split
  · exact failsIn_error h
  · exact failsIn_ok P ()

theorem refuseIf_bind_eq_ok {β : Type} [Decidable p] {f : Unit → Except ε β} {b : β} :
    (refuseIf p err >>= f) = .ok b ↔ ¬p ∧ f () = .ok b := by
  rw [bind_eq_ok]
  constructor
  · rintro ⟨u, hu, hf⟩
    exact ⟨refuseIf_eq_ok.mp hu, hf⟩
  · rintro ⟨hp, hf⟩
    exact ⟨(), refuseIf_eq_ok.mpr hp, hf⟩

/-- A successful `mapM` maps every element successfully. -/
theorem map_eq_map_ok {f : ι → Except ε β} (h : l.mapM f = .ok out) : l.map f = out.map .ok := by
  induction l generalizing out with
  | nil =>
    rw [mapM_nil, pure_eq_ok] at h
    simp [← h]
  | cons a l ih =>
    rw [mapM_cons, bind_eq_ok] at h
    obtain ⟨b, hb, h⟩ := h
    obtain ⟨rest, hrest, h⟩ := bind_eq_ok.mp h
    rw [pure_eq_ok] at h
    rw [← h, map_cons, map_cons, hb, ih hrest]

theorem mapM_map_eq_ok {f : ι → Except ε α} {p : α → Prop} {l out : List α}
    (h : ∀ a ∈ l, ∀ b, f (w a) = .ok b ↔ b = a ∧ p a) : (l.map w).mapM f = .ok out ↔ out = l ∧ ∀ a ∈ l, p a := by
  induction l generalizing out with
  | nil => simp [eq_comm (a := [])]
  | cons a l ih =>
    simp only [map_cons, mapM_cons, bind_eq_ok, pure_eq_ok, h a mem_cons_self,
      ih fun b hb => h b (mem_cons_of_mem a hb), forall_mem_cons]
    constructor
    · rintro ⟨b, ⟨rfl, hb⟩, rest, ⟨rfl, hrest⟩, rfl⟩
      exact ⟨rfl, hb, hrest⟩
    · rintro ⟨rfl, ha, hl⟩
      exact ⟨a, ⟨rfl, ha⟩, l, ⟨rfl, hl⟩, rfl⟩

theorem mem_filterM {γ : Type} {f : γ → Except ε Bool} {l out : List γ} (h : l.filterM f = .ok out) {a : γ} :
    (a ∈ l → ∃ b, f a = .ok b) ∧ (a ∈ out ↔ a ∈ l ∧ f a = .ok true) := by
  have hgo : ∀ (l acc out : List γ), List.filterAuxM f l acc = .ok out →
      (a ∈ l → ∃ b, f a = .ok b) ∧ (a ∈ out ↔ a ∈ acc ∨ a ∈ l ∧ f a = .ok true) := by
    intro l
    induction l with
    | nil =>
      intro acc out h
      obtain rfl := pure_eq_ok.mp h
      simp
    | cons x l ih =>
      intro acc out h
      obtain ⟨b, hb, h⟩ := bind_eq_ok.mp h
      obtain ⟨hok, hmem⟩ := ih _ _ h
      constructor
      · intro ha
        rcases mem_cons.mp ha with rfl | ha
        · exact ⟨b, hb⟩
        · exact hok ha
      · rw [hmem]
        by_cases hax : a = x
        · subst hax
          cases b <;> simp [hb]
        · cases b <;> simp [hax]
  obtain ⟨mid, hmid, h⟩ := bind_eq_ok.mp h
  obtain rfl := pure_eq_ok.mp h
  simpa using hgo l [] mid hmid

/-- A `mapM` whose every step gives something is a map. -/
theorem mapM_eq_some_map {f : ι → Option β} (h : ∀ a ∈ l, f a = some (g a)) : l.mapM f = some (l.map g) := by
  induction l with
  | nil => rfl
  | cons a l ih =>
    rw [mapM_cons, h a mem_cons_self, ih fun b hb => h b (mem_cons_of_mem a hb)]
    rfl

/-- A `mapM` whose every step succeeds is a map. -/
theorem mapM_eq_ok_map {f : ι → Except ε β} (h : ∀ a ∈ l, f a = .ok (g a)) : l.mapM f = .ok (l.map g) := by
  induction l with
  | nil => rfl
  | cons a l ih =>
    rw [mapM_cons, h a mem_cons_self, ok_bind, ih fun b hb => h b (mem_cons_of_mem a hb), ok_bind]
    rfl

theorem mapM_map_eq_some {f : ι → Option α} {p : α → Prop} {l out : List α}
    (h : ∀ a ∈ l, ∀ b, f (w a) = some b ↔ b = a ∧ p a) : (l.map w).mapM f = some out ↔ out = l ∧ ∀ a ∈ l, p a := by
  induction l generalizing out with
  | nil => simp [eq_comm]
  | cons a l ih =>
    simp only [map_cons, mapM_cons, bind_eq_bind, bind_eq_some_iff, Option.pure_def,
      some.injEq, h a mem_cons_self, ih fun b hb => h b (mem_cons_of_mem a hb), forall_mem_cons]
    constructor
    · rintro ⟨b, ⟨rfl, hb⟩, rest, ⟨rfl, hrest⟩, rfl⟩
      exact ⟨rfl, hb, hrest⟩
    · rintro ⟨rfl, ha, hl⟩
      exact ⟨a, ⟨rfl, ha⟩, l, ⟨rfl, hl⟩, rfl⟩

theorem map_eq_map_some {f : ι → Option β} (h : l.mapM f = some out) : l.map f = out.map some := by
  induction l generalizing out with
  | nil =>
    simp only [mapM_nil, Option.pure_def, some.injEq] at h
    simp [← h]
  | cons a l ih =>
    simp only [mapM_cons, bind_eq_bind, bind_eq_some_iff, Option.pure_def, some.injEq] at h
    obtain ⟨b, hb, rest, hrest, rfl⟩ := h
    rw [map_cons, map_cons, hb, ih hrest]

theorem exists_of_mem_mapM_some {f : ι → Option β} (h : l.mapM f = some out)
    {b : β} (hb : b ∈ out) : ∃ a ∈ l, f a = some b := by
  have hmem : some b ∈ l.map f := map_eq_map_some h ▸ mem_map_of_mem hb
  exact mem_map.mp hmem

theorem exists_forall₂_of_mapM {f : ι → Option β}
    (h : ∀ a ∈ l, ∃ b, f a = some b ∧ r a b) : ∃ out, l.mapM f = some out ∧ List.Forall₂ r l out := by
  induction l with
  | nil => exact ⟨[], rfl, .nil⟩
  | cons a l ih =>
    obtain ⟨b, hb, hr⟩ := h a mem_cons_self
    obtain ⟨out, hout, hall⟩ := ih fun x hx => h x (mem_cons_of_mem a hx)
    exact ⟨b :: out, by simp [mapM_cons, hb, hout], .cons hr hall⟩

theorem map_map_mapM {γ : Type u} (f : ι → Option β) (g : β → γ) (l : List ι) :
    (l.mapM f).map (map g) = l.mapM fun a => (f a).map g := by
  induction l with
  | nil => rfl
  | cons a l ih =>
    rw [mapM_cons, mapM_cons, ← ih]
    cases f a with
    | none => rfl
    | some b => cases l.mapM f <;> rfl

theorem exists_left_of_forall₂ (h : List.Forall₂ r l out) {b : β} (hb : b ∈ out) : ∃ a ∈ l, r a b := by
  induction h with
  | nil => simp at hb
  | @cons a b' l out hab _ ih =>
    rcases mem_cons.mp hb with rfl | hb
    · exact ⟨a, mem_cons_self, hab⟩
    · obtain ⟨a', ha', hr⟩ := ih hb
      exact ⟨a', mem_cons_of_mem a ha', hr⟩

theorem countP_eq_of_forall₂ (h : List.Forall₂ r l out) {p : ι → Bool} {q : β → Bool}
    (hpq : ∀ a ∈ l, ∀ b, r a b → p a = q b) : l.countP p = out.countP q := by
  induction h with
  | nil => rfl
  | @cons a b l out hab _ ih =>
    rw [countP_cons, countP_cons, hpq a mem_cons_self b hab,
      ih fun x hx => hpq x (mem_cons_of_mem a hx)]

theorem countP_eq_one {p : ι → Bool} (hex : ∃ a ∈ l, p a)
    (hpair : l.Pairwise fun a b => p a → ¬p b) : l.countP p = 1 := by
  induction l with
  | nil => simp at hex
  | cons a l ih =>
    obtain ⟨ha, hl⟩ := pairwise_cons.mp hpair
    by_cases hp : p a
    · have hnone : l.countP p = 0 := countP_eq_zero.mpr fun b hb => ha b hb hp
      rw [countP_cons_of_pos hp, hnone]
    · obtain ⟨b, hb, hpb⟩ := hex
      rw [countP_cons_of_neg hp]
      refine ih ⟨b, ?_, hpb⟩ hl
      exact (mem_cons.mp hb).resolve_left fun hba => hp (hba ▸ hpb)

theorem exists_of_mem_mapM {f : ι → Except ε β}
    (h : l.mapM f = .ok out) {b : β} (hb : b ∈ out) : ∃ a ∈ l, f a = .ok b := by
  have hmem : ok b ∈ l.map f := map_eq_map_ok h ▸ mem_map_of_mem hb
  exact mem_map.mp hmem

/-- The elements of a successful `mapM` over a range. -/
theorem getElem?_mapM_range {f : ℕ → Except ε β} {n : ℕ} (h : (range n).mapM f = .ok out) :
    out.length = n ∧ ∀ i b, out[i]? = some b → f i = .ok b := by
  have hmap := map_eq_map_ok h
  have hlen : out.length = n := by simpa using (congrArg List.length hmap).symm
  refine ⟨hlen, fun i b hi => ?_⟩
  have hlt : i < n := hlen ▸ (List.getElem?_eq_some_iff.mp hi).1
  have hget := congrArg (·[i]?) hmap
  simpa [hi, hlt] using hget

end DashForge
