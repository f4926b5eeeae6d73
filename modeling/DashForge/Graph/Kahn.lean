import DashForge.Graph.Tarjan

/-!
# Topological placement with cycle breaking

Kahn's algorithm on the vertices `0, …, n - 1`: the smallest vertex that waits on no unplaced
vertex is placed next, where `edge v u` says that `v` waits on `u`. When every unplaced vertex
waits on another one, the smallest vertex that waits on nothing outside its own strongly
connected component is placed (`cycleToBreak?`).

The algorithm is written with its two failure points as `none`: the search for a cycle to break
may find nothing, and a counter of waiting vertices may be decremented below zero. Neither
happens (`isSome_order?`), so `order` is total, and it lists every vertex once (`perm_order`). A
vertex is placed before one it waits on only if that one waits back on it through vertices still
to be placed (`waitsBack_order`).
-/

namespace DashForge.Kahn

open List Option Function

variable (n : ℕ) (edge : ℕ → ℕ → Bool)

/-- The loop state: how many unplaced vertices each vertex waits on, which are placed, and the
output so far. -/
structure State where
  waiting : ℕ → ℕ
  placed : ℕ → Bool
  out : List ℕ

/-- The edges that still matter: those to an unplaced vertex. -/
def live (placed : ℕ → Bool) (v u : ℕ) : Bool := !placed u && edge v u

/-- The unplaced vertices, ascending. -/
def unplaced (placed : ℕ → Bool) : List ℕ := (range n).filter fun v => !placed v

/-- The smallest unplaced vertex all of whose unplaced predecessors share its component. -/
def cycleToBreak? (placed : ℕ → Bool) : Option ℕ :=
  let comp := Tarjan.components n (live edge placed) (unplaced n placed)
  (range n).find? fun v =>
    !placed v && (range n).all fun u => !live edge placed v u || comp u == comp v

/-- The vertices still to be placed that wait on `next`. -/
def State.freed (s : State) (next v : ℕ) : Bool :=
  !update s.placed next true v && edge v next

/-- Put `next` at the end of the output and take it off the counters. -/
def State.place (s : State) (next : ℕ) : State where
  waiting v := if s.freed edge next v then s.waiting v - 1 else s.waiting v
  placed := update s.placed next true
  out := s.out ++ [next]

/-- Place one vertex. -/
def placeNext? (s : State) : Option State := do
  let next ← ((unplaced n s.placed).find? fun v => s.waiting v == 0).or
    (cycleToBreak? n edge s.placed)
  guard ((range n).all fun v => !s.freed edge next v || decide (0 < s.waiting v))
  return s.place edge next

/-- Place `k` vertices, one after the other. -/
def placeTimes? : ℕ → State → Option State
  | 0, s => some s
  | k + 1, s => (placeNext? n edge s).bind (placeTimes? k)

/-- Nothing placed: every vertex waits on all its predecessors. -/
def State.init : State where
  waiting v := (range n).countP (edge v)
  placed _ := false
  out := []

/-- The placement of all vertices, `none` where the algorithm would fail. -/
def order? : Option (List ℕ) :=
  (placeTimes? n edge n (State.init n edge)).map State.out

/-! ### Breaking a cycle -/

variable {n edge}

variable {placed : ℕ → Bool}

@[simp]
theorem mem_unplaced {v : ℕ} : v ∈ unplaced n placed ↔ v < n ∧ placed v = false := by
  simp [unplaced]

/-- `v` waits on `u` through unplaced vertices. -/
abbrev Waits (n : ℕ) (edge : ℕ → ℕ → Bool) (placed : ℕ → Bool) : ℕ → ℕ → Prop :=
  Tarjan.Reach n (live edge placed)

/-- While a vertex is unplaced there is a cycle to break, and every unplaced vertex the chosen
one waits on waits back on it. -/
theorem exists_cycleToBreak?_eq_some (edge : ℕ → ℕ → Bool) (hne : unplaced n placed ≠ []) :
    ∃ v ∈ unplaced n placed, cycleToBreak? n edge placed = some v ∧
      ∀ u ∈ unplaced n placed, edge v u = true → Waits n edge placed u v := by
  have hroots : ∀ r ∈ unplaced n placed, r < n := fun r hr => (mem_unplaced.mp hr).1
  have hlive : ∀ r ∈ unplaced n placed, ∀ u, Tarjan.Edge n (live edge placed) r u →
      u ∈ unplaced n placed := fun r _ u hu => by
    have := hu.2
    simp only [live, Bool.and_eq_true, Bool.not_eq_true'] at this
    exact mem_unplaced.mpr ⟨hu.1, this.1⟩
  obtain ⟨r, hr, hclosed⟩ := Tarjan.exists_closed_component hroots hne hlive
  have hfound : (cycleToBreak? n edge placed).isSome := by
    rw [cycleToBreak?, find?_isSome]
    refine ⟨r, mem_range.mpr (hroots r hr), ?_⟩
    simp only [(mem_unplaced.mp hr).2, Bool.not_false, Bool.true_and, List.all_eq_true,
      mem_range, Bool.or_eq_true, Bool.not_eq_true', beq_iff_eq]
    intro u hu
    cases hl : live edge placed r u with
    | false => exact Or.inl rfl
    | true => exact Or.inr (hclosed u ⟨hu, hl⟩)
  obtain ⟨v, hv⟩ := isSome_iff_exists.mp hfound
  have hvn : v < n := mem_range.mp (mem_of_find?_eq_some hv)
  have hp := find?_some hv
  simp only [Bool.and_eq_true, Bool.not_eq_true', List.all_eq_true, mem_range, Bool.or_eq_true, beq_iff_eq] at hp
  have hvu : v ∈ unplaced n placed := mem_unplaced.mpr ⟨hvn, hp.1⟩
  refine ⟨v, hvu, hv, fun u hu hedge => ?_⟩
  obtain ⟨hun, hup⟩ := mem_unplaced.mp hu
  have hcomp := (hp.2 u hun).resolve_left (by simp [live, hup, hedge])
  obtain ⟨c, hc⟩ := isSome_iff_exists.mp
    (Tarjan.isSome_components hroots (live edge placed) hvu)
  exact Tarjan.reach_of_components_eq hroots (hcomp.trans hc) hc

/-! ### The loop -/

/-- The loop invariant: the counters of unplaced vertices are right, and the output lists the
placed vertices. -/
structure Inv (n : ℕ) (edge : ℕ → ℕ → Bool) (s : State) : Prop where
  waiting_eq : ∀ v ∈ unplaced n s.placed,
    s.waiting v = (range n).countP (live edge s.placed v)
  mem_out : ∀ v, v ∈ s.out ↔ v < n ∧ s.placed v = true
  nodup_out : s.out.Nodup

theorem inv_init : Inv n edge (State.init n edge) where
  waiting_eq v _ := countP_congr fun u _ => by simp [State.init, live]
  mem_out v := by simp [State.init]
  nodup_out := nodup_nil

private theorem countP_eq_add_one {l : List ℕ} (hl : l.Nodup) {p : ℕ → Bool} {x : ℕ} (hx : x ∈ l) (hp : p x = true) :
    l.countP p = l.countP (fun u => !decide (u = x) && p u) + 1 := by
  induction l with
  | nil => simp at hx
  | cons a l ih =>
    rw [nodup_cons] at hl
    by_cases hax : a = x
    · subst hax
      have hcongr : l.countP p = l.countP fun u => !decide (u = a) && p u := by
        refine countP_congr fun u hu => ?_
        have hua : u ≠ a := fun he => hl.1 (he ▸ hu)
        simp [hua]
      simp [hp, ← hcongr]
    · have hxl : x ∈ l := (mem_cons.mp hx).resolve_left (Ne.symm hax)
      simp only [countP_cons, ih hl.2 hxl, hax, decide_false, Bool.not_false, Bool.true_and]
      omega

private theorem countP_live_update {next : ℕ} (hnext : next < n) (hfree : placed next = false) (v : ℕ) :
    (range n).countP (live edge placed v) =
      (range n).countP (live edge (update placed next true) v) + if edge v next then 1 else 0 := by
  have hlive : ∀ u, live edge (update placed next true) v u =
      (!decide (u = next) && live edge placed v u) := fun u => by
    by_cases hu : u = next
    · simp [live, hu]
    · simp [live, hu]
  simp only [funext hlive]
  split_ifs with hedge
  · exact countP_eq_add_one nodup_range (mem_range.mpr hnext)
      (by simp [live, hfree, hedge])
  · refine countP_congr fun u _ => ?_
    by_cases hu : u = next
    · simp [live, hu, hedge]
    · simp [hu]

theorem Inv.placeNext? {s : State} (h : Inv n edge s) (hne : unplaced n s.placed ≠ []) :
    ∃ next ∈ unplaced n s.placed, Kahn.placeNext? n edge s = some (s.place edge next) ∧ Inv n edge (s.place edge next) ∧
      ∀ u ∈ unplaced n s.placed, edge next u = true → Waits n edge s.placed u next := by
  -- the vertex chosen: one that waits on nothing, or a cycle to break
  obtain ⟨next, hmem, hchoice, hback⟩ : ∃ next ∈ unplaced n s.placed,
      ((unplaced n s.placed).find? fun v => s.waiting v == 0).or (cycleToBreak? n edge s.placed)
        = some next ∧ ∀ u ∈ unplaced n s.placed, edge next u = true → Waits n edge s.placed u next := by
    cases hfind : (unplaced n s.placed).find? fun v => s.waiting v == 0 with
    | none =>
      obtain ⟨v, hv, hsome, hback⟩ := exists_cycleToBreak?_eq_some edge hne
      exact ⟨v, hv, by simpa using hsome, hback⟩
    | some v =>
      have hv := mem_of_find?_eq_some hfind
      have hzero : s.waiting v = 0 := by simpa using find?_some hfind
      rw [h.waiting_eq v hv, countP_eq_zero] at hzero
      refine ⟨v, hv, rfl, fun u hu hedge => ?_⟩
      obtain ⟨hun, hup⟩ := mem_unplaced.mp hu
      exact absurd (by simp [live, hup, hedge]) (hzero u (mem_range.mpr hun))
  obtain ⟨hnext, hfree⟩ := mem_unplaced.mp hmem
  -- a vertex that waits on `next` counts it, so no counter underflows
  have hpos : ∀ v, v < n → s.placed v = false → edge v next = true → 0 < s.waiting v := by
    intro v hv hpv hedge
    rw [h.waiting_eq v (mem_unplaced.mpr ⟨hv, hpv⟩), countP_live_update hnext hfree v, hedge]
    simp
  have hguard : ((range n).all fun v =>
      !s.freed edge next v || decide (0 < s.waiting v)) = true := by
    rw [List.all_eq_true]
    intro v hv
    by_cases hvn : v = next
    · simp [State.freed, hvn]
    · cases hpv : s.placed v with
      | true => simp [State.freed, update_of_ne hvn, hpv]
      | false =>
        cases hedge : edge v next with
        | false => simp [State.freed, hedge]
        | true => simp [hpos v (mem_range.mp hv) hpv hedge]
  refine ⟨next, hmem, ?_, ?_, hback⟩
  · simp only [Kahn.placeNext?, hchoice, bind_eq_bind, bind_some, hguard]
    rfl
  · constructor
    case waiting_eq =>
      intro v hv
      obtain ⟨hvn, hpv⟩ := mem_unplaced.mp hv
      have hne' : v ≠ next := by
        rintro rfl
        simp [State.place] at hpv
      have hpv' : s.placed v = false := by
        simpa [State.place, update_of_ne hne'] using hpv
      have hcount := h.waiting_eq v (mem_unplaced.mpr ⟨hvn, hpv'⟩)
      rw [countP_live_update hnext hfree v] at hcount
      simp only [State.place, State.freed, update_of_ne hne', hpv', Bool.not_false, Bool.true_and]
      split_ifs at hcount ⊢ <;> omega
    case mem_out =>
      intro v
      rw [State.place, mem_append, h.mem_out, mem_singleton]
      by_cases hvn : v = next
      · simp [hvn, hnext]
      · simp [hvn]
    case nodup_out =>
      rw [State.place, nodup_append]
      refine ⟨h.nodup_out, nodup_singleton _, ?_⟩
      rintro a ha b hb rfl
      rw [mem_singleton] at hb
      rw [hb, h.mem_out, hfree] at ha
      exact absurd ha.2 (by simp)

theorem perm_unplaced {next : ℕ} (hnext : next ∈ unplaced n placed) :
    (unplaced n placed).Perm (next :: unplaced n (update placed next true)) := by
  have hnodup : ∀ p, (unplaced n p).Nodup := fun p => nodup_range.filter _
  refine (perm_ext_iff_of_nodup (hnodup _) (nodup_cons.mpr ⟨?_, hnodup _⟩)).mpr ?_
  · simp
  · intro v
    obtain ⟨hn, hp⟩ := mem_unplaced.mp hnext
    by_cases hv : v = next
    · simp [hv, hn, hp]
    · simp [hv]

/-- In `l`, a vertex stands before one it waits on only if that one waits back on it through
vertices that do not stand earlier. -/
def WaitsBack (edge : ℕ → ℕ → Bool) (l : List ℕ) : Prop :=
  ∀ l₁ v l₂, l = l₁ ++ v :: l₂ → ∀ u ∈ l₂, edge v u = true →
    Relation.ReflTransGen (fun a b => b ∈ v :: l₂ ∧ edge a b = true) u v

/-- The whole loop places exactly the unplaced vertices. -/
theorem Inv.placeTimes? {k : ℕ} {s : State} (h : Inv n edge s) (hk : (unplaced n s.placed).length = k) :
    ∃ l, l.Perm (unplaced n s.placed) ∧ WaitsBack edge l ∧
      (Kahn.placeTimes? n edge k s).map State.out = some (s.out ++ l) := by
  induction k generalizing s with
  | zero =>
    rw [length_eq_zero_iff] at hk
    refine ⟨[], by rw [hk], fun l₁ v l₂ hl => ?_, by simp [Kahn.placeTimes?]⟩
    simp at hl
  | succ k ih =>
    have hne : unplaced n s.placed ≠ [] := ne_nil_of_length_eq_add_one hk
    obtain ⟨next, hmem, hstep, hinv, hback⟩ := h.placeNext? hne
    have hperm : (unplaced n s.placed).Perm (next :: unplaced n (s.place edge next).placed) :=
      perm_unplaced hmem
    have hlen := hperm.length_eq
    rw [hk, length_cons] at hlen
    obtain ⟨l, hl, hwait, hrun⟩ := ih hinv (by omega)
    have hall : (next :: l).Perm (unplaced n s.placed) := (hl.cons next).trans hperm.symm
    refine ⟨next :: l, hall, ?_, ?_⟩
    · intro l₁ v l₂ hsplit u hu hedge
      cases l₁ with
      | nil =>
        obtain ⟨rfl, rfl⟩ := List.cons.inj hsplit
        have hreach := hback u (hall.mem_iff.mp (mem_cons_of_mem _ hu)) hedge
        refine Relation.ReflTransGen.mono ?_ _ _ hreach
        rintro a b ⟨hb, hab⟩
        simp only [live, Bool.and_eq_true, Bool.not_eq_true'] at hab
        exact ⟨hall.mem_iff.mpr (mem_unplaced.mpr ⟨hb, hab.1⟩), hab.2⟩
      | cons a l₁ => exact hwait l₁ v l₂ (List.cons.inj hsplit).2 u hu hedge
    · rw [Kahn.placeTimes?, hstep, bind_some, hrun]
      simp [State.place]

/-! ### The placement -/

private theorem unplaced_init : unplaced n (State.init n edge).placed = range n := by
  simp [unplaced, State.init]

theorem exists_order?_eq_some (n : ℕ) (edge : ℕ → ℕ → Bool) :
    ∃ l, order? n edge = some l ∧ l.Perm (range n) ∧ WaitsBack edge l := by
  obtain ⟨l, hperm, hwait, hrun⟩ := (inv_init : Inv n edge _).placeTimes?
    (by rw [unplaced_init, length_range])
  rw [unplaced_init] at hperm
  exact ⟨l, by simpa [order?, State.init] using hrun, hperm, hwait⟩

/-- The algorithm never fails. -/
theorem isSome_order? (n : ℕ) (edge : ℕ → ℕ → Bool) : (order? n edge).isSome := by
  obtain ⟨l, hl, -, -⟩ := exists_order?_eq_some n edge
  simp [hl]

/-- The order in which the vertices are placed. -/
def order (n : ℕ) (edge : ℕ → ℕ → Bool) : List ℕ :=
  (order? n edge).get (isSome_order? n edge)

theorem perm_order (n : ℕ) (edge : ℕ → ℕ → Bool) : (order n edge).Perm (range n) := by
  obtain ⟨l, hl, hperm, -⟩ := exists_order?_eq_some n edge
  simpa [order, hl] using hperm

theorem waitsBack_order (n : ℕ) (edge : ℕ → ℕ → Bool) : WaitsBack edge (order n edge) := by
  obtain ⟨l, hl, -, hwait⟩ := exists_order?_eq_some n edge
  simpa [order, hl] using hwait

end DashForge.Kahn
