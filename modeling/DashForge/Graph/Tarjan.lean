import Mathlib.Data.Finset.Max
import Mathlib.Data.List.Pairwise
import Mathlib.Algebra.Ring.Nat

/-!
# Strongly connected components with an explicit call stack

Tarjan's algorithm on the vertices `0, …, n - 1` of a finite directed graph given by a Boolean
`edge`, written as a loop over an explicit call stack of `(vertex, next neighbour)` frames, so
that no recursion depth is involved. `step` is one turn of the loop, `run` repeats it while the
call stack is non-empty, and `components` starts it at every unvisited root.

`Inv` is the loop invariant. It says which vertices sit on the component stack, that the low
links of finished vertices point into that stack, and that every finished component is closed
under edges up to components numbered before it. `run` needs at most `n * (n + 2)` turns
(`call_run_eq_nil`), and the result is read off by two theorems: an edge never leads to a
component numbered later (`components_le_of_edge`), hence some component has no edge out of it
(`exists_closed_component`), and two vertices of one component reach each other
(`reach_of_components_eq`).
-/

namespace DashForge.Tarjan

open Relation Function
open List Option

/-- The working state of the algorithm. The stacks hold their top first. -/
structure State where
  /-- The visit number of a vertex, once it has one. -/
  index : ℕ → Option ℕ
  /-- The smallest visit number known to be reachable inside the component stack. -/
  low : ℕ → ℕ
  /-- The component of a finished vertex. -/
  comp : ℕ → Option ℕ
  onStack : ℕ → Bool
  stack : List ℕ
  nextIndex : ℕ
  comps : ℕ
  /-- `(vertex, next neighbour to look at)`. -/
  call : List (ℕ × ℕ)

/-- Nothing visited yet. -/
def State.init : State where
  index _ := none
  low _ := 0
  comp _ := none
  onStack _ := false
  stack := []
  nextIndex := 0
  comps := 0
  call := []

/-- Number `v` and push it on both stacks. -/
def State.visit (s : State) (v : ℕ) : State :=
  { s with
    index := update s.index v (some s.nextIndex)
    low := update s.low v s.nextIndex
    onStack := update s.onStack v true
    stack := v :: s.stack
    nextIndex := s.nextIndex + 1
    call := (v, 0) :: s.call }

/-- Lower the low link of `v` to at most `i`. -/
def State.lower (s : State) (v i : ℕ) : State :=
  { s with low := update s.low v (min (s.low v) i) }

/-- Pop the component stack down to and including `v` into the current component. -/
def State.popTo (v : ℕ) : List ℕ → State → State
  | [], s => { s with stack := [] }
  | w :: rest, s =>
    let s' := { s with
      onStack := update s.onStack w false
      comp := update s.comp w (some s.comps)
      stack := rest }
    if w = v then s' else State.popTo v rest s'

/-- Close the component of `v` and start the next one. -/
def State.close (s : State) (v : ℕ) : State :=
  let s' := State.popTo v s.stack s
  { s' with comps := s'.comps + 1 }

/-- Pop the frame of `v`, hand its low link to the frame below, and close its component when
`v` is the first vertex of it. -/
def State.finish (s : State) (v : ℕ) (rest : List (ℕ × ℕ)) : State :=
  let s' : State := match rest with
    | [] => { s with call := [] }
    | (parent, _) :: _ => { s with call := rest }.lower parent (s.low v)
  if s'.index v = some (s'.low v) then s'.close v else s'

variable (n : ℕ) (edge : ℕ → ℕ → Bool)

/-- The first neighbour of `v` from position `start` on that is unvisited or on the stack. -/
def nextNeighbour (s : State) (v start : ℕ) : Option ℕ :=
  (List.range' start (n - start)).find? fun u =>
    edge v u && (s.index u == none || s.onStack u)

/-- One turn of the loop: look at the next neighbour of the top frame, or finish it. -/
def step (s : State) : State :=
  match s.call with
  | [] => s
  | (v, start) :: rest =>
    match nextNeighbour n edge s v start with
    | none => s.finish v rest
    | some u =>
      let s' : State := { s with call := (v, u + 1) :: rest }
      match s.index u with
      | none => s'.visit u
      | some i => s'.lower v i

/-- Repeat `step` while a frame is left, at most `fuel` times. -/
def run : ℕ → State → State
  | 0, s => s
  | fuel + 1, s => if s.call.isEmpty then s else run fuel (step n edge s)

/-- Explore everything `root` reaches, unless it was already visited. -/
def visitRoot (s : State) (root : ℕ) : State :=
  if s.index root = none then run n edge (n * (n + 2)) (s.visit root) else s

/-- The component of each vertex reachable from `roots`. -/
def components (roots : List ℕ) : ℕ → Option ℕ :=
  (roots.foldl (visitRoot n edge) State.init).comp

/-! ### The loop invariant -/

/-- The edge relation between vertices of the graph. -/
def Edge (v u : ℕ) : Prop := u < n ∧ edge v u = true

/-- Reachability along edges. -/
abbrev Reach : ℕ → ℕ → Prop := ReflTransGen (Edge n edge)

/-- The visit number of a visited vertex. -/
def State.num (s : State) (v : ℕ) : ℕ := (s.index v).getD 0

/-- The invariant of the loop. -/
structure Inv (s : State) : Prop where
  index_lt : ∀ v i, s.index v = some i → i < s.nextIndex
  stack_visited : ∀ v ∈ s.stack, (s.index v).isSome
  onStack_iff : ∀ v, s.onStack v = true ↔ v ∈ s.stack
  stack_sorted : s.stack.Pairwise fun a b => s.num b < s.num a
  call_sorted : s.call.Pairwise fun a b => s.num b.1 < s.num a.1
  call_mem : ∀ f ∈ s.call, f.1 ∈ s.stack
  comp_iff : ∀ v, (s.comp v).isSome ↔ (s.index v).isSome ∧ v ∉ s.stack
  comp_lt : ∀ v c, s.comp v = some c → c < s.comps
  /-- An edge out of a finished component leads to one closed no later. -/
  done_edge : ∀ v u c, s.comp v = some c → Edge n edge v u → ∃ c' ≤ c, s.comp u = some c'
  /-- The members of a finished component reach each other. -/
  done_reach : ∀ v u c, s.comp v = some c → s.comp u = some c → Reach n edge v u
  low_le : ∀ v ∈ s.stack, s.low v ≤ s.num v
  /-- A low link is the number of a vertex on the stack that is reachable. -/
  low_reach : ∀ v ∈ s.stack, ∃ x ∈ s.stack, s.num x = s.low v ∧ Reach n edge v x
  /-- A neighbour already looked at is visited, and counted by the low link while it is on the
  stack. A vertex with no frame has looked at all its neighbours. -/
  explored : ∀ v ∈ s.stack, ∀ u, Edge n edge v u → (∀ f, (v, f) ∈ s.call → u < f) →
    (s.index u).isSome ∧ (u ∈ s.stack → s.low v ≤ s.num u)
  /-- A finished vertex on the stack can still leave its subtree downwards, and the nearest
  open frame below it knows how far. -/
  parent : ∀ v ∈ s.stack, (∀ f, (v, f) ∉ s.call) → s.low v < s.num v ∧
    ∃ p ∈ s.call, s.num p.1 < s.num v ∧ s.low p.1 ≤ s.low v ∧
      ∀ q ∈ s.call, s.num q.1 < s.num v → s.num q.1 ≤ s.num p.1
  /-- An open frame reaches everything pushed after it. -/
  frame_reach : ∀ f ∈ s.call, ∀ x ∈ s.stack, s.num f.1 ≤ s.num x → Reach n edge f.1 x

variable {n edge}

theorem inv_init : Inv n edge State.init := by
  constructor <;> simp [State.init]

variable {s : State} {v : ℕ}

theorem Inv.num_lt (h : Inv n edge s) (hv : (s.index v).isSome) : s.num v < s.nextIndex := by
  obtain ⟨i, hi⟩ := isSome_iff_exists.mp hv
  simpa [State.num, hi] using h.index_lt v i hi

theorem Inv.num_inj (h : Inv n edge s) {x y : ℕ} (hx : x ∈ s.stack)
    (hy : y ∈ s.stack) (hxy : s.num x = s.num y) : x = y := by
  by_contra hne
  have hpw : s.stack.Pairwise fun a b => s.num a ≠ s.num b := h.stack_sorted.imp fun hab => hab.ne'
  have hsymm : Std.Symm fun a b => s.num a ≠ s.num b := ⟨fun _ _ hab => hab.symm⟩
  exact hpw.forall hx hy hne hxy

/-! ### Visiting a vertex -/

section Frames

variable {call call' : List (ℕ × ℕ)} (hcall : call'.map Prod.fst = call.map Prod.fst)
include hcall

theorem exists_frame_iff (v : ℕ) : (∃ f, (v, f) ∈ call') ↔ ∃ f, (v, f) ∈ call := by
  have := congrArg (v ∈ ·) hcall
  simpa using this

theorem pairwise_frames (num : ℕ → ℕ) (h : call.Pairwise fun a b => num b.1 < num a.1) :
    call'.Pairwise fun a b => num b.1 < num a.1 := by
  have hmap : (call'.map Prod.fst).Pairwise fun a b => num b < num a := by
    rwa [hcall, pairwise_map]
  exact pairwise_map.mp hmap

end Frames

namespace State

variable (s : State) (v : ℕ) {x : ℕ}

@[simp]
theorem num_visit_self : (s.visit v).num v = s.nextIndex := by simp [num, visit]

theorem index_visit_of_ne (hx : x ≠ v) : (s.visit v).index x = s.index x := by
  simp [visit, update_of_ne hx]

theorem num_visit_of_ne (hx : x ≠ v) : (s.visit v).num x = s.num x := by
  rw [num, num, index_visit_of_ne s v hx]

@[simp]
theorem low_visit_self : (s.visit v).low v = s.nextIndex := by simp [visit]

theorem low_visit_of_ne (hx : x ≠ v) : (s.visit v).low x = s.low x := by
  simp [visit, update_of_ne hx]

end State

variable {u root : ℕ} {call' : List (ℕ × ℕ)}

/-- Numbering an unvisited vertex keeps the invariant, when every open frame reaches it and the
frames (advanced to `call'`) have otherwise only looked at visited neighbours. -/
theorem Inv.visit (h : Inv n edge s) (hu : s.index u = none) (hcall : call'.map Prod.fst = s.call.map Prod.fst)
    (hreach : ∀ f ∈ s.call, Reach n edge f.1 u)
    (hexp : ∀ v ∈ s.stack, ∀ w, Edge n edge v w → (∀ f, (v, f) ∈ call' → w < f) → w ≠ u →
      (s.index w).isSome ∧ (w ∈ s.stack → s.low v ≤ s.num w)) : Inv n edge ({ s with call := call' }.visit u) := by
  have hmem := exists_frame_iff hcall
  have hstk : ∀ x ∈ s.stack, x ≠ u := by
    rintro x hx rfl
    simpa [hu] using h.stack_visited x hx
  have hcomp : s.comp u = none := by
    by_contra hc
    have := (h.comp_iff u).mp (isSome_iff_ne_none.mpr hc)
    simp [hu] at this
  set s' := ({ s with call := call' }.visit u) with hs'
  have hnumu : s'.num u = s.nextIndex := State.num_visit_self _ u
  have hlowu : s'.low u = s.nextIndex := State.low_visit_self _ u
  have hnums : ∀ x ∈ s.stack, s'.num x = s.num x := fun x hx =>
    State.num_visit_of_ne _ u (hstk x hx)
  have hlow : ∀ x ∈ s.stack, s'.low x = s.low x := fun x hx => State.low_visit_of_ne _ u (hstk x hx)
  have hlt : ∀ x ∈ s.stack, s.num x < s.nextIndex := fun x hx =>
    h.num_lt (h.stack_visited x hx)
  have hcall' : ∀ f ∈ call', f.1 ∈ s.stack := fun f hf => by
    obtain ⟨g, hg⟩ := (hmem f.1).mp ⟨f.2, hf⟩
    exact h.call_mem (f.1, g) hg
  constructor
  case index_lt =>
    intro v i hi
    by_cases hvu : v = u
    · subst hvu
      simp only [hs', State.visit, update_self, some.injEq] at hi ⊢
      omega
    · simp only [hs', State.visit, update_of_ne hvu] at hi ⊢
      exact (h.index_lt v i hi).trans (Nat.lt_succ_self _)
  case stack_visited =>
    intro v hv
    by_cases hvu : v = u
    · simp [hs', State.visit, hvu]
    · have hv' : v ∈ s.stack := by simpa [hs', State.visit, hvu] using hv
      rw [hs', State.index_visit_of_ne _ u hvu]
      exact h.stack_visited v hv'
  case onStack_iff =>
    intro v
    by_cases hvu : v = u
    · simp [hs', State.visit, hvu]
    · simpa [hs', State.visit, update_of_ne hvu, hvu] using h.onStack_iff v
  case stack_sorted =>
    refine pairwise_cons.mpr ⟨fun x hx => ?_, ?_⟩
    · rw [hnumu, hnums x hx]
      exact hlt x hx
    · refine h.stack_sorted.imp_of_mem fun {a b} ha hb hab => ?_
      rwa [hnums a ha, hnums b hb]
  case call_sorted =>
    refine pairwise_cons.mpr ⟨fun f hf => ?_, ?_⟩
    · rw [hnumu, hnums _ (hcall' f hf)]
      exact hlt _ (hcall' f hf)
    · refine (pairwise_frames hcall s.num h.call_sorted).imp_of_mem fun {a b} ha hb hab => ?_
      rwa [hnums _ (hcall' a ha), hnums _ (hcall' b hb)]
  case call_mem =>
    intro f hf
    rcases mem_cons.mp hf with rfl | hf
    · exact mem_cons_self
    · exact mem_cons_of_mem u (hcall' f hf)
  case comp_iff =>
    intro v
    by_cases hvu : v = u
    · subst hvu
      simp [hs', State.visit, hcomp]
    · simpa [hs', State.visit, update_of_ne hvu, hvu] using h.comp_iff v
  case comp_lt => exact h.comp_lt
  case done_edge => exact h.done_edge
  case done_reach => exact h.done_reach
  case low_le =>
    intro v hv
    rcases mem_cons.mp hv with rfl | hv
    · rw [hlowu, hnumu]
    · rw [hlow v hv, hnums v hv]
      exact h.low_le v hv
  case low_reach =>
    intro v hv
    rcases mem_cons.mp hv with rfl | hv
    · exact ⟨v, mem_cons_self, by rw [hnumu, hlowu], .refl⟩
    · obtain ⟨x, hx, hnx, hr⟩ := h.low_reach v hv
      exact ⟨x, mem_cons_of_mem u hx, by rw [hnums x hx, hlow v hv, hnx], hr⟩
  case explored =>
    intro v hv w hw hf
    rcases mem_cons.mp hv with rfl | hv
    · exact absurd (hf 0 mem_cons_self) (by simp)
    · by_cases hwu : w = u
      · refine ⟨by simp [hs', State.visit, hwu], fun _ => ?_⟩
        rw [hwu, hnumu, hlow v hv]
        exact (h.low_le v hv).trans (hlt v hv).le
      · obtain ⟨h₁, h₂⟩ := hexp v hv w hw
          (fun f hvf => hf f (mem_cons_of_mem _ hvf)) hwu
        refine ⟨by simpa [hs', State.visit, update_of_ne hwu] using h₁, fun hws => ?_⟩
        have hws' : w ∈ s.stack := by simpa [hs', State.visit, hwu] using hws
        rw [hlow v hv, hnums w hws']
        exact h₂ hws'
  case parent =>
    intro v hv hvf
    rcases mem_cons.mp hv with rfl | hv
    · exact absurd mem_cons_self (hvf 0)
    · have hvf' : ∀ f, (v, f) ∉ s.call := fun f hf => by
        obtain ⟨g, hg⟩ := (hmem v).mpr ⟨f, hf⟩
        exact hvf g (mem_cons_of_mem _ hg)
      obtain ⟨hlv, p, hp, hpv, hpl, hpm⟩ := h.parent v hv hvf'
      obtain ⟨g, hg⟩ := (hmem p.1).mpr ⟨p.2, hp⟩
      have hps := h.call_mem p hp
      refine ⟨by rwa [hlow v hv, hnums v hv], (p.1, g), mem_cons_of_mem _ hg, ?_, ?_, fun q hq hqv => ?_⟩
      · simpa only [hnums _ hps, hnums v hv] using hpv
      · simpa only [hlow _ hps, hlow v hv] using hpl
      · rcases mem_cons.mp hq with rfl | hq
        · rw [hnumu, hnums v hv] at hqv
          exact absurd (hlt v hv) (by omega)
        · obtain ⟨g', hg'⟩ := (hmem q.1).mp ⟨q.2, hq⟩
          rw [hnums _ (hcall' q hq), hnums v hv] at hqv
          rw [hnums _ (hcall' q hq), hnums _ hps]
          exact hpm (q.1, g') hg' hqv
  case frame_reach =>
    intro f hf x hx hfx
    rcases mem_cons.mp hx with rfl | hx
    · rcases mem_cons.mp hf with rfl | hf
      · exact .refl
      · obtain ⟨g, hg⟩ := (hmem f.1).mp ⟨f.2, hf⟩
        exact hreach (f.1, g) hg
    · rcases mem_cons.mp hf with rfl | hf
      · rw [hnumu, hnums x hx] at hfx
        exact absurd (hlt x hx) (by omega)
      · obtain ⟨g, hg⟩ := (hmem f.1).mp ⟨f.2, hf⟩
        rw [hnums _ (hcall' f hf), hnums x hx] at hfx
        exact h.frame_reach (f.1, g) hg x hx hfx

/-! ### Looking at a visited neighbour -/

/-- Lowering the link of an open frame to a reachable number keeps the invariant. -/
theorem Inv.lower (h : Inv n edge s) {f i : ℕ} (hv : (v, f) ∈ s.call)
    (hx : ∃ x ∈ s.stack, s.num x = i ∧ Reach n edge v x) : Inv n edge (s.lower v i) := by
  have hle : ∀ x, (s.lower v i).low x ≤ s.low x := fun x => by
    by_cases hxv : x = v
    · simp [State.lower, hxv]
    · simp [State.lower, update_of_ne hxv]
  have hne : ∀ x, (∀ f, (x, f) ∉ s.call) → (s.lower v i).low x = s.low x := fun x hxf => by
    have hxv : x ≠ v := fun hxv => hxf f (hxv ▸ hv)
    simp [State.lower, update_of_ne hxv]
  exact
    { h with
      low_le := fun x hx => (hle x).trans (h.low_le x hx)
      low_reach := fun y hy => by
        by_cases hlow : (s.lower v i).low y = s.low y
        · rw [hlow]
          exact h.low_reach y hy
        · have hyv : y = v := by
            by_contra hyv
            exact hlow (by simp [State.lower, update_of_ne hyv])
          have hlow' : (s.lower v i).low y = i := by
            simp only [State.lower, hyv, update_self] at hlow ⊢
            exact (min_choice _ _).resolve_left hlow
          obtain ⟨x, hx, hnx, hr⟩ := hx
          exact ⟨x, hx, hnx.trans hlow'.symm, hyv ▸ hr⟩
      explored := fun y hy u hyu hf =>
        ⟨(h.explored y hy u hyu hf).1, fun hu => (hle y).trans ((h.explored y hy u hyu hf).2 hu)⟩
      parent := fun y hy hyf => by
        obtain ⟨hly, p, hp, hpy, hpl, hpm⟩ := h.parent y hy hyf
        rw [hne y hyf]
        exact ⟨hly, p, hp, hpy, (hle p.1).trans hpl, hpm⟩ }

theorem Inv.advance (h : Inv n edge s) (hcall : call'.map Prod.fst = s.call.map Prod.fst)
    (hexp : ∀ v ∈ s.stack, ∀ w, Edge n edge v w → (∀ f, (v, f) ∈ call' → w < f) →
      (s.index w).isSome ∧ (w ∈ s.stack → s.low v ≤ s.num w)) : Inv n edge { s with call := call' } := by
  have hmem := exists_frame_iff hcall
  exact
    { h with
      call_sorted := pairwise_frames hcall s.num h.call_sorted
      call_mem := fun f hf => by
        obtain ⟨g, hg⟩ := (hmem f.1).mp ⟨f.2, hf⟩
        exact h.call_mem (f.1, g) hg
      explored := hexp
      parent := fun v hv hvf => by
        have hvf' : ∀ f, (v, f) ∉ s.call := fun f hf => by
          obtain ⟨g, hg⟩ := (hmem v).mpr ⟨f, hf⟩
          exact hvf g hg
        obtain ⟨hlv, p, hp, hpv, hpl, hpm⟩ := h.parent v hv hvf'
        obtain ⟨g, hg⟩ := (hmem p.1).mpr ⟨p.2, hp⟩
        refine ⟨hlv, (p.1, g), hg, hpv, hpl, fun q hq hqv => ?_⟩
        obtain ⟨g', hg'⟩ := (hmem q.1).mp ⟨q.2, hq⟩
        exact hpm (q.1, g') hg' hqv
      frame_reach := fun f hf x hx hfx => by
        obtain ⟨g, hg⟩ := (hmem f.1).mp ⟨f.2, hf⟩
        exact h.frame_reach (f.1, g) hg x hx hfx }

/-! ### Finishing a vertex -/

/-- Every neighbour of `v` has been looked at. -/
def Exhausted (n : ℕ) (edge : ℕ → ℕ → Bool) (s : State) (v : ℕ) : Prop :=
  ∀ w, Edge n edge v w → (s.index w).isSome ∧ (w ∈ s.stack → s.low v ≤ s.num w)

/-- Dropping an exhausted frame that is not the first vertex of its component keeps the
invariant, once the frame below knows its low link. -/
theorem Inv.drop (h : Inv n edge s) {start : ℕ} {p : ℕ × ℕ} {rest : List (ℕ × ℕ)}
    (hcall : s.call = (v, start) :: p :: rest) (hexp : Exhausted n edge s v)
    (hlt : s.low v < s.num v) (hlow : s.low p.1 ≤ s.low v) : Inv n edge { s with call := p :: rest } := by
  have hsorted := h.call_sorted
  rw [hcall, pairwise_cons] at hsorted
  obtain ⟨hv, hrest⟩ := hsorted
  have hp : ∀ q ∈ p :: rest, s.num q.1 ≤ s.num p.1 := fun q hq => by
    rcases mem_cons.mp hq with rfl | hq
    · exact le_rfl
    · exact ((pairwise_cons.mp hrest).1 q hq).le
  have hsub : ∀ q ∈ p :: rest, q ∈ s.call := fun q hq => hcall ▸ mem_cons_of_mem _ hq
  have hcalls : ∀ x f, x ≠ v → ((x, f) ∈ s.call ↔ (x, f) ∈ p :: rest) := fun x f hx => by
    rw [hcall, mem_cons]
    exact or_iff_right fun he => hx (congrArg Prod.fst he)
  exact
    { h with
      call_sorted := hrest
      call_mem := fun f hf => h.call_mem f (hsub f hf)
      explored := fun x hx u hxu hf => by
        by_cases hxv : x = v
        · exact hxv ▸ hexp u (hxv ▸ hxu)
        · exact h.explored x hx u hxu fun f hxf => hf f ((hcalls x f hxv).mp hxf)
      parent := fun x hx hxf => by
        by_cases hxv : x = v
        · subst hxv
          exact ⟨hlt, p, mem_cons_self, hv p mem_cons_self, hlow, fun q hq _ => hp q hq⟩
        · obtain ⟨hlx, q, hq, hqx, hql, hqm⟩ := h.parent x hx fun f hf =>
            hxf f ((hcalls x f hxv).mp hf)
          rw [hcall] at hq
          rcases mem_cons.mp hq with rfl | hq
          · exact ⟨hlx, p, mem_cons_self, (hv p mem_cons_self).trans hqx,
              hlow.trans hql, fun q hq _ => hp q hq⟩
          · exact ⟨hlx, q, hq, hqx, hql, fun r hr => hqm r (hsub r hr)⟩
      frame_reach := fun f hf => h.frame_reach f (hsub f hf) }

theorem popTo_append (v : ℕ) (l₁ l₂ : List ℕ) (hv : v ∉ l₁) (s : State) : State.popTo v (l₁ ++ v :: l₂) s = { s with
        onStack := fun x => if x ∈ l₁ ∨ x = v then false else s.onStack x
        comp := fun x => if x ∈ l₁ ∨ x = v then some s.comps else s.comp x
        stack := l₂ } := by
  induction l₁ generalizing s with
  | nil =>
    simp only [nil_append, State.popTo, if_true, not_mem_nil, false_or]
    congr 1 <;> funext x <;> by_cases hx : x = v <;> simp [hx]
  | cons w l₁ ih =>
    have hwv : w ≠ v := fun hw => hv (hw ▸ mem_cons_self)
    rw [cons_append, State.popTo, if_neg hwv, ih fun h => hv (mem_cons_of_mem w h)]
    congr 1 <;> funext x <;> by_cases hx : x = w <;> by_cases hxl : x ∈ l₁ ∨ x = v <;>
      simp_all

section Close

variable {s : State} {v start : ℕ} {rest : List (ℕ × ℕ)}

variable (h : Inv n edge s) (hcall : s.call = (v, start) :: rest)

include h hcall in
theorem Inv.top_mem : v ∈ s.stack := h.call_mem (v, start) (hcall ▸ mem_cons_self)

include h hcall in
/-- No frame is open above the top one. -/
private theorem Inv.not_mem_call {w : ℕ} (hvw : s.num v < s.num w) (f : ℕ) : (w, f) ∉ s.call := fun hf => by
  have hv := h.call_sorted
  rw [hcall, pairwise_cons] at hv
  rw [hcall] at hf
  rcases mem_cons.mp hf with he | hf
  · exact hvw.ne (congrArg (fun q => s.num q.1) he).symm
  · exact lt_asymm hvw (hv.1 _ hf)

include h hcall in
private theorem Inv.low_le_low {w : ℕ} (hw : w ∈ s.stack) (hvw : s.num v < s.num w) : s.low v ≤ s.low w := by
  have hv := h.call_sorted
  rw [hcall, pairwise_cons] at hv
  obtain ⟨-, p, hp, -, hpl, hpm⟩ := h.parent w hw (h.not_mem_call hcall hvw)
  have hvp := hpm (v, start) (hcall ▸ mem_cons_self) hvw
  rw [hcall] at hp
  rcases mem_cons.mp hp with rfl | hp
  · exact hpl
  · exact absurd (hv.1 p hp) hvp.not_gt

include h hcall in
private theorem Inv.edge_above (hexp : Exhausted n edge s v) (hlow : s.low v = s.num v) {w u : ℕ} (hw : w ∈ s.stack)
    (hvw : s.num v ≤ s.num w) (hwu : Edge n edge w u) : (s.index u).isSome ∧ (u ∈ s.stack → s.num v ≤ s.num u) := by
  have hvs := h.top_mem hcall
  rcases hvw.eq_or_lt with heq | hlt
  · obtain rfl := h.num_inj hvs hw heq
    exact ⟨(hexp u hwu).1, fun hu => hlow ▸ (hexp u hwu).2 hu⟩
  · obtain ⟨h₁, h₂⟩ := h.explored w hw u hwu fun f hf =>
      absurd hf (h.not_mem_call hcall hlt f)
    exact ⟨h₁, fun hu => hlow ▸ (h.low_le_low hcall hw hlt).trans (h₂ hu)⟩

include h hcall in
private theorem Inv.reach_first (hlow : s.low v = s.num v) {w : ℕ} (hw : w ∈ s.stack)
    (hvw : s.num v ≤ s.num w) : Reach n edge w v := by
  have hvs := h.top_mem hcall
  induction hk : s.num w using Nat.strong_induction_on generalizing w with
  | _ k ih =>
    rcases hvw.eq_or_lt with heq | hlt
    · rw [h.num_inj hvs hw heq]
    · have hdown := (h.parent w hw (h.not_mem_call hcall hlt)).1
      have hup := h.low_le_low hcall hw hlt
      obtain ⟨x, hx, hnx, hr⟩ := h.low_reach w hw
      exact hr.trans (ih (s.num x) (by omega) hx (by omega) rfl)

theorem Inv.close_eq (h : Inv n edge s) (hvs : v ∈ s.stack) : ∃ below : List ℕ, below.Sublist s.stack ∧
      (∀ x, x ∈ below ↔ x ∈ s.stack ∧ s.num x < s.num v) ∧ ∀ call, { s with call := call }.close v = { s with
          call := call
          onStack := fun x => if x ∈ s.stack ∧ s.num v ≤ s.num x then false else s.onStack x
          comp := fun x => if x ∈ s.stack ∧ s.num v ≤ s.num x then some s.comps else s.comp x
          stack := below
          comps := s.comps + 1 } := by
  obtain ⟨above, below, hst⟩ := append_of_mem hvs
  have hss := h.stack_sorted
  rw [hst, pairwise_append, pairwise_cons] at hss
  obtain ⟨-, ⟨hbelow, -⟩, habove⟩ := hss
  have hup : ∀ x ∈ above, s.num v < s.num x := fun x hx => habove x hx v mem_cons_self
  have hv : v ∉ above := fun hv => lt_irrefl _ (hup v hv)
  have hmem : ∀ x, x ∈ s.stack ↔ x ∈ above ∨ x = v ∨ x ∈ below := fun x => by
    rw [hst, mem_append, mem_cons]
  refine ⟨below, ?_, fun x => ?_, fun call => ?_⟩
  · rw [hst]
    exact (sublist_cons_self v below).trans (sublist_append_right above _)
  · rw [hmem]
    constructor
    · exact fun hx => ⟨.inr (.inr hx), hbelow x hx⟩
    · rintro ⟨hx | rfl | hx, hlt⟩
      · exact absurd (hup x hx) hlt.not_gt
      · exact absurd hlt (lt_irrefl _)
      · exact hx
  · have hiff : ∀ x, (x ∈ above ∨ x = v) ↔ x ∈ s.stack ∧ s.num v ≤ s.num x := fun x => by
      rw [hmem]
      constructor
      · rintro (hx | rfl)
        · exact ⟨.inl hx, (hup x hx).le⟩
        · exact ⟨.inr (.inl rfl), le_rfl⟩
      · rintro ⟨hx | rfl | hx, hle⟩
        · exact .inl hx
        · exact .inr rfl
        · exact absurd (hbelow x hx) hle.not_gt
    simp [State.close, hst, popTo_append v above below hv, hiff]

include h hcall in
theorem Inv.close (hexp : Exhausted n edge s v) (hlow : s.low v = s.num v) :
    Inv n edge ({ s with call := rest }.close v) := by
  have hvs := h.top_mem hcall
  have hcs := h.call_sorted
  rw [hcall, pairwise_cons] at hcs
  obtain ⟨below, hsublist, hbelow, hclose⟩ := h.close_eq hvs
  rw [hclose rest]
  have hcalls : ∀ x f, x ≠ v → ((x, f) ∈ s.call ↔ (x, f) ∈ rest) := fun x f hx => by
    rw [hcall, mem_cons]
    exact or_iff_right fun he => hx (congrArg Prod.fst he)
  have hsub : ∀ q ∈ rest, q ∈ s.call := fun q hq => hcall ▸ mem_cons_of_mem _ hq
  have hnone : ∀ x ∈ s.stack, s.comp x = none := fun x hx => by
    by_contra hc
    exact ((h.comp_iff x).mp (isSome_iff_ne_none.mpr hc)).2 hx
  have hnot : ∀ {x}, x ∈ s.stack ∧ s.num v ≤ s.num x → x ∉ below := fun hx hx' =>
    absurd ((hbelow _).mp hx').2 hx.2.not_gt
  -- a vertex outside the component is below it on the stack, or on the stack no more than before
  have hout : ∀ {x}, ¬(x ∈ s.stack ∧ s.num v ≤ s.num x) → (x ∈ below ↔ x ∈ s.stack) := by
    intro x hx
    rw [hbelow, and_iff_left_iff_imp]
    exact fun hxs => not_le.mp fun hle => hx ⟨hxs, hle⟩
  constructor
  case index_lt => exact h.index_lt
  case stack_visited => exact fun x hx => h.stack_visited x ((hbelow x).mp hx).1
  case onStack_iff =>
    intro x
    by_cases hx : x ∈ s.stack ∧ s.num v ≤ s.num x
    · simp [hx, hnot hx]
    · simp [if_neg hx, h.onStack_iff, hout hx]
  case stack_sorted => exact h.stack_sorted.sublist hsublist
  case call_sorted => exact hcs.2
  case call_mem => exact fun f hf => (hbelow f.1).mpr ⟨h.call_mem f (hsub f hf), hcs.1 f hf⟩
  case comp_iff =>
    intro x
    by_cases hx : x ∈ s.stack ∧ s.num v ≤ s.num x
    · simp [hx, hnot hx, h.stack_visited x hx.1]
    · simp [if_neg hx, h.comp_iff, hout hx]
  case comp_lt =>
    intro x c hc
    by_cases hx : x ∈ s.stack ∧ s.num v ≤ s.num x
    · simp only [if_pos hx, some.injEq] at hc
      exact hc ▸ Nat.lt_succ_self _
    · simp only [if_neg hx] at hc
      exact (h.comp_lt x c hc).trans (Nat.lt_succ_self _)
  case done_edge =>
    intro x u c hc hxu
    by_cases hx : x ∈ s.stack ∧ s.num v ≤ s.num x
    · simp only [if_pos hx, some.injEq] at hc
      obtain ⟨hvis, hge⟩ := h.edge_above hcall hexp hlow hx.1 hx.2 hxu
      by_cases hu : u ∈ s.stack
      · exact ⟨c, le_rfl, by simp [hu, hge hu, hc]⟩
      · obtain ⟨c', hc'⟩ := isSome_iff_exists.mp ((h.comp_iff u).mpr ⟨hvis, hu⟩)
        have hlt := h.comp_lt u c' hc'
        refine ⟨c', by omega, ?_⟩
        simpa only [if_neg fun hu' : _ ∧ _ => hu hu'.1] using hc'
    · simp only [if_neg hx] at hc
      obtain ⟨c', hle, hc'⟩ := h.done_edge x u c hc hxu
      have hu : ¬(u ∈ s.stack ∧ s.num v ≤ s.num u) := fun hu => by simp [hnone u hu.1] at hc'
      exact ⟨c', hle, by simpa only [if_neg hu] using hc'⟩
  case done_reach =>
    intro x u c hcx hcu
    by_cases hx : x ∈ s.stack ∧ s.num v ≤ s.num x <;>
      by_cases hu : u ∈ s.stack ∧ s.num v ≤ s.num u
    · exact (h.reach_first hcall hlow hx.1 hx.2).trans
        (h.frame_reach (v, start) (hcall ▸ mem_cons_self) u hu.1 hu.2)
    · simp only [if_pos hx, if_neg hu, some.injEq] at hcx hcu
      exact absurd (h.comp_lt u c hcu) (by omega)
    · simp only [if_neg hx, if_pos hu, some.injEq] at hcx hcu
      exact absurd (h.comp_lt x c hcx) (by omega)
    · simp only [if_neg hx, if_neg hu] at hcx hcu
      exact h.done_reach x u c hcx hcu
  case low_le => exact fun x hx => h.low_le x ((hbelow x).mp hx).1
  case low_reach =>
    intro x hx
    obtain ⟨hxs, hxv⟩ := (hbelow x).mp hx
    obtain ⟨y, hy, hny, hr⟩ := h.low_reach x hxs
    exact ⟨y, (hbelow y).mpr ⟨hy, hny.trans_lt ((h.low_le x hxs).trans_lt hxv)⟩, hny, hr⟩
  case explored =>
    intro x hx u hxu hf
    obtain ⟨hxs, hxv⟩ := (hbelow x).mp hx
    have hne : x ≠ v := fun he => lt_irrefl _ (he ▸ hxv)
    obtain ⟨h₁, h₂⟩ := h.explored x hxs u hxu fun f hxf => hf f ((hcalls x f hne).mp hxf)
    exact ⟨h₁, fun hu => h₂ ((hbelow u).mp hu).1⟩
  case parent =>
    intro x hx hxf
    obtain ⟨hxs, hxv⟩ := (hbelow x).mp hx
    have hne : x ≠ v := fun he => lt_irrefl _ (he ▸ hxv)
    obtain ⟨hlx, p, hp, hpx, hpl, hpm⟩ := h.parent x hxs fun f hf =>
      hxf f ((hcalls x f hne).mp hf)
    rw [hcall] at hp
    rcases mem_cons.mp hp with rfl | hp
    · exact absurd hpx hxv.not_gt
    · exact ⟨hlx, p, hp, hpx, hpl, fun q hq => hpm q (hsub q hq)⟩
  case frame_reach =>
    exact fun f hf x hx => h.frame_reach f (hsub f hf) x ((hbelow x).mp hx).1

end Close

/-! ### One turn of the loop -/

section Step

variable {s : State} {v start : ℕ} {rest : List (ℕ × ℕ)}

theorem nextNeighbour_eq_some {u : ℕ} (h : nextNeighbour n edge s v start = some u) :
    start ≤ u ∧ Edge n edge v u ∧ (s.index u = none ∨ s.onStack u = true) ∧
      ∀ w, start ≤ w → w < u → edge v w = true → (s.index w).isSome ∧ s.onStack w = false := by
  rw [nextNeighbour, List.find?_range'_eq_some] at h
  obtain ⟨hp, hmem, hmin⟩ := h
  simp only [Bool.and_eq_true, Bool.or_eq_true, beq_iff_eq] at hp
  rw [mem_range'_1] at hmem
  refine ⟨hmem.1, ⟨by omega, hp.1⟩, hp.2, fun w h₁ h₂ hw => ?_⟩
  have := hmin w h₁ h₂
  simpa [hw, isSome_iff_ne_none] using this

theorem nextNeighbour_eq_none (h : nextNeighbour n edge s v start = none) :
    ∀ w, start ≤ w → Edge n edge v w → (s.index w).isSome ∧ s.onStack w = false := by
  rw [nextNeighbour, find?_eq_none] at h
  intro w hw hvw
  have := h w (mem_range'_1.mpr ⟨hw, by have := hvw.1; omega⟩)
  simpa [hvw.2, isSome_iff_ne_none] using this

variable (h : Inv n edge s) (hcall : s.call = (v, start) :: rest)

include h hcall in
theorem Inv.eq_start {f : ℕ}
    (hf : (v, f) ∈ s.call) : f = start := by
  have hv := h.call_sorted
  rw [hcall, pairwise_cons] at hv
  rw [hcall] at hf
  rcases mem_cons.mp hf with he | hf
  · exact congrArg Prod.snd he
  · exact absurd (hv.1 _ hf) (lt_irrefl _)

include h hcall in
theorem Inv.explored_top {w : ℕ} (hw : Edge n edge v w)
    (hskip : start ≤ w → (s.index w).isSome ∧ s.onStack w = false) :
    (s.index w).isSome ∧ (w ∈ s.stack → s.low v ≤ s.num w) := by
  have hvs := h.top_mem hcall
  rcases Nat.lt_or_ge w start with hlt | hge
  · exact h.explored v hvs w hw fun f hf => h.eq_start hcall hf ▸ hlt
  · obtain ⟨hvis, hoff⟩ := hskip hge
    refine ⟨hvis, fun hws => ?_⟩
    rw [(h.onStack_iff w).mpr hws] at hoff
    exact absurd hoff (by simp)

include h hcall in
theorem Inv.exhausted (hnone : nextNeighbour n edge s v start = none) : Exhausted n edge s v :=
  fun w hw => h.explored_top hcall hw fun hge => nextNeighbour_eq_none hnone w hge hw

theorem Inv.low_eq_num_of_bottom (h : Inv n edge s) (hcall : s.call = [(v, start)]) : s.low v = s.num v := by
  have hvs := h.top_mem hcall
  refine le_antisymm (h.low_le v hvs) ?_
  obtain ⟨x, hx, hnx, -⟩ := h.low_reach v hvs
  rw [← hnx]
  by_cases hxf : ∀ f, (x, f) ∉ s.call
  · obtain ⟨-, p, hp, hpx, -, -⟩ := h.parent x hx hxf
    rw [hcall, mem_singleton] at hp
    subst hp
    exact hpx.le
  · push Not at hxf
    obtain ⟨f, hf⟩ := hxf
    rw [hcall, mem_singleton] at hf
    rw [show x = v from congrArg Prod.fst hf]

private theorem index_eq_some_iff (hv : (s.index v).isSome) (i : ℕ) : s.index v = some i ↔ i = s.num v := by
  obtain ⟨j, hj⟩ := isSome_iff_exists.mp hv
  simp [State.num, hj, eq_comm]

include h hcall in
theorem Inv.finish (hexp : Exhausted n edge s v) : Inv n edge (s.finish v rest) := by
  have hvs := h.top_mem hcall
  have hvis := h.stack_visited v hvs
  cases rest with
  | nil =>
    have hlow := h.low_eq_num_of_bottom hcall
    rw [State.finish, if_pos ((index_eq_some_iff (s := s) hvis _).mpr hlow)]
    exact h.close hcall hexp hlow
  | cons p rest =>
    have hsorted := h.call_sorted
    rw [hcall, pairwise_cons] at hsorted
    have hpv : s.num p.1 < s.num v := hsorted.1 p mem_cons_self
    have hpm : p ∈ s.call := by rw [hcall]; simp
    have hne : v ≠ p.1 := fun he => hpv.ne (by rw [he])
    obtain ⟨x, hx, hnx, hr⟩ := h.low_reach v hvs
    have h' : Inv n edge (s.lower p.1 (s.low v)) :=
      h.lower hpm ⟨x, hx, hnx, (h.frame_reach p hpm v hvs hpv.le).trans hr⟩
    have hlowv : (s.lower p.1 (s.low v)).low v = s.low v := by
      simp [State.lower, update_of_ne hne]
    have hlowp : (s.lower p.1 (s.low v)).low p.1 ≤ (s.lower p.1 (s.low v)).low v := by
      rw [hlowv]
      simp [State.lower]
    have hexp' : Exhausted n edge (s.lower p.1 (s.low v)) v := fun w hw =>
      ⟨(hexp w hw).1, fun hws => hlowv.le.trans ((hexp w hw).2 hws)⟩
    have hiff := index_eq_some_iff (s := s.lower p.1 (s.low v)) hvis
    rw [State.finish]
    split_ifs with hfirst
    · exact h'.close (s := s.lower p.1 (s.low v)) hcall hexp' ((hiff _).mp hfirst)
    · exact h'.drop (s := s.lower p.1 (s.low v)) hcall hexp'
        (lt_of_le_of_ne (h'.low_le v hvs) fun he => hfirst ((hiff _).mpr he)) hlowp

theorem Inv.step (h : Inv n edge s) : Inv n edge (step n edge s) := by
  rw [Tarjan.step]
  split
  case h_1 => exact h
  case h_2 v start rest hcall =>
    have hvs := h.top_mem hcall
    have hcalls : ∀ x f u, x ≠ v → ((x, f) ∈ s.call ↔ (x, f) ∈ (v, u) :: rest) := by
      intro x f u hx
      simp [hcall, hx]
    split
    case h_1 hnone => exact h.finish hcall (h.exhausted hcall hnone)
    case h_2 u hsome =>
      obtain ⟨hge, hvu, hnew, hskip⟩ := nextNeighbour_eq_some hsome
      have hmap : ((v, u + 1) :: rest).map Prod.fst = s.call.map Prod.fst := by simp [hcall]
      have htop : ∀ f ∈ s.call, s.num f.1 ≤ s.num v := fun f hf => by
        have hsorted := h.call_sorted
        rw [hcall, pairwise_cons] at hsorted
        rw [hcall] at hf
        rcases mem_cons.mp hf with rfl | hf
        · exact le_rfl
        · exact (hsorted.1 f hf).le
      -- below `u` every neighbour of `v` was looked at before or skipped now
      have hexp : ∀ x ∈ s.stack, ∀ w, Edge n edge x w → (∀ f, (x, f) ∈ (v, u + 1) :: rest → w < f) → w ≠ u →
          (s.index w).isSome ∧ (w ∈ s.stack → s.low x ≤ s.num w) := by
        intro x hx w hxw hf hwu
        by_cases hxv : x = v
        · subst hxv
          have hlt : w < u := by
            have := hf (u + 1) mem_cons_self
            omega
          exact h.explored_top hcall hxw fun hge' => hskip w hge' hlt hxw.2
        · exact h.explored x hx w hxw fun f hxf => hf f ((hcalls x f _ hxv).mp hxf)
      split
      case h_1 hu =>
        refine h.visit hu hmap (fun f hf => ?_) hexp
        exact (h.frame_reach f hf v hvs (htop f hf)).tail hvu
      case h_2 i hu =>
        have hus : u ∈ s.stack := by
          rcases hnew with hnone | hon
          · simp [hu] at hnone
          · exact (h.onStack_iff u).mp hon
        have hnum : s.num u = i := by simp [State.num, hu]
        have h' : Inv n edge (s.lower v i) :=
          h.lower (f := start) (by rw [hcall]; simp) ⟨u, hus, hnum, .single hvu⟩
        refine h'.advance hmap fun x hx w hxw hf => ?_
        by_cases hwu : w = u
        · subst hwu
          refine ⟨by simp [State.lower, hu], fun _ => ?_⟩
          by_cases hxv : x = v
          · subst hxv
            simp [State.lower, State.num, hu]
          · exact (h'.explored x hx w hxw fun f hxf => hf f ((hcalls x f _ hxv).mp hxf)).2 hus
        · obtain ⟨h₁, h₂⟩ := hexp x hx w hxw hf hwu
          refine ⟨h₁, fun hws => le_trans ?_ (h₂ hws)⟩
          by_cases hxv : x = v
          · simp [State.lower, hxv]
          · simp [State.lower, update_of_ne hxv]

end Step

/-! ### Termination -/

@[simp]
theorem popTo_index (v : ℕ) (l : List ℕ) (s : State) : (State.popTo v l s).index = s.index := by
  induction l generalizing s with
  | nil => rfl
  | cons w l ih =>
    rw [State.popTo]
    split_ifs
    · rfl
    · rw [ih]

@[simp]
theorem popTo_call (v : ℕ) (l : List ℕ) (s : State) : (State.popTo v l s).call = s.call := by
  induction l generalizing s with
  | nil => rfl
  | cons w l ih =>
    rw [State.popTo]
    split_ifs
    · rfl
    · rw [ih]

theorem finish_index (s : State) (v : ℕ) (rest : List (ℕ × ℕ)) : (s.finish v rest).index = s.index := by
  cases rest <;> rw [State.finish] <;> split_ifs <;> simp [State.close, State.lower]

theorem finish_call (s : State) (v : ℕ) (rest : List (ℕ × ℕ)) : (s.finish v rest).call = rest := by
  cases rest <;> rw [State.finish] <;> split_ifs <;> simp [State.close, State.lower]

variable (n) in
/-- The number of unvisited vertices. -/
def State.unvisited (s : State) : ℕ :=
  ((Finset.range n).filter fun v => s.index v = none).card

variable (n) in
/-- What is left to do: every unvisited vertex may open a frame, and every frame has at most
`n + 1` turns left. -/
def State.todo (s : State) : ℕ :=
  s.unvisited n * (n + 2) + (s.call.map fun f => n - f.2 + 1).sum

theorem unvisited_visit (s : State) (hun : u < n) (hu : s.index u = none) :
    (s.visit u).unvisited n + 1 = s.unvisited n := by
  have herase : ((Finset.range n).filter fun v => (s.visit u).index v = none) =
      ((Finset.range n).filter fun v => s.index v = none).erase u := by
    ext v
    rw [Finset.mem_filter, Finset.mem_erase, Finset.mem_filter]
    by_cases hv : v = u <;> simp [hv, State.visit]
  rw [State.unvisited, herase]
  exact Finset.card_erase_add_one (by simp [hun, hu])

theorem todo_step_lt (hcall : s.call ≠ []) : (step n edge s).todo n < s.todo n := by
  rw [Tarjan.step]
  split
  case h_1 h => exact absurd h hcall
  case h_2 v start rest h =>
    split
    case h_1 =>
      simp only [State.todo, State.unvisited, finish_index, finish_call, h, map_cons, sum_cons]
      omega
    case h_2 u hsome =>
      obtain ⟨hge, hvu, -, -⟩ := nextNeighbour_eq_some hsome
      have hun := hvu.1
      split
      case h_1 hu =>
        have hless := unvisited_visit (n := n) { s with call := (v, u + 1) :: rest } hun hu
        have hsame : State.unvisited n { s with call := (v, u + 1) :: rest } = s.unvisited n := rfl
        have hcalls : ({ s with call := (v, u + 1) :: rest }.visit u).call = (u, 0) :: (v, u + 1) :: rest := rfl
        rw [State.todo, State.todo, hcalls, h, ← hsame, ← hless]
        simp only [map_cons, sum_cons, add_mul]
        omega
      case h_2 =>
        have hsame (i : ℕ) : State.unvisited n ({ s with call := (v, u + 1) :: rest }.lower v i) = s.unvisited n := rfl
        have hcalls (i : ℕ) : ({ s with call := (v, u + 1) :: rest }.lower v i).call = (v, u + 1) :: rest := rfl
        rw [State.todo, State.todo, hsame, hcalls, h]
        simp only [map_cons, sum_cons]
        omega

theorem call_run_eq_nil {fuel : ℕ} (h : s.todo n ≤ fuel) : (run n edge fuel s).call = [] := by
  induction fuel generalizing s with
  | zero =>
    cases hcall : s.call with
    | nil => simpa [run] using hcall
    | cons f rest =>
      simp only [State.todo, hcall, map_cons, sum_cons] at h
      omega
  | succ fuel ih =>
    rw [run]
    split_ifs with hcall
    · simpa using hcall
    · have hlt : (step n edge s).todo n < s.todo n := todo_step_lt (by simpa using hcall)
      exact ih (by omega)

theorem Inv.run (h : Inv n edge s) (fuel : ℕ) : Inv n edge (run n edge fuel s) := by
  induction fuel generalizing s with
  | zero => exact h
  | succ fuel ih =>
    rw [Tarjan.run]
    split_ifs
    · exact h
    · exact ih h.step

theorem isSome_index_step (h : (s.index v).isSome) : ((step n edge s).index v).isSome := by
  rw [Tarjan.step]
  split
  case h_1 => exact h
  case h_2 w start rest hcall =>
    split
    case h_1 => rwa [finish_index]
    case h_2 u hsome =>
      split
      case h_1 hu =>
        by_cases hvu : v = u
        · simp [State.visit, hvu]
        · simpa [State.visit, update_of_ne hvu] using h
      case h_2 => exact h

theorem isSome_index_run (h : (s.index v).isSome) (fuel : ℕ) : ((run n edge fuel s).index v).isSome := by
  induction fuel generalizing s with
  | zero => exact h
  | succ fuel ih =>
    rw [run]
    split_ifs
    · exact h
    · exact ih (isSome_index_step h)

/-! ### The result -/

/-- Between roots: the invariant holds and no frame is open. -/
def Idle (n : ℕ) (edge : ℕ → ℕ → Bool) (s : State) : Prop := Inv n edge s ∧ s.call = []

theorem Idle.stack_eq_nil (h : Idle n edge s) : s.stack = [] := by
  rw [eq_nil_iff_forall_not_mem]
  intro v hv
  obtain ⟨-, p, hp, -⟩ := h.1.parent v hv (by simp [h.2])
  simp [h.2] at hp

theorem todo_visit_root (hcall : s.call = []) (hroot : root < n)
    (hnew : s.index root = none) : (s.visit root).todo n ≤ n * (n + 2) := by
  have hle : s.unvisited n ≤ n := (Finset.card_filter_le _ _).trans (Finset.card_range n).le
  have hun := unvisited_visit s hroot hnew
  have hmul : ((s.visit root).unvisited n + 1) * (n + 2) ≤ n * (n + 2) :=
    Nat.mul_le_mul_right _ (hun ▸ hle)
  have hsum : ((s.visit root).call.map fun f => n - f.2 + 1).sum = n + 1 := by
    simp [State.visit, hcall]
  rw [State.todo, hsum]
  rw [add_mul] at hmul
  omega

theorem Idle.visitRoot (h : Idle n edge s) (hroot : root < n) :
    Idle n edge (visitRoot n edge s root) ∧ ((visitRoot n edge s root).index root).isSome := by
  rw [Tarjan.visitRoot]
  split_ifs with hnew
  · have hinv : Inv n edge ({ s with call := s.call }.visit root) :=
      h.1.visit hnew rfl (by simp [h.2]) (by simp [h.stack_eq_nil])
    refine ⟨⟨hinv.run _, call_run_eq_nil (todo_visit_root h.2 hroot hnew)⟩, ?_⟩
    exact isSome_index_run (by simp [State.visit]) _
  · exact ⟨h, isSome_iff_ne_none.mpr hnew⟩

theorem isSome_index_visitRoot (h : (s.index v).isSome) (root : ℕ) : ((visitRoot n edge s root).index v).isSome := by
  rw [visitRoot]
  split_ifs with hnew
  · refine isSome_index_run ?_ _
    by_cases hv : v = root
    · simp [State.visit, hv]
    · simpa [State.visit, update_of_ne hv] using h
  · exact h

theorem Idle.foldl (h : Idle n edge s) {roots : List ℕ} (hroots : ∀ r ∈ roots, r < n) :
    Idle n edge (roots.foldl (Tarjan.visitRoot n edge) s) ∧ (∀ v, (s.index v).isSome →
        ((roots.foldl (Tarjan.visitRoot n edge) s).index v).isSome) ∧
      ∀ r ∈ roots, ((roots.foldl (Tarjan.visitRoot n edge) s).index r).isSome := by
  induction roots generalizing s with
  | nil => exact ⟨h, fun _ hv => hv, by simp⟩
  | cons r roots ih =>
    obtain ⟨hidle, hr⟩ := h.visitRoot (hroots r mem_cons_self)
    obtain ⟨h₁, h₂, h₃⟩ := ih hidle fun x hx => hroots x (mem_cons_of_mem r hx)
    refine ⟨h₁, fun v hv => h₂ v (isSome_index_visitRoot hv r), fun x hx => ?_⟩
    rcases mem_cons.mp hx with rfl | hx
    · exact h₂ x hr
    · exact h₃ x hx

section Components

variable {roots : List ℕ} (hroots : ∀ r ∈ roots, r < n)
include hroots

private theorem idle_components : Idle n edge (roots.foldl (visitRoot n edge) State.init) ∧
      ∀ r ∈ roots, ((roots.foldl (visitRoot n edge) State.init).index r).isSome := by
  have hinit : Idle n edge State.init := ⟨inv_init, rfl⟩
  obtain ⟨h₁, -, h₃⟩ := hinit.foldl hroots
  exact ⟨h₁, h₃⟩

theorem isSome_components (edge : ℕ → ℕ → Bool) {r : ℕ} (hr : r ∈ roots) : (components n edge roots r).isSome := by
  obtain ⟨hidle, hvis⟩ : Idle n edge _ ∧ _ := idle_components hroots
  exact (hidle.1.comp_iff r).mpr ⟨hvis r hr, by simp [hidle.stack_eq_nil]⟩

theorem components_le_of_edge {v u c : ℕ} (hv : components n edge roots v = some c)
    (hvu : Edge n edge v u) : ∃ c' ≤ c, components n edge roots u = some c' :=
  (idle_components hroots).1.1.done_edge v u c hv hvu

theorem reach_of_components_eq {v u c : ℕ} (hv : components n edge roots v = some c)
    (hu : components n edge roots u = some c) : Reach n edge v u :=
  (idle_components hroots).1.1.done_reach v u c hv hu

theorem exists_closed_component (hne : roots ≠ []) (hclosed : ∀ r ∈ roots, ∀ u, Edge n edge r u → u ∈ roots) :
    ∃ r ∈ roots, ∀ u, Edge n edge r u → components n edge roots u = components n edge roots r := by
  -- a root of the lowest component: an edge out of it could only lead lower
  obtain ⟨r, hr, hmin⟩ : ∃ r ∈ roots, ∀ x ∈ roots,
      (components n edge roots r).getD 0 ≤ (components n edge roots x).getD 0 := by
    obtain ⟨r, hr, hmin⟩ := Finset.exists_min_image roots.toFinset
      (fun x => (components n edge roots x).getD 0) (by simpa using hne)
    exact ⟨r, by simpa using hr, fun x hx => hmin x (by simpa using hx)⟩
  refine ⟨r, hr, fun u hu => ?_⟩
  obtain ⟨c, hc⟩ := isSome_iff_exists.mp (isSome_components hroots edge hr)
  obtain ⟨c', hle, hc'⟩ := components_le_of_edge hroots hc hu
  have hge := hmin u (hclosed r hr u hu)
  rw [hc, hc'] at hge ⊢
  exact congrArg some (le_antisymm hle hge)

end Components

end DashForge.Tarjan
