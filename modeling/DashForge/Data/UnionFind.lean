import DashForge.Data.SortBy
import Mathlib.Data.Finmap

/-!
# Union-find over an ordered type

Parents are a finite map; `find` halves the path it follows, and the union of two classes keeps the
smaller root. A lookup outside the map and a loop that does not end are `none`.

The order of the roots is what makes the loop end: a parent is never above its element
(`Forest.link`). Finding changes no root (`find_spec`), and the groups of `components` are the classes
of the equivalence the edges generate (`components_spec`).
-/

namespace DashForge

open Finmap (lookup_insert lookup_insert_of_ne)
open List Option Relation

namespace UnionFind

variable {α : Type} [LinearOrder α]

/-- Parent pointers; a root points at itself. -/
abbrev Parents (α : Type) : Type := Finmap fun _ : α => α

/-- The root of `x` and the parents with the path to it halved. -/
def find : ℕ → Parents α → α → Option (Parents α × α)
  | 0, _, _ => none
  | fuel + 1, parent, x => do
    let px ← parent.lookup x
    if px = x then some (parent, x)
    else do
      let up ← parent.lookup px
      find fuel (parent.insert x up) up

/-- Join the classes of the ends of an edge, with room for the longest path. -/
def unite (room : ℕ) (parent : Parents α) (edge : α × α) : Option (Parents α) := do
  let (parent, ra) ← find room parent edge.1
  let (parent, rb) ← find room parent edge.2
  some (if ra ≠ rb then parent.insert (max ra rb) (min ra rb) else parent)

/-- The root of each element in turn. -/
def rootsOf (room : ℕ) : Parents α → List α → Option (List (α × α))
  | _, [] => some []
  | parent, h :: hs => do
    let (parent, r) ← find room parent h
    let rest ← rootsOf room parent hs
    some ((h, r) :: rest)

/-- The elements gathered by root, roots ascending. -/
def groupByRoot (roots : List (α × α)) : List (List α) :=
  (sortedDistinct (roots.map Prod.snd)).map fun r =>
    (roots.filter fun p => p.2 == r).map Prod.fst

/-- The groups of `nodes` under `edges`. -/
def components (nodes : List α) (edges : List (α × α)) : Option (List (List α)) := do
  let parent : Parents α := nodes.foldl (fun parent h => parent.insert h h) ∅
  let room := nodes.length + 1
  let parent ← edges.foldlM (unite room) parent
  let roots ← rootsOf room parent (sortedDistinct nodes)
  some (groupByRoot roots)

/-! ### Roots -/

/-- `r` is the root of `x`. -/
inductive RootOf (parent : Parents α) : α → α → Prop
  | root {x : α} (h : parent.lookup x = some x) : RootOf parent x x
  | up {x y r : α} (h : parent.lookup x = some y) (hne : y ≠ x) (hr : RootOf parent y r) :
      RootOf parent x r

variable {parent parent' : Parents α} {nodes : Finset α} {E : α → α → Prop}

variable {x r : α} {room : ℕ}

theorem RootOf.lookup (h : RootOf parent x r) : parent.lookup r = some r := by
  induction h with
  | root h => exact h
  | up _ _ _ ih => exact ih

theorem RootOf.unique {r' : α} (h : RootOf parent x r) (h' : RootOf parent x r') : r = r' := by
  induction h with
  | root h =>
    cases h' with
    | root _ => rfl
    | up h' hne _ => exact absurd (some.inj (h'.symm.trans h)) hne
  | up h hne _ ih =>
    cases h' with
    | root h' => exact absurd (some.inj (h.symm.trans h')) hne
    | up h' _ hr' => exact ih (some.inj (h.symm.trans h') ▸ hr')

/-- The parents of `nodes`: never above their element, and linked to it by the edges. -/
structure Forest (nodes : Finset α) (E : α → α → Prop) (parent : Parents α) : Prop where
  total : ∀ x ∈ nodes, ∃ p, parent.lookup x = some p
  link : ∀ x p, parent.lookup x = some p → p ∈ nodes ∧ p ≤ x ∧ EqvGen E x p

/-- How many nodes lie below `x`: what bounds the path to its root. -/
def below (nodes : Finset α) (x : α) : ℕ := (nodes.filter (· < x)).card

theorem below_lt {y : α} (hy : y ∈ nodes) (hlt : y < x) : below nodes y < below nodes x := by
  refine Finset.card_lt_card ⟨fun z hz => ?_, fun hsub => ?_⟩
  · simp only [Finset.mem_filter] at hz ⊢
    exact ⟨hz.1, hz.2.trans hlt⟩
  · exact lt_irrefl y (Finset.mem_filter.mp (hsub (Finset.mem_filter.mpr ⟨hy, hlt⟩))).2

theorem below_lt_card (hx : x ∈ nodes) : below nodes x < nodes.card := by
  refine Finset.card_lt_card ⟨Finset.filter_subset _ _, fun hsub => ?_⟩
  exact lt_irrefl x (Finset.mem_filter.mp (hsub hx)).2

variable (h : Forest nodes E parent)

include h in
theorem Forest.exists_root (hx : x ∈ nodes) : ∃ r, RootOf parent x r := by
  induction hn : below nodes x using Nat.strong_induction_on generalizing x with
  | h n ih =>
    obtain ⟨p, hp⟩ := h.total x hx
    obtain ⟨hmem, hle, -⟩ := h.link x p hp
    by_cases hpx : p = x
    · subst hpx
      exact ⟨p, .root hp⟩
    · have hlt : below nodes p < n := hn ▸ below_lt hmem (lt_of_le_of_ne hle hpx)
      obtain ⟨r, hr⟩ := ih _ hlt hmem rfl
      exact ⟨r, .up hp hpx hr⟩

include h in
theorem Forest.rootOf_spec (hr : RootOf parent x r) :
    r ∈ nodes ∧ EqvGen E x r := by
  induction hr with
  | root hx => exact ⟨(h.link _ _ hx).1, .refl _⟩
  | up hx _ _ ih => exact ⟨ih.1, .trans _ _ _ (h.link _ _ hx).2.2 ih.2⟩

/-! ### One operation -/

include h in
theorem Forest.insert_link {a b : α} (hb : b ∈ nodes) (hle : b ≤ a) (hE : EqvGen E a b) :
    Forest nodes E (parent.insert a b) := by
  refine ⟨fun y hy => ?_, fun y p hp => ?_⟩ <;> by_cases hya : y = a
  · exact ⟨b, by rw [hya, lookup_insert]⟩
  · rw [lookup_insert_of_ne _ hya]
    exact h.total y hy
  · subst hya
    obtain rfl : b = p := by simpa [lookup_insert] using hp
    exact ⟨hb, hle, hE⟩
  · rw [lookup_insert_of_ne _ hya] at hp
    exact h.link y p hp

include h in
theorem Forest.halve {px up : α} (hx : parent.lookup x = some px)
    (hne : px ≠ x) (hup : parent.lookup px = some up) : Forest nodes E (parent.insert x up) ∧
      ∀ y r, RootOf parent y r → RootOf (parent.insert x up) y r := by
  obtain ⟨hpmem, hple, hpE⟩ := h.link x px hx
  obtain ⟨humem, hule, huE⟩ := h.link px up hup
  have hlt : up < x := lt_of_le_of_lt hule (lt_of_le_of_ne hple hne)
  refine ⟨h.insert_link humem hlt.le (.trans _ _ _ hpE huE), fun y r hr => ?_⟩
  · have hpx : (parent.insert x up).lookup px = some up := by
      rw [lookup_insert_of_ne _ hne, hup]
    induction hr with
    | @root y hy =>
      have hyx : y ≠ x := by
        rintro rfl
        exact hne (some.inj (hx.symm.trans hy))
      exact .root (by rw [lookup_insert_of_ne _ hyx, hy])
    | @up y z r hy hzy _ ih =>
      by_cases hyx : y = x
      · subst hyx
        obtain rfl := some.inj (hx.symm.trans hy)
        -- the path goes past `px`: what follows it is the same
        have hur : RootOf (parent.insert y up) up r := by
          cases ih with
          | root hroot =>
            obtain rfl := some.inj (hpx.symm.trans hroot)
            exact .root hroot
          | up hz _ hr => exact some.inj (hpx.symm.trans hz) ▸ hr
        exact .up (lookup_insert _) hlt.ne hur
      · exact .up (by rw [lookup_insert_of_ne _ hyx, hy]) hzy ih

include h in
theorem Forest.join {big small : α} (hbig : parent.lookup big = some big)
    (hsmall : parent.lookup small = some small) (hlt : small < big) (hE : EqvGen E big small) :
    Forest nodes E (parent.insert big small) ∧ ∀ y r, RootOf parent y r →
        RootOf (parent.insert big small) y (if r = big then small else r) := by
  have hsmall' : (parent.insert big small).lookup small = some small := by
    rw [lookup_insert_of_ne _ hlt.ne, hsmall]
  refine ⟨h.insert_link (h.link _ _ hsmall).1 hlt.le hE, fun y r hr => ?_⟩
  · induction hr with
    | @root y hy =>
      by_cases hyb : y = big
      · rw [if_pos hyb, hyb]
        exact .up (lookup_insert _) hlt.ne (.root hsmall')
      · rw [if_neg hyb]
        exact .root (by rw [lookup_insert_of_ne _ hyb, hy])
    | @up y z r hy hzy _ ih =>
      have hyb : y ≠ big := by
        rintro rfl
        exact hzy (some.inj (hbig.symm.trans hy)).symm
      exact .up (by rw [lookup_insert_of_ne _ hyb, hy]) hzy ih

include h in
theorem find_spec {fuel : ℕ} (hx : x ∈ nodes) (hfuel : below nodes x < fuel) :
    ∃ parent' r, find fuel parent x = some (parent', r) ∧ Forest nodes E parent' ∧
      RootOf parent x r ∧ ∀ y r, RootOf parent y r → RootOf parent' y r := by
  induction fuel generalizing parent x with
  | zero => exact absurd hfuel (Nat.not_lt_zero _)
  | succ fuel ih =>
    obtain ⟨px, hpx⟩ := h.total x hx
    obtain ⟨hpmem, hple, -⟩ := h.link x px hpx
    by_cases hne : px = x
    · subst hne
      exact ⟨parent, px, by simp [find, hpx], h, .root hpx, fun _ _ h => h⟩
    · obtain ⟨up, hup⟩ := h.total px hpmem
      obtain ⟨humem, hule, -⟩ := h.link px up hup
      obtain ⟨hforest, hroots⟩ := h.halve hpx hne hup
      have hlt : below nodes up < fuel := by
        have := below_lt humem (lt_of_le_of_lt hule (lt_of_le_of_ne hple hne))
        omega
      obtain ⟨parent', r, hrun, hforest', hr, hkept⟩ := ih hforest humem hlt
      refine ⟨parent', r, by simp [find, hpx, hne, hup, hrun], hforest', ?_, fun y r hy => hkept y r (hroots y r hy)⟩
      -- the root found from `up` is the root of `x`
      obtain ⟨r₀, hr₀⟩ := h.exists_root humem
      obtain rfl := (hroots up r₀ hr₀).unique hr
      by_cases hupx : up = px
      · exact .up hpx hne (hupx ▸ hr₀)
      · exact .up hpx hne (.up hup hupx hr₀)

/-- Two elements of one class. -/
def SameRoot (parent : Parents α) (x y : α) : Prop := ∃ r, RootOf parent x r ∧ RootOf parent y r

include h in
theorem unite_spec (hroom : nodes.card < room) {a b : α}
    (ha : a ∈ nodes) (hb : b ∈ nodes) (hE : E a b) :
    ∃ parent', unite room parent (a, b) = some parent' ∧ Forest nodes E parent' ∧
      SameRoot parent' a b ∧ ∀ x y, SameRoot parent x y → SameRoot parent' x y := by
  obtain ⟨parent₁, ra, hrun₁, hforest₁, hra, hkept₁⟩ :=
    find_spec h ha ((below_lt_card ha).trans hroom)
  obtain ⟨parent₂, rb, hrun₂, hforest₂, hrb, hkept₂⟩ :=
    find_spec hforest₁ hb ((below_lt_card hb).trans hroom)
  have hra₂ := hkept₂ a ra (hkept₁ a ra hra)
  have hrb₂ := hkept₂ b rb hrb
  have hkept : ∀ x y, SameRoot parent x y → SameRoot parent₂ x y := fun x y ⟨r, hx, hy⟩ =>
    ⟨r, hkept₂ x r (hkept₁ x r hx), hkept₂ y r (hkept₁ y r hy)⟩
  by_cases hne : ra = rb
  · subst hne
    exact ⟨parent₂, by simp [unite, hrun₁, hrun₂], hforest₂, ⟨ra, hra₂, hrb₂⟩, hkept⟩
  · have hlink : EqvGen E ra rb :=
      .trans _ _ _ (.symm _ _ (hforest₂.rootOf_spec hra₂).2)
        (.trans _ _ _ (.rel _ _ hE) (hforest₂.rootOf_spec hrb₂).2)
    have hjoin : EqvGen E (max ra rb) (min ra rb) := by
      rcases le_total ra rb with hle | hle
      · simpa [hle] using hlink.symm
      · simpa [hle] using hlink
    have hmax : parent₂.lookup (max ra rb) = some (max ra rb) := by
      rcases max_choice ra rb with hm | hm <;> rw [hm]
      · exact hra₂.lookup
      · exact hrb₂.lookup
    have hmin : parent₂.lookup (min ra rb) = some (min ra rb) := by
      rcases min_choice ra rb with hm | hm <;> rw [hm]
      · exact hra₂.lookup
      · exact hrb₂.lookup
    obtain ⟨hforest₃, hroots⟩ := hforest₂.join hmax hmin (min_lt_max.mpr hne) hjoin
    have hmoved : ∀ r, r = ra ∨ r = rb → (if r = max ra rb then min ra rb else r) = min ra rb := by
      rintro r (rfl | rfl) <;> split_ifs with hr <;> grind
    refine ⟨_, by simp [unite, hrun₁, hrun₂, hne], hforest₃, ⟨min ra rb, ?_, ?_⟩, fun x y hxy => ?_⟩
    · have hroot := hroots a ra hra₂
      rwa [hmoved ra (.inl rfl)] at hroot
    · have hroot := hroots b rb hrb₂
      rwa [hmoved rb (.inr rfl)] at hroot
    · obtain ⟨r, hx, hy⟩ := hkept x y hxy
      exact ⟨_, hroots x r hx, hroots y r hy⟩

/-! ### All components -/

theorem foldlM_unite_spec (hroom : nodes.card < room) (edges : List (α × α))
    (hedges : ∀ e ∈ edges, e.1 ∈ nodes ∧ e.2 ∈ nodes ∧ E e.1 e.2) (h : Forest nodes E parent) :
    ∃ parent', edges.foldlM (unite room) parent = some parent' ∧ Forest nodes E parent' ∧
      (∀ e ∈ edges, SameRoot parent' e.1 e.2) ∧ ∀ x y, SameRoot parent x y → SameRoot parent' x y := by
  induction edges generalizing parent with
  | nil => exact ⟨parent, rfl, h, by simp, fun _ _ h => h⟩
  | cons e edges ih =>
    obtain ⟨ha, hb, hE⟩ := hedges e mem_cons_self
    obtain ⟨parent₁, hrun₁, hforest₁, hsame₁, hkept₁⟩ := unite_spec h hroom ha hb hE
    obtain ⟨parent₂, hrun₂, hforest₂, hsame₂, hkept₂⟩ :=
      ih (fun e he => hedges e (mem_cons_of_mem _ he)) hforest₁
    refine ⟨parent₂, ?_, hforest₂, fun e' he' => ?_, fun x y hxy => hkept₂ x y (hkept₁ x y hxy)⟩
    · rw [foldlM_cons, hrun₁]
      exact hrun₂
    · rcases mem_cons.mp he' with rfl | he'
      · exact hkept₂ _ _ hsame₁
      · exact hsame₂ e' he'

theorem lookup_foldl_insert (l : List α) (x : α) :
    (l.foldl (fun (parent : Parents α) h => parent.insert h h) ∅).lookup x = if x ∈ l then some x else none := by
  induction l using reverseRecOn with
  | nil => simp
  | append_singleton l h ih =>
    rw [foldl_concat]
    by_cases hxh : x = h
    · rw [hxh, lookup_insert]
      simp
    · rw [lookup_insert_of_ne _ hxh, ih]
      simp [hxh]

include h in
theorem rootsOf_spec (hroom : nodes.card < room) (hs : List α)
    (hmem : ∀ x ∈ hs, x ∈ nodes) : ∃ roots, rootsOf room parent hs = some roots ∧ roots.map Prod.fst = hs ∧
      ∀ p ∈ roots, RootOf parent p.1 p.2 := by
  induction hs generalizing parent with
  | nil => exact ⟨[], rfl, rfl, by simp⟩
  | cons x hs ih =>
    have hx := hmem x mem_cons_self
    obtain ⟨parent', r, hrun, hforest', hr, hkept⟩ :=
      find_spec h hx ((below_lt_card hx).trans hroom)
    obtain ⟨roots, hroots, hfst, hall⟩ := ih hforest' fun y hy => hmem y (mem_cons_of_mem x hy)
    refine ⟨(x, r) :: roots, by simp [rootsOf, hrun, hroots], by simp [hfst], fun p hp => ?_⟩
    rcases mem_cons.mp hp with rfl | hp
    · exact hr
    · have hpn : p.1 ∈ nodes := hmem _ (mem_cons_of_mem x (hfst ▸ mem_map_of_mem hp))
      obtain ⟨r₀, hr₀⟩ := h.exists_root hpn
      exact (hkept _ _ hr₀).unique (hall p hp) ▸ hr₀

theorem sameRoot_of_eqvGen (hE : ∀ a b, E a b → SameRoot parent a b) {y : α}
    (h : EqvGen E x y) : x = y ∨ SameRoot parent x y := by
  induction h with
  | rel x y hxy => exact .inr (hE x y hxy)
  | refl x => exact .inl rfl
  | symm x y _ ih => exact ih.imp Eq.symm fun ⟨r, hx, hy⟩ => ⟨r, hy, hx⟩
  | trans x y z _ _ ihxy ihyz =>
    rcases ihxy with rfl | ⟨r, hx, hy⟩
    · exact ihyz
    · rcases ihyz with rfl | ⟨r', hy', hz⟩
      · exact .inr ⟨r, hx, hy⟩
      · exact .inr ⟨r, hx, hy.unique hy' ▸ hz⟩

theorem mem_groupByRoot {roots : List (α × α)} {g : List α} : g ∈ groupByRoot roots ↔ ∃ r, (∃ x, (x, r) ∈ roots) ∧
      g = (roots.filter fun p => p.2 == r).map Prod.fst := by
  simp only [groupByRoot, List.mem_map, mem_sortedDistinct, Prod.exists, exists_eq_right]
  grind

theorem mem_group {roots : List (α × α)} : x ∈ (roots.filter fun p => p.2 == r).map Prod.fst ↔ (x, r) ∈ roots := by
  simp

theorem components_spec (nodes : List α) (edges : List (α × α)) (hedges : ∀ e ∈ edges, e.1 ∈ nodes ∧ e.2 ∈ nodes) :
    ∃ comps, components nodes edges = some comps ∧ (∀ g ∈ comps, g ≠ []) ∧ (∀ x ∈ nodes, ∃ g ∈ comps, x ∈ g) ∧
      comps.Pairwise (fun g g' => ∀ x ∈ g, x ∉ g') ∧ ∀ g ∈ comps, g.Pairwise (· < ·) ∧ ∀ x ∈ g, ∀ y,
        y ∈ g ↔ y ∈ nodes ∧ EqvGen (fun a b => (a, b) ∈ edges) x y := by
  let E : α → α → Prop := fun a b => (a, b) ∈ edges
  have hinit : Forest nodes.toFinset E (nodes.foldl (fun parent h => parent.insert h h) ∅) := by
    refine ⟨fun x hx => ⟨x, ?_⟩, fun x p hp => ?_⟩
    · rw [lookup_foldl_insert, if_pos (mem_toFinset.mp hx)]
    · rw [lookup_foldl_insert] at hp
      split_ifs at hp with hx
      obtain rfl : x = p := by simpa using hp
      exact ⟨mem_toFinset.mpr hx, le_rfl, .refl x⟩
  have hroom : nodes.toFinset.card < nodes.length + 1 :=
    Nat.lt_succ_of_le (toFinset_card_le nodes)
  obtain ⟨parent, hfold, hforest, hsame, -⟩ := foldlM_unite_spec hroom edges
    (fun e he => ⟨mem_toFinset.mpr (hedges e he).1, mem_toFinset.mpr (hedges e he).2, he⟩)
    hinit
  obtain ⟨roots, hroots, hfst, hall⟩ := rootsOf_spec hforest hroom (sortedDistinct nodes)
    fun x hx => mem_toFinset.mpr (mem_sortedDistinct.mp hx)
  have hmem : ∀ x, (∃ r, (x, r) ∈ roots) ↔ x ∈ nodes := fun x => by
    rw [← mem_sortedDistinct, ← hfst]
    simp
  refine ⟨groupByRoot roots, by simp [components, hfold, hroots], fun g hg => ?_, fun x hx => ?_, ?_, fun g hg => ?_⟩
  · obtain ⟨r, ⟨x, hx⟩, rfl⟩ := mem_groupByRoot.mp hg
    exact ne_nil_of_mem (mem_group.mpr hx)
  · obtain ⟨r, hr⟩ := (hmem x).mpr hx
    exact ⟨_, mem_groupByRoot.mpr ⟨r, ⟨x, hr⟩, rfl⟩, mem_group.mpr hr⟩
  · refine pairwise_map.mpr ((pairwise_sortedDistinct _).imp fun {r r'} hlt x hx hx' => ?_)
    exact hlt.ne ((hall _ (mem_group.mp hx)).unique (hall _ (mem_group.mp hx')))
  · obtain ⟨r, -, rfl⟩ := mem_groupByRoot.mp hg
    refine ⟨?_, fun x hx y => ?_⟩
    · have hsorted := pairwise_sortedDistinct nodes
      rw [← hfst] at hsorted
      exact hsorted.sublist (filter_sublist.map Prod.fst)
    · have hxr := hall _ (mem_group.mp hx)
      rw [mem_group]
      constructor
      · intro hy
        refine ⟨(hmem y).mp ⟨r, hy⟩, ?_⟩
        exact .trans _ _ _ (hforest.rootOf_spec hxr).2 (.symm _ _ (hforest.rootOf_spec (hall _ hy)).2)
      · rintro ⟨hy, hxy⟩
        obtain ⟨r', hy'⟩ := (hmem y).mpr hy
        suffices r' = r from this ▸ hy'
        rcases sameRoot_of_eqvGen (fun a b hab => hsame (a, b) hab) hxy with rfl | ⟨r₀, hx₀, hy₀⟩
        · exact (hall _ hy').unique hxr
        · exact ((hall _ hy').unique hy₀).trans (hx₀.unique hxr)

end UnionFind

end DashForge
