import Mathlib.Data.List.Nodup
import Mathlib.Data.List.Perm.Basic
import Mathlib.Logic.Function.Iterate

/-!
# Forests given by bases

A forest in which every node names its base, with the roots and the kids of every node listed.
`preorder` lists a node and everything above it, a node before its kids; over all the roots it
lists every node exactly once (`perm_preorder_roots`).

`drain` is the walk with an explicit stack: it takes a node off the stack and puts its kids on. It
visits the nodes in `preorder`, so it stops after as many steps as there are nodes
(`drain_eq_some`).
-/

namespace DashForge

open List

variable {α : Type*}

/-- The bases of `nodes` form a forest of depth at most `bound`, whose roots and kids are listed by
`roots` and `kids`. -/
structure IsForest (nodes : List α) (base : α → Option α) (roots : List α) (kids : α → List α)
    (depth : α → ℕ) (bound : ℕ) : Prop where
  nodup : nodes.Nodup
  base_mem : ∀ i ∈ nodes, ∀ b, base i = some b → b ∈ nodes
  depth_root : ∀ i ∈ nodes, base i = none → depth i = 0
  depth_base : ∀ i ∈ nodes, ∀ b, base i = some b → depth i = depth b + 1
  depth_le : ∀ i ∈ nodes, depth i ≤ bound
  roots_nodup : roots.Nodup
  mem_roots : ∀ i, i ∈ roots ↔ i ∈ nodes ∧ base i = none
  kids_nodup : ∀ c, (kids c).Nodup
  mem_kids : ∀ c i, i ∈ kids c ↔ i ∈ nodes ∧ base i = some c

/-- The nodes at most `k` levels above `c`, less the last level. -/
def preorderUpTo (kids : α → List α) : ℕ → α → List α
  | 0, _ => []
  | k + 1, c => c :: (kids c).flatMap (preorderUpTo kids k)

/-- `c` and everything above it, a node before its kids. -/
def preorder (kids : α → List α) (depth : α → ℕ) (bound : ℕ) (c : α) : List α :=
  preorderUpTo kids (bound + 1 - depth c) c

/-- The base `k` steps down from `x`. -/
def baseAt (base : α → Option α) (k : ℕ) (x : α) : Option α :=
  (fun o => o.bind base)^[k] (some x)

theorem baseAt_succ (base : α → Option α) (k : ℕ) (x : α) : baseAt base (k + 1) x = (baseAt base k x).bind base :=
  Function.iterate_succ_apply' _ _ _

namespace IsForest

variable {nodes : List α} {base : α → Option α} {roots : List α} {kids : α → List α}
  {depth : α → ℕ} {bound : ℕ} (h : IsForest nodes base roots kids depth bound)
include h

variable {c i x : α}

theorem kid_mem (hi : i ∈ kids c) : i ∈ nodes := ((h.mem_kids c i).mp hi).1

theorem depth_kid (hi : i ∈ kids c) : depth i = depth c + 1 :=
  h.depth_base i (h.kid_mem hi) c ((h.mem_kids c i).mp hi).2

theorem root_mem (hi : i ∈ roots) : i ∈ nodes := ((h.mem_roots i).mp hi).1

theorem preorder_eq (hc : c ∈ nodes) :
    preorder kids depth bound c = c :: (kids c).flatMap (preorder kids depth bound) := by
  have hle := h.depth_le c hc
  rw [preorder, show bound + 1 - depth c = bound - depth c + 1 by omega, preorderUpTo]
  refine congrArg (c :: ·) (flatMap_congr fun i hi => ?_)
  rw [preorder, h.depth_kid hi, Nat.add_sub_add_right]

theorem mem_preorder_self (hc : c ∈ nodes) : c ∈ preorder kids depth bound c := by
  rw [h.preorder_eq hc]
  exact mem_cons_self

/-- Everything listed above `c` is a node with `c` under it, at the distance of their depths. -/
theorem baseAt_of_mem_preorder (hc : c ∈ nodes) (hx : x ∈ preorder kids depth bound c) :
    x ∈ nodes ∧ depth c ≤ depth x ∧ baseAt base (depth x - depth c) x = some c := by
  -- by induction on the levels that are left above `c`
  induction hk : bound - depth c generalizing c with
  | zero =>
    rw [h.preorder_eq hc, mem_cons] at hx
    rcases hx with rfl | hx
    · exact ⟨hc, Nat.le_refl _, by rw [Nat.sub_self]; rfl⟩
    · obtain ⟨i, hi, -⟩ := mem_flatMap.mp hx
      have := h.depth_kid hi
      have := h.depth_le i (h.kid_mem hi)
      omega
  | succ k ih =>
    rw [h.preorder_eq hc, mem_cons] at hx
    rcases hx with rfl | hx
    · exact ⟨hc, Nat.le_refl _, by rw [Nat.sub_self]; rfl⟩
    · obtain ⟨i, hi, hxi⟩ := mem_flatMap.mp hx
      have hdepth := h.depth_kid hi
      obtain ⟨hmem, hle, hbase⟩ := ih (h.kid_mem hi) hxi (by omega)
      refine ⟨hmem, by omega, ?_⟩
      rw [show depth x - depth c = depth x - depth i + 1 by omega, baseAt_succ, hbase]
      exact ((h.mem_kids c i).mp hi).2

theorem kid_mem_preorder {b : α} (hc : c ∈ nodes) (hb : b ∈ preorder kids depth bound c)
    (hx : x ∈ kids b) : x ∈ preorder kids depth bound c := by
  induction hk : bound - depth c generalizing c with
  | zero =>
    rw [h.preorder_eq hc, mem_cons] at hb
    rcases hb with rfl | hb
    · have := h.depth_kid hx
      have := h.depth_le x (h.kid_mem hx)
      omega
    · obtain ⟨i, hi, -⟩ := mem_flatMap.mp hb
      have := h.depth_kid hi
      have := h.depth_le i (h.kid_mem hi)
      omega
  | succ k ih =>
    rw [h.preorder_eq hc] at hb ⊢
    refine mem_cons_of_mem _ (mem_flatMap.mpr ?_)
    rcases mem_cons.mp hb with rfl | hb
    · exact ⟨x, hx, h.mem_preorder_self (h.kid_mem hx)⟩
    · obtain ⟨i, hi, hbi⟩ := mem_flatMap.mp hb
      have := h.depth_kid hi
      exact ⟨i, hi, ih (h.kid_mem hi) hbi (by omega)⟩

theorem disjoint_preorder {d : α} (hc : c ∈ nodes) (hd : d ∈ nodes) (hdepth : depth c = depth d) (hne : c ≠ d) :
    List.Disjoint (preorder kids depth bound c) (preorder kids depth bound d) := by
  intro x hxc hxd
  obtain ⟨-, -, hbase⟩ := h.baseAt_of_mem_preorder hc hxc
  obtain ⟨-, -, hbase'⟩ := h.baseAt_of_mem_preorder hd hxd
  rw [hdepth, hbase'] at hbase
  exact hne (Option.some.inj hbase).symm

theorem nodup_preorder (hc : c ∈ nodes) : (preorder kids depth bound c).Nodup := by
  induction hk : bound - depth c using Nat.strongRecOn generalizing c with
  | ind k ih =>
    rw [h.preorder_eq hc, nodup_cons, nodup_flatMap]
    refine ⟨fun hmem => ?_, fun i hi => ?_, ?_⟩
    · obtain ⟨i, hi, hci⟩ := mem_flatMap.mp hmem
      have := (h.baseAt_of_mem_preorder (h.kid_mem hi) hci).2.1
      have := h.depth_kid hi
      omega
    · have := h.depth_kid hi
      have := h.depth_le i (h.kid_mem hi)
      exact ih _ (by omega) (h.kid_mem hi) rfl
    · refine (h.kids_nodup c).imp_of_mem fun {i j} hi hj hne => ?_
      refine h.disjoint_preorder (h.kid_mem hi) (h.kid_mem hj) ?_ hne
      rw [h.depth_kid hi, h.depth_kid hj]

theorem mem_preorder_roots : x ∈ roots.flatMap (preorder kids depth bound) ↔ x ∈ nodes := by
  constructor
  · intro hx
    obtain ⟨r, hr, hxr⟩ := mem_flatMap.mp hx
    exact (h.baseAt_of_mem_preorder (h.root_mem hr) hxr).1
  · intro hx
    induction hk : depth x generalizing x with
    | zero =>
      cases hbase : base x with
      | none =>
        exact mem_flatMap.mpr ⟨x, (h.mem_roots x).mpr ⟨hx, hbase⟩, h.mem_preorder_self hx⟩
      | some b =>
        have := h.depth_base x hx b hbase
        omega
    | succ k ih =>
      cases hbase : base x with
      | none =>
        have := h.depth_root x hx hbase
        omega
      | some b =>
        have hdepth := h.depth_base x hx b hbase
        obtain ⟨r, hr, hbr⟩ := mem_flatMap.mp (ih (h.base_mem x hx b hbase) (by omega))
        exact mem_flatMap.mpr
          ⟨r, hr, h.kid_mem_preorder (h.root_mem hr) hbr ((h.mem_kids b x).mpr ⟨hx, hbase⟩)⟩

theorem nodup_preorder_roots : (roots.flatMap (preorder kids depth bound)).Nodup := by
  rw [nodup_flatMap]
  refine ⟨fun r hr => h.nodup_preorder (h.root_mem hr), ?_⟩
  refine h.roots_nodup.imp_of_mem fun {r s} hr hs hne => ?_
  have hdepth : ∀ t ∈ roots, depth t = 0 := fun t ht =>
    h.depth_root t (h.root_mem ht) ((h.mem_roots t).mp ht).2
  exact h.disjoint_preorder (h.root_mem hr) (h.root_mem hs)
    ((hdepth r hr).trans (hdepth s hs).symm) hne

/-- Over all the roots every node is listed exactly once. -/
theorem perm_preorder_roots : (roots.flatMap (preorder kids depth bound)).Perm nodes :=
  (perm_ext_iff_of_nodup h.nodup_preorder_roots h.nodup).mpr fun _ => h.mem_preorder_roots

/-- Reordering roots and kids leaves a forest. -/
theorem of_perm {roots' : List α} {kids' : α → List α} (hr : roots'.Perm roots)
    (hk : ∀ c, (kids' c).Perm (kids c)) : IsForest nodes base roots' kids' depth bound where
  nodup := h.nodup
  base_mem := h.base_mem
  depth_root := h.depth_root
  depth_base := h.depth_base
  depth_le := h.depth_le
  roots_nodup := hr.nodup_iff.mpr h.roots_nodup
  mem_roots i := hr.mem_iff.trans (h.mem_roots i)
  kids_nodup c := (hk c).nodup_iff.mpr (h.kids_nodup c)
  mem_kids c i := (hk c).mem_iff.trans (h.mem_kids c i)

end IsForest

/-! ### The walk with an explicit stack -/

/-- Take a node off the stack and put its kids on, until the stack is empty; `none` when `fuel` runs
out first. -/
def drain (kids : α → List α) : ℕ → List α → List α → Option (List α)
  | _, [], out => some out
  | 0, _ :: _, _ => none
  | fuel + 1, i :: pending, out => drain kids fuel (kids i ++ pending) (out ++ [i])

theorem IsForest.drain_eq_some {nodes : List α} {base : α → Option α} {roots : List α}
    {kids : α → List α} {depth : α → ℕ} {bound : ℕ}
    (h : IsForest nodes base roots kids depth bound) {fuel : ℕ} {pending : List α} (hp : ∀ i ∈ pending, i ∈ nodes)
    (hf : (pending.flatMap (preorder kids depth bound)).length ≤ fuel) (out : List α) :
    drain kids fuel pending out = some (out ++ pending.flatMap (preorder kids depth bound)) := by
  induction fuel generalizing pending out with
  | zero =>
    cases pending with
    | nil => simp [drain]
    | cons i pending =>
      rw [flatMap_cons, h.preorder_eq (hp i mem_cons_self)] at hf
      simp at hf
  | succ fuel ih =>
    cases pending with
    | nil => simp [drain]
    | cons i pending =>
      have hi := hp i mem_cons_self
      -- the kids of `i` are what its preorder has after `i`
      have hsplit : (i :: pending).flatMap (preorder kids depth bound) =
          i :: (kids i ++ pending).flatMap (preorder kids depth bound) := by
        rw [flatMap_cons, h.preorder_eq hi, flatMap_append, cons_append]
      rw [hsplit, length_cons] at hf
      have hp' : ∀ j ∈ kids i ++ pending, j ∈ nodes := by
        intro j hj
        rcases mem_append.mp hj with hj | hj
        · exact h.kid_mem hj
        · exact hp j (mem_cons_of_mem _ hj)
      rw [drain, ih hp' (by omega), hsplit, append_assoc, singleton_append]

end DashForge
