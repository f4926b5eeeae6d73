import DashForge.Graph.Kahn
import DashForge.Rules.RefUpdate
import Mathlib.Data.List.SplitBy

/-!
# The causal order of ref updates

`causalOrder` is the order ref resolution folds in (`rules.rs`): ascending `createdAt`, and within
one `createdAt` (one block) an update comes after the ones it builds on, cycles broken at the
smallest `id`. Blocks are placed by `Kahn.order` on their positions.

What the folds use of it: it lists the given updates (`perm_causalOrder`), it does not depend on
the input order when ids are distinct (`causalOrder_eq_of_perm`), and updates of later blocks
only append to it (`causalOrder_append`).
-/

namespace DashForge

open List

/-- Whether `v` recorded `u`'s tip as its `prevOid` and moved the ref somewhere else. -/
def buildsOn (v u : RefUpdate) : Bool :=
  !isNullOid v.prevOid && v.prevOid == u.newOid && v.newOid != u.newOid

/-- `buildsOn` between two positions of a block. -/
def buildsOnAt (block : List RefUpdate) (i j : ℕ) : Bool :=
  match block[i]?, block[j]? with
  | some v, some u => buildsOn v u
  | _, _ => false

/-- One block in the order its updates are placed. -/
def placeBlock (block : List RefUpdate) : List RefUpdate :=
  (Kahn.order block.length (buildsOnAt block)).filterMap fun i => block[i]?

/-- The updates of each `createdAt`, ascending, each block sorted by `id`. -/
def blocks (updates : List RefUpdate) : List (List RefUpdate) :=
  (sortByKey RefUpdate.key updates).splitBy fun a b => a.createdAt == b.createdAt

/-- One ref's updates in the order resolution folds them. -/
def causalOrder (updates : List RefUpdate) : List RefUpdate :=
  (blocks updates).flatMap placeBlock

/-! ### It lists the given updates -/

private theorem filterMap_getElem?_range {α : Type*} (l : List α) :
    (List.range l.length).filterMap (fun i => l[i]?) = l := by
  induction l with
  | nil => rfl
  | cons a l ih =>
    rw [length_cons, range_succ_eq_map, filterMap_cons, filterMap_map]
    simpa using ih

theorem perm_placeBlock (block : List RefUpdate) : (placeBlock block).Perm block := by
  have hperm := (Kahn.perm_order block.length (buildsOnAt block)).filterMap fun i => block[i]?
  rwa [filterMap_getElem?_range] at hperm

theorem perm_causalOrder (updates : List RefUpdate) : (causalOrder updates).Perm updates := by
  have hflat : (blocks updates).flatMap id = sortByKey RefUpdate.key updates := by
    rw [flatMap_id, blocks, flatten_splitBy]
  have hblocks : (causalOrder updates).Perm ((blocks updates).flatMap id) :=
    List.Perm.flatMap_left _ fun block _ => perm_placeBlock block
  rw [hflat] at hblocks
  exact hblocks.trans (perm_sortByKey RefUpdate.key updates)

@[simp]
theorem mem_causalOrder {updates : List RefUpdate} {u : RefUpdate} : u ∈ causalOrder updates ↔ u ∈ updates :=
  (perm_causalOrder updates).mem_iff

/-- Times only grow along the order. -/
theorem pairwise_causalOrder (updates : List RefUpdate) :
    (causalOrder updates).Pairwise fun u v => u.createdAt ≤ v.createdAt := by
  have hsorted : (sortByKey RefUpdate.key updates).Pairwise fun u v => u.createdAt ≤ v.createdAt :=
    (pairwise_sortByKey RefUpdate.key updates).imp fun h => Prod.Lex.monotone_fst _ _ h
  have hflat : ((blocks updates).flatten).Pairwise fun u v => u.createdAt ≤ v.createdAt := by
    rw [blocks, flatten_splitBy]
    exact hsorted
  obtain ⟨-, hcross⟩ := pairwise_flatten.mp hflat
  refine pairwise_flatMap.mpr ⟨fun block hblock => ?_, hcross.imp fun h u hu v hv => ?_⟩
  · -- one block has one time
    have hchain := isChain_of_mem_splitBy hblock
    have htrans : IsTrans RefUpdate fun u v => (u.createdAt == v.createdAt) = true :=
      ⟨fun u v w huv hvw => by simp_all⟩
    have hsame : block.Pairwise fun u v => (u.createdAt == v.createdAt) = true := isChain_iff_pairwise.mp hchain
    have hall := (perm_placeBlock block).symm.pairwise hsame fun h => beq_iff_eq.mpr (beq_iff_eq.mp h).symm
    exact hall.imp fun h => (beq_iff_eq.mp h).le
  · exact h u ((perm_placeBlock _).mem_iff.mp hu) v ((perm_placeBlock _).mem_iff.mp hv)

/-! ### It depends on the set of updates only -/

theorem causalOrder_eq_of_perm {us us' : List RefUpdate} (hp : us.Perm us')
    (hids : (us.map RefUpdate.id).Nodup) : causalOrder us = causalOrder us' := by
  have hinj : Set.InjOn RefUpdate.key {u | u ∈ us} := injOn_key_of_nodup RefUpdate.createdAt hids
  rw [causalOrder, blocks, causalOrder, blocks, sortByKey_eq_of_perm _ hp hinj]

theorem causalOrder_sortByKey (updates : List RefUpdate) :
    causalOrder (sortByKey RefUpdate.key updates) = causalOrder updates := by
  rw [causalOrder, blocks, sortByKey_sortByKey, causalOrder, blocks]

theorem causalOrder_append {us later : List RefUpdate} (h : ∀ u ∈ us, ∀ v ∈ later, u.createdAt < v.createdAt) :
    causalOrder (us ++ later) = causalOrder us ++ causalOrder later := by
  have hkey : ∀ u ∈ us, ∀ v ∈ later, u.key ≤ v.key := fun u hu v hv =>
    (Prod.Lex.toLex_lt_toLex.mpr (Or.inl (h u hu v hv))).le
  rw [causalOrder, blocks, sortByKey_append _ hkey, splitBy_append, flatMap_append]
  · rfl
  · intro u hu v hv
    have hu' := (mem_sortByKey _).mp (mem_of_mem_getLast? hu)
    have hv' := (mem_sortByKey _).mp (mem_of_mem_head? hv)
    simpa using (h u hu' v hv').ne

end DashForge
