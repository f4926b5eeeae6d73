import DashForge.Data.Except
import DashForge.Rules.CausalOrder

/-!
# What the causal order says of chains

`causalOrder` with its failure points (`causalOrder?`) never fails, and in it an update stands before one of its block
that it builds on only if that one builds back on it through updates that do not stand earlier (`BuildsBack`): the two
are on a cycle of what was still to be placed.
-/

namespace DashForge

open List Option Relation

/-! ### Failure points -/

/-- One block, where placing it may fail. -/
def placeBlock? (block : List RefUpdate) : Option (List RefUpdate) :=
  (Kahn.order? block.length (buildsOnAt block)).map fun order => order.filterMap fun i => block[i]?

/-- The causal order, where placing a block may fail. -/
def causalOrder? (updates : List RefUpdate) : Option (List RefUpdate) :=
  ((blocks updates).mapM placeBlock?).map List.flatten

theorem placeBlock?_eq_some (block : List RefUpdate) : placeBlock? block = some (placeBlock block) := by
  obtain ⟨order, horder, -, -⟩ := Kahn.exists_order?_eq_some block.length (buildsOnAt block)
  simp [placeBlock?, placeBlock, Kahn.order, horder]

theorem causalOrder?_eq_some (updates : List RefUpdate) : causalOrder? updates = some (causalOrder updates) := by
  rw [causalOrder?, mapM_eq_some_map fun block _ => placeBlock?_eq_some block, map_some, causalOrder,
    flatMap_def]

/-! ### Chains -/

/-- In `l`, an update stands before one of its time that it builds on only if that one builds back on it through updates
of their time that do not stand earlier. -/
def BuildsBack (l : List RefUpdate) : Prop :=
  ∀ l₁ v l₂, l = l₁ ++ v :: l₂ → ∀ u ∈ l₂, u.createdAt = v.createdAt → buildsOn v u = true →
    ReflTransGen (fun a b => b ∈ v :: l₂ ∧ b.createdAt = v.createdAt ∧ buildsOn a b = true) u v

theorem buildsOnAt_eq_true {block : List RefUpdate} {i j : ℕ} :
    buildsOnAt block i j = true ↔ ∃ v u, block[i]? = some v ∧ block[j]? = some u ∧ buildsOn v u = true := by
  unfold buildsOnAt
  split
  · next v u hi hj => simp [hi, hj]
  · next hno =>
    refine ⟨nofun, ?_⟩
    rintro ⟨v, u, hi, hj, -⟩
    exact (hno v u hi hj).elim

theorem buildsBack_placeBlock {block : List RefUpdate} (hsame : ∀ u ∈ block, ∀ v ∈ block, u.createdAt = v.createdAt) :
    BuildsBack (placeBlock block) := by
  intro l₁ v l₂ hsplit u hu _ hbuilds
  -- The positions that were placed are split where the updates are.
  obtain ⟨p, q, horder, -, hq⟩ := filterMap_eq_append_iff.mp hsplit
  obtain ⟨q₁, i, q₂, rfl, hnone, hi, hq₂⟩ := filterMap_eq_cons_iff.mp hq
  rw [← append_assoc] at horder
  obtain ⟨j, hj, hju⟩ := mem_filterMap.mp (hq₂.symm ▸ hu)
  have hback := Kahn.waitsBack_order _ _ (p ++ q₁) i q₂ horder j hj (buildsOnAt_eq_true.mpr ⟨v, u, hi, hju, hbuilds⟩)
  have hmem {k : ℕ} {x : RefUpdate} (hk : k ∈ i :: q₂) (hx : block[k]? = some x) : x ∈ v :: l₂ := by
    rcases mem_cons.mp hk with rfl | hk
    · exact some.inj (hi.symm.trans hx) ▸ mem_cons_self
    · exact mem_cons_of_mem _ (hq₂ ▸ mem_filterMap.mpr ⟨k, hk, hx⟩)
  have hlift {k : ℕ} (hk : ReflTransGen (fun a b => b ∈ i :: q₂ ∧ buildsOnAt block a b = true) k i) :
      ∀ x, block[k]? = some x →
        ReflTransGen (fun a b => b ∈ v :: l₂ ∧ b.createdAt = v.createdAt ∧ buildsOn a b = true) x v := by
    induction hk using ReflTransGen.head_induction_on with
    | refl => exact fun x hx => some.inj (hx.symm.trans hi) ▸ .refl
    | head hstep _ ih =>
      intro x hx
      obtain ⟨hmem', hedge⟩ := hstep
      obtain ⟨a, b, ha, hb, hab⟩ := buildsOnAt_eq_true.mp hedge
      obtain rfl := some.inj (hx.symm.trans ha)
      exact .head ⟨hmem hmem' hb, hsame b (mem_of_getElem? hb) v (mem_of_getElem? hi), hab⟩ (ih b hb)
  exact hlift hback u hju

theorem BuildsBack.append {a b : List RefUpdate} (ha : BuildsBack a) (hb : BuildsBack b)
    (h : ∀ u ∈ a, ∀ v ∈ b, u.createdAt < v.createdAt) : BuildsBack (a ++ b) := by
  intro l₁ v l₂ hsplit u hu htime hbuilds
  rcases append_eq_append_iff.mp hsplit with ⟨c, rfl, rfl⟩ | ⟨c, rfl, hc⟩
  · exact hb c v l₂ rfl u hu htime hbuilds
  · cases c with
    | nil => exact hb [] v l₂ hc.symm u hu htime hbuilds
    | cons x c =>
      obtain ⟨rfl, rfl⟩ := List.cons.inj hc
      rcases mem_append.mp hu with hu | hu
      · refine ReflTransGen.mono ?_ _ _ (ha l₁ v c rfl u hu htime hbuilds)
        rintro x y ⟨hy, hrest⟩
        exact ⟨mem_append_left b hy, hrest⟩
      · exact absurd htime.symm (h v (by simp) u hu).ne

theorem buildsBack_nil : BuildsBack [] := by
  intro l₁ v l₂ hsplit
  simp at hsplit

/-! ### Blocks -/

theorem createdAt_of_mem_blocks {updates block : List RefUpdate} (hblock : block ∈ blocks updates) :
    ∀ u ∈ block, ∀ v ∈ block, u.createdAt = v.createdAt := by
  have hchain := isChain_of_mem_splitBy hblock
  have htrans : IsTrans RefUpdate fun u v => (u.createdAt == v.createdAt) = true :=
    ⟨fun u v w huv hvw => by simp_all⟩
  have hpair : block.Pairwise fun u v => u.createdAt = v.createdAt :=
    (isChain_iff_pairwise.mp hchain).imp beq_iff_eq.mp
  have hsymm : Std.Symm fun u v : RefUpdate => u.createdAt = v.createdAt := ⟨fun _ _ h => h.symm⟩
  intro u hu v hv
  exact List.Pairwise.forall_of_forall (R := fun u v : RefUpdate => u.createdAt = v.createdAt)
    (fun _ _ => rfl) hpair hu hv

theorem pairwise_blocks (updates : List RefUpdate) :
    (blocks updates).Pairwise fun a b => ∀ u ∈ a, ∀ v ∈ b, u.createdAt < v.createdAt := by
  have hflat : ((blocks updates).flatten).Pairwise fun u v => u.createdAt ≤ v.createdAt := by
    rw [blocks, flatten_splitBy]
    exact (pairwise_sortByKey RefUpdate.key updates).imp fun h => Prod.Lex.monotone_fst _ _ h
  have hle := (pairwise_flatten.mp hflat).2
  have hends := isChain_getLast_head_splitBy (fun a b : RefUpdate => a.createdAt == b.createdAt)
    (sortByKey RefUpdate.key updates)
  -- Neighbours first: their ends have different times, and each is of one time.
  have hnext : (blocks updates).IsChain fun a b => b ≠ [] ∧ ∀ u ∈ a, ∀ v ∈ b, u.createdAt < v.createdAt := by
    refine isChain_iff_forall_rel_of_append_cons_cons.mpr fun a b l₁ l₂ hsplit => ?_
    obtain ⟨hane, hbne, hdiff⟩ := isChain_iff_forall_rel_of_append_cons_cons.mp hends hsplit
    rw [hsplit] at hle
    have hab := (pairwise_cons.mp (pairwise_append.mp hle).2.1).1 b mem_cons_self
    have ha : a ∈ blocks updates := by rw [hsplit]; simp
    have hb : b ∈ blocks updates := by rw [hsplit]; simp
    refine ⟨hbne, fun u hu v hv => ?_⟩
    have hlt : (a.getLast hane).createdAt < (b.head hbne).createdAt :=
      lt_of_le_of_ne (hab _ (getLast_mem hane) _ (head_mem hbne)) (by simpa using hdiff)
    rwa [createdAt_of_mem_blocks ha u hu _ (getLast_mem hane), createdAt_of_mem_blocks hb v hv _ (head_mem hbne)]
  have htrans : IsTrans (List RefUpdate) fun a b => b ≠ [] ∧ ∀ u ∈ a, ∀ v ∈ b, u.createdAt < v.createdAt := by
    refine ⟨fun a b c hab hbc => ⟨hbc.1, fun u hu v hv => ?_⟩⟩
    obtain ⟨w, hw⟩ := exists_mem_of_ne_nil b hab.1
    exact (hab.2 u hu w hw).trans (hbc.2 w hw v hv)
  exact (isChain_iff_pairwise.mp hnext).imp And.right

theorem buildsBack_causalOrder (updates : List RefUpdate) : BuildsBack (causalOrder updates) := by
  have hall : ∀ bs : List (List RefUpdate), (∀ b ∈ bs, ∀ u ∈ b, ∀ v ∈ b, u.createdAt = v.createdAt) →
      (bs.Pairwise fun a b => ∀ u ∈ a, ∀ v ∈ b, u.createdAt < v.createdAt) → BuildsBack (bs.flatMap placeBlock) := by
    intro bs hsame hpair
    induction bs with
    | nil => exact buildsBack_nil
    | cons b bs ih =>
      obtain ⟨hlater, hpair⟩ := pairwise_cons.mp hpair
      rw [flatMap_cons]
      refine (buildsBack_placeBlock (hsame b mem_cons_self)).append
        (ih (fun x hx => hsame x (mem_cons_of_mem _ hx)) hpair) fun u hu v hv => ?_
      obtain ⟨c, hc, hv⟩ := mem_flatMap.mp hv
      exact hlater c hc u ((perm_placeBlock b).mem_iff.mp hu) v ((perm_placeBlock c).mem_iff.mp hv)
  exact hall _ (fun b hb => createdAt_of_mem_blocks hb) (pairwise_blocks updates)

/-- The order is made without failing, lists the updates in one order however they were given, by time, and within a time
no update stands before one that it builds on, unless that one builds back on it. -/
theorem causalOrder_spec (updates : List RefUpdate) (hids : (updates.map RefUpdate.id).Nodup) :
    causalOrder? updates = some (causalOrder updates) ∧ (causalOrder updates).Perm updates ∧
    (∀ updates', updates.Perm updates' → causalOrder? updates' = some (causalOrder updates)) ∧
    (causalOrder updates).Pairwise (fun u v => u.createdAt ≤ v.createdAt) ∧ BuildsBack (causalOrder updates) := by
  refine ⟨causalOrder?_eq_some updates, perm_causalOrder updates, fun updates' hperm => ?_,
    pairwise_causalOrder updates,
    buildsBack_causalOrder updates⟩
  rw [causalOrder?_eq_some, causalOrder_eq_of_perm hperm hids]

/-- Three updates of one block, two of them on a cycle. -/
def cycleUpdates : List RefUpdate :=
  [{ id := "1", refNameHash := "h", refName := "refs/heads/main", prevOid := "a", newOid := "b", force := false,
     isProtected := false, author := "x", createdAt := 5 },
   { id := "2", refNameHash := "h", refName := "refs/heads/main", prevOid := "b", newOid := "a", force := false,
     isProtected := false, author := "x", createdAt := 5 },
   { id := "3", refNameHash := "h", refName := "refs/heads/main", prevOid := "", newOid := "a", force := false,
     isProtected := false, author := "x", createdAt := 5 }]

theorem causalOrder_spec_cycle :
    (causalOrder cycleUpdates).map RefUpdate.id = ["3", "1", "2"] ∧ BuildsBack (causalOrder cycleUpdates) :=
  ⟨by decide +kernel, (causalOrder_spec cycleUpdates (by decide +kernel)).2.2.2.2⟩

end DashForge
