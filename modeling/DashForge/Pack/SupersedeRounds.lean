import DashForge.Pack.Supersede
import Mathlib.Data.Fintype.EquivFin
import Mathlib.Order.WellFounded

/-!
# Rounds of a reader

A reader that handles packs in rounds, a repack before the packs it replaces. A step `Round` leaves open which packs of
a round arrive and how many of those then covered are dropped; the loops of a fetch and of a reseed are runs of it
(`run_inSupersedeRounds`).

`supersede_spec` is what the rounds promise: they end, no pack is lost, and a pack waits for those that supersede it
unless the claims go around.
-/

namespace DashForge.Supersede

open List (mem_filter mem_toFinset)
open Relation

/-- How far a reader is. -/
structure Reading where
  pending : List String
  /-- The packs handled in each round, the first round first. -/
  rounds : List (Finset String)
  /-- The packs at hand. -/
  has : String → Bool

/-- One round: the packs of the round are handled, some of them arrive, and some of the packs then covered are
dropped. -/
inductive Round (claims : Claims) : Reading → Reading → Prop
  | handled (s : Reading) (has : String → Bool) (dropped : Finset String) (hne : s.pending ≠ [])
      (hkept : ∀ h, s.has h = true → has h = true)
      (harrived : ∀ h, has h = true → s.has h = true ∨ h ∈ roundNow s.pending claims)
      (hdropped : dropped ⊆ coveredPacks claims has) :
      Round claims s
        ⟨s.pending.filter fun h => h ∉ roundNow s.pending claims ∧ h ∉ dropped,
          s.rounds ++ [roundNow s.pending claims], has⟩

/-- The pack was handled in the round of the number. -/
def HandledAt (s : Reading) (i : ℕ) (h : String) : Prop := ∃ r, s.rounds[i]? = some r ∧ h ∈ r

/-- The pack lies on a cycle of claims or waits on one. -/
def WaitsOnCycle (claims : Claims) (h : String) : Prop :=
  ∃ c, TransGen (SupersededBy claims) c c ∧ ReflTransGen (SupersededBy claims) h c

/-- What is left when a round is handled. -/
def restOf (claims : Claims) (left : List String) : List String := left.filter fun h => h ∉ roundNow left claims

/-- What is not covered. -/
def undropped (claims : Claims) (has : String → Bool) (pending : List String) : List String :=
  pending.filter fun h => h ∉ coveredPacks claims has

section RoundNow

variable {claims : Claims} {pending left : List String} {h s : String}

theorem mem_of_mem_roundNow (hh : h ∈ roundNow pending claims) : h ∈ pending := by
  rw [roundNow] at hh
  split_ifs at hh
  · exact mem_toFinset.mp hh
  · exact List.mem_of_mem_filter (mem_toFinset.mp hh)

theorem roundNow_nonempty (hne : pending ≠ []) : (roundNow pending claims).Nonempty := by
  rw [roundNow]
  split_ifs with hnow
  · exact List.toFinset_nonempty_iff _ |>.mpr hne
  · exact Finset.nonempty_iff_ne_empty.mpr hnow

theorem length_restOf_lt (hne : left ≠ []) : (restOf claims left).length < left.length := by
  obtain ⟨h, hh⟩ : (roundNow left claims).Nonempty := roundNow_nonempty hne
  refine List.length_filter_lt_length_iff_exists.mpr ⟨h, mem_of_mem_roundNow hh, ?_⟩
  simpa using hh

end RoundNow

/-- The loop of a fetch and of a reseed: drop what is covered, handle a round, and go on with the rest. -/
def inSupersedeRounds (claims : Claims) (arrives : String → Bool) (pending : List String) (has : String → Bool) :
    List (Finset String) × (String → Bool) :=
  let left := undropped claims has pending
  if _hleft : left = [] then ([], has)
  else
    let now := roundNow left claims
    let later := inSupersedeRounds claims arrives (restOf claims left) fun h => has h || (decide (h ∈ now) && arrives h)
    (now :: later.1, later.2)
termination_by pending.length
decreasing_by exact (length_restOf_lt _hleft).trans_le (List.length_filter_le _ _)

/-! ### Cycles -/

theorem exists_cycle {α : Type*} {r : α → α → Prop} {S : Finset α} (hnext : ∀ a ∈ S, ∃ b ∈ S, r a b) {a : α}
    (ha : a ∈ S) : ∃ c, TransGen r c c ∧ ReflTransGen r a c := by
  by_contra! hnone
  let T := {b : α // b ∈ S ∧ ReflTransGen r a b}
  have : Finite T := Finite.of_injective (fun b : T => (⟨b.1, b.2.1⟩ : S)) fun b b' h =>
    Subtype.ext (congrArg (fun x : S => x.1) h)
  let after : T → T → Prop := fun b b' => TransGen r b'.1 b.1
  have : IsTrans T after := ⟨fun _ _ _ h h' => h'.trans h⟩
  have : Std.Irrefl after := ⟨fun b hcycle => hnone b.1 hcycle b.2.2⟩
  obtain ⟨m, -, hmin⟩ := (Finite.wellFounded_of_trans_of_irrefl after).has_min Set.univ ⟨⟨a, ha, .refl⟩, trivial⟩
  obtain ⟨b, hb, hmb⟩ := hnext m.1 m.2.1
  exact hmin ⟨b, hb, m.2.2.tail hmb⟩ trivial (.single hmb)

section RoundNow

variable {claims : Claims} {pending : List String} {h s : String}

theorem waitsOnCycle_of_mem_roundNow (hh : h ∈ roundNow pending claims) (hs : s ∈ superseding claims h)
    (hpending : s ∈ pending) : WaitsOnCycle claims h ∧ roundNow pending claims = pending.toFinset := by
  have hblocked : ∀ a s, s ∈ superseding claims a → s ∈ pending →
      a ∉ (pending.filter fun h => (claims.lookup h).all fun sup => ∀ s ∈ sup, s ∉ pending.toFinset).toFinset := by
    intro a s hs hpending hmem
    obtain ⟨sup, hsup, hs⟩ := mem_superseding_iff.mp hs
    have := (mem_filter.mp (mem_toFinset.mp hmem)).2
    rw [hsup, Option.all_some, decide_eq_true_eq] at this
    exact this s hs (mem_toFinset.mpr hpending)
  have hin := mem_of_mem_roundNow hh
  rw [roundNow] at hh ⊢
  split_ifs at hh ⊢ with hnow
  · refine ⟨exists_cycle (S := pending.toFinset) (fun a ha => ?_) (mem_toFinset.mpr hin), rfl⟩
    -- not in the round, so something pending supersedes it
    by_contra! hfree
    refine Finset.notMem_empty a (hnow ▸ mem_toFinset.mpr (mem_filter.mpr ⟨mem_toFinset.mp ha, ?_⟩))
    rw [Option.all_eq_true]
    intro sup hsup
    rw [decide_eq_true_eq]
    exact fun s hs hwait => hfree s hwait (mem_superseding_iff.mpr ⟨sup, hsup, hs⟩)
  · exact absurd hh (hblocked h s hs hpending)

end RoundNow

/-! ### Runs -/

section Run

variable {claims : Claims} {s s' : Reading} {packs : List String} {has : String → Bool} {h p q : String} {i j : ℕ}

theorem handledAt_append (pending : List String) (has : String → Bool) {rounds : List (Finset String)}
    {r : Finset String} {pending' : List String} {has' : String → Bool} :
    HandledAt ⟨pending', rounds ++ [r], has'⟩ i h ↔ HandledAt ⟨pending, rounds, has⟩ i h ∨
        i = rounds.length ∧ h ∈ r := by
  simp only [HandledAt, List.getElem?_append, List.getElem?_singleton]
  constructor
  · rintro ⟨r', hr', hh⟩
    split_ifs at hr' with hlt hlast
    · exact .inl ⟨r', hr', hh⟩
    · obtain rfl := Option.some.inj hr'
      exact .inr ⟨by omega, hh⟩
  · rintro (⟨r', hr', hh⟩ | ⟨rfl, hh⟩)
    · have hlt := (List.getElem?_eq_some_iff.mp hr').1
      exact ⟨r', by rwa [if_pos hlt], hh⟩
    · exact ⟨r, by simp, hh⟩

theorem lt_of_handledAt (hh : HandledAt s i h) : i < s.rounds.length := by
  obtain ⟨r, hr, -⟩ := hh
  exact (List.getElem?_eq_some_iff.mp hr).1

/-- What holds throughout a run over `packs`. -/
structure RunInv (claims : Claims) (packs : List String) (s : Reading) : Prop where
  bounded : s.rounds.length + s.pending.length ≤ packs.length
  /-- No pack is lost. -/
  kept : ∀ h ∈ packs, h ∈ s.pending ∨ (∃ i, HandledAt s i h) ∨ h ∈ coveredPacks claims s.has
  /-- A handled pack is not pending, and nothing that supersedes it is. -/
  done : ∀ h i, HandledAt s i h → h ∉ s.pending ∧ ∀ p ∈ superseding claims h, p ∉ s.pending
  once : ∀ h i j, HandledAt s i h → HandledAt s j h → i = j
  ordered : ∀ p q i j, p ∈ superseding claims q → HandledAt s i p → HandledAt s j q →
    i ≤ j ∧ (i = j → WaitsOnCycle claims q)

theorem runInv_start : RunInv claims packs ⟨packs, [], has⟩ := by
  have hnone : ∀ i h, ¬HandledAt ⟨packs, [], has⟩ i h := fun i h hh => absurd (lt_of_handledAt hh) (Nat.not_lt_zero i)
  exact ⟨by simp, fun h hh => .inl hh, fun h i hh => absurd hh (hnone i h), fun h i j hh _ => absurd hh (hnone i h),
    fun p q i j _ hh _ => absurd hh (hnone i p)⟩

theorem coveredPacks_mono {has' : String → Bool} (hsub : ∀ h, has h = true → has' h = true) :
    coveredPacks claims has ⊆ coveredPacks claims has' := by
  intro h hh
  obtain ⟨p, hp, hchain⟩ := mem_coveredPacks_iff.mp hh
  exact mem_coveredPacks_iff.mpr ⟨p, hsub p hp, hchain⟩

theorem RunInv.round (hinv : RunInv claims packs s) (hround : Round claims s s') : RunInv claims packs s' := by
  obtain ⟨has', dropped, hne, hkept, -, hdropped⟩ := hround
  obtain ⟨pending, rounds, has⟩ := s
  have hpending : ∀ {h}, h ∈ pending.filter (fun h => h ∉ roundNow pending claims ∧ h ∉ dropped) ↔
      h ∈ pending ∧ h ∉ roundNow pending claims ∧ h ∉ dropped := by
    simp [mem_filter]
  refine ⟨?_, fun h hh => ?_, fun h i hi => ?_, fun h i j hi hj => ?_, fun p q i j hpq hi hj => ?_⟩
  · have hlt : (pending.filter fun h => h ∉ roundNow pending claims ∧ h ∉ dropped).length < pending.length := by
      obtain ⟨h, hh⟩ : (roundNow pending claims).Nonempty := roundNow_nonempty hne
      refine List.length_filter_lt_length_iff_exists.mpr ⟨h, mem_of_mem_roundNow hh, ?_⟩
      simp [hh]
    have := hinv.bounded
    simp only [List.length_append, List.length_singleton] at this ⊢
    omega
  · simp only [handledAt_append pending has, hpending]
    rcases hinv.kept h hh with hin | ⟨i, hi⟩ | hcov
    · by_cases hnow : h ∈ roundNow pending claims
      · exact .inr (.inl ⟨rounds.length, .inr ⟨rfl, hnow⟩⟩)
      · by_cases hdrop : h ∈ dropped
        · exact .inr (.inr (hdropped hdrop))
        · exact .inl ⟨hin, hnow, hdrop⟩
    · exact .inr (.inl ⟨i, .inl hi⟩)
    · exact .inr (.inr (coveredPacks_mono hkept hcov))
  · simp only [hpending]
    rcases (handledAt_append pending has).mp hi with hi | ⟨-, hnow⟩
    · obtain ⟨hout, hsup⟩ := hinv.done h i hi
      exact ⟨fun hin => hout hin.1, fun p hp hin => hsup p hp hin.1⟩
    · refine ⟨fun hin => hin.2.1 hnow, fun p hp hin => hin.2.1 ?_⟩
      rw [(waitsOnCycle_of_mem_roundNow hnow hp hin.1).2]
      exact mem_toFinset.mpr hin.1
  · rcases (handledAt_append pending has).mp hi with hi | ⟨rfl, hnow⟩ <;>
      rcases (handledAt_append pending has).mp hj with hj | ⟨rfl, hnow'⟩
    · exact hinv.once h i j hi hj
    · exact absurd (mem_of_mem_roundNow hnow') (hinv.done h i hi).1
    · exact absurd (mem_of_mem_roundNow hnow) (hinv.done h j hj).1
    · rfl
  · rcases (handledAt_append pending has).mp hi with hi | ⟨rfl, hnow⟩ <;>
      rcases (handledAt_append pending has).mp hj with hj | ⟨rfl, hnow'⟩
    · exact hinv.ordered p q i j hpq hi hj
    · have hlt := lt_of_handledAt hi
      exact ⟨hlt.le, fun heq => absurd heq hlt.ne⟩
    · -- the pack it supersedes went first: not while this one was pending
      exact absurd (mem_of_mem_roundNow hnow) ((hinv.done q j hj).2 p hpq)
    · exact ⟨le_rfl, fun _ => (waitsOnCycle_of_mem_roundNow hnow' hpq (mem_of_mem_roundNow hnow)).1⟩

theorem runInv_of_run (hrun : ReflTransGen (Round claims) ⟨packs, [], has⟩ s) : RunInv claims packs s := by
  induction hrun with
  | refl => exact runInv_start
  | tail _ hround ih => exact ih.round hround

/-- While a pack is pending there is a next round. -/
theorem exists_round (hne : s.pending ≠ []) : ∃ s', Round claims s s' :=
  ⟨_, .handled s s.has ∅ hne (fun _ h => h) (fun _ h => .inl h) (Finset.empty_subset _)⟩

theorem run_inSupersedeRounds (arrives : String → Bool) (pending : List String) (rounds : List (Finset String)) :
    ReflTransGen (Round claims) ⟨undropped claims has pending, rounds, has⟩
      ⟨[], rounds ++ (inSupersedeRounds claims arrives pending has).1,
          (inSupersedeRounds claims arrives pending has).2⟩ := by
  induction pending, has using inSupersedeRounds.induct claims arrives generalizing rounds with
  | case1 pending has left hleft =>
    rw [inSupersedeRounds, dif_pos hleft, List.append_nil, show undropped claims has pending = [] from hleft]
  | case2 pending has left hleft now ih =>
    rw [inSupersedeRounds, dif_neg hleft]
    have hrest := ih (rounds ++ [now])
    rw [List.append_assoc, List.singleton_append] at hrest
    refine .head ?_ hrest
    let has' : String → Bool := fun h => has h || (decide (h ∈ now) && arrives h)
    have hkept : ∀ h, has h = true → has' h = true := fun h hh => by simp [has', hh]
    have harrived : ∀ h, has' h = true → has h = true ∨ h ∈ roundNow left claims := by
      intro h hh
      rcases (Bool.or_eq_true _ _).mp hh with hh | hh
      · exact .inl hh
      · exact .inr (of_decide_eq_true ((Bool.and_eq_true _ _).mp hh).1)
    have hrest : undropped claims has' (restOf claims left) =
        left.filter fun h => h ∉ roundNow left claims ∧ h ∉ coveredPacks claims has' := by
      rw [undropped, restOf, List.filter_filter]
      exact List.filter_congr fun h _ => by rw [Bool.decide_and, Bool.and_comm]
    have hround := Round.handled ⟨left, rounds, has⟩ has' (coveredPacks claims has') hleft hkept harrived subset_rfl
    rwa [← hrest] at hround

theorem inSupersedeRounds_has (arrives : String → Bool) (pending : List String) :
    (inSupersedeRounds claims arrives pending has).2 h = true ↔ has h = true ∨
      (∃ r ∈ (inSupersedeRounds claims arrives pending has).1, h ∈ r) ∧ arrives h = true := by
  induction pending, has using inSupersedeRounds.induct claims arrives with
  | case1 pending has left hleft =>
    rw [inSupersedeRounds, dif_pos hleft]
    simp
  | case2 pending has left hleft now ih =>
    rw [inSupersedeRounds, dif_neg hleft, List.exists_mem_cons_iff, or_and_right, ← or_assoc, ih, Bool.or_eq_true,
      Bool.and_eq_true, decide_eq_true_eq]

/-- A pack is handled only while no claims lead from it to a pack at hand. -/
theorem inSupersedeRounds_needed (arrives : String → Bool) (pending : List String) {r : Finset String} (hq : q ∈ r) :
    ∀ i, (inSupersedeRounds claims arrives pending has).1[i]? = some r →
    has p = true ∨ (∃ r ∈ (inSupersedeRounds claims arrives pending has).1.take i, p ∈ r) ∧ arrives p = true →
    ¬TransGen (SupersededBy claims) q p := by
  induction pending, has using inSupersedeRounds.induct claims arrives with
  | case1 pending has left hleft =>
    rw [inSupersedeRounds, dif_pos hleft]
    exact fun i hr => by cases hr
  | case2 pending has left hleft now ih =>
    rw [inSupersedeRounds, dif_neg hleft]
    intro i hr hp
    cases i with
    | zero =>
      obtain rfl := Option.some.inj hr
      have huncovered := (mem_filter.mp (mem_of_mem_roundNow hq)).2
      exact fun hchain => of_decide_eq_true huncovered (mem_coveredPacks_iff.mpr ⟨p, by simpa using hp, hchain⟩)
    | succ i =>
      rw [List.take_succ_cons, List.exists_mem_cons_iff, or_and_right, ← or_assoc] at hp
      exact ih i hr (hp.imp_left fun hp => by rwa [Bool.or_eq_true, Bool.and_eq_true, decide_eq_true_eq])

/-- The loop of a fetch and of a reseed takes no more rounds than there are packs and handles a pack at most once. It
handles a pack only while no claims lead from it to one at hand, and one that it does not handle has claims to one. -/
theorem inSupersedeRounds_spec (claims : Claims) (arrives : String → Bool) (packs : List String) (has : String → Bool) :
    let out := inSupersedeRounds claims arrives packs has
    out.1.length ≤ packs.length ∧ out.1.Pairwise Disjoint ∧
      (∀ h ∈ packs, (∃ r ∈ out.1, h ∈ r) ∨ Reaches claims out.2 h) ∧
      (∀ h, out.2 h = true ↔ has h = true ∨ (∃ r ∈ out.1, h ∈ r) ∧ arrives h = true) ∧
      ∀ i r, out.1[i]? = some r → ∀ q ∈ r, ∀ p,
        has p = true ∨ (∃ r ∈ out.1.take i, p ∈ r) ∧ arrives p = true → ¬TransGen (SupersededBy claims) q p := by
  intro out
  have hinv := runInv_of_run (@run_inSupersedeRounds claims has arrives packs [])
  have hhas {h : String} := @inSupersedeRounds_has claims has h arrives packs
  refine ⟨hinv.bounded.trans (List.length_filter_le _ _), ?_, fun h hh => ?_, fun h => hhas,
    fun i r hr q hq p hp => inSupersedeRounds_needed arrives packs hq i hr hp⟩
  · rw [List.pairwise_iff_getElem]
    intro i j hi hj hij
    refine Finset.disjoint_left.mpr fun h hhi hhj => hij.ne (hinv.once h i j ?_ ?_)
    · exact ⟨_, List.getElem?_eq_getElem hi, hhi⟩
    · exact ⟨_, List.getElem?_eq_getElem hj, hhj⟩
  · by_cases hcov : h ∈ coveredPacks claims has
    · exact .inr (mem_coveredPacks_iff.mp (coveredPacks_mono (fun p hp => hhas.mpr (.inl hp)) hcov))
    · rcases hinv.kept h (List.mem_filter.mpr ⟨hh, decide_eq_true hcov⟩) with hin | ⟨i, r, hr, hhr⟩ | hcov
      · cases hin
      · exact .inl ⟨r, List.mem_of_getElem? hr, hhr⟩
      · exact .inr (mem_coveredPacks_iff.mp hcov)

/-- Covered are exactly the packs from which a pack at hand is reached by claims, each through another pack; every run
of rounds ends with no pack lost; and a pack is handled no later than those it supersedes, and before them unless they
wait on a cycle. -/
theorem supersede_spec (claims : Claims) (has : String → Bool) :
    (∀ h, h ∈ coveredPacks claims has ↔ Reaches claims has h) ∧
      (∀ h ∈ coveredPacks claims has, ∃ s ∈ superseding claims h,
        (has s = true ∨ s ∈ coveredPacks claims has) ∧ (h ∉ superseding claims h → s ≠ h)) ∧
      (∀ manifests roles h, h ∉ superseding (supersededBy manifests roles) h) ∧
      ∀ packs s, ReflTransGen (Round claims) ⟨packs, [], has⟩ s →
        s.rounds.length + s.pending.length ≤ packs.length ∧
          (s.pending ≠ [] → ∃ s', Round claims s s') ∧
          (s.pending = [] → ∀ h ∈ packs, (∃ i, HandledAt s i h) ∨ h ∈ coveredPacks claims s.has) ∧
          ∀ p q i j, p ∈ superseding claims q → HandledAt s i p → HandledAt s j q →
            i ≤ j ∧ (i = j → WaitsOnCycle claims q) := by
  refine ⟨fun h => mem_coveredPacks_iff, fun h hh => ?_, notMem_superseding_supersededBy, fun packs s hrun => ?_⟩
  · obtain ⟨s, hs, hat⟩ := reaches_iff.mp (mem_coveredPacks_iff.mp hh)
    refine ⟨s, hs, hat.imp_right mem_coveredPacks_iff.mpr, fun hself heq => hself (heq ▸ hs)⟩
  · have hinv := runInv_of_run hrun
    refine ⟨hinv.bounded, exists_round, fun hdone h hh => ?_, hinv.ordered⟩
    refine (hinv.kept h hh).resolve_left ?_
    rw [hdone]
    exact List.not_mem_nil

end Run

end DashForge.Supersede
