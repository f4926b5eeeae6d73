import DashForge.Data.Loop
import DashForge.Data.SortBy
import Mathlib.Data.Finset.Sort
import Mathlib.Data.Set.Card

/-!
# The packs a branch is shared with

Sharing a members-only branch hands its recipient the packs that hold it (`members_git/share.rs`). `choosePacks`
picks them one at a time: among those adding something still missing, the pack with the fewest commits beside the
branch's, then the one adding the most. A pack may be thin, so what is required grows with each pick.

`pickRound_spec` says what a pick does and `Picking.Inv` what every round keeps: the packs picked are told apart,
what is held and required is theirs, and each added something when it was picked. `choosePacks_spec` reads the
answer off the state the loop stops in.

The choice is never taken back. A pick may require a base that no pack holds where another pick would have done,
so the loop fails only if the packs *together* lack something they require (`exists_not_held_of_error`), not only
if no selection of them would do.
-/

namespace DashForge

open List

/-- What one members-only pack holds. -/
structure PackContents where
  /-- Every object the pack itself carries. -/
  own : Finset String
  /-- The commits among them. -/
  commits : Finset String
  /-- Delta bases it needs from elsewhere that the public branches do not reach. -/
  bases : Finset String
deriving DecidableEq

/-- The packs to share and how many commits not on the branch they carry along. -/
structure Choice where
  /-- Indexes into the candidate list, in the order chosen. -/
  packs : List ℕ
  extraCommits : ℕ
deriving DecidableEq

namespace Share

/-- The variables of the loop. -/
structure Picking where
  chosen : List ℕ
  held : Finset String
  required : Finset String
deriving DecidableEq

def Picking.missing (s : Picking) : Finset String := s.required \ s.held

section Pick

variable (neededCommits : Finset String) (packs : List PackContents)

/-- How many missing objects a pack adds. -/
def adds (s : Picking) (p : PackContents) : ℕ := (p.own.filter (· ∈ s.missing)).card

/-- How many commits a pack holds that are not on the branch. -/
def extra (p : PackContents) : ℕ := (p.commits \ neededCommits).card

/-- The packs not chosen yet that add something still missing, with their indexes. -/
def candidates (s : Picking) : List (PackContents × ℕ) :=
  packs.zipIdx.filter fun c => c.2 ∉ s.chosen ∧ 0 < adds s c.1

/-- The order in which candidates are preferred. -/
def preference (s : Picking) (c : PackContents × ℕ) : ℕ ×ₗ ℕᵒᵈ ×ₗ ℕ :=
  toLex (extra neededCommits c.1, toLex (OrderDual.toDual (adds s c.1), c.2))

/-- The candidate picked next. -/
def best (s : Picking) : Option (PackContents × ℕ) :=
  (sortByKey (preference neededCommits s) (candidates packs s)).head?

/-- One round: nothing when nothing is missing or no pack adds anything. -/
def pickRound (s : Picking) : Option Picking :=
  if s.missing = ∅ then none
  else (best neededCommits packs s).map fun c =>
    ⟨s.chosen ++ [c.2], s.held ∪ c.1.own, s.required ∪ c.1.bases⟩

end Pick

end Share

open Share

/-- Choose packs among `packs` that hold every object of `needed` and every base those packs need. The error lists
the objects no pack holds. -/
def choosePacks (needed neededCommits : Finset String) (packs : List PackContents) :
    Option (Except (List String) Choice) :=
  (loop (fun _ => pickRound neededCommits packs) (packs.length + 1) ⟨[], ∅, needed⟩).map fun s =>
    if s.missing = ∅ then
      .ok ⟨s.chosen, (s.chosen.toFinset.biUnion fun i =>
        (packs[i]?.elim ∅ PackContents.commits) \ neededCommits).card⟩
    else .error (s.missing.sort (· ≤ ·))

namespace Share

/-! ### What a selection of packs holds and requires -/

/-- The packs at some indexes. -/
def At (packs : List PackContents) (is : List ℕ) (p : PackContents) : Prop := ∃ i ∈ is, packs[i]? = some p

/-- One of the selected packs carries the object. -/
def Held (packs : List PackContents) (is : List ℕ) (o : String) : Prop := ∃ p, At packs is p ∧ o ∈ p.own

/-- The branch or one of the selected packs needs the object. -/
def Required (needed : Finset String) (packs : List PackContents) (is : List ℕ) (o : String) : Prop :=
  o ∈ needed ∨ ∃ p, At packs is p ∧ o ∈ p.bases

/-- A selection that covers the branch and is closed under its own bases. -/
def SelfContained (needed : Finset String) (packs : List PackContents) (is : List ℕ) : Prop :=
  ∀ o, Required needed packs is o → Held packs is o

variable {needed neededCommits : Finset String} {packs : List PackContents} {is : List ℕ} {o : String}

variable {i : ℕ} {p : PackContents} {s : Picking}

theorem at_concat {p' : PackContents} (hp : packs[i]? = some p) :
    At packs (is ++ [i]) p' ↔ At packs is p' ∨ p' = p := by
  simp [At, hp, eq_comm (a := p)]

theorem held_concat (hp : packs[i]? = some p) : Held packs (is ++ [i]) o ↔ Held packs is o ∨ o ∈ p.own := by
  simp [Held, at_concat hp]

theorem required_concat (hp : packs[i]? = some p) :
    Required needed packs (is ++ [i]) o ↔ Required needed packs is o ∨ o ∈ p.bases := by
  simp only [Required, at_concat hp, or_and_right, exists_or, exists_eq_left, or_assoc]

/-- Each pick adds an object that the picks before it left missing. -/
def Contributing (needed : Finset String) (packs : List PackContents) (is : List ℕ) : Prop :=
  ∀ earlier i later, is = earlier ++ i :: later →
    ∃ p o, packs[i]? = some p ∧ o ∈ p.own ∧ Required needed packs earlier o ∧ ¬Held packs earlier o

/-- What every round keeps. -/
structure Picking.Inv (needed : Finset String) (packs : List PackContents) (s : Picking) : Prop where
  nodup : s.chosen.Nodup
  lt : ∀ i ∈ s.chosen, i < packs.length
  held : ∀ o, o ∈ s.held ↔ Held packs s.chosen o
  required : ∀ o, o ∈ s.required ↔ Required needed packs s.chosen o
  contributing : Contributing needed packs s.chosen

/-! ### One round -/

theorem mem_candidates {c : PackContents × ℕ} : c ∈ candidates packs s ↔
      packs[c.2]? = some c.1 ∧ c.2 ∉ s.chosen ∧ ∃ o ∈ c.1.own, o ∈ s.missing := by
  simp only [candidates, mem_filter, mem_zipIdx_iff_getElem?, decide_eq_true_eq, adds, Finset.card_pos,
    Finset.filter_nonempty_iff]

theorem best_eq_none : best neededCommits packs s = none ↔ candidates packs s = [] := by
  rw [best, head?_eq_none_iff]
  constructor
  · intro h
    simpa [h] using perm_sortByKey (preference neededCommits s) (candidates packs s)
  · intro h
    rw [h, sortByKey_nil]

theorem pickRound_spec {s' : Picking} (h : pickRound neededCommits packs s = some s') :
    ∃ p i, packs[i]? = some p ∧ i ∉ s.chosen ∧ (∃ o ∈ p.own, o ∈ s.missing) ∧
      s' = ⟨s.chosen ++ [i], s.held ∪ p.own, s.required ∪ p.bases⟩ := by
  rw [pickRound] at h
  split_ifs at h
  obtain ⟨c, hbest, rfl⟩ := Option.map_eq_some_iff.mp h
  have hc : c ∈ candidates packs s := (mem_sortByKey _).mp (mem_of_head? hbest)
  obtain ⟨hp, hnew, hadds⟩ := mem_candidates.mp hc
  exact ⟨c.1, c.2, hp, hnew, hadds, rfl⟩

theorem pickRound_eq_none (h : pickRound neededCommits packs s = none) :
    s.missing = ∅ ∨ ∀ p i, packs[i]? = some p → i ∉ s.chosen → ∀ o ∈ p.own, o ∉ s.missing := by
  rw [pickRound] at h
  split_ifs at h with hmissing
  · exact Or.inl hmissing
  · right
    intro p i hp hnew o ho hmiss
    have hnil := best_eq_none.mp (Option.map_eq_none_iff.mp h)
    have hc : (p, i) ∈ candidates packs s := mem_candidates.mpr ⟨hp, hnew, o, ho, hmiss⟩
    simp [hnil] at hc

theorem Picking.Inv.mem_missing (hs : s.Inv needed packs) :
    o ∈ s.missing ↔ Required needed packs s.chosen o ∧ ¬Held packs s.chosen o := by
  rw [Picking.missing, Finset.mem_sdiff, hs.held, hs.required]

theorem inv_init (needed : Finset String) (packs : List PackContents) : Picking.Inv needed packs ⟨[], ∅, needed⟩ where
  nodup := nodup_nil
  lt := by simp
  held := by simp [Held, At]
  required := by simp [Required, At]
  contributing := by simp [Contributing]

theorem Contributing.concat (h : Contributing needed packs is) (hp : packs[i]? = some p)
    (ho : o ∈ p.own) (hreq : Required needed packs is o) (hheld : ¬Held packs is o) :
    Contributing needed packs (is ++ [i]) := by
  intro earlier j later hsplit
  rcases later.eq_nil_or_concat with rfl | ⟨later, k, rfl⟩
  · obtain ⟨rfl, hj⟩ := append_inj' hsplit rfl
    obtain rfl : i = j := by simpa using hj
    exact ⟨p, o, hp, ho, hreq, hheld⟩
  · rw [concat_eq_append, ← cons_append, ← append_assoc] at hsplit
    exact h earlier j later (append_inj' hsplit rfl).1

theorem Picking.Inv.round {s' : Picking} (hs : s.Inv needed packs)
    (h : pickRound neededCommits packs s = some s') : s'.Inv needed packs := by
  obtain ⟨p, i, hp, hnew, ⟨o, ho, hmissing⟩, rfl⟩ := pickRound_spec h
  obtain ⟨hreq, hheld⟩ := hs.mem_missing.mp hmissing
  exact {
    nodup := by
      rw [← concat_eq_append]
      exact hs.nodup.concat hnew
    lt := by
      intro j hj
      rcases mem_append.mp hj with hj | hj
      · exact hs.lt j hj
      · obtain rfl : j = i := by simpa using hj
        exact (List.getElem?_eq_some_iff.mp hp).1
    held := fun x => by rw [Finset.mem_union, hs.held, held_concat hp]
    required := fun x => by rw [Finset.mem_union, hs.required, required_concat hp]
    contributing := hs.contributing.concat hp ho hreq hheld }

theorem Picking.Inv.length_le (hs : s.Inv needed packs) : s.chosen.length ≤ packs.length := by
  have hsub : s.chosen ⊆ List.range packs.length := fun i hi => mem_range.mpr (hs.lt i hi)
  simpa using (subperm_of_subset hs.nodup hsub).length_le

/-- The loop stops, since each round chooses another pack, and where it stops nothing is missing or no pack at all
holds anything missing. -/
theorem exists_loop_pickRound (needed neededCommits : Finset String) (packs : List PackContents) :
    ∃ s, loop (fun _ => pickRound neededCommits packs) (packs.length + 1) ⟨[], ∅, needed⟩ = some s ∧
      s.Inv needed packs ∧ (s.missing = ∅ ∨ ∀ p ∈ packs, ∀ o ∈ p.own, o ∉ s.missing) := by
  have hbody : ∀ (n : ℕ) (s s' : Picking), s.Inv needed packs → pickRound neededCommits packs s = some s' →
      s'.Inv needed packs ∧ packs.length - s'.chosen.length < packs.length - s.chosen.length := by
    intro n s s' hs hround
    have hs' := hs.round hround
    obtain ⟨p, i, -, -, -, rfl⟩ := pickRound_spec hround
    have hle := hs'.length_le
    simp only [length_append, length_singleton] at hle ⊢
    exact ⟨hs', by omega⟩
  obtain ⟨s, m, hloop, hs, hstop⟩ := exists_loop_eq_some (Picking.Inv needed packs)
    (fun s : Picking => packs.length - s.chosen.length) hbody (inv_init needed packs) (Nat.lt_succ_self _)
  refine ⟨s, hloop, hs, (pickRound_eq_none hstop).imp_right fun hnone p hp o ho hmissing => ?_⟩
  obtain ⟨i, hi⟩ := mem_iff_getElem?.mp hp
  -- a pack chosen already has what it holds among the held objects
  by_cases hchosen : i ∈ s.chosen
  · exact (hs.mem_missing.mp hmissing).2 ⟨p, ⟨i, hchosen, hi⟩, ho⟩
  · exact hnone p i hi hchosen o ho hmissing

/-! ### The answer -/

/-- What a choice promises. -/
structure Sound (needed neededCommits : Finset String) (packs : List PackContents) (c : Choice) : Prop where
  nodup : c.packs.Nodup
  lt : ∀ i ∈ c.packs, i < packs.length
  selfContained : SelfContained needed packs c.packs
  contributing : Contributing needed packs c.packs
  extraCommits : c.extraCommits = {o | o ∉ neededCommits ∧ ∃ p, At packs c.packs p ∧ o ∈ p.commits}.ncard

/-- What a refusal lists: the objects that the packs chosen so far require and no pack holds. -/
structure Refused (needed : Finset String) (packs : List PackContents) (chosen : List ℕ) (missing : List String) :
    Prop where
  lt : ∀ i ∈ chosen, i < packs.length
  contributing : Contributing needed packs chosen
  ne_nil : missing ≠ []
  mem : ∀ o, o ∈ missing ↔ Required needed packs chosen o ∧ ∀ p ∈ packs, o ∉ p.own

theorem Required.mono {js : List ℕ} (h : Required needed packs is o) (hsub : is ⊆ js) : Required needed packs js o :=
  h.imp_right fun ⟨p, ⟨i, hi, hp⟩, ho⟩ => ⟨p, ⟨i, hsub hi, hp⟩, ho⟩

/-- No selection that goes on from a refused one is closed. -/
theorem Refused.not_selfContained {chosen : List ℕ} {missing : List String}
    (h : Refused needed packs chosen missing) (hsub : chosen ⊆ is) : ¬SelfContained needed packs is := by
  intro hclosed
  obtain ⟨o, ho⟩ := exists_mem_of_ne_nil missing h.ne_nil
  obtain ⟨hreq, hnone⟩ := (h.mem o).mp ho
  obtain ⟨p, ⟨i, -, hp⟩, hown⟩ := hclosed o (hreq.mono hsub)
  exact hnone p (mem_of_getElem? hp) hown

theorem Picking.Inv.sound (hs : s.Inv needed packs) (hmissing : s.missing = ∅) :
    Sound needed neededCommits packs ⟨s.chosen, (s.chosen.toFinset.biUnion fun i =>
      (packs[i]?.elim ∅ PackContents.commits) \ neededCommits).card⟩ where
  nodup := hs.nodup
  lt := hs.lt
  selfContained := by
    intro o hreq
    by_contra hheld
    have ho : o ∈ s.missing := hs.mem_missing.mpr ⟨hreq, hheld⟩
    simp [hmissing] at ho
  contributing := hs.contributing
  extraCommits := by
    refine (Set.ncard_coe_finset _).symm.trans (congrArg Set.ncard (Set.ext fun o => ?_))
    simp only [Finset.coe_biUnion, Set.mem_iUnion, Finset.mem_coe, mem_toFinset, Finset.mem_sdiff, Set.mem_ofPred_eq,
      At]
    constructor
    · rintro ⟨i, hi, ho, hnew⟩
      cases hp : packs[i]? with
      | none => simp [hp] at ho
      | some p => exact ⟨hnew, p, ⟨i, hi, hp⟩, by simpa [hp] using ho⟩
    · rintro ⟨hnew, p, ⟨i, hi, hp⟩, ho⟩
      exact ⟨i, hi, by simpa [hp] using ho, hnew⟩

theorem Picking.Inv.refused (hs : s.Inv needed packs) (hmissing : s.missing ≠ ∅)
    (hnone : ∀ p ∈ packs, ∀ o ∈ p.own, o ∉ s.missing) : Refused needed packs s.chosen (s.missing.sort (· ≤ ·)) where
  lt := hs.lt
  contributing := hs.contributing
  ne_nil := by
    obtain ⟨o, ho⟩ := Finset.nonempty_iff_ne_empty.mpr hmissing
    exact ne_nil_of_mem ((Finset.mem_sort _).mpr ho)
  mem := by
    intro o
    rw [Finset.mem_sort]
    constructor
    · intro ho
      exact ⟨(hs.mem_missing.mp ho).1, fun p hp hown => hnone p hp o hown ho⟩
    · rintro ⟨hreq, hfree⟩
      refine hs.mem_missing.mpr ⟨hreq, ?_⟩
      rintro ⟨p, ⟨i, -, hp⟩, hown⟩
      exact hfree p (mem_of_getElem? hp) hown

end Share

/-- **The packs to share**: a choice is self-contained, without a pack that added nothing, and counts the commits
it carries along; a refusal lists what the packs chosen so far require and no pack holds, and no selection with
those packs in it is self-contained. -/
theorem choosePacks_spec (needed neededCommits : Finset String) (packs : List PackContents) :
    ∃ r, choosePacks needed neededCommits packs = some r ∧
      (∀ c, r = .ok c → Sound needed neededCommits packs c) ∧
      ∀ missing, r = .error missing → ∃ chosen, Refused needed packs chosen missing ∧
        ∀ is, chosen ⊆ is → ¬SelfContained needed packs is := by
  obtain ⟨s, hloop, hs, hstop⟩ := exists_loop_pickRound needed neededCommits packs
  rw [choosePacks, hloop, Option.map_some]
  split_ifs with hmissing
  · refine ⟨_, rfl, fun c hc => ?_, fun missing h => absurd h (by simp)⟩
    obtain rfl := Except.ok.inj hc
    exact hs.sound hmissing
  · refine ⟨_, rfl, fun c h => absurd h (by simp), fun missing h => ?_⟩
    obtain rfl := Except.error.inj h
    have hrefused := hs.refused hmissing (hstop.resolve_left hmissing)
    exact ⟨s.chosen, hrefused, fun is hsub => hrefused.not_selfContained hsub⟩

/-- Two packs hold the one object needed. The first carries no other commit but is thin against a base no pack
holds; it is picked, and the sharing refused, although the second pack alone would do. -/
theorem choosePacks_refuses_shareable :
    choosePacks {"a"} ∅ [⟨{"a"}, ∅, {"b"}⟩, ⟨{"a"}, {"c"}, ∅⟩] = some (.error ["b"]) ∧
      SelfContained {"a"} [⟨{"a"}, ∅, {"b"}⟩, ⟨{"a"}, {"c"}, ∅⟩] [1] := by
  refine ⟨by decide +kernel, fun o ho => ?_⟩
  refine ⟨⟨{"a"}, {"c"}, ∅⟩, ⟨1, by simp, rfl⟩, ?_⟩
  rcases ho with ho | ⟨p, ⟨i, hi, hp⟩, ho⟩
  · exact ho
  · obtain rfl : i = 1 := by simpa using hi
    obtain rfl := Option.some.inj hp
    simp at ho

end DashForge
