import DashForge.Data.Saturating
import DashForge.Rules.Transition
import Mathlib.Algebra.BigOperators.Group.Finset.Piecewise

/-!
# Repository totals

`repoCounts` gives a repository's issue and PR totals by state from two totals of targets and one
count of transitions by kind (`rules/transition.rs`); it never looks at a target. On chain every
transition is a legal move of its target (`Step`), so the differences it takes are exact:
`repoCounts_eq_classify` compares them with a classification of every target, after any run of
moves, and says that nothing saturates.
-/

namespace DashForge

open TransitionKind
open Finset (card_filter disjoint_left sum_add_distrib sum_congr)
open List

/-- A repository's issue and PR totals by state. -/
structure RepoCounts where
  issuesOpen : ℕ
  issuesClosed : ℕ
  /-- Drafts included. -/
  prsOpen : ℕ
  /-- Not merged, closed drafts included. -/
  prsClosed : ℕ
  prsMerged : ℕ
  /-- Open drafts. -/
  prsDraft : ℕ
deriving DecidableEq, Repr

/-- The count of a kind; a kind with no transitions may be absent. -/
def countOf (kinds : ℕ → Option ℕ) (k : ℕ) : ℕ := (kinds k).getD 0

/-- The totals by state, from the number of issues and patches and the counts of transitions by
kind. -/
def repoCounts (issues patches : ℕ) (kinds : ℕ → Option ℕ) : RepoCounts :=
  let c := countOf kinds
  let issuesClosed := c issueClose - c issueReopen
  let readyClosed := c prClose - c prReopen
  let draftClosed := c prDraftClose - c prDraftReopen
  let prsMerged := c prMerge
  let prsClosed := satAdd readyClosed draftClosed
  { issuesOpen := issues - issuesClosed, issuesClosed,
    prsOpen := patches - satAdd prsMerged prsClosed, prsClosed, prsMerged,
    prsDraft := c prDraft - c prReady - draftClosed }


/-! ### Runs of legal moves -/

/-- The issues and patches of a repository, with their numbers. -/
structure Targets (τ : Type*) where
  issues : Finset τ
  patches : Finset τ
  number : τ → ℕ
  disjoint : Disjoint issues patches

section Runs

variable {τ : Type*} [DecidableEq τ] (T : Targets τ)

/-- The transitions of one target, of all the stored ones. -/
def transitionsOf (log : List (τ × Transition)) (x : τ) : List Transition :=
  (log.filter fun p => p.1 == x).map Prod.snd

/-- A target's state in a log. -/
def statusIn (log : List (τ × Transition)) (x : τ) : StateStatus :=
  statusOfCode (stateSum (transitionsOf log x))

/-- One move: a transition of a target that `nextTransition` gives from the target's sum. -/
def Step (log log' : List (τ × Transition)) : Prop :=
  ∃ x target t action actor m,
    (target = .issue ∧ x ∈ T.issues ∨ target = .patch ∧ x ∈ T.patches) ∧
    nextTransition target (stateSum (transitionsOf log x)) action actor (T.number x) = some m ∧
    t.kind = m.kind ∧ t.asAuthor = m.asAuthor ∧ log' = log ++ [(x, t)]

/-- The counts by classifying every target. -/
def classify (log : List (τ × Transition)) : RepoCounts :=
  { issuesOpen := (T.issues.filter fun x => (statusIn log x).isOpen).card
    issuesClosed := (T.issues.filter fun x => !(statusIn log x).isOpen).card
    prsOpen := (T.patches.filter fun x => (statusIn log x).isOpen).card
    prsClosed := (T.patches.filter fun x =>
      !(statusIn log x).isOpen && !(statusIn log x).merged).card
    prsMerged := (T.patches.filter fun x => (statusIn log x).merged).card
    prsDraft := (T.patches.filter fun x => (statusIn log x).isOpen && (statusIn log x).draft).card }

/-- No operation of `repoCounts` saturates on these counts. -/
structure NoSaturation (issues patches : ℕ) (c : ℕ → ℕ) : Prop where
  issuesClosed : c issueReopen ≤ c issueClose
  issuesOpen : c issueClose - c issueReopen ≤ issues
  readyClosed : c prReopen ≤ c prClose
  draftClosed : c prDraftReopen ≤ c prDraftClose
  prsClosed : c prClose - c prReopen + (c prDraftClose - c prDraftReopen) ≤ u64Max
  prsDone : c prMerge + (c prClose - c prReopen + (c prDraftClose - c prDraftReopen)) ≤ u64Max
  prsOpen : c prMerge + (c prClose - c prReopen + (c prDraftClose - c prDraftReopen)) ≤ patches
  drafts : c prReady ≤ c prDraft
  prsDraft : c prDraftClose - c prDraftReopen ≤ c prDraft - c prReady

/-! ### What a run preserves -/

/-- Every target's transitions are those of a path through its machine, and each kind belongs to
its own sort of target. -/
structure LogInv (log : List (τ × Transition)) : Prop where
  issue : ∀ x ∈ T.issues, ∃ closed locked, IssueInv (transitionsOf log x) closed locked
  patch : ∀ x ∈ T.patches, ∃ phase locked, PatchInv (transitionsOf log x) phase locked
  mem_issues : ∀ p ∈ log, p.2.kind < 10 → p.1 ∈ T.issues
  mem_patches : ∀ p ∈ log, 10 ≤ p.2.kind → p.1 ∈ T.patches

omit T in
theorem transitionsOf_concat (log : List (τ × Transition)) (x y : τ) (t : Transition) :
    transitionsOf (log ++ [(x, t)]) y = if x = y then transitionsOf log y ++ [t] else transitionsOf log y := by
  rw [transitionsOf, filter_append, map_append, ← transitionsOf]
  split_ifs with h <;> simp [h]

variable {T}

theorem LogInv.nil : LogInv T [] :=
  ⟨fun _ _ => ⟨false, false, IssueInv.nil⟩, fun _ _ => ⟨.ready, false, PatchInv.nil⟩, by simp, by simp⟩

variable {log log' : List (τ × Transition)}

theorem Step.cases (hi : LogInv T log) (hs : Step T log log') : ∃ x t, log' = log ++ [(x, t)] ∧
      ((x ∈ T.issues ∧ ∃ closed locked closed' locked', IssueInv (transitionsOf log x) closed locked ∧
          IssueStep closed locked t.kind closed' locked') ∨ (x ∈ T.patches ∧ ∃ phase locked phase' locked',
          PatchInv (transitionsOf log x) phase locked ∧ PatchStep phase locked t.kind phase' locked')) := by
  obtain ⟨x, target, t, action, actor, m, htarget, hnext, hk, -, rfl⟩ := hs
  refine ⟨x, t, rfl, ?_⟩
  rw [hk]
  obtain ⟨rfl, hx⟩ | ⟨rfl, hx⟩ := htarget
  · obtain ⟨closed, locked, hinv⟩ := hi.issue x hx
    rw [hinv.sum] at hnext
    obtain ⟨closed', locked', hstep⟩ := issueStep_of_nextTransition hnext
    exact Or.inl ⟨hx, closed, locked, closed', locked', hinv, hstep⟩
  · obtain ⟨phase, locked, hinv⟩ := hi.patch x hx
    rw [hinv.sum] at hnext
    obtain ⟨phase', locked', hstep⟩ := patchStep_of_nextTransition hnext
    exact Or.inr ⟨hx, phase, locked, phase', locked', hinv, hstep⟩

theorem LogInv.step (hi : LogInv T log) (hs : Step T log log') : LogInv T log' := by
  obtain ⟨x, t, rfl, hcases⟩ := hs.cases hi
  constructor
  · intro y hy
    rw [transitionsOf_concat]
    split_ifs with hxy
    · subst hxy
      obtain ⟨-, _, _, closed', locked', hinv, hstep⟩ | ⟨hx, -⟩ := hcases
      · exact ⟨closed', locked', hinv.concat rfl hstep⟩
      · exact absurd hx (disjoint_left.mp T.disjoint hy)
    · exact hi.issue y hy
  · intro y hy
    rw [transitionsOf_concat]
    split_ifs with hxy
    · subst hxy
      obtain ⟨hx, -⟩ | ⟨-, _, _, phase', locked', hinv, hstep⟩ := hcases
      · exact absurd hy (disjoint_left.mp T.disjoint hx)
      · exact ⟨phase', locked', hinv.concat rfl hstep⟩
    · exact hi.patch y hy
  · intro p hp hkind
    rcases mem_append.mp hp with hp | hp
    · exact hi.mem_issues p hp hkind
    · obtain rfl := mem_singleton.mp hp
      obtain ⟨hx, -⟩ | ⟨-, _, _, _, _, -, hstep⟩ := hcases
      · exact hx
      · generalize t.kind = kind at hstep hkind
        cases hstep <;> simp at hkind
  · intro p hp hkind
    rcases mem_append.mp hp with hp | hp
    · exact hi.mem_patches p hp hkind
    · obtain rfl := mem_singleton.mp hp
      obtain ⟨-, _, _, _, _, -, hstep⟩ | ⟨hx, -⟩ := hcases
      · generalize t.kind = kind at hstep hkind
        cases hstep <;> simp at hkind
      · exact hx

theorem LogInv.run (hi : LogInv T log) (hrun : Relation.ReflTransGen (Step T) log log') : LogInv T log' := by
  induction hrun with
  | refl => exact hi
  | tail _ hs ih => exact ih.step hs

/-- A merged patch stays merged: the machine has no move out of it. -/
theorem Step.merged (hi : LogInv T log) (hs : Step T log log') {x : τ} (hx : x ∈ T.patches)
    (hm : (statusOfCode (stateSum (transitionsOf log x))).merged = true) :
    (statusOfCode (stateSum (transitionsOf log' x))).merged = true := by
  obtain ⟨y, t, rfl, hcases⟩ := hs.cases hi
  rw [transitionsOf_concat]
  split_ifs with hxy
  · subst hxy
    obtain ⟨hy, -⟩ | ⟨-, phase, _, phase', _, hinv, hstep⟩ := hcases
    · exact absurd hx (disjoint_left.mp T.disjoint hy)
    · rw [hinv.statusOfCode_eq] at hm
      rw [(hinv.concat rfl hstep).statusOfCode_eq]
      obtain rfl : phase = .merged := by simpa using hm
      generalize t.kind = kind at hstep
      cases hstep <;> rfl
  · exact hm

/-! ### Totals over the targets -/

omit T in
/-- The stored transitions of a kind are those of the targets in `S`, when the kind is used by
targets in `S` only. -/
theorem kindCount_eq_sum (log : List (τ × Transition)) (S : Finset τ) (k : ℕ) (hS : ∀ p ∈ log, p.2.kind = k → p.1 ∈ S) :
    kindCount (log.map Prod.snd) k = ∑ x ∈ S, kindCount (transitionsOf log x) k := by
  induction log using List.reverseRecOn with
  | nil => simp [kindCount, transitionsOf]
  | append_singleton log p ih =>
    obtain ⟨x, t⟩ := p
    have hterm : ∀ y, kindCount (transitionsOf (log ++ [(x, t)]) y) k =
        kindCount (transitionsOf log y) k + if x = y then (if t.kind = k then 1 else 0) else 0 := by
      intro y
      rw [transitionsOf_concat]
      split_ifs <;> simp_all
    rw [map_append, map_singleton, kindCount_concat, ih fun p hp => hS p (mem_append_left _ hp)]
    simp only [hterm, sum_add_distrib, Finset.sum_ite_eq]
    by_cases hk : t.kind = k
    · have hx : x ∈ S := hS (x, t) (by simp) hk
      simp [hk, hx]
    · simp [hk]

omit T in
theorem sum_kindCount_eq {S : Finset τ} {k k' : ℕ} {p : τ → Bool} (h : ∀ x ∈ S, kindCount (transitionsOf log x) k =
      kindCount (transitionsOf log x) k' + if p x then 1 else 0) : ∑ x ∈ S, kindCount (transitionsOf log x) k =
      ∑ x ∈ S, kindCount (transitionsOf log x) k' + (S.filter fun x => p x).card := by
  rw [sum_congr rfl h, sum_add_distrib, card_filter]

section Totals

variable {log : List (τ × Transition)} (hi : LogInv T log)
include hi

theorem kindCount_issueClose : kindCount (log.map Prod.snd) issueClose = kindCount (log.map Prod.snd) issueReopen +
      (T.issues.filter fun x => !(statusIn log x).isOpen).card := by
  have hmem : ∀ k < 10, ∀ p ∈ log, p.2.kind = k → p.1 ∈ T.issues := fun k hk p hp hpk =>
    hi.mem_issues p hp (hpk ▸ hk)
  rw [kindCount_eq_sum log T.issues _ (hmem _ (by decide)), kindCount_eq_sum log T.issues _ (hmem _ (by decide))]
  refine sum_kindCount_eq fun x hx => ?_
  obtain ⟨closed, locked, hinv⟩ := hi.issue x hx
  rw [statusIn, hinv.statusOfCode_eq, hinv.closes]
  cases closed <;> rfl

omit hi in
/-- A difference of two PR kinds counts the patches in which they differ. -/
theorem kindCount_patch {k k' : ℕ} {p : τ → Bool} (hi : LogInv T log) (hk : 10 ≤ k) (hk' : 10 ≤ k')
    (h : ∀ x ∈ T.patches, kindCount (transitionsOf log x) k =
      kindCount (transitionsOf log x) k' + if p x then 1 else 0) : kindCount (log.map Prod.snd) k =
      kindCount (log.map Prod.snd) k' + (T.patches.filter fun x => p x).card := by
  have hmem : ∀ k, 10 ≤ k → ∀ p ∈ log, p.2.kind = k → p.1 ∈ T.patches := fun k hk p hp hpk =>
    hi.mem_patches p hp (hpk ▸ hk)
  rw [kindCount_eq_sum log T.patches _ (hmem _ hk), kindCount_eq_sum log T.patches _ (hmem _ hk')]
  exact sum_kindCount_eq h

theorem kindCount_prClose : kindCount (log.map Prod.snd) prClose = kindCount (log.map Prod.snd) prReopen +
      (T.patches.filter fun x => !(statusIn log x).isOpen && !(statusIn log x).merged &&
        !(statusIn log x).draft).card := by
  refine kindCount_patch hi (by decide) (by decide) fun x hx => ?_
  obtain ⟨phase, locked, hinv⟩ := hi.patch x hx
  rw [statusIn, hinv.statusOfCode_eq, hinv.closes]
  cases phase <;> rfl

theorem kindCount_prDraftClose : kindCount (log.map Prod.snd) prDraftClose =
    kindCount (log.map Prod.snd) prDraftReopen +
      (T.patches.filter fun x => !(statusIn log x).isOpen && !(statusIn log x).merged &&
        (statusIn log x).draft).card := by
  refine kindCount_patch hi (by decide) (by decide) fun x hx => ?_
  obtain ⟨phase, locked, hinv⟩ := hi.patch x hx
  rw [statusIn, hinv.statusOfCode_eq, hinv.draftCloses]
  cases phase <;> rfl

theorem kindCount_prDraft : kindCount (log.map Prod.snd) prDraft = kindCount (log.map Prod.snd) prReady +
      (T.patches.filter fun x => (statusIn log x).draft).card := by
  refine kindCount_patch hi (by decide) (by decide) fun x hx => ?_
  obtain ⟨phase, locked, hinv⟩ := hi.patch x hx
  rw [statusIn, hinv.statusOfCode_eq, hinv.drafts]
  cases phase <;> rfl

theorem kindCount_prMerge : kindCount (log.map Prod.snd) prMerge =
    (T.patches.filter fun x => (statusIn log x).merged).card := by
  have hmem : ∀ p ∈ log, p.2.kind = prMerge → p.1 ∈ T.patches := fun p hp hpk =>
    hi.mem_patches p hp (hpk ▸ by decide)
  rw [kindCount_eq_sum log T.patches _ hmem, card_filter]
  refine sum_congr rfl fun x hx => ?_
  obtain ⟨phase, locked, hinv⟩ := hi.patch x hx
  rw [statusIn, hinv.statusOfCode_eq, hinv.merges]
  cases phase <;> rfl

theorem card_patches : T.patches.card = (T.patches.filter fun x => (statusIn log x).isOpen).card +
      ((T.patches.filter fun x => (statusIn log x).merged).card +
        (T.patches.filter fun x => !(statusIn log x).isOpen && !(statusIn log x).merged).card) := by
  rw [Finset.card_eq_sum_ones, card_filter, card_filter, card_filter,
    ← sum_add_distrib, ← sum_add_distrib]
  refine sum_congr rfl fun x hx => ?_
  obtain ⟨phase, locked, hinv⟩ := hi.patch x hx
  rw [statusIn, hinv.statusOfCode_eq]
  cases phase <;> rfl

theorem card_drafts : (T.patches.filter fun x => (statusIn log x).draft).card =
    (T.patches.filter fun x => (statusIn log x).isOpen && (statusIn log x).draft).card +
      (T.patches.filter fun x => !(statusIn log x).isOpen && !(statusIn log x).merged &&
        (statusIn log x).draft).card := by
  rw [card_filter, card_filter, card_filter, ← sum_add_distrib]
  refine sum_congr rfl fun x hx => ?_
  obtain ⟨phase, locked, hinv⟩ := hi.patch x hx
  rw [statusIn, hinv.statusOfCode_eq]
  cases phase <;> rfl

omit hi [DecidableEq τ] in
theorem card_closed (p q : τ → Bool) (S : Finset τ) : (S.filter fun x => p x).card =
    (S.filter fun x => p x && !q x).card + (S.filter fun x => p x && q x).card := by
  rw [card_filter, card_filter, card_filter, ← sum_add_distrib]
  refine sum_congr rfl fun x _ => ?_
  cases p x <;> cases q x <;> rfl

omit hi in
theorem card_issues : T.issues.card = (T.issues.filter fun x => (statusIn log x).isOpen).card +
      (T.issues.filter fun x => !(statusIn log x).isOpen).card := by
  simpa using card_closed (fun _ => true) (fun x => !(statusIn log x).isOpen) T.issues

theorem noSaturation (hfit : T.patches.card ≤ u64Max) :
    NoSaturation T.issues.card T.patches.card (kindCount (log.map Prod.snd)) := by
  have hIssues := @card_issues _ _ T log
  have hIssueClose := kindCount_issueClose hi
  have hPatches := card_patches hi
  have hClosed := card_closed (fun x => !(statusIn log x).isOpen && !(statusIn log x).merged)
    (fun x => (statusIn log x).draft) T.patches
  have hDrafts := card_drafts hi
  have hClose := kindCount_prClose hi
  have hDraftClose := kindCount_prDraftClose hi
  have hDraft := kindCount_prDraft hi
  have hMerge := kindCount_prMerge hi
  constructor <;> omega

theorem repoCounts_kindCount (hfit : T.patches.card ≤ u64Max) (kinds : ℕ → Option ℕ)
    (hkinds : countOf kinds = kindCount (log.map Prod.snd)) :
    repoCounts T.issues.card T.patches.card kinds = classify T log := by
  have hns := noSaturation hi hfit
  have hIssues := @card_issues _ _ T log
  have hIssueClose := kindCount_issueClose hi
  have hPatches := card_patches hi
  have hClosed := card_closed (fun x => !(statusIn log x).isOpen && !(statusIn log x).merged)
    (fun x => (statusIn log x).draft) T.patches
  have hDrafts := card_drafts hi
  have hClose := kindCount_prClose hi
  have hDraftClose := kindCount_prDraftClose hi
  have hDraft := kindCount_prDraft hi
  have hMerge := kindCount_prMerge hi
  simp only [repoCounts, classify, hkinds, satAdd_eq_add hns.prsClosed, satAdd_eq_add hns.prsDone, RepoCounts.mk.injEq]
  refine ⟨?_, ?_, ?_, ?_, ?_, ?_⟩ <;> omega

end Totals

/-- **The totals are exact.** After any run of legal moves, of any length and interleaving,
`repoCounts` of the counts by kind is the classification of every target by its own sum, and no
operation saturates. Every sum is a state code, plus 16 exactly when the target is locked; a patch
is merged at most once, and a merged one stays merged in every continuation. -/
theorem repoCounts_eq_classify {log : List (τ × Transition)}
    (hrun : Relation.ReflTransGen (Step T) [] log) (hfit : T.patches.card ≤ u64Max)
    (kinds : ℕ → Option ℕ) (hkinds : ∀ k, countOf kinds k = kindCount (log.map Prod.snd) k) :
    repoCounts T.issues.card T.patches.card kinds = classify T log ∧
    NoSaturation T.issues.card T.patches.card (countOf kinds) ∧
    (∀ x ∈ T.issues, ∃ code ∈ ({0, 1} : Finset ℤ), ∃ locked,
      isLocked (transitionsOf log x) = locked ∧
      kindCount (transitionsOf log x) issueLock =
        kindCount (transitionsOf log x) issueUnlock + locked.toNat ∧
      stateSum (transitionsOf log x) = code + 16 * locked.toNat) ∧
    (∀ x ∈ T.patches, ∃ code ∈ ({0, 1, 2, 8, 9} : Finset ℤ), ∃ locked,
      isLocked (transitionsOf log x) = locked ∧
      kindCount (transitionsOf log x) prLock =
        kindCount (transitionsOf log x) prUnlock + locked.toNat ∧
      stateSum (transitionsOf log x) = code + 16 * locked.toNat ∧
      kindCount (transitionsOf log x) prMerge ≤ 1) ∧
    ∀ x ∈ T.patches, (statusIn log x).merged = true →
      ∀ log', Relation.ReflTransGen (Step T) log log' → (statusIn log' x).merged = true := by
  have hi : LogInv T log := LogInv.nil.run hrun
  have hc : countOf kinds = kindCount (log.map Prod.snd) := funext hkinds
  refine ⟨repoCounts_kindCount hi hfit kinds hc, hc ▸ noSaturation hi hfit, ?_, ?_, ?_⟩
  · intro x hx
    obtain ⟨closed, locked, hinv⟩ := hi.issue x hx
    refine ⟨closed.toNat, by cases closed <;> simp, locked, ?_, hinv.locks, hinv.sum⟩
    rw [isLocked, hinv.sum, foldSum_issue]
  · intro x hx
    obtain ⟨phase, locked, hinv⟩ := hi.patch x hx
    refine ⟨phase.code, by cases phase <;> decide, locked, ?_, hinv.locks, hinv.sum, ?_⟩
    · rw [isLocked, hinv.sum, foldSum_patch]
    · rw [hinv.merges]
      split_ifs <;> omega
  · intro x hx hmerged log' hrun'
    induction hrun' with
    | refl => exact hmerged
    | tail hrun' hs ih => exact Step.merged (hi.run hrun') hs hx ih

end Runs

/-- A repository with issue 1 and patch 2. -/
def twoTargets : Targets ℕ := ⟨{1}, {2}, id, by decide⟩

/-- Issue 1 is closed, and patch 2 is made a draft and locked. -/
def twoTargetsLog : List (ℕ × Transition) :=
  [(1, ⟨"t1", 1, "ann", none, 0, 5⟩), (2, ⟨"t2", 14, "bob", none, 2, 6⟩),
    (2, ⟨"t3", 18, "ann", none, 0, 7⟩)]

theorem repoCounts_twoTargets :
    repoCounts 1 1 (fun k => some (kindCount (twoTargetsLog.map Prod.snd) k)) =
        classify twoTargets twoTargetsLog ∧
      classify twoTargets twoTargetsLog = ⟨0, 1, 1, 0, 0, 1⟩ := by
  refine ⟨(repoCounts_eq_classify (T := twoTargets) ?_ (by decide) _ fun _ => rfl).1, by decide⟩
  refine .head (b := [(1, ⟨"t1", 1, "ann", none, 0, 5⟩)]) ?_ (.head (b :=
    [(1, ⟨"t1", 1, "ann", none, 0, 5⟩), (2, ⟨"t2", 14, "bob", none, 2, 6⟩)]) ?_ (.single ?_))
  · exact ⟨1, .issue, _, .close, .member, _, by decide, rfl, rfl, rfl, rfl⟩
  · exact ⟨2, .patch, _, .draft, .author, _, by decide, rfl, rfl, rfl, rfl⟩
  · exact ⟨2, .patch, _, .lock, .member, _, by decide, rfl, rfl, rfl, rfl⟩

end DashForge
