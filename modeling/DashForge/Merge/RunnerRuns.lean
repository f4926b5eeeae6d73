import DashForge.Merge.Runner

/-!
# Merges that can be finished

What every attempt at a browser merge keeps (`Inv`): its writes take effect once and in order, and the branch moves
from the tip that was merged into only. An attempt in which nothing fails then finishes, unless nothing was ever
written, or an earlier ref update took effect and was reported as failed (`Lost`): the guard before the next one sees
a branch that moved, and the merge stays unrecorded (`merge_unrecorded`).
-/

namespace DashForge.Runner

open MergeStepId (rank)
open Stage (Triple)
open List

variable {d : Deps} {a : Attempt} {s : State} {H : Prop}

/-! ### What attempts keep -/

theorem rank_injective : Function.Injective rank := by
  intro u v
  cases u <;> cases v <;> decide

/-- The merge may be tried. -/
def MayTry (d : Deps) (s : State) : Prop :=
  d.isPublic = true ∧ (∀ base ∈ s.run.baseRef, base = d.baseRefName) ∧ runMatches s.run d.input =
    true ∧ d.refProblem = none

/-- The invariant of a merge. -/
structure Inv (d : Deps) (s : State) : Prop where
  base : s.chain.base = d.baseRefName
  heads : .ref ∉ s.chain.effects → s.chain.heads = [s.run.baseTip]
  order : s.chain.effects.Pairwise fun t u => t.rank < u.rank
  /-- A write took effect when the steps before it were done. -/
  below : ∀ t ∈ s.chain.effects, rank .pack < t.rank ∧ ∀ u, rank .pack ≤ u.rank → u.rank < t.rank → u ∈ s.run.done
  ref : .ref ∈ s.run.done → .ref ∈ s.chain.effects
  result : .pack ∈ s.run.done ↔ s.run.result.isSome = true
  worker : s.run.result.isSome = true → .fetch ∈ s.run.done ∧ .merge ∈ s.run.done
  moved : ∀ heads ∈ s.chain.movedFrom, heads = [s.run.baseTip]
  paid : s.chain.effects ≠ [] → MayTry d s ∧ (d.canUpload = true ∨ s.empty = true)
  uploaded : .upload ∈ s.run.done → s.run.result.isSome = true ∧ (d.canUpload = true ∨ s.empty = true)

/-- The branch moved, and the run does not know it. -/
def Lost (s : State) : Prop := .ref ∈ s.chain.effects ∧ .ref ∉ s.run.done

/-- The ref update is not reported as failed after it took effect. -/
def Acknowledged (a : Attempt) : Prop := ∀ reason, a.ref ≠ .failed true reason

/-- No operation fails (the browse index may). -/
structure AllOk (a : Attempt) : Prop where
  merge : ∃ result, a.merge = .ok result
  verifyPack : ∃ missing, a.verifyPack = .ok missing
  uploadHeads : a.uploadHeads = none
  refBase : a.refBase = none
  refHeads : a.refHeads = none
  eventBase : a.eventBase = none
  upload : ∃ stored, a.upload = .done stored
  manifest : ∃ id, a.manifest = .done id
  ref : ∃ id, a.ref = .done id
  event : ∃ id, a.event = .done id
  bypass : ∃ id, a.bypass = .done id

theorem AllOk.acknowledged (h : AllOk a) : Acknowledged a := by
  obtain ⟨id, hid⟩ := h.ref
  intro reason heq
  rw [hid] at heq
  cases heq

/-- Why a merge that nothing was written for cannot be made. -/
def Refuses : Halt → Prop
  | .stopped .notPublic | .stopped .changed | .stopped (.badRef _) => True
  | .stopped (.notBuilt _) | .stopped (.unfetchable _) => True
  -- The build cannot upload.
  | .stepError .upload _ => True
  | _ => False

/-- What holds where an attempt ends early: where nothing failed and it started healthy, nothing was ever written. -/
def Ended (d : Deps) (a : Attempt) (H : Prop) (halt : Halt) (s : State) : Prop :=
  Inv d s ∧ (Acknowledged a → H → ¬Lost s) ∧ (AllOk a → H → s.chain.effects = [] ∧ Refuses halt)

theorem Inv.result_of_effects (h : Inv d s) (hne : s.chain.effects ≠ []) : s.run.result.isSome = true := by
  obtain ⟨t, ht⟩ := exists_mem_of_ne_nil _ hne
  exact h.result.mp ((h.below t ht).2 .pack (Nat.le_refl _) (h.below t ht).1)

/-! ### Marks and writes -/

/-- What the run keeps of an answer changes nothing else. -/
def Keeps (patch : MergeRun → MergeRun) : Prop := ∀ run, (patch run).toRunKey = run.toRunKey ∧
  (patch run).baseRef = run.baseRef ∧ (patch run).done = run.done ∧ (patch run).result = run.result

theorem keeps_id : Keeps id := fun _ => ⟨rfl, rfl, rfl, rfl⟩

variable {patch : MergeRun → MergeRun} {c : Chain} {t : MergeStepId} {halt : Halt} {fails baseRef : Option String}

theorem mayTry_mark (hpatch : Keeps patch) (step : MergeStepId) : MayTry d (s.mark step patch) ↔ MayTry d s := by
  obtain ⟨hkey, hbase, -, -⟩ := hpatch s.run
  simp [MayTry, State.mark, runMatches, hkey, hbase]

theorem mem_done_mark (step u : MergeStepId) : u ∈ (s.mark step patch).run.done ↔ u ∈ s.run.done ∨ u = step := by
  simp [State.mark]

variable {step : MergeStepId} {n : ℕ}

theorem Inv.mark (h : Inv d s) (hpatch : Keeps patch)
    (href : step = .ref → .ref ∈ s.chain.effects) (hpack : step ≠ .pack)
    (hup : step = .upload → s.run.result.isSome = true ∧ (d.canUpload = true ∨ s.empty = true)) :
    Inv d (s.mark step patch) := by
  obtain ⟨hkey, -, -, hresult⟩ := hpatch s.run
  have htip : (s.mark step patch).run.baseTip = s.run.baseTip := congrArg RunKey.baseTip hkey
  have hres : (s.mark step patch).run.result = s.run.result := hresult
  have hempty : (s.mark step patch).empty = s.empty := congrArg (Option.all _) hresult
  refine ⟨h.base, ?_, h.order, fun t ht => ⟨(h.below t ht).1, fun u hu hlt => ?_⟩, fun hmem => ?_,
    ?_, fun hsome => ?_, ?_,
    fun hne => ?_, fun hmem => ?_⟩
  · rw [htip]
    exact h.heads
  · exact (mem_done_mark step u).mpr (.inl ((h.below t ht).2 u hu hlt))
  · rcases (mem_done_mark step _).mp hmem with hmem | heq
    · exact h.ref hmem
    · exact href heq.symm
  · rw [mem_done_mark, hres, h.result, or_iff_left hpack.symm]
  · rw [hres] at hsome
    obtain ⟨hfetch, hmerge⟩ := h.worker hsome
    exact ⟨(mem_done_mark step _).mpr (.inl hfetch), (mem_done_mark step _).mpr (.inl hmerge)⟩
  · rw [htip]
    exact h.moved
  · obtain ⟨htry, hpaid⟩ := h.paid hne
    rw [hempty]
    exact ⟨(mayTry_mark hpatch step).mpr htry, hpaid⟩
  · rw [hres, hempty]
    rcases (mem_done_mark step _).mp hmem with hmem | heq
    · exact h.uploaded hmem
    · exact hup heq.symm

theorem Inv.rank_lt (h : Inv d s) (hdone : step ∉ s.run.done) (hnew : step ∉ s.chain.effects)
    (hpack : rank .pack < step.rank) : ∀ t ∈ s.chain.effects, t.rank < step.rank := by
  intro t ht
  rcases Nat.lt_trichotomy t.rank step.rank with hlt | heq | hgt
  · exact hlt
  · exact absurd (rank_injective heq ▸ ht) hnew
  · exact absurd ((h.below t ht).2 step (Nat.le_of_lt hpack) hgt) hdone

theorem Inv.write (h : Inv d s) (hdone : step ∉ s.run.done) (hpack : rank .pack < step.rank)
    (href : step ≠ .ref) (hbelow : ∀ u, rank .pack ≤ u.rank → u.rank < step.rank → u ∈ s.run.done) (htry : MayTry d s)
    (hpaid : d.canUpload = true ∨ s.empty = true) : Inv d { s with chain := s.chain.write step } := by
  by_cases hnew : step ∈ s.chain.effects
  · rw [Chain.write, if_pos hnew]
    exact h
  · rw [Chain.write, if_neg hnew]
    have hlt := h.rank_lt hdone hnew hpack
    refine ⟨h.base, fun hnot => h.heads fun hmem => hnot (mem_append_left _ hmem), ?_, fun t ht => ?_, fun hmem => ?_,
      h.result, h.worker, h.moved, fun _ => ⟨htry, hpaid⟩, h.uploaded⟩
    · exact pairwise_append.mpr ⟨h.order, pairwise_singleton _ _, fun t ht u hu =>
        mem_singleton.mp hu ▸ hlt t ht⟩
    · rcases mem_append.mp ht with ht | ht
      · exact h.below t ht
      · obtain rfl := mem_singleton.mp ht
        exact ⟨hpack, hbelow⟩
    · exact mem_append_left _ (h.ref hmem)

theorem Inv.move (h : Inv d s) (hdone : .ref ∉ s.run.done)
    (hbelow : ∀ u, rank .pack ≤ u.rank → u.rank < rank .ref → u ∈ s.run.done) (htry : MayTry d s)
    (hpaid : d.canUpload = true ∨ s.empty = true) (newTip : String) :
        Inv d { s with chain := s.chain.move newTip } := by
  by_cases hnew : .ref ∈ s.chain.effects
  · rw [Chain.move, if_pos hnew]
    exact h
  · rw [Chain.move, if_neg hnew]
    have hlt := h.rank_lt hdone hnew (by decide)
    refine ⟨h.base, fun hnot => ?_, ?_, fun t ht => ?_, fun hmem => absurd hmem hdone, h.result, h.worker, ?_,
      fun _ => ⟨htry, hpaid⟩, h.uploaded⟩
    · exact absurd (mem_append_right _ (mem_singleton_self _)) hnot
    · exact pairwise_append.mpr ⟨h.order, pairwise_singleton _ _, fun t ht u hu =>
        mem_singleton.mp hu ▸ hlt t ht⟩
    · rcases mem_append.mp ht with ht | ht
      · exact h.below t ht
      · obtain rfl := mem_singleton.mp ht
        exact ⟨by decide, hbelow⟩
    · intro heads hheads
      rcases mem_append.mp hheads with hheads | hheads
      · exact h.moved heads hheads
      · rw [mem_singleton.mp hheads]
        exact h.heads hnew

theorem mem_effects_write : t ∈ (c.write step).effects ↔ t ∈ c.effects ∨ t = step := by
  unfold Chain.write
  split
  · next h => exact ⟨.inl, fun ht => ht.elim id fun heq => heq ▸ h⟩
  · simp

theorem mem_effects_move {newTip : String} : t ∈ (c.move newTip).effects ↔ t ∈ c.effects ∨ t = .ref := by
  unfold Chain.move
  split
  · next h => exact ⟨.inl, fun ht => ht.elim id fun heq => heq ▸ h⟩
  · simp

theorem lost_write (href : step ≠ .ref) : Lost { s with chain := s.chain.write step } ↔ Lost s := by
  simp [Lost, mem_effects_write, href.symm]

theorem Lost.of_mark (h : Lost (s.mark step patch)) : Lost s :=
  ⟨h.1, fun hmem => h.2 ((mem_done_mark step _).mpr (.inl hmem))⟩

/-! ### Stages -/

/-- What holds before the merge is built. -/
def Ready (d : Deps) (a : Attempt) (H : Prop) (s : State) : Prop :=
  Inv d s ∧ (Acknowledged a → H → ¬Lost s) ∧ MayTry d s

/-- What holds between the stages after that: the steps of the ranks below `n` are done. -/
structure Upto (d : Deps) (a : Attempt) (H : Prop) (n : ℕ) (s : State) : Prop where
  ready : Ready d a H s
  result : s.run.result.isSome = true
  done : ∀ u : MergeStepId, u.rank < n → u ∈ s.run.done

variable (h : Upto d a H step.rank s)

include h in
theorem Upto.below (u : MergeStepId) (_ : rank .pack ≤ u.rank)
    (hlt : u.rank < step.rank) : u ∈ s.run.done := h.done u hlt

include h in
theorem Upto.of_mem (hmem : step ∈ s.run.done) : Upto d a H (step.rank + 1) s := by
  refine ⟨h.ready, h.result, fun u hu => ?_⟩
  rcases Nat.lt_succ_iff_lt_or_eq.mp hu with hlt | heq
  · exact h.done u hlt
  · exact rank_injective heq ▸ hmem

include h in
theorem Upto.mark (hpatch : Keeps patch)
    (href : step = .ref → .ref ∈ s.chain.effects) (hpack : rank .pack < step.rank)
    (hup : step = .upload → d.canUpload = true ∨ s.empty = true) : Upto d a H (step.rank + 1) (s.mark step patch) := by
  obtain ⟨hinv, hhealthy, htry⟩ := h.ready
  have hne : step ≠ .pack := fun heq => Nat.lt_irrefl _ (heq ▸ hpack)
  have hres : (s.mark step patch).run.result = s.run.result := (hpatch s.run).2.2.2
  refine ⟨⟨hinv.mark hpatch href hne fun heq => ⟨h.result, hup heq⟩, fun hack hH hlost =>
    hhealthy hack hH hlost.of_mark,
    (mayTry_mark hpatch step).mpr htry⟩, hres ▸ h.result, fun u hu => ?_⟩
  rw [mem_done_mark]
  rcases Nat.lt_succ_iff_lt_or_eq.mp hu with hlt | heq
  · exact .inl (h.done u hlt)
  · exact .inr (rank_injective heq)

include h in
theorem Upto.write (hdone : step ∉ s.run.done)
    (hpack : rank .pack < step.rank) (href : step ≠ .ref) (hpaid : d.canUpload = true ∨ s.empty = true) :
    Upto d a H step.rank { s with chain := s.chain.write step } := by
  obtain ⟨hinv, hhealthy, htry⟩ := h.ready
  exact ⟨⟨hinv.write hdone hpack href h.below htry hpaid, fun hack hH hlost =>
    hhealthy hack hH ((lost_write href).mp hlost),
    htry⟩, h.result, h.done⟩

theorem Upto.paid (h : Upto d a H n s) (hn : rank .upload < n) : d.canUpload = true ∨ s.empty = true :=
  (h.ready.1.uploaded (h.done .upload hn)).2

theorem Upto.ended (h : Upto d a H n s) (hfail : AllOk a → ¬H) : Ended d a H halt s :=
  ⟨h.ready.1, h.ready.2.1, fun hok hH => absurd hH (hfail hok)⟩

theorem Upto.heads (h : Upto d a H n s) (hdone : .ref ∉ s.run.done) (hok : AllOk a) (hH : H) :
    s.chain.heads = [s.run.baseTip] :=
  h.ready.1.heads fun hmem => h.ready.2.1 hok.acknowledged hH ⟨hmem, hdone⟩

/-- The write of a step that is not the ref update. -/
theorem writeStage_triple {α : Type} {outcome : Outcome α} {patch : α → MergeRun → MergeRun}
    (hpatch : ∀ answer, Keeps (patch answer)) (hpack : rank .pack < step.rank) (href : step ≠ .ref)
    (hfail : AllOk a → ∃ answer, outcome = .done answer) :
    Triple (fun s => Upto d a H step.rank s ∧ step ∉ s.run.done ∧ (d.canUpload = true ∨ s.empty = true))
      (writeStage step outcome patch) (Upto d a H (step.rank + 1)) (Ended d a H) := by
  have hwritten (s : State)
      (hs : Upto d a H step.rank s ∧ step ∉ s.run.done ∧ (d.canUpload = true ∨ s.empty = true)) :
      Upto d a H step.rank { s with chain := s.chain.write step } := hs.1.write hs.2.1 hpack href hs.2.2
  cases outcome with
  | done answer =>
    exact .done fun s hs =>
      (hwritten s hs).mark (hpatch answer) (fun heq => absurd heq href) hpack fun _ => hs.2.2
  | failed applied reason =>
    have hnot : AllOk a → ¬H := fun hok => by
      obtain ⟨answer, heq⟩ := hfail hok
      cases heq
    refine .halted fun s hs => ?_
    cases applied with
    | false => exact hs.1.ended hnot
    | true => exact (hwritten s hs).ended hnot

theorem checkStage_triple :
    Triple (fun s => Inv d s ∧ (Acknowledged a → H → ¬Lost s)) (checkStage d) (Ready d a H) (Ended d a H) := by
  -- A run that wrote something passed these checks, and they do not change.
  have hended (s : State) (halt : Halt) (hs : Inv d s ∧ (Acknowledged a → H → ¬Lost s)) (hrefuses : Refuses halt)
      (hnot : ¬MayTry d s) : Ended d a H halt s :=
    ⟨hs.1, hs.2, fun _ _ => ⟨by_contra fun hne => hnot (hs.1.paid hne).1, hrefuses⟩⟩
  refine .ite (.halted fun s hs => hended s _ hs.1 trivial fun htry => ?_) (.ite (.halted fun s hs => ?_) ?_)
  · have hpublic := hs.2
    rw [htry.1] at hpublic
    cases hpublic
  · refine hended s _ hs.1.1 trivial fun htry => ?_
    obtain ⟨-, hbase, hmatch, -⟩ := htry
    have hchanged := hs.2
    rw [hmatch] at hchanged
    cases hb : s.run.baseRef with
    | none => simp [hb] at hchanged
    | some base => simp [hb, hbase base hb] at hchanged
  · cases hproblem : d.refProblem with
    | some problem =>
      refine .halted fun s hs => hended s _ hs.1.1 trivial fun htry => ?_
      rw [htry.2.2.2] at hproblem
      cases hproblem
    | none =>
      refine .done fun s hs => ?_
      obtain ⟨⟨⟨hinv, hhealthy⟩, hpublic⟩, hsame⟩ := hs
      simp only [Bool.or_eq_true, not_or, Bool.not_eq_true', Bool.not_eq_false] at hsame
      refine ⟨hinv, hhealthy, by simpa using hpublic, fun base hbase => ?_, hsame.2, hproblem⟩
      simp only [Option.mem_def] at hbase
      simpa [hbase] using hsame.1

/-! ### The merge -/

/-- What holds while the worker runs: nothing was written. -/
def Working (d : Deps) (a : Attempt) (H : Prop) (s : State) : Prop := Ready d a H s ∧ s.run.result = none

theorem Working.effects (h : Working d a H s) : s.chain.effects = [] := by
  by_contra hne
  have hsome := h.1.1.result_of_effects hne
  rw [h.2] at hsome
  cases hsome

theorem Working.markNew (h : Working d a H s) (hstep : step.rank < rank .pack) : Working d a H (s.markNew step) := by
  unfold State.markNew
  split
  · exact h
  · obtain ⟨⟨hinv, hhealthy, htry⟩, hresult⟩ := h
    have href : step = .ref → .ref ∈ s.chain.effects := fun heq => by
      subst heq
      exact absurd hstep (by decide)
    have hpack : step ≠ .pack := fun heq => Nat.lt_irrefl _ (heq ▸ hstep)
    have hup : step ≠ .upload := fun heq => by
      subst heq
      exact absurd hstep (by decide)
    exact ⟨⟨hinv.mark keeps_id href hpack fun heq => absurd heq hup, fun hack hH hlost =>
      hhealthy hack hH hlost.of_mark,
      (mayTry_mark keeps_id step).mpr htry⟩, hresult⟩

theorem mem_done_markNew (step u : MergeStepId) : u ∈ (s.markNew step).run.done ↔ u ∈ s.run.done ∨ u = step := by
  unfold State.markNew
  split
  · next h => exact ⟨.inl, fun hu => hu.elim id fun heq => heq ▸ h⟩
  · exact mem_done_mark step u

theorem Working.phases (h : Working d a H s) (phases : List Phase) : Working d a H (phases.foldl reportPhase s) := by
  induction phases generalizing s with
  | nil => exact h
  | cons p rest ih =>
    cases p with
    | analyse => exact ih h
    | merge => exact ih (h.markNew (by decide))
    | pack => exact ih ((h.markNew (by decide)).markNew (by decide))

theorem Working.ended (h : Working d a H s) (hrefuses : AllOk a → Refuses halt) : Ended d a H halt s :=
  ⟨h.1.1, h.1.2.1, fun hok _ => ⟨h.effects, hrefuses hok⟩⟩

theorem rank_lt_upload {u : MergeStepId} (h : u.rank < rank .upload) : u = .fetch ∨ u = .merge ∨ u = .pack := by
  revert h
  cases u <;> decide

theorem Working.built (h : Working d a H s) (hfetch : .fetch ∈ s.run.done) (hmerge : .merge ∈ s.run.done) (b : Built) :
    Upto d a H (rank .upload) (s.mark .pack fun run => { run with result := some b }) := by
  have heffects := h.effects
  obtain ⟨⟨hinv, hhealthy, htry⟩, hresult⟩ := h
  have hmem (u : MergeStepId) (patch : MergeRun → MergeRun) :
      u ∈ (s.mark .pack patch).run.done ↔ u ∈ s.run.done ∨ u = .pack := mem_done_mark .pack u
  refine ⟨⟨⟨hinv.base, hinv.heads, hinv.order, ?_, fun href => ?_, ?_, fun _ => ?_, hinv.moved,
    fun hne => ?_, fun hup => ?_⟩,
    fun hack hH hlost => hhealthy hack hH hlost.of_mark, htry⟩, rfl, fun u hu => ?_⟩
  · intro t ht
    rw [show (s.mark .pack _).chain.effects = s.chain.effects from rfl, heffects] at ht
    cases ht
  · rcases (hmem _ _).mp href with href | heq
    · exact hinv.ref href
    · cases heq
  · exact ⟨fun _ => rfl, fun _ => (hmem _ _).mpr (.inr rfl)⟩
  · exact ⟨(hmem _ _).mpr (.inl hfetch), (hmem _ _).mpr (.inl hmerge)⟩
  · exact absurd heffects hne
  · rcases (hmem _ _).mp hup with hup | heq
    · obtain ⟨hsome, -⟩ := hinv.uploaded hup
      rw [hresult] at hsome
      cases hsome
    · cases heq
  · rcases rank_lt_upload hu with rfl | rfl | rfl
    · exact (hmem _ _).mpr (.inl hfetch)
    · exact (hmem _ _).mpr (.inl hmerge)
    · exact (hmem _ _).mpr (.inr rfl)

theorem mergeStage_triple : Triple (Ready d a H) (mergeStage a) (Upto d a H (rank .upload)) (Ended d a H) := by
  refine .ite (.done fun s hs => ?_) ?_
  · -- A resumed run keeps what was built.
    obtain ⟨hs, hsome⟩ := hs
    refine ⟨hs, hsome, fun u hu => ?_⟩
    obtain ⟨hfetch, hmerge⟩ := hs.1.worker hsome
    rcases rank_lt_upload hu with rfl | rfl | rfl
    · exact hfetch
    · exact hmerge
    · exact hs.1.result.mpr hsome
  · have hphases (s : State) (hs : Ready d a H s ∧ ¬s.run.result.isSome = true) :
        Working d a H (a.phases.foldl reportPhase s) := Working.phases ⟨hs.1, by simpa using hs.2⟩ a.phases
    have hmarked (s : State) (hs : Ready d a H s ∧ ¬s.run.result.isSome = true) :
        Working d a H (((a.phases.foldl reportPhase s).markNew .fetch).markNew .merge) :=
      ((hphases s hs).markNew (by decide)).markNew (by decide)
    cases hmerge : a.merge with
    | error reason =>
      refine .halted fun s hs => (hphases s hs).ended fun hok => ?_
      obtain ⟨result, heq⟩ := hok.merge
      rw [hmerge] at heq
      cases heq
    | ok result =>
      cases result with
      | built b =>
        cases hverify : a.verifyPack with
        | error reason =>
          refine .halted fun s hs => (hmarked s hs).ended fun hok => ?_
          obtain ⟨missing, heq⟩ := hok.verifyPack
          rw [hverify] at heq
          cases heq
        | ok missing =>
          cases missing with
          | cons o missing => exact .halted fun s hs => (hmarked s hs).ended fun _ => trivial
          | nil =>
            refine .done fun s hs => (hmarked s hs).built ?_ ?_ b
            · simp [mem_done_markNew]
            · simp [mem_done_markNew]
      | _ => exact .halted fun s hs => (hphases s hs).ended fun _ => trivial

/-! ### The guards -/

theorem checkHeads_triple (hfail : AllOk a → fails = none) :
    Triple (fun s => Upto d a H n s ∧ .ref ∉ s.run.done) (checkHeads step fails)
      (fun s => Upto d a H n s ∧ .ref ∉ s.run.done) (Ended d a H) := by
  cases fails with
  | some reason => exact .halted fun s hs => hs.1.ended fun hok => by cases hfail hok
  | none =>
    refine .ite (.halted fun s hs => hs.1.1.ended fun hok hH => ?_)
      (.ite (.halted fun s hs => ?_) (.done fun s hs => hs.1.1))
    · have hlen := hs.2
      rw [hs.1.1.heads hs.1.2 hok hH] at hlen
      exact Nat.lt_irrefl 1 hlen
    · refine hs.1.1.1.ended fun hok hH => hs.2 ?_
      rw [hs.1.1.1.heads hs.1.1.2 hok hH]
      rfl

theorem checkBase_triple {P : State → Prop} (hP : ∀ s, P s → Upto d a H n s) (hfail : AllOk a → fails = none) :
    Triple P (checkBase d step fails) P (Ended d a H) := by
  cases fails with
  | some reason => exact .halted fun s hs => (hP s hs).ended fun hok => by cases hfail hok
  | none => exact .ite (.done fun s hs => hs.1) (.halted fun s hs => absurd (hP s hs.1).ready.1.base hs.2)

theorem headsStage_triple :
    Triple (Upto d a H (rank .upload)) (headsStage d a) (Upto d a H (rank .upload)) (Ended d a H) := by
  refine .ite ((checkHeads_triple AllOk.uploadHeads).imp (fun s hs => ⟨hs.1, fun hmem => ?_⟩) fun s hs => hs.1)
    (.done fun s hs => hs.1)
  -- The ref update came after the upload.
  exact hs.2.1 (((hs.1.ready.1.below .ref (hs.1.ready.1.ref hmem)).2 .upload) (by decide) (by decide))

/-! ### The writes -/

theorem uploadStage_triple :
    Triple (Upto d a H (rank .upload)) (uploadStage d a) (Upto d a H (rank .manifest)) (Ended d a H) := by
  refine .ite (.done fun s hs => hs.1.of_mem hs.2) (.ite (.done fun s hs => ?_) (.ite (.halted fun s hs => ?_) ?_))
  · exact hs.1.1.mark keeps_id nofun (by decide) fun _ => .inr hs.2
  · obtain ⟨⟨⟨hs, -⟩, hempty⟩, hcan⟩ := hs
    -- Nothing was written: what was written could be uploaded.
    refine ⟨hs.ready.1, hs.ready.2.1, fun _ _ => ⟨by_contra fun hne => ?_, trivial⟩⟩
    rcases (hs.ready.1.paid hne).2 with h | h
    · simp [h] at hcan
    · exact hempty h
  · have hkeeps (stored : StoredPack) : Keeps fun run => { run with stored := some stored } :=
      fun _ => ⟨rfl, rfl, rfl, rfl⟩
    exact (writeStage_triple hkeeps (by decide) (by decide) AllOk.upload).imp
      (fun s hs => ⟨hs.1.1.1, hs.1.1.2, .inl (by simpa using hs.2)⟩) fun s hs => hs

theorem manifestStage_triple :
    Triple (Upto d a H (rank .manifest)) (manifestStage a) (Upto d a H (rank .index)) (Ended d a H) := by
  refine .ite (.done fun s hs => hs.1.of_mem hs.2) (.ite (.done fun s hs => ?_) ?_)
  · exact hs.1.1.mark keeps_id nofun (by decide) nofun
  · have hkeeps (id : String) : Keeps fun run => { run with manifestId := some id } := fun _ => ⟨rfl, rfl, rfl, rfl⟩
    exact (writeStage_triple hkeeps (by decide) (by decide) AllOk.manifest).imp
      (fun s hs => ⟨hs.1.1, hs.1.2, hs.1.1.paid (by decide)⟩) fun s hs => hs

theorem indexStage_triple :
    Triple (Upto d a H (rank .index)) (indexStage d a) (Upto d a H (rank .ref)) (Ended d a H) := by
  refine .ite (.done fun s hs => hs.1.of_mem hs.2) (.ite (.done fun s hs => ?_) (.done fun s hs => ?_))
  · exact hs.1.1.mark keeps_id nofun (by decide) nofun
  · obtain ⟨⟨hs, hdone⟩, -⟩ := hs
    split
    · exact (hs.write hdone (by decide) nofun (hs.paid (by decide))).mark keeps_id nofun (by decide) nofun
    · exact hs.mark keeps_id nofun (by decide) nofun

theorem moveStage_triple :
    Triple (fun s => Upto d a H (rank .ref) s ∧ .ref ∉ s.run.done) (moveStage a) (Upto d a H (rank .event))
      (Ended d a H) := by
  have hmoved (s : State) (hs : Upto d a H (rank .ref) s) (hdone : .ref ∉ s.run.done) (newTip : String) :
      Inv d { s with chain := s.chain.move newTip } :=
    hs.ready.1.move hdone hs.below hs.ready.2.2 (hs.paid (by decide)) newTip
  unfold moveStage
  cases href : a.ref with
  | done id =>
    have hkeeps : Keeps fun run => { run with refDocumentId := some id } := fun _ => ⟨rfl, rfl, rfl, rfl⟩
    refine .done fun s hs => ?_
    obtain ⟨hs, hdone⟩ := hs
    have hinv := hmoved s hs hdone ((s.run.result.map Built.newTip).getD "")
    have hmark : Inv d (({ s with chain := s.chain.move ((s.run.result.map Built.newTip).getD "") } : State).mark .ref
        fun run => { run with refDocumentId := some id }) :=
      hinv.mark hkeeps (fun _ => mem_effects_move.mpr (.inr rfl)) (by decide) fun heq => by cases heq
    refine ⟨⟨hmark, fun _ _ hlost => hlost.2 ((mem_done_mark .ref _).mpr (.inr rfl)), hs.ready.2.2⟩,
        hs.result, fun u hu => ?_⟩
    rw [mem_done_mark]
    rcases Nat.lt_succ_iff_lt_or_eq.mp (show u.rank < rank .ref + 1 from hu) with hlt | heq
    · exact .inl (hs.done u hlt)
    · exact .inr (rank_injective heq)
  | failed applied reason =>
    refine .halted fun s hs => ?_
    obtain ⟨hs, hdone⟩ := hs
    have hnot : AllOk a → ¬H := fun hok => by
      obtain ⟨id, heq⟩ := hok.ref
      rw [href] at heq
      cases heq
    cases applied with
    | false => exact hs.ended hnot
    | true =>
      exact ⟨hmoved s hs hdone _, fun hack => absurd href (hack reason), fun hok hH => absurd hH (hnot hok)⟩

theorem refStage_triple : Triple (Upto d a H (rank .ref)) (refStage d a) (Upto d a H (rank .event)) (Ended d a H) := by
  refine .ite (.done fun s hs => hs.1.of_mem hs.2) ?_
  exact (checkBase_triple (fun s hs => hs.1) AllOk.refBase).andThen
    ((checkHeads_triple AllOk.refHeads).andThen moveStage_triple)

theorem eventStage_triple :
    Triple (Upto d a H (rank .event)) (eventStage d a) (Upto d a H (rank .bypass)) (Ended d a H) := by
  refine .ite (.done fun s hs => hs.1.of_mem hs.2) ?_
  have hkeeps (id : String) : Keeps fun run => { run with eventId := some id } := fun _ => ⟨rfl, rfl, rfl, rfl⟩
  exact (checkBase_triple (fun s hs => hs.1) AllOk.eventBase).andThen
    ((writeStage_triple hkeeps (by decide) (by decide) AllOk.event).imp
      (fun s hs => ⟨hs.1, hs.2, hs.1.paid (by decide)⟩) fun s hs => hs)

/-- Every step of the merge is done. -/
def Finished (d : Deps) (s : State) : Prop := ∀ u ∈ mergeSteps d.bypassing, u ∈ s.run.done

theorem rank_le_bypass (u : MergeStepId) : u.rank < rank .bypass ∨ u = .bypass := by
  cases u <;> decide

theorem mem_mergeSteps_bypass {bypassing : Bool} : .bypass ∈ mergeSteps bypassing ↔ bypassing = true := by
  cases bypassing <;> decide

theorem bypassStage_triple : Triple (Upto d a H (rank .bypass)) (bypassStage d a)
      (fun s => (Inv d s ∧ (Acknowledged a → H → ¬Lost s)) ∧ Finished d s) (Ended d a H) := by
  have hkeeps (id : String) : Keeps fun run => { run with bypassEventId := some id } := fun _ => ⟨rfl, rfl, rfl, rfl⟩
  refine .ite ((writeStage_triple hkeeps (by decide) (by decide) AllOk.bypass).imp
    (fun s hs => ⟨hs.1, hs.2.2, hs.1.paid (by decide)⟩) fun s hs => ?_) (.done fun s hs => ?_)
  · refine ⟨⟨hs.ready.1, hs.ready.2.1⟩, fun u _ => hs.done u ?_⟩
    rcases rank_le_bypass u with hlt | rfl
    · exact Nat.lt_succ_of_lt hlt
    · exact Nat.lt_succ_self _
  · obtain ⟨hs, hskip⟩ := hs
    refine ⟨⟨hs.ready.1, hs.ready.2.1⟩, fun u hu => ?_⟩
    rcases rank_le_bypass u with hlt | rfl
    · exact hs.done u hlt
    · exact by_contra fun hnot => hskip ⟨mem_mergeSteps_bypass.mp hu, hnot⟩

/-! ### Attempts -/

/-- An attempt keeps the invariant. It ends with every step done, or where it stops or fails. -/
theorem runMergeSteps_triple : Triple (fun s => Inv d s ∧ (Acknowledged a → H → ¬Lost s)) (runMergeSteps d a)
      (fun s => (Inv d s ∧ (Acknowledged a → H → ¬Lost s)) ∧ Finished d s) (Ended d a H) :=
  checkStage_triple.andThen <| mergeStage_triple.andThen <| headsStage_triple.andThen <|
    uploadStage_triple.andThen <| manifestStage_triple.andThen <| indexStage_triple.andThen <|
      refStage_triple.andThen <| eventStage_triple.andThen bypassStage_triple

/-- The branch before a merge, and a fresh run for it. -/
def start (d : Deps) (baseRef : Option String) : State where
  chain := { heads := [d.input.baseTip], base := d.baseRefName }
  run := newRun d.input baseRef

theorem inv_start (baseRef : Option String) : Inv d (start d baseRef) where
  base := rfl
  heads _ := rfl
  order := List.Pairwise.nil
  below _ ht := by cases ht
  ref hmem := by cases hmem
  result := ⟨nofun, nofun⟩
  worker hsome := by cases hsome
  moved _ hmem := by cases hmem
  paid hne := absurd rfl hne
  uploaded hmem := by cases hmem

/-- Before an attempt: none was made, or a step of the last one failed. The attempts made are of one kind. -/
inductive Resumed (d : Deps) (baseRef : Option String) (P : Attempt → Prop) : State → Prop
  | fresh : Resumed d baseRef P (start d baseRef)
  | retry {s s' : State} {a : Attempt} {step : MergeStepId} {reason : String} (hs : Resumed d baseRef P s) (ha : P a)
      (h : runMergeSteps d a s = (s', some (.stepError step reason))) : Resumed d baseRef P s'

theorem Resumed.inv {P : Attempt → Prop} (h : Resumed d baseRef P s) : Inv d s := by
  induction h with
  | fresh => exact inv_start baseRef
  | @retry s s' a step reason hs ha heq ih =>
    exact ((runMergeSteps_triple (a := a) (H := False) s ⟨ih, fun _ hf => hf.elim⟩).2 s' _ heq).1

theorem Resumed.not_lost (h : Resumed d baseRef Acknowledged s) : ¬Lost s := by
  induction h with
  | fresh => exact fun hlost => by cases hlost.1
  | @retry s s' a step reason hs ha heq ih =>
    exact ((runMergeSteps_triple (a := a) (H := True) s ⟨hs.inv, fun _ _ => ih⟩).2 s' _ heq).2.1 ha trivial

theorem Inv.attempt (h : Inv d s) (a : Attempt) : Inv d (runMergeSteps d a s).1 := by
  obtain ⟨hnone, hsome⟩ := runMergeSteps_triple (a := a) (H := False) s ⟨h, fun _ hf => hf.elim⟩
  cases heq : runMergeSteps d a s with
  | mk s' o =>
    cases o with
    | none => exact (hnone s' heq).1.1
    | some e => exact (hsome s' e heq).1

/-- Writes take effect once and in order, the branch moves from the tip that was merged into only, and a merge is
recorded after the branch moved, whatever fails. If no ref update is reported as failed after it took effect, an
attempt that fails nowhere ends with every step done, or nothing was ever written for a merge that cannot be made. -/
theorem runMergeSteps_spec (d : Deps) (baseRef : Option String) :
    (∀ s, Resumed d baseRef (fun _ => True) s → ∀ a, let s' := (runMergeSteps d a s).1
      (s'.chain.effects.Pairwise fun t u => t.rank < u.rank) ∧
      (∀ heads ∈ s'.chain.movedFrom, heads = [s'.run.baseTip]) ∧
      (.event ∈ s'.chain.effects → .ref ∈ s'.chain.effects)) ∧
    ∀ s, Resumed d baseRef Acknowledged s → ∀ a, AllOk a →
      (∃ s', runMergeSteps d a s = (s', none) ∧ Finished d s') ∨
      ∃ s' halt, runMergeSteps d a s = (s', some halt) ∧ s'.chain.effects = [] ∧ Refuses halt := by
  refine ⟨fun s hs a => ?_, fun s hs a hok => ?_⟩
  · have hinv := hs.inv.attempt a
    refine ⟨hinv.order, hinv.moved, fun hevent => ?_⟩
    exact hinv.ref ((hinv.below .event hevent).2 .ref (by decide) (by decide))
  · obtain ⟨hnone, hsome⟩ := runMergeSteps_triple (a := a) (H := True) s ⟨hs.inv, fun _ _ => hs.not_lost⟩
    cases heq : runMergeSteps d a s with
    | mk s' o =>
      cases o with
      | none => exact .inl ⟨s', rfl, (hnone s' heq).2⟩
      | some halt =>
        obtain ⟨-, -, hended⟩ := hsome s' halt heq
        obtain ⟨hempty, hrefuses⟩ := hended hok trivial
        exact .inr ⟨s', halt, rfl, hempty, hrefuses⟩

/-- A fast-forward that adds nothing to store. -/
def sampleDeps : Deps where
  isPublic := true
  baseRefName := "refs/heads/main"
  input := { baseTip := "a1", headOid := "b2", squash := none, noFastForward := false, message := none, rebase := false }
  refProblem := none
  canUpload := true
  canPublish := false
  bypassing := false

/-- An attempt whose ref update comes to `ref`, and nothing else fails. -/
def sampleAttempt (ref : Outcome String) : Attempt where
  phases := [.analyse, .merge, .pack]
  merge := .ok (.built { newTip := "b2", pack := [], packHash := "", objectCount := 0 })
  verifyPack := .ok []
  uploadHeads := none
  refBase := none
  refHeads := none
  eventBase := none
  upload := .done { platform := true, chunkCount := 0, uris := [] }
  manifest := .done "m"
  index := .done ()
  ref := ref
  event := .done "e"
  bypass := .done "p"

/-- The ref update fails and takes no effect, and the retry ends with every step done. -/
theorem runMergeSteps_spec_sample : ∃ s s',
    runMergeSteps sampleDeps (sampleAttempt (.failed false "timeout")) (start sampleDeps none) =
      (s, some (.stepError .ref "timeout")) ∧
    runMergeSteps sampleDeps (sampleAttempt (.done "r")) s = (s', none) ∧ Finished sampleDeps s' := by
  obtain ⟨s, hfail⟩ : ∃ s, runMergeSteps sampleDeps (sampleAttempt (.failed false "timeout")) (start sampleDeps none) =
      (s, some (.stepError .ref "timeout")) := ⟨_, rfl⟩
  have hretry : Resumed sampleDeps none Acknowledged s := .retry .fresh (fun reason h => by cases h) hfail
  have hok : AllOk (sampleAttempt (.done "r")) :=
    ⟨⟨_, rfl⟩, ⟨_, rfl⟩, rfl, rfl, rfl, rfl, ⟨_, rfl⟩, ⟨_, rfl⟩, ⟨_, rfl⟩, ⟨_, rfl⟩, ⟨_, rfl⟩⟩
  rcases (runMergeSteps_spec sampleDeps none).2 s hretry _ hok with ⟨s', hdone, hfinished⟩ | ⟨s', halt, hrefused, -⟩
  · exact ⟨s, s', hfail, hdone, hfinished⟩
  · obtain rfl : _ = s := congrArg Prod.fst hfail
    cases hrefused

/-! ### A merge that is lost -/

/-- The ref update takes effect and is reported as failed. The retry fails nowhere, and is stopped by the branch having
moved: it moved, and no merge is recorded. -/
theorem merge_unrecorded :
    ∃ s s' : State, runMergeSteps sampleDeps (sampleAttempt (.failed true "timeout")) (start sampleDeps none) =
        (s, some (.stepError .ref "timeout")) ∧
      AllOk (sampleAttempt (.done "r")) ∧
      runMergeSteps sampleDeps (sampleAttempt (.done "r")) s = (s', some (.stopped (.moved "b2"))) ∧
      s'.chain.heads = ["b2"] ∧ .event ∉ s'.chain.effects := by
  refine ⟨_, _, rfl, ?_, rfl, rfl, by decide⟩
  exact ⟨⟨_, rfl⟩, ⟨_, rfl⟩, rfl, rfl, rfl, rfl, ⟨_, rfl⟩, ⟨_, rfl⟩, ⟨_, rfl⟩, ⟨_, rfl⟩, ⟨_, rfl⟩⟩

end DashForge.Runner
