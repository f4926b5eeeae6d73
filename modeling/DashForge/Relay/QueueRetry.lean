import DashForge.Relay.QueueRuns

/-!
# Deliveries given up

A delivery that was given up stays so as long as its record does. A run carries what happened to each id
(`History`), which the queue itself forgets: where every failure of an id with a history still finds its entry
(`Meets`), what was given up is never pending again nor handed out, and nothing is handed out 48 h after it
first failed (`run_spec`). A mass drop can trim the record while a worker still holds the delivery, and its
failure then starts it anew (`dropped_revived`).
-/

namespace DashForge.Relay.Queue

open List Option

variable {q : Queue} {lim : Limits} {st st' : State} {now : ℕ}

/-- What became of the ids in a run. -/
structure History where
  /-- Ids given up. -/
  given : Set String
  /-- When an id first failed. -/
  first : String → Option ℕ

namespace History

/-- What a call adds: it gave up what was pending, or new, and is not any more without having succeeded. -/
def after (h : History) (op : Op) (st st' : State) : History where
  given := {id | id ∈ h.given ∨ (st.isPending id ∨ op.Creates st id) ∧ op ≠ .succeeded id ∧ ¬st'.isPending id}
  first id := (h.first id).or <|
    match op with
    | .fail f now _ _ => if f.id = id then some now else none
    | _ => none

/-- The history that loaded files bring. -/
def ofFiles (files : List Entry) (st : State) : History where
  given := {id | id ∈ files.map Entry.id ∧ ¬st.isPending id}
  first id := (files.find? fun f => f.id = id).map Entry.createdMs

end History

/-- A failure of an id that was given up or failed before finds an entry of it. -/
def Meets (st : State) (h : History) (op : Op) : Prop :=
  match op with
  | .fail f _ _ _ => f.id ∈ h.given ∨ (h.first f.id).isSome → (st.entries.lookup f.id).isSome
  | _ => True

/-- Runs whose steps all meet a condition. -/
inductive Run (q : Queue) (P : State → History → Op → Prop) : State → History → Prop
  | empty : Run q P {} ⟨∅, fun _ => none⟩
  | load {order : HashOrder} {files : List Entry} {now : ℕ} {st : State} (hids : (files.map Entry.id).Nodup)
    (h : q.load order files now = some st) : Run q P st (.ofFiles files st)
  | step {order : HashOrder} {op : Op} {answer : Answer} {st st' : State} {h : History} (hrun : Run q P st h)
    (hop : P st h op) (hstep : q.step order st op = some (st', answer)) : Run q P st' (h.after op st st')

/-- What was given up is not pending, and pending entries date from their first failure. -/
structure Follows (q : Queue) (st : State) (h : History) : Prop extends q.Inv st where
  given : ∀ id ∈ h.given, ¬st.isPending id
  first : ∀ e, st.Pending e → h.first e.id = some e.createdMs

theorem follows_ofFiles {files : List Entry} {order : HashOrder} (hids : (files.map Entry.id).Nodup)
    (h : q.load order files now = some st) : q.Follows st (.ofFiles files st) := by
  obtain ⟨st', hload, hinv, -, hpending⟩ := exists_load hids q order now
  obtain rfl := some.inj (h.symm.trans hload)
  refine ⟨hinv, fun id hid => hid.2, fun e he => ?_⟩
  obtain ⟨f, hf, hid, -, hms⟩ := hpending e he
  have hfind : files.find? (fun f => f.id = e.id) = some f := by
    cases hfound : files.find? fun f => f.id = e.id with
    | none => exact absurd hid (by simpa using find?_eq_none.mp hfound f hf)
    | some f' =>
      have hid' : f'.id = e.id := by simpa using find?_some hfound
      rw [inj_on_of_nodup_map hids (mem_of_find?_eq_some hfound) hf (hid'.trans hid.symm)]
  simp [History.ofFiles, hfind, hms]

theorem Follows.after {h : History} {op : Op} (hf : q.Follows st h) (hmeets : Meets st h op) (hinv : q.Inv st')
    (hkept : Kept op st st') : q.Follows st' (h.after op st st') := by
  have hcreates : ∀ id, op.Creates st id → id ∉ h.given ∧ h.first id = none := by
    intro id hid
    cases op with
    | fail f now count deferUntil =>
      obtain ⟨rfl, hnone⟩ := hid
      have hnot : ¬(f.id ∈ h.given ∨ (h.first f.id).isSome) := fun hor => by
        simpa [hnone] using hmeets hor
      rw [not_or, not_isSome_iff_eq_none] at hnot
      exact hnot
    | _ => exact hid.elim
  refine ⟨hinv, fun id hid hp => ?_, fun e he => ?_⟩
  · rcases hid with hgiven | ⟨-, -, hnot⟩
    · obtain ⟨e, he, rfl⟩ := hinv.isPending_iff.mp hp
      rcases hkept.origin e he with ⟨e₀, he₀, hid₀, -⟩ | ⟨hcreate, -⟩
      · exact hf.given e.id hgiven (hf.isPending_iff.mpr ⟨e₀, he₀, hid₀⟩)
      · exact (hcreates e.id hcreate).1 hgiven
    · exact hnot hp
  · rcases hkept.origin e he with ⟨e₀, he₀, hid₀, hms⟩ | ⟨hcreate, hclock⟩
    · rw [← hid₀, ← hms]
      simp [History.after, hf.first e₀ he₀]
    · have hnone := (hcreates e.id hcreate).2
      cases op with
      | fail f now count deferUntil =>
        simp only [History.after, hnone, none_or, if_pos hcreate.1]
        exact hclock
      | _ => exact hcreate.elim

theorem Run.follows {h : History} (hrun : q.Run Meets st h) : q.Follows st h := by
  induction hrun with
  | empty => exact ⟨.empty q, fun _ hid => hid.elim, fun e he => by cases he.1⟩
  | load hids h => exact follows_ofFiles hids h
  | @step order op answer st st' h hrun hop hstep ih =>
    obtain ⟨st₁, answer₁, hstep', hinv, hkept⟩ := ih.toInv.exists_step order op
    obtain ⟨rfl, -⟩ := Prod.mk.inj (some.inj (hstep.symm.trans hstep'))
    exact ih.after hop hinv hkept

/-- What was given up is never pending again nor handed out, and nothing is handed out 48 h after its first
failure. -/
theorem run_spec {h : History} (hrun : q.Run Meets st h) : (∀ id ∈ h.given, ¬st.isPending id) ∧
    ∀ now st' entries, st.due now = some (st', entries) → ∀ e ∈ entries,
      e.id ∉ (h.after (.due now) st st').given ∧ ∃ t, h.first e.id = some t ∧ now - t < expiry := by
  refine ⟨hrun.follows.given, fun now st' entries hdue e he => ?_⟩
  obtain ⟨st₁, entries₁, hdue₁, hinv, hkept, hlisted⟩ := hrun.follows.exists_due now
  obtain ⟨rfl, rfl⟩ := Prod.mk.inj (Option.some.inj (hdue.symm.trans hdue₁))
  obtain ⟨e', he', rfl, hyoung⟩ := hlisted e he
  have hafter : q.Follows st' (h.after (.due now) st st') := hrun.follows.after trivial hinv hkept
  refine ⟨fun hgiven => hafter.given e'.id hgiven (hinv.isPending_iff.mpr ⟨e', he', rfl⟩), e'.createdMs, ?_, hyoung⟩
  have hfirst : (h.first e'.id).or none = some e'.createdMs := hafter.first e' he'
  rwa [Option.or_none] at hfirst

/-! ### A revived delivery -/

/-- Dropping the hook of the only pending entry. -/
theorem dropWhere_eq_markDropped {e : Entry} (h : Sound lim st) (he : ∀ e', st.Pending e' ↔ e' = e)
    (order : HashOrder) (hits : String → String → Bool) (hhits : hits e.repoId e.hookId = true) (reason : String)
    (now : ℕ) : st.dropWhere order hits reason now = st.markDropped e.id reason now := by
  have hp : st.Pending e := (he e).mpr rfl
  obtain ⟨hnodup, hids⟩ := h.hookIds order hits
  have hmem : e.id ∈ ((order.hooks st.hooks).filter fun x => hits (ofLex x.1).1 (ofLex x.1).2).flatMap fun x =>
      (x.2.sort (· ≤ ·)).map fun k => (ofLex k).2 := by
    have hkey : e.key ∈ pendingKeys st.entries.values (inHook e.hook) :=
      mem_pendingKeys.mpr ⟨e, h.mem_values.mpr hp.1, ⟨hp.2, decide_eq_true rfl⟩, rfl⟩
    have hlookup := SortedMap.lookup_eq_some_iff.mp (h.lookup_hooks_eq_some.mpr ⟨⟨_, hkey⟩, rfl⟩)
    refine mem_flatMap.mpr ⟨_, mem_filter.mpr ⟨(order.hooks_perm _).mem_iff.mpr hlookup, hhits⟩, ?_⟩
    exact List.mem_map.mpr ⟨e.key, (Finset.mem_sort _).mpr hkey, rfl⟩
  have hsingle := perm_singleton.mp ((perm_ext_iff_of_nodup hnodup (nodup_singleton e.id)).mpr
    fun id => by
      rw [mem_singleton]
      refine ⟨fun hid => ?_, fun heq => heq ▸ hmem⟩
      obtain ⟨e', he', rfl⟩ := h.isPending_iff.mp (hids id hid)
      rw [(he e').mp he'])
  rw [State.dropWhere, hsingle]
  rfl

/-- A failure that finds no entry, in a queue with nothing pending, is queued. -/
theorem fail_of_lookup_eq_none (h : q.Inv st) (hnone : ∀ e, ¬st.Pending e) (order : HashOrder) {f : Failure}
    (hlookup : st.entries.lookup f.id = none) (now : ℕ) (count : Bool) (deferUntil : Option ℕ)
    (hhook : 1 ≤ q.limits.perHook) (hrepo : 1 ≤ q.limits.perRepo) (htotal : 1 ≤ q.limits.total)
    (hbytes : bodySize f.payload ≤ q.limits.bytes) :
    ∃ st', q.fail order f now count deferUntil st = some (st', true) ∧ st'.isPending f.id := by
  let e := newEntry f now
  let st₂ : State := { st.add e with entries := (st.add e).entries.insert f.id (q.retried f now count deferUntil e) }
  have hs₁ : Sound q.limits (st.add e) := h.add hlookup
  have he : (st.add e).Pending e := ⟨by rw [lookup_add, if_pos rfl], rfl⟩
  have hs₂ : Sound q.limits st₂ := hs₁.replace _ he rfl rfl rfl rfl
  have hlookup₂ : ∀ id, st₂.entries.lookup id =
      if id = f.id then some (q.retried f now count deferUntil e) else st.entries.lookup id := by
    intro id
    rw [SortedMap.lookup_insert]
    split
    · rfl
    · next hne => exact (lookup_add st e id).trans (if_neg hne)
  have hbounded : Bounded q.limits st₂.entries.values :=
    bounded_of_forall_eq (e := q.retried f now count deferUntil e) hs₂ (fun e' he' => by
      obtain ⟨hfind, hp⟩ := he'
      rw [hlookup₂] at hfind
      split at hfind
      · exact (some.inj hfind).symm
      · exact absurd ⟨hfind, hp⟩ (hnone e')) hhook hrepo htotal hbytes
  have hpending : st₂.isPending f.id := by
    rw [State.isPending_iff, hlookup₂, if_pos rfl]
    exact ⟨_, rfl, rfl⟩
  have hlocked : q.failLocked order f now count deferUntil st = some (st₂, true) := by
    rw [failLocked_eq_map order f now count deferUntil (if_neg (by rw [hlookup]; simp)) he.1 rfl,
      enforceBounds_eq_self hs₂ hbounded order _ now, map_some, hpending]
  refine ⟨if f.claimed then { st₂ with claimed := st₂.claimed.erase f.id } else st₂, ?_, ?_⟩
  · rw [fail, hlocked, map_some]
  · split
    · exact hpending
    · exact hpending

/-- A delivery that failed is dropped while a worker holds it, and the worker's late failure finds its record. -/
theorem run_spec_lateFail : ∃ st h, ({} : Queue).Run Meets st h ∧ sampleFailure.id ∈ h.given ∧
    ¬st.isPending sampleFailure.id ∧ ∀ now st' entries, st.due now = some (st', entries) → ∀ e ∈ entries,
      e.id ∉ (h.after (.due now) st st').given ∧ ∃ t, h.first e.id = some t ∧ now - t < expiry := by
  obtain ⟨st₁, a₁, hfail, hinv₁, -⟩ := (Inv.empty {}).exists_step default (.fail sampleFailure 5 true none)
  obtain ⟨st₂, a₂, hclaim, hinv₂, -⟩ := hinv₁.exists_step default (.claim sampleFailure.id)
  obtain ⟨st₃, a₃, hdrop, hinv₃, -⟩ := hinv₂.exists_step default (.dropEntry sampleFailure.id "hook removed" 6)
  obtain ⟨st₄, a₄, hlate, -, -⟩ :=
    hinv₃.exists_step default (.fail { sampleFailure with claimed := true } 7 true none)
  have hrecord : (({} : Queue).step default {} (.fail sampleFailure 5 true none)).bind (fun x₁ =>
      (({} : Queue).step default x₁.1 (.claim sampleFailure.id)).bind fun x₂ =>
      (({} : Queue).step default x₂.1 (.dropEntry sampleFailure.id "hook removed" 6)).map fun x₃ =>
        (decide (x₂.1.isPending sampleFailure.id), decide (x₃.1.isPending sampleFailure.id),
          (x₃.1.entries.lookup sampleFailure.id).isSome)) = some (true, false, true) := by decide +kernel
  rw [hfail, Option.bind_some, hclaim, Option.bind_some, hdrop, Option.map_some, Option.some.injEq, Prod.mk.injEq,
    Prod.mk.injEq, decide_eq_true_eq, decide_eq_false_iff_not] at hrecord
  have hmeets : Meets {} ⟨∅, fun _ => none⟩ (.fail sampleFailure 5 true none) := fun hor => by simp at hor
  have hrun₁ := Run.step .empty hmeets hfail
  have hrun₂ := hrun₁.step (show Meets st₁ _ (.claim sampleFailure.id) from trivial) hclaim
  have hrun₃ := hrun₂.step (show Meets st₂ _ (.dropEntry sampleFailure.id "hook removed" 6) from trivial) hdrop
  have hrun := hrun₃.step (show Meets st₃ _ (.fail { sampleFailure with claimed := true } 7 true none) from
    fun _ => hrecord.2.2) hlate
  refine ⟨st₄, _, hrun, .inl (.inr ⟨.inl hrecord.1, nofun, hrecord.2.1⟩), ?_, (run_spec hrun).2⟩
  exact (run_spec hrun).1 _ (.inl (.inr ⟨.inl hrecord.1, nofun, hrecord.2.1⟩))

/-- A worker's late report. -/
def lateFailure : Failure := { sampleFailure with id := firstId, claimed := true }

/-- A worker takes an entry; its hook is removed, and the record trimmed; the worker's failure starts it anew. -/
theorem dropped_revived : ∃ st₀ st₁ st₂ st₃, ({} : Queue).load default sampleFiles 2 = some st₀ ∧
    ({} : Queue).step default st₀ (.claim firstId) = some (st₁, .body (some "\x7b\x7d")) ∧
    ({} : Queue).step default st₁ (.dropWhere (fun repo hook => repo = "R" ∧ hook = "H") "hook removed" 2) =
      some (st₂, .done) ∧ st₁.isPending firstId ∧ ¬st₂.isPending firstId ∧
    ({} : Queue).step default st₂ (.fail lateFailure 3 true none) = some (st₃, .queued true) ∧
      st₃.isPending firstId := by
  obtain ⟨st₀, hload, hfull⟩ := exists_fullOfRecords
  have hp : st₀.Pending sampleEntry := (hfull.pending _).mpr rfl
  let st₁ : State := { st₀ with claimed := insert firstId st₀.claimed }
  have hclaim : st₀.claim firstId = (st₁, some "\x7b\x7d") := by
    have hfind : (st₀.entries.lookup firstId).filter (fun e => e.status = .pending) = some sampleEntry :=
      Option.filter_eq_some_iff.mpr ⟨hp.1, rfl⟩
    have hnot : firstId ∉ st₀.claimed := by simp [hfull.claimed]
    rw [State.claim, hfind]
    exact congrArg (Prod.mk _) (if_neg hnot)
  have hinv₁ : ({} : Queue).Inv st₁ := hfull.inv.withClaimed _
  obtain ⟨hinv₂, -⟩ := hinv₁.dropWhere default (fun repo hook => repo = "R" ∧ hook = "H") "hook removed" 2
  have hdrop := dropWhere_eq_markDropped hinv₁.toSound hfull.pending default
    (fun repo hook => repo = "R" ∧ hook = "H") (by decide) "hook removed" 2
  have hp₁ : st₁.Pending sampleEntry := hp
  have hlookup := lookup_markDropped_eq_none hp₁ hfull.card_dropped hfull.newer "hook removed"
  obtain ⟨-, -, hpending, -⟩ := hinv₁.markDropped hp₁ "hook removed" 2
  rw [hdrop] at hinv₂
  have hnone : ∀ e, ¬(st₁.markDropped sampleEntry.id "hook removed" 2).Pending e := fun e he =>
    ((hpending e).mp he).2 (by rw [(hfull.pending e).mp ((hpending e).mp he).1])
  obtain ⟨st₃, hfail, hqueued⟩ := fail_of_lookup_eq_none hinv₂ hnone default (f := lateFailure) hlookup 3 true none
    (by decide) (by decide) (by decide) (by decide)
  refine ⟨st₀, st₁, st₁.markDropped sampleEntry.id "hook removed" 2, st₃, hload, ?_, ?_, ?_, ?_, ?_, hqueued⟩
  · rw [step, hclaim]
  · rw [step, hdrop]
  · exact hinv₁.isPending_iff.mpr ⟨sampleEntry, hp, rfl⟩
  · intro hpend
    obtain ⟨e, he, -⟩ := hinv₂.isPending_iff.mp hpend
    exact hnone e he
  · rw [step, hfail, Option.map_some]

end DashForge.Relay.Queue
