import DashForge.Relay.QueueCalls
import Mathlib.Data.List.ProdSigma

/-!
# The queue over a run

From an empty queue or any loaded files, after any calls: the indexes are what computing them anew from the
entries gives, nothing having saturated, the bounds are met, and each call returns and drops entries only into
records (`Queue.Reachable.spec`). A record can go at once where a thousand others are newer
(`dropEntry_forgotten`).
-/

namespace DashForge.Relay

open List

variable {q : Queue} {lim : Limits} {st st' : State} {now : ℕ}

namespace Queue

/-! ### Loading -/

theorem readEntries_concat (files : List Entry) (f : Entry) :
    readEntries (files ++ [f]) = (readEntries files).add { f with bytes := bodySize f.payload } := by
  simp [readEntries]

variable {files : List Entry} {e : Entry}

theorem readEntries_spec (hids : (files.map Entry.id).Nodup) (lim : Limits) :
    Sound lim (readEntries files) ∧ ∀ id e, (readEntries files).entries.lookup id = some e ↔
      ∃ f ∈ files, f.id = id ∧ e = { f with bytes := bodySize f.payload } := by
  induction files using reverseRecOn with
  | nil => exact ⟨.empty lim, fun id e => by simp [readEntries, SortedMap.lookup_empty]⟩
  | append_singleton files f ih =>
    rw [map_append, nodup_append] at hids
    obtain ⟨hfiles, -, hdisj⟩ := hids
    obtain ⟨hsound, hlookup⟩ := ih hfiles
    have hnone : (readEntries files).entries.lookup f.id = none := by
      rw [Option.eq_none_iff_forall_ne_some]
      intro e he
      obtain ⟨f', hf', hid, -⟩ := (hlookup f.id e).mp he
      exact hdisj f'.id (mem_map_of_mem hf') f.id (by simp) hid
    rw [readEntries_concat]
    refine ⟨hsound.add hnone, fun id e => ?_⟩
    rw [lookup_add]
    split
    · next heq =>
      obtain rfl : id = f.id := heq
      constructor
      · intro he
        exact ⟨f, by simp, rfl, (Option.some.inj he).symm⟩
      · rintro ⟨f', hf', hid, rfl⟩
        rcases mem_append.mp hf' with hf' | hf'
        · exact absurd hid (hdisj f'.id (mem_map_of_mem hf') f.id (by simp))
        · rw [mem_singleton.mp hf']
    · next hne =>
      rw [hlookup]
      constructor
      · rintro ⟨f', hf', hid, he⟩
        exact ⟨f', mem_append_left _ hf', hid, he⟩
      · rintro ⟨f', hf', rfl, he⟩
        rcases mem_append.mp hf' with hf' | hf'
        · exact ⟨f', hf', rfl, he⟩
        · exact absurd (by rw [mem_singleton.mp hf']) hne

theorem claimed_readEntries (files : List Entry) : (readEntries files).claimed = ∅ := by
  induction files using reverseRecOn with
  | nil => rfl
  | append_singleton files f ih => rw [readEntries_concat, State.add, ih]

/-- Loading returns, whatever the files hold: their pending entries are pending, or given up now. -/
theorem exists_load (hids : (files.map Entry.id).Nodup) (q : Queue) (order : HashOrder)
    (now : ℕ) : ∃ st, q.load order files now = some st ∧ q.Inv st ∧
      (∀ f ∈ files, f.status = .pending → st.isPending f.id ∨ st.GivenUp now f.id) ∧
      ∀ e, st.Pending e → ∃ f ∈ files, f.id = e.id ∧ f.status = .pending ∧ f.createdMs = e.createdMs := by
  obtain ⟨hsound, hlookup⟩ := readEntries_spec hids q.limits
  have hpending : ∀ f ∈ files, f.status = .pending →
      (readEntries files).Pending { f with bytes := bodySize f.payload } :=
    fun f hf hp => ⟨(hlookup f.id _).mpr ⟨f, hf, rfl, rfl⟩, hp⟩
  obtain ⟨hs₁, hd₁⟩ := hsound.foldl_markDropped
    ((files.filter fun e => e.status = .pending ∧ e.payload = none).map Entry.id)
    ((filter_sublist.map _).nodup hids) (fun id hid => by
      obtain ⟨f, hf, rfl⟩ := mem_map.mp hid
      obtain ⟨hmem, hp⟩ := mem_filter.mp hf
      exact hsound.isPending_iff.mpr ⟨_, hpending f hmem (of_decide_eq_true hp).1, rfl⟩)
    "no body stored (unreadable entry)" now
  obtain ⟨st, hall, hs, hd₂, hbounded, hcard⟩ := exists_enforceAll hs₁ order now
  have hdrops := hd₁.trans hd₂
  refine ⟨st, hall, ⟨hs, hbounded, hcard⟩, fun f hf hp => ?_, fun e he => ?_⟩
  · rcases hdrops.pending _ (hpending f hf hp) with he | hgiven
    · exact .inl (hs.isPending_iff.mpr ⟨_, he, rfl⟩)
    · exact .inr hgiven
  · obtain ⟨hfind, hp⟩ := hdrops.pending_of e he
    obtain ⟨f, hf, hid, rfl⟩ := (hlookup e.id e).mp hfind
    exact ⟨f, hf, hid, hp, rfl⟩

/-! ### Runs -/

/-- Every call returns, keeping the invariant and the entries. -/
theorem Inv.exists_step (h : q.Inv st) (order : HashOrder) (op : Op) :
    ∃ st' answer, q.step order st op = some (st', answer) ∧ q.Inv st' ∧ Kept op st st' := by
  cases op with
  | fail f now count deferUntil =>
    obtain ⟨st', b, hfail, hinv, hkept⟩ := exists_failLocked h order f now count deferUntil
    refine ⟨if f.claimed then { st' with claimed := st'.claimed.erase f.id } else st', .queued b, ?_, ?_⟩
    · rw [step, fail, hfail]
      rfl
    · split
      · exact ⟨hinv.withClaimed _, hkept.withClaimed _⟩
      · exact ⟨hinv, hkept⟩
  | defer id t => exact ⟨_, _, rfl, h.defer id t⟩
  | succeeded id => exact ⟨_, _, rfl, h.succeeded id⟩
  | dropEntry id reason now => exact ⟨_, _, rfl, h.dropEntry id reason now⟩
  | dropWhere hits reason now => exact ⟨_, _, rfl, h.dropWhere order hits reason now⟩
  | due now =>
    obtain ⟨st', entries, hdue, hinv, hkept, -⟩ := h.exists_due now
    exact ⟨st', .due entries, by rw [step, hdue, Option.map_some], hinv, hkept⟩
  | claim id =>
    have hkept : Kept (.claim id) st st := .refl fun _ => not_false
    refine ⟨_, _, rfl, ?_⟩
    rw [State.claim]
    split
    · exact ⟨h, hkept⟩
    · exact ⟨h.withClaimed _, hkept.withClaimed _⟩
  | release id =>
    have hkept : Kept (.release id) st st := .refl fun _ => not_false
    exact ⟨_, _, rfl, h.withClaimed _, hkept.withClaimed _⟩

/-- The states of runs, from an empty queue or loaded files. -/
inductive Reachable (q : Queue) : State → Prop
  | empty : Reachable q {}
  | load {order : HashOrder} {files : List Entry} {now : ℕ} {st : State} (hids : (files.map Entry.id).Nodup)
    (h : q.load order files now = some st) : Reachable q st
  | step {order : HashOrder} {op : Op} {answer : Answer} {st st' : State} (hst : Reachable q st)
    (h : q.step order st op = some (st', answer)) : Reachable q st'

theorem Inv.empty (q : Queue) : q.Inv {} where
  toSound := .empty q.limits
  bounded := ⟨⟨Nat.zero_le _, Nat.zero_le _⟩, fun _ => Nat.zero_le _, fun _ => Nat.zero_le _⟩
  card_dropped := Nat.zero_le _

theorem Reachable.inv (h : q.Reachable st) : q.Inv st := by
  induction h with
  | empty => exact .empty q
  | @load order files now st hids h =>
    obtain ⟨st', hload, hinv, -⟩ := exists_load hids q order now
    rwa [Option.some.inj (h.symm.trans hload)]
  | @step order op answer st st' hst h ih =>
    obtain ⟨st₁, answer₁, hstep, hinv, -⟩ := ih.exists_step order op
    obtain ⟨rfl, -⟩ := Prod.mk.inj (Option.some.inj (h.symm.trans hstep))
    exact hinv

/-- The indexes are those of the entries and the bounds are met. -/
structure InStep (q : Queue) (st : State) : Prop extends Bounded q.limits st.entries.values where
  index : st.toIndex = rebuild st.entries
  drift : st.drift = 0
  records : (st.entries.values.filter fun e => e.status = .dropped).length ≤ maxDropped
  evictions : ∀ ev ∈ st.evicted, Fair q.limits ev.entries.values ev.id

theorem Inv.inStep (h : q.Inv st) : q.InStep st where
  toBounded := h.bounded
  index := h.agrees.eq_rebuild
  drift := h.agrees.drift
  records := h.toSound.card_dropped ▸ h.card_dropped
  evictions := h.fair

/-- What holds of the queue over every run. -/
theorem reachable_spec (q : Queue) :
    (∀ order files now, (files.map Entry.id).Nodup → ∃ st, q.load order files now = some st ∧ q.InStep st ∧
      ∀ f ∈ files, f.status = .pending → st.isPending f.id ∨ st.GivenUp now f.id) ∧
    ∀ st, q.Reachable st → q.InStep st ∧ ∀ order op, ∃ st' answer,
      q.step order st op = some (st', answer) ∧ q.InStep st' ∧ Kept op st st' := by
  refine ⟨fun order files now hids => ?_, fun st hst => ⟨hst.inv.inStep, fun order op => ?_⟩⟩
  · obtain ⟨st, hload, hinv, hpending, -⟩ := exists_load hids q order now
    exact ⟨st, hload, hinv.inStep, hpending⟩
  · obtain ⟨st', answer, hstep, hinv, hkept⟩ := hst.inv.exists_step order op
    exact ⟨st', answer, hstep, hinv.inStep, hkept⟩

def sampleFailure : Failure where
  id := "b50f124f-72a9-90b7-c943-e486822a82f0"
  repoId := "R"
  hookId := "H"
  event := "push"
  sourceDocId := "doc"
  payload := some "\x7b\x7d"
  error := "HTTP 503 Service Unavailable"
  claimed := false

/-- A delivery id below all others. -/
def firstId : String := String.ofList (replicate 36 '0')

def sampleRecord (id : String) : Entry where
  id := id
  repoId := "R"
  hookId := "H"
  event := "push"
  sourceDocId := "doc"
  createdMs := 1
  tries := 1
  nextMs := 1
  lastError := "HTTP 503 Service Unavailable"
  status := .dropped
  dropReason := some "queue full for this repo (oldest dropped)"
  droppedMs := some 2
  payload := none
  bytes := 0

def sampleEntry : Entry :=
  { sampleRecord firstId with
    status := .pending, dropReason := none, droppedMs := none, payload := some "\x7b\x7d", bytes := 2 }

/-- Two pending entries are loaded, and the hook of one is removed. -/
theorem reachable_spec_drop : ∃ st₀ st₁ answer,
    ({} : Queue).load default [sampleEntry, { sampleEntry with id := sampleFailure.id, hookId := "K" }] 2 = some st₀ ∧
    ({} : Queue).step default st₀ (.dropWhere (fun repo hook => repo = "R" ∧ hook = "H") "hook removed" 3) =
      some (st₁, answer) ∧ ({} : Queue).InStep st₁ ∧ st₁.isPending sampleFailure.id ∧ st₁.GivenUp 3 firstId := by
  obtain ⟨hloads, hruns⟩ := reachable_spec {}
  have hids : ([sampleEntry, { sampleEntry with id := sampleFailure.id, hookId := "K" }].map Entry.id).Nodup := by
    decide +kernel
  obtain ⟨st₀, hload, -, -⟩ := hloads default _ 2 hids
  obtain ⟨-, hsteps⟩ := hruns st₀ (.load hids hload)
  obtain ⟨st₁, answer, hstep, hin, hkept⟩ :=
    hsteps default (.dropWhere (fun repo hook => repo = "R" ∧ hook = "H") "hook removed" 3)
  have hpend :
    (({} : Queue).load default [sampleEntry, { sampleEntry with id := sampleFailure.id, hookId := "K" }] 2).bind
      (fun st => (({} : Queue).step default st
        (.dropWhere (fun repo hook => repo = "R" ∧ hook = "H") "hook removed" 3)).map fun x =>
          (decide (st.isPending firstId), decide (x.1.isPending firstId), decide (x.1.isPending sampleFailure.id))) =
      some (true, false, true) := by decide +kernel
  rw [hload, Option.bind_some, hstep, Option.map_some, Option.some.injEq, Prod.mk.injEq,
    Prod.mk.injEq, decide_eq_true_eq,
    decide_eq_false_iff_not, decide_eq_true_eq] at hpend
  refine ⟨st₀, st₁, answer, hload, hstep, hin, hpend.2.2, ?_⟩
  obtain ⟨now, hnow, hgiven⟩ := (hkept.pending firstId (.inl hpend.1) nofun).resolve_left hpend.2.1
  exact Option.some.inj hnow ▸ hgiven

/-! ### A full set of records -/

/-- A delivery id that starts with `f`. -/
def recordId (x : Char × Char × Char) : String :=
  String.ofList ('f' :: (replicate 32 '0' ++ [x.1, x.2.1, x.2.2]))

def recordIds : List String :=
  let digits := ['0', '1', '2', '3', '4', '5', '6', '7', '8', '9']
  (digits ×ˢ digits ×ˢ digits).map recordId

/-- One pending entry beside as many records as are kept. -/
def sampleFiles : List Entry := sampleEntry :: recordIds.map sampleRecord

theorem length_recordIds : recordIds.length = maxDropped := by
  rw [recordIds, length_map, length_product, length_product]
  rfl

theorem recordId_injective : Function.Injective recordId := by
  rintro ⟨a, b, c⟩ ⟨a', b', c'⟩ h
  have hlist := String.ofList_injective h
  simp only [cons.injEq, true_and, append_cancel_left_eq] at hlist
  simp_all

theorem nodup_recordIds : recordIds.Nodup := by
  have hdigits : ['0', '1', '2', '3', '4', '5', '6', '7', '8', '9'].Nodup := by decide
  exact (hdigits.product (hdigits.product hdigits)).map recordId_injective

theorem firstId_lt {id : String} (h : id ∈ recordIds) : firstId < id := by
  obtain ⟨x, -, rfl⟩ := mem_map.mp h
  have hfirst : firstId.toList = '0' :: replicate 35 '0' := String.toList_ofList
  have hrecord : (recordId x).toList = 'f' :: (replicate 32 '0' ++ [x.1, x.2.1, x.2.2]) := String.toList_ofList
  rw [String.lt_iff_toList_lt, hfirst, hrecord]
  exact cons_lt_cons_iff.mpr (.inl (by decide))

theorem nodup_sampleFiles : (sampleFiles.map Entry.id).Nodup := by
  have hids : (recordIds.map sampleRecord).map Entry.id = recordIds := by
    rw [map_map]
    exact map_id recordIds
  rw [sampleFiles, map_cons, hids]
  exact nodup_cons.mpr ⟨fun hmem => lt_irrefl firstId (firstId_lt hmem), nodup_recordIds⟩

/-! ### A queue full of records -/

theorem bounded_of_forall_eq (h : Sound lim st) (he : ∀ e', st.Pending e' → e' = e)
    (hhook : 1 ≤ lim.perHook) (hrepo : 1 ≤ lim.perRepo) (htotal : 1 ≤ lim.total) (hbytes : e.bytes ≤ lim.bytes) :
    Bounded lim st.entries.values := by
  have hle : ∀ p, (pendingIn st.entries.values p).length ≤ 1 := by
    intro p
    rw [← h.card_pendingKeys, ← Finset.card_singleton e.key]
    refine Finset.card_le_card fun k hk => ?_
    obtain ⟨e', he', hp, rfl⟩ := mem_pendingKeys.mp hk
    rw [he e' ⟨h.mem_values.mp he', hp.1⟩]
    exact Finset.mem_singleton_self _
  have hsingle : pendingBytes [e] anyEntry ≤ e.bytes := by
    by_cases hp : e.status = .pending <;> simp [pendingBytes, pendingIn, hp, anyEntry]
  refine ⟨⟨(hle _).trans htotal, ?_⟩, fun _ => (hle _).trans hhook, fun _ => (hle _).trans hrepo⟩
  refine (pendingBytes_le h.nodup_values fun e' he' hp => ?_).trans (hsingle.trans hbytes)
  rw [he e' ⟨h.mem_values.mp he', hp⟩]
  exact mem_singleton_self _

theorem load_eq_readEntries (h : q.Inv (readEntries files))
    (hbodies : ∀ f ∈ files, ¬(f.status = .pending ∧ f.payload = none)) (order : HashOrder) (now : ℕ) :
    q.load order files now = some (readEntries files) := by
  have hbodiless : (files.filter fun e => e.status = .pending ∧ e.payload = none) = [] :=
    filter_eq_nil_iff.mpr fun f hf => by simpa using hbodies f hf
  rw [load, hbodiless]
  exact enforceAll_eq_self h.toSound h.bounded h.card_dropped order now

/-- The queue has one pending entry and as many records as are kept, all with later keys. -/
structure FullOfRecords (st : State) : Prop where
  inv : ({} : Queue).Inv st
  pending : ∀ e, st.Pending e ↔ e = sampleEntry
  claimed : st.claimed = ∅
  card_dropped : st.dropped.card = maxDropped
  newer : ∀ k ∈ st.dropped, toLex (2, firstId) < k

theorem exists_fullOfRecords : ∃ st, ({} : Queue).load default sampleFiles 2 = some st ∧ FullOfRecords st := by
  obtain ⟨hsound, hlookup⟩ := readEntries_spec nodup_sampleFiles {}
  have hclaimed : (readEntries sampleFiles).claimed = ∅ := claimed_readEntries sampleFiles
  have hbodies : ∀ f ∈ sampleFiles, ¬(f.status = .pending ∧ f.payload = none) := by
    intro f hf
    rcases mem_cons.mp hf with rfl | hf
    · exact fun hnone => Option.some_ne_none _ hnone.2
    · obtain ⟨id, -, rfl⟩ := mem_map.mp hf
      exact fun hnone => absurd hnone.1 (by simp [sampleRecord])
  have hload := fun h : ({} : Queue).Inv (readEntries sampleFiles) => load_eq_readEntries h hbodies default 2
  -- from here on the state is what is known of it
  generalize readEntries sampleFiles = st at *
  have hlookup : ∀ e, st.entries.lookup e.id = some e ↔ e ∈ sampleFiles := by
    have hsize : ∀ f ∈ sampleFiles, { f with bytes := bodySize f.payload } = f := by
      intro f hf
      rcases mem_cons.mp hf with rfl | hf
      · rfl
      · obtain ⟨id, -, rfl⟩ := mem_map.mp hf
        rfl
    intro e
    rw [hlookup]
    constructor
    · rintro ⟨f, hf, -, rfl⟩
      rwa [hsize f hf]
    · exact fun he => ⟨e, he, rfl, (hsize e he).symm⟩
  have hpending : ∀ e, st.Pending e ↔ e = sampleEntry := by
    intro e
    rw [State.Pending, hlookup, sampleFiles, mem_cons]
    constructor
    · rintro ⟨rfl | he, hp⟩
      · rfl
      · obtain ⟨id, -, rfl⟩ := mem_map.mp he
        cases hp
    · rintro rfl
      exact ⟨.inl rfl, rfl⟩
  have hdropped : ∀ k, k ∈ st.dropped ↔ k ∈ recordIds.map fun id => (toLex (2, id) : Key) := by
    intro k
    rw [hsound.mem_dropped, mem_map]
    constructor
    · rintro ⟨e, ⟨hfind, hp⟩, rfl⟩
      rcases mem_cons.mp ((hlookup e).mp hfind) with rfl | he
      · cases hp
      · obtain ⟨id, hid, rfl⟩ := mem_map.mp he
        exact ⟨id, hid, rfl⟩
    · rintro ⟨id, hid, rfl⟩
      exact ⟨sampleRecord id, ⟨(hlookup _).mpr (mem_cons_of_mem _ (mem_map_of_mem hid)), rfl⟩, rfl⟩
  have hcard : st.dropped.card = maxDropped := by
    have hkeys : st.dropped = (recordIds.map fun id => (toLex (2, id) : Key)).toFinset := by
      ext k
      rw [hdropped, mem_toFinset]
    have hnodup : (recordIds.map fun id => (toLex (2, id) : Key)).Nodup :=
      nodup_recordIds.map fun id id' heq => congrArg (fun k => (ofLex k).2) heq
    rw [hkeys, toFinset_card_of_nodup hnodup, length_map, length_recordIds]
  have hinv : ({} : Queue).Inv st := ⟨hsound, bounded_of_forall_eq hsound (fun e he => (hpending e).mp he)
    (by decide) (by decide) (by decide) (by decide), hcard.le⟩
  refine ⟨st, hload hinv, hinv, hpending, hclaimed, hcard, fun k hk => ?_⟩
  obtain ⟨id, hid, rfl⟩ := mem_map.mp ((hdropped k).mp hk)
  exact Prod.Lex.toLex_lt_toLex.mpr (.inr ⟨rfl, firstId_lt hid⟩)

/-- A record that comes before all that are kept is forgotten as it is made. -/
theorem lookup_markDropped_eq_none (he : st.Pending e) (hcard : st.dropped.card = maxDropped)
    (hnewer : ∀ k ∈ st.dropped, toLex (now, e.id) < k) (reason : String) :
    (st.markDropped e.id reason now).entries.lookup e.id = none := by
  rw [State.markDropped_eq he]
  have hdropped := State.dropped_add_toRecord he reason now
  generalize (st.remove e).add (e.toRecord reason now) = st₁ at hdropped ⊢
  have hnot : toLex (now, e.id) ∉ st.dropped := fun hmem => lt_irrefl _ (hnewer _ hmem)
  have hfirst : first st₁.dropped = some (toLex (now, e.id)) := by
    rw [hdropped, first_eq_some_iff]
    refine ⟨Finset.mem_insert_self _ _, fun k hk => ?_⟩
    rcases Finset.mem_insert.mp hk with rfl | hk
    · exact le_rfl
    · exact (hnewer k hk).le
  have hpop : st₁.popDropped.dropped = st.dropped := by
    rw [State.popDropped, hfirst, hdropped]
    exact Finset.erase_insert hnot
  rw [State.trimDropped, if_pos (by rw [hdropped, Finset.card_insert_of_notMem hnot, hcard]; omega),
    State.trimDropped, if_neg (by rw [hpop, hcard]; omega), State.popDropped, hfirst]
  exact (SortedMap.lookup_erase _ _ _).trans (if_pos rfl)

/-- A queue drops its entry and keeps nothing of it. -/
theorem dropEntry_forgotten : ∃ st, ({} : Queue).load default sampleFiles 2 = some st ∧ st.isPending firstId ∧
    ({} : Queue).step default st (.dropEntry firstId "HTTP 410 Gone" 2) =
      some (st.dropEntry firstId "HTTP 410 Gone" 2, .done) ∧
    (st.dropEntry firstId "HTTP 410 Gone" 2).entries.lookup firstId = none := by
  obtain ⟨st, hload, hfull⟩ := exists_fullOfRecords
  have hp : st.Pending sampleEntry := (hfull.pending _).mpr rfl
  have hpending : st.isPending firstId := hfull.inv.isPending_iff.mpr ⟨sampleEntry, hp, rfl⟩
  refine ⟨st, hload, hpending, rfl, ?_⟩
  rw [State.dropEntry, if_pos hpending]
  exact lookup_markDropped_eq_none (e := sampleEntry) hp hfull.card_dropped hfull.newer "HTTP 410 Gone"

end Queue

end DashForge.Relay
