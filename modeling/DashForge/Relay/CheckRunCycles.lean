import DashForge.Relay.CheckRuns

/-!
# Cycles over a head's check runs

Runs are created, replaced and deleted, and cycles read the index as it was at some height, of a node that may lag, and may
be cut short (`Step`). The state records every version that was read and every event that was sent.

Two invariants carry the results: of the index (`Index`), that the heights agree on a run and that one which has a newer run
has each older one that still exists; of what was seen (`Seen`), that it is the newest version read of every run that can
be read again. `checkRuns_spec` reads off them that events are sent once and in order, and which are sure to be sent.
-/

namespace DashForge.CheckRuns

open DashForge.Stream (Doc pageSize)
open List Option SortedMap

/-! ### Steps -/

structure State where
  /-- The index now, and as it was at the heights before. -/
  current : List CheckRun := []
  older : List (List CheckRun) := []
  /-- The runs as they were created. -/
  landed : List CheckRun := []
  prev : HeadRuns := .empty
  /-- All that reads returned. -/
  returned : List CheckRun := []
  /-- The events sent, the latest last. -/
  log : List (CheckRunAction × CheckRun) := []

namespace State

def views (s : State) : List (List CheckRun) := s.current :: s.older

/-- Compare what a read returned. -/
def cycle (floor : ℕ) (s : State) (docs : List CheckRun) : State :=
  let (events, next) := diff s.prev docs floor (readFrom s.prev floor)
  { s with prev := next, returned := s.returned ++ docs, log := s.log ++ events }

end State

/-- A read of a cycle. -/
def Reads (floor : ℕ) (s : State) (index docs : List CheckRun) : Prop :=
  index ∈ s.views ∧ ∃ stop, readRuns index (readFrom s.prev floor) stop = some docs

inductive Step (floor : ℕ) : State → State → Prop
  | create (s : State) (x : CheckRun) (hnew : x.id ∉ s.landed.map Doc.id)
    (htime : ∀ d ∈ s.landed, d.createdAt ≤ x.createdAt) :
      Step floor s { s with current := s.current ++ [x], older := s.views, landed := s.landed ++ [x] }
  /-- Replaced in place: its time stays, its revision grows, and completed stays completed. -/
  | replace (s : State) (d x : CheckRun) (hd : d ∈ s.current) (hid : x.id = d.id) (htime : x.createdAt = d.createdAt)
      (hrev : rev d < rev x) (hdone : isDone d = true → isDone x = true) :
      Step floor s { s with current := s.current.map fun y => if y.id = x.id then x else y, older := s.views }
  | delete (s : State) (id : String) :
      Step floor s { s with current := s.current.filter fun y => y.id ≠ id, older := s.views }
  | cycle (s : State) (index docs : List CheckRun) (hread : Reads floor s index docs) :
    Step floor s (s.cycle floor docs)

def Reachable (floor : ℕ) : State → Prop := Relation.ReflTransGen (Step floor) {}

/-! ### The index -/

/-- Two versions of one run. -/
def Agree (d d' : CheckRun) : Prop := d.createdAt = d'.createdAt ∧ (rev d ≤ rev d' → isDone d = true → isDone d' = true)

structure Index (s : State) : Prop where
  ids : ∀ v ∈ s.views, (v.map Doc.id).Nodup
  landed_ids : (s.landed.map Doc.id).Nodup
  landed : ∀ v ∈ s.views, ∀ d ∈ v, ∃ l ∈ s.landed, l.id = d.id ∧ l.createdAt = d.createdAt
  agree : ∀ v ∈ s.views, ∀ d ∈ v, ∀ v' ∈ s.views, ∀ d' ∈ v', d.id = d'.id → Agree d d'
  newest : ∀ v ∈ s.views, ∀ d ∈ v, ∀ r ∈ s.current, d.id = r.id → rev d ≤ rev r
  /-- A height with a newer run has every run that still exists. -/
  there : ∀ r ∈ s.current, ∀ v ∈ s.views, ∀ d ∈ v, r.createdAt < d.createdAt → ∃ x ∈ v, x.id = r.id

section Index

variable {s : State}

theorem Index.create (h : Index s) {x : CheckRun} (hnew : x.id ∉ s.landed.map Doc.id)
    (htime : ∀ d ∈ s.landed, d.createdAt ≤ x.createdAt) :
    Index { s with current := s.current ++ [x], older := s.views, landed := s.landed ++ [x] } := by
  have hfresh (v : List CheckRun) (hv : v ∈ s.views) (d : CheckRun) (hd : d ∈ v) : d.id ≠ x.id ∧
      d.createdAt ≤ x.createdAt := by
    obtain ⟨l, hl, hid, hat⟩ := h.landed v hv d hd
    refine ⟨fun heq => hnew ?_, hat ▸ htime l hl⟩
    exact mem_map.mpr ⟨l, hl, hid.trans heq⟩
  -- A document of some height is the new one, or of a height before.
  have hdoc {v : List CheckRun} (hv : v ∈ (s.current ++ [x]) :: s.views) {d : CheckRun} (hd : d ∈ v) :
      d = x ∨ ∃ v' ∈ s.views, d ∈ v' := by
    rcases mem_cons.mp hv with rfl | hv
    · rcases mem_append.mp hd with hd | hd
      · exact .inr ⟨s.current, mem_cons_self, hd⟩
      · exact .inl (mem_singleton.mp hd)
    · exact .inr ⟨v, hv, hd⟩
  refine ⟨?_, ?_, ?_, ?_, ?_, ?_⟩
  · refine forall_mem_cons.mpr ⟨?_, h.ids⟩
    rw [map_append]
    refine nodup_append.mpr ⟨h.ids _ mem_cons_self, nodup_singleton _, ?_⟩
    rintro a ha b hb rfl
    obtain ⟨d, hd, rfl⟩ := mem_map.mp ha
    exact (hfresh _ mem_cons_self d hd).1 (mem_singleton.mp hb)
  · dsimp only
    rw [map_append]
    refine nodup_append.mpr ⟨h.landed_ids, nodup_singleton _, ?_⟩
    rintro a ha b hb rfl
    exact hnew (mem_singleton.mp hb ▸ ha)
  · intro v hv d hd
    rcases hdoc hv hd with rfl | ⟨v', hv', hd'⟩
    · exact ⟨d, by simp, rfl, rfl⟩
    · obtain ⟨l, hl, heq⟩ := h.landed v' hv' d hd'
      exact ⟨l, mem_append_left _ hl, heq⟩
  · intro v hv d hd v' hv' d' hd' hid
    rcases hdoc hv hd with rfl | ⟨w, hw, hdw⟩ <;> rcases hdoc hv' hd' with rfl | ⟨w', hw', hdw'⟩
    · exact ⟨rfl, fun _ => id⟩
    · exact absurd hid.symm (hfresh w' hw' d' hdw').1
    · exact absurd hid (hfresh w hw d hdw).1
    · exact h.agree w hw d hdw w' hw' d' hdw' hid
  · intro v hv d hd r hr hid
    rcases mem_append.mp hr with hr' | hr'
    · rcases hdoc hv hd with rfl | ⟨w, hw, hdw⟩
      · exact absurd hid.symm (hfresh _ mem_cons_self r hr').1
      · exact h.newest w hw d hdw r hr' hid
    · obtain rfl := mem_singleton.mp hr'
      rcases hdoc hv hd with rfl | ⟨w, hw, hdw⟩
      · exact le_rfl
      · exact absurd hid (hfresh w hw d hdw).1
  · intro r hr v hv d hd hlt
    rcases mem_cons.mp hv with rfl | hv
    · exact ⟨r, hr, rfl⟩
    · rcases mem_append.mp hr with hr | hr
      · exact h.there r hr v hv d hd hlt
      · grind

theorem Index.replace (h : Index s) {d x : CheckRun} (hd : d ∈ s.current) (hid : x.id = d.id)
    (htime : x.createdAt = d.createdAt) (hrev : rev d < rev x) (hdone : isDone d = true → isDone x = true) :
    Index { s with current := s.current.map fun y => if y.id = x.id then x else y, older := s.views } := by
  have hcur : s.current ∈ s.views := mem_cons_self
  have hmem {y : CheckRun} (hy : y ∈ s.current.map fun y => if y.id = x.id then x else y) :
      y = x ∨ y ∈ s.current ∧ y.id ≠ x.id := by
    obtain ⟨z, hz, rfl⟩ := mem_map.mp hy
    split
    · exact .inl rfl
    · next hne => exact .inr ⟨hz, hne⟩
  have hdoc {v : List CheckRun} (hv : v ∈ (s.current.map fun y => if y.id = x.id then x else y) :: s.views)
    {y : CheckRun}
      (hy : y ∈ v) : y = x ∨ ∃ v' ∈ s.views, y ∈ v' := by
    rcases mem_cons.mp hv with rfl | hv
    · exact (hmem hy).imp_right fun hy => ⟨s.current, hcur, hy.1⟩
    · exact .inr ⟨v, hv, hy⟩
  have hids : (s.current.map fun y => if y.id = x.id then x else y).map Doc.id = s.current.map Doc.id := by
    rw [List.map_map]
    refine map_congr_left fun y _ => ?_
    rw [Function.comp_apply]
    split
    · next heq => exact heq.symm
    · rfl
  refine ⟨?_, h.landed_ids, ?_, ?_, ?_, ?_⟩
  · refine forall_mem_cons.mpr ⟨?_, h.ids⟩
    rw [hids]
    exact h.ids _ hcur
  · intro v hv y hy
    rcases hdoc hv hy with rfl | ⟨w, hw, hyw⟩
    · obtain ⟨l, hl, hlid, hlat⟩ := h.landed _ hcur d hd
      exact ⟨l, hl, hlid.trans hid.symm, hlat.trans htime.symm⟩
    · exact h.landed w hw y hyw
  · intro v hv y hy v' hv' y' hy' heq
    rcases hdoc hv hy with rfl | ⟨w, hw, hyw⟩ <;> rcases hdoc hv' hy' with rfl | ⟨w', hw', hyw'⟩
    · exact ⟨rfl, fun _ => id⟩
    · have hle := h.newest w' hw' y' hyw' d hd (heq.symm.trans hid)
      exact ⟨htime.trans (h.agree _ hcur d hd w' hw' y' hyw' (hid.symm.trans heq)).1, fun hge => by omega⟩
    · obtain ⟨hat, hthen⟩ := h.agree w hw y hyw _ hcur d hd (heq.trans hid)
      have hle := h.newest w hw y hyw d hd (heq.trans hid)
      exact ⟨hat.trans htime.symm, fun _ hy => hdone (hthen hle hy)⟩
    · exact h.agree w hw y hyw w' hw' y' hyw' heq
  · intro v hv y hy r hr heq
    rcases hmem hr with rfl | ⟨hr, hne⟩
    · rcases hdoc hv hy with rfl | ⟨w, hw, hyw⟩
      · exact le_rfl
      · exact (h.newest w hw y hyw d hd (heq.trans hid)).trans hrev.le
    · rcases hdoc hv hy with rfl | ⟨w, hw, hyw⟩
      · exact absurd heq.symm hne
      · exact h.newest w hw y hyw r hr heq
  · intro r hr v hv y hy hlt
    rcases mem_cons.mp hv with rfl | hv
    · exact ⟨r, hr, rfl⟩
    · rcases hmem hr with rfl | ⟨hr, -⟩
      · obtain ⟨z, hz, hzid⟩ := h.there d hd v hv y hy (htime ▸ hlt)
        exact ⟨z, hz, hzid.trans hid.symm⟩
      · exact h.there r hr v hv y hy hlt

theorem Index.delete (h : Index s) (id : String) :
    Index { s with current := s.current.filter fun y => y.id ≠ id, older := s.views } := by
  have hcur : s.current ∈ s.views := mem_cons_self
  have hsub : (s.current.filter fun y => y.id ≠ id).Sublist s.current := filter_sublist
  have hview {v : List CheckRun} (hv : v ∈ (s.current.filter fun y => y.id ≠ id) :: s.views) :
      ∃ v' ∈ s.views, v.Sublist v' := by
    rcases mem_cons.mp hv with rfl | hv
    · exact ⟨s.current, hcur, hsub⟩
    · exact ⟨v, hv, List.Sublist.refl v⟩
  refine ⟨fun v hv => ?_, h.landed_ids, fun v hv d hd => ?_, fun v hv d hd v' hv' d' hd' => ?_,
    fun v hv d hd r hr => ?_,
    fun r hr v hv d hd hlt => ?_⟩
  · obtain ⟨w, hw, hvw⟩ := hview hv
    exact (h.ids w hw).sublist (hvw.map _)
  · obtain ⟨w, hw, hvw⟩ := hview hv
    exact h.landed w hw d (hvw.subset hd)
  · obtain ⟨w, hw, hvw⟩ := hview hv
    obtain ⟨w', hw', hvw'⟩ := hview hv'
    exact h.agree w hw d (hvw.subset hd) w' hw' d' (hvw'.subset hd')
  · obtain ⟨w, hw, hvw⟩ := hview hv
    exact h.newest w hw d (hvw.subset hd) r (hsub.subset hr)
  · rcases mem_cons.mp hv with rfl | hv
    · exact ⟨r, hr, rfl⟩
    · exact h.there r (hsub.subset hr) v hv d hd hlt

end Index

/-! ### What was seen -/

/-- What a read returns: runs of the index from a time on, and with a run all earlier ones. -/
structure Rows (index : List CheckRun) (start : ℕ) (docs : List CheckRun) : Prop where
  sub : ∀ d ∈ docs, d ∈ index ∧ start ≤ d.createdAt
  ids : (docs.map Doc.id).Nodup
  before : ∀ d ∈ index, start ≤ d.createdAt → ∀ e ∈ docs, d.createdAt < e.createdAt → d ∈ docs

theorem Reads.rows {floor : ℕ} {s : State} {index docs : List CheckRun} (h : Reads floor s index docs)
    (hindex : Index s) :
    Rows index (readFrom s.prev floor) docs := by
  obtain ⟨hview, stop, hread⟩ := h
  have hids := hindex.ids index hview
  obtain ⟨m, heq, -⟩ := readRuns_spec hids (readFrom s.prev floor) stop
  obtain rfl := some.inj (hread.symm.trans heq)
  have hsorted := pairwise_rowsFrom hids (readFrom s.prev floor)
  refine ⟨fun d hd => mem_rowsFrom.mp (mem_of_mem_take hd), ?_, fun d hd hstart e he hlt => ?_⟩
  · have hrows : ((rowsFrom index (readFrom s.prev floor)).map Doc.id).Nodup :=
      (((perm_sortByKey Doc.key index).map Doc.id).nodup_iff.mpr hids).sublist (filter_sublist.map _)
    exact hrows.sublist ((take_sublist _ _).map _)
  · rcases Stream.mem_take_or hsorted (mem_rowsFrom.mpr ⟨hd, hstart⟩) with hmem | ⟨-, hall⟩
    · exact hmem
    · rcases Stream.Doc.key_lt_iff.mp (hall e he) with hlt' | ⟨heq', -⟩ <;> omega

/-- What is known of runs when these versions were read. -/
structure Known (prev : HeadRuns) (returned : List CheckRun) : Prop where
  of_seen : ∀ id x, prev.lookup id = some x →
    ∃ d ∈ returned, d.id = id ∧ rev d = x.rev ∧ isDone d = x.done ∧ d.createdAt = x.time
  newest : ∀ d ∈ returned, ∀ x, prev.lookup d.id = some x → rev d ≤ x.rev
  /-- What was dropped is older than all that is kept. -/
  dropped : ∀ d ∈ returned, prev.lookup d.id = none → ∀ x ∈ prev.values, d.createdAt < x.time
  nonempty : returned ≠ [] → prev.values ≠ []

structure Seen (floor : ℕ) (s : State) : Prop where
  index : Index s
  returned : ∀ d ∈ s.returned, (∃ v ∈ s.views, d ∈ v) ∧ floor ≤ d.createdAt
  known : Known s.prev s.returned
  /-- An open run that still exists is kept while few are newer. -/
  kept : ∀ r ∈ s.current, (∃ d ∈ s.returned, d.id = r.id) → (∀ d ∈ s.returned, d.id = r.id → isDone d = false) →
    s.landed.countP (fun l => r.createdAt < l.createdAt) < maxRunsPerHead →
    ∃ x, s.prev.lookup r.id = some x ∧ x.missing = false
  /-- All that still exists was read up to the newest run read. -/
  frontier : ∀ r ∈ s.current, floor ≤ r.createdAt → (∃ d ∈ s.returned, r.createdAt < d.createdAt) →
    ∃ d ∈ s.returned, d.id = r.id

section Seen

variable {floor : ℕ} {s : State} {index docs : List CheckRun}

/-- Where a read of a head with runs starts. -/
theorem Seen.start (h : Seen floor s) (hne : s.returned ≠ []) :
    (∃ d ∈ s.returned, readFrom s.prev floor ≤ d.createdAt) ∧ ∃ x ∈ s.prev.values, x.time ≤ readFrom s.prev floor := by
  obtain ⟨⟨x, hx, hle⟩, hmin⟩ := readFrom_bounds floor (h.known.nonempty hne)
  refine ⟨?_, hmin⟩
  obtain ⟨id, hid⟩ := mem_values.mp hx
  obtain ⟨d, hd, -, -, -, hat⟩ := h.known.of_seen id x hid
  exact ⟨d, hd, hat ▸ hle⟩

theorem Seen.floor_le (h : Seen floor s) : floor ≤ readFrom s.prev floor := by
  by_cases hne : s.prev.values = []
  · rcases readFrom_eq s.prev floor with ⟨-, heq⟩ | ⟨start, ⟨x, hx, -⟩, -, -⟩
    · exact heq.ge
    · rw [hne] at hx
      cases hx
  · obtain ⟨-, x, hx, hle⟩ := readFrom_bounds floor hne
    obtain ⟨id, hid⟩ := mem_values.mp hx
    obtain ⟨d, hd, -, -, -, hat⟩ := h.known.of_seen id x hid
    exact ((h.returned d hd).2.trans hat.le).trans hle

variable {d r : CheckRun} {prev : HeadRuns}

variable {d' : CheckRun} {returned : List CheckRun} {s' : State}

variable (h : Seen floor s) (hview : index ∈ s.views) (hrows : Rows index (readFrom s.prev floor) docs)

include h hview hrows in
/-- A run that is read and was read before is still known. -/
theorem Seen.read_known (hd : d ∈ docs) (hd' : d' ∈ s.returned) (hid : d'.id = d.id) : ∃ x,
    s.prev.lookup d.id = some x ∧ rev d' ≤ x.rev := by
  cases hlookup : s.prev.lookup d.id with
  | none =>
    obtain ⟨hmem, hstart⟩ := hrows.sub d hd
    obtain ⟨v, hv, hdv⟩ := (h.returned d' hd').1
    have hat := (h.index.agree v hv d' hdv index hview d hmem hid).1
    obtain ⟨-, x, hx, hle⟩ := h.start (ne_nil_of_mem hd')
    have hlt := h.known.dropped d' hd' (hid ▸ hlookup) x hx
    omega
  | some x => exact ⟨x, rfl, h.known.newest d' hd' x (hid ▸ hlookup)⟩

include h hview hrows in
/-- What is seen of a run that was read: its newest version read, and that it is there. -/
theorem Seen.seenAs (hd : d ∈ docs) : (seenAs s.prev d).missing = false ∧
    (seenAs s.prev d).time = d.createdAt ∧ rev d ≤ (seenAs s.prev d).rev ∧
      (∀ x, s.prev.lookup d.id = some x → x.rev ≤ (CheckRuns.seenAs s.prev d).rev ∧
        (x.done = true → (CheckRuns.seenAs s.prev d).done = true)) ∧
      ∃ e ∈ s.returned ++ docs, e.id = d.id ∧ rev e = (CheckRuns.seenAs s.prev d).rev ∧
        isDone e = (CheckRuns.seenAs s.prev d).done ∧ e.createdAt = (CheckRuns.seenAs s.prev d).time := by
  have hnow : ∃ e ∈ s.returned ++ docs, e.id = d.id ∧ rev e = (seenNow d).rev ∧ isDone e = (seenNow d).done ∧
      e.createdAt = (seenNow d).time := ⟨d, mem_append_right _ hd, rfl, rfl, rfl, rfl⟩
  unfold CheckRuns.seenAs
  split
  · next x hlookup =>
    obtain ⟨e, he, hid, hrev, hdone, hat⟩ := h.known.of_seen d.id x hlookup
    obtain ⟨v, hv, hev⟩ := (h.returned e he).1
    obtain ⟨hagree, hthen⟩ := h.index.agree v hv e hev index hview d (hrows.sub d hd).1 hid
    split
    · next hlag =>
      refine ⟨rfl, hat.symm.trans hagree, hlag.le, fun y hy => ?_, e, mem_append_left _ he, hid, hrev, hdone, hat⟩
      obtain rfl := some.inj (hlookup.symm.trans hy)
      exact ⟨le_rfl, fun hx => hx⟩
    · next hge =>
      refine ⟨rfl, rfl, le_rfl, fun y hy => ?_, hnow⟩
      obtain rfl := some.inj (hlookup.symm.trans hy)
      have hle := Nat.le_of_not_lt hge
      exact ⟨hle, fun hx => hthen (hrev.trans_le hle) (hdone.trans hx)⟩
  · next hnone =>
    refine ⟨rfl, rfl, le_rfl, fun y hy => ?_, hnow⟩
    rw [hnone] at hy
    cases hy

include h hview hrows in
/-- Versions of one run that were read are of one time. -/
theorem Seen.agree (hd : d ∈ s.returned ++ docs) (hd' : d' ∈ s.returned ++ docs) (hid : d.id = d'.id) : Agree d d' := by
  have hin {d : CheckRun} (hd : d ∈ s.returned ++ docs) : ∃ v ∈ s.views, d ∈ v := by
    rcases mem_append.mp hd with hd | hd
    · exact (h.returned d hd).1
    · exact ⟨index, hview, (hrows.sub d hd).1⟩
  obtain ⟨v, hv, hdv⟩ := hin hd
  obtain ⟨v', hv', hdv'⟩ := hin hd'
  exact h.index.agree v hv d hdv v' hv' d' hdv' hid

theorem markMissing_eq (start reached : ℕ) (r : RunSeen) : (markMissing start reached r).rev = r.rev ∧
    (markMissing start reached r).done = r.done ∧ (markMissing start reached r).time = r.time := by
  unfold markMissing
  split <;> exact ⟨rfl, rfl, rfl⟩

theorem lookup_compared {start : ℕ} (hids : (docs.map Doc.id).Nodup) {id : String} {x : RunSeen}
    (h : (compared prev docs start).lookup id = some x) : (∃ d ∈ docs, d.id = id ∧ x = seenAs prev d) ∨
      id ∉ docs.map Doc.id ∧ ∃ y, prev.lookup id = some y ∧ x.rev = y.rev ∧ x.done = y.done ∧ x.time = y.time := by
  by_cases hid : id ∈ docs.map Doc.id
  · obtain ⟨d, hd, rfl⟩ := mem_map.mp hid
    rw [lookup_compared_of_mem hids hd] at h
    exact .inl ⟨d, hd, rfl, (some.inj h).symm⟩
  · rw [lookup_compared_of_notMem hid] at h
    obtain ⟨y, hy, rfl⟩ := map_eq_some_iff.mp h
    exact .inr ⟨hid, y, hy, markMissing_eq _ _ y⟩

include h hview hrows in
theorem Seen.known_compared :
    Known (compared s.prev docs (readFrom s.prev floor)) (s.returned ++ docs) := by
  refine ⟨fun id x hx => ?_, fun d' hd' x hx => ?_, fun d' hd' hnone x hx => ?_, fun hne hnil => ?_⟩
  · rcases lookup_compared hrows.ids hx with ⟨d, hd, rfl, rfl⟩ | ⟨-, y, hy, hrev, hdone, htime⟩
    · exact (h.seenAs hview hrows hd).2.2.2.2
    · obtain ⟨e, he, hid, hrev', hdone', hat⟩ := h.known.of_seen id y hy
      exact ⟨e, mem_append_left _ he, hid, hrev'.trans hrev.symm, hdone'.trans hdone.symm, hat.trans htime.symm⟩
  · rcases lookup_compared hrows.ids hx with ⟨d, hd, hid, rfl⟩ | ⟨hnot, y, hy, hrev, -⟩
    · obtain ⟨-, -, hle, hprev, -⟩ := h.seenAs hview hrows hd
      rcases mem_append.mp hd' with hd' | hd'
      · obtain ⟨y, hy, hle'⟩ := h.read_known hview hrows hd hd' hid.symm
        exact hle'.trans (hprev y hy).1
      · rwa [← inj_on_of_nodup_map hrows.ids hd hd' hid]
    · rcases mem_append.mp hd' with hd' | hd'
      · exact (h.known.newest d' hd' y hy).trans_eq hrev.symm
      · exact absurd (mem_map_of_mem hd') hnot
  · have hnot : d'.id ∉ docs.map Doc.id := by
      intro hmem
      obtain ⟨d, hd, hid⟩ := mem_map.mp hmem
      rw [← hid, lookup_compared_of_mem hrows.ids hd] at hnone
      cases hnone
    have hd' : d' ∈ s.returned := (mem_append.mp hd').resolve_right fun hmem => hnot (mem_map_of_mem hmem)
    have hnone' : s.prev.lookup d'.id = none := by
      rw [lookup_compared_of_notMem hnot] at hnone
      exact map_eq_none_iff.mp hnone
    obtain ⟨id, hid⟩ := mem_values.mp hx
    rcases lookup_compared hrows.ids hid with ⟨d, hd, -, rfl⟩ | ⟨-, y, hy, -, -, htime⟩
    · rw [(h.seenAs hview hrows hd).2.1]
      obtain ⟨-, y, hy, hle⟩ := h.start (ne_nil_of_mem hd')
      exact ((h.known.dropped d' hd' hnone' y hy).trans_le hle).trans_le (hrows.sub d hd).2
    · rw [htime]
      exact h.known.dropped d' hd' hnone' y (mem_values.mpr ⟨id, hy⟩)
  · have hempty (id : String) : (compared s.prev docs (readFrom s.prev floor)).lookup id = none := by
      refine eq_none_iff_forall_ne_some.mpr fun x hx => ?_
      have hmem := mem_values.mpr ⟨id, hx⟩
      rw [hnil] at hmem
      cases hmem
    cases docs with
    | cons d docs =>
      have hlookup := hempty d.id
      rw [lookup_compared_of_mem hrows.ids mem_cons_self] at hlookup
      cases hlookup
    | nil =>
      rw [append_nil] at hne
      obtain ⟨x, hx⟩ := exists_mem_of_ne_nil _ (h.known.nonempty hne)
      obtain ⟨id, hid⟩ := mem_values.mp hx
      have hlookup := hempty id
      rw [lookup_compared_of_notMem not_mem_nil, hid] at hlookup
      cases hlookup

theorem Known.prune (h : Known prev returned)
    (hagree : ∀ d ∈ returned, ∀ d' ∈ returned, d.id = d'.id → d.createdAt = d'.createdAt) (floor : ℕ) :
    Known (prev.filter fun _ r => decide (readFrom prev floor ≤ r.time)) returned := by
  have hlookup {id : String} {x : RunSeen} :
      (prev.filter fun _ r => decide (readFrom prev floor ≤ r.time)).lookup id = some x ↔
        prev.lookup id = some x ∧ readFrom prev floor ≤ x.time := by
    rw [lookup_filter, filter_eq_some_iff, decide_eq_true_eq]
  refine ⟨fun id x hx => h.of_seen id x (hlookup.mp hx).1, fun d hd x hx => h.newest d hd x (hlookup.mp hx).1,
    fun d hd hnone x hx => ?_, fun hne hnil => ?_⟩
  · obtain ⟨id, hid⟩ := mem_values.mp hx
    obtain ⟨hid, hle⟩ := hlookup.mp hid
    cases hd' : prev.lookup d.id with
    | none => exact h.dropped d hd hd' x (mem_values.mpr ⟨id, hid⟩)
    | some y =>
      obtain ⟨e, he, heq, -, -, hat⟩ := h.of_seen d.id y hd'
      have hlt : ¬readFrom prev floor ≤ y.time := by
        intro hle'
        rw [hlookup.mpr ⟨hd', hle'⟩] at hnone
        cases hnone
      have := hagree d hd e he heq.symm
      omega
  · obtain ⟨⟨x, hx, hle⟩, -⟩ := readFrom_bounds floor (h.nonempty hne)
    obtain ⟨id, hid⟩ := mem_values.mp hx
    have hmem := mem_values.mpr ⟨id, hlookup.mpr ⟨hid, hle⟩⟩
    rw [hnil] at hmem
    cases hmem

/-- As many runs are known as have landed. -/
theorem Known.countP_le {landed : List CheckRun} (h : Known prev returned)
    (hlanded : ∀ d ∈ returned, ∃ l ∈ landed, l.id = d.id ∧ l.createdAt = d.createdAt) (p : ℕ → Bool) :
    prev.values.countP (fun x => p x.time) ≤ landed.countP fun l => p l.createdAt := by
  rw [values, countP_map, countP_eq_length_filter, countP_eq_length_filter]
  have hnodup : ((prev.entries.filter ((fun x => p x.time) ∘ Prod.snd)).map Prod.fst).Nodup :=
    prev.nodup_keys.sublist (filter_sublist.map _)
  have hsub : (prev.entries.filter ((fun x => p x.time) ∘ Prod.snd)).map Prod.fst ⊆
      (landed.filter fun l => p l.createdAt).map Doc.id := by
    intro id hid
    obtain ⟨⟨id', x⟩, hx, rfl⟩ := mem_map.mp hid
    obtain ⟨hx, hp⟩ := mem_filter.mp hx
    obtain ⟨d, hd, heq, -, -, hat⟩ := h.of_seen id' x (lookup_eq_some_iff.mpr hx)
    obtain ⟨l, hl, hlid, hlat⟩ := hlanded d hd
    refine mem_map.mpr ⟨l, mem_filter.mpr ⟨hl, ?_⟩, hlid.trans heq⟩
    rw [hlat, hat]
    exact hp
  have hle := (subperm_of_subset hnodup hsub).length_le
  rwa [length_map, length_map] at hle

/-- What was read has landed. -/
theorem Seen.returned_landed (h : Seen floor s) :
    ∀ d ∈ s.returned, ∃ l ∈ s.landed, l.id = d.id ∧ l.createdAt = d.createdAt := by
  intro d hd
  obtain ⟨⟨v, hv, hdv⟩, -⟩ := h.returned d hd
  exact h.index.landed v hv d hdv

include h hview hrows in
theorem Seen.landed :
    ∀ d ∈ s.returned ++ docs, ∃ l ∈ s.landed, l.id = d.id ∧ l.createdAt = d.createdAt := by
  intro d hd
  rcases mem_append.mp hd with hd | hd
  · exact h.returned_landed d hd
  · exact h.index.landed index hview d (hrows.sub d hd).1

include h hview hrows in
theorem Seen.covered {e : CheckRun} (hr : r ∈ s.current) (hstart : readFrom s.prev floor ≤ r.createdAt) (he : e ∈ docs)
    (hlt : r.createdAt < e.createdAt) : ∃ d ∈ docs, d.id = r.id := by
  obtain ⟨z, hz, hid⟩ := h.index.there r hr index hview e (hrows.sub e he).1 hlt
  have hat := (h.index.agree index hview z hz _ mem_cons_self r hr hid).1
  exact ⟨z, hrows.before z hz (hat ▸ hstart) e he (hat ▸ hlt), hid⟩

include h hview hrows in
theorem Seen.open_compared (hr : r ∈ s.current) (hread : ∃ d ∈ s.returned ++ docs, d.id = r.id)
    (hopen : ∀ d ∈ s.returned ++ docs, d.id = r.id → isDone d = false)
    (hfew : s.landed.countP (fun l => r.createdAt < l.createdAt) < maxRunsPerHead) :
    ∃ x, (compared s.prev docs (readFrom s.prev floor)).lookup r.id = some x ∧ x.missing = false := by
  by_cases hid : r.id ∈ docs.map Doc.id
  · obtain ⟨d, hd, hid⟩ := mem_map.mp hid
    exact ⟨_, hid ▸ lookup_compared_of_mem hrows.ids hd, (h.seenAs hview hrows hd).1⟩
  · obtain ⟨d, hd, hdid⟩ := hread
    have hd : d ∈ s.returned := (mem_append.mp hd).resolve_right fun hmem => hid (hdid ▸ mem_map_of_mem hmem)
    obtain ⟨x, hx, hmissing⟩ :=
      h.kept r hr ⟨d, hd, hdid⟩ (fun e he => hopen e (mem_append_left _ he)) hfew
    refine ⟨_, by rw [lookup_compared_of_notMem hid, hx, map_some], ?_⟩
    unfold markMissing
    split
    · next hmark =>
      -- A run after it was returned, so it would have been returned too.
      exfalso
      obtain ⟨e, he, heid, -, -, hat⟩ := h.known.of_seen r.id x hx
      obtain ⟨v, hv, hev⟩ := (h.returned e he).1
      have htime := (h.index.agree v hv e hev _ mem_cons_self r hr heid).1
      cases hlast : (sortByKey Doc.key docs).getLast? with
      | none =>
        rw [hlast] at hmark
        exact absurd hmark.2 (Nat.not_lt_zero _)
      | some l =>
        rw [hlast] at hmark
        have hl : l ∈ docs := (mem_sortByKey _).mp (mem_of_getLast? hlast)
        obtain ⟨z, hz, hzid⟩ := h.covered hview hrows hr (by rw [← htime, hat]; exact hmark.1) hl
          (by rw [← htime, hat]; exact hmark.2)
        exact hid (hzid ▸ mem_map_of_mem hz)
    · exact hmissing

include h hview hrows in
theorem Seen.cycle :
    Seen floor (s.cycle floor docs) := by
  have hknown := h.known_compared hview hrows
  have hagree {d d' : CheckRun} (hd : d ∈ s.returned ++ docs) (hd' : d' ∈ s.returned ++ docs) (hid : d.id = d'.id) :=
    h.agree hview hrows hd hd' hid
  unfold State.cycle
  rw [diff_eq]
  refine ⟨⟨h.index.ids, h.index.landed_ids, h.index.landed, h.index.agree, h.index.newest, h.index.there⟩,
    fun d hd => ?_,
    hknown.prune (fun d hd d' hd' hid => (hagree hd hd' hid).1) floor, fun r hr hread hopen hfew => ?_,
    fun r hr hfloor hlater => ?_⟩
  · rcases mem_append.mp hd with hd | hd
    · exact h.returned d hd
    · obtain ⟨hmem, hstart⟩ := hrows.sub d hd
      exact ⟨⟨index, hview, hmem⟩, h.floor_le.trans hstart⟩
  · obtain ⟨x, hx, hmissing⟩ := h.open_compared hview hrows hr hread hopen hfew
    obtain ⟨e, he, heid, -, hdone, hat⟩ := hknown.of_seen r.id x hx
    have htime : x.time = r.createdAt := by
      obtain ⟨v, hv, hev⟩ : ∃ v ∈ s.views, e ∈ v := by
        rcases mem_append.mp he with he | he
        · exact (h.returned e he).1
        · exact ⟨index, hview, (hrows.sub e he).1⟩
      exact hat.symm.trans (h.index.agree v hv e hev _ mem_cons_self r hr heid).1
    have hcount := hknown.countP_le (h.landed hview hrows) fun t => r.createdAt < t
    have hkeep := readFrom_le_of_open floor (mem_values.mpr ⟨r.id, hx⟩)
      (hdone.symm.trans (hopen e he heid)) hmissing (htime ▸ hcount.trans_lt hfew)
    refine ⟨x, ?_, hmissing⟩
    dsimp only
    rw [lookup_filter, hx]
    exact filter_some_pos (decide_eq_true hkeep)
  · obtain ⟨d, hd, hlt⟩ := hlater
    rcases mem_append.mp hd with hd | hd
    · obtain ⟨e, he, hid⟩ := h.frontier r hr hfloor ⟨d, hd, hlt⟩
      exact ⟨e, mem_append_left _ he, hid⟩
    · by_cases hstart : readFrom s.prev floor ≤ r.createdAt
      · obtain ⟨e, he, hid⟩ := h.covered hview hrows hr hstart hd hlt
        exact ⟨e, mem_append_right _ he, hid⟩
      · by_cases hnil : s.returned = []
        · -- Nothing was read, so the read starts at the floor.
          rcases readFrom_eq s.prev floor with ⟨-, heq⟩ | ⟨start, ⟨x, hx, -⟩, -, -⟩
          · omega
          · obtain ⟨id, hid⟩ := mem_values.mp hx
            obtain ⟨e, he, -⟩ := h.known.of_seen id x hid
            rw [hnil] at he
            cases he
        · obtain ⟨⟨e, he, hle⟩, -⟩ := h.start hnil
          obtain ⟨z, hz, hid⟩ := h.frontier r hr hfloor ⟨e, he, by omega⟩
          exact ⟨z, mem_append_left _ hz, hid⟩

/-- The next read goes back to an open run that still exists, if few are newer. -/
theorem Seen.start_le_open (h : Seen floor s) (hr : r ∈ s.current) (hread : ∃ d ∈ s.returned, d.id = r.id)
    (hopen : ∀ d ∈ s.returned, d.id = r.id → isDone d = false)
    (hfew : s.landed.countP (fun l => r.createdAt < l.createdAt) < maxRunsPerHead) :
        readFrom s.prev floor ≤ r.createdAt := by
  obtain ⟨x, hx, hmissing⟩ := h.kept r hr hread hopen hfew
  obtain ⟨e, he, heid, -, hdone, hat⟩ := h.known.of_seen r.id x hx
  obtain ⟨v, hv, hev⟩ := (h.returned e he).1
  have htime := (h.index.agree v hv e hev _ mem_cons_self r hr heid).1
  have hcount := h.known.countP_le h.returned_landed fun t => r.createdAt < t
  have hle := readFrom_le_of_open floor (mem_values.mpr ⟨r.id, hx⟩)
    (hdone.symm.trans (hopen e he heid)) hmissing (by rw [← hat, htime]; exact hcount.trans_lt hfew)
  exact hle.trans_eq (hat.symm.trans htime)

theorem Seen.index_moves (h : Seen floor s) (hindex : Index s') (hviews : ∀ v ∈ s.views, v ∈ s'.views)
    (hprev : s'.prev = s.prev) (hreturned : s'.returned = s.returned) (hlanded : s.landed.Sublist s'.landed)
    (hcurrent : ∀ r ∈ s'.current, (∃ r' ∈ s.current, r'.id = r.id ∧ r'.createdAt = r.createdAt) ∨
      ∀ d ∈ s.returned, d.id ≠ r.id ∧ d.createdAt ≤ r.createdAt) : Seen floor s' := by
  refine ⟨hindex, fun d hd => ?_, by rw [hprev, hreturned]; exact h.known, fun r hr hread hopen hfew => ?_,
    fun r hr hfloor hlater => ?_⟩
  · rw [hreturned] at hd
    obtain ⟨⟨v, hv, hdv⟩, hle⟩ := h.returned d hd
    exact ⟨⟨v, hviews v hv, hdv⟩, hle⟩
  · rw [hreturned] at hread hopen
    rw [hprev]
    rcases hcurrent r hr with ⟨r', hr', hid, hat⟩ | hnew
    · rw [← hid] at hread hopen ⊢
      refine h.kept r' hr' hread hopen (lt_of_le_of_lt ?_ hfew)
      rw [hat]
      exact hlanded.countP_le
    · obtain ⟨d, hd, hid⟩ := hread
      exact absurd hid (hnew d hd).1
  · rw [hreturned] at hlater ⊢
    rcases hcurrent r hr with ⟨r', hr', hid, hat⟩ | hnew
    · rw [← hid]
      rw [← hat] at hfloor hlater
      exact h.frontier r' hr' hfloor hlater
    · obtain ⟨d, hd, hlt⟩ := hlater
      exact absurd hlt (not_lt.mpr (hnew d hd).2)

theorem Seen.step (h : Seen floor s) (hstep : Step floor s s') : Seen floor s' := by
  have hviews : ∀ v ∈ s.views, ∀ w : List CheckRun, v ∈ w :: s.views := fun v hv w => mem_cons_of_mem w hv
  cases hstep with
  | create x hnew htime =>
    refine h.index_moves (h.index.create hnew htime) (fun v hv => hviews v hv _) rfl rfl (sublist_append_left _ _) ?_
    intro r hr
    rcases mem_append.mp hr with hr | hr
    · exact .inl ⟨r, hr, rfl, rfl⟩
    · obtain rfl := mem_singleton.mp hr
      refine .inr fun d hd => ?_
      obtain ⟨⟨v, hv, hdv⟩, -⟩ := h.returned d hd
      obtain ⟨l, hl, hid, hat⟩ := h.index.landed v hv d hdv
      exact ⟨fun heq => hnew (mem_map.mpr ⟨l, hl, hid.trans heq⟩), hat ▸ htime l hl⟩
  | replace d x hd hid htime hrev hdone =>
    refine h.index_moves (h.index.replace hd hid htime hrev hdone) (fun v hv => hviews v hv _)
      rfl rfl (List.Sublist.refl _) ?_
    intro r hr
    obtain ⟨y, hy, rfl⟩ := mem_map.mp hr
    split
    · exact .inl ⟨d, hd, hid.symm, htime.symm⟩
    · exact .inl ⟨y, hy, rfl, rfl⟩
  | delete id =>
    refine h.index_moves (h.index.delete id) (fun v hv => hviews v hv _) rfl rfl (List.Sublist.refl _) ?_
    exact fun r hr => .inl ⟨r, mem_of_mem_filter hr, rfl, rfl⟩
  | cycle index docs hread => exact h.cycle hread.1 (hread.rows h.index)

end Seen

/-! ### Events -/

/-- What was sent. -/
structure Sent (s : State) : Prop where
  read : ∀ e ∈ s.log, e.2 ∈ s.returned
  announced : ∀ d ∈ s.returned, ∃ e ∈ s.log, e.1 = .created ∧ e.2.id = d.id
  done : ∀ e ∈ s.log, e.1 = .completed → ∀ x, s.prev.lookup e.2.id = some x → x.done = true
  nodup : (s.log.map fun e => (e.1, e.2.id)).Nodup
  order : s.log.Pairwise fun a b => a.1 = .completed → b.1 = .created → a.2.id ≠ b.2.id

section Sent

variable {floor : ℕ} {s : State} {index docs : List CheckRun}

variable {prev : HeadRuns} {since : ℕ} {d : CheckRun} {e : CheckRunAction × CheckRun}

/-- An event is of a run that was not known, or of one that has become completed. -/
theorem mem_eventsOf (he : e ∈ eventsOf prev since d) : e.2 = d ∧ (e.1 = .created ∧ prev.lookup d.id = none ∨
        e.1 = .completed ∧ isDone d = true ∧ ∀ x, prev.lookup d.id = some x → x.rev < rev d ∧ x.done = false) := by
  unfold eventsOf at he
  split at he
  · next x hx =>
    split at he
    · next hmoved =>
      obtain rfl := mem_singleton.mp he
      refine ⟨rfl, .inr ⟨rfl, hmoved.2.1, fun y hy => ?_⟩⟩
      obtain rfl := some.inj (hx.symm.trans hy)
      exact ⟨hmoved.1, by simpa using hmoved.2.2⟩
    · cases he
  · next hnone =>
    split at he
    · grind
    · cases he

theorem eventsOf_order (prev : HeadRuns) (since : ℕ) (d : CheckRun) :
    ((eventsOf prev since d).map fun e => (e.1, e.2.id)).Nodup ∧
      (eventsOf prev since d).Pairwise fun a b => a.1 = .completed → b.1 = .created → a.2.id ≠ b.2.id := by
  unfold eventsOf
  split
  · grind
  · split
    · split <;> simp
    · exact ⟨nodup_nil, List.Pairwise.nil⟩

variable (h : Seen floor s) (hview : index ∈ s.views) (hrows : Rows index (readFrom s.prev floor) docs)

include h hview hrows in
/-- A run known by a version that was read: an event of it tells that it has become completed, by a newer version. -/
theorem Seen.event_of_read (he : e ∈ (sortByKey Doc.key docs).flatMap (eventsOf s.prev floor)) {d' : CheckRun}
    (hd' : d' ∈ s.returned) (hid : d'.id = e.2.id) :
    e.1 = .completed ∧ rev d' < rev e.2 ∧ ∃ x, s.prev.lookup e.2.id = some x ∧ x.done = false := by
  obtain ⟨d, hd, he⟩ := mem_flatMap.mp he
  obtain ⟨heq, hkind⟩ := mem_eventsOf he
  rw [heq] at hid ⊢
  obtain ⟨x, hx, hle⟩ := h.read_known hview hrows ((mem_sortByKey _).mp hd) hd' hid
  rcases hkind with ⟨-, hnone⟩ | ⟨haction, -, hmoved⟩
  · rw [hnone] at hx
    cases hx
  · grind

theorem events_order (prev : HeadRuns) (since : ℕ) (hids : (docs.map Doc.id).Nodup) :
    (((sortByKey Doc.key docs).flatMap (eventsOf prev since)).map fun e => (e.1, e.2.id)).Nodup ∧
      ((sortByKey Doc.key docs).flatMap (eventsOf prev since)).Pairwise fun a b =>
        a.1 = .completed → b.1 = .created → a.2.id ≠ b.2.id := by
  have hdistinct : (sortByKey Doc.key docs).Pairwise fun a b => a.id ≠ b.id :=
    pairwise_map.mp (((perm_sortByKey Doc.key docs).map Doc.id).nodup_iff.mpr hids)
  -- Events of two runs differ in the run.
  have hcross {d d' : CheckRun} (hne : d.id ≠ d'.id) {e e' : CheckRunAction × CheckRun} (he : e ∈ eventsOf prev since d)
      (he' : e' ∈ eventsOf prev since d') : e.2.id ≠ e'.2.id := by
    rw [(mem_eventsOf he).1, (mem_eventsOf he').1]
    exact hne
  constructor
  · rw [map_flatMap, nodup_flatMap]
    refine ⟨fun d _ => (eventsOf_order prev since d).1, hdistinct.imp fun hne => ?_⟩
    intro x hx hx'
    obtain ⟨e, he, rfl⟩ := mem_map.mp hx
    obtain ⟨e', he', heq⟩ := mem_map.mp hx'
    exact hcross hne he he' (congrArg Prod.snd heq).symm
  · rw [pairwise_flatMap]
    refine ⟨fun d _ => (eventsOf_order prev since d).2, hdistinct.imp fun hne e he e' he' _ _ => ?_⟩
    exact hcross hne he he'

/-- A run that was read and not known is announced, if it was created at the floor or after it. -/
theorem created_mem_eventsOf (hnone : prev.lookup d.id = none)
    (hfloor : since ≤ d.createdAt) : (.created, d) ∈ eventsOf prev since d := by
  rw [eventsOf, hnone]
  dsimp only
  rw [if_pos hfloor]
  exact mem_cons_self

include h hview hrows in
/-- A run that is read completed and never was before is told to be. -/
theorem Seen.completed_mem_eventsOf (hd : d ∈ docs) (hdone : isDone d = true)
    (hopen : ∀ d' ∈ s.returned, d'.id = d.id → isDone d' = false) : (.completed, d) ∈ eventsOf s.prev floor d := by
  unfold eventsOf
  split
  · next x hx =>
    obtain ⟨e, he, heid, hrev, hdone', -⟩ := h.known.of_seen d.id x hx
    have hx' : x.done = false := hdone'.symm.trans (hopen e he heid)
    have hlt : x.rev < rev d := by
      by_contra hge
      have hagree := h.agree hview hrows (mem_append_right _ hd) (mem_append_left _ he) heid.symm
      have hthen := hagree.2 (hrev.symm ▸ Nat.le_of_not_lt hge) hdone
      rw [hopen e he heid] at hthen
      cases hthen
    rw [if_pos ⟨hlt, hdone, by rw [hx']; rfl⟩]
    exact mem_singleton.mpr rfl
  · rw [if_pos (h.floor_le.trans (hrows.sub d hd).2), if_pos hdone]
    exact mem_cons_of_mem _ (mem_singleton.mpr rfl)

theorem Sent.cycle (h : Sent s) (hseen : Seen floor s) (hview : index ∈ s.views)
    (hrows : Rows index (readFrom s.prev floor) docs) : Sent (s.cycle floor docs) := by
  have hevent {e : CheckRunAction × CheckRun} (he : e ∈ (sortByKey Doc.key docs).flatMap (eventsOf s.prev floor)) :
      e.2 ∈ docs := by
    obtain ⟨d, hd, he⟩ := mem_flatMap.mp he
    exact (mem_eventsOf he).1 ▸ (mem_sortByKey _).mp hd
  have horder := events_order s.prev floor hrows.ids
  unfold State.cycle
  rw [diff_eq]
  refine ⟨fun e he => ?_, fun d hd => ?_, fun e he haction x hx => ?_, ?_, ?_⟩
  · exact mem_append.mpr ((mem_append.mp he).imp (h.read e) hevent)
  · have hannounced (d' : CheckRun) (hd' : d' ∈ s.returned) : ∃ e ∈ s.log ++
      (sortByKey Doc.key docs).flatMap (eventsOf s.prev floor),
        e.1 = .created ∧ e.2.id = d'.id := by
      obtain ⟨e, he, heq⟩ := h.announced d' hd'
      exact ⟨e, mem_append_left _ he, heq⟩
    rcases mem_append.mp hd with hd | hd
    · exact hannounced d hd
    · cases hlookup : s.prev.lookup d.id with
      | none =>
        have hcreated := created_mem_eventsOf hlookup (hseen.floor_le.trans (hrows.sub d hd).2)
        exact ⟨_, mem_append_right _ (mem_flatMap.mpr ⟨d, (mem_sortByKey _).mpr hd, hcreated⟩), rfl, rfl⟩
      | some x =>
        obtain ⟨d', hd', hid, -⟩ := hseen.known.of_seen d.id x hlookup
        rw [← hid]
        exact hannounced d' hd'
  · dsimp only at hx
    rw [lookup_filter, filter_eq_some_iff] at hx
    rcases lookup_compared hrows.ids hx.1 with ⟨d, hd, hid, rfl⟩ | ⟨hnot, y, hy, -, hdone, -⟩
    · rcases mem_append.mp he with he | he
      · obtain ⟨y, hy, -⟩ := hseen.read_known hview hrows hd (h.read e he) hid.symm
        exact ((hseen.seenAs hview hrows hd).2.2.2.1 y hy).2 (h.done e he haction y (hid ▸ hy))
      · obtain ⟨d', hd', he⟩ := mem_flatMap.mp he
        obtain ⟨heq, hkind⟩ := mem_eventsOf he
        obtain rfl := inj_on_of_nodup_map hrows.ids ((mem_sortByKey _).mp hd') hd (heq ▸ hid.symm)
        obtain ⟨-, hdone, hmoved⟩ := hkind.resolve_left fun hcreated => by simp [haction] at hcreated
        unfold seenAs
        split
        · next y hy =>
          rw [if_neg (not_lt.mpr (hmoved y hy).1.le)]
          exact hdone
        · exact hdone
    · rw [hdone]
      refine h.done e ((mem_append.mp he).resolve_right fun he => ?_) haction y hy
      exact hnot (mem_map_of_mem (hevent he))
  · dsimp only
    rw [map_append]
    refine nodup_append.mpr ⟨h.nodup, horder.1, ?_⟩
    rintro p hp q hq rfl
    obtain ⟨e, he, rfl⟩ := mem_map.mp hp
    obtain ⟨e', he', heq⟩ := mem_map.mp hq
    obtain ⟨haction, hid⟩ := Prod.mk.inj heq
    obtain ⟨hcompleted, -, x, hx, hopen⟩ := hseen.event_of_read hview hrows he' (h.read e he) hid.symm
    have hdone := h.done e he (haction.symm.trans hcompleted) x (hid ▸ hx)
    rw [hopen] at hdone
    cases hdone
  · refine pairwise_append.mpr ⟨h.order, horder.2, fun e he e' he' _ hcreated hid => ?_⟩
    obtain ⟨hcompleted, -⟩ := hseen.event_of_read hview hrows he' (h.read e he) hid
    rw [hcreated] at hcompleted
    cases hcompleted

theorem Sent.step (h : Sent s) (hseen : Seen floor s) {s' : State} (hstep : Step floor s s') : Sent s' := by
  cases hstep with
  | create x hnew htime => exact ⟨h.read, h.announced, h.done, h.nodup, h.order⟩
  | replace d x hd hid htime hrev hdone => exact ⟨h.read, h.announced, h.done, h.nodup, h.order⟩
  | delete id => exact ⟨h.read, h.announced, h.done, h.nodup, h.order⟩
  | cycle index docs hread => exact h.cycle hseen hread.1 (hread.rows hseen.index)

end Sent

theorem Seen.init (floor : ℕ) : Seen floor {} where
  index := {
    ids := fun v hv => by rw [mem_singleton.mp hv]; exact nodup_nil
    landed_ids := nodup_nil
    landed := fun v hv d hd => by rw [mem_singleton.mp hv] at hd; cases hd
    agree := fun v hv d hd => by rw [mem_singleton.mp hv] at hd; cases hd
    newest := fun _ _ _ _ r hr => by cases hr
    there := fun r hr => by cases hr }
  returned := fun d hd => by cases hd
  known := {
    of_seen := fun id x hx => by cases hx
    newest := fun d hd => by cases hd
    dropped := fun d hd => by cases hd
    nonempty := fun hne => absurd rfl hne }
  kept := fun r hr => by cases hr
  frontier := fun r hr => by cases hr

theorem Sent.init : Sent {} where
  read := fun e he => by cases he
  announced := fun d hd => by cases hd
  done := fun e he => by cases he
  nodup := nodup_nil
  order := List.Pairwise.nil

theorem Reachable.sent {floor : ℕ} {s : State} (h : Reachable floor s) : Seen floor s ∧ Sent s := by
  induction h with
  | refl => exact ⟨Seen.init floor, Sent.init⟩
  | tail _ hstep ih => exact ⟨ih.1.step hstep, ih.2.step ih.1 hstep⟩

/-! ### Catching up -/

/-- A cycle whose read of the index is not cut short. -/
def State.catchUp (floor : ℕ) (s : State) : State :=
  match readRuns s.current (readFrom s.prev floor) (fun _ => false) with
  | some docs => s.cycle floor docs
  | none => s

/-- Runs at the floor or after it that no read returned. -/
def State.unread (floor : ℕ) (s : State) : List CheckRun :=
  s.current.filter fun d => floor ≤ d.createdAt ∧ d.id ∉ s.returned.map Doc.id

section CatchUp

variable {floor : ℕ} {s : State} {index docs : List CheckRun}

/-- An uncut read returns the rows that its pages hold. -/
theorem Index.reads (h : Index s) (floor : ℕ) (hview : index ∈ s.views) :
    readRuns index (readFrom s.prev floor) (fun _ => false) =
      some ((rowsFrom index (readFrom s.prev floor)).take (pageSize * maxPages)) := by
  obtain ⟨m, heq, hfull⟩ := readRuns_spec (h.ids index hview) (readFrom s.prev floor) fun _ => false
  rw [heq, hfull fun _ => rfl]

theorem Index.catchUp (h : Index s) (floor : ℕ) : s.catchUp floor =
    s.cycle floor ((rowsFrom s.current (readFrom s.prev floor)).take (pageSize * maxPages)) := by
  unfold State.catchUp
  rw [h.reads floor mem_cons_self]

theorem log_cycle (floor : ℕ) (s : State) (docs : List CheckRun) :
    (s.cycle floor docs).log = s.log ++ (sortByKey Doc.key docs).flatMap (eventsOf s.prev floor) := by
  unfold State.cycle
  rw [diff_eq]

theorem log_iterate_catchUp (floor : ℕ) (n : ℕ) (s : State) : s.log ⊆ ((State.catchUp floor)^[n] s).log := by
  induction n generalizing s with
  | zero => exact List.Subset.refl _
  | succ n ih =>
    rw [Function.iterate_succ_apply]
    refine List.Subset.trans ?_ (ih _)
    unfold State.catchUp
    split
    · rw [log_cycle]
      exact subset_append_left _ _
    · exact List.Subset.refl _

theorem Seen.start_le_unread (h : Seen floor s) {d : CheckRun} (hd : d ∈ s.unread floor) :
    readFrom s.prev floor ≤ d.createdAt := by
  obtain ⟨hd, hunread⟩ := mem_filter.mp hd
  obtain ⟨hfloor, hunread⟩ := of_decide_eq_true hunread
  rcases readFrom_eq s.prev floor with ⟨-, heq⟩ | ⟨start, ⟨x, hx, -⟩, -, -⟩
  · exact heq.trans_le hfloor
  · obtain ⟨id, hid⟩ := mem_values.mp hx
    obtain ⟨e, he, -⟩ := h.known.of_seen id x hid
    obtain ⟨⟨e', he', hle⟩, -⟩ := h.start (ne_nil_of_mem he)
    by_contra hlt
    obtain ⟨z, hz, hzid⟩ := h.frontier d hd hfloor ⟨e', he', by omega⟩
    exact hunread (hzid ▸ mem_map_of_mem hz)

variable (h : Seen floor s) (hties : ∀ t, s.landed.countP (fun l => l.createdAt = t) ≤ pageSize)

include h hties in
theorem Seen.length_lt (hview : index ∈ s.views) (hrows : Rows index (readFrom s.prev floor) docs)
    (hread : ∀ d ∈ docs, d.id ∈ s.returned.map Doc.id) : docs.length < pageSize * maxPages := by
  have hfew := countP_readFrom_lt floor fun t => (h.known.countP_le h.returned_landed fun t' => t' = t).trans (hties t)
  refine lt_of_le_of_lt ?_ hfew
  rw [values, countP_map, countP_eq_length_filter]
  have hsub : docs.map Doc.id ⊆
      (s.prev.entries.filter ((fun x => decide (readFrom s.prev floor ≤ x.time)) ∘ Prod.snd)).map Prod.fst := by
    intro id hid
    obtain ⟨d, hd, rfl⟩ := mem_map.mp hid
    obtain ⟨d', hd', hid⟩ := mem_map.mp (hread d hd)
    obtain ⟨x, hx, -⟩ := h.read_known hview hrows hd hd' hid
    obtain ⟨e, he, heid, -, -, hat⟩ := h.known.of_seen d.id x hx
    have htime := (h.agree hview hrows (mem_append_left _ he) (mem_append_right _ hd) heid).1
    refine mem_map.mpr ⟨(d.id, x), mem_filter.mpr ⟨lookup_eq_some_iff.mp hx, ?_⟩, rfl⟩
    exact decide_eq_true ((hrows.sub d hd).2.trans_eq (htime.symm.trans hat))
  have hle := (subperm_of_subset hrows.ids hsub).length_le
  rwa [length_map, length_map] at hle

include h hties in
theorem Seen.unread_lt (hne : s.unread floor ≠ []) :
    ((s.catchUp floor).unread floor).length < (s.unread floor).length := by
  have hview : s.current ∈ s.views := mem_cons_self
  have hreads : Reads floor s s.current _ := ⟨hview, _, h.index.reads floor hview⟩
  have hrows := hreads.rows h.index
  rw [h.index.catchUp]
  obtain ⟨d, hd, hdid⟩ : ∃ d ∈ s.unread floor,
      d.id ∈ ((rowsFrom s.current (readFrom s.prev floor)).take (pageSize * maxPages)).map Doc.id := by
    by_contra hnone
    push Not at hnone
    have hread : ∀ d ∈ (rowsFrom s.current (readFrom s.prev floor)).take (pageSize * maxPages),
        d.id ∈ s.returned.map Doc.id := by
      intro d hd
      by_contra hunread
      obtain ⟨hcur, hstart⟩ := hrows.sub d hd
      have hmem : d ∈ s.unread floor :=
        mem_filter.mpr ⟨hcur, decide_eq_true ⟨h.floor_le.trans hstart, hunread⟩⟩
      exact hnone d hmem (mem_map_of_mem hd)
    have hlt := h.length_lt hties hview hrows hread
    -- So the read went to the end of the index, past every run.
    obtain ⟨d, hd⟩ := exists_mem_of_ne_nil _ hne
    refine hnone d hd (mem_map_of_mem ?_)
    rw [take_of_length_le (by rw [length_take] at hlt; omega)]
    exact mem_rowsFrom.mpr ⟨mem_of_mem_filter hd, h.start_le_unread hd⟩
  have hfilter :
    ((s.cycle floor ((rowsFrom s.current (readFrom s.prev floor)).take (pageSize * maxPages))).unread floor) =
      (s.unread floor).filter fun d =>
        d.id ∉ ((rowsFrom s.current (readFrom s.prev floor)).take (pageSize * maxPages)).map Doc.id := by
    unfold State.unread State.cycle
    rw [List.filter_filter]
    refine filter_congr fun d _ => ?_
    dsimp only
    rw [map_append, ← Bool.decide_and, decide_eq_decide, mem_append, not_or]
    exact ⟨fun ⟨hfloor, hold, hnew⟩ => ⟨hnew, hfloor, hold⟩, fun ⟨hnew, hfloor, hold⟩ => ⟨hfloor, hold, hnew⟩⟩
  rw [hfilter]
  exact length_filter_lt_length_iff_exists.mpr ⟨d, hd, by simpa using hdid⟩

/-- Uncut reads return every run of an index that stays, and each one's events are sent. -/
theorem Seen.catchUp (n : ℕ) (h : Seen floor s) (hsent : Sent s)
    (hties : ∀ t, s.landed.countP (fun l => l.createdAt = t) ≤ pageSize) (hn : (s.unread floor).length ≤ n) :
    ∀ d ∈ s.unread floor, eventsOf .empty floor d ⊆ ((State.catchUp floor)^[n] s).log := by
  induction n generalizing s with
  | zero =>
    intro d hd
    rw [eq_nil_of_length_eq_zero (Nat.le_zero.mp hn)] at hd
    cases hd
  | succ n ih =>
    intro d hd
    have hview : s.current ∈ s.views := mem_cons_self
    have hreads : Reads floor s s.current _ := ⟨hview, _, h.index.reads floor hview⟩
    have hrows := hreads.rows h.index
    have hlt := h.unread_lt hties (ne_nil_of_mem hd)
    obtain ⟨hcur, hunread⟩ := mem_filter.mp hd
    obtain ⟨hfloor, hunread⟩ := of_decide_eq_true hunread
    rw [Function.iterate_succ_apply]
    by_cases hread : d.id ∈ ((rowsFrom s.current (readFrom s.prev floor)).take (pageSize * maxPages)).map Doc.id
    · refine List.Subset.trans ?_ (log_iterate_catchUp floor n _)
      obtain ⟨d', hd', hid⟩ := mem_map.mp hread
      obtain rfl := inj_on_of_nodup_map (h.index.ids _ hview) (hrows.sub d' hd').1 hcur hid
      have hnone : s.prev.lookup d'.id = none := by
        refine eq_none_iff_forall_ne_some.mpr fun x hx => ?_
        obtain ⟨e, he, heid, -⟩ := h.known.of_seen d'.id x hx
        exact hunread (heid ▸ mem_map_of_mem he)
      have hevents : eventsOf .empty floor d' = eventsOf s.prev floor d' := by
        unfold eventsOf
        rw [hnone, lookup_empty]
      rw [h.index.catchUp, log_cycle, hevents]
      refine fun e he => mem_append_right _ (mem_flatMap.mpr ⟨d', (mem_sortByKey _).mpr hd', he⟩)
    · rw [h.index.catchUp] at hlt ⊢
      refine ih (h.cycle hview hrows) (hsent.cycle h hview hrows) hties (by omega) d ?_
      refine mem_filter.mpr ⟨hcur, decide_eq_true ⟨hfloor, ?_⟩⟩
      change d.id ∉ (s.returned ++ _).map Doc.id
      rw [map_append, mem_append, not_or]
      exact ⟨hunread, hread⟩

end CatchUp

/-! ### Deliveries -/

/-- What is sent of a head's runs, and what is sure to be sent. -/
structure Delivers (floor : ℕ) (s : State) : Prop where
  once : (s.log.map fun e => (e.1, e.2.id)).Nodup
  /-- A completed run was announced, and before. -/
  began : ∀ e ∈ s.log, ∃ c ∈ s.log, c.1 = .created ∧ c.2.id = e.2.id
  order : s.log.Pairwise fun a b => a.1 = .completed → b.1 = .created → a.2.id ≠ b.2.id
  /-- No event is of a version that is not newer than all of that run which were read. -/
  newer : ∀ index docs, Reads floor s index docs → ∀ e ∈ (diff s.prev docs floor (readFrom s.prev floor)).1,
    ∀ d ∈ s.returned, d.id = e.2.id → rev d < rev e.2
  /-- An uncut read returns all rows from its start that its pages hold. -/
  full : ∀ index ∈ s.views, readRuns index (readFrom s.prev floor) (fun _ => false) =
    some ((rowsFrom index (readFrom s.prev floor)).take (pageSize * maxPages))
  announced : ∀ index docs, Reads floor s index docs → ∀ d ∈ docs,
    ∃ e ∈ (s.cycle floor docs).log, e.1 = .created ∧ e.2.id = d.id
  /-- The reads go back to an open run that still exists while few are newer. -/
  covered : ∀ r ∈ s.current, (∃ d ∈ s.returned, d.id = r.id) → (∀ d ∈ s.returned, d.id = r.id → isDone d = false) →
    s.landed.countP (fun l => r.createdAt < l.createdAt) < maxRunsPerHead → readFrom s.prev floor ≤ r.createdAt
  /-- The first read that shows a run completed sends that. -/
  completed : ∀ index docs, Reads floor s index docs → ∀ d ∈ docs, isDone d = true →
    (∀ d' ∈ s.returned, d'.id = d.id → isDone d' = false) →
    (.completed, d) ∈ (diff s.prev docs floor (readFrom s.prev floor)).1
  /-- Where no more than a page of runs are of one time, uncut reads of an index that stays tell all of it. -/
  catchUp : (∀ t, s.landed.countP (fun l => l.createdAt = t) ≤ pageSize) → ∀ n, s.current.length ≤ n →
    ∀ d ∈ s.current, floor ≤ d.createdAt →
      (∃ e ∈ ((State.catchUp floor)^[n] s).log, e.1 = .created ∧ e.2.id = d.id) ∧
      ((∀ d' ∈ s.returned, d'.id ≠ d.id) → isDone d = true → (.completed, d) ∈ ((State.catchUp floor)^[n] s).log)

/-- However cycles read the index, each run's events are sent once and in order, and none is lost. -/
theorem checkRuns_spec {floor : ℕ} {s : State} (h : Reachable floor s) : Delivers floor s := by
  obtain ⟨hseen, hsent⟩ := h.sent
  refine ⟨hsent.nodup, fun e he => hsent.announced _ (hsent.read e he), hsent.order, ?_, ?_, ?_, ?_, ?_, ?_⟩
  · intro index docs hread e he d hd hid
    rw [diff_eq] at he
    exact (hseen.event_of_read hread.1 (hread.rows hseen.index) he hd hid).2.1
  · exact fun index hview => hseen.index.reads floor hview
  · intro index docs hread d hd
    exact (hsent.cycle hseen hread.1 (hread.rows hseen.index)).announced d (mem_append_right _ hd)
  · exact fun r hr hread hopen hfew => hseen.start_le_open hr hread hopen hfew
  · intro index docs hread d hd hdone hopen
    rw [diff_eq]
    have hevent := hseen.completed_mem_eventsOf hread.1 (hread.rows hseen.index) hd hdone hopen
    exact mem_flatMap.mpr ⟨d, (mem_sortByKey _).mpr hd, hevent⟩
  · intro hties n hn d hd hfloor
    have hn' : (s.unread floor).length ≤ n := (length_filter_le _ _).trans hn
    by_cases hread : ∃ d' ∈ s.returned, d'.id = d.id
    · obtain ⟨d', hd', hid⟩ := hread
      obtain ⟨e, he, haction, heid⟩ := hsent.announced d' hd'
      exact ⟨⟨e, log_iterate_catchUp floor n s he, haction, heid.trans hid⟩, fun hnot => absurd hid (hnot d' hd')⟩
    · have hunread : d ∈ s.unread floor := by
        refine mem_filter.mpr ⟨hd, decide_eq_true ⟨hfloor, fun hmem => hread ?_⟩⟩
        exact mem_map.mp hmem
      have hall := hseen.catchUp n hsent hties hn' d hunread
      have hnone : (empty : HeadRuns).lookup d.id = none := rfl
      refine ⟨⟨_, hall (created_mem_eventsOf hnone hfloor), rfl, rfl⟩, fun _ hdone => hall ?_⟩
      rw [eventsOf, hnone]
      dsimp only
      rw [if_pos hfloor, if_pos hdone]
      exact mem_cons_of_mem _ (mem_singleton.mpr rfl)

/-- One run, read open and read again when it is completed. -/
def sampleRun (revision : ℕ) (status : String) : CheckRun := ⟨"r", 5, ⟨some revision, some status⟩⟩

def sampleCreated : State := { current := [sampleRun 1 "queued"], older := [[]], landed := [sampleRun 1 "queued"] }

def sampleOpen : State := sampleCreated.cycle 0 [sampleRun 1 "queued"]

def sampleCompleted : State := { sampleOpen with current := [sampleRun 2 "completed"], older := sampleOpen.views }

theorem sample_reachable : Reachable 0 (sampleCompleted.cycle 0 [sampleRun 2 "completed"]) := by
  have hcreate : Step 0 {} sampleCreated := .create {} (sampleRun 1 "queued") (by decide) (by decide)
  have hopen : Step 0 sampleCreated sampleOpen := .cycle _ _ _ ⟨mem_cons_self, fun _ => false, by decide +kernel⟩
  have hreplace : Step 0 sampleOpen sampleCompleted :=
    .replace _ (sampleRun 1 "queued") (sampleRun 2 "completed") (by decide +kernel) rfl rfl (by decide) (by decide)
  have hdone : Step 0 sampleCompleted (sampleCompleted.cycle 0 [sampleRun 2 "completed"]) :=
    .cycle _ _ _ ⟨mem_cons_self, fun _ => false, by decide +kernel⟩
  exact (((Relation.ReflTransGen.refl.tail hcreate).tail hopen).tail hreplace).tail hdone

theorem checkRuns_spec_sample : (sampleCompleted.cycle 0 [sampleRun 2 "completed"]).log =
    [(.created, sampleRun 1 "queued"), (.completed, sampleRun 2 "completed")] ∧
    Delivers 0 (sampleCompleted.cycle 0 [sampleRun 2 "completed"]) :=
  ⟨by decide +kernel, checkRuns_spec sample_reachable⟩

end DashForge.CheckRuns
