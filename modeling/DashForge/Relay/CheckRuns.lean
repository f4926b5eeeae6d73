import DashForge.Data.SortedMap
import DashForge.Relay.Stream

/-!
# Check runs and what was seen of them

A check run is replaced in place, so its stream's time does not move with it (`checkruns.rs`). For each watched head the
relay reads the runs from a time on (`readRuns`), compares each with what it saw last (`diff`), and keeps of what
it saw what the next read starts from (`readFrom`): the oldest open run, else the newest one, but not more than the newest
`maxRunsPerHead`.

A read returns the first rows of the index from its start (`readRuns_spec`). What `diff` makes of one run depends on
that run only (`lookup_see`), up to the runs it drops.
-/

namespace DashForge.CheckRuns

open DashForge.Stream (Doc page pageSize)
open List

/-- Pages of one read. -/
def maxPages : ℕ := 5

/-- Runs of a head that a read reaches back over. -/
def maxRunsPerHead : ℕ := (maxPages - 1) * pageSize

structure Body where
  revision : Option ℕ
  status : Option String
deriving DecidableEq, Repr

/-- A `checkRun` document. -/
abbrev CheckRun := Doc Body

def rev (d : CheckRun) : ℕ := d.body.revision.getD 1

/-- Whether a run is completed; one without a status counts as that. -/
def isDone (d : CheckRun) : Bool := d.body.status.all fun s => s = "completed"

/-- What was last seen of a run. -/
structure RunSeen where
  rev : ℕ
  done : Bool
  time : ℕ
  /-- Absent from the last read that covered it. -/
  missing : Bool := false
deriving DecidableEq, Repr

/-- A head's runs by document id. -/
abbrev HeadRuns := SortedMap String RunSeen

inductive CheckRunAction where
  | created
  | completed
deriving DecidableEq, Repr

/-- Where a head's next read starts. -/
def readFrom (prev : HeadRuns) (floor : ℕ) : ℕ :=
  match (sortByKey id (prev.values.map RunSeen.time)).reverse with
  | [] => floor
  | newest :: older =>
    let oldestOpen := ((prev.values.filter fun r => !r.done && !r.missing).map RunSeen.time).min?.getD newest
    max oldestOpen (((newest :: older)[maxRunsPerHead - 1]?).getD 0)

/-- Read on page by page, at most `n` more pages. -/
def readPages (index : List CheckRun) (since : ℕ) (stop : ℕ → Bool) : ℕ → List CheckRun → Option (List CheckRun)
  | 0, out => some out
  | n + 1, out => do
    let rows ← page index (some since) true pageSize (out.getLast?.map Doc.id)
    if rows.length < pageSize ∨ stop n = true then return out ++ rows
    else readPages index since stop n (out ++ rows)

/-- A head's runs created at a time or after it, ascending; `stop` says after which pages the read is cut short. -/
def readRuns (index : List CheckRun) (since : ℕ) (stop : ℕ → Bool) : Option (List CheckRun) :=
  readPages index since stop maxPages []

/-- What is seen of a run now. -/
def seenNow (d : CheckRun) : RunSeen where
  rev := rev d
  done := isDone d
  time := d.createdAt

/-- Compare one run with what was seen. -/
def see (prev : HeadRuns) (since : ℕ) (acc : List (CheckRunAction × CheckRun) × HeadRuns) (d : CheckRun) :
    List (CheckRunAction × CheckRun) × HeadRuns :=
  match prev.lookup d.id with
  | some seen =>
    -- A lagging read keeps the newer state; the run is there.
    if rev d < seen.rev then (acc.1, acc.2.insert d.id { seen with missing := false })
    else
      (if seen.rev < rev d ∧ isDone d ∧ !seen.done then acc.1 ++ [(.completed, d)] else acc.1,
        acc.2.insert d.id (seenNow d))
  | none =>
    if since ≤ d.createdAt then
      (acc.1 ++ (.created, d) :: (if isDone d then [(.completed, d)] else []), acc.2.insert d.id (seenNow d))
    else (acc.1, acc.2.insert d.id (seenNow d))

/-- Compare a read from `start` on with what was seen: the events to send, and what is kept. -/
def diff (prev : HeadRuns) (docs : List CheckRun) (since start : ℕ) : List (CheckRunAction × CheckRun) × HeadRuns :=
  let docs := sortByKey Doc.key docs
  -- A node that returned a run has every block before it: a run not returned was deleted.
  let reached := (docs.getLast?.map Doc.createdAt).getD 0
  let next := prev.mapVals fun _ r => if start ≤ r.time ∧ r.time < reached then { r with missing := true } else r
  let (out, next) := docs.foldl (see prev since) ([], next)
  let keepFrom := readFrom next since
  (out, next.filter fun _ r => decide (keepFrom ≤ r.time))

/-! ### Reads -/

/-- The rows of an index from a time on, in order. -/
def rowsFrom (index : List CheckRun) (since : ℕ) : List CheckRun :=
  (sortByKey Doc.key index).filter fun d => since ≤ d.createdAt

section Reads

variable {index docs : List CheckRun} {since : ℕ}

variable (hids : (index.map Doc.id).Nodup)

include hids in
theorem pairwise_rowsFrom (since : ℕ) :
    (rowsFrom index since).Pairwise fun a b => a.key < b.key :=
  (Stream.pairwise_sortByKey_lt hids).filter _

@[simp]
theorem mem_rowsFrom {d : CheckRun} : d ∈ rowsFrom index since ↔ d ∈ index ∧ since ≤ d.createdAt := by
  simp [rowsFrom]

theorem filter_lt_getLast {rows : List CheckRun} (hsorted : rows.Pairwise fun a b => a.key < b.key)
    {m : ℕ} {a : CheckRun}
    (ha : (rows.take m).getLast? = some a) : (rows.filter fun d => a.key < d.key) = rows.drop m := by
  have hparts := hsorted
  rw [← take_append_drop m rows, pairwise_append] at hparts
  obtain ⟨hfirst, -, hcross⟩ := hparts
  have hmem := mem_of_getLast? ha
  have hnone : (rows.take m).filter (fun d => a.key < d.key) = [] := by
    refine filter_eq_nil_iff.mpr fun d hd => ?_
    obtain ⟨init, heq⟩ := getLast?_eq_some_iff.mp ha
    rw [heq] at hd hfirst
    rcases mem_append.mp hd with hd | hd
    · have := (pairwise_append.mp hfirst).2.2 d hd a (by simp)
      simpa using this.le
    · rw [mem_singleton.mp hd]
      simp
  have hall : (rows.drop m).filter (fun d => a.key < d.key) = rows.drop m :=
    filter_eq_self.mpr fun d hd => decide_eq_true (hcross a hmem d hd)
  conv_lhs => rw [← take_append_drop m rows]
  rw [filter_append, hnone, hall, nil_append]

include hids in
theorem find?_id {a : CheckRun} (ha : a ∈ index) :
    index.find? (fun d => d.id = a.id) = some a := by
  cases hfind : index.find? fun d => d.id = a.id with
  | none => exact absurd (decide_eq_true rfl) (find?_eq_none.mp hfind a ha)
  | some b =>
    have hid : b.id = a.id := of_decide_eq_true (find?_some hfind :)
    rw [inj_on_of_nodup_map hids (mem_of_find?_eq_some hfind) ha hid]

include hids in
theorem page_rowsFrom (m : ℕ) :
    page index (some since) true pageSize (((rowsFrom index since).take m).getLast?.map Doc.id) =
      if ((rowsFrom index since).take m).getLast? = none then some ((rowsFrom index since).take pageSize)
      else some (((rowsFrom index since).drop m).take pageSize) := by
  have hrows : ((sortByKey Doc.key index).filter fun d => (some since).all fun s => s ≤ d.createdAt) =
    rowsFrom index since := rfl
  cases hlast : ((rowsFrom index since).take m).getLast? with
  | none =>
    rw [if_pos rfl]
    unfold page
    dsimp only
    rw [hrows]
    rfl
  | some a =>
    have ha : a ∈ index := (mem_rowsFrom.mp (mem_of_mem_take (mem_of_getLast? hlast))).1
    rw [if_neg (by simp), Option.map_some]
    unfold page
    dsimp only
    rw [hrows, find?_id hids ha, Option.map_some, if_pos rfl, filter_lt_getLast (pairwise_rowsFrom hids since) hlast]

include hids in
theorem readPages_spec (stop : ℕ → Bool) (n : ℕ) {m : ℕ}
    (hfull : pageSize * m ≤ (rowsFrom index since).length) : ∃ k ≤ m + n,
    readPages index since stop n ((rowsFrom index since).take (pageSize * m)) =
      some ((rowsFrom index since).take (pageSize * k)) ∧
    ((∀ i, stop i = false) → k = m + n ∨ (rowsFrom index since).length < pageSize * k) := by
  induction n generalizing m with
  | zero => exact ⟨m, le_rfl, rfl, fun _ => .inl rfl⟩
  | succ n ih =>
    have hpage : page index (some since) true pageSize
        (((rowsFrom index since).take (pageSize * m)).getLast?.map Doc.id) =
        some (((rowsFrom index since).drop (pageSize * m)).take pageSize) := by
      rw [page_rowsFrom hids]
      split
      · next hnone =>
        have hempty := congrArg List.length (getLast?_eq_none_iff.mp hnone)
        rw [length_take, min_eq_left hfull, length_nil] at hempty
        rw [hempty, drop_zero]
      · rfl
    have hjoin : (rowsFrom index since).take (pageSize * m) ++
      ((rowsFrom index since).drop (pageSize * m)).take pageSize =
        (rowsFrom index since).take (pageSize * (m + 1)) := by
      rw [Nat.mul_succ, take_add]
    rw [readPages, hpage]
    simp only [Option.bind_eq_bind, Option.bind_some, Option.pure_def, hjoin, length_take, length_drop]
    split
    · next hlast =>
      refine ⟨m + 1, by omega, rfl, fun hstop => ?_⟩
      rw [hstop n] at hlast
      simp only [Bool.false_eq_true, or_false] at hlast
      have hmul : pageSize * (m + 1) = pageSize * m + pageSize := Nat.mul_succ pageSize m
      omega
    · next hmore =>
      rw [not_or] at hmore
      have hmul : pageSize * (m + 1) = pageSize * m + pageSize := Nat.mul_succ pageSize m
      obtain ⟨k, hk, heq, hend⟩ := ih (m := m + 1) (by omega)
      exact ⟨k, by omega, heq, fun hstop => (hend hstop).imp_left fun hk => by omega⟩

include hids in
theorem readRuns_spec (since : ℕ) (stop : ℕ → Bool) : ∃ m,
    readRuns index since stop = some ((rowsFrom index since).take m) ∧
    ((∀ i, stop i = false) → (rowsFrom index since).take m = (rowsFrom index since).take (pageSize * maxPages)) := by
  have hnone : pageSize * 0 ≤ (rowsFrom index since).length := Nat.zero_le _
  obtain ⟨k, hk, heq, hend⟩ := readPages_spec hids stop maxPages hnone
  refine ⟨pageSize * k, heq, fun hstop => ?_⟩
  rw [zero_add] at hk hend
  rcases hend hstop with rfl | hshort
  · rfl
  · rw [take_of_length_le hshort.le, take_of_length_le (hshort.le.trans (Nat.mul_le_mul_left _ hk))]

end Reads

/-! ### Where a read starts -/

section ReadFrom

theorem countP_lt_of_getElem? {l : List ℕ} (hl : l.Pairwise fun a b => b ≤ a) {n x : ℕ} (hx : l[n]? = some x) :
    l.countP (fun y => x < y) ≤ n ∧ ∀ z < x, n < l.countP fun y => z < y := by
  obtain ⟨hlt, hget⟩ := List.getElem?_eq_some_iff.mp hx
  have hparts := hl
  rw [← take_append_drop n l, drop_eq_getElem_cons hlt, hget, pairwise_append] at hparts
  obtain ⟨-, hrest, hcross⟩ := hparts
  have hsplit (p : ℕ → Bool) : l.countP p = (l.take n).countP p + (x :: l.drop (n + 1)).countP p := by
    conv_lhs => rw [← take_append_drop n l, drop_eq_getElem_cons hlt, hget, countP_append]
  have hlength : (l.take n).length = n := by
    rw [length_take]
    omega
  constructor
  · have hzero : (x :: l.drop (n + 1)).countP (fun y => x < y) = 0 := by
      refine countP_eq_zero.mpr fun y hy => ?_
      rcases mem_cons.mp hy with rfl | hy
      · simp
      · simpa using (pairwise_cons.mp hrest).1 y hy
    rw [hsplit, hzero, add_zero]
    exact countP_le_length.trans hlength.le
  · intro z hz
    have hall : (l.take n).countP (fun y => z < y) = (l.take n).length :=
      countP_eq_length.mpr fun y hy => decide_eq_true (hz.trans_le (hcross y hy x mem_cons_self))
    have hone : 0 < (x :: l.drop (n + 1)).countP fun y => z < y :=
      countP_pos_iff.mpr ⟨x, mem_cons_self, decide_eq_true hz⟩
    rw [hsplit, hall, hlength]
    omega

variable {prev : HeadRuns}

/-- The times of the runs kept, newest first. -/
def newestTimes (prev : HeadRuns) : List ℕ := (sortByKey id (prev.values.map RunSeen.time)).reverse

theorem mem_newestTimes {t : ℕ} : t ∈ newestTimes prev ↔ ∃ x ∈ prev.values, x.time = t := by
  rw [newestTimes, mem_reverse, mem_sortByKey, mem_map]

theorem pairwise_newestTimes (prev : HeadRuns) : (newestTimes prev).Pairwise fun a b => b ≤ a :=
  pairwise_reverse.mpr (pairwise_sortByKey id _)

theorem countP_newestTimes (prev : HeadRuns) (p : ℕ → Bool) :
    (newestTimes prev).countP p = prev.values.countP fun x => p x.time := by
  have hperm : (newestTimes prev).Perm (prev.values.map RunSeen.time) := (reverse_perm _).trans (perm_sortByKey _ _)
  rw [hperm.countP_eq, countP_map]
  rfl

/-- The read starts at the oldest open run or the newest one, or later where that is too far back. -/
theorem readFrom_eq (prev : HeadRuns) (floor : ℕ) : (prev.values = [] ∧ readFrom prev floor = floor) ∨
    ∃ start, (∃ x ∈ prev.values, x.time = start) ∧
      (∀ x ∈ prev.values, x.done = false → x.missing = false → start ≤ x.time) ∧
      readFrom prev floor = max start (((newestTimes prev)[maxRunsPerHead - 1]?).getD 0) := by
  unfold readFrom
  split
  · next hnil =>
    refine .inl ⟨?_, rfl⟩
    have hempty : newestTimes prev = [] := hnil
    refine eq_nil_iff_forall_not_mem.mpr fun x hx => ?_
    have hmem := mem_newestTimes.mpr ⟨x, hx, rfl⟩
    rw [hempty] at hmem
    cases hmem
  · next newest older hcons =>
    have htimes : newestTimes prev = newest :: older := hcons
    refine .inr ⟨_, ?_, ?_, by rw [htimes]⟩
    · cases hmin : ((prev.values.filter fun r => !r.done && !r.missing).map RunSeen.time).min? with
      | none => exact mem_newestTimes.mp (htimes ▸ mem_cons_self)
      | some t =>
        obtain ⟨x, hx, heq⟩ := mem_map.mp (min?_mem hmin)
        exact ⟨x, mem_of_mem_filter hx, heq⟩
    · intro x hx hdone hmissing
      have hopen : x.time ∈ (prev.values.filter fun r => !r.done && !r.missing).map RunSeen.time :=
        mem_map_of_mem (mem_filter.mpr ⟨hx, by rw [hdone, hmissing]; rfl⟩)
      cases hmin : ((prev.values.filter fun r => !r.done && !r.missing).map RunSeen.time).min? with
      | none =>
        rw [min?_eq_none_iff.mp hmin] at hopen
        cases hopen
      | some t => exact (min?_eq_some_iff.mp hmin).2 _ hopen

/-- A read of a head with runs starts no later than its newest run and no earlier than its oldest one. -/
theorem readFrom_bounds (floor : ℕ) (hne : prev.values ≠ []) : (∃ x ∈ prev.values, readFrom prev floor ≤ x.time) ∧
    ∃ x ∈ prev.values, x.time ≤ readFrom prev floor := by
  obtain ⟨start, ⟨x, hx, hstart⟩, -, heq⟩ := (readFrom_eq prev floor).resolve_left fun h => hne h.1
  refine ⟨?_, x, hx, ?_⟩
  · rw [heq]
    cases hlimit : (newestTimes prev)[maxRunsPerHead - 1]? with
    | none => exact ⟨x, hx, by rw [Option.getD_none, hstart, Nat.max_zero]⟩
    | some t =>
      obtain ⟨y, hy, hty⟩ := mem_newestTimes.mp (mem_of_getElem? hlimit)
      rcases le_total start t with hle | hle
      · exact ⟨y, hy, by rw [Option.getD_some, hty, max_eq_right hle]⟩
      · exact ⟨x, hx, by rw [Option.getD_some, hstart, max_eq_left hle]⟩
  · rw [heq, hstart]
    exact le_max_left _ _

theorem readFrom_le_of_open (floor : ℕ) {x : RunSeen} (hx : x ∈ prev.values) (hdone : x.done = false)
    (hmissing : x.missing = false)
    (hfew : prev.values.countP (fun y => x.time < y.time) < maxRunsPerHead) : readFrom prev floor ≤ x.time := by
  have hne : prev.values ≠ [] := ne_nil_of_mem hx
  obtain ⟨start, -, hopen, heq⟩ := (readFrom_eq prev floor).resolve_left fun h => hne h.1
  rw [heq]
  refine max_le (hopen x hx hdone hmissing) ?_
  cases hlimit : (newestTimes prev)[maxRunsPerHead - 1]? with
  | none => exact Nat.zero_le _
  | some t =>
    rw [Option.getD_some]
    by_contra hlt
    have hcount := (countP_lt_of_getElem? (pairwise_newestTimes prev) hlimit).2 x.time (Nat.lt_of_not_le hlt)
    rw [countP_newestTimes] at hcount
    omega

theorem countP_readFrom_lt (floor : ℕ) (hties : ∀ t, prev.values.countP (fun x => x.time = t) ≤ pageSize) :
    prev.values.countP (fun x => readFrom prev floor ≤ x.time) < pageSize * maxPages := by
  have hpages : pageSize * maxPages = maxRunsPerHead + pageSize := rfl
  have hpos : 0 < maxRunsPerHead := by decide
  rcases readFrom_eq prev floor with ⟨hnil, -⟩ | ⟨start, -, -, heq⟩
  · rw [hnil, countP_nil]
    omega
  cases hlimit : (newestTimes prev)[maxRunsPerHead - 1]? with
  | none =>
    have hshort := List.getElem?_eq_none_iff.mp hlimit
    have hlength : (newestTimes prev).length =
      prev.values.length := by simp [newestTimes, (perm_sortByKey _ _).length_eq]
    have := countP_le_length (p := fun x => decide (readFrom prev floor ≤ x.time)) (l := prev.values)
    omega
  | some t =>
    have hcount := (countP_lt_of_getElem? (pairwise_newestTimes prev) hlimit).1
    rw [countP_newestTimes] at hcount
    -- They are newer than the oldest of the newest ones, or of its time.
    have hsplit : prev.values.countP (fun x => readFrom prev floor ≤ x.time) ≤
        prev.values.countP (fun x => t < x.time) + prev.values.countP fun x => x.time = t := by
      rw [heq, hlimit, Option.getD_some]
      induction prev.values with
      | nil => exact le_rfl
      | cons x l ih =>
        simp only [countP_cons]
        have hone : (if decide (max start t ≤ x.time) = true then 1 else 0) ≤
            (if decide (t < x.time) = true then 1 else 0) + if decide (x.time = t) = true then 1 else 0 := by
          simp only [decide_eq_true_eq]
          split <;> split <;> split <;> omega
        omega
    have := hties t
    omega

end ReadFrom

/-! ### What a read makes of a run -/

/-- The events of one run that was read. -/
def eventsOf (prev : HeadRuns) (since : ℕ) (d : CheckRun) : List (CheckRunAction × CheckRun) :=
  match prev.lookup d.id with
  | some seen => if seen.rev < rev d ∧ isDone d ∧ !seen.done then [(.completed, d)] else []
  | none => if since ≤ d.createdAt then (.created, d) :: (if isDone d then [(.completed, d)] else []) else []

/-- What is seen of a run that was read. -/
def seenAs (prev : HeadRuns) (d : CheckRun) : RunSeen :=
  match prev.lookup d.id with
  | some seen => if rev d < seen.rev then { seen with missing := false } else seenNow d
  | none => seenNow d

/-- A run that the read covered and did not return, before one that it returned. -/
def markMissing (start reached : ℕ) (r : RunSeen) : RunSeen :=
  if start ≤ r.time ∧ r.time < reached then { r with missing := true } else r

/-- What is seen after a read, before runs are dropped. -/
def compared (prev : HeadRuns) (docs : List CheckRun) (start : ℕ) : HeadRuns :=
  (prev.mapVals fun _ r =>
    markMissing start ((((sortByKey Doc.key docs).getLast?.map Doc.createdAt).getD 0)) r).insertAll
    ((sortByKey Doc.key docs).map fun d => (d.id, seenAs prev d))

section Diff

variable {prev : HeadRuns} {docs : List CheckRun} {since start : ℕ}

theorem see_eq (prev : HeadRuns) (since : ℕ) (acc : List (CheckRunAction × CheckRun) × HeadRuns) (d : CheckRun) :
    see prev since acc d = (acc.1 ++ eventsOf prev since d, acc.2.insert d.id (seenAs prev d)) := by
  unfold see eventsOf seenAs
  split
  · next seen _ =>
    split
    · next hlag => rw [if_neg (fun h => absurd h.1 (not_lt.mpr hlag.le)), append_nil]
    · split
      · rfl
      · rw [append_nil]
  · split
    · rfl
    · rw [append_nil]

theorem foldl_see (prev : HeadRuns) (since : ℕ) (docs : List CheckRun)
    (acc : List (CheckRunAction × CheckRun) × HeadRuns) :
    docs.foldl (see prev since) acc = (acc.1 ++ docs.flatMap (eventsOf prev since),
      acc.2.insertAll (docs.map fun d => (d.id, seenAs prev d))) := by
  induction docs generalizing acc with
  | nil => rw [flatMap_nil, append_nil]; rfl
  | cons d docs ih =>
    rw [foldl_cons, see_eq, ih, flatMap_cons, append_assoc]
    rfl

/-- A read tells the events of its runs in order, and keeps the runs from where the next read would start. -/
theorem diff_eq (prev : HeadRuns) (docs : List CheckRun) (since start : ℕ) : diff prev docs since start =
    ((sortByKey Doc.key docs).flatMap (eventsOf prev since),
      (compared prev docs start).filter fun _ r => decide (readFrom (compared prev docs start) since ≤ r.time)) := by
  unfold diff
  dsimp only
  rw [foldl_see]
  rfl

theorem lookup_compared_of_mem (hids : (docs.map Doc.id).Nodup) {d : CheckRun} (hd : d ∈ docs) :
    (compared prev docs start).lookup d.id = some (seenAs prev d) := by
  have hperm := perm_sortByKey Doc.key docs
  have hids' : (((sortByKey Doc.key docs).map fun d => (d.id, seenAs prev d)).map Prod.fst).Nodup := by
    rw [map_map]
    exact (hperm.map Doc.id).nodup_iff.mpr hids
  exact SortedMap.lookup_insertAll_of_mem _ hids' (mem_map.mpr ⟨d, hperm.mem_iff.mpr hd, rfl⟩)

theorem lookup_compared_of_notMem {id : String} (hid : id ∉ docs.map Doc.id) : (compared prev docs start).lookup id =
    (prev.lookup id).map (markMissing start ((((sortByKey Doc.key docs).getLast?.map Doc.createdAt).getD 0))) := by
  have hid' : id ∉ ((sortByKey Doc.key docs).map fun d => (d.id, seenAs prev d)).map Prod.fst := by
    rw [map_map]
    intro hmem
    obtain ⟨d, hd, heq⟩ := mem_map.mp hmem
    exact hid (mem_map.mpr ⟨d, (mem_sortByKey _).mp hd, heq⟩)
  exact (SortedMap.lookup_insertAll_of_notMem _ hid').trans (SortedMap.lookup_mapVals _ _ _)

end Diff

end DashForge.CheckRuns
