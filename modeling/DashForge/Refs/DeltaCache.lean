import DashForge.Data.SortBy
import Mathlib.Algebra.Order.BigOperators.Group.Finset

/-!
# The delta cache

Rows of the append-only types are kept in a copy, and a sync reads only what landed since: a page of the
rows with `$createdAt >= cursor`, again while pages are full (`history.rs`). `Pending.absorb` takes one
page; a full page that cannot move the cursor is answered by a complete read.

The chain of a type is a list that rows only join, with times that only grow (`Chain`). A run interleaves
landings with any number of syncs of several types (`Step`), and a copy never misses a row below its cursor
(`Holds`). So a type's copy is the chain its last page was read from, and the page loop ends
(`deltaCache_exact`).
-/

namespace DashForge.DeltaCache

open List Option Function

/-! ### Rows and pages -/

/-- Rows per delta page. -/
def page : ℕ := 100

/-- A fetched document: its id, its `$createdAt` and the rest. -/
structure Row (α : Type) where
  id : String
  createdAt : Option ℕ
  fields : α

variable {α : Type}

def Row.time (r : Row α) : ℕ := r.createdAt.getD 0

/-- The position of a row in a copy. -/
def Row.key (r : Row α) : ℕ ×ₗ String := toLex (r.time, r.id)

/-- The newest `$createdAt` of rows. -/
def newest (rows : List (Row α)) : Option ℕ := (rows.filterMap Row.createdAt).max?

/-- Where one type's sync stands. -/
structure Pending (α : Type) where
  rows : List (Row α)
  held : Finset String
  cursor : Option ℕ
  changed : Bool
  done : Bool

inductive Absorbed where
  | complete
  | more
  | stuck
deriving DecidableEq, Repr

/-- The rows of a page whose ids are not held. -/
def freshOf : Finset String → List (Row α) → List (Row α)
  | _, [] => []
  | held, d :: rest => if d.id ∈ held then freshOf held rest else d :: freshOf (insert d.id held) rest

namespace Pending

/-- The start of a sync from a copy. -/
def new (rows : List (Row α)) : Pending α :=
  ⟨rows, (rows.map Row.id).toFinset, newest rows, false, false⟩

/-- The rows of a page are taken. -/
def add (p : Pending α) (rows : List (Row α)) : Pending α :=
  match freshOf p.held rows with
  | [] => p
  | fresh => { p with
      rows := sortByKey Row.key (p.rows ++ fresh)
      held := p.held ∪ (fresh.map Row.id).toFinset
      changed := true }

/-- Take one page. -/
def absorb (p : Pending α) (rows : List (Row α)) : Pending α × Absorbed :=
  let taken := p.add rows
  if rows.length < page then ({ taken with done := true }, .complete)
  else
    match newest rows with
    | some t => if p.cursor.all fun c => c < t then ({ taken with cursor := some t }, .more) else (taken, .stuck)
    | none => (taken, .stuck)

/-- What a complete read gives. -/
def whole (rows : List (Row α)) : Pending α :=
  { ((new []).absorb rows).1 with
    changed := true
    done := true }

end Pending

inductive Freshness where
  | now
  | synced
deriving DecidableEq, Repr

/-- Whether a sync must read a copy this process has or has not brought up to date. -/
def needsRead : Freshness → Bool → Bool
  | .now, _ => true
  | .synced, isSynced => !isSynced

/-! ### The platform -/

/-- The rows of a type on the platform, in the order they landed. -/
structure Chain (α : Type) where
  rows : List (Row α)
  nodup : (rows.map Row.id).Nodup
  timed : ∀ r ∈ rows, r.createdAt.isSome
  ordered : rows.Pairwise fun a b => a.time ≤ b.time

/-- A row may land: a new id, and a time not below any that landed. -/
structure Chain.Lands (chain : Chain α) (r : Row α) : Prop where
  fresh : r.id ∉ chain.rows.map Row.id
  timed : r.createdAt.isSome
  after : ∀ r' ∈ chain.rows, r'.time ≤ r.time

def Chain.land (chain : Chain α) (r : Row α) (h : chain.Lands r) : Chain α where
  rows := chain.rows ++ [r]
  nodup := by
    rw [map_append, nodup_append]
    refine ⟨chain.nodup, nodup_singleton _, ?_⟩
    rintro x hx _ hy rfl
    obtain rfl : x = r.id := mem_singleton.mp hy
    exact h.fresh hx
  timed := by
    intro r' hr'
    rcases mem_append.mp hr' with hr' | hr'
    · exact chain.timed r' hr'
    · rw [mem_singleton.mp hr']
      exact h.timed
  ordered := by
    refine pairwise_append.mpr ⟨chain.ordered, pairwise_singleton _ _, fun a ha b hb => ?_⟩
    rw [mem_singleton.mp hb]
    exact h.after a ha

/-- A delta read: the first rows at or after the cursor, in ascending time, ties in any order. -/
def DeltaRead (chain : Chain α) (cursor : Option ℕ) (rows : List (Row α)) : Prop :=
  ∃ order : List (Row α), order.Perm (chain.rows.filter fun r => cursor.all fun c => c ≤ r.time) ∧
    (order.Pairwise fun a b => a.time ≤ b.time) ∧ rows = order.take page

/-! ### Runs -/

/-- Where the sync of a type stands, seen from the page loop. -/
inductive Phase (α : Type) where
  | idle
  | running (p : Pending α)
  /-- The answer to a request, not absorbed yet, and the chain it was read from. -/
  | fetched (p : Pending α) (rows : List (Row α)) (seen : Chain α)
  /-- Waiting for a complete read. -/
  | stuck

/-- Nothing is left to read. -/
def Phase.Finished : Phase α → Prop
  | .idle => True
  | .running p => p.done = true
  | _ => False

/-- The phase after a page was absorbed. -/
def Phase.absorbed (p : Pending α) (rows : List (Row α)) : Phase α :=
  match p.absorb rows with
  | (_, .stuck) => .stuck
  | (p', _) => .running p'

/-- The platform's rows, the copies syncs saved, the types this process brought up to date, and any number of
syncs. -/
structure State (κ τ α : Type) where
  chain : τ → Chain α
  saved : τ → List (List (Row α))
  synced : τ → Bool
  phase : κ → τ → Phase α

variable {κ τ : Type} [DecidableEq κ] [DecidableEq τ]

namespace State

def setPhase (s : State κ τ α) (k : κ) (i : τ) (ph : Phase α) : State κ τ α :=
  { s with phase := update s.phase k (update (s.phase k) i ph) }

def land (s : State κ τ α) (i : τ) (r : Row α) (h : (s.chain i).Lands r) : State κ τ α :=
  { s with chain := update s.chain i ((s.chain i).land r h) }

/-- A sync of `specs` starts from the copies it loads. -/
def start (s : State κ τ α) (k : κ) (specs : Finset τ) (copy : τ → List (Row α)) (freshness : Freshness) :
    State κ τ α :=
  { s with phase := update s.phase k fun i =>
      if i ∈ specs then .running { Pending.new (copy i) with done := !needsRead freshness (s.synced i) } else .idle }

/-- One request is answered: a page for every type still behind. -/
def request (s : State κ τ α) (k : κ) (pages : τ → List (Row α)) : State κ τ α :=
  { s with phase := update s.phase k fun i =>
      match s.phase k i with
      | .running p => if p.done then .running p else .fetched p (pages i) (s.chain i)
      | ph => ph }

/-- The rows a finished sync saves for a type. -/
def copies (s : State κ τ α) (k : κ) (i : τ) : List (List (Row α)) :=
  match s.phase k i with
  | .running p => [p.rows]
  | _ => []

def save (s : State κ τ α) (k : κ) : State κ τ α where
  chain := s.chain
  saved i := s.copies k i ++ s.saved i
  synced i := s.synced i || !(s.copies k i).isEmpty
  phase := update s.phase k fun _ => .idle

end State

/-- A step of the page loop of one sync. A type whose page could not move the cursor is read completely before
the next page is absorbed. -/
inductive LoopStep (k : κ) : State κ τ α → State κ τ α → Prop
  | request (s : State κ τ α) (pages : τ → List (Row α))
      (hphase : ∀ i, (s.phase k i).Finished ∨ ∃ p, s.phase k i = .running p)
      (hbehind : ∃ i, ¬(s.phase k i).Finished)
      (hread : ∀ i p, s.phase k i = .running p → p.done = false → DeltaRead (s.chain i) p.cursor (pages i)) :
      LoopStep k s (s.request k pages)
  | absorb (s : State κ τ α) (i : τ) (p : Pending α) (rows : List (Row α)) (seen : Chain α)
      (hphase : s.phase k i = .fetched p rows seen) (hstuck : ∀ j, s.phase k j ≠ .stuck) :
      LoopStep k s (s.setPhase k i (.absorbed p rows))
  | whole (s : State κ τ α) (i : τ) (rows : List (Row α)) (hphase : s.phase k i = .stuck)
      (hall : rows.Perm (s.chain i).rows) : LoopStep k s (s.setPhase k i (.running (Pending.whole rows)))

inductive Step : State κ τ α → State κ τ α → Prop
  | land (s : State κ τ α) (i : τ) (r : Row α) (h : (s.chain i).Lands r) : Step s (s.land i r h)
  /-- From no copy, or one saved before. -/
  | start (s : State κ τ α) (k : κ) (specs : Finset τ) (copy : τ → List (Row α)) (freshness : Freshness)
      (hidle : ∀ i, s.phase k i = .idle) (hcopy : ∀ i ∈ specs, copy i = [] ∨ copy i ∈ s.saved i) :
      Step s (s.start k specs copy freshness)
  | loop {s s' : State κ τ α} (k : κ) (h : LoopStep k s s') : Step s s'
  | save (s : State κ τ α) (k : κ) (hdone : ∀ i, (s.phase k i).Finished) : Step s (s.save k)
  /-- A request fails, and the sync with it. -/
  | fail (s : State κ τ α) (k : κ) : Step s { s with phase := update s.phase k fun _ => .idle }
  /-- A new process, with the copies of the old one. -/
  | restart (s : State κ τ α) : Step s { s with synced := fun _ => false, phase := fun _ _ => .idle }

/-- The states of runs from empty stores. -/
inductive Reachable : State κ τ α → Prop
  | init (s : State κ τ α) (hsaved : ∀ i, s.saved i = []) (hsynced : ∀ i, s.synced i = false)
      (hphase : ∀ k i, s.phase k i = .idle) : Reachable s
  | step {s s' : State κ τ α} (hs : Reachable s) (h : Step s s') : Reachable s'

/-! ### Pages -/

variable {chain seen : Chain α} {r : Row α} {rows : List (Row α)} {cursor : Option ℕ} {p : Pending α}
  {s s' : State κ τ α} {k : κ} {i : τ}

theorem createdAt_of_mem (h : r ∈ chain.rows) : r.createdAt = some r.time := by
  obtain ⟨t, ht⟩ := isSome_iff_exists.mp (chain.timed r h)
  simp [Row.time, ht]

theorem eq_of_id_eq {a b : Row α} (ha : a ∈ chain.rows) (hb : b ∈ chain.rows) (h : a.id = b.id) : a = b :=
  inj_on_of_nodup_map chain.nodup ha hb h

/-- The newest time of rows on the chain is one of them. -/
theorem newest_spec (hsub : ∀ r ∈ rows, r ∈ chain.rows) {t : ℕ}
    (h : newest rows = some t) : (∃ r ∈ rows, r.time = t) ∧ ∀ r ∈ rows, r.time ≤ t := by
  obtain ⟨hmem, hmax⟩ := max?_eq_some_iff.mp h
  obtain ⟨r, hr, hrt⟩ := mem_filterMap.mp hmem
  refine ⟨⟨r, hr, by simp [Row.time, hrt]⟩, fun r' hr' => ?_⟩
  exact hmax _ (mem_filterMap.mpr ⟨r', hr', createdAt_of_mem (hsub r' hr')⟩)

/-- A page is part of the chain. -/
theorem DeltaRead.sub (h : DeltaRead chain cursor rows) (hr : r ∈ rows) : r ∈ chain.rows := by
  obtain ⟨order, hperm, -, rfl⟩ := h
  exact mem_of_mem_filter (hperm.mem_iff.mp (mem_of_mem_take hr))

theorem DeltaRead.mem_of_short (h : DeltaRead chain cursor rows) (hshort : rows.length < page) (hr : r ∈ chain.rows)
    (hc : ∀ c ∈ cursor, c ≤ r.time) : r ∈ rows := by
  obtain ⟨order, hperm, -, rfl⟩ := h
  have hlen : order.length ≤ page := by
    rw [length_take] at hshort
    omega
  rw [take_of_length_le hlen, hperm.mem_iff, mem_filter]
  exact ⟨hr, by cases cursor <;> simp_all⟩

theorem DeltaRead.mem_of_lt
    (h : DeltaRead chain cursor rows) {a : Row α} (hr : r ∈ chain.rows) (hc : ∀ c ∈ cursor, c ≤ r.time)
    (ha : a ∈ rows) (hlt : r.time < a.time) : r ∈ rows := by
  obtain ⟨order, hperm, hsorted, rfl⟩ := h
  have hmem : r ∈ order := by
    rw [hperm.mem_iff, mem_filter]
    exact ⟨hr, by cases cursor <;> simp_all⟩
  rw [← take_append_drop page order, mem_append] at hmem
  rcases hmem with hmem | hmem
  · exact hmem
  · rw [← take_append_drop page order] at hsorted
    have hle := (pairwise_append.mp hsorted).2.2 a ha r hmem
    omega

theorem exists_deltaRead (chain : Chain α) (cursor : Option ℕ) : ∃ rows, DeltaRead chain cursor rows :=
  ⟨_, sortByKey Row.time _, perm_sortByKey Row.time _, pairwise_sortByKey Row.time _, rfl⟩

/-! ### Absorbing a page -/

theorem freshOf_spec (held : Finset String) (rows : List (Row α)) :
    (∀ r ∈ freshOf held rows, r ∈ rows) ∧ (∀ r ∈ freshOf held rows, r.id ∉ held) ∧
      ((freshOf held rows).map Row.id).Nodup ∧ ∀ r ∈ rows, r.id ∈ held ∨ r.id ∈ (freshOf held rows).map Row.id := by
  induction rows generalizing held with
  | nil => simp [freshOf]
  | cons d rest ih =>
    rw [freshOf]
    split_ifs with hd
    · obtain ⟨hsub, hnot, hnodup, hall⟩ := ih held
      refine ⟨fun r hr => mem_cons_of_mem d (hsub r hr), hnot, hnodup, fun r hr => ?_⟩
      rcases mem_cons.mp hr with rfl | hr
      · exact .inl hd
      · exact hall r hr
    · obtain ⟨hsub, hnot, hnodup, hall⟩ := ih (insert d.id held)
      refine ⟨fun r hr => ?_, fun r hr => ?_, ?_, fun r hr => ?_⟩
      · rcases mem_cons.mp hr with rfl | hr
        · exact mem_cons_self
        · exact mem_cons_of_mem d (hsub r hr)
      · rcases mem_cons.mp hr with rfl | hr
        · exact hd
        · exact fun hmem => hnot r hr (Finset.mem_insert_of_mem hmem)
      · refine nodup_cons.mpr ⟨fun hmem => ?_, hnodup⟩
        obtain ⟨r, hr, hid⟩ := List.mem_map.mp hmem
        exact hnot r hr (hid ▸ Finset.mem_insert_self _ _)
      · rcases mem_cons.mp hr with rfl | hr
        · exact .inr (by simp)
        · rcases hall r hr with hmem | hmem
          · rcases Finset.mem_insert.mp hmem with heq | hmem
            · exact .inr (by simp [heq])
            · exact .inl hmem
          · exact .inr (mem_cons_of_mem _ hmem)

/-- A copy of rows of the chain: each once, in order, and none missing below the cursor. -/
structure Holds (chain : Chain α) (rows : List (Row α)) (cursor : Option ℕ) : Prop where
  sub : ∀ r ∈ rows, r ∈ chain.rows
  nodup : (rows.map Row.id).Nodup
  sorted : rows.Pairwise fun a b => a.key < b.key
  below : ∀ c ∈ cursor, ∀ r ∈ chain.rows, r.time < c → r ∈ rows
  /-- The chain reached the cursor, so nothing lands below it any more. -/
  reached : ∀ c ∈ cursor, ∃ r ∈ chain.rows, c ≤ r.time

/-- The copy is the chain: every row once, in order. -/
structure Exact (chain : Chain α) (rows : List (Row α)) : Prop where
  perm : rows.Perm chain.rows
  sorted : rows.Pairwise fun a b => a.key < b.key

theorem holds_nil (chain : Chain α) : Holds chain [] none :=
  ⟨by simp, by simp, List.Pairwise.nil, by simp, by simp⟩

/-- What lands later lands at or after the cursor. -/
theorem Holds.mono (h : Holds seen rows cursor) (hle : seen.rows <+: chain.rows) : Holds chain rows cursor := by
  refine ⟨fun r hr => hle.subset (h.sub r hr), h.nodup, h.sorted, fun c hc r hr hlt => ?_, fun c hc => ?_⟩
  · obtain ⟨later, heq⟩ := hle
    obtain ⟨a, ha, hca⟩ := h.reached c hc
    rw [← heq, mem_append] at hr
    rcases hr with hr | hr
    · exact h.below c hc r hr hlt
    · have hordered := chain.ordered
      rw [← heq] at hordered
      have hle := (pairwise_append.mp hordered).2.2 a ha r hr
      omega
  · obtain ⟨a, ha, hca⟩ := h.reached c hc
    exact ⟨a, hle.subset ha, hca⟩

theorem Exact.holds (h : Exact chain rows)
    (hreached : ∀ c ∈ cursor, ∃ r ∈ chain.rows, c ≤ r.time) : Holds chain rows cursor where
  sub _ hr := h.perm.mem_iff.mp hr
  nodup := ((h.perm.map Row.id).nodup_iff).mpr chain.nodup
  sorted := h.sorted
  below _ _ _ hr _ := h.perm.mem_iff.mpr hr
  reached := hreached

theorem Exact.holds_newest (h : Exact chain rows) : Holds chain rows (newest rows) := by
  refine h.holds fun c hc => ?_
  obtain ⟨⟨r, hr, hrc⟩, -⟩ := newest_spec (fun r hr => h.perm.mem_iff.mp hr) hc
  exact ⟨r, h.perm.mem_iff.mp hr, hrc.ge⟩

theorem pairwise_sort (h : (rows.map Row.id).Nodup) : (sortByKey Row.key rows).Pairwise fun a b => a.key < b.key := by
  have hnodup : ((sortByKey Row.key rows).map Row.id).Nodup :=
    ((perm_sortByKey Row.key rows).map Row.id).nodup_iff.mpr h
  refine (pairwise_sortByKey Row.key rows).imp₂ (fun a b hle hne => ?_) (pairwise_map.mp hnodup)
  refine lt_of_le_of_ne hle fun heq => hne ?_
  exact (Prod.ext_iff.mp (toLex.injective heq)).2

/-- A sync in progress knows the ids it has. -/
def Pending.Tracks (p : Pending α) : Prop := p.held = (p.rows.map Row.id).toFinset

/-- Taking rows of the chain adds those that were missing. -/
theorem Pending.add_spec (ht : p.Tracks) (h : Holds chain p.rows p.cursor) (hsub : ∀ r ∈ rows, r ∈ chain.rows) :
    (p.add rows).Tracks ∧ (∀ r, r ∈ (p.add rows).rows ↔ r ∈ p.rows ∨ r ∈ rows) ∧
      ((p.add rows).rows.map Row.id).Nodup ∧ (p.add rows).rows.Pairwise fun a b => a.key < b.key := by
  obtain ⟨hfresh, hnot, hnodup, hall⟩ := freshOf_spec p.held rows
  rw [ht] at hnot hall hnodup hfresh
  -- the chain has an id once, so a row with a held id is held
  have hmem : ∀ r, r ∈ p.rows ∨ r ∈ freshOf p.held rows ↔ r ∈ p.rows ∨ r ∈ rows := by
    rw [ht]
    refine fun r => ⟨Or.imp_right (hfresh r), ?_⟩
    rintro (hr | hr)
    · exact .inl hr
    · rcases hall r hr with hid | hid
      · obtain ⟨r', hr', heq⟩ := List.mem_map.mp (mem_toFinset.mp hid)
        exact .inl (eq_of_id_eq (h.sub r' hr') (hsub r hr) heq ▸ hr')
      · obtain ⟨r', hr', heq⟩ := List.mem_map.mp hid
        exact .inr (eq_of_id_eq (hsub r' (hfresh r' hr')) (hsub r hr) heq ▸ hr')
  have hids : ((p.rows ++ freshOf p.held rows).map Row.id).Nodup := by
    rw [ht, map_append, nodup_append]
    refine ⟨h.nodup, hnodup, ?_⟩
    rintro a ha b hb rfl
    obtain ⟨r, hr, rfl⟩ := List.mem_map.mp hb
    exact hnot r hr (mem_toFinset.mpr ha)
  rw [Pending.add]
  split
  · next hnil =>
    simp only [hnil, not_mem_nil, or_false] at hmem
    exact ⟨ht, hmem, h.nodup, h.sorted⟩
  · have hperm := perm_sortByKey Row.key (p.rows ++ freshOf p.held rows)
    refine ⟨?_, fun r => ?_, ((hperm.map Row.id).nodup_iff).mpr hids, pairwise_sort hids⟩
    · show p.held ∪ _ = _
      rw [toFinset_eq_of_perm _ _ (hperm.map Row.id), map_append, toFinset_append, ht]
    · rw [mem_sortByKey, mem_append]
      exact hmem r

@[simp]
theorem Pending.add_cursor (p : Pending α) (rows : List (Row α)) : (p.add rows).cursor = p.cursor := by
  rw [Pending.add]
  split <;> rfl

/-- What absorbing a page can do. -/
theorem Pending.absorb_cases (p : Pending α) (rows : List (Row α)) :
    (rows.length < page ∧ p.absorb rows = ({ p.add rows with done := true }, .complete)) ∨
    (∃ t, newest rows = some t ∧ (∀ c ∈ p.cursor, c < t) ∧
      p.absorb rows = ({ p.add rows with cursor := some t }, .more)) ∨
    (page ≤ rows.length ∧ (∀ t ∈ newest rows, ∃ c ∈ p.cursor, t ≤ c) ∧ p.absorb rows = (p.add rows, .stuck)) := by
  rw [Pending.absorb]
  split_ifs with hlen
  · exact .inl ⟨hlen, rfl⟩
  · right
    cases hnew : newest rows with
    | none => exact .inr ⟨not_lt.mp hlen, by simp, rfl⟩
    | some t =>
      cases hc : p.cursor with
      | none => exact .inl ⟨t, rfl, by simp, by simp⟩
      | some c =>
        by_cases hct : c < t
        · exact .inl ⟨t, rfl, by simpa using hct, by simp [hct]⟩
        · exact .inr ⟨not_lt.mp hlen, by simpa using not_lt.mp hct, by simp [hct]⟩

section Absorb

variable {chain : Chain α} {p : Pending α} {rows : List (Row α)}

variable (ht : p.Tracks) (h : Holds chain p.rows p.cursor) (hread : DeltaRead chain p.cursor rows)

include ht h hread in
theorem Pending.exact_of_short (hshort : rows.length < page) : Exact chain (p.add rows).rows := by
  obtain ⟨-, hmem, hnodup, hsorted⟩ := add_spec ht h fun r hr => hread.sub hr
  refine ⟨(perm_ext_iff_of_nodup (hnodup.of_map _) (chain.nodup.of_map _)).mpr fun r => ?_, hsorted⟩
  rw [hmem]
  constructor
  · rintro (hr | hr)
    · exact h.sub r hr
    · exact hread.sub hr
  · intro hr
    by_cases hc : ∀ c ∈ p.cursor, c ≤ r.time
    · exact .inr (hread.mem_of_short hshort hr hc)
    · push Not at hc
      obtain ⟨c, hc, hlt⟩ := hc
      exact .inl (h.below c hc r hr hlt)

include ht h hread in
theorem Pending.holds_of_newest {t : ℕ} (hnew : newest rows = some t) :
    Holds chain (p.add rows).rows (some t) := by
  obtain ⟨-, hmem, hnodup, hsorted⟩ := add_spec ht h fun r hr => hread.sub hr
  obtain ⟨⟨a, ha, hat⟩, -⟩ := newest_spec (fun r hr => hread.sub hr) hnew
  refine ⟨fun r hr => ?_, hnodup, hsorted, fun c hc r hr hlt => ?_, fun c hc => ?_⟩
  · rcases (hmem r).mp hr with hr | hr
    · exact h.sub r hr
    · exact hread.sub hr
  · obtain rfl := mem_some_iff.mp hc
    rw [hmem]
    by_cases hc : ∀ c ∈ p.cursor, c ≤ r.time
    · exact .inr (hread.mem_of_lt hr hc ha (hat ▸ hlt))
    · push Not at hc
      obtain ⟨c, hc, hlt⟩ := hc
      exact .inl (h.below c hc r hr hlt)
  · obtain rfl := mem_some_iff.mp hc
    exact ⟨a, hread.sub ha, hat.ge⟩

end Absorb

theorem Pending.exact_whole (hall : rows.Perm chain.rows) :
    (Pending.whole rows).Tracks ∧ Exact chain (Pending.whole rows).rows := by
  have ht : (Pending.new ([] : List (Row α))).Tracks := rfl
  obtain ⟨htracks, hmem, hnodup, hsorted⟩ :=
    Pending.add_spec ht (holds_nil chain) fun r hr => hall.mem_iff.mp hr
  have hrows : (Pending.whole rows).rows = ((Pending.new []).add rows).rows ∧
      (Pending.whole rows).held = ((Pending.new []).add rows).held := by
    rcases Pending.absorb_cases (Pending.new []) rows with ⟨-, h⟩ | ⟨t, -, -, h⟩ | ⟨-, -, h⟩ <;>
      simp [Pending.whole, h]
  refine ⟨?_, ?_, ?_⟩
  · rw [Pending.Tracks, hrows.1, hrows.2]
    exact htracks
  · rw [hrows.1]
    refine (perm_ext_iff_of_nodup (hnodup.of_map _) (chain.nodup.of_map _)).mpr fun r => ?_
    rw [hmem, hall.mem_iff]
    simp [Pending.new]
  · rw [hrows.1]
    exact hsorted

/-! ### The invariant -/

@[simp]
theorem Pending.add_done (p : Pending α) (rows : List (Row α)) : (p.add rows).done = p.done := by
  rw [Pending.add]
  split <;> rfl

/-- What holds of a type's sync. -/
def PhaseInv (chain : Chain α) : Phase α → Prop
  | .running p => p.Tracks ∧ Holds chain p.rows p.cursor ∧ (p.done = true → Holds chain p.rows (newest p.rows))
  | .fetched p rows seen =>
    p.done = false ∧ p.Tracks ∧ Holds seen p.rows p.cursor ∧ DeltaRead seen p.cursor rows ∧ seen.rows <+: chain.rows
  | _ => True

theorem PhaseInv.mono {ph : Phase α} (h : PhaseInv seen ph) (hle : seen.rows <+: chain.rows) : PhaseInv chain ph := by
  cases ph with
  | idle => trivial
  | stuck => trivial
  | running p =>
    obtain ⟨ht, hholds, hdone⟩ := h
    exact ⟨ht, hholds.mono hle, fun hd => (hdone hd).mono hle⟩
  | fetched p rows first =>
    obtain ⟨hd, ht, hholds, hread, hfirst⟩ := h
    exact ⟨hd, ht, hholds, hread, hfirst.trans hle⟩

/-- What a page that was read does to its type: it completes the copy, moves the cursor, or calls for a complete
read. -/
theorem absorbed_cases (h : PhaseInv chain (.fetched p rows seen)) :
    (∃ p', Phase.absorbed p rows = .running p' ∧ p'.Tracks ∧ p'.done = true ∧ p'.cursor = p.cursor ∧
      Exact seen p'.rows) ∨
    (∃ p' t, Phase.absorbed p rows = .running p' ∧ p'.Tracks ∧ p'.done = false ∧ p'.cursor = some t ∧
      (∀ c ∈ p.cursor, c < t) ∧ (∃ r ∈ seen.rows, r.time = t) ∧ Holds seen p'.rows (some t)) ∨
    Phase.absorbed p rows = .stuck := by
  obtain ⟨hd, ht, hholds, hread, -⟩ := h
  obtain ⟨htracks, -⟩ := Pending.add_spec ht hholds fun r hr => hread.sub hr
  rcases p.absorb_cases rows with ⟨hshort, heq⟩ | ⟨t, hnew, hlt, heq⟩ | ⟨-, -, heq⟩
  · refine .inl ⟨{ p.add rows with done := true }, ?_, htracks, rfl, p.add_cursor rows, ?_⟩
    · rw [Phase.absorbed, heq]
    · exact Pending.exact_of_short ht hholds hread hshort
  · refine .inr (.inl ⟨{ p.add rows with cursor := some t }, t, ?_, htracks, ?_, rfl, hlt, ?_, ?_⟩)
    · rw [Phase.absorbed, heq]
    · exact (p.add_done rows).trans hd
    · obtain ⟨⟨r, hr, hrt⟩, -⟩ := newest_spec (fun r hr => hread.sub hr) hnew
      exact ⟨r, hread.sub hr, hrt⟩
    · exact Pending.holds_of_newest ht hholds hread hnew
  · exact .inr (.inr (by rw [Phase.absorbed, heq]))

theorem phaseInv_absorbed (h : PhaseInv chain (.fetched p rows seen)) : PhaseInv chain (.absorbed p rows) := by
  obtain ⟨-, -, hholds, -, hle⟩ := id h
  rcases absorbed_cases h with ⟨p', heq, ht, -, hc, hexact⟩ | ⟨p', t, heq, ht, hd, hc, -, -, hnext⟩ | heq
  · rw [heq]
    exact ⟨ht, (hexact.holds (hc ▸ hholds.reached)).mono hle, fun _ => hexact.holds_newest.mono hle⟩
  · rw [heq]
    exact ⟨ht, (hc ▸ hnext).mono hle, fun h => absurd (hd.symm.trans h) Bool.false_ne_true⟩
  · rw [heq]
    trivial

theorem phaseInv_whole (hall : rows.Perm chain.rows) : PhaseInv chain (.running (Pending.whole rows)) := by
  obtain ⟨ht, hexact⟩ := Pending.exact_whole hall
  refine ⟨ht, hexact.holds fun c hc => ?_, fun _ => hexact.holds_newest⟩
  -- the cursor of a complete read is the newest time, or none
  have hnew : newest rows = some c := by
    rcases Pending.absorb_cases (Pending.new []) rows with ⟨-, h⟩ | ⟨t, hnew, -, h⟩ | ⟨-, -, h⟩
    · simp only [Pending.whole, h, Pending.add_cursor] at hc
      exact absurd hc (by simp [Pending.new, newest])
    · simp only [Pending.whole, h, mem_some_iff] at hc
      rw [hnew, hc]
    · simp only [Pending.whole, h, Pending.add_cursor] at hc
      exact absurd hc (by simp [Pending.new, newest])
  obtain ⟨⟨r, hr, hrc⟩, -⟩ := newest_spec (fun r hr => hall.mem_iff.mp hr) hnew
  exact ⟨r, hall.mem_iff.mp hr, hrc.ge⟩

/-- What holds of every reachable state: a saved copy misses no row below its newest one. -/
structure Inv (s : State κ τ α) : Prop where
  saved : ∀ i, ∀ rows ∈ s.saved i, Holds (s.chain i) rows (newest rows)
  phase : ∀ k i, PhaseInv (s.chain i) (s.phase k i)

omit [DecidableEq τ] in
theorem Inv.withPhase (h : Inv s) {f : τ → Phase α}
    (hf : ∀ i, PhaseInv (s.chain i) (f i)) : Inv { s with phase := update s.phase k f } := by
  refine ⟨h.saved, fun k' i => ?_⟩
  by_cases hk : k' = k
  · subst hk
    simpa using hf i
  · simpa [update_of_ne hk] using h.phase k' i

theorem Inv.setPhase (h : Inv s) {ph : Phase α} (hph : PhaseInv (s.chain i) ph) : Inv (s.setPhase k i ph) := by
  refine h.withPhase fun j => ?_
  by_cases hj : j = i
  · subst hj
    simpa using hph
  · simpa [update_of_ne hj] using h.phase k j

omit [DecidableEq κ] in
theorem prefix_land (h : (s.chain i).Lands r) (j : τ) : (s.chain j).rows <+: ((s.land i r h).chain j).rows := by
  by_cases hj : j = i
  · subst hj
    simp [State.land, Chain.land]
  · simp [State.land, update_of_ne hj]

theorem inv_loopStep (h : Inv s) (hstep : LoopStep k s s') : Inv s' := by
  cases hstep with
  | request pages hphase hbehind hread =>
    refine h.withPhase fun i => ?_
    have hinv := h.phase k i
    cases hp : s.phase k i with
    | running p =>
      rw [hp] at hinv
      by_cases hd : p.done = true
      · simpa [hd] using hinv
      · obtain ⟨ht, hholds, -⟩ := hinv
        have hd' : p.done = false := Bool.eq_false_iff.mpr hd
        simpa [hd', PhaseInv, ht] using ⟨hholds, hread i p hp hd'⟩
    | idle => trivial
    | stuck => trivial
    | fetched p rows seen =>
      rw [hp] at hinv
      exact hinv
  | absorb i p rows seen hphase _ =>
    have hinv := h.phase k i
    rw [hphase] at hinv
    exact h.setPhase (phaseInv_absorbed hinv)
  | whole i rows _ hall => exact h.setPhase (phaseInv_whole hall)

theorem inv_step (h : Inv s) (hstep : Step s s') : Inv s' := by
  cases hstep with
  | land i r hr =>
    exact ⟨fun j rows hrows => (h.saved j rows hrows).mono (prefix_land hr j),
      fun k j => (h.phase k j).mono (prefix_land hr j)⟩
  | start k specs copy freshness _ hcopy =>
    refine h.withPhase fun i => ?_
    split_ifs with hi
    · have hholds : Holds (s.chain i) (copy i) (newest (copy i)) := by
        rcases hcopy i hi with hnil | hsaved
        · rw [hnil]
          exact holds_nil _
        · exact h.saved i _ hsaved
      exact ⟨rfl, hholds, fun _ => hholds⟩
    · trivial
  | loop k hloop => exact inv_loopStep h hloop
  | save k hdone =>
    refine ⟨fun i rows hrows => ?_, (h.withPhase (k := k) (f := fun _ => .idle) fun _ => trivial).phase⟩
    rcases mem_append.mp hrows with hnew | hold
    · have hinv := h.phase k i
      have hfin := hdone i
      rw [State.copies] at hnew
      cases hp : s.phase k i with
      | running p =>
        rw [hp] at hnew hinv hfin
        rw [mem_singleton.mp hnew]
        exact hinv.2.2 hfin
      | idle => simp [hp] at hnew
      | stuck => simp [hp] at hnew
      | fetched p page seen => simp [hp] at hnew
    · exact h.saved i rows hold
  | fail k => exact h.withPhase fun _ => trivial
  | restart => exact ⟨h.saved, fun _ _ => trivial⟩

theorem Reachable.inv (hs : Reachable s) : Inv s := by
  induction hs with
  | init s hsaved _ hphase =>
    refine ⟨fun i rows hrows => ?_, fun k i => ?_⟩
    · simp [hsaved i] at hrows
    · rw [hphase k i]
      trivial
  | step _ hstep ih => exact inv_step ih hstep

/-! ### The page loop -/

theorem setPhase_self (s : State κ τ α) (k : κ) (i : τ) (ph : Phase α) : (s.setPhase k i ph).phase k i = ph := by
  simp [State.setPhase]

theorem setPhase_of_ne (s : State κ τ α) (k : κ) {j : τ} (ph : Phase α) (h : j ≠ i) :
    (s.setPhase k i ph).phase k j = s.phase k j := by
  simp [State.setPhase, update_of_ne h]

/-- The rows a cursor has not passed. -/
def ahead (chain : Chain α) (cursor : Option ℕ) : ℕ :=
  chain.rows.countP fun r => cursor.all fun c => c < r.time

theorem ahead_lt {t : ℕ} (hlt : ∀ c ∈ cursor, c < t)
    (hr : ∃ r ∈ chain.rows, r.time = t) : ahead chain (some t) < ahead chain cursor := by
  obtain ⟨r, hr, rfl⟩ := hr
  obtain ⟨l₁, l₂, heq⟩ := append_of_mem hr
  have hr' : (cursor.all fun c => decide (c < r.time)) = true := by
    cases cursor <;> simp_all
  have hle : ∀ l : List (Row α), l.countP (fun a => (some r.time).all fun c => c < a.time) ≤
      l.countP fun a => cursor.all fun c => c < a.time := by
    refine fun l => countP_mono_left fun a _ ha => ?_
    cases cursor with
    | none => rfl
    | some c =>
      have hc := hlt c rfl
      simp only [all_some, decide_eq_true_eq] at ha ⊢
      omega
  have h₁ := hle l₁
  have h₂ := hle l₂
  rw [ahead, ahead, heq, countP_append, countP_append, countP_cons, countP_cons, hr']
  simp only [all_some, lt_self_iff_false, decide_false, Bool.false_eq_true, if_false, if_true]
  simp only [all_some] at h₁ h₂
  omega

/-- What is left of the sync of a type. -/
def Phase.cost (chain : Chain α) : Phase α → ℕ
  | .idle => 0
  | .running p => if p.done then 0 else 2 * ahead chain p.cursor + 3
  | .fetched p _ _ => 2 * ahead chain p.cursor + 2
  | .stuck => 1

section Loop

variable [Fintype τ]

/-- What is left of a sync. -/
def remaining (s : State κ τ α) (k : κ) : ℕ := ∑ i, (s.phase k i).cost (s.chain i)

theorem cost_absorbed (h : PhaseInv chain (.fetched p rows seen)) :
    (Phase.absorbed p rows).cost chain < (Phase.fetched p rows seen).cost chain := by
  rcases absorbed_cases h with ⟨p', heq, -, hd, -, -⟩ | ⟨p', t, heq, -, hd, hc, hlt, ⟨r, hr, hrt⟩, -⟩ | heq
  · simp [heq, Phase.cost, hd]
  · obtain ⟨-, -, -, -, hle⟩ := h
    have hless := ahead_lt hlt ⟨r, hle.subset hr, hrt⟩
    simp only [heq, Phase.cost, hd, hc, Bool.false_eq_true, if_false]
    omega
  · simp only [heq, Phase.cost]
    omega

variable {s : State κ τ α} {k : κ}

theorem remaining_setPhase {ph : Phase α}
    (h : ph.cost (s.chain i) < (s.phase k i).cost (s.chain i)) : remaining (s.setPhase k i ph) k < remaining s k := by
  refine Finset.sum_lt_sum (fun j _ => ?_) ⟨i, Finset.mem_univ i, ?_⟩
  · by_cases hj : j = i
    · subst hj
      rw [setPhase_self]
      exact h.le
    · rw [setPhase_of_ne s k ph hj]
      rfl
  · rw [setPhase_self]
    exact h

theorem remaining_loopStep (h : Inv s) (hstep : LoopStep k s s') : remaining s' k < remaining s k := by
  cases hstep with
  | request pages hphase hbehind _ =>
    have hcost : ∀ i, ((s.request k pages).phase k i).cost (s.chain i) ≤ (s.phase k i).cost (s.chain i) ∧
        (¬(s.phase k i).Finished →
          ((s.request k pages).phase k i).cost (s.chain i) < (s.phase k i).cost (s.chain i)) := by
      intro i
      simp only [State.request, update_self]
      rcases hphase i with hfin | ⟨p, hp⟩
      · cases hp : s.phase k i <;> simp_all [Phase.Finished]
      · by_cases hd : p.done = true <;> simp [hp, hd, Phase.cost, Phase.Finished]
    obtain ⟨i, hi⟩ := hbehind
    exact Finset.sum_lt_sum (fun j _ => (hcost j).1) ⟨i, Finset.mem_univ i, (hcost i).2 hi⟩
  | absorb i p rows seen hphase _ =>
    have hinv := h.phase k i
    rw [hphase] at hinv
    exact remaining_setPhase (hphase ▸ cost_absorbed hinv)
  | whole i rows hphase _ =>
    refine remaining_setPhase ?_
    rw [hphase]
    simp [Phase.cost, Pending.whole]

omit [Fintype τ] in
/-- A sync with something left to read can go on. -/
theorem exists_loopStep (h : ∃ i, ¬(s.phase k i).Finished) : ∃ s', LoopStep k s s' := by
  by_cases hstuck : ∃ i, s.phase k i = .stuck
  · obtain ⟨i, hi⟩ := hstuck
    exact ⟨_, .whole s i (s.chain i).rows hi (List.Perm.refl _)⟩
  push Not at hstuck
  by_cases hfetched : ∃ i p rows seen, s.phase k i = .fetched p rows seen
  · obtain ⟨i, p, rows, seen, hi⟩ := hfetched
    exact ⟨_, .absorb s i p rows seen hi hstuck⟩
  push Not at hfetched
  -- every type is done or behind: one request for those behind
  have hpage : ∀ i, ∃ rows, ∀ p, s.phase k i = .running p → DeltaRead (s.chain i) p.cursor rows := by
    intro i
    cases hp : s.phase k i with
    | running p =>
      obtain ⟨rows, hrows⟩ := exists_deltaRead (s.chain i) p.cursor
      exact ⟨rows, fun p' hp' => Phase.running.inj hp' ▸ hrows⟩
    | idle => exact ⟨[], fun p' hp' => by cases hp'⟩
    | stuck => exact absurd hp (hstuck i)
    | fetched p rows seen => exact absurd hp (hfetched i p rows seen)
  choose pages hpages using hpage
  refine ⟨_, .request s pages (fun i => ?_) h fun i p hp _ => hpages i p hp⟩
  cases hp : s.phase k i with
  | running p => exact .inr ⟨p, rfl⟩
  | idle => exact .inl trivial
  | stuck => exact absurd hp (hstuck i)
  | fetched p rows seen => exact absurd hp (hfetched i p rows seen)

/-- The loop ends while nothing lands. -/
theorem not_exists_run (hs : Reachable s) (k : κ) :
    ¬∃ run : ℕ → State κ τ α, run 0 = s ∧ ∀ n, LoopStep k (run n) (run (n + 1)) := by
  rintro ⟨run, hzero, hrun⟩
  have hreach : ∀ n, Reachable (run n) := by
    intro n
    induction n with
    | zero => exact hzero ▸ hs
    | succ n ih => exact ih.step (.loop k (hrun n))
  have hcost : ∀ n, remaining (run n) k + n ≤ remaining s k := by
    intro n
    induction n with
    | zero => rw [hzero, add_zero]
    | succ n ih =>
      have hless := remaining_loopStep (hreach n).inv (hrun n)
      omega
  have hend := hcost (remaining s k + 1)
  omega

end Loop

/-- The chain that the page of a type was read from: as it was when the request was answered, or as it is for a
complete read. -/
def State.lastRead (s : State κ τ α) (k : κ) (i : τ) : Chain α :=
  match s.phase k i with
  | .fetched _ _ seen => seen
  | _ => s.chain i

/-- A type that finishes in a step of the loop has the rows of the chain its last page was read from, which is still
part of the chain. -/
theorem exact_of_loopStep (hs : Inv s) (hstep : LoopStep k s s')
    (hfin : ¬(s.phase k i).Finished) (hp : s'.phase k i = .running p) (hd : p.done = true) :
    Exact (s.lastRead k i) p.rows ∧ (s.lastRead k i).rows <+: (s'.chain i).rows := by
  cases hstep with
  | request pages hphase _ _ =>
    rcases hphase i with h | ⟨p', hp'⟩
    · exact absurd h hfin
    · rw [hp'] at hfin
      simp [State.request, hp', Bool.eq_false_iff.mpr hfin] at hp
  | absorb j q rows seen hphase _ =>
    by_cases hij : i = j
    · subst hij
      have hinv := hs.phase k i
      rw [hphase] at hinv
      rw [setPhase_self] at hp
      simp only [State.lastRead, hphase]
      refine ⟨?_, hinv.2.2.2.2⟩
      rcases absorbed_cases hinv with ⟨p', heq, -, -, -, hexact⟩ | ⟨p', t, heq, -, hd', -⟩ | heq
      · exact Phase.running.inj (heq.symm.trans hp) ▸ hexact
      · rw [Phase.running.inj (heq.symm.trans hp), hd] at hd'
        cases hd'
      · cases heq.symm.trans hp
    · rw [setPhase_of_ne s k _ hij] at hp
      rw [hp] at hfin
      exact absurd hd hfin
  | whole j rows hphase hall =>
    by_cases hij : i = j
    · subst hij
      rw [setPhase_self] at hp
      simp only [State.lastRead, hphase]
      exact ⟨Phase.running.inj hp ▸ (Pending.exact_whole hall).2, prefix_rfl⟩
    · rw [setPhase_of_ne s k _ hij] at hp
      rw [hp] at hfin
      exact absurd hd hfin

/-- A page that is absorbed completes its type, moves the cursor or has the type read completely. -/
theorem progress_of_loopStep (hs : Inv s) (hstep : LoopStep k s s') (hi : s.phase k i = .fetched p rows seen) :
    s'.phase k i = s.phase k i ∨ (s'.phase k i).Finished ∨ s'.phase k i = .stuck ∨
      ∃ p' t, s'.phase k i = .running p' ∧ p'.cursor = some t ∧ ∀ c ∈ p.cursor, c < t := by
  cases hstep with
  | request pages hphase _ _ =>
    rcases hphase i with h | ⟨p', hp'⟩
    · rw [hi] at h
      exact h.elim
    · cases hi.symm.trans hp'
  | absorb j q rows' seen' hphase _ =>
    by_cases hij : i = j
    · subst hij
      have hinv := hs.phase k i
      rw [hi] at hinv
      cases hi.symm.trans hphase
      rw [setPhase_self]
      rcases absorbed_cases hinv with ⟨p', heq, -, hd, -⟩ | ⟨p', t, heq, -, -, hc, hlt, -⟩ | heq
      · exact .inr (.inl (by rw [heq]; exact hd))
      · exact .inr (.inr (.inr ⟨p', t, heq, hc, hlt⟩))
      · exact .inr (.inr (.inl heq))
    · exact .inl (setPhase_of_ne s k _ hij)
  | whole j rows' hphase _ =>
    have hij : i ≠ j := by
      rintro rfl
      cases hi.symm.trans hphase
    exact .inl (setPhase_of_ne s k _ hij)

/-- **The delta cache is exact.** In every run of landings and syncs, when the last page of a type is absorbed its
rows are the rows that were on chain when it was read, each once and in order; every absorbed page completes its
type, moves its cursor or has it read completely; and the page loop goes on until nothing is left to read, and
ends. -/
theorem deltaCache_exact [Fintype τ] {s : State κ τ α} (hs : Reachable s) (k : κ) :
    (∀ s' i p, LoopStep k s s' → ¬(s.phase k i).Finished → s'.phase k i = .running p → p.done = true →
      Exact (s.lastRead k i) p.rows ∧ (s.lastRead k i).rows <+: (s'.chain i).rows) ∧
    (∀ s' i p rows seen, LoopStep k s s' → s.phase k i = .fetched p rows seen →
      s'.phase k i = s.phase k i ∨ (s'.phase k i).Finished ∨ s'.phase k i = .stuck ∨
        ∃ p' t, s'.phase k i = .running p' ∧ p'.cursor = some t ∧ ∀ c ∈ p.cursor, c < t) ∧
    ((∃ i, ¬(s.phase k i).Finished) → ∃ s', LoopStep k s s') ∧
    ¬∃ run : ℕ → State κ τ α, run 0 = s ∧ ∀ n, LoopStep k (run n) (run (n + 1)) := by
  refine ⟨fun s' i p hstep hfin hp hd => ?_, fun s' i p rows seen hstep hi => ?_, ?_, ?_⟩
  · exact exact_of_loopStep hs.inv hstep hfin hp hd
  · exact progress_of_loopStep hs.inv hstep hi
  · exact exists_loopStep
  · exact not_exists_run hs k

/-- The row that lands at a time. -/
def rowAt (t : ℕ) : Row Unit := ⟨String.ofList (replicate t 'a'), some t, ()⟩

theorem rowAt_id_injective : Injective fun t => (rowAt t).id := by
  intro t t' h
  have hlen := congrArg List.length (String.ofList_injective h)
  rwa [length_replicate, length_replicate] at hlen

/-- A chain of rows at the times below `n`. -/
def chainBelow (n : ℕ) : Chain Unit where
  rows := (range n).map rowAt
  nodup := by
    rw [List.map_map]
    exact List.nodup_range.map rowAt_id_injective
  timed := by simp [rowAt]
  ordered := by
    refine pairwise_map.mpr (pairwise_lt_range.imp fun h => ?_)
    simpa [Row.time, rowAt] using h.le

/-- The next row may land. -/
theorem lands_chainBelow (n : ℕ) : (chainBelow n).Lands (rowAt n) := by
  refine ⟨fun hmem => ?_, rfl, fun r hr => ?_⟩
  · rw [chainBelow, List.map_map] at hmem
    obtain ⟨t, ht, heq⟩ := List.mem_map.mp hmem
    exact (mem_range.mp ht).ne (rowAt_id_injective heq)
  · obtain ⟨t, ht, rfl⟩ := List.mem_map.mp hr
    simpa [Row.time, rowAt] using (mem_range.mp ht).le

/-- One type with a full page of rows on chain, not synced yet. -/
def emptySample : State Unit Unit Unit where
  chain _ := chainBelow page
  saved _ := []
  synced _ := false
  phase _ _ := .idle

/-- What its first sync has after the first page, up to the newest row of which it reads on. -/
def pagedSample : Pending Unit :=
  { (({ Pending.new [] with done := false } : Pending Unit).add (chainBelow page).rows) with cursor := some 99 }

/-- The first page is absorbed, a row lands, and the second page is read. -/
def fetchedSample : State Unit Unit Unit :=
  let s := (emptySample.start () {()} (fun _ => []) .now).request () fun _ => (chainBelow page).rows
  ((s.setPhase () () (.running pagedSample)).land () (rowAt page) (lands_chainBelow page)).request ()
    fun _ => [rowAt 99, rowAt 100]

theorem absorbed_firstPage :
    Phase.absorbed { Pending.new [] with done := false } (chainBelow page).rows = .running pagedSample := by
  have hfull : ¬(chainBelow page).rows.length < page := by simp [chainBelow]
  have hnewest : newest (chainBelow page).rows = some 99 := by decide +kernel
  simp only [Phase.absorbed, Pending.absorb, if_neg hfull, hnewest]
  rfl

theorem reachable_fetchedSample : Reachable fetchedSample := by
  have hstart : Reachable (emptySample.start () {()} (fun _ => []) .now) :=
    (Reachable.init emptySample (fun _ => rfl) (fun _ => rfl) fun _ _ => rfl).step
      (.start emptySample () {()} (fun _ => []) .now (fun _ => rfl) fun _ _ => .inl rfl)
  have hfirst := hstart.step (.loop () (.request _ (fun _ => (chainBelow page).rows) (fun i => .inr ⟨_, rfl⟩)
    ⟨(), by simp [State.start, Phase.Finished, needsRead]⟩ fun i p hp _ => by
      obtain rfl := Phase.running.inj hp
      refine ⟨(chainBelow page).rows, ?_, (chainBelow page).ordered, ?_⟩
      · exact List.Perm.of_eq (filter_eq_self.mpr fun r _ => rfl).symm
      · exact (take_of_length_le (by simp [chainBelow])).symm))
  have habsorbed := hfirst.step (.loop () (.absorb _ () { Pending.new [] with done := false } (chainBelow page).rows
    (chainBelow page) rfl fun j hj => by cases hj))
  rw [absorbed_firstPage] at habsorbed
  refine (habsorbed.step (.land _ () (rowAt page) (lands_chainBelow page))).step (.loop () (.request _ _
    (fun i => .inr ⟨pagedSample, rfl⟩) ⟨(), ?_⟩ fun i p hp _ => ?_))
  · simp [State.land, State.setPhase, Phase.Finished, pagedSample, Pending.add_done]
  · obtain rfl := Phase.running.inj hp
    exact ⟨[rowAt 99, rowAt 100], .refl _, by decide +kernel, rfl⟩

/-- The rows of both pages are those on chain, the one that landed in between included. -/
theorem deltaCache_exact_fetchedSample :
    Exact (fetchedSample.chain ()) (pagedSample.absorb [rowAt 99, rowAt 100]).1.rows := by
  have hphase : fetchedSample.phase () () =
      .fetched pagedSample [rowAt 99, rowAt 100] (fetchedSample.chain ()) := by
    simp [fetchedSample, State.request, State.land, State.setPhase, pagedSample, Pending.add_done]
  have hstep := LoopStep.absorb fetchedSample () _ _ _ hphase fun j hj => by cases hj
  exact ((deltaCache_exact reachable_fetchedSample ()).1 _ () _ hstep (hphase ▸ fun h => h) rfl rfl).1

end DashForge.DeltaCache
