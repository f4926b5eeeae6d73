import DashForge.Relay.Stream

/-!
# Runs of a stream and its polls

Documents land, a block of one time after another, and are deleted, between any two page reads of a poll (`Step`). What a
cursor covers (`Covers`): the documents delivered are due and it is past them, and of those that are stored it is past
exactly the delivered ones and those that the baseline skips. Every page keeps it (`Covers.page`), so no poll delivers
a document twice and a poll that ends has delivered all that is stored and due (`stream_spec`).
-/

namespace DashForge.Stream

open List Option

variable {β : Type} {fit : Prop}

/-! ### Steps -/

/-- What was stored, and all that had landed, when a cursor was primed. -/
structure Primed (β : Type) where
  present : List (Doc β)
  landed : List (Doc β)

/-- A poll under way. -/
structure Poll (β : Type) where
  reading : Reading β
  primed : Option (Primed β)

structure State (β : Type) where
  present : List (Doc β) := []
  /-- Everything that was ever stored. -/
  landed : List (Doc β) := []
  cursor : Cursor
  poll : Option (Poll β) := none
  /-- What the polls that ended returned, the latest last. -/
  delivered : List (List (Doc β)) := []
  /-- The priming read of the first of them. -/
  primed : Option (Primed β) := none

/-- The next read primes the cursor. -/
def Reading.primes (r : Reading β) : Bool :=
  match r.cursor.primed, r.cursor.baseline with
  | false, .tail _ => true
  | _, _ => false

def State.init (baseline : Baseline) : State β where
  cursor := Cursor.new baseline

/-- Read a page; a poll that fails is dropped and leaves the stored cursor as it was. -/
def State.read (s : State β) (p : Poll β) : State β :=
  match p.reading.next s.present with
  | .failed => { s with poll := none }
  | .more r => { s with
      poll := some { reading := r, primed := if p.reading.primes then some ⟨s.present, s.landed⟩ else p.primed } }
  | .done cursor out => { s with poll := none, cursor, delivered := s.delivered ++ [out], primed := p.primed }

inductive Step : State β → State β → Prop
  | land (s : State β) (docs : List (Doc β)) (t : ℕ) (htime : ∀ d ∈ docs, d.createdAt = t)
      (hlater : ∀ d ∈ s.landed, d.createdAt < t) (hids : (docs.map Doc.id).Nodup)
      (hnew : ∀ d ∈ docs, d.id ∉ s.landed.map Doc.id) :
      Step s { s with present := s.present ++ docs, landed := s.landed ++ docs }
  | delete (s : State β) (id : String) : Step s { s with present := s.present.filter fun d => d.id ≠ id }
  | start (s : State β) (h : s.poll = none) :
      Step s { s with poll := some { reading := { cursor := s.cursor }, primed := s.primed } }
  | fail (s : State β) : Step s { s with poll := none }
  | read (s : State β) (p : Poll β) (h : s.poll = some p) : Step s (s.read p)

def Reachable (baseline : Baseline) : State β → Prop := Relation.ReflTransGen Step (State.init baseline)

/-! ### What is due -/

/-- The documents that a cursor with a baseline is to deliver: of the documents there at the priming read the newest
`lookback`, and all that landed after it; all from a time on; all. -/
def Due (baseline : Baseline) (primed : Option (Primed β)) (d : Doc β) : Prop :=
  match baseline with
  | .tail lookback => ∃ p ∈ primed, d ∈ (newestFirst p.present).take lookback ∨ d ∉ p.landed
  | .since ts => ts ≤ d.createdAt
  | .beginning => True

/-- What a cursor covers of what is stored, when these were delivered. That it delivers what is due holds as long as the
blocks are of a size that fits (`fit`). -/
structure Covers (fit : Prop) (present landed given : List (Doc β)) (primed : Option (Primed β))
    (c : Cursor) : Prop where
  nodup : given.Nodup
  landed_of_given : ∀ d ∈ given, d ∈ landed
  due_of_given : fit → ∀ d ∈ given, Due c.baseline primed d
  before_of_given : ∀ d ∈ given, c.Before d
  given_of_before : fit → ∀ d ∈ present, Due c.baseline primed d → c.Before d → d ∈ given
  before_of_not_due : fit → ∀ d ∈ present, ¬Due c.baseline primed d → c.Before d
  /-- The cursor's time is the baseline's, or one at which something landed. -/
  since_landed : ∀ s ∈ c.since, c.baseline = .since s ∨ ∃ d ∈ landed, d.createdAt = s
  floor : ∀ ts, c.baseline = .since ts → ∃ s ∈ c.since, ts ≤ s
  seen_landed : ∀ id ∈ c.seen, id ∈ landed.map Doc.id
  primed_landed : ∀ p ∈ primed, ∀ d ∈ p.landed, d ∈ landed
  primed_of_tail : ∀ lookback, c.baseline = .tail lookback → ∃ p, primed = some p

variable {present given docs : List (Doc β)} {c : Cursor} {t : ℕ} {r : Reading β} {s s' : State β} {p : Poll β}

/-- A document that lands now is not before the cursor, where it is due. -/
theorem Covers.land {landed : List (Doc β)} {primed : Option (Primed β)}
    (h : Covers fit present landed given primed c) (htime : ∀ d ∈ docs, d.createdAt = t)
    (hlater : ∀ d ∈ landed, d.createdAt < t) (hnew : ∀ d ∈ docs, d.id ∉ landed.map Doc.id) :
    Covers fit (present ++ docs) (landed ++ docs) given primed c := by
  have hnot (d : Doc β) (hd : d ∈ docs) (hdue : Due c.baseline primed d) : ¬c.Before d := by
    rintro ⟨s, hs, hbefore⟩
    rcases hbefore with hlt | ⟨-, hseen⟩
    · rcases h.since_landed s hs with hbase | ⟨e, he, rfl⟩
      · rw [hbase] at hdue
        exact absurd hlt (Nat.not_lt.mpr hdue)
      · have := hlater e he
        have := htime d hd
        omega
    · exact hnew d hd (h.seen_landed _ hseen)
  refine { h with landed_of_given := ?_, given_of_before := ?_, before_of_not_due := ?_, since_landed := ?_, seen_landed := ?_,
                  primed_landed := ?_ }
  · exact fun d hd => mem_append_left _ (h.landed_of_given d hd)
  · intro hfit d hd hdue hbefore
    rcases mem_append.mp hd with hd | hd
    · exact h.given_of_before hfit d hd hdue hbefore
    · exact absurd hbefore (hnot d hd hdue)
  · intro hfit d hd hdue
    rcases mem_append.mp hd with hd | hd
    · exact h.before_of_not_due hfit d hd hdue
    · -- Only a time before the baseline's keeps it from being due.
      cases hbase : c.baseline with
      | tail lookback =>
        obtain ⟨p, rfl⟩ := h.primed_of_tail lookback hbase
        refine absurd ?_ hdue
        rw [hbase]
        exact ⟨p, rfl, .inr fun hp => hnew d hd (mem_map_of_mem (h.primed_landed p rfl d hp))⟩
      | since ts =>
        obtain ⟨s, hs, hle⟩ := h.floor ts hbase
        rw [hbase] at hdue
        exact ⟨s, hs, .inl (lt_of_lt_of_le (Nat.lt_of_not_le hdue) hle)⟩
      | beginning =>
        rw [hbase] at hdue
        exact absurd trivial hdue
  · exact fun s hs => (h.since_landed s hs).imp_right fun ⟨d, hd, heq⟩ => ⟨d, mem_append_left _ hd, heq⟩
  · intro id hid
    rw [map_append]
    exact mem_append_left _ (h.seen_landed id hid)
  · exact fun p hp d hd => mem_append_left _ (h.primed_landed p hp d hd)

variable {present' out : List (Doc β)} {lookback : ℕ} {cursor : Cursor}

theorem Covers.mono {landed : List (Doc β)} {primed : Option (Primed β)}
    (h : Covers fit present landed given primed c) (hsub : ∀ d ∈ present', d ∈ present) :
    Covers fit present' landed given primed c :=
  { h with
    given_of_before := fun hfit d hd => h.given_of_before hfit d (hsub d hd)
    before_of_not_due := fun hfit d hd => h.before_of_not_due hfit d (hsub d hd) }

/-- The document to start after, and that the cursor is past all before it. -/
def After (present landed : List (Doc β)) (r : Reading β) : Prop :=
  ∀ id ∈ r.startAfter, ∃ a ∈ landed, a.id = id ∧ ∀ x ∈ present, x.key ≤ a.key → r.cursor.Before x

/-- A page keeps what a cursor covers, and has it past all up to the page's end. -/
theorem Covers.page {landed rows : List (Doc β)} {primed : Option (Primed β)}
    (h : Covers fit present landed given primed r.cursor) (hafter : After present landed r)
      (hids : (landed.map Doc.id).Nodup)
    (hsub : present.Sublist landed)
    (hpage : Stream.page present r.cursor.since true pageSize r.startAfter = some rows) :
    Covers fit present landed (given ++ (r.cursor.advanceAll rows).2) primed (r.cursor.advanceAll rows).1 ∧
    (rows.length < pageSize → ∀ x ∈ present, (r.cursor.advanceAll rows).1.Before x) ∧
    ∀ last ∈ rows.getLast?, last ∈ landed ∧ ∀ x ∈ present, x.key ≤ last.key →
        (r.cursor.advanceAll rows).1.Before x := by
  obtain ⟨hsorted, hrows, hcomplete⟩ := page_spec hpage (hids.sublist (hsub.map Doc.id))
  -- What the cursor is not past is on the page, or after all of a full one.
  have hnext (x : Doc β) (hx : x ∈ present) (hnot : ¬r.cursor.Before x) :
      x ∈ rows ∨ rows.length = pageSize ∧ ∀ y ∈ rows, y.key < x.key := by
    refine hcomplete x hx (fun s hs => ?_) fun id hid a ha heq => ?_
    · by_contra hlt
      exact hnot ⟨s, hs, .inl (Nat.lt_of_not_le hlt)⟩
    · obtain ⟨a', ha', hid', hbefore⟩ := hafter id hid
      obtain rfl := inj_on_of_nodup_map hids (hsub.subset ha) ha' (heq.trans hid'.symm)
      by_contra hle
      exact hnot (hbefore x hx (not_lt.mp hle))
  have hbefore_iff (x : Doc β) (hx : x ∈ present) (h' : (r.cursor.advanceAll rows).1.Before x) :
      r.cursor.Before x ∨ x ∈ rows := by
    rcases before_of_advanceAll h' with h' | ⟨d, hd, hle⟩
    · exact .inl h'
    · by_contra hno
      push Not at hno
      have hlt := ((hnext x hx hno.1).resolve_left hno.2).2 d hd
      rcases Doc.key_lt_iff.mp hlt with hlt | ⟨heq, hlt⟩
      · rcases hle with hle | ⟨hle, -⟩ <;> omega
      · rcases hle with hle | ⟨-, hle⟩
        · omega
        · exact absurd hle.symm hlt.ne
  obtain ⟨hbase, -⟩ := baseline_advanceAll r.cursor rows
  obtain ⟨hsince, hseen⟩ := since_advanceAll r.cursor rows
  have hnew {x : Doc β} : x ∈ (r.cursor.advanceAll rows).2 ↔ x ∈ rows ∧ ¬r.cursor.Before x := mem_advanceAll_iff hsorted
  refine ⟨?_, ?_, ?_⟩
  · refine ⟨?_, ?_, ?_, ?_, ?_, ?_, ?_, ?_, ?_, h.primed_landed, ?_⟩
    · have hnodup : rows.Nodup := hsorted.imp fun hlt heq => absurd (congrArg Doc.key heq) hlt.ne
      refine nodup_append.mpr ⟨h.nodup, (sublist_advanceAll _ _).nodup hnodup, ?_⟩
      rintro a ha b hb rfl
      exact (hnew.mp hb).2 (h.before_of_given a ha)
    · intro d hd
      rcases mem_append.mp hd with hd | hd
      · exact h.landed_of_given d hd
      · exact hsub.subset (hrows d (hnew.mp hd).1).1
    · intro hfit d hd
      rw [hbase]
      rcases mem_append.mp hd with hd | hd
      · exact h.due_of_given hfit d hd
      · by_contra hdue
        exact (hnew.mp hd).2 (h.before_of_not_due hfit d (hrows d (hnew.mp hd).1).1 hdue)
    · intro d hd
      rcases mem_append.mp hd with hd | hd
      · exact (h.before_of_given d hd).advanceAll rows
      · exact before_advanceAll _ (hnew.mp hd).1
    · intro hfit d hd hdue hbefore
      rw [hbase] at hdue
      by_cases hold : r.cursor.Before d
      · exact mem_append_left _ (h.given_of_before hfit d hd hdue hold)
      · exact mem_append_right _ (hnew.mpr ⟨(hbefore_iff d hd hbefore).resolve_left hold, hold⟩)
    · intro hfit d hd hdue
      rw [hbase] at hdue
      exact (h.before_of_not_due hfit d hd hdue).advanceAll rows
    · intro s hs
      rw [hbase]
      rcases hsince with heq | ⟨d, hd, heq⟩
      · exact h.since_landed s (heq ▸ hs)
      · exact .inr ⟨d, hsub.subset (hrows d hd).1, some.inj (heq.symm.trans hs)⟩
    · intro ts hts
      rw [hbase] at hts
      obtain ⟨s, hs, hle⟩ := h.floor ts hts
      rcases hsince with heq | ⟨d, hd, heq⟩
      · exact ⟨s, heq ▸ hs, hle⟩
      · exact ⟨d.createdAt, heq, hle.trans ((hrows d hd).2 s hs)⟩
    · intro id hid
      rcases hseen id hid with hid | ⟨d, hd, rfl⟩
      · exact h.seen_landed id hid
      · exact mem_map_of_mem (hsub.subset (hrows d hd).1)
    · intro lookback hl
      exact h.primed_of_tail lookback (hbase ▸ hl)
  · intro hshort x hx
    by_cases hold : r.cursor.Before x
    · exact hold.advanceAll rows
    · rcases hnext x hx hold with hmem | ⟨hfull, -⟩
      · exact before_advanceAll _ hmem
      · omega
  · intro last hlast
    have hmem := mem_of_getLast? hlast
    refine ⟨hsub.subset (hrows last hmem).1, fun x hx hle => ?_⟩
    by_cases hold : r.cursor.Before x
    · exact hold.advanceAll rows
    · rcases hnext x hx hold with hx' | ⟨-, hall⟩
      · exact before_advanceAll _ hx'
      · exact absurd (hall last hmem) (not_lt.mpr hle)

/-! ### The invariant -/

/-- A cursor whose next read primes it. -/
def Unprimed (c : Cursor) : Prop := c.primed = false ∧ ∃ lookback, c.baseline = .tail lookback

/-- No more documents of one time than a page has beside those that a tail replays. -/
def GroupsFit (baseline : Baseline) (landed : List (Doc β)) : Prop :=
  ∀ lookback, baseline = .tail lookback →
    lookback < pageSize ∧ ∀ t, landed.countP (fun d => d.createdAt = t) ≤ pageSize - lookback

/-- A cursor that covers what is stored, or one that has delivered nothing yet. -/
structure Stands (fit : Prop) (present landed given : List (Doc β)) (primed : Option (Primed β))
    (c : Cursor) : Prop where
  nothing : Unprimed c → given = []
  covers : ¬Unprimed c → Covers fit present landed given primed c

structure Inv (fit : Prop) (s : State β) : Prop where
  ids : (s.landed.map Doc.id).Nodup
  sub : s.present.Sublist s.landed
  stored : Stands fit s.present s.landed s.delivered.flatten s.primed s.cursor
  reading : ∀ p ∈ s.poll, Stands fit s.present s.landed (s.delivered.flatten ++ p.reading.out) p.primed p.reading.cursor
  after : ∀ p ∈ s.poll, After s.present s.landed p.reading
  first : ∀ p ∈ s.poll, Unprimed p.reading.cursor → p.reading.startAfter = none
  baseline : ∀ p ∈ s.poll, p.reading.cursor.baseline = s.cursor.baseline
  kept : ∀ p ∈ s.poll, ¬Unprimed s.cursor → ¬Unprimed p.reading.cursor ∧ p.primed = s.primed

theorem primes_iff : r.primes = true ↔ Unprimed r.cursor := by
  unfold Reading.primes Unprimed
  split
  · next lookback hprimed hbase => simp [hprimed, hbase]
  · next hno =>
    refine iff_of_false (by simp) ?_
    rintro ⟨hprimed, lookback, hbase⟩
    exact hno lookback hprimed hbase

/-- The cursor that a priming read makes covers what is stored, with nothing delivered. -/
theorem covers_primedFrom {landed : List (Doc β)} (hids : (landed.map Doc.id).Nodup)
    (hsub : present.Sublist landed) (hfit : fit → GroupsFit (.tail lookback) landed) :
    Covers fit present landed [] (some ⟨present, landed⟩)
      (Cursor.primedFrom ((newestFirst present).take pageSize) lookback) := by
  have hpast (h : fit) {x : Doc β} (hx : x ∈ present) := before_primedFrom (hids.sublist (hsub.map Doc.id))
    (hfit h lookback rfl).1 (fun t => (hsub.countP_le).trans ((hfit h lookback rfl).2 t)) hx
  have hbase : (Cursor.primedFrom ((newestFirst present).take pageSize) lookback).baseline = .tail lookback := by
    unfold Cursor.primedFrom
    split <;> rfl
  have hmem {x : Doc β} (hx : x ∈ (newestFirst present).take pageSize) : x ∈ landed :=
    hsub.subset (mem_newestFirst.mp (mem_of_mem_take hx))
  refine ⟨nodup_nil, nofun, fun _ => nofun, nofun, ?_, ?_, ?_, ?_, ?_, ?_, ?_⟩
  · intro h x hx hdue hbefore
    rw [hbase] at hdue
    obtain ⟨p, hp, hdue⟩ := hdue
    obtain rfl := some.inj hp
    rcases hdue with hnew | hnew
    · exact absurd hnew ((hpast h hx).mp hbefore)
    · exact absurd (hsub.subset hx) hnew
  · intro h x hx hdue
    rw [hbase] at hdue
    exact (hpast h hx).mpr fun hnew => hdue ⟨_, rfl, .inl hnew⟩
  · intro s hs
    refine .inr ?_
    unfold Cursor.primedFrom at hs
    split at hs
    · next f hf => exact ⟨f, hmem (mem_of_getElem? hf), some.inj hs⟩
    · dsimp only at hs
      split at hs
      · obtain ⟨d, hd, rfl⟩ := map_eq_some_iff.mp hs
        exact ⟨d, hmem (mem_of_getLast? hd), rfl⟩
      · cases hs
  · intro ts hts
    rw [hbase] at hts
    cases hts
  · intro id hid
    unfold Cursor.primedFrom at hid
    split at hid
    · obtain ⟨d, hd, rfl⟩ := mem_map.mp hid
      exact mem_map_of_mem (hmem (mem_of_mem_drop (mem_of_mem_filter hd)))
    · cases hid
  · intro p hp d hd
    obtain rfl := some.inj hp
    exact hd
  · exact fun _ _ => ⟨_, rfl⟩

theorem Covers.primed {landed : List (Doc β)} {primed : Option (Primed β)}
    (h : Covers fit present landed given primed c) : Covers fit present landed given primed { c with primed := true } :=
  { h with }

theorem inv_init (baseline : Baseline) : Inv fit (State.init baseline : State β) := by
  refine ⟨nodup_nil, .slnil, ⟨fun _ => rfl, fun hprimed => ?_⟩, nofun, nofun, nofun, nofun, nofun⟩
  cases baseline with
  | tail lookback => exact absurd ⟨rfl, lookback, rfl⟩ hprimed
  | since ts =>
    refine ⟨nodup_nil, nofun, fun _ => nofun, nofun, fun _ => nofun, fun _ => nofun, fun s hs => .inl ?_,
      fun t ht => ⟨ts, rfl, ?_⟩, nofun, nofun, nofun⟩
    · rw [← some.inj hs]
      rfl
    · exact (Baseline.since.inj ht).ge
  | beginning =>
    exact ⟨nodup_nil, nofun, fun _ => nofun, nofun, fun _ => nofun, fun _ => nofun, nofun, nofun, nofun, nofun, nofun⟩

/-! ### Steps keep it -/

theorem Stands.land {landed : List (Doc β)} {primed : Option (Primed β)}
    (h : Stands fit present landed given primed c) (htime : ∀ d ∈ docs, d.createdAt = t)
    (hlater : ∀ d ∈ landed, d.createdAt < t) (hnew : ∀ d ∈ docs, d.id ∉ landed.map Doc.id) :
    Stands fit (present ++ docs) (landed ++ docs) given primed c :=
  ⟨h.nothing, fun hprimed => (h.covers hprimed).land htime hlater hnew⟩

theorem Stands.mono {landed : List (Doc β)} {primed : Option (Primed β)}
    (h : Stands fit present landed given primed c) (hsub : ∀ d ∈ present', d ∈ present) :
    Stands fit present' landed given primed c :=
  ⟨h.nothing, fun hprimed => (h.covers hprimed).mono hsub⟩

theorem After.land {landed : List (Doc β)} (h : After present landed r)
    (htime : ∀ d ∈ docs, d.createdAt = t) (hlater : ∀ d ∈ landed, d.createdAt < t) :
    After (present ++ docs) (landed ++ docs) r := by
  intro id hid
  obtain ⟨a, ha, heq, hbefore⟩ := h id hid
  refine ⟨a, mem_append_left _ ha, heq, fun x hx hle => ?_⟩
  rcases mem_append.mp hx with hx | hx
  · exact hbefore x hx hle
  · have hlt : a.key < x.key := Doc.key_lt_iff.mpr (.inl ((hlater a ha).trans_eq (htime x hx).symm))
    exact absurd hle (not_le.mpr hlt)

theorem next_of_unprimed (hprimed : r.cursor.primed = false) (hbase : r.cursor.baseline = .tail lookback) :
    r.next docs = .more { r with cursor := Cursor.primedFrom ((newestFirst docs).take pageSize) lookback } := by
  unfold Reading.next
  rw [hprimed, hbase]
  dsimp only
  rw [page_newest]

theorem next_of_primed (h : ¬Unprimed r.cursor) :
    r.next docs = match page docs r.cursor.since true pageSize r.startAfter with
      | none => .failed
      | some rows =>
        if rows.length < pageSize then
          .done { (r.cursor.advanceAll rows).1 with primed := true } (r.out ++ (r.cursor.advanceAll rows).2)
        else .more { cursor := (r.cursor.advanceAll rows).1, out := r.out ++ (r.cursor.advanceAll rows).2
                     startAfter := rows.getLast?.map Doc.id } := by
  unfold Reading.next
  split
  · next lookback hprimed hbase => exact absurd ⟨hprimed, lookback, hbase⟩ h
  · rfl

/-- A poll that ends has the cursor past all that is stored. -/
theorem Inv.done (h : Inv fit s) (hp : s.poll = some p) (hdone : p.reading.next s.present = .done cursor out) :
    Covers fit s.present s.landed (s.delivered.flatten ++ out) p.primed cursor ∧ cursor.primed = true ∧
      (∀ x ∈ s.present, cursor.Before x) ∧ cursor.baseline = s.cursor.baseline := by
  by_cases hprimed : Unprimed p.reading.cursor
  · obtain ⟨hprimed, lookback, hbase⟩ := hprimed
    rw [next_of_unprimed hprimed hbase] at hdone
    cases hdone
  · rw [next_of_primed hprimed] at hdone
    split at hdone
    · cases hdone
    · next rows hpage =>
      split at hdone
      · next hshort =>
        obtain ⟨rfl, rfl⟩ := Read.done.inj hdone
        obtain ⟨hcovers, hpast, -⟩ := ((h.reading p hp).covers hprimed).page (h.after p hp) h.ids h.sub hpage
        rw [append_assoc] at hcovers
        exact ⟨hcovers.primed, rfl, hpast hshort, (baseline_advanceAll _ _).1.trans (h.baseline p hp)⟩
      · cases hdone

theorem baseline_primedFrom (docs : List (Doc β)) (lookback : ℕ) :
    (Cursor.primedFrom docs lookback).baseline = .tail lookback ∧ (Cursor.primedFrom docs lookback).primed = true := by
  unfold Cursor.primedFrom
  split <;> exact ⟨rfl, rfl⟩

variable (h : Inv fit s) (hfit : fit → GroupsFit s.cursor.baseline s.landed) (hp : s.poll = some p)

include h hfit hp in
theorem Inv.more (hmore : p.reading.next s.present = .more r) :
    Inv fit { s with poll := some { reading := r, primed := if p.reading.primes then some ⟨s.present, s.landed⟩ else p.primed } } := by
  by_cases hun : Unprimed p.reading.cursor
  · have ⟨hprimed, lookback, hbase⟩ := hun
    rw [next_of_unprimed hprimed hbase] at hmore
    obtain rfl := Read.more.inj hmore
    obtain ⟨hbase', hprimed'⟩ := baseline_primedFrom ((newestFirst s.present).take pageSize) lookback
    have hnot : ¬Unprimed (Cursor.primedFrom ((newestFirst s.present).take pageSize) lookback) := by
      rintro ⟨hfalse, -⟩
      rw [hprimed'] at hfalse
      cases hfalse
    rw [if_pos (primes_iff.mpr hun)]
    refine ⟨h.ids, h.sub, h.stored, ?_, ?_, ?_, ?_, ?_⟩ <;> intro q hq <;> obtain rfl := some.inj hq
    · refine ⟨fun hprimed => absurd hprimed hnot, fun _ => ?_⟩
      rw [(h.reading p hp).nothing hun]
      exact covers_primedFrom h.ids h.sub (fun hf => by rw [← hbase, h.baseline p hp]; exact hfit hf)
    · intro id hid
      rw [show p.reading.startAfter = none from h.first p hp hun] at hid
      cases hid
    · exact fun hprimed => absurd hprimed hnot
    · exact hbase'.trans (hbase.symm.trans (h.baseline p hp))
    · exact fun hstored => absurd hun (h.kept p hp hstored).1
  · rw [next_of_primed hun] at hmore
    split at hmore
    · cases hmore
    · next rows hpage =>
      split at hmore
      · cases hmore
      · obtain rfl := Read.more.inj hmore
        obtain ⟨hcovers, -, hlast⟩ := ((h.reading p hp).covers hun).page (h.after p hp) h.ids h.sub hpage
        obtain ⟨hbase, hflag⟩ := baseline_advanceAll p.reading.cursor rows
        have hnot : ¬Unprimed (p.reading.cursor.advanceAll rows).1 := by
          rintro ⟨hfalse, lookback, htail⟩
          exact hun ⟨hflag.symm.trans hfalse, lookback, hbase.symm.trans htail⟩
        rw [if_neg fun hprimes => hun (primes_iff.mp hprimes)]
        refine ⟨h.ids, h.sub, h.stored, ?_, ?_, ?_, ?_, ?_⟩ <;> intro q hq <;> obtain rfl := some.inj hq
        · refine ⟨fun hprimed => absurd hprimed hnot, fun _ => ?_⟩
          rwa [← append_assoc]
        · intro id hid
          obtain ⟨last, hmem, rfl⟩ := map_eq_some_iff.mp hid
          obtain ⟨hlanded, hbefore⟩ := hlast last hmem
          exact ⟨last, hlanded, rfl, hbefore⟩
        · exact fun hprimed => absurd hprimed hnot
        · exact hbase.trans (h.baseline p hp)
        · exact fun hstored => ⟨hnot, (h.kept p hp hstored).2⟩

include h hfit hp in
theorem Inv.read : Inv fit (s.read p) := by
  unfold State.read
  split
  · exact ⟨h.ids, h.sub, h.stored, nofun, nofun, nofun, nofun, nofun⟩
  · next r hmore => exact h.more hfit hp hmore
  · next cursor out hdone =>
    obtain ⟨hcovers, hprimed, -, -⟩ := h.done hp hdone
    refine ⟨h.ids, h.sub, ⟨fun hun => ?_, fun _ => ?_⟩, nofun, nofun, nofun, nofun, nofun⟩
    · rw [hun.1] at hprimed
      cases hprimed
    · rwa [flatten_append, flatten_singleton]

theorem Inv.step (h : Inv fit s) (hstep : Step s s') (hfit : fit → GroupsFit s.cursor.baseline s.landed) :
    Inv fit s' := by
  cases hstep with
  | land docs t htime hlater hids hnew =>
    refine ⟨?_, h.sub.append (List.Sublist.refl docs), h.stored.land htime hlater hnew,
      fun p hp => (h.reading p hp).land htime hlater hnew, fun p hp =>
        (h.after p hp).land htime hlater, h.first, h.baseline,
      h.kept⟩
    rw [map_append]
    refine nodup_append.mpr ⟨h.ids, hids, ?_⟩
    rintro a ha b hb rfl
    obtain ⟨d, hd, rfl⟩ := mem_map.mp hb
    exact hnew d hd ha
  | delete id =>
    have hsub : ∀ d ∈ s.present.filter fun d => d.id ≠ id, d ∈ s.present := fun d hd => mem_of_mem_filter hd
    refine ⟨h.ids, filter_sublist.trans h.sub, h.stored.mono hsub, fun p hp => (h.reading p hp).mono hsub, ?_, h.first,
      h.baseline, h.kept⟩
    intro p hp id' hid
    obtain ⟨a, ha, heq, hbefore⟩ := h.after p hp id' hid
    exact ⟨a, ha, heq, fun x hx => hbefore x (hsub x hx)⟩
  | start hnone =>
    refine ⟨h.ids, h.sub, h.stored, ?_, ?_, ?_, ?_, ?_⟩ <;> intro q hq <;> obtain rfl := some.inj hq
    · rw [append_nil]
      exact h.stored
    · exact nofun
    · exact fun _ => rfl
    · rfl
    · exact fun hstored => ⟨hstored, rfl⟩
  | fail => exact ⟨h.ids, h.sub, h.stored, nofun, nofun, nofun, nofun, nofun⟩
  | read p hp => exact h.read hfit hp

/-! ### Runs -/

theorem landed_read (s : State β) (p : Poll β) : (s.read p).landed = s.landed := by
  unfold State.read
  split <;> rfl

theorem Step.landed (hstep : Step s s') : s.landed.Sublist s'.landed := by
  cases hstep with
  | land docs => exact sublist_append_left _ _
  | read p hp => exact landed_read s p ▸ List.Sublist.refl _
  | _ => exact List.Sublist.refl _

theorem Step.baseline (h : Inv fit s) (hstep : Step s s') : s'.cursor.baseline = s.cursor.baseline := by
  cases hstep with
  | read p hp =>
    unfold State.read
    split
    · rfl
    · rfl
    · next cursor out hdone => exact (h.done hp hdone).2.2.2
  | _ => rfl

theorem GroupsFit.mono {baseline : Baseline} {landed landed' : List (Doc β)} (h : GroupsFit baseline landed')
    (hsub : landed.Sublist landed') : GroupsFit baseline landed := by
  intro lookback hbase
  obtain ⟨hlookback, hgroups⟩ := h lookback hbase
  exact ⟨hlookback, fun t => hsub.countP_le.trans (hgroups t)⟩

theorem Reachable.inv {baseline : Baseline} (h : Reachable baseline s) (hfit : fit → GroupsFit baseline s.landed) :
    Inv fit s ∧ s.cursor.baseline = baseline := by
  induction h with
  | refl => exact ⟨inv_init baseline, rfl⟩
  | @tail s s' _ hstep ih =>
    have hbefore (hf : fit) : GroupsFit baseline s.landed := (hfit hf).mono hstep.landed
    obtain ⟨hinv, hbase⟩ := ih hbefore
    exact ⟨hinv.step hstep fun hf => hbase ▸ hbefore hf, (hstep.baseline hinv).trans hbase⟩

/-- The polls that ended returned each document once. -/
theorem Inv.nodup (h : Inv fit s) :
    (s.delivered.flatten.map Doc.id).Nodup ∧ ∀ d ∈ s.delivered.flatten, d ∈ s.landed := by
  by_cases hun : Unprimed s.cursor
  · rw [h.stored.nothing hun]
    exact ⟨nodup_nil, nofun⟩
  · have hcovers := h.stored.covers hun
    refine ⟨hcovers.nodup.map_on fun a ha b hb heq => ?_, hcovers.landed_of_given⟩
    exact inj_on_of_nodup_map h.ids (hcovers.landed_of_given a ha) (hcovers.landed_of_given b hb) heq

/-- They returned what is due. -/
theorem Inv.due (h : Inv fit s) (hfit : fit) : ∀ d ∈ s.delivered.flatten, Due s.cursor.baseline s.primed d := by
  by_cases hun : Unprimed s.cursor
  · rw [h.stored.nothing hun]
    exact nofun
  · exact (h.stored.covers hun).due_of_given hfit

/-- When a poll ends, all that is stored and due was returned, by it or an earlier one. -/
theorem Inv.complete (h : Inv fit s) (hfit : fit) (hp : s.poll = some p)
    (hdone : p.reading.next s.present = .done cursor out) :
    ∀ d ∈ s.present, Due s.cursor.baseline p.primed d → d ∈ s.delivered.flatten ++ out := by
  obtain ⟨hcovers, -, hpast, hbase⟩ := h.done hp hdone
  exact fun d hd hdue => hcovers.given_of_before hfit d hd (hbase ▸ hdue) (hpast d hd)

/-- Of any run: a document is returned by one poll at most, and a poll that fails leaves the cursor as it was. Where blocks
fit beside what a tail replays, only due documents are returned, a poll that ends leaves none behind that is stored
and due, and the priming read that says what is due is that of the first poll that ended. -/
theorem stream_spec (baseline : Baseline) (s : State β) (h : Reachable baseline s) :
    ((s.delivered.flatten.map Doc.id).Nodup ∧ (∀ d ∈ s.delivered.flatten, d ∈ s.landed) ∧
      ∀ p, s.poll = some p → p.reading.next s.present = .failed → (s.read p).cursor = s.cursor) ∧
    (GroupsFit baseline s.landed →
      (∀ d ∈ s.delivered.flatten, Due baseline s.primed d) ∧
      ∀ p, s.poll = some p → ∀ cursor out, p.reading.next s.present = .done cursor out →
        (s.read p).delivered = s.delivered ++ [out] ∧
        (∀ d ∈ s.present, Due baseline (s.read p).primed d → d ∈ (s.read p).delivered.flatten) ∧
        (¬Unprimed s.cursor → (s.read p).primed = s.primed)) := by
  have hfits : GroupsFit baseline s.landed → GroupsFit baseline s.landed := id
  obtain ⟨hinv, hbase⟩ := h.inv hfits
  refine ⟨⟨hinv.nodup.1, hinv.nodup.2, fun p hp hfailed => by rw [State.read, hfailed]⟩, fun hfit => ?_⟩
  refine ⟨hbase ▸ hinv.due hfit, fun p hp cursor out hdone => ?_⟩
  have hread : s.read p = { s with poll := none, cursor, delivered := s.delivered ++ [out], primed := p.primed } := by
    rw [State.read, hdone]
  rw [hread, flatten_append, flatten_singleton]
  exact ⟨rfl, hbase ▸ hinv.complete hfit hp hdone, fun hstored => (hinv.kept p hp hstored).2⟩

/-! ### Reading one stream from its beginning -/

/-- A saved cursor of a stream that is read from its beginning, when these were delivered. -/
structure Feed (docs given : List (Doc β)) (c : Cursor) : Prop where
  covers : Covers True docs docs given none c
  baseline : c.baseline = .beginning

/-- A poll of such a stream. -/
structure FeedReading (docs given : List (Doc β)) (r : Reading β) : Prop where
  covers : Covers True docs docs (given ++ r.out) none r.cursor
  after : After docs docs r
  baseline : r.cursor.baseline = .beginning

/-- New documents of one time, later than those stored. -/
structure Lands (docs new : List (Doc β)) (t : ℕ) : Prop where
  time : ∀ d ∈ new, d.createdAt = t
  later : ∀ d ∈ docs, d.createdAt < t
  new : ∀ d ∈ new, d.id ∉ docs.map Doc.id

section Feed

variable {docs given : List (Doc β)} {c : Cursor} {r : Reading β}

theorem feed_new (docs : List (Doc β)) : Feed docs [] (Cursor.new .beginning) := by
  refine ⟨⟨nodup_nil, nofun, fun _ => nofun, nofun, ?_, ?_, nofun, nofun, nofun, nofun, nofun⟩, rfl⟩
  · rintro - d - - ⟨s, hs, -⟩
    cases hs
  · exact fun _ d _ hdue => absurd trivial hdue

variable {new : List (Doc β)}

theorem Feed.land (h : Feed docs given c) (hland : Lands docs new t) : Feed (docs ++ new) given c :=
  ⟨h.covers.land hland.time hland.later hland.new, h.baseline⟩

theorem FeedReading.land (h : FeedReading docs given r) (hland : Lands docs new t) :
    FeedReading (docs ++ new) given r :=
  ⟨h.covers.land hland.time hland.later hland.new, h.after.land hland.time hland.later, h.baseline⟩

theorem Feed.start (h : Feed docs given c) : FeedReading docs given { cursor := c } :=
  ⟨by rw [append_nil]; exact h.covers, nofun, h.baseline⟩

theorem not_unprimed (hbase : c.baseline = .beginning) : ¬Unprimed c := by
  rintro ⟨-, lookback, htail⟩
  rw [hbase] at htail
  cases htail

theorem FeedReading.more (h : FeedReading docs given r) (hids : (docs.map Doc.id).Nodup) {r' : Reading β}
    (hmore : r.next docs = .more r') : FeedReading docs given r' := by
  rw [next_of_primed (not_unprimed h.baseline)] at hmore
  split at hmore
  · cases hmore
  · next rows hpage =>
    split at hmore
    · cases hmore
    · obtain rfl := Read.more.inj hmore
      obtain ⟨hcovers, -, hlast⟩ := h.covers.page h.after hids (List.Sublist.refl _) hpage
      refine ⟨by rwa [← append_assoc], ?_, (baseline_advanceAll _ _).1.trans h.baseline⟩
      intro id hid
      obtain ⟨last, hmem, rfl⟩ := map_eq_some_iff.mp hid
      obtain ⟨hlanded, hbefore⟩ := hlast last hmem
      exact ⟨last, hlanded, rfl, hbefore⟩

theorem FeedReading.done (h : FeedReading docs given r) (hids : (docs.map Doc.id).Nodup) {out : List (Doc β)}
    (hdone : r.next docs = .done c out) : Feed docs (given ++ out) c ∧ ∀ d ∈ docs, d ∈ given ++ out := by
  rw [next_of_primed (not_unprimed h.baseline)] at hdone
  split at hdone
  · cases hdone
  · next rows hpage =>
    split at hdone
    · next hshort =>
      obtain ⟨rfl, rfl⟩ := Read.done.inj hdone
      obtain ⟨hcovers, hpast, -⟩ := h.covers.page h.after hids (List.Sublist.refl _) hpage
      rw [append_assoc] at hcovers
      have hbase := (baseline_advanceAll r.cursor rows).1.trans h.baseline
      refine ⟨⟨hcovers.primed, hbase⟩, fun d hd => hcovers.given_of_before trivial d hd ?_ (hpast hshort d hd)⟩
      rw [hbase]
      trivial
    · cases hdone

end Feed

/-- Two documents have landed and a poll that starts at the newest one has read its priming page. -/
def sampleState : State Unit where
  present := [⟨"a", 1, ()⟩, ⟨"b", 1, ()⟩]
  landed := [⟨"a", 1, ()⟩, ⟨"b", 1, ()⟩]
  cursor := Cursor.new (.tail 1)
  poll := some {
    reading := { cursor := { baseline := .tail 1, primed := true, since := some 1, seen := ["a"] } }
    primed := some ⟨[⟨"a", 1, ()⟩, ⟨"b", 1, ()⟩], [⟨"a", 1, ()⟩, ⟨"b", 1, ()⟩]⟩ }

theorem reachable_sampleState : Reachable (.tail 1) sampleState := by
  have hland := Step.land (State.init (.tail 1) : State Unit) [⟨"a", 1, ()⟩, ⟨"b", 1, ()⟩] 1
    (by decide) nofun (by decide) nofun
  have hstart := Relation.ReflTransGen.tail (.single hland) (Step.start _ rfl)
  have hread := hstart.tail (Step.read _ { reading := { cursor := Cursor.new (.tail 1) }, primed := none } rfl)
  exact hread

/-- The second page of that poll ends it with the newer of the two. -/
theorem stream_spec_tail : (sampleState.read ((sampleState.poll.get rfl))).delivered = [[⟨"b", 1, ()⟩]] ∧
    ∀ d ∈ sampleState.present, Due (.tail 1) (sampleState.read (sampleState.poll.get rfl)).primed d →
      d ∈ (sampleState.read (sampleState.poll.get rfl)).delivered.flatten := by
  have hfits : GroupsFit (.tail 1) sampleState.landed := by
    intro lookback hbase
    obtain rfl := Baseline.tail.inj hbase
    refine ⟨by decide, fun t => (countP_le_length).trans (by decide)⟩
  obtain ⟨-, hspec⟩ := stream_spec (.tail 1) sampleState reachable_sampleState
  obtain ⟨-, hdone⟩ := hspec hfits
  exact ⟨rfl, (hdone _ rfl _ _ rfl).2.1⟩

end DashForge.Stream
