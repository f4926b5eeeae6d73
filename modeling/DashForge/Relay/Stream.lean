import DashForge.Data.SortBy

/-!
# Streams and their cursors

A stream of documents in the order of `($createdAt, $id)` and the cursor it is read with (`ingest.rs`): the newest time
that was delivered and the ids delivered at that time. One poll reads pages until one is not full; what is stored may
change between two pages, so a poll is a step function on what it has read so far (`Reading.next`).

A document is `Before` a cursor where the cursor will not deliver it again. Of sorted documents `advanceAll` delivers
those that are not before the cursor, and has all of them before it afterwards.
-/

namespace DashForge.Stream

open List Option

/-- Rows of a page. -/
def pageSize : ℕ := 100

/-- A stored document, with what a stream's reader reads of it. -/
structure Doc (β : Type) where
  id : String
  createdAt : ℕ
  body : β
deriving DecidableEq, Repr

/-- Where a stream starts on its first read. -/
inductive Baseline where
  /-- At the newest document, with the last `lookback` ones again. -/
  | tail (lookback : ℕ)
  /-- At a time. -/
  | since (ts : ℕ)
  | beginning
deriving DecidableEq, Repr

structure Cursor where
  baseline : Baseline
  primed : Bool := false
  /-- The newest time delivered, or the baseline's. -/
  since : Option ℕ := none
  /-- Ids delivered, or skipped by the baseline, at exactly that time. -/
  seen : List String := []
deriving DecidableEq, Repr

variable {β : Type} {c : Cursor} {d x : Doc β} {docs : List (Doc β)}

def Doc.key (d : Doc β) : ℕ ×ₗ String := toLex (d.createdAt, d.id)

def Cursor.new (baseline : Baseline) : Cursor where
  baseline
  since := match baseline with
    | .since ts => some ts
    | _ => none

/-- A cursor at the newest documents: all of them count as seen except the newest `lookback`. -/
def Cursor.primedFrom (newestFirst : List (Doc β)) (lookback : ℕ) : Cursor :=
  match newestFirst[lookback]? with
  | some firstSkipped =>
    { baseline := .tail lookback, primed := true, since := some firstSkipped.createdAt
      seen := ((newestFirst.drop lookback).filter fun d => d.createdAt = firstSkipped.createdAt).map Doc.id }
  | none =>
    -- Everything is replayed; a full page may not be all there is.
    { baseline := .tail lookback, primed := true
      since := if pageSize ≤ newestFirst.length then newestFirst.getLast?.map Doc.createdAt else none }

/-- Record a document as delivered; whether it is new. -/
def Cursor.advance (c : Cursor) (d : Doc β) : Cursor × Bool :=
  match c.since with
  | some s =>
    if d.createdAt < s then (c, false)
    else if d.createdAt = s then
      if d.id ∈ c.seen then (c, false) else ({ c with seen := d.id :: c.seen }, true)
    else ({ c with since := some d.createdAt, seen := [d.id] }, true)
  | none => ({ c with since := some d.createdAt, seen := [d.id] }, true)

/-- Record a page: the new documents of it. -/
def Cursor.advanceAll (c : Cursor) : List (Doc β) → Cursor × List (Doc β)
  | [] => (c, [])
  | d :: docs =>
    let (c, isNew) := c.advance d
    let (c, out) := c.advanceAll docs
    (c, if isNew then d :: out else out)

/-- One page of what is stored, in ascending or descending order. It fails when the document to start after is gone. -/
def page (docs : List (Doc β)) (since : Option ℕ) (ascending : Bool) (limit : ℕ) (startAfter : Option String) :
    Option (List (Doc β)) :=
  let rows := (sortByKey Doc.key docs).filter fun d => since.all fun s => s ≤ d.createdAt
  match startAfter with
  | none => some ((if ascending then rows else rows.reverse).take limit)
  | some id => (docs.find? fun d => d.id = id).map fun a =>
    (if ascending then rows.filter fun d => a.key < d.key else (rows.filter fun d => d.key < a.key).reverse).take limit

/-- A poll between two of its pages. -/
structure Reading (β : Type) where
  cursor : Cursor
  out : List (Doc β) := []
  startAfter : Option String := none

/-- What a page makes of a poll. -/
inductive Read (β : Type) where
  | failed
  | more (r : Reading β)
  | done (cursor : Cursor) (out : List (Doc β))

/-- Read the next page of a poll: the newest one to prime a cursor that starts at the tail, else the next ascending one.
The last page is one that is not full. -/
def Reading.next (r : Reading β) (docs : List (Doc β)) : Read β :=
  match r.cursor.primed, r.cursor.baseline with
  | false, .tail lookback =>
    match page docs none false pageSize none with
    | none => .failed
    | some tail => .more { r with cursor := Cursor.primedFrom tail lookback }
  | _, _ =>
    match page docs r.cursor.since true pageSize r.startAfter with
    | none => .failed
    | some rows =>
      let (cursor, new) := r.cursor.advanceAll rows
      if rows.length < pageSize then .done { cursor with primed := true } (r.out ++ new)
      else .more { cursor, out := r.out ++ new, startAfter := rows.getLast?.map Doc.id }

/-! ### What a cursor delivers -/

/-- The cursor is past the document. -/
def Cursor.Before (c : Cursor) (d : Doc β) : Prop :=
  ∃ s, c.since = some s ∧ (d.createdAt < s ∨ d.createdAt = s ∧ d.id ∈ c.seen)

theorem advance_snd : (c.advance d).2 = true ↔ ¬c.Before d := by
  unfold Cursor.advance Cursor.Before
  cases hs : c.since with
  | none => simp
  | some s =>
    by_cases hlt : d.createdAt < s
    · simp [hlt]
    · by_cases heq : d.createdAt = s
      · by_cases hseen : d.id ∈ c.seen <;> simp [heq, hseen]
      · simp [hlt, heq]

theorem Cursor.Before.advance (h : c.Before x) (d : Doc β) : (c.advance d).1.Before x := by
  obtain ⟨s, hs, h⟩ := h
  simp only [Cursor.advance, hs]
  split
  · exact ⟨s, hs, h⟩
  · next hlt =>
    split
    · split
      · exact ⟨s, hs, h⟩
      · exact ⟨s, rfl, h.imp_right fun h => ⟨h.1, mem_cons_of_mem _ h.2⟩⟩
    · next hne => exact ⟨d.createdAt, rfl, .inl (by omega)⟩

theorem before_advance (c : Cursor) (d : Doc β) : (c.advance d).1.Before d := by
  by_cases h : c.Before d
  · exact h.advance d
  · unfold Cursor.advance
    split
    · next s hs =>
      split
      · next hlt => exact absurd ⟨s, hs, .inl hlt⟩ h
      · split
        · next heq =>
          split
          · next hseen => exact absurd ⟨s, hs, .inr ⟨heq, hseen⟩⟩ h
          · exact ⟨s, hs, .inr ⟨heq, mem_cons_self⟩⟩
        · exact ⟨d.createdAt, rfl, .inr ⟨rfl, mem_cons_self⟩⟩
    · exact ⟨d.createdAt, rfl, .inr ⟨rfl, mem_cons_self⟩⟩

theorem before_of_advance (h : (c.advance d).1.Before x) :
    c.Before x ∨ x.createdAt < d.createdAt ∨ x.createdAt = d.createdAt ∧ x.id = d.id := by
  unfold Cursor.advance at h
  split at h
  · next s hs =>
    split at h
    · exact .inl h
    · split at h
      · next heq =>
        split at h
        · exact .inl h
        · obtain ⟨s', hs', h⟩ := h
          obtain rfl := some.inj (hs.symm.trans hs')
          rcases h with hlt | ⟨heq', hid⟩
          · exact .inl ⟨s, hs, .inl hlt⟩
          · rcases mem_cons.mp hid with hid | hid
            · exact .inr (.inr ⟨heq'.trans heq.symm, hid⟩)
            · exact .inl ⟨s, hs, .inr ⟨heq', hid⟩⟩
      · obtain ⟨s', hs', h⟩ := h
        obtain rfl := some.inj hs'
        exact .inr (h.imp_right fun h => ⟨h.1, mem_singleton.mp h.2⟩)
  · obtain ⟨s', hs', h⟩ := h
    obtain rfl := some.inj hs'
    exact .inr (h.imp_right fun h => ⟨h.1, mem_singleton.mp h.2⟩)

theorem since_advance (c : Cursor) (d : Doc β) :
    ((c.advance d).1.since = c.since ∨ (c.advance d).1.since = some d.createdAt) ∧
      ∀ id ∈ (c.advance d).1.seen, id ∈ c.seen ∨ id = d.id := by
  unfold Cursor.advance
  split
  · split
    · exact ⟨.inl rfl, fun id hid => .inl hid⟩
    · split
      · split
        · exact ⟨.inl rfl, fun id hid => .inl hid⟩
        · exact ⟨.inl rfl, fun id hid => (mem_cons.mp hid).symm⟩
      · exact ⟨.inr rfl, fun id hid => .inr (mem_singleton.mp hid)⟩
  · exact ⟨.inr rfl, fun id hid => .inr (mem_singleton.mp hid)⟩

theorem advanceAll_cons (c : Cursor) (d : Doc β) (docs : List (Doc β)) : c.advanceAll (d :: docs) =
    (((c.advance d).1.advanceAll docs).1,
      if (c.advance d).2 then d :: ((c.advance d).1.advanceAll docs).2 else ((c.advance d).1.advanceAll docs).2) := rfl

theorem Cursor.Before.advanceAll (h : c.Before x) (docs : List (Doc β)) : (c.advanceAll docs).1.Before x := by
  induction docs generalizing c with
  | nil => exact h
  | cons d docs ih => exact ih (h.advance d)

theorem before_advanceAll (c : Cursor) (hx : x ∈ docs) : (c.advanceAll docs).1.Before x := by
  induction docs generalizing c with
  | nil => cases hx
  | cons d docs ih =>
    rcases mem_cons.mp hx with rfl | hx
    · exact (before_advance c x).advanceAll docs
    · exact ih _ hx

theorem before_of_advanceAll (h : (c.advanceAll docs).1.Before x) :
    c.Before x ∨ ∃ d ∈ docs, x.createdAt < d.createdAt ∨ x.createdAt = d.createdAt ∧ x.id = d.id := by
  induction docs generalizing c with
  | nil => exact .inl h
  | cons d docs ih =>
    rcases ih h with h | ⟨e, he, h⟩
    · rcases before_of_advance h with h | h
      · exact .inl h
      · exact .inr ⟨d, mem_cons_self, h⟩
    · exact .inr ⟨e, mem_cons_of_mem _ he, h⟩

theorem since_advanceAll (c : Cursor) (docs : List (Doc β)) :
    ((c.advanceAll docs).1.since = c.since ∨ ∃ d ∈ docs, (c.advanceAll docs).1.since = some d.createdAt) ∧
      ∀ id ∈ (c.advanceAll docs).1.seen, id ∈ c.seen ∨ ∃ d ∈ docs, d.id = id := by
  induction docs generalizing c with
  | nil => exact ⟨.inl rfl, fun id hid => .inl hid⟩
  | cons d docs ih =>
    obtain ⟨hsince, hseen⟩ := ih (c.advance d).1
    obtain ⟨hsince', hseen'⟩ := since_advance c d
    constructor
    · rcases hsince with heq | ⟨e, he, heq⟩
      · exact hsince'.imp heq.trans fun h => ⟨d, mem_cons_self, heq.trans h⟩
      · exact .inr ⟨e, mem_cons_of_mem _ he, heq⟩
    · intro id hid
      rcases hseen id hid with hid | ⟨e, he, rfl⟩
      · exact (hseen' id hid).imp_right fun h => ⟨d, mem_cons_self, h.symm⟩
      · exact .inr ⟨e, mem_cons_of_mem _ he, rfl⟩

/-- A cursor keeps its baseline. -/
@[simp]
theorem baseline_advanceAll (c : Cursor) (docs : List (Doc β)) :
    (c.advanceAll docs).1.baseline = c.baseline ∧ (c.advanceAll docs).1.primed = c.primed := by
  have hone (c : Cursor) (d : Doc β) : (c.advance d).1.baseline = c.baseline ∧ (c.advance d).1.primed = c.primed := by
    unfold Cursor.advance
    split
    · split
      · exact ⟨rfl, rfl⟩
      · split
        · split <;> exact ⟨rfl, rfl⟩
        · exact ⟨rfl, rfl⟩
    · exact ⟨rfl, rfl⟩
  induction docs generalizing c with
  | nil => exact ⟨rfl, rfl⟩
  | cons d docs ih => exact ⟨(ih _).1.trans (hone c d).1, (ih _).2.trans (hone c d).2⟩

theorem sublist_advanceAll (c : Cursor) (docs : List (Doc β)) : (c.advanceAll docs).2.Sublist docs := by
  induction docs generalizing c with
  | nil => exact .slnil
  | cons d docs ih =>
    rw [advanceAll_cons]
    dsimp only
    split
    · exact (ih _).cons_cons d
    · exact (ih _).cons d

theorem Doc.key_lt_iff {a b : Doc β} :
    a.key < b.key ↔ a.createdAt < b.createdAt ∨ a.createdAt = b.createdAt ∧ a.id < b.id :=
  Prod.Lex.toLex_lt_toLex

theorem mem_advanceAll_iff (hsorted : docs.Pairwise fun a b => a.key < b.key) :
    x ∈ (c.advanceAll docs).2 ↔ x ∈ docs ∧ ¬c.Before x := by
  induction docs generalizing c with
  | nil => simp [Cursor.advanceAll]
  | cons d docs ih =>
    obtain ⟨hlater, hsorted⟩ := pairwise_cons.mp hsorted
    have hrest : x ∈ docs → ((c.advance d).1.Before x ↔ c.Before x) := by
      intro hx
      refine ⟨fun h => (before_of_advance h).resolve_right fun h => ?_, fun h => h.advance d⟩
      have hlt := Doc.key_lt_iff.mp (hlater x hx)
      rcases h with h | ⟨h, hid⟩
      · omega
      · rcases hlt with hlt | ⟨-, hlt⟩
        · omega
        · exact absurd hid.symm hlt.ne
    have hmem : x ∈ ((c.advance d).1.advanceAll docs).2 ↔ x ∈ docs ∧ ¬c.Before x := by
      rw [ih hsorted]
      exact and_congr_right fun hx => not_congr (hrest hx)
    rw [advanceAll_cons]
    dsimp only
    split
    · next hnew =>
      rw [mem_cons, mem_cons, hmem, or_and_right]
      exact or_congr_left ⟨fun h => ⟨h, h ▸ advance_snd.mp hnew⟩, And.left⟩
    · next hold =>
      rw [mem_cons, hmem, or_and_right]
      refine (or_iff_right fun h => ?_).symm
      exact hold (advance_snd.mpr (h.1 ▸ h.2))

/-! ### What a page has -/

theorem pairwise_sortByKey_lt (hids : (docs.map Doc.id).Nodup) :
    (sortByKey Doc.key docs).Pairwise fun a b => a.key < b.key := by
  have hids' : ((sortByKey Doc.key docs).map Doc.id).Nodup := ((perm_sortByKey Doc.key docs).map _).nodup_iff.mpr hids
  refine ((pairwise_sortByKey Doc.key docs).and (pairwise_map.mp hids')).imp fun {a b} h => ?_
  exact lt_of_le_of_ne h.1 fun heq => h.2 (congrArg (fun k => (ofLex k).2) heq)

variable {l : List (Doc β)} {n : ℕ} {f : Doc β}

theorem mem_take_or (hsorted : l.Pairwise fun a b => a.key < b.key) (hx : x ∈ l) :
    x ∈ l.take n ∨ (l.take n).length = n ∧ ∀ y ∈ l.take n, y.key < x.key := by
  rw [← take_append_drop n l] at hx hsorted
  rcases mem_append.mp hx with hx | hx
  · exact .inl hx
  · refine .inr ⟨?_, fun y hy => (pairwise_append.mp hsorted).2.2 y hy x hx⟩
    have hne := length_pos_of_mem hx
    rw [length_drop] at hne
    rw [length_take]
    omega

theorem page_spec {since : Option ℕ} {limit : ℕ} {startAfter : Option String} {rows : List (Doc β)}
    (h : page docs since true limit startAfter = some rows) (hids : (docs.map Doc.id).Nodup) :
    (rows.Pairwise fun a b => a.key < b.key) ∧ (∀ x ∈ rows, x ∈ docs ∧ ∀ s ∈ since, s ≤ x.createdAt) ∧
    ∀ x ∈ docs, (∀ s ∈ since, s ≤ x.createdAt) → (∀ id ∈ startAfter, ∀ a ∈ docs, a.id = id → a.key < x.key) →
      x ∈ rows ∨ rows.length = limit ∧ ∀ y ∈ rows, y.key < x.key := by
  have hsorted := pairwise_sortByKey_lt hids
  have hrow {x : Doc β} (hx : x ∈ (sortByKey Doc.key docs).filter fun d => since.all fun s => s ≤ d.createdAt) :
      x ∈ docs ∧ ∀ s ∈ since, s ≤ x.createdAt := by
    simpa [Option.all_eq_true] using hx
  unfold page at h
  dsimp only at h
  split at h
  · obtain rfl := some.inj h
    simp only [if_true]
    refine ⟨(hsorted.filter _).take, fun x hx => ?_, fun x hx hsince _ => ?_⟩
    · exact hrow (mem_of_mem_take hx)
    · refine mem_take_or (hsorted.filter _) (mem_filter.mpr ⟨(mem_sortByKey _).mpr hx, ?_⟩)
      simpa [Option.all_eq_true] using hsince
  · next id =>
    obtain ⟨a, ha, rfl⟩ := map_eq_some_iff.mp h
    simp only [if_true]
    refine ⟨((hsorted.filter _).filter _).take, fun x hx => ?_, fun x hx hsince hafter => ?_⟩
    · exact hrow (mem_of_mem_filter (mem_of_mem_take hx))
    · refine mem_take_or ((hsorted.filter _).filter _) (mem_filter.mpr
        ⟨mem_filter.mpr ⟨(mem_sortByKey _).mpr hx, ?_⟩, ?_⟩)
      · simpa [Option.all_eq_true] using hsince
      · exact decide_eq_true (hafter id rfl a (mem_of_find?_eq_some ha) (by simpa using find?_some ha))

/-! ### Priming -/

/-- What is stored, newest first. -/
def newestFirst (docs : List (Doc β)) : List (Doc β) := (sortByKey Doc.key docs).reverse

@[simp]
theorem mem_newestFirst : x ∈ newestFirst docs ↔ x ∈ docs := by
  rw [newestFirst, mem_reverse, mem_sortByKey]

theorem pairwise_newestFirst (hids : (docs.map Doc.id).Nodup) : (newestFirst docs).Pairwise fun a b => b.key < a.key :=
  pairwise_reverse.mpr (pairwise_sortByKey_lt hids)

theorem page_newest : page docs none false pageSize none = some ((newestFirst docs).take pageSize) := by
  have hall : ((sortByKey Doc.key docs).filter fun d => (none : Option ℕ).all fun s => s ≤ d.createdAt) =
      sortByKey Doc.key docs := filter_eq_self.mpr fun d _ => rfl
  rw [page, hall]
  rfl

theorem createdAt_le_of_mem_drop (hsorted : l.Pairwise fun a b => b.key < a.key)
    (hf : l[n]? = some f) (hx : x ∈ l.drop n) : x.createdAt ≤ f.createdAt := by
  obtain ⟨hlt, rfl⟩ := List.getElem?_eq_some_iff.mp hf
  rw [drop_eq_getElem_cons hlt] at hx
  rcases mem_cons.mp hx with rfl | hx
  · exact le_rfl
  · have hrest := hsorted.sublist (drop_sublist n l)
    rw [drop_eq_getElem_cons hlt] at hrest
    rcases Doc.key_lt_iff.mp ((pairwise_cons.mp hrest).1 x hx) with h | ⟨h, -⟩ <;> omega

theorem lt_countP_of_mem_drop (hsorted : l.Pairwise fun a b => b.key < a.key) {k : ℕ}
    (hf : l[k]? = some f) (hx : x ∈ (l.drop k).drop n) (heq : x.createdAt = f.createdAt) :
    n < l.countP fun d => d.createdAt = f.createdAt := by
  have hdesc := hsorted.sublist (drop_sublist k l)
  rw [← take_append_drop n (l.drop k), pairwise_append] at hdesc
  have hsame (y : Doc β) (hy : y ∈ (l.drop k).take n) : decide (y.createdAt = f.createdAt) = true := by
    have hle := createdAt_le_of_mem_drop hsorted hf (mem_of_mem_take hy)
    refine decide_eq_true ?_
    rcases Doc.key_lt_iff.mp (hdesc.2.2 y hy x hx) with h | ⟨h, -⟩ <;> omega
  have hfull : ((l.drop k).take n).length = n := by
    have hpos := length_pos_of_mem hx
    rw [length_drop] at hpos
    rw [length_take]
    omega
  have hone : 0 < ((l.drop k).drop n).countP fun d => d.createdAt = f.createdAt :=
    countP_pos_iff.mpr ⟨x, hx, decide_eq_true heq⟩
  rw [← take_append_drop k l, countP_append, ← take_append_drop n (l.drop k), countP_append,
    countP_eq_length.mpr hsame, hfull]
  omega

theorem before_primedFrom {lookback : ℕ} (hids : (docs.map Doc.id).Nodup) (hlookback : lookback < pageSize)
    (hgroups : ∀ t, docs.countP (fun d => d.createdAt = t) ≤ pageSize - lookback) (hx : x ∈ docs) :
    (Cursor.primedFrom ((newestFirst docs).take pageSize) lookback).Before x ↔
        x ∉ (newestFirst docs).take lookback := by
  have hsorted := pairwise_newestFirst hids
  have hx' : x ∈ newestFirst docs := mem_newestFirst.mpr hx
  unfold Cursor.primedFrom
  split
  · next f hf =>
    rw [getElem?_take_of_lt hlookback] at hf
    obtain ⟨hlt, hget⟩ := List.getElem?_eq_some_iff.mp hf
    have hsplit := take_append_drop lookback (newestFirst docs)
    have hparts := hsorted
    rw [← hsplit, pairwise_append] at hparts
    have hfirst : f ∈ (newestFirst docs).drop lookback := by
      rw [drop_eq_getElem_cons hlt, hget]
      exact mem_cons_self
    constructor
    · rintro ⟨s, hs, hbefore⟩ hmem
      obtain rfl := some.inj hs
      rcases hbefore with hlt | ⟨heq, hseen⟩
      · rcases Doc.key_lt_iff.mp (hparts.2.2 x hmem f hfirst) with h | ⟨h, -⟩ <;> omega
      · -- A seen document is after the first skipped one, and has its own id.
        obtain ⟨y, hy, hid⟩ := mem_map.mp hseen
        have hy' : y ∈ (newestFirst docs).drop lookback := by
          have := mem_of_mem_filter hy
          rw [drop_take] at this
          exact mem_of_mem_take this
        have hyx : y = x := inj_on_of_nodup_map hids (mem_newestFirst.mp (mem_of_mem_drop hy')) hx hid
        exact absurd (hparts.2.2 x hmem x (hyx ▸ hy')) (lt_irrefl _)
    · intro hno
      have hmem : x ∈ (newestFirst docs).drop lookback := by
        rw [← hsplit] at hx'
        exact (mem_append.mp hx').resolve_left hno
      rcases Nat.lt_or_eq_of_le (createdAt_le_of_mem_drop hsorted hf hmem) with hlt | heq
      · exact ⟨f.createdAt, rfl, .inl hlt⟩
      · refine ⟨f.createdAt, rfl, .inr ⟨heq, mem_map.mpr ⟨x, mem_filter.mpr ⟨?_, decide_eq_true heq⟩, rfl⟩⟩⟩
        -- Beyond the page there would be more documents of one time than there may be.
        rw [drop_take]
        by_contra hbeyond
        have hlast : x ∈ ((newestFirst docs).drop lookback).drop (pageSize - lookback) := by
          rw [← take_append_drop (pageSize - lookback) ((newestFirst docs).drop lookback)] at hmem
          exact (mem_append.mp hmem).resolve_left hbeyond
        have hcount := lt_countP_of_mem_drop hsorted hf hlast heq
        have hperm : (newestFirst docs).Perm docs := (reverse_perm _).trans (perm_sortByKey _ _)
        rw [hperm.countP_eq] at hcount
        exact absurd (hgroups f.createdAt) (Nat.not_le.mpr hcount)
  · next hnone =>
    have hshort : (newestFirst docs).length ≤ lookback := by
      have := List.getElem?_eq_none_iff.mp hnone
      rw [length_take] at this
      omega
    rw [take_of_length_le hshort]
    refine iff_of_false ?_ (not_not.mpr hx')
    rintro ⟨s, hs, -⟩
    rw [if_neg] at hs
    · cases hs
    · rw [length_take]
      omega

end DashForge.Stream
