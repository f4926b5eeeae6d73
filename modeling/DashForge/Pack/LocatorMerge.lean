import DashForge.Data.KWayMerge
import DashForge.Pack.Locator
import Mathlib.Data.Finset.Card

/-!
# Merging object locators

The index-consolidation step (`pack/locator.rs`): published locators are merged into one by a k-way
merge over their rows, keyed by OID and pack, and the fanout is counted anew.

The fanout holds 32-bit counts. A merge of fewer than `2 ^ 32` distinct rows is accepted and keeps
every key of its parts (`locatorFaithful_iff`); from there on its counts wrap around and it is
refused.
-/

namespace DashForge

open List

/-- The rows that start with `b`, counted in 32 bits. -/
def bucketCount (rows : List Bytes) (b : ℕ) : ℕ := rows.countP (fun r => rowByte r = b) % 2 ^ 32

/-- The cumulative count through `b`, in 32 bits. -/
def fanoutOf (rows : List Bytes) (b : ℕ) : ℕ :=
  ((range (b + 1)).map (bucketCount rows)).sum % 2 ^ 32

namespace ObjectLocator

/-- The locator of rows that are sorted already. -/
def fromSortedRows (rows : List Bytes) : ObjectLocator where
  bytes := (range 256).flatMap (fun b => toBe 4 (fanoutOf rows b)) ++ rows.flatten
  count := rows.length

/-- Merge locators into one. -/
def merge (parts : List ObjectLocator) : ObjectLocator :=
  fromSortedRows (mergeByKey rowKey (parts.map rows))

end ObjectLocator

/-! ### Chunks of one width -/

theorem length_flatten_of_width {α : Type*} {w : ℕ} {chunks : List (List α)}
    (hw : ∀ c ∈ chunks, c.length = w) : chunks.flatten.length = chunks.length * w := by
  induction chunks with
  | nil => simp
  | cons c chunks ih =>
    rw [flatten_cons, length_append, hw c mem_cons_self,
      ih fun d hd => hw d (mem_cons_of_mem _ hd), length_cons, add_mul]
    omega

theorem take_drop_flatten {α : Type*} {w : ℕ} {chunks : List (List α)}
    (hw : ∀ c ∈ chunks, c.length = w) (rest : List α) {i : ℕ} (hi : i < chunks.length) :
    ((chunks.flatten ++ rest).take (i * w + w)).drop (i * w) = chunks[i] := by
  induction chunks generalizing i with
  | nil => simp at hi
  | cons c chunks ih =>
    have hc := hw c mem_cons_self
    cases i with
    | zero =>
      simp only [zero_mul, zero_add, drop_zero, flatten_cons, append_assoc,
        getElem_cons_zero]
      rw [← hc, take_left']
      rfl
    | succ i =>
      have hrest := ih (fun d hd => hw d (mem_cons_of_mem _ hd)) (by simpa using hi)
      have hadd : (i + 1) * w = c.length + i * w := by rw [hc, add_mul]; omega
      rw [hadd, flatten_cons, append_assoc, add_assoc, take_length_add_append,
        drop_length_add_append, hrest]
      rfl

/-! ### Counting sorted rows -/

theorem fanoutOf_eq (rows : List Bytes) (b : ℕ) : fanoutOf rows b = rows.countP (fun r => rowByte r ≤ b) % 2 ^ 32 := by
  have hsum : ∀ n, ((range n).map (bucketCount rows)).sum % 2 ^ 32 =
      rows.countP (fun r => rowByte r < n) % 2 ^ 32 := by
    intro n
    induction n with
    | zero => simp
    | succ n ih =>
      have hsplit : rows.countP (fun r => rowByte r < n + 1) =
          rows.countP (fun r => rowByte r < n) + rows.countP (fun r => rowByte r = n) := by
        clear ih
        induction rows with
        | nil => rfl
        | cons r rows ihr =>
          simp only [countP_cons, ihr, decide_eq_true_eq]
          split <;> split <;> split <;> omega
      rw [range_succ, map_append, sum_append, Nat.add_mod, ih, hsplit]
      simp [bucketCount]
  rw [fanoutOf, hsum]
  simp only [Nat.lt_succ_iff]

theorem lt_countP_iff {α : Type*} {f : α → ℕ} {l : List α} (hl : l.Pairwise fun a b => f a ≤ f b)
    (b : ℕ) {i : ℕ} (hi : i < l.length) : i < l.countP (fun a => f a ≤ b) ↔ f l[i] ≤ b := by
  induction l generalizing i with
  | nil => simp at hi
  | cons a l ih =>
    obtain ⟨ha, hl⟩ := pairwise_cons.mp hl
    by_cases hab : f a ≤ b
    · rw [countP_cons_of_pos (by simpa using hab)]
      cases i with
      | zero => simpa using hab
      | succ i => simpa using ih hl (by simpa using hi)
    · have hall : ∀ c ∈ l, ¬f c ≤ b := fun c hc => by have := ha c hc; omega
      have hzero : l.countP (fun a => f a ≤ b) = 0 := by
        rw [countP_eq_zero]
        simpa using hall
      rw [countP_cons_of_neg (by simpa using hab), hzero]
      cases i with
      | zero => simpa using hab
      | succ i => simpa using hall _ (getElem_mem (by simpa using hi))

/-! ### The locator of sorted rows -/

section

variable {rows : List Bytes} (hlen : ∀ r ∈ rows, r.length = locatorRowLen)

theorem fanoutAt_fromSortedRows {b : ℕ} (hb : b < 256) : fanoutAt (ObjectLocator.fromSortedRows rows).bytes b =
      rows.countP (fun r => rowByte r ≤ b) % 2 ^ 32 := by
  have hchunks : ∀ c ∈ (range 256).map (fun b => toBe 4 (fanoutOf rows b)), c.length = 4 := by
    intro c hc
    obtain ⟨b, -, rfl⟩ := mem_map.mp hc
    exact length_toBe _ _
  have hlt : fanoutOf rows b < 256 ^ 4 := Nat.mod_lt _ (by decide)
  rw [fanoutAt, ObjectLocator.fromSortedRows, flatMap_def,
    take_drop_flatten hchunks rows.flatten (by simpa using hb), getElem_map,
    getElem_range, beNat_toBe_of_lt hlt, fanoutOf_eq]

theorem length_fanout (rows : List Bytes) :
    ((range 256).flatMap fun b => toBe 4 (fanoutOf rows b)).length = fanoutLen := by
  rw [flatMap_def, length_flatten_of_width (w := 4)]
  · simp [fanoutLen]
  · intro c hc
    obtain ⟨b, -, rfl⟩ := mem_map.mp hc
    exact length_toBe _ _

include hlen

theorem rowAt_fromSortedRows {i : ℕ} (hi : i < rows.length) :
    rowAt (ObjectLocator.fromSortedRows rows).bytes i = rows[i] := by
  have hrow := take_drop_flatten hlen [] hi
  rw [append_nil] at hrow
  simp only [rowAt, ObjectLocator.fromSortedRows]
  rw [← length_fanout rows, take_length_add_append, drop_length_add_append, hrow]

theorem rows_fromSortedRows : (ObjectLocator.fromSortedRows rows).rows = rows := by
  refine ext_getElem (by simp [ObjectLocator.rows, ObjectLocator.fromSortedRows])
    fun i hi hi' => ?_
  simp only [ObjectLocator.rows, getElem_map, getElem_range]
  exact rowAt_fromSortedRows hlen hi'

theorem locatorOk_fromSortedRows_iff (hsorted : rows.Pairwise fun r r' => rowKey r ≤ rowKey r') :
    LocatorOk (ObjectLocator.fromSortedRows rows) ↔ rows.length < 2 ^ 32 := by
  have hall : rows.countP (fun r => rowByte r ≤ 255) = rows.length := by
    rw [countP_eq_length]
    intro r _
    have hbyte : rowByte r < 256 := (r.headD 0).toNat_lt
    exact decide_eq_true (by omega)
  constructor
  · intro h
    have hcount := h.count_eq
    rw [fanoutAt_fromSortedRows (by decide), hall] at hcount
    have : rows.length = rows.length % 2 ^ 32 := hcount
    have := Nat.mod_lt rows.length (by decide : 0 < 2 ^ 32)
    omega
  · intro hcount
    have hfan : ∀ b < 256, fanoutAt (ObjectLocator.fromSortedRows rows).bytes b =
        rows.countP (fun r => rowByte r ≤ b) := by
      intro b hb
      have := countP_le_length (p := fun r => decide (rowByte r ≤ b)) (l := rows)
      rw [fanoutAt_fromSortedRows hb, Nat.mod_eq_of_lt (by omega)]
    have hbytes : rows.Pairwise fun r r' => rowByte r ≤ rowByte r' := by
      refine hsorted.imp_of_mem fun {r r'} hr hr' hle => ?_
      -- the first byte is the highest digit of the key
      rw [rowKey_le_iff (hlen r hr) (hlen r' hr')] at hle
      have hfirst : ∀ r ∈ rows, ∃ rest, beNat (rowOid r) = rowByte r * 256 ^ 19 + rest ∧ rest < 256 ^ 19 := by
        intro r hr
        obtain ⟨c, l, hcl⟩ : ∃ c l, rowOid r = c :: l := by
          cases hoid : rowOid r with
          | nil => simpa [hoid, oidLen] using length_rowOid (hlen r hr)
          | cons c l => exact ⟨c, l, rfl⟩
        have hl : l.length = 19 := by
          have := length_rowOid (hlen r hr)
          simpa [hcl, oidLen] using this
        refine ⟨beNat l, ?_, hl ▸ beNat_lt l⟩
        rw [rowByte_eq_of_rowOid (hlen r hr), hcl, beNat_cons, hl]
        rfl
      obtain ⟨x, hx, hxlt⟩ := hfirst r hr
      obtain ⟨y, hy, hylt⟩ := hfirst r' hr'
      have := rowPackRef_lt r
      have := rowPackRef_lt r'
      omega
    refine ⟨?_, ?_, fun b hb => ?_, ?_⟩
    · rw [hfan 255 (by decide), hall]
      rfl
    · simp only [ObjectLocator.fromSortedRows, length_append, length_fanout, length_flatten_of_width hlen]
    · have hstart : bucketStart (ObjectLocator.fromSortedRows rows).bytes b = rows.countP (fun r => rowByte r < b) := by
        unfold bucketStart
        split
        case isTrue hzero => simp [hzero]
        case isFalse hpos =>
          rw [hfan (b - 1) (by omega)]
          congr 1
          funext r
          rw [decide_eq_decide]
          omega
      refine ⟨?_, ?_, fun i hlo hhi => ?_⟩
      · rw [hstart, hfan b hb]
        exact countP_mono_left fun r _ h => by simp only [decide_eq_true_eq] at h ⊢; omega
      · rw [hfan b hb]
        exact countP_le_length
      · rw [hstart] at hlo
        rw [hfan b hb] at hhi
        have hi : i < rows.length := hhi.trans_le countP_le_length
        rw [rowAt_fromSortedRows hlen hi]
        have hle := (lt_countP_iff hbytes b hi).mp hhi
        rcases Nat.eq_zero_or_pos b with rfl | hpos
        · omega
        · have hprev : rows.countP (fun r => rowByte r < b) = rows.countP (fun r => rowByte r ≤ b - 1) := by
            congr 1
            funext r
            rw [decide_eq_decide]
            omega
          rw [hprev] at hlo
          have hge := (not_congr (lt_countP_iff hbytes (b - 1) hi)).mp (by omega)
          omega
    · rw [rows_fromSortedRows hlen]
      exact hsorted

end

/-! ### Merges -/

namespace ObjectLocator

/-- `lookup` reads no row out of range, and finds the row with the lowest pack among `rows` that
have the OID: none exactly when there is no such row. -/
def LooksUp (loc : ObjectLocator) (rows : List Bytes) : Prop :=
  ∀ oid, (loc.lookup oid = some none ∧ ∀ row ∈ rows, rowOid row ≠ oid) ∨
    ∃ row ∈ rows, rowOid row = oid ∧ loc.lookup oid = some (some (decodeRow row)) ∧
      ∀ row' ∈ rows, rowOid row' = oid → rowPackRef row ≤ rowPackRef row'

/-- The keys of the rows of two locators are the same. -/
def SameKeys (loc loc' : ObjectLocator) : Prop :=
  ∀ k, k ∈ loc.rows.map rowKey ↔ k ∈ loc'.rows.map rowKey

/-- The rows of all parts, part by part. -/
def allRows (parts : List ObjectLocator) : List Bytes := parts.flatMap rows

/-- A merge is an index of exactly its parts' rows. -/
structure MergeFaithful (parts : List ObjectLocator) : Prop where
  accepted : parse (merge parts).bytes = .ok (merge parts)
  increasing : (merge parts).rows.Pairwise fun r r' => rowKey r < rowKey r'
  keys : ∀ k, k ∈ (merge parts).rows.map rowKey ↔ k ∈ (allRows parts).map rowKey
  /-- Each row is the first part's row for its key. -/
  first : ∀ r ∈ (merge parts).rows,
    (allRows parts).find? (fun r' => rowKey r' = rowKey r) = some r
  lookup : (merge parts).LooksUp (allRows parts)
  /-- Merging parts or the merge itself into it again changes nothing. -/
  idempotent : ∀ again : List ObjectLocator, (∀ p ∈ again, p ∈ merge parts :: parts) →
    merge (merge parts :: again) = merge parts
  /-- The parts may come in any order and be merged in any groups first. -/
  regroup : ∀ groups : List (List ObjectLocator), groups.flatten.Perm parts →
    SameKeys (merge (groups.map merge)) (merge parts) ∧
      SameKeys (merge groups.flatten) (merge parts)

/-- The parts look up as indexes of their own rows, and merge into an index of all of them. -/
def LocatorFaithful (parts : List ObjectLocator) : Prop :=
  (∀ p ∈ parts, p.LooksUp p.rows) ∧ MergeFaithful parts

/-- The number of distinct keys in all parts. -/
def distinctKeys (parts : List ObjectLocator) : ℕ := ((allRows parts).map rowKey).toFinset.card

/-- Every row has its full width and the rows are in order. -/
def RowsOk (loc : ObjectLocator) : Prop :=
  (∀ r ∈ loc.rows, r.length = locatorRowLen) ∧
    loc.rows.Pairwise fun r r' => rowKey r ≤ rowKey r'

theorem rowsOk_of_locatorOk {loc : ObjectLocator} (h : LocatorOk loc) : loc.RowsOk := by
  refine ⟨fun r hr => ?_, h.sorted⟩
  obtain ⟨i, hi, rfl⟩ := mem_map.mp hr
  exact h.length_rowAt (mem_range.mp hi)

section

variable {parts : List ObjectLocator} (hparts : ∀ p ∈ parts, p.RowsOk)
include hparts

theorem allSorted_rows : AllSorted rowKey (parts.map rows) := by
  intro l hl
  obtain ⟨p, hp, rfl⟩ := mem_map.mp hl
  exact (hparts p hp).2

theorem length_of_mem_mergeByKey (r : Bytes) (hr : r ∈ mergeByKey rowKey (parts.map rows)) :
    r.length = locatorRowLen := by
  have hfind := ((mergeByKey_spec (allSorted_rows hparts)).2 r).mp hr
  obtain ⟨l, hl, hmem⟩ := mem_flatten.mp (mem_of_find?_eq_some hfind)
  obtain ⟨p, hp, rfl⟩ := mem_map.mp hl
  exact (hparts p hp).1 r hmem

theorem rows_merge : (merge parts).rows = mergeByKey rowKey (parts.map rows) :=
  rows_fromSortedRows (length_of_mem_mergeByKey hparts)

theorem increasing_merge : (merge parts).rows.Pairwise fun r r' => rowKey r < rowKey r' := by
  rw [rows_merge hparts]
  exact (mergeByKey_spec (allSorted_rows hparts)).1

theorem rowsOk_merge : (merge parts).RowsOk := by
  refine ⟨?_, (increasing_merge hparts).imp le_of_lt⟩
  rw [rows_merge hparts]
  exact length_of_mem_mergeByKey hparts

theorem mem_rows_merge (r : Bytes) :
    r ∈ (merge parts).rows ↔ (allRows parts).find? (fun r' => rowKey r' = rowKey r) = some r := by
  rw [rows_merge hparts, (mergeByKey_spec (allSorted_rows hparts)).2 r, allRows, flatMap_def]
  congr!

theorem mem_keys_merge (k : Bytes) : k ∈ (merge parts).rows.map rowKey ↔ k ∈ (allRows parts).map rowKey := by
  rw [rows_merge hparts, mem_map, exists_mem_mergeByKey_iff (allSorted_rows hparts),
    mem_map, allRows, flatMap_def]

theorem length_rows_merge : (merge parts).rows.length = distinctKeys parts := by
  have hnodup : ((merge parts).rows.map rowKey).Nodup :=
    pairwise_map.mpr ((increasing_merge hparts).imp ne_of_lt)
  have hset : ((merge parts).rows.map rowKey).toFinset = ((allRows parts).map rowKey).toFinset := by
    ext k
    simpa only [mem_toFinset] using mem_keys_merge hparts k
  rw [distinctKeys, ← hset, toFinset_card_of_nodup hnodup, length_map]

/-- A merge is accepted as long as its distinct rows can be counted in 32 bits. -/
theorem locatorOk_merge_iff : LocatorOk (merge parts) ↔ distinctKeys parts < 2 ^ 32 := by
  have hrows := rows_merge hparts
  have hiff := locatorOk_fromSortedRows_iff (length_of_mem_mergeByKey hparts)
    ((mergeByKey_spec (allSorted_rows hparts)).1.imp le_of_lt)
  rw [← length_rows_merge hparts, hrows]
  exact hiff

theorem lookup_merge (hok : LocatorOk (merge parts)) : (merge parts).LooksUp (allRows parts) := by
  intro oid
  -- a row of a part has the key, and so the OID and the pack, of a row of the merge
  have hkey : ∀ row ∈ allRows parts, ∃ r ∈ (merge parts).rows, rowOid r = rowOid row ∧
      rowPackRef r = rowPackRef row := by
    intro row hrow
    obtain ⟨r, hr, hk⟩ := mem_map.mp
      ((mem_keys_merge hparts _).mpr (mem_map_of_mem (f := rowKey) hrow))
    have hoid : ∀ s : Bytes, rowOid s = (rowKey s).take oidLen := by
      intro s
      rw [rowKey, take_take]
      rfl
    have hpack : ∀ s : Bytes, rowPackRef s = beNat ((rowKey s).drop oidLen) := fun s => rfl
    exact ⟨r, hr, by rw [hoid, hk, ← hoid], by rw [hpack, hk, ← hpack]⟩
  rcases hok.lookup_spec oid with ⟨hnone, hall⟩ | ⟨r, hr, hoid, hsome, hmin⟩
  · refine .inl ⟨hnone, fun row hrow hoid => ?_⟩
    obtain ⟨r, hr, hro, -⟩ := hkey row hrow
    exact hall r hr (hro.trans hoid)
  · refine .inr ⟨r, ?_, hoid, hsome, fun row hrow hrowOid => ?_⟩
    · exact mem_of_find?_eq_some ((mem_rows_merge hparts r).mp hr)
    · obtain ⟨r', hr', hro, hrp⟩ := hkey row hrow
      rw [← hrp]
      exact hmin r' hr' (hro.trans hrowOid)

theorem merge_absorb {again : List ObjectLocator} (hagain : ∀ p ∈ again, p ∈ merge parts :: parts) :
    merge (merge parts :: again) = merge parts := by
  have hrowsOk : ∀ p ∈ again, p.RowsOk := by
    intro p hp
    rcases mem_cons.mp (hagain p hp) with rfl | hp
    · exact rowsOk_merge hparts
    · exact hparts p hp
  have hkeys : ∀ r ∈ (again.map rows).flatten, ∃ r' ∈ (parts.map rows).flatten, rowKey r' = rowKey r := by
    intro r hr
    rw [← flatMap_def] at hr ⊢
    obtain ⟨p, hp, hrp⟩ := mem_flatMap.mp hr
    rcases mem_cons.mp (hagain p hp) with rfl | hp
    · exact mem_map.mp ((mem_keys_merge hparts _).mp (mem_map_of_mem hrp))
    · exact ⟨r, mem_flatMap.mpr ⟨p, hp, hrp⟩, rfl⟩
  have habsorb := mergeByKey_absorb (allSorted_rows hparts) (allSorted_rows hrowsOk) hkeys
  rw [merge, map_cons, rows_merge hparts, habsorb]
  rfl

theorem sameKeys_merge_groups {groups : List (List ObjectLocator)} (hperm : groups.flatten.Perm parts) :
    SameKeys (merge (groups.map merge)) (merge parts) ∧ SameKeys (merge groups.flatten) (merge parts) := by
  have hflat : ∀ p ∈ groups.flatten, p.RowsOk := fun p hp => hparts p (hperm.mem_iff.mp hp)
  have hgroup : ∀ g ∈ groups, ∀ p ∈ g, p.RowsOk := fun g hg p hp =>
    hflat p (mem_flatten.mpr ⟨g, hg, hp⟩)
  have hmerged : ∀ p ∈ groups.map merge, p.RowsOk := by
    intro p hp
    obtain ⟨g, hg, rfl⟩ := mem_map.mp hp
    exact rowsOk_merge (hgroup g hg)
  have hkeys : ∀ k, (k ∈ (allRows groups.flatten).map rowKey ↔ k ∈ (allRows parts).map rowKey) :=
    fun k => ((hperm.flatMap_right rows).map rowKey).mem_iff
  refine ⟨fun k => ?_, fun k => ?_⟩
  · rw [mem_keys_merge hmerged, mem_keys_merge hparts, ← hkeys]
    simp only [allRows, map_flatMap, mem_flatMap, mem_map, mem_flatten]
    constructor
    · rintro ⟨_, ⟨g, hg, rfl⟩, hk⟩
      obtain ⟨r, hr, rfl⟩ := mem_map.mp
        ((mem_keys_merge (hgroup g hg) k).mp (mem_map.mpr hk))
      obtain ⟨p, hp, hrp⟩ := mem_flatMap.mp hr
      exact ⟨p, ⟨g, hg, hp⟩, r, hrp, rfl⟩
    · rintro ⟨p, ⟨g, hg, hp⟩, r, hr, rfl⟩
      refine ⟨merge g, ⟨g, hg, rfl⟩, ?_⟩
      refine mem_map.mp ((mem_keys_merge (hgroup g hg) _).mpr ?_)
      exact mem_map_of_mem (mem_flatMap.mpr ⟨p, hp, hr⟩)
  · rw [mem_keys_merge hflat, mem_keys_merge hparts, hkeys]

end

/-- Locators that were accepted look up every OID at its lowest pack, and merge into a locator that
is accepted, keeps exactly their keys and does not depend on the grouping or order of the parts, if
and only if the distinct keys of all parts can be counted in 32 bits. -/
theorem locatorFaithful_iff {parts : List ObjectLocator}
    (hparts : ∀ p ∈ parts, ∃ bytes, parse bytes = .ok p) :
    LocatorFaithful parts ↔ distinctKeys parts < 2 ^ 32 := by
  have hok : ∀ p ∈ parts, LocatorOk p := by
    intro p hp
    obtain ⟨bytes, hbytes⟩ := hparts p hp
    exact (parse_eq_ok_iff.mp hbytes).1
  have hrows : ∀ p ∈ parts, p.RowsOk := fun p hp => rowsOk_of_locatorOk (hok p hp)
  rw [← locatorOk_merge_iff hrows]
  constructor
  · rintro ⟨-, hmerge⟩
    exact (parse_eq_ok_iff.mp hmerge.accepted).1
  · intro hmerge
    refine ⟨fun p hp oid => (hok p hp).lookup_spec oid, ?_⟩
    exact {
      accepted := parse_eq_ok_iff.mpr ⟨hmerge, rfl⟩
      increasing := increasing_merge hrows
      keys := mem_keys_merge hrows
      first := fun r hr => (mem_rows_merge hrows r).mp hr
      lookup := lookup_merge hrows hmerge
      idempotent := fun again hagain => merge_absorb hrows hagain
      regroup := fun groups hperm => sameKeys_merge_groups hrows hperm }

/-! Locators whose rows have the keys `m`, …, `n - 1`. -/

/-- A row with key `i` and no other data. -/
def numberedRow (i : ℕ) : Bytes := toBe sortKeyLen i ++ replicate (locatorRowLen - sortKeyLen) 0

def numberedLocator (m n : ℕ) : ObjectLocator :=
  fromSortedRows ((List.range' m (n - m)).map numberedRow)

theorem length_numberedRow (i : ℕ) : (numberedRow i).length = locatorRowLen := by
  rw [numberedRow, length_append, length_toBe, length_replicate]
  rfl

theorem rowKey_numberedRow (i : ℕ) : rowKey (numberedRow i) = toBe sortKeyLen i := by
  rw [rowKey, numberedRow, take_left' (length_toBe _ _)]

theorem rowKey_numberedRow_lt {i j : ℕ} (hij : i < j) (hj : j < 2 ^ 32) :
    rowKey (numberedRow i) < rowKey (numberedRow j) := by
  have hpow : 2 ^ 32 ≤ 256 ^ sortKeyLen := by decide
  rw [rowKey_numberedRow, rowKey_numberedRow, ← beNat_lt_beNat_iff (by simp),
    beNat_toBe_of_lt (by omega), beNat_toBe_of_lt (by omega)]
  exact hij

theorem rows_numberedLocator (m n : ℕ) : (numberedLocator m n).rows = (List.range' m (n - m)).map numberedRow := by
  refine rows_fromSortedRows fun r hr => ?_
  obtain ⟨i, -, rfl⟩ := mem_map.mp hr
  exact length_numberedRow i

theorem parse_numberedLocator {m n : ℕ} (hn : n ≤ 2 ^ 32) (hlen : n - m < 2 ^ 32) :
    parse (numberedLocator m n).bytes = .ok (numberedLocator m n) := by
  refine parse_eq_ok_iff.mpr ⟨(locatorOk_fromSortedRows_iff (fun r hr => ?_) ?_).mpr ?_, rfl⟩
  · obtain ⟨i, -, rfl⟩ := mem_map.mp hr
    exact length_numberedRow i
  · refine pairwise_map.mpr ((pairwise_lt_range').imp_of_mem fun hi hj hij => ?_)
    rw [mem_range'_1] at hj
    exact (rowKey_numberedRow_lt hij (by omega)).le
  · rwa [length_map, length_range']

theorem distinctKeys_numbered {m n : ℕ} (hmn : m ≤ n) (hn : n ≤ 2 ^ 32) :
    distinctKeys [numberedLocator 0 m, numberedLocator m n] = n := by
  have hrows : (allRows [numberedLocator 0 m, numberedLocator m n]).map rowKey =
      (range n).map fun i => rowKey (numberedRow i) := by
    have hsplit : List.range' 0 (m - 0) ++ List.range' m (n - m) = range n := by
      rw [range_eq_range', Nat.sub_zero]
      have happend := range'_append_1 (s := 0) (m := m) (n := n - m)
      rwa [zero_add, Nat.add_sub_cancel' hmn] at happend
    rw [allRows, flatMap_cons, flatMap_singleton, rows_numberedLocator,
      rows_numberedLocator, ← map_append, hsplit, map_map, Function.comp_def]
  have hnodup : ((range n).map fun i => rowKey (numberedRow i)).Nodup := by
    refine pairwise_map.mpr (pairwise_lt_range.imp_of_mem fun _ hj hij => ?_)
    exact (rowKey_numberedRow_lt hij ((mem_range.mp hj).trans_le hn)).ne
  rw [distinctKeys, hrows, toFinset_card_of_nodup hnodup, length_map, length_range]

/-- Two locators with three keys merge into an index of all of them. -/
theorem locatorFaithful_numbered : LocatorFaithful [numberedLocator 0 2, numberedLocator 2 3] := by
  refine (locatorFaithful_iff fun p hp => ?_).mpr ?_
  · rcases mem_pair.mp hp with rfl | rfl
    · exact ⟨_, parse_numberedLocator (by decide) (by decide)⟩
    · exact ⟨_, parse_numberedLocator (by decide) (by decide)⟩
  · rw [distinctKeys_numbered (by decide) (by decide)]
    decide

/-- One row more than 32 bits can count: both locators are accepted, and their merge is not. -/
theorem not_locatorFaithful_numbered :
    (∀ p ∈ [numberedLocator 0 (2 ^ 32 - 1), numberedLocator (2 ^ 32 - 1) (2 ^ 32)],
        ∃ bytes, parse bytes = .ok p) ∧
      ¬LocatorFaithful [numberedLocator 0 (2 ^ 32 - 1), numberedLocator (2 ^ 32 - 1) (2 ^ 32)] := by
  have hparts : ∀ p ∈ [numberedLocator 0 (2 ^ 32 - 1), numberedLocator (2 ^ 32 - 1) (2 ^ 32)],
      ∃ bytes, parse bytes = .ok p := by
    intro p hp
    rcases mem_pair.mp hp with rfl | rfl
    · exact ⟨_, parse_numberedLocator (by decide) (by decide)⟩
    · exact ⟨_, parse_numberedLocator (by decide) (by decide)⟩
  refine ⟨hparts, fun h => ?_⟩
  have hrows : ∀ p ∈ [numberedLocator 0 (2 ^ 32 - 1), numberedLocator (2 ^ 32 - 1) (2 ^ 32)],
      p.RowsOk := by
    intro p hp
    obtain ⟨bytes, hbytes⟩ := hparts p hp
    exact rowsOk_of_locatorOk (parse_eq_ok_iff.mp hbytes).1
  have hlt := (locatorOk_merge_iff hrows).mp (parse_eq_ok_iff.mp h.2.accepted).1
  rw [distinctKeys_numbered (by decide) (by decide)] at hlt
  exact lt_irrefl _ hlt

end ObjectLocator

end DashForge
