import DashForge.Boards.Query
import DashForge.Boards.Rank
import DashForge.Data.SortBy

/-!
# The board fold

`foldBoard` (`rules/boards.rs`) says where every item shows: an item is on the board when a source
matches it or a member's card names it, its column is the one its newest card names unless it is
finished and has to be at Done, and a column lists its visible items in rank order.

`FoldOk` is what every client relies on: no item is lost or listed twice, whatever the cards say.
`foldBoard_places` states it for every accepted spec, with the independence of the order of the
cards.
-/

namespace DashForge

open List

/-- A column's visible items, in rank order. -/
structure ColumnItems where
  id : ℕ
  items : List String
deriving DecidableEq, Repr

/-- A board folded. -/
structure BoardFold where
  /-- One per input item, in input order. -/
  items : List Placement
  /-- "No status" first while it holds an item, then every column in order. -/
  columns : List ColumnItems
deriving DecidableEq, Repr

/-! ### Where one item shows -/

/-- The value of a signed 64-bit sum, which wraps around. -/
def wrapI64 (n : ℤ) : ℤ := Int.bmod n (2 ^ 64)

/-- `u8::try_from`. -/
def u8OfI64 (n : ℤ) : Option ℕ := if 0 ≤ n ∧ n ≤ 255 then some n.toNat else none

/-- An item is finished unless it is open. -/
def BoardItem.finished (item : BoardItem) : Bool := item.state ≠ .isOpen

/-- The position of the Done column, if one is set. -/
def BoardSpec.doneIndex (spec : BoardSpec) : Option ℕ :=
  if spec.done ≠ 0 then spec.columnIndex spec.done else none

/-- The column a card names, if it is one of the spec's. -/
def cardCol (spec : BoardSpec) (card : Option CardDoc) : Option ℕ :=
  ((card.bind CardDoc.col).bind u8OfI64).filter fun c => (spec.columnIndex c).isSome

/-- The column of an item with newest card `card`. -/
def placeCol (spec : BoardSpec) (item : BoardItem) (card : Option CardDoc) : ℕ :=
  let own := cardCol spec card
  -- a finished item keeps its card's column from Done on
  let keeps (d : ℕ) := (own.bind spec.columnIndex).any fun i => decide (d ≤ i)
  match spec.doneIndex with
  | some d => if item.finished && !keeps d then spec.done else own.getD spec.dflt
  | none => own.getD spec.dflt

/-- Why an item is archived: its card says so, or it has been finished for `arch` days and no card
was written since. -/
def archivedBy (spec : BoardSpec) (item : BoardItem) (card : Option CardDoc) (now : ℤ) :
    Option ArchivedBy :=
  if card.any fun c => c.state = cardArchived then some .card
  else match item.closedAt with
    | some closed =>
      if spec.arch > 0 ∧ item.finished ∧ card.all (fun c => decide (c.updatedAt < closed)) ∧
          wrapI64 (closed + spec.arch * dayMs) ≤ now then some .auto
      else none
    | none => none

/-- The rank of an item with newest card `card`. -/
def placeRank (item : BoardItem) (card : Option CardDoc) : String :=
  ((card.bind CardDoc.rank).filter isExplicitRank).getD (implicitRankOf item.createdAt item.id)

/-- Where one item shows. -/
def placeItem (env : BoardEnv) (spec : BoardSpec) (home : String)
    (newest : String → Option CardDoc) (now : ℤ) (item : BoardItem) : Placement :=
  let card := newest item.id
  let sourced := (spec.sources.map fun s => (s, parseSourceQuery env s.q spec)).any fun (s, q) =>
    sourceMatches env s q item home spec now
  let removed := card.any fun c => c.state = cardRemoved
  { id := item.id
    on := (sourced || card.isSome) && !removed
    sourced := sourced
    removed := removed
    card := card.map CardDoc.id
    col := placeCol spec item card
    rank := placeRank item card
    archived := archivedBy spec item card now
    fields := card.elim [] fun c => parseFieldValues env c.f spec }

/-- The loop over the items: those whose id is in `seen` are skipped. -/
def placeItems (place : BoardItem → Placement) (seen : Finset String) :
    List BoardItem → List Placement
  | [] => []
  | item :: items =>
    if item.id ∈ seen then placeItems place seen items
    else place item :: placeItems place (insert item.id seen) items

/-! ### The columns -/

/-- Whether a placement shows: on the board and not archived. -/
def Placement.visible (p : Placement) : Bool := p.on && p.archived.isNone

/-- Order within a column: rank, then item id. -/
def byRank (p : Placement) : String ×ₗ String := toLex (p.rank, p.id)

/-- The visible placements of `out`, in rank order. -/
def shownIn (out : List Placement) : List Placement :=
  sortByKey byRank (out.filter Placement.visible)

/-- The ids of the placements of `visible` in a column. -/
def inCol (visible : List Placement) (id : ℕ) : List String :=
  (visible.filter fun p => p.col = id).map Placement.id

/-- The columns of a board with placements `out`. -/
def foldColumns (spec : BoardSpec) (out : List Placement) : List ColumnItems :=
  let visible := shownIn out
  let none := inCol visible 0
  (if none.isEmpty then [] else [⟨0, none⟩])
    ++ spec.columns.map fun c => ⟨c.id, inCol visible c.id⟩

/-- Where every item shows. -/
def foldBoard (env : BoardEnv) (spec : BoardSpec) (home : String) (items : List BoardItem)
    (cards : List CardDoc) (now : ℤ) : BoardFold :=
  let out := placeItems (placeItem env spec home (newestCards cards) now) ∅ items
  ⟨out, foldColumns spec out⟩

/-! ### What the fold promises -/

/-- `p` is where item `item` shows, the first of its id in the input. -/
structure Places (spec : BoardSpec) (items : List BoardItem) (cards : List CardDoc)
    (p : Placement) (item : BoardItem) : Prop where
  first : items.find? (fun i => i.id = p.id) = some item
  /-- The rank is the newest card's when that is well formed, else the implicit one. -/
  rank : (∃ c, IsNewest cards p.id c ∧ c.rank = some p.rank ∧ isExplicitRank p.rank = true) ∨
    p.rank = implicitRankOf item.createdAt item.id
  /-- A finished item is at Done or after it. -/
  done : item.state ≠ .isOpen → spec.done ≠ 0 →
    ∃ d i, spec.columnIndex spec.done = some d ∧ spec.columnIndex p.col = some i ∧ d ≤ i

/-- A fold that loses and duplicates no item. -/
structure FoldOk (spec : BoardSpec) (items : List BoardItem) (cards : List CardDoc)
    (fold : BoardFold) : Prop where
  /-- One placement per item id, in input order. -/
  nodup : (fold.items.map Placement.id).Nodup
  mem : ∀ id, id ∈ fold.items.map Placement.id ↔ id ∈ items.map BoardItem.id
  sublist : (fold.items.map Placement.id).Sublist (items.map BoardItem.id)
  places : ∀ p ∈ fold.items, ∃ item, Places spec items cards p item
  col : ∀ p ∈ fold.items, p.col = 0 ∨ p.col ∈ spec.columns.map BoardColumn.id
  /-- The ids listed are those of the visible placements, each once over all columns. -/
  listed : ∀ id, id ∈ fold.columns.flatMap ColumnItems.items ↔
    ∃ p ∈ fold.items, p.id = id ∧ p.on = true ∧ p.archived = none
  listed_nodup : (fold.columns.flatMap ColumnItems.items).Nodup
  /-- An item is listed in no column but that of its placement. -/
  listed_col : ∀ col ∈ fold.columns, ∀ p ∈ fold.items, p.id ∈ col.items → col.id = p.col
  columns_nodup : (fold.columns.map ColumnItems.id).Nodup
  /-- A column is sorted by rank and item id. -/
  sorted : ∀ col ∈ fold.columns, ∃ ps : List Placement, col.items = ps.map Placement.id ∧
    (∀ p ∈ ps, p ∈ fold.items) ∧ ps.Pairwise fun p q => byRank p ≤ byRank q
  /-- A finished item is listed in no column before Done. -/
  listed_done : ∀ p ∈ fold.items, ∀ item, items.find? (fun i => i.id = p.id) = some item →
    item.state ≠ .isOpen → spec.done ≠ 0 → ∀ (k j : ℕ) (ck cj : ColumnItems),
      fold.columns[k]? = some ck → p.id ∈ ck.items → fold.columns[j]? = some cj →
        cj.id = spec.done → j ≤ k

/-! ### Columns of a spec -/

variable {spec : BoardSpec} {out : List Placement} {col : ColumnItems}

theorem columnIndex_isSome_iff {id : ℕ} :
    (spec.columnIndex id).isSome = true ↔ id ∈ spec.columns.map BoardColumn.id := by
  simp [BoardSpec.columnIndex, findIdx?_isSome]

theorem columnIndex_eq_some (hs : SpecOk spec) {i : ℕ} {c : BoardColumn}
    (hc : spec.columns[i]? = some c) : spec.columnIndex c.id = some i := by
  obtain ⟨hi, rfl⟩ := List.getElem?_eq_some_iff.mp hc
  refine findIdx?_eq_some_iff_getElem.mpr ⟨hi, by simp, fun j hj => ?_⟩
  have hne := (pairwise_iff_getElem.mp hs.columns_nodup) j i (by simp; omega) (by simpa) hj
  simpa using hne

theorem cardCol_eq_some {card : Option CardDoc} {c : ℕ}
    (h : cardCol spec card = some c) : c ∈ spec.columns.map BoardColumn.id :=
  columnIndex_isSome_iff.mp (Option.filter_eq_some_iff.mp h).2

theorem getD_cardCol (hs : SpecOk spec) (card : Option CardDoc) : (cardCol spec card).getD spec.dflt = 0 ∨
      (cardCol spec card).getD spec.dflt ∈ spec.columns.map BoardColumn.id := by
  cases hcard : cardCol spec card with
  | none => exact hs.dflt_mem
  | some c => exact .inr (cardCol_eq_some hcard)

theorem placeCol_mem (hs : SpecOk spec) (item : BoardItem) (card : Option CardDoc) :
    placeCol spec item card = 0 ∨ placeCol spec item card ∈ spec.columns.map BoardColumn.id := by
  simp only [placeCol]
  split
  · split
    · exact hs.done_mem
    · exact getD_cardCol hs card
  · exact getD_cardCol hs card

theorem placeCol_done (hs : SpecOk spec) {item : BoardItem}
    (hitem : item.state ≠ .isOpen) (hdone : spec.done ≠ 0) (card : Option CardDoc) :
    ∃ d i, spec.columnIndex spec.done = some d ∧ spec.columnIndex (placeCol spec item card) = some i ∧ d ≤ i := by
  have hmem := hs.done_mem.resolve_left hdone
  obtain ⟨d, hd⟩ := Option.isSome_iff_exists.mp (columnIndex_isSome_iff.mpr hmem)
  have hindex : spec.doneIndex = some d := by simp [BoardSpec.doneIndex, hdone, hd]
  have hfin : item.finished = true := by simp [BoardItem.finished, hitem]
  refine ⟨d, ?_⟩
  simp only [placeCol, hindex, hfin, Bool.true_and]
  -- either the card's column is at Done or after it, or the item is moved to Done
  cases hkeeps : ((cardCol spec card).bind spec.columnIndex).any fun i => decide (d ≤ i) with
  | false => exact ⟨d, hd, by simpa [hkeeps] using hd, le_rfl⟩
  | true =>
    obtain ⟨i, hi, hle⟩ := (Option.any_eq_true _ _).mp hkeeps
    obtain ⟨c, hc, hci⟩ := Option.bind_eq_some_iff.mp hi
    exact ⟨i, hd, by simpa [hkeeps, hc] using hci, of_decide_eq_true hle⟩

theorem placeRank_cases (item : BoardItem) (card : Option CardDoc) :
    (∃ c, card = some c ∧ c.rank = some (placeRank item card) ∧ isExplicitRank (placeRank item card) = true) ∨
      placeRank item card = implicitRankOf item.createdAt item.id := by
  cases hrank : (card.bind CardDoc.rank).filter isExplicitRank with
  | none => exact .inr (by simp [placeRank, hrank])
  | some r =>
    have hr : placeRank item card = r := by simp [placeRank, hrank]
    obtain ⟨hbind, hexp⟩ := Option.filter_eq_some_iff.mp hrank
    obtain ⟨c, hcard, hc⟩ := Option.bind_eq_some_iff.mp hbind
    exact .inl ⟨c, hcard, by rw [hr, hc], by rw [hr]; exact hexp⟩

/-! ### One placement per item -/

section

variable {place : BoardItem → Placement} (hplace : ∀ item, (place item).id = item.id)
variable {seen : Finset String} {items : List BoardItem} {p : Placement}

include hplace

theorem not_mem_seen (hp : p ∈ placeItems place seen items) : p.id ∉ seen := by
  induction items generalizing seen with
  | nil => simp [placeItems] at hp
  | cons item items ih =>
    unfold placeItems at hp
    split at hp
    · exact ih hp
    · rcases mem_cons.mp hp with rfl | hp
      · rwa [hplace]
      · exact fun hmem => ih hp (Finset.mem_insert_of_mem hmem)

theorem nodup_placeItems (seen : Finset String) (items : List BoardItem) :
    ((placeItems place seen items).map Placement.id).Nodup := by
  induction items generalizing seen with
  | nil => simp [placeItems]
  | cons item items ih =>
    unfold placeItems
    split
    · exact ih seen
    · rw [map_cons, nodup_cons]
      refine ⟨fun hmem => ?_, ih _⟩
      obtain ⟨p, hp, hid⟩ := mem_map.mp hmem
      refine not_mem_seen hplace hp ?_
      rw [hid, hplace]
      exact Finset.mem_insert_self _ _

theorem sublist_placeItems (seen : Finset String) (items : List BoardItem) :
    ((placeItems place seen items).map Placement.id).Sublist (items.map BoardItem.id) := by
  induction items generalizing seen with
  | nil => simp [placeItems]
  | cons item items ih =>
    unfold placeItems
    split
    · exact (ih seen).cons _
    · rw [map_cons, map_cons, hplace]
      exact (ih _).cons_cons _

theorem mem_ids_placeItems (seen : Finset String) (items : List BoardItem) (id : String) :
    id ∈ (placeItems place seen items).map Placement.id ↔ id ∈ items.map BoardItem.id ∧ id ∉ seen := by
  induction items generalizing seen with
  | nil => simp [placeItems]
  | cons item items ih =>
    unfold placeItems
    split
    case isTrue hseen =>
      rw [ih, map_cons, mem_cons]
      grind
    case isFalse hseen =>
      rw [map_cons, map_cons, mem_cons, mem_cons, ih, hplace, Finset.mem_insert]
      grind

theorem mem_placeItems (hp : p ∈ placeItems place seen items) :
    ∃ item, items.find? (fun i => i.id = p.id) = some item ∧ p = place item := by
  induction items generalizing seen with
  | nil => simp [placeItems] at hp
  | cons item items ih =>
    have hseen := not_mem_seen hplace hp
    unfold placeItems at hp
    split at hp
    case isTrue hitem =>
      have hne : ¬item.id = p.id := fun h => hseen (h ▸ hitem)
      simpa [find?_cons, hne] using ih hp
    case isFalse =>
      rcases mem_cons.mp hp with rfl | hp
      · exact ⟨item, by simp [hplace], rfl⟩
      · have hne : ¬item.id = p.id := fun h =>
          not_mem_seen hplace hp (h ▸ Finset.mem_insert_self _ _)
        simpa [find?_cons, hne] using ih hp

end

/-! ### The columns list every visible item once -/

theorem mem_shownIn {p : Placement} : p ∈ shownIn out ↔ p ∈ out ∧ p.on = true ∧ p.archived = none := by
  simp [shownIn, Placement.visible]

theorem mem_inCol {id : ℕ} {x : String} : x ∈ inCol (shownIn out) id ↔
      ∃ p ∈ out, p.id = x ∧ p.col = id ∧ p.on = true ∧ p.archived = none := by
  simp only [inCol, mem_map, mem_filter, mem_shownIn, decide_eq_true_eq]
  grind

theorem nodup_inCol (hnodup : (out.map Placement.id).Nodup) (id : ℕ) : (inCol (shownIn out) id).Nodup := by
  have hshown : ((shownIn out).map Placement.id).Nodup :=
    ((perm_sortByKey byRank _).map Placement.id).nodup_iff.mpr
      ((filter_sublist.map _).nodup hnodup)
  exact (filter_sublist.map _).nodup hshown

theorem eq_of_mem_foldColumns (h : col ∈ foldColumns spec out) : col = ⟨col.id, inCol (shownIn out) col.id⟩ := by
  rcases mem_append.mp h with h | h
  · split at h
    · simp at h
    · rw [mem_singleton.mp h]
  · obtain ⟨c, -, rfl⟩ := mem_map.mp h
    rfl

/-- The column ids of a fold: those of the spec, after 0 when "No status" shows. -/
theorem map_id_foldColumns (spec : BoardSpec) (out : List Placement) : (foldColumns spec out).map ColumnItems.id =
      (if (inCol (shownIn out) 0).isEmpty then [] else [0]) ++ spec.columns.map BoardColumn.id := by
  rw [foldColumns, map_append, map_map]
  congr 1
  split <;> rfl

theorem nodup_id_foldColumns (hs : SpecOk spec) (out : List Placement) :
    ((foldColumns spec out).map ColumnItems.id).Nodup := by
  have hzero : 0 ∉ spec.columns.map BoardColumn.id := fun hmem => by
    obtain ⟨c, hc, hid⟩ := mem_map.mp hmem
    have := (hs.columns_pos c hc).1
    omega
  rw [map_id_foldColumns]
  split
  · exact hs.columns_nodup
  · exact nodup_cons.mpr ⟨hzero, hs.columns_nodup⟩

theorem col_eq_of_mem (hnodup : (out.map Placement.id).Nodup) (hcol : col ∈ foldColumns spec out)
    {p : Placement} (hp : p ∈ out) (hmem : p.id ∈ col.items) : col.id = p.col := by
  rw [eq_of_mem_foldColumns hcol] at hmem
  obtain ⟨q, hq, hid, hqcol, -⟩ := mem_inCol.mp hmem
  rw [← hqcol, inj_on_of_nodup_map hnodup hq hp hid]

theorem nodup_listed (hs : SpecOk spec) (hnodup : (out.map Placement.id).Nodup) :
    ((foldColumns spec out).flatMap ColumnItems.items).Nodup := by
  rw [nodup_flatMap]
  refine ⟨fun col hcol => ?_, ?_⟩
  · rw [eq_of_mem_foldColumns hcol]
    exact nodup_inCol hnodup col.id
  · refine (pairwise_map.mp (nodup_id_foldColumns hs out)).imp_of_mem ?_
    intro c d hc hd hne x hxc hxd
    have hx := hxc
    rw [eq_of_mem_foldColumns hc] at hx
    obtain ⟨p, hp, rfl, -⟩ := mem_inCol.mp hx
    exact hne ((col_eq_of_mem hnodup hc hp hxc).trans (col_eq_of_mem hnodup hd hp hxd).symm)

theorem mem_listed (hcol : ∀ p ∈ out, p.col = 0 ∨ p.col ∈ spec.columns.map BoardColumn.id) (x : String) :
    x ∈ (foldColumns spec out).flatMap ColumnItems.items ↔ ∃ p ∈ out, p.id = x ∧ p.on = true ∧ p.archived = none := by
  rw [mem_flatMap]
  constructor
  · rintro ⟨col, hmem, hx⟩
    rw [eq_of_mem_foldColumns hmem] at hx
    obtain ⟨p, hp, hid, -, hvis⟩ := mem_inCol.mp hx
    exact ⟨p, hp, hid, hvis⟩
  · rintro ⟨p, hp, hid, hvis⟩
    have hx : x ∈ inCol (shownIn out) p.col := mem_inCol.mpr ⟨p, hp, hid, rfl, hvis⟩
    -- the column of `p` is among the output's: it holds `x`, so it is shown even if it is 0
    have hshown : p.col ∈ (foldColumns spec out).map ColumnItems.id := by
      rw [map_id_foldColumns, mem_append]
      rcases hcol p hp with hzero | hspec
      · left
        rw [hzero] at hx ⊢
        rw [if_neg (by simpa using ne_nil_of_mem hx)]
        exact mem_singleton_self 0
      · exact .inr hspec
    obtain ⟨col, hcolmem, hcolid⟩ := mem_map.mp hshown
    refine ⟨col, hcolmem, ?_⟩
    rw [eq_of_mem_foldColumns hcolmem, hcolid]
    exact hx

theorem sorted_foldColumns (hcol : col ∈ foldColumns spec out) :
    ∃ ps : List Placement, col.items = ps.map Placement.id ∧ (∀ p ∈ ps, p ∈ out) ∧
      ps.Pairwise fun p q => byRank p ≤ byRank q := by
  refine ⟨(shownIn out).filter fun p => p.col = col.id, ?_, fun p hp => ?_, ?_⟩
  · rw [eq_of_mem_foldColumns hcol]
    rfl
  · exact (mem_shownIn.mp (mem_filter.mp hp).1).1
  · exact (pairwise_sortByKey byRank _).filter _

theorem getElem?_foldColumns (hs : SpecOk spec) {k : ℕ} (hk : (foldColumns spec out)[k]? = some col)
    (hid : col.id ≠ 0) :
    ∃ i, spec.columnIndex col.id = some i ∧ k = (if (inCol (shownIn out) 0).isEmpty then 0 else 1) + i := by
  set lead := if (inCol (shownIn out) 0).isEmpty then [] else [0] with hlead
  have hlen : lead.length = if (inCol (shownIn out) 0).isEmpty then 0 else 1 := by
    rw [hlead]
    split <;> rfl
  have hk' : (lead ++ spec.columns.map BoardColumn.id)[k]? = some col.id := by
    rw [hlead, ← map_id_foldColumns, getElem?_map, hk]
    rfl
  rw [← hlen]
  by_cases hlt : k < lead.length
  · rw [getElem?_append_left hlt] at hk'
    have hmem := mem_of_getElem? hk'
    rw [hlead] at hmem
    split at hmem <;> simp_all
  · rw [getElem?_append_right (by omega), getElem?_map, Option.map_eq_some_iff] at hk'
    obtain ⟨c, hc, hcid⟩ := hk'
    exact ⟨k - lead.length, hcid ▸ columnIndex_eq_some hs hc, by omega⟩

/-! ### The fold -/

theorem foldBoard_foldOk (hs : SpecOk spec) (env : BoardEnv) (home : String)
    (items : List BoardItem) (cards : List CardDoc) (now : ℤ) :
    FoldOk spec items cards (foldBoard env spec home items cards now) := by
  set place := placeItem env spec home (newestCards cards) now with hplace
  have hid : ∀ item, (place item).id = item.id := fun _ => rfl
  have hplaces : ∀ p ∈ placeItems place ∅ items, ∃ item, Places spec items cards p item := by
    intro p hp
    obtain ⟨item, hfirst, rfl⟩ := mem_placeItems hid hp
    refine ⟨item, hfirst, ?_, fun hitem hdone => placeCol_done hs hitem hdone _⟩
    rcases placeRank_cases item (newestCards cards item.id) with ⟨c, hc, hrank⟩ | himplicit
    · have hnewest := newestInv_newestCards cards item.id
      rw [hc] at hnewest
      exact .inl ⟨c, hnewest, hrank⟩
    · exact .inr himplicit
  have hcol : ∀ p ∈ placeItems place ∅ items, p.col = 0 ∨ p.col ∈ spec.columns.map BoardColumn.id := by
    intro p hp
    obtain ⟨item, -, rfl⟩ := mem_placeItems hid hp
    exact placeCol_mem hs item _
  have hnodup := nodup_placeItems hid ∅ items
  exact
    { nodup := hnodup
      mem := fun id => (mem_ids_placeItems hid ∅ items id).trans (by simp)
      sublist := sublist_placeItems hid ∅ items
      places := hplaces
      col := hcol
      listed := mem_listed hcol
      listed_nodup := nodup_listed hs hnodup
      listed_col := fun col hmem p hp => col_eq_of_mem hnodup hmem hp
      columns_nodup := nodup_id_foldColumns hs _
      sorted := fun col hmem => sorted_foldColumns hmem
      listed_done := by
        intro p hp item hfirst hitem hdone k j ck cj hk hmem hj hcj
        obtain ⟨item', hfirst', -, hle⟩ := hplaces p hp
        obtain rfl : item' = item := Option.some.inj (hfirst'.symm.trans hfirst)
        obtain ⟨d, i, hd, hi, hdi⟩ := hle hitem hdone
        have hckid := col_eq_of_mem hnodup (mem_of_getElem? hk) hp hmem
        have hpos : p.col ≠ 0 := by
          rintro hzero
          have := columnIndex_isSome_iff.mp (Option.isSome_of_eq_some hi)
          obtain ⟨c, hc, hcid⟩ := mem_map.mp this
          have := (hs.columns_pos c hc).1
          omega
        obtain ⟨i', hi', rfl⟩ := getElem?_foldColumns hs hk (hckid ▸ hpos)
        obtain ⟨d', hd', rfl⟩ := getElem?_foldColumns hs hj (hcj ▸ hdone)
        rw [hckid, hi] at hi'
        rw [hcj, hd] at hd'
        have := Option.some.inj hi'
        have := Option.some.inj hd'
        omega }

/-- The fold of every accepted spec loses and duplicates no item, and does not depend on the order
of cards with distinct ids. -/
theorem foldBoard_places {env : BoardEnv} {json : String} {spec : BoardSpec}
    (h : parseSpec env json = .ok spec) (home : String) (items : List BoardItem)
    (cards : List CardDoc) (now : ℤ) :
    FoldOk spec items cards (foldBoard env spec home items cards now) ∧
      ∀ cards', (cards.map CardDoc.id).Nodup → cards.Perm cards' →
        foldBoard env spec home items cards' now = foldBoard env spec home items cards now := by
  refine ⟨foldBoard_foldOk (specOk_of_parseSpec h) env home items cards now, ?_⟩
  intro cards' hnodup hperm
  rw [foldBoard, foldBoard, newestCards_eq_of_perm hnodup hperm]

/-- A two-column board's definition. -/
def todoDoneJson : String :=
  "\x7b\"v\":1,\"columns\":[\x7b\"id\":1,\"name\":\"Todo\"\x7d," ++
    "\x7b\"id\":2,\"name\":\"Done\"\x7d],\"def\":1,\"done\":2\x7d"

/-- A reader of that definition. -/
def todoDoneEnv : BoardEnv where
  fromStr s := if s = todoDoneJson then
      some (.obj [("v", .num 1),
        ("columns", .arr [.obj [("id", .num 1), ("name", .str "Todo")],
          .obj [("id", .num 2), ("name", .str "Done")]]),
        ("def", .num 1), ("done", .num 2)])
    else none
  ryu x := toString x.num
  toLowercase s := String.ofList (s.toList.map Char.toLower)
  parseF64 _ := none

def todoDone : BoardSpec :=
  ⟨1, none, [⟨1, "Todo", none, none⟩, ⟨2, "Done", none, none⟩], 1, 2, [], [], [], 0⟩

def twoItems : List BoardItem :=
  [⟨"b", 1, "r", .issue, .closed, 0, some 5, "b", [], [], none, "m"⟩,
    ⟨"a", 2, "r", .pr, .isOpen, 0, none, "a", [], [], none, "m"⟩,
    ⟨"b", 1, "r", .issue, .isOpen, 0, none, "b", [], [], none, "m"⟩]

/-- The closed item's newest card leaves it in Todo; the open item's names an unknown column. -/
def threeCards : List CardDoc :=
  [⟨"x", 7, "b", some 2, some "K", none, 2⟩, ⟨"y", 8, "b", some 1, some "K", none, 0⟩,
    ⟨"z", 8, "a", some 300, some "K0", none, 0⟩]

theorem foldBoard_places_twoItems :
    parseSpec todoDoneEnv todoDoneJson = .ok todoDone ∧
      FoldOk todoDone twoItems threeCards
        (foldBoard todoDoneEnv todoDone "r" twoItems threeCards 9) ∧
      foldBoard todoDoneEnv todoDone "r" twoItems threeCards.reverse 9 =
        foldBoard todoDoneEnv todoDone "r" twoItems threeCards 9 ∧
      (foldBoard todoDoneEnv todoDone "r" twoItems threeCards 9).columns =
        [⟨1, ["a"]⟩, ⟨2, ["b"]⟩] := by
  have hparse : parseSpec todoDoneEnv todoDoneJson = .ok todoDone := by rfl
  have hplaces := foldBoard_places hparse "r" twoItems threeCards 9
  exact ⟨hparse, hplaces.1,
    hplaces.2 threeCards.reverse (by decide) (List.reverse_perm threeCards).symm, by decide⟩

end DashForge
