import DashForge.Boards.Rerank
import DashForge.Data.SortBy

/-!
# Moving a card

The rank that drops a card at a place of a column (`collab/boards.rs`), and the runs of such moves: a column that is
shown in order stays in order, and every move shows its card exactly where it was dropped (`moved_spec`). A column that
was ranked anew has room for every one (`rerank_drops`).
-/

namespace DashForge

open List Option

/-- A card in a column's shown order, with its effective rank. -/
structure RankedCard where
  id : String
  rank : String
deriving DecidableEq, Repr

/-- The order in which a column is shown. -/
def RankedCard.byRank (c : RankedCard) : String ×ₗ String := toLex (c.rank, c.id)

/-- The rank that drops a card at position `index` of a column without it. -/
def rankForDrop (column : List RankedCard) (index : ℕ) : Option (Except RankError String) :=
  let at_ := min index column.length
  if column = [] then topRank none
  else if at_ = 0 then topRank (column.head?.map RankedCard.rank)
  else if at_ = column.length then bottomRank (column.getLast?.map RankedCard.rank)
  else do
    let above ← column[at_ - 1]?
    let below ← column[at_]?
    rankBetween above.rank below.rank

/-- Where a move puts a card in its column. -/
inductive DropAt where
  | top
  | bottom
  | before (id : String)
  | after (id : String)
deriving DecidableEq, Repr

/-- The position a move names, none when it names a card that is not there. -/
def DropAt.index (others : List RankedCard) : DropAt → Option ℕ
  | .top => some 0
  | .bottom => some others.length
  | .before id => others.findIdx? fun c => c.id = id
  | .after id => (others.findIdx? fun c => c.id = id).map (· + 1)

/-- A column without the card that moves. -/
def othersOf (column : List RankedCard) (item : String) : List RankedCard := column.filter fun c => c.id ≠ item

/-- The rank that drops `item` at a place of a column. -/
def rankAt (column : List RankedCard) (item : String) (dropAt : DropAt) : Option (Option (Except RankError String)) :=
  (dropAt.index (othersOf column item)).map (rankForDrop (othersOf column item))

/-- A column before and after a move: it is shown with the rank that drops the card. -/
def Moved (column column' : List RankedCard) : Prop :=
  ∃ item dropAt r, rankAt column item dropAt = some (some (.ok r)) ∧
    column' = sortByKey RankedCard.byRank (⟨item, r⟩ :: othersOf column item)

/-- A column as it is shown. -/
structure ShownColumn (column : List RankedCard) : Prop where
  sorted : column.Pairwise fun a b => a.byRank ≤ b.byRank
  ranks : ∀ c ∈ column, IsColumnRank c.rank
  ids : (column.map RankedCard.id).Nodup

variable {column column' : List RankedCard} {item r : String} {dropAt : DropAt} {index : ℕ}

theorem rank_le_rank {a b : RankedCard} (h : a.byRank ≤ b.byRank) : a.rank ≤ b.rank := Prod.Lex.monotone_fst _ _ h

theorem ShownColumn.rank_sorted (h : ShownColumn column) : (column.map RankedCard.rank).Pairwise (· ≤ ·) :=
  pairwise_map.mpr (h.sorted.imp rank_le_rank)

theorem ShownColumn.others (h : ShownColumn column) (item : String) : ShownColumn (othersOf column item) where
  sorted := h.sorted.filter _
  ranks c hc := h.ranks c (mem_of_mem_filter hc)
  ids := h.ids.sublist (filter_sublist.map _)

/-- The rank for a drop is above the cards before the position and below those from it on. -/
theorem rankForDrop_spec (h : ShownColumn column) (hr : rankForDrop column index = some (.ok r)) :
    isExplicitRank r = true ∧ (∀ c ∈ column.take index, c.rank < r) ∧ ∀ c ∈ column.drop index, r < c.rank := by
  have hranks : ∀ s ∈ column.map RankedCard.rank, IsColumnRank s := forall_mem_map.mpr h.ranks
  rw [rankForDrop] at hr
  split_ifs at hr with hnil htop hbottom
  · subst hnil
    exact ⟨(rankBetween_eq_ok hr).1, by simp, by simp⟩
  · rw [← head?_map] at hr
    have hindex : index = 0 := by
      have := length_pos_iff.mpr hnil
      omega
    subst hindex
    exact ⟨(rankBetween_eq_ok hr).1, by simp, forall_mem_map.mp (topRank_lt hranks h.rank_sorted hr).1⟩
  · rw [← getLast?_map] at hr
    have hlen : column.length ≤ index := by omega
    rw [take_of_length_le hlen, drop_of_length_le hlen]
    exact ⟨(rankBetween_eq_ok hr).1, forall_mem_map.mp (lt_bottomRank h.rank_sorted hr).1, by simp⟩
  · have hlen : index < column.length := by omega
    rw [Nat.min_eq_left hlen.le] at hr htop
    rw [getElem?_eq_getElem (by omega), getElem?_eq_getElem hlen] at hr
    obtain ⟨hexplicit, habove, hbelow⟩ := rankBetween_eq_ok hr
    have hsorted : ∀ i j (hi : i < column.length) (hj : j < column.length), i ≤ j →
        column[i].rank ≤ column[j].rank := by
      intro i j hi hj hij
      rcases hij.eq_or_lt with rfl | hij
      · exact le_rfl
      · exact rank_le_rank (pairwise_iff_getElem.mp h.sorted i j hi hj hij)
    refine ⟨hexplicit, fun c hc => ?_, fun c hc => ?_⟩
    · obtain ⟨i, hi, rfl⟩ := mem_take_iff_getElem.mp hc
      exact (hsorted i (index - 1) _ _ (by omega)).trans_lt habove
    · obtain ⟨i, hi, rfl⟩ := mem_drop_iff_getElem.mp hc
      have hne := (h.ranks _ (getElem_mem hlen)).ne_empty
      exact (hbelow hne).trans_le (hsorted index (index + i) hlen _ (by omega))

/-- A move inserts its card at the position it names, and the column is shown in order again. -/
theorem ShownColumn.moved (h : ShownColumn column) (hr : rankAt column item dropAt = some (some (.ok r))) :
    ∃ i, dropAt.index (othersOf column item) = some i ∧
      sortByKey RankedCard.byRank (⟨item, r⟩ :: othersOf column item) =
        (othersOf column item).take i ++ ⟨item, r⟩ :: (othersOf column item).drop i ∧
      ShownColumn (sortByKey RankedCard.byRank (⟨item, r⟩ :: othersOf column item)) := by
  obtain ⟨i, hi, hrank⟩ := map_eq_some_iff.mp hr
  have hothers := h.others item
  obtain ⟨hexplicit, habove, hbelow⟩ := rankForDrop_spec hothers hrank
  have hsplit := take_append_drop i (othersOf column item)
  have hcolumn : ShownColumn (sortByKey RankedCard.byRank (⟨item, r⟩ :: othersOf column item)) := by
    refine ⟨pairwise_sortByKey _ _, fun c hc => ?_, ?_⟩
    · rcases mem_cons.mp ((mem_sortByKey _).mp hc) with rfl | hc
      · exact .inl hexplicit
      · exact hothers.ranks c hc
    · refine (((perm_sortByKey _ _).map RankedCard.id).nodup_iff).mpr (nodup_cons.mpr ⟨fun hmem => ?_, hothers.ids⟩)
      obtain ⟨c, hc, hid⟩ := mem_map.mp hmem
      simpa [othersOf, hid] using (mem_filter.mp hc).2
  refine ⟨i, hi, ?_, hcolumn⟩
  have hinj : Set.InjOn RankedCard.byRank {c | c ∈ sortByKey RankedCard.byRank (⟨item, r⟩ :: othersOf column item)} :=
    fun a ha b hb hab => inj_on_of_nodup_map hcolumn.ids ha hb (congrArg Prod.snd hab)
  refine eq_of_perm_of_pairwise_key RankedCard.byRank ?_ hinj hcolumn.sorted ?_
  · refine (perm_sortByKey _ _).trans ?_
    conv_lhs => rw [← hsplit]
    exact perm_middle.symm
  · have hsorted := hothers.sorted
    rw [← hsplit, pairwise_append] at hsorted
    refine pairwise_append.mpr ⟨hsorted.1, pairwise_cons.mpr ⟨fun c hc => ?_, hsorted.2.1⟩, fun a ha b hb => ?_⟩
    · exact (Prod.Lex.toLex_lt_toLex.mpr (.inl (hbelow c hc))).le
    · rcases mem_cons.mp hb with rfl | hb
      · exact (Prod.Lex.toLex_lt_toLex.mpr (.inl (habove a ha))).le
      · exact hsorted.2.2 a ha b hb

/-- **Moves show what was asked for.** Over any run of moves a shown column stays one, and a move of it inserts the card
at the position that it names among the others, which keep their order. -/
theorem moved_spec (h : ShownColumn column) (hrun : Relation.ReflTransGen Moved column column') :
    ShownColumn column' ∧ ∀ item dropAt r, rankAt column' item dropAt = some (some (.ok r)) →
      ∃ i, dropAt.index (othersOf column' item) = some i ∧
        Moved column' ((othersOf column' item).take i ++ ⟨item, r⟩ :: (othersOf column' item).drop i) := by
  have hshown : ShownColumn column' := by
    induction hrun with
    | refl => exact h
    | tail _ hmoved ih =>
      obtain ⟨item, dropAt, r, hr, rfl⟩ := hmoved
      obtain ⟨-, -, -, hcolumn⟩ := ih.moved hr
      exact hcolumn
  refine ⟨hshown, fun item dropAt r hr => ?_⟩
  obtain ⟨i, hi, heq, -⟩ := hshown.moved hr
  exact ⟨i, hi, item, dropAt, r, hr, heq.symm⟩

/-- A column of a ranked card and one that was never ranked. -/
def columnSample : List RankedCard := [⟨"a", "NF"⟩, ⟨"b", implicitRank 1000 [1, 2, 3]⟩]

/-- The card that was never ranked is dropped above the other, and then the other above it. -/
theorem moved_spec_sample :
    Moved columnSample [⟨"b", "C"⟩, ⟨"a", "NF"⟩] ∧ ∃ i, DropAt.top.index [⟨"b", "C"⟩] = some i ∧
      Moved [⟨"b", "C"⟩, ⟨"a", "NF"⟩] ([⟨"b", "C"⟩].take i ++ ⟨"a", "6"⟩ :: [⟨"b", "C"⟩].drop i) := by
  have hNF : isExplicitRank "NF" = true := by decide +kernel
  have hshown : ShownColumn columnSample :=
    ⟨by decide +kernel, by simp [columnSample, IsColumnRank, hNF], by decide⟩
  have hmoved : Moved columnSample [⟨"b", "C"⟩, ⟨"a", "NF"⟩] :=
    ⟨"b", .before "a", "C", by decide +kernel, by decide +kernel⟩
  exact ⟨hmoved, (moved_spec hshown (.single hmoved)).2 "a" .top "6" (by decide +kernel)⟩

/-- A column of explicit ranks above the pool takes a card anywhere, where there is room above and between them. -/
theorem exists_rankForDrop {top : String} (hexplicit : ∀ c ∈ column, isExplicitRank c.rank = true ∧ c.rank < "V")
    (htop : isExplicitRank top = true) (habove : ∀ c ∈ column, top < c.rank)
    (hroom : column.Pairwise fun a b => ∃ r, rankBetween a.rank b.rank = some (.ok r)) (index : ℕ) :
    ∃ r, rankForDrop column index = some (.ok r) := by
  rw [rankForDrop]
  split_ifs with hnil hzero hend
  · exact ⟨"F", by decide +kernel⟩
  · obtain ⟨c, cs, rfl⟩ := exists_cons_of_ne_nil hnil
    have hc := hexplicit c mem_cons_self
    rw [topRank, head?_cons, map_some, filter_some_pos (by simpa using hc.2.le)]
    exact exists_rankBetween (by decide) (isRankBound_of_isExplicitRank hc.1) htop
      (String.lt_iff_toList_lt.mpr (Lex.nil_lt (isExplicitRank_iff.mp htop).ne_nil)) (habove c mem_cons_self)
  · refine ⟨"l", ?_⟩
    rw [bottomRank, getLast?_eq_some_getLast hnil, map_some, filter_some_neg]
    · decide +kernel
    · have hlast := (hexplicit _ (getLast_mem hnil)).2
      simpa using hlast.trans (by decide)
  · have hlen : index < column.length := by omega
    rw [Nat.min_eq_left hlen.le, getElem?_eq_getElem (by omega), getElem?_eq_getElem hlen]
    exact pairwise_iff_getElem.mp hroom (index - 1) index _ _ (by omega)

/-- **A re-ranked column takes every drop.** It is shown in order, and a card dropped at a place of it is shown there. -/
theorem rerank_drops (hn : column.length ≤ rerankMax)
    (hranks : rerank column.length = some (.ok (column.map RankedCard.rank)))
    (hids : (column.map RankedCard.id).Nodup) (hindex : dropAt.index (othersOf column item) = some index) :
    ShownColumn column ∧ ∃ r, rankAt column item dropAt = some (some (.ok r)) ∧
      Moved column ((othersOf column item).take index ++ ⟨item, r⟩ :: (othersOf column item).drop index) := by
  obtain ⟨ranks, hrerank, hre⟩ := rerank_reranked hn
  obtain rfl := Except.ok.inj (some.inj (hranks.symm.trans hrerank))
  have hexplicit : ∀ c ∈ column, isExplicitRank c.rank = true ∧ c.rank < "V" := forall_mem_map.mp hre.explicit
  have hshown : ShownColumn column :=
    ⟨(pairwise_map.mp hre.ascending).imp fun h => (Prod.Lex.toLex_lt_toLex.mpr (.inl h)).le,
      fun c hc => .inl (hexplicit c hc).1, hids⟩
  obtain ⟨top, htop, habove⟩ := exists_rank_lt_rerank hn hrerank
  have hcard {c : RankedCard} (hc : c ∈ othersOf column item) : c ∈ column := mem_of_mem_filter hc
  obtain ⟨r, hr⟩ := exists_rankForDrop (fun c hc => hexplicit c (hcard hc)) htop
    (fun c hc => habove _ (mem_map_of_mem (hcard hc))) ((pairwise_map.mp hre.pairwise_room).filter _) index
  have hat : rankAt column item dropAt = some (some (.ok r)) := by
    rw [rankAt, hindex, map_some]
    exact congrArg some hr
  obtain ⟨i, hi, heq, -⟩ := hshown.moved hat
  obtain rfl := some.inj (hindex.symm.trans hi)
  exact ⟨hshown, r, hat, item, dropAt, r, hat, heq.symm⟩

theorem rerank_drops_sample : ∃ r, rankAt [⟨"a", "7k"⟩, ⟨"b", "FV"⟩, ⟨"c", "NF"⟩] "c" (.before "a") =
    some (some (.ok r)) := by
  obtain ⟨-, r, hr, -⟩ := @rerank_drops [⟨"a", "7k"⟩, ⟨"b", "FV"⟩, ⟨"c", "NF"⟩] "c" (.before "a") 0
    (by decide) (by decide +kernel) (by decide) (by decide +kernel)
  exact ⟨r, hr⟩

end DashForge
