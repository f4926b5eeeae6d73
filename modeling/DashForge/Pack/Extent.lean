import DashForge.Pack.Parsed

/-!
# Extents and spans

Where the objects of a pack lie (`pack/parse.rs`): each runs to the start of the next one in offset
order, and the span of an object whose chain is contiguous starts at the lowest base of its chain.

`SpanOk` is what an accepted pack satisfies (`spanOk_of_parse`). Along a contiguous chain every base
lies before its delta, and all spans start at the same place.
-/

namespace DashForge

open List

/-! ### Extents -/

section

variable {off : ℕ → ℕ} {packLen : ℕ}

theorem objectEnds_cons_cons (i j : ℕ) (rest : List ℕ) : objectEnds packLen off (i :: j :: rest) =
      (i, off j) :: objectEnds packLen off (j :: rest) := rfl

theorem lookup_objectEnds {order : List ℕ} (hlt : order.Pairwise fun i j => off i < off j)
    (hle : ∀ e ∈ objectEnds packLen off order, off e.1 ≤ e.2) {i : ℕ} (hi : i ∈ order) :
    ∃ stop, (objectEnds packLen off order).lookup i = some stop ∧ off i ≤ stop ∧
      stop ≤ packLen - packTrailer ∧ ∀ j ∈ order, off i < off j → stop ≤ off j := by
  induction order generalizing i with
  | nil => simp at hi
  | cons a rest ih =>
    cases rest with
    | nil =>
      obtain rfl : i = a := by simpa using hi
      have hstop := hle (i, packLen - packTrailer) (by simp [objectEnds])
      exact ⟨packLen - packTrailer, by simp [objectEnds], hstop, le_rfl, by simp⟩
    | cons b rest =>
      rw [objectEnds_cons_cons] at hle ⊢
      obtain ⟨ha, hrest⟩ := pairwise_cons.mp hlt
      have hle' : ∀ e ∈ objectEnds packLen off (b :: rest), off e.1 ≤ e.2 :=
        fun e he => hle e (mem_cons_of_mem _ he)
      rcases mem_cons.mp hi with rfl | hi
      · obtain ⟨stop, -, hb, hstop, -⟩ := ih hrest hle' mem_cons_self
        refine ⟨off b, by simp, (ha b mem_cons_self).le, hb.trans hstop, fun j hj hij => ?_⟩
        rcases mem_cons.mp hj with rfl | hj
        · exact absurd hij (lt_irrefl _)
        rcases mem_cons.mp hj with rfl | hj
        · exact le_rfl
        · exact ((pairwise_cons.mp hrest).1 j hj).le
      · obtain ⟨stop, hlookup, hstop, hend, hnext⟩ := ih hrest hle' hi
        have hai := ha i hi
        have hne : (i == a) = false := by
          rw [beq_eq_false_iff_ne]
          rintro rfl
          exact lt_irrefl _ hai
        refine ⟨stop, by simp [lookup_cons, hne, hlookup], hstop, hend, fun j hj hij => ?_⟩
        rcases mem_cons.mp hj with rfl | hj
        · omega
        · exact hnext j hj hij

theorem extents_of_checks {n : ℕ}
    (hdistinct : ¬((sortByKey off (range n)).zip (sortByKey off (range n)).tail).any
      (fun w => off w.1 = off w.2) = true) (hends : ¬(objectEnds packLen off (sortByKey off (range n))).any
      (fun e => decide (e.2 < off e.1)) = true) (i : ℕ) (hi : i < n) :
    off i + (((objectEnds packLen off (sortByKey off (range n))).lookup i).getD 0 - off i) ≤ packLen ∧
      ∀ j < n, off i < off j → off i +
        (((objectEnds packLen off (sortByKey off (range n))).lookup i).getD 0 - off i) ≤ off j := by
  have hlt : (sortByKey off (range n)).Pairwise fun i j => off i < off j :=
    pairwise_lt_of_neighbours off (pairwise_sortByKey off _) (by simpa using hdistinct)
  have hmem : ∀ j, j ∈ sortByKey off (range n) ↔ j < n := by simp [mem_sortByKey]
  obtain ⟨stop, hlookup, hstop, hend, hnext⟩ :=
    lookup_objectEnds hlt (by simpa using hends) ((hmem i).mpr hi)
  simp only [hlookup, Option.getD_some]
  refine ⟨by omega, fun j hj hij => ?_⟩
  have := hnext j ((hmem j).mpr hj) hij
  omega

end

/-! ### What a parse guarantees -/

namespace ParsedPack

/-- Where the span of object `i` starts. -/
def spanStart (pp : ParsedPack) (i : ℕ) : ℕ :=
  (pp.obj i).offset + (pp.obj i).length - (pp.obj i).deltaChainSpan

/-- The extents and spans of an accepted pack. -/
structure SpanOk (pp : ParsedPack) : Prop where
  stop_le : ∀ i < pp.objects.length,
    (pp.obj i).offset + (pp.obj i).length ≤ pp.packBytes.length
  stop_le_offset : ∀ i < pp.objects.length, ∀ j < pp.objects.length,
    (pp.obj i).offset < (pp.obj j).offset →
      (pp.obj i).offset + (pp.obj i).length ≤ (pp.obj j).offset
  root : ∀ i < pp.objects.length, (pp.obj i).contiguous = true → pp.base i = none →
    (pp.obj i).deltaChainSpan = (pp.obj i).length
  delta : ∀ i < pp.objects.length, (pp.obj i).contiguous = true → ∀ b, pp.base i = some b →
    b < pp.objects.length ∧ (pp.obj b).contiguous = true ∧
      (pp.obj b).offset < (pp.obj i).offset ∧
      (pp.obj i).deltaChainSpan =
        (pp.obj i).offset + (pp.obj i).length - min (pp.obj i).offset (pp.spanStart b)
  isRefDelta : ∀ i < pp.objects.length, (pp.obj i).isRefDelta = false → ∀ entry,
    readEntry pp.packBytes (pp.obj i).offset = .ok entry → ∀ oid, entry.base ≠ .ref oid
  object : (pp.objects.map PackObject.oid).Nodup → ∀ i < pp.objects.length,
    pp.object (pp.obj i).oid = some (pp.obj i)

end ParsedPack

theorem ChainInput.ChainOf.minOff_le {inp : ChainInput} {j : ℕ} {c : Chain}
    (h : inp.ChainOf j c) : c.minOff ≤ inp.offset j := by
  cases h with
  | root => exact le_rfl
  | missing => exact Nat.min_le_left _ _
  | delta => exact Nat.min_le_left _ _

theorem packObject_eq_ok_iff {oid : Bytes} {offset length : ℕ} {isRefDelta : Bool} {chain : Chain} {o : PackObject} :
    packObject oid offset length isRefDelta chain = .ok o ↔ ∃ t, GitObjType.fromCode chain.root = .ok t ∧
        (⟨oid, offset, length, t, chain.depth, isRefDelta,
          if chain.contiguous then offset + length - chain.minOff else length, chain.contiguous⟩ : PackObject) = o := by
  simp only [packObject, bind_eq_ok, pure_eq_ok]

theorem length_of_mem_parseIdxV2 {idx oid : Bytes} {oids : List Bytes} {offsets : List ℕ}
    (h : parseIdxV2 idx = .ok (oids, offsets)) (hoid : oid ∈ oids) : oid.length = oidLen := by
  simp only [parseIdxV2, bind_eq_ok, refuseIf_eq_ok, pure_eq_ok, Prod.mk.injEq] at h
  obtain ⟨-, -, -, -, n, -, -, hfits, offs, -, -, -, offsets', -, rfl, rfl⟩ := h
  obtain ⟨i, hi, rfl⟩ := mem_map.mp hoid
  rw [mem_range] at hi
  simp only [length_drop, length_take, oidLen, packTrailer] at hfits ⊢
  omega

section

/-! The parts a pack is parsed from, with what is known of each once it is accepted. -/

variable {packBytes packHash : Bytes} {oids : List Bytes} {offsets : List ℕ} {n : ℕ}
  {entries : List (Entry × Option ℕ)} {chains : List Chain} {objects : List PackObject}
  {off : ℕ → ℕ} {length : ℕ → ℕ} {pp : ParsedPack}
  (hoids : oids.length = n) (hoidLen : ∀ oid ∈ oids, oid.length = oidLen)
  (hoffsets : offsets.length = n) (hoff : off = fun i => offsets.getD i 0)
  (hlength : ∀ i < n, off i + length i ≤ packBytes.length ∧
    ∀ j < n, off i < off j → off i + length i ≤ off j)
  (hentries : entries.length = n ∧ ∀ i e, entries[i]? = some e →
    readObject packBytes (off i) (fun oid => (lastIdxOf oids oid).map off) = .ok e)
  (hchains : chains.length = n ∧ ∀ i c, chains[i]? = some c →
    (chainInput off (lastIdxOf offsets) entries).Resolved i c)
  (hobjects : objects.length = n ∧ ∀ i o, objects[i]? = some o →
    packObject (oids.getD i []) (off i) (length i) (isRefEntry entries i)
      (chains.getD i ⟨0, 0, 0, false⟩) = .ok o)
  (hpp : pp = ⟨packBytes, packHash, objects, lastIdxOf oids, lastIdxOf offsets,
    entries.map fun e => e.2.bind (lastIdxOf offsets)⟩)

include hchains hobjects hpp in
theorem obj_eq_of_lt {i : ℕ} (hi : i < n) : ∃ c t, (chainInput off (lastIdxOf offsets) entries).ChainOf i c ∧
      pp.obj i = ⟨oids.getD i [], off i, length i, t, c.depth, isRefEntry entries i,
        if c.contiguous then off i + length i - c.minOff else length i, c.contiguous⟩ := by
  have hic : i < chains.length := hchains.1 ▸ hi
  have hio : i < objects.length := hobjects.1 ▸ hi
  have hpack := hobjects.2 i objects[i] (getElem?_eq_getElem hio)
  have hget : chains.getD i ⟨0, 0, 0, false⟩ = chains[i] := by simp [hic]
  rw [hget, packObject_eq_ok_iff] at hpack
  obtain ⟨t, -, hobj⟩ := hpack
  refine ⟨chains[i], t, (hchains.2 i chains[i] (getElem?_eq_getElem hic)).1, ?_⟩
  rw [hobj]
  simp [hpp, ParsedPack.obj, hio]

include hentries hpp in
theorem base_eq_of_lt {i : ℕ} (hi : i < n) : pp.base i = ((chainInput off (lastIdxOf offsets) entries).baseOff i).bind
      (lastIdxOf offsets) := by
  have hie : i < entries.length := hentries.1 ▸ hi
  simp [hpp, ParsedPack.base, chainInput, hie]

include hoffsets hoff hentries hchains hobjects hpp in
theorem span_of_contiguous {i : ℕ} (hi : i < n) (hcontig : (pp.obj i).contiguous = true) :
    (pp.base i = none → (pp.obj i).deltaChainSpan = (pp.obj i).length) ∧
      ∀ b, pp.base i = some b → b < n ∧ (pp.obj b).contiguous = true ∧ (pp.obj b).offset < (pp.obj i).offset ∧
        (pp.obj i).deltaChainSpan = (pp.obj i).offset + (pp.obj i).length - min (pp.obj i).offset (pp.spanStart b) := by
  obtain ⟨c, t, hchain, hobj⟩ := obj_eq_of_lt hchains hobjects hpp hi
  have hbase := base_eq_of_lt hentries hpp hi
  have hc : c.contiguous = true := by simpa [hobj] using hcontig
  cases hchain with
  | root hnone =>
    rw [hnone] at hbase
    refine ⟨fun _ => ?_, fun b hb => by simp [hbase] at hb⟩
    simp [hobj, ChainInput.rootChain, chainInput]
  | missing => simp [ChainInput.missingChain] at hc
  | @delta _ b next c' hsome hnext hchain' =>
    have hnext' : lastIdxOf offsets b = some next := hnext
    have hatNext : offsets[next]? = some b := getElem?_of_lastIdxOf hnext'
    have hlt : next < n := hoffsets ▸ (List.getElem?_eq_some_iff.mp hatNext).1
    obtain ⟨c'', t', hchain'', hobj'⟩ := obj_eq_of_lt hchains hobjects hpp hlt
    obtain rfl := hchain'.unique hchain''
    have hoffNext : off next = b := by simp [hoff, List.getD, hatNext]
    simp only [ChainInput.deltaChain, Bool.and_eq_true, decide_eq_true_eq] at hc
    have hbelow : b < off i := hc.2
    rw [hsome, Option.bind_some, hnext'] at hbase
    have hmin : c'.minOff ≤ off next := hchain'.minOff_le
    have hstart : pp.spanStart next = c'.minOff := by
      simp only [ParsedPack.spanStart, hobj', hc.1, if_true]
      omega
    refine ⟨fun hnone => by simp [hbase] at hnone, fun b' hb' => ?_⟩
    obtain rfl := Option.some.inj (hbase.symm.trans hb')
    refine ⟨hlt, by simp [hobj', hc.1], by simpa [hobj, hobj', hoffNext] using hbelow, ?_⟩
    have hdec : decide (b < (chainInput off (lastIdxOf offsets) entries).offset i) = true := by
      simpa using hc.2
    simp only [hstart, hobj, ChainInput.deltaChain, hc.1, hdec, Bool.and_self, if_true]
    rfl

include hentries hchains hobjects hpp in
theorem readEntry_base_ne_ref {i : ℕ} (hi : i < n) (href : (pp.obj i).isRefDelta = false)
    {entry : Entry} (hentry : readEntry pp.packBytes (pp.obj i).offset = .ok entry) (oid : Bytes) :
    entry.base ≠ .ref oid := by
  obtain ⟨c, t, -, hobj⟩ := obj_eq_of_lt hchains hobjects hpp hi
  have hie : i < entries.length := hentries.1 ▸ hi
  have hget := getElem?_eq_getElem hie
  have hread := hentries.2 i _ hget
  simp only [readObject, bind_eq_ok, pure_eq_ok] at hread
  obtain ⟨entry', hentry', baseOff, -, heq⟩ := hread
  have hbytes : pp.packBytes = packBytes := by rw [hpp]
  rw [hbytes, hobj] at hentry
  obtain rfl := Except.ok.inj (hentry'.symm.trans hentry)
  intro hbase
  rw [hobj] at href
  simp [isRefEntry, hget, ← heq, hbase] at href

include hoids hoidLen hchains hobjects hpp in
theorem object_of_nodup (hnodup : (pp.objects.map PackObject.oid).Nodup) {i : ℕ} (hi : i < n) :
    pp.object (pp.obj i).oid = some (pp.obj i) := by
  have hmap : pp.objects.map PackObject.oid = oids := by
    refine ext_getElem (by simp [hpp, hobjects.1, hoids]) fun k hk hk' => ?_
    obtain ⟨c, t, -, hobj⟩ := obj_eq_of_lt hchains hobjects hpp (hoids ▸ hk')
    have hk'' : k < pp.objects.length := by simpa using hk
    have hget : pp.obj k = pp.objects[k] := by simp [ParsedPack.obj, hk'']
    rw [getElem_map, ← hget, hobj]
    simp [hk']
  obtain ⟨c, t, -, hobj⟩ := obj_eq_of_lt hchains hobjects hpp hi
  have hio : i < oids.length := hoids.symm ▸ hi
  have hoid : (pp.obj i).oid = oids[i] := by simp [hobj, hio]
  have hidx : pp.oidToIdx oids[i] = some i := by
    rw [hpp]
    exact lastIdxOf_eq_some (hmap ▸ hnodup) (getElem?_eq_getElem hio)
  rw [ParsedPack.object, hoid, if_pos (hoidLen _ (getElem_mem hio)), hidx]
  rfl

include hoids hoidLen hoffsets hoff hlength hentries hchains hobjects hpp in
theorem spanOk_of_parts : pp.SpanOk := by
  have hn : pp.objects.length = n := by rw [hpp]; exact hobjects.1
  have hbytes : pp.packBytes = packBytes := by rw [hpp]
  have hextent : ∀ i < n, (pp.obj i).offset = off i ∧ (pp.obj i).length = length i := by
    intro i hi
    obtain ⟨c, t, -, hobj⟩ := obj_eq_of_lt hchains hobjects hpp hi
    simp [hobj]
  constructor
  · intro i hi
    obtain ⟨ho, hl⟩ := hextent i (hn ▸ hi)
    rw [ho, hl, hbytes]
    exact (hlength i (hn ▸ hi)).1
  · intro i hi j hj
    obtain ⟨ho, hl⟩ := hextent i (hn ▸ hi)
    rw [ho, hl, (hextent j (hn ▸ hj)).1]
    exact (hlength i (hn ▸ hi)).2 j (hn ▸ hj)
  · exact fun i hi hcontig =>
      (span_of_contiguous hoffsets hoff hentries hchains hobjects hpp (hn ▸ hi) hcontig).1
  · intro i hi hcontig b hb
    rw [hn]
    exact (span_of_contiguous hoffsets hoff hentries hchains hobjects hpp (hn ▸ hi) hcontig).2 b hb
  · exact fun i hi href entry hentry =>
      readEntry_base_ne_ref hentries hchains hobjects hpp (hn ▸ hi) href hentry
  · exact fun hnodup i hi => object_of_nodup hoids hoidLen hchains hobjects hpp hnodup (hn ▸ hi)

end

/-- Every accepted pack has sound extents and spans. -/
theorem spanOk_of_parse {env : PackEnv} {packBytes idxBytes : Bytes} {pp : ParsedPack}
    (h : ParsedPack.parse env packBytes idxBytes = .ok pp) : pp.SpanOk := by
  simp only [ParsedPack.parse, bind_eq_ok, refuseIf_eq_ok, pure_eq_ok] at h
  obtain ⟨⟨oids, offsets⟩, hidx, -, -, -, hdistinct, -, hends, entries, hentries, chains, hchains,
    objects, hobjects, rfl⟩ := h
  exact spanOk_of_parts rfl (fun _ => length_of_mem_parseIdxV2 hidx) (length_parseIdxV2 hidx) rfl
    (extents_of_checks hdistinct hends) (getElem?_mapM_range hentries)
    (ChainInput.resolveChains_eq_ok hchains) (getElem?_mapM_range hobjects) rfl

/-! ### Contiguous chains -/

namespace ParsedPack

/-- `b` is a base under `i`, however deep. -/
def BaseUnder (pp : ParsedPack) : ℕ → ℕ → Prop :=
  Relation.TransGen fun i b => pp.base i = some b

/-- No object of the chain of `i` is a `REF_DELTA`. -/
def NoRefDelta (pp : ParsedPack) (i : ℕ) : Prop :=
  (pp.obj i).isRefDelta = false ∧ ∀ b, pp.BaseUnder i b → (pp.obj b).isRefDelta = false

theorem NoRefDelta.base {pp : ParsedPack} {i b : ℕ} (h : pp.NoRefDelta i) (hb : pp.base i = some b) : pp.NoRefDelta b :=
  ⟨h.2 b (.single hb), fun _ hb' => h.2 _ (.head hb hb')⟩

namespace SpanOk

variable {pp : ParsedPack} (hspan : pp.SpanOk) {i b : ℕ}
include hspan

theorem chain_induction {motive : ℕ → Prop}
    (root : ∀ i < pp.objects.length, (pp.obj i).contiguous = true → pp.base i = none → motive i)
    (delta : ∀ i < pp.objects.length, (pp.obj i).contiguous = true → ∀ b, pp.base i = some b → motive b → motive i)
    (hi : i < pp.objects.length) (hcontig : (pp.obj i).contiguous = true) : motive i := by
  -- a base starts before its delta
  induction hoff : (pp.obj i).offset using Nat.strong_induction_on generalizing i with
  | _ n ih =>
    cases hbase : pp.base i with
    | none => exact root i hi hcontig hbase
    | some b =>
      obtain ⟨hb, hbcontig, hlt, -⟩ := hspan.delta i hi hcontig b hbase
      exact delta i hi hcontig b hbase (ih _ (hoff ▸ hlt) hb hbcontig rfl)

variable (hi : i < pp.objects.length) (hcontig : (pp.obj i).contiguous = true)

include hi hcontig in
theorem spanStart_le_offset :
    pp.spanStart i ≤ (pp.obj i).offset := by
  cases hbase : pp.base i with
  | none =>
    have hroot := hspan.root i hi hcontig hbase
    simp only [spanStart]
    omega
  | some b =>
    obtain ⟨-, -, -, hlen⟩ := hspan.delta i hi hcontig b hbase
    rw [spanStart, hlen]
    omega

include hi hcontig in
/-- The span of a delta starts where its base's does. -/
theorem spanStart_base (hbase : pp.base i = some b) : pp.spanStart i = pp.spanStart b := by
  obtain ⟨hb, hbcontig, hlt, hlen⟩ := hspan.delta i hi hcontig b hbase
  have hle := hspan.spanStart_le_offset hb hbcontig
  rw [spanStart, hlen]
  omega

include hi hcontig in
theorem length_le_span :
    (pp.obj i).length ≤ (pp.obj i).deltaChainSpan ∧
      (pp.obj i).deltaChainSpan ≤ (pp.obj i).offset + (pp.obj i).length := by
  cases hbase : pp.base i with
  | none =>
    have hroot := hspan.root i hi hcontig hbase
    omega
  | some b =>
    obtain ⟨-, -, -, hlen⟩ := hspan.delta i hi hcontig b hbase
    omega

include hi hcontig in
/-- A base ends before its delta starts. -/
theorem stop_base (hbase : pp.base i = some b) :
    (pp.obj b).offset + (pp.obj b).length ≤ (pp.obj i).offset := by
  obtain ⟨hb, -, hlt, -⟩ := hspan.delta i hi hcontig b hbase
  exact hspan.stop_le_offset b hb i hi hlt

include hi hcontig in
/-- Every base of a contiguous chain lies inside the span, before the object. -/
theorem of_baseUnder (hb : pp.BaseUnder i b) :
    b < pp.objects.length ∧ (pp.obj b).contiguous = true ∧ pp.spanStart b = pp.spanStart i ∧
      (pp.obj b).offset < (pp.obj i).offset ∧ (pp.obj b).offset + (pp.obj b).length ≤ (pp.obj i).offset := by
  have hstep : ∀ {j c : ℕ}, j < pp.objects.length → (pp.obj j).contiguous = true →
      pp.base j = some c → c < pp.objects.length ∧ (pp.obj c).contiguous = true ∧
        pp.spanStart c = pp.spanStart j ∧ (pp.obj c).offset < (pp.obj j).offset ∧
        (pp.obj c).offset + (pp.obj c).length ≤ (pp.obj j).offset := by
    intro j c hj hjcontig hc
    obtain ⟨hlt, hccontig, hoff, -⟩ := hspan.delta j hj hjcontig c hc
    exact ⟨hlt, hccontig, (hspan.spanStart_base hj hjcontig hc).symm, hoff, hspan.stop_base hj hjcontig hc⟩
  induction hb with
  | single hc => exact hstep hi hcontig hc
  | tail _ hc ih =>
    obtain ⟨hj, hjcontig, hstart, hoff, hstop⟩ := ih
    obtain ⟨hlt, hccontig, hstart', hoff', hstop'⟩ := hstep hj hjcontig hc
    exact ⟨hlt, hccontig, hstart'.trans hstart, by omega, by omega⟩

end SpanOk

end ParsedPack

end DashForge
