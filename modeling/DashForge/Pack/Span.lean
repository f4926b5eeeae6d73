import DashForge.Pack.Extent
import DashForge.Pack.Verify

/-!
# Span reads

The browse plane reads an object from one range of its pack (`pack/parse.rs`): the
`deltaChainSpan` bytes up to the object's end, which hold its whole delta chain when the chain is
contiguous. `reconstructFromSpan` decodes the object from these bytes alone; its links run to the
end of the range instead of their own objects' ends, and the range bounds what it may build.

A contiguous chain without a `REF_DELTA` has the same links in its span as in the whole pack, moved
(`linksFrom_span`), and builds from them what it builds from the whole pack
(`reconstructFromSpan_spec`).
-/

namespace DashForge

open List Option

/-- A read takes one complete zlib stream from the start of its input: what follows the stream
changes nothing. -/
def PackEnv.ReadsOneStream (env : PackEnv) : Prop :=
  ∀ stream more limit out, env.zlibRead stream limit = .ok out →
    env.zlibRead (stream ++ more) limit = .ok out

/-- Where an object ends in its pack. -/
def PackObject.stop (o : PackObject) : ℕ := satAdd o.offset o.length

namespace ParsedPack

/-- Decode an object from only the pack bytes `[o.stop - o.deltaChainSpan, o.stop)`. -/
def reconstructFromSpan (env : PackEnv) (pp : ParsedPack) (o : PackObject) (spanSlice : Bytes) :
    Except PackError (GitObjType × Bytes) := do
  refuseIf (¬o.contiguous) (.config "object chain is not contiguous; use the per-base walk")
  let baseAddr ← okOr ((checkedAdd o.offset o.length).bind (checkedSub · o.deltaChainSpan))
    (.config "span geometry out of range")
  refuseIf (spanSlice.length ≠ o.deltaChainSpan) (.config "span slice length mismatch")
  pp.decodeAt env spanSlice baseAddr o.offset false

end ParsedPack

/-! ### Streams of a range -/

variable {env : PackEnv} {data buf : Bytes} {lo hi : ℕ}

theorem inflate_append (henv : env.ReadsOneStream) {stream : Bytes} {size : ℕ}
    (h : inflate env stream size = .ok data) (more : Bytes) : inflate env (stream ++ more) size = .ok data := by
  simp only [inflate, bind_eq_ok, refuseIf_eq_ok, pure_eq_ok] at h ⊢
  obtain ⟨-, hmost, out, hread, -, hlen, rfl⟩ := h
  have hread' : env.zlibRead stream (satAdd size 1) = .ok out := by
    cases hz : env.zlibRead stream (satAdd size 1) <;> simp_all [Except.mapError]
  refine ⟨(), ?_, out, ?_, (), hlen, rfl⟩
  · have hle := satMul_le_satMul (length_append ▸ Nat.le_add_right _ _ :
      stream.length ≤ (stream ++ more).length) deflateMaxRatio
    simp only [satAdd] at hmost ⊢
    omega
  · rw [henv _ more _ _ hread']
    rfl

/-- A link of the pack as a link of its bytes `[lo, hi)`. -/
def Link.within (lo hi : ℕ) (link : Link) : Link := ⟨link.start - lo, hi - lo, link.size⟩

theorem Link.inflated_within (henv : env.ReadsOneStream) (hhi : hi ≤ buf.length) {link : Link} (hlo : lo ≤ link.start)
    (hstart : link.start ≤ link.stop) (hstop : link.stop ≤ hi) (h : link.inflated env buf = .ok data) :
    (link.within lo hi).inflated env ((buf.take hi).drop lo) = .ok data := by
  have hbytes : (((buf.take hi).drop lo).take (hi - lo)).drop (link.start - lo) =
      (buf.take link.stop).drop link.start ++ (buf.take hi).drop link.stop := by
    have hall : ((buf.take hi).drop lo).take (hi - lo) = (buf.take hi).drop lo :=
      take_of_length_le (by rw [length_drop, length_take]; omega)
    have hsplit : buf.take hi = buf.take link.stop ++ (buf.take hi).drop link.stop := by
      conv_lhs => rw [← take_append_drop link.stop (buf.take hi), take_take, min_eq_left hstop]
    have hlen : link.start ≤ (buf.take link.stop).length := by
      rw [length_take]
      omega
    rw [hall, drop_drop, Nat.add_sub_cancel' hlo]
    conv_lhs => rw [hsplit, drop_append_of_le_length hlen]
  simp only [Link.inflated, Link.within, hbytes]
  exact inflate_append henv h _

theorem buildFrom_within {span : Bytes} {base : Link}
    {deltas : List Link} {budget : ReadBudget} {r : Bytes × ReadBudget}
    (hlinks : ∀ link ∈ base :: deltas, ∀ data, link.inflated env buf = .ok data →
      (link.within lo hi).inflated env span = .ok data) (h : buildFrom env buf base deltas budget = .ok r) :
    buildFrom env span (base.within lo hi) (deltas.map (Link.within lo hi)) budget = .ok r := by
  induction deltas generalizing r with
  | nil =>
    simp only [buildFrom, map_nil, reverse_nil, foldlM_nil, bind_eq_ok] at h ⊢
    obtain ⟨data, hdata, h⟩ := h
    exact ⟨data, hlinks base mem_cons_self data hdata, h⟩
  | cons link deltas ih =>
    rw [map_cons, ParsedPack.buildFrom_cons, bind_eq_ok]
    rw [ParsedPack.buildFrom_cons, bind_eq_ok] at h
    obtain ⟨st, hst, hstep⟩ := h
    refine ⟨st, ih (fun l hl => hlinks l (by grind)) hst, ?_⟩
    obtain ⟨delta, hdelta, hrest⟩ := ParsedPack.buildStep_eq_ok_iff.mp hstep
    exact ParsedPack.buildStep_eq_ok_iff.mpr ⟨delta, hlinks link (by simp) delta hdelta, hrest⟩

/-! ### The chain in its span -/

namespace ParsedPack

variable {pp : ParsedPack} {i : ℕ}

theorem PackOk.readEntry_of_ownEntry (hpp : pp.PackOk) {stop : ℕ}
    (hi : i < pp.objects.length) {entry : Entry} (h : pp.ownEntry i = .ok (entry, stop)) :
    readEntry (pp.packBytes.take stop) (pp.obj i).offset = .ok entry := by
  simp only [ownEntry, bind_eq_ok, pure_eq_ok, Prod.mk.injEq] at h
  obtain ⟨⟨start, stop⟩, hextent, entry', hread, rfl, rfl⟩ := h
  obtain ⟨rfl, -⟩ := (hpp.extent_eq_ok_iff hi).mp hextent
  exact hread

section

variable {env : PackEnv} {pp : ParsedPack} (hpp : pp.PackOk) (hspan : pp.SpanOk) {lo hi : ℕ}
  (hhi : hi ≤ pp.packBytes.length)
variable {i : ℕ} {rest : List Link} {base : Link}

include hpp hhi

theorem linkAt_span {stop : ℕ} {entry : Entry} (hi' : i < pp.objects.length)
    (hlo : lo ≤ (pp.obj i).offset) (hstop : (pp.obj i).offset + (pp.obj i).length ≤ hi)
    (hentry : pp.ownEntry i = .ok (entry, stop)) (covered : ℕ) :
    pp.linkAt ((pp.packBytes.take hi).drop lo) lo false (pp.obj i).offset covered =
      .ok ({ entry with data := entry.data - lo }, Link.within lo hi ⟨entry.data, stop, entry.size⟩, covered) := by
  obtain ⟨-, rfl, -⟩ := hpp.ownEntry_eq_ok hi' hentry
  have hread := hpp.readEntry_of_ownEntry hi' hentry
  have hread' : readEntry (pp.packBytes.take hi) (pp.obj i).offset = .ok entry := by
    refine readEntry_of_take (k := (pp.obj i).offset + (pp.obj i).length) ?_
    rwa [take_take, min_eq_left hstop]
  have hshift := readEntry_add (pp.packBytes.take hi) ((pp.obj i).offset - lo) lo
  rw [Nat.sub_add_cancel hlo, hread'] at hshift
  have hspanRead : readEntry ((pp.packBytes.take hi).drop lo) ((pp.obj i).offset - lo) =
      .ok { entry with data := entry.data - lo } := by
    cases hr : readEntry ((pp.packBytes.take hi).drop lo) ((pp.obj i).offset - lo) with
    | error e => simp [hr, Except.map] at hshift
    | ok e =>
      rw [hr] at hshift
      have heq : entry = { e with data := e.data + lo } := Except.ok.inj hshift
      simp [heq]
  have hlen : ((pp.packBytes.take hi).drop lo).length = hi - lo := by
    rw [length_drop, length_take, min_eq_left hhi]
  simp only [linkAt, linkEnd, bind_eq_ok, okOr_eq_ok, refuseIf_eq_ok, pure_eq_ok, checkedSub,
    if_pos hlo, some.injEq, exists_eq_left', Bool.false_eq_true, if_false,
    Except.ok.injEq, take_length, Prod.mk.injEq, Link.within]
  exact ⟨(), lt_irrefl _, _, hspanRead, rfl, by rw [hlen], trivial⟩

include hspan

theorem linksFrom_span (room covered : ℕ) (seen : Finset ℕ) (deltas : List Link)
    (hchain : pp.ChainLinks i rest base) (hi' : i < pp.objects.length)
    (hcontig : (pp.obj i).contiguous = true) (href : pp.NoRefDelta i)
    (hlo : lo = pp.spanStart i) (hstop : (pp.obj i).offset + (pp.obj i).length ≤ hi)
    (hroom : (pp.obj i).deltaDepth ≤ room) (hseen : pp.Deeper seen i) :
    pp.linksFrom ((pp.packBytes.take hi).drop lo) lo false room seen (pp.obj i).offset deltas covered =
      .ok ⟨(pp.obj i).objType, base.within lo hi, deltas ++ rest.map (Link.within lo hi), covered⟩ := by
  have hoffset := hspan.spanStart_le_offset hi' hcontig
  induction hchain generalizing room seen deltas with
  | @root i link hbase hlink =>
    obtain ⟨entry, stop, hentry, rfl⟩ := ownLink_eq_ok_iff.mp hlink
    have hlinkAt := linkAt_span hpp hhi hi' (hlo ▸ hoffset) hstop hentry covered
    unfold linksFrom
    rw [if_neg (hpp.not_mem_seen hi' hseen)]
    cases (hpp.ownEntry_eq_ok hi' hentry).1 with
    | delta hbase' => simp [hbase] at hbase'
    | root _ hnone htype => simp [hlinkAt, hnone, nextAddr, htype, bind, Except.bind, pure, Except.pure]
  | @delta i b link base rest hbase hlink _ ih =>
    obtain ⟨entry, stop, hentry, rfl⟩ := ownLink_eq_ok_iff.mp hlink
    have hlinkAt := linkAt_span hpp hhi hi' (hlo ▸ hoffset) hstop hentry covered
    obtain ⟨hb, hbcontig, hlt, -⟩ := hspan.delta i hi' hcontig b hbase
    have hstopBase := hspan.stop_base hi' hcontig hbase
    cases (hpp.ownEntry_eq_ok hi' hentry).1 with
    | root hbase' => simp [hbase] at hbase'
    | @delta b' hbase' _ haddr htype hdepth =>
      obtain rfl := some.inj (hbase.symm.trans hbase')
      obtain ⟨room, rfl⟩ : ∃ r, room = r + 1 := ⟨room - 1, by omega⟩
      have hwhole : readEntry pp.packBytes (pp.obj i).offset = .ok entry :=
        readEntry_of_take (hpp.readEntry_of_ownEntry hi' hentry)
      -- the entry names its base by distance: it is neither a root nor a `REF_DELTA`
      have hnext : pp.nextAddr false (pp.obj i).offset entry.base = .ok (some (pp.obj b).offset) := by
        cases hbaseKind : entry.base with
        | none => simp [hbaseKind, baseAddr] at haddr
        | ofs rel => simpa [hbaseKind, baseAddr, nextAddr] using haddr
        | ref oid => exact absurd hbaseKind (hspan.isRefDelta i hi' href.1 entry hwhole oid)
      have hrest := ih room _ (deltas ++ [Link.within lo hi
          ⟨entry.data, stop, entry.size⟩]) hb hbcontig (href.base hbase)
        (hlo.trans (hspan.spanStart_base hi' hcontig hbase)) (by omega) (by omega) (hseen.insert hi' (by omega))
        (hspan.spanStart_le_offset hb hbcontig)
      unfold linksFrom
      rw [if_neg (hpp.not_mem_seen hi' hseen)]
      simp [hlinkAt, hnext, hrest, htype]

theorem links_in_span (hchain : pp.ChainLinks i rest base) (hi' : i < pp.objects.length)
    (hcontig : (pp.obj i).contiguous = true) (hlo : lo = pp.spanStart i)
    (hstop : (pp.obj i).offset + (pp.obj i).length ≤ hi) :
    ∀ link ∈ base :: rest, lo ≤ link.start ∧ link.start ≤ link.stop ∧ link.stop ≤ hi := by
  have hown : ∀ {i : ℕ} {link : Link}, i < pp.objects.length → (pp.obj i).contiguous = true →
      lo = pp.spanStart i → (pp.obj i).offset + (pp.obj i).length ≤ hi →
      pp.ownLink i = .ok link → lo ≤ link.start ∧ link.start ≤ link.stop ∧ link.stop ≤ hi := by
    intro i link hi' hcontig hlo hstop hlink
    obtain ⟨entry, stop, hentry, rfl⟩ := ownLink_eq_ok_iff.mp hlink
    obtain ⟨-, rfl, -⟩ := hpp.ownEntry_eq_ok hi' hentry
    have hdata := readEntry_le (hpp.readEntry_of_ownEntry hi' hentry)
    have hstart := hspan.spanStart_le_offset hi' hcontig
    rw [length_take] at hdata
    exact ⟨by simp only; omega, by simp only; omega, hstop⟩
  induction hchain with
  | root hbase hlink =>
    intro link hmem
    obtain rfl : link = _ := by simpa using hmem
    exact hown hi' hcontig hlo hstop hlink
  | @delta i b link base rest hbase hlink _ ih =>
    obtain ⟨hb, hbcontig, -⟩ := hspan.delta i hi' hcontig b hbase
    have hstopBase := hspan.stop_base hi' hcontig hbase
    have hrest := ih hb hbcontig (hlo.trans (hspan.spanStart_base hi' hcontig hbase)) (by omega)
    intro l hmem
    rcases mem_cons.mp hmem with rfl | hmem
    · exact hrest l mem_cons_self
    rcases mem_cons.mp hmem with rfl | hmem
    · exact hown hi' hcontig hlo hstop hlink
    · exact hrest l (mem_cons_of_mem _ hmem)

end

theorem PackOk.chainBytes_le_span (hpp : pp.PackOk) (hspan : pp.SpanOk)
    (hi : i < pp.objects.length) (hcontig : (pp.obj i).contiguous = true) :
    pp.chainBytes i + pp.spanStart i ≤ (pp.obj i).offset + (pp.obj i).length := by
  refine hspan.chain_induction
    (motive := fun i => pp.chainBytes i + pp.spanStart i ≤ (pp.obj i).offset + (pp.obj i).length)
    (fun i hi hcontig hbase => ?_) (fun i hi hcontig b hbase ih => ?_) hi hcontig
  · have := hspan.spanStart_le_offset hi hcontig
    rw [chainBytes_root hbase]
    omega
  · obtain ⟨entry, -, hentry⟩ := hpp.entry i hi
    cases hentry with
    | root hbase' => simp [hbase] at hbase'
    | delta hbase' _ _ _ hdepth =>
      obtain rfl := some.inj (hbase.symm.trans hbase')
      have := hspan.stop_base hi hcontig hbase
      rw [chainBytes_delta hbase hdepth, hspan.spanStart_base hi hcontig hbase]
      omega

/-- An object that builds from the whole pack within its budget decodes from its span. -/
theorem PackOk.decodeAt_span {env : PackEnv} (henv : env.ReadsOneStream)
    (hpp : pp.PackOk) (hspan : pp.SpanOk) {built : ℕ} {data : Bytes}
    (hi : i < pp.objects.length) (hcontig : (pp.obj i).contiguous = true) (href : pp.NoRefDelta i)
    (hbuilds : pp.Decodes env i data built) :
    pp.decodeAt env ((pp.packBytes.take ((pp.obj i).offset + (pp.obj i).length)).drop
        (pp.spanStart i)) (pp.spanStart i) (pp.obj i).offset false = .ok ((pp.obj i).objType, data) := by
  set lo := pp.spanStart i with hlo
  set hi' := (pp.obj i).offset + (pp.obj i).length with hhi
  have hlen : hi' ≤ pp.packBytes.length := hspan.stop_le i hi
  set buf := (pp.packBytes.take hi').drop lo with hbuf
  have hbufLen : buf.length = hi' - lo := by
    rw [hbuf, length_drop, length_take, min_eq_left hlen]
  -- the chain is stored in at most the bytes of the span, so the span's budget admits it
  have hcovered : min (pp.chainBytes i) u64Max ≤ buf.length := by
    have := hpp.chainBytes_le_span hspan hi hcontig
    omega
  have hspanBuilds := hbuilds.mono (ReadBudget.step_new_le hcovered)
    (ReadBudget.left_new_le hcovered)
  obtain ⟨rest, base, hchain⟩ := hbuilds.exists_chainLinks
  have hlinks := linksFrom_span hpp hspan hlen maxDeltaDepth 0 ∅ [] hchain hi hcontig href hlo
    le_rfl (hpp.depth_le i hi) (by simp)
  have hwhole := hchain.buildFrom_eq_ok_iff.mpr ⟨built, hspanBuilds, rfl⟩
  have hinside := links_in_span hpp hspan hlen hchain hi hcontig hlo le_rfl
  have hbuild : buildFrom env buf (base.within lo hi') (rest.map (Link.within lo hi'))
      (ReadBudget.new buf.length) = .ok (data, _) :=
    buildFrom_within (fun link hlink d hd =>
      let ⟨hstart, hle, hstop⟩ := hinside link hlink
      link.inflated_within henv hlen hstart hle hstop hd) hwhole
  simp only [decodeAt, linksAt, build, bind_eq_ok, pure_eq_ok]
  refine ⟨⟨(pp.obj i).objType, base.within lo hi', rest.map (Link.within lo hi'), buf.length⟩,
    ⟨_, hlinks, rfl⟩, data, ⟨_, hbuild, rfl⟩, rfl⟩

/-- What zlib gives on inputs that start with one of the two streams of `twoBlobsPack`. -/
def twoStreamsEnv : PackEnv :=
  { twoBlobsEnv with
    zlibRead := fun stream limit =>
      if [120, 156, 75, 76, 132, 0, 0, 13, 172, 3, 9] <+: stream then
        .ok (([97, 97, 97, 97, 97, 97, 97, 97] : Bytes).take limit)
      else if [120, 156, 227, 224, 156, 192, 193, 152, 4, 0, 3, 31, 1, 13] <+: stream then
        .ok (([8, 9, 144, 8, 1, 98] : Bytes).take limit)
      else .error "corrupt deflate stream" }

theorem readsOneStream_twoStreamsEnv : twoStreamsEnv.ReadsOneStream := by
  intro stream more limit out h
  simp only [twoStreamsEnv] at h ⊢
  split at h
  case isTrue hfirst => rw [if_pos (hfirst.trans (prefix_append _ _))]; exact h
  split at h
  case isTrue hfirst hsecond =>
    -- the two streams differ in their third byte
    have hne : ¬[120, 156, 75, 76, 132, 0, 0, 13, 172, 3, 9] <+: stream ++ more := by
      intro hpre
      have := prefix_of_prefix_length_le hpre (hsecond.trans (prefix_append _ _))
        (by decide)
      exact absurd this (by decide)
    rw [if_neg hne, if_pos (hsecond.trans (prefix_append _ _))]
    exact h
  · cases h

end ParsedPack

end DashForge
