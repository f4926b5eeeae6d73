import DashForge.Private.Sealed

/-!
# Sealed artifacts: the streaming writer and the readers

`SealWriter` takes the plaintext in pieces and keeps back a full segment until more data follows, so
that the last segment is always the one `finish` emits; `openStreaming` reads the sealed file segment
by segment (`private/pack.rs`). `Written` says what the writer holds after a prefix of the plaintext;
it does not depend on the pieces (`sealPieces_eq`), and what the writer gives is `sealedFile`. The
readers open it again, as a whole (`openSealed_sealedFile`) and range by range (`openRange_sealedFile`).
-/

namespace DashForge.Sealed

open List

/-! ### The streaming writer -/

/-- The state of the streaming sealer. The output is a `Vec`, which takes every write. -/
structure SealWriter where
  header : PackHeader
  cipher : Bytes
  out : Bytes
  buf : Bytes
  next : ℕ
  written : ℕ
deriving DecidableEq

namespace SealWriter

variable (gcm : Gcm)

def new (keys : EpochKeys) (header : PackHeader) (out : Bytes) : Io SealWriter := do
  let cipher ← header.fileKey keys
  return ⟨header, cipher, out, [], 0, 0⟩

/-- Seal the buffer as the next segment. -/
def emit (w : SealWriter) : Io SealWriter := do
  let nonce ← w.header.nonce w.next
  let ct ← orErr (gcm.encrypt w.cipher nonce w.header.raw w.buf) .sealedPackCorrupt
  let next ← addU64 w.next 1
  return { w with out := w.out ++ ct, buf := [], next := next }

/-- Seal the buffer once it holds a full segment. -/
def emitFull (seg : ℕ) (w : SealWriter) : Io SealWriter :=
  if w.buf.length = seg then emit gcm w else return w

/-- The loop of `writeAllPlain`; each turn takes a byte at least, so that `fuel` is the length of the
data. -/
def feed (seg : ℕ) : ℕ → SealWriter → Bytes → Io SealWriter
  | 0, w, data => if data = [] then return w else .error .panic
  | fuel + 1, w, data =>
    if data = [] then return w
    else do
      -- a full segment is emitted only once more data follows
      let w ← emitFull gcm seg w
      let room ← subU64 seg w.buf.length
      let taken := min room data.length
      let written ← addU64 w.written taken
      feed seg fuel { w with buf := w.buf ++ data.take taken, written := written } (data.drop taken)

def writeAllPlain (w : SealWriter) (data : Bytes) : Io SealWriter := do
  let total ← addU64 w.written data.length
  if w.header.plaintextLen < total then fail .outOfRange
  else do
    let seg ← w.header.segSize
    feed gcm seg data.length w data

/-- Seal the last segment. -/
def finish (w : SealWriter) : Io Bytes :=
  if w.written ≠ w.header.plaintextLen then fail .outOfRange
  else do
    let w ← emit gcm w
    return w.out

end SealWriter

/-- Start a file of `plaintextLen` bytes, write the pieces and finish it. -/
def sealPieces (gcm : Gcm) (keys : EpochKeys) (segLog2 plaintextLen : ℕ) (fileId : Bytes)
    (pieces : List Bytes) : Io Bytes := do
  let h := PackHeader.build segLog2 keys.epoch plaintextLen fileId
  let w ← SealWriter.new keys h h.raw
  let w ← pieces.foldlM (SealWriter.writeAllPlain gcm) w
  SealWriter.finish gcm w

/-! ### The streaming reader -/

/-- What a reader gives: its bytes, and then its end or an I/O error. -/
structure Reader where
  data : Bytes
  broken : Bool
deriving DecidableEq

/-- Read `n` bytes, or fail. -/
def Reader.readExact (r : Reader) (n : ℕ) (e : PrivateError) : Io (Bytes × Reader) :=
  if n ≤ r.data.length then return (r.data.take n, { r with data := r.data.drop n }) else fail e

/-- Whether a byte is left. -/
def Reader.readExtra (r : Reader) : Io Bool :=
  if r.data ≠ [] then return true else if r.broken then fail .sealedPackCorrupt else return false

/-- `&mut buf[..len]` for a buffer of `cap` bytes. -/
def sliceTo (len cap : ℕ) : Io Unit := if len ≤ cap then return () else .error .panic

namespace PackHeader

variable (h : PackHeader) (gcm : Gcm) (key : Bytes)

/-- Read and open segment `i`; `cap` is the size of the buffer. -/
def streamNext (cap : ℕ) (st : Bytes × Reader) (i : ℕ) : Io (Bytes × Reader) := do
  let plain ← h.segPlainLen i
  let len ← addU64 plain tagLen
  sliceTo len cap
  let (seg, rest) ← st.2.readExact len .sizeMismatch
  let pt ← h.openSegment gcm key i seg
  return (st.1 ++ pt, rest)

/-- Every segment after the header; nothing may follow the last one. Gives what is written and the
length it returns. -/
def openSegments (sealed : Reader) : Io (Bytes × ℕ) := do
  let s ← h.segSize
  let cap ← addU64 s tagLen
  let n ← h.segments
  let (out, rest) ← (List.range n).foldlM (h.streamNext gcm key cap) ([], sealed)
  let extra ← rest.readExtra
  if extra then fail .sizeMismatch else return (out, h.plaintextLen)

end PackHeader

/-- Open a sealed file from a reader. -/
def openStreaming (gcm : Gcm) (keysFor : ℕ → Option EpochKeys) (sealed : Reader) (sizeBytes : ℕ) :
    Io (Bytes × ℕ) := do
  let (head, rest) ← sealed.readExact headerLen
    (if sizeBytes < headerLen then .sealedPackCorrupt else .sizeMismatch)
  let h ← PackHeader.parse head sizeBytes
  let keys ← orErr (keysFor h.epoch) (.noKey h.epoch)
  let key ← h.fileKey keys
  h.openSegments gcm key rest

/-- Open a whole sealed file (`open` of the source). -/
def openSealed (gcm : Gcm) (keysFor : ℕ → Option EpochKeys) (sealed : Bytes) (sizeBytes : ℕ) :
    Io Bytes :=
  if sealed.length ≠ sizeBytes then fail .sizeMismatch
  else do
    let (out, _) ← openStreaming gcm keysFor ⟨sealed, false⟩ sizeBytes
    return out

/-! ### What the writer writes -/

section File

variable (gcm : Gcm) (key : Bytes) (h : PackHeader) (p : Bytes)

/-- Segment `i` of the plaintext `p`, sealed. -/
def sealedSeg (i : ℕ) : Bytes :=
  (gcm.encrypt key (h.nonceAt i) h.raw (chunk h.segBytes p i)).getD []

/-- The sealed file. -/
def sealedFile : Bytes := h.raw ++ (List.range h.segCount).flatMap (sealedSeg gcm key h p)

/-- What the writer holds after the plaintext `q`: some full segments are sealed, the rest is in the
buffer. -/
structure Holds (q : Bytes) (w : SealWriter) : Prop where
  header : w.header = h
  cipher : w.cipher = key
  out : w.out = h.raw ++ (List.range w.next).flatMap (sealedSeg gcm key h q)
  buf : w.buf = q.drop (w.next * h.segBytes)
  le : w.next * h.segBytes ≤ q.length
  buf_le : w.buf.length ≤ h.segBytes
  written : w.written = q.length

/-- Between two writes a segment is sealed only if more data followed it. -/
structure Written (q : Bytes) (w : SealWriter) : Prop extends Holds gcm key h q w where
  last : w.next = 0 ∨ w.next * h.segBytes < q.length

end File

namespace PackHeader

variable {h : PackHeader}

theorem lt_segCount {i : ℕ} (hi : i * h.segBytes < h.plaintextLen) : i < h.segCount := by
  by_contra hle
  have := Nat.mul_le_mul_right h.segBytes (not_lt.mp hle)
  have := h.plaintextLen_le
  omega

theorem segCount_le {k : ℕ} (hpos : 0 < k) (hk : h.plaintextLen ≤ k * h.segBytes) : h.segCount ≤ k := by
  refine max_le ?_ hpos
  rwa [ceilDiv_le_iff_le_mul h.segBytes_pos, mul_comm]

/-- A file shorter than `2 ^ 63` bytes has at most `2 ^ 53` segments. -/
theorem segCount_le_of_lt (hmin : minSegLog2 ≤ h.segLog2) (hlen : h.plaintextLen < 2 ^ 63) : h.segCount ≤ 2 ^ 53 := by
  refine segCount_le (by decide) ?_
  calc h.plaintextLen ≤ 2 ^ 53 * 2 ^ 10 := by omega
    _ ≤ _ := Nat.mul_le_mul_left _ (Nat.pow_le_pow_right two_pos hmin)

end PackHeader

section Writer

variable {gcm : Gcm} {key : Bytes} {h : PackHeader} (lawful : gcm.Lawful) (ok : h.Accepted)

/-- A sealed segment is the encryption of its chunk. -/
theorem sealedSeg_spec (lawful : gcm.Lawful) (ok : h.Accepted) (key p : Bytes) (i : ℕ) :
    gcm.encrypt key (h.nonceAt i) h.raw (chunk h.segBytes p i) = some (sealedSeg gcm key h p i) ∧
      (sealedSeg gcm key h p i).length = (chunk h.segBytes p i).length + tagLen ∧
      gcm.decrypt key (h.nonceAt i) h.raw (sealedSeg gcm key h p i) = some (chunk h.segBytes p i) := by
  have hlen : (chunk h.segBytes p i).length ≤ gcmMax := by
    rw [length_chunk]
    exact (min_le_left _ _).trans (ok.segBytes_le.trans (by decide))
  obtain ⟨ct, henc, hct, hdec⟩ := lawful key (h.nonceAt i) h.raw _ hlen
  have hseg : sealedSeg gcm key h p i = ct := by rw [sealedSeg, henc, Option.getD_some]
  rw [hseg]
  exact ⟨henc, hct, hdec⟩

variable {q : Bytes} {w : SealWriter}

theorem flatMap_sealedSeg_append {k : ℕ} (hk : k * h.segBytes ≤ q.length) (d : Bytes) :
    (List.range k).flatMap (sealedSeg gcm key h (q ++ d)) = (List.range k).flatMap (sealedSeg gcm key h q) := by
  refine flatMap_congr fun i hi => ?_
  have hi' : (i + 1) * h.segBytes ≤ k * h.segBytes := Nat.mul_le_mul_right _ (mem_range.mp hi)
  rw [sealedSeg, sealedSeg, chunk_append_of_le (hi'.trans hk)]

include lawful ok

theorem emit_eq (hw : Holds gcm key h q w) (hnext : w.next < h.segCount) : w.emit gcm = .ok { w with
      out := h.raw ++ (List.range (w.next + 1)).flatMap (sealedSeg gcm key h q), buf := [],
      next := w.next + 1 } := by
  have hbuf : w.buf = chunk h.segBytes q w.next := by
    rw [chunk, ← hw.buf, take_of_length_le hw.buf_le]
  have hseg := (sealedSeg_spec lawful ok key q w.next).1
  have hlt := ok.segCount_lt_u64Max
  rw [SealWriter.emit, hw.header, ok.nonce_eq hnext, ok_bind, hw.cipher, hbuf, hseg, orErr_some, ok_bind,
    addU64_eq_ok (by omega), ok_bind, range_succ, flatMap_append, flatMap_singleton, hw.out,
    append_assoc]
  rfl

theorem room_of_written (hw : Written gcm key h q w) (hmore : q.length < h.plaintextLen) :
    ∃ w', SealWriter.emitFull gcm h.segBytes w = .ok w' ∧ Holds gcm key h q w' ∧ w'.buf.length < h.segBytes := by
  have hbuf : w.buf.length = q.length - w.next * h.segBytes := by rw [hw.buf, length_drop]
  have hle := hw.le
  rw [SealWriter.emitFull]
  split
  · rename_i hfull
    have hq : q.length = (w.next + 1) * h.segBytes := by rw [add_mul, one_mul]; omega
    refine ⟨_, emit_eq lawful ok hw.toHolds (PackHeader.lt_segCount (by omega)), ?_, h.segBytes_pos⟩
    exact
      { header := hw.header
        cipher := hw.cipher
        out := rfl
        buf := by rw [← hq, drop_length]
        le := hq.ge
        buf_le := Nat.zero_le _
        written := hw.written }
  · rename_i hroom
    exact ⟨w, rfl, hw.toHolds, lt_of_le_of_ne hw.buf_le hroom⟩

omit lawful ok in
theorem written_take {d : Bytes} (hw : Holds gcm key h q w) (hne : d ≠ [])
    (hroom : w.buf.length + d.length ≤ h.segBytes) :
    Written gcm key h (q ++ d) { w with buf := w.buf ++ d, written := w.written + d.length } := by
  have hpos := length_pos_iff.mpr hne
  have hle := hw.le
  have hlt : w.next * h.segBytes < (q ++ d).length := by rw [length_append]; omega
  exact
    { header := hw.header
      cipher := hw.cipher
      out := by rw [flatMap_sealedSeg_append hle]; exact hw.out
      buf := by rw [drop_append_of_le_length hle, ← hw.buf]
      le := hlt.le
      buf_le := by rw [length_append]; exact hroom
      written := by rw [length_append, hw.written]
      last := .inr hlt }

theorem feed_spec {fuel : ℕ} {data : Bytes} (hfuel : data.length ≤ fuel)
    (hw : Written gcm key h q w) (hfit : q.length + data.length ≤ h.plaintextLen) :
    ∃ w', SealWriter.feed gcm h.segBytes fuel w data = .ok w' ∧ Written gcm key h (q ++ data) w' := by
  induction fuel generalizing q data w with
  | zero =>
    obtain rfl : data = [] := length_eq_zero_iff.mp (Nat.le_zero.mp hfuel)
    exact ⟨w, rfl, by rwa [append_nil]⟩
  | succ fuel ih =>
    by_cases hdata : data = []
    · subst hdata
      exact ⟨w, rfl, by rwa [append_nil]⟩
    have hpos := length_pos_iff.mpr hdata
    obtain ⟨w₁, hemit, hw₁, hroom⟩ := room_of_written lawful ok hw (by omega)
    rw [SealWriter.feed, if_neg hdata, hemit, ok_bind, subU64_eq_ok hroom.le, ok_bind]
    generalize htaken : min (h.segBytes - w₁.buf.length) data.length = taken
    have hu := ok.plaintextLen_le_u64Max
    have hlen : (data.take taken).length = taken := by rw [length_take]; omega
    have hwritten := hw₁.written
    dsimp only
    rw [addU64_eq_ok (by omega), ok_bind]
    have hstep := written_take (d := data.take taken) hw₁ (length_pos_iff.mp (by omega)) (by omega)
    rw [hlen] at hstep
    obtain ⟨w', hfeed, hw'⟩ := ih (q := q ++ data.take taken)
      (show (data.drop taken).length ≤ fuel by rw [length_drop]; omega) hstep
      (by rw [length_append, hlen, length_drop]; omega)
    exact ⟨w', hfeed, by rwa [append_assoc, take_append_drop] at hw'⟩

theorem writeAllPlain_spec {data : Bytes} (hw : Written gcm key h q w)
    (hfit : q.length + data.length ≤ h.plaintextLen) :
    ∃ w', w.writeAllPlain gcm data = .ok w' ∧ Written gcm key h (q ++ data) w' := by
  have hu := ok.plaintextLen_le_u64Max
  have hwritten := hw.written
  rw [SealWriter.writeAllPlain, addU64_eq_ok (by omega), ok_bind, hw.header, if_neg (by omega), ok.segSize_eq, ok_bind]
  exact feed_spec lawful ok le_rfl hw hfit

theorem writeAll_spec {pieces : List Bytes} (hw : Written gcm key h q w)
    (hfit : q.length + pieces.flatten.length ≤ h.plaintextLen) :
    ∃ w', pieces.foldlM (SealWriter.writeAllPlain gcm) w = .ok w' ∧ Written gcm key h (q ++ pieces.flatten) w' := by
  induction pieces generalizing q w with
  | nil => exact ⟨w, rfl, by simpa using hw⟩
  | cons d pieces ih =>
    rw [flatten_cons, length_append] at hfit
    obtain ⟨w₁, hstep, hw₁⟩ := writeAllPlain_spec lawful ok hw (show q.length + d.length ≤ _ by omega)
    obtain ⟨w', hrest, hw'⟩ := ih hw₁ (by rw [length_append]; omega)
    refine ⟨w', ?_, ?_⟩
    · rw [foldlM_cons, hstep, ok_bind, hrest]
    · rwa [flatten_cons, ← append_assoc]

theorem finish_eq {p : Bytes} (hw : Written gcm key h p w)
    (hp : h.plaintextLen = p.length) : w.finish gcm = .ok (sealedFile gcm key h p) := by
  have hbuf : w.buf.length = p.length - w.next * h.segBytes := by rw [hw.buf, length_drop]
  have hle := hw.buf_le
  have hlt : w.next < h.segCount := by
    rcases hw.last with hzero | hlt
    · rw [hzero]
      exact h.segCount_pos
    · exact PackHeader.lt_segCount (by omega)
  have hcount : h.segCount ≤ w.next + 1 :=
    PackHeader.segCount_le (Nat.succ_pos _) (by rw [add_mul, one_mul]; omega)
  have hnext : w.next + 1 = h.segCount := by omega
  rw [SealWriter.finish, hw.header, hw.written, hp, if_neg (by simp), emit_eq lawful ok hw.toHolds hlt, ok_bind, hnext]
  rfl

end Writer

variable {p : Bytes} {b : ℕ} {h : PackHeader}

variable {gcm : Gcm} {keys : EpochKeys} {segLog2 i : ℕ} {fileId : Bytes}

/-- However the plaintext is split, the writer gives the same file. -/
theorem sealPieces_eq (lawful : gcm.Lawful) (ok : (PackHeader.build segLog2 keys.epoch p.length fileId).Accepted)
    {pieces : List Bytes} (hp : pieces.flatten = p) : sealPieces gcm keys segLog2 p.length fileId pieces =
      .ok (sealedFile gcm (keys.packKey fileId) (PackHeader.build segLog2 keys.epoch p.length fileId) p) := by
  generalize hh : PackHeader.build segLog2 keys.epoch p.length fileId = h at ok
  have hlen : h.plaintextLen = p.length := by rw [← hh]; rfl
  have hkey : h.fileKey keys = .ok (keys.packKey fileId) := by
    rw [← hh]
    exact if_neg (by simp [PackHeader.build])
  have hnew : Written gcm (keys.packKey fileId) h [] ⟨h, keys.packKey fileId, h.raw, [], 0, 0⟩ :=
    ⟨⟨rfl, rfl, by simp, by simp, by simp, Nat.zero_le _, rfl⟩, .inl rfl⟩
  obtain ⟨w, hfold, hw⟩ := writeAll_spec lawful ok hnew
    (show _ + pieces.flatten.length ≤ _ by simp [hp, hlen])
  rw [nil_append, hp] at hw
  rw [sealPieces, hh, SealWriter.new, hkey, ok_bind]
  change (do
    let w ← pieces.foldlM (SealWriter.writeAllPlain gcm) ⟨h, keys.packKey fileId, h.raw, [], 0, 0⟩
    w.finish gcm) = _
  rw [hfold, ok_bind]
  exact finish_eq lawful ok hw hlen

theorem slice_append (x y z : Bytes) : slice (x ++ (y ++ z)) x.length (x ++ y).length = some y := by
  have hin : x.length ≤ (x ++ y).length ∧ (x ++ y).length ≤ (x ++ (y ++ z)).length := by
    simp only [length_append]
    omega
  rw [slice, if_pos hin, ← append_assoc, take_left, drop_left]

theorem slice_window {x y a : ℕ} (hx : x ≤ a) (hab : a ≤ b) (hy : b ≤ x + y)
    (hb : b ≤ p.length) : slice ((p.drop x).take y) (a - x) (b - x) = some ((p.take b).drop a) := by
  have hin : a - x ≤ b - x ∧ b - x ≤ ((p.drop x).take y).length := by
    rw [length_take, length_drop]
    omega
  have hwidth : b - x - (a - x) = b - a := by omega
  have hstart : x + (a - x) = a := by omega
  rw [slice, if_pos hin, take_take, min_eq_left (by omega), drop_take, drop_drop,
    drop_take, hwidth, hstart]

theorem PackHeader.stop_eq (a : ℕ) (hpos : 0 < b) (hb : b ≤ h.plaintextLen) :
    (h.rangeOf a b).stop = headerLen + (min (((b - 1) / h.segBytes + 1) * h.segBytes) h.plaintextLen +
      tagLen * ((b - 1) / h.segBytes + 1)) := by
  have hcount : (b - 1) / h.segBytes + 1 ≤ h.segCount := lastSegment_lt hpos hb
  simp only [rangeOf, fileLen]
  generalize (b - 1) / h.segBytes + 1 = k at *
  have htags : tagLen * k ≤ tagLen * h.segCount := Nat.mul_le_mul_left _ hcount
  have hmul : k * tagLen = tagLen * k := mul_comm _ _
  rw [mul_add]
  rcases hcount.lt_or_eq with hk | rfl
  · have := mul_segBytes_le hk
    omega
  · have := h.plaintextLen_le
    omega

/-! ### Opening what was written -/

section Opened

variable {gcm : Gcm} (key : Bytes) {p : Bytes} {h : PackHeader}

/-- The sealed length of the first `k` segments. -/
theorem length_flatMap_sealedSeg (lawful : gcm.Lawful) (ok : h.Accepted) (k : ℕ) :
    ((List.range k).flatMap (sealedSeg gcm key h p)).length = min (k * h.segBytes) p.length + tagLen * k := by
  induction k with
  | zero => simp
  | succ k ih =>
    have hseg := (sealedSeg_spec lawful ok key p k).2.1
    rw [length_chunk] at hseg
    rw [range_succ, flatMap_append, length_append, ih, flatMap_singleton, hseg,
      add_mul, mul_add]
    omega

theorem flatMap_range_add (f : ℕ → Bytes) (i m : ℕ) :
    (List.range (i + m)).flatMap f = (List.range i).flatMap f ++ (List.range' i m).flatMap f := by
  have happ : List.range' 0 i ++ List.range' i m = List.range' 0 (i + m) := by
    simpa using range'_append_1 (s := 0) (m := i) (n := m)
  rw [range_eq_range', range_eq_range', ← flatMap_append, happ]

theorem length_sealedFile (lawful : gcm.Lawful) (ok : h.Accepted) (hraw : h.raw.length = headerLen)
    (hp : h.plaintextLen = p.length) : (sealedFile gcm key h p).length = h.fileLen := by
  have hle := h.plaintextLen_le
  rw [sealedFile, length_append, hraw, length_flatMap_sealedSeg key lawful ok, PackHeader.fileLen, hp,
    min_eq_right (by omega), add_assoc]

variable (lawful : gcm.Lawful) (ok : h.Accepted) (hp : h.plaintextLen = p.length)
variable {i : ℕ} {keys : EpochKeys}

include lawful ok

include hp in
theorem segLen_eq (hi : i < h.segCount) :
    (h.segPlainLen i >>= fun plain => addU64 plain tagLen) = .ok (sealedSeg gcm key h p i).length := by
  rw [ok.sealedSegLen_eq hi, (sealedSeg_spec lawful ok key p i).2.1, length_chunk, hp, Nat.min_comm]

theorem openSegment_sealedSeg (hi : i < h.segCount) :
    h.openSegment gcm key i (sealedSeg gcm key h p i) = .ok (chunk h.segBytes p i) := by
  rw [PackHeader.openSegment, ok.nonce_eq hi, ok_bind, (sealedSeg_spec lawful ok key p i).2.2, orErr_some]

theorem length_sealedSeg_le (i : ℕ) : (sealedSeg gcm key h p i).length ≤ h.segBytes + tagLen := by
  rw [(sealedSeg_spec lawful ok key p i).2.1, length_chunk]
  exact Nat.add_le_add_right (min_le_left _ _) _

include hp

theorem streamNext_sealedSeg (hi : i < h.segCount) (out rest : Bytes) (broken : Bool) :
    h.streamNext gcm key (h.segBytes + tagLen) (out, ⟨sealedSeg gcm key h p i ++ rest, broken⟩) i =
      .ok (out ++ chunk h.segBytes p i, ⟨rest, broken⟩) := by
  have hle := length_sealedSeg_le key lawful ok (p := p) i
  rw [PackHeader.streamNext, ← bind_assoc, segLen_eq key lawful ok hp hi, ok_bind, sliceTo, if_pos hle]
  simp only [Reader.readExact, length_append, Nat.le_add_right, if_true, take_left,
    drop_left, pure_bind, openSegment_sealedSeg key lawful ok hi]
  rfl

variable {m a : ℕ} {keysFor : ℕ → Option EpochKeys}

theorem foldlM_streamNext (hm : i + m ≤ h.segCount) (out rest : Bytes) (broken : Bool) :
    (List.range' i m).foldlM (h.streamNext gcm key (h.segBytes + tagLen))
        (out, ⟨(List.range' i m).flatMap (sealedSeg gcm key h p) ++ rest, broken⟩) =
      .ok (out ++ (List.range' i m).flatMap (chunk h.segBytes p), ⟨rest, broken⟩) := by
  induction m generalizing i out with
  | zero => simp
  | succ m ih =>
    rw [range'_succ, foldlM_cons, flatMap_cons, append_assoc,
      streamNext_sealedSeg key lawful ok hp (by omega), ok_bind, ih (by omega), flatMap_cons, append_assoc]

theorem openNext_sealedSeg (hi : i < h.segCount) (out pre rest : Bytes)
    (hfit : (pre ++ (sealedSeg gcm key h p i ++ rest)).length ≤ u64Max) :
    h.openNext gcm key (pre ++ (sealedSeg gcm key h p i ++ rest)) (out, pre.length) i =
      .ok (out ++ chunk h.segBytes p i, (pre ++ sealedSeg gcm key h p i).length) := by
  rw [length_append, length_append] at hfit
  rw [PackHeader.openNext, ← bind_assoc, segLen_eq key lawful ok hp hi, ok_bind, checkedAdd,
    if_pos (by omega), orErr_some, ok_bind, slice,
    if_pos ⟨by omega, by simp only [length_append]; omega⟩, orErr_some, ok_bind]
  rw [← append_assoc, ← length_append, take_left, drop_left, openSegment_sealedSeg key lawful ok hi]
  rfl

theorem foldlM_openNext (hm : i + m ≤ h.segCount) (out pre : Bytes)
    (hfit : (pre ++ (List.range' i m).flatMap (sealedSeg gcm key h p)).length ≤ u64Max) :
    ∃ off, (List.range' i m).foldlM (h.openNext gcm key (pre ++ (List.range' i m).flatMap (sealedSeg gcm key h p)))
        (out, pre.length) = .ok (out ++ (List.range' i m).flatMap (chunk h.segBytes p), off) := by
  induction m generalizing i out pre with
  | zero => exact ⟨pre.length, by simp⟩
  | succ m ih =>
    rw [range'_succ, flatMap_cons] at hfit
    obtain ⟨off, hoff⟩ := ih (i := i + 1) (by omega) (out ++ chunk h.segBytes p i)
      (pre ++ sealedSeg gcm key h p i) (by rwa [append_assoc])
    refine ⟨off, ?_⟩
    rw [range'_succ, foldlM_cons, flatMap_cons,
      openNext_sealedSeg key lawful ok hp (by omega) _ _ _ hfit, ok_bind, ← append_assoc pre, hoff,
      flatMap_cons, append_assoc]

theorem openSegments_sealedFile :
    h.openSegments gcm key ⟨(List.range h.segCount).flatMap (sealedSeg gcm key h p), false⟩ = .ok (p, p.length) := by
  have hcap : h.segBytes + tagLen ≤ u64Max := (Nat.add_le_add_right ok.segBytes_le _).trans (by decide)
  have hle := h.plaintextLen_le
  have hall : (List.range' 0 h.segCount).flatMap (chunk h.segBytes p) = p := by
    rw [flatMap_chunk, zero_mul, drop_zero, take_of_length_le (by omega)]
  have hfold := foldlM_streamNext key lawful ok hp (zero_add _).le [] [] false
  rw [append_nil, hall, nil_append] at hfold
  rw [PackHeader.openSegments, ok.segSize_eq, ok_bind, addU64_eq_ok hcap, ok_bind, ok.segments_eq, ok_bind,
    range_eq_range', hfold, hp]
  rfl

theorem slice_sealedFile (hraw : h.raw.length = headerLen) (hab : a < b) (hb : b ≤ h.plaintextLen) :
    slice (sealedFile gcm key h p) (h.rangeOf a b).start (h.rangeOf a b).stop =
      some ((List.range' (a / h.segBytes) ((b - 1) / h.segBytes + 1 - a / h.segBytes)).flatMap
        (sealedSeg gcm key h p)) := by
  have hle := PackHeader.firstSegment_le (h := h) hab
  have hlt := PackHeader.lastSegment_lt (h := h) (by omega) hb
  have hmul := PackHeader.mul_segBytes_le (lt_of_le_of_lt hle hlt)
  have hbody : (List.range ((b - 1) / h.segBytes + 1)).flatMap (sealedSeg gcm key h p) =
      (List.range (a / h.segBytes)).flatMap (sealedSeg gcm key h p) ++
        (List.range' (a / h.segBytes) ((b - 1) / h.segBytes + 1 - a / h.segBytes)).flatMap
          (sealedSeg gcm key h p) := by
    rw [← flatMap_range_add, Nat.add_sub_cancel' (hle.trans (Nat.le_succ _))]
  have hfile := flatMap_range_add (sealedSeg gcm key h p) ((b - 1) / h.segBytes + 1)
    (h.segCount - ((b - 1) / h.segBytes + 1))
  rw [Nat.add_sub_cancel' hlt, hbody, append_assoc] at hfile
  have hstart : (h.rangeOf a b).start =
      (h.raw ++ (List.range (a / h.segBytes)).flatMap (sealedSeg gcm key h p)).length := by
    rw [length_append, hraw, length_flatMap_sealedSeg key lawful ok, ← hp, min_eq_left hmul,
      PackHeader.rangeOf, mul_add, mul_comm _ tagLen, add_comm]
  have hstop := PackHeader.stop_eq a (show 0 < b by omega) hb
  rw [hp, ← length_flatMap_sealedSeg key lawful ok, ← hraw, ← length_append, hbody, ← append_assoc] at hstop
  rw [hstart, hstop, sealedFile, hfile, ← append_assoc h.raw, slice_append]

theorem openRange_sealedFile (hkey : h.fileKey keys = .ok key)
    (hraw : h.raw.length = headerLen) (hab : a < b) (hb : b ≤ h.plaintextLen)
    (hfit : ((b - 1) / h.segBytes + 1) * (h.segBytes + tagLen) + headerLen ≤ u64Max) :
    ∃ sealed, slice (sealedFile gcm key h p) (h.rangeOf a b).start (h.rangeOf a b).stop = some sealed ∧
      h.openRange gcm keys sealed a b = .ok ((p.take b).drop a) := by
  have hslice := slice_sealedFile key lawful ok hp hraw hab hb
  refine ⟨_, hslice, ?_⟩
  have hle := PackHeader.firstSegment_le (h := h) hab
  have hlt := PackHeader.lastSegment_lt (h := h) (by omega) hb
  have hlen := length_of_slice hslice
  have hstop : (h.rangeOf a b).stop ≤ h.fileLen := min_le_right _ _
  have hu := ok.fileLen_le
  obtain ⟨off, hfold⟩ := foldlM_openNext key lawful ok hp
    (i := a / h.segBytes) (m := (b - 1) / h.segBytes + 1 - a / h.segBytes) (by omega) [] []
    (by rw [nil_append]; omega)
  rw [nil_append, nil_append, length_nil] at hfold
  rw [PackHeader.openRange, ok.sealedRange_eq hab hb, if_pos hfit, ok_bind,
    subU64_eq_ok (PackHeader.start_le_stop hab hb), ok_bind, if_neg (by rw [hlen]; simp), hkey, ok_bind]
  simp only [PackHeader.rangeOf]
  rw [hfold, ok_bind, ok.cutRange_eq hab hb, flatMap_chunk,
    slice_window (Nat.div_mul_le_self _ _) hab.le ?_ (hp ▸ hb), orErr_some]
  have hlast := Nat.lt_mul_div_succ (b - 1) h.segBytes_pos
  rw [mul_comm] at hlast
  rw [← add_mul, Nat.add_sub_cancel' (hle.trans (Nat.le_add_right _ 1))]
  omega

variable (hkey : h.fileKey keys = .ok key) (hraw : h.raw.length = headerLen)
  (hparse : ∀ bytes, PackHeader.parse (h.raw ++ bytes) h.fileLen = .ok h) (hkeys : keysFor h.epoch = some keys)

include hkey hraw hparse hkeys in
theorem openStreaming_sealedFile :
    openStreaming gcm keysFor ⟨sealedFile gcm key h p, false⟩ h.fileLen = .ok (p, p.length) := by
  have hhead := hparse []
  rw [append_nil] at hhead
  have hread : Reader.readExact ⟨sealedFile gcm key h p, false⟩ headerLen
      (if h.fileLen < headerLen then .sealedPackCorrupt else .sizeMismatch) =
        .ok (h.raw, ⟨(List.range h.segCount).flatMap (sealedSeg gcm key h p), false⟩) := by
    rw [Reader.readExact, sealedFile, ← hraw, if_pos (by simp), take_left, drop_left]
    rfl
  rw [openStreaming, hread, ok_bind]
  simp only [hhead, ok_bind, hkeys, orErr_some, hkey]
  exact openSegments_sealedFile key lawful ok hp

include hkey hraw hparse hkeys in
theorem openSealed_sealedFile :
    openSealed gcm keysFor (sealedFile gcm key h p) h.fileLen = .ok p := by
  have hlen := length_sealedFile key lawful ok hraw hp
  rw [openSealed, if_neg (by rw [hlen]; simp), openStreaming_sealedFile key lawful ok hp hkey hraw hparse hkeys]
  rfl

end Opened

/-! ### Headers that are built -/

section Built

variable (segLog2 epoch len : ℕ) (fileId : Bytes)

theorem accepted_build (hmin : minSegLog2 ≤ segLog2) (hmax : segLog2 ≤ maxSegLog2) (hlen : len < 2 ^ 63) :
    (PackHeader.build segLog2 epoch len fileId).Accepted := by
  refine ⟨hmin, hmax, ?_⟩
  have hcount := PackHeader.segCount_le_of_lt
    (h := PackHeader.build segLog2 epoch len fileId) hmin hlen
  have hfield : (PackHeader.build segLog2 epoch len fileId).plaintextLen = len := rfl
  simp only [PackHeader.fileLen, headerLen, tagLen, u64Max]
  omega

theorem length_build_raw (hid : fileId.length = 16) :
    (PackHeader.build segLog2 epoch len fileId).raw.length = headerLen := by
  simp [PackHeader.build, magic, headerLen, hid]

theorem ofRaw_build (hmax : segLog2 ≤ maxSegLog2) (hepoch : epoch < 2 ^ 32) (hlen : len < 2 ^ 64) :
    PackHeader.ofRaw (PackHeader.build segLog2 epoch len fileId).raw = PackHeader.build segLog2 epoch len fileId := by
  have hL : segLog2 < 256 := lt_of_le_of_lt hmax (by decide)
  simp only [PackHeader.ofRaw, PackHeader.build, magic, PackHeader.mk.injEq, true_and]
  refine ⟨?_, ?_, ?_, ?_⟩
  · simp [Nat.mod_eq_of_lt hL]
  · simpa using hepoch
  · simpa [take_append] using hlen
  · simp [drop_append]

theorem parse_build (hmin : minSegLog2 ≤ segLog2) (hmax : segLog2 ≤ maxSegLog2) (hepoch : epoch < 2 ^ 32)
    (hlen : len < 2 ^ 63) (hid : fileId.length = 16) (bytes : Bytes) :
    PackHeader.parse ((PackHeader.build segLog2 epoch len fileId).raw ++ bytes)
        (PackHeader.build segLog2 epoch len fileId).fileLen = .ok (PackHeader.build segLog2 epoch len fileId) := by
  have hraw := length_build_raw segLog2 epoch len fileId hid
  rw [PackHeader.parse_eq_ok, ← hraw, take_left, ofRaw_build segLog2 epoch len fileId hmax hepoch (by omega)]
  refine ⟨by simp, rfl, rfl, rfl, rfl, accepted_build segLog2 epoch len fileId hmin hmax hlen, rfl⟩

end Built

/-! ### Nonces -/

theorem PackHeader.nonceAt_inj {j : ℕ} (hi : i < 2 ^ 64) (hj : j < 2 ^ 64)
    (hij : h.nonceAt i = h.nonceAt j) : i = j := by
  have hlen : (toBe 8 i).length = (toBe 8 j).length := by simp
  have hnum := congrArg beNat (append_inj_left hij hlen)
  rwa [beNat_toBe_of_lt hi, beNat_toBe_of_lt hj] at hnum

/-- The nonces of a file: all different, the last one flagged. -/
structure NoncesOk (h : PackHeader) (n : ℕ) : Prop where
  segments : h.segments = .ok n
  nonce : ∀ i < n, ∃ nonce, h.nonce i = .ok nonce ∧
    nonce.getLast? = some (if i + 1 = n then 1 else 0)
  distinct : ∀ i < n, ∀ j < n, h.nonce i = h.nonce j → i = j

theorem noncesOk_of_accepted (ok : h.Accepted) : NoncesOk h h.segCount where
  segments := ok.segments_eq
  nonce i hi := ⟨_, ok.nonce_eq hi, by simp [PackHeader.nonceAt]⟩
  distinct i hi j hj hij := by
    have hlt : h.segCount < 2 ^ 64 - 1 := ok.segCount_lt_u64Max
    rw [ok.nonce_eq hi, ok.nonce_eq hj] at hij
    exact PackHeader.nonceAt_inj (by omega) (by omega) (Except.ok.inj hij)

/-! ### No panic -/

theorem noPanic_readExact (r : Reader) (n : ℕ) (e : PrivateError) : NoPanic (r.readExact n e) :=
  noPanic_ite (fun _ => noPanic_ok _) fun _ => noPanic_err _

theorem noPanic_readExtra (r : Reader) : NoPanic r.readExtra :=
  noPanic_ite (fun _ => noPanic_ok _) fun _ => noPanic_ite (fun _ => noPanic_err _) fun _ => noPanic_ok _

theorem noPanic_parse (bytes : Bytes) (size : ℕ) : NoPanic (PackHeader.parse bytes size) := by
  refine (noPanic_orErr _ _).bind fun raw _ => noPanic_ite (fun _ => noPanic_err _) fun _ => ?_
  refine noPanic_ite (fun _ => noPanic_err _) fun hchecks => ?_
  rw [PackHeader.sealedLen_eq_of_le (not_not.mp hchecks).2.1.2, ok_bind]
  exact noPanic_ite (fun _ => noPanic_err _) fun _ => noPanic_ok _

theorem noPanic_streamNext (ok : h.Accepted) (gcm : Gcm) (key : Bytes) (st : Bytes × Reader) (hi : i < h.segCount) :
    NoPanic (h.streamNext gcm key (h.segBytes + tagLen) st i) := by
  have hcap : min (h.plaintextLen - i * h.segBytes) h.segBytes + tagLen ≤ h.segBytes + tagLen :=
    Nat.add_le_add_right (min_le_right _ _) _
  rw [PackHeader.streamNext, ← bind_assoc, ok.sealedSegLen_eq hi, ok_bind, sliceTo, if_pos hcap]
  refine (noPanic_readExact _ _ _).bind fun x _ => ?_
  exact (ok.noPanic_openSegment gcm key x.1 hi).bind fun pt _ => noPanic_ok _

theorem noPanic_openSegments (ok : h.Accepted) (gcm : Gcm) (key : Bytes)
    (sealed : Reader) : NoPanic (h.openSegments gcm key sealed) := by
  have hcap : h.segBytes + tagLen ≤ u64Max := (Nat.add_le_add_right ok.segBytes_le _).trans (by decide)
  rw [PackHeader.openSegments, ok.segSize_eq, ok_bind, addU64_eq_ok hcap, ok_bind, ok.segments_eq, ok_bind]
  refine NoPanic.bind ?_ fun x _ => (noPanic_readExtra x.2).bind fun extra _ => ?_
  · exact NoPanic.foldlM fun st i hi => noPanic_streamNext ok gcm key st (mem_range.mp hi)
  · exact noPanic_ite (fun _ => noPanic_err _) fun _ => noPanic_ok _

/-- No bytes make the streaming reader panic. -/
theorem noPanic_openStreaming (gcm : Gcm) (keysFor : ℕ → Option EpochKeys) (sealed : Reader)
    (sizeBytes : ℕ) : NoPanic (openStreaming gcm keysFor sealed sizeBytes) := by
  refine (noPanic_readExact _ _ _).bind fun x _ => (noPanic_parse x.1 sizeBytes).bind fun h hparse => ?_
  refine (noPanic_orErr _ _).bind fun keys _ => (PackHeader.noPanic_fileKey keys).bind fun key _ => ?_
  exact noPanic_openSegments (PackHeader.accepted_of_parse hparse) gcm key x.2

/-! ### Random access -/

/-- What a sealed file `c` of the plaintext `p` gives its readers. -/
structure RandomAccess (gcm : Gcm) (keys : EpochKeys) (h : PackHeader) (p c : Bytes) : Prop where
  length : c.length = 36 + p.length + 16 * max 1 (p.length ⌈/⌉ 2 ^ h.segLog2)
  parse : PackHeader.parse c c.length = .ok h
  openSealed : ∀ keysFor, keysFor keys.epoch = some keys →
    Sealed.openSealed gcm keysFor c c.length = .ok p
  openStreaming : ∀ keysFor, keysFor keys.epoch = some keys →
    Sealed.openStreaming gcm keysFor ⟨c, false⟩ c.length = .ok (p, p.length)
  openRange : ∀ a b, a < b → b ≤ p.length → ∃ range sealed, h.sealedRange a b = .ok range ∧
    slice c range.start range.stop = some sealed ∧
    h.openRange gcm keys sealed a b = .ok ((p.take b).drop a)
  nonces : ∃ n, NoncesOk h n

/-- No unchecked arithmetic on the header leaves the 64-bit numbers, and no bytes make a read
panic. -/
structure NoWrap (h : PackHeader) : Prop where
  segments : ∃ n, h.segments = .ok n ∧ ∀ i < n, NoPanic (h.nonce i) ∧ NoPanic (h.segPlainLen i)
  sealedRange : ∀ a b, NoPanic (h.sealedRange a b)
  openRange : ∀ gcm keys sealed a b, NoPanic (h.openRange gcm keys sealed a b)

theorem noWrap_of_accepted (ok : h.Accepted) : NoWrap h where
  segments := by
    refine ⟨_, ok.segments_eq, fun i hi => ⟨?_, ?_⟩⟩
    · rw [ok.nonce_eq hi]
      exact noPanic_ok _
    · rw [ok.segPlainLen_eq hi]
      exact noPanic_ok _
  sealedRange := ok.noPanic_sealedRange
  openRange := ok.noPanic_openRange

theorem stop_le_u64Max (ok : h.Accepted) (hlen : h.plaintextLen < 2 ^ 63) (hpos : 0 < b) (hb : b ≤ h.plaintextLen) :
    ((b - 1) / h.segBytes + 1) * (h.segBytes + tagLen) + headerLen ≤ u64Max := by
  have hcount := (PackHeader.lastSegment_lt hpos hb).trans_le
    (PackHeader.segCount_le_of_lt ok.minSegLog2_le hlen)
  have hstart : (b - 1) / h.segBytes * h.segBytes ≤ b - 1 := Nat.div_mul_le_self _ _
  have hS := ok.segBytes_le
  rw [mul_add, add_mul, one_mul]
  simp only [tagLen, headerLen, u64Max]
  omega

theorem randomAccess_sealedFile (lawful : gcm.Lawful) (hepoch : keys.epoch < 2 ^ 32) (hmin : minSegLog2 ≤ segLog2)
    (hmax : segLog2 ≤ maxSegLog2) (hid : fileId.length = 16) (hp : p.length < 2 ^ 63) :
    RandomAccess gcm keys (PackHeader.build segLog2 keys.epoch p.length fileId) p
      (sealedFile gcm (keys.packKey fileId) (PackHeader.build segLog2 keys.epoch p.length fileId) p) := by
  have ok := accepted_build segLog2 keys.epoch p.length fileId hmin hmax hp
  have hraw := length_build_raw segLog2 keys.epoch p.length fileId hid
  have hparse := parse_build segLog2 keys.epoch p.length fileId hmin hmax hepoch hp hid
  have hfields : (PackHeader.build segLog2 keys.epoch p.length fileId).plaintextLen = p.length ∧
    (PackHeader.build segLog2 keys.epoch p.length fileId).epoch = keys.epoch ∧
    (PackHeader.build segLog2 keys.epoch p.length fileId).fileId = fileId := ⟨rfl, rfl, rfl⟩
  generalize PackHeader.build segLog2 keys.epoch p.length fileId = h at *
  obtain ⟨hlen, hep, hfile⟩ := hfields
  have hkey : h.fileKey keys = .ok (keys.packKey fileId) := by
    rw [PackHeader.fileKey, if_neg (by simp [hep]), hfile]
    rfl
  have hsize := length_sealedFile (keys.packKey fileId) lawful ok hraw hlen
  refine ⟨?_, ?_, fun keysFor hk => ?_, fun keysFor hk => ?_, fun a b hab hb => ?_, ⟨_, noncesOk_of_accepted ok⟩⟩
  · rw [hsize, PackHeader.fileLen, PackHeader.segCount, hlen, max_comm]
    rfl
  · rw [hsize]
    exact hparse _
  · rw [hsize]
    exact openSealed_sealedFile _ lawful ok hlen hkey hraw hparse (hep ▸ hk)
  · rw [hsize]
    exact openStreaming_sealedFile _ lawful ok hlen hkey hraw hparse (hep ▸ hk)
  · have hfit := stop_le_u64Max ok (hlen ▸ hp) (show 0 < b by omega) (hlen ▸ hb)
    obtain ⟨sealed, hslice, hopen⟩ :=
      openRange_sealedFile _ lawful ok hlen hkey hraw hab (hlen ▸ hb) hfit
    refine ⟨h.rangeOf a b, sealed, ?_, hslice, hopen⟩
    rw [ok.sealedRange_eq hab (hlen ▸ hb), if_pos hfit]

/-- A sealed file is the same for every way its plaintext is written, and gives exact random access to
it; a header that is accepted never makes a read wrap or panic. -/
theorem sealPieces_randomAccess {gcm : Gcm} (lawful : gcm.Lawful) (keys : EpochKeys)
    (hepoch : keys.epoch < 2 ^ 32) {segLog2 : ℕ} (hmin : 10 ≤ segLog2) (hmax : segLog2 ≤ 20)
    {fileId : Bytes} (hid : fileId.length = 16) {p : Bytes} (hp : p.length < 2 ^ 63) :
    (∃ c, (∀ pieces : List Bytes, pieces.flatten = p →
        sealPieces gcm keys segLog2 p.length fileId pieces = .ok c) ∧
      RandomAccess gcm keys (PackHeader.build segLog2 keys.epoch p.length fileId) p c) ∧
    (∀ bytes size h, PackHeader.parse bytes size = .ok h → NoWrap h) ∧
    ∀ gcm keysFor sealed sizeBytes, NoPanic (openStreaming gcm keysFor sealed sizeBytes) := by
  refine ⟨⟨_, fun pieces hpieces => ?_, randomAccess_sealedFile lawful hepoch hmin hmax hid hp⟩,
    fun bytes size h hparse => noWrap_of_accepted (PackHeader.accepted_of_parse hparse),
    noPanic_openStreaming⟩
  exact sealPieces_eq lawful (accepted_build _ _ _ _ hmin hmax hp) hpieces

/-- A checksum of 16 bytes over all inputs, in place of the tag. -/
def checksum (key nonce ad msg : Bytes) : Bytes := toBe 16 (beNat (key ++ nonce ++ ad ++ msg))

/-- The message and its checksum, which decryption checks. -/
def checksumGcm : Gcm where
  encrypt key nonce ad msg := if msg.length ≤ gcmMax then some (msg ++ checksum key nonce ad msg) else none
  decrypt key nonce ad ct :=
    let msg := ct.take (ct.length - tagLen)
    if ct = msg ++ checksum key nonce ad msg then some msg else none

theorem checksumGcm_lawful : checksumGcm.Lawful := by
  intro key nonce ad msg hmsg
  have hlen : (msg ++ checksum key nonce ad msg).length = msg.length + tagLen := by
    simp [checksum, tagLen]
  refine ⟨_, if_pos hmsg, hlen, ?_⟩
  have htake : (msg ++ checksum key nonce ad msg).take
      ((msg ++ checksum key nonce ad msg).length - tagLen) = msg := by
    rw [hlen, Nat.add_sub_cancel, take_left]
  simp only [checksumGcm, htake, if_true]

/-- A text of three segments. -/
theorem sealPieces_randomAccess_segments :
    (∃ c, (∀ pieces : List Bytes, pieces.flatten = replicate 2500 1 →
        sealPieces checksumGcm ⟨7, reverse⟩ 10 2500 (replicate 16 9) pieces = .ok c) ∧
      RandomAccess checksumGcm ⟨7, reverse⟩ (PackHeader.build 10 7 2500 (replicate 16 9))
        (replicate 2500 1) c) ∧
    (∀ bytes size h, PackHeader.parse bytes size = .ok h → NoWrap h) ∧
    ∀ gcm keysFor sealed sizeBytes, NoPanic (openStreaming gcm keysFor sealed sizeBytes) := by
  have hlen : (replicate 2500 (1 : UInt8)).length = 2500 := length_replicate
  have hmin : 10 ≤ 10 ∧ 10 ≤ 20 := by decide
  have hid : (replicate 16 (9 : UInt8)).length = 16 := length_replicate
  have h := sealPieces_randomAccess checksumGcm_lawful ⟨7, reverse⟩ (by decide) hmin.1 hmin.2 hid
    (p := replicate 2500 1) (by rw [hlen]; decide)
  rwa [hlen] at h

end DashForge.Sealed
