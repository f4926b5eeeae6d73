import DashForge.Data.Base32
import DashForge.Data.JsonWrite
import DashForge.Private.DocFormat
import DashForge.Private.Letters
import Mathlib

/-!
# Check logs of members-only branches

The log of a check run on a members-only branch is sealed under a key of the commit's blind, framed with a header that
names the check and the commit, and padded to whole blocks (`private/members_check.rs`). The cryptography and the JSON
parser are parameters.

`splitPlaintext_eq_some_iff` says that a plaintext is read as a header and a log only if it is their frame;
`sealedLog_spec` is the round trip.
-/

namespace DashForge.MembersCheck

open Doc (Bytes32 Crypto)
open KeyLetter (guard_eq_some_iff)
open List Sealed

def magic : Bytes := [0x44, 0x46, 0x43, 0x4c]
def version : UInt8 := 0x01
/-- The sealed plaintext is padded to a multiple of this. -/
def pad : ℕ := 4096

def nameDomain : UInt8 := 0x01
def logDomain : UInt8 := 0x02

/-- Magic, version, nonce and tag. -/
def overhead : ℕ := 4 + 1 + 12 + 16

abbrev Nonce : Type := { b : Bytes // b.length = 12 }

inductive PrivateError where
  | malformed
  | unknownVersion (v : UInt8)
deriving DecidableEq, Repr

/-! ### The header -/

/-- The header a sealed log opens to. -/
structure Header where
  head : String
  name : String
  v : UInt8
deriving DecidableEq, Repr

/-- The one JSON text of a header (`serde_json::to_vec`). -/
def Header.toVec (h : Header) : Bytes :=
  utf8 (String.ofList (Json.Printed.struct (d := 126) [("head", some (.string h.head)), ("name", some (.string h.name)),
    ("v", some (.number (UInt64.ofNat h.v.toNat)))]).text)

/-- A header's fields from a JSON value, with no others beside them. -/
def Header.ofValue (v : JsonValue) : Option Header := do
  let m ← v.asObject
  guard (∀ key ∈ m.keys, key ∈ ["head", "name", "v"])
  let head ← (← m.lookup "head").asStr
  let name ← (← m.lookup "name").asStr
  let v ← (← m.lookup "v").asU64
  guard (v.toNat < 256)
  return ⟨head, name, UInt8.ofNat v.toNat⟩

/-- The header a text denotes (`serde_json::from_slice`). A header that is written as an array is no canonical form. -/
def Header.fromSlice (parse : Bytes → Option JsonValue) (raw : Bytes) : Option Header := (parse raw).bind Header.ofValue

/-! ### The frame -/

/-- The length padded to whole blocks. -/
def paddedLen (n : ℕ) : ℕ := n ⌈/⌉ pad * pad

/-- The lengths, the header and the log, padded with zeros. -/
def frame (header log : Bytes) : Bytes :=
  let p := toBe 4 header.length ++ header ++ toBe 8 log.length ++ log
  p ++ replicate (paddedLen p.length - p.length) 0

/-- A plaintext's header and log, when its lengths fit, it is a whole number of blocks and the rest is zeros. -/
def splitPlaintext (p : Bytes) : Option (Bytes × Bytes) := do
  guard (p ≠ [] ∧ p.length % pad = 0)
  let hlen := beNat (← slice p 0 4)
  let start ← checkedAdd hlen 4
  let header ← slice p 4 start
  let start' ← checkedAdd start 8
  let llen := beNat (← slice p start start')
  let stop ← checkedAdd start' llen
  let log ← slice p start' stop
  let rest ← slice p stop p.length
  guard (rest.length < pad ∧ ∀ b ∈ rest, b = 0)
  return (header, log)

/-! ### Sealing and opening -/

/-- A check run's log, opened. -/
structure CheckLog where
  name : String
  head : String
  log : Bytes
deriving DecidableEq, Repr

section Keys

variable (c : Crypto) (salt : Bytes32)

/-- The opaque name of a check on a commit whose blind uses the salt. -/
def opaqueName (name : String) : String :=
  Base32.base32 ((c.hmac (KeyLetter.checkNameKey c salt) (nameDomain :: utf8 name)).val.take 10)

def logKey (nonce : Bytes) : Bytes32 := c.hmac (KeyLetter.checkNameKey c salt) (logDomain :: nonce)

end Keys

/-- The associated data of a log. -/
def ad (blind : Bytes) (opaqueName : String) : Bytes :=
  magic ++ [version, if blind.length < 256 then UInt8.ofNat blind.length else 255] ++ blind ++ utf8 opaqueName

section Log

variable (c : Crypto) (parse : Bytes → Option JsonValue) (salt : Bytes32)

/-- Seal the log of a check under a given nonce. -/
def sealLogWithNonce (blind : Bytes) (name : String) (head log : Bytes) (nonce : Nonce) : Except PrivateError Bytes :=
  if ¬Tlv.isOidWidth blind.length ∨ blind.length ≠ head.length then .error .malformed
  else if Blind.blind c.sha256 salt.val head ≠ some blind then .error .malformed
  else
    let header := Header.toVec ⟨hexEncode head, name, 1⟩
    if u32Max < header.length then .error .malformed
    else
      let ad := ad blind (opaqueName c salt name)
      match c.gcm.encrypt (logKey c salt nonce.val).val nonce.val ad (frame header log) with
      | none => .error .malformed
      | some ct => .ok (magic ++ [version] ++ nonce.val ++ ct)

/-- Open the log of the run that is named `opaqueName` on `blind`. -/
def openLog (blind : Bytes) (named : String) (sealed : Bytes) : Except PrivateError CheckLog :=
  if sealed.length < overhead ∨ sealed.take 4 ≠ magic then .error .malformed
  else if sealed.getD 4 0 ≠ version then .error (.unknownVersion (sealed.getD 4 0))
  else
    let nonce := (sealed.take 17).drop 5
    let opened := do
      let p ← c.gcm.decrypt (logKey c salt nonce).val nonce (ad blind named) (sealed.drop 17)
      let (raw, log) ← splitPlaintext p
      let header ← Header.fromSlice parse raw
      let head ← hexDecode header.head
      -- the one canonical form, of this check and this commit
      guard (header.v = 1 ∧ header.toVec = raw ∧ header.head = hexEncode head ∧
        Blind.blind c.sha256 salt.val head = some blind ∧ opaqueName c salt header.name = named)
      return (⟨header.name, header.head, log⟩ : CheckLog)
    opened.elim (.error .malformed) .ok

end Log

/-! ### The frame is unique -/

section Frame

variable {p header log : Bytes}

theorem slice_eq_some_iff (known : Bytes) {rest x : Bytes} {s e : ℕ} (hs : known.length = s) :
    slice (known ++ rest) s e = some x ↔ ∃ rest', rest = x ++ rest' ∧ e = s + x.length := by
  subst hs
  rw [slice]
  constructor
  · intro h
    split_ifs at h with hle
    rw [length_append] at hle
    obtain rfl := Option.some.inj h
    have hx : ((known ++ rest).take e).drop known.length = rest.take (e - known.length) := by
      rw [take_append, take_of_length_le hle.1, drop_left' rfl]
    rw [hx]
    refine ⟨rest.drop (e - known.length), (take_append_drop _ _).symm, ?_⟩
    rw [length_take]
    omega
  · rintro ⟨rest', rfl, rfl⟩
    rw [if_pos ⟨Nat.le_add_right _ _, by simp⟩, ← append_assoc, take_left' (by simp), drop_left' rfl]

theorem le_paddedLen (n : ℕ) : n ≤ paddedLen n := by
  rw [paddedLen, Nat.ceilDiv_eq_add_pred_div, pad]
  omega

theorem paddedLen_le {n m : ℕ} (hle : n ≤ m) (hm : pad ∣ m) : paddedLen n ≤ m := by
  obtain ⟨k, rfl⟩ := hm
  rw [paddedLen, Nat.mul_comm pad]
  exact Nat.mul_le_mul_right _ ((ceilDiv_le_iff_le_mul (by decide)).mpr hle)

theorem paddedLen_eq {n r : ℕ} (hr : r < pad) (hmod : (n + r) % pad = 0) : paddedLen n = n + r := by
  rw [paddedLen, Nat.ceilDiv_eq_add_pred_div]
  simp only [pad] at *
  omega

theorem length_frame (header log : Bytes) :
    (frame header log).length = paddedLen (12 + header.length + log.length) := by
  have hle := le_paddedLen (12 + header.length + log.length)
  have hlen : (toBe 4 header.length ++ header ++ toBe 8 log.length ++ log).length =
      12 + header.length + log.length := by
    simp only [length_append, length_toBe]
    omega
  rw [frame, length_append, length_replicate, hlen]
  omega

/-- A plaintext is read as a header and a log if and only if it is their frame. -/
theorem splitPlaintext_eq_some_iff : splitPlaintext p = some (header, log) ↔
    p = frame header log ∧ header.length < 2 ^ 32 ∧ 12 + header.length + log.length ≤ u64Max := by
  simp only [splitPlaintext, checkedAdd, bind_eq_some, guard_eq_some_iff, exists_and_left,
    exists_const, Option.pure_def, Option.some.injEq, Prod.mk.injEq, Option.ite_none_right_eq_some]
  constructor
  · rintro ⟨⟨-, hmod⟩, w, hw, start, ⟨-, rfl⟩, h, hh, start', ⟨-, rfl⟩, w', hw', stop, ⟨hstop, rfl⟩, l, hl, rest, hrest,
      ⟨hpad, hzero⟩, rfl, rfl⟩
    -- each slice takes the next part off
    obtain ⟨q, rfl, hwlen⟩ := (slice_eq_some_iff [] (s := 0) rfl).mp hw
    obtain ⟨q, rfl, hhlen⟩ := (slice_eq_some_iff w (by omega)).mp hh
    rw [← append_assoc] at hw' hl hrest hmod ⊢
    obtain ⟨q, rfl, hwlen'⟩ := (slice_eq_some_iff (w ++ h) (by rw [length_append]; omega)).mp hw'
    rw [← append_assoc] at hl hrest hmod ⊢
    obtain ⟨q, rfl, hllen⟩ := (slice_eq_some_iff (w ++ h ++ w') (by simp only [length_append]; omega)).mp hl
    rw [← append_assoc] at hrest hmod ⊢
    obtain ⟨q', rfl, hrlen⟩ :=
      (slice_eq_some_iff (w ++ h ++ w' ++ l) (by simp only [length_append]; omega)).mp hrest
    have hq' : q' = [] := by
      simp only [length_append] at hrlen
      exact length_eq_zero_iff.mp (by omega)
    have hlt : beNat w < 2 ^ 32 := by
      have := beNat_lt w
      rwa [← show 4 = w.length by omega] at this
    have hw : w = toBe 4 h.length := by
      have := toBe_beNat w
      rwa [← show 4 = w.length by omega, show beNat w = h.length by omega, eq_comm] at this
    have hw' : w' = toBe 8 l.length := by
      have := toBe_beNat w'
      rwa [← show 8 = w'.length by omega, show beNat w' = l.length by omega, eq_comm] at this
    refine ⟨?_, by omega, by omega⟩
    have hlen : (w ++ h ++ w' ++ l).length = 12 + h.length + l.length := by
      simp only [length_append]
      omega
    have hpadded :=
      paddedLen_eq (n := (w ++ h ++ w' ++ l).length) hpad (by rwa [← length_append, ← append_nil rest, ← hq'])
    rw [frame, ← hw, ← hw', hpadded, Nat.add_sub_cancel_left, hq', append_nil, ← eq_replicate_of_mem hzero]
  · rintro ⟨rfl, hheader, hsize⟩
    have hlen := length_frame header log
    have hle := le_paddedLen (12 + header.length + log.length)
    have hlt : paddedLen (12 + header.length + log.length) < 12 + header.length + log.length + pad := by
      rw [paddedLen, Nat.ceilDiv_eq_add_pred_div, pad]
      omega
    have hw : beNat (toBe 4 header.length) = header.length := beNat_toBe_of_lt (by omega)
    have hw' : beNat (toBe 8 log.length) = log.length := beNat_toBe_of_lt (by simp only [u64Max] at hsize; omega)
    obtain ⟨zeros, hzeros, hframe⟩ : ∃ n, 12 + header.length + log.length + n = (frame header log).length ∧
        frame header log = toBe 4 header.length ++ header ++ toBe 8 log.length ++ log ++ replicate n 0 := by
      refine ⟨_, ?_, rfl⟩
      simp only [frame, length_append, length_toBe, length_replicate]
      omega
    rw [hlen] at hzeros
    rw [hframe] at hlen ⊢
    refine ⟨⟨fun hnil => ?_, ?_⟩, toBe 4 header.length, ?_, header.length + 4, ⟨by omega, by rw [hw]⟩, header, ?_,
      header.length + 4 + 8, ⟨by omega, rfl⟩, toBe 8 log.length, ?_, header.length + 4 + 8 + log.length,
      ⟨by omega, by rw [hw']⟩, log, ?_, replicate zeros 0, ?_, ⟨?_, fun b hb => eq_of_mem_replicate hb⟩, rfl, rfl⟩
    · rw [hnil, length_nil] at hlen
      omega
    · rw [hlen, paddedLen, Nat.mul_mod_left]
    · simp only [append_assoc]
      exact (slice_eq_some_iff [] (s := 0) rfl).mpr ⟨_, rfl, by rw [length_toBe]⟩
    · simp only [append_assoc]
      exact (slice_eq_some_iff _ (length_toBe 4 _)).mpr ⟨_, rfl, by omega⟩
    · rw [append_assoc, append_assoc]
      refine (slice_eq_some_iff _ ?_).mpr ⟨_, rfl, by rw [length_toBe]⟩
      rw [length_append, length_toBe, Nat.add_comm]
    · rw [append_assoc]
      refine (slice_eq_some_iff _ ?_).mpr ⟨_, rfl, rfl⟩
      simp only [length_append, length_toBe]
      omega
    · refine (slice_eq_some_iff _ ?_).mpr ⟨[], (append_nil _).symm, ?_⟩
      · simp only [length_append, length_toBe]
        omega
      · rw [hlen, length_replicate]
        omega
    · rw [length_replicate]
      omega

end Frame

/-! ### The round trip -/

section RoundTrip

variable {c : Crypto} {parse : Bytes → Option JsonValue} {salt : Bytes32} {blind head log out : Bytes} {name : String}
  {nonce : Nonce}

theorem fromSlice_toVec (hparse : Json.Lawful parse) (h : Header) : Header.fromSlice parse h.toVec = some h := by
  have hnames : (([("head", some (.string h.head)), ("name", some (.string h.name)),
      ("v", some (.number (UInt64.ofNat h.v.toNat)))] : List (String × Option (Json.Printed 126))).map
          Prod.fst).Nodup := by
    simp
  obtain ⟨m, hvalue, hlookup, hkeys⟩ := Json.Printed.exists_object_struct (d := 126) hnames
  have hread : parse h.toVec = some (.object m) := hvalue ▸ hparse _ _ (Json.Printed.prints _).denotes
  simp only [forall_mem_cons, Option.map_some] at hlookup
  obtain ⟨hhead, hname, hv, -⟩ := hlookup
  have hv' : (UInt64.ofNat h.v.toNat).toNat = h.v.toNat :=
    UInt64.toNat_ofNat_of_lt' (h.v.toNat_lt.trans (by decide))
  have hall : ∀ key ∈ m.keys, key ∈ ["head", "name", "v"] := by
    intro key hkey
    obtain ⟨p, hp⟩ := hkeys key hkey
    exact mem_map_of_mem (f := Prod.fst) hp
  have hstr : ∀ s, (Json.Printed.string (d := 126) s).value.asStr = some s := fun s => JsonValue.asStr_eq_some.mpr rfl
  have hu64 : ∀ n, (Json.Printed.number (d := 126) n).value.asU64 = some n := fun n => JsonValue.asU64_eq_some.mpr rfl
  have hbyte : h.v.toNat < 256 := h.v.toNat_lt
  rw [Header.fromSlice, hread, Option.bind_some, Header.ofValue, JsonValue.asObject_object]
  simp only [some_bind, guard_eq_some_iff (u := ()).mpr hall, hhead, hname, hv, hstr, hu64,
    hv', guard_eq_some_iff (u := ()).mpr hbyte, UInt8.ofNat_toNat]
  rfl

theorem length_blind (h : Blind.blind c.sha256 salt.val head = some blind) :
    blind.length = head.length ∧ Tlv.isOidWidth head.length := by
  rw [Blind.blind] at h
  split_ifs at h with hwidth
  have hlen := (c.sha256 (Blind.domain ++ salt.val ++ head)).2
  refine ⟨?_, hwidth⟩
  simp only [Tlv.isOidWidth, decide_eq_true_eq] at hwidth
  rw [← Option.some.inj h, length_take, hlen]
  omega

theorem sealLogWithNonce_eq_ok (h : sealLogWithNonce c salt blind name head log nonce = .ok out) :
    Blind.blind c.sha256 salt.val head = some blind ∧ (Header.toVec ⟨hexEncode head, name, 1⟩).length < 2 ^ 32 ∧
      ∃ ct, c.gcm.encrypt (logKey c salt nonce.val).val nonce.val (ad blind (opaqueName c salt name))
        (frame (Header.toVec ⟨hexEncode head, name, 1⟩) log) = some ct ∧ out = magic ++ [version] ++
            nonce.val ++ ct := by
  simp only [sealLogWithNonce] at h
  split_ifs at h with hwidth hblind hlen
  split at h
  · cases h
  · next ct hct =>
    refine ⟨not_not.mp hblind, ?_, ct, hct, (Except.ok.inj h).symm⟩
    simp only [u32Max] at hlen
    omega

/-- A log that is not too long is sealed. -/
theorem exists_sealLogWithNonce (lawful : c.gcm.Lawful) (hblind : Blind.blind c.sha256 salt.val head = some blind)
    (hheader : (Header.toVec ⟨hexEncode head, name, 1⟩).length < 2 ^ 32)
    (hframe : (frame (Header.toVec ⟨hexEncode head, name, 1⟩) log).length ≤ gcmMax) :
    ∃ out, sealLogWithNonce c salt blind name head log nonce = .ok out := by
  obtain ⟨hlen, hwidth⟩ := length_blind hblind
  obtain ⟨ct, hct, -⟩ := lawful (logKey c salt nonce.val).val nonce.val (ad blind (opaqueName c salt name)) _ hframe
  refine ⟨magic ++ [version] ++ nonce.val ++ ct, ?_⟩
  simp only [sealLogWithNonce]
  rw [if_neg (by simp [hlen, hwidth]), if_neg (not_not.mpr hblind), if_neg (by simp only [u32Max]; omega), hct]

/-- A sealed log opens to what was sealed. -/
theorem openLog_of_sealLogWithNonce (lawful : c.gcm.Lawful)
    (hrefuses : ∀ key nonce ad msg, gcmMax < msg.length → c.gcm.encrypt key nonce ad msg = none)
    (hparse : Json.Lawful parse) (h : sealLogWithNonce c salt blind name head log nonce = .ok out) :
    openLog c parse salt blind (opaqueName c salt name) out = .ok ⟨name, hexEncode head, log⟩ ∧
      out.length = overhead + (frame (Header.toVec ⟨hexEncode head, name, 1⟩) log).length := by
  obtain ⟨hblind, hheader, ct, hct, rfl⟩ := sealLogWithNonce_eq_ok h
  have hnonce : nonce.val.length = 12 := nonce.2
  have hmsg : (frame (Header.toVec ⟨hexEncode head, name, 1⟩) log).length ≤ gcmMax := by
    by_contra hlong
    rw [hrefuses _ _ _ _ (not_le.mp hlong)] at hct
    cases hct
  obtain ⟨ct', hct', hctlen, hopen⟩ := lawful _ _ _ _ hmsg
  obtain rfl := Option.some.inj (hct'.symm.trans hct)
  have hsplit : splitPlaintext (frame (Header.toVec ⟨hexEncode head, name, 1⟩) log) =
      some (Header.toVec ⟨hexEncode head, name, 1⟩, log) := by
    refine splitPlaintext_eq_some_iff.mpr ⟨rfl, hheader, ?_⟩
    have hle := le_paddedLen (12 + (Header.toVec ⟨hexEncode head, name, 1⟩).length + log.length)
    rw [length_frame] at hmsg
    simp only [gcmMax, u64Max] at hmsg ⊢
    omega
  have hlen : (magic ++ [version] ++ nonce.val ++ ct').length = overhead +
      (frame (Header.toVec ⟨hexEncode head, name, 1⟩) log).length := by
    simp only [length_append, hnonce, hctlen, magic, length_cons, length_nil, overhead, tagLen]
    omega
  refine ⟨?_, hlen⟩
  have hmagic : (magic ++ [version] ++ nonce.val ++ ct').take 4 = magic := by
    simp only [append_assoc]
    exact take_left' rfl
  have htake : ((magic ++ [version] ++ nonce.val ++ ct').take 17).drop 5 = nonce.val := by
    rw [take_left' (by simp [magic, hnonce]), drop_left' (by simp [magic])]
  have hdrop : (magic ++ [version] ++ nonce.val ++ ct').drop 17 = ct' := drop_left' (by simp [magic, hnonce])
  have hversion : (magic ++ [version] ++ nonce.val ++ ct').getD 4 0 = version := rfl
  have hhex : hexDecode (hexEncode head) = some head := (hexDecode_eq_some_iff.mpr rfl).1
  rw [openLog, if_neg (by rw [hlen, hmagic]; simp), if_neg (by rw [hversion]; exact not_not.mpr rfl)]
  simp only [htake, hdrop, hopen, hsplit, fromSlice_toVec hparse, some_bind, hhex, hblind,
    and_self, guard_true]
  rfl

theorem isLeast_length_frame (raw log : Bytes) :
    IsLeast {m | pad ∣ m ∧ 12 + raw.length + log.length ≤ m} (frame raw log).length := by
  rw [length_frame]
  exact ⟨⟨Dvd.intro_left _ rfl, le_paddedLen _⟩, fun m hm => paddedLen_le hm.2 hm.1⟩

/-- A sealed log reads back as what was sealed and is as long as its blocks; a plaintext is read only as the frame of
its header and log; and as many bytes have different base32 texts. -/
theorem sealedLog_spec (lawful : c.gcm.Lawful)
    (hrefuses : ∀ key nonce ad msg, gcmMax < msg.length → c.gcm.encrypt key nonce ad msg = none)
    (hparse : Json.Lawful parse) :
    (∀ (salt : Bytes32) (head blind log out : Bytes) (name : String) (nonce : Nonce),
      Blind.blind c.sha256 salt.val head = some blind →
      sealLogWithNonce c salt blind name head log nonce = .ok out →
        openLog c parse salt blind (opaqueName c salt name) out = .ok ⟨name, hexEncode head, log⟩ ∧
          ∃ blocks, out.length = overhead + blocks ∧
            IsLeast {m | pad ∣ m ∧ 12 + (Header.toVec ⟨hexEncode head, name, 1⟩).length + log.length ≤ m} blocks) ∧
    (∀ p header log, splitPlaintext p = some (header, log) ↔
      p = frame header log ∧ header.length < 2 ^ 32 ∧ 12 + header.length + log.length ≤ u64Max) ∧
    (∀ bs bs' : List UInt8, bs.length = bs'.length → Base32.base32 bs = Base32.base32 bs' → bs = bs') ∧
    ∀ bs : List UInt8, (Base32.base32Digits bs).length = (8 * bs.length) ⌈/⌉ 5 := by
  refine ⟨fun salt head blind log out name nonce _ hseal => ?_, fun p header log => splitPlaintext_eq_some_iff,
    fun bs bs' => Base32.base32_injective, Base32.length_base32Digits⟩
  obtain ⟨hopen, hlen⟩ := openLog_of_sealLogWithNonce lawful hrefuses hparse hseal
  exact ⟨hopen, _, hlen, isLeast_length_frame _ _⟩

end RoundTrip

def cryptoSample : Crypto := Doc.cryptoSample checksumGcm

def headSample : Bytes := replicate 20 7

def saltSample : Bytes32 := Doc.digest [1]

theorem sealedLog_spec_build :
    ∃ blind out, Blind.blind cryptoSample.sha256 saltSample.val headSample = some blind ∧
      sealLogWithNonce cryptoSample saltSample blind "ci / build" headSample [1, 2, 3] ⟨replicate 12 9, rfl⟩ = .ok out ∧
      openLog cryptoSample Json.parse saltSample blind (opaqueName cryptoSample saltSample "ci / build") out =
        .ok ⟨"ci / build", hexEncode headSample, [1, 2, 3]⟩ := by
  have hrefuses : ∀ key nonce ad msg, gcmMax < msg.length → cryptoSample.gcm.encrypt key nonce ad msg = none :=
    fun key nonce ad msg hlong => if_neg (not_le.mpr hlong)
  have hblind : Blind.blind cryptoSample.sha256 saltSample.val headSample = some _ := if_pos rfl
  have hheader : (Header.toVec ⟨hexEncode headSample, "ci / build", 1⟩).length = 77 := by decide +kernel
  have hframe : (frame (Header.toVec ⟨hexEncode headSample, "ci / build", 1⟩) [1, 2, 3]).length = 4096 := by
    rw [length_frame, hheader]
    rfl
  obtain ⟨out, hout⟩ : ∃ out, sealLogWithNonce cryptoSample saltSample _ _ headSample [1, 2, 3]
      ⟨replicate 12 9, rfl⟩ = .ok out :=
    exists_sealLogWithNonce checksumGcm_lawful hblind (hheader.trans_lt (by decide)) (hframe.trans_le (by decide))
  have hspec := sealedLog_spec (c := cryptoSample) checksumGcm_lawful hrefuses Json.lawful_parse
  exact ⟨_, out, hblind, hout, (hspec.1 _ _ _ _ _ _ _ hblind hout).1⟩

end DashForge.MembersCheck
