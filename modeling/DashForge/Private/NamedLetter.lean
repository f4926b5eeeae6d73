import DashForge.Private.Named
import DashForge.Private.TlvLetter

/-!
# Letters to specific people

`sealInner` and `openLetter` are the writer and the reader of a letter. `SealedLetter` says what the writer leaves;
what a reader sees of it depends on the slot alone that its keys open first (`SealedLetter.openLetter_eq`). The list
inside the letter names one identity for each slot, so a recipient reads the letter if and only if the first slot
its key opens is its own (`openLetter_recipient_iff`).
-/

namespace DashForge.Named

open List Option Doc Tlv

/-! ### The writer -/

abbrev Nonce : Type := { b : Bytes // b.length = nonceLen }

def framing (n : ℕ) : ℕ := headLen + slotLen * n + nonceLen + Sealed.tagLen

/-- The largest plaintext of a letter to `n` recipients. -/
def maxTlv (kind : DocKind) (n : ℕ) : ℕ := maxEnc kind - framing n

/-- The associated data of a document at the epoch 0. -/
def adWithoutKeys (header : DocHeader) (repoId : Bytes32) (version : UInt8) : Option Bytes :=
  (header.bind none).map (buildAd repoId header.ownerId 0 version (typeName header.kind))

section Letter

variable {K : Type} (env : Envelope K) (c : Crypto) (repoId : Bytes32)

/-- `AD' = AD ‖ SHA-256(H)`. -/
def letterAd (header : DocHeader) (h : Bytes) : Option Bytes :=
  (adWithoutKeys header repoId v4).map fun ad => ad ++ (c.sha256 h).val

/-- Every hash of a ref name on the document is the public hash of the name inside. -/
def publicRefNamesMatch (header : DocHeader) (fields : Fields) : Bool :=
  let check (hash : Option Bytes32) (name : Option String) : Bool :=
    match hash, name with
    | some h, some n => h = c.sha256 (utf8 n)
    | some _, none => false
    | none, _ => true
  check header.baseRefNameHash fields.baseRefName && check header.sourceRefNameHash fields.sourceRefName

/-- Seal a letter with a given key, nonce and IVs. -/
def sealInner (sender : K) (senderKeyId : UInt32) (header : DocHeader) (fields : Fields)
    (recipients : List Recipient) (group : Option LetterGroup) (kObj : Bytes32) (nonce : Nonce) (ivs : ℕ → Iv) :
    Io Bytes :=
  let n := recipients.length
  if header.epoch ≠ 0 ∨ !letterKind header.kind ∨ n = 0 then fail .malformed
  else do
    -- the content, checked as a reader parses it
    let records := encode fields
    let parsed ← orErr (parse records header.kind false) .malformed
    if !publicRefNamesMatch c header parsed then fail .malformed
    else
      let body := pushRecipients records (recipients.map fun r => r.identityId.val) group
      let max := maxTlv header.kind n
      if max < body.length then fail (.tooLarge (typeName header.kind) max)
      else do
        let pt ← padded header.kind body max
        let block ← slotBlock env c repoId maxRecipients sender senderKeyId header.ownerId recipients kObj ivs
          .malformed
        let ad ← orErr (letterAd c repoId header block) .malformed
        let ct ← orErr (c.gcm.encrypt (ObjKeys.derive c repoId kObj).doc.val nonce.val ad pt) .malformed
        return v4 :: (block ++ nonce.val ++ ct)

end Letter

/-! ### The reader -/

/-- Why a letter that is well framed is not shown. -/
inductive LetterUnreadable where
  | notARecipient
  | badTag
deriving DecidableEq, Repr

structure Letter where
  fields : Fields
  recipients : List Bytes
  /-- The slot the reader opened. -/
  slot : ℕ
  group : Option LetterGroup
deriving DecidableEq

inductive LetterOpened where
  | readable (letter : Letter)
  | unreadable (why : LetterUnreadable)
  | malformed
deriving DecidableEq

section Open

variable {K : Type} (env : Envelope K) (c : Crypto) (repoId : Bytes32)

/-- Check the list of a letter: `n` recipients, the owner first, no one twice, and the reader at the slot. -/
def checkLetter (header : DocHeader) (n slot : ℕ) (readerId : Bytes32) (tlv : LetterTlv) :
    Except (Fault Empty) LetterOpened :=
  if tlv.recipients.length ≠ n then return .malformed
  else do
    let first ← orPanic tlv.recipients.head?
    let own ← orPanic tlv.recipients[slot]?
    if first ≠ header.ownerId.val ∨ ¬tlv.recipients.Nodup ∨ own ≠ readerId.val ∨
        !publicRefNamesMatch c header tlv.fields then return .malformed
    else return .readable ⟨tlv.fields, tlv.recipients, slot, tlv.group⟩

/-- Open what follows the slots, with the key from the slot `slot`. -/
def openBody (header : DocHeader) (n slot : ℕ) (readerId kObj : Bytes32) (block rest : Bytes) :
    Except (Fault Empty) LetterOpened :=
  match letterAd c repoId header block with
  | none => return .malformed
  | some ad => do
    let nonce ← orPanic (slice rest 0 nonceLen)
    match c.gcm.decrypt (ObjKeys.derive c repoId kObj).doc.val nonce ad (rest.drop nonceLen) with
    | none => return .unreadable .badTag
    | some pt =>
      match Tlv.parseLetter pt header.kind with
      | none => return .malformed
      | some tlv => checkLetter c header n slot readerId tlv

/-- Open a letter (`open` of the source). -/
def openLetter (header : DocHeader) (enc : Bytes) (ownerKeys : List OwnerKey) (reader : Reader K) :
    Except (Fault Empty) LetterOpened :=
  if !letterWellFramed header enc then return .malformed
  else do
    let n ← orPanic enc[1]?
    let n := n.toNat
    let keyId ← orPanic (slice enc 2 6)
    match senderKey ownerKeys (UInt32.ofNat (beNat keyId)) with
    | none => return .malformed
    | some senderPublic => do
      let head := headLen + slotLen * n
      let block ← orPanic (slice enc 1 head)
      match findSlotKey env c repoId block n senderPublic reader with
      | .error .panic => .error .panic
      | .error (.err ()) => return .malformed
      | .ok none => return .unreadable .notARecipient
      | .ok (some (slot, kObj)) =>
        let rest ← orPanic (slice enc head enc.length)
        openBody c repoId header n slot reader.identityId kObj block rest

end Open

/-! ### What a writer leaves -/

section Sealed

variable {K : Type} {env : Envelope K} {c : Crypto} {repoId : Bytes32} {sender : K} {senderKeyId : UInt32}
  {header : DocHeader} {fields parsed : Fields} {recipients : List Recipient} {group : Option LetterGroup}
  {kObj : Bytes32} {nonce : Nonce} {ivs : ℕ → Iv} {enc block pt ad ct : Bytes}

/-- The identities of a list of recipients. -/
def idsOf (recipients : List Recipient) : List Bytes := recipients.map fun r => r.identityId.val

theorem length_of_mem_idsOf : ∀ r ∈ idsOf recipients, r.length = 32 := by
  intro r hr
  obtain ⟨x, -, rfl⟩ := List.mem_map.mp hr
  exact x.identityId.2

/-- The records of a letter, before the padding. -/
def bodyRecords (fields : Fields) (recipients : List Recipient) (group : Option LetterGroup) : List (UInt8 × Bytes) :=
  records fields ++ letterRecords (idsOf recipients) group

/-- A letter as it was sealed. -/
structure SealedLetter (env : Envelope K) (c : Crypto) (repoId : Bytes32) (sender : K) (senderKeyId : UInt32)
    (header : DocHeader) (fields parsed : Fields) (recipients : List Recipient) (group : Option LetterGroup)
    (kObj : Bytes32) (nonce : Nonce) (ivs : ℕ → Iv) (enc block pt ad ct : Bytes) : Prop where
  epoch : header.epoch = 0
  kind : letterKind header.kind
  parse : parse (encode fields) header.kind false = some parsed
  names : publicRefNamesMatch c header parsed
  room : ((bodyRecords fields recipients group).flatMap Tlv.record).length ≤ maxTlv header.kind recipients.length
  pad : padded header.kind ((bodyRecords fields recipients group).flatMap Tlv.record)
    (maxTlv header.kind recipients.length) = .ok pt
  slots : Block env c repoId maxRecipients sender senderKeyId header.ownerId recipients kObj ivs block
  bound : letterAd c repoId header block = some ad
  encrypt : c.gcm.encrypt (ObjKeys.derive c repoId kObj).doc.val nonce.val ad pt = some ct
  bytes : enc = v4 :: (block ++ nonce.val ++ ct)

theorem exists_sealedLetter (h : sealInner env c repoId sender senderKeyId header fields recipients group kObj nonce
    ivs = .ok enc) : ∃ parsed block pt ad ct, SealedLetter env c repoId sender senderKeyId header fields parsed
      recipients group kObj nonce ivs enc block pt ad ct := by
  obtain ⟨hbad, h⟩ := ite_fail_eq_ok.mp h
  push Not at hbad
  obtain ⟨parsed, hparsed, h⟩ := bind_eq_ok.mp h
  obtain ⟨hnames, h⟩ := ite_fail_eq_ok.mp h
  obtain ⟨hroom, h⟩ := ite_fail_eq_ok.mp h
  obtain ⟨pt, hpad, h⟩ := bind_eq_ok.mp h
  obtain ⟨block, hblock, h⟩ := bind_eq_ok.mp h
  obtain ⟨ad, had, h⟩ := bind_eq_ok.mp h
  obtain ⟨ct, hct, h⟩ := bind_eq_ok.mp h
  rw [pushRecipients_eq] at hroom hpad
  exact ⟨parsed, block, pt, ad, ct,
    { epoch := hbad.1
      kind := by simpa using hbad.2.1
      parse := orErr_eq_ok.mp hparsed
      names := by simpa using hnames
      room := not_lt.mp hroom
      pad := hpad
      slots := block_of_slotBlock hblock
      bound := orErr_eq_ok.mp had
      encrypt := orErr_eq_ok.mp hct
      bytes := (pure_eq_ok.mp h).symm }⟩

variable {kind : DocKind} {rs : List (UInt8 × Bytes)}

/-- The padding is nothing, or a record of zeros behind the others. -/
theorem exists_padding {max : ℕ} (hlen : (rs.flatMap Tlv.record).length ≤ max) (hmax : max ≤ u16Max)
    (hpad : padded kind (rs.flatMap Tlv.record) max = .ok pt) : pt.length ≤ max ∧ (pt = rs.flatMap Tlv.record ∨
      ∃ k ≤ u16Max, pt = rs.flatMap Tlv.record ++ Tlv.record (Tlv.pad, replicate k 0)) := by
  have hfit : u16Max + 3 ≤ u64Max := by decide
  have hn : (rs.flatMap Tlv.record).length + 3 ≤ u64Max := by omega
  unfold padded at hpad
  split_ifs at hpad
  · rw [padRecord_eq hn] at hpad
    rw [← Except.ok.inj hpad]
    split
    · rw [append_nil]
      exact ⟨hlen, .inl rfl⟩
    · generalize hk : min ((padBucket - ((rs.flatMap Tlv.record).length + 3) % padBucket) % padBucket)
        (max - 3 - (rs.flatMap Tlv.record).length) = k
      refine ⟨?_, .inr ⟨k, by omega, rfl⟩⟩
      rw [length_append, length_record, length_replicate]
      omega
  · rw [← Except.ok.inj hpad]
    exact ⟨hlen, .inl rfl⟩

theorem maxTlv_le (kind : DocKind) (n : ℕ) : maxTlv kind n ≤ u16Max := by
  have hmax : maxEnc kind ≤ u16Max := by cases kind <;> decide
  exact (Nat.sub_le _ _).trans hmax

theorem parseLetter_pad (hshort : Short rs)
    (hlast : ∀ r ∈ rs.getLast?, r.1 < firstExtension) {k : ℕ} (hk : k ≤ u16Max) :
    Tlv.parseLetter (rs.flatMap Tlv.record ++ Tlv.record (Tlv.pad, replicate k 0)) kind =
      Tlv.parseLetter (rs.flatMap Tlv.record) kind := by
  rw [Tlv.parseLetter_eq, Tlv.parseLetter_eq, parseInner_pad hshort hlast hk]
  simp only [Option.map_map]
  rfl

theorem tag_lt_of_mem_letterRecords {ids : List Bytes} {g : Option LetterGroup} :
    ∀ r ∈ letterRecords ids g, r.1 < firstExtension := by
  intro r hr
  simp only [letterRecords, mem_append, List.mem_map] at hr
  rcases hr with ⟨_, -, rfl⟩ | ⟨_, -, rfl⟩
  · exact (by decide : recipient < firstExtension)
  · exact (by decide : Tlv.group < firstExtension)

namespace SealedLetter

variable (h : SealedLetter env c repoId sender senderKeyId header fields parsed recipients group kObj nonce ivs enc
  block pt ad ct)
include h

theorem short : Short (bodyRecords fields recipients group) :=
  short_of_length (h.room.trans (maxTlv_le _ _))

/-- A letter without an extension is parsed as it was written. -/
theorem parseLetter_eq (hmark : fields.sealOff = none) :
    Tlv.parseLetter pt header.kind = some ⟨parsed, idsOf recipients, group⟩ := by
  have hlt := tag_lt_of_mem_records hmark
  have hbody : Tlv.parseLetter ((bodyRecords fields recipients group).flatMap Tlv.record) header.kind =
      some ⟨parsed, idsOf recipients, group⟩ := by
    rw [Tlv.parseLetter_eq, bodyRecords, Tlv.parseInner_letter h.kind length_of_mem_idsOf h.short hlt h.parse]
    rfl
  rcases (exists_padding h.room (maxTlv_le _ _) h.pad).2 with hpt | ⟨k, hk, hpt⟩
  · exact (congrArg (Tlv.parseLetter · header.kind) hpt).trans hbody
  · have hlast : ∀ r ∈ (bodyRecords fields recipients group).getLast?, r.1 < firstExtension := fun r hr =>
      (mem_append.mp (mem_of_getLast? hr)).elim (hlt r) (tag_lt_of_mem_letterRecords r)
    exact (congrArg (Tlv.parseLetter · header.kind) hpt).trans ((parseLetter_pad h.short hlast hk).trans hbody)

/-- A letter with an extension is not parsed. -/
theorem parseLetter_marked (hmark : fields.sealOff.isSome) : Tlv.parseLetter pt header.kind = none := by
  have hne : idsOf recipients ≠ [] := by
    have := h.slots.length_pos
    rw [← length_pos_iff, idsOf, length_map]
    exact this
  have hnone (ps : List (UInt8 × Bytes)) (hps : Short (bodyRecords fields recipients group ++ ps)) :
      Tlv.parseLetter ((bodyRecords fields recipients group ++ ps).flatMap Tlv.record) header.kind = none := by
    rw [Tlv.parseLetter_eq, bodyRecords, Tlv.parseInner_marked hne hmark hps]
    rfl
  rcases (exists_padding h.room (maxTlv_le _ _) h.pad).2 with hpt | ⟨k, hk, hpt⟩
  · have := hnone [] (by rw [append_nil]; exact h.short)
    rwa [append_nil, ← hpt] at this
  · have := hnone [(Tlv.pad, replicate k 0)] fun r hr => by
      rcases mem_append.mp hr with hr | hr
      · exact h.short r hr
      · obtain rfl := mem_singleton.mp hr
        simpa using hk
    rwa [flatMap_append, flatMap_singleton, ← hpt] at this

/-! ### The parts of the envelope -/

theorem block_length : block.length = 37 + slotLen * recipients.length := h.slots.length_eq

theorem length_eq (hct : ct.length = pt.length + Sealed.tagLen) :
    enc.length = framing recipients.length + pt.length := by
  have hblock := h.block_length
  have hnonce := nonce.2
  rw [h.bytes, length_cons, length_append, length_append, hblock, hnonce, hct, framing, headLen]
  omega

theorem get_one : enc[1]? = some (UInt8.ofNat recipients.length) := by
  have hhead := h.slots.head_eq
  have hpos : 0 < block.length := by rw [h.block_length]; omega
  rw [h.bytes, append_assoc, getElem?_cons_succ, getElem?_append_left hpos, hhead]

theorem toNat_n : (UInt8.ofNat recipients.length).toNat = recipients.length := UInt8.toNat_ofNat_of_lt' h.slots.lt

theorem wellFramed (hct : ct.length = pt.length + Sealed.tagLen) : letterWellFramed header enc = true := by
  have hlen := h.length_eq hct
  have hone : enc.getD 1 0 = UInt8.ofNat recipients.length := by
    rw [getD_eq_getElem?_getD, h.get_one, getD_some]
  have hhead : enc.head? = some v4 := by rw [h.bytes]; rfl
  have hpos := h.slots.length_pos
  have hle := h.slots.length_le
  rw [framing, headLen, slotLen] at hlen
  simp only [letterWellFramed, hone, h.toNat_n, h.epoch, h.kind, hhead, decide_eq_true_eq]
  refine ⟨trivial, trivial, by omega, trivial, hpos, hle, by omega⟩

theorem slice_keyId : slice enc 2 6 = some (toBe 4 senderKeyId.toNat) := by
  have hkey := h.slots.slice_keyId
  have hblock := h.block_length
  rw [slice, if_pos (by omega), some.injEq] at hkey
  rw [slice, if_pos (by rw [h.bytes]; simp; omega), h.bytes, append_assoc, ← hkey, take_succ_cons,
    drop_succ_cons, take_append_of_le_length (by omega)]

theorem slice_block : slice enc 1 (headLen + slotLen * recipients.length) = some block := by
  have hblock := h.block_length
  have hhead : headLen + slotLen * recipients.length = block.length + 1 := by rw [hblock, headLen]; omega
  rw [hhead, slice, if_pos (by rw [h.bytes]; simp), h.bytes, append_assoc, take_succ_cons,
    drop_succ_cons, drop_zero, take_left]

theorem slice_rest : slice enc (headLen + slotLen * recipients.length) enc.length = some (nonce.val ++ ct) := by
  have hblock := h.block_length
  have hhead : headLen + slotLen * recipients.length = block.length + 1 := by rw [hblock, headLen]; omega
  rw [hhead, slice, if_pos ⟨by rw [h.bytes]; simp, le_rfl⟩, take_length, h.bytes, append_assoc,
    drop_succ_cons, drop_left]

/-- What a reader sees of a letter depends on the slot alone that its keys open first. -/
theorem openLetter_eq (ideal : env.Ideal) (lawful : c.gcm.Lawful) {ownerKeys : List OwnerKey}
    (hsender : HoldsSender env sender senderKeyId ownerKeys) (reader : Reader K) :
    openLetter env c repoId header enc ownerKeys reader = match reader.keys.findSome? (slotOf env recipients) with
      | none => .ok (.unreadable .notARecipient)
      | some slot =>
        match Tlv.parseLetter pt header.kind with
        | none => .ok .malformed
        | some tlv => checkLetter c header recipients.length slot reader.identityId tlv := by
  have hpt : pt.length ≤ Sealed.gcmMax :=
    (exists_padding h.room (maxTlv_le _ _) h.pad).1.trans ((maxTlv_le _ _).trans (by decide))
  obtain ⟨ct', hct, hlen, hdec⟩ := lawful (ObjKeys.derive c repoId kObj).doc.val nonce.val ad pt hpt
  obtain rfl : ct = ct' := some.inj (h.encrypt.symm.trans hct)
  have hkeyId : UInt32.ofNat (beNat (toBe 4 senderKeyId.toNat)) = senderKeyId := by
    rw [beNat_toBe_of_lt senderKeyId.toNat_lt, UInt32.ofNat_toNat]
  have hnonce : slice (nonce.val ++ ct) 0 nonceLen = some nonce.val := by
    rw [slice, if_pos ⟨Nat.zero_le _, by rw [length_append, nonce.2]; exact Nat.le_add_right _ _⟩,
      take_left' nonce.2, drop_zero]
  simp only [openLetter, h.wellFramed hlen, Bool.not_true, Bool.false_eq_true, if_false, h.get_one, orPanic_some,
    ok_bind, h.toNat_n, h.slice_keyId, hkeyId, hsender.senderKey_eq, h.slice_block, findSlotKey_eq ideal h.slots]
  cases reader.keys.findSome? (slotOf env recipients) with
  | none => rfl
  | some slot =>
    simp only [map_some, h.slice_rest, orPanic_some, ok_bind, openBody, h.bound, hnonce,
      drop_left' nonce.2, hdec]
    rfl

/-- The list of a writer passes the checks of the recipient at the slot. -/
theorem checkLetter_eq {i : ℕ} (hi : i < recipients.length) :
    checkLetter c header recipients.length i recipients[i].identityId ⟨parsed, idsOf recipients, group⟩ =
      .ok (.readable ⟨parsed, idsOf recipients, i, group⟩) := by
  obtain ⟨first, hfirst, hid, -⟩ := h.slots.first
  have hlen : (idsOf recipients).length = recipients.length := length_map _
  have hhead : (idsOf recipients).head? = some header.ownerId.val := by
    rw [idsOf, head?_map, hfirst, map_some, hid]
  have hown : (idsOf recipients)[i]? = some recipients[i].identityId.val := by
    rw [idsOf, getElem?_map, getElem?_eq_getElem hi, map_some]
  have hnodup : (idsOf recipients).Nodup := by
    have hmap : idsOf recipients = (recipients.map Recipient.identityId).map Subtype.val := by
      rw [idsOf, List.map_map]
      rfl
    rw [hmap]
    exact h.slots.nodup.map Subtype.val_injective
  simp [checkLetter, hlen, hhead, hown, hnodup, h.names, orPanic, pure, Except.pure]

end SealedLetter

end Sealed

/-! ### Any bytes -/

section AnyBytes

variable {K : Type} {env : Envelope K} {c : Crypto} {repoId : Bytes32} {header : DocHeader} {enc : Bytes}
  {ownerKeys : List OwnerKey} {reader : Reader K}

/-- A letter that is shown lists `n` identities, the owner first and no one twice, and its reader stands at the slot
that opened. -/
structure Listed (env : Envelope K) (c : Crypto) (repoId : Bytes32) (header : DocHeader) (enc : Bytes)
    (reader : Reader K) (letter : Letter) : Prop where
  length : letter.recipients.length = (enc.getD 1 0).toNat
  nodup : letter.recipients.Nodup
  owner : letter.recipients.head? = some header.ownerId.val
  own : letter.recipients[letter.slot]? = some reader.identityId.val
  slot : ∃ block senderPublic kObj, slice enc 1 (headLen + slotLen * (enc.getD 1 0).toNat) = some block ∧
    findSlotKey env c repoId block (enc.getD 1 0).toNat senderPublic reader = .ok (some (letter.slot, kObj))

variable {n slot : ℕ} {letter : Letter}

theorem checkLetter_eq_readable {readerId : Bytes32} {tlv : LetterTlv}
    (h : checkLetter c header n slot readerId tlv = .ok (.readable letter)) :
    letter.recipients.length = n ∧ letter.recipients.Nodup ∧ letter.recipients.head? = some header.ownerId.val ∧
      letter.recipients[letter.slot]? = some readerId.val ∧ letter.slot = slot := by
  unfold checkLetter at h
  split at h
  · cases h
  rename_i hlen
  obtain ⟨first, hfirst, h⟩ := bind_eq_ok.mp h
  obtain ⟨own, hown, h⟩ := bind_eq_ok.mp h
  split at h
  · cases h
  rename_i hchecks
  push Not at hchecks
  obtain ⟨hfirst', hnodup, hown', -⟩ := hchecks
  obtain rfl := LetterOpened.readable.inj (pure_eq_ok.mp h)
  refine ⟨not_not.mp hlen, hnodup, ?_, ?_, rfl⟩
  · rw [← hfirst']
    cases hhead : tlv.recipients.head? with
    | none => rw [hhead] at hfirst; cases hfirst
    | some x => rw [hhead] at hfirst; rw [Except.ok.inj hfirst]
  · rw [← hown']
    cases hget : tlv.recipients[slot]? with
    | none => rw [hget] at hown; cases hown
    | some x => rw [hget] at hown; rw [Except.ok.inj hown]

theorem readable_of_openBody {readerId kObj : Bytes32} {block rest : Bytes}
    (h : openBody c repoId header n slot readerId kObj block rest = .ok (.readable letter)) :
    ∃ tlv, checkLetter c header n slot readerId tlv = .ok (.readable letter) := by
  unfold openBody at h
  split at h
  · cases h
  obtain ⟨nonce, -, h⟩ := bind_eq_ok.mp h
  split at h
  · cases h
  split at h
  · cases h
  · exact ⟨_, h⟩

theorem openLetter_listed (h : openLetter env c repoId header enc ownerKeys reader = .ok (.readable letter)) :
    Listed env c repoId header enc reader letter := by
  unfold openLetter at h
  split at h
  · cases h
  obtain ⟨n, hn, h⟩ := bind_eq_ok.mp h
  have hget : enc.getD 1 0 = n := by
    rw [getD_eq_getElem?_getD]
    cases hone : enc[1]? with
    | none => rw [hone] at hn; cases hn
    | some x => rw [hone] at hn; exact Except.ok.inj hn
  obtain ⟨keyId, -, h⟩ := bind_eq_ok.mp h
  split at h
  · cases h
  rename_i senderPublic _
  obtain ⟨block, hblock, h⟩ := bind_eq_ok.mp h
  split at h
  · cases h
  · cases h
  · cases h
  rename_i slot kObj hfind
  obtain ⟨rest, -, h⟩ := bind_eq_ok.mp h
  obtain ⟨tlv, hcheck⟩ := readable_of_openBody h
  obtain ⟨hlen, hnodup, howner, hown, hslot⟩ := checkLetter_eq_readable hcheck
  have hslice : slice enc 1 (headLen + slotLen * n.toNat) = some block := by
    cases hs : slice enc 1 (headLen + slotLen * n.toNat) with
    | none => rw [hs] at hblock; cases hblock
    | some x => rw [hs] at hblock; rw [Except.ok.inj hblock]
  rw [← hget] at hlen hslice hfind
  exact ⟨hlen, hnodup, howner, hown, block, senderPublic, kObj, hslice, by rw [hslot]; exact hfind⟩

theorem noPanic_checkLetter (hslot : slot < n) (readerId : Bytes32) (tlv : LetterTlv) :
    NoPanic (checkLetter c header n slot readerId tlv) := by
  refine noPanic_ite (fun _ => noPanic_ok _) fun hlen => ?_
  have hlen := not_not.mp hlen
  have hhead : tlv.recipients.head?.isSome := by
    rw [isSome_head?, ← length_pos_iff]
    omega
  obtain ⟨first, hfirst⟩ := isSome_iff_exists.mp hhead
  rw [hfirst, orPanic_some, ok_bind, getElem?_eq_getElem (by omega), orPanic_some, ok_bind]
  exact noPanic_ite (fun _ => noPanic_ok _) fun _ => noPanic_ok _

theorem noPanic_openBody (hslot : slot < n) (readerId kObj : Bytes32) (block : Bytes) {rest : Bytes}
    (hrest : nonceLen ≤ rest.length) : NoPanic (openBody c repoId header n slot readerId kObj block rest) := by
  unfold openBody
  split
  · exact noPanic_ok _
  rw [slice, if_pos ⟨Nat.zero_le _, hrest⟩, orPanic_some, ok_bind]
  split
  · exact noPanic_ok _
  split
  · exact noPanic_ok _
  · exact noPanic_checkLetter hslot _ _

theorem noPanic_openLetter : NoPanic (openLetter env c repoId header enc ownerKeys reader) := by
  refine noPanic_ite (fun _ => noPanic_ok _) fun hframed => ?_
  have hframed : letterWellFramed header enc = true := by simpa using hframed
  simp only [letterWellFramed, decide_eq_true_eq] at hframed
  obtain ⟨-, -, hlen, -, -, -, hroom⟩ := hframed
  have hone : enc[1]? = some (enc.getD 1 0) := by
    rw [getD_eq_getElem?_getD, getElem?_eq_getElem (by omega), getD_some]
  rw [hone, orPanic_some, ok_bind, slice, if_pos (by omega), orPanic_some, ok_bind]
  generalize (enc.getD 1 0).toNat = n at *
  split
  · exact noPanic_ok _
  rename_i senderPublic _
  have hhead : headLen + slotLen * n ≤ enc.length := by rw [headLen, slotLen]; omega
  have hblock : 1 ≤ headLen + slotLen * n := by rw [headLen]; omega
  have hslice : slice enc 1 (headLen + slotLen * n) = some ((enc.take (headLen + slotLen * n)).drop 1) := by
    rw [slice, if_pos ⟨hblock, hhead⟩]
  have hbody : slice enc (headLen + slotLen * n) enc.length =
      some ((enc.take enc.length).drop (headLen + slotLen * n)) := by
    rw [slice, if_pos ⟨hhead, le_rfl⟩]
  simp only [hslice, hbody, orPanic_some, ok_bind]
  have hfind :
      NoPanic (findSlotKey env c repoId ((enc.take (headLen + slotLen * n)).drop 1) n senderPublic reader) := by
    refine noPanic_findSlotKey ?_
    rw [length_drop, length_take, headLen] at *
    omega
  split
  · rename_i hpanic
    exact absurd hpanic hfind
  · exact noPanic_ok _
  · exact noPanic_ok _
  rename_i slot kObj hfound
  refine noPanic_openBody (lt_of_findSlotKey hfound) _ _ _ ?_
  rw [length_drop, length_take, headLen, slotLen, nonceLen] at *
  omega

end AnyBytes

/-- **Who a letter lists can read it, if its fields hold no extension and no one before has the same key.** What
`open` then gives is what the writer parsed, the list in order, the group and the recipient's own slot. -/
theorem openLetter_recipient_iff {K : Type} {env : Envelope K} {c : Crypto} (ideal : env.Ideal)
    (lawful : c.gcm.Lawful) {repoId : Bytes32} {sender : K} {senderKeyId : UInt32} {header : DocHeader}
    {fields : Fields} {recipients : List Recipient} {group : Option LetterGroup} {kObj : Bytes32} {nonce : Nonce}
    {ivs : ℕ → Iv} {enc : Bytes} (h : sealInner env c repoId sender senderKeyId header fields recipients group kObj
      nonce ivs = .ok enc) : ∃ parsed, parse (encode fields) header.kind false = some parsed ∧
    ∀ i (hi : i < recipients.length) q ownerKeys, env.publicKey q = recipients[i].publicKey →
      HoldsSender env sender senderKeyId ownerKeys →
      (openLetter env c repoId header enc ownerKeys ⟨recipients[i].identityId, [q]⟩ =
          .ok (.readable ⟨parsed, idsOf recipients, i, group⟩) ↔
        fields.sealOff = none ∧ ∀ j (hj : j < i), recipients[j].publicKey ≠ recipients[i].publicKey) := by
  obtain ⟨parsed, block, pt, ad, ct, hsealed⟩ := exists_sealedLetter h
  refine ⟨parsed, hsealed.parse, fun i hi q ownerKeys hkey hsender => ?_⟩
  have hopen := hsealed.openLetter_eq ideal lawful hsender ⟨recipients[i].identityId, [q]⟩
  -- the reader opens the first slot of its key, which is its own or stands before it
  have hslot : (slotOf env recipients q).isSome := by
    rw [slotOf, List.findIdx?_isSome, List.any_eq_true]
    exact ⟨recipients[i], List.getElem_mem hi, by simp [hkey]⟩
  obtain ⟨slot, hslot⟩ := Option.isSome_iff_exists.mp hslot
  rw [List.findSome?_cons, hslot] at hopen
  rw [hopen]
  cases hmark : fields.sealOff with
  | some v => simp [hsealed.parseLetter_marked (by rw [hmark]; rfl)]
  | none =>
    rw [hsealed.parseLetter_eq hmark]
    simp only [true_and, ← hkey]
    constructor
    · intro hread
      obtain rfl : i = slot := (checkLetter_eq_readable hread).2.2.2.2
      obtain ⟨_, _, hfirst⟩ := slotOf_eq_some.mp hslot
      exact hfirst
    · intro hfirst
      obtain rfl : slot = i := Option.some.inj (hslot.symm.trans (slotOf_eq_some.mpr ⟨hi, hkey.symm, hfirst⟩))
      exact hsealed.checkLetter_eq hi

/-! ### Samples -/

/-- A number for each pair of three people. -/
def pairSample (a b : Fin 3) : ℕ := 2 ^ a.val + 2 ^ b.val

def publicSample (a : Fin 3) : PublicKey := ⟨UInt8.ofNat a.val :: replicate 32 2, rfl⟩

def sharedSample (a b : Fin 3) : Bytes32 := ⟨UInt8.ofNat (pairSample a b) :: replicate 31 0, rfl⟩

/-- Three people: the first byte of a ciphertext names the pair it is between and the length of its padding. -/
def envelopeSample : Envelope (Fin 3) where
  publicKey := publicSample
  derive q p := ((List.finRange 3).find? fun a => (publicSample a).val = p).map (sharedSample q)
  encryptCbc shared _ pt :=
    let k := 15 - pt.length % 16
    UInt8.ofNat (16 * (shared.val.headD 0).toNat + k) :: (pt ++ replicate k 0)
  decryptCbc shared _ ct :=
    match ct with
    | [] => none
    | b :: rest =>
      if b.toNat / 16 = (shared.val.headD 0).toNat then some (rest.take (rest.length - b.toNat % 16)) else none

theorem derive_publicSample : ∀ q a, envelopeSample.derive q (publicSample a).val = some (sharedSample q a) := by
  decide

theorem pairSample_spec : ∀ q s a, pairSample q s < 16 ∧
    (pairSample q s = pairSample s a ↔ (publicSample q).val = (publicSample a).val) := by
  decide

theorem decryptCbc_encryptCbc {t t' : ℕ} (ht : t < 16) (ht' : t' < 16) (iv pt : Bytes) {rest rest' : Bytes}
    (hrest : (UInt8.ofNat t :: rest).length = 32) (hrest' : (UInt8.ofNat t' :: rest').length = 32) :
    envelopeSample.decryptCbc ⟨UInt8.ofNat t' :: rest', hrest'⟩ iv
        (envelopeSample.encryptCbc ⟨UInt8.ofNat t :: rest, hrest⟩ iv pt) = if t = t' then some pt else none := by
  have hbyte : t < 256 ∧ t' < 256 ∧ 16 * t + (15 - pt.length % 16) < 256 := by omega
  have htag : (UInt8.ofNat t).toNat = t := UInt8.toNat_ofNat_of_lt' hbyte.1
  have htag' : (UInt8.ofNat t').toNat = t' := UInt8.toNat_ofNat_of_lt' hbyte.2.1
  have hfirst : (UInt8.ofNat (16 * t + (15 - pt.length % 16))).toNat = 16 * t + (15 - pt.length % 16) :=
    UInt8.toNat_ofNat_of_lt' hbyte.2.2
  have hpair : (16 * t + (15 - pt.length % 16)) / 16 = t := by omega
  have hpad : (16 * t + (15 - pt.length % 16)) % 16 = 15 - pt.length % 16 := by omega
  simp only [envelopeSample, headD_cons, htag, htag', hfirst, hpair, hpad, length_append,
    length_replicate, Nat.add_sub_cancel, take_left]

theorem length_encryptCbc_sample (shared : Bytes32) (iv pt : Bytes) :
    (envelopeSample.encryptCbc shared iv pt).length = (pt.length / 16 + 1) * 16 := by
  simp only [envelopeSample, length_cons, length_append, length_replicate]
  omega

theorem envelopeSample_ideal : envelopeSample.Ideal where
  derives q s := by
    rw [show envelopeSample.publicKey s = publicSample s from rfl, derive_publicSample]
    rfl
  decrypt_eq s p pt iv ct q shared henc hshared := by
    obtain ⟨key, hkey, rfl⟩ := map_eq_some_iff.mp henc
    obtain ⟨a, ha, rfl⟩ := map_eq_some_iff.mp hkey
    have hp : (publicSample a).val = p := by simpa using find?_some ha
    rw [show envelopeSample.publicKey s = publicSample s from rfl, derive_publicSample] at hshared
    obtain rfl := some.inj hshared
    obtain ⟨hlt, hpair⟩ := pairSample_spec q s a
    have hlt' := (pairSample_spec s a a).1
    have hlen : (envelopeSample.encryptWithIv (sharedSample s a) pt iv).length = 16 + (pt.length / 16 + 1) * 16 := by
      rw [Envelope.encryptWithIv, length_append, iv.2, length_encryptCbc_sample]
    have hvalid : isValidCiphertextLength (envelopeSample.encryptWithIv (sharedSample s a) pt iv).length = true := by
      rw [hlen, isValidCiphertextLength, decide_eq_true_eq, ivLen, blockLen]
      omega
    rw [Envelope.decrypt, hvalid, Bool.not_true, if_neg Bool.false_ne_true, Envelope.encryptWithIv, ivLen,
      take_left' iv.2, drop_left' iv.2]
    refine (decryptCbc_encryptCbc hlt' hlt iv.val pt rfl rfl).trans ?_
    rw [← hp]
    exact if_congr (eq_comm.trans hpair) rfl rfl

/-- A comment of the first of three people. -/
def commentSample : DocHeader :=
  { kind := .comment, ownerId := digest [8], epoch := 0, targetId := some (digest [9]) }

/-- Their keys. -/
def firstKey : Fin 3 := 0

def secondKey : Fin 3 := 1

def recipientSample (id : UInt8) (a : Fin 3) : Recipient := ⟨digest [id], publicSample a⟩

/-- Seal a comment to a list. -/
def sealSample (fields : Fields) (recipients : List Recipient) : Io Bytes :=
  sealInner envelopeSample (cryptoSample Sealed.checksumGcm) (digest [1]) 0 7 commentSample fields recipients
    (some .writers) (digest [2]) ⟨replicate 12 5, rfl⟩ fun _ => ⟨replicate 16 6, rfl⟩

/-- Open a letter of the sample as the identity `id` with the key `a`. -/
def openSample (enc : Bytes) (id : UInt8) (a : Fin 3) : Except (Fault Empty) LetterOpened :=
  openLetter envelopeSample (cryptoSample Sealed.checksumGcm) (digest [1]) commentSample enc
    [⟨7, 1, 0, (publicSample 0).val⟩] ⟨digest [id], [a]⟩

/-- Two recipients with keys of their own: the second reads the letter. -/
theorem openLetter_recipient_iff_two :
    ∃ enc, sealSample { body := some "hi" } [recipientSample 8 0, recipientSample 9 1] = .ok enc ∧
      ∃ parsed, openSample enc 9 1 =
        .ok (.readable ⟨parsed, [(digest [8]).val, (digest [9]).val], 1, some .writers⟩) := by
  have hok : (sealSample { body := some "hi" } [recipientSample 8 0, recipientSample 9 1]).toOption.isSome := by
    decide +kernel
  cases hseal : sealSample { body := some "hi" } [recipientSample 8 0, recipientSample 9 1] with
  | error e => simp [hseal, Except.toOption] at hok
  | ok enc =>
    obtain ⟨parsed, -, hread⟩ := openLetter_recipient_iff envelopeSample_ideal Sealed.checksumGcm_lawful hseal
    exact ⟨enc, rfl, parsed, (hread 1 (by decide) 1 [⟨7, 1, 0, (publicSample 0).val⟩] rfl rfl).mpr ⟨rfl, by decide⟩⟩

theorem exists_sealSample {fields : Fields} {recipients : List Recipient} {id : UInt8} {a : Fin 3} {o : LetterOpened}
    (h : (sealSample fields recipients).toOption.any fun enc => openSample enc id a = .ok o) :
    ∃ enc, sealSample fields recipients = .ok enc ∧ openSample enc id a = .ok o := by
  cases hseal : sealSample fields recipients with
  | error e => simp [hseal, Except.toOption] at h
  | ok enc => exact ⟨enc, rfl, by simpa [hseal, Except.toOption] using h⟩

/-- Of two identities with one key the second opens the slot of the first, which is not its own; and no one reads a
letter with an extension, not even its sender. -/
theorem openLetter_sharedKey :
    (∃ enc, sealSample { body := some "hi" } [recipientSample 8 0, recipientSample 9 1,
      recipientSample 10 1] = .ok enc ∧
      openSample enc 10 1 = .ok .malformed) ∧
    ∃ enc, sealSample { body := some "hi", sealOff := some [1] } [recipientSample 8 0] = .ok enc ∧
      openSample enc 8 0 = .ok .malformed :=
  ⟨exists_sealSample (by decide +kernel), exists_sealSample (by decide +kernel)⟩

end DashForge.Named
