import DashForge.Private.Doc
import DashForge.Private.SealedStream
import DashForge.Private.TlvFormat

/-!
# Sealed documents are read, and only as themselves

The associated data of a document is read off its bytes part by part (`ad_inj`): versions, ids and numbers
have fixed widths, the name of a type has no zero byte, and an OID comes after its length.

`SealedPlain` and `SealedV3` say what a writer leaves, `SealedPlain.reads` and `SealedV3.reads` that a holder
of the epoch reads it. The padding is not seen by the parser unless a seal-off marker stands before it
(`PadsPlain`). A document that opens decrypts under its own associated data (`opensWith_of_openContent`), so an
`enc` whose ciphertext decrypts in one way opens as one document (`sealed_spec`).
-/

namespace DashForge.Doc

open List Option Tlv Sealed

/-! ### The associated data -/

/-- The fields the associated data binds, by kind: an absent `prevOid` is an empty one, an absent `force` is
`false`. -/
def DocHeader.SameBind (h h' : DocHeader) : Prop :=
  match h.kind with
  | .issue | .patch => h.number = h'.number
  | .comment | .event | .authorEvent => h.targetId = h'.targetId
  | .review => h.patchId = h'.patchId
  | .refUpdate | .protectedRefUpdate =>
    h.refNameHash = h'.refNameHash ∧ h.newOid = h'.newOid ∧ h.prevOid.getD [] = h'.prevOid.getD [] ∧
      h.force.getD false = h'.force.getD false
  | .config => True
  | .release => h.tagName = h'.tagName

/-- Two headers no associated data tells apart. -/
structure DocHeader.Agrees (h h' : DocHeader) : Prop where
  kind : h.kind = h'.kind
  ownerId : h.ownerId = h'.ownerId
  epoch : h.epoch = h'.epoch
  bound : h.SameBind h'

theorem toBe_injective {m n : UInt32} (h : toBe 4 m.toNat = toBe 4 n.toNat) : m = n := by
  have hm : beNat (toBe 4 m.toNat) = m.toNat := beNat_toBe_of_lt m.toNat_lt
  rw [h, beNat_toBe_of_lt n.toNat_lt] at hm
  exact UInt32.toNat_inj.mp hm.symm

theorem zero_notMem_typeName (k : DocKind) : (0 : UInt8) ∉ utf8 (typeName k) := by
  cases k <;> decide +kernel

variable {k k' : DocKind} {b' : Bytes} {v' : UInt8} {h h' : DocHeader} {ctx : OpenContext} {max : ℕ}

theorem typeName_injective (h : typeName k = typeName k') : k = k' := by
  cases k <;> cases k' <;> first | rfl | exact absurd h (by decide)

variable {b : Bytes} {v : UInt8} {keys' : EpochKeys} {fields : Fields} {rnd : Bytes32} {isAnchor : Bool}

theorem append_zero_inj {s t : Bytes} (hs : (0 : UInt8) ∉ s) (ht : (0 : UInt8) ∉ t)
    (h : s ++ 0 :: b = t ++ 0 :: b') : s = t ∧ b = b' := by
  induction s generalizing t with
  | nil =>
    cases t with
    | nil => exact ⟨rfl, (List.cons.inj h).2⟩
    | cons y t => exact absurd (mem_cons.mpr (.inl (List.cons.inj h).1)) ht
  | cons x s ih =>
    cases t with
    | nil => exact absurd (mem_cons.mpr (.inl (List.cons.inj h).1.symm)) hs
    | cons y t =>
      obtain ⟨rfl, hrest⟩ := List.cons.inj h
      obtain ⟨rfl, hb⟩ := ih (fun hx => hs (mem_cons_of_mem x hx)) (fun hx => ht (mem_cons_of_mem x hx)) hrest
      exact ⟨rfl, hb⟩

theorem buildAd_inj {r r' o o' : Bytes32} {e e' : UInt32}
    (h : buildAd r o e v (typeName k) b = buildAd r' o' e' v' (typeName k') b') :
    v = v' ∧ r = r' ∧ o = o' ∧ e = e' ∧ k = k' ∧ b = b' := by
  have hflat : 0 :: v :: (r.val ++ (o.val ++ (toBe 4 e.toNat ++ (utf8 (typeName k) ++ 0 :: b)))) =
      0 :: v' :: (r'.val ++ (o'.val ++ (toBe 4 e'.toNat ++ (utf8 (typeName k') ++ 0 :: b')))) := by
    simpa [buildAd] using h
  obtain ⟨rfl, hrest⟩ := List.cons.inj (List.cons.inj hflat).2
  obtain ⟨hr, hrest⟩ := append_inj hrest (r.2.trans r'.2.symm)
  obtain ⟨ho, hrest⟩ := append_inj hrest (o.2.trans o'.2.symm)
  obtain ⟨he, hrest⟩ := append_inj hrest (by simp)
  obtain ⟨ht, hb⟩ := append_zero_inj (zero_notMem_typeName k) (zero_notMem_typeName k') hrest
  exact ⟨rfl, Subtype.ext hr, Subtype.ext ho, toBe_injective he, typeName_injective (utf8_injective ht), hb⟩

theorem oidf_inj {o o' rest rest' w w' : Bytes} (h : oidf o = some w) (h' : oidf o' = some w')
    (heq : w ++ rest = w' ++ rest') : o = o' ∧ rest = rest' := by
  unfold oidf at h h'
  split at h <;> split at h' <;> try contradiction
  next hlt hlt' =>
    obtain rfl := some.inj h
    obtain rfl := some.inj h'
    obtain ⟨hlen, hrest⟩ := List.cons.inj heq
    have hnat := congrArg UInt8.toNat hlen
    rw [UInt8.toNat_ofNat_of_lt' hlt, UInt8.toNat_ofNat_of_lt' hlt'] at hnat
    exact append_inj hrest hnat

theorem bind_inj {keys : EpochKeys} (hkind : h.kind = h'.kind)
    (hb : h.bind (some keys) = some b) (hb' : h'.bind (some keys') = some b) :
    h.SameBind h' ∧ (h.kind = .config → keys.commit = keys'.commit) := by
  unfold DocHeader.bind at hb hb'
  unfold DocHeader.SameBind
  rw [← hkind] at hb'
  cases hk : h.kind with
  | issue | patch =>
    simp only [hk, map_eq_some_iff] at hb hb'
    obtain ⟨n, hn, rfl⟩ := hb
    obtain ⟨n', hn', heq⟩ := hb'
    rw [hn, hn', toBe_injective heq]
    simp
  | comment | event | authorEvent | review =>
    simp only [hk, map_eq_some_iff] at hb hb'
    obtain ⟨t, ht, rfl⟩ := hb
    obtain ⟨t', ht', heq⟩ := hb'
    rw [ht, ht', Subtype.ext heq]
    simp
  | release =>
    simp only [hk, map_eq_some_iff] at hb hb'
    obtain ⟨t, ht, rfl⟩ := hb
    obtain ⟨t', ht', heq⟩ := hb'
    rw [ht, ht', utf8_injective heq]
    simp
  | config =>
    simp only [hk, map_some, some.injEq] at hb hb'
    exact ⟨trivial, fun _ => Subtype.ext (hb.trans hb'.symm)⟩
  | refUpdate | protectedRefUpdate =>
    simp only [hk, bind_eq_some, Option.pure_def, some.injEq] at hb hb'
    obtain ⟨hash, hhash, newOid, hnew, w, hw, p, hp, rfl⟩ := hb
    obtain ⟨hash', hhash', newOid', hnew', w', hw', p', hp', heq⟩ := hb'
    simp only [append_assoc] at heq
    obtain ⟨hhashes, heq⟩ := append_inj heq (hash'.2.trans hash.2.symm)
    obtain ⟨rfl, heq⟩ := oidf_inj hw' hw heq
    obtain ⟨hprev, hforce⟩ := oidf_inj hp' hp heq
    have hforce' : h.force.getD false = h'.force.getD false := by
      cases hf : h.force.getD false <;> cases hf' : h'.force.getD false <;> simp_all
    rw [hhash, hhash', hnew, hnew', Subtype.ext hhashes]
    exact ⟨⟨rfl, rfl, hprev.symm, hforce'⟩, fun hc => by cases hc⟩

/-- **The associated data tells documents apart**: what is equal has one version, repository, type, owner, epoch
and bound fields. -/
theorem ad_inj {keys : EpochKeys} {a : Bytes} (ha : h.ad keys v = some a) (ha' : h'.ad keys' v' = some a) :
    v = v' ∧ keys.repoId = keys'.repoId ∧ h.Agrees h' ∧ (h.kind = .config → keys.commit = keys'.commit) := by
  obtain ⟨b, hb, rfl⟩ := map_eq_some_iff.mp ha
  obtain ⟨b', hb', heq⟩ := map_eq_some_iff.mp ha'
  obtain ⟨hv, hr, ho, he, hk, rfl⟩ := buildAd_inj heq
  obtain ⟨hbound, hcommit⟩ := bind_inj hk.symm hb hb'
  exact ⟨hv.symm, hr.symm, ⟨hk.symm, ho.symm, he.symm, hbound⟩, hcommit⟩

/-! ### What a writer leaves -/

theorem ite_fail_eq_ok {α : Type} {p : Prop} [Decidable p] {e : PrivateError} {x : Io α} {a : α} :
    (if p then fail e else x) = .ok a ↔ ¬p ∧ x = .ok a := by
  split <;> simp [fail, *]

theorem length_hedgedNonce (c : Crypto) (keys : EpochKeys) (rnd : Bytes32) (ad pt : Bytes) :
    (keys.hedgedNonce c rnd ad pt).length = nonceLen := by
  simp [EpochKeys.hedgedNonce, (c.hmac _ _).2, nonceLen]

/-- The bytes before the ciphertext. -/
def DocHeader.overhead (h : DocHeader) : ℕ := if h.version = v2 then minV2 else minV1

/-- A config, or a document without a key of its own, as it was sealed. -/
structure SealedPlain (c : Crypto) (keys : EpochKeys) (header : DocHeader) (isAnchor : Bool)
    (enc pt nonce ad ct : Bytes) (parsed : Fields) : Prop where
  epoch : header.epoch = keys.epoch
  vis : header.vis = .public_ → header.kind = .config
  parse : Tlv.parse pt header.kind (anchorWithPrev header isAnchor) = some parsed
  names : refNamesMatch c header parsed keys v1 = true
  short : pt.length + header.overhead ≤ maxEnc header.kind
  bound : header.ad keys header.version = some ad
  width : nonce.length = nonceLen
  encrypt : c.gcm.encrypt keys.doc.val nonce ad pt = some ct
  bytes : enc = header.version :: ((if header.version = v2 then keys.commit.val else []) ++ nonce ++ ct)

theorem overhead_le_maxEnc (h : DocHeader) : h.overhead ≤ maxEnc h.kind := by
  have hover : h.overhead ≤ 61 := by
    unfold DocHeader.overhead
    split <;> decide
  have hmax : 61 ≤ maxEnc h.kind := by cases h.kind <;> decide
  exact hover.trans hmax

theorem exists_sealedPlain {c : Crypto} {keys : EpochKeys} {header : DocHeader} {enc : Bytes}
    (h : seal_ c keys header fields rnd = .ok enc) : ∃ isAnchor nonce ad ct parsed,
    SealedPlain c keys header isAnchor enc (encode fields) nonce ad ct parsed := by
  obtain ⟨hbad, h⟩ := ite_fail_eq_ok.mp h
  push Not at hbad
  obtain ⟨parsed, hparsed, h⟩ := bind_eq_ok.mp h
  obtain ⟨hnames, h⟩ := ite_fail_eq_ok.mp h
  obtain ⟨hlong, h⟩ := ite_fail_eq_ok.mp h
  obtain ⟨ad, had, h⟩ := bind_eq_ok.mp h
  obtain ⟨ct, hct, h⟩ := bind_eq_ok.mp h
  have hover := overhead_le_maxEnc header
  refine ⟨_, _, ad, ct, parsed, hbad.1, hbad.2, orErr_eq_ok.mp hparsed, by simpa using hnames, ?_,
    orErr_eq_ok.mp had, length_hedgedNonce c keys rnd _ _, orErr_eq_ok.mp hct, (pure_eq_ok.mp h).symm⟩
  rw [DocHeader.overhead] at hover ⊢
  omega

/-- A document with a key of its own, as it was sealed. -/
structure SealedV3 (c : Crypto) (keys : EpochKeys) (header : DocHeader) (enc records pt nonce ad ct : Bytes)
    (parsed : Fields) : Prop where
  epoch : header.epoch = keys.epoch
  kind : header.kind ≠ .config ∧ header.kind ≠ .release
  names : refNamesMatch c header parsed keys v3 = true
  short : records.length + minV3 ≤ maxEnc header.kind
  pad : padded header.kind records (maxEnc header.kind - minV3) = .ok pt
  bound : header.ad keys v3 = some ad
  width : nonce.length = nonceLen
  encrypt : c.gcm.encrypt (ObjKeys.derive c keys.repoId (keys.objKey c nonce ad)).doc.val nonce
    (ad ++ (ObjKeys.derive c keys.repoId (keys.objKey c nonce ad)).commit.val) pt = some ct
  bytes : enc = v3 :: (nonce ++ (ObjKeys.derive c keys.repoId (keys.objKey c nonce ad)).commit.val ++ ct)

theorem exists_sealedV3 {c : Crypto} {keys : EpochKeys} {header : DocHeader} {records enc : Bytes}
    {parsed : Fields} (h : v3Envelope c keys header records parsed (keys.hedgedNonce c rnd) = .ok enc) :
    ∃ pt nonce ad ct, SealedV3 c keys header enc records pt nonce ad ct parsed := by
  obtain ⟨hbad, h⟩ := ite_fail_eq_ok.mp h
  obtain ⟨hnames, h⟩ := ite_fail_eq_ok.mp h
  obtain ⟨hlong, h⟩ := ite_fail_eq_ok.mp h
  push Not at hbad
  obtain ⟨pt, hpt, h⟩ := bind_eq_ok.mp h
  obtain ⟨ad, had, h⟩ := bind_eq_ok.mp h
  obtain ⟨ct, hct, h⟩ := bind_eq_ok.mp h
  have hmax : minV3 ≤ maxEnc header.kind := by cases header.kind <;> decide
  refine ⟨pt, _, ad, ct, hbad.1, hbad.2, by simpa using hnames, by omega, hpt, orErr_eq_ok.mp had,
    length_hedgedNonce c keys rnd _ _, orErr_eq_ok.mp hct, (pure_eq_ok.mp h).symm⟩

/-! ### What a reader needs -/

/-- A document as it is read: it has an id and heights of its own. -/
def DocHeader.onChain (h : DocHeader) (id : Option Bytes32) (created : ℕ) (updated : Option ℕ) : DocHeader :=
  { h with
    id := id
    createdAtBlockHeight := some created
    updatedAtBlockHeight := updated }

theorem version_eq (h : DocHeader) : h.kind = .config ∧ h.version = v2 ∨ h.kind ≠ .config ∧ h.version = v1 := by
  unfold DocHeader.version
  split <;> simp_all

theorem v3Parts_cons {nonce commit ct : Bytes} (hn : nonce.length = nonceLen) (hc : commit.length = 32) :
    v3Parts (v :: (nonce ++ commit ++ ct)) = (nonce, commit, ct) := by
  simp only [v3Parts, drop_succ_cons, drop_zero, append_assoc]
  rw [← hn, take_left, drop_left, ← hc, take_left, drop_left]

variable {c : Crypto} {keys : EpochKeys} {header : DocHeader} {enc pt nonce ad ct records : Bytes} {parsed : Fields}

theorem SealedPlain.decrypt_eq (h : SealedPlain c keys header isAnchor enc pt nonce ad ct parsed)
    (hdec : c.gcm.decrypt keys.doc.val nonce ad ct = some pt) (id : Option Bytes32) (created : ℕ)
    (updated : Option ℕ) (isAnchor' : Bool) :
    decrypt c keys (header.onChain id created updated) enc isAnchor' = .readable parsed := by
  have hnames : refNamesMatch c header parsed keys header.version = true := by
    rcases version_eq header with ⟨hk, -⟩ | ⟨-, hv⟩
    · simp [refNamesMatch, hk]
    · rw [hv]
      exact h.names
  have hbody : (if header.version = v2 then enc.drop 33 else enc.drop 1) = nonce ++ ct := by
    rw [h.bytes]
    split
    · rw [drop_succ_cons, append_assoc, drop_left' keys.commit.2]
    · rfl
  have hcommit : ¬(header.version = v2 ∧ keys.commit.val ≠ (enc.drop 1).take 32) := by
    rintro ⟨hv, hne⟩
    apply hne
    rw [h.bytes, if_pos hv, drop_succ_cons, drop_zero, append_assoc, take_left' keys.commit.2]
  have hhead : enc.headD 0 = header.version := by rw [h.bytes]; rfl
  have hv : header.version ≠ v3 ∧ header.version ≠ v4 ∧ header.version ≠ v5 := by
    rcases version_eq header with ⟨-, hv⟩ | ⟨-, hv⟩ <;> rw [hv] <;> decide
  unfold decrypt
  simp only [hhead, if_neg hv.1, if_neg hv.2.1, if_neg hv.2.2, if_neg hcommit, hbody]
  have had : (header.onChain id created updated).ad keys header.version = some ad := h.bound
  have hparse : Tlv.parse pt (header.onChain id created updated).kind
      (anchorWithPrev (header.onChain id created updated) isAnchor') = some parsed := h.parse
  have hnames' : refNamesMatch c (header.onChain id created updated) parsed keys header.version = true := hnames
  rw [had]
  simp only [← h.width, take_left, drop_left, hdec, hparse, hnames', if_true]

theorem SealedV3.decrypt_eq (h : SealedV3 c keys header enc records pt nonce ad ct parsed)
    (hdec : c.gcm.decrypt (ObjKeys.derive c keys.repoId (keys.objKey c nonce ad)).doc.val nonce
      (ad ++ (ObjKeys.derive c keys.repoId (keys.objKey c nonce ad)).commit.val) ct = some pt)
    (hparse : parseBy header pt = some parsed) (id : Option Bytes32) (created : ℕ) (updated : Option ℕ)
    (isAnchor : Bool) : decrypt c keys (header.onChain id created updated) enc isAnchor = .readable parsed := by
  have hhead : enc.headD 0 = v3 := by rw [h.bytes]; rfl
  have had : (header.onChain id created updated).ad keys v3 = some ad := h.bound
  have hparse' : parseBy (header.onChain id created updated) pt = some parsed := hparse
  have hnames : refNamesMatch c (header.onChain id created updated) parsed keys v3 = true := h.names
  unfold decrypt
  simp only [hhead, if_true, decryptMembers, had]
  rw [h.bytes, v3Parts_cons h.width (ObjKeys.derive c keys.repoId (keys.objKey c nonce ad)).commit.2]
  simp [hdec, hparse', hnames]

theorem openContent_of_decrypt (hhead : enc.head? = some v)
    (hv : v = v1 ∨ v = v2 ∨ v = v3) (hframed : wellFramed header enc = true)
    (hanchor : (ctx.anchors.lookup header.epoch.toNat).isSome) (hkeys : ctx.keys.lookup header.epoch.toNat = some keys)
    (hmember : header.ownerId ∈ ctx.members) (hcreated : header.createdAtBlockHeight.isSome)
    (hopen : ∀ isAnchor, decrypt c keys header enc isAnchor = .readable fields) :
    openContent c ctx header enc = .readable fields := by
  obtain ⟨anchor, hanchor⟩ := isSome_iff_exists.mp hanchor
  obtain ⟨created, hcreated⟩ := isSome_iff_exists.mp hcreated
  have hunknown : isUnknownVersion header.kind enc = false := by
    rcases hv with rfl | rfl | rfl <;> simp [isUnknownVersion, hhead, firstUnknown, v1, v2, v3]
  have hletter : enc.head? ≠ some v4 ∧ enc.head? ≠ some v5 := by
    rcases hv with rfl | rfl | rfl <;> simp [hhead, v1, v2, v3, v4, v5]
  have hlate : ∀ height, ctx.isLate header.epoch height header.ownerId = false := by
    simp [OpenContext.isLate, isLate, hmember]
  unfold openContent
  simp only [hunknown, hframed, hanchor, hkeys, if_neg hletter.1, if_neg hletter.2, hopen, Bool.false_eq_true,
    Bool.not_true, if_false, judgeLate, hcreated, hlate]
  cases header.kind <;> simp

/-! ### Padding -/

theorem short_of_length {rs : List (UInt8 × Bytes)} (h : (rs.flatMap record).length ≤ u16Max) : Short rs := by
  induction rs with
  | nil => simp [Short]
  | cons r rs ih =>
    rw [flatMap_cons, length_append, length_record] at h
    intro x hx
    rcases mem_cons.mp hx with rfl | hx
    · omega
    · exact ih (by omega) x hx

theorem tag_lt_of_mem_records {f : Fields} (h : f.sealOff = none) : ∀ r ∈ Tlv.records f, r.1 < Tlv.firstExtension := by
  have hmap {α : Type} (l : List α) (b : UInt8) (v : α → Bytes) (hb : b < Tlv.firstExtension) :
      ∀ r ∈ l.map fun x => (b, v x), r.1 < Tlv.firstExtension := by
    simp [hb]
  unfold Tlv.records
  simp only [forall_mem_append, textRecords, bytesRecords, h]
  repeat' apply And.intro
  all_goals first
    | exact hmap _ _ _ (by decide)
    | cases f.burned <;> decide

/-- Nothing is padded behind a seal-off marker. -/
def PadsPlain (header : DocHeader) (fields : Fields) : Prop :=
  pads header.kind = true → fields.sealOff = none ∨ maxEnc header.kind - minV3 < (encode fields).length + 3

theorem parseBy_padded
    (hpad : padded header.kind (encode fields) max = .ok pt) (hlen : (encode fields).length ≤ u16Max)
    (hmark : pads header.kind = true → fields.sealOff = none ∨ max < (encode fields).length + 3) :
    parseBy header pt = parseBy header (encode fields) := by
  unfold padded at hpad
  split_ifs at hpad with hpads
  · rw [encode_eq] at hpad hlen hmark ⊢
    have hn : ((Tlv.records fields).flatMap record).length + 3 ≤ u64Max := by
      have hmax : u16Max + 3 ≤ u64Max := by decide
      omega
    cases hrec : padRecord ((Tlv.records fields).flatMap record).length max with
    | error e =>
      rw [hrec] at hpad
      cases hpad
    | ok r =>
      rw [hrec] at hpad
      rw [← Except.ok.inj hpad]
      rcases hmark hpads with hnone | hroom
      · have hlast : ∀ x ∈ (Tlv.records fields).getLast?, x.1 < Tlv.firstExtension := fun x hx =>
          tag_lt_of_mem_records hnone x (mem_of_getLast? hx)
        simp only [parseBy, Tlv.parse_eq, Tlv.parseMembers_eq, Tlv.parse_pad (short_of_length hlen) hlast hrec]
      · rw [padRecord_eq hn, if_pos hroom] at hrec
        rw [← Except.ok.inj hrec, append_nil]
  · rw [Except.ok.inj hpad]

theorem length_padded (hpad : padded header.kind (encode fields) max = .ok pt)
    (hlen : (encode fields).length ≤ max) (hmax : max + 3 ≤ u64Max) : pt.length ≤ max := by
  unfold padded at hpad
  split_ifs at hpad with hpads
  · rw [padRecord_eq (by omega)] at hpad
    rw [← Except.ok.inj hpad, length_append]
    split
    · simpa using hlen
    · rw [length_record, length_replicate]
      omega
  · rw [← Except.ok.inj hpad]
    exact hlen

/-! ### What opens -/

/-- A ciphertext decrypts under one key, nonce and associated data. -/
def OpensOnce (gcm : Gcm) (ct : Bytes) : Prop :=
  ∀ key nonce ad pt key' nonce' ad' pt', gcm.decrypt key nonce ad ct = some pt →
    gcm.decrypt key' nonce' ad' ct = some pt' → key = key' ∧ nonce = nonce' ∧ ad = ad'

/-- What follows the document's associated data in that of AES-GCM: the commitment of a key of its own. -/
def suffixOf (enc : Bytes) : Bytes := if enc.headD 0 = v3 then (enc.drop 13).take 32 else []

def ciphertextOf (enc : Bytes) : Bytes := enc.drop (if enc.headD 0 = v1 then 13 else 45)

/-- Some key decrypts `enc` as the document `header` of an epoch. -/
def OpensWith (c : Crypto) (keys : EpochKeys) (header : DocHeader) (enc : Bytes) : Prop :=
  ∃ ad key nonce pt, header.ad keys (enc.headD 0) = some ad ∧
    c.gcm.decrypt key nonce (ad ++ suffixOf enc) (ciphertextOf enc) = some pt

/-- A version this client seals. -/
def Sealing (v : UInt8) : Prop := v = v1 ∨ v = v2 ∨ v = v3

theorem opensWith_of_decrypt (hv : Sealing (enc.headD 0))
    (h : decrypt c keys header enc isAnchor = .readable fields) : OpensWith c keys header enc := by
  have hv4 : enc.headD 0 ≠ v4 ∧ enc.headD 0 ≠ v5 := by
    rcases hv with hv | hv | hv <;> rw [hv] <;> decide
  unfold decrypt at h
  simp only [if_neg hv4.1, if_neg hv4.2] at h
  by_cases h3 : enc.headD 0 = v3
  · rw [if_pos h3, decryptMembers] at h
    split at h
    · cases h
    next ad had =>
    simp only at h
    split_ifs at h with hcommit
    split at h
    · cases h
    next pt hpt =>
    have h1 : enc.headD 0 ≠ v1 := by
      rw [h3]
      decide
    have hsuffix : suffixOf enc = (v3Parts enc).2.1 := by rw [suffixOf, if_pos h3, v3Parts, drop_drop, nonceLen]
    have hct : ciphertextOf enc = (v3Parts enc).2.2 := by
      rw [ciphertextOf, if_neg h1, v3Parts, drop_drop, drop_drop, nonceLen]
    rw [← hsuffix, ← hct] at hpt
    exact ⟨ad, _, _, pt, h3 ▸ had, hpt⟩
  · rw [if_neg h3] at h
    have hsuffix : suffixOf enc = [] := if_neg h3
    have hct : ciphertextOf enc = (if enc.headD 0 = v2 then enc.drop 33 else enc.drop 1).drop nonceLen := by
      rw [ciphertextOf]
      rcases hv with hv | hv | hv
      · rw [hv, if_pos rfl, if_neg (by decide), drop_drop, nonceLen]
      · rw [hv, if_neg (by decide), if_pos rfl, drop_drop, nonceLen]
      · exact absurd hv h3
    rw [ite_eq_iff] at h
    obtain ⟨-, h⟩ := h.resolve_left fun h => by cases h.2
    split at h
    · cases h
    next ad had =>
    split at h
    · cases h
    next pt hpt =>
    rw [← hct] at hpt
    exact ⟨ad, _, _, pt, had, by rw [hsuffix, append_nil]; exact hpt⟩

/-- A document that is shown decrypts under the keys of its epoch. -/
theorem opensWith_of_openContent (hv : Sealing (enc.headD 0)) (h : openContent c ctx header enc = .readable fields) :
    ∃ keys, ctx.keys.lookup header.epoch.toNat = some keys ∧ OpensWith c keys header enc := by
  have hpost : enc.head? ≠ some v5 := by
    intro hhead
    rw [headD_eq_head?_getD, hhead] at hv
    rcases hv with hv | hv | hv <;> exact absurd hv (by decide)
  unfold openContent at h
  simp only [if_neg hpost] at h
  split_ifs at h with hunknown hframed hletter
  split at h
  · cases h
  · cases h
  next anchor keys hanchor hkeys =>
    refine ⟨keys, hkeys, ?_⟩
    split at h
    · next fields' hdec => exact opensWith_of_decrypt hv hdec
    · next hother => exact absurd h (hother fields)

/-- An `enc` opens as one document only. -/
theorem agrees_of_opensWith {header' : DocHeader} (honce : OpensOnce c.gcm (ciphertextOf enc))
    (h : OpensWith c keys header enc) (h' : OpensWith c keys' header' enc) :
    keys.repoId = keys'.repoId ∧ header.Agrees header' ∧ (header.kind = .config → keys.commit = keys'.commit) := by
  obtain ⟨ad, key, nonce, pt, had, hdec⟩ := h
  obtain ⟨ad', key', nonce', pt', had', hdec'⟩ := h'
  obtain ⟨-, -, heq⟩ := honce _ _ _ _ _ _ _ _ hdec hdec'
  rw [append_cancel_right heq] at had
  exact (ad_inj had had').2

/-! ### Sealed documents -/

/-- `enc` fits its type, and whoever holds the epoch reads `fields` of it from a member. -/
def Reads (c : Crypto) (keys : EpochKeys) (header : DocHeader) (enc : Bytes) (fields : Fields) : Prop :=
  enc.length ≤ maxEnc header.kind ∧ ∀ ctx id created updated,
    (ctx.anchors.lookup header.epoch.toNat).isSome → ctx.keys.lookup header.epoch.toNat = some keys →
    header.ownerId ∈ ctx.members → openContent c ctx (header.onChain id created updated) enc = .readable fields

theorem length_encode_le {n : ℕ} (kind : DocKind) (h : n + minV3 ≤ maxEnc kind) : n ≤ u16Max := by
  have hmax : maxEnc kind ≤ u16Max := by cases kind <;> decide
  omega

theorem kind_ne_release {kind : DocKind} {anchorWithPrev : Bool}
    (h : Tlv.parse pt kind anchorWithPrev = some fields) : kind ≠ .release := by
  rintro rfl
  simp only [Tlv.parse, parseInner, bind_eq_some] at h
  obtain ⟨st, ⟨st', -, hfinish⟩, -⟩ := h
  have hrequired := (finish_eq_some.mp hfinish).2.1
  cases hrequired

theorem SealedPlain.decrypts (lawful : c.gcm.Lawful)
    (h : SealedPlain c keys header isAnchor enc pt nonce ad ct parsed) :
    ct.length = pt.length + tagLen ∧ c.gcm.decrypt keys.doc.val nonce ad ct = some pt := by
  have hshort := h.short
  have hmax : maxEnc header.kind ≤ gcmMax := by cases header.kind <;> decide
  obtain ⟨ct', hct', hlen, hdec⟩ := lawful keys.doc.val nonce ad pt (by omega)
  obtain rfl : ct' = ct := some.inj (hct'.symm.trans h.encrypt)
  exact ⟨hlen, hdec⟩

theorem SealedV3.decrypts (lawful : c.gcm.Lawful)
    (h : SealedV3 c keys header enc (encode fields) pt nonce ad ct parsed) :
    pt.length + minV3 ≤ maxEnc header.kind ∧ ct.length = pt.length + tagLen ∧
      c.gcm.decrypt (ObjKeys.derive c keys.repoId (keys.objKey c nonce ad)).doc.val nonce
        (ad ++ (ObjKeys.derive c keys.repoId (keys.objKey c nonce ad)).commit.val) ct = some pt := by
  have hshort := h.short
  have hbound : maxEnc header.kind ≤ gcmMax ∧ maxEnc header.kind + 3 ≤ u64Max := by
    cases header.kind <;> decide
  have hpadded : pt.length ≤ maxEnc header.kind - minV3 := length_padded h.pad (by omega) (by omega)
  obtain ⟨ct', hct', hlen, hdec⟩ := lawful (ObjKeys.derive c keys.repoId (keys.objKey c nonce ad)).doc.val nonce
    (ad ++ (ObjKeys.derive c keys.repoId (keys.objKey c nonce ad)).commit.val) pt (by omega)
  obtain rfl : ct' = ct := some.inj (hct'.symm.trans h.encrypt)
  exact ⟨by omega, hlen, hdec⟩

theorem SealedPlain.reads (lawful : c.gcm.Lawful)
    (h : SealedPlain c keys header isAnchor enc pt nonce ad ct parsed) : Reads c keys header enc parsed := by
  obtain ⟨hlen, hdec⟩ := h.decrypts lawful
  have hshort := h.short
  have henc : enc.length = header.overhead + pt.length := by
    have hwidth := h.width
    have hcommit := keys.commit.2
    rw [h.bytes, DocHeader.overhead]
    split <;> simp [minV1, minV2, tagLen, nonceLen] at * <;> omega
  refine ⟨by omega, fun ctx id created updated hanchor hkeys hmember => ?_⟩
  have hhead : enc.head? = some header.version := by rw [h.bytes]; rfl
  have hrelease := kind_ne_release h.parse
  refine openContent_of_decrypt hhead ?_ ?_ hanchor hkeys hmember rfl fun isAnchor' =>
    h.decrypt_eq hdec id created updated isAnchor'
  · rcases version_eq header with ⟨-, hv⟩ | ⟨-, hv⟩
    · exact .inr (.inl hv)
    · exact .inl hv
  · rcases version_eq header with ⟨hk, hv⟩ | ⟨hk, hv⟩
    · rw [DocHeader.overhead, if_pos hv] at henc
      simp [wellFramed, hhead, DocHeader.onChain, hk, hv, henc]
    · have hvis : header.vis = .private_ := by
        cases hvis : header.vis with
        | private_ => rfl
        | public_ => exact absurd (h.vis hvis) hk
      rw [DocHeader.overhead, if_neg (by rw [hv]; decide)] at henc
      unfold wellFramed
      simp only [hhead, DocHeader.onChain]
      cases hkind : header.kind <;> simp_all

theorem SealedV3.reads (lawful : c.gcm.Lawful)
    (h : SealedV3 c keys header enc (encode fields) pt nonce ad ct parsed)
    (hparse : parseBy header (encode fields) = some parsed) (hmark : PadsPlain header fields) :
    Reads c keys header enc parsed := by
  obtain ⟨hroom, hlen, hdec⟩ := h.decrypts lawful
  have hshort := h.short
  have henc : enc.length = minV3 + pt.length := by
    have hwidth := h.width
    have hcommit := (ObjKeys.derive c keys.repoId (keys.objKey c nonce ad)).commit.2
    rw [h.bytes]
    simp only [length_cons, length_append, hwidth, hcommit, hlen, minV3]
    omega
  have hpt : parseBy header pt = some parsed :=
    (parseBy_padded h.pad (length_encode_le header.kind hshort) hmark).trans hparse
  refine ⟨by omega, fun ctx id created updated hanchor hkeys hmember => ?_⟩
  have hhead : enc.head? = some v3 := by rw [h.bytes]; rfl
  refine openContent_of_decrypt hhead (.inr (.inr rfl)) ?_ hanchor hkeys hmember rfl fun isAnchor =>
    h.decrypt_eq hdec hpt id created updated isAnchor
  obtain ⟨hconfig, hrelease⟩ := h.kind
  unfold wellFramed
  simp only [hhead, DocHeader.onChain]
  cases hkind : header.kind <;> simp_all [v1, v3]

theorem SealedPlain.opensWith (lawful : c.gcm.Lawful)
    (h : SealedPlain c keys header isAnchor enc pt nonce ad ct parsed) :
    Sealing (enc.headD 0) ∧ OpensWith c keys header enc := by
  obtain ⟨-, hdec⟩ := h.decrypts lawful
  have hhead : enc.headD 0 = header.version := by rw [h.bytes]; rfl
  have hsuffix : suffixOf enc = [] := by
    rw [suffixOf, hhead, if_neg]
    rcases version_eq header with ⟨-, hv⟩ | ⟨-, hv⟩ <;> rw [hv] <;> decide
  have hct : ciphertextOf enc = ct := by
    rw [ciphertextOf, hhead, h.bytes]
    rcases version_eq header with ⟨-, hv⟩ | ⟨-, hv⟩
    · rw [if_neg (by rw [hv]; decide), if_pos hv, drop_succ_cons,
        drop_left' (by rw [length_append, keys.commit.2, h.width, nonceLen])]
    · rw [if_pos hv, if_neg (by rw [hv]; decide), nil_append, drop_succ_cons,
        drop_left' (by rw [h.width, nonceLen])]
  constructor
  · rcases version_eq header with ⟨-, hv⟩ | ⟨-, hv⟩
    · exact .inr (.inl (hhead.trans hv))
    · exact .inl (hhead.trans hv)
  · refine ⟨ad, keys.doc.val, nonce, pt, by rw [hhead]; exact h.bound, ?_⟩
    rw [hsuffix, append_nil, hct]
    exact hdec

theorem SealedV3.opensWith (lawful : c.gcm.Lawful)
    (h : SealedV3 c keys header enc (encode fields) pt nonce ad ct parsed) :
    Sealing (enc.headD 0) ∧ OpensWith c keys header enc := by
  obtain ⟨-, -, hdec⟩ := h.decrypts lawful
  have hhead : enc.headD 0 = v3 := by rw [h.bytes]; rfl
  have hcommit := (ObjKeys.derive c keys.repoId (keys.objKey c nonce ad)).commit.2
  have hsuffix : suffixOf enc = (ObjKeys.derive c keys.repoId (keys.objKey c nonce ad)).commit.val := by
    rw [suffixOf, hhead, if_pos rfl, h.bytes, append_assoc, drop_succ_cons,
      drop_left' (by rw [h.width, nonceLen]), take_left' hcommit]
  have hct : ciphertextOf enc = ct := by
    rw [ciphertextOf, hhead, if_neg (by decide), h.bytes, drop_succ_cons,
      drop_left' (by rw [length_append, h.width, hcommit, nonceLen])]
  rw [← hsuffix, ← hct] at hdec
  exact ⟨.inr (.inr hhead), ad, _, nonce, pt, by rw [hhead]; exact h.bound, hdec⟩

/-- One of the writers sealed the fields. -/
def WroteEnc (c : Crypto) (keys : EpochKeys) (header : DocHeader) (fields : Fields) (rnd : Bytes32) (enc : Bytes) :
    Prop :=
  seal_ c keys header fields rnd = .ok enc ∨ sealMembers c keys header fields rnd = .ok enc ∨
    sealPrivateV3 c keys header fields rnd = .ok enc

/-- The records of a members-only document, and of a private one with a key of its own, as they are sealed. -/
theorem exists_sealedV3_of_sealMembers (h : sealMembers c keys header fields rnd = .ok enc) : ∃ g pt nonce ad ct,
      parseMembers (encode fields) header.kind = some g ∧ parseBy header (encode fields) = some g ∧
      SealedV3 c keys header enc (encode fields) pt nonce ad ct g := by
  obtain ⟨hvis, h⟩ := ite_fail_eq_ok.mp h
  obtain ⟨g, hg, h⟩ := bind_eq_ok.mp h
  obtain ⟨pt, nonce, ad, ct, hsealed⟩ := exists_sealedV3 h
  have hparse := orErr_eq_ok.mp hg
  exact ⟨g, pt, nonce, ad, ct, hparse, by rw [parseBy, if_pos (not_not.mp hvis)]; exact hparse, hsealed⟩

theorem exists_sealedV3_of_sealPrivateV3 (h : sealPrivateV3 c keys header fields rnd = .ok enc) : ∃ g pt nonce ad ct,
      Tlv.parse (encode fields) header.kind false = some g ∧ parseBy header (encode fields) = some g ∧
      SealedV3 c keys header enc (encode fields) pt nonce ad ct g := by
  obtain ⟨hvis, h⟩ := ite_fail_eq_ok.mp h
  obtain ⟨g, hg, h⟩ := bind_eq_ok.mp h
  obtain ⟨pt, nonce, ad, ct, hsealed⟩ := exists_sealedV3 h
  have hparse := orErr_eq_ok.mp hg
  refine ⟨g, pt, nonce, ad, ct, hparse, ?_, hsealed⟩
  rw [parseBy, if_neg (by rw [not_not.mp hvis]; decide)]
  exact hparse

theorem opensWith_of_wroteEnc (lawful : c.gcm.Lawful)
    (h : WroteEnc c keys header fields rnd enc) : Sealing (enc.headD 0) ∧ OpensWith c keys header enc := by
  rcases h with h | h | h
  · obtain ⟨isAnchor, nonce, ad, ct, g, hsealed⟩ := exists_sealedPlain h
    exact hsealed.opensWith lawful
  · obtain ⟨g, pt, nonce, ad, ct, -, -, hsealed⟩ := exists_sealedV3_of_sealMembers h
    exact hsealed.opensWith lawful
  · obtain ⟨g, pt, nonce, ad, ct, -, -, hsealed⟩ := exists_sealedV3_of_sealPrivateV3 h
    exact hsealed.opensWith lawful

/-- **What is sealed is read, and only as the document it was sealed for.** What a writer emits fits its type and is
read by every holder of the epoch as the writer's own parse gave it; associated data is equal only for documents
that agree on all it binds; and no `enc` opens as a document that does not agree with its own. -/
theorem sealed_spec {c : Crypto} (lawful : c.gcm.Lawful) :
    (∀ keys header fields rnd enc,
      (seal_ c keys header fields rnd = .ok enc → ∃ g,
        Tlv.parse (encode fields) header.kind
          (anchorWithPrev header (header.kind = .config ∧ fields.prevEpoch.isSome)) = some g ∧
        Reads c keys header enc g) ∧
      (sealMembers c keys header fields rnd = .ok enc → PadsPlain header fields → ∃ g,
        parseMembers (encode fields) header.kind = some g ∧ Reads c keys header enc g) ∧
      (sealPrivateV3 c keys header fields rnd = .ok enc → PadsPlain header fields → ∃ g,
        Tlv.parse (encode fields) header.kind false = some g ∧ Reads c keys header enc g)) ∧
    (∀ (h h' : DocHeader) keys keys' v v' a, h.ad keys v = some a → h'.ad keys' v' = some a →
      v = v' ∧ keys.repoId = keys'.repoId ∧ h.Agrees h' ∧ (h.kind = .config → keys.commit = keys'.commit)) ∧
    ∀ keys header fields rnd enc, WroteEnc c keys header fields rnd enc → OpensOnce c.gcm (ciphertextOf enc) →
      ∀ ctx header' g, openContent c ctx header' enc = .readable g → header.Agrees header' := by
  refine ⟨fun keys header fields rnd enc => ⟨fun h => ?_, fun h hmark => ?_, fun h hmark => ?_⟩,
    fun h h' keys keys' v v' a ha ha' => ad_inj ha ha', ?_⟩
  · obtain ⟨isAnchor, nonce, ad, ct, g, hsealed⟩ := exists_sealedPlain h
    exact ⟨g, hsealed.parse, hsealed.reads lawful⟩
  · obtain ⟨g, pt, nonce, ad, ct, hparse, hby, hsealed⟩ := exists_sealedV3_of_sealMembers h
    exact ⟨g, hparse, hsealed.reads lawful hby hmark⟩
  · obtain ⟨g, pt, nonce, ad, ct, hparse, hby, hsealed⟩ := exists_sealedV3_of_sealPrivateV3 h
    exact ⟨g, hparse, hsealed.reads lawful hby hmark⟩
  · intro keys header fields rnd enc hwrote honce ctx header' g hopen
    obtain ⟨hv, hown⟩ := opensWith_of_wroteEnc lawful hwrote
    obtain ⟨keys', -, hother⟩ := opensWith_of_openContent hv hopen
    exact (agrees_of_opensWith honce hown hother).2.1

/-! ### Samples -/

/-- 32 bytes of a checksum, in place of a hash. -/
def digest (b : Bytes) : Bytes32 := ⟨toBe 32 (beNat b), length_toBe 32 _⟩

/-- Checksums in place of the cryptography. -/
def cryptoSample (gcm : Gcm) : Crypto where
  sha256 := digest
  hmac key b := digest (key.val ++ b)
  extract salt b := digest (salt.val ++ b)
  expand key b := digest (key.val ++ b)
  gcm := gcm

def keysSample : EpochKeys where
  repoId := digest [1]
  epoch := 7
  prk := digest [2]
  doc := digest [3]
  refKey := digest [4]
  hedge := digest [5]
  commit := digest [6]

/-- A tag that one message alone has. -/
def tagOf (key nonce ad msg : Bytes) (x : Bytes × Bytes × Bytes × Bytes) : Bytes :=
  replicate 16 (if (key, nonce, ad, msg) = x then 1 else 0)

/-- AES-GCM that tells one message from all others. -/
def gcmSample (x : Bytes × Bytes × Bytes × Bytes) : Gcm where
  encrypt key nonce ad msg := if msg.length ≤ gcmMax then some (msg ++ tagOf key nonce ad msg x) else none
  decrypt key nonce ad ct :=
    let msg := ct.take (ct.length - tagLen)
    if ct = msg ++ tagOf key nonce ad msg x then some msg else none

theorem gcmSample_lawful (x : Bytes × Bytes × Bytes × Bytes) : (gcmSample x).Lawful := by
  intro key nonce ad msg hmsg
  have hlen : (msg ++ tagOf key nonce ad msg x).length = msg.length + tagLen := by
    simp [tagOf, tagLen]
  have htake : (msg ++ tagOf key nonce ad msg x).take
      ((msg ++ tagOf key nonce ad msg x).length - tagLen) = msg := by
    rw [hlen, Nat.add_sub_cancel, take_left]
  refine ⟨_, if_pos hmsg, hlen, ?_⟩
  simp only [gcmSample, htake, if_true]

theorem gcmSample_opensOnce (key nonce ad msg : Bytes) :
    OpensOnce (gcmSample (key, nonce, ad, msg)) (msg ++ replicate 16 1) := by
  have hkey : ∀ key' nonce' ad' pt, (gcmSample (key, nonce, ad, msg)).decrypt key' nonce' ad'
      (msg ++ replicate 16 1) = some pt → key' = key ∧ nonce' = nonce ∧ ad' = ad := by
    intro key' nonce' ad' pt h
    have htake : (msg ++ replicate 16 (1 : UInt8)).take
        ((msg ++ replicate 16 (1 : UInt8)).length - tagLen) = msg := by
      simp [tagLen]
    simp only [gcmSample, htake] at h
    split_ifs at h with htag
    have htag' := append_cancel_left htag
    unfold tagOf at htag'
    split at htag'
    · next heq => simpa using heq
    · exact absurd htag' (by decide)
  intro key₁ nonce₁ ad₁ pt₁ key₂ nonce₂ ad₂ pt₂ h₁ h₂
  obtain ⟨rfl, rfl, rfl⟩ := hkey _ _ _ _ h₁
  obtain ⟨rfl, rfl, rfl⟩ := hkey _ _ _ _ h₂
  exact ⟨rfl, rfl, rfl⟩

def eventSample : DocHeader := { kind := .event, ownerId := digest [8], epoch := 7, targetId := some (digest [9]) }

def labelSample : Fields := { eventValue := some "bug" }

/-- The message of the event, as it is sealed. -/
def messageSample : Bytes × Bytes × Bytes × Bytes :=
  let ad := (eventSample.ad keysSample v1).getD []
  (keysSample.doc.val, keysSample.hedgedNonce (cryptoSample checksumGcm) (digest []) ad (encode labelSample),
    ad, encode labelSample)

def encSample : Bytes := v1 :: (messageSample.2.1 ++ (encode labelSample ++ replicate 16 1))

def issueSample : DocHeader :=
  { kind := .issue, vis := .public_, ownerId := digest [8], epoch := 7, number := some 1 }

/-- An event is sealed, read, and nothing else; and a members-only issue, which is padded, is read. -/
theorem sealed_spec_eventSample :
    (seal_ (cryptoSample (gcmSample messageSample)) keysSample eventSample labelSample (digest []) = .ok encSample ∧
      (∃ g, Reads (cryptoSample (gcmSample messageSample)) keysSample eventSample encSample g) ∧
      ∀ ctx header g, openContent (cryptoSample (gcmSample messageSample)) ctx header encSample = .readable g →
        eventSample.Agrees header) ∧
    ∃ enc g, sealMembers (cryptoSample (gcmSample messageSample)) keysSample issueSample { title := some "bug" }
      (digest []) = .ok enc ∧ Reads (cryptoSample (gcmSample messageSample)) keysSample issueSample enc g := by
  have hseal : seal_ (cryptoSample (gcmSample messageSample)) keysSample eventSample labelSample (digest []) =
      .ok encSample := by decide +kernel
  have hct : ciphertextOf encSample = encode labelSample ++ replicate 16 1 := by decide +kernel
  obtain ⟨hreads, -, honly⟩ := sealed_spec (c := cryptoSample (gcmSample messageSample)) (gcmSample_lawful _)
  obtain ⟨g, -, hg⟩ := (hreads _ _ _ _ _).1 hseal
  refine ⟨⟨hseal, ⟨g, hg⟩, honly keysSample _ _ _ _ (.inl hseal) ?_⟩, ?_⟩
  · rw [hct]
    exact gcmSample_opensOnce _ _ _ _
  · have hok : (sealMembers (cryptoSample (gcmSample messageSample)) keysSample issueSample { title := some "bug" }
        (digest [])).toOption.isSome := by decide +kernel
    cases hmembers : sealMembers (cryptoSample (gcmSample messageSample)) keysSample issueSample { title := some "bug" }
      (digest []) with
    | error e => simp [hmembers, Except.toOption] at hok
    | ok enc =>
      obtain ⟨g', -, hg'⟩ := (hreads _ _ _ _ _).2.1 hmembers fun _ => .inl rfl
      exact ⟨enc, g', rfl, hg'⟩

/-- A member who holds the epoch. -/
def contextSample : OpenContext where
  keys := SortedMap.empty.insert 7 keysSample
  anchors := SortedMap.empty.insert 7 ⟨digest [10], 1, 1⟩
  members := {digest [8]}
  burned := ∅
  bots := ∅

/-- The padding of an issue with a seal-off marker follows the marker, so no reader parses it; and associated data
does not tell an absent `force` from `false`. -/
theorem sealMembers_marked : (∃ enc, sealMembers (cryptoSample checksumGcm) keysSample issueSample
      markedIssue (digest []) = .ok enc ∧
    openContent (cryptoSample checksumGcm) contextSample (issueSample.onChain none 5 none) enc = .malformed) ∧
    ∃ h h' : DocHeader, (h.ad keysSample v1).isSome ∧ h.ad keysSample v1 = h'.ad keysSample v1 ∧
        h.force ≠ h'.force := by
  constructor
  · have hok : (sealMembers (cryptoSample checksumGcm) keysSample issueSample markedIssue
        (digest [])).toOption.any fun enc => openContent (cryptoSample checksumGcm) contextSample
          (issueSample.onChain none 5 none) enc = .malformed := by decide +kernel
    cases hseal : sealMembers (cryptoSample checksumGcm) keysSample issueSample markedIssue (digest []) with
    | error e => simp [hseal, Except.toOption] at hok
    | ok enc => exact ⟨enc, rfl, by simpa [hseal, Except.toOption] using hok⟩
  · exact ⟨{ kind := .refUpdate, ownerId := digest [8], epoch := 7, refNameHash := some (digest []), newOid := some [] },
      { kind := .refUpdate, ownerId := digest [8], epoch := 7, refNameHash := some (digest []), newOid := some [],
        force := some false }, by decide +kernel, by decide +kernel, by decide⟩

end DashForge.Doc
