import DashForge.Private.DocFormat

/-!
# Letters and artifacts for specific people

A letter is a document, and an artifact a file, sealed to a list of identities (`private/named.rs`). Its key
`K_obj` is wrapped once for each recipient, in a slot of 64 bytes under the shared key of the sender and the
recipient (`envelope.rs`). A reader tries every slot with each of its keys and takes the first that holds the
committed key.

ECDH and AES-CBC are parameters. In an envelope that is `Ideal` a slot opens under the key it was wrapped to and
no other, so what a reader finds in the block of a writer is known (`tryKeys_eq`).
-/

namespace DashForge.Named

open Tlv (DocKind Fields LetterGroup)
open List Option Doc

/-! ### The envelope -/

/-- A compressed point. -/
abbrev PublicKey : Type := { b : Bytes // b.length = 33 }

abbrev Iv : Type := { b : Bytes // b.length = 16 }

/-- ECDH on secp256k1 with private keys in `K`, and AES-256-CBC. -/
structure Envelope (K : Type) where
  publicKey : K → PublicKey
  /-- The shared key; `none` where the other side is not a point. -/
  derive : K → Bytes → Option Bytes32
  encryptCbc : Bytes32 → Bytes → Bytes → Bytes
  decryptCbc : Bytes32 → Bytes → Bytes → Option Bytes

def ivLen : ℕ := 16
def blockLen : ℕ := 16

def isValidCiphertextLength (len : ℕ) : Bool := ivLen + blockLen ≤ len ∧ len % blockLen = 0

namespace Envelope

variable {K : Type} (env : Envelope K)

/-- `IV ‖ CBC` under a shared key. -/
def encryptWithIv (shared : Bytes32) (plaintext : Bytes) (iv : Iv) : Bytes :=
  iv.val ++ env.encryptCbc shared iv.val plaintext

/-- Encrypt from a private key to a public one. -/
def encrypt (sender : K) (recipientPublic plaintext : Bytes) (iv : Iv) : Option Bytes :=
  (env.derive sender recipientPublic).map fun shared => env.encryptWithIv shared plaintext iv

def decrypt (shared : Bytes32) (ciphertext : Bytes) : Option Bytes :=
  if !isValidCiphertextLength ciphertext.length then none
  else env.decryptCbc shared (ciphertext.take ivLen) (ciphertext.drop ivLen)

/-- What is wrapped to a public key opens under its private key and the sender's public key, and under no other
private key. -/
structure Ideal : Prop where
  derives : ∀ q s, (env.derive q (env.publicKey s).val).isSome
  decrypt_eq : ∀ s p plaintext iv ct q shared, env.encrypt s p plaintext iv = some ct →
    env.derive q (env.publicKey s).val = some shared →
    env.decrypt shared ct = if (env.publicKey q).val = p then some plaintext else none

end Envelope

/-! ### Slots -/

def maxArtifactRecipients : ℕ := 64
def slotLen : ℕ := 64
def slotVersion : UInt8 := 0x02
/-- `0x04 ‖ n ‖ senderKeyId ‖ COMMIT_obj`. -/
def headLen : ℕ := 1 + 1 + 4 + 32
def slotPlaintextLen : ℕ := 1 + 14 + 32
def purposeEncryption : UInt8 := 1
def keyTypeEcdsaSecp256k1 : UInt8 := 0

structure Recipient where
  identityId : Bytes32
  publicKey : PublicKey
deriving DecidableEq

/-- A key of the identity that owns a document. -/
structure OwnerKey where
  id : UInt32
  purpose : UInt8
  keyType : UInt8
  data : Bytes
deriving DecidableEq

structure Reader (K : Type) where
  identityId : Bytes32
  keys : List K

/-- The first 14 bytes of the commitment. -/
def kcv (obj : ObjKeys) : Bytes := obj.commit.val.take 14

/-- `K_pack,obj,fileId`. -/
def packKey (c : Crypto) (repoId kObj : Bytes32) (fileId : Bytes) : Bytes32 :=
  c.expand (c.extract repoId kObj.val) (utf8 "dash-forge/v2/obj-pack" ++ [0, 2] ++ fileId)

def slotPlaintext (c : Crypto) (repoId kObj : Bytes32) : Bytes :=
  slotVersion :: (kcv (ObjKeys.derive c repoId kObj) ++ kObj.val)

section Slots

variable {K ε : Type} (env : Envelope K) (c : Crypto) (repoId : Bytes32)

/-- Wrap the key for the recipient `r`, the `i`-th of the list, and add its slot. -/
def pushSlot (sender : K) (slotPt : Bytes) (ivs : ℕ → Iv) (malformed : ε) (out : Bytes) (r : Recipient × ℕ) :
    Except (Fault ε) Bytes := do
  let slot ← orErr (env.encrypt sender r.1.publicKey.val slotPt (ivs r.2)) malformed
  if slot.length ≠ slotLen then .error (.err malformed) else return out ++ slot

/-- `n ‖ senderKeyId ‖ COMMIT_obj ‖ n × slot`: the sender comes first, and no identity twice. -/
def slotBlock (max : ℕ) (sender : K) (senderKeyId : UInt32) (ownerId : Bytes32) (recipients : List Recipient)
    (kObj : Bytes32) (ivs : ℕ → Iv) (malformed : ε) : Except (Fault ε) Bytes := do
  let first ← orErr recipients.head? malformed
  if max < recipients.length ∨ first.identityId ≠ ownerId ∨ first.publicKey ≠ env.publicKey sender then
    .error (.err malformed)
  else if ¬(recipients.map Recipient.identityId).Nodup then .error (.err malformed)
  else do
    let n ← orPanic (if recipients.length < 256 then some (UInt8.ofNat recipients.length) else none)
    recipients.zipIdx.foldlM (pushSlot env sender (slotPlaintext c repoId kObj) ivs malformed)
      (n :: (toBe 4 senderKeyId.toNat ++ (ObjKeys.derive c repoId kObj).commit.val))

/-- The public key of the owner's key `senderKeyId`, which must be a secp256k1 key for encryption. -/
def senderKey (ownerKeys : List OwnerKey) (senderKeyId : UInt32) : Option Bytes :=
  ((ownerKeys.find? fun k => k.id = senderKeyId).filter fun k =>
    k.purpose = purposeEncryption ∧ k.keyType = keyTypeEcdsaSecp256k1 ∧ k.data.length = 33).map OwnerKey.data

/-- The key in a slot, if it opens to the committed one. -/
def trySlot (commit : Bytes) (shared : Bytes32) (slot : Bytes) : Option Bytes32 := do
  let pt ← env.decrypt shared slot
  if h : pt.length = slotPlaintextLen then
    if pt.head? ≠ some slotVersion ∨ (pt.take 15).drop 1 ≠ commit.take 14 then none
    else
      let kObj : Bytes32 := ⟨pt.drop 15, by rw [length_drop, h]; rfl⟩
      if (ObjKeys.derive c repoId kObj).commit.val = commit then some kObj else none
  else none

/-- Try every slot with each key, in order. A sender key that is not a point is an error. -/
def tryKeys (commit slots : Bytes) (n : ℕ) (senderPublic : Bytes) :
    List K → Except (Fault Unit) (Option (ℕ × Bytes32))
  | [] => return none
  | key :: keys => do
    let shared ← orErr (env.derive key senderPublic) ()
    match (range n).findSome? fun i =>
        (trySlot env c repoId commit shared (chunk slotLen slots i)).map fun kObj => (i, kObj) with
    | some found => return some found
    | none => tryKeys commit slots n senderPublic keys

/-- The slot of a block that opens for the reader, and the key in it. -/
def findSlotKey (block : Bytes) (n : ℕ) (senderPublic : Bytes) (reader : Reader K) :
    Except (Fault Unit) (Option (ℕ × Bytes32)) := do
  let commit ← orPanic (slice block 5 37)
  let slots ← orPanic (slice block 37 (37 + slotLen * n))
  tryKeys env c repoId commit slots n senderPublic reader.keys

end Slots

theorem findSome?_range {α β : Type} {p : α → Bool} {l : List α} {f : ℕ → Option β} {g : ℕ → β}
    (h : ∀ i (hi : i < l.length), f i = if p l[i] then some (g i) else none) :
    (range l.length).findSome? f = (l.findIdx? p).map g := by
  induction l generalizing f g with
  | nil => rfl
  | cons a l ih =>
    have hzero := h 0 (Nat.zero_lt_succ _)
    rw [getElem_cons_zero] at hzero
    rw [length_cons, range_succ_eq_map, findSome?_cons, hzero, findIdx?_cons]
    by_cases ha : p a
    · simp [ha]
    · have hrest := ih (f := f ∘ Nat.succ) (g := g ∘ Nat.succ) fun i hi => h (i + 1) (Nat.succ_lt_succ hi)
      rw [findSome?_map, hrest]
      simp [ha, Function.comp_def]

/-- The first recipient with the public key of `q`. -/
def slotOf {K : Type} (env : Envelope K) (recipients : List Recipient) (q : K) : Option ℕ :=
  recipients.findIdx? fun r => r.publicKey = env.publicKey q

theorem slotOf_eq_some {K : Type} {env : Envelope K} {recipients : List Recipient} {q : K} {i : ℕ} :
    slotOf env recipients q = some i ↔ ∃ hi : i < recipients.length, recipients[i].publicKey = env.publicKey q ∧
      ∀ j (hj : j < i), recipients[j].publicKey ≠ env.publicKey q := by
  rw [slotOf, findIdx?_eq_some_iff_getElem]
  simp

/-! ### What a writer leaves -/

section Block

variable {K ε : Type} {env : Envelope K} {c : Crypto} {repoId : Bytes32}

/-- The slot of the recipient `r`, the `i`-th of the list. -/
def slotAt (env : Envelope K) (sender : K) (slotPt : Bytes) (ivs : ℕ → Iv) (r : Recipient × ℕ) : Bytes :=
  (env.encrypt sender r.1.publicKey.val slotPt (ivs r.2)).getD []

/-- A recipient whose slot was wrapped. -/
def Wrapped (env : Envelope K) (sender : K) (slotPt : Bytes) (ivs : ℕ → Iv) (r : Recipient × ℕ) : Prop :=
  env.encrypt sender r.1.publicKey.val slotPt (ivs r.2) = some (slotAt env sender slotPt ivs r) ∧
    (slotAt env sender slotPt ivs r).length = slotLen

variable {malformed : ε} {shared : Bytes32}

theorem foldlM_pushSlot {sender : K} {slotPt out out' : Bytes} {ivs : ℕ → Iv}
    {l : List (Recipient × ℕ)} (h : l.foldlM (pushSlot env sender slotPt ivs malformed) out = .ok out') :
    out' = out ++ l.flatMap (slotAt env sender slotPt ivs) ∧ ∀ r ∈ l, Wrapped env sender slotPt ivs r := by
  induction l generalizing out with
  | nil =>
    obtain rfl : out = out' := by simpa using h
    simp
  | cons r l ih =>
    rw [foldlM_cons] at h
    obtain ⟨out₁, hpush, hrest⟩ := bind_eq_ok.mp h
    obtain ⟨slot, hslot, hpush⟩ := bind_eq_ok.mp hpush
    have hslot := orErr_eq_ok.mp hslot
    have hat : slotAt env sender slotPt ivs r = slot := by rw [slotAt, hslot, getD_some]
    split at hpush
    · cases hpush
    rename_i hlen
    obtain rfl := pure_eq_ok.mp hpush
    obtain ⟨rfl, hwrapped⟩ := ih hrest
    refine ⟨by rw [flatMap_cons, hat, append_assoc], fun r' hr' => ?_⟩
    rcases mem_cons.mp hr' with rfl | hr'
    · rw [Wrapped, hat]
      exact ⟨hslot, not_not.mp hlen⟩
    · exact hwrapped r' hr'

/-- The block of a writer. -/
structure Block (env : Envelope K) (c : Crypto) (repoId : Bytes32) (max : ℕ) (sender : K) (senderKeyId : UInt32)
    (ownerId : Bytes32) (recipients : List Recipient) (kObj : Bytes32) (ivs : ℕ → Iv) (block : Bytes) : Prop where
  length_le : recipients.length ≤ max
  lt : recipients.length < 256
  first : ∃ r, recipients.head? = some r ∧ r.identityId = ownerId ∧ r.publicKey = env.publicKey sender
  nodup : (recipients.map Recipient.identityId).Nodup
  wrapped : ∀ r ∈ recipients.zipIdx, Wrapped env sender (slotPlaintext c repoId kObj) ivs r
  bytes : block = UInt8.ofNat recipients.length :: (toBe 4 senderKeyId.toNat ++
    (ObjKeys.derive c repoId kObj).commit.val) ++
      recipients.zipIdx.flatMap (slotAt env sender (slotPlaintext c repoId kObj) ivs)

variable {max : ℕ} {sender : K} {senderKeyId : UInt32} {ownerId kObj : Bytes32} {recipients : List Recipient}
  {ivs : ℕ → Iv} {block : Bytes}

theorem block_of_slotBlock (h : slotBlock env c repoId max sender senderKeyId ownerId recipients
    kObj ivs malformed = .ok block) : Block env c repoId max sender senderKeyId ownerId recipients kObj ivs block := by
  obtain ⟨first, hfirst, h⟩ := bind_eq_ok.mp h
  split at h
  · cases h
  rename_i hchecks
  split at h
  · cases h
  rename_i hnodup
  obtain ⟨n, hn, h⟩ := bind_eq_ok.mp h
  obtain ⟨hbytes, hwrapped⟩ := foldlM_pushSlot h
  push Not at hchecks
  obtain ⟨hle, hid, hkey⟩ := hchecks
  split at hn
  swap
  · cases hn
  rename_i hlt
  obtain rfl := Except.ok.inj hn
  exact ⟨hle, hlt, ⟨first, orErr_eq_ok.mp hfirst, hid, hkey⟩, not_not.mp hnodup, hwrapped, hbytes⟩

namespace Block

variable (h : Block env c repoId max sender senderKeyId ownerId recipients kObj ivs block)
include h

theorem length_pos : 0 < recipients.length := by
  obtain ⟨r, hr, -⟩ := h.first
  exact length_pos_iff.mpr fun hnil => by simp [hnil] at hr

theorem slots_length : (recipients.zipIdx.flatMap (slotAt env sender (slotPlaintext c repoId kObj) ivs)).length =
    slotLen * recipients.length := by
  rw [length_flatMap_of_length fun r hr => (h.wrapped r hr).2, length_zipIdx]

theorem length_eq : block.length = 37 + slotLen * recipients.length := by
  have hcommit := (ObjKeys.derive c repoId kObj).commit.2
  rw [h.bytes, length_append, h.slots_length, length_cons, length_append, length_toBe, hcommit]

theorem head_eq : block[0]? = some (UInt8.ofNat recipients.length) := by rw [h.bytes]; rfl

theorem slice_keyId : slice block 1 5 = some (toBe 4 senderKeyId.toNat) := by
  have hlen := h.length_eq
  rw [slice, if_pos (by omega), h.bytes]
  simp

theorem slice_commit : slice block 5 37 = some (ObjKeys.derive c repoId kObj).commit.val := by
  have hlen := h.length_eq
  have hcommit := (ObjKeys.derive c repoId kObj).commit.2
  rw [slice, if_pos (by omega), h.bytes]
  simp [take_append, hcommit]

theorem slice_slots : slice block 37 (37 + slotLen * recipients.length) =
    some (recipients.zipIdx.flatMap (slotAt env sender (slotPlaintext c repoId kObj) ivs)) := by
  have hlen := h.length_eq
  have hcommit := (ObjKeys.derive c repoId kObj).commit.2
  have hhead : (UInt8.ofNat recipients.length :: (toBe 4 senderKeyId.toNat ++
      (ObjKeys.derive c repoId kObj).commit.val)).length = 37 := by
    rw [length_cons, length_append, length_toBe, hcommit]
  rw [slice, if_pos ⟨by omega, hlen.ge⟩, take_of_length_le hlen.le, h.bytes, drop_left' hhead]

end Block

/-! ### What a reader finds -/

theorem slotPlaintext_parts (c : Crypto) (repoId kObj : Bytes32) :
    (slotPlaintext c repoId kObj).length = slotPlaintextLen ∧
      ((slotPlaintext c repoId kObj).take 15).drop 1 = kcv (ObjKeys.derive c repoId kObj) ∧
      (slotPlaintext c repoId kObj).drop 15 = kObj.val := by
  have hkcv : (kcv (ObjKeys.derive c repoId kObj)).length = 14 := by
    rw [kcv, length_take, (ObjKeys.derive c repoId kObj).commit.2]
    rfl
  refine ⟨?_, ?_, ?_⟩
  · rw [slotPlaintext, length_cons, length_append, hkcv, kObj.2]
    rfl
  · rw [slotPlaintext, take_succ_cons, drop_succ_cons, drop_zero, take_left' hkcv]
  · rw [slotPlaintext, drop_succ_cons, drop_left' hkcv]

theorem trySlot_of_decrypt {slot : Bytes} (h : env.decrypt shared slot = some (slotPlaintext c repoId kObj)) :
    trySlot env c repoId (ObjKeys.derive c repoId kObj).commit.val shared slot = some kObj := by
  obtain ⟨hlen, hkcv, hkey⟩ := slotPlaintext_parts c repoId kObj
  have hback : (⟨(slotPlaintext c repoId kObj).drop 15, by rw [length_drop, hlen]; rfl⟩ : Bytes32) = kObj :=
    Subtype.ext hkey
  have hchecks : ¬((slotPlaintext c repoId kObj).head? ≠ some slotVersion ∨
      ((slotPlaintext c repoId kObj).take 15).drop 1 ≠ (ObjKeys.derive c repoId kObj).commit.val.take 14) := by
    rw [hkcv, kcv]
    simp [slotPlaintext]
  rw [trySlot, h, some_bind, dif_pos hlen, if_neg hchecks]
  simp [hback]

variable (ideal : env.Ideal)
include ideal

theorem trySlot_slotAt {r : Recipient × ℕ} (hr : Wrapped env sender (slotPlaintext c repoId kObj) ivs r)
    {q : K} (hshared : env.derive q (env.publicKey sender).val = some shared) :
    trySlot env c repoId (ObjKeys.derive c repoId kObj).commit.val shared
        (slotAt env sender (slotPlaintext c repoId kObj) ivs r) =
      if r.1.publicKey = env.publicKey q then some kObj else none := by
  have hdec := ideal.decrypt_eq _ _ _ _ _ q shared hr.1 hshared
  split
  · rename_i hkey
    rw [if_pos (by rw [hkey])] at hdec
    exact trySlot_of_decrypt hdec
  · rename_i hkey
    rw [if_neg fun heq => hkey (Subtype.ext heq.symm)] at hdec
    rw [trySlot, hdec]
    rfl

variable (h : Block env c repoId max sender senderKeyId ownerId recipients kObj ivs block)

include h in
theorem tryKeys_eq (keys : List K) :
    tryKeys env c repoId (ObjKeys.derive c repoId kObj).commit.val
        (recipients.zipIdx.flatMap (slotAt env sender (slotPlaintext c repoId kObj) ivs)) recipients.length
        (env.publicKey sender).val keys = .ok ((keys.findSome? (slotOf env recipients)).map fun i => (i, kObj)) := by
  induction keys with
  | nil => rfl
  | cons q keys ih =>
    obtain ⟨shared, hshared⟩ := isSome_iff_exists.mp (ideal.derives q sender)
    have hslot : ∀ i (hi : i < recipients.length), ((trySlot env c repoId (ObjKeys.derive c repoId kObj).commit.val
        shared (chunk slotLen (recipients.zipIdx.flatMap (slotAt env sender (slotPlaintext c repoId kObj) ivs)) i)).map
          fun kObj => (i, kObj)) =
        if decide (recipients[i].publicKey = env.publicKey q) then some (i, kObj) else none := by
      intro i hi
      have hi' : i < recipients.zipIdx.length := by rwa [length_zipIdx]
      rw [chunk_flatMap (fun r hr => (h.wrapped r hr).2) hi',
        trySlot_slotAt ideal (h.wrapped _ (getElem_mem hi')) hshared, getElem_zipIdx]
      by_cases hkey : recipients[i].publicKey = env.publicKey q <;> simp [hkey]
    rw [tryKeys, hshared, orErr_some, ok_bind,
      findSome?_range (p := fun r => decide (r.publicKey = env.publicKey q)) (g := fun i => (i, kObj)) hslot,
      findSome?_cons]
    cases hfirst : slotOf env recipients q with
    | none =>
      rw [slotOf] at hfirst
      rw [hfirst, map_none]
      exact ih
    | some i =>
      rw [slotOf] at hfirst
      rw [hfirst]
      rfl

include h in
theorem findSlotKey_eq (reader : Reader K) : findSlotKey env c repoId block recipients.length
    (env.publicKey sender).val reader =
      .ok ((reader.keys.findSome? (slotOf env recipients)).map fun i => (i, kObj)) := by
  rw [findSlotKey, h.slice_commit, orPanic_some, ok_bind, h.slice_slots, orPanic_some, ok_bind, tryKeys_eq ideal h]

end Block

/-- The keys of the owner hold the sender's public key under its id. -/
def HoldsSender {K : Type} (env : Envelope K) (sender : K) (senderKeyId : UInt32) (ownerKeys : List OwnerKey) : Prop :=
  (ownerKeys.find? fun k => k.id = senderKeyId) =
    some ⟨senderKeyId, purposeEncryption, keyTypeEcdsaSecp256k1, (env.publicKey sender).val⟩

theorem HoldsSender.senderKey_eq {K : Type} {env : Envelope K} {sender : K} {senderKeyId : UInt32}
    {ownerKeys : List OwnerKey} (h : HoldsSender env sender senderKeyId ownerKeys) :
    senderKey ownerKeys senderKeyId = some (env.publicKey sender).val := by
  rw [senderKey, h, filter_some, if_pos]
  · rfl
  · simp [(env.publicKey sender).2]

/-! ### Any block -/

section AnyBlock

variable {K : Type} {env : Envelope K} {c : Crypto} {repoId : Bytes32} {block : Bytes} {n : ℕ}
  {senderPublic : Bytes} {reader : Reader K}

theorem lt_of_tryKeys {commit slots : Bytes} {keys : List K} {found : ℕ × Bytes32}
    (h : tryKeys env c repoId commit slots n senderPublic keys = .ok (some found)) : found.1 < n := by
  induction keys with
  | nil => cases h
  | cons key keys ih =>
    obtain ⟨shared, -, h⟩ := bind_eq_ok.mp h
    split at h
    · rename_i hfirst
      obtain rfl := some.inj (pure_eq_ok.mp h)
      obtain ⟨i, hi, hslot⟩ := exists_of_findSome?_eq_some hfirst
      obtain ⟨kObj, -, rfl⟩ := map_eq_some_iff.mp hslot
      exact mem_range.mp hi
    · exact ih h

theorem lt_of_findSlotKey {found : ℕ × Bytes32}
    (h : findSlotKey env c repoId block n senderPublic reader = .ok (some found)) : found.1 < n := by
  obtain ⟨commit, -, h⟩ := bind_eq_ok.mp h
  obtain ⟨slots, -, h⟩ := bind_eq_ok.mp h
  exact lt_of_tryKeys h

theorem noPanic_tryKeys (commit slots : Bytes) (keys : List K) :
    NoPanic (tryKeys env c repoId commit slots n senderPublic keys) := by
  induction keys with
  | nil => exact noPanic_ok _
  | cons key keys ih =>
    refine (noPanic_orErr _ _).bind fun shared _ => ?_
    split
    · exact noPanic_ok _
    · exact ih

theorem noPanic_findSlotKey (h : 37 + slotLen * n ≤ block.length) :
    NoPanic (findSlotKey env c repoId block n senderPublic reader) := by
  rw [findSlotKey, slice, if_pos (by omega), slice, if_pos (by omega), orPanic_some, ok_bind, orPanic_some, ok_bind]
  exact noPanic_tryKeys _ _ _

end AnyBlock

end DashForge.Named
