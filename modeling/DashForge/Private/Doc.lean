import DashForge.Data.SortedMap
import DashForge.Private.Anchor
import DashForge.Private.Sealed
import DashForge.Private.Tlv

/-!
# Encrypted documents

How a document's fields are sealed into `enc` and opened again (`private/doc.rs`). There are three
envelopes: `sealInner` writes the two of a private repository and `v3Envelope` the one with a key for each
object. `openContent` is the reader: framing, the epoch and its key, the commitment, AES-GCM, the records,
the hashes of ref names and the late rule, in that order.

SHA-256, HMAC, HKDF and AES-GCM are parameters. What binds an `enc` to its document is the associated data
(`DocHeader.ad`).
-/

namespace DashForge.Doc

open Sealed (Gcm)
open Tlv

/-! ### Keys -/

/-- An array of 32 bytes. -/
abbrev Bytes32 : Type := { b : Bytes // b.length = 32 }

/-- The cryptography documents are sealed with. -/
structure Crypto where
  sha256 : Bytes → Bytes32
  hmac : Bytes32 → Bytes → Bytes32
  /-- HKDF-Extract by salt and key. -/
  extract : Bytes32 → Bytes → Bytes32
  /-- HKDF-Expand to 32 bytes by key and info. -/
  expand : Bytes32 → Bytes → Bytes32
  gcm : Gcm

/-- The subkeys of one epoch of one repository. -/
structure EpochKeys where
  repoId : Bytes32
  epoch : UInt32
  prk : Bytes32
  doc : Bytes32
  refKey : Bytes32
  hedge : Bytes32
  commit : Bytes32

/-- `"dash-forge/v2/" ‖ label ‖ 0x00 ‖ u32(e) ‖ x`. -/
def info (label : String) (epoch : UInt32) (extra : Bytes) : Bytes :=
  utf8 "dash-forge/v2/" ++ utf8 label ++ [0] ++ toBe 4 epoch.toNat ++ extra

def nonceLen : ℕ := 12

section Keys

variable (c : Crypto)

namespace EpochKeys

variable (keys : EpochKeys)

def refNameHash (refName : String) : Bytes32 := c.hmac keys.refKey (utf8 refName)

def hedgedNonce (rnd : Bytes32) (ad plaintext : Bytes) : Bytes :=
  (c.hmac keys.hedge ([0x02] ++ rnd.val ++ ad ++ (c.sha256 plaintext).val)).val.take nonceLen

/-- The key of one document, bound to its nonce and its associated data. -/
def objKey (nonce ad : Bytes) : Bytes32 :=
  c.expand keys.prk (info "obj" keys.epoch (nonce ++ (c.sha256 ad).val))

/-- The post key of a bot. -/
def botPostKey (bot : Bytes32) : Bytes32 := c.expand keys.prk (info "bot-post" keys.epoch bot.val)

end EpochKeys

/-- The keys of one document. -/
structure ObjKeys where
  doc : Bytes32
  commit : Bytes32

def ObjKeys.derive (repoId kObj : Bytes32) : ObjKeys :=
  let prk := c.extract repoId kObj.val
  { doc := c.expand prk (utf8 "dash-forge/v2/obj-doc" ++ [0])
    commit := c.expand prk (utf8 "dash-forge/v2/obj-commit" ++ [0]) }

/-- The post key of one bot for one epoch of one repository. -/
structure PostKey where
  repoId : Bytes32
  epoch : UInt32
  bot : Bytes32
  prk : Bytes32

def PostKey.derive (keys : EpochKeys) (bot : Bytes32) : PostKey where
  repoId := keys.repoId
  epoch := keys.epoch
  bot := bot
  prk := c.extract keys.repoId (keys.botPostKey c bot).val

def PostKey.objKey (post : PostKey) (nonce ad : Bytes) : Bytes32 :=
  c.expand post.prk (info "obj" post.epoch (nonce ++ (c.sha256 ad).val))

end Keys

/-! ### The header and its associated data -/

inductive Visibility where
  | public_
  | private_
deriving DecidableEq, Repr

/-- The plaintext of a document that a reader needs besides `enc`. -/
structure DocHeader where
  kind : DocKind
  vis : Visibility := .private_
  ownerId : Bytes32
  epoch : UInt32
  number : Option UInt32 := none
  targetId : Option Bytes32 := none
  patchId : Option Bytes32 := none
  refNameHash : Option Bytes32 := none
  newOid : Option Bytes := none
  prevOid : Option Bytes := none
  force : Option Bool := none
  baseRefNameHash : Option Bytes32 := none
  sourceRefNameHash : Option Bytes32 := none
  tagName : Option String := none
  id : Option Bytes32 := none
  createdAtBlockHeight : Option ℕ := none
  updatedAtBlockHeight : Option ℕ := none

def typeName : DocKind → String
  | .issue => "issue"
  | .patch => "patch"
  | .comment => "comment"
  | .review => "review"
  | .refUpdate => "refUpdate"
  | .protectedRefUpdate => "protectedRefUpdate"
  | .config => "config"
  | .event => "event"
  | .authorEvent => "authorEvent"
  | .release => "release"

/-- The largest `enc` of a type. -/
def maxEnc : DocKind → ℕ
  | .refUpdate | .protectedRefUpdate | .config | .release => 1536
  | _ => 5120

/-- An OID after its length, which is one byte. -/
def oidf (o : Bytes) : Option Bytes := if o.length < 256 then some (UInt8.ofNat o.length :: o) else none

namespace DocHeader

variable (h : DocHeader)

/-- What the associated data binds of a type; `none` where a bound field is missing, and for a config
without keys. -/
def bind (keys : Option EpochKeys) : Option Bytes :=
  match h.kind with
  | .issue | .patch => h.number.map fun n => toBe 4 n.toNat
  | .comment | .event | .authorEvent => h.targetId.map Subtype.val
  | .review => h.patchId.map Subtype.val
  | .refUpdate | .protectedRefUpdate => do
    let hash ← h.refNameHash
    let newOid ← h.newOid
    let newOid ← oidf newOid
    let prevOid ← oidf (h.prevOid.getD [])
    return hash.val ++ newOid ++ prevOid ++ [if h.force.getD false then 1 else 0]
  | .config => keys.map fun k => k.commit.val
  | .release => h.tagName.map utf8

end DocHeader

/-- `"dash-forge/v2/doc" ‖ 0x00 ‖ version ‖ repoId ‖ $ownerId ‖ u32(epoch) ‖ docType ‖ 0x00 ‖ bind`. -/
def buildAd (repoId ownerId : Bytes32) (epoch : UInt32) (version : UInt8) (docType : String) (bind : Bytes) : Bytes :=
  utf8 "dash-forge/v2/doc" ++ [0] ++ [version] ++ repoId.val ++ ownerId.val ++ toBe 4 epoch.toNat ++
    utf8 docType ++ [0] ++ bind

namespace DocHeader

variable (h : DocHeader)

/-- The associated data under the keys of an epoch. -/
def ad (keys : EpochKeys) (version : UInt8) : Option Bytes :=
  (h.bind (some keys)).map (buildAd keys.repoId h.ownerId h.epoch version (typeName h.kind))

/-- The associated data at the document's own epoch, without keys. -/
def adIn (repoId : Bytes32) (version : UInt8) : Option Bytes :=
  (h.bind none).map (buildAd repoId h.ownerId h.epoch version (typeName h.kind))

end DocHeader

/-! ### Versions and sizes -/

/-- `enc` of the content types of a private repository. -/
def v1 : UInt8 := 0x01
/-- A key for each object. -/
def v3 : UInt8 := 0x03
/-- A letter to specific people. -/
def v4 : UInt8 := 0x04
/-- A bot's post. -/
def v5 : UInt8 := 0x05
def firstUnknown : UInt8 := 0x06
def minV1 : ℕ := 1 + nonceLen + Sealed.tagLen
def minV3 : ℕ := 1 + nonceLen + 32 + Sealed.tagLen

def DocHeader.version (h : DocHeader) : UInt8 := if h.kind = .config then v2 else v1

/-- Whether a config must carry the fields of the epoch below; being the anchor does not matter. -/
def anchorWithPrev (header : DocHeader) (_isAnchor : Bool) : Bool := header.kind = .config ∧ 1 ≤ header.epoch

/-- Every hash of a ref name on the document is the hash of the name inside. -/
def refNamesMatch (c : Crypto) (header : DocHeader) (fields : Fields) (keys : EpochKeys) (version : UInt8) : Bool :=
  let check (hash : Option Bytes32) (name : Option String) (publicOk : Bool) : Bool :=
    match hash, name with
    | some h, some n => h = keys.refNameHash c n ∨ publicOk ∧ h = c.sha256 (utf8 n)
    | some _, none => false
    | none, _ => true
  match header.kind with
  | .refUpdate | .protectedRefUpdate => check header.refNameHash fields.refName false
  | .patch =>
    let publicOk := version = v3
    check header.baseRefNameHash fields.baseRefName publicOk &&
      check header.sourceRefNameHash fields.sourceRefName publicOk
  | _ => true

/-! ### Writers -/

/-- Why a document is not sealed. -/
inductive PrivateError where
  | malformed
  | tooLarge (type : String) (max : ℕ)
deriving DecidableEq, Repr

abbrev Io (α : Type) : Type := Except (Fault PrivateError) α

def fail {α : Type} (e : PrivateError) : Io α := .error (.err e)

section Writers

variable (c : Crypto) (keys : EpochKeys) (header : DocHeader) (fields : Fields)

def sealInner (isAnchor : Bool) (nonce : Bytes → Bytes → Bytes) : Io Bytes :=
  -- public content is never v0x01; configs are v0x02 everywhere
  if header.epoch ≠ keys.epoch ∨ header.vis = .public_ ∧ header.kind ≠ .config then fail .malformed
  else do
    let pt := encode fields
    let parsed ← orErr (parse pt header.kind (anchorWithPrev header isAnchor)) .malformed
    if !refNamesMatch c header parsed keys v1 then fail .malformed
    else
      let version := header.version
      let overhead := if version = v2 then minV2 else minV1
      let max := maxEnc header.kind - overhead
      if max < pt.length then fail (.tooLarge (typeName header.kind) max)
      else do
        let ad ← orErr (header.ad keys version) .malformed
        let n := nonce ad pt
        let ct ← orErr (c.gcm.encrypt keys.doc.val n ad pt) .malformed
        return version :: ((if version = v2 then keys.commit.val else []) ++ n ++ ct)

/-- Seal a document of a private repository, or a config. -/
def seal_ (rnd : Bytes32) : Io Bytes :=
  sealInner c keys header fields (header.kind = .config ∧ fields.prevEpoch.isSome) (keys.hedgedNonce c rnd)

/-- Whether the records of a type are padded. -/
def pads (kind : DocKind) : Bool := kind = .issue ∨ kind = .patch ∨ kind = .comment ∨ kind = .review

/-- The records, and after them the padding when the type pads and it fits. -/
def padded (kind : DocKind) (records : Bytes) (max : ℕ) : Io Bytes :=
  if pads kind then
    match padRecord records.length max with
    | .ok r => .ok (records ++ r)
    | .error _ => .error .panic
  else .ok records

/-- The envelope of records that were parsed back as `parsed`. -/
def v3Envelope (records : Bytes) (parsed : Fields) (nonce : Bytes → Bytes → Bytes) : Io Bytes :=
  if header.epoch ≠ keys.epoch ∨ header.kind = .config ∨ header.kind = .release then fail .malformed
  else if !refNamesMatch c header parsed keys v3 then fail .malformed
  else
    let max := maxEnc header.kind - minV3
    if max < records.length then fail (.tooLarge (typeName header.kind) max)
    else do
      let pt ← padded header.kind records max
      let ad ← orErr (header.ad keys v3) .malformed
      let n := nonce ad pt
      let obj := ObjKeys.derive c keys.repoId (keys.objKey c n ad)
      let ct ← orErr (c.gcm.encrypt obj.doc.val n (ad ++ obj.commit.val) pt) .malformed
      return v3 :: (n ++ obj.commit.val ++ ct)

/-- Seal members-only content of a public repository. -/
def sealMembers (rnd : Bytes32) : Io Bytes :=
  if header.vis ≠ .public_ then fail .malformed
  else do
    let records := encode fields
    let parsed ← orErr (parseMembers records header.kind) .malformed
    v3Envelope c keys header records parsed (keys.hedgedNonce c rnd)

/-- Seal a document of a private repository with a key of its own. -/
def sealPrivateV3 (rnd : Bytes32) : Io Bytes :=
  if header.vis ≠ .private_ then fail .malformed
  else do
    let records := encode fields
    let parsed ← orErr (parse records header.kind false) .malformed
    v3Envelope c keys header records parsed (keys.hedgedNonce c rnd)

end Writers

/-! ### Readers -/

/-- Why a document that is well framed is not shown. -/
inductive Unreadable where
  | noEpoch
  | noKey
  | commitMismatch
  | badTag
  | late
  | lateEdit
  | earlierUse
  | letter
  | unknownVersion
  | notABot
deriving DecidableEq, Repr

inductive Opened where
  | readable (fields : Fields)
  | unreadable (why : Unreadable)
  | malformed
deriving DecidableEq

/-- The anchor of an epoch. -/
structure AnchorRef where
  id : Bytes32
  height : ℕ
  /-- The height at which the key of the epoch was first stated. -/
  statedHeight : ℕ

/-- What a reader knows. -/
structure OpenContext where
  keys : SortedMap ℕ EpochKeys
  anchors : SortedMap ℕ AnchorRef
  members : Finset Bytes32
  burned : Finset ℕ
  bots : Finset Bytes32

def graceBlocks : ℕ := 240

/-- Whether content of someone who is not a member now was written after the key was superseded. -/
def isLate (anchors : SortedMap ℕ AnchorRef) (burned : Finset ℕ) (epoch : UInt32) (height : ℕ)
    (currentMember : Bool) : Bool :=
  if currentMember then false
  else if epoch.toNat ∈ burned then true
  else
    (anchors.entries.find? fun a => epoch.toNat < a.1).any fun a =>
      satAdd a.2.statedHeight graceBlocks < height

def OpenContext.isLate (ctx : OpenContext) (epoch : UInt32) (height : ℕ) (owner : Bytes32) : Bool :=
  Doc.isLate ctx.anchors ctx.burned epoch height (owner ∈ ctx.members)

/-- An envelope of a version that is not known here. -/
def isUnknownVersion (kind : DocKind) (enc : Bytes) : Bool :=
  ¬(kind = .config ∨ kind = .release) ∧ enc.head?.any fun v => firstUnknown ≤ v

def maxRecipients : ℕ := 16

/-- Whether a letter is well framed. -/
def letterWellFramed (header : DocHeader) (enc : Bytes) : Bool :=
  let n := (enc.getD 1 0).toNat
  header.epoch = 0 ∧ letterKind header.kind ∧ 38 ≤ enc.length ∧ enc.head? = some v4 ∧ 1 ≤ n ∧ n ≤ maxRecipients ∧
    38 + 64 * n + nonceLen + Sealed.tagLen ≤ enc.length

/-- The kinds a bot posts. -/
def postsKind (kind : DocKind) : Bool := kind = .issue ∨ kind = .comment ∨ kind = .review

def postWellFramed (header : DocHeader) (enc : Bytes) : Bool :=
  enc.head? = some v5 ∧ minV3 ≤ enc.length ∧ postsKind header.kind

/-- The length and version of an `enc` for the kind and visibility of its document. -/
def wellFramed (header : DocHeader) (enc : Bytes) : Bool :=
  match enc.head? with
  | none => false
  | some version =>
    match header.kind with
    | .config => minV2 ≤ enc.length ∧ version = v2
    | .release => false
    | _ =>
      if version = v1 ∧ header.vis = .private_ then minV1 ≤ enc.length
      else if version = v3 then minV3 ≤ enc.length
      else if version = v4 then letterWellFramed header enc
      else if version = v5 then postWellFramed header enc
      else false

section Readers

variable (c : Crypto)

/-- The nonce, commitment and ciphertext of an envelope with a key of its own. -/
def v3Parts (enc : Bytes) : Bytes × Bytes × Bytes :=
  let rest := (enc.drop 1).drop nonceLen
  ((enc.drop 1).take nonceLen, rest.take 32, rest.drop 32)

/-- The fields of a plaintext, by the visibility of its document. -/
def parseBy (header : DocHeader) (pt : Bytes) : Option Fields :=
  if header.vis = .public_ then parseMembers pt header.kind else parse pt header.kind false

def decryptMembers (keys : EpochKeys) (header : DocHeader) (enc : Bytes) : Opened :=
  match header.ad keys v3 with
  | none => .malformed
  | some ad =>
    let (nonce, commit, ct) := v3Parts enc
    let obj := ObjKeys.derive c keys.repoId (keys.objKey c nonce ad)
    if obj.commit.val ≠ commit then .unreadable .commitMismatch
    else
      match c.gcm.decrypt obj.doc.val nonce (ad ++ commit) ct with
      | none => .unreadable .badTag
      | some pt =>
        match parseBy header pt with
        | none => .malformed
        | some fields => if refNamesMatch c header fields keys v3 then .readable fields else .malformed

def decrypt (keys : EpochKeys) (header : DocHeader) (enc : Bytes) (isAnchor : Bool) : Opened :=
  let version := enc.headD 0
  if version = v3 then decryptMembers c keys header enc
  else if version = v4 then .unreadable .letter
  -- a bot's post opens in the reading layer only, which knows the bots
  else if version = v5 then .malformed
  else if version = v2 ∧ keys.commit.val ≠ (enc.drop 1).take 32 then .unreadable .commitMismatch
  else
    let body := if version = v2 then enc.drop 33 else enc.drop 1
    match header.ad keys version with
    | none => .malformed
    | some ad =>
      match c.gcm.decrypt keys.doc.val (body.take nonceLen) ad (body.drop nonceLen) with
      | none => .unreadable .badTag
      | some pt =>
        match parse pt header.kind (anchorWithPrev header isAnchor) with
        | none => .malformed
        | some fields => if refNamesMatch c header fields keys version then .readable fields else .malformed

/-- Open a bot's post. -/
def openPost (post : PostKey) (header : DocHeader) (enc : Bytes) : Opened :=
  if !postWellFramed header enc then .malformed
  else if ¬(header.ownerId = post.bot ∧ header.epoch = post.epoch) then .unreadable .noKey
  else
    match header.adIn post.repoId v5 with
    | none => .unreadable .commitMismatch
    | some ad =>
      let (nonce, commit, ct) := v3Parts enc
      let obj := ObjKeys.derive c post.repoId (post.objKey c nonce ad)
      if obj.commit.val ≠ commit then .unreadable .commitMismatch
      else
        match c.gcm.decrypt obj.doc.val nonce (ad ++ commit) ct with
        | none => .unreadable .badTag
        | some pt => (parseBy header pt).elim .malformed .readable

/-- The late rule on a document that opened. -/
def judgeLate (ctx : OpenContext) (header : DocHeader) (fields : Fields) : Opened :=
  match header.kind with
  | .event => .readable fields
  | .authorEvent =>
    let height := header.createdAtBlockHeight.getD u64Max
    if ctx.isLate header.epoch height header.ownerId then .unreadable .late else .readable fields
  | _ =>
    match header.createdAtBlockHeight with
    | none => .malformed
    | some created =>
      if ctx.isLate header.epoch created header.ownerId then .unreadable .late
      else
        -- an edit is as late as its last write
        let edited := header.updatedAtBlockHeight.filter fun u => created < u
        if edited.any fun u => ctx.isLate header.epoch u header.ownerId then .unreadable .lateEdit
        else .readable fields

def openContent (ctx : OpenContext) (header : DocHeader) (enc : Bytes) : Opened :=
  if isUnknownVersion header.kind enc then .unreadable .unknownVersion
  else if !wellFramed header enc then .malformed
  else if enc.head? = some v4 then .unreadable .letter
  else
    match ctx.anchors.lookup header.epoch.toNat, ctx.keys.lookup header.epoch.toNat with
    | none, _ => .unreadable .noEpoch
    | some _, none => .unreadable .noKey
    | some anchor, some keys =>
      let opened :=
        if enc.head? = some v5 then
          if header.ownerId ∉ ctx.bots then .unreadable .notABot
          else openPost c (PostKey.derive c keys header.ownerId) header enc
        else decrypt c keys header enc (header.id = some anchor.id)
      match opened with
      | .readable fields => judgeLate ctx header fields
      | other => other

end Readers

end DashForge.Doc
