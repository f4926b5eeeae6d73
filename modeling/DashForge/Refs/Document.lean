import DashForge.Data.Hex
import DashForge.Private.MembersRef
import DashForge.Rules.RefUpdate

/-!
# Fetched documents

A document as the client reads it from the platform: its system fields and a map from property names to
values (`platform/mod.rs`). The ref rules see ref updates and configs through three views: the content a public
row must have (`gitPlaneWellFormed`), the flattened update (`refUpdateFromDoc`) and the header its sealed fields
are bound to (`headerOf`).

A public update is filed under the digest of its name (`wellFormedIn_refUpdate`).
-/

namespace DashForge

open Doc (Bytes32 DocHeader)
open Tlv (DocKind)

/-- The third-party functions that reading documents rests on. -/
structure PlatformEnv where
  sha256 : Bytes → Bytes32
  /-- `glob_match::glob_match(pattern, text)`. -/
  globMatch : String → String → Bool
  /-- Base58 to an identifier. -/
  decodeIdentifier : String → Option Bytes32

/-- The key a ref name is filed under. -/
def PlatformEnv.nameHash (env : PlatformEnv) (name : String) : Bytes32 := env.sha256 (utf8 name)

def PlatformEnv.toRefEnv (env : PlatformEnv) : RefEnv where
  sha256Hex name := hexEncode (env.nameHash name).val
  globMatch := env.globMatch

/-! ### Fields -/

inductive FieldValue where
  | bytes (b : Bytes)
  | bytes32 (b : Bytes32)
  | identifier (b : Bytes32)
  | integer (n : ℕ)
  | uint64 (n : ℕ)
  | signed (n : ℤ)
  | text (s : String)
  | bool (b : Bool)
  | object (entries : List (String × FieldValue))
  | list (items : List FieldValue)

namespace FieldValue

def asBytes : FieldValue → Option Bytes
  | .bytes b => some b
  | .bytes32 b | .identifier b => some b.val
  | _ => none

def asU64 : FieldValue → Option ℕ
  | .integer n | .uint64 n => some n
  | .signed n => if 0 ≤ n then some n.toNat else none
  | _ => none

def asStr : FieldValue → Option String
  | .text s => some s
  | _ => none

/-- A list of strings; an empty array reads back as empty bytes. -/
def asTextList : FieldValue → Option (List String)
  | .list items => items.mapM asStr
  | .bytes [] => some []
  | _ => none

end FieldValue

/-- A document as it is fetched. -/
structure FetchedDocument where
  id : String
  ownerId : String
  createdAt : Option ℕ
  createdAtBlockHeight : Option ℕ
  updatedAtBlockHeight : Option ℕ
  fields : SortedMap String FieldValue

namespace FetchedDocument

variable (d : FetchedDocument)

def fieldBytes (name : String) : Option Bytes := (d.fields.lookup name).bind FieldValue.asBytes

def fieldBytes32 (name : String) : Option Bytes32 :=
  (d.fieldBytes name).bind fun b => if h : b.length = 32 then some ⟨b, h⟩ else none

def fieldHex (name : String) : Option String := (d.fieldBytes name).map hexEncode

def fieldU64 (name : String) : Option ℕ := (d.fields.lookup name).bind FieldValue.asU64

/-- An integer field that fits 32 bits. -/
def fieldU32 (name : String) : Option UInt32 :=
  (d.fieldU64 name).bind fun n => if n < 2 ^ 32 then some (UInt32.ofNat n) else none

def fieldStr (name : String) : Option String := (d.fields.lookup name).bind FieldValue.asStr

def fieldBool (name : String) : Bool :=
  match d.fields.lookup name with
  | some (.bool b) => b
  | _ => false

def docTextList (name : String) : List String := ((d.fields.lookup name).bind FieldValue.asTextList).getD []

end FetchedDocument

/-! ### Public rows -/

inductive ContentKind where
  | refUpdate
  | config
deriving DecidableEq, Repr

/-- The content view of a ref update or config row. -/
structure ContentDoc where
  kind : ContentKind
  refName : Option String
  refNameHash : Option String
  enc : Option String
deriving DecidableEq, Repr

def present (s : Option String) : Bool := s.any fun s => s ≠ ""

namespace ContentDoc

variable (doc : ContentDoc)

/-- Whether the kind has a required plaintext field, and it is absent. -/
def requiredMissing : Bool :=
  match doc.kind with
  | .refUpdate => !present doc.refName
  | .config => false

/-- Whether the name a ref update carries has the hash it is filed under. -/
def refNameHashesAgree (env : RefEnv) : Bool :=
  match doc.kind, doc.refName with
  | .refUpdate, some n => n = "" || doc.refNameHash.any fun h => refNameHashMatches env n h
  | _, _ => true

/-- Whether a public repository reads the row: the plaintext form only. -/
def gitPlaneWellFormed (env : RefEnv) : Bool :=
  !present doc.enc && !doc.requiredMissing && doc.refNameHashesAgree env

end ContentDoc

def contentOf (kind : ContentKind) (d : FetchedDocument) : ContentDoc where
  kind := kind
  refName := d.fieldStr "refName"
  refNameHash := d.fieldHex "refNameHash"
  enc := (d.fieldHex "enc").filter fun h => h ≠ ""

def wellFormedIn (env : PlatformEnv) (kind : ContentKind) (d : FetchedDocument) : Bool :=
  (contentOf kind d).gitPlaneWellFormed env.toRefEnv

/-- A ref update flattened for the fold. -/
def refUpdateFromDoc (d : FetchedDocument) (hashHex : String) (isProtected : Bool) : RefUpdate where
  id := d.id
  refNameHash := hashHex
  refName := (d.fieldStr "refName").getD ""
  prevOid := (d.fieldHex "prevOid").getD ""
  newOid := (d.fieldHex "newOid").getD ""
  force := d.fieldBool "force"
  isProtected := isProtected
  author := d.ownerId
  createdAt := d.createdAt.getD 0

def configDoc (d : FetchedDocument) : ConfigDoc where
  id := d.id
  createdAt := d.createdAt.getD 0
  protectedPatterns := d.docTextList "protectedPatterns"

/-! ### Sealed rows -/

/-- The header of a fetched document: the plaintext its `enc` is bound to. -/
def headerOf (env : PlatformEnv) (kind : DocKind) (d : FetchedDocument) : Option DocHeader := do
  let owner ← env.decodeIdentifier d.ownerId
  let epoch ← d.fieldU32 "epoch"
  let h : DocHeader :=
    { kind := kind, ownerId := owner, epoch := epoch
      vis := if d.fieldStr "vis" = some "public" then .public_ else .private_
      id := env.decodeIdentifier d.id
      createdAtBlockHeight := d.createdAtBlockHeight
      updatedAtBlockHeight := d.updatedAtBlockHeight }
  match kind with
  | .issue =>
    let _ ← d.fieldU64 "number"
    return { h with number := d.fieldU32 "number" }
  | .patch =>
    let _ ← d.fieldU64 "number"
    return { h with
      number := d.fieldU32 "number"
      baseRefNameHash := d.fieldBytes32 "baseRefNameHash"
      sourceRefNameHash := d.fieldBytes32 "sourceRefNameHash" }
  | .comment | .event | .authorEvent => return { h with targetId := d.fieldBytes32 "targetId" }
  | .review => return { h with patchId := d.fieldBytes32 "patchId" }
  | .refUpdate | .protectedRefUpdate =>
    return { h with
      refNameHash := d.fieldBytes32 "refNameHash"
      newOid := d.fieldBytes "newOid"
      prevOid := d.fieldBytes "prevOid"
      force := some (d.fieldBool "force") }
  | .config => return h
  | .release => return { h with tagName := d.fieldStr "tagName" }

/-! ### The name of a public update -/

section Name

variable {env : PlatformEnv} {d : FetchedDocument}

theorem present_eq_true_iff {s : Option String} : present s = true ↔ ∃ n, s = some n ∧ n ≠ "" := by
  cases s <;> simp [present]

theorem eqIgnoreAsciiCase_hexEncode {b b' : Bytes} :
    eqIgnoreAsciiCase (hexEncode b) (hexEncode b') = true ↔ b = b' := by
  rw [eqIgnoreAsciiCase, beq_iff_eq, toList_hexEncode, toList_hexEncode, toLower_hexDigits, toLower_hexDigits]
  exact ⟨hexDigits_injective, fun h => h ▸ rfl⟩

theorem wellFormedIn_refUpdate (h : wellFormedIn env .refUpdate d = true) :
    ∃ n, d.fieldStr "refName" = some n ∧ d.fieldBytes32 "refNameHash" = some (env.nameHash n) := by
  simp only [wellFormedIn, ContentDoc.gitPlaneWellFormed, ContentDoc.requiredMissing, contentOf, Bool.and_eq_true,
    Bool.not_eq_true', Bool.not_eq_false', present_eq_true_iff] at h
  obtain ⟨⟨-, n, hn, hne⟩, hagree⟩ := h
  refine ⟨n, hn, ?_⟩
  simp only [ContentDoc.refNameHashesAgree, hn, hne, decide_false, Bool.false_or, FetchedDocument.fieldHex,
    Option.any_map, Option.any_eq_true, refNameHashMatches, PlatformEnv.toRefEnv] at hagree
  obtain ⟨b, hb, heq⟩ := hagree
  rw [eqIgnoreAsciiCase_hexEncode] at heq
  subst heq
  simp [FetchedDocument.fieldBytes32, hb, (env.nameHash n).property]

end Name

end DashForge
