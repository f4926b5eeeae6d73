import DashForge.Private.KeyLetter
import DashForge.Rules.RefName

/-!
# Branch and read letters

Two of the types a letter's body has (`private/key_letter/mod.rs`, `private/key_letter/read.rs`): a members-only
branch handed to someone outside its audience, and a thread handed to a bot for one request. Each is written as
one typed body and read back from that body only (`BranchLetter.fromTyped_eq_some_iff`,
`ReadLetter.fromTyped_eq_some_iff`).
-/

namespace DashForge.KeyLetter

open Doc (Bytes32 Crypto)
open JsonValue (asArray_eq_some asStr_eq_some asU64_eq_some)
open Option (bind_eq_bind bind_eq_some_iff map_eq_some_iff)
open List SortedMap

/-! ### Hex values -/

/-- Lowercase hex of so many bytes. -/
def hexExact (v : JsonValue) (n : ℕ) : Option Bytes := do
  let s ← v.asStr
  guard (s.utf8ByteSize = 2 * n ∧ s.toList.all fun c => !c.isUpper)
  hexDecode s

def hex32 (v : JsonValue) : Option Bytes32 :=
  (hexExact v 32).bind fun b => if h : b.length = 32 then some ⟨b, h⟩ else none

/-- A value that is the hex of some bytes. -/
def hexValue (b : Bytes) : JsonValue := .string (hexEncode b)

theorem hexExact_eq_some_iff {v : JsonValue} {n : ℕ} {b : Bytes} :
    hexExact v n = some b ↔ v = hexValue b ∧ b.length = n := by
  simp only [hexExact, bind_eq_some, asStr_eq_some, guard_eq_some_iff]
  constructor
  · rintro ⟨s, rfl, _, h, hdecode⟩
    have hlower : ∀ c ∈ s.toList, c.isUpper = false := fun c hc => by
      simpa using all_eq_true.mp h.2 c hc
    obtain rfl := hexDecode_eq_some_iff.mp ⟨hdecode, hlower⟩
    have hsize := h.1
    rw [utf8ByteSize_hexEncode] at hsize
    exact ⟨rfl, by omega⟩
  · rintro ⟨rfl, rfl⟩
    obtain ⟨hdecode, hlower⟩ := hexDecode_eq_some_iff.mpr (rfl : hexEncode b = hexEncode b)
    refine ⟨hexEncode b, rfl, (), ⟨utf8ByteSize_hexEncode b, all_eq_true.mpr fun c hc => ?_⟩, hdecode⟩
    rw [hlower c hc]
    rfl

theorem hex32_eq_some_iff {v : JsonValue} {b : Bytes32} : hex32 v = some b ↔ v = hexValue b.val := by
  rw [hex32, bind_eq_some_iff]
  constructor
  · rintro ⟨b', hb', h⟩
    split at h
    · obtain rfl := Option.some.inj h
      exact (hexExact_eq_some_iff.mp hb').1
    · cases h
  · rintro rfl
    exact ⟨b.val, hexExact_eq_some_iff.mpr ⟨rfl, b.2⟩, dif_pos b.2⟩

/-! ### Readers -/

section Readers

variable {β : Type} {read : JsonValue → Option β} {write : β → JsonValue} {P : β → Prop}

/-- What is read, is read from the value it is written as; what may be written, is read back. -/
def IsReader (read : JsonValue → Option β) (write : β → JsonValue) (P : β → Prop) : Prop :=
  ∀ v b, read v = some b ↔ v = write b ∧ P b

theorem isReader_hex32 : IsReader hex32 (fun b => hexValue b.val) fun _ => True := fun _ _ => by
  rw [hex32_eq_some_iff, and_true]

theorem isReader_asU64 : IsReader JsonValue.asU64 JsonValue.nat fun _ => True := fun _ _ => by
  rw [asU64_eq_some, and_true]

theorem isReader_asStr : IsReader JsonValue.asStr JsonValue.string fun _ => True := fun _ _ => by
  rw [asStr_eq_some, and_true]

/-- An array, every item read. -/
def listOf (read : JsonValue → Option β) (v : JsonValue) : Option (List β) :=
    v.asArray.bind fun items => items.mapM read

theorem IsReader.mapM (h : IsReader read write P) {l : List JsonValue} {bs : List β} :
    l.mapM read = some bs ↔ l = bs.map write ∧ ∀ b ∈ bs, P b := by
  induction l generalizing bs with
  | nil => cases bs <;> simp
  | cons a l ih =>
    simp only [mapM_cons, bind_eq_some, Option.pure_def, Option.some.injEq]
    constructor
    · rintro ⟨b, hb, bs', hbs', rfl⟩
      obtain ⟨rfl, hP⟩ := (h a b).mp hb
      obtain ⟨rfl, hall⟩ := ih.mp hbs'
      exact ⟨rfl, forall_mem_cons.mpr ⟨hP, hall⟩⟩
    · rintro ⟨heq, hall⟩
      cases bs with
      | nil => cases heq
      | cons b bs =>
        obtain ⟨rfl, rfl⟩ := List.cons.inj heq
        obtain ⟨hP, hall⟩ := forall_mem_cons.mp hall
        exact ⟨b, (h _ b).mpr ⟨rfl, hP⟩, bs, ih.mpr ⟨rfl, hall⟩, rfl⟩

theorem IsReader.listOf (h : IsReader read write P) :
    IsReader (listOf read) (fun bs => .array (bs.map write)) fun bs => ∀ b ∈ bs, P b := by
  intro v bs
  rw [KeyLetter.listOf, bind_eq_some_iff]
  constructor
  · rintro ⟨items, hitems, hbs⟩
    obtain ⟨rfl, hP⟩ := h.mapM.mp hbs
    exact ⟨asArray_eq_some.mp hitems, hP⟩
  · rintro ⟨rfl, hP⟩
    exact ⟨_, JsonValue.asArray_array _, h.mapM.mpr ⟨rfl, hP⟩⟩

/-- A field of a body. -/
def field (f : SortedMap String JsonValue) (key : String) (read : JsonValue → Option β) : Option β :=
  (f.lookup key).bind read

theorem IsReader.field (h : IsReader read write P) (f : SortedMap String JsonValue) (key : String) (b : β) :
    field f key read = some b ↔ f.lookup key = some (write b) ∧ P b := by
  rw [KeyLetter.field, bind_eq_some_iff]
  constructor
  · rintro ⟨v, hv, hb⟩
    obtain ⟨rfl, hP⟩ := (h v b).mp hb
    exact ⟨hv, hP⟩
  · rintro ⟨hv, hP⟩
    exact ⟨_, hv, (h _ b).mpr ⟨rfl, hP⟩⟩

/-- A body written with some fields has each of them and no other. -/
theorem has_fields {l : List (String × JsonValue)} (hnodup : (l.map Prod.fst).Nodup) :
    (∀ x ∈ l, (ofList l).lookup x.1 = some x.2) ∧ l.length = (ofList l).entries.length ∧
      ((l.map Prod.fst).all fun k => ((ofList l).lookup k).isSome) = true := by
  have hlookup : ∀ x ∈ l, (ofList l).lookup x.1 = some x.2 := fun x hx => (lookup_ofList hnodup).mpr hx
  refine ⟨hlookup, (perm_ofList hnodup).length_eq, all_eq_true.mpr fun k hk => ?_⟩
  obtain ⟨x, hx, rfl⟩ := mem_map.mp hk
  rw [hlookup x hx]
  rfl

end Readers

/-! ### Heads and packs -/

/-- A members-only branch's head. -/
@[ext]
structure LetterHead where
  blind : Bytes
  oid : Bytes
  salt : Bytes32
deriving DecidableEq

/-- One members-only pack with its file key. -/
structure LetterPack where
  packHash : Bytes32
  key : Bytes32
deriving DecidableEq

def headValue (h : LetterHead) : JsonValue := .array [hexValue h.blind, hexValue h.oid, hexValue h.salt.val]

def headOf (v : JsonValue) : Option LetterHead := do
  let [blindV, oidV, saltV] ← v.asArray | none
  let oid ← hexExact oidV ((← oidV.asStr).utf8ByteSize / 2)
  return { blind := ← hexExact blindV oid.length, oid, salt := ← hex32 saltV }

def packValue (p : LetterPack) : JsonValue := .array [hexValue p.packHash.val, hexValue p.key.val]

def packOf (v : JsonValue) : Option LetterPack := do
  let [hash, key] ← v.asArray | none
  return { packHash := ← hex32 hash, key := ← hex32 key }

theorem isReader_headOf : IsReader headOf headValue fun h => h.blind.length = h.oid.length := by
  intro v h
  simp only [headOf, bind_eq_bind, bind_eq_some_iff, asArray_eq_some]
  constructor
  · rintro ⟨items, rfl, hread⟩
    split at hread
    · next blindV oidV saltV =>
      simp only [bind_eq_some_iff, hexExact_eq_some_iff, hex32_eq_some_iff, Option.pure_def,
        Option.some.injEq] at hread
      obtain ⟨_, -, oid, ⟨rfl, -⟩, blind, ⟨rfl, hlength⟩, salt, rfl, rfl⟩ := hread
      exact ⟨rfl, hlength⟩
    · cases hread
  · rintro ⟨rfl, hlength⟩
    refine ⟨_, rfl, ?_⟩
    simp only [bind_eq_some_iff, hexExact_eq_some_iff, hex32_eq_some_iff, Option.pure_def, Option.some.injEq]
    have hsize : h.oid.length = (hexEncode h.oid).utf8ByteSize / 2 := by
      rw [utf8ByteSize_hexEncode]
      omega
    exact ⟨_, asStr_eq_some.mpr rfl, h.oid, ⟨rfl, hsize⟩, h.blind, ⟨rfl, hlength⟩, h.salt, rfl, rfl⟩

theorem isReader_packOf : IsReader packOf packValue fun _ => True := by
  intro v p
  simp only [packOf, bind_eq_bind, bind_eq_some_iff, asArray_eq_some]
  constructor
  · rintro ⟨items, rfl, hread⟩
    split at hread
    · next hash key =>
      simp only [bind_eq_some_iff, hex32_eq_some_iff, Option.pure_def, Option.some.injEq] at hread
      obtain ⟨hash, rfl, key, rfl, rfl⟩ := hread
      exact ⟨rfl, trivial⟩
    · cases hread
  · rintro ⟨rfl, -⟩
    refine ⟨_, rfl, ?_⟩
    simp only [bind_eq_some_iff, hex32_eq_some_iff, Option.pure_def, Option.some.injEq]
    exact ⟨p.packHash, rfl, p.key, rfl, rfl⟩

section Letters

variable (c : Crypto)

/-- The key that names a members-only commit's check runs. -/
def checkNameKey (salt : Bytes32) : Bytes32 := c.hmac salt (utf8 "dash-forge/v2/check-name")

/-- A head that is a checked blind of a commit. -/
def headChecks (h : LetterHead) : Bool :=
  Tlv.isOidWidth h.oid.length && !Blind.isNull h.oid && (Blind.blind c.sha256 h.salt.val h.oid).any (· = h.blind)

theorem length_blind_of_headChecks {h : LetterHead} (hchecks : headChecks c h = true) :
    h.blind.length = h.oid.length := by
  simp only [headChecks, Bool.and_eq_true, Option.any_eq_true, decide_eq_true_eq] at hchecks
  obtain ⟨⟨hwidth, -⟩, b, hb, rfl⟩ := hchecks
  rw [Blind.blind, if_pos hwidth] at hb
  have hlength := (c.sha256 (Blind.domain ++ h.salt.val ++ h.oid)).2
  simp only [Tlv.isOidWidth, decide_eq_true_eq] at hwidth
  rw [← Option.some.inj hb, length_take, hlength]
  omega

/-! ### Branch letters -/

/-- A members-only branch as it was when it was shared. -/
@[ext]
structure BranchLetter where
  name : String
  refNameHash : Bytes32
  head : LetterHead
  packs : List LetterPack
  asOf : UInt64

/-- A ref git could create. -/
def isGitRefName (name : String) : Bool :=
  isLegalRefName name && !(name.toList.splitOn '/').any fun c => ".lock".toList <:+ c

/-- A control character (`char::is_control`). -/
def isControl (c : Char) : Bool := c.toNat < 0x20 || (0x7f ≤ c.toNat && c.toNat ≤ 0x9f)

def validBranchName (name : String) : Bool :=
  isGitRefName name && "refs/heads/".toList <+: name.toList && name ≠ "refs/heads/HEAD" &&
    !name.toList.any isControl

/-- Packs in order of their hashes, each once. -/
def packsSorted (packs : List LetterPack) : Bool :=
  (packs.zip packs.tail).all fun w => w.1.packHash.val < w.2.packHash.val

namespace BranchLetter

def wellFormed (b : BranchLetter) : Bool :=
  headChecks c b.head && (b.packs ≠ [] && packsSorted b.packs) && validBranchName b.name && b.asOf.toNat ≤ maxInt

def typeBranch : String := "branch"

/-- The fields of a branch letter. -/
def fields (b : BranchLetter) : List (String × JsonValue) :=
  [("asOf", .nat b.asOf), ("checkNameKey", hexValue (checkNameKey c b.head.salt).val), ("head", headValue b.head),
    ("name", .string b.name), ("packs", .array (b.packs.map packValue)), ("refNameHash", hexValue b.refNameHash.val)]

def fieldNames : List String := ["asOf", "checkNameKey", "head", "name", "packs", "refNameHash"]

def toTyped (b : BranchLetter) : Option TypedLetter :=
  if b.wellFormed c then some { kind := typeBranch, v := 1, fields := .ofList (b.fields c) } else none

/-- The letter of a body's fields, its check-name key apart. -/
def ofFields (f : SortedMap String JsonValue) : Option BranchLetter := do
  let head ← field f "head" headOf
  let packs ← field f "packs" (listOf packOf)
  let name ← field f "name" JsonValue.asStr
  let refNameHash ← field f "refNameHash" hex32
  let asOf ← field f "asOf" JsonValue.asU64
  return { name, refNameHash, head, packs, asOf }

def fromTyped (t : TypedLetter) : Option BranchLetter := do
  guard (t.kind = typeBranch ∧ t.v = 1 ∧ t.fields.entries.length = fieldNames.length)
  guard (fieldNames.all fun k => (t.fields.lookup k).isSome)
  let letter ← ofFields t.fields
  let key ← field t.fields "checkNameKey" hex32
  if letter.wellFormed c && key = checkNameKey c letter.head.salt then some letter else none

theorem ofFields_eq_some_iff {f : SortedMap String JsonValue} {b : BranchLetter} : ofFields f = some b ↔
    (f.lookup "head" = some (headValue b.head) ∧ f.lookup "packs" = some (.array (b.packs.map packValue)) ∧
      f.lookup "name" = some (.string b.name) ∧ f.lookup "refNameHash" = some (hexValue b.refNameHash.val) ∧
      f.lookup "asOf" = some (.nat b.asOf)) ∧ b.head.blind.length = b.head.oid.length := by
  simp only [ofFields, bind_eq_some, Option.pure_def, Option.some.injEq,
    isReader_headOf.field, isReader_packOf.listOf.field, isReader_asStr.field, isReader_hex32.field,
      isReader_asU64.field]
  constructor
  · rintro ⟨head, ⟨hhead, hlength⟩, packs, ⟨hpacks, -⟩, name, ⟨hname, -⟩, hash, ⟨hhash, -⟩, asOf, ⟨hasOf, -⟩, rfl⟩
    exact ⟨⟨hhead, hpacks, hname, hhash, hasOf⟩, hlength⟩
  · rintro ⟨⟨hhead, hpacks, hname, hhash, hasOf⟩, hlength⟩
    exact ⟨_, ⟨hhead, hlength⟩, _, ⟨hpacks, fun _ _ => trivial⟩, _, ⟨hname, trivial⟩, _,
      ⟨hhash, trivial⟩, _, ⟨hasOf, trivial⟩,
      rfl⟩

theorem nodup_fields (b : BranchLetter) : ((b.fields c).map Prod.fst).Nodup :=
  show fieldNames.Nodup by decide

/-- A branch letter is read from the typed body it is written as, and from no other. -/
theorem fromTyped_eq_some_iff {t : TypedLetter} {b : BranchLetter} : fromTyped c t = some b ↔ b.toTyped c = some t := by
  simp only [fromTyped, toTyped, bind_eq_some, guard_eq_some_iff, Bool.and_eq_true,
    decide_eq_true_eq, Option.ite_none_right_eq_some, Option.some.injEq, isReader_hex32.field]
  constructor
  · rintro ⟨_, ⟨hkind, hv, hlength⟩, _, -, letter, hletter, key, ⟨hkey, -⟩, ⟨hwell, rfl⟩, rfl⟩
    obtain ⟨⟨hhead, hpacks, hname, hhash, hasOf⟩, -⟩ := ofFields_eq_some_iff.mp hletter
    have hfields : ∀ x ∈ letter.fields c, t.fields.lookup x.1 = some x.2 := by
      simp only [fields, forall_mem_cons, not_mem_nil, false_imp_iff, implies_true, and_true]
      exact ⟨hasOf, hkey, hhead, hname, hpacks, hhash⟩
    have heq : t.fields = .ofList (letter.fields c) := eq_ofList (nodup_fields c letter) hlength hfields
    exact ⟨hwell, TypedLetter.ext hkind.symm hv.symm heq.symm⟩
  · rintro ⟨hwell, rfl⟩
    obtain ⟨hlookup, hlength, hsome⟩ := has_fields (nodup_fields c b)
    generalize ofList (b.fields c) = m at hlookup hlength hsome
    simp only [fields, forall_mem_cons, not_mem_nil, false_imp_iff, implies_true, and_true] at hlookup
    obtain ⟨hasOf, hkey, hhead, hname, hpacks, hhash⟩ := hlookup
    have hchecks := hwell
    simp only [wellFormed, Bool.and_eq_true] at hchecks
    have hletter : ofFields m = some b := ofFields_eq_some_iff.mpr
      ⟨⟨hhead, hpacks, hname, hhash, hasOf⟩, length_blind_of_headChecks c hchecks.1.1.1⟩
    exact ⟨(), ⟨rfl, rfl, hlength.symm⟩, (), hsome, b, hletter, _, ⟨hkey, trivial⟩, ⟨hwell, rfl⟩, rfl⟩

end BranchLetter

/-! ### Read letters -/

/-- What a read letter covers. -/
inductive ReadTarget where
  | pr (n : UInt32)
  | issue (n : UInt32)
  | branch (h : Bytes32)
deriving DecidableEq

namespace ReadTarget

def toValue (target : ReadTarget) : JsonValue :=
  .object <| SortedMap.empty.insertAll <| match target with
    | .pr n => [("pr", .nat n.toUInt64)]
    | .issue n => [("issue", .nat n.toUInt64)]
    | .branch h => [("branch", hexValue h.val)]

/-- A number of at least 1 that fits 32 bits. -/
def number (v : JsonValue) : Option UInt32 := do
  let n ← v.asU64
  guard (n.toNat < 2 ^ 32 ∧ 1 ≤ n.toNat)
  return n.toUInt32

def fromValue (v : JsonValue) : Option ReadTarget := do
  let m ← v.asObject
  match m.entries with
  | [(k, v)] =>
    if k = "pr" then (number v).map pr
    else if k = "issue" then (number v).map issue
    else if k = "branch" then (hex32 v).map branch
    else none
  | _ => none

def wellFormed : ReadTarget → Bool
  | .pr n => 1 ≤ n.toNat
  | .issue n => 1 ≤ n.toNat
  | .branch _ => true

theorem number_eq_some_iff {v : JsonValue} {n : UInt32} : number v = some n ↔ v = .nat n.toUInt64 ∧ 1 ≤ n.toNat := by
  simp only [number, bind_eq_some, asU64_eq_some, guard_eq_some_iff,
    Option.pure_def, Option.some.injEq]
  constructor
  · rintro ⟨m, rfl, _, ⟨hlt, hpos⟩, rfl⟩
    have hnat : m.toUInt32.toNat = m.toNat := by
      rw [UInt64.toNat_toUInt32]
      omega
    refine ⟨congrArg JsonValue.nat (UInt64.toNat_inj.mp ?_), by omega⟩
    rw [UInt32.toNat_toUInt64, hnat]
  · rintro ⟨rfl, hpos⟩
    have hlt := n.toNat_lt
    refine ⟨n.toUInt64, rfl, (), ⟨?_, ?_⟩, ?_⟩
    · rwa [UInt32.toNat_toUInt64]
    · rwa [UInt32.toNat_toUInt64]
    · simp

theorem isReader_fromValue : IsReader fromValue toValue fun target => target.wellFormed = true := by
  intro v target
  have hsingle : ∀ x : String × JsonValue, (SortedMap.empty.insertAll [x]).entries = [x] := fun _ => rfl
  simp only [fromValue, bind_eq_some, JsonValue.asObject_eq_some]
  constructor
  · rintro ⟨m, rfl, h⟩
    split at h
    · next k v hentries =>
      obtain rfl : m = SortedMap.empty.insertAll [(k, v)] := SortedMap.ext (hentries.trans (hsingle _).symm)
      split_ifs at h with hpr hissue hbranch
      · obtain ⟨n, hn, rfl⟩ := map_eq_some_iff.mp h
        obtain ⟨rfl, hpos⟩ := number_eq_some_iff.mp hn
        exact ⟨by rw [hpr]; rfl, decide_eq_true hpos⟩
      · obtain ⟨n, hn, rfl⟩ := map_eq_some_iff.mp h
        obtain ⟨rfl, hpos⟩ := number_eq_some_iff.mp hn
        exact ⟨by rw [hissue]; rfl, decide_eq_true hpos⟩
      · obtain ⟨hash, hhash, rfl⟩ := map_eq_some_iff.mp h
        obtain rfl := hex32_eq_some_iff.mp hhash
        exact ⟨by rw [hbranch]; rfl, rfl⟩
    · cases h
  · rintro ⟨rfl, hwell⟩
    refine ⟨_, rfl, ?_⟩
    cases target with
    | pr n => exact map_eq_some_iff.mpr ⟨n, number_eq_some_iff.mpr ⟨rfl, of_decide_eq_true hwell⟩, rfl⟩
    | issue n => exact map_eq_some_iff.mpr ⟨n, number_eq_some_iff.mpr ⟨rfl, of_decide_eq_true hwell⟩, rfl⟩
    | branch h => exact map_eq_some_iff.mpr ⟨h, hex32_eq_some_iff.mpr rfl, rfl⟩

end ReadTarget

/-- A members-only document revision with its key. -/
structure LetterDoc where
  id : Bytes32
  revision : UInt64
  key : Bytes32
deriving DecidableEq

def docValue (d : LetterDoc) : JsonValue := .array [hexValue d.id.val, .nat d.revision, hexValue d.key.val]

def docOf (v : JsonValue) : Option LetterDoc := do
  let [id, revision, key] ← v.asArray | none
  return { id := ← hex32 id, revision := ← revision.asU64, key := ← hex32 key }

theorem isReader_docOf : IsReader docOf docValue fun _ => True := by
  intro v d
  simp only [docOf, bind_eq_bind, bind_eq_some_iff, asArray_eq_some]
  constructor
  · rintro ⟨items, rfl, hread⟩
    split at hread
    · next id revision key =>
      simp only [bind_eq_some_iff, hex32_eq_some_iff, asU64_eq_some, Option.pure_def,
        Option.some.injEq] at hread
      obtain ⟨id, rfl, revision, rfl, key, rfl, rfl⟩ := hread
      exact ⟨rfl, trivial⟩
    · cases hread
  · rintro ⟨rfl, -⟩
    refine ⟨_, rfl, ?_⟩
    simp only [bind_eq_some_iff, hex32_eq_some_iff, asU64_eq_some, Option.pure_def, Option.some.injEq]
    exact ⟨d.id, rfl, d.revision, rfl, d.key, rfl, rfl⟩

/-- One thread or branch as it was when a member asked a bot to work on it. -/
@[ext]
structure ReadLetter where
  job : Bytes32
  asOf : UInt64
  target : ReadTarget
  docs : List LetterDoc
  packs : List LetterPack
  heads : List LetterHead

namespace ReadLetter

/-- The check-name key of the first head's salt. -/
def checkNameKey (r : ReadLetter) : Option Bytes32 := r.heads.head?.map fun h => KeyLetter.checkNameKey c h.salt

/-- Documents in order of their id and revision, each once. -/
def docsSorted (docs : List LetterDoc) : Bool :=
  (docs.zip docs.tail).all fun w => w.1.id.val < w.2.id.val ∨ w.1.id = w.2.id ∧ w.1.revision < w.2.revision

def wellFormed (r : ReadLetter) : Bool :=
  ((r.docs.all fun d => 1 ≤ d.revision.toNat && d.revision.toNat ≤ maxInt) && docsSorted r.docs) &&
    packsSorted r.packs &&
    r.target.wellFormed && r.heads.all (headChecks c) && r.asOf.toNat ≤ maxInt

def typeRead : String := "read"

/-- The fields of a read letter. -/
def fields (r : ReadLetter) : List (String × JsonValue) :=
  [("asOf", .nat r.asOf), ("checkNameKey", (r.checkNameKey c).elim .null fun k => hexValue k.val),
    ("docs", .array (r.docs.map docValue)), ("heads", .array (r.heads.map headValue)), ("job", hexValue r.job.val),
    ("packs", .array (r.packs.map packValue)), ("target", r.target.toValue)]

def fieldNames : List String := ["asOf", "checkNameKey", "docs", "heads", "job", "packs", "target"]

def toTyped (r : ReadLetter) : Option TypedLetter :=
  if r.wellFormed c then some { kind := typeRead, v := 1, fields := .ofList (r.fields c) } else none

/-- Whether a value is the check-name key of a letter. -/
def keyOk (v : JsonValue) (key : Option Bytes32) : Bool :=
  match key with
  | none => v.isNull
  | some k => (hex32 v).any (· = k)

/-- The letter of a body's fields, its check-name key apart. -/
def ofFields (f : SortedMap String JsonValue) : Option ReadLetter := do
  let docs ← field f "docs" (listOf docOf)
  let packs ← field f "packs" (listOf packOf)
  let heads ← field f "heads" (listOf headOf)
  let job ← field f "job" hex32
  let asOf ← field f "asOf" JsonValue.asU64
  let target ← field f "target" ReadTarget.fromValue
  return { job, asOf, target, docs, packs, heads }

def fromTyped (t : TypedLetter) : Option ReadLetter := do
  guard (t.kind = typeRead ∧ t.v = 1 ∧ t.fields.entries.length = fieldNames.length)
  guard (fieldNames.all fun k => (t.fields.lookup k).isSome)
  let letter ← ofFields t.fields
  let key ← t.fields.lookup "checkNameKey"
  if keyOk key (letter.checkNameKey c) && letter.wellFormed c then some letter else none

theorem keyOk_iff {v : JsonValue} {key : Option Bytes32} :
    keyOk v key = true ↔ v = key.elim .null fun k => hexValue k.val := by
  cases key with
  | none => exact JsonValue.isNull_iff
  | some k =>
    simp only [keyOk, Option.any_eq_true, hex32_eq_some_iff, decide_eq_true_eq, Option.elim_some]
    exact ⟨fun ⟨k', hv, hk⟩ => hk ▸ hv, fun hv => ⟨k, hv, rfl⟩⟩

theorem nodup_fields (r : ReadLetter) : ((r.fields c).map Prod.fst).Nodup :=
  show fieldNames.Nodup by decide

theorem ofFields_eq_some_iff {f : SortedMap String JsonValue} {r : ReadLetter} : ofFields f = some r ↔
    (f.lookup "docs" = some (.array (r.docs.map docValue)) ∧ f.lookup "packs" = some (.array (r.packs.map packValue)) ∧
      f.lookup "heads" = some (.array (r.heads.map headValue)) ∧ f.lookup "job" = some (hexValue r.job.val) ∧
      f.lookup "asOf" = some (.nat r.asOf) ∧ f.lookup "target" = some r.target.toValue) ∧
      (∀ h ∈ r.heads, h.blind.length = h.oid.length) ∧ r.target.wellFormed = true := by
  simp only [ofFields, bind_eq_some, Option.pure_def, Option.some.injEq,
    isReader_docOf.listOf.field, isReader_packOf.listOf.field, isReader_headOf.listOf.field, isReader_hex32.field,
    isReader_asU64.field, ReadTarget.isReader_fromValue.field]
  constructor
  · rintro ⟨docs, ⟨hdocs, -⟩, packs, ⟨hpacks, -⟩, heads, ⟨hheads, hlength⟩, job, ⟨hjob, -⟩, asOf, ⟨hasOf, -⟩, target,
      ⟨htarget, hwell⟩, rfl⟩
    exact ⟨⟨hdocs, hpacks, hheads, hjob, hasOf, htarget⟩, hlength, hwell⟩
  · rintro ⟨⟨hdocs, hpacks, hheads, hjob, hasOf, htarget⟩, hlength, hwell⟩
    exact ⟨_, ⟨hdocs, fun _ _ => trivial⟩, _, ⟨hpacks, fun _ _ => trivial⟩, _, ⟨hheads, hlength⟩, _, ⟨hjob, trivial⟩, _,
      ⟨hasOf, trivial⟩, _, ⟨htarget, hwell⟩, rfl⟩

/-- A read letter is read from the typed body it is written as, and from no other. -/
theorem fromTyped_eq_some_iff {t : TypedLetter} {r : ReadLetter} : fromTyped c t = some r ↔ r.toTyped c = some t := by
  simp only [fromTyped, toTyped, bind_eq_some, guard_eq_some_iff, Bool.and_eq_true,
    keyOk_iff, Option.ite_none_right_eq_some, Option.some.injEq]
  constructor
  · rintro ⟨_, ⟨hkind, hv, hlength⟩, _, -, letter, hletter, _, hkey, ⟨rfl, hwell⟩, rfl⟩
    obtain ⟨⟨hdocs, hpacks, hheads, hjob, hasOf, htarget⟩, -⟩ := ofFields_eq_some_iff.mp hletter
    have hfields : ∀ x ∈ letter.fields c, t.fields.lookup x.1 = some x.2 := by
      simp only [fields, forall_mem_cons, not_mem_nil, false_imp_iff, implies_true, and_true]
      exact ⟨hasOf, hkey, hdocs, hheads, hjob, hpacks, htarget⟩
    have heq : t.fields = .ofList (letter.fields c) := eq_ofList (nodup_fields c letter) hlength hfields
    exact ⟨hwell, TypedLetter.ext hkind.symm hv.symm heq.symm⟩
  · rintro ⟨hwell, rfl⟩
    obtain ⟨hlookup, hlength, hsome⟩ := has_fields (nodup_fields c r)
    generalize ofList (r.fields c) = m at hlookup hlength hsome
    simp only [fields, forall_mem_cons, not_mem_nil, false_imp_iff, implies_true, and_true] at hlookup
    obtain ⟨hasOf, hkey, hdocs, hheads, hjob, hpacks, htarget⟩ := hlookup
    have hchecks := hwell
    simp only [wellFormed, Bool.and_eq_true, all_eq_true] at hchecks
    have hletter : ofFields m = some r := ofFields_eq_some_iff.mpr ⟨⟨hdocs, hpacks, hheads, hjob, hasOf, htarget⟩,
      fun h hh => length_blind_of_headChecks c (hchecks.1.2 h hh), hchecks.1.1.2⟩
    exact ⟨(), ⟨rfl, rfl, hlength.symm⟩, (), hsome, r, hletter, _, hkey, ⟨rfl, hwell⟩, rfl⟩

end ReadLetter

end Letters

end DashForge.KeyLetter
