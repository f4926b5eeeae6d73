import DashForge.Data.JsonWrite
import DashForge.Env.Dotenv
import DashForge.Private.AccessNotice

/-!
# Environment snapshots as texts

One environment as a snapshot holds it (`env/format.rs`): compact JSON with its keys in order, padded with spaces to
buckets. Two versions are read and written, each with the fields it has; `decode` takes only the bytes that `encode`
makes of what it read. The JSON parser is a parameter.
-/

namespace DashForge.Env

open Json (Printed quote bracket memberText)
open KeyLetter (IsReader field listOf optOf u32Of hexExact hexValue guard_eq_some_iff)
open JsonValue (asObject_object asU64_eq_some isNull_iff)
open List (forall_mem_cons map_map mem_cons not_mem_nil)
open Option (bind_some map_some pure_def)
open Json.Printed (text_array text_string text_struct)
open SortedMap

/-- Snapshots are padded to a multiple of this many bytes. -/
def bucket : ℕ := 512

def maxSnapshot : ℕ := 12288

def maxSafeInt : ℕ := 2 ^ 53 - 1

def maxRecipients : ℕ := 64

def maxRecipientsV1 : ℕ := 16

/-! ### Snapshots -/

/-- How an entry is meant. -/
inductive VarType where
  | secret
  | variable
deriving DecidableEq, Repr

def VarType.asStr : VarType → String
  | .secret => "secret"
  | .variable => "variable"

def VarType.parse (s : String) : Option VarType :=
  if s = "secret" then some .secret else if s = "variable" then some .variable else none

/-- One entry. -/
@[ext]
structure Var where
  value : String
  kind : VarType
  /-- A note for people, empty when there is none. -/
  note : String
deriving DecidableEq, Repr

/-- A role group an environment can be for. -/
inductive Group where
  | maintainers
  | writers
  | members
deriving DecidableEq, Repr

def Group.asStr : Group → String
  | .maintainers => "maintainers"
  | .writers => "writers"
  | .members => "members"

def Group.parse (s : String) : Option Group :=
  if s = "maintainers" then some .maintainers
  else if s = "writers" then some .writers
  else if s = "members" then some .members
  else none

/-- Who can read an environment: a group and people added to it, or specific people. -/
@[ext]
structure Audience where
  group : Option Group
  also : List String
deriving DecidableEq, Repr

/-- The random id of an environment. -/
abbrev EnvId : Type := { b : Bytes // b.length = 16 }

/-- One environment as one snapshot holds it. -/
@[ext]
structure Snapshot where
  /-- 2 for what is written now, 1 for the first format. -/
  version : ℕ
  env : String
  audience : Audience
  /-- None in version 1. -/
  id : Option EnvId
  generatedAt : UInt64
  /-- The removed maintainer whose last values these are. -/
  savedFor : Option String
  /-- The recipients in slot order. -/
  toIds : List String
  /-- The key that each recipient's slot was sealed to. -/
  toKeys : List UInt32
  /-- Names whose values were changed at their source. -/
  markedChanged : List String
  vars : SortedMap String Var

/-- Why a snapshot cannot be written. -/
inductive FormatError where
  | tooLarge (n : ℕ)
  | invalid (why : String)
deriving DecidableEq, Repr

/-- Base58 ids, and how a message quotes a text. -/
structure FormatEnv where
  decodeIdentifier : String → Option Bytes
  encodeIdentifier : Bytes → String
  debug : String → String

/-! ### What a reader checks -/

def validEnvName (name : String) : Bool :=
  decide (1 ≤ name.toList.length ∧ name.toList.length ≤ 64) && name.toList.head?.any Char.isAlphanum &&
    name.toList.all fun c => c.isAlphanum || ['.', '_', '-'].contains c

def validVarName (name : String) : Bool := Dotenv.validVarName name.toList

/-- Strictly ascending. -/
def ascends (l : List String) : Bool := (l.zip l.tail).all fun w => w.1 < w.2

/-- Refuse what was found. -/
def refuseFound (found : Option String) (why : String → String) : Except FormatError Unit :=
  match found with
  | some s => .error (.invalid (why s))
  | none => .ok ()

section Check

variable (env : FormatEnv)

/-- An identity id in its one spelling. -/
def canonicalId (id : String) : Bool := (env.decodeIdentifier id).any fun b => env.encodeIdentifier b == id

def distinctIds (ids : List String) : Bool := ids.all (canonicalId env) && decide ids.Nodup

namespace Snapshot

def checkV1 (s : Snapshot) : Except FormatError Unit := do
  refuseIf (s.id.isSome ∨ s.toKeys ≠ [] ∨ s.markedChanged ≠ [] ∨ s.audience.also ≠ [])
    (.invalid "a version-1 snapshot has no id, keys, marks or added people")
  match s.audience.group with
  | some .members => refuseIf (s.toIds ≠ []) (.invalid "an old-format Members snapshot lists no recipients")
  | some .maintainers =>
    refuseIf (s.toIds = [] ∨ maxRecipientsV1 < s.toIds.length ∨ distinctIds env s.toIds = false)
      (.invalid "a version-1 Maintainers snapshot goes to 1 to 16 different people")
  | _ => .error (.invalid "a version-1 snapshot is for Members or Maintainers")

def checkV2 (s : Snapshot) : Except FormatError Unit := do
  refuseIf (s.id = none) (.invalid "a snapshot needs the environment's id")
  refuseIf (maxRecipients < s.audience.also.length ∨ s.audience.also.all (canonicalId env) = false ∨
      ascends s.audience.also = false)
    (.invalid "the people added are not identity ids in order, each once")
  refuseIf (s.audience.group = none ∧ s.audience.also = []) (.invalid "a Specific-people environment names someone")
  refuseIf (s.toIds = [] ∨ maxRecipients < s.toIds.length ∨ distinctIds env s.toIds = false)
    (.invalid ("an environment goes to 1 to 64 different people, not " ++ toString s.toIds.length))
  refuseIf (s.toKeys.length ≠ s.toIds.length) (.invalid "one key per recipient")
  refuseIf (s.markedChanged.all validVarName = false ∨ ascends s.markedChanged = false)
    (.invalid "the names marked changed are not variable names in order, each once")

def check (s : Snapshot) : Except FormatError Unit := do
  refuseIf (validEnvName s.env = false) (.invalid (env.debug s.env ++ " is not an environment name " ++
    "(1-64 letters, digits, \x60.\x60, \x60_\x60 or \x60-\x60, starting with a letter or digit)"))
  refuseIf (maxSafeInt < s.generatedAt.toNat) (.invalid "generatedAt is out of range")
  refuseFound (s.savedFor.filter fun f => !canonicalId env f) fun f => env.debug f ++ " is not an identity id"
  refuseFound (s.vars.keys.find? fun n => !validVarName n) fun n =>
    env.debug n ++ " is not a variable name (letters, digits and \x60_\x60, not starting with a digit)"
  if s.version = 1 then s.checkV1 env
  else if s.version = 2 then s.checkV2 env
  else .error (.invalid ("version " ++ toString s.version ++ " is not a snapshot version"))

end Snapshot

end Check

/-! ### Writing -/

/-- A JSON array of strings. -/
def pushStrs (items : List String) : List Char := bracket '[' ']' (items.map quote)

/-- A member after another. -/
def more (key : String) (text : List Char) : List Char := ',' :: memberText key text

def Var.text (v : Var) : List Char :=
  '{' :: (if v.note = "" then [] else memberText "note" (quote v.note) ++ [',']) ++
    memberText "type" (quote v.kind.asStr) ++ more "value" (quote v.value) ++ ['}']

namespace Snapshot

def audienceText (s : Snapshot) : List Char :=
  if s.version = 1 then quote (if s.audience.group = some .maintainers then "maintainers" else "members")
  else
    '{' :: memberText "also" (pushStrs s.audience.also) ++
      more "group" (s.audience.group.elim "null".toList fun g => quote g.asStr) ++ ['}']

/-- The JSON text, without padding. -/
def canonical (s : Snapshot) : List Char :=
  '{' :: memberText "audience" s.audienceText ++ more "env" (quote s.env) ++
    more "generatedAt" (Nat.toDigits 10 s.generatedAt.toNat) ++
    (s.id.elim [] fun id => more "id" ('"' :: hexDigits id.val ++ ['"'])) ++
    (if s.markedChanged = [] then [] else more "markedChanged" (pushStrs s.markedChanged)) ++
    (s.savedFor.elim [] fun f => more "savedFor" (quote f)) ++
    (if s.version = 2 ∨ s.audience.group = some .maintainers then more "to" (pushStrs s.toIds) else []) ++
    (if s.version = 2 then more "toKeys" (bracket '[' ']' (s.toKeys.map fun k => Nat.toDigits 10 k.toNat)) else []) ++
    more "v" (Nat.toDigits 10 s.version) ++
    more "vars" (bracket '{' '}' (s.vars.entries.map fun x => memberText x.1 x.2.text)) ++ ['}']

/-- The plaintext of a snapshot. -/
def encode (env : FormatEnv) (s : Snapshot) : Except FormatError Bytes := do
  s.check env
  let raw := utf8 (String.ofList s.canonical)
  refuseIf (maxSnapshot < bucketSize bucket raw.length) (.tooLarge raw.length)
  return padSpaces bucket raw

end Snapshot

/-! ### Reading -/

def u8Of (v : JsonValue) : Option ℕ := do
  let n ← v.asU64
  guard (n.toNat < 2 ^ 8)
  return n.toNat

def strings (v : JsonValue) : Option (List String) := listOf JsonValue.asStr v

def hex16 (v : JsonValue) : Option EnvId :=
  (hexExact v 16).bind fun b => if h : b.length = 16 then some ⟨b, h⟩ else none

/-- A field that may be left out. -/
def fieldOr {β : Type} (f : SortedMap String JsonValue) (key : String) (absent : β)
    (read : JsonValue → Option β) : Option β :=
  match f.lookup key with
  | some v => read v
  | none => some absent

/-- The keys of either version, and those of version 2. -/
def fieldsV1 : List String := ["audience", "env", "generatedAt", "savedFor", "to", "v", "vars"]

def fieldsV2 : List String := ["id", "markedChanged", "toKeys"]

/-- The fields in which the versions differ. -/
structure Parts where
  audience : Audience
  id : Option EnvId
  toKeys : List UInt32
  markedChanged : List String

def partsV1 (obj : SortedMap String JsonValue) : Option Parts := do
  let word ← field obj "audience" JsonValue.asStr
  let group ← if word = "members" then some Group.members else if word = "maintainers" then some .maintainers else none
  return ⟨⟨some group, []⟩, none, [], []⟩

def partsV2 (obj : SortedMap String JsonValue) : Option Parts := do
  let a ← field obj "audience" JsonValue.asObject
  guard (a.entries.length = 2)
  let group ← field a "group" (optOf fun v => v.asStr.bind Group.parse)
  let also ← field a "also" strings
  let id ← field obj "id" hex16
  let toKeys ← field obj "toKeys" (listOf u32Of)
  let markedChanged ← fieldOr obj "markedChanged" [] fun m => (strings m).filter (· ≠ [])
  return ⟨⟨group, also⟩, some id, toKeys, markedChanged⟩

def partsOf (version : ℕ) (obj : SortedMap String JsonValue) : Option Parts :=
  if version = 1 then partsV1 obj else if version = 2 then partsV2 obj else none

def varOf (v : JsonValue) : Option Var := do
  let e ← v.asObject
  guard (∀ k ∈ e.keys, k ∈ ["note", "type", "value"])
  let note ← fieldOr e "note" "" JsonValue.asStr
  let value ← field e "value" JsonValue.asStr
  let kind ← field e "type" fun t => t.asStr.bind VarType.parse
  return { value, kind, note }

def varsOf (v : JsonValue) : Option (SortedMap String Var) := do
  let m ← v.asObject
  let entries ← m.entries.mapM fun x => (varOf x.2).map fun e => (x.1, e)
  return .ofList entries

def fromValue (env : FormatEnv) (v : JsonValue) : Option Snapshot := do
  let obj ← v.asObject
  let version ← field obj "v" u8Of
  guard (∀ k ∈ obj.keys, k ∈ fieldsV1 ∨ version = 2 ∧ k ∈ fieldsV2)
  let parts ← partsOf version obj
  let toIds ← fieldOr obj "to" [] strings
  let vars ← field obj "vars" varsOf
  let savedFor ← fieldOr obj "savedFor" none fun f => f.asStr.map some
  let envName ← field obj "env" JsonValue.asStr
  let generatedAt ← field obj "generatedAt" JsonValue.asU64
  let snap : Snapshot :=
    { version, env := envName, audience := parts.audience, id := parts.id, generatedAt, savedFor, toIds,
      toKeys := parts.toKeys, markedChanged := parts.markedChanged, vars }
  (snap.check env).toOption
  return snap

/-- Read a plaintext: the bytes `encode` makes of a snapshot, and no others. -/
def decode (env : FormatEnv) (parse : Bytes → Option JsonValue) (pt : Bytes) : Option Snapshot := do
  guard (pt ≠ [] ∧ pt.length ≤ maxSnapshot ∧ pt.length % bucket = 0)
  guard (trimSpaces pt ≠ [])
  let value ← parse (trimSpaces pt)
  let snap ← fromValue env value
  let again ← (snap.encode env).toOption
  if again = pt then some snap else none

/-! ### What the text denotes -/

section Out

variable {d : ℕ}

def Var.members (v : Var) : List (String × Option (Printed d)) :=
  [("note", if v.note = "" then none else some (.string v.note)), ("type", some (.string v.kind.asStr)),
    ("value", some (.string v.value))]

def Var.out (v : Var) : Printed (d + 1) := .struct v.members

namespace Snapshot

def audienceOut (s : Snapshot) : Printed (d + 2) :=
  if s.version = 1 then .string (if s.audience.group = some .maintainers then "maintainers" else "members")
  else
    .struct [("also", some (.array (s.audience.also.map .string))),
      ("group", some (s.audience.group.elim .null fun g => .string g.asStr))]

def varsOut (s : Snapshot) : Printed (d + 2) := .struct (s.vars.entries.map fun x => (x.1, some x.2.out))

/-- The members in their order, with none for one that is left out. -/
def members (s : Snapshot) : List (String × Option (Printed (d + 2))) :=
  [("audience", some s.audienceOut), ("env", some (.string s.env)), ("generatedAt", some (.number s.generatedAt)),
    ("id", s.id.map fun id => .string (hexEncode id.val)),
    ("markedChanged", if s.markedChanged = [] then none else some (.array (s.markedChanged.map .string))),
    ("savedFor", s.savedFor.map .string),
    ("to", if s.version = 2 ∨ s.audience.group = some .maintainers then some (.array (s.toIds.map .string)) else none),
    ("toKeys", if s.version = 2 then some (.array (s.toKeys.map fun k => .number k.toUInt64)) else none),
    ("v", some (.number (UInt64.ofNat s.version))), ("vars", some s.varsOut)]

def out (s : Snapshot) : Printed (d + 3) := .struct s.members

end Snapshot

theorem escapeChar_hexDigit : ∀ n < 16, Json.escapeChar (hexDigit n) = [hexDigit n] := by decide

theorem quote_hexEncode (b : Bytes) : quote (hexEncode b) = '"' :: hexDigits b ++ ['"'] := by
  have hdigits : (hexDigits b).flatMap Json.escapeChar = hexDigits b := by
    induction b with
    | nil => rfl
    | cons x b ih =>
      have hx := x.toNat_lt
      simp only [hexDigits, List.flatMap_cons, List.flatMap_append, List.flatMap_nil, List.append_nil] at ih ⊢
      rw [escapeChar_hexDigit _ (by omega), escapeChar_hexDigit _ (by omega), ih]
      rfl
  rw [quote, toList_hexEncode, hdigits]

theorem pushStrs_eq (items : List String) :
    pushStrs items = (Printed.array (items.map .string) : Printed (d + 1)).text := by
  rw [pushStrs, text_array, map_map]
  rfl

theorem Var.text_eq (v : Var) : v.text = (v.out : Printed (d + 1)).text := by
  rw [Var.text, Var.out, Var.members]
  split_ifs with hnote
  · rw [Printed.text_struct_none, text_struct]
    simp [more, text_string]
  · rw [text_struct]
    simp [more, text_string]

theorem elim_ite {α β : Type*} (c : Prop) [Decidable c] (a : α) (b : β) (f : α → β) :
    (if c then some a else none).elim b f = if c then f a else b := by
  split_ifs <;> rfl

theorem elim_ite_none {α β : Type*} (c : Prop) [Decidable c] (a : α) (b : β) (f : α → β) :
    (if c then none else some a).elim b f = if c then b else f a := by
  split_ifs <;> rfl

namespace Snapshot

theorem audienceText_eq (s : Snapshot) : s.audienceText = (s.audienceOut : Printed (d + 2)).text := by
  rw [audienceText, audienceOut]
  split_ifs
  · rfl
  · rfl
  · rw [text_struct, pushStrs_eq (d := d)]
    rcases s.audience.group with _ | g <;> simp [more, text_string, Printed.text_null]

theorem varsText_eq (s : Snapshot) : bracket '{' '}' (s.vars.entries.map fun x => memberText x.1 x.2.text) =
    (s.varsOut : Printed (d + 2)).text := by
  have hpresent : Printed.present (s.vars.entries.map fun x => (x.1, some (x.2.out : Printed (d + 1)))) =
      s.vars.entries.map fun x => (x.1, x.2.out) := by
    simp [Printed.present, List.filterMap_map]
  change _ = bracket '{' '}' (Printed.membersText (Printed.present _))
  rw [hpresent, Printed.membersText, map_map]
  simp only [Var.text_eq (d := d)]
  rfl

theorem canonical_eq {s : Snapshot} (h : s.version = 1 ∨ s.version = 2) :
    s.canonical = (s.out : Printed (d + 3)).text := by
  have hversion : (UInt64.ofNat s.version).toNat = s.version := by
    rcases h with h | h <;> rw [h] <;> rfl
  rw [canonical, out, members, text_struct, varsText_eq (d := d), audienceText_eq (d := d)]
  simp only [List.flatMap_cons, List.flatMap_nil, Option.elim_some, text_string, Printed.text_number, hversion,
    pushStrs_eq (d := d), more, List.append_assoc, List.cons_append, List.append_nil, Option.elim_map, elim_ite,
    elim_ite_none, quote_hexEncode, text_array, map_map, Function.comp_def, UInt32.toNat_toUInt64]

end Snapshot

end Out

/-! ### Reading back -/

section ReadBack

variable {d : ℕ}

variable {key : String} {s : Snapshot}

theorem fieldOr_some {β : Type} {f : SortedMap String JsonValue} {v : JsonValue} (h : f.lookup key = some v)
    (absent : β) (read : JsonValue → Option β) : fieldOr f key absent read = read v := by rw [fieldOr, h]

theorem fieldOr_none {β : Type} {f : SortedMap String JsonValue} (h : f.lookup key = none) (absent : β)
    (read : JsonValue → Option β) : fieldOr f key absent read = some absent := by rw [fieldOr, h]

theorem field_some {β : Type} {f : SortedMap String JsonValue} {v : JsonValue} (h : f.lookup key = some v)
    (read : JsonValue → Option β) : field f key read = read v := by rw [field, h, bind_some]

theorem asStr_string (t : String) : (JsonValue.string t).asStr = some t := JsonValue.asStr_eq_some.mpr rfl

theorem strings_out (l : List String) : strings (Printed.array (l.map .string) : Printed (d + 1)).value = some l := by
  refine (KeyLetter.isReader_asStr.listOf _ l).mpr ⟨?_, fun _ _ => trivial⟩
  change JsonValue.array (List.map _ _) = _
  rw [map_map]
  rfl

theorem VarType.parse_asStr (k : VarType) : VarType.parse k.asStr = some k := by cases k <;> rfl

theorem Group.parse_asStr (g : Group) : Group.parse g.asStr = some g := by cases g <;> rfl

theorem varOf_out (v : Var) : varOf (v.out : Printed (d + 1)).value = some v := by
  have hnames : ((v.members : List (String × Option (Printed d))).map Prod.fst).Nodup :=
    show ["note", "type", "value"].Nodup by decide
  obtain ⟨m, hm, hlookup, hkeys⟩ := Printed.exists_object_struct hnames
  simp only [Var.members, forall_mem_cons, not_mem_nil, false_imp_iff, implies_true, and_true] at hlookup
  obtain ⟨hnote, htype, hvalue⟩ := hlookup
  have hknown : ∀ k ∈ m.keys, k ∈ ["note", "type", "value"] := fun k hk => by
    obtain ⟨p, hp⟩ := hkeys k hk
    exact List.mem_map_of_mem (f := Prod.fst) hp
  have hread : fieldOr m "note" "" JsonValue.asStr = some v.note := by
    split_ifs at hnote with hempty
    · rw [fieldOr_none hnote, hempty]
    · rw [fieldOr_some hnote]
      exact asStr_string v.note
  rw [Var.out, varOf, hm, asObject_object]
  simp only [some_bind, guard_eq_some_iff (u := ()).mpr hknown, hread, field_some htype,
    field_some hvalue]
  simp [Printed.string, asStr_string, VarType.parse_asStr]

theorem mapM_map_some {α β : Type} {f : α → β} {g : β → Option α} {l : List α} (h : ∀ a ∈ l, g (f a) = some a) :
    (l.map f).mapM g = some l := by
  induction l with
  | nil => rfl
  | cons a l ih =>
    obtain ⟨ha, hl⟩ := forall_mem_cons.mp h
    simp [ha, ih hl]

theorem varsOf_out (s : Snapshot) : varsOf (s.varsOut : Printed (d + 2)).value = some s.vars := by
  have hpresent : Printed.present (s.vars.entries.map fun x => (x.1, some (x.2.out : Printed (d + 1)))) =
      s.vars.entries.map fun x => (x.1, x.2.out) := by
    simp [Printed.present, List.filterMap_map]
  have hvalue : (s.varsOut : Printed (d + 2)).value =
      .object (s.vars.mapVals fun _ v => (v.out : Printed (d + 1)).value) := by
    change JsonValue.object (ofList ((Printed.present _).map fun x => (x.1, x.2.value))) = _
    rw [hpresent, map_map, ← ofList_entries (s.vars.mapVals fun _ v => (v.out : Printed (d + 1)).value)]
    rfl
  have hentries : (s.vars.entries.map fun x => (x.1, (x.2.out : Printed (d + 1)).value)).mapM
      (fun x => (varOf x.2).map fun e => (x.1, e)) = some s.vars.entries := by
    refine mapM_map_some fun x _ => ?_
    rw [varOf_out, map_some]
  rw [varsOf, hvalue, asObject_object]
  simp [some_bind, mapVals, hentries, ofList_entries]

theorem toKeys_out (l : List UInt32) :
    listOf u32Of (Printed.array (l.map fun k => .number k.toUInt64) : Printed (d + 1)).value = some l := by
  refine (KeyLetter.isReader_u32Of.listOf _ l).mpr ⟨?_, fun _ _ => trivial⟩
  change JsonValue.array (List.map _ _) = _
  rw [map_map]
  rfl

theorem hex16_out (id : EnvId) : hex16 (.string (hexEncode id.val)) = some id := by
  have hread : hexExact (.string (hexEncode id.val)) 16 = some id.val := KeyLetter.hexExact_eq_some_iff.mpr ⟨rfl, id.2⟩
  rw [hex16, hread, bind_some, dif_pos id.2]

/-- The keys that a version does not have are left out. -/
structure FitsV1 (s : Snapshot) : Prop where
  id_eq : s.id = none
  toKeys_eq : s.toKeys = []
  markedChanged_eq : s.markedChanged = []
  also_eq : s.audience.also = []
  group_eq : s.audience.group = some .members ∧ s.toIds = [] ∨ s.audience.group = some .maintainers

section Checked

variable {env : FormatEnv} {s : Snapshot}

theorem fitsV1_of_checkV1 (h : s.checkV1 env = .ok ()) : FitsV1 s := by
  obtain ⟨_, hnone, h⟩ := bind_eq_ok.mp h
  rw [refuseIf_eq_ok] at hnone
  push Not at hnone
  obtain ⟨hid, hkeys, hmarked, halso⟩ := hnone
  refine ⟨by simpa using hid, hkeys, hmarked, halso, ?_⟩
  split at h
  · next hgroup => exact .inl ⟨hgroup, not_not.mp (refuseIf_eq_ok.mp h)⟩
  · next hgroup => exact .inr hgroup
  · cases h

theorem version_of_check (h : s.check env = .ok ()) :
    s.version = 1 ∧ FitsV1 s ∨ s.version = 2 ∧ ∃ id, s.id = some id := by
  obtain ⟨_, -, h⟩ := bind_eq_ok.mp h
  obtain ⟨_, -, h⟩ := bind_eq_ok.mp h
  obtain ⟨_, -, h⟩ := bind_eq_ok.mp h
  obtain ⟨_, -, h⟩ := bind_eq_ok.mp h
  split_ifs at h with h₁ h₂
  · exact .inl ⟨h₁, fitsV1_of_checkV1 h⟩
  · obtain ⟨_, hid, -⟩ := bind_eq_ok.mp h
    exact .inr ⟨h₂, Option.ne_none_iff_exists'.mp (refuseIf_eq_ok.mp hid)⟩

end Checked

theorem u8Of_out {n : ℕ} (h : n < 256) : u8Of (.nat (UInt64.ofNat n)) = some n := by
  have hread : (JsonValue.nat (UInt64.ofNat n)).asU64 = some (UInt64.ofNat n) := asU64_eq_some.mpr rfl
  have hn : (UInt64.ofNat n).toNat = n := by
    rw [UInt64.toNat_ofNat']
    omega
  rw [u8Of, hread]
  simp only [some_bind, hn, guard_eq_some_iff (u := ()).mpr (show n < 2 ^ 8 from h), pure_def]

theorem partsV1_out {m : SortedMap String JsonValue} (hversion : s.version = 1) (hfits : FitsV1 s)
    (haudience : m.lookup "audience" = some (s.audienceOut : Printed (d + 2)).value) :
    partsV1 m = some ⟨s.audience, s.id, s.toKeys, s.markedChanged⟩ := by
  have hgroup : s.audience = ⟨s.audience.group, []⟩ := Audience.ext rfl hfits.also_eq
  rw [Snapshot.audienceOut, if_pos hversion] at haudience
  rw [partsV1, field_some haudience, hfits.id_eq, hfits.toKeys_eq, hfits.markedChanged_eq, hgroup]
  simp only [Printed.string, asStr_string, some_bind, pure_def]
  rcases hfits.group_eq with ⟨hg, -⟩ | hg <;> rw [hg] <;> rfl

theorem partsV2_out {m : SortedMap String JsonValue} (hversion : s.version = 2) {id : EnvId} (hid : s.id = some id)
    (hlookup : ∀ x ∈ (s.members : List (String × Option (Printed (d + 2)))), m.lookup x.1 = x.2.map Printed.value) :
    partsV2 m = some ⟨s.audience, s.id, s.toKeys, s.markedChanged⟩ := by
  simp only [Snapshot.members, forall_mem_cons, hid, hversion] at hlookup
  obtain ⟨haudience, -, -, hidValue, hmarked, -, -, hkeys, -⟩ := hlookup
  -- the audience's own object
  let also : JsonValue := (Printed.array (s.audience.also.map .string) : Printed (d + 1)).value
  let group : JsonValue := (s.audience.group.elim .null fun g => .string g.asStr : Printed (d + 1)).value
  have hnodup : ([("also", also), ("group", group)].map Prod.fst).Nodup := show ["also", "group"].Nodup by decide
  have hvalue : (s.audienceOut : Printed (d + 2)).value = .object (.ofList [("also", also), ("group", group)]) := by
    rw [Snapshot.audienceOut, if_neg (by omega)]
    rfl
  have halso : (ofList [("also", also), ("group", group)]).lookup "also" = some also :=
    (lookup_ofList hnodup).mpr (by simp)
  have hgroup : (ofList [("also", also), ("group", group)]).lookup "group" = some group :=
    (lookup_ofList hnodup).mpr (by simp)
  have hlength : (ofList [("also", also), ("group", group)]).entries.length = 2 :=
    (perm_ofList hnodup).length_eq.symm
  have hreadGroup : optOf (fun v => v.asStr.bind Group.parse) group = some s.audience.group := by
    rcases hg : s.audience.group with _ | g
    · simp [group, hg, optOf, isNull_iff, Printed.null]
    · have hread : optOf (fun v => v.asStr.bind Group.parse) (.string g.asStr) = some (some g) := by
        rw [optOf, if_neg (by simp [isNull_iff, JsonValue.string, JsonValue.null]), asStr_string,
          bind_some, Group.parse_asStr, map_some]
      simpa [group, hg, Printed.string] using hread
  have hreadMarked : fieldOr m "markedChanged" [] (fun v => (strings v).filter (· ≠ [])) = some s.markedChanged := by
    split_ifs at hmarked with hempty
    · rw [fieldOr_none hmarked, hempty]
    · rw [fieldOr_some hmarked, strings_out]
      simp [Option.filter, hempty]
  rw [map_some, hvalue] at haudience
  rw [if_pos trivial, map_some] at hkeys
  simp only [partsV2, field_some haudience, asObject_object, some_bind,
    guard_eq_some_iff (u := ()).mpr hlength, field_some hgroup, hreadGroup, field_some halso, also, strings_out,
    field_some hidValue, field_some hkeys, toKeys_out, hreadMarked, hid, Printed.string, hex16_out, pure_def]

theorem fromValue_out {env : FormatEnv} (h : s.check env = .ok ()) :
    fromValue env (s.out : Printed (d + 3)).value = some s := by
  have hnames : ((s.members : List (String × Option (Printed (d + 2)))).map Prod.fst).Nodup :=
    show ["audience", "env", "generatedAt", "id", "markedChanged", "savedFor", "to", "toKeys", "v",
      "vars"].Nodup by decide
  obtain ⟨m, hm, hlookup, hkeys⟩ := Printed.exists_object_struct hnames
  have hversion := version_of_check h
  have hknown : ∀ k ∈ m.keys, k ∈ fieldsV1 ∨ s.version = 2 ∧ k ∈ fieldsV2 := fun k hk => by
    obtain ⟨p, hp⟩ := hkeys k hk
    rcases hversion with ⟨hv, hfits⟩ | ⟨hv, -⟩
    · simp only [Snapshot.members, hfits.id_eq, hfits.markedChanged_eq, hv, mem_cons, Prod.mk.injEq, Option.map_none,
        reduceCtorEq, and_false, if_true, if_false, false_or, not_mem_nil, or_false, show (1 : ℕ) ≠ 2 by decide] at hp
      simp only [fieldsV1, mem_cons]
      tauto
    · have hmem := List.mem_map_of_mem (f := Prod.fst) hp
      simp only [Snapshot.members, List.map_cons, List.map_nil, mem_cons, not_mem_nil, or_false] at hmem
      simp only [fieldsV1, fieldsV2, hv, mem_cons, not_mem_nil, or_false, true_and]
      tauto
  have hparts : partsOf s.version m = some ⟨s.audience, s.id, s.toKeys, s.markedChanged⟩ := by
    rw [partsOf]
    rcases hversion with ⟨hv, hfits⟩ | ⟨hv, id, hid⟩
    · rw [if_pos hv]
      exact partsV1_out hv hfits (hlookup _ List.mem_cons_self)
    · rw [if_neg (by omega), if_pos hv]
      exact partsV2_out hv hid hlookup
  simp only [Snapshot.members, forall_mem_cons, not_mem_nil, false_imp_iff, implies_true, and_true] at hlookup
  obtain ⟨-, henv, hgenerated, -, -, hsaved, hto, -, hv, hvars⟩ := hlookup
  have hreadVersion : u8Of (.nat (UInt64.ofNat s.version)) = some s.version := u8Of_out (by omega)
  have hreadTo : fieldOr m "to" [] strings = some s.toIds := by
    split_ifs at hto with hcond
    · rw [fieldOr_some hto, strings_out]
    · -- left out: a Members snapshot of version 1, which lists nobody
      rw [fieldOr_none hto]
      rw [not_or] at hcond
      obtain ⟨hne, hgroup⟩ := hcond
      obtain ⟨-, hfits⟩ := hversion.resolve_right fun h => hne h.1
      rw [(hfits.group_eq.resolve_right hgroup).2]
  have hreadSaved : fieldOr m "savedFor" none (fun f => f.asStr.map some) = some s.savedFor := by
    rcases hs : s.savedFor with _ | f
    · rw [hs] at hsaved
      exact fieldOr_none hsaved _ _
    · rw [hs] at hsaved
      rw [fieldOr_some hsaved]
      exact congrArg _ (asStr_string f)
  have hreadTime : (JsonValue.nat s.generatedAt).asU64 = some s.generatedAt := asU64_eq_some.mpr rfl
  have hcheck : (s.check env).toOption = some () := by rw [h]; rfl
  rw [fromValue, Snapshot.out, hm, asObject_object]
  simp only [some_bind, field_some hv, hreadVersion,
    guard_eq_some_iff (u := ()).mpr hknown, hparts, hreadTo, field_some hvars, varsOf_out, hreadSaved, field_some henv,
    field_some hgenerated, Printed.string, asStr_string, Printed.number, hreadTime, hcheck, pure_def]

end ReadBack

/-! ### One encoding -/

section Parser

variable {env : FormatEnv} {parse : Bytes → Option JsonValue} {s : Snapshot} {b : Bytes}

theorem encode_eq_ok (h : s.encode env = .ok b) : s.check env = .ok () ∧
    bucketSize bucket (utf8 (String.ofList s.canonical)).length ≤ maxSnapshot ∧
      b = padSpaces bucket (utf8 (String.ofList s.canonical)) := by
  rw [Snapshot.encode] at h
  obtain ⟨_, hcheck, h⟩ := bind_eq_ok.mp h
  obtain ⟨_, hsize, h⟩ := bind_eq_ok.mp h
  refine ⟨hcheck, ?_, (pure_eq_ok.mp h).symm⟩
  exact not_lt.mp (refuseIf_eq_ok.mp hsize)

theorem length_of_encode (h : s.encode env = .ok b) :
    0 < b.length ∧ b.length % bucket = 0 ∧ b.length ≤ maxSnapshot := by
  obtain ⟨-, hsize, hb⟩ := encode_eq_ok h
  rw [hb, length_padSpaces (by decide)]
  exact ⟨bucketSize_pos (by decide) _, bucketSize_mod _, hsize⟩

theorem encode_of_decode (h : decode env parse b = some s) : s.encode env = .ok b := by
  simp only [decode, bind_eq_some, Option.ite_none_right_eq_some, Option.some.injEq] at h
  obtain ⟨_, -, _, -, value, -, snap, -, again, hagain, heq, rfl⟩ := h
  rw [← heq]
  rcases hencode : snap.encode env with e | bytes
  · rw [hencode] at hagain
    cases hagain
  · rw [hencode] at hagain
    exact congrArg Except.ok (Option.some.inj hagain)

theorem decode_encode (hparse : Json.Lawful parse) (h : s.encode env = .ok b) : decode env parse b = some s := by
  obtain ⟨hpos, hmod, hmax⟩ := length_of_encode h
  obtain ⟨hcheck, -, hb⟩ := encode_eq_ok h
  have hversion : s.version = 1 ∨ s.version = 2 := (version_of_check hcheck).imp And.left And.left
  -- the text ends with a brace, so that the padding comes off
  obtain ⟨cs, hcs⟩ : ∃ cs, s.canonical = cs ++ ['}'] := ⟨_, rfl⟩
  have hbytes : utf8 (String.ofList s.canonical) = utf8 (String.ofList cs) ++ [0x7d] := by
    rw [hcs]
    exact utf8_concat cs (by decide)
  have htrim : trimSpaces b = utf8 (String.ofList s.canonical) := by
    rw [hb, hbytes]
    exact trimSpaces_padSpaces (by decide)
  have hne : utf8 (String.ofList s.canonical) ≠ [] := by
    rw [hbytes]
    exact List.concat_ne_nil _ _
  have hread : parse (utf8 (String.ofList s.canonical)) = some (s.out : Printed Json.maxNesting).value := by
    rw [Snapshot.canonical_eq (d := 124) hversion]
    exact hparse _ _ (s.out : Printed Json.maxNesting).prints.denotes
  have hguard := guard_eq_some_iff (u := ()).mpr (show b ≠ [] ∧ b.length ≤ maxSnapshot ∧ b.length % bucket = 0 from
    ⟨List.ne_nil_of_length_pos hpos, hmax, hmod⟩)
  have hvalue : fromValue env (s.out : Printed Json.maxNesting).value = some s := fromValue_out (d := 124) hcheck
  have hagain : (s.encode env).toOption = some b := by rw [h]; rfl
  rw [decode, htrim]
  simp [hguard, guard_eq_some_iff (u := ()).mpr hne, hread, hvalue, hagain]

/-- **A snapshot has exactly one encoding and reads back.** What is encoded is a positive number of buckets within the
limit and is read as the snapshot; a plaintext is read as a snapshot exactly where the snapshot is encoded as it, so
that no two are read as the same and none is accepted that breaks a rule. -/
theorem snapshot_spec (env : FormatEnv) (hparse : Json.Lawful parse) :
    (∀ (s : Snapshot) (b : Bytes), s.encode env = .ok b → 0 < b.length ∧ b.length % bucket = 0 ∧
      b.length ≤ maxSnapshot ∧
      decode env parse b = some s) ∧
    (∀ (pt : Bytes) (s : Snapshot), decode env parse pt = some s ↔ s.encode env = .ok pt) ∧
    (∀ (pt pt' : Bytes) (s : Snapshot), decode env parse pt = some s → decode env parse pt' = some s → pt = pt') ∧
    ∀ (pt : Bytes) (s : Snapshot), decode env parse pt = some s → s.check env = .ok () := by
  refine ⟨fun s b h => ?_, fun pt s => ⟨encode_of_decode, decode_encode hparse⟩, fun pt pt' s h h' =>
      ?_, fun pt s h => ?_⟩
  · obtain ⟨hpos, hmod, hmax⟩ := length_of_encode h
    exact ⟨hpos, hmod, hmax, decode_encode hparse h⟩
  · exact Except.ok.inj ((encode_of_decode h).symm.trans (encode_of_decode h'))
  · exact (encode_eq_ok (encode_of_decode h)).1

/-- Every text is an id, in its one spelling. -/
def plainFormatEnv : FormatEnv where
  decodeIdentifier s := some (utf8 s)
  encodeIdentifier b := (fromUtf8 b).getD ""
  debug s := s

/-- A snapshot of one variable, for maintainers. -/
def oneVariable : Snapshot where
  version := 2
  env := "dev"
  audience := ⟨some .maintainers, []⟩
  id := some ⟨List.replicate 16 0, rfl⟩
  generatedAt := 7
  savedFor := none
  toIds := ["ann"]
  toKeys := [3]
  markedChanged := []
  vars := .ofList [("A", ⟨"x\n", .secret, ""⟩)]

theorem encode_oneVariable :
    oneVariable.encode plainFormatEnv = .ok (padSpaces bucket (utf8 (String.ofList oneVariable.canonical))) := by
  have hcheck : oneVariable.check plainFormatEnv = .ok () := by decide +kernel
  have hlength : (utf8 (String.ofList oneVariable.canonical)).length = 191 := by decide +kernel
  rw [Snapshot.encode]
  refine bind_eq_ok.mpr ⟨(), hcheck, bind_eq_ok.mpr ⟨(), refuseIf_eq_ok.mpr ?_, rfl⟩⟩
  rw [hlength]
  decide

theorem snapshot_spec_oneVariable :
    oneVariable.encode plainFormatEnv = .ok (padSpaces bucket (utf8 (String.ofList oneVariable.canonical))) ∧
    decode plainFormatEnv Json.parse (padSpaces bucket (utf8 (String.ofList oneVariable.canonical))) =
        some oneVariable :=
  ⟨encode_oneVariable, ((snapshot_spec plainFormatEnv Json.lawful_parse).1 _ _ encode_oneVariable).2.2.2⟩

end Parser

end DashForge.Env
