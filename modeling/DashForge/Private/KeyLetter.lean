import DashForge.Data.Bucket
import DashForge.Data.JsonParse
import DashForge.Private.MembersRef

/-!
# Typed letters

The canonical bytes of a key letter's typed body (`private/key_letter/mod.rs`): `encode` writes one compact JSON
text with its keys in order, padded with spaces to buckets, and `decode` takes only the bytes `encode` makes of
what it read. The JSON parser is a parameter.
-/

namespace DashForge.KeyLetter

open Json (Prints Denotes quote bracket memberText)
open List SortedMap

def bucket : ℕ := 512

/-- The largest letter, padded. -/
def maxLetter : ℕ := 64 * 1024

/-- The largest integer a letter carries. -/
def maxInt : ℕ := 2 ^ 53 - 1

/-- The deepest nesting of a letter, its own object counted. -/
def maxDepth : ℕ := 16

/-- A letter's body. -/
@[ext]
structure TypedLetter where
  kind : String
  v : UInt64
  /-- Every field but `type` and `v`. -/
  fields : SortedMap String JsonValue

/-- Why a letter cannot be written. -/
inductive LetterError where
  | tooLarge (n : ℕ)
  | invalid (why : String)
deriving DecidableEq, Repr

/-! ### Writing -/

/-- The text of an object, its keys in order. -/
def objectText (texts : List (String × List Char)) : List Char :=
  bracket '{' '}' ((sortByKey Prod.fst texts).map fun x => memberText x.1 x.2)

mutual

def pushValue : Json → Except LetterError (List Char)
  | .null => .ok "null".toList
  | .bool b => .ok (if b then "true" else "false").toList
  | .number (.posInt n) =>
    if n.toNat ≤ maxInt then .ok (Nat.toDigits 10 n.toNat)
    else .error (.invalid "a letter's numbers are integers from 0 to 2^53 - 1")
  | .number _ => .error (.invalid "a letter's numbers are integers from 0 to 2^53 - 1")
  | .string s => .ok (quote s)
  | .array items => do
    let texts ← pushItems items
    return bracket '[' ']' texts
  | .object members => do
    let texts ← pushMembers members
    return objectText texts

def pushItems : List Json → Except LetterError (List (List Char))
  | [] => .ok []
  | v :: items => do
    let text ← pushValue v
    let texts ← pushItems items
    return text :: texts

def pushMembers : List (String × Json) → Except LetterError (List (String × List Char))
  | [] => .ok []
  | (key, v) :: members => do
    let text ← pushValue v
    let texts ← pushMembers members
    return (key, text) :: texts

end

namespace TypedLetter

variable (t : TypedLetter)

/-- The canonical JSON, without padding. -/
def canonical : Except LetterError (List Char) := do
  refuseIf (t.fields.lookup "type" ≠ none ∨ t.fields.lookup "v" ≠ none) (.invalid "`type` and `v` are not fields")
  refuseIf (maxInt < t.v.toNat) (.invalid "a letter's version is at most 2^53 - 1")
  let texts ← pushMembers ((t.fields.entries.map fun x => (x.1, x.2.val)) ++
    [("type", .string t.kind), ("v", .number (.posInt t.v))])
  return objectText texts

def encode : Except LetterError Bytes := do
  refuseIf (maxDepth < (JsonValue.object t.fields).val.depth) (.invalid "a letter nests at most 16 deep")
  let raw ← t.canonical
  let bytes := utf8 (String.ofList raw)
  refuseIf (maxLetter < bucketSize bucket bytes.length) (.tooLarge bytes.length)
  return padSpaces bucket bytes

end TypedLetter

/-! ### Reading -/

theorem guard_eq_some_iff {p : Prop} [Decidable p] {u : Unit} : (guard p : Option Unit) = some u ↔ p := by
  by_cases h : p <;> simp [guard, h]

/-- Read a letter: the bytes `encode` makes of it, and no others. -/
def decode (parse : Bytes → Option JsonValue) (pt : Bytes) : Option TypedLetter := do
  guard (pt ≠ [] ∧ pt.length ≤ maxLetter ∧ pt.length % bucket = 0)
  guard (trimSpaces pt ≠ [])
  let value ← parse (trimSpaces pt)
  guard (value.val.depth ≤ maxDepth)
  let fields ← value.asObject
  let kind ← (← fields.lookup "type").asStr
  let fields := fields.erase "type"
  let v ← (← fields.lookup "v").asU64
  let letter : TypedLetter := { kind, v, fields := fields.erase "v" }
  match letter.encode with
  | .ok again => if again = pt then some letter else none
  | .error _ => none

/-! ### Canonical texts -/

variable {items : List Json} {d : ℕ}

theorem depthItems_le_iff : Json.depthItems items ≤ d ↔ ∀ v ∈ items, v.depth ≤ d := by
  induction items with
  | nil => simp [Json.depthItems]
  | cons v items ih => simp [Json.depthItems, ih]

theorem depthMembers_le_iff {members : List (String × Json)} :
    Json.depthMembers members ≤ d ↔ ∀ x ∈ members, x.2.depth ≤ d := by
  induction members with
  | nil => simp [Json.depthMembers]
  | cons x members ih =>
    obtain ⟨key, v⟩ := x
    simp [Json.depthMembers, ih]

theorem depth_array_le_iff {items : List JsonValue} :
    (JsonValue.array items).val.depth ≤ d + 1 ↔ ∀ v ∈ items, v.val.depth ≤ d := by
  rw [JsonValue.array, Json.depth, add_comm, Nat.add_le_add_iff_right, depthItems_le_iff, forall_mem_map]

theorem depth_object_le_iff {members : SortedMap String JsonValue} :
    (JsonValue.object members).val.depth ≤ d + 1 ↔ ∀ x ∈ members.entries, x.2.val.depth ≤ d := by
  rw [JsonValue.object, Json.depth, add_comm, Nat.add_le_add_iff_right, depthMembers_le_iff, forall_mem_map]

/-- The text of a value that has one. -/
def textOf (v : Json) : List Char := (pushValue v).toOption.getD []

theorem textOf_eq {v : Json} {text : List Char} (h : pushValue v = .ok text) : textOf v = text := by
  rw [textOf, h]
  rfl

theorem pushItems_eq_ok {texts : List (List Char)} (h : pushItems items = .ok texts) :
    texts = items.map textOf ∧ ∀ v ∈ items, pushValue v = .ok (textOf v) := by
  induction items generalizing texts with
  | nil => cases h; simp
  | cons v items ih =>
    rw [pushItems] at h
    obtain ⟨text, htext, h⟩ := bind_eq_ok.mp h
    obtain ⟨texts', htexts, h⟩ := bind_eq_ok.mp h
    obtain rfl := pure_eq_ok.mp h
    obtain ⟨rfl, hall⟩ := ih htexts
    obtain rfl := textOf_eq htext
    exact ⟨rfl, forall_mem_cons.mpr ⟨htext, hall⟩⟩

theorem pushMembers_eq_ok {members : List (String × Json)} {texts : List (String × List Char)}
    (h : pushMembers members = .ok texts) :
    texts = (members.map fun x => (x.1, textOf x.2)) ∧ ∀ x ∈ members, pushValue x.2 = .ok (textOf x.2) := by
  induction members generalizing texts with
  | nil => cases h; simp
  | cons x members ih =>
    obtain ⟨key, v⟩ := x
    rw [pushMembers] at h
    obtain ⟨text, htext, h⟩ := bind_eq_ok.mp h
    obtain ⟨texts', htexts, h⟩ := bind_eq_ok.mp h
    obtain rfl := pure_eq_ok.mp h
    obtain ⟨rfl, hall⟩ := ih htexts
    obtain rfl := textOf_eq htext
    exact ⟨rfl, forall_mem_cons.mpr ⟨htext, hall⟩⟩

theorem prints_objectText {m : SortedMap String JsonValue} {members : List (String × JsonValue)}
    (hperm : members.Perm m.entries) (h : ∀ x ∈ members, Prints d (textOf x.2.val) x.2) :
    Prints (d + 1) (objectText (members.map fun x => (x.1, textOf x.2.val))) (.object m) := by
  have hsort : sortByKey Prod.fst members = m.entries := by
    refine eq_of_perm_of_pairwise_key Prod.fst ((perm_sortByKey _ _).trans hperm) ?_ (pairwise_sortByKey _ _)
      (m.sorted.imp fun hlt => hlt.le)
    intro x hx y hy hxy
    rw [Set.mem_ofPred_eq, mem_sortByKey] at hx hy
    exact eq_of_mem_entries (hperm.mem_iff.mp hx) (hperm.mem_iff.mp hy) hxy
  rw [objectText, sortByKey_map, hsort]
  refine Json.prints_object ?_
  rw [forall₂_map_left_iff, forall₂_same]
  exact fun x hx => ⟨rfl, h x (hperm.mem_iff.mpr hx)⟩

theorem prints_pushValue (v : JsonValue) : ∀ {d : ℕ} {text : List Char}, pushValue v.val = .ok text →
    v.val.depth ≤ d → Prints d text v := by
  induction v using JsonValue.induct with
  | null =>
    intro d text h _
    cases h
    exact Json.prints_null d
  | bool b =>
    intro d text h _
    cases h
    exact Json.prints_bool d b
  | number n =>
    intro d text h _
    cases n with
    | posInt n =>
      simp only [pushValue] at h
      split at h
      · cases h
        exact Json.prints_nat d n
      · cases h
    | negInt n => cases h
    | float bits => cases h
  | string s =>
    intro d text h _
    cases h
    exact Json.prints_quote d s
  | array items ih =>
    intro d text h hdepth
    obtain ⟨d, rfl⟩ : ∃ n, d = n + 1 := ⟨d - 1, by simp only [JsonValue.array, Json.depth] at hdepth; omega⟩
    rw [JsonValue.array, pushValue] at h
    obtain ⟨texts, htexts, h⟩ := bind_eq_ok.mp h
    obtain rfl := pure_eq_ok.mp h
    obtain ⟨rfl, hall⟩ := pushItems_eq_ok htexts
    refine Json.prints_array ?_
    rw [forall₂_map_left_iff, forall₂_map_left_iff, forall₂_same]
    exact fun v hv => ih v hv (hall _ (mem_map_of_mem hv)) (depth_array_le_iff.mp hdepth v hv)
  | object members ih =>
    intro d text h hdepth
    obtain ⟨d, rfl⟩ : ∃ n, d = n + 1 := ⟨d - 1, by simp only [JsonValue.object, Json.depth] at hdepth; omega⟩
    rw [JsonValue.object, pushValue] at h
    obtain ⟨texts, htexts, h⟩ := bind_eq_ok.mp h
    obtain rfl := pure_eq_ok.mp h
    obtain ⟨rfl, hall⟩ := pushMembers_eq_ok htexts
    rw [forall_mem_map] at hall
    rw [map_map]
    exact prints_objectText (.refl members.entries) fun x hx => ih x hx (hall x hx) (depth_object_le_iff.mp hdepth x hx)

/-! ### Round trips -/

namespace TypedLetter

variable {t : TypedLetter}

/-- The object a letter is written as. -/
def members (t : TypedLetter) : SortedMap String JsonValue :=
  (t.fields.insert "type" (.string t.kind)).insert "v" (.nat t.v)

theorem canonical_eq_ok {raw : List Char} (h : t.canonical = .ok raw) :
    t.fields.lookup "type" = none ∧ t.fields.lookup "v" = none ∧ (∃ cs, raw = cs ++ ['}']) ∧
      ∀ d, (JsonValue.object t.fields).val.depth ≤ d + 1 → Prints (d + 1) raw (.object t.members) := by
  obtain ⟨_, hnot, h⟩ := bind_eq_ok.mp h
  obtain ⟨_, -, h⟩ := bind_eq_ok.mp h
  obtain ⟨texts, htexts, h⟩ := bind_eq_ok.mp h
  obtain rfl := pure_eq_ok.mp h
  rw [refuseIf_eq_ok, not_or, not_not, not_not] at hnot
  obtain ⟨htype, hv⟩ := hnot
  refine ⟨htype, hv, ⟨_, rfl⟩, fun d hdepth => ?_⟩
  obtain ⟨rfl, hall⟩ := pushMembers_eq_ok htexts
  -- the fields, then the type and the version, are the entries of one map
  let all : List (String × JsonValue) := t.fields.entries ++ [("type", .string t.kind), ("v", .nat t.v)]
  have hall' : (t.fields.entries.map fun x => (x.1, x.2.val)) ++
      [("type", .string t.kind), ("v", .number (.posInt t.v))] = all.map fun x => (x.1, x.2.val) := by
    simp [all, JsonValue.string, JsonValue.nat]
  have hperm : all.Perm t.members.entries := by
    have hv' : (t.fields.insert "type" (.string t.kind)).lookup "v" = none := by
      rw [lookup_insert, if_neg (by decide), hv]
    refine .trans ?_ (perm_entries_insert hv' (.nat t.v))
    rw [show all = (t.fields.entries ++ [("type", .string t.kind)]) ++ [("v", .nat t.v)] by simp [all]]
    exact (perm_entries_insert htype _).append_right _
  rw [hall', forall_mem_map] at hall
  rw [hall', map_map]
  refine prints_objectText hperm fun x hx => prints_pushValue x.2 (hall x hx) ?_
  rcases mem_append.mp hx with hx | hx
  · exact depth_object_le_iff.mp hdepth x hx
  · simp only [mem_cons, not_mem_nil, or_false] at hx
    rcases hx with rfl | rfl <;> exact Nat.zero_le d

theorem encode_eq_ok {b : Bytes} (h : t.encode = .ok b) :
    (JsonValue.object t.fields).val.depth ≤ maxDepth ∧ ∃ raw, t.canonical = .ok raw ∧
      bucketSize bucket (utf8 (String.ofList raw)).length ≤ maxLetter ∧
          b = padSpaces bucket (utf8 (String.ofList raw)) := by
  obtain ⟨_, hdepth, h⟩ := bind_eq_ok.mp h
  obtain ⟨raw, hraw, h⟩ := bind_eq_ok.mp h
  obtain ⟨_, hsize, h⟩ := bind_eq_ok.mp h
  exact ⟨not_lt.mp (refuseIf_eq_ok.mp hdepth), raw, hraw, not_lt.mp (refuseIf_eq_ok.mp hsize), (pure_eq_ok.mp h).symm⟩

theorem length_of_encode {b : Bytes} (h : t.encode = .ok b) :
    0 < b.length ∧ b.length % bucket = 0 ∧ b.length ≤ maxLetter := by
  obtain ⟨-, raw, -, hsize, rfl⟩ := encode_eq_ok h
  rw [length_padSpaces (by decide)]
  exact ⟨bucketSize_pos (by decide) _, bucketSize_mod _, hsize⟩

theorem depth_members (h : (JsonValue.object t.fields).val.depth ≤ maxDepth) :
    (JsonValue.object t.members).val.depth ≤ maxDepth := by
  have hfields : ∀ x ∈ t.fields.entries, x.2.val.depth ≤ 15 := depth_object_le_iff.mp h
  refine depth_object_le_iff.mpr fun x hx => ?_
  have hlookup := lookup_eq_some_iff.mpr (show (x.1, x.2) ∈ t.members.entries from hx)
  rw [members, lookup_insert, lookup_insert] at hlookup
  split_ifs at hlookup
  · exact Option.some.inj hlookup ▸ Nat.zero_le _
  · exact Option.some.inj hlookup ▸ Nat.zero_le _
  · exact hfields x (lookup_eq_some_iff.mp hlookup)

theorem erase_members (htype : t.fields.lookup "type" = none) (hv : t.fields.lookup "v" = none) :
    (t.members.erase "type").erase "v" = t.fields := by
  refine ext_lookup fun a => ?_
  rw [lookup_erase, lookup_erase, members, lookup_insert, lookup_insert]
  by_cases ha : a = "v"
  · rw [if_pos ha, ha, hv]
  · by_cases ha' : a = "type"
    · rw [if_neg ha, if_pos ha', ha', htype]
    · rw [if_neg ha, if_neg ha', if_neg ha, if_neg ha']

end TypedLetter

section Parser

variable {parse : Bytes → Option JsonValue}

theorem encode_of_decode {pt : Bytes} {t : TypedLetter} (h : decode parse pt = some t) : t.encode = .ok pt := by
  simp only [decode, bind_eq_some] at h
  obtain ⟨_, -, _, -, _, -, _, -, fields, -, _, -, kind, -, _, -, v, -, h⟩ := h
  split at h
  · next again hagain =>
    split at h
    · next heq =>
      obtain rfl := Option.some.inj h
      rw [hagain, heq]
    · cases h
  · cases h

theorem decode_encode (hparse : Json.Lawful parse) {t : TypedLetter} {b : Bytes} (h : t.encode = .ok b) :
    decode parse b = some t := by
  obtain ⟨hdepth, raw, hraw, hsize, rfl⟩ := TypedLetter.encode_eq_ok h
  obtain ⟨htype, hv, ⟨cs, rfl⟩, hprints⟩ := TypedLetter.canonical_eq_ok hraw
  obtain ⟨hpos, hmod, hmax⟩ := TypedLetter.length_of_encode h
  have hbytes : utf8 (String.ofList (cs ++ ['}'])) = utf8 (String.ofList cs) ++ [0x7d] := utf8_concat cs (by decide)
  have htrim : trimSpaces (padSpaces bucket (utf8 (String.ofList (cs ++ ['}'])))) =
      utf8 (String.ofList (cs ++ ['}'])) := by
    rw [hbytes]
    exact trimSpaces_padSpaces (by decide)
  have hread := hparse _ _ (hprints 126 (hdepth.trans (by decide))).denotes
  have hkind : t.members.lookup "type" = some (.string t.kind) := by
    rw [TypedLetter.members, lookup_insert, if_neg (by decide), lookup_insert, if_pos rfl]
  have hversion : (t.members.erase "type").lookup "v" = some (.nat t.v) := by
    rw [lookup_erase, if_neg (by decide), TypedLetter.members, lookup_insert, if_pos rfl]
  have hletter : ({ kind := t.kind, v := t.v, fields := (t.members.erase "type").erase "v" } : TypedLetter) = t :=
    TypedLetter.ext rfl rfl (TypedLetter.erase_members htype hv)
  have hne : utf8 (String.ofList (cs ++ ['}'])) ≠ [] := by
    rw [hbytes]
    exact concat_ne_nil _ _
  have hguard : padSpaces bucket (utf8 (String.ofList (cs ++ ['}']))) ≠ [] ∧
      (padSpaces bucket (utf8 (String.ofList (cs ++ ['}'])))).length ≤ maxLetter ∧
      (padSpaces bucket (utf8 (String.ofList (cs ++ ['}'])))).length % bucket = 0 :=
    ⟨ne_nil_of_length_pos hpos, hmax, hmod⟩
  have hstr : (JsonValue.string t.kind).asStr = some t.kind := JsonValue.asStr_eq_some.mpr rfl
  have hu64 : (JsonValue.nat t.v).asU64 = some t.v := JsonValue.asU64_eq_some.mpr rfl
  rw [decode, htrim, guard_eq_some_iff (u := ()).mpr hguard, guard_eq_some_iff (u := ()).mpr hne, hread]
  simp only [some_bind, guard_eq_some_iff (u := ()).mpr (TypedLetter.depth_members hdepth),
    JsonValue.asObject_object, hkind, hversion, hstr, hu64, hletter, h, if_true]

/-- The bytes that are read as a letter are those it is written as. -/
theorem decode_eq_some_iff (hparse : Json.Lawful parse) {pt : Bytes} {t : TypedLetter} :
    decode parse pt = some t ↔ t.encode = .ok pt :=
  ⟨encode_of_decode, decode_encode hparse⟩

end Parser

end DashForge.KeyLetter
