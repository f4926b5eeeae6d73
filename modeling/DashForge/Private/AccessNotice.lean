import DashForge.Private.Letters

/-!
# Access notices

What a maintainer lets a bot do in a repository (`private/access_notice.rs`), as the typed body it is written as
and read from. Fields a later version adds are kept.
-/

namespace DashForge.KeyLetter

open Doc (Bytes32 Crypto)
open Option SortedMap

/-! ### More readers -/

section Readers

variable {β : Type} {read : JsonValue → Option β} {write : β → JsonValue} {P : β → Prop}

/-- A value or null. -/
def optOf (read : JsonValue → Option β) (v : JsonValue) : Option (Option β) :=
  if v.isNull then some none else (read v).map some

theorem IsReader.optOf (h : IsReader read write P) (hnull : ∀ b, write b ≠ .null) :
    IsReader (optOf read) (fun o => o.elim .null write) fun o => ∀ b ∈ o, P b := by
  intro v o
  rw [KeyLetter.optOf]
  split
  · next hv =>
    obtain rfl := JsonValue.isNull_iff.mp hv
    cases o with
    | none => simp
    | some b => simpa using fun heq => absurd heq.symm (hnull b)
  · next hv =>
    rw [JsonValue.isNull_iff] at hv
    cases o with
    | none => simpa using hv
    | some b => simpa using h v b

def u32Of (v : JsonValue) : Option UInt32 := do
  let n ← v.asU64
  guard (n.toNat < 2 ^ 32)
  return n.toUInt32

theorem isReader_u32Of : IsReader u32Of (fun n => .nat n.toUInt64) fun _ => True := by
  intro v n
  simp only [u32Of, bind_eq_some, JsonValue.asU64_eq_some, guard_eq_some_iff,
    pure_def, some.injEq]
  constructor
  · rintro ⟨m, rfl, _, hlt, rfl⟩
    refine ⟨congrArg JsonValue.nat (UInt64.toNat_inj.mp ?_), trivial⟩
    rw [UInt32.toNat_toUInt64, UInt64.toNat_toUInt32]
    omega
  · rintro ⟨rfl, -⟩
    refine ⟨n.toUInt64, rfl, (), ?_, by simp⟩
    rw [UInt32.toNat_toUInt64]
    exact n.toNat_lt

end Readers

/-! ### Notices -/

/-- Who may ask the bot to work on something. -/
inductive Askers where
  | writers
  | maintainers
deriving DecidableEq, Repr

def Askers.asStr : Askers → String
  | .writers => "writers"
  | .maintainers => "maintainers"

def Askers.parse (s : String) : Option Askers :=
  if s = "writers" then some .writers else if s = "maintainers" then some .maintainers else none

/-- Which threads the bot may be asked about. -/
inductive Threads where
  | all
  | listed (ns : List UInt32)
deriving DecidableEq, Repr

/-- What a bot may do. -/
@[ext]
structure AccessNotice where
  bot : Bytes32
  /-- Abilities; those this version does not know grant nothing. -/
  may : List String
  askers : Askers
  threads : Threads
  /-- The service that processes what the bot is given. -/
  processor : Option String
  /-- When the access ends. -/
  until_ : Option UInt64
  /-- Earlier notices. -/
  revokes : List Bytes32
  note : String
  /-- The fields of later versions. -/
  extra : SortedMap String JsonValue

def processorMax : ℕ := 100

def noteMax : ℕ := 500

def threadsMax : ℕ := 100

def revokesMax : ℕ := 64

def abilityMax : ℕ := 40

def textOk (s : String) (max : ℕ) (allowNewline : Bool) : Bool :=
  s.length ≤ max && !s.toList.any fun c => isControl c && !(allowNewline && c = '\n')

namespace AccessNotice

def wellFormed (n : AccessNotice) : Bool :=
  ((n.may.all fun m => m ≠ "" && m.length ≤ abilityMax && m.toList.all Char.isAlphanum) &&
      (n.may.zip n.may.tail).all fun w => w.1 < w.2) &&
    (match n.threads with
      | .all => true
      | .listed ns => ns ≠ [] && ns.length ≤ threadsMax && (ns.head?.any fun x => 1 ≤ x.toNat) &&
        (ns.zip ns.tail).all fun w => w.1 < w.2) &&
    (n.processor.all fun p => !p.toList.all isWhitespace && textOk p processorMax false) &&
    (n.revokes.length ≤ revokesMax && (n.revokes.zip n.revokes.tail).all fun w => w.1.val < w.2.val) &&
    textOk n.note noteMax true && n.until_.all fun u => u.toNat ≤ maxInt

def typeAccessNotice : String := "accessNotice"

/-- The fields this version reads. -/
def fieldNames : List String := ["askers", "bot", "may", "note", "processor", "revokes", "threads", "until"]

def threadsValue : Threads → JsonValue
  | .all => .string "all"
  | .listed ns => .array (ns.map fun n => .nat n.toUInt64)

def threadsOf (v : JsonValue) : Option Threads :=
  if v.asStr = some "all" then some .all else (listOf u32Of v).map .listed

def askersOf (v : JsonValue) : Option Askers := v.asStr.bind Askers.parse

/-- The fields of this version. -/
def fields (n : AccessNotice) : List (String × JsonValue) :=
  [("askers", .string n.askers.asStr), ("bot", hexValue n.bot.val), ("may", .array (n.may.map .string)),
    ("note", .string n.note), ("processor", n.processor.elim .null .string),
    ("revokes", .array (n.revokes.map fun h => hexValue h.val)), ("threads", threadsValue n.threads),
    ("until", n.until_.elim .null .nat)]

def toTyped (n : AccessNotice) : Option TypedLetter :=
  if n.wellFormed && !fieldNames.any fun k => (n.extra.lookup k).isSome then
    some { kind := typeAccessNotice, v := 1, fields := n.extra.insertAll n.fields }
  else none

def fromTyped (t : TypedLetter) : Option AccessNotice := do
  guard (t.kind = typeAccessNotice ∧ t.v = 1)
  guard (fieldNames.all fun k => (t.fields.lookup k).isSome)
  let bot ← field t.fields "bot" hex32
  let may ← field t.fields "may" (listOf JsonValue.asStr)
  let threads ← field t.fields "threads" threadsOf
  let revokes ← field t.fields "revokes" (listOf hex32)
  let until_ ← field t.fields "until" (optOf JsonValue.asU64)
  let extra := t.fields.filter fun k _ => k ∉ fieldNames
  let askers ← field t.fields "askers" askersOf
  let processor ← field t.fields "processor" (optOf JsonValue.asStr)
  let note ← field t.fields "note" JsonValue.asStr
  let notice : AccessNotice := { bot, may, askers, threads, processor, until_, revokes, note, extra }
  if notice.wellFormed then some notice else none

theorem isReader_threadsOf : IsReader threadsOf threadsValue fun _ => True := by
  intro v threads
  rw [threadsOf]
  split
  · next hall =>
    obtain rfl := JsonValue.asStr_eq_some.mp hall
    cases threads with
    | all => simp [threadsValue]
    | listed ns => simp [threadsValue, JsonValue.string, JsonValue.array]
  · next hall =>
    rw [JsonValue.asStr_eq_some] at hall
    cases threads with
    | all => simpa [threadsValue] using hall
    | listed ns => simpa [threadsValue] using isReader_u32Of.listOf v ns

theorem isReader_askersOf : IsReader askersOf (fun a => .string a.asStr) fun _ => True := by
  intro v a
  simp only [askersOf, bind_eq_some_iff, JsonValue.asStr_eq_some, and_true]
  constructor
  · rintro ⟨s, rfl, h⟩
    rw [Askers.parse] at h
    split_ifs at h with hwriters hmaintainers
    · obtain rfl := some.inj h
      rw [hwriters]
      rfl
    · obtain rfl := some.inj h
      rw [hmaintainers]
      rfl
  · rintro rfl
    exact ⟨_, rfl, by cases a <;> rfl⟩

theorem nodup_fields (n : AccessNotice) : (n.fields.map Prod.fst).Nodup :=
  show fieldNames.Nodup by decide

theorem isSome_false_iff {n : AccessNotice} : (!fieldNames.any fun k => (n.extra.lookup k).isSome) = true ↔
    ∀ k ∈ fieldNames, n.extra.lookup k = none := by
  simp

theorem filter_of_const {α : Type*} {o : Option α} {b : Bool} (h : b = true) : o.filter (fun _ => b) = o := by
  subst h
  cases o <;> rfl

/-- A notice is read from the typed body it is written as, and from no other. -/
theorem fromTyped_eq_some_iff {t : TypedLetter} {n : AccessNotice} : fromTyped t = some n ↔ n.toTyped = some t := by
  have hnull : ∀ s, JsonValue.string s ≠ .null := fun s => by simp [JsonValue.string, JsonValue.null]
  have hnull' : ∀ u, JsonValue.nat u ≠ .null := fun u => by simp [JsonValue.nat, JsonValue.null]
  simp only [fromTyped, toTyped, bind_eq_some, guard_eq_some_iff, Bool.and_eq_true,
    isSome_false_iff, ite_none_right_eq_some, some.injEq, isReader_hex32.field, isReader_asStr.listOf.field,
    isReader_threadsOf.field, isReader_hex32.listOf.field, (isReader_asU64.optOf hnull').field, isReader_askersOf.field,
    (isReader_asStr.optOf hnull).field, isReader_asStr.field]
  constructor
  · rintro ⟨_, ⟨hkind, hv⟩, _, -, bot, ⟨hbot, -⟩, may, ⟨hmay, -⟩, threads, ⟨hthreads, -⟩, revokes,
      ⟨hrevokes, -⟩, until_,
      ⟨huntil, -⟩, askers, ⟨haskers, -⟩, processor, ⟨hprocessor, -⟩, note, ⟨hnote, -⟩, hwell, rfl⟩
    refine ⟨⟨hwell, fun k hk => ?_⟩, TypedLetter.ext hkind.symm hv.symm (ext_lookup fun k => ?_)⟩
    · rw [lookup_filter]
      simp [hk]
    · by_cases hk : k ∈ fieldNames
      · -- one of the fields that were read
        have hfields : ∀ x ∈ fields ⟨bot, may, askers, threads, processor, until_, revokes, note,
            t.fields.filter fun k _ => k ∉ fieldNames⟩, t.fields.lookup x.1 = some x.2 := by
          simp only [fields, List.forall_mem_cons, List.not_mem_nil, false_imp_iff, implies_true, and_true]
          exact ⟨haskers, hbot, hmay, hnote, hprocessor, hrevokes, hthreads, huntil⟩
        obtain ⟨x, hx, rfl⟩ : ∃ x ∈ fields ⟨bot, may, askers, threads, processor, until_, revokes, note,
            t.fields.filter fun k _ => k ∉ fieldNames⟩, x.1 = k := List.mem_map.mp hk
        rw [lookup_insertAll_of_mem _ (nodup_fields _) hx, hfields x hx]
      · rw [lookup_insertAll_of_notMem _ hk, lookup_filter, filter_of_const (by simpa using hk)]
  · rintro ⟨⟨hwell, hextra⟩, rfl⟩
    have hlookup : ∀ x ∈ n.fields, (n.extra.insertAll n.fields).lookup x.1 = some x.2 := fun x hx =>
      lookup_insertAll_of_mem _ (nodup_fields n) hx
    have hrest : ∀ k ∉ fieldNames, (n.extra.insertAll n.fields).lookup k = n.extra.lookup k := fun k hk =>
      lookup_insertAll_of_notMem _ hk
    have hsome : (fieldNames.all fun k => ((n.extra.insertAll n.fields).lookup k).isSome) = true := by
      refine List.all_eq_true.mpr fun k hk => ?_
      obtain ⟨x, hx, rfl⟩ : ∃ x ∈ n.fields, x.1 = k := List.mem_map.mp hk
      rw [hlookup x hx]
      rfl
    generalize n.extra.insertAll n.fields = m at hlookup hrest hsome
    have hfilter : (m.filter fun k _ => k ∉ fieldNames) = n.extra := by
      refine ext_lookup fun k => ?_
      rw [lookup_filter]
      by_cases hk : k ∈ fieldNames
      · simp [hk, hextra k hk]
      · rw [filter_of_const (by simpa using hk), hrest k hk]
    simp only [fields, List.forall_mem_cons, List.not_mem_nil, false_imp_iff, implies_true, and_true] at hlookup
    obtain ⟨haskers, hbot, hmay, hnote, hprocessor, hrevokes, hthreads, huntil⟩ := hlookup
    rw [hfilter]
    exact ⟨(), ⟨rfl, rfl⟩, (), hsome, _, ⟨hbot, trivial⟩, _, ⟨hmay, fun _ _ => trivial⟩, _, ⟨hthreads, trivial⟩, _,
      ⟨hrevokes, fun _ _ => trivial⟩, _, ⟨huntil, fun _ _ => trivial⟩, _, ⟨haskers, trivial⟩, _,
      ⟨hprocessor, fun _ _ => trivial⟩, _, ⟨hnote, trivial⟩, hwell, rfl⟩

end AccessNotice

/-! ### One form -/

section Parser

variable {parse : Bytes → Option JsonValue}

/-- A letter has one byte form, which is read as the letter and as no other, in whole buckets and nested no deeper
than allowed; a branch letter, a read letter and an access notice each have one typed body. -/
theorem letters_spec (hparse : Json.Lawful parse) :
    (∀ (t : TypedLetter) (b : Bytes), t.encode = .ok b →
      decode parse b = some t ∧ b.length % bucket = 0 ∧ b.length ≤ maxLetter) ∧
    (∀ (pt : Bytes) (t : TypedLetter), decode parse pt = some t ↔ t.encode = .ok pt) ∧
    (∀ (pt : Bytes) (t : TypedLetter), decode parse pt = some t → (JsonValue.object t.fields).val.depth ≤ maxDepth) ∧
    (∀ (c : Crypto) (x : BranchLetter) (t : TypedLetter), BranchLetter.fromTyped c t = some x ↔ x.toTyped c = some t) ∧
    (∀ (c : Crypto) (x : ReadLetter) (t : TypedLetter), ReadLetter.fromTyped c t = some x ↔ x.toTyped c = some t) ∧
    ∀ (x : AccessNotice) (t : TypedLetter), AccessNotice.fromTyped t = some x ↔ x.toTyped = some t := by
  refine ⟨fun t b h => ?_, fun pt t => decode_eq_some_iff hparse, fun pt t h => ?_, fun c x t => ?_, fun c x t => ?_,
    fun x t => ?_⟩
  · obtain ⟨-, hmod, hmax⟩ := TypedLetter.length_of_encode h
    exact ⟨decode_encode hparse h, hmod, hmax⟩
  · exact (TypedLetter.encode_eq_ok (encode_of_decode h)).1
  · exact BranchLetter.fromTyped_eq_some_iff c
  · exact ReadLetter.fromTyped_eq_some_iff c
  · exact AccessNotice.fromTyped_eq_some_iff

/-- A letter with a nested field. -/
def letterSample : TypedLetter where
  kind := "t"
  v := 1
  fields := .ofList [("a", .array [.nat 7, .string "\n"])]

def letterText : String := "\x7b\"a\":[7,\"\\n\"],\"type\":\"t\",\"v\":1\x7d"

theorem encode_letterSample : letterSample.encode = .ok (padSpaces bucket (utf8 letterText)) := by
  have hdepth : (JsonValue.object letterSample.fields).val.depth = 2 := by decide +kernel
  have hcanonical : letterSample.canonical = .ok letterText.toList := by decide +kernel
  have hlength : (utf8 letterText).length = 31 := by decide +kernel
  rw [TypedLetter.encode, hdepth]
  refine bind_eq_ok.mpr ⟨(), refuseIf_eq_ok.mpr (by decide), bind_eq_ok.mpr ⟨_, hcanonical, ?_⟩⟩
  rw [String.ofList_toList]
  refine bind_eq_ok.mpr ⟨(), refuseIf_eq_ok.mpr ?_, rfl⟩
  rw [hlength]
  decide

theorem letters_spec_sample : letterSample.encode = .ok (padSpaces bucket (utf8 letterText)) ∧
    decode Json.parse (padSpaces bucket (utf8 letterText)) = some letterSample :=
  ⟨encode_letterSample, ((letters_spec Json.lawful_parse).1 _ _ encode_letterSample).1⟩

end Parser

end DashForge.KeyLetter
