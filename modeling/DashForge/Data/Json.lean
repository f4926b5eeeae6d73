import DashForge.Data.SortedMap
import Mathlib.Data.String.Basic

/-!
# JSON values

JSON trees, and the values among them (`JsonValue`): a tree whose objects have each key once, in order. A value
is a scalar, an array of values or a map from strings to values, and each way to build one has a reader that
undoes it.
-/

namespace DashForge

open List

/-- A number, apart by how it is kept. -/
inductive JsonNumber where
  | posInt (n : UInt64)
  | negInt (n : Int64)
  /-- The bits of a double. -/
  | float (bits : UInt64)
deriving DecidableEq

inductive Json where
  | null
  | bool (b : Bool)
  | number (n : JsonNumber)
  | string (s : String)
  | array (items : List Json)
  | object (members : List (String × Json))
deriving Inhabited

namespace Json

theorem induct {P : Json → Prop} (null : P .null) (bool : ∀ b, P (.bool b)) (number : ∀ n, P (.number n))
    (string : ∀ s, P (.string s)) (array : ∀ items, (∀ v ∈ items, P v) → P (.array items))
    (object : ∀ members, (∀ x ∈ members, P x.2) → P (.object members)) (v : Json) : P v := by
  refine @Json.rec P (fun items => ∀ v ∈ items, P v) (fun members => ∀ x ∈ members, P x.2) (fun x => P x.2)
    null bool number string array object (by simp) ?_ (by simp) ?_ (fun _ _ h => h) v
  · intro v items hv hitems x hx
    rcases mem_cons.mp hx with rfl | hx
    · exact hv
    · exact hitems x hx
  · intro y members hy hmembers x hx
    rcases mem_cons.mp hx with rfl | hx
    · exact hy
    · exact hmembers x hx

mutual

/-- How deep arrays and objects nest. -/
def depth : Json → ℕ
  | .array items => 1 + depthItems items
  | .object members => 1 + depthMembers members
  | _ => 0

def depthItems : List Json → ℕ
  | [] => 0
  | v :: items => max (depth v) (depthItems items)

def depthMembers : List (String × Json) → ℕ
  | [] => 0
  | (_, v) :: members => max (depth v) (depthMembers members)

end

/-- Each key of an object once, in order. -/
inductive Sorted : Json → Prop
  | null : Sorted .null
  | bool (b : Bool) : Sorted (.bool b)
  | number (n : JsonNumber) : Sorted (.number n)
  | string (s : String) : Sorted (.string s)
  | array {items : List Json} (h : ∀ v ∈ items, Sorted v) : Sorted (.array items)
  | object {members : List (String × Json)} (hkeys : members.Pairwise fun x y => x.1 < y.1)
    (h : ∀ x ∈ members, Sorted x.2) : Sorted (.object members)

end Json

/-- A JSON value. -/
abbrev JsonValue : Type := { v : Json // v.Sorted }

namespace JsonValue

/-! ### Building -/

def null : JsonValue := ⟨.null, .null⟩

def bool (b : Bool) : JsonValue := ⟨.bool b, .bool b⟩

def nat (n : UInt64) : JsonValue := ⟨.number (.posInt n), .number _⟩

def string (s : String) : JsonValue := ⟨.string s, .string s⟩

def array (items : List JsonValue) : JsonValue :=
  ⟨.array (items.map Subtype.val), .array fun v hv => by
    obtain ⟨x, -, rfl⟩ := mem_map.mp hv
    exact x.2⟩

def object (members : SortedMap String JsonValue) : JsonValue :=
  ⟨.object (members.entries.map fun x => (x.1, x.2.val)),
    .object (pairwise_map.mpr members.sorted) fun x hx => by
      obtain ⟨y, -, rfl⟩ := mem_map.mp hx
      exact y.2.2⟩

/-! ### Reading -/

def isNull (v : JsonValue) : Bool :=
  match v.val with
  | .null => true
  | _ => false

def asU64 (v : JsonValue) : Option UInt64 :=
  match v.val with
  | .number (.posInt n) => some n
  | _ => none

def asStr (v : JsonValue) : Option String :=
  match v.val with
  | .string s => some s
  | _ => none

def asArray (v : JsonValue) : Option (List JsonValue) :=
  match v with
  | ⟨.array items, h⟩ => some (items.attachWith Json.Sorted fun x hx => by cases h with | array h => exact h x hx)
  | _ => none

/-- The members of a sorted object, with their values. -/
def membersOf {members : List (String × Json)} (h : Json.Sorted (.object members)) : List (String × JsonValue) :=
  members.attach.map fun x => (x.1.1, ⟨x.1.2, by cases h with | object _ h => exact h x.1 x.2⟩)

theorem map_membersOf {members : List (String × Json)} (h : Json.Sorted (.object members)) :
    ((membersOf h).map fun x => (x.1, x.2.val)) = members := by
  rw [membersOf, map_map]
  exact attach_map_subtype_val members

def asObject (v : JsonValue) : Option (SortedMap String JsonValue) :=
  match v with
  | ⟨.object _, h⟩ => some
    { entries := membersOf h
      sorted := by
        have hkeys := h
        cases hkeys with
        | object hkeys _ =>
          rw [← map_membersOf h] at hkeys
          exact (pairwise_map (f := fun x : String × JsonValue => (x.1, x.2.val))).mp hkeys }
  | _ => none

variable {v : JsonValue}

theorem isNull_iff : v.isNull = true ↔ v = null := by
  obtain ⟨v, hv⟩ := v
  cases v <;> simp [isNull, null]

theorem asU64_eq_some {n : UInt64} : v.asU64 = some n ↔ v = nat n := by
  obtain ⟨v, hv⟩ := v
  cases v with
  | number m => cases m <;> simp [asU64, nat]
  | _ => simp [asU64, nat]

theorem asStr_eq_some {s : String} : v.asStr = some s ↔ v = string s := by
  obtain ⟨v, hv⟩ := v
  cases v <;> simp [asStr, string]

theorem asArray_eq_some {items : List JsonValue} : v.asArray = some items ↔ v = array items := by
  constructor
  · intro h
    obtain ⟨v, hv⟩ := v
    cases v with
    | array xs =>
      obtain rfl := Option.some.inj h
      exact Subtype.ext (congrArg Json.array (attachWith_map_subtype_val _).symm)
    | _ => cases h
  · rintro rfl
    rw [array, asArray]
    exact congrArg some (map_injective_iff.mpr Subtype.val_injective (attachWith_map_subtype_val _))

theorem asObject_eq_some {members : SortedMap String JsonValue} : v.asObject = some members ↔ v = object members := by
  have hinj : Function.Injective fun x : String × JsonValue => (x.1, x.2.val) := by
    rintro ⟨k, v⟩ ⟨k', v'⟩ h
    obtain ⟨hk, hv⟩ := Prod.mk.inj h
    exact Prod.ext hk (Subtype.ext hv)
  constructor
  · intro h
    obtain ⟨v, hv⟩ := v
    cases v with
    | object ms =>
      obtain rfl := Option.some.inj h
      exact Subtype.ext (congrArg Json.object (map_membersOf hv).symm)
    | _ => cases h
  · rintro rfl
    rw [object, asObject]
    exact congrArg some (SortedMap.ext (map_injective_iff.mpr hinj (map_membersOf (object members).2)))

theorem induct {P : JsonValue → Prop} (null : P null) (bool : ∀ b, P (bool b))
    (number : ∀ n, P ⟨.number n, .number n⟩) (string : ∀ s, P (string s))
    (array : ∀ items, (∀ v ∈ items, P v) → P (array items))
    (object : ∀ members, (∀ x ∈ members.entries, P x.2) → P (object members)) (v : JsonValue) : P v := by
  obtain ⟨v, hv⟩ := v
  induction v using Json.induct with
  | null => exact null
  | bool b => exact bool b
  | number n => exact number n
  | string s => exact string s
  | array items ih =>
    rw [asArray_eq_some.mp (show asArray ⟨.array items, hv⟩ = some _ from rfl)]
    exact array _ fun v hmem => ih v.1 ((mem_attachWith _ _).mp hmem) v.2
  | object members ih =>
    rw [asObject_eq_some.mp (show asObject ⟨.object members, hv⟩ = some _ from rfl)]
    refine object _ fun x hx => ih (x.1, x.2.val) ?_ x.2.2
    have hmem := mem_map_of_mem (f := fun x : String × JsonValue => (x.1, x.2.val)) hx
    rwa [map_membersOf] at hmem

theorem asArray_array (items : List JsonValue) : (array items).asArray = some items := asArray_eq_some.mpr rfl

theorem asObject_object (members : SortedMap String JsonValue) : (object members).asObject = some members :=
  asObject_eq_some.mpr rfl

end JsonValue

end DashForge
