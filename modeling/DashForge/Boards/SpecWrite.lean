import DashForge.Boards.Spec
import DashForge.Data.JsonWrite

/-!
# Writing a board definition

`serializeSpec` (`rules/boards.rs`): the compact JSON of a definition, its keys in the order they are declared and its
defaults left out, read back before it is returned. Parsing JSON is a parameter: of the parser, `BoardEnv.ReadsJson` says
that it reads each text as what it denotes.

`Ok` says of each part of a definition that it keeps to the limits and names only what is defined; it is what the reader
checks.
-/

namespace DashForge

open Json (Printed)
open List

namespace Value

variable (f64 : JsonNumber → ℚ)

mutual

/-- A JSON value, its numbers by the value of their `f64`. -/
def ofJson : Json → Value
  | .null => .null
  | .bool b => .bool b
  | .number n => .num (f64 n)
  | .string s => .str s
  | .array items => .arr (ofItems items)
  | .object members => .obj (ofMembers members)

def ofItems : List Json → List Value
  | [] => []
  | v :: items => ofJson v :: ofItems items

def ofMembers : List (String × Json) → List (String × Value)
  | [] => []
  | (key, v) :: members => (key, ofJson v) :: ofMembers members

end

theorem ofItems_eq_map (items : List Json) : ofItems f64 items = items.map (ofJson f64) := by
  induction items with
  | nil => rfl
  | cons v items ih => rw [ofItems, ih, map_cons]

theorem ofMembers_eq_map (members : List (String × Json)) :
    ofMembers f64 members = members.map fun x => (x.1, ofJson f64 x.2) := by
  induction members with
  | nil => rfl
  | cons x members ih => rw [ofMembers, ih, map_cons]

end Value

/-- The parser reads each text as what it denotes, and whole numbers up to 2⁵³ exactly. -/
def BoardEnv.ReadsJson (env : BoardEnv) (f64 : JsonNumber → ℚ) : Prop :=
  (∀ n : UInt64, n.toNat < 2 ^ 53 → f64 (.posInt n) = n.toNat) ∧
    ∀ text v, Json.Denotes text v → env.fromStr (String.ofList text) = some (Value.ofJson f64 v.val)

/-! ### What is written

The members of each part in their order, with none for one that is left out. -/

section Writers

variable {d : ℕ}

def numberOut (n : ℕ) : Printed d := .number (UInt64.ofNat n)

def nonZero (n : ℕ) : Option (Printed d) := if n = 0 then none else some (numberOut n)

def nonEmpty (s : String) : Option (Printed d) := if s = "" then none else some (.string s)

def nonEmptyList (items : List (Printed d)) : Option (Printed (d + 1)) :=
  if items = [] then none else some (.array items)

def BoardColumn.members (c : BoardColumn) : List (String × Option (Printed d)) :=
  [("id", some (numberOut c.id)), ("name", some (.string c.name)), ("color", c.color.map .string),
    ("wip", c.wip.map numberOut)]

def BoardColumn.out (c : BoardColumn) : Printed (d + 1) := .struct c.members

def FieldType.name : FieldType → String
  | .sel => "sel"
  | .num => "num"
  | .date => "date"
  | .iter => "iter"
  | .text => "text"

def FieldOption.members (o : FieldOption) : List (String × Option (Printed d)) :=
  [("id", some (numberOut o.id)), ("name", some (.string o.name)), ("color", o.color.map .string)]

def FieldOption.out (o : FieldOption) : Printed (d + 1) := .struct o.members

def BoardField.members (f : BoardField) : List (String × Option (Printed (d + 2))) :=
  [("id", some (numberOut f.id)), ("name", some (.string f.name)), ("type", some (.string f.kind.name)),
    ("options", f.options.map fun l => .array (l.map FieldOption.out)), ("start", f.start.map .string),
    ("days", f.days.map numberOut)]

def BoardField.out (f : BoardField) : Printed (d + 3) := .struct f.members

def SourceKind.name : SourceKind → String
  | .issues => "i"
  | .pulls => "p"
  | .all => "a"

def BoardSource.members (s : BoardSource) : List (String × Option (Printed d)) :=
  [("r", s.r.map .string), ("k", some (.string s.k.name)), ("q", nonEmpty s.q)]

def BoardSource.out (s : BoardSource) : Printed (d + 1) := .struct s.members

def ViewLayout.name : ViewLayout → String
  | .board => "board"
  | .table => "table"
  | .roadmap => "roadmap"

def BoardView.members (w : BoardView) : List (String × Option (Printed (d + 1))) :=
  [("id", some (numberOut w.id)), ("name", some (.string w.name)), ("layout", some (.string w.layout.name)),
    ("q", nonEmpty w.q), ("group", w.group.map .string), ("lane", w.lane.map .string), ("sort", w.sort.map .string),
    ("cols", w.cols.map fun l => .array (l.map .string)), ("date", w.date.map fun l => .array (l.map numberOut))]

def BoardView.out (w : BoardView) : Printed (d + 2) := .struct w.members

def BoardSpec.members (s : BoardSpec) : List (String × Option (Printed (d + 4))) :=
  [("v", some (numberOut s.v)), ("desc", s.desc.map .string),
    ("columns", some (.array (s.columns.map BoardColumn.out))),
    ("def", nonZero s.dflt), ("done", nonZero s.done), ("sources", nonEmptyList (s.sources.map BoardSource.out)),
    ("fields", nonEmptyList (s.fields.map BoardField.out)), ("views", nonEmptyList (s.views.map BoardView.out)),
    ("arch", nonZero s.arch)]

def BoardSpec.out (s : BoardSpec) : Printed (d + 5) := .struct s.members

end Writers

/-- The JSON of a definition (`serde_json::to_string`). -/
def BoardSpec.toJson (s : BoardSpec) : String := String.ofList (BoardSpec.out s : Printed 127).text

/-- A definition as it is read: an empty description is none. -/
def BoardSpec.canonical (s : BoardSpec) : BoardSpec := { s with desc := s.desc.filter (· ≠ "") }

/-- Write a definition that reads back. -/
def serializeSpec (env : BoardEnv) (spec : BoardSpec) : Except SpecError String := do
  let back ← parseSpec env spec.toJson
  return back.toJson

/-! ### What a part keeps to -/

structure BoardColumn.Ok (c : BoardColumn) : Prop where
  id : 1 ≤ c.id ∧ c.id ≤ 255
  name : nameOk c.name = true
  color : ∀ s ∈ c.color, isColor s = true
  wip : ∀ n ∈ c.wip, 1 ≤ n ∧ n ≤ 9999

structure FieldOption.Ok (o : FieldOption) : Prop where
  id : 1 ≤ o.id ∧ o.id ≤ 255
  name : nameOk o.name = true
  color : ∀ s ∈ o.color, isColor s = true

/-- A field's options, each id and name once. -/
structure OptionsOk (env : BoardEnv) (l : List FieldOption) : Prop where
  length : l.length ≤ maxOptions
  each : ∀ o ∈ l, o.Ok
  distinct : ¬repeats env (l.map fun o => (o.id, o.name)) = true

/-- What a field has besides its name is what its type asks for. -/
inductive BoardField.Shape (env : BoardEnv) : FieldType → Option (List FieldOption) → Option String → Option ℕ → Prop
  | sel {options : List FieldOption} (h : OptionsOk env options) : Shape env .sel (some options) none none
  | iter {start : String} {days : ℕ} (hstart : (dateDays start).isSome = true) (hdays : 1 ≤ days ∧ days ≤ 90) :
    Shape env .iter none (some start) (some days)
  | plain {kind : FieldType} (hsel : kind ≠ .sel) (hiter : kind ≠ .iter) : Shape env kind none none none

structure BoardField.Ok (env : BoardEnv) (f : BoardField) : Prop where
  id : 1 ≤ f.id ∧ f.id ≤ 255
  name : fieldNameOk env f.name = true
  shape : Shape env f.kind f.options f.start f.days

structure BoardSource.Ok (s : BoardSource) : Prop where
  r : ∀ id ∈ s.r, isIdentifier id = true
  q : charLen s.q ≤ queryMax

/-- A roadmap's dates are one `iter` field or two `date` fields. -/
def DatesOk (fields : List BoardField) (ids : List ℕ) : Prop :=
  let types := ids.map fun id => (fields.find? (·.id = id)).map BoardField.kind
  types = [some .iter] ∨ types = [some .date, some .date] ∧ ids[0]? ≠ ids[1]?

structure BoardView.Ok (fields : List BoardField) (w : BoardView) : Prop where
  id : 1 ≤ w.id ∧ w.id ≤ 255
  name : nameOk w.name = true
  q : charLen w.q ≤ queryMax
  group : ∀ g ∈ w.group, groupKeyOk fields g (w.layout = .board) = true
  lane : ∀ l ∈ w.lane, l ≠ "status" ∧ l ≠ w.group.getD "status" ∧ groupKeyOk fields l false = true
  sort : ∀ s ∈ w.sort, sortKeyOk fields s = true
  cols : ∀ keys ∈ w.cols, keys.length ≤ maxViewCols ∧ (∀ k ∈ keys, colKeyOk fields k = true) ∧ keys.Nodup
  date : ∀ ids ∈ w.date, (∀ id ∈ ids, 1 ≤ id ∧ id ≤ 255) ∧ DatesOk fields ids

/-- A reference to a column names none or one of them. -/
def RefOk (columns : List BoardColumn) (id : ℕ) : Prop := id ≤ 255 ∧ (id = 0 ∨ id ∈ columns.map BoardColumn.id)

structure BoardSpec.Ok (env : BoardEnv) (s : BoardSpec) : Prop where
  v : s.v = 1
  desc : ∀ t ∈ s.desc, charLen t ≤ descMax ∧ t ≠ ""
  columns_length : 1 ≤ s.columns.length ∧ s.columns.length ≤ maxColumns
  columns : ∀ c ∈ s.columns, c.Ok
  columns_distinct : ¬repeats env (s.columns.map fun c => (c.id, c.name)) = true
  dflt : RefOk s.columns s.dflt
  done : RefOk s.columns s.done
  sources_length : s.sources.length ≤ maxSources
  sources : ∀ r ∈ s.sources, r.Ok
  fields_length : s.fields.length ≤ maxFields
  fields : ∀ f ∈ s.fields, f.Ok env
  fields_distinct : ¬repeats env (s.fields.map fun f => (f.id, f.name)) = true
  views_length : s.views.length ≤ maxViews
  views : ∀ w ∈ s.views, w.Ok s.fields
  views_distinct : ¬repeats env (s.views.map fun w => (w.id, w.name)) = true
  arch : s.arch ≤ 3650

/-! ### The ranges of the integer types -/

/-- The ids and lengths are 8-bit, the limits of work 16-bit. -/
structure BoardSpec.Typed (s : BoardSpec) : Prop where
  v : s.v < 256
  columns : ∀ c ∈ s.columns, c.id < 256 ∧ ∀ n ∈ c.wip, n < 65536
  dflt : s.dflt < 256
  done : s.done < 256
  fields : ∀ f ∈ s.fields, f.id < 256 ∧ (∀ l ∈ f.options, ∀ o ∈ l, o.id < 256) ∧ ∀ n ∈ f.days, n < 256
  views : ∀ w ∈ s.views, w.id < 256 ∧ ∀ l ∈ w.date, ∀ id ∈ l, id < 256
  arch : s.arch < 65536

/-! ### Reading what is written -/

section ReadBack

variable {d : ℕ} (f64 : JsonNumber → ℚ)

/-- What a written text is read as. -/
def readBack (p : Printed d) : Value := Value.ofJson f64 p.value.val

@[simp]
theorem readBack_string (s : String) : readBack f64 (.string s : Printed d) = .str s := rfl

@[simp]
theorem readBack_array (items : List (Printed d)) : readBack f64 (.array items) = .arr (items.map (readBack f64)) := by
  change Value.arr (Value.ofItems f64 ((items.map Printed.value).map Subtype.val)) = _
  rw [Value.ofItems_eq_map, map_map, map_map]
  rfl

theorem readBack_object (m : SortedMap String JsonValue) :
    Value.ofJson f64 (JsonValue.object m).val = .obj (m.entries.map fun x => (x.1, Value.ofJson f64 x.2.val)) := by
  change Value.obj (Value.ofMembers f64 (m.entries.map fun x => (x.1, x.2.val))) = _
  rw [Value.ofMembers_eq_map, map_map]
  rfl

theorem lookup_map_eq_find? {β γ : Type} (f : β → γ) (l : List (String × β)) (key : String) :
    (l.map fun x => (x.1, f x.2)).lookup key = ((l.find? fun x => x.1 = key).map Prod.snd).map f := by
  induction l with
  | nil => rfl
  | cons x l ih =>
    by_cases hx : x.1 = key
    · simp [hx]
    · have hx' : (key == x.1) = false := beq_false_of_ne (Ne.symm hx)
      simp [lookup_cons, hx, hx', ih]

theorem exists_readBack_struct {members : List (String × Option (Printed d))} (h : (members.map Prod.fst).Nodup) :
    ∃ o, readBack f64 (.struct members) = .obj o ∧ ∀ x ∈ members, o.lookup x.1 = x.2.map (readBack f64) := by
  obtain ⟨m, hm, hlookup⟩ := Printed.exists_lookup_struct h
  refine ⟨_, (congrArg (fun v : JsonValue => Value.ofJson f64 v.val) hm).trans (readBack_object f64 m), fun x hx => ?_⟩
  refine (lookup_map_eq_find? (fun v : JsonValue => Value.ofJson f64 v.val) m.entries x.1).trans ?_
  rw [← SortedMap.lookup, hlookup x hx, Option.map_map]
  rfl

theorem readBack_numberOut {f64 : JsonNumber → ℚ} (hf : ∀ n : UInt64, n.toNat < 2 ^ 53 → f64 (.posInt n) = n.toNat)
    {n : ℕ} (hn : n < 65536) : readBack f64 (numberOut n : Printed d) = .num n := by
  have htoNat : (UInt64.ofNat n).toNat = n := UInt64.toNat_ofNat_of_lt' (by simp [UInt64.size]; omega)
  change Value.num (f64 (.posInt (UInt64.ofNat n))) = _
  rw [hf _ (by rw [htoNat]; omega), htoNat]

end ReadBack

end DashForge
