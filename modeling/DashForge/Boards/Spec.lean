import DashForge.Boards.Value
import DashForge.Data.Except
import Mathlib.Data.Finset.Card

/-!
# Board definitions

A board's `spec` (`rules/boards.rs`): its columns, default and Done columns, sources, custom fields
and saved views, read strictly by `parseSpec`. The first problem found, in the key order of the
source, is the error.

`SpecOk` is what the rest of the board rules rely on in an accepted spec: the columns have distinct
ids, none of them 0 (which is "No status"), and `def` and `done` are 0 or one of them.
-/

namespace DashForge

/-! ### The definition -/

/-- A status column; the order is that of the list. -/
structure BoardColumn where
  /-- 1–255. -/
  id : ℕ
  name : String
  color : Option String
  /-- WIP limit. -/
  wip : Option ℕ
deriving DecidableEq, Repr

/-- The custom field types. -/
inductive FieldType where
  /-- Single select: an option id. -/
  | sel
  | num
  | date
  /-- An iteration index. -/
  | iter
  | text
deriving DecidableEq, Repr

/-- A single-select option. -/
structure FieldOption where
  id : ℕ
  name : String
  color : Option String
deriving DecidableEq, Repr

/-- A custom field: `options` for `sel`, `start` and `days` for `iter`. -/
structure BoardField where
  id : ℕ
  name : String
  kind : FieldType
  options : Option (List FieldOption)
  start : Option String
  days : Option ℕ
deriving DecidableEq, Repr

/-- A source's kind. -/
inductive SourceKind where
  | issues
  | pulls
  | all
deriving DecidableEq, Repr

/-- An auto-include rule: the items of repository `r` (absent: the home repository) of kind `k`
that query `q` matches. -/
structure BoardSource where
  r : Option String
  k : SourceKind
  q : String
deriving DecidableEq, Repr

/-- A view's layout. -/
inductive ViewLayout where
  | board
  | table
  | roadmap
deriving DecidableEq, Repr

/-- A saved view. -/
structure BoardView where
  id : ℕ
  name : String
  layout : ViewLayout
  q : String
  group : Option String
  lane : Option String
  sort : Option String
  cols : Option (List String)
  date : Option (List ℕ)
deriving DecidableEq, Repr

/-- A board definition. -/
structure BoardSpec where
  v : ℕ
  desc : Option String
  columns : List BoardColumn
  /-- The default column, 0 for none. -/
  dflt : ℕ
  /-- The Done column, 0 for none. -/
  done : ℕ
  sources : List BoardSource
  fields : List BoardField
  views : List BoardView
  /-- Auto-archive after this many days, 0 for never. -/
  arch : ℕ
deriving DecidableEq, Repr

namespace BoardSpec

/-- A field by id. -/
def field (spec : BoardSpec) (id : ℕ) : Option BoardField := spec.fields.find? (·.id = id)

/-- The position of a column. -/
def columnIndex (spec : BoardSpec) (id : ℕ) : Option ℕ := spec.columns.findIdx? (·.id = id)

end BoardSpec

/-- Why a spec was refused. -/
inductive SpecError where
  | json | version | size | desc | columns | column | dflt | done | sources | source | fields
  | field | options | views | view | arch
deriving DecidableEq, Repr

/-- The code both clients name a refusal by. -/
def SpecError.asStr : SpecError → String
  | json => "json"
  | version => "version"
  | size => "size"
  | desc => "desc"
  | columns => "columns"
  | column => "column"
  | dflt => "def"
  | done => "done"
  | sources => "sources"
  | source => "source"
  | fields => "fields"
  | field => "field"
  | options => "options"
  | views => "views"
  | view => "view"
  | arch => "arch"

/-! ### Limits and keys -/

def specMaxBytes : ℕ := 4096
def maxColumns : ℕ := 20
def maxFields : ℕ := 12
def maxOptions : ℕ := 30
def maxSources : ℕ := 5
def maxViews : ℕ := 8
def maxViewCols : ℕ := 24
def descMax : ℕ := 1024
def queryMax : ℕ := 512
def wipMax : ℤ := 9999
def iterDaysMax : ℤ := 90
def archMax : ℤ := 3650

/-- Names a field may not have, in any letter case. -/
def reservedFieldNames : List String :=
  ["is", "state", "label", "labels", "assignee", "assignees", "author", "milestone", "no",
    "status", "repo", "repository", "title", "number", "created"]

def groupBuiltins : List String := ["status", "assignee", "label", "milestone", "repo"]

def sortBuiltins : List String :=
  ["rank", "title", "number", "created", "status", "repo", "author", "milestone"]

def colBuiltins : List String :=
  ["title", "number", "repo", "state", "author", "assignees", "labels", "milestone", "created",
    "status"]

/-- The field id an `f<id>` key names (1–255, no leading zero). -/
def fieldKeyId (key : String) : Option ℕ := do
  let digits ← key.toList.dropPrefix? ['f']
  if digits.isEmpty || decide (3 < digits.length) || decide (['0'] <+: digits)
      || !digits.all Char.isDigit then none
  else parseU8 digits

def fieldOfKey (fields : List BoardField) (key : String) : Option BoardField := do
  let id ← fieldKeyId key
  fields.find? (·.id = id)

def groupKeyOk (fields : List BoardField) (key : String) (boardLayout : Bool) : Bool :=
  if key = "status" then true
  else if groupBuiltins.contains key then !boardLayout
  else (fieldOfKey fields key).any fun f => f.kind = .sel || f.kind = .iter

def sortKeyOk (fields : List BoardField) (key : String) : Bool :=
  let k := if ['-'] <+: key.toList then String.ofList key.toList.tail else key
  sortBuiltins.contains k || (fieldOfKey fields k).isSome

def colKeyOk (fields : List BoardField) (key : String) : Bool :=
  colBuiltins.contains key || (fieldOfKey fields key).isSome

/-! ### Reading a definition -/

/-- Whether ids or names (in lower case) repeat. -/
def repeats (env : BoardEnv) (entries : List (ℕ × String)) : Bool :=
  let n := entries.length
  let ids := (entries.map Prod.fst).toFinset
  let names := (entries.map fun e => env.toLowercase e.2).toFinset
  ids.card != n || names.card != n

def colorOf (v : Option Value) (err : SpecError) : Except SpecError (Option String) :=
  match v with
  | none => .ok none
  | some v => okOr ((v.asStr.filter isColor).map some) err

/-- An entry's `id` (1–255) and `name`. -/
def idName (o : Members) (ok : String → Bool) : Option (ℕ × String) := do
  let id ← intIn (o.lookup "id") 1 255
  let name ← (← o.lookup "name").asStr.filter ok
  return (id.toNat, name)

def parseWip (v : Option Value) : Except SpecError (Option ℕ) :=
  match v with
  | none => .ok none
  | some w => okOr ((intIn (some w) 1 wipMax).map fun n => some n.toNat) .column

def parseColumn (c : Value) : Except SpecError BoardColumn := do
  let o ← okOr c.asObject .column
  let (id, name) ← okOr (idName o nameOk) .column
  let color ← colorOf (o.lookup "color") .column
  let wip ← parseWip (o.lookup "wip")
  return ⟨id, name, color, wip⟩

def parseColumns (env : BoardEnv) (v : Option Value) : Except SpecError (List BoardColumn) := do
  let list ← okOr ((v.bind Value.asArray).filter
    fun l => decide (1 ≤ l.length ∧ l.length ≤ maxColumns)) .columns
  let out ← list.mapM parseColumn
  refuseIf (repeats env (out.map fun c => (c.id, c.name))) .column
  return out

/-- A reference to a column: absent and 0 are none. -/
def parseColumnRef (v : Option Value) (columns : List BoardColumn) (err : SpecError) :
    Except SpecError ℕ :=
  match v with
  | none => .ok 0
  | some v => do
    let id ← okOr (intIn (some v) 0 255) err
    let id := id.toNat
    refuseIf (id ≠ 0 ∧ !columns.any (·.id = id)) err
    return id

def parseSourceRepo (v : Option Value) : Except SpecError (Option String) :=
  match v with
  | none => .ok none
  | some repo => okOr ((repo.asStr.filter isIdentifier).map some) .source

def parseSourceKind (v : Option Value) : Except SpecError SourceKind :=
  match v.bind Value.asStr with
  | some "i" => .ok .issues
  | some "p" => .ok .pulls
  | some "a" => .ok .all
  | _ => .error .source

/-- A query's text, absent for none. -/
def parseQueryText (v : Option Value) : Option String :=
  match v with
  | none => some ""
  | some text => textIn text queryMax

def parseSource (entry : Value) : Except SpecError BoardSource := do
  let obj ← okOr entry.asObject .source
  let r ← parseSourceRepo (obj.lookup "r")
  let k ← parseSourceKind (obj.lookup "k")
  let q ← okOr (parseQueryText (obj.lookup "q")) .source
  return ⟨r, k, q⟩

def parseSources (value : Option Value) : Except SpecError (List BoardSource) :=
  match value with
  | none => .ok []
  | some value => do
    let list ← okOr (value.asArray.filter fun l => decide (l.length ≤ maxSources)) .sources
    list.mapM parseSource

def parseOption (o : Value) : Except SpecError FieldOption := do
  let o ← okOr o.asObject .options
  let (id, name) ← okOr (idName o nameOk) .options
  let color ← colorOf (o.lookup "color") .options
  return ⟨id, name, color⟩

def parseOptions (env : BoardEnv) (v : Option Value) : Except SpecError (List FieldOption) := do
  let list ← okOr ((v.bind Value.asArray).filter fun l => decide (l.length ≤ maxOptions)) .options
  let out ← list.mapM parseOption
  refuseIf (repeats env (out.map fun o => (o.id, o.name))) .options
  return out

def fieldNameOk (env : BoardEnv) (name : String) : Bool :=
  nameOk name
    && !name.toList.contains ':'
    && !decide (['-'] <+: name.toList)
    && !reservedFieldNames.contains (env.toLowercase name)

def parseFieldType (v : Option Value) : Except SpecError FieldType :=
  match v.bind Value.asStr with
  | some "sel" => .ok .sel
  | some "num" => .ok .num
  | some "date" => .ok .date
  | some "iter" => .ok .iter
  | some "text" => .ok .text
  | _ => .error .field

def parseField (env : BoardEnv) (f : Value) : Except SpecError BoardField := do
  let o ← okOr f.asObject .field
  let (id, name) ← okOr (idName o (fieldNameOk env)) .field
  let kind ← parseFieldType (o.lookup "type")
  refuseIf ((o.lookup "options").isSome ≠ decide (kind = .sel)) .field
  refuseIf (((o.lookup "start").isSome ∨ (o.lookup "days").isSome) ∧ kind ≠ .iter) .field
  match kind with
  | .sel =>
    let options ← parseOptions env (o.lookup "options")
    return ⟨id, name, kind, some options, none, none⟩
  | .iter =>
    let start ← okOr (((o.lookup "start").bind Value.asStr).filter
      fun s => (dateDays s).isSome) .field
    let days ← okOr (intIn (o.lookup "days") 1 iterDaysMax) .field
    return ⟨id, name, kind, none, some start, some days.toNat⟩
  | _ => return ⟨id, name, kind, none, none, none⟩

def parseFields (env : BoardEnv) (v : Option Value) : Except SpecError (List BoardField) :=
  match v with
  | none => .ok []
  | some v => do
    let list ← okOr (v.asArray.filter fun l => decide (l.length ≤ maxFields)) .fields
    let out ← list.mapM (parseField env)
    refuseIf (repeats env (out.map fun f => (f.id, f.name))) .field
    return out

/-- An optional string member: an error when present and not a string. -/
def optStr (o : Members) (key : String) : Except Unit (Option String) :=
  match o.lookup key with
  | none => .ok none
  | some (.str s) => .ok (some s)
  | some _ => .error ()

/-- A view's shown columns: known keys, none twice. -/
def parseViewKeys (fields : List BoardField) (c : Value) : Option (List String) := do
  let list ← c.asArray.filter fun l => decide (l.length ≤ maxViewCols)
  let keys ← list.mapM fun k => k.asStr.filter (colKeyOk fields)
  if keys.toFinset.card ≠ keys.length then none else some keys

def parseViewCols (fields : List BoardField) (v : Option Value) : Option (Option (List String)) :=
  match v with
  | none => some none
  | some c => (parseViewKeys fields c).map some

/-- A roadmap's dates: one `iter` field, or two distinct `date` fields. -/
def parseViewDates (fields : List BoardField) (d : Value) : Option (List ℕ) := do
  let ids ← (← d.asArray).mapM fun x => (intIn (some x) 1 255).map Int.toNat
  let types := ids.map fun id => (fields.find? (·.id = id)).map BoardField.kind
  let iter := types = [some .iter]
  let range := types = [some .date, some .date] ∧ ids[0]? ≠ ids[1]?
  if ¬iter ∧ ¬range then none else some ids

def parseViewDate (fields : List BoardField) (v : Option Value) : Option (Option (List ℕ)) :=
  match v with
  | none => some none
  | some d => (parseViewDates fields d).map some

def parseLayout : String → Option ViewLayout
  | "board" => some .board
  | "table" => some .table
  | "roadmap" => some .roadmap
  | _ => none

def parseView (w : Value) (fields : List BoardField) : Option BoardView := do
  let o ← w.asObject
  let (id, name) ← idName o nameOk
  let layout ← parseLayout (← (o.lookup "layout").bind Value.asStr)
  let q ← parseQueryText (o.lookup "q")
  let group ← (optStr o "group").toOption
  let lane ← (optStr o "lane").toOption
  let sort ← (optStr o "sort").toOption
  if group.any fun g => !groupKeyOk fields g (layout = .board) then none
  if lane.any fun l => l = "status" || l = group.getD "status" || !groupKeyOk fields l false then
    none
  if sort.any fun s => !sortKeyOk fields s then none
  let cols ← parseViewCols fields (o.lookup "cols")
  let date ← parseViewDate fields (o.lookup "date")
  return ⟨id, name, layout, q, group, lane, sort, cols, date⟩

def parseViews (env : BoardEnv) (v : Option Value) (fields : List BoardField) :
    Except SpecError (List BoardView) :=
  match v with
  | none => .ok []
  | some v => do
    let list ← okOr (v.asArray.filter fun l => decide (l.length ≤ maxViews)) .views
    let out ← list.mapM fun w => okOr (parseView w fields) .view
    refuseIf (repeats env (out.map fun w => (w.id, w.name))) .view
    return out

/-- A board's description; an empty one is none. -/
def parseDesc (v : Option Value) : Except SpecError (Option String) :=
  match v with
  | none => .ok none
  | some d => okOr ((textIn d descMax).map fun t => (some t).filter (· ≠ "")) .desc

def parseArch (v : Option Value) : Except SpecError ℕ :=
  match v with
  | none => .ok 0
  | some a => okOr ((intIn (some a) 0 archMax).map Int.toNat) .arch

/-- An object's members read as a definition. -/
def parseMembers (env : BoardEnv) (raw : Members) : Except SpecError BoardSpec := do
  refuseIf (intIn (raw.lookup "v") 1 1).isNone .version
  let desc ← parseDesc (raw.lookup "desc")
  let columns ← parseColumns env (raw.lookup "columns")
  let dflt ← parseColumnRef (raw.lookup "def") columns .dflt
  let done ← parseColumnRef (raw.lookup "done") columns .done
  let sources ← parseSources (raw.lookup "sources")
  let fields ← parseFields env (raw.lookup "fields")
  let views ← parseViews env (raw.lookup "views") fields
  let arch ← parseArch (raw.lookup "arch")
  return ⟨1, desc, columns, dflt, done, sources, fields, views, arch⟩

/-- Read a board definition. -/
def parseSpec (env : BoardEnv) (json : String) : Except SpecError BoardSpec :=
  if json.utf8ByteSize > specMaxBytes then .error .size
  else match env.fromStr json with
    | some (.obj raw) => parseMembers env raw
    | _ => .error .json

/-! ### What an accepted definition is -/

/-- What the other board rules rely on in a definition. -/
structure SpecOk (spec : BoardSpec) : Prop where
  columns_nodup : (spec.columns.map BoardColumn.id).Nodup
  columns_pos : ∀ c ∈ spec.columns, 1 ≤ c.id ∧ c.id ≤ 255
  dflt_mem : spec.dflt = 0 ∨ spec.dflt ∈ spec.columns.map BoardColumn.id
  done_mem : spec.done = 0 ∨ spec.done ∈ spec.columns.map BoardColumn.id

variable {env : BoardEnv} {id : ℕ} {v : Option Value} {cols : List BoardColumn}

theorem nodup_of_not_repeats {entries : List (ℕ × String)}
    (h : ¬repeats env entries = true) : (entries.map Prod.fst).Nodup := by
  simp only [repeats, Bool.or_eq_true, bne_iff_ne, not_or, ne_eq, not_not] at h
  refine Multiset.toFinset_card_eq_card_iff_nodup.mp (h.1.trans ?_)
  exact (List.length_map Prod.fst).symm

theorem idName_eq_some {o : Members} {ok : String → Bool} {name : String}
    (h : idName o ok = some (id, name)) : 1 ≤ id ∧ id ≤ 255 := by
  simp only [idName, bind_eq_some, Option.pure_def,
    Option.some.injEq, Prod.mk.injEq] at h
  obtain ⟨n, hn, -, -, -, -, rfl, -⟩ := h
  have := intIn_eq_some hn
  omega

theorem parseColumn_eq_ok {c : Value} {col : BoardColumn} (h : parseColumn c = .ok col) :
    1 ≤ col.id ∧ col.id ≤ 255 := by
  simp only [parseColumn, bind_eq_ok, okOr_eq_ok, pure_eq_ok] at h
  obtain ⟨o, -, ⟨id, name⟩, hid, -, -, -, -, rfl⟩ := h
  exact idName_eq_some hid

theorem parseColumns_eq_ok (h : parseColumns env v = .ok cols) :
    (cols.map BoardColumn.id).Nodup ∧ ∀ c ∈ cols, 1 ≤ c.id ∧ c.id ≤ 255 := by
  simp only [parseColumns, bind_eq_ok, okOr_eq_ok, refuseIf_eq_ok, pure_eq_ok] at h
  obtain ⟨list, -, out, hout, -, hrep, rfl⟩ := h
  have hnodup := nodup_of_not_repeats hrep
  rw [List.map_map] at hnodup
  refine ⟨hnodup, fun c hc => ?_⟩
  obtain ⟨v, -, hv⟩ := exists_of_mem_mapM hout hc
  exact parseColumn_eq_ok hv

theorem parseColumnRef_eq_ok {err : SpecError} (h : parseColumnRef v cols err = .ok id) :
    id = 0 ∨ id ∈ cols.map BoardColumn.id := by
  cases v with
  | none => exact .inl (Except.ok.inj h).symm
  | some v =>
    simp only [parseColumnRef, bind_eq_ok, refuseIf_eq_ok, pure_eq_ok] at h
    obtain ⟨n, -, -, href, rfl⟩ := h
    by_cases hzero : n.toNat = 0
    · exact .inl hzero
    · exact .inr (by simpa [hzero] using href)

/-- Every accepted definition is sound. -/
theorem specOk_of_parseSpec {json : String} {spec : BoardSpec} (h : parseSpec env json = .ok spec) : SpecOk spec := by
  unfold parseSpec at h
  split at h
  · cases h
  split at h
  case h_2 => cases h
  case h_1 raw _ =>
    simp only [parseMembers, bind_eq_ok, pure_eq_ok] at h
    obtain ⟨-, -, -, -, cols, hcols, dflt, hdflt, done, hdone, -, -, -, -, -, -, -, -, rfl⟩ := h
    obtain ⟨hnodup, hpos⟩ := parseColumns_eq_ok hcols
    exact ⟨hnodup, hpos, parseColumnRef_eq_ok hdflt, parseColumnRef_eq_ok hdone⟩

end DashForge
