import DashForge.Boards.SpecWrite

/-!
# Reading a written board definition

The reader takes what the writer writes exactly where it keeps to the limits, and reads the part that was written: one
lemma `parse…_out` for each part, up to the whole text (`parseSpec_toJson`).
-/

namespace DashForge

open Json (Printed)
open Option (filter_eq_some_iff map_eq_none_iff map_eq_some_iff map_some mem_some_iff)
open List Except

/-! ### Scalars -/

/-- A member left out is read as none. -/
theorem ok_none_iff {α : Type} {P : α → Prop} {y : Option α} :
    (ok none : Except SpecError (Option α)) = .ok y ↔ y = none ∧ ∀ a ∈ (none : Option α), P a := by
  constructor
  · intro h
    exact ⟨(ok.inj h).symm, fun a ha => absurd ha (Option.not_mem_none a)⟩
  · rintro ⟨rfl, -⟩
    rfl

theorem intIn_num {n : ℕ} {lo hi z : ℤ} :
    intIn (some (.num (n : ℚ))) lo hi = some z ↔ z = n ∧ lo ≤ n ∧ (n : ℤ) ≤ hi := by
  have hlo : (lo : ℚ) ≤ (n : ℚ) ↔ lo ≤ (n : ℤ) := by exact_mod_cast Iff.rfl
  have hhi : (n : ℚ) ≤ (hi : ℚ) ↔ (n : ℤ) ≤ hi := by exact_mod_cast Iff.rfl
  simp only [intIn, Value.asF64, some_bind, Rat.den_natCast, Rat.num_natCast, true_and, hlo,
    hhi]
  split
  · next h => simp [h, eq_comm]
  · next h => simp [h]

variable {d : ℕ} {env : BoardEnv} {o : Members}

theorem idName_iff {ok : String → Bool} {id : ℕ} {name : String} (hid : o.lookup "id" = some (.num id))
    (hname : o.lookup "name" = some (.str name)) {p : ℕ × String} :
    idName o ok = some p ↔ p = (id, name) ∧ (1 ≤ id ∧ id ≤ 255) ∧ ok name = true := by
  simp only [idName, hid, hname, bind_eq_some, intIn_num, Value.asStr, Option.some.injEq,
    filter_eq_some_iff, Option.pure_def]
  constructor
  · rintro ⟨z, ⟨rfl, hlo, hhi⟩, v, rfl, n, ⟨h, hok⟩, rfl⟩
    obtain rfl := Option.some.inj h
    exact ⟨rfl, ⟨by omega, by omega⟩, hok⟩
  · rintro ⟨rfl, ⟨hlo, hhi⟩, hok⟩
    exact ⟨id, ⟨rfl, by omega, by omega⟩, _, rfl, name, ⟨rfl, hok⟩, rfl⟩

theorem filterStr_iff {ok : String → Bool} {s : String} {y : Option String} {err : SpecError} :
    okOr (((Value.str s).asStr.filter ok).map some) err = .ok y ↔ y = some s ∧ ∀ t ∈ some s, ok t = true := by
  simp only [okOr_eq_ok, Value.asStr, map_eq_some_iff, filter_eq_some_iff, mem_some_iff,
    Option.some.injEq]
  constructor
  · rintro ⟨t, ⟨rfl, hok⟩, rfl⟩
    exact ⟨rfl, fun _ h => h ▸ hok⟩
  · rintro ⟨rfl, hok⟩
    exact ⟨s, ⟨rfl, hok s rfl⟩, rfl⟩

theorem colorOf_iff {color y : Option String} {err : SpecError} :
    colorOf (color.map .str) err = .ok y ↔ y = color ∧ ∀ s ∈ color, isColor s = true := by
  cases color with
  | none => exact ok_none_iff
  | some s => exact filterStr_iff

theorem parseWip_iff {wip y : Option ℕ} : parseWip (wip.map fun n : ℕ => .num (n : ℚ)) = .ok y ↔
    y = wip ∧ ∀ n ∈ wip, 1 ≤ n ∧ n ≤ 9999 := by
  cases wip with
  | none => exact ok_none_iff
  | some n =>
    simp only [parseWip, map_some, okOr_eq_ok, map_eq_some_iff, intIn_num, wipMax, mem_some_iff]
    constructor
    · rintro ⟨z, ⟨rfl, hlo, hhi⟩, rfl⟩
      exact ⟨rfl, fun _ h => h ▸ ⟨by omega, by omega⟩⟩
    · rintro ⟨rfl, h⟩
      have := h n rfl
      exact ⟨n, ⟨rfl, by omega, by omega⟩, rfl⟩

/-! ### Lists of parts -/

section Lists

variable {α : Type} {f : Value → Except SpecError α} {ok : α → Prop} {fits : ℕ → Prop} [DecidablePred fits]
  {entry : α → ℕ × String} {err err' : SpecError}

/-- A list of parts as the reader takes it: not too long, each id and name once. -/
def readList (env : BoardEnv) (f : Value → Except SpecError α) (fits : ℕ → Prop) [DecidablePred fits]
    (entry : α → ℕ × String) (err err' : SpecError) (v : Option Value) : Except SpecError (List α) := do
  let list ← okOr ((v.bind Value.asArray).filter fun l => decide (fits l.length)) err
  let out ← list.mapM f
  refuseIf (repeats env (out.map entry)) err'
  return out

theorem readList_out {w : α → Value} {l y : List α} (h : ∀ a ∈ l, ∀ b, f (w a) = .ok b ↔ b = a ∧ ok a) :
    readList env f fits entry err err' (some (.arr (l.map w))) = .ok y ↔
      y = l ∧ fits l.length ∧ (∀ a ∈ l, ok a) ∧ ¬repeats env (l.map entry) = true := by
  simp only [readList, Option.bind_some, Value.asArray, bind_eq_ok, okOr_eq_ok, filter_eq_some_iff,
    Option.some.injEq, refuseIf_eq_ok, pure_eq_ok, decide_eq_true_eq]
  constructor
  · rintro ⟨list, ⟨rfl, hlen⟩, out, hout, -, hrep, rfl⟩
    obtain ⟨rfl, hok⟩ := (mapM_map_eq_ok h).mp hout
    rw [length_map] at hlen
    exact ⟨rfl, hlen, hok, hrep⟩
  · rintro ⟨rfl, hlen, hok, hrep⟩
    rw [← length_map (f := w)] at hlen
    exact ⟨_, ⟨rfl, hlen⟩, y, (mapM_map_eq_ok h).mpr ⟨rfl, hok⟩, (), hrep, rfl⟩

theorem ok_of_readList {v : Option Value} {l : List α} (h : readList env f fits entry err err' v = .ok l)
    (hf : ∀ v a, f v = .ok a → ok a) : fits l.length ∧ (∀ a ∈ l, ok a) ∧ ¬repeats env (l.map entry) = true := by
  simp only [readList, bind_eq_ok, okOr_eq_ok, filter_eq_some_iff, refuseIf_eq_ok, pure_eq_ok,
    decide_eq_true_eq] at h
  obtain ⟨list, ⟨-, hlen⟩, out, hout, -, hrep, rfl⟩ := h
  have hlength := congrArg List.length (map_eq_map_ok hout)
  rw [length_map, length_map] at hlength
  refine ⟨hlength ▸ hlen, fun a ha => ?_, hrep⟩
  obtain ⟨v, -, hv⟩ := exists_of_mem_mapM hout ha
  exact hf v a hv

theorem parseColumns_eq (v : Option Value) : parseColumns env v =
    readList env parseColumn (fun n => 1 ≤ n ∧ n ≤ maxColumns) (fun c => (c.id, c.name)) .columns .column v := rfl

theorem parseOptions_eq (v : Option Value) : parseOptions env v =
    readList env parseOption (fun n => n ≤ maxOptions) (fun o => (o.id, o.name)) .options .options v := rfl

theorem parseFields_eq (v : Value) : parseFields env (some v) =
    readList env (parseField env) (fun n => n ≤ maxFields) (fun f => (f.id, f.name)) .fields .field (some v) := rfl

theorem parseViews_eq (v : Value) (fields : List BoardField) : parseViews env (some v) fields =
    readList env (fun w => okOr (parseView w fields) .view) (fun n => n ≤ maxViews)
      (fun w => (w.id, w.name)) .views .view
      (some v) := rfl

end Lists

/-! ### What a field has besides its name -/

section Shapes

variable {id : ℕ} {name : String} {kind : FieldType} {options start days : Option Value} {y : BoardField}

/-- The members that a field's type asks for, or refuses. -/
def readShape (env : BoardEnv) (id : ℕ) (name : String) (kind : FieldType) (options start days : Option Value) :
    Except SpecError BoardField := do
  refuseIf (options.isSome ≠ decide (kind = .sel)) .field
  refuseIf ((start.isSome ∨ days.isSome) ∧ kind ≠ .iter) .field
  match kind with
  | .sel =>
    let options ← parseOptions env options
    return ⟨id, name, kind, some options, none, none⟩
  | .iter =>
    let start ← okOr ((start.bind Value.asStr).filter fun s => (dateDays s).isSome) .field
    let days ← okOr (intIn days 1 iterDaysMax) .field
    return ⟨id, name, kind, none, some start, some days.toNat⟩
  | _ => return ⟨id, name, kind, none, none, none⟩

theorem parseField_eq_ok {v : Value} : parseField env v = .ok y ↔
    ∃ o, v.asObject = some o ∧ ∃ id name, idName o (fieldNameOk env) = some (id, name) ∧
      ∃ kind, parseFieldType (o.lookup "type") = .ok kind ∧
        readShape env id name kind (o.lookup "options") (o.lookup "start") (o.lookup "days") = .ok y := by
  have heq : parseField env v = (do
      let o ← okOr v.asObject .field
      let known ← okOr (idName o (fieldNameOk env)) .field
      let kind ← parseFieldType (o.lookup "type")
      readShape env known.1 known.2 kind (o.lookup "options") (o.lookup "start") (o.lookup "days")) := rfl
  simp [heq, bind_eq_ok, okOr_eq_ok]

theorem readShape_sel : readShape env id name .sel options start days = .ok y ↔ options.isSome = true ∧ start = none ∧
    days = none ∧ ∃ l, parseOptions env options = .ok l ∧ y = ⟨id, name, .sel, some l, none, none⟩ := by
  simp only [readShape, bind_eq_ok, refuseIf_eq_ok, pure_eq_ok, ne_eq, decide_true, not_not]
  constructor
  · rintro ⟨-, hoptions, -, hothers, l, hl, rfl⟩
    simp only [reduceCtorEq, not_false_eq_true, and_true, not_or, Option.not_isSome_iff_eq_none] at hothers
    exact ⟨hoptions, hothers.1, hothers.2, l, hl, rfl⟩
  · rintro ⟨hoptions, rfl, rfl, l, hl, rfl⟩
    exact ⟨(), hoptions, (), by simp, l, hl, rfl⟩

theorem readShape_iter : readShape env id name .iter options start days = .ok y ↔ options = none ∧
    ∃ s n, start.bind Value.asStr = some s ∧ (dateDays s).isSome = true ∧ intIn days 1 iterDaysMax = some n ∧
      y = ⟨id, name, .iter, none, some s, some n.toNat⟩ := by
  simp only [readShape, bind_eq_ok, refuseIf_eq_ok, pure_eq_ok, okOr_eq_ok, filter_eq_some_iff, reduceCtorEq,
    decide_false, ne_eq, not_true_eq_false, and_false, not_false_eq_true, exists_const, true_and, Bool.not_eq_false]
  constructor
  · rintro ⟨hoptions, s, ⟨hs, hdate⟩, n, hn, rfl⟩
    exact ⟨by simpa using hoptions, s, n, hs, hdate, hn, rfl⟩
  · rintro ⟨rfl, s, n, hs, hdate, hn, rfl⟩
    exact ⟨Bool.false_ne_true, s, ⟨hs, hdate⟩, n, hn, rfl⟩

theorem readShape_plain (hsel : kind ≠ .sel) (hiter : kind ≠ .iter) :
    readShape env id name kind options start days = .ok y ↔
      options = none ∧ start = none ∧ days = none ∧ y = ⟨id, name, kind, none, none, none⟩ := by
  have hkind : readShape env id name kind options start days = (do
      refuseIf (options.isSome ≠ false) .field
      refuseIf (start.isSome ∨ days.isSome) .field
      return ⟨id, name, kind, none, none, none⟩) := by
    cases kind with
    | sel => exact absurd rfl hsel
    | iter => exact absurd rfl hiter
    | num => simp only [readShape, reduceCtorEq, decide_false, ne_eq, not_false_eq_true, and_true]
    | date => simp only [readShape, reduceCtorEq, decide_false, ne_eq, not_false_eq_true, and_true]
    | text => simp only [readShape, reduceCtorEq, decide_false, ne_eq, not_false_eq_true, and_true]
  simp only [hkind, bind_eq_ok, refuseIf_eq_ok, pure_eq_ok, ne_eq, not_not, Bool.not_eq_true,
    Option.isSome_eq_false_iff, Option.isNone_iff_eq_none, not_or, exists_const]
  constructor
  · rintro ⟨hoptions, ⟨hstart, hdays⟩, rfl⟩
    exact ⟨hoptions, hstart, hdays, rfl⟩
  · rintro ⟨hoptions, hstart, hdays, rfl⟩
    exact ⟨hoptions, ⟨hstart, hdays⟩, rfl⟩

end Shapes

theorem some_none_iff {α : Type} {P : α → Prop} {y : Option α} :
    some none = some y ↔ y = none ∧ ∀ a ∈ (none : Option α), P a := by
  constructor
  · intro h
    exact ⟨(Option.some.inj h).symm, fun a ha => absurd ha (Option.not_mem_none a)⟩
  · rintro ⟨rfl, -⟩
    rfl

/-! ### What a view has besides its name -/

variable {fields : List BoardField}

theorem parseView_eq_some {v : Value} {y : BoardView} : parseView v fields = some y ↔
    ∃ o, v.asObject = some o ∧ ∃ id name, idName o nameOk = some (id, name) ∧
      ∃ layout, ((o.lookup "layout").bind Value.asStr).bind parseLayout = some layout ∧
        ∃ q, parseQueryText (o.lookup "q") = some q ∧ ∃ group, (optStr o "group").toOption = some group ∧
            ∃ lane, (optStr o "lane").toOption = some lane ∧ ∃ sort, (optStr o "sort").toOption = some sort ∧
                (∀ g ∈ group, groupKeyOk fields g (layout = .board) = true) ∧
                (∀ l ∈ lane, l ≠ "status" ∧ l ≠ group.getD "status" ∧ groupKeyOk fields l false = true) ∧
                (∀ s ∈ sort, sortKeyOk fields s = true) ∧ ∃ cols, parseViewCols fields (o.lookup "cols") = some cols ∧
                  ∃ date, parseViewDate fields (o.lookup "date") = some date ∧
                    ⟨id, name, layout, q, group, lane, sort, cols, date⟩ = y := by
  have hlane : ∀ (group : Option String) (l : String), (¬(decide (l = "status") || decide (l = group.getD "status") ||
      !groupKeyOk fields l false) = true) ↔ l ≠ "status" ∧ l ≠ group.getD "status" ∧ groupKeyOk fields l false = true :=
    fun group l => by
      simp only [Bool.or_eq_true, decide_eq_true_eq, Bool.not_eq_true', not_or, Bool.not_eq_false, and_assoc, ne_eq]
  simp only [parseView, Option.bind_eq_bind, Option.bind_none, Option.ite_none_left_eq_some, Option.pure_def,
    Option.bind_eq_some_iff, Option.some.injEq, Prod.exists, Option.any_eq_true, not_exists, not_and, hlane,
    Bool.not_eq_true', Bool.not_eq_false]
  constructor
  · rintro ⟨o, ho, id, name, hid, s, ⟨w, hw, hs⟩, layout, hlayout, rest⟩
    exact ⟨o, ho, id, name, hid, layout, ⟨s, ⟨w, hw, hs⟩, hlayout⟩, rest⟩
  · rintro ⟨o, ho, id, name, hid, layout, ⟨s, ⟨w, hw, hs⟩, hlayout⟩, rest⟩
    exact ⟨o, ho, id, name, hid, s, ⟨w, hw, hs⟩, layout, hlayout, rest⟩

theorem toFinset_card_iff {keys : List String} : keys.toFinset.card = keys.length ↔ keys.Nodup :=
  Multiset.toFinset_card_eq_card_iff_nodup (m := (keys : Multiset String))

theorem parseViewKeys_eq_some {c : Value} {keys : List String} :
    parseViewKeys fields c = some keys ↔ ∃ list, c.asArray = some list ∧ list.length ≤ maxViewCols ∧
      (list.mapM fun k => k.asStr.filter (colKeyOk fields)) = some keys ∧ keys.Nodup := by
  simp only [parseViewKeys, bind_eq_some, filter_eq_some_iff, decide_eq_true_eq,
    Option.ite_none_left_eq_some, ne_eq, not_not, toFinset_card_iff, Option.some.injEq]
  constructor
  · rintro ⟨list, ⟨hlist, hlen⟩, out, hout, hnodup, rfl⟩
    exact ⟨list, hlist, hlen, hout, hnodup⟩
  · rintro ⟨list, hlist, hlen, hout, hnodup⟩
    exact ⟨list, ⟨hlist, hlen⟩, keys, hout, hnodup, rfl⟩

theorem parseViewDates_eq_some {c : Value} {ids : List ℕ} :
    parseViewDates fields c = some ids ↔ ∃ list, c.asArray = some list ∧
      (list.mapM fun x => (intIn (some x) 1 255).map Int.toNat) = some ids ∧ DatesOk fields ids := by
  have hdates : ∀ ids : List ℕ, ¬(¬(ids.map fun id => (fields.find? (·.id = id)).map BoardField.kind) = [some .iter] ∧
      ¬((ids.map fun id => (fields.find? (·.id = id)).map BoardField.kind) = [some .date, some .date] ∧
        ids[0]? ≠ ids[1]?)) ↔ DatesOk fields ids := fun ids => by
    rw [← not_or, not_not]
    rfl
  simp only [parseViewDates, bind_eq_some, Option.ite_none_left_eq_some, hdates,
    Option.some.injEq]
  constructor
  · rintro ⟨list, hlist, out, hout, hok, rfl⟩
    exact ⟨list, hlist, hout, hok⟩
  · rintro ⟨list, hlist, hout, hok⟩
    exact ⟨list, hlist, ids, hout, hok, rfl⟩

/-! ### Reading what was written -/

section Out

theorem parseFieldType_out (kind : FieldType) : parseFieldType (some (.str kind.name)) = .ok kind := by
  cases kind <;> rfl

theorem parseSourceKind_out (k : SourceKind) : parseSourceKind (some (.str k.name)) = .ok k := by
  cases k <;> rfl

theorem parseLayout_name (layout : ViewLayout) : parseLayout layout.name = some layout := by
  cases layout <;> rfl

theorem parseSourceRepo_out {r y : Option String} :
    parseSourceRepo (r.map .str) = .ok y ↔ y = r ∧ ∀ id ∈ r, isIdentifier id = true := by
  cases r with
  | none => exact ok_none_iff
  | some id => exact filterStr_iff

theorem textIn_str {s t : String} {max : ℕ} : textIn (.str s) max = some t ↔ t = s ∧ charLen s ≤ max := by
  simp only [textIn, Value.asStr, filter_eq_some_iff, Option.some.injEq, decide_eq_true_eq]
  constructor
  · rintro ⟨rfl, h⟩
    exact ⟨rfl, h⟩
  · rintro ⟨rfl, h⟩
    exact ⟨rfl, h⟩

variable {f64 : JsonNumber → ℚ} (hf : ∀ n : UInt64, n.toNat < 2 ^ 53 → f64 (.posInt n) = n.toNat)

theorem map_string (s : Option String) :
    (s.map (.string : String → Printed d)).map (readBack f64) = s.map .str := Option.map_map _ _ _

theorem map_nonEmpty (s : String) :
    (nonEmpty s : Option (Printed d)).map (readBack f64) = if s = "" then none else some (.str s) := by
  unfold nonEmpty
  split <;> rfl

theorem parseQueryText_out {q y : String} :
    parseQueryText ((nonEmpty q : Option (Printed d)).map (readBack f64)) = some y ↔ y = q ∧ charLen q ≤ queryMax := by
  rw [map_nonEmpty]
  split
  · next hq =>
    subst hq
    exact ⟨fun h => ⟨(Option.some.inj h).symm, by decide⟩, fun h => congrArg some h.1.symm⟩
  · exact textIn_str

theorem parseSource_out {s y : BoardSource} :
    parseSource (readBack f64 (s.out : Printed (d + 1))) = .ok y ↔ y = s ∧ s.Ok := by
  obtain ⟨o, ho, hlookup⟩ := exists_readBack_struct f64
    (show ((s.members : List (String × Option (Printed d))).map Prod.fst).Nodup by simp [BoardSource.members])
  simp only [BoardSource.members, forall_mem_cons, map_some, readBack_string, map_string] at hlookup
  obtain ⟨hr, hk, hq, -⟩ := hlookup
  rw [BoardSource.out, ho]
  simp only [parseSource, Value.asObject, okOr_eq_ok, bind_eq_ok, pure_eq_ok, Option.some.injEq,
    exists_eq_left', hr, hk,
    hq, parseSourceRepo_out, parseSourceKind_out, parseQueryText_out, ok.injEq]
  constructor
  · rintro ⟨r, ⟨rfl, hr⟩, q, ⟨rfl, hq⟩, rfl⟩
    exact ⟨rfl, hr, hq⟩
  · rintro ⟨rfl, hr, hq⟩
    exact ⟨_, ⟨rfl, hr⟩, _, ⟨rfl, hq⟩, rfl⟩

theorem optStr_out {o : Members} {key : String} {s y : Option String} (h : o.lookup key = s.map .str) :
    (optStr o key).toOption = some y ↔ y = s := by
  rw [optStr, h]
  cases s <;> simp [Except.toOption, eq_comm]

variable {fields : List BoardField}

theorem parseViewCols_out {cols y : Option (List String)} :
    parseViewCols fields ((cols.map fun l => (.array (l.map .string) : Printed (d + 1))).map (readBack f64)) = some y ↔
      y = cols ∧ ∀ keys ∈ cols, keys.length ≤ maxViewCols ∧ (∀ k ∈ keys, colKeyOk fields k = true) ∧ keys.Nodup := by
  cases cols with
  | none => exact some_none_iff
  | some keys =>
    have hkeys : ∀ out, ((keys.map Value.str).mapM fun k => k.asStr.filter (colKeyOk fields)) = some out ↔
        out = keys ∧ ∀ k ∈ keys, colKeyOk fields k = true := fun out =>
      mapM_map_eq_some fun k _ b => by
        simp only [Value.asStr, filter_eq_some_iff, Option.some.injEq]
        constructor
        · rintro ⟨rfl, hk⟩
          exact ⟨rfl, hk⟩
        · rintro ⟨rfl, hk⟩
          exact ⟨rfl, hk⟩
    have hread : readBack f64 (.array (keys.map .string) : Printed (d + 1)) = .arr (keys.map .str) := by
      rw [readBack_array, map_map]
      rfl
    simp only [map_some, hread, parseViewCols, map_eq_some_iff, parseViewKeys_eq_some, Value.asArray,
      Option.some.injEq, mem_some_iff, forall_eq']
    constructor
    · rintro ⟨out, ⟨list, rfl, hlen, hout, hnodup⟩, rfl⟩
      obtain ⟨rfl, hok⟩ := (hkeys out).mp hout
      rw [length_map] at hlen
      exact ⟨rfl, hlen, hok, hnodup⟩
    · rintro ⟨rfl, hlen, hok, hnodup⟩
      rw [← length_map (f := Value.str)] at hlen
      exact ⟨keys, ⟨_, rfl, hlen, (hkeys keys).mpr ⟨rfl, hok⟩, hnodup⟩, rfl⟩

theorem map_nonEmptyList {α : Type} (w : α → Printed d) (l : List α) : (nonEmptyList (l.map w)).map (readBack f64) =
    if l = [] then none else some (.arr (l.map (readBack f64 ∘ w))) := by
  cases l with
  | nil => rfl
  | cons a l =>
    rw [if_neg (cons_ne_nil a l), ← map_map, ← readBack_array]
    rfl

theorem parseSources_out {l y : List BoardSource} :
    parseSources ((nonEmptyList (l.map (BoardSource.out : BoardSource → Printed (d + 1)))).map (readBack f64)) = .ok y ↔
      y = l ∧ l.length ≤ maxSources ∧ ∀ s ∈ l, s.Ok := by
  rw [map_nonEmptyList]
  split
  · next hl =>
    subst hl
    exact ⟨fun h => ⟨(ok.inj h).symm, Nat.zero_le _, by simp⟩, fun h => congrArg ok h.1.symm⟩
  · simp only [parseSources, Value.asArray, bind_eq_ok, okOr_eq_ok, filter_eq_some_iff, Option.some.injEq,
      decide_eq_true_eq]
    constructor
    · rintro ⟨list, ⟨rfl, hlen⟩, hout⟩
      obtain ⟨rfl, hok⟩ := (mapM_map_eq_ok fun s _ y => parseSource_out).mp hout
      rw [length_map] at hlen
      exact ⟨rfl, hlen, hok⟩
    · rintro ⟨rfl, hlen, hok⟩
      rw [← length_map (f := readBack f64 ∘ (BoardSource.out : BoardSource → Printed (d + 1)))] at hlen
      exact ⟨_, ⟨rfl, hlen⟩, (mapM_map_eq_ok fun s _ y => parseSource_out).mpr ⟨rfl, hok⟩⟩

theorem parseDesc_out {desc y : Option String} : parseDesc (desc.map .str) = .ok y ↔
    y = desc.filter (· ≠ "") ∧ ∀ t ∈ desc, charLen t ≤ descMax := by
  cases desc with
  | none => exact ok_none_iff
  | some t =>
    simp only [parseDesc, map_some, okOr_eq_ok, map_eq_some_iff, textIn_str, mem_some_iff, forall_eq']
    constructor
    · rintro ⟨_, ⟨rfl, hlen⟩, rfl⟩
      exact ⟨rfl, hlen⟩
    · rintro ⟨rfl, hlen⟩
      exact ⟨t, ⟨rfl, hlen⟩, rfl⟩

include hf

theorem map_numberOut {n : Option ℕ} (h : ∀ m ∈ n, m < 65536) :
    (n.map (numberOut : ℕ → Printed d)).map (readBack f64) = n.map fun m : ℕ => .num (m : ℚ) := by
  cases n with
  | none => rfl
  | some m => exact congrArg some (readBack_numberOut hf (h m rfl))

theorem parseColumn_out {c y : BoardColumn} (hid : c.id < 65536) (hwip : ∀ n ∈ c.wip, n < 65536) :
    parseColumn (readBack f64 (c.out : Printed (d + 1))) = .ok y ↔ y = c ∧ c.Ok := by
  obtain ⟨o, ho, hlookup⟩ := exists_readBack_struct f64
    (show ((c.members : List (String × Option (Printed d))).map Prod.fst).Nodup by simp [BoardColumn.members])
  simp only [BoardColumn.members, forall_mem_cons, map_some, readBack_string, map_string,
    map_numberOut hf hwip, readBack_numberOut hf hid] at hlookup
  obtain ⟨hid, hname, hcolor, hwip, -⟩ := hlookup
  rw [BoardColumn.out, ho]
  simp only [parseColumn, Value.asObject, okOr_eq_ok, bind_eq_ok, pure_eq_ok, Option.some.injEq, exists_eq_left',
    idName_iff hid hname, hcolor, colorOf_iff, hwip, parseWip_iff]
  constructor
  · rintro ⟨p, ⟨rfl, hid, hname⟩, color, ⟨rfl, hcolor⟩, wip, ⟨rfl, hwip⟩, rfl⟩
    exact ⟨rfl, hid, hname, hcolor, hwip⟩
  · rintro ⟨rfl, hid, hname, hcolor, hwip⟩
    exact ⟨_, ⟨rfl, hid, hname⟩, _, ⟨rfl, hcolor⟩, _, ⟨rfl, hwip⟩, rfl⟩

theorem parseOption_out {p y : FieldOption} (hid : p.id < 65536) :
    parseOption (readBack f64 (p.out : Printed (d + 1))) = .ok y ↔ y = p ∧ p.Ok := by
  obtain ⟨o, ho, hlookup⟩ := exists_readBack_struct f64
    (show ((p.members : List (String × Option (Printed d))).map Prod.fst).Nodup by simp [FieldOption.members])
  simp only [FieldOption.members, forall_mem_cons, map_some, readBack_string, map_string,
    readBack_numberOut hf hid] at hlookup
  obtain ⟨hid, hname, hcolor, -⟩ := hlookup
  rw [FieldOption.out, ho]
  simp only [parseOption, Value.asObject, okOr_eq_ok, bind_eq_ok, pure_eq_ok, Option.some.injEq, exists_eq_left',
    idName_iff hid hname, hcolor, colorOf_iff]
  constructor
  · rintro ⟨p, ⟨rfl, hid, hname⟩, color, ⟨rfl, hcolor⟩, rfl⟩
    exact ⟨rfl, hid, hname, hcolor⟩
  · rintro ⟨rfl, hid, hname, hcolor⟩
    exact ⟨_, ⟨rfl, hid, hname⟩, _, ⟨rfl, hcolor⟩, rfl⟩

theorem parseColumns_out {cs y : List BoardColumn} (h : ∀ c ∈ cs, c.id < 65536 ∧ ∀ n ∈ c.wip, n < 65536) :
    parseColumns env (some (readBack f64 (.array (cs.map (BoardColumn.out : BoardColumn → Printed (d + 1)))))) = .ok y ↔
      y = cs ∧ (1 ≤ cs.length ∧ cs.length ≤ maxColumns) ∧ (∀ c ∈ cs, c.Ok) ∧
        ¬repeats env (cs.map fun c => (c.id, c.name)) = true := by
  rw [readBack_array, map_map, parseColumns_eq]
  exact readList_out fun c hc y => parseColumn_out hf (h c hc).1 (h c hc).2

theorem parseOptions_out {l y : List FieldOption} (h : ∀ o ∈ l, o.id < 65536) :
    parseOptions env (some (readBack f64 (.array (l.map (FieldOption.out : FieldOption → Printed (d + 1)))))) = .ok y ↔
      y = l ∧ OptionsOk env l := by
  rw [readBack_array, map_map, parseOptions_eq]
  refine (readList_out fun o ho y => parseOption_out hf (h o ho)).trans (and_congr_right fun _ => ?_)
  exact ⟨fun ⟨hlen, hok, hrep⟩ => ⟨hlen, hok, hrep⟩, fun ⟨hlen, hok, hrep⟩ => ⟨hlen, hok, hrep⟩⟩

theorem readShape_out {id : ℕ} {name : String} {kind : FieldType} {options : Option (List FieldOption)}
    {start : Option String} {days : Option ℕ} {y : BoardField} (hoptions : ∀ l ∈ options, ∀ o ∈ l, o.id < 65536) :
    readShape env id name kind
      ((options.map fun l => (.array (l.map FieldOption.out) : Printed (d + 2))).map (readBack f64))
        (start.map .str) (days.map fun n : ℕ => .num (n : ℚ)) = .ok y ↔
      y = ⟨id, name, kind, options, start, days⟩ ∧ BoardField.Shape env kind options start days := by
  have hplain : kind ≠ .sel → kind ≠ .iter → (readShape env id name kind
      ((options.map fun l => (.array (l.map FieldOption.out) : Printed (d + 2))).map (readBack f64)) (start.map .str)
        (days.map fun n : ℕ => .num (n : ℚ)) = .ok y ↔
      y = ⟨id, name, kind, options, start, days⟩ ∧ BoardField.Shape env kind options start days) := fun hsel hiter => by
    rw [readShape_plain hsel hiter]
    simp only [map_eq_none_iff]
    constructor
    · rintro ⟨rfl, rfl, rfl, rfl⟩
      exact ⟨rfl, .plain hsel hiter⟩
    · rintro ⟨rfl, hshape⟩
      cases hshape with
      | sel => exact absurd rfl hsel
      | iter => exact absurd rfl hiter
      | plain => exact ⟨rfl, rfl, rfl, rfl⟩
  cases kind with
  | sel =>
    rw [readShape_sel]
    simp only [map_eq_none_iff]
    constructor
    · rintro ⟨hsome, rfl, rfl, l, hl, rfl⟩
      cases options with
      | none => exact Bool.noConfusion hsome
      | some l₀ =>
        obtain ⟨rfl, hok⟩ := (parseOptions_out hf (hoptions l₀ rfl)).mp hl
        exact ⟨rfl, .sel hok⟩
    · rintro ⟨rfl, hshape⟩
      cases hshape with
      | sel hok => exact ⟨rfl, rfl, rfl, _, (parseOptions_out hf (hoptions _ rfl)).mpr ⟨rfl, hok⟩, rfl⟩
      | plain hsel => exact absurd rfl hsel
  | iter =>
    rw [readShape_iter]
    simp only [map_eq_none_iff]
    constructor
    · rintro ⟨rfl, s, n, hs, hdate, hn, rfl⟩
      cases start with
      | none => exact absurd hs.symm (Option.some_ne_none s)
      | some s₀ =>
        obtain rfl : s₀ = s := Option.some.inj hs
        cases days with
        | none => exact absurd hn.symm (Option.some_ne_none n)
        | some m =>
          obtain ⟨rfl, hlo, hhi⟩ := intIn_num.mp hn
          rw [iterDaysMax] at hhi
          exact ⟨rfl, .iter hdate ⟨by omega, by omega⟩⟩
    · rintro ⟨rfl, hshape⟩
      cases hshape with
      | @iter s m hdate hdays =>
        have hrange : ((1 : ℤ) ≤ m) ∧ (m : ℤ) ≤ iterDaysMax := ⟨by omega, by rw [iterDaysMax]; omega⟩
        exact ⟨rfl, s, m, rfl, hdate, intIn_num.mpr ⟨rfl, hrange⟩, rfl⟩
      | plain _ hiter => exact absurd rfl hiter
  | num => exact hplain (by decide) (by decide)
  | date => exact hplain (by decide) (by decide)
  | text => exact hplain (by decide) (by decide)

theorem parseField_out {f y : BoardField} (hid : f.id < 65536) (hoptions : ∀ l ∈ f.options, ∀ o ∈ l, o.id < 65536)
    (hdays : ∀ n ∈ f.days, n < 65536) :
    parseField env (readBack f64 (f.out : Printed (d + 3))) = .ok y ↔ y = f ∧ f.Ok env := by
  obtain ⟨o, ho, hlookup⟩ := exists_readBack_struct f64
    (show ((f.members : List (String × Option (Printed (d + 2)))).map Prod.fst).Nodup by simp [BoardField.members])
  simp only [BoardField.members, forall_mem_cons, map_some, readBack_string, map_string,
    map_numberOut hf hdays, readBack_numberOut hf hid] at hlookup
  obtain ⟨hid, hname, htype, hoptions', hstart, hdays', -⟩ := hlookup
  have hread : parseField env (readBack f64 (f.out : Printed (d + 3))) = .ok y ↔
      ((1 ≤ f.id ∧ f.id ≤ 255) ∧ fieldNameOk env f.name = true) ∧
        readShape env f.id f.name f.kind (o.lookup "options") (o.lookup "start") (o.lookup "days") = .ok y := by
    rw [BoardField.out, ho, parseField_eq_ok]
    constructor
    · rintro ⟨o, ⟨rfl⟩, id, name, hidName, kind, hkind, hy⟩
      obtain ⟨⟨rfl, rfl⟩, hok⟩ := (idName_iff hid hname).mp hidName
      rw [htype, parseFieldType_out] at hkind
      obtain rfl := ok.inj hkind
      exact ⟨hok, hy⟩
    · rintro ⟨hok, hy⟩
      exact ⟨o, rfl, f.id, f.name, (idName_iff hid hname).mpr ⟨rfl, hok⟩, f.kind, htype ▸ parseFieldType_out f.kind, hy⟩
  rw [hread, hoptions', hstart, hdays', readShape_out hf hoptions]
  constructor
  · rintro ⟨⟨hid, hname⟩, rfl, hshape⟩
    exact ⟨rfl, hid, hname, hshape⟩
  · rintro ⟨rfl, hid, hname, hshape⟩
    exact ⟨⟨hid, hname⟩, rfl, hshape⟩

theorem parseViewDate_out {date y : Option (List ℕ)} (h : ∀ l ∈ date, ∀ id ∈ l, id < 65536) :
    parseViewDate fields ((date.map fun l => (.array (l.map numberOut) : Printed (d + 1))).map
      (readBack f64)) = some y ↔
      y = date ∧ ∀ ids ∈ date, (∀ id ∈ ids, 1 ≤ id ∧ id ≤ 255) ∧ DatesOk fields ids := by
  cases date with
  | none => exact some_none_iff
  | some ids =>
    have hids : ∀ out, ((ids.map fun n : ℕ => Value.num (n : ℚ)).mapM fun x => (intIn (some x) 1 255).map Int.toNat) =
        some out ↔ out = ids ∧ ∀ id ∈ ids, 1 ≤ id ∧ id ≤ 255 := fun out =>
      mapM_map_eq_some fun id _ b => by
        simp only [map_eq_some_iff, intIn_num]
        constructor
        · rintro ⟨z, ⟨rfl, hlo, hhi⟩, rfl⟩
          exact ⟨rfl, by omega, by omega⟩
        · rintro ⟨rfl, hlo, hhi⟩
          exact ⟨b, ⟨rfl, by omega, by omega⟩, rfl⟩
    have hread : readBack f64 (.array (ids.map numberOut) : Printed (d + 1)) =
        .arr (ids.map fun n : ℕ => .num (n : ℚ)) := by
      rw [readBack_array, map_map]
      exact congrArg Value.arr (map_congr_left fun id hid => readBack_numberOut hf (h ids rfl id hid))
    simp only [map_some, hread, parseViewDate, map_eq_some_iff, parseViewDates_eq_some, Value.asArray,
      Option.some.injEq, mem_some_iff, forall_eq']
    constructor
    · rintro ⟨out, ⟨list, rfl, hout, hdates⟩, rfl⟩
      obtain ⟨rfl, hok⟩ := (hids out).mp hout
      exact ⟨rfl, hok, hdates⟩
    · rintro ⟨rfl, hok, hdates⟩
      exact ⟨ids, ⟨_, rfl, (hids ids).mpr ⟨rfl, hok⟩, hdates⟩, rfl⟩

theorem parseView_out {w y : BoardView} (hid : w.id < 65536) (hdates : ∀ l ∈ w.date, ∀ id ∈ l, id < 65536) :
    parseView (readBack f64 (w.out : Printed (d + 2))) fields = some y ↔ y = w ∧ w.Ok fields := by
  obtain ⟨o, ho, hlookup⟩ := exists_readBack_struct f64
    (show ((w.members : List (String × Option (Printed (d + 1)))).map Prod.fst).Nodup by simp [BoardView.members])
  simp only [BoardView.members, forall_mem_cons, map_some, readBack_string, map_string,
    readBack_numberOut hf hid] at hlookup
  obtain ⟨hid, hname, hlayout, hq, hgroup, hlane, hsort, hcols, hdate, -⟩ := hlookup
  have hlayout' : ((o.lookup "layout").bind Value.asStr).bind parseLayout = some w.layout := by
    rw [hlayout]
    exact parseLayout_name w.layout
  rw [BoardView.out, ho]
  simp only [parseView_eq_some, Value.asObject, Option.some.injEq, exists_eq_left', idName_iff hid hname, hlayout', hq,
    parseQueryText_out, optStr_out hgroup, optStr_out hlane, optStr_out hsort, hcols, parseViewCols_out, hdate,
    parseViewDate_out hf hdates, exists_eq_left]
  constructor
  · rintro ⟨id, name, ⟨hpair, hid, hname⟩, q, ⟨rfl, hq⟩, hgroup, hlane, hsort, cols, ⟨rfl, hcols⟩,
      date, ⟨rfl, hdate⟩, rfl⟩
    obtain ⟨rfl, rfl⟩ := Prod.mk.inj hpair
    exact ⟨rfl, hid, hname, hq, hgroup, hlane, hsort, hcols, hdate⟩
  · rintro ⟨rfl, hid, hname, hq, hgroup, hlane, hsort, hcols, hdate⟩
    exact ⟨_, _, ⟨rfl, hid, hname⟩, _, ⟨rfl, hq⟩, hgroup, hlane, hsort, _, ⟨rfl, hcols⟩, _, ⟨rfl, hdate⟩, rfl⟩

theorem parseFields_out {l y : List BoardField}
    (h : ∀ f ∈ l, f.id < 65536 ∧ (∀ p ∈ f.options, ∀ o ∈ p, o.id < 65536) ∧ ∀ n ∈ f.days, n < 65536) :
    parseFields env ((nonEmptyList (l.map (BoardField.out : BoardField → Printed (d + 3)))).map
      (readBack f64)) = .ok y ↔
      y = l ∧ l.length ≤ maxFields ∧ (∀ f ∈ l, f.Ok env) ∧ ¬repeats env (l.map fun f => (f.id, f.name)) = true := by
  rw [map_nonEmptyList]
  split
  · next hl =>
    subst hl
    exact ⟨fun h => ⟨(ok.inj h).symm, Nat.zero_le _, by simp, by simp [repeats]⟩, fun h => congrArg ok h.1.symm⟩
  · rw [parseFields_eq]
    exact readList_out fun f hf' y => parseField_out hf (h f hf').1 (h f hf').2.1 (h f hf').2.2

theorem parseViews_out {l y : List BoardView} (h : ∀ w ∈ l, w.id < 65536 ∧ ∀ p ∈ w.date, ∀ id ∈ p, id < 65536) :
    parseViews env ((nonEmptyList (l.map (BoardView.out : BoardView → Printed (d + 2)))).map (readBack f64)) fields =
        .ok y ↔
      y = l ∧ l.length ≤ maxViews ∧ (∀ w ∈ l, w.Ok fields) ∧ ¬repeats env (l.map fun w => (w.id, w.name)) = true := by
  rw [map_nonEmptyList]
  split
  · next hl =>
    subst hl
    exact ⟨fun h => ⟨(ok.inj h).symm, Nat.zero_le _, by simp, by simp [repeats]⟩, fun h => congrArg ok h.1.symm⟩
  · rw [parseViews_eq]
    exact readList_out fun w hw y => okOr_eq_ok.trans (parseView_out hf (h w hw).1 (h w hw).2)

theorem map_nonZero {n : ℕ} (hn : n < 65536) :
    (nonZero n : Option (Printed d)).map (readBack f64) = if n = 0 then none else some (.num n) := by
  unfold nonZero
  split
  · rfl
  · rw [map_some, readBack_numberOut hf hn]

theorem parseColumnRef_out {columns : List BoardColumn} {err : SpecError} {n y : ℕ} (hn : n < 65536) :
    parseColumnRef ((nonZero n : Option (Printed d)).map (readBack f64)) columns err = .ok y ↔
      y = n ∧ RefOk columns n := by
  rw [map_nonZero hf hn]
  split
  · next hzero =>
    subst hzero
    exact ⟨fun h => ⟨(ok.inj h).symm, Nat.zero_le _, .inl rfl⟩, fun h => congrArg ok h.1.symm⟩
  · next hzero =>
    simp only [parseColumnRef, bind_eq_ok, okOr_eq_ok, intIn_num, refuseIf_eq_ok, pure_eq_ok]
    constructor
    · rintro ⟨z, ⟨rfl, hlo, hhi⟩, -, href, rfl⟩
      refine ⟨Int.toNat_natCast n, by omega, .inr ?_⟩
      simpa [hzero] using href
    · rintro ⟨rfl, hhi, href⟩
      refine ⟨_, ⟨rfl, by omega, by omega⟩, (), ?_, Int.toNat_natCast _⟩
      simpa [hzero] using href

theorem parseArch_out {n y : ℕ} (hn : n < 65536) :
    parseArch ((nonZero n : Option (Printed d)).map (readBack f64)) = .ok y ↔ y = n ∧ n ≤ 3650 := by
  rw [map_nonZero hf hn]
  split
  · next hzero =>
    subst hzero
    exact ⟨fun h => ⟨(ok.inj h).symm, Nat.zero_le _⟩, fun h => congrArg ok h.1.symm⟩
  · simp only [parseArch, okOr_eq_ok, map_eq_some_iff, intIn_num, archMax]
    constructor
    · rintro ⟨z, ⟨rfl, hlo, hhi⟩, rfl⟩
      exact ⟨Int.toNat_natCast n, by omega⟩
    · rintro ⟨rfl, hhi⟩
      exact ⟨y, ⟨rfl, by omega, by omega⟩, Int.toNat_natCast y⟩

theorem parseMembers_out {s y : BoardSpec} (hs : s.Typed) :
    (∃ o, readBack f64 (s.out : Printed (d + 5)) = .obj o ∧ parseMembers env o = .ok y) ↔
      y = s.canonical ∧ s.canonical.Ok env := by
  obtain ⟨o, ho, hlookup⟩ := exists_readBack_struct f64
    (show ((s.members : List (String × Option (Printed (d + 4)))).map Prod.fst).Nodup by simp [BoardSpec.members])
  simp only [BoardSpec.members, forall_mem_cons, map_some, map_string,
    readBack_numberOut hf (show s.v < 65536 by have := hs.v; omega)] at hlookup
  obtain ⟨hv, hdesc, hcolumns, hdflt, hdone, hsources, hfields, hviews, harch, -⟩ := hlookup
  have hversion : ¬(intIn (o.lookup "v") 1 1).isNone = true ↔ s.v = 1 := by
    rw [hv, Option.isNone_iff_eq_none, Option.eq_none_iff_forall_ne_some]
    simp only [ne_eq, intIn_num, not_forall, not_not]
    constructor
    · rintro ⟨z, -, hlo, hhi⟩
      omega
    · intro h
      exact ⟨s.v, rfl, by omega, by omega⟩
  have hcolumns' : ∀ y, parseColumns env (o.lookup "columns") = .ok y ↔ y = s.columns ∧
      (1 ≤ s.columns.length ∧ s.columns.length ≤ maxColumns) ∧ (∀ c ∈ s.columns, c.Ok) ∧
        ¬repeats env (s.columns.map fun c => (c.id, c.name)) = true := fun y => by
    rw [hcolumns]
    exact parseColumns_out hf fun c hc => ⟨(hs.columns c hc).1.trans (by decide), (hs.columns c hc).2⟩
  have hrefs : ∀ (n : ℕ), n < 256 → ∀ key err columns y,
      o.lookup key = (nonZero n : Option (Printed (d + 4))).map (readBack f64) →
        (parseColumnRef (o.lookup key) columns err = .ok y ↔ y = n ∧ RefOk columns n) :=
            fun n hn key err columns y hkey => by
    rw [hkey]
    exact parseColumnRef_out hf (hn.trans (by decide))
  have hsources' : ∀ y, parseSources (o.lookup "sources") = .ok y ↔ y = s.sources ∧
      s.sources.length ≤ maxSources ∧ ∀ r ∈ s.sources, r.Ok := fun y => by
    rw [hsources]
    exact parseSources_out
  have hfields' : ∀ y, parseFields env (o.lookup "fields") = .ok y ↔ y = s.fields ∧ s.fields.length ≤ maxFields ∧
      (∀ f ∈ s.fields, f.Ok env) ∧ ¬repeats env (s.fields.map fun f => (f.id, f.name)) = true := fun y => by
    rw [hfields]
    refine parseFields_out hf fun f hf' => ?_
    obtain ⟨hid, hoptions, hdays⟩ := hs.fields f hf'
    exact ⟨hid.trans (by decide), fun l hl o ho => (hoptions l hl o ho).trans (by decide),
      fun n hn => (hdays n hn).trans (by decide)⟩
  have hviews' : ∀ fields y, parseViews env (o.lookup "views") fields = .ok y ↔ y = s.views ∧
      s.views.length ≤ maxViews ∧ (∀ w ∈ s.views, w.Ok fields) ∧
        ¬repeats env (s.views.map fun w => (w.id, w.name)) = true := fun fields y => by
    rw [hviews]
    refine parseViews_out hf fun w hw => ?_
    obtain ⟨hid, hdates⟩ := hs.views w hw
    exact ⟨hid.trans (by decide), fun l hl id hid => (hdates l hl id hid).trans (by decide)⟩
  rw [BoardSpec.out, ho]
  simp only [Value.obj.injEq, exists_eq_left', parseMembers, bind_eq_ok, refuseIf_eq_ok, pure_eq_ok, hversion, hdesc,
    parseDesc_out, hcolumns', hrefs s.dflt hs.dflt "def" _ _ _ hdflt,
      hrefs s.done hs.done "done" _ _ _ hdone, hsources',
    hfields', hviews', harch, parseArch_out hf hs.arch]
  constructor
  · rintro ⟨-, hv, desc, ⟨rfl, hdesc⟩, cols, ⟨rfl, hlen, hcols, hrep⟩, dflt, ⟨rfl, hdflt⟩, done, ⟨rfl, hdone⟩, sources,
      ⟨rfl, hsourcesLen, hsources⟩, fields, ⟨rfl, hfieldsLen, hfields, hfieldsRep⟩, views,
      ⟨rfl, hviewsLen, hviews, hviewsRep⟩, arch, ⟨rfl, harch⟩, rfl⟩
    refine ⟨by rw [BoardSpec.canonical, hv], hv, fun t ht => ?_, hlen, hcols, hrep, hdflt, hdone, hsourcesLen, hsources,
      hfieldsLen, hfields, hfieldsRep, hviewsLen, hviews, hviewsRep, harch⟩
    obtain ⟨hmem, hne⟩ := filter_eq_some_iff.mp ht
    exact ⟨hdesc t hmem, of_decide_eq_true hne⟩
  · rintro ⟨rfl, hok⟩
    refine ⟨(), hok.v, _, ⟨rfl, fun t ht => ?_⟩, _, ⟨rfl, hok.columns_length, hok.columns, hok.columns_distinct⟩, _,
      ⟨rfl, hok.dflt⟩, _, ⟨rfl, hok.done⟩, _, ⟨rfl, hok.sources_length, hok.sources⟩, _,
      ⟨rfl, hok.fields_length, hok.fields, hok.fields_distinct⟩, _,
      ⟨rfl, hok.views_length, hok.views, hok.views_distinct⟩, _, ⟨rfl, hok.arch⟩, ?_⟩
    · rcases eq_or_ne t "" with rfl | hne
      · exact Nat.zero_le _
      · exact (hok.desc t (filter_eq_some_iff.mpr ⟨ht, decide_eq_true hne⟩)).1
    · rw [BoardSpec.canonical, show s.v = 1 from hok.v]

end Out

/-- A written definition is read from its text where it fits and its canonical form keeps to the limits. -/
theorem parseSpec_toJson {f64 : JsonNumber → ℚ} (henv : env.ReadsJson f64) {s y : BoardSpec} (hs : s.Typed) :
    parseSpec env s.toJson = .ok y ↔ s.toJson.utf8ByteSize ≤ specMaxBytes ∧ y = s.canonical ∧ s.canonical.Ok env := by
  have htext : env.fromStr s.toJson = some (readBack f64 (s.out : Printed (122 + 5))) :=
    henv.2 _ _ (BoardSpec.out s : Printed (122 + 5)).prints.denotes
  rw [parseSpec, ← parseMembers_out henv.1 hs, htext]
  split
  · next hsize => simp [not_le.mpr hsize]
  · next hsize =>
    obtain ⟨o, ho, -⟩ := exists_readBack_struct f64
      (show ((s.members : List (String × Option (Printed (122 + 4)))).map Prod.fst).Nodup by simp [BoardSpec.members])
    rw [BoardSpec.out, ho]
    simp [Nat.le_of_not_lt hsize]

end DashForge
