import DashForge.Boards.SpecOut
import DashForge.Data.JsonParse

/-!
# A board definition's round trip

What the reader takes from any text keeps to the limits (the lemmas `ok_of_parse…`), with each id once in its list and
nothing named that is not defined. So a definition that `serializeSpec` writes reads back, is written as the same text
again, and a definition that was read is written again when it fits (`serializeSpec_spec`).
-/

namespace DashForge

open Json (Printed)
open List Option Except

variable {env : BoardEnv}

/-! ### What is read keeps to the limits -/

variable {id : ℕ} {v : Option Value} {err : SpecError} {f : BoardField} {s : BoardSpec}

theorem ok_of_idName {o : Members} {ok : String → Bool} {name : String} (h : idName o ok = some (id, name)) :
    (1 ≤ id ∧ id ≤ 255) ∧ ok name = true := by
  refine ⟨idName_eq_some h, ?_⟩
  simp only [idName, bind_eq_some, filter_eq_some_iff, Option.pure_def,
    some.injEq, Prod.mk.injEq] at h
  obtain ⟨-, -, -, -, n, ⟨-, hok⟩, -, rfl⟩ := h
  exact hok

theorem ok_of_colorOf {color : Option String} (h : colorOf v err = .ok color) : ∀ s ∈ color, isColor s = true := by
  cases v with
  | none =>
    obtain rfl := ok.inj h
    exact fun _ hs => absurd hs (not_mem_none _)
  | some v =>
    simp only [colorOf, okOr_eq_ok, map_eq_some_iff, filter_eq_some_iff] at h
    obtain ⟨s, ⟨-, hcolor⟩, rfl⟩ := h
    exact fun _ hs => some.inj hs ▸ hcolor

theorem ok_of_parseWip {wip : Option ℕ} (h : parseWip v = .ok wip) : ∀ n ∈ wip, 1 ≤ n ∧ n ≤ 9999 := by
  cases v with
  | none =>
    obtain rfl := ok.inj h
    exact fun _ hn => absurd hn (not_mem_none _)
  | some v =>
    simp only [parseWip, okOr_eq_ok, map_eq_some_iff] at h
    obtain ⟨z, hz, rfl⟩ := h
    have hrange := intIn_eq_some hz
    rw [wipMax] at hrange
    exact fun _ hn => some.inj hn ▸ ⟨by omega, by omega⟩

theorem ok_of_parseColumn {v : Value} {c : BoardColumn} (h : parseColumn v = .ok c) : c.Ok := by
  simp only [parseColumn, bind_eq_ok, okOr_eq_ok, pure_eq_ok] at h
  obtain ⟨o, -, ⟨id, name⟩, hid, color, hcolor, wip, hwip, rfl⟩ := h
  obtain ⟨hid, hname⟩ := ok_of_idName hid
  exact ⟨hid, hname, ok_of_colorOf hcolor, ok_of_parseWip hwip⟩

theorem ok_of_parseOption {v : Value} {p : FieldOption} (h : parseOption v = .ok p) : p.Ok := by
  simp only [parseOption, bind_eq_ok, okOr_eq_ok, pure_eq_ok] at h
  obtain ⟨o, -, ⟨id, name⟩, hid, color, hcolor, rfl⟩ := h
  obtain ⟨hid, hname⟩ := ok_of_idName hid
  exact ⟨hid, hname, ok_of_colorOf hcolor⟩

theorem ok_of_parseColumns {cs : List BoardColumn} (h : parseColumns env v = .ok cs) :
    (1 ≤ cs.length ∧ cs.length ≤ maxColumns) ∧ (∀ c ∈ cs, c.Ok) ∧
        ¬repeats env (cs.map fun c => (c.id, c.name)) = true := by
  rw [parseColumns_eq] at h
  exact ok_of_readList h fun _ _ => ok_of_parseColumn

theorem ok_of_parseOptions {l : List FieldOption} (h : parseOptions env v = .ok l) : OptionsOk env l := by
  rw [parseOptions_eq] at h
  obtain ⟨hlen, hok, hrep⟩ := ok_of_readList h fun _ _ => ok_of_parseOption
  exact ⟨hlen, hok, hrep⟩


theorem ok_of_parseField {v : Value} (h : parseField env v = .ok f) : f.Ok env := by
  obtain ⟨o, -, id, name, hid, kind, -, hshape⟩ := parseField_eq_ok.mp h
  obtain ⟨hid, hname⟩ := ok_of_idName hid
  by_cases hsel : kind = .sel
  · subst hsel
    obtain ⟨-, -, -, l, hl, rfl⟩ := readShape_sel.mp hshape
    exact ⟨hid, hname, .sel (ok_of_parseOptions hl)⟩
  by_cases hiter : kind = .iter
  · subst hiter
    obtain ⟨-, s, n, -, hdate, hn, rfl⟩ := readShape_iter.mp hshape
    have hrange := intIn_eq_some hn
    rw [iterDaysMax] at hrange
    exact ⟨hid, hname, .iter hdate ⟨by omega, by omega⟩⟩
  · obtain ⟨-, -, -, rfl⟩ := (readShape_plain hsel hiter).mp hshape
    exact ⟨hid, hname, .plain hsel hiter⟩

theorem ok_of_parseFields {l : List BoardField} (h : parseFields env v = .ok l) :
    l.length ≤ maxFields ∧ (∀ f ∈ l, f.Ok env) ∧ ¬repeats env (l.map fun f => (f.id, f.name)) = true := by
  cases v with
  | none =>
    obtain rfl := ok.inj h
    exact ⟨Nat.zero_le _, by simp, by simp [repeats]⟩
  | some v =>
    rw [parseFields_eq] at h
    exact ok_of_readList h fun _ _ => ok_of_parseField

theorem charLen_of_parseQueryText {q : String} (h : parseQueryText v = some q) : charLen q ≤ queryMax := by
  cases v with
  | none =>
    obtain rfl := some.inj h
    exact Nat.zero_le _
  | some v =>
    simp only [parseQueryText, textIn, filter_eq_some_iff, decide_eq_true_eq] at h
    exact h.2

theorem ok_of_parseSource {v : Value} {s : BoardSource} (h : parseSource v = .ok s) : s.Ok := by
  simp only [parseSource, bind_eq_ok, okOr_eq_ok, pure_eq_ok] at h
  obtain ⟨o, -, r, hr, k, -, q, hq, rfl⟩ := h
  refine ⟨fun id hid => ?_, charLen_of_parseQueryText hq⟩
  cases hv : o.lookup "r" with
  | none =>
    rw [hv] at hr
    obtain rfl := ok.inj hr
    exact absurd hid (not_mem_none _)
  | some v =>
    simp only [hv, parseSourceRepo, okOr_eq_ok, map_eq_some_iff, filter_eq_some_iff] at hr
    obtain ⟨t, ⟨-, ht⟩, rfl⟩ := hr
    exact some.inj hid ▸ ht

theorem ok_of_parseSources {l : List BoardSource} (h : parseSources v = .ok l) :
    l.length ≤ maxSources ∧ ∀ s ∈ l, s.Ok := by
  cases v with
  | none =>
    obtain rfl := ok.inj h
    exact ⟨Nat.zero_le _, by simp⟩
  | some v =>
    simp only [parseSources, bind_eq_ok, okOr_eq_ok, filter_eq_some_iff, decide_eq_true_eq] at h
    obtain ⟨list, ⟨-, hlen⟩, hout⟩ := h
    have hlength := congrArg List.length (map_eq_map_ok hout)
    rw [length_map, length_map] at hlength
    refine ⟨hlength ▸ hlen, fun s hs => ?_⟩
    obtain ⟨v, -, hv⟩ := exists_of_mem_mapM hout hs
    exact ok_of_parseSource hv

variable {fields : List BoardField} {key : String}

theorem ok_of_parseView {v : Value} {w : BoardView} (h : parseView v fields = some w) : w.Ok fields := by
  obtain ⟨o, -, id, name, hid, layout, -, q, hq, group, -, lane, -, sort, -, hgroup, hlane, hsort, cols, hcols, date,
    hdate, rfl⟩ := parseView_eq_some.mp h
  obtain ⟨hid, hname⟩ := ok_of_idName hid
  refine ⟨hid, hname, charLen_of_parseQueryText hq, hgroup, hlane, hsort, fun keys hkeys => ?_, fun ids hids => ?_⟩
  · obtain rfl : cols = some keys := hkeys
    cases hv : o.lookup "cols" with
    | none => simp [hv, parseViewCols] at hcols
    | some c =>
      simp only [hv, parseViewCols, map_eq_some_iff, some.injEq, exists_eq_right, parseViewKeys_eq_some] at hcols
      obtain ⟨list, -, hlen, hout, hnodup⟩ := hcols
      have hlength := congrArg List.length (map_eq_map_some hout)
      rw [length_map, length_map] at hlength
      refine ⟨hlength ▸ hlen, fun k hk => ?_, hnodup⟩
      obtain ⟨x, -, hx⟩ := exists_of_mem_mapM_some hout hk
      exact (filter_eq_some_iff.mp hx).2
  · obtain rfl : date = some ids := hids
    cases hv : o.lookup "date" with
    | none => simp [hv, parseViewDate] at hdate
    | some c =>
      simp only [hv, parseViewDate, map_eq_some_iff, some.injEq, exists_eq_right, parseViewDates_eq_some] at hdate
      obtain ⟨list, -, hout, hok⟩ := hdate
      refine ⟨fun id hid => ?_, hok⟩
      obtain ⟨x, -, hx⟩ := exists_of_mem_mapM_some hout hid
      obtain ⟨z, hz, rfl⟩ := map_eq_some_iff.mp hx
      have hrange := intIn_eq_some hz
      omega

theorem ok_of_parseViews {l : List BoardView} (h : parseViews env v fields = .ok l) :
    l.length ≤ maxViews ∧ (∀ w ∈ l, w.Ok fields) ∧ ¬repeats env (l.map fun w => (w.id, w.name)) = true := by
  cases v with
  | none =>
    obtain rfl := ok.inj h
    exact ⟨Nat.zero_le _, by simp, by simp [repeats]⟩
  | some v =>
    rw [parseViews_eq] at h
    exact ok_of_readList h fun _ _ hw => ok_of_parseView (okOr_eq_ok.mp hw)

theorem ok_of_parseColumnRef {columns : List BoardColumn}
    (h : parseColumnRef v columns err = .ok id) : RefOk columns id := by
  refine ⟨?_, parseColumnRef_eq_ok h⟩
  cases v with
  | none =>
    obtain rfl := ok.inj h
    exact Nat.zero_le _
  | some v =>
    simp only [parseColumnRef, bind_eq_ok, okOr_eq_ok, refuseIf_eq_ok, pure_eq_ok] at h
    obtain ⟨z, hz, -, -, rfl⟩ := h
    have hrange := intIn_eq_some hz
    omega

theorem ok_of_parseDesc {desc : Option String} (h : parseDesc v = .ok desc) :
    ∀ t ∈ desc, charLen t ≤ descMax ∧ t ≠ "" := by
  cases v with
  | none =>
    obtain rfl := ok.inj h
    exact fun t ht => absurd ht (not_mem_none t)
  | some v =>
    simp only [parseDesc, okOr_eq_ok, map_eq_some_iff, textIn, filter_eq_some_iff, decide_eq_true_eq] at h
    obtain ⟨s, ⟨-, hlen⟩, rfl⟩ := h
    intro t ht
    obtain ⟨hs, hne⟩ := filter_eq_some_iff.mp ht
    obtain rfl := some.inj hs
    exact ⟨hlen, of_decide_eq_true hne⟩

theorem le_of_parseArch {n : ℕ} (h : parseArch v = .ok n) : n ≤ 3650 := by
  cases v with
  | none =>
    obtain rfl := ok.inj h
    exact Nat.zero_le _
  | some v =>
    simp only [parseArch, okOr_eq_ok, map_eq_some_iff] at h
    obtain ⟨z, hz, rfl⟩ := h
    have hrange := intIn_eq_some hz
    rw [archMax] at hrange
    omega

/-- Every definition that was read keeps to the limits. -/
theorem ok_of_parseSpec {json : String} (h : parseSpec env json = .ok s) : s.Ok env := by
  unfold parseSpec at h
  split at h
  · exact absurd h (by simp)
  split at h
  case h_2 => exact absurd h (by simp)
  case h_1 raw _ =>
    simp only [parseMembers, bind_eq_ok, pure_eq_ok] at h
    obtain ⟨-, -, desc, hdesc, columns, hcolumns, dflt, hdflt, done, hdone, sources, hsources, fields, hfields, views,
      hviews, arch, harch, rfl⟩ := h
    obtain ⟨hcolumnsLen, hcolumns, hcolumnsRep⟩ := ok_of_parseColumns hcolumns
    obtain ⟨hsourcesLen, hsources⟩ := ok_of_parseSources hsources
    obtain ⟨hfieldsLen, hfields, hfieldsRep⟩ := ok_of_parseFields hfields
    obtain ⟨hviewsLen, hviews, hviewsRep⟩ := ok_of_parseViews hviews
    exact ⟨rfl, ok_of_parseDesc hdesc, hcolumnsLen, hcolumns, hcolumnsRep, ok_of_parseColumnRef hdflt,
      ok_of_parseColumnRef hdone, hsourcesLen, hsources, hfieldsLen, hfields, hfieldsRep, hviewsLen, hviews, hviewsRep,
      le_of_parseArch harch⟩

/-! ### A definition that keeps to the limits -/

theorem BoardSpec.Ok.canonical_eq (h : s.Ok env) : s.canonical = s := by
  have hdesc : s.desc.filter (· ≠ "") = s.desc := by
    cases hs : s.desc with
    | none => rfl
    | some t => exact filter_some_pos (decide_eq_true (h.desc t hs).2)
  rw [BoardSpec.canonical, hdesc]

section Shape

variable {kind : FieldType} {options : Option (List FieldOption)} {start : Option String} {days : Option ℕ}

theorem BoardField.Shape.optionsOk (h : BoardField.Shape env kind options start days) {l : List FieldOption}
    (hl : l ∈ options) : OptionsOk env l := by
  cases h with
  | sel hok => exact some.inj hl ▸ hok
  | iter => exact absurd hl (not_mem_none l)
  | plain => exact absurd hl (not_mem_none l)

theorem BoardField.Shape.days_le (h : BoardField.Shape env kind options start days) {n : ℕ}
    (hn : n ∈ days) : n ≤ 90 := by
  cases h with
  | sel => exact absurd hn (not_mem_none n)
  | iter _ hdays => exact some.inj hn ▸ hdays.2
  | plain => exact absurd hn (not_mem_none n)

end Shape

theorem BoardSpec.Ok.typed (h : s.Ok env) : s.Typed := by
  refine ⟨by have := h.v; omega, fun c hc => ?_, Nat.lt_succ_of_le h.dflt.1, Nat.lt_succ_of_le h.done.1, fun f hf => ?_,
    fun w hw => ?_, by have := h.arch; omega⟩
  · obtain ⟨hid, -, -, hwip⟩ := h.columns c hc
    exact ⟨by omega, fun n hn => by have := hwip n hn; omega⟩
  · obtain ⟨hid, -, hshape⟩ := h.fields f hf
    refine ⟨by omega, fun l hl o ho => ?_, fun n hn => ?_⟩
    · have := ((hshape.optionsOk hl).each o ho).id
      omega
    · have := hshape.days_le hn
      omega
  · obtain ⟨hid, -, -, -, -, -, -, hdate⟩ := h.views w hw
    exact ⟨by omega, fun l hl id hid => by have := (hdate l hl).1 id hid; omega⟩

/-- The ids of a list: each once, and from 1 to 255. -/
def IdsOk (ids : List ℕ) : Prop := ids.Nodup ∧ ∀ id ∈ ids, 1 ≤ id ∧ id ≤ 255

/-- A key names one of its kind's own, or a field of the definition. -/
def NamesKey (s : BoardSpec) (builtins : List String) (key : String) : Prop :=
  key ∈ builtins ∨ ∃ f ∈ s.fields, fieldKeyId key = some f.id

/-- The ids of a definition are each once in their list and in range. -/
structure UniqueIds (s : BoardSpec) : Prop where
  columns : IdsOk (s.columns.map BoardColumn.id)
  fields : IdsOk (s.fields.map BoardField.id)
  options : ∀ f ∈ s.fields, ∀ l ∈ f.options, IdsOk (l.map FieldOption.id)
  views : IdsOk (s.views.map BoardView.id)

/-- What a definition refers to it defines. -/
structure RefsDefined (s : BoardSpec) : Prop where
  dflt : s.dflt = 0 ∨ s.dflt ∈ s.columns.map BoardColumn.id
  done : s.done = 0 ∨ s.done ∈ s.columns.map BoardColumn.id
  group : ∀ w ∈ s.views, ∀ key ∈ w.group, NamesKey s groupBuiltins key
  lane : ∀ w ∈ s.views, ∀ key ∈ w.lane, NamesKey s groupBuiltins key
  sort : ∀ w ∈ s.views, ∀ key ∈ w.sort, NamesKey s sortBuiltins key ∨
    ∃ k, key = "-" ++ k ∧ NamesKey s sortBuiltins k
  cols : ∀ w ∈ s.views, ∀ keys ∈ w.cols, ∀ key ∈ keys, NamesKey s colBuiltins key
  date : ∀ w ∈ s.views, ∀ ids ∈ w.date, ∀ id ∈ ids, id ∈ s.fields.map BoardField.id

theorem idsOk_of_not_repeats {α : Type} {l : List α} {id : α → ℕ} {name : α → String}
    (hrep : ¬repeats env (l.map fun a => (id a, name a)) = true) (hid : ∀ a ∈ l, 1 ≤ id a ∧ id a ≤ 255) :
    IdsOk (l.map id) := by
  have hnodup := nodup_of_not_repeats hrep
  rw [List.map_map] at hnodup
  exact ⟨hnodup, List.forall_mem_map.mpr hid⟩

theorem BoardSpec.Ok.uniqueIds (h : s.Ok env) : UniqueIds s where
  columns := idsOk_of_not_repeats h.columns_distinct fun c hc => (h.columns c hc).id
  fields := idsOk_of_not_repeats h.fields_distinct fun f hf => (h.fields f hf).id
  options f hf l hl := by
    obtain ⟨-, heach, hdistinct⟩ := (h.fields f hf).shape.optionsOk hl
    exact idsOk_of_not_repeats hdistinct fun o ho => (heach o ho).id
  views := idsOk_of_not_repeats h.views_distinct fun w hw => (h.views w hw).id

theorem mem_of_find?_id (h : fields.find? (·.id = id) = some f) : f ∈ fields ∧ f.id = id :=
  ⟨mem_of_find?_eq_some h, by simpa using find?_some h⟩

theorem namesKey_of_fieldOfKey {builtins : List String}
    (h : (fieldOfKey s.fields key).isSome = true) : NamesKey s builtins key := by
  obtain ⟨f, hf⟩ := isSome_iff_exists.mp h
  simp only [fieldOfKey, bind_eq_some] at hf
  obtain ⟨id, hid, hfind⟩ := hf
  obtain ⟨hmem, hfid⟩ := mem_of_find?_id hfind
  exact .inr ⟨f, hmem, hid.trans (congrArg some hfid.symm)⟩

theorem namesKey_of_groupKeyOk {boardLayout : Bool}
    (h : groupKeyOk s.fields key boardLayout = true) : NamesKey s groupBuiltins key := by
  unfold groupKeyOk at h
  split at h
  · next hstatus => exact .inl (hstatus ▸ by decide)
  split at h
  · next hbuiltin => exact .inl (contains_iff_mem.mp hbuiltin)
  · obtain ⟨f, hf, -⟩ := (Option.any_eq_true _ _).mp h
    exact namesKey_of_fieldOfKey (isSome_iff_exists.mpr ⟨f, hf⟩)

theorem namesKey_of_colKeyOk (h : colKeyOk s.fields key = true) : NamesKey s colBuiltins key := by
  rcases Bool.or_eq_true_iff.mp h with hbuiltin | hfield
  · exact .inl (contains_iff_mem.mp hbuiltin)
  · exact namesKey_of_fieldOfKey hfield

theorem namesKey_of_sortKeyOk (h : sortKeyOk s.fields key = true) :
    NamesKey s sortBuiltins key ∨ ∃ k, key = "-" ++ k ∧ NamesKey s sortBuiltins k := by
  have hkey : ∀ k, (sortBuiltins.contains k || (fieldOfKey s.fields k).isSome) = true → NamesKey s sortBuiltins k := by
    intro k hk
    rcases Bool.or_eq_true_iff.mp hk with hbuiltin | hfield
    · exact .inl (contains_iff_mem.mp hbuiltin)
    · exact namesKey_of_fieldOfKey hfield
  unfold sortKeyOk at h
  dsimp only at h
  split at h
  · next hminus =>
    obtain ⟨rest, hrest⟩ := hminus
    refine .inr ⟨String.ofList key.toList.tail, ?_, hkey _ h⟩
    rw [← String.toList_inj, String.toList_append, String.toList_ofList, String.toList_ofList, ← hrest]
    rfl
  · exact .inl (hkey _ h)

theorem DatesOk.mem {ids : List ℕ} (h : DatesOk fields ids) (hid : id ∈ ids) : id ∈ fields.map BoardField.id := by
  have hmem : (fields.find? (·.id = id)).map BoardField.kind ∈
      ids.map fun id => (fields.find? (·.id = id)).map BoardField.kind :=
    mem_map_of_mem (f := fun id => (fields.find? (·.id = id)).map BoardField.kind) hid
  have hsome : ∃ kind, (fields.find? (·.id = id)).map BoardField.kind = some kind := by
    rcases h with h | ⟨h, -⟩
    · rw [h, mem_singleton] at hmem
      exact ⟨_, hmem⟩
    · rw [h] at hmem
      exact ⟨.date, by simpa using hmem⟩
  obtain ⟨kind, hkind⟩ := hsome
  obtain ⟨f, hf, -⟩ := map_eq_some_iff.mp hkind
  exact mem_map.mpr ⟨f, mem_of_find?_id hf⟩

theorem BoardSpec.Ok.refsDefined (h : s.Ok env) : RefsDefined s where
  dflt := h.dflt.2
  done := h.done.2
  group w hw key hkey := namesKey_of_groupKeyOk ((h.views w hw).group key hkey)
  lane w hw key hkey := namesKey_of_groupKeyOk ((h.views w hw).lane key hkey).2.2
  sort w hw key hkey := namesKey_of_sortKeyOk ((h.views w hw).sort key hkey)
  cols w hw keys hkeys key hkey := namesKey_of_colKeyOk (((h.views w hw).cols keys hkeys).2.1 key hkey)
  date w hw ids hids _ hid := ((h.views w hw).date ids hids).2.mem hid

/-! ### What is written reads back -/

theorem size_canonical_le (s : BoardSpec) : s.canonical.toJson.utf8ByteSize ≤ s.toJson.utf8ByteSize := by
  rw [BoardSpec.toJson, BoardSpec.toJson, String.utf8ByteSize_ofList, String.utf8ByteSize_ofList]
  refine Printed.size_struct_le ?_
  -- Nothing but the description can be left out.
  have hdesc : s.desc.filter (· ≠ "") = none ∨ s.desc.filter (· ≠ "") = s.desc := by
    cases hs : s.desc with
    | none => exact .inl rfl
    | some t =>
      rcases eq_or_ne t "" with rfl | hne
      · exact .inl rfl
      · exact .inr (filter_some_pos (decide_eq_true hne))
  rcases hdesc with hnone | hsame
  · simp only [BoardSpec.members, BoardSpec.canonical, hnone, map_none]
    exact Printed.present_sublist [("v", some (numberOut s.v))] _ "desc" _
  · rw [BoardSpec.canonical, hsame]

theorem serializeSpec_eq_ok {f64 : JsonNumber → ℚ} (henv : env.ReadsJson f64) (hs : s.Typed) {j : String} :
    serializeSpec env s = .ok j ↔
      s.toJson.utf8ByteSize ≤ specMaxBytes ∧ s.canonical.Ok env ∧ j = s.canonical.toJson := by
  simp only [serializeSpec, bind_eq_ok, pure_eq_ok, parseSpec_toJson henv hs]
  constructor
  · rintro ⟨y, ⟨hsize, rfl, hok⟩, rfl⟩
    exact ⟨hsize, hok, rfl⟩
  · rintro ⟨hsize, hok, rfl⟩
    exact ⟨_, ⟨hsize, rfl, hok⟩, rfl⟩

/-- A definition that is written reads back, but for an empty description, which is read as none, is written as the same
text again and fits. A definition that was read has each id once in its list and in range and refers to what it defines,
and where it fits it is written and read back. -/
theorem serializeSpec_spec (env : BoardEnv) (f64 : JsonNumber → ℚ) (henv : env.ReadsJson f64) :
    (∀ s j, s.Typed → serializeSpec env s = .ok j →
      parseSpec env j = .ok s.canonical ∧ serializeSpec env s.canonical = .ok j ∧ j.utf8ByteSize ≤ specMaxBytes) ∧
    ∀ j s, parseSpec env j = .ok s → UniqueIds s ∧ RefsDefined s ∧
      (s.toJson.utf8ByteSize ≤ specMaxBytes → ∃ j', serializeSpec env s = .ok j' ∧ parseSpec env j' = .ok s) := by
  constructor
  · intro s j hs hj
    obtain ⟨hsize, hok, rfl⟩ := (serializeSpec_eq_ok henv hs).mp hj
    have hsize' := (size_canonical_le s).trans hsize
    have hcanonical := hok.canonical_eq
    refine ⟨(parseSpec_toJson henv hok.typed).mpr ⟨hsize', hcanonical.symm, ?_⟩,
      (serializeSpec_eq_ok henv hok.typed).mpr ⟨hsize', ?_, ?_⟩, hsize'⟩
    · rwa [hcanonical]
    · rwa [hcanonical]
    · rw [hcanonical]
  · intro j s h
    have hok := ok_of_parseSpec h
    have hcanonical := hok.canonical_eq
    refine ⟨hok.uniqueIds, hok.refsDefined, fun hsize => ⟨s.toJson, ?_, ?_⟩⟩
    · exact (serializeSpec_eq_ok henv hok.typed).mpr ⟨hsize, hcanonical.symm ▸ hok, by rw [hcanonical]⟩
    · exact (parseSpec_toJson henv hok.typed).mpr ⟨hsize, hcanonical.symm, hcanonical.symm ▸ hok⟩

/-- Doubles of whole numbers, taken exactly. -/
def wholeNumber : JsonNumber → ℚ
  | .posInt n => n.toNat
  | .negInt n => n.toInt
  | .float _ => 0

def textEnv : BoardEnv where
  fromStr s := (Json.parseText s.toList).map fun v => Value.ofJson wholeNumber v.val
  ryu _ := ""
  toLowercase s := String.ofList (s.toList.map Char.toLower)
  parseF64 _ := none

theorem textEnv_readsJson : textEnv.ReadsJson wholeNumber := by
  refine ⟨fun _ _ => rfl, fun text v h => ?_⟩
  change (Json.parseText (String.ofList text).toList).map _ = _
  rw [String.toList_ofList, Json.parseText_eq h]
  rfl

/-- Two columns, a source, two fields and a view by them, with an empty description. -/
def fullBoard : BoardSpec where
  v := 1
  desc := some ""
  columns := [⟨1, "todo", some "#aabbcc", some 3⟩, ⟨2, "done", none, none⟩]
  dflt := 1
  done := 2
  sources := [⟨none, .issues, "label:bug"⟩]
  fields := [⟨1, "size", .sel, some [⟨1, "S", none⟩, ⟨2, "L", none⟩], none, none⟩,
    ⟨2, "sprint", .iter, none, some "2026-01-05", some 14⟩]
  views := [⟨1, "all", .roadmap, "", some "f1", none, some "-f2", none, some [2]⟩]
  arch := 30

theorem fullBoard_ok : fullBoard.canonical.Ok textEnv where
  v := rfl
  desc := by simp [fullBoard, BoardSpec.canonical]
  columns_length := by decide
  columns := forall_mem_cons.mpr ⟨⟨by decide, by decide, by decide, by decide⟩, forall_mem_cons.mpr
    ⟨⟨by decide, by decide, by decide, by decide⟩, forall_mem_nil _⟩⟩
  columns_distinct := by decide
  dflt := ⟨by decide, by decide⟩
  done := ⟨by decide, by decide⟩
  sources_length := by decide
  sources := forall_mem_singleton.mpr ⟨by decide, by decide⟩
  fields_length := by decide
  fields := forall_mem_cons.mpr ⟨⟨by decide, by decide, .sel ⟨by decide, forall_mem_cons.mpr
    ⟨⟨by decide, by decide, by decide⟩, forall_mem_singleton.mpr ⟨by decide, by decide, by decide⟩⟩, by decide⟩⟩,
    forall_mem_singleton.mpr ⟨by decide, by decide, .iter (by decide) (by decide)⟩⟩
  fields_distinct := by decide
  views_length := by decide
  views := forall_mem_singleton.mpr ⟨by decide, by decide, by decide, by decide, by decide, by decide, by decide,
    by rintro ids ⟨⟩; exact ⟨by decide, .inl (by decide)⟩⟩
  views_distinct := by decide
  arch := by decide

theorem serializeSpec_spec_sample :
    textEnv.ReadsJson wholeNumber ∧ fullBoard.Typed ∧
      ∃ j, serializeSpec textEnv fullBoard = .ok j ∧ parseSpec textEnv j = .ok fullBoard.canonical ∧
        UniqueIds fullBoard.canonical ∧ fullBoard.toJson.utf8ByteSize ≤ specMaxBytes := by
  have htyped : fullBoard.Typed := by
    constructor <;> simp [fullBoard]
  have hsize : fullBoard.toJson.utf8ByteSize ≤ specMaxBytes := by
    rw [BoardSpec.toJson, String.utf8ByteSize_ofList]
    decide +kernel
  have hwritten := (serializeSpec_eq_ok textEnv_readsJson htyped).mpr ⟨hsize, fullBoard_ok, rfl⟩
  obtain ⟨hread, -, -⟩ := (serializeSpec_spec textEnv wholeNumber textEnv_readsJson).1 _ _ htyped hwritten
  obtain ⟨hunique, -, -⟩ := (serializeSpec_spec textEnv wholeNumber textEnv_readsJson).2 _ _ hread
  exact ⟨textEnv_readsJson, htyped, _, hwritten, hread, hunique, hsize⟩

end DashForge
