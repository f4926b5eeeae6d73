import DashForge.Private.DocFormat
import DashForge.Refs.Members

/-!
# Sealed updates never move a live public ref

What a member folds, against what the public folds. The pass over the rows leaves the public updates and the
opened ones gathered by name (`readOf`). The pass over the names edits four fields at once, and each edit goes
with an alert: `NamesSettled` says what they hold after any number of names, and `namesSettled` that it is kept.

`publicNames_win` is the result: a name that is live for the public has exactly its public updates, so it
resolves as it does there, and every opened update is folded or has one alert.
-/

namespace DashForge

open Tlv (DocKind)
open List SortedMap Function Doc

/-! ### The pass over the rows -/

def RowRead.plain? : RowRead → Option (String × RefUpdate)
  | .plain name u => some (name, u)
  | _ => none

def RowRead.opened? : RowRead → Option OpenedUpdate
  | .opened o => some o
  | _ => none

def plainUpdates (rows : List RowRead) : List (String × RefUpdate) := rows.filterMap RowRead.plain?

def openedUpdates (rows : List RowRead) : List OpenedUpdate := rows.filterMap RowRead.opened?

/-- What the pass over the rows leaves. -/
structure ReadOf (rows : List RowRead) (r : MembersRead) : Prop where
  byName : r.out.byName = .gather (plainUpdates rows)
  members : r.members = .gather ((openedUpdates rows).map fun o => (o.real.name, o.update))
  sealed_ : r.out.sealed = .ofList ((openedUpdates rows).map fun o => (o.update.id, o.blind))
  narrower : ∀ id, id ∈ r.out.narrower ↔ ∃ o ∈ openedUpdates rows, o.narrower ∧ o.update.id = id
  alerts : ∀ a ∈ r.out.alerts, ∃ b, a.kind = .blind b

theorem ReadOf.take {rows : List RowRead} {r : MembersRead} (h : ReadOf rows r) (x : RowRead) :
    ReadOf (rows ++ [x]) (r.take x) := by
  obtain ⟨hby, hmem, hsealed, hnar, halerts⟩ := h
  have hplain : plainUpdates (rows ++ [x]) = plainUpdates rows ++ x.plain?.toList := by
    rw [plainUpdates, filterMap_append, filterMap_cons]
    cases x.plain? <;> rfl
  have hopened : openedUpdates (rows ++ [x]) = openedUpdates rows ++ x.opened?.toList := by
    rw [openedUpdates, filterMap_append, filterMap_cons]
    cases x.opened? <;> rfl
  cases x with
  | plain name u =>
    replace hopened := hopened.trans (append_nil _)
    refine ⟨?_, hopened ▸ hmem, hopened ▸ hsealed, hopened ▸ hnar, halerts⟩
    exact hplain ▸ gather_concat _ (name, u) ▸ hby ▸ rfl
  | ignored =>
    replace hplain := hplain.trans (append_nil _)
    replace hopened := hopened.trans (append_nil _)
    exact ⟨hplain ▸ hby, hopened ▸ hmem, hopened ▸ hsealed, hopened ▸ hnar, halerts⟩
  | unreadable narrower unopened =>
    replace hplain := hplain.trans (append_nil _)
    replace hopened := hopened.trans (append_nil _)
    exact ⟨hplain ▸ hby, hopened ▸ hmem, hopened ▸ hsealed, hopened ▸ hnar, halerts⟩
  | opened o =>
    replace hplain := hplain.trans (append_nil _)
    replace hopened : openedUpdates (rows ++ [.opened o]) = openedUpdates rows ++ [o] := hopened
    refine ⟨hplain ▸ hby, ?_, ?_, fun id => ?_, fun a ha => ?_⟩
    · rw [hopened, map_append, map_singleton, gather_concat, ← hmem]
      rfl
    · rw [hopened, map_append, map_singleton, ofList_concat, ← hsealed]
      rfl
    · have hstep : id ∈ (r.take (.opened o)).out.narrower ↔ id ∈ r.out.narrower ∨ o.narrower ∧ o.update.id = id := by
        rw [MembersRead.take]
        cases o.narrower <;> simp [or_comm, eq_comm (a := id)]
      rw [hstep, hnar, hopened]
      simp [or_and_right, exists_or]
    · rcases mem_append.mp ha with ha | ha
      · exact halerts a ha
      · obtain ⟨b, -, rfl⟩ := mem_map.mp ha
        exact ⟨b, rfl⟩

theorem readOf (rows : List RowRead) : ReadOf rows (rows.foldl MembersRead.take {}) := by
  induction rows using reverseRecOn with
  | nil => exact ⟨rfl, rfl, rfl, by simp [openedUpdates], by simp⟩
  | append_singleton rows x ih =>
    rw [foldl_append]
    exact ih.take x

/-! ### The pass over the names -/

section Settle

/-- The updates of a name that its narrower branches leave. -/
def contenders (narrower : RefUpdate → Bool) (us : List RefUpdate) : List RefUpdate :=
  if us.any narrower then us.filter narrower else us

/-- The updates of a name that a narrower branch takes it from. -/
def overruled (narrower : RefUpdate → Bool) (us : List RefUpdate) : List RefUpdate :=
  if us.any narrower then us.filter fun u => !narrower u else []

namespace MembersUpdates

theorem foldl_dropNarrowerName (out : MembersUpdates) (us : List RefUpdate) : us.foldl dropNarrowerName out = { out with
        sealed := out.sealed.eraseAll (us.map RefUpdate.id)
        alerts := out.alerts ++ us.map fun u => ⟨u.id, .narrowerName⟩ } := by
  induction us generalizing out with
  | nil => simp [eraseAll]
  | cons u us ih => simp [ih, dropNarrowerName, eraseAll]

theorem foldl_dropPublicName (out : MembersUpdates) (us : List RefUpdate) : us.foldl dropPublicName out = { out with
        sealed := out.sealed.eraseAll (us.map RefUpdate.id)
        narrower := us.foldl (fun s u => s.erase u.id) out.narrower
        alerts := out.alerts ++ us.map fun u => ⟨u.id, .publicName⟩ } := by
  induction us generalizing out with
  | nil => simp [eraseAll]
  | cons u us ih => simp [ih, dropPublicName, eraseAll]

theorem mem_foldl_erase {s : Finset String} {us : List RefUpdate} {id : String} :
    id ∈ us.foldl (fun s u => s.erase u.id) s ↔ id ∈ s ∧ ∀ u ∈ us, u.id ≠ id := by
  induction us generalizing s with
  | nil => simp
  | cons u us ih =>
    rw [foldl_cons, ih, Finset.mem_erase]
    grind

end MembersUpdates

variable (env : PlatformEnv) (configs : List ConfigDoc) (out₀ : MembersUpdates)

/-- Whether the public sees the name of an entry live. -/
def liveEntry (e : String × List RefUpdate) : Bool := liveName env configs e.1 (out₀.byName.listAt e.1)

/-- The updates of an entry that are left when its narrower branches have taken the name. -/
def contendersOf (e : String × List RefUpdate) : List RefUpdate :=
  sortByKey RefUpdate.key (contenders (fun u => u.id ∈ out₀.narrower) e.2)

/-- The alerts that settling a name raises. -/
def nameAlerts (e : String × List RefUpdate) : List RefAlert :=
  (overruled (fun u => u.id ∈ out₀.narrower) e.2).map (fun u => ⟨u.id, .narrowerName⟩) ++
    if liveEntry env configs out₀ e then (contendersOf out₀ e).map fun u => ⟨u.id, .publicName⟩ else []

/-- The sealed updates that settling a name folds. -/
def foldedSealed (e : String × List RefUpdate) : List RefUpdate :=
  if liveEntry env configs out₀ e then [] else contendersOf out₀ e

variable {env configs out₀}

variable {e : String × List RefUpdate} {narrower : RefUpdate → Bool} {us : List RefUpdate}

variable {out : MembersUpdates} {a : RefAlert} {id : String}

theorem settleName_eq
    (hnar : ∀ u ∈ e.2, u.id ∈ out.narrower ↔ u.id ∈ out₀.narrower)
    (hby : out.byName.listAt e.1 = out₀.byName.listAt e.1) :
    settleName env configs out e =
      { out with
        byName :=
          if liveEntry env configs out₀ e then out.byName
          else out.byName.insert e.1 (out₀.byName.listAt e.1 ++ foldedSealed env configs out₀ e)
        alerts := out.alerts ++ nameAlerts env configs out₀ e
        sealed := out.sealed.eraseAll ((nameAlerts env configs out₀ e).map RefAlert.id)
        narrower :=
          if liveEntry env configs out₀ e then (contendersOf out₀ e).foldl (fun s u => s.erase u.id) out.narrower
          else out.narrower } := by
  have hany : (e.2.any fun u => u.id ∈ out.narrower) = e.2.any fun u => u.id ∈ out₀.narrower := by
    rw [Bool.eq_iff_iff, any_eq_true, any_eq_true]
    exact exists_congr fun u => and_congr_right fun hu => by simp [hnar u hu]
  have hfilter : (e.2.filter fun u => u.id ∈ out.narrower) = e.2.filter fun u => u.id ∈ out₀.narrower :=
    filter_congr fun u hu => decide_eq_decide.mpr (hnar u hu)
  have hdrop : (e.2.filter fun u => u.id ∉ out.narrower) = e.2.filter fun u => !decide (u.id ∈ out₀.narrower) :=
    filter_congr fun u hu => by simp [hnar u hu]
  rw [settleName]
  simp only [hany, hfilter, hdrop, MembersUpdates.foldl_dropNarrowerName, MembersUpdates.foldl_dropPublicName, hby]
  rw [← overruled, ← contenders, ← contendersOf, ← liveEntry]
  cases hlive : liveEntry env configs out₀ e with
  | true => simp [nameAlerts, hlive, eraseAll_append, comp_def]
  | false => simp [nameAlerts, foldedSealed, hlive, comp_def]

theorem contenders_subset : contenders narrower us ⊆ us := by
  rw [contenders]
  split
  · exact (filter_sublist).subset
  · exact List.Subset.refl us

theorem overruled_subset : overruled narrower us ⊆ us := by
  rw [overruled]
  split
  · exact (filter_sublist).subset
  · exact nil_subset us

theorem mem_overruled {u : RefUpdate} : u ∈ overruled narrower us ↔ u ∈ us ∧ u ∉ contenders narrower us := by
  rw [overruled, contenders]
  split
  · simp only [mem_filter, Bool.not_eq_true', not_and, Bool.not_eq_true]
    exact and_congr_right fun hu => ⟨fun h _ => h, fun h => h hu⟩
  · simp

theorem perm_overruled_contenders (narrower : RefUpdate → Bool) (us : List RefUpdate) :
    (overruled narrower us ++ contenders narrower us).Perm us := by
  rw [overruled, contenders]
  split
  · exact perm_append_comm.trans (filter_append_perm _ _)
  · exact List.Perm.refl us

theorem exists_of_mem_nameAlerts (ha : a ∈ nameAlerts env configs out₀ e) : ∃ u ∈ e.2, u.id = a.id := by
  rcases mem_append.mp ha with ha | ha
  · obtain ⟨u, hu, rfl⟩ := mem_map.mp ha
    exact ⟨u, overruled_subset hu, rfl⟩
  · split at ha
    · obtain ⟨u, hu, rfl⟩ := mem_map.mp ha
      exact ⟨u, contenders_subset ((mem_sortByKey _).mp hu), rfl⟩
    · cases ha

theorem publicName_mem_nameAlerts : ⟨id, .publicName⟩ ∈ nameAlerts env configs out₀ e ↔
      liveEntry env configs out₀ e ∧ ∃ u ∈ contendersOf out₀ e, u.id = id := by
  rw [nameAlerts]
  split <;> simp_all

theorem narrowerName_mem_nameAlerts : ⟨id, .narrowerName⟩ ∈ nameAlerts env configs out₀ e ↔
      ∃ u ∈ e.2, u ∉ contendersOf out₀ e ∧ u.id = id := by
  rw [nameAlerts]
  simp only [contendersOf, mem_sortByKey, mem_append, mem_map, RefAlert.mk.injEq, and_true, mem_overruled,
    and_assoc]
  refine or_iff_left fun h => ?_
  split at h
  · simp at h
  · cases h

theorem kind_of_mem_nameAlerts
    (ha : a ∈ nameAlerts env configs out₀ e) : a.kind = .publicName ∨ a.kind = .narrowerName := by
  rcases mem_append.mp ha with ha | ha
  · obtain ⟨u, -, rfl⟩ := mem_map.mp ha
    exact .inr rfl
  · split at ha
    · obtain ⟨u, -, rfl⟩ := mem_map.mp ha
      exact .inl rfl
    · cases ha

theorem nodup_nameAlerts (hids : (e.2.map RefUpdate.id).Nodup) :
    ((nameAlerts env configs out₀ e).map RefAlert.id).Nodup := by
  have hsort : (contendersOf out₀ e).Perm (contenders (fun u => u.id ∈ out₀.narrower) e.2) := perm_sortByKey _ _
  have hperm := (hsort.append_left _).trans (perm_overruled_contenders (fun u => u.id ∈ out₀.narrower) e.2)
  have hall := (hperm.map RefUpdate.id).nodup_iff.mpr hids
  rw [map_append] at hall
  rw [nameAlerts]
  split
  · rw [map_append, map_map, map_map]
    exact hall
  · rw [append_nil, map_map]
    exact (nodup_append.mp hall).1

variable (env configs out₀) in
/-- What the pass has done to each field after some names. -/
structure NamesSettled (done : List (String × List RefUpdate)) (out : MembersUpdates) : Prop where
  byName : ∀ n, out.byName.listAt n =
    out₀.byName.listAt n ++ (done.filter fun e => e.1 = n).flatMap (foldedSealed env configs out₀)
  alerts : out.alerts = out₀.alerts ++ done.flatMap (nameAlerts env configs out₀)
  sealed_ : ∀ id, out.sealed.lookup id =
    if id ∈ (done.flatMap (nameAlerts env configs out₀)).map RefAlert.id then none else out₀.sealed.lookup id
  narrower : ∀ id, id ∈ out.narrower ↔
    id ∈ out₀.narrower ∧ ⟨id, .publicName⟩ ∉ done.flatMap (nameAlerts env configs out₀)

theorem NamesSettled.step {done : List (String × List RefUpdate)}
    (h : NamesSettled env configs out₀ done out) (hname : ∀ d ∈ done, d.1 ≠ e.1)
    (hids : ∀ d ∈ done, ∀ v ∈ d.2, ∀ u ∈ e.2, v.id ≠ u.id) :
    NamesSettled env configs out₀ (done ++ [e]) (settleName env configs out e) := by
  obtain ⟨hby, halerts, hsealed, hnar⟩ := h
  have hbye : out.byName.listAt e.1 = out₀.byName.listAt e.1 := by
    have hnone : (done.filter fun d => d.1 = e.1) = [] := by simpa [filter_eq_nil_iff] using fun a b hd => hname (a, b) hd
    rw [hby, hnone, flatMap_nil, append_nil]
  have hnare : ∀ u ∈ e.2, u.id ∈ out.narrower ↔ u.id ∈ out₀.narrower := by
    intro u hu
    rw [hnar, and_iff_left]
    intro ha
    obtain ⟨d, hd, ha⟩ := mem_flatMap.mp ha
    obtain ⟨v, hv, hid⟩ := exists_of_mem_nameAlerts ha
    exact hids d hd v hv u hu hid
  rw [settleName_eq hnare hbye]
  refine ⟨fun n => ?_, ?_, fun id => ?_, fun id => ?_⟩
  · rw [filter_append, flatMap_append, ← append_assoc, ← hby]
    by_cases hn : e.1 = n
    · subst hn
      cases hlive : liveEntry env configs out₀ e with
      | true => simp [foldedSealed, hlive]
      | false => simp [listAt_insert, hbye]
    · rw [filter_singleton, decide_eq_false hn, cond_false, flatMap_nil, append_nil]
      split
      · rfl
      · rw [listAt_insert, if_neg (Ne.symm hn)]
  · rw [halerts, flatMap_append, append_assoc, flatMap_singleton]
  · rw [lookup_eraseAll, hsealed, flatMap_append, map_append, flatMap_singleton]
    simp only [mem_append]
    by_cases hnew : id ∈ (nameAlerts env configs out₀ e).map RefAlert.id
    · rw [if_pos hnew, if_pos (.inr hnew)]
    · rw [if_neg hnew]
      exact if_congr (or_iff_left hnew).symm rfl rfl
  · have hstep : id ∈ (if liveEntry env configs out₀ e then
        (contendersOf out₀ e).foldl (fun s u => s.erase u.id) out.narrower else out.narrower) ↔
          id ∈ out.narrower ∧ ⟨id, .publicName⟩ ∉ nameAlerts env configs out₀ e := by
      rw [publicName_mem_nameAlerts]
      split
      · next hlive => simp [MembersUpdates.mem_foldl_erase, hlive]
      · next hlive => simp [hlive]
    rw [hstep, hnar, flatMap_append, flatMap_singleton, mem_append, not_or, and_assoc]

theorem namesSettled {entries : List (String × List RefUpdate)} (hnames : entries.Pairwise fun d e => d.1 ≠ e.1)
    (hids : entries.Pairwise fun d e => ∀ v ∈ d.2, ∀ u ∈ e.2, v.id ≠ u.id) :
    NamesSettled env configs out₀ entries (entries.foldl (settleName env configs) out₀) := by
  induction entries using reverseRecOn with
  | nil => exact ⟨by simp, by simp, by simp, by simp⟩
  | append_singleton entries e ih =>
    obtain ⟨hnames, -, hname⟩ := pairwise_append.mp hnames
    obtain ⟨hids, -, hid⟩ := pairwise_append.mp hids
    rw [foldl_append]
    refine (ih hnames hids).step (fun d hd => hname d hd e (by simp)) fun d hd => hid d hd e (by simp)

end Settle

/-! ### The rows of a history -/

section Rows

variable {env : PlatformEnv} {state : GitState} {open_ : DocKind → FetchedDocument → Opened}

variable (env) in
/-- The public update of a row. -/
def publicRow (row : FetchedDocument × Bool) : Option (Bytes32 × RefUpdate) :=
  if wellFormedIn env .refUpdate row.1 then
    (row.1.fieldBytes32 "refNameHash").map fun h => (h, refUpdateFromDoc row.1 (hexEncode h.val) row.2)
  else none

theorem publicUpdates_eq : state.publicUpdates env = state.rows.filterMap (publicRow env) := by
  rw [GitState.publicUpdates, GitState.updates, filterMap_filter, map_filterMap]
  refine filterMap_congr fun row _ => ?_
  rw [publicRow]
  split
  · rw [Option.map_map]
    rfl
  · rfl

variable {row : FetchedDocument × Bool} {x : Bytes32 × RefUpdate} {o : OpenedUpdate}

theorem publicRow_spec (h : publicRow env row = some x) :
    x.1 = env.nameHash x.2.refName ∧ x.2.refNameHash = hexEncode x.1.val ∧ x.2.id = row.1.id := by
  rw [publicRow] at h
  split at h
  · next hwf =>
    obtain ⟨n, hn, hhash⟩ := wellFormedIn_refUpdate hwf
    rw [hhash] at h
    obtain rfl := Option.some.inj h
    refine ⟨?_, rfl, rfl⟩
    simp [refUpdateFromDoc, hn]
  · cases h

theorem plain?_readRow (row : FetchedDocument × Bool) :
    (readRow env open_ row).plain? = (publicRow env row).map fun x => (x.2.refName, x.2) := by
  rw [readRow, publicRow]
  split
  · next hwf =>
    obtain ⟨n, hn, hhash⟩ := wellFormedIn_refUpdate hwf
    rw [hn, hhash]
    simp [RowRead.plain?, refUpdateFromDoc, hn, PlatformEnv.toRefEnv]
  · split
    · rfl
    · dsimp only
      split <;> rfl

theorem id_of_readRow_opened (h : readRow env open_ row = .opened o) : o.update.id = row.1.id := by
  rw [readRow] at h
  split at h
  · split at h <;> cases h
  · split at h
    · cases h
    · dsimp only at h
      split at h
      · obtain rfl := RowRead.opened.inj h
        rfl
      · cases h

theorem plainUpdates_memberRows : plainUpdates (memberRows env open_ state) =
    (state.publicUpdates env).map fun x => (x.2.refName, x.2) := by
  rw [plainUpdates, memberRows, filterMap_map, publicUpdates_eq, map_filterMap]
  exact filterMap_congr fun row _ => plain?_readRow row

theorem exists_row_of_mem_openedUpdates (ho : o ∈ openedUpdates (memberRows env open_ state)) :
    ∃ row ∈ state.rows, readRow env open_ row = .opened o := by
  obtain ⟨r, hr, ho⟩ := mem_filterMap.mp ho
  obtain ⟨row, hrow, rfl⟩ := mem_map.mp hr
  refine ⟨row, hrow, ?_⟩
  cases hread : readRow env open_ row with
  | opened o' =>
    rw [hread] at ho
    rw [Option.some.inj ho]
  | _ => rw [hread] at ho; cases ho

theorem map_id_openedUpdates : ((openedUpdates (memberRows env open_ state)).map fun o => o.update.id).Sublist
    (state.rows.map fun row => row.1.id) := by
  rw [openedUpdates, memberRows, filterMap_map, map_filterMap]
  induction state.rows with
  | nil => exact .slnil
  | cons row rows ih =>
    rw [filterMap_cons, map_cons]
    cases hread : readRow env open_ row with
    | opened o =>
      rw [comp_apply, hread]
      exact id_of_readRow_opened hread ▸ ih.cons_cons _
    | _ =>
      rw [comp_apply, hread]
      exact ih.cons _

variable (env state open_) in
/-- The members-only updates that open. -/
def openedOf : List OpenedUpdate := openedUpdates (memberRows env open_ state)

variable (hids : (state.rows.map fun row => row.1.id).Nodup)

include hids

theorem nodup_openedOf : ((openedOf env state open_).map fun o => o.update.id).Nodup :=
  hids.sublist map_id_openedUpdates

theorem eq_of_id_eq {o' : OpenedUpdate} (ho : o ∈ openedOf env state open_) (ho' : o' ∈ openedOf env state open_)
    (h : o.update.id = o'.update.id) : o = o' :=
  inj_on_of_nodup_map (nodup_openedOf hids) ho ho' h

theorem id_ne_of_opened
    (ho : o ∈ openedOf env state open_) (hx : x ∈ state.publicUpdates env) : x.2.id ≠ o.update.id := by
  intro h
  obtain ⟨row, hrow, hread⟩ := exists_row_of_mem_openedUpdates ho
  rw [publicUpdates_eq] at hx
  obtain ⟨row', hrow', hpub⟩ := mem_filterMap.mp hx
  have hid : row'.1.id = row.1.id := by rw [← (publicRow_spec hpub).2.2, h, id_of_readRow_opened hread]
  obtain rfl := inj_on_of_nodup_map hids hrow' hrow hid
  have hplain := @plain?_readRow env open_ row'
  rw [hpub, hread] at hplain
  cases hplain

end Rows

/-! ### What the public sees -/

section Public

variable (env : PlatformEnv) (configs : List ConfigDoc) (state : GitState)

/-- The public updates of a name, in the order they are read. -/
def publicUpdatesOf (name : String) : List RefUpdate :=
  ((state.publicUpdates env).map Prod.snd).filter fun u => u.refName = name

/-- The names of the public updates. -/
def publicNames : Set String := {n | ∃ x ∈ state.publicUpdates env, x.2.refName = n}

variable {env configs state}

variable {name : String}

theorem mem_publicUpdatesOf {u : RefUpdate} :
    u ∈ publicUpdatesOf env state name ↔ (∃ h, (h, u) ∈ state.publicUpdates env) ∧ u.refName = name := by
  simp [publicUpdatesOf]

theorem mem_publicUpdates_spec {x : Bytes32 × RefUpdate} (hx : x ∈ state.publicUpdates env) :
    x.1 = env.nameHash x.2.refName ∧ x.2.refNameHash = hexEncode x.1.val := by
  rw [publicUpdates_eq] at hx
  obtain ⟨row, -, hrow⟩ := mem_filterMap.mp hx
  exact ⟨(publicRow_spec hrow).1, (publicRow_spec hrow).2.1⟩

theorem displayRefName_publicUpdatesOf (hne : publicUpdatesOf env state name ≠ []) :
    displayRefName env.toRefEnv (publicUpdatesOf env state name) (hexEncode (env.nameHash name).val) = some name := by
  have hall : ∀ u ∈ publicUpdatesOf env state name, (u.refNameHash = hexEncode (env.nameHash name).val &&
      refNameHashMatches env.toRefEnv u.refName (hexEncode (env.nameHash name).val)) = true := by
    intro u hu
    obtain ⟨⟨h, hx⟩, rfl⟩ := mem_publicUpdatesOf.mp hu
    obtain ⟨hhash, hhex⟩ := mem_publicUpdates_spec hx
    rw [Bool.and_eq_true, decide_eq_true_eq]
    exact ⟨hhex.trans (congrArg (fun h => hexEncode h.val) hhash), eqIgnoreAsciiCase_hexEncode.mpr rfl⟩
  rw [displayRefName, filter_eq_self.mpr hall]
  cases hmax : maxByKey RefUpdate.key (publicUpdatesOf env state name) with
  | none => exact absurd ((maxByKey_eq_none_iff _).mp hmax) hne
  | some u => rw [Option.map_some, (mem_publicUpdatesOf.mp (maxByKey_spec _ hmax).1).2]

variable (hhash : Set.InjOn env.nameHash (publicNames env state))

include hhash

theorem listAt_refHistories (hname : name ∈ publicNames env state) :
    (state.refHistories env).listAt (env.nameHash name) = publicUpdatesOf env state name := by
  rw [GitState.refHistories, listAt_gather, publicUpdatesOf, filter_map]
  refine congrArg _ (filter_congr fun x hx => decide_eq_decide.mpr ?_)
  rw [(mem_publicUpdates_spec hx).1]
  exact ⟨fun h => hhash ⟨x, hx, rfl⟩ hname h, fun h => congrArg env.nameHash h⟩

/-- The public sees the names that have public updates, each resolved over them. -/
theorem mem_publicRefsOver_iff {s : RefState} :
    (name, s) ∈ publicRefsOver env configs state ↔ publicUpdatesOf env state name ≠ [] ∧
      resolveRef (· == ·) env.toRefEnv (publicUpdatesOf env state name) configs (env.toRefEnv.sha256Hex name) = s := by
  simp only [publicRefsOver, mem_filterMap, Option.map_eq_some_iff, Prod.mk.injEq, Prod.exists]
  constructor
  · rintro ⟨h, us, hentry, m, hm, rfl, rfl⟩
    obtain ⟨hne, hus⟩ := mem_entries_gather.mp hentry
    -- the digest is that of the name of its first update
    obtain ⟨u, hu⟩ := exists_mem_of_ne_nil us hne
    have hx := mem_listAt_gather.mp (hus ▸ hu)
    obtain rfl : h = env.nameHash u.refName := (mem_publicUpdates_spec hx).1
    obtain rfl := hus.symm.trans (listAt_refHistories hhash ⟨_, hx, rfl⟩)
    rw [displayRefName_publicUpdatesOf hne] at hm
    obtain rfl := Option.some.inj hm
    exact ⟨hne, rfl⟩
  · rintro ⟨hne, rfl⟩
    obtain ⟨u, hu⟩ := exists_mem_of_ne_nil _ hne
    obtain ⟨⟨h, hx⟩, hn⟩ := mem_publicUpdatesOf.mp hu
    refine ⟨env.nameHash name, publicUpdatesOf env state name, ?_, name, displayRefName_publicUpdatesOf hne, rfl, rfl⟩
    exact mem_entries_gather.mpr ⟨hne, listAt_refHistories hhash ⟨_, hx, hn⟩⟩

theorem liveName_iff : liveName env configs name (publicUpdatesOf env state name) = true ↔
    ∃ s, (name, s) ∈ publicRefsOver env configs state ∧ s ≠ .unborn := by
  simp [liveName, mem_publicRefsOver_iff hhash]

end Public

/-! ### Which opened updates are folded -/

section Opened

/-- The opened updates of a name that are left when its narrower branches have taken it: those of narrower
branches where there is one, else all. -/
def foldedOf (opened : List OpenedUpdate) (name : String) : List OpenedUpdate :=
  let os := opened.filter fun o => o.real.name = name
  if os.any OpenedUpdate.narrower then os.filter OpenedUpdate.narrower else os

variable {name : String} {o : OpenedUpdate}

theorem mem_foldedOf {opened : List OpenedUpdate} : o ∈ foldedOf opened name ↔
    o ∈ opened ∧ o.real.name = name ∧
        (o.narrower = false → ∀ o' ∈ opened, o'.real.name = name → o'.narrower = false) := by
  rw [foldedOf]
  split
  · next hany =>
    simp only [any_eq_true, mem_filter, decide_eq_true_eq] at hany ⊢
    obtain ⟨o', ⟨ho', hname'⟩, hnar'⟩ := hany
    rw [and_assoc]
    refine and_congr_right fun _ => and_congr_right fun _ =>
        ⟨fun h hf => absurd (h.symm.trans hf) (by simp), fun h => ?_⟩
    by_contra hf
    have := h (Bool.eq_false_iff.mpr hf) o' ho' hname'
    rw [hnar'] at this
    cases this
  · next hany =>
    simp only [any_eq_true, mem_filter, decide_eq_true_eq, not_exists, not_and, Bool.not_eq_true] at hany ⊢
    exact and_congr_right fun _ => (and_iff_left fun _ o' ho' hname' => hany o' ⟨ho', hname'⟩).symm

/-- The sealed updates of each name. -/
def sealedByName (opened : List OpenedUpdate) : SortedMap String (List RefUpdate) :=
  .gather (opened.map fun o => (o.real.name, o.update))

variable {env : PlatformEnv} {configs : List ConfigDoc} {out₀ : MembersUpdates} {opened : List OpenedUpdate}

theorem listAt_sealedByName (name : String) : (sealedByName opened).listAt name =
    (opened.filter fun o => o.real.name = name).map OpenedUpdate.update := by
  rw [sealedByName, listAt_gather, filter_map, map_map]
  refine congrArg _ (filter_congr fun o _ => decide_eq_decide.mpr Iff.rfl)

theorem mem_listAt_sealedByName {u : RefUpdate} :
    u ∈ (sealedByName opened).listAt name ↔ ∃ o ∈ opened, o.real.name = name ∧ o.update = u := by
  simp [listAt_sealedByName, and_assoc]

theorem exists_entry (ho : o ∈ opened) :
    (o.real.name, (sealedByName opened).listAt o.real.name) ∈ (sealedByName opened).entries :=
  mem_entries_gather.mpr ⟨ne_nil_of_mem (mem_listAt_sealedByName.mpr ⟨o, ho, rfl, rfl⟩), rfl⟩

variable (hnodup : (opened.map fun o => o.update.id).Nodup)
  (hnar : ∀ id, id ∈ out₀.narrower ↔ ∃ o ∈ opened, o.narrower ∧ o.update.id = id)

include hnodup

theorem pairwise_entries_sealedByName : (sealedByName opened).entries.Pairwise fun d e =>
    d.1 ≠ e.1 ∧ ∀ v ∈ d.2, ∀ u ∈ e.2, v.id ≠ u.id := by
  refine List.Pairwise.imp_of_mem ?_ (sealedByName opened).sorted
  intro d e hd he hlt
  refine ⟨hlt.ne, fun v hv u hu hid => hlt.ne ?_⟩
  rw [← (mem_entries_gather.mp hd).2] at hv
  rw [← (mem_entries_gather.mp he).2] at hu
  obtain ⟨o, ho, hname, rfl⟩ := mem_listAt_sealedByName.mp hv
  obtain ⟨o', ho', hname', rfl⟩ := mem_listAt_sealedByName.mp hu
  rw [← hname, ← hname', inj_on_of_nodup_map hnodup ho ho' hid]

include hnar

theorem mem_narrower_iff (ho : o ∈ opened) : o.update.id ∈ out₀.narrower ↔ o.narrower := by
  rw [hnar]
  constructor
  · rintro ⟨o', ho', hn, hid⟩
    rwa [← inj_on_of_nodup_map hnodup ho' ho hid]
  · exact fun hn => ⟨o, ho, hn, rfl⟩

theorem contenders_sealedByName (name : String) :
    contenders (fun u => u.id ∈ out₀.narrower) ((sealedByName opened).listAt name) =
      (foldedOf opened name).map OpenedUpdate.update := by
  have hiff : ∀ o ∈ opened.filter fun o => o.real.name = name,
      ((fun u : RefUpdate => decide (u.id ∈ out₀.narrower)) ∘ OpenedUpdate.update) o = o.narrower :=
    fun o ho => by simp [mem_narrower_iff hnodup hnar (mem_filter.mp ho).1]
  rw [contenders, foldedOf, listAt_sealedByName, any_map, filter_map]
  have hany : ((opened.filter fun o => o.real.name = name).any
      ((fun u : RefUpdate => decide (u.id ∈ out₀.narrower)) ∘ OpenedUpdate.update)) =
        (opened.filter fun o => o.real.name = name).any OpenedUpdate.narrower := by
    rw [Bool.eq_iff_iff, any_eq_true, any_eq_true]
    exact exists_congr fun o => and_congr_right fun ho => by rw [hiff o ho]
  rw [hany, filter_congr hiff]
  split <;> rfl

theorem mem_contendersOf {u : RefUpdate} : u ∈ contendersOf out₀ (name, (sealedByName opened).listAt name) ↔
      ∃ o ∈ foldedOf opened name, o.update = u := by
  rw [contendersOf, mem_sortByKey, contenders_sealedByName hnodup hnar, mem_map]

variable (env configs) in
theorem mem_alerts_publicName (ho : o ∈ opened) :
    ⟨o.update.id, .publicName⟩ ∈ (sealedByName opened).entries.flatMap (nameAlerts env configs out₀) ↔
      liveName env configs o.real.name (out₀.byName.listAt o.real.name) ∧ o ∈ foldedOf opened o.real.name := by
  simp only [mem_flatMap, publicName_mem_nameAlerts]
  constructor
  · rintro ⟨⟨name, us⟩, he, hlive, u, hu, hid⟩
    obtain rfl := (mem_entries_gather.mp he).2
    obtain ⟨o', ho', rfl⟩ := (mem_contendersOf hnodup hnar).mp hu
    obtain ⟨hmem, rfl, -⟩ := mem_foldedOf.mp ho'
    obtain rfl := inj_on_of_nodup_map hnodup hmem ho hid
    exact ⟨hlive, ho'⟩
  · rintro ⟨hlive, hf⟩
    exact ⟨_, exists_entry ho, hlive, o.update, (mem_contendersOf hnodup hnar).mpr ⟨o, hf, rfl⟩, rfl⟩

variable (env configs) in
theorem mem_alerts_narrowerName (ho : o ∈ opened) :
    ⟨o.update.id, .narrowerName⟩ ∈ (sealedByName opened).entries.flatMap (nameAlerts env configs out₀) ↔
      o ∉ foldedOf opened o.real.name := by
  simp only [mem_flatMap, narrowerName_mem_nameAlerts]
  constructor
  · rintro ⟨⟨name, us⟩, he, u, hu, hnot, hid⟩ hf
    obtain rfl := (mem_entries_gather.mp he).2
    obtain ⟨o', ho', rfl, rfl⟩ := mem_listAt_sealedByName.mp hu
    obtain rfl := inj_on_of_nodup_map hnodup ho' ho hid
    exact hnot ((mem_contendersOf hnodup hnar).mpr ⟨o', hf, rfl⟩)
  · intro hf
    refine ⟨_, exists_entry ho, o.update, mem_listAt_sealedByName.mpr ⟨o, ho, rfl, rfl⟩, fun hu => hf ?_, rfl⟩
    obtain ⟨o', ho', hup⟩ := (mem_contendersOf hnodup hnar).mp hu
    obtain rfl := inj_on_of_nodup_map hnodup (mem_foldedOf.mp ho').1 ho (congrArg RefUpdate.id hup)
    exact ho'

variable (env configs) in
theorem mem_ids_alerts (ho : o ∈ opened) :
    o.update.id ∈ ((sealedByName opened).entries.flatMap (nameAlerts env configs out₀)).map RefAlert.id ↔
      ¬(liveName env configs o.real.name (out₀.byName.listAt o.real.name) = false ∧
          o ∈ foldedOf opened o.real.name) := by
  have hkinds : o.update.id ∈ ((sealedByName opened).entries.flatMap (nameAlerts env configs out₀)).map RefAlert.id ↔
      ⟨o.update.id, .publicName⟩ ∈ (sealedByName opened).entries.flatMap (nameAlerts env configs out₀) ∨
        ⟨o.update.id, .narrowerName⟩ ∈ (sealedByName opened).entries.flatMap (nameAlerts env configs out₀) := by
    constructor
    · intro h
      obtain ⟨⟨id, kind⟩, ha, rfl⟩ := mem_map.mp h
      obtain ⟨e, -, hae⟩ := mem_flatMap.mp ha
      rcases kind_of_mem_nameAlerts hae with hk | hk
      · exact .inl (hk ▸ ha)
      · exact .inr (hk ▸ ha)
    · rintro (h | h)
      · exact mem_map.mpr ⟨_, h, rfl⟩
      · exact mem_map.mpr ⟨_, h, rfl⟩
  rw [hkinds, mem_alerts_publicName env configs hnodup hnar ho, mem_alerts_narrowerName env configs hnodup hnar ho]
  cases liveName env configs o.real.name (out₀.byName.listAt o.real.name) <;> simp [em]

omit hnar in
theorem nodup_alerts :
    (((sealedByName opened).entries.flatMap (nameAlerts env configs out₀)).map RefAlert.id).Nodup := by
  rw [map_flatMap, nodup_flatMap]
  constructor
  · rintro ⟨name, us⟩ he
    obtain rfl := (mem_entries_gather.mp he).2
    refine nodup_nameAlerts (hnodup.sublist ?_)
    change (((sealedByName opened).listAt name).map RefUpdate.id).Sublist _
    rw [listAt_sealedByName, map_map]
    exact filter_sublist.map _
  · refine (pairwise_entries_sealedByName hnodup).imp fun h => ?_
    rw [onFun_apply, disjoint_left]
    intro id hd he
    obtain ⟨a, ha, rfl⟩ := mem_map.mp hd
    obtain ⟨a', ha', heq⟩ := mem_map.mp he
    obtain ⟨v, hv, hvid⟩ := exists_of_mem_nameAlerts ha
    obtain ⟨u, hu, huid⟩ := exists_of_mem_nameAlerts ha'
    exact h.2 v hv u hu (hvid.trans (heq.symm.trans huid.symm))

end Opened

/-! ### Public names win -/

section Win

variable (env : PlatformEnv) (configs : List ConfigDoc) (state : GitState)
  (open_ : DocKind → FetchedDocument → Opened)

/-- The alerts about the name of an update. -/
def MembersUpdates.countNameAlerts (out : MembersUpdates) (id : String) : ℕ :=
  out.alerts.countP fun a => a.id = id ∧ (a.kind = .publicName ∨ a.kind = .narrowerName)

/-- Whether an opened update is folded. -/
def MembersUpdates.Folds (out : MembersUpdates) (o : OpenedUpdate) : Prop :=
  o.update ∈ out.byName.listAt o.real.name

/-- The two passes, as what they leave. -/
structure MembersSettled (out₀ out : MembersUpdates) : Prop
    extends NamesSettled env configs out₀ (sealedByName (openedOf env state open_)).entries out where
  public_ : ∀ n, out₀.byName.listAt n = publicUpdatesOf env state n
  opened : out₀.sealed = .ofList ((openedOf env state open_).map fun o => (o.update.id, o.blind))
  narrower₀ : ∀ id, id ∈ out₀.narrower ↔ ∃ o ∈ openedOf env state open_, o.narrower ∧ o.update.id = id
  alerts₀ : ∀ a ∈ out₀.alerts, ∃ b, a.kind = .blind b

variable {env configs state open_} (hids : (state.rows.map fun row => row.1.id).Nodup)

include hids

theorem membersUpdatesOf_eq : ∃ out₀ out, MembersSettled env configs state open_ out₀ out ∧
    membersUpdatesOf env configs state open_ =
      { out with byName := out.byName.mapVals fun _ us => sortByKey RefUpdate.key us } := by
  have hread := readOf (memberRows env open_ state)
  rw [membersUpdatesOf]
  generalize (memberRows env open_ state).foldl MembersRead.take {} = r at hread ⊢
  obtain ⟨hby, hmembers, hsealed, hnar, halerts⟩ := hread
  have hpair := pairwise_entries_sealedByName (@nodup_openedOf env state open_ hids)
  rw [← sealedByName, ← openedOf] at hmembers
  refine ⟨{ r.out with unreadableNarrower := unreadableNarrowerOf r.unopened }, _, ⟨?_, ?_, hsealed, hnar, halerts⟩,
    rfl⟩
  · rw [hmembers]
    exact namesSettled (hpair.imp And.left) (hpair.imp And.right)
  · intro n
    change r.out.byName.listAt n = _
    rw [hby, listAt_gather, plainUpdates_memberRows, publicUpdatesOf, filter_map, filter_map,
      map_map]
    rfl

/-- A name is folded from its public updates and, unless these make it live, its sealed ones. -/
theorem listAt_membersUpdatesOf (n : String) : (membersUpdatesOf env configs state open_).byName.listAt n =
    sortByKey RefUpdate.key (publicUpdatesOf env state n ++
      if liveName env configs n (publicUpdatesOf env state n) then []
      else (foldedOf (openedOf env state open_) n).map OpenedUpdate.update) := by
  obtain ⟨out₀, out, h, heq⟩ := @membersUpdatesOf_eq env configs state open_ hids
  have hfold : foldedSealed env configs out₀ (n, (sealedByName (openedOf env state open_)).listAt n) =
      if liveName env configs n (publicUpdatesOf env state n) then []
      else sortByKey RefUpdate.key ((foldedOf (openedOf env state open_) n).map OpenedUpdate.update) := by
    rw [foldedSealed, contendersOf, liveEntry]
    dsimp only
    rw [contenders_sealedByName (nodup_openedOf hids) h.narrower₀, h.public_]
  rw [heq, listAt_mapVals _ _ rfl, h.byName, h.public_,
    flatMap_filter_entries _ _ (by simp [foldedSealed, contendersOf, contenders]), hfold]
  split
  · rfl
  · rw [sortByKey_append_sortByKey]

variable {o : OpenedUpdate} {id : String}

theorem folds_iff (ho : o ∈ openedOf env state open_) : (membersUpdatesOf env configs state open_).Folds o ↔
      liveName env configs o.real.name (publicUpdatesOf env state o.real.name) = false ∧
        o ∈ foldedOf (openedOf env state open_) o.real.name := by
  rw [MembersUpdates.Folds, listAt_membersUpdatesOf hids, mem_sortByKey, mem_append]
  have hnot : o.update ∉ publicUpdatesOf env state o.real.name := by
    intro hu
    obtain ⟨⟨h, hx⟩, -⟩ := mem_publicUpdatesOf.mp hu
    exact id_ne_of_opened hids ho hx rfl
  rw [or_iff_right hnot]
  split
  · next hlive => simp [hlive]
  · next hlive =>
    rw [Bool.not_eq_true] at hlive
    rw [and_iff_right hlive, mem_map]
    constructor
    · rintro ⟨o', ho', hup⟩
      obtain rfl := eq_of_id_eq hids (mem_foldedOf.mp ho').1 ho (congrArg RefUpdate.id hup)
      exact ho'
    · exact fun hf => ⟨o, hf, rfl⟩

theorem MembersSettled.mem_ids_iff {out₀ out : MembersUpdates}
    (h : MembersSettled env configs state open_ out₀ out) (ho : o ∈ openedOf env state open_) :
    o.update.id ∈ ((sealedByName (openedOf env state open_)).entries.flatMap
      (nameAlerts env configs out₀)).map RefAlert.id ↔ ¬(membersUpdatesOf env configs state open_).Folds o := by
  rw [folds_iff hids ho, mem_ids_alerts env configs (nodup_openedOf hids) h.narrower₀ ho, h.public_]

/-- An opened update is folded, or has one alert about its name. -/
theorem countNameAlerts_membersUpdatesOf (ho : o ∈ openedOf env state open_) :
    (membersUpdatesOf env configs state open_).countNameAlerts o.update.id = 0 ∧
        (membersUpdatesOf env configs state open_).Folds o ∨
      (membersUpdatesOf env configs state open_).countNameAlerts o.update.id = 1 ∧
        ¬(membersUpdatesOf env configs state open_).Folds o := by
  obtain ⟨out₀, out, h, heq⟩ := @membersUpdatesOf_eq env configs state open_ hids
  have hcount : (membersUpdatesOf env configs state open_).countNameAlerts o.update.id =
      (((sealedByName (openedOf env state open_)).entries.flatMap (nameAlerts env configs out₀)).map
        RefAlert.id).count o.update.id := by
    have hblind : out₀.alerts.countP
        (fun a => a.id = o.update.id ∧ (a.kind = .publicName ∨ a.kind = .narrowerName)) = 0 := by
      refine countP_eq_zero.mpr fun a ha hk => ?_
      obtain ⟨b, hb⟩ := h.alerts₀ a ha
      simp [hb] at hk
    rw [heq]
    change out.alerts.countP _ = _
    rw [h.alerts, countP_append, hblind, Nat.zero_add, List.count, countP_map]
    refine countP_congr fun a ha => ?_
    obtain ⟨e, -, hae⟩ := mem_flatMap.mp ha
    simp [kind_of_mem_nameAlerts hae]
  have hiff := h.mem_ids_iff hids ho
  have hnodup := @nodup_alerts env configs out₀ _ (@nodup_openedOf env state open_ hids)
  rw [hcount]
  by_cases hf : (membersUpdatesOf env configs state open_).Folds o
  · exact .inl ⟨count_eq_zero.mpr fun hmem => hiff.mp hmem hf, hf⟩
  · exact .inr ⟨count_eq_one_of_mem hnodup (hiff.mpr hf), hf⟩

/-- The sealed updates listed are the folded ones. -/
theorem lookup_sealed_membersUpdatesOf {b : Option UpdateBlind} :
    (membersUpdatesOf env configs state open_).sealed.lookup id = some b ↔
      ∃ o ∈ openedOf env state open_, (membersUpdatesOf env configs state open_).Folds o ∧
        o.update.id = id ∧ o.blind = b := by
  obtain ⟨out₀, out, h, heq⟩ := @membersUpdatesOf_eq env configs state open_ hids
  have hsealed : (membersUpdatesOf env configs state open_).sealed = out.sealed := by rw [heq]
  have hnodup : (((openedOf env state open_).map fun o => (o.update.id, o.blind)).map Prod.fst).Nodup := by
    rw [map_map]
    exact nodup_openedOf hids
  have hlookup : out₀.sealed.lookup id = some b ↔ ∃ o ∈ openedOf env state open_, o.update.id = id ∧ o.blind = b := by
    rw [h.opened, lookup_ofList hnodup]
    simp
  rw [hsealed, h.sealed_]
  split
  · next hid =>
    refine iff_of_false (by simp) ?_
    rintro ⟨o, ho, hf, rfl, -⟩
    exact (h.mem_ids_iff hids ho).mp hid hf
  · next hid =>
    rw [hlookup]
    refine exists_congr fun o => and_congr_right fun ho => ⟨?_, fun hb => hb.2⟩
    rintro ⟨rfl, rfl⟩
    exact ⟨by_contra fun hf => hid ((h.mem_ids_iff hids ho).mpr hf), rfl, rfl⟩

/-- The narrower updates listed are the folded ones. -/
theorem mem_narrower_membersUpdatesOf : id ∈ (membersUpdatesOf env configs state open_).narrower ↔
    ∃ o ∈ openedOf env state open_, (membersUpdatesOf env configs state open_).Folds o ∧
      o.narrower ∧ o.update.id = id := by
  obtain ⟨out₀, out, h, heq⟩ := @membersUpdatesOf_eq env configs state open_ hids
  have hnarrower : (membersUpdatesOf env configs state open_).narrower = out.narrower := by rw [heq]
  -- a narrower update is left out only where the public sees its name
  have hfolds : ∀ o ∈ openedOf env state open_, o.narrower → ((membersUpdatesOf env configs state open_).Folds o ↔
      ⟨o.update.id, .publicName⟩ ∉ (sealedByName (openedOf env state open_)).entries.flatMap
        (nameAlerts env configs out₀)) := by
    intro o ho hn
    have hf : o ∈ foldedOf (openedOf env state open_) o.real.name :=
      mem_foldedOf.mpr ⟨ho, rfl, fun hfalse => absurd (hn.symm.trans hfalse) (by simp)⟩
    rw [folds_iff hids ho, mem_alerts_publicName env configs (nodup_openedOf hids) h.narrower₀ ho, h.public_,
      and_iff_left hf, and_iff_left hf, Bool.not_eq_true]
  rw [hnarrower, h.narrower, h.narrower₀]
  constructor
  · rintro ⟨⟨o, ho, hn, rfl⟩, hnot⟩
    exact ⟨o, ho, (hfolds o ho hn).mpr hnot, hn, rfl⟩
  · rintro ⟨o, ho, hf, hn, rfl⟩
    exact ⟨⟨o, ho, hn, rfl⟩, (hfolds o ho hn).mp hf⟩

end Win

/-- **Public names win.** Over one config timeline, a name the public sees live is folded from its public updates
alone and resolves as it does there; any other name is folded from its public updates and its sealed ones, of
narrower branches where it has them. Each opened update is folded or has one alert about its name, and `sealed` and
`narrower` list the folded ones. -/
theorem publicNames_win (env : PlatformEnv) (configs : List ConfigDoc) (state : GitState)
    (open_ : DocKind → FetchedDocument → Opened) (hids : (state.rows.map fun row => row.1.id).Nodup)
    (hhash : Set.InjOn env.nameHash (publicNames env state)) :
    let out := membersUpdatesOf env configs state open_
    (∀ n s, (n, s) ∈ publicRefsOver env configs state → s ≠ .unborn →
      out.byName.listAt n = sortByKey RefUpdate.key (publicUpdatesOf env state n) ∧
        resolveRef (· == ·) env.toRefEnv (out.byName.listAt n) configs (env.toRefEnv.sha256Hex n) = s) ∧
    (∀ n, (∀ s, (n, s) ∈ publicRefsOver env configs state → s = .unborn) →
      out.byName.listAt n = sortByKey RefUpdate.key (publicUpdatesOf env state n ++
        (foldedOf (openedOf env state open_) n).map OpenedUpdate.update)) ∧
    (∀ o ∈ openedOf env state open_, out.countNameAlerts o.update.id = 0 ∧ out.Folds o ∨
      out.countNameAlerts o.update.id = 1 ∧ ¬out.Folds o) ∧
    (∀ id b, out.sealed.lookup id = some b ↔
      ∃ o ∈ openedOf env state open_, out.Folds o ∧ o.update.id = id ∧ o.blind = b) ∧
    ∀ id, id ∈ out.narrower ↔ ∃ o ∈ openedOf env state open_, out.Folds o ∧ o.narrower ∧ o.update.id = id := by
  intro out
  refine ⟨fun n s hs hborn => ?_, fun n hn => ?_, fun o ho => countNameAlerts_membersUpdatesOf hids ho,
    fun id b => lookup_sealed_membersUpdatesOf hids, fun id => mem_narrower_membersUpdatesOf hids⟩
  · have hlive := (liveName_iff hhash).mpr ⟨s, hs, hborn⟩
    have hlist : out.byName.listAt n = sortByKey RefUpdate.key (publicUpdatesOf env state n) := by
      rw [listAt_membersUpdatesOf hids, if_pos hlive, append_nil]
    refine ⟨hlist, ?_⟩
    rw [hlist, resolveRef_sortByKey]
    exact ((mem_publicRefsOver_iff hhash).mp hs).2
  · have hdead : ¬liveName env configs n (publicUpdatesOf env state n) := by
      rw [liveName_iff hhash]
      rintro ⟨s, hs, hborn⟩
      exact hborn (hn s hs)
    rw [listAt_membersUpdatesOf hids, if_neg hdead]

/-- The base58 digits. -/
def base58 : List Char := "123456789ABCDEFGHJKLMNPQRSTUVWXYZabcdefghijkmnopqrstuvwxyz".toList

/-- The identifier of one digit. -/
def idOf (c : Char) : String := String.ofList (replicate 31 '1' ++ [c])

/-- A name is filed under a checksum; a glob matches itself; identifiers have one digit after zeros. -/
def platformSample : PlatformEnv where
  sha256 := digest
  globMatch p t := p == t
  decodeIdentifier s := match s.toList.reverse with
    | [] => none
    | c :: zeros => if zeros = replicate 31 '1' then (base58.idxOf? c).map fun i => digest [UInt8.ofNat i] else none

def saltSample : Bytes := replicate 32 7

def mainOid : Bytes := replicate 20 1

def sealedOid : Bytes := replicate 20 2

/-- A document with an update's fields. -/
def rowSample (id : Char) (time : ℕ) (fields : List (String × FieldValue)) : FetchedDocument where
  id := idOf id
  ownerId := idOf 'z'
  createdAt := some time
  createdAtBlockHeight := none
  updatedAtBlockHeight := none
  fields := .ofList fields

/-- A public update of `main`. -/
def plainSample (id : Char) (time : ℕ) : FetchedDocument :=
  rowSample id time [("refName", .text "refs/heads/main"),
    ("refNameHash", .bytes32 (platformSample.nameHash "refs/heads/main")), ("newOid", .bytes mainOid)]

/-- A sealed update in an envelope. -/
def sealedSample (id : Char) (time : ℕ) (version : UInt8) : FetchedDocument :=
  rowSample id time [("enc", .bytes [version]), ("vis", .text "public"), ("epoch", .integer 0),
    ("refNameHash", .bytes32 (digest [1])), ("newOid", .bytes ((Blind.blind digest saltSample sealedOid).getD []))]

/-- Opens sealed updates: that of `m` names `main`, the others a branch of their own. -/
def openSample (_ : DocKind) (d : FetchedDocument) : Opened :=
  .readable { refName := some (if d.id = idOf 'm' then "refs/heads/main" else "refs/heads/fix")
              newOid := some sealedOid, oidSalt := some saltSample }

/-- `main` with a sealed update of its name, and a narrower branch with a members-key update of its. -/
def stateSample : GitState where
  refUpdates := [plainSample 'p' 1, sealedSample 'm' 2 v3, sealedSample 'f' 3 v3]
  protectedRefUpdates := [sealedSample 'n' 4 BranchKey.v6]
  configs := []

/-- The sealed update of `main` is left out, and of the other branch the members-key update. -/
theorem publicNames_win_stateSample :
    let out := membersUpdatesOf platformSample [] stateSample openSample
    (out.byName.listAt "refs/heads/main").map RefUpdate.id = [idOf 'p'] ∧
      (out.byName.listAt "refs/heads/fix").map RefUpdate.id = [idOf 'n'] ∧
      (resolveRef (· == ·) platformSample.toRefEnv (out.byName.listAt "refs/heads/main") []
        (platformSample.toRefEnv.sha256Hex "refs/heads/main") =
          .resolved (hexEncode mainOid) (idOf 'z') 1) := by
  have hnames : ∀ x ∈ stateSample.publicUpdates platformSample, x.2.refName = "refs/heads/main" := by decide +kernel
  have hhash : Set.InjOn platformSample.nameHash (publicNames platformSample stateSample) := by
    rintro n ⟨x, hx, rfl⟩ m ⟨y, hy, rfl⟩ -
    rw [hnames x hx, hnames y hy]
  obtain ⟨hlive, hdead, -⟩ := publicNames_win platformSample [] stateSample openSample (by decide +kernel) hhash
  obtain ⟨hmain, hstate⟩ := hlive "refs/heads/main" (.resolved (hexEncode mainOid) (idOf 'z') 1) (by decide +kernel)
    (by decide)
  refine ⟨?_, ?_, hstate⟩
  · rw [hmain]
    decide +kernel
  · have hnone : ∀ x ∈ publicRefsOver platformSample [] stateSample, x.1 ≠ "refs/heads/fix" := by decide +kernel
    rw [hdead "refs/heads/fix" fun s hs => absurd rfl (hnone _ hs)]
    decide +kernel

/-- A config that protects `main`. -/
def mainProtected : ConfigDoc := ⟨idOf 'c', 0, ["refs/heads/main"]⟩

/-- Two documents of one id, in the two envelopes. -/
def sameIdSample : GitState where
  refUpdates := [sealedSample 'f' 3 v3]
  protectedRefUpdates := [sealedSample 'f' 4 BranchKey.v6]
  configs := []

/-- The public fold takes the configs of the history: where the member's fold is given others, it can add a sealed
update to a branch the public sees live. And of two documents of one id, both are folded. -/
theorem sealed_moves_main_otherConfigs :
    ((stateSample.rows.map fun row => row.1.id).Nodup ∧
      ("refs/heads/main", .resolved (hexEncode mainOid) (idOf 'z') 1) ∈ publicRefs platformSample stateSample ∧
      ((membersUpdatesOf platformSample [mainProtected] stateSample openSample).byName.listAt
        "refs/heads/main").map RefUpdate.id = [idOf 'p', idOf 'm']) ∧
    (∃ o ∈ openedOf platformSample sameIdSample openSample, o.narrower ∧ o.real.name = "refs/heads/fix") ∧
      ∃ o ∈ openedOf platformSample sameIdSample openSample, o.narrower = false ∧ o.real.name = "refs/heads/fix" ∧
        o.update ∈ (membersUpdatesOf platformSample [] sameIdSample openSample).byName.listAt "refs/heads/fix" := by
  decide +kernel

end DashForge
