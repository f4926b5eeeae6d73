import DashForge.Refs.MembersFold

/-!
# The class of a branch

A branch is members-only when the update that set its tip is (`refs.rs`). The fold knows that update: it is the one that
the first live head names. `tipIs` looks for it again, as the last row of the branch that carries the tip's commit, and
there the row may be one that the fold rejects, or one that the fold puts before the setter. `tipIs_iff_setter` says when
the two agree; where a plain update that protection rejects repeats the commit of a sealed one, they do not
(`inert_update_declassifies`).
-/

namespace DashForge

open Doc (Opened)
open Tlv (DocKind)
open List

namespace MembersUpdates

variable (out : MembersUpdates)

/-- Whether a folded update is a members-only one. -/
def isSealed (id : String) : Bool := (out.sealed.lookup id).isSome

/-- Whether the update that set a ref's tip has a property; of a ref without a tip, whether all its updates have. -/
def tipIs (name : String) (state : RefState) (pred : String → Bool) : Bool :=
  match out.byName.lookup name with
  | none => false
  | some updates =>
    match tipOf state with
    | some tip => (updates.reverse.find? fun u => eqIgnoreAsciiCase u.newOid tip).any fun u => pred u.id
    | none => !updates.isEmpty && updates.all fun u => pred u.id

/-- Whether a ref is a members-only branch. -/
def isMembersOnly (name : String) (state : RefState) : Bool := out.tipIs name state out.isSealed

/-- Whether a ref is a narrower branch. -/
def isNarrower (name : String) (state : RefState) : Bool := out.tipIs name state fun id => decide (id ∈ out.narrower)

end MembersUpdates

/-- The last row after a head's that carries its commit. -/
def lastLater (updates : List RefUpdate) (h : RefHead) : Option RefUpdate :=
  (updates.filter fun u => toLex (h.createdAt, h.id) < u.key && eqIgnoreAsciiCase u.newOid h.oid).getLast?

theorem eqIgnoreAsciiCase_refl (a : String) : eqIgnoreAsciiCase a a = true := beq_self_eq_true _

theorem find?_reverse_eq {updates : List RefUpdate} (hsorted : updates.Pairwise fun u v =>
    u.key ≤ v.key) {s : RefUpdate}
    (hs : s ∈ updates) : ∃ r, updates.reverse.find? (fun u => eqIgnoreAsciiCase u.newOid s.newOid) = some r ∧
      (lastLater updates s.toHead = some r ∨ lastLater updates s.toHead = none ∧ r.id = s.id) := by
  have hsame : s ∈ updates.filter fun u => eqIgnoreAsciiCase u.newOid s.newOid :=
    mem_filter.mpr ⟨hs, eqIgnoreAsciiCase_refl _⟩
  have hlater : lastLater updates s.toHead =
      ((updates.filter fun u => eqIgnoreAsciiCase u.newOid s.newOid).filter fun u => s.key < u.key).getLast? := by
    rw [lastLater, filter_filter]
    rfl
  rw [← getLast?_filter, hlater]
  have hpair := hsorted.filter fun u => eqIgnoreAsciiCase u.newOid s.newOid
  rcases eq_nil_or_concat' (updates.filter fun u => eqIgnoreAsciiCase u.newOid s.newOid) with hnil | ⟨before, r, hsplit⟩
  · rw [hnil] at hsame
    exact absurd hsame not_mem_nil
  rw [hsplit] at hsame hpair ⊢
  have hle : ∀ u ∈ before ++ [r], u.key ≤ r.key := fun u hu => by
    rcases mem_append.mp hu with hu | hu
    · exact (pairwise_append.mp hpair).2.2 u hu r mem_cons_self
    · rw [mem_singleton.mp hu]
  refine ⟨r, getLast?_concat, ?_⟩
  by_cases hlt : s.key < r.key
  · left
    rw [filter_append, filter_cons_of_pos (by simpa using hlt), filter_nil, getLast?_concat]
  · -- the last row has the place of the head's own, so it is no later one
    right
    have hkey : r.key = s.key := le_antisymm (not_lt.mp hlt) (hle s hsame)
    refine ⟨?_, congrArg (fun k => (ofLex k).2) hkey⟩
    rw [filter_eq_nil_iff.mpr fun u hu => by simpa [hkey] using hle u hu]
    rfl

section

variable (env : PlatformEnv) (configs : List ConfigDoc) (state : GitState) (open_ : DocKind → FetchedDocument → Opened)

/-- The updates of a name as a member folds them. -/
def memberRowsOf (name : String) : List RefUpdate := (membersUpdatesOf env configs state open_).byName.listAt name

theorem pairwise_memberRowsOf (name : String) :
    (memberRowsOf env configs state open_ name).Pairwise fun u v => u.key ≤ v.key := by
  rw [memberRowsOf, membersUpdatesOf, SortedMap.listAt_mapVals _ _ rfl]
  exact pairwise_sortByKey _ _

variable {env configs state open_}

variable {cfgs : List ConfigDoc} {name hash : String} {h : RefHead}

theorem exists_setter (hh : h ∈ liveHeads (· == ·) env.toRefEnv (memberRowsOf env configs state open_ name) cfgs hash) :
    ∃ s ∈ memberRowsOf env configs state open_ name, isUpdateValid env.toRefEnv s cfgs = true ∧ h = s.toHead := by
  rw [liveHeads_eq_collectHeads] at hh
  obtain ⟨s, later, hset, -, rfl⟩ := mem_collectHeads_iff.mp hh
  have hs := hset.mem.1
  rw [validUpdates, (perm_causalOrder _).mem_iff, mem_filter, Bool.and_eq_true] at hs
  exact ⟨s, hs.1, hs.2.2, rfl⟩

variable (pred : String → Bool)
  (hh : (liveHeads (· == ·) env.toRefEnv (memberRowsOf env configs state open_ name) cfgs hash).head? = some h)

include pred hh in
theorem tipIs_eq :
    (membersUpdatesOf env configs state open_).tipIs name
        (resolveRef (· == ·) env.toRefEnv (memberRowsOf env configs state open_ name) cfgs hash) pred =
      (lastLater (memberRowsOf env configs state open_ name) h).elim (pred h.id) fun r => pred r.id := by
  obtain ⟨s, hs, -, rfl⟩ := exists_setter (mem_of_head? hh)
  have hlookup : (membersUpdatesOf env configs state open_).byName.lookup name =
      some (memberRowsOf env configs state open_ name) := by
    rw [memberRowsOf, SortedMap.listAt] at hs ⊢
    rcases hrows : (membersUpdatesOf env configs state open_).byName.lookup name with _ | rows
    · rw [hrows] at hs
      exact absurd hs not_mem_nil
    · rfl
  obtain ⟨r, hfind, hlater⟩ := find?_reverse_eq (pairwise_memberRowsOf env configs state open_ name) hs
  have htip : tipOf (resolveRef (· == ·) env.toRefEnv (memberRowsOf env configs state open_ name) cfgs hash) =
      some s.newOid := by
    rw [tipOf_resolveRef, hh]
    rfl
  rw [MembersUpdates.tipIs, hlookup]
  simp only [htip, hfind, Option.any_some]
  rcases hlater with hlater | ⟨hlater, hid⟩
  · rw [hlater, Option.elim_some]
  · rw [hlater, Option.elim_none, hid]
    rfl

include pred hh in
theorem tipIs_iff_setter :
    ((membersUpdatesOf env configs state open_).tipIs name
        (resolveRef (· == ·) env.toRefEnv (memberRowsOf env configs state open_ name) cfgs hash) pred = pred h.id) ↔
      ∀ r ∈ lastLater (memberRowsOf env configs state open_ name) h, pred r.id = pred h.id := by
  rw [tipIs_eq pred hh]
  rcases lastLater (memberRowsOf env configs state open_ name) h with _ | r <;> simp

end

/-- A ref with a tip is classified by the update that set it exactly if the last later row that carries the tip's commit,
where there is one, is of the same class. -/
theorem isMembersOnly_iff_setter (env : PlatformEnv) (configs : List ConfigDoc) (state : GitState)
    (open_ : DocKind → FetchedDocument → Opened) (cfgs : List ConfigDoc) (name : String)
    (hborn : resolveRef (· == ·) env.toRefEnv (memberRowsOf env configs state open_ name) cfgs
      (env.toRefEnv.sha256Hex name) ≠ .unborn) :
    let out := membersUpdatesOf env configs state open_
    let rows := memberRowsOf env configs state open_ name
    let ref := resolveRef (· == ·) env.toRefEnv rows cfgs (env.toRefEnv.sha256Hex name)
    ∃ h, (liveHeads (· == ·) env.toRefEnv rows cfgs (env.toRefEnv.sha256Hex name)).head? = some h ∧
      tipOf ref = some h.oid ∧
      ((out.isMembersOnly name ref = out.isSealed h.id) ↔ ∀ r ∈ lastLater rows h,
        out.isSealed r.id = out.isSealed h.id) ∧
      ((out.isNarrower name ref = decide (h.id ∈ out.narrower)) ↔
        ∀ r ∈ lastLater rows h, (r.id ∈ out.narrower ↔ h.id ∈ out.narrower)) := by
  dsimp only
  rw [ne_eq, resolveRef_eq_unborn_iff] at hborn
  obtain ⟨h, hheads, hlist⟩ := List.exists_cons_of_ne_nil hborn
  have hh : (liveHeads (· == ·) env.toRefEnv (memberRowsOf env configs state open_ name) cfgs
      (env.toRefEnv.sha256Hex name)).head? = some h := by rw [hlist]; rfl
  refine ⟨h, hh, ?_, tipIs_iff_setter _ hh, ?_⟩
  · rw [tipOf_resolveRef, hh]
    rfl
  · have hnarrower := tipIs_iff_setter (fun id => decide (id ∈ (membersUpdatesOf env configs state open_).narrower)) hh
    simp only [decide_eq_decide] at hnarrower
    exact hnarrower

/-- A sealed update of a protected branch, and a plain one that repeats its commit. -/
def repeatedSample : GitState where
  refUpdates := [rowSample 'p' 3 [("refName", .text "refs/heads/main"),
    ("refNameHash", .bytes32 (platformSample.nameHash "refs/heads/main")), ("newOid", .bytes sealedOid)]]
  protectedRefUpdates := [sealedSample 'm' 2 Doc.v3]
  configs := [rowSample 'c' 1 [("protectedPatterns", .list [.text "refs/heads/main"])]]

/-- The state of `main` there. -/
def repeatedMain : RefState :=
  resolveRef (· == ·) platformSample.toRefEnv
    (memberRowsOf platformSample (repeatedSample.configHistory platformSample) repeatedSample
      openSample "refs/heads/main")
    (repeatedSample.configHistory platformSample) (platformSample.toRefEnv.sha256Hex "refs/heads/main")

theorem isMembersOnly_iff_setter_sample :
    let out := membersUpdatesOf platformSample (repeatedSample.configHistory platformSample) repeatedSample openSample
    let rows := memberRowsOf platformSample (repeatedSample.configHistory platformSample) repeatedSample openSample
      "refs/heads/main"
    ∃ h, tipOf repeatedMain = some h.oid ∧
      ((out.isMembersOnly "refs/heads/main" repeatedMain = out.isSealed h.id) ↔
        ∀ r ∈ lastLater rows h, out.isSealed r.id = out.isSealed h.id) := by
  obtain ⟨h, -, htip, hiff, -⟩ := isMembersOnly_iff_setter platformSample (repeatedSample.configHistory platformSample)
    repeatedSample openSample (repeatedSample.configHistory platformSample) "refs/heads/main" (by decide +kernel)
  exact ⟨h, htip, hiff⟩

/-- The plain update is rejected and the sealed one sets the tip, yet the branch does not read as members-only. -/
theorem inert_update_declassifies :
    let configs := repeatedSample.configHistory platformSample
    let out := membersUpdatesOf platformSample configs repeatedSample openSample
    let rows := memberRowsOf platformSample configs repeatedSample openSample "refs/heads/main"
    let hash := platformSample.toRefEnv.sha256Hex "refs/heads/main"
    rows.map (fun u => (u.id, isUpdateValid platformSample.toRefEnv u configs)) =
      [(idOf 'm', true), (idOf 'p', false)] ∧
      (liveHeads (· == ·) platformSample.toRefEnv rows configs hash).map RefHead.id = [idOf 'm'] ∧
      out.isSealed (idOf 'm') = true ∧ out.isMembersOnly "refs/heads/main" repeatedMain = false := by
  decide +kernel

end DashForge
