import DashForge.Refs.Document
import DashForge.Relay.StreamRuns

/-!
# Reported pushes

One poll of a repository's pushes (`poll_pushes`): the two ref streams are read and then the config stream, each page by
page while documents land, and only when all three were read are the updates judged, reported and the cursors saved.
Streams start at their beginning.

A config that lands later is newer than every update that was read before it, so what was judged stays so; `pushes_spec`
says that the pushes reported are those of the updates that the whole config history accepts.
-/

namespace DashForge.Pushes

open DashForge.Stream (Doc Cursor Reading Feed FeedReading Lands)
open List (map_append mem_append mem_append_left mem_append_right mem_map nodup_append prefix_rfl)
open Option (getD_some mem_some_iff not_mem_none)

/-- What a push webhook says of an update. -/
structure PushEvent where
  sourceDocId : String
  ref : String
  before : String
  after : String
  created : Bool
  deleted : Bool
  forced : Bool
  pusher : String
deriving DecidableEq, Repr

def zeroOid : Oid := String.ofList (List.replicate 40 '0')

def pushEvent (sourceDocId ref before after : String) (forced : Bool) (pusher : String) : PushEvent where
  sourceDocId
  ref
  before := if before.isEmpty then zeroOid else before
  after := if after.isEmpty then zeroOid else after
  created := isNullOid before
  deleted := isNullOid after
  forced
  pusher

/-- Whether an update moves its ref by the rule of the fold. -/
def refUpdateIsValid (env : RefEnv) (d : FetchedDocument) (isProtected : Bool) (configs : List ConfigDoc) : Bool :=
  match d.fieldHex "refNameHash" with
  | none => false
  | some hash => (d.fieldStr "refName").isSome && isUpdateValid env (refUpdateFromDoc d hash isProtected) configs

def translateRefUpdate (d : FetchedDocument) : Option PushEvent :=
  (d.fieldStr "refName").map fun refName =>
    pushEvent d.id refName ((d.fieldHex "prevOid").getD "") ((d.fieldHex "newOid").getD "")
      (d.fieldBool "force") d.ownerId

/-- The tips of the tracked refs. -/
abbrev Tips := SortedMap String (List Oid)

def addTip (tips : Tips) (d : FetchedDocument) : Tips :=
  match d.fieldHex "refNameHash", d.fieldHex "newOid" with
  | some hash, some oid =>
    match tips.lookup hash with
    | some set => tips.insert hash (set.insert oid)
    | none => tips
  | _, _ => tips

/-- The configs known, with those read that are not among them. -/
def addConfigs (configs : List ConfigDoc) (docs : List (Doc FetchedDocument)) : List ConfigDoc :=
  docs.foldl (fun configs d => if configs.any fun c => c.id = d.id then configs else configs ++
    [configDoc d.body]) configs

/-- A stream that was read, with the cursor to save. -/
structure Read where
  docs : List (Doc FetchedDocument)
  cursor : Cursor

inductive Phase where
  | refUpdates (r : Reading FetchedDocument)
  | protectedRefUpdates (refs : Read) (r : Reading FetchedDocument)
  | configs (refs protectedRefs : Read) (r : Reading FetchedDocument)

/-- A poll under way, with the updates that had landed when it began. -/
structure Poll where
  phase : Phase
  landed : List (Doc FetchedDocument)
  landedProtected : List (Doc FetchedDocument)

/-- What is stored of a repository, and what the relay keeps of it. -/
structure State where
  refUpdates : List (Doc FetchedDocument) := []
  protectedRefUpdates : List (Doc FetchedDocument) := []
  configDocs : List (Doc FetchedDocument) := []
  /-- The saved cursors of the three streams. -/
  refCursor : Cursor := Cursor.new .beginning
  protectedCursor : Cursor := Cursor.new .beginning
  configCursor : Cursor := Cursor.new .beginning
  configs : List ConfigDoc := []
  tips : Tips := .empty
  poll : Option Poll := none
  emitted : List PushEvent := []

namespace State

variable (env : RefEnv) (s : State)

/-- Judge and report one update. -/
def judge (isProtected : Bool) (s : State) (d : Doc FetchedDocument) : State :=
  if refUpdateIsValid env d.body isProtected s.configs then
    { s with tips := addTip s.tips d.body, emitted := s.emitted ++ (translateRefUpdate d.body).toList }
  else s

/-- All three streams were read. -/
def finish (refs protectedRefs config : Read) : State :=
  let s := { s with configs := addConfigs s.configs config.docs, configCursor := config.cursor }
  let s := { refs.docs.foldl (judge env false) s with refCursor := refs.cursor }
  { protectedRefs.docs.foldl (judge env true) s with protectedCursor := protectedRefs.cursor }

/-- Read the next page of the poll. -/
def page (p : Poll) : State :=
  match p.phase with
  | .refUpdates r =>
    match r.next s.refUpdates with
    | .failed => { s with poll := none }
    | .more r => { s with poll := some { p with phase := .refUpdates r } }
    | .done cursor docs =>
      { s with poll := some { p with phase := .protectedRefUpdates { docs, cursor } { cursor := s.protectedCursor } } }
  | .protectedRefUpdates refs r =>
    match r.next s.protectedRefUpdates with
    | .failed => { s with poll := none }
    | .more r => { s with poll := some { p with phase := .protectedRefUpdates refs r } }
    | .done cursor docs =>
      { s with poll := some { p with phase := .configs refs { docs, cursor } { cursor := s.configCursor } } }
  | .configs refs protectedRefs r =>
    match r.next s.configDocs with
    | .failed => { s with poll := none }
    | .more r => { s with poll := some { p with phase := .configs refs protectedRefs r } }
    | .done cursor docs => { s.finish env refs protectedRefs { docs, cursor } with poll := none }

def all : List (Doc FetchedDocument) := s.refUpdates ++ s.protectedRefUpdates ++ s.configDocs

/-- The state when a repository is set up: the configs of the time are loaded. -/
def init (refUpdates protectedRefUpdates configDocs : List (Doc FetchedDocument)) : State :=
  { refUpdates, protectedRefUpdates, configDocs, configs := configDocs.map fun d => configDoc d.body }

end State

/-- A document as the stream has it. -/
def Stored (d : Doc FetchedDocument) : Prop := d.body.id = d.id ∧ d.body.createdAt = some d.createdAt

inductive Step (env : RefEnv) : State → State → Prop
  /-- The documents of one time land, in all three streams. -/
  | land (s : State) (refs protectedRefs configs : List (Doc FetchedDocument)) (t : ℕ)
      (htime : ∀ d ∈ refs ++ protectedRefs ++ configs, Stored d ∧ d.createdAt = t)
        (hlater : ∀ d ∈ s.all, d.createdAt < t)
      (hids : ((refs ++ protectedRefs ++ configs).map Doc.id).Nodup)
      (hnew : ∀ d ∈ refs ++ protectedRefs ++ configs, d.id ∉ s.all.map Doc.id) :
      Step env s { s with
        refUpdates := s.refUpdates ++ refs, protectedRefUpdates := s.protectedRefUpdates ++ protectedRefs
        configDocs := s.configDocs ++ configs }
  | start (s : State) (h : s.poll = none) :
      Step env s { s with
        poll := some { phase := .refUpdates { cursor := s.refCursor }, landed := s.refUpdates
                       landedProtected := s.protectedRefUpdates } }
  | fail (s : State) : Step env s { s with poll := none }
  | page (s : State) (p : Poll) (h : s.poll = some p) : Step env s (s.page env p)

/-- The runs of a relay that sets the repository up at some time. -/
def Reachable (env : RefEnv) (s : State) : Prop :=
  ∃ refs protectedRefs configs, (∀ d ∈ refs ++ protectedRefs ++ configs, Stored d) ∧
    ((refs ++ protectedRefs ++ configs).map Doc.id).Nodup ∧
    Relation.ReflTransGen (Step env) (State.init refs protectedRefs configs) s

/-! ### What is reported -/

/-- The push that an update is reported as under a config history. -/
def report (env : RefEnv) (configs : List ConfigDoc) (isProtected : Bool) (d : Doc FetchedDocument) :
    Option PushEvent :=
  if refUpdateIsValid env d.body isProtected configs then translateRefUpdate d.body else none

/-- The whole config history. -/
def State.history (s : State) : List ConfigDoc := s.configDocs.map fun d => configDoc d.body

theorem refUpdateIsValid_eq_of_perm (env : RefEnv) (d : FetchedDocument) (isProtected : Bool)
    {cfgs cfgs' : List ConfigDoc}
    (hp : cfgs.Perm cfgs') (hids : (cfgs.map ConfigDoc.id).Nodup) :
    refUpdateIsValid env d isProtected cfgs = refUpdateIsValid env d isProtected cfgs' := by
  unfold refUpdateIsValid
  split
  · rfl
  · rw [isUpdateValid_eq_of_perm env _ hp hids]

variable {d : Doc FetchedDocument} {configs : List ConfigDoc}

theorem report_append (env : RefEnv) (cfgs : List ConfigDoc) {later : List ConfigDoc}
    (isProtected : Bool) (hd : Stored d) (h : ∀ c ∈ later, d.createdAt < c.createdAt) :
    report env (cfgs ++ later) isProtected d = report env cfgs isProtected d := by
  have hvalid : refUpdateIsValid env d.body isProtected (cfgs ++ later) =
      refUpdateIsValid env d.body isProtected cfgs := by
    unfold refUpdateIsValid
    split
    · rfl
    · next hash _ =>
      have htime : (refUpdateFromDoc d.body hash isProtected).createdAt = d.createdAt := by
        rw [refUpdateFromDoc, hd.2, getD_some]
      rw [isUpdateValid_append env _ cfgs fun c hc => htime ▸ h c hc]
  rw [report, report, hvalid]

variable {env : RefEnv} {isProtected : Bool}

theorem sourceDocId_of_report
    {e : PushEvent} (h : report env configs isProtected d = some e) : e.sourceDocId = d.body.id := by
  unfold report translateRefUpdate at h
  split at h
  · obtain ⟨name, -, rfl⟩ := Option.map_eq_some_iff.mp h
    rfl
  · cases h

/-- A valid update has a name, so it is reported. -/
theorem report_of_valid
    (h : refUpdateIsValid env d.body isProtected configs = true) : ∃ e, report env configs isProtected d = some e := by
  have hname : (d.body.fieldStr "refName").isSome = true := by
    unfold refUpdateIsValid at h
    split at h
    · cases h
    · exact (Bool.and_eq_true_iff.mp h).1
  obtain ⟨name, hname⟩ := Option.isSome_iff_exists.mp hname
  have hreport : report env configs isProtected d = translateRefUpdate d.body := if_pos h
  rw [hreport, translateRefUpdate, hname, Option.map_some]
  exact ⟨_, rfl⟩

theorem foldl_judge (env : RefEnv) (isProtected : Bool) (docs : List (Doc FetchedDocument)) (s : State) :
    ∃ tips, docs.foldl (State.judge env isProtected) s =
      { s with tips, emitted := s.emitted ++ docs.filterMap (report env s.configs isProtected) } := by
  induction docs generalizing s with
  | nil => exact ⟨s.tips, by rw [List.filterMap_nil, List.append_nil]; rfl⟩
  | cons d docs ih =>
    obtain ⟨tips, heq⟩ := ih (s.judge env isProtected d)
    refine ⟨tips, ?_⟩
    rw [List.foldl_cons, heq]
    unfold State.judge
    by_cases hvalid : refUpdateIsValid env d.body isProtected s.configs = true
    · obtain ⟨e, he⟩ := report_of_valid hvalid
      have htranslate : translateRefUpdate d.body = some e := (if_pos hvalid).symm.trans he
      rw [if_pos hvalid, List.filterMap_cons_some he, htranslate]
      simp
    · have hnone : report env s.configs isProtected d = none := if_neg hvalid
      rw [if_neg hvalid, List.filterMap_cons_none hnone]

/-- Both ref streams judged under one list of configs. -/
theorem finish_eq (env : RefEnv) (s : State) (refs protectedRefs config : Read) :
    ∃ tips, s.finish env refs protectedRefs config = { s with
      configs := addConfigs s.configs config.docs, tips
      refCursor := refs.cursor, protectedCursor := protectedRefs.cursor, configCursor := config.cursor
      emitted := s.emitted ++ (refs.docs.filterMap (report env (addConfigs s.configs config.docs) false) ++
        protectedRefs.docs.filterMap (report env (addConfigs s.configs config.docs) true)) } := by
  unfold State.finish
  obtain ⟨tips, heq⟩ := foldl_judge env false refs.docs
    { s with configs := addConfigs s.configs config.docs, configCursor := config.cursor }
  dsimp only at heq ⊢
  rw [heq]
  obtain ⟨tips', heq'⟩ := foldl_judge env true protectedRefs.docs
    { s with configs := addConfigs s.configs config.docs, configCursor := config.cursor, tips, refCursor := refs.cursor
             emitted := s.emitted ++ refs.docs.filterMap (report env (addConfigs s.configs config.docs) false) }
  dsimp only at heq' ⊢
  rw [heq', List.append_assoc]
  exact ⟨tips', rfl⟩

/-- The configs known are those stored that were known or read, each once. -/
theorem addConfigs_spec {stored docs : List (Doc FetchedDocument)} (hids : (stored.map Doc.id).Nodup)
    (hstored : ∀ d ∈ stored, Stored d) (hdocs : ∀ d ∈ docs, d ∈ stored)
    (hsub : ∀ c ∈ configs, ∃ d ∈ stored, configDoc d.body = c) (hnodup : (configs.map ConfigDoc.id).Nodup) :
    (∀ c ∈ addConfigs configs docs, ∃ d ∈ stored, configDoc d.body = c) ∧
    (∀ d, d ∈ docs ∨ configDoc d.body ∈ configs → configDoc d.body ∈ addConfigs configs docs) ∧
    ((addConfigs configs docs).map ConfigDoc.id).Nodup := by
  induction docs generalizing configs with
  | nil =>
    refine ⟨hsub, fun d hd => ?_, hnodup⟩
    rcases hd with hd | hd
    · cases hd
    · exact hd
  | cons d docs ih =>
    obtain ⟨hd, hdocs⟩ := List.forall_mem_cons.mp hdocs
    have hid : (configDoc d.body).id = d.id := (hstored d hd).1
    rw [addConfigs, List.foldl_cons, ← addConfigs]
    by_cases hknown : configs.any (fun c => decide (c.id = d.id)) = true
    · rw [if_pos hknown]
      -- A config of the same id is the same document.
      have hmem : configDoc d.body ∈ configs := by
        obtain ⟨c, hc, heq⟩ := List.any_eq_true.mp hknown
        obtain ⟨d', hd', rfl⟩ := hsub c hc
        have hsame : d'.id = d.id := (hstored d' hd').1.symm.trans (of_decide_eq_true heq)
        rwa [← List.inj_on_of_nodup_map hids hd' hd hsame]
      obtain ⟨hsub', hsup', hnodup'⟩ := ih hdocs hsub hnodup
      refine ⟨hsub', fun x hx => hsup' x ?_, hnodup'⟩
      rcases hx with hx | hx
      · rcases List.mem_cons.mp hx with rfl | hx
        · exact .inr hmem
        · exact .inl hx
      · exact .inr hx
    · rw [if_neg hknown]
      have hnew : ∀ c ∈ configs, c.id ≠ d.id := by
        intro c hc heq
        exact hknown (List.any_eq_true.mpr ⟨c, hc, decide_eq_true heq⟩)
      have hsub_new : ∀ c ∈ configs ++ [configDoc d.body], ∃ d ∈ stored, configDoc d.body = c := by
        intro c hc
        rcases mem_append.mp hc with hc | hc
        · exact hsub c hc
        · exact ⟨d, hd, (List.mem_singleton.mp hc).symm⟩
      have hnodup_new : ((configs ++ [configDoc d.body]).map ConfigDoc.id).Nodup := by
        rw [map_append]
        refine nodup_append.mpr ⟨hnodup, List.nodup_singleton _, ?_⟩
        rintro a ha b hb rfl
        obtain ⟨c, hc, rfl⟩ := mem_map.mp ha
        exact hnew c hc ((List.mem_singleton.mp hb).trans hid)
      obtain ⟨hsub', hsup', hnodup'⟩ := ih hdocs hsub_new hnodup_new
      refine ⟨hsub', fun x hx => hsup' x ?_, hnodup'⟩
      rcases hx with hx | hx
      · rcases List.mem_cons.mp hx with rfl | hx
        · exact .inr (mem_append_right _ List.mem_cons_self)
        · exact .inl hx
      · exact .inr (mem_append_left _ hx)

/-! ### The invariant -/

/-- How far a poll is: what has been read so far of each stream. -/
def Reads (s : State) (p : Poll) (refs protectedRefs configs : List (Doc FetchedDocument)) : Prop :=
  match p.phase with
  | .refUpdates r => FeedReading s.refUpdates refs r
  | .protectedRefUpdates read r =>
    Feed s.refUpdates (refs ++ read.docs) read.cursor ∧ (∀ d ∈ p.landed, d ∈ refs ++ read.docs) ∧
      FeedReading s.protectedRefUpdates protectedRefs r
  | .configs read protectedRead r =>
    Feed s.refUpdates (refs ++ read.docs) read.cursor ∧ (∀ d ∈ p.landed, d ∈ refs ++ read.docs) ∧
      Feed s.protectedRefUpdates (protectedRefs ++ protectedRead.docs) protectedRead.cursor ∧
      (∀ d ∈ p.landedProtected, d ∈ protectedRefs ++ protectedRead.docs) ∧ FeedReading s.configDocs configs r

/-- What the saved cursors have delivered, and that it was reported under the whole config history. -/
structure Inv (env : RefEnv) (s : State) (refs protectedRefs configs : List (Doc FetchedDocument)) : Prop where
  stored : ∀ d ∈ s.all, Stored d
  ids : (s.all.map Doc.id).Nodup
  refFeed : Feed s.refUpdates refs s.refCursor
  protectedFeed : Feed s.protectedRefUpdates protectedRefs s.protectedCursor
  configFeed : Feed s.configDocs configs s.configCursor
  configs_sub : ∀ c ∈ s.configs, ∃ d ∈ s.configDocs, configDoc d.body = c
  configs_sup : ∀ d ∈ configs, configDoc d.body ∈ s.configs
  configs_ids : (s.configs.map ConfigDoc.id).Nodup
  emitted : s.emitted.Perm
    (refs.filterMap (report env s.history false) ++ protectedRefs.filterMap (report env s.history true))
  landed : ∀ p ∈ s.poll, (∀ d ∈ p.landed, d ∈ s.refUpdates) ∧ ∀ d ∈ p.landedProtected, d ∈ s.protectedRefUpdates
  reads : ∀ p ∈ s.poll, Reads s p refs protectedRefs configs

theorem append_append_perm {α : Type*} (a b c d : List α) : ((a ++ b) ++ (c ++ d)).Perm ((a ++ c) ++ (b ++ d)) := by
  rw [List.append_assoc, List.append_assoc]
  exact (List.perm_append_comm_assoc b c d).append_left a

section Inv

variable {env : RefEnv} {s s' : State} {refs protectedRefs configs : List (Doc FetchedDocument)}

variable (h : Inv env s refs protectedRefs configs)

include h in
theorem Inv.ids_of :
    (s.refUpdates.map Doc.id).Nodup ∧ (s.protectedRefUpdates.map Doc.id).Nodup ∧ (s.configDocs.map Doc.id).Nodup ∧
      ∀ a ∈ s.refUpdates, ∀ b ∈ s.protectedRefUpdates, a.id ≠ b.id := by
  have hids := h.ids
  rw [State.all, map_append, map_append, nodup_append, nodup_append] at hids
  obtain ⟨⟨hrefs, hprotected, hne⟩, hconfigs, -⟩ := hids
  exact ⟨hrefs, hprotected, hconfigs, fun a ha b hb => hne _ (List.mem_map_of_mem ha) _ (List.mem_map_of_mem hb)⟩

variable {docs : List (Doc FetchedDocument)}

include h in
theorem Inv.perm_history (hall : ∀ d ∈ s.configDocs, d ∈ configs ++ docs) (hdocs : ∀ d ∈ docs, d ∈ s.configDocs) :
    (addConfigs s.configs docs).Perm s.history ∧ ((addConfigs s.configs docs).map ConfigDoc.id).Nodup := by
  have hids := h.ids_of.2.2.1
  have hstored : ∀ d ∈ s.configDocs, Stored d := fun d hd => h.stored d (mem_append_right _ hd)
  obtain ⟨hsub, hsup, hnodup⟩ := addConfigs_spec hids hstored hdocs h.configs_sub h.configs_ids
  have hhistory : (s.history.map ConfigDoc.id).Nodup := by
    have heq : s.history.map ConfigDoc.id = s.configDocs.map Doc.id := by
      rw [State.history, List.map_map]
      exact List.map_congr_left fun d hd => (hstored d hd).1
    rwa [heq]
  refine ⟨(List.perm_ext_iff_of_nodup (List.Nodup.of_map _ hnodup) (List.Nodup.of_map _ hhistory)).mpr
    fun c => ?_, hnodup⟩
  constructor
  · intro hc
    obtain ⟨d, hd, rfl⟩ := hsub c hc
    exact mem_map.mpr ⟨d, hd, rfl⟩
  · intro hc
    obtain ⟨d, hd, rfl⟩ := mem_map.mp hc
    rcases mem_append.mp (hall d hd) with hd | hd
    · exact hsup d (.inr (h.configs_sup d hd))
    · exact hsup d (.inl hd)

variable {newRefs newProtected newConfigs : List (Doc FetchedDocument)} {t : ℕ} {p : Poll}

variable (htime : ∀ d ∈ newRefs ++ newProtected ++ newConfigs, Stored d ∧ d.createdAt = t)
  (hlater : ∀ d ∈ s.all, d.createdAt < t)

include htime hlater in
theorem lands_of_block (hnew : ∀ d ∈ newRefs ++ newProtected ++ newConfigs, d.id ∉ s.all.map Doc.id) :
    Lands s.refUpdates newRefs t ∧ Lands s.protectedRefUpdates newProtected t ∧ Lands s.configDocs newConfigs t := by
  have hid (d : Doc FetchedDocument) (hd : d ∈ newRefs ++ newProtected ++ newConfigs) {l : List (Doc FetchedDocument)}
      (hl : ∀ d ∈ l, d ∈ s.all) : d.id ∉ l.map Doc.id := by
    intro hmem
    obtain ⟨d', hd', heq⟩ := mem_map.mp hmem
    exact hnew d hd (mem_map.mpr ⟨d', hl d' hd', heq⟩)
  have hrefs (d : Doc FetchedDocument) (hd : d ∈ s.refUpdates) : d ∈ s.all := mem_append_left _ (mem_append_left _ hd)
  have hprotected (d : Doc FetchedDocument) (hd : d ∈ s.protectedRefUpdates) : d ∈ s.all :=
    mem_append_left _ (mem_append_right _ hd)
  have hconfigs (d : Doc FetchedDocument) (hd : d ∈ s.configDocs) : d ∈ s.all := mem_append_right _ hd
  refine ⟨⟨fun d hd => ?_, fun d hd => hlater d (hrefs d hd), fun d hd => hid d ?_ hrefs⟩,
    ⟨fun d hd => ?_, fun d hd => hlater d (hprotected d hd), fun d hd => hid d ?_ hprotected⟩,
    ⟨fun d hd => ?_, fun d hd => hlater d (hconfigs d hd), fun d hd => hid d ?_ hconfigs⟩⟩
  · exact (htime d (mem_append_left _ (mem_append_left _ hd))).2
  · exact mem_append_left _ (mem_append_left _ hd)
  · exact (htime d (mem_append_left _ (mem_append_right _ hd))).2
  · exact mem_append_left _ (mem_append_right _ hd)
  · exact (htime d (mem_append_right _ hd)).2
  · exact mem_append_right _ hd

theorem Reads.land (h : Reads s p refs protectedRefs configs) (hrefs : Lands s.refUpdates newRefs t)
    (hprotected : Lands s.protectedRefUpdates newProtected t) (hconfigs : Lands s.configDocs newConfigs t) :
    Reads { s with
      refUpdates := s.refUpdates ++ newRefs, protectedRefUpdates := s.protectedRefUpdates ++ newProtected
      configDocs := s.configDocs ++ newConfigs } p refs protectedRefs configs := by
  unfold Reads at h ⊢
  split
  · next r hphase =>
    rw [hphase] at h
    exact h.land hrefs
  · next read r hphase =>
    rw [hphase] at h
    obtain ⟨hread, hall, hr⟩ := h
    exact ⟨hread.land hrefs, hall, hr.land hprotected⟩
  · next read protectedRead r hphase =>
    rw [hphase] at h
    obtain ⟨hread, hall, hread', hall', hr⟩ := h
    exact ⟨hread.land hrefs, hall, hread'.land hprotected, hall', hr.land hconfigs⟩

include htime hlater in
include h in
theorem Inv.land (hids : ((newRefs ++ newProtected ++ newConfigs).map Doc.id).Nodup)
    (hnew : ∀ d ∈ newRefs ++ newProtected ++ newConfigs, d.id ∉ s.all.map Doc.id) : Inv env { s with
      refUpdates := s.refUpdates ++ newRefs, protectedRefUpdates := s.protectedRefUpdates ++ newProtected
      configDocs := s.configDocs ++ newConfigs } refs protectedRefs configs := by
  have hperm : (s.refUpdates ++ newRefs ++ (s.protectedRefUpdates ++ newProtected) ++ (s.configDocs ++ newConfigs)).Perm
      (s.all ++ (newRefs ++ newProtected ++ newConfigs)) := by
    rw [State.all]
    exact ((append_append_perm _ _ _ _).append_right _).trans (append_append_perm _ _ _ _)
  obtain ⟨hrefs, hprotected, hconfigs⟩ := lands_of_block htime hlater hnew
  have hjudged (isProtected : Bool) {l : List (Doc FetchedDocument)} (hl : ∀ d ∈ l, d ∈ s.all) :
      l.filterMap (report env (s.history ++ newConfigs.map fun d => configDoc d.body) isProtected) =
        l.filterMap (report env s.history isProtected) := by
    refine List.filterMap_congr fun d hd => report_append env _ isProtected (h.stored d (hl d hd)) fun c hc => ?_
    obtain ⟨c', hc', rfl⟩ := mem_map.mp hc
    obtain ⟨hstored, hnow⟩ := htime c' (mem_append_right _ hc')
    have htime' : (configDoc c'.body).createdAt = t := by rw [configDoc, hstored.2, getD_some, hnow]
    rw [htime']
    exact hlater d (hl d hd)
  refine ⟨?_, ?_, h.refFeed.land hrefs, h.protectedFeed.land hprotected, h.configFeed.land hconfigs, ?_, h.configs_sup,
    h.configs_ids, ?_, ?_, fun p hp => (h.reads p hp).land hrefs hprotected hconfigs⟩
  · intro d hd
    rcases mem_append.mp (hperm.mem_iff.mp hd) with hd | hd
    · exact h.stored d hd
    · exact (htime d hd).1
  · refine (hperm.map Doc.id).nodup_iff.mpr ?_
    rw [map_append]
    refine nodup_append.mpr ⟨h.ids, hids, ?_⟩
    rintro a ha b hb rfl
    obtain ⟨d, hd, rfl⟩ := mem_map.mp hb
    exact hnew d hd ha
  · intro c hc
    obtain ⟨d, hd, heq⟩ := h.configs_sub c hc
    exact ⟨d, mem_append_left _ hd, heq⟩
  · have hhistory : (s.configDocs ++ newConfigs).map (fun d => configDoc d.body) =
        s.history ++ newConfigs.map fun d => configDoc d.body := map_append
    dsimp only [State.history]
    rw [hhistory, hjudged false fun d hd => ?_, hjudged true fun d hd => ?_]
    · exact h.emitted
    · exact mem_append_left _ (mem_append_right _ (h.protectedFeed.covers.landed_of_given d hd))
    · exact mem_append_left _ (mem_append_left _ (h.refFeed.covers.landed_of_given d hd))
  · intro p hp
    obtain ⟨hl, hlp⟩ := h.landed p hp
    exact ⟨fun d hd => mem_append_left _ (hl d hd), fun d hd => mem_append_left _ (hlp d hd)⟩

include h in
theorem Inv.setPoll {poll : Option Poll}
    (hlanded : ∀ p ∈ poll, (∀ d ∈ p.landed, d ∈ s.refUpdates) ∧ ∀ d ∈ p.landedProtected, d ∈ s.protectedRefUpdates)
    (hreads : ∀ p ∈ poll, Reads s p refs protectedRefs configs) : Inv env { s with poll } refs protectedRefs configs :=
  ⟨h.stored, h.ids, h.refFeed, h.protectedFeed, h.configFeed, h.configs_sub, h.configs_sup,
    h.configs_ids, h.emitted, hlanded,
    hreads⟩

include h in
theorem Inv.fail : Inv env { s with poll := none } refs protectedRefs configs :=
  h.setPoll (fun p hp => absurd hp (not_mem_none p)) fun p hp => absurd hp (not_mem_none p)

include h in
/-- The last page: all that was read is judged under the whole history. -/
theorem Inv.finish (hp : s.poll = some p) {read protectedRead : Read}
    {r : Reading FetchedDocument} (hphase : p.phase = .configs read protectedRead r) {cursor : Cursor}
      (hdone : r.next s.configDocs = .done cursor docs) :
    Inv env { s.finish env read protectedRead { docs, cursor } with poll := none }
      (refs ++ read.docs) (protectedRefs ++ protectedRead.docs) (configs ++ docs) := by
  have hreads := h.reads p hp
  rw [Reads, hphase] at hreads
  obtain ⟨hread, -, hread', -, hr⟩ := hreads
  obtain ⟨hconfigFeed, hall⟩ := hr.done h.ids_of.2.2.1 hdone
  have hdocs : ∀ d ∈ docs, d ∈ s.configDocs := fun d hd => hconfigFeed.covers.landed_of_given d (mem_append_right _ hd)
  obtain ⟨hperm, hids⟩ := h.perm_history hall hdocs
  have hstored : ∀ d ∈ s.configDocs, Stored d := fun d hd => h.stored d (mem_append_right _ hd)
  obtain ⟨hsub, hsup, -⟩ := addConfigs_spec h.ids_of.2.2.1 hstored hdocs h.configs_sub h.configs_ids
  have hreport (isProtected : Bool) (d : Doc FetchedDocument) :
      report env (addConfigs s.configs docs) isProtected d = report env s.history isProtected d := by
    rw [report, report, refUpdateIsValid_eq_of_perm env d.body isProtected hperm hids]
  obtain ⟨tips, heq⟩ := finish_eq env s read protectedRead { docs, cursor }
  rw [heq]
  refine ⟨h.stored, h.ids, hread, hread', hconfigFeed, hsub, fun d hd => hsup d ?_, hids, ?_,
    fun p hp => absurd hp (not_mem_none p), fun p hp => absurd hp (not_mem_none p)⟩
  · rcases mem_append.mp hd with hd | hd
    · exact .inr (h.configs_sup d hd)
    · exact .inl hd
  · dsimp only [State.history]
    rw [List.filterMap_append, List.filterMap_append, funext (hreport false), funext (hreport true)]
    exact (h.emitted.append_right _).trans (append_append_perm _ _ _ _)

include h in
theorem Inv.page (hp : s.poll = some p) :
    ∃ refs' protectedRefs' configs', Inv env (s.page env p) refs' protectedRefs' configs' := by
  have hsome {phase : Phase} (hreads : Reads s { p with phase } refs protectedRefs configs) :
      Inv env { s with poll := some { p with phase } } refs protectedRefs configs := by
    refine h.setPoll (fun q hq => ?_) fun q hq => ?_
    · obtain rfl := mem_some_iff.mp hq
      exact h.landed p hp
    · obtain rfl := mem_some_iff.mp hq
      exact hreads
  have hids := h.ids_of
  have hlanded := h.landed p hp
  have hreads := h.reads p hp
  unfold Reads at hreads
  unfold State.page
  split
  · next r hphase =>
    rw [hphase] at hreads
    split
    · exact ⟨_, _, _, h.fail⟩
    · next r' hmore => exact ⟨_, _, _, hsome (hreads.more hids.1 hmore)⟩
    · next cursor docs hdone =>
      obtain ⟨hread, hall⟩ := hreads.done hids.1 hdone
      exact ⟨_, _, _, hsome ⟨hread, fun d hd => hall d (hlanded.1 d hd), h.protectedFeed.start⟩⟩
  · next read r hphase =>
    rw [hphase] at hreads
    obtain ⟨hread, hall, hr⟩ := hreads
    split
    · exact ⟨_, _, _, h.fail⟩
    · next r' hmore => exact ⟨_, _, _, hsome ⟨hread, hall, hr.more hids.2.1 hmore⟩⟩
    · next cursor docs hdone =>
      obtain ⟨hread', hall'⟩ := hr.done hids.2.1 hdone
      exact ⟨_, _, _, hsome ⟨hread, hall, hread', fun d hd => hall' d (hlanded.2 d hd), h.configFeed.start⟩⟩
  · next read protectedRead r hphase =>
    rw [hphase] at hreads
    obtain ⟨hread, hall, hread', hall', hr⟩ := hreads
    split
    · exact ⟨_, _, _, h.fail⟩
    · next r' hmore => exact ⟨_, _, _, hsome ⟨hread, hall, hread', hall', hr.more hids.2.2.1 hmore⟩⟩
    · next cursor docs hdone => exact ⟨_, _, _, h.finish hp hphase hdone⟩

include h in
theorem Inv.step (hstep : Step env s s') :
    ∃ refs' protectedRefs' configs', Inv env s' refs' protectedRefs' configs' := by
  cases hstep with
  | land newRefs newProtected newConfigs t htime hlater hids hnew => exact ⟨_, _, _, h.land htime hlater hids hnew⟩
  | start hnone =>
    refine ⟨_, _, _, h.setPoll (fun p hp => ?_) fun p hp => ?_⟩
    · obtain rfl := mem_some_iff.mp hp
      exact ⟨fun d hd => hd, fun d hd => hd⟩
    · obtain rfl := mem_some_iff.mp hp
      exact h.refFeed.start
  | fail => exact ⟨_, _, _, h.fail⟩
  | page p hp => exact h.page hp

theorem Reachable.inv (h : Reachable env s) : ∃ refs protectedRefs configs, Inv env s refs protectedRefs configs := by
  obtain ⟨refs, protectedRefs, configs, hstored, hids, hrun⟩ := h
  induction hrun with
  | refl =>
    have hconfigs : ∀ d ∈ configs, Stored d := fun d hd => hstored d (mem_append_right _ hd)
    have hconfigIds : (configs.map Doc.id).Nodup := by
      rw [map_append] at hids
      exact (nodup_append.mp hids).2.1
    refine ⟨[], [], [], hstored, hids, Stream.feed_new refs, Stream.feed_new protectedRefs, Stream.feed_new configs, ?_,
      List.forall_mem_nil _, ?_, List.Perm.refl _, fun p hp => absurd hp (not_mem_none p),
      fun p hp => absurd hp (not_mem_none p)⟩
    · intro c hc
      obtain ⟨d, hd, heq⟩ := mem_map.mp hc
      exact ⟨d, hd, heq⟩
    · have heq : (configs.map fun d => configDoc d.body).map ConfigDoc.id = configs.map Doc.id := by
        rw [List.map_map]
        exact List.map_congr_left fun d hd => (hconfigs d hd).1
      exact heq ▸ hconfigIds
  | tail _ hstep ih =>
    obtain ⟨_, _, _, hinv⟩ := ih
    exact hinv.step hstep

/-! ### Runs -/

theorem sublist_report (env : RefEnv) (configs : List ConfigDoc) (isProtected : Bool) {l : List (Doc FetchedDocument)}
    (hl : ∀ d ∈ l, Stored d) :
    ((l.filterMap (report env configs isProtected)).map PushEvent.sourceDocId).Sublist (l.map Doc.id) := by
  induction l with
  | nil => exact .slnil
  | cons d l ih =>
    obtain ⟨hd, hl⟩ := List.forall_mem_cons.mp hl
    cases hreport : report env configs isProtected d with
    | none =>
      rw [List.filterMap_cons_none hreport]
      exact (ih hl).cons d.id
    | some e =>
      rw [List.filterMap_cons_some hreport, List.map_cons, List.map_cons, sourceDocId_of_report hreport, hd.1]
      exact (ih hl).cons_cons d.id

include h in
theorem Inv.nodup : (s.emitted.map PushEvent.sourceDocId).Nodup := by
  obtain ⟨hrefs, hprotected, -, hne⟩ := h.ids_of
  have hgiven {docs given : List (Doc FetchedDocument)} {c : Cursor} (hfeed : Feed docs given c)
      (hids : (docs.map Doc.id).Nodup) : (given.map Doc.id).Nodup :=
    hfeed.covers.nodup.map_on fun a ha b hb heq =>
      List.inj_on_of_nodup_map hids (hfeed.covers.landed_of_given a ha) (hfeed.covers.landed_of_given b hb) heq
  have hstored (d : Doc FetchedDocument) (hd : d ∈ refs) : Stored d :=
    h.stored d (mem_append_left _ (mem_append_left _ (h.refFeed.covers.landed_of_given d hd)))
  have hstored' (d : Doc FetchedDocument) (hd : d ∈ protectedRefs) : Stored d :=
    h.stored d (mem_append_left _ (mem_append_right _ (h.protectedFeed.covers.landed_of_given d hd)))
  rw [(h.emitted.map _).nodup_iff, map_append]
  have hsub := sublist_report env s.history false hstored
  have hsub' := sublist_report env s.history true hstored'
  refine nodup_append.mpr ⟨(hgiven h.refFeed hrefs).sublist hsub, (hgiven h.protectedFeed hprotected).sublist hsub', ?_⟩
  rintro a ha b hb rfl
  obtain ⟨d, hd, rfl⟩ := mem_map.mp (hsub.subset ha)
  obtain ⟨d', hd', heq⟩ := mem_map.mp (hsub'.subset hb)
  exact hne d (h.refFeed.covers.landed_of_given d hd) d' (h.protectedFeed.covers.landed_of_given d' hd') heq.symm

include h in
/-- An event is of an update that the whole config history accepts. -/
theorem Inv.accepted {e : PushEvent} (he : e ∈ s.emitted) :
    (∃ d ∈ s.refUpdates, d.id = e.sourceDocId ∧ report env s.history false d = some e) ∨
      ∃ d ∈ s.protectedRefUpdates, d.id = e.sourceDocId ∧ report env s.history true d = some e := by
  rcases mem_append.mp (h.emitted.mem_iff.mp he) with he | he
  · obtain ⟨d, hd, hreport⟩ := List.mem_filterMap.mp he
    have hlanded := h.refFeed.covers.landed_of_given d hd
    have hid := (h.stored d (mem_append_left _ (mem_append_left _ hlanded))).1
    exact .inl ⟨d, hlanded, hid.symm.trans (sourceDocId_of_report hreport).symm, hreport⟩
  · obtain ⟨d, hd, hreport⟩ := List.mem_filterMap.mp he
    have hlanded := h.protectedFeed.covers.landed_of_given d hd
    have hid := (h.stored d (mem_append_left _ (mem_append_right _ hlanded))).1
    exact .inr ⟨d, hlanded, hid.symm.trans (sourceDocId_of_report hreport).symm, hreport⟩

theorem emitted_page (env : RefEnv) (s : State) (p : Poll) : s.emitted <+: (s.page env p).emitted := by
  unfold State.page
  split
  · split <;> exact prefix_rfl
  · split <;> exact prefix_rfl
  · next read protectedRead r _ =>
    split
    · exact prefix_rfl
    · exact prefix_rfl
    · next cursor docs _ =>
      obtain ⟨tips, heq⟩ := finish_eq env s read protectedRead { docs, cursor }
      rw [heq]
      exact List.prefix_append _ _

theorem Step.emitted (hstep : Step env s s') : s.emitted <+: s'.emitted := by
  cases hstep with
  | page p hp => exact emitted_page env s p
  | _ => exact prefix_rfl

/-- Of any run: a document is reported once at most; what is reported is accepted by the whole config history, of this state
and so of every later one, where it is still reported; and a poll that reads all three streams to the end has reported
what is accepted of the updates that had landed when it began. -/
theorem pushes_spec (env : RefEnv) (s : State) (h : Reachable env s) :
    (s.emitted.map PushEvent.sourceDocId).Nodup ∧
    (∀ e ∈ s.emitted,
      (∃ d ∈ s.refUpdates, d.id = e.sourceDocId ∧ refUpdateIsValid env d.body false s.history = true ∧
        translateRefUpdate d.body = some e) ∨
      ∃ d ∈ s.protectedRefUpdates, d.id = e.sourceDocId ∧ refUpdateIsValid env d.body true s.history = true ∧
        translateRefUpdate d.body = some e) ∧
    (∀ d ∈ s.refUpdates, refUpdateIsValid env d.body false s.history = false → ∀ e ∈ s.emitted, e.sourceDocId ≠ d.id) ∧
    (∀ d ∈ s.protectedRefUpdates, refUpdateIsValid env d.body true s.history = false →
      ∀ e ∈ s.emitted, e.sourceDocId ≠ d.id) ∧
    (∀ s', Relation.ReflTransGen (Step env) s s' → s.emitted <+: s'.emitted) ∧
    (∀ p, s.poll = some p → ∀ read protectedRead r, p.phase = .configs read protectedRead r →
      ∀ cursor docs, r.next s.configDocs = .done cursor docs →
      (∀ d ∈ p.landed, refUpdateIsValid env d.body false s.history = true →
        ∃ e ∈ (s.page env p).emitted, e.sourceDocId = d.id) ∧
      ∀ d ∈ p.landedProtected, refUpdateIsValid env d.body true s.history = true →
        ∃ e ∈ (s.page env p).emitted, e.sourceDocId = d.id) := by
  obtain ⟨refs, protectedRefs, configs, hinv⟩ := h.inv
  obtain ⟨hrefs, hprotected, -, hne⟩ := hinv.ids_of
  have hreport {isProtected : Bool} {d : Doc FetchedDocument} {e : PushEvent}
      (hsome : report env s.history isProtected d = some e) :
      refUpdateIsValid env d.body isProtected s.history = true ∧ translateRefUpdate d.body = some e := by
    unfold report at hsome
    split at hsome
    · next hvalid => exact ⟨hvalid, hsome⟩
    · cases hsome
  refine ⟨hinv.nodup, fun e he => ?_, fun d hd hinvalid e he heq => ?_, fun d hd hinvalid e he heq =>
    ?_, fun s' hrun => ?_, ?_⟩
  · rcases hinv.accepted he with ⟨d, hd, hid, hsome⟩ | ⟨d, hd, hid, hsome⟩
    · exact .inl ⟨d, hd, hid, hreport hsome⟩
    · exact .inr ⟨d, hd, hid, hreport hsome⟩
  · rcases hinv.accepted he with ⟨d', hd', hid, hsome⟩ | ⟨d', hd', hid, hsome⟩
    · obtain rfl := List.inj_on_of_nodup_map hrefs hd' hd (hid.trans heq)
      rw [(hreport hsome).1] at hinvalid
      cases hinvalid
    · exact hne d hd d' hd' (hid.trans heq).symm
  · rcases hinv.accepted he with ⟨d', hd', hid, hsome⟩ | ⟨d', hd', hid, hsome⟩
    · exact hne d' hd' d hd (hid.trans heq)
    · obtain rfl := List.inj_on_of_nodup_map hprotected hd' hd (hid.trans heq)
      rw [(hreport hsome).1] at hinvalid
      cases hinvalid
  · induction hrun with
    | refl => exact List.prefix_rfl
    | tail _ hstep ih => exact ih.trans hstep.emitted
  · intro p hp read protectedRead r hphase cursor docs hdone
    have hreads := hinv.reads p hp
    rw [Reads, hphase] at hreads
    obtain ⟨-, hall, -, hall', -⟩ := hreads
    have hpage : s.page env p = { s.finish env read protectedRead { docs, cursor } with poll := none } := by
      rw [State.page, hphase]
      dsimp only
      rw [hdone]
    have hafter := hinv.finish hp hphase hdone
    rw [hpage]
    have hhistory : ({ s.finish env read protectedRead { docs, cursor } with poll := none } :
        State).history = s.history := by
      obtain ⟨tips, heq⟩ := finish_eq env s read protectedRead { docs, cursor }
      rw [heq]
      rfl
    obtain ⟨hlanded, hlandedProtected⟩ := hinv.landed p hp
    constructor
    · intro d hd hvalid
      obtain ⟨e, he⟩ := report_of_valid hvalid
      refine ⟨e, hafter.emitted.mem_iff.mpr (List.mem_append_left _ (List.mem_filterMap.mpr ⟨d, hall d hd, ?_⟩)), ?_⟩
      · rw [hhistory, he]
      · exact (sourceDocId_of_report he).trans
          (hinv.stored d (List.mem_append_left _ (List.mem_append_left _ (hlanded d hd)))).1
    · intro d hd hvalid
      obtain ⟨e, he⟩ := report_of_valid hvalid
      refine ⟨e, hafter.emitted.mem_iff.mpr (List.mem_append_right _ (List.mem_filterMap.mpr ⟨d, hall' d hd, ?_⟩)), ?_⟩
      · rw [hhistory, he]
      · exact (sourceDocId_of_report he).trans
          (hinv.stored d (List.mem_append_left _ (List.mem_append_right _ (hlandedProtected d hd)))).1

end Inv

def sampleEnv : RefEnv where
  sha256Hex _ := ""
  globMatch _ _ := false

/-- A branch is set to a commit. -/
def sampleUpdate : Doc FetchedDocument where
  id := "u"
  createdAt := 1
  body :=
    { id := "u", ownerId := "o", createdAt := some 1, createdAtBlockHeight := none, updatedAtBlockHeight := none
      fields := ((SortedMap.empty.insert "refName" (.text "refs/heads/main")).insert "refNameHash" (.bytes [1])).insert
        "newOid" (.bytes [2]) }

def samplePoll (phase : Phase) : Poll where
  phase
  landed := [sampleUpdate]
  landedProtected := []

/-- The update has landed, and a poll has read the ref streams. -/
def sampleState : State where
  refUpdates := [sampleUpdate]
  poll := some (samplePoll (.configs
    { docs := [sampleUpdate], cursor := { baseline := .beginning, primed := true, since := some 1, seen := ["u"] } }
    { docs := [], cursor := { baseline := .beginning, primed := true } } { cursor := Cursor.new .beginning }))

theorem reachable_sampleState : Reachable sampleEnv sampleState := by
  refine ⟨[sampleUpdate], [], [], ?_, by decide, ?_⟩
  · exact List.forall_mem_singleton.mpr ⟨rfl, rfl⟩
  · have hstep : Step sampleEnv (State.init [sampleUpdate] [] []) _ := Step.start _ rfl
    have hstart := Relation.ReflTransGen.single hstep
    have hrefs := hstart.tail (Step.page _ (samplePoll (.refUpdates { cursor := Cursor.new .beginning })) rfl)
    exact hrefs.tail (Step.page _ (samplePoll (.protectedRefUpdates
      { docs := [sampleUpdate], cursor := { baseline := .beginning, primed := true, since := some 1, seen := ["u"] } }
      { cursor := Cursor.new .beginning })) rfl)

/-- The next page ends the poll, and the update is reported. -/
theorem pushes_spec_sample : ∃ p, sampleState.poll = some p ∧
    ∃ e ∈ (sampleState.page sampleEnv p).emitted, e.sourceDocId = "u" := by
  obtain ⟨-, -, -, -, -, hreported⟩ := pushes_spec sampleEnv sampleState reachable_sampleState
  exact ⟨_, rfl, (hreported _ rfl _ _ _ rfl _ _ rfl).1 sampleUpdate List.mem_cons_self (by decide +kernel)⟩

end DashForge.Pushes
