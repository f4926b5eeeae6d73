import DashForge.Gateway.Deny

/-!
# Takedowns over time

The deny list among reads of Platform that overlap and reloads of its file. A repository that a listed name was read
as is refused while the name stays listed, in runs whose reloads find the list's resolutions as they were stored
(`deny_spec`); a read that ends later with another answer puts its own in their place, and the next reload forgets
the repository (`takedown_lapses`). What is served was told from every listed name of its own name (`served_spec`).
-/

namespace DashForge.Deny

open List Option SortedMap

/-- A read of a listed name. Its answer is what Platform has at some time before it ends, or that it failed. -/
structure Read where
  entry : NamedEntry
  answer : Option (Option (Option RepoInfo)) := none

/-- The list with the reads in flight and what Platform has. -/
structure System where
  deny : State := {}
  clock : ℕ := 0
  upstream : String → String → Option RepoInfo := fun _ _ => none
  reads : List Read := []
  /-- The ids that reads stored for names that every list since has. -/
  stored : List (Key × String) := []

inductive Act where
  | tick (now : ℕ)
  | publish (upstream : String → String → Option RepoInfo)
  | reload (file : FileView)
  | fresh (file : FileView)
  | start (e : NamedEntry)
  | answer (i : ℕ) (fails : Bool)
  | finish (i : ℕ)

section System

variable (p : Platform) (cfg : Config)

/-- The system with a list that was looked at. -/
def System.withDeny (s : System) (deny : State) : System :=
  { s with deny := deny, stored := s.stored.filter fun x => deny.entries.has x.1 }

/-- The end of a read. -/
def System.finish (s : System) (e : NamedEntry) (answer : Option (Option RepoInfo)) : System :=
  { s with
    deny := (s.deny.readEntry e answer s.clock).1
    stored := if s.deny.entries.has e.key then
        ((answer.getD none).map fun info => (e.key, info.repoId)).toList ++ s.stored
      else s.stored }

def System.step (s : System) : Act → Option System
  | .tick now => if s.clock ≤ now then some { s with clock := now } else none
  | .publish upstream => some { s with upstream := upstream }
  | .reload file => some (s.withDeny (reloadNow p cfg s.deny s.clock file).1)
  | .fresh file => some (s.withDeny (stateFresh p cfg s.deny s.clock file))
  | .start e => some { s with reads := s.reads ++ [{ entry := e }] }
  | .answer i fails => do
    let r ← s.reads[i]?
    guard (r.answer = none)
    let answer := if fails then none else some (s.upstream r.entry.owner r.entry.name)
    return { s with reads := s.reads.set i { r with answer := some answer } }
  | .finish i => do
    let r ← s.reads[i]?
    let answer ← r.answer
    return { s.finish r.entry answer with reads := s.reads.eraseIdx i }

/-- The lists an act may apply. -/
def Applies (s : System) (act : Act) (entries : Entries) : Prop :=
  ∃ force file stamp, (act = .reload file ∨ act = .fresh file) ∧ look p cfg s.deny force file = .apply stamp entries

/-- The condition on a step: where it applies a list, an id that was stored for a name of that list is still what a
name of the list is resolved to. -/
def Meets (s : System) (act : Act) : Prop := ∀ entries, Applies p cfg s act entries →
  ∀ x ∈ s.stored, entries.has x.1 = true →
    ∃ k r, entries.has k = true ∧ s.deny.resolved.lookup k = some r ∧ r.repoId = some x.2

/-- The states of runs whose steps all meet a condition. -/
inductive Run (P : System → Act → Prop) : System → Prop
  | start : Run P {}
  | step {s s' : System} {act : Act} (h : Run P s) (hact : P s act) (hstep : s.step p cfg act = some s') : Run P s'

end System

/-! ### What a look does to the list -/

section Steps

variable {p : Platform} {cfg : Config} {st st' : State} {s s' : System}

theorem mem_idsOf {resolved : SortedMap Key Resolution} {id : String} :
    id ∈ idsOf resolved ↔ ∃ k r, resolved.lookup k = some r ∧ r.repoId = some id := by
  simp only [idsOf, List.mem_toFinset, List.mem_filterMap, mem_values]
  exact ⟨fun ⟨r, ⟨k, hk⟩, hid⟩ => ⟨k, r, hk, hid⟩, fun ⟨k, r, hk, hid⟩ => ⟨r, ⟨k, hk⟩, hid⟩⟩

/-- A list with what it refuses as it was. -/
def SameList (st st' : State) : Prop :=
  st'.entries = st.entries ∧ st'.resolved = st.resolved ∧ st'.resolvedIds = st.resolvedIds

/-- A list that another was applied to. -/
def AppliedTo (entries : Entries) (st st' : State) : Prop :=
  st'.entries = entries ∧ st'.resolved = st.resolved.filter (fun k _ => entries.has k) ∧
    st'.resolvedIds = idsOf st'.resolved

theorem load_cases (p : Platform) (cfg : Config) (st : State) (force : Bool) (file : FileView) :
    SameList st (load p cfg st force file).1 ∨
      ∃ stamp entries, look p cfg st force file = .apply stamp entries ∧
          AppliedTo entries st (load p cfg st force file).1 := by
  rw [load]
  cases hlook : look p cfg st force file with
  | unchanged => exact .inl ⟨rfl, rfl, rfl⟩
  | same => exact .inl ⟨rfl, rfl, rfl⟩
  | unreadable why => exact .inl ⟨rfl, rfl, rfl⟩
  | apply stamp entries => exact .inr ⟨stamp, entries, rfl, rfl, rfl, rfl⟩

/-- A file that cannot be read, or is too large, is not applied. -/
theorem load_of_unreadable {file : FileView} (force : Bool)
    (h : (∃ e, file.metadata = .error e) ∨ (∃ m len, file.metadata = .ok (m, len) ∧ maxFileBytes < len) ∨
      ∃ e, file.text = .error e) : SameList st (load p cfg st force file).1 := by
  refine (load_cases p cfg st force file).resolve_right ?_
  rintro ⟨stamp, entries, hlook, -⟩
  unfold look at hlook
  split at hlook
  · cases hlook
  · cases hlook
  · next modified len hpath hmeta =>
    split_ifs at hlook with hstamp hsettle hsize
    split at hlook
    · cases hlook
    · next text htext =>
      rcases h with ⟨e, he⟩ | ⟨m, len', he, hlarge⟩ | ⟨e, he⟩
      · rw [he] at hmeta
        cases hmeta
      · rw [he] at hmeta
        obtain ⟨-, rfl⟩ := Prod.mk.inj (Except.ok.inj hmeta)
        exact hsize hlarge
      · rw [he] at htext
        cases htext

variable {act : Act} {e : NamedEntry}

/-- What a step does to the list: nothing, a list is applied, or a read ends. -/
theorem System.step_cases (h : s.step p cfg act = some s') :
    (SameList s.deny s'.deny ∧ (s'.stored = s.stored ∨ s'.stored = s.stored.filter fun x => s'.deny.entries.has x.1)) ∨
    (∃ entries, Applies p cfg s act entries ∧ AppliedTo entries s.deny s'.deny ∧
      s'.stored = s.stored.filter fun x => entries.has x.1) ∨
    ∃ e answer, s'.deny = (s.finish e answer).deny ∧ s'.stored = (s.finish e answer).stored := by
  have hlook : ∀ (st : State) (force : Bool) (file : FileView), SameList s.deny st →
      (act = .reload file ∨ act = .fresh file) → (look p cfg st force file = look p cfg s.deny force file) →
      s' = s.withDeny (load p cfg st force file).1 →
      (SameList s.deny s'.deny ∧ s'.stored = s.stored.filter fun x => s'.deny.entries.has x.1) ∨
        ∃ entries, Applies p cfg s act entries ∧ AppliedTo entries s.deny s'.deny ∧
          s'.stored = s.stored.filter fun x => entries.has x.1 := by
    rintro st force file ⟨hentries, hresolved, hids⟩ hact heq rfl
    rcases load_cases p cfg st force file with ⟨h₁, h₂, h₃⟩ | ⟨stamp, entries, happly, h₁, h₂, h₃⟩
    · exact .inl ⟨⟨h₁.trans hentries, h₂.trans hresolved, h₃.trans hids⟩, rfl⟩
    · refine .inr ⟨entries, ⟨force, file, stamp, hact, heq ▸ happly⟩, ⟨h₁, hresolved ▸ h₂, h₃⟩, ?_⟩
      rw [System.withDeny, h₁]
  cases act with
  | tick now =>
    rw [System.step] at h
    split_ifs at h
    obtain rfl := some.inj h
    exact .inl ⟨⟨rfl, rfl, rfl⟩, .inl rfl⟩
  | publish upstream =>
    obtain rfl := some.inj h
    exact .inl ⟨⟨rfl, rfl, rfl⟩, .inl rfl⟩
  | reload file =>
    obtain rfl := some.inj h
    rcases hlook { s.deny with checked := some s.clock } true file ⟨rfl, rfl, rfl⟩
      (.inl rfl) rfl rfl with ⟨hsame, hstored⟩ | happly
    · exact .inl ⟨hsame, .inr hstored⟩
    · exact .inr (.inl happly)
  | fresh file =>
    obtain rfl := some.inj h
    by_cases hdue : (cfg.path ≠ none && s.deny.checked.all fun t => cfg.every ≤ s.clock - t) = true
    · have hfresh : stateFresh p cfg s.deny s.clock file =
          (load p cfg { s.deny with checked := some s.clock } false file).1 := if_pos hdue
      rw [hfresh]
      rw [hfresh] at hlook
      rcases hlook { s.deny with checked := some s.clock } false file ⟨rfl, rfl, rfl⟩
        (.inr rfl) rfl rfl with ⟨hsame, hstored⟩ | happly
      · exact .inl ⟨hsame, .inr hstored⟩
      · exact .inr (.inl happly)
    · have hfresh : stateFresh p cfg s.deny s.clock file = s.deny := if_neg hdue
      rw [hfresh]
      exact .inl ⟨⟨rfl, rfl, rfl⟩, .inr rfl⟩
  | start e =>
    obtain rfl := some.inj h
    exact .inl ⟨⟨rfl, rfl, rfl⟩, .inl rfl⟩
  | answer i fails =>
    simp only [System.step, bind_eq_bind, bind_eq_some_iff] at h
    obtain ⟨r, -, _, -, h⟩ := h
    obtain rfl := some.inj h
    exact .inl ⟨⟨rfl, rfl, rfl⟩, .inl rfl⟩
  | finish i =>
    simp only [System.step, bind_eq_bind, bind_eq_some_iff] at h
    obtain ⟨r, -, answer, -, h⟩ := h
    obtain rfl := some.inj h
    exact .inr (.inr ⟨r.entry, answer, rfl, rfl⟩)

/-! ### Runs -/

/-- What a list refuses by its resolutions was stored for a name it has. -/
structure Inv (s : System) : Prop where
  listed : ∀ x ∈ s.stored, s.deny.entries.has x.1 = true
  resolved : ∀ k r id, s.deny.resolved.lookup k = some r → r.repoId = some id → (k, id) ∈ s.stored
  ids : ∀ id ∈ s.deny.resolvedIds, ∃ k, (k, id) ∈ s.stored

/-- What was stored for a name the list has is refused. -/
def Refused (s : System) : Prop := ∀ x ∈ s.stored, x.2 ∈ s.deny.resolvedIds

theorem stored_filter_eq (h : Inv s) : (s.stored.filter fun x => s.deny.entries.has x.1) = s.stored :=
  filter_eq_self.mpr h.listed

theorem finish_of_has (answer : Option (Option RepoInfo)) (h : s.deny.entries.has e.key = true) :
    (s.finish e answer).deny.entries = s.deny.entries ∧ (s.finish e answer).deny.resolved =
        s.deny.resolved.insert e.key ⟨(answer.getD none).map RepoInfo.repoId, s.clock, answer.isSome⟩ ∧
      (∀ id, id ∈ (s.finish e answer).deny.resolvedIds ↔
        (answer.getD none).map RepoInfo.repoId = some id ∨ id ∈ s.deny.resolvedIds) ∧
      ∀ x, x ∈ (s.finish e answer).stored ↔
        (x.1 = e.key ∧ (answer.getD none).map RepoInfo.repoId = some x.2) ∨ x ∈ s.stored := by
  simp only [System.finish, State.readEntry, h, if_true]
  refine ⟨trivial, trivial, fun id => ?_, fun x => ?_⟩
  · cases answer.getD none with
    | none => simp
    | some info =>
      simp only [map_some, Finset.mem_insert, some.injEq]
      exact or_congr_left eq_comm
  · cases answer.getD none with
    | none => simp
    | some info =>
      simp only [map_some, toList_some, singleton_append, mem_cons, Prod.ext_iff, some.injEq]
      exact or_congr_left (and_congr_right fun _ => eq_comm)

theorem finish_of_not_has (answer : Option (Option RepoInfo)) (h : s.deny.entries.has e.key = false) :
    (s.finish e answer).deny = s.deny ∧ (s.finish e answer).stored = s.stored := by
  simp [System.finish, State.readEntry, h]

theorem Inv.step (h : Inv s) (hstep : s.step p cfg act = some s') : Inv s' := by
  rcases System.step_cases hstep with ⟨⟨hentries, hresolved, hids⟩, hstored⟩ |
    ⟨entries, -, ⟨hentries, hresolved, hids⟩, hstored⟩ | ⟨e, answer, hdeny, hstored⟩
  · have hsame : s'.stored = s.stored := by
      rcases hstored with hstored | hstored
      · exact hstored
      · rw [hstored, hentries, stored_filter_eq h]
    refine ⟨?_, ?_, ?_⟩
    · rw [hsame, hentries]
      exact h.listed
    · rw [hsame, hresolved]
      exact h.resolved
    · rw [hsame, hids]
      exact h.ids
  · have hkept : ∀ k r id, s'.deny.resolved.lookup k = some r → r.repoId = some id → (k, id) ∈ s'.stored := by
      intro k r id hk hid
      rw [hresolved, lookup_filter, filter_eq_some_iff] at hk
      rw [hstored]
      exact mem_filter.mpr ⟨h.resolved k r id hk.1 hid, hk.2⟩
    refine ⟨fun x hx => ?_, hkept, fun id hid => ?_⟩
    · rw [hstored] at hx
      rw [hentries]
      exact (mem_filter.mp hx).2
    · rw [hids] at hid
      obtain ⟨k, r, hk, hr⟩ := mem_idsOf.mp hid
      exact ⟨k, hkept k r id hk hr⟩
  · cases hhas : s.deny.entries.has e.key with
    | false =>
      obtain ⟨hdeny', hstored'⟩ := finish_of_not_has answer hhas
      rw [hdeny'] at hdeny
      rw [hstored'] at hstored
      exact ⟨by rw [hstored, hdeny]; exact h.listed, by rw [hstored, hdeny]; exact h.resolved, by rw [hstored, hdeny]; exact h.ids⟩
    | true =>
      obtain ⟨hentries, hresolved, hids, hmem⟩ := finish_of_has answer hhas
      refine ⟨fun x hx => ?_, fun k r id hk hr => ?_, fun id hid => ?_⟩
      · rw [hdeny, hentries]
        rw [hstored, hmem] at hx
        rcases hx with ⟨hx, -⟩ | hx
        · rw [hx, hhas]
        · exact h.listed x hx
      · rw [hstored, hmem]
        rw [hdeny, hresolved, lookup_insert] at hk
        split_ifs at hk with heq
        · obtain rfl := some.inj hk
          exact .inl ⟨heq, hr⟩
        · exact .inr (h.resolved k r id hk hr)
      · rw [hdeny, hids] at hid
        rcases hid with hid | hid
        · exact ⟨e.key, by rw [hstored, hmem]; exact .inl ⟨rfl, hid⟩⟩
        · obtain ⟨k, hk⟩ := h.ids id hid
          exact ⟨k, by rw [hstored, hmem]; exact .inr hk⟩

theorem Refused.step (h : Refused s) (hact : Meets p cfg s act) (hstep : s.step p cfg act = some s') : Refused s' := by
  intro x hx
  rcases System.step_cases hstep with ⟨⟨-, -, hids⟩, hstored⟩ |
    ⟨entries, happlies, ⟨-, hresolved, hids⟩, hstored⟩ | ⟨e, answer, hdeny, hstored⟩
  · have hx' : x ∈ s.stored := by
      rcases hstored with hstored | hstored
      · exact hstored ▸ hx
      · rw [hstored] at hx
        exact (mem_filter.mp hx).1
    rw [hids]
    exact h x hx'
  · rw [hstored] at hx
    obtain ⟨hx, hhas⟩ := mem_filter.mp hx
    obtain ⟨k, r, hk, hlookup, hr⟩ := hact entries happlies x hx hhas
    rw [hids, mem_idsOf]
    refine ⟨k, r, ?_, hr⟩
    rw [hresolved, lookup_filter, hlookup, filter_some_pos (p := fun _ => entries.has k) hk]
  · cases hhas : s.deny.entries.has e.key with
    | false =>
      obtain ⟨hdeny', hstored'⟩ := finish_of_not_has answer hhas
      rw [hdeny, hdeny']
      exact h x (hstored' ▸ hstored ▸ hx)
    | true =>
      obtain ⟨-, -, hids, hmem⟩ := finish_of_has answer hhas
      rw [hdeny, hids]
      rw [hstored, hmem] at hx
      exact hx.imp And.right (h x)

theorem Run.inv {P : System → Act → Prop} (h : Run p cfg P s) : Inv s := by
  induction h with
  | start => exact ⟨by simp, fun k r id hk => by simp [lookup_empty] at hk, by simp⟩
  | step _ _ hstep ih => exact ih.step hstep

theorem Run.refused (h : Run p cfg (Meets p cfg) s) : Refused s := by
  induction h with
  | start => exact fun x hx => by simp at hx
  | step _ hact hstep ih => exact ih.step hact hstep

/-- A list with an entry is not empty. -/
theorem Entries.isEmpty_of_has {entries : Entries} {k : Key} (h : entries.has k = true) : entries.isEmpty = false := by
  obtain ⟨owner, howner⟩ := isSome_iff_exists.mp h
  have hpos := length_pos_of_mem (lookup_eq_some_iff.mp howner)
  rw [Entries.isEmpty, Entries.len, decide_eq_false_iff_not]
  omega

end Steps

/-- While every list has the name a repository was read for, the repository is refused, however it is asked for, in
every run whose reloads find what was stored. In any run a repository is refused only by its id, its owner's id, its
name, or a listed name that was read as it. A file that cannot be read, or is too large, changes nothing. -/
theorem deny_spec (p : Platform) (cfg : Config) :
    (∀ s, Run p cfg (Meets p cfg) s → ∀ x ∈ s.stored, ∀ info : RepoInfo, info.repoId = x.2 →
      ∀ owner name, s.deny.denies p info owner name = true) ∧
    (∀ s, Run p cfg (fun _ _ => True) s → ∀ info owner name, s.deny.denies p info owner name = true →
      info.repoId ∈ s.deny.entries.ids ∨ info.ownerId ∈ s.deny.entries.ids ∨ s.deny.entries.names p owner name = true ∨
        s.deny.entries.names p info.ownerId info.name = true ∨
        ∃ k, s.deny.entries.has k = true ∧ (k, info.repoId) ∈ s.stored) ∧
    ∀ st force file, ((∃ e, file.metadata = .error e) ∨
      (∃ m len, file.metadata = .ok (m, len) ∧ maxFileBytes < len) ∨ ∃ e, file.text = .error e) →
      SameList st (load p cfg st force file).1 := by
  refine ⟨fun s hrun x hx info hinfo owner name => ?_, fun s hrun info owner name hdenies => ?_,
    fun st force file => load_of_unreadable force⟩
  · have hid : info.repoId ∈ s.deny.resolvedIds := hinfo ▸ hrun.refused x hx
    simp [State.denies, Entries.isEmpty_of_has (hrun.inv.listed x hx), hid]
  · simp only [State.denies, Bool.and_eq_true, Bool.or_eq_true, decide_eq_true_eq] at hdenies
    obtain ⟨-, (((hid | howner) | hresolved) | hname) | hname⟩ := hdenies
    · exact .inl hid
    · exact .inr (.inl howner)
    · obtain ⟨k, hk⟩ := hrun.inv.ids _ hresolved
      exact .inr (.inr (.inr (.inr ⟨k, hrun.inv.listed _ hk, hk⟩)))
    · exact .inr (.inr (.inl hname))
    · exact .inr (.inr (.inr (.inl hname)))

/-- Names in lower case, with the letters that look alike as one. -/
def platformSample : Platform where
  decodesIdentifier s := s.utf8ByteSize = 44
  dpnsNormalize s := String.ofList (s.toList.map fun c => if c = 'o' then '0' else if c = 'i' ∨ c = 'l' then '1' else c)

def configSample : Config where
  path := some "deny"
  every := 5000
  settle := 1000

def fileSample (modified : ℕ) (text : String) : FileView where
  metadata := .ok (some modified, text.utf8ByteSize)
  age := some 2000
  text := .ok text

def entrySample : NamedEntry := ⟨⟨.name "a11ce", "project"⟩, "alice", "project"⟩

def infoSample : RepoInfo where
  repoId := "29d2S7vB453rNYFdR5Ycwt7y9haRT5fwVwL9zTmBhfV2"
  ownerId := "3JF3sEqM796hk5WFqA6EtmEwJQ9quALszsfJyvXNQKy3"
  name := "project"

/-- The system with a list that has one name. -/
def listedSample : System :=
    System.withDeny {} (reloadNow platformSample configSample {} 0 (fileSample 1 "alice/project")).1

/-- Where each stored id is still what its name is resolved to, a step meets the condition. -/
theorem meets_of_resolved {p : Platform} {cfg : Config} {s : System} {act : Act}
    (h : ∀ x ∈ s.stored, ∃ r ∈ s.deny.resolved.lookup x.1, r.repoId = some x.2) : Meets p cfg s act := by
  intro entries _ x hx hhas
  obtain ⟨r, hr, hid⟩ := h x hx
  exact ⟨x.1, r, hhas, hr, hid⟩

/-- The listed name is read as a repository, and the list is loaded again: the repository is refused, whatever name it
is asked for by. -/
theorem deny_spec_sample : ∃ s, Run platformSample configSample (Meets platformSample configSample) s ∧
    (entrySample.key, infoSample.repoId) ∈ s.stored ∧
    ∀ owner name, s.deny.denies platformSample infoSample owner name = true := by
  let answer : Option (Option RepoInfo) := some (some infoSample)
  let published : System := { listedSample with upstream := fun _ _ => some infoSample }
  let found : System := { published.finish entrySample answer with reads := [] }
  have hlisted : Run platformSample configSample (Meets platformSample configSample) listedSample :=
    @Run.step _ _ _ _ _ (.reload (fileSample 1 "alice/project")) .start (meets_of_resolved (by decide +kernel)) rfl
  have hpublished : Run platformSample configSample (Meets platformSample configSample) published :=
    @Run.step _ _ _ _ _ (.publish fun _ _ => some infoSample) hlisted (meets_of_resolved (by decide +kernel)) rfl
  have hasked := @Run.step _ _ _ _ { published with reads := [⟨entrySample, none⟩] } (.start entrySample) hpublished
    (meets_of_resolved (by decide +kernel)) rfl
  have hanswered := @Run.step _ _ _ _ { published with reads := [⟨entrySample, some answer⟩] } (.answer 0 false) hasked
    (meets_of_resolved (by decide +kernel)) rfl
  have hfound := @Run.step _ _ _ _ found (.finish 0) hanswered (meets_of_resolved (by decide +kernel)) rfl
  have hreloaded := @Run.step _ _ _ _ _ (.reload (fileSample 2 "alice/project # notice 1")) hfound
    (meets_of_resolved (by decide +kernel)) rfl
  have hstored : (entrySample.key, infoSample.repoId) ∈ (found.withDeny (reloadNow platformSample configSample
      found.deny found.clock (fileSample 2 "alice/project # notice 1")).1).stored := by decide +kernel
  exact ⟨_, hreloaded, hstored, (deny_spec platformSample configSample).1 _ hreloaded _ hstored infoSample rfl⟩

/-! ### What is served -/

/-- The reads that an act ends: the name and the answer. -/
def System.ended (s : System) : Act → List (NamedEntry × Option (Option RepoInfo))
  | .finish i => (s.reads[i]?.bind fun r => r.answer.map fun answer => (r.entry, answer)).toList
  | _ => []

/-- Runs in which no list is applied, with the reads that end in them. -/
inductive Settling (p : Platform) (cfg : Config) (s : System) :
    List (NamedEntry × Option (Option RepoInfo)) → System → Prop
  | start : Settling p cfg s [] s
  | step {s₁ s₂ : System} {ended : List (NamedEntry × Option (Option RepoInfo))} {act : Act}
      (h : Settling p cfg s ended s₁) (hact : ∀ entries, ¬Applies p cfg s₁ act entries)
      (hstep : s₁.step p cfg act = some s₂) : Settling p cfg s (ended ++ s₁.ended act) s₂

section Served

variable {p : Platform} {cfg : Config} {s s' : System} {act : Act} {e : NamedEntry} {info : RepoInfo}
  {owner asked name : String} {ended : List (NamedEntry × Option (Option RepoInfo))}

/-- What a listed name is resolved to is refused, in every run. -/
theorem Run.resolved_refused {P : System → Act → Prop} (h : Run p cfg P s) :
    ∀ k r id, s.deny.resolved.lookup k = some r → r.repoId = some id → id ∈ s.deny.resolvedIds := by
  induction h with
  | start => exact fun k r id hk => by simp [lookup_empty] at hk
  | @step s _ _ _ _ hstep ih =>
    intro k r id hk hr
    rcases System.step_cases hstep with ⟨⟨-, hresolved, hids⟩, -⟩ | ⟨entries, -,
      ⟨-, -, hids⟩, -⟩ | ⟨e, answer, hdeny, -⟩
    · rw [hids]
      exact ih k r id (hresolved ▸ hk) hr
    · rw [hids]
      exact mem_idsOf.mpr ⟨k, r, hk, hr⟩
    · rw [hdeny] at hk ⊢
      cases hhas : s.deny.entries.has e.key with
      | false =>
        rw [(finish_of_not_has answer hhas).1] at hk ⊢
        exact ih k r id hk hr
      | true =>
        obtain ⟨-, hresolved, hids, -⟩ := finish_of_has answer hhas
        rw [hresolved, lookup_insert] at hk
        rw [hids]
        split_ifs at hk
        · obtain rfl := some.inj hk
          exact .inl hr
        · exact .inr (ih k r id hk hr)

/-- A step that applies no list refuses what was refused, and what the read that it ends found. -/
theorem step_of_not_applies (hact : ∀ entries, ¬Applies p cfg s act entries) (hstep : s.step p cfg act = some s') :
    s'.deny.entries = s.deny.entries ∧ s.deny.resolvedIds ⊆ s'.deny.resolvedIds ∧
      ∀ e found, (e, some (some found)) ∈ s.ended act → s.deny.entries.has e.key = true →
        found.repoId ∈ s'.deny.resolvedIds := by
  have hfinish : ∀ e answer, s'.deny = (s.finish e answer).deny →
      s'.deny.entries = s.deny.entries ∧ s.deny.resolvedIds ⊆ s'.deny.resolvedIds := by
    intro e answer hdeny
    rw [hdeny]
    cases hhas : s.deny.entries.has e.key with
    | false =>
      rw [(finish_of_not_has answer hhas).1]
      exact ⟨rfl, subset_rfl⟩
    | true =>
      obtain ⟨hentries, -, hids, -⟩ := finish_of_has answer hhas
      exact ⟨hentries, fun id hid => (hids id).mpr (.inr hid)⟩
  have hkept : s'.deny.entries = s.deny.entries ∧ s.deny.resolvedIds ⊆ s'.deny.resolvedIds := by
    rcases System.step_cases hstep with ⟨⟨hentries, -, hids⟩, -⟩ | ⟨entries, happlies, -⟩ | ⟨e, answer, hdeny, -⟩
    · exact ⟨hentries, hids.symm.subset⟩
    · exact absurd happlies (hact entries)
    · exact hfinish e answer hdeny
  refine ⟨hkept.1, hkept.2, fun e found hended hhas => ?_⟩
  cases act with
  | finish i =>
    simp only [System.step, bind_eq_bind, bind_eq_some_iff] at hstep
    obtain ⟨r, hr, answer, hanswer, hstep⟩ := hstep
    obtain rfl := some.inj hstep
    obtain ⟨rfl, rfl⟩ : e = r.entry ∧ some (some found) = answer := by simpa [System.ended, hr, hanswer] using hended
    obtain ⟨-, -, hids, -⟩ := finish_of_has (some (some found)) hhas
    exact (hids _).mpr (.inl rfl)
  | _ => cases hended

theorem Settling.spec (h : Settling p cfg s ended s') :
    s'.deny.entries = s.deny.entries ∧ s.deny.resolvedIds ⊆ s'.deny.resolvedIds ∧
      ∀ e found, (e, some (some found)) ∈ ended → s.deny.entries.has e.key = true →
        found.repoId ∈ s'.deny.resolvedIds := by
  induction h with
  | start => exact ⟨rfl, subset_rfl, fun e found h => absurd h not_mem_nil⟩
  | step _ hact hstep ih =>
    obtain ⟨hentries, hids, hfound⟩ := ih
    obtain ⟨hentries', hids', hfound'⟩ := step_of_not_applies hact hstep
    refine ⟨hentries'.trans hentries, hids.trans hids', fun e found hmem hhas => ?_⟩
    rcases mem_append.mp hmem with hmem | hmem
    · exact hids' (hfound e found hmem hhas)
    · exact hfound' e found hmem (by rwa [hentries])

/-- **What is served is told from what is listed.** Where a repository is not refused once the listed names it might
stand for were read, whatever else was read meanwhile, each listed name of its own name was read as another repository
or none since, or was resolved to another before, or found absent less than `absentRecheck` ago. -/
theorem served_spec {P : System → Act → Prop} (h : Run p cfg P s) (hsettling : Settling p cfg s ended s')
    (hname : nameKey info.name = some name)
    (hread : ∀ e ∈ s.deny.unsettledFor s.clock info, ∃ found, (e, some found) ∈ ended)
    (hserved : s'.deny.denies p info owner asked = false) (he : e ∈ s.deny.entries.namedEntriesCalled name) :
    (∃ found, (e, some found) ∈ ended ∧ found.map RepoInfo.repoId ≠ some info.repoId) ∨
      ∃ r, s.deny.resolved.lookup e.key = some r ∧ r.read = true ∧ r.repoId ≠ some info.repoId ∧
        (r.repoId = none → s.clock - r.time < absentRecheck) := by
  obtain ⟨hentries, hids, hfound⟩ := hsettling.spec
  have hhas : s.deny.entries.has e.key = true := by
    obtain ⟨x, hx, rfl⟩ := mem_map.mp he
    exact isSome_iff_exists.mpr ⟨x.2, lookup_eq_some_iff.mpr (mem_of_mem_filter hx)⟩
  have hnot : info.repoId ∉ s'.deny.resolvedIds := by
    intro hid
    simp [State.denies, hentries, Entries.isEmpty_of_has hhas, hid] at hserved
  by_cases hu : e ∈ s.deny.unsettledFor s.clock info
  · obtain ⟨found, hmem⟩ := hread e hu
    refine .inl ⟨found, hmem, fun heq => hnot ?_⟩
    obtain ⟨i, rfl, hi⟩ := map_eq_some_iff.mp heq
    exact hi ▸ hfound e i hmem hhas
  · -- Not read again, so what it was resolved to is what is refused.
    unfold State.unsettledFor at hu
    simp only [hname, mem_filter, he, true_and] at hu
    cases hlookup : s.deny.resolved.lookup e.key with
    | none => simp [hlookup] at hu
    | some r =>
      simp only [hlookup, Bool.or_eq_true, Bool.not_eq_true', Bool.and_eq_true, decide_eq_true_eq, not_or, not_and,
        Bool.not_eq_false, not_le] at hu
      exact .inr ⟨r, rfl, hu.1, fun heq => hnot (hids (h.resolved_refused _ r _ hlookup heq)), hu.2⟩

end Served

/-! ### A takedown that lapses -/

/-- The steps in which a read that found no repository ends after one that found it, and the file changes. -/
def actsSample : List Act :=
  [.reload (fileSample 1 "alice/project"), .start entrySample, .answer 0 false, .publish fun _ _ => some infoSample,
    .start entrySample, .answer 1 false, .finish 1, .finish 0, .reload (fileSample 2 "alice/project # notice 1")]

def System.run (p : Platform) (cfg : Config) (s : System) (acts : List Act) : Option System :=
  acts.foldlM (System.step p cfg) s

theorem Run.of_run {p : Platform} {cfg : Config} {s s' : System} {acts : List Act} (hs : Run p cfg (fun _ _ => True) s)
    (h : s.run p cfg acts = some s') : Run p cfg (fun _ _ => True) s' := by
  induction acts generalizing s with
  | nil =>
    obtain rfl := some.inj h
    exact hs
  | cons act acts ih =>
    rw [System.run, foldlM_cons, bind_eq_bind, bind_eq_some_iff] at h
    obtain ⟨s₁, hstep, hrest⟩ := h
    exact ih (.step hs trivial hstep) hrest

/-- A listed repository is served again: it is not refused, and no entry is left to settle for it. -/
theorem takedown_lapses : ∃ s, Run platformSample configSample (fun _ _ => True) s ∧
    (entrySample.key, infoSample.repoId) ∈ s.stored ∧ s.deny.entries.has entrySample.key = true ∧
    s.deny.deniesRequest platformSample infoSample.ownerId infoSample.name = false ∧
    s.deny.denies platformSample infoSample infoSample.ownerId infoSample.name = false ∧
    s.deny.unsettledFor s.clock infoSample = [] := by
  have hacts : ((System.run platformSample configSample {} actsSample).any fun s =>
      (entrySample.key, infoSample.repoId) ∈ s.stored && s.deny.entries.has entrySample.key &&
      !s.deny.deniesRequest platformSample infoSample.ownerId infoSample.name &&
      !s.deny.denies platformSample infoSample infoSample.ownerId infoSample.name &&
      s.deny.unsettledFor s.clock infoSample = []) = true := by
    decide +kernel
  obtain ⟨s, hs, hend⟩ := Option.any_eq_true _ _ |>.mp hacts
  simp only [Bool.and_eq_true, decide_eq_true_eq, Bool.not_eq_true'] at hend
  obtain ⟨⟨⟨⟨hstored, hhas⟩, hrequest⟩, hdenies⟩, hsettled⟩ := hend
  exact ⟨s, .of_run .start hs, hstored, hhas, hrequest, hdenies, hsettled⟩

/-- The listed name is read, and stands for no repository. -/
theorem served_spec_sample :
    (∃ found, (entrySample, some found) ∈ [(entrySample, some none)] ∧
        found.map RepoInfo.repoId ≠ some infoSample.repoId) ∨
      ∃ r, listedSample.deny.resolved.lookup entrySample.key = some r ∧ r.read = true ∧
        r.repoId ≠ some infoSample.repoId ∧ (r.repoId = none → listedSample.clock - r.time < absentRecheck) := by
  have hquiet {s : System} {act : Act} (hact : (∀ f, act ≠ .reload f) ∧ ∀ f, act ≠ .fresh f) :
      ∀ entries, ¬Applies platformSample configSample s act entries := by
    rintro entries ⟨-, f, -, rfl | rfl, -⟩
    · exact hact.1 f rfl
    · exact hact.2 f rfl
  have hunsettled : listedSample.deny.unsettledFor listedSample.clock infoSample = [entrySample] := by decide +kernel
  let asked : System := { listedSample with reads := [⟨entrySample, none⟩] }
  let answered : System := { listedSample with reads := [⟨entrySample, some (some none)⟩] }
  have hsettling : Settling platformSample configSample listedSample [(entrySample, some none)]
      { answered.finish entrySample (some none) with reads := [] } :=
    @Settling.step _ _ _ answered _ [] (.finish 0)
      (@Settling.step _ _ _ asked _ [] (.answer 0 false)
        (@Settling.step _ _ _ listedSample _ [] (.start entrySample) .start (hquiet ⟨nofun, nofun⟩) rfl)
        (hquiet ⟨nofun, nofun⟩) rfl) (hquiet ⟨nofun, nofun⟩) rfl
  have hrun : Run platformSample configSample (fun _ _ => True) listedSample :=
    @Run.step _ _ _ _ _ (.reload (fileSample 1 "alice/project")) .start trivial rfl
  refine @served_spec platformSample configSample listedSample _ entrySample infoSample
    infoSample.ownerId "project" "project" _ _ hrun
    hsettling (by decide +kernel) (fun e he => ⟨none, ?_⟩) (by decide +kernel) (by decide +kernel)
  rw [hunsettled] at he
  simpa using he

end DashForge.Deny
