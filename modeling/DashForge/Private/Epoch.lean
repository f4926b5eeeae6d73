import DashForge.Private.KeyChain
import DashForge.Rules.Role
import Mathlib.Data.Finset.Sort

/-!
# Resolving the epochs of a repository

`resolveEpochs` decides from the memberships, configs and key wraps of a private repository which
epochs exist, which the reader can read and under which one the reader writes (`private/epoch.rs`).

`resolveEpochs_spec` is what a reader relies on: it returns, its keys are exactly those the accepted
wraps give and the key chain reaches, nothing in the result depends on the order of the documents, and
the write epoch is the current one, held, not burned and not wrapped to an outsider.
-/

namespace DashForge

open List Option

/-! ### The documents and the result -/

/-- A current membership document. -/
structure MemberRow where
  identity : Bytes
  role : Role
deriving DecidableEq, Repr

/-- A key wrap, with the key the reader recovered from it. -/
structure WrapRow (K : Type) where
  owner : Bytes
  memberId : Bytes
  epoch : ℕ
  keyEnabled : Bool
  key : Option K

namespace Alert

/-- The derived order of alerts, by variant and then by field. -/
def ordKey : Alert → ℕ ×ₗ ℕ ×ₗ Bytes ×ₗ List Bytes
  | keyMismatch e a => toLex (0, toLex (e, toLex (a, [])))
  | chainBroken e a => toLex (1, toLex (e, toLex (a, [])))
  | epochGap e a => toLex (2, toLex (e, toLex (a, [])))
  | publishedKeyMismatch e a => toLex (3, toLex (e, toLex (a, [])))
  | rotationRequired e ms => toLex (4, toLex (e, toLex ([], ms)))

theorem ordKey_injective : Function.Injective ordKey := by
  intro a b h
  cases a <;> cases b <;> simp_all [ordKey]

instance : LinearOrder Alert := LinearOrder.lift' ordKey ordKey_injective

/-- The order alerts are shown in. -/
def sortKey : Alert → ℕ ×ₗ ℕ ×ₗ Bytes
  | keyMismatch e a => toLex (e, toLex (0, a))
  | chainBroken e a => toLex (e, toLex (1, a))
  | epochGap e a => toLex (e, toLex (2, a))
  | rotationRequired e _ => toLex (e, toLex (3, replicate 32 0))
  | publishedKeyMismatch e a => toLex (e, toLex (4, a))

end Alert

/-- The repair check of the current epoch. -/
structure Repair where
  rotate : Bool
  /-- Wrapped identities that are not members. -/
  nonMembers : List Bytes
  /-- Members with no wrap to an enabled key. -/
  missingWraps : List Bytes
deriving DecidableEq, Repr

/-- Everything `resolveEpochs` decides. -/
structure EpochResolution (K : Type) where
  currentEpoch : Option ℕ
  anchors : List (ℕ × Anchor)
  keys : KeyMap K
  writeEpoch : Option ℕ
  burned : Finset ℕ
  unanchored : List ℕ
  alerts : List Alert
  repair : Option Repair
  members : Finset Bytes

/-! ### The resolution -/

section

variable {K : Type} (env : KeyEnv K)

def maintainersOf (memberships : List MemberRow) : Finset Bytes :=
  ((memberships.filter fun m => m.role == .maintainer).map MemberRow.identity).toFinset

def membersOf (memberships : List MemberRow) : Finset Bytes :=
  (memberships.map MemberRow.identity).toFinset

/-- The readable epochs whose anchor carries the burned flag; `none` where the source panics. -/
def burnedEpochs (first : List (ℕ × ConfigRow)) (keys : KeyMap K) : Option (Finset ℕ) :=
  if ∀ e ∈ keys.keys, (first.lookup e).isSome then
    some (keys.keys.filter fun e =>
      (keys.lookup e).any fun k => (openAt env first e k).join.any ConfigFields.burned)
  else none

/-- The repair check for the current epoch `n`; a burned `n` always rotates. -/
def repairCheck (n : ℕ) (burned : Bool) (wraps : List (WrapRow K))
    (maintainers members : Finset Bytes) : Repair :=
  let fromMaintainer := wraps.filter fun w => w.epoch == n && decide (w.owner ∈ maintainers)
  let wrapped := (fromMaintainer.map WrapRow.memberId).toFinset
  let enabled := ((fromMaintainer.filter WrapRow.keyEnabled).map WrapRow.memberId).toFinset
  let nonMembers := (wrapped \ members).sort
  let missingWraps := (members \ enabled).sort
  ⟨burned || !nonMembers.isEmpty, nonMembers, missingWraps⟩

/-- An anchor with the height its key was stated at. -/
def statedAnchor (s : ConfigRow × ℕ) : Anchor := { anchorOf s.1 with statedHeight := s.2 }

/-- The anchors of a selection. -/
def anchorsOf (selected : List (ℕ × ConfigRow × ℕ)) : List (ℕ × Anchor) :=
  selected.map fun s => (s.1, statedAnchor s.2)

/-- The anchor configs of a selection. -/
def firstOf (selected : List (ℕ × ConfigRow × ℕ)) : List (ℕ × ConfigRow) :=
  selected.map fun s => (s.1, s.2.1)

/-- Whether a key commits to the anchor of an epoch. -/
def commitsToAnchor (anchors : List (ℕ × Anchor)) (e : ℕ) (key : K) : Bool :=
  ((anchors.lookup e).bind Anchor.commit).any fun c => env.commitsTo e key c

/-- What the loop over the wraps has gathered. -/
structure WrapsRead (K : Type) where
  keys : KeyMap K
  starts : List ℕ
  alerts : Finset Alert

/-- One wrap: accepted if it is to the reader, by a current maintainer, for an existing epoch, and
its key commits to the anchor. -/
def readWrap (reader : Bytes) (maintainers : Finset Bytes) (anchors : List (ℕ × Anchor))
    (acc : WrapsRead K) (w : WrapRow K) : WrapsRead K :=
  match w.key with
  | none => acc
  | some key =>
    if w.memberId ≠ reader ∨ w.owner ∉ maintainers ∨ (anchors.lookup w.epoch).isNone then acc
    else if commitsToAnchor env anchors w.epoch key then
      { acc with keys := acc.keys.insert w.epoch key, starts := acc.starts ++ [w.epoch] }
    else { acc with alerts := insert (.keyMismatch w.epoch w.owner) acc.alerts }

/-- What is decided once the chain is walked: the burned epochs, the repair check, the alerts and the
write epoch. -/
def finishResolution (reader : Bytes) (maintainers members : Finset Bytes)
    (selected : List (ℕ × ConfigRow × ℕ)) (unanchored : List ℕ) (wraps : List (WrapRow K))
    (keys : KeyMap K) (walkAlerts : Finset Alert) : Option (EpochResolution K) := do
  let anchors := anchorsOf selected
  let currentEpoch := anchors.getLast?.map Prod.fst
  let burned ← burnedEpochs env (firstOf selected) keys
  let repair := currentEpoch.map fun n =>
    repairCheck n (decide (n ∈ burned)) wraps maintainers members
  let alerts :=
    match repair, currentEpoch with
    | some r, some n =>
      if r.rotate && decide (reader ∈ maintainers) then
        insert (Alert.rotationRequired n r.nonMembers) walkAlerts
      else walkAlerts
    | _, _ => walkAlerts
  let leaked := repair.any fun r => !r.nonMembers.isEmpty
  -- nothing is written under an epoch an outsider holds
  let writeEpoch := currentEpoch.filter fun n =>
    (keys.lookup n).isSome && !decide (n ∈ burned) && !leaked
  some
    { currentEpoch, anchors, keys, writeEpoch, burned, unanchored,
      alerts := sortByKey Alert.sortKey alerts.sort, repair, members }

/-- Resolve the epochs of a repository for `reader`; `none` where the source would panic or not
return. -/
def resolveEpochs (reader : Bytes) (memberships : List MemberRow) (configs : List ConfigRow)
    (wraps : List (WrapRow K)) : Option (EpochResolution K) := do
  let maintainers := maintainersOf memberships
  let selected := (selectAnchors configs maintainers).1
  let gaps := (selectAnchors configs maintainers).2
  let anchors := anchorsOf selected
  let unanchored := sortedDistinct ((configs.map ConfigRow.epoch ++ wraps.map WrapRow.epoch).filter
    fun e => (anchors.lookup e).isNone)
  let gapAlerts := (gaps.map fun c => Alert.epochGap c.epoch c.owner).toFinset
  let read := wraps.foldl (readWrap env reader maintainers anchors) ⟨∅, [], gapAlerts⟩
  let walked ← walkAll env (firstOf selected) (commitsToAnchor env anchors) read.starts read.keys
    read.alerts
  finishResolution env reader maintainers (membersOf memberships) selected unanchored wraps walked.1
    walked.2

/-! ### Reading the wraps -/

/-- The wrap gives the reader the key `k` of its epoch. -/
structure Accepts (reader : Bytes) (maintainers : Finset Bytes) (anchors : List (ℕ × Anchor))
    (w : WrapRow K) (k : K) : Prop where
  key : w.key = some k
  toReader : w.memberId = reader
  byMaintainer : w.owner ∈ maintainers
  commits : commitsToAnchor env anchors w.epoch k = true

/-- The epochs and keys of the accepted wraps. -/
def acceptedWraps (reader : Bytes) (maintainers : Finset Bytes) (anchors : List (ℕ × Anchor))
    (wraps : List (WrapRow K)) : Set (ℕ × K) :=
  {x | ∃ w ∈ wraps, w.epoch = x.1 ∧ Accepts env reader maintainers anchors w x.2}

/-- A wrap to the reader whose key does not commit to its epoch's anchor. -/
structure Mismatched (reader : Bytes) (maintainers : Finset Bytes) (anchors : List (ℕ × Anchor))
    (w : WrapRow K) : Prop where
  toReader : w.memberId = reader
  byMaintainer : w.owner ∈ maintainers
  anchored : (anchors.lookup w.epoch).isSome
  mismatch : ∃ k, w.key = some k ∧ commitsToAnchor env anchors w.epoch k = false

variable {env}

variable {anchors : List (ℕ × Anchor)} {e : ℕ} {k : K} {selected : List (ℕ × ConfigRow × ℕ)} {reader : Bytes}
  {wraps wraps' : List (WrapRow K)}

theorem commitsToAnchor_iff : commitsToAnchor env anchors e k = true ↔
      ∃ a, anchors.lookup e = some a ∧ ∃ c, a.commit = some c ∧ env.commitsTo e k c := by
  simp only [commitsToAnchor, Option.any_eq_true, bind_eq_some_iff]
  grind

theorem commitsToAnchor_unique (hbind : env.Binding)
    {k' : K} (h : commitsToAnchor env anchors e k) (h' : commitsToAnchor env anchors e k') : k = k' := by
  obtain ⟨a, ha, c, hc, hk⟩ := commitsToAnchor_iff.mp h
  obtain ⟨a', ha', c', hc', hk'⟩ := commitsToAnchor_iff.mp h'
  obtain rfl := some.inj (ha.symm.trans ha')
  obtain rfl := some.inj (hc.symm.trans hc')
  exact hbind e k k' c hk hk'

section Read

variable {reader : Bytes} {maintainers : Finset Bytes} {anchors : List (ℕ × Anchor)}

/-- What one wrap does: it is accepted, raises a mismatch, or is passed over. -/
theorem readWrap_cases (acc : WrapsRead K) (w : WrapRow K) : (∃ k, Accepts env reader maintainers anchors w k ∧
      ¬Mismatched env reader maintainers anchors w ∧ readWrap env reader maintainers anchors acc w =
        { acc with keys := acc.keys.insert w.epoch k, starts := acc.starts ++ [w.epoch] }) ∨
    ((∀ k, ¬Accepts env reader maintainers anchors w k) ∧ ((Mismatched env reader maintainers anchors w ∧
        readWrap env reader maintainers anchors acc w =
          { acc with alerts := insert (.keyMismatch w.epoch w.owner) acc.alerts }) ∨
      (¬Mismatched env reader maintainers anchors w ∧ readWrap env reader maintainers anchors acc w = acc))) := by
  cases hkey : w.key with
  | none =>
    refine .inr ⟨fun k h => by simp [h.key] at hkey, .inr ⟨fun h => ?_, by simp [readWrap, hkey]⟩⟩
    obtain ⟨k, hk, -⟩ := h.mismatch
    simp [hk] at hkey
  | some key =>
    by_cases hpass : w.memberId ≠ reader ∨ w.owner ∉ maintainers ∨ (anchors.lookup w.epoch).isNone = true
    · refine .inr ⟨fun k h => ?_, .inr ⟨fun h => ?_, by simp only [readWrap, hkey, if_pos hpass]⟩⟩
      · obtain ⟨a, ha, -⟩ := commitsToAnchor_iff.mp h.commits
        simp [h.toReader, h.byMaintainer, ha] at hpass
      · have hsome := h.anchored
        simp [h.toReader, h.byMaintainer, isSome_iff_ne_none.mp hsome] at hpass
    · have hread : w.memberId = reader ∧ w.owner ∈ maintainers ∧ (anchors.lookup w.epoch).isSome := by
        simpa [isSome_iff_ne_none] using hpass
      obtain ⟨hto, hby, hanchored⟩ := hread
      cases hcommit : commitsToAnchor env anchors w.epoch key with
      | true =>
        refine .inl ⟨key, ⟨hkey, hto, hby, hcommit⟩, fun h => ?_, by
          simp only [readWrap, hkey, if_neg hpass, hcommit, if_true]⟩
        obtain ⟨k, hk, hne⟩ := h.mismatch
        obtain rfl := some.inj (hkey.symm.trans hk)
        simp [hcommit] at hne
      | false =>
        refine .inr ⟨fun k h => ?_, .inl ⟨⟨hto, hby, hanchored, key, hkey, hcommit⟩, by
          simp only [readWrap, hkey, if_neg hpass, hcommit, Bool.false_eq_true, if_false]⟩⟩
        obtain rfl := some.inj (hkey.symm.trans h.key)
        exact absurd h.commits (by simp [hcommit])

/-- What the loop over the wraps has gathered after `wraps`. -/
structure ReadSpec (env : KeyEnv K) (reader : Bytes) (maintainers : Finset Bytes)
    (anchors : List (ℕ × Anchor)) (base : Finset Alert) (wraps : List (WrapRow K))
    (r : WrapsRead K) : Prop where
  keys : r.keys.held = acceptedWraps env reader maintainers anchors wraps
  starts : ∀ e, e ∈ r.starts ↔ ∃ k, r.keys.lookup e = some k
  alerts : ∀ a, a ∈ r.alerts ↔ a ∈ base ∨
    ∃ w ∈ wraps, Mismatched env reader maintainers anchors w ∧ a = .keyMismatch w.epoch w.owner

theorem mem_acceptedWraps_concat {wraps : List (WrapRow K)} {w : WrapRow K} {x : ℕ × K} :
    x ∈ acceptedWraps env reader maintainers anchors (wraps ++ [w]) ↔
      x ∈ acceptedWraps env reader maintainers anchors wraps ∨
        (w.epoch = x.1 ∧ Accepts env reader maintainers anchors w x.2) := by
  simp only [acceptedWraps, Set.mem_ofPred_eq, mem_append, mem_singleton]
  grind

theorem foldl_readWrap_spec (hbind : env.Binding) (base : Finset Alert) (wraps : List (WrapRow K)) :
    ReadSpec env reader maintainers anchors base wraps
      (wraps.foldl (readWrap env reader maintainers anchors) ⟨∅, [], base⟩) := by
  induction wraps using reverseRecOn with
  | nil =>
    refine ⟨Set.ext fun x => ?_, by simp, by simp⟩
    simp [KeyMap.held, acceptedWraps]
  | append_singleton wraps w ih =>
    rw [foldl_concat]
    generalize wraps.foldl (readWrap env reader maintainers anchors) ⟨∅, [], base⟩ = acc at ih
    have hheld : ∀ e k, acc.keys.lookup e = some k ↔
        (e, k) ∈ acceptedWraps env reader maintainers anchors wraps := fun e k => by
      rw [← ih.keys]; rfl
    rcases readWrap_cases acc w with ⟨k, hacc, hmis, heq⟩ | ⟨hacc, ⟨hmis, heq⟩ | ⟨hmis, heq⟩⟩
    · rw [heq]
      refine ⟨Set.ext fun x => ?_, fun e => ?_, fun a => ?_⟩
      · obtain ⟨e, k'⟩ := x
        rw [mem_acceptedWraps_concat]
        change (acc.keys.insert w.epoch k).lookup e = some k' ↔ _
        by_cases he : e = w.epoch
        · subst he
          rw [Finmap.lookup_insert, some.injEq]
          constructor
          · rintro rfl
            exact .inr ⟨rfl, hacc⟩
          · rintro (⟨w', -, hepoch, hacc'⟩ | ⟨-, hacc'⟩)
            · have hcommits := hacc'.commits
              rw [show w'.epoch = w.epoch from hepoch] at hcommits
              exact commitsToAnchor_unique hbind hacc.commits hcommits
            · exact commitsToAnchor_unique hbind hacc.commits hacc'.commits
        · rw [Finmap.lookup_insert_of_ne _ he, hheld]
          simp [Ne.symm he]
      · simp only [mem_append, mem_singleton, ih.starts]
        by_cases he : e = w.epoch
        · subst he
          simp [Finmap.lookup_insert]
        · simp [Finmap.lookup_insert_of_ne _ he, he]
      · simp only [ih.alerts]
        grind
    · rw [heq]
      refine ⟨Set.ext fun x => ?_, ih.starts, fun a => ?_⟩
      · rw [mem_acceptedWraps_concat, ← ih.keys]
        simp [hacc]
      · simp only [Finset.mem_insert, ih.alerts]
        grind
    · rw [heq]
      refine ⟨Set.ext fun x => ?_, ih.starts, fun a => ?_⟩
      · rw [mem_acceptedWraps_concat, ← ih.keys]
        simp [hacc]
      · simp only [ih.alerts]
        grind

end Read

/-! ### The result -/

theorem lookup_map_snd {β γ : Type} (f : β → γ) (l : List (ℕ × β)) (e : ℕ) :
    (l.map fun x => (x.1, f x.2)).lookup e = (l.lookup e).map f := by
  induction l with
  | nil => rfl
  | cons x l ih =>
    obtain ⟨e', b⟩ := x
    rw [map_cons, lookup_cons, lookup_cons, ih]
    cases e == e' <;> rfl

/-- Every epoch a key commits to has an anchor config. -/
theorem exists_first_of_commits (e : ℕ) (k : K) (h : commitsToAnchor env (anchorsOf selected) e k) :
    ∃ c, (firstOf selected).lookup e = some c := by
  obtain ⟨a, ha, -⟩ := commitsToAnchor_iff.mp h
  rw [anchorsOf, lookup_map_snd] at ha
  obtain ⟨s, hs, -⟩ := map_eq_some_iff.mp ha
  exact ⟨s.1, by rw [firstOf, lookup_map_snd, hs]; rfl⟩

section Outcome

variable {reader : Bytes} {maintainers : Finset Bytes} {selected : List (ℕ × ConfigRow × ℕ)}

/-- What the wraps and the chain below them leave: the keys reached, and the alerts of the gaps, the
mismatched wraps and the broken links. -/
structure WalkOutcome (env : KeyEnv K) (reader : Bytes) (maintainers : Finset Bytes)
    (selected : List (ℕ × ConfigRow × ℕ)) (gapAlerts : Finset Alert) (wraps : List (WrapRow K))
    (keys : KeyMap K) (alerts : Finset Alert) : Prop where
  held : keys.held = Reached env (firstOf selected) (commitsToAnchor env (anchorsOf selected))
    (acceptedWraps env reader maintainers (anchorsOf selected) wraps)
  raised : ∀ a, a ∈ alerts ↔ (a ∈ gapAlerts ∨ ∃ w ∈ wraps,
      Mismatched env reader maintainers (anchorsOf selected) w ∧
        a = .keyMismatch w.epoch w.owner) ∨
    ∃ e k c, keys.lookup e = some k ∧ (firstOf selected).lookup e = some c ∧
      (chainLink env (firstOf selected) (commitsToAnchor env (anchorsOf selected)) e k).isBroken ∧
        a = .chainBroken e c.owner

variable (reader maintainers selected) in
/-- The wraps are read and the chain is walked without a panic. -/
theorem exists_walkOutcome (hbind : env.Binding) (gapAlerts : Finset Alert) (wraps : List (WrapRow K)) :
    let read := wraps.foldl (readWrap env reader maintainers (anchorsOf selected)) ⟨∅, [], gapAlerts⟩
    ∃ keys alerts, walkAll env (firstOf selected) (commitsToAnchor env (anchorsOf selected))
        read.starts read.keys read.alerts = some (keys, alerts) ∧
      WalkOutcome env reader maintainers selected gapAlerts wraps keys alerts := by
  intro read
  have hread : ReadSpec env reader maintainers (anchorsOf selected) gapAlerts wraps read :=
    foldl_readWrap_spec hbind gapAlerts wraps
  obtain ⟨keys, alerts, hrun, hkeys, halerts⟩ := walkAll_spec read.alerts
    exists_first_of_commits (fun _ _ _ => commitsToAnchor_unique hbind) hread.starts fun x hx => by
      rw [hread.keys] at hx
      obtain ⟨w, -, hepoch, hacc⟩ := hx
      exact hepoch ▸ hacc.commits
  refine ⟨keys, alerts, hrun, ?_, fun a => ?_⟩
  · rw [hkeys, hread.keys]
  · rw [halerts, hread.alerts]

variable {keys keys' : KeyMap K} {wraps wraps' : List (WrapRow K)}

theorem KeyMap.eq_of_held (h : keys.held = keys'.held) : keys = keys' := by
  refine Finmap.ext_lookup fun e => Option.ext fun k => ?_
  exact Set.ext_iff.mp h (e, k)

theorem WalkOutcome.unique {gapAlerts : Finset Alert} {alerts alerts' : Finset Alert}
    (h : WalkOutcome env reader maintainers selected gapAlerts wraps keys alerts)
    (h' : WalkOutcome env reader maintainers selected gapAlerts wraps' keys' alerts')
    (hp : wraps'.Perm wraps) : keys = keys' ∧ alerts = alerts' := by
  have hacc : acceptedWraps env reader maintainers (anchorsOf selected) wraps' =
      acceptedWraps env reader maintainers (anchorsOf selected) wraps := by
    simp [acceptedWraps, hp.mem_iff]
  have hkeys : keys = keys' := KeyMap.eq_of_held (by rw [h.held, h'.held, hacc])
  subst hkeys
  refine ⟨rfl, Finset.ext fun a => ?_⟩
  simp [h.raised, h'.raised, hp.mem_iff]

theorem repairCheck_eq_of_perm (hp : wraps'.Perm wraps) (n : ℕ) (burned : Bool) (maintainers members : Finset Bytes) :
    repairCheck n burned wraps' maintainers members = repairCheck n burned wraps maintainers members := by
  have hfrom := hp.filter fun w => w.epoch == n && decide (w.owner ∈ maintainers)
  have hwrapped := toFinset_eq_of_perm _ _ (hfrom.map WrapRow.memberId)
  have henabled := toFinset_eq_of_perm _ _
    ((hfrom.filter WrapRow.keyEnabled).map WrapRow.memberId)
  simp only [repairCheck, hwrapped, henabled]

theorem mem_repairCheck_nonMembers {n : ℕ} {burned : Bool} {members : Finset Bytes} {b : Bytes} :
    b ∈ (repairCheck n burned wraps maintainers members).nonMembers ↔
      b ∉ members ∧ ∃ w ∈ wraps, w.epoch = n ∧ w.owner ∈ maintainers ∧ w.memberId = b := by
  simp only [repairCheck, Finset.mem_sort, Finset.mem_sdiff, List.mem_toFinset, List.mem_map,
    mem_filter, Bool.and_eq_true, beq_iff_eq, decide_eq_true_eq]
  grind

variable (env) in
theorem burnedEpochs_spec {first : List (ℕ × ConfigRow)}
    (hfirst : ∀ e k, keys.lookup e = some k → ∃ c, first.lookup e = some c) :
    ∃ burned, burnedEpochs env first keys = some burned ∧ ∀ e, e ∈ burned ↔ ∃ k f, keys.lookup e = some k ∧
        openAt env first e k = some (some f) ∧ f.burned = true := by
  have hall : ∀ e ∈ keys.keys, (first.lookup e).isSome = true := by
    intro e he
    obtain ⟨k, hk⟩ := Finmap.mem_iff.mp (Finmap.mem_keys.mp he)
    obtain ⟨c, hc⟩ := hfirst e k hk
    rw [hc, isSome_some]
  refine ⟨_, if_pos hall, fun e => ?_⟩
  simp only [Finset.mem_filter, Finmap.mem_keys, Finmap.mem_iff, Option.any_eq_true, join_eq_some_iff]
  grind

variable (env reader maintainers) in
/-- With an anchor for every key held, the resolution is finished without a panic. -/
theorem finishResolution_spec (members : Finset Bytes) (unanchored : List ℕ)
    (wraps : List (WrapRow K)) (walkAlerts : Finset Alert)
    (hfirst : ∀ e k, keys.lookup e = some k → ∃ c, (firstOf selected).lookup e = some c) :
    ∃ res, finishResolution env reader maintainers members selected unanchored wraps keys walkAlerts = some res ∧
      res.anchors = anchorsOf selected ∧ res.keys = keys ∧ (∀ e, e ∈ res.burned ↔ ∃ k f, keys.lookup e = some k ∧
        openAt env (firstOf selected) e k = some (some f) ∧ f.burned = true) ∧
      ∀ n, res.writeEpoch = some n ↔ res.currentEpoch = some n ∧ (∃ k, keys.lookup n = some k) ∧ n ∉ res.burned ∧
          ∀ w ∈ wraps, w.epoch = n → w.owner ∈ maintainers → w.memberId ∈ members := by
  obtain ⟨burned, hrun, hburned⟩ := burnedEpochs_spec env hfirst
  simp only [finishResolution, hrun, some_bind]
  refine ⟨_, rfl, rfl, rfl, hburned, fun n => ?_⟩
  simp only [filter_eq_some_iff]
  refine and_congr_right fun hn => ?_
  have hleak : (repairCheck n (decide (n ∈ burned)) wraps maintainers members).nonMembers = [] ↔
      ∀ w ∈ wraps, w.epoch = n → w.owner ∈ maintainers → w.memberId ∈ members := by
    rw [eq_nil_iff_forall_not_mem]
    simp only [mem_repairCheck_nonMembers]
    grind
  simp only [hn, map_some, any_some, Bool.and_eq_true, isSome_iff_exists,
    Bool.not_eq_true', decide_eq_false_iff_not, Bool.not_eq_false', List.isEmpty_iff, hleak, and_assoc]

end Outcome

/-! ### Order independence and the specification -/

variable {memberships memberships' : List MemberRow}

theorem maintainersOf_eq_of_perm
    (hp : memberships'.Perm memberships) : maintainersOf memberships' = maintainersOf memberships :=
  toFinset_eq_of_perm _ _ ((hp.filter _).map _)

theorem membersOf_eq_of_perm (hp : memberships'.Perm memberships) : membersOf memberships' = membersOf memberships :=
  toFinset_eq_of_perm _ _ (hp.map _)

theorem finishResolution_eq_of_perm {maintainers members : Finset Bytes} {unanchored : List ℕ}
    {keys : KeyMap K} {walkAlerts : Finset Alert} (hp : wraps'.Perm wraps) :
    finishResolution env reader maintainers members selected unanchored wraps' keys walkAlerts =
      finishResolution env reader maintainers members selected unanchored wraps keys walkAlerts := by
  simp [finishResolution, repairCheck_eq_of_perm hp]

/-- The whole result is the same for every order of the documents. -/
theorem resolveEpochs_eq_of_perm (hbind : env.Binding) {configs configs' : List ConfigRow}
    (hids : (configs.map ConfigRow.id).Nodup)
    (hm : memberships'.Perm memberships) (hc : configs'.Perm configs) (hw : wraps'.Perm wraps) :
    resolveEpochs env reader memberships' configs' wraps' = resolveEpochs env reader memberships configs wraps := by
  have hunanchored : ∀ keep : ℕ → Bool,
      sortedDistinct ((configs'.map ConfigRow.epoch ++ wraps'.map WrapRow.epoch).filter keep) =
        sortedDistinct ((configs.map ConfigRow.epoch ++ wraps.map WrapRow.epoch).filter keep) :=
    fun keep => sortByKey_eq_of_perm _ (((hc.map _).append (hw.map _)).filter _).dedup
      Function.injective_id.injOn
  simp only [resolveEpochs, maintainersOf_eq_of_perm hm, membersOf_eq_of_perm hm,
    selectAnchors_eq_of_perm hids hc, hunanchored]
  obtain ⟨keys, alerts, hrun, hout⟩ := exists_walkOutcome reader (maintainersOf memberships)
    (selectAnchors configs (maintainersOf memberships)).1 hbind
    ((selectAnchors configs (maintainersOf memberships)).2.map
      fun c => Alert.epochGap c.epoch c.owner).toFinset wraps
  obtain ⟨keys', alerts', hrun', hout'⟩ := exists_walkOutcome reader (maintainersOf memberships)
    (selectAnchors configs (maintainersOf memberships)).1 hbind
    ((selectAnchors configs (maintainersOf memberships)).2.map
      fun c => Alert.epochGap c.epoch c.owner).toFinset wraps'
  obtain ⟨rfl, rfl⟩ := hout.unique hout' hw
  simp [hrun, hrun', some_bind, finishResolution_eq_of_perm hw]

/-- A resolution returns. Its keys commit to the anchors of existing epochs and are the least set
that holds the accepted wraps and is closed under `ChainStep`; the result is the same for every order
of the documents; and the write epoch is the current epoch when it is readable, not burned, and
wrapped by current maintainers to members only. -/
theorem resolveEpochs_spec (env : KeyEnv K) (hbind : env.Binding) (reader : Bytes)
    (memberships : List MemberRow) (configs : List ConfigRow) (wraps : List (WrapRow K))
    (hids : (configs.map ConfigRow.id).Nodup) :
    let maintainers := maintainersOf memberships
    let selected := (selectAnchors configs maintainers).1
    ∃ res, resolveEpochs env reader memberships configs wraps = some res ∧
      res.anchors = anchorsOf selected ∧
      (∀ e k, res.keys.lookup e = some k →
        ∃ a, res.anchors.lookup e = some a ∧ ∃ c, a.commit = some c ∧ env.commitsTo e k c) ∧
      IsLeast
        (closedSets (ChainStep env (firstOf selected) (commitsToAnchor env (anchorsOf selected)))
          (acceptedWraps env reader maintainers (anchorsOf selected) wraps))
        res.keys.held ∧
      (∀ memberships' configs' wraps', memberships'.Perm memberships → configs'.Perm configs →
        wraps'.Perm wraps → resolveEpochs env reader memberships' configs' wraps' = some res) ∧
      (∀ e, e ∈ res.burned ↔ ∃ k f, res.keys.lookup e = some k ∧
        openAt env (firstOf selected) e k = some (some f) ∧ f.burned = true) ∧
      ∀ n, res.writeEpoch = some n ↔ res.currentEpoch = some n ∧
        (∃ k, res.keys.lookup n = some k) ∧ n ∉ res.burned ∧
          ∀ w ∈ wraps, w.epoch = n → w.owner ∈ maintainers →
            w.memberId ∈ membersOf memberships := by
  intro maintainers selected
  obtain ⟨keys, alerts, hrun, hout⟩ := exists_walkOutcome reader maintainers selected hbind
    ((selectAnchors configs maintainers).2.map fun c => Alert.epochGap c.epoch c.owner).toFinset
    wraps
  have hcommits : ∀ e k, keys.lookup e = some k →
      commitsToAnchor env (anchorsOf selected) e k = true := by
    intro e k hk
    refine Reached.commits (fun x hx => ?_) (hout.held.subset (show (e, k) ∈ keys.held from hk))
    obtain ⟨w, -, hepoch, hacc⟩ := hx
    exact hepoch ▸ hacc.commits
  obtain ⟨res, hfinish, hanchors, rfl, hburned, hwrite⟩ :=
    finishResolution_spec env reader maintainers (membersOf memberships)
      (sortedDistinct ((configs.map ConfigRow.epoch ++ wraps.map WrapRow.epoch).filter
        fun e => ((anchorsOf selected).lookup e).isNone)) wraps alerts
      fun e k hk => exists_first_of_commits e k (hcommits e k hk)
  have hres : resolveEpochs env reader memberships configs wraps = some res := by
    rw [← hfinish]
    simp only [resolveEpochs, hrun, selected, maintainers, Option.bind_eq_bind, Option.bind_some]
  refine ⟨res, hres, hanchors, fun e k hk => ?_, ?_, fun memberships' configs' wraps' hm hc hw => ?_,
    hburned, hwrite⟩
  · rw [hanchors]
    exact commitsToAnchor_iff.mp (hcommits e k hk)
  · rw [hout.held]
    exact isLeast_reached _
  · rw [resolveEpochs_eq_of_perm hbind hids hm hc hw, hres]

end

/-! ### A burned run -/

/-- The sealed config of `burnedRun` under a key. -/
def burnedRunEnc (k : UInt8) : Bytes := v2 :: replicate 60 k

/-- Keys of one byte, repeated as their own commitments. Epochs 0 and 1 are burned, and the skip key
of epoch 2 is that of epoch 0. -/
def burnedRun : KeyEnv UInt8 where
  commitsTo _ k c := c == replicate 32 k
  openWith e k _ enc :=
    if enc ≠ burnedRunEnc k then none
    else if e = 2 then some ⟨false, some 1, some 11, some 10⟩
    else some ⟨true, none, none, none⟩

def burnedRunConfigs : List ConfigRow :=
  [⟨[1], [1], 0, 5, burnedRunEnc 10⟩, ⟨[2], [1], 1, 8, burnedRunEnc 11⟩,
    ⟨[3], [1], 2, 11, burnedRunEnc 12⟩]

def burnedRunMembers : List MemberRow := [⟨[1], .maintainer⟩, ⟨[9], .reader⟩]

def burnedRunWraps : List (WrapRow UInt8) := [⟨[1], [9], 2, true, some 12⟩]

theorem burnedRun_binding : burnedRun.Binding := by
  intro e k k' commit h h'
  have hk : commit = replicate 32 k := by simpa [burnedRun] using h
  have hk' : commit = replicate 32 k' := by simpa [burnedRun] using h'
  exact ((replicate_inj).mp (hk.symm.trans hk')).2.resolve_left (by decide)

theorem resolveEpochs_spec_burnedRun :
    burnedRun.Binding ∧ (burnedRunConfigs.map ConfigRow.id).Nodup ∧
    ∃ res, resolveEpochs burnedRun [9] burnedRunMembers burnedRunConfigs burnedRunWraps = some res ∧
      res.keys.lookup 1 = some 11 ∧ res.writeEpoch = some 2 ∧
      ∀ e k, res.keys.lookup e = some k →
        ∃ a, res.anchors.lookup e = some a ∧ ∃ c, a.commit = some c ∧ burnedRun.commitsTo e k c := by
  obtain ⟨res, hres, -, hkeys, -⟩ := resolveEpochs_spec burnedRun burnedRun_binding [9]
    burnedRunMembers burnedRunConfigs burnedRunWraps (by decide)
  have heval : (resolveEpochs burnedRun [9] burnedRunMembers burnedRunConfigs burnedRunWraps).map
      (fun r => (r.keys.lookup 1, r.writeEpoch)) = some (some 11, some 2) := by
    decide +kernel
  rw [hres] at heval
  have hpair := Prod.mk.inj (Option.some.inj heval)
  exact ⟨burnedRun_binding, by decide, res, hres, hpair.1, hpair.2, hkeys⟩

/-- The keys are not closed under the step to an epoch that is itself burned. -/
theorem not_isLeast_unguardedStep :
    burnedRun.Binding ∧ (burnedRunConfigs.map ConfigRow.id).Nodup ∧
    ∃ res, resolveEpochs burnedRun [9] burnedRunMembers burnedRunConfigs burnedRunWraps = some res ∧
      ¬IsLeast
        (closedSets
          (UnguardedStep burnedRun
            (firstOf (selectAnchors burnedRunConfigs (maintainersOf burnedRunMembers)).1)
            (commitsToAnchor burnedRun
              (anchorsOf (selectAnchors burnedRunConfigs (maintainersOf burnedRunMembers)).1)))
          (acceptedWraps burnedRun [9] (maintainersOf burnedRunMembers)
            (anchorsOf (selectAnchors burnedRunConfigs (maintainersOf burnedRunMembers)).1)
            burnedRunWraps))
        res.keys.held := by
  have heval : (resolveEpochs burnedRun [9] burnedRunMembers burnedRunConfigs burnedRunWraps).map
      (fun r => (r.keys.lookup 2, r.keys.lookup 0)) = some (some 12, none) := by
    decide +kernel
  obtain ⟨res, hres, hlookup⟩ := Option.map_eq_some_iff.mp heval
  obtain ⟨htwo, hzero⟩ := Prod.mk.inj hlookup
  refine ⟨burnedRun_binding, by decide, res, hres, fun hleast => ?_⟩
  have hstep : UnguardedStep burnedRun
      (firstOf (selectAnchors burnedRunConfigs (maintainersOf burnedRunMembers)).1)
      (commitsToAnchor burnedRun
        (anchorsOf (selectAnchors burnedRunConfigs (maintainersOf burnedRunMembers)).1))
      (2, 12) (0, 10) := by
    refine @UnguardedStep.skip _ _ _ _ 2 0 12 11 10 ⟨false, some 1, some 11, some 10⟩
      ⟨true, none, none, none⟩ (by decide) ?_ rfl rfl rfl ?_ ?_ rfl rfl (by decide) ?_ ?_
    · decide +kernel
    · decide +kernel
    · decide +kernel
    · decide +kernel
    · omega
  have hheld : res.keys.lookup 0 = some 10 := hleast.1.2 (2, 12) htwo (0, 10) hstep
  rw [hzero] at hheld
  exact absurd hheld (by simp)

end DashForge
