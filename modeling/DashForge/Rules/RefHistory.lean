import DashForge.Rules.ResolveRef

/-!
# The activity of a ref

A ref's activity page lists the updates that moved it and the config changes that protected it or lifted
its protection (`rules/ref_history.rs`). `refMoves` walks the valid updates in causal order with the live
heads beside it, and `refHistory` merges its events with those of the configs.

The walk drops and adds heads as it goes, where ref resolution asks of each tip whether anything later
supersedes it. `collectHeads_concat` says what one more update does to the latter, so both hold the same
heads after every update (`map_headsAfter`), and the page agrees with the branch list (`refHistory_agrees`).
-/

namespace DashForge

open List Option

/-! ### Events -/

inductive RefEventKind where
  | created
  | pushed
  | forcePushed
  | updated
  | moved
  | deleted
  | diverged
  | protectionAdded
  | protectionLifted
  | protectionRestored
deriving DecidableEq, Repr

structure RefEvent where
  kind : RefEventKind
  /-- The `$id` of the update, or of the config in force after the change. -/
  id : String
  at_ : ℕ
  /-- The update's author; `none` for a config change. -/
  by_ : Option String
  from_ : Option Oid
  to_ : Option Oid
deriving DecidableEq, Repr

/-! ### The moves -/

section Moves

variable (isTag : Bool) (contains : Oid → Oid → Option Bool)

/-- The event of an update. -/
def RefUpdate.event (v : RefUpdate) (kind : RefEventKind) (from_ to_ : Option Oid) : RefEvent :=
  ⟨kind, v.id, v.createdAt, some v.author, from_, to_⟩

/-- Whether an update leaves a head of another tip live. -/
def keepsHead (v h : RefUpdate) : Bool := h.newOid != v.newOid && !(v.force || buildsOn v h)

/-- The heads of other tips an update supersedes. -/
def supersededHeads (heads : List RefUpdate) (v : RefUpdate) : List RefUpdate :=
  heads.filter fun h => h.newOid != v.newOid && (v.force || buildsOn v h)

/-- The heads after an update, oldest first. -/
def nextHeads (heads : List RefUpdate) (v : RefUpdate) : List RefUpdate :=
  if isNullOid v.newOid then [] else heads.filter (keepsHead v) ++ [v]

/-- How a move that supersedes heads reads. -/
def refMoveKind (superseded : List RefUpdate) (v : RefUpdate) : RefEventKind :=
  if isTag then .moved
  else if superseded.any fun h => contains h.newOid v.newOid == some false then .forcePushed
  else if superseded.all fun h => contains h.newOid v.newOid == some true then .pushed
  else .updated

/-- The event of an update, unless it changes nothing. -/
def moveOf (heads : List RefUpdate) (v : RefUpdate) : Option RefEvent :=
  if isNullOid v.newOid then heads.getLast?.map fun last => v.event .deleted (some last.newOid) none
  else
    match heads.getLast? with
    | none => some (v.event .created none (some v.newOid))
    | some newest =>
      match (supersededHeads heads v).getLast? with
      | none =>
        if heads.any fun h => h.newOid == v.newOid then none
        else some (v.event .diverged (some newest.newOid) (some v.newOid))
      | some last =>
        some (v.event (refMoveKind isTag contains (supersededHeads heads v) v) (some last.newOid) (some v.newOid))

/-- The heads after each update in turn. -/
def headsAfter (updates : List RefUpdate) : List RefUpdate := updates.foldl nextHeads []

/-- The events of updates walked from the given heads. -/
def movesFrom : List RefUpdate → List RefUpdate → List RefEvent
  | _, [] => []
  | heads, v :: later => (moveOf isTag contains heads v).toList ++ movesFrom (nextHeads heads v) later

/-- The updates of a ref's activity. -/
def refMoves (env : RefEnv) (refName refNameHash : String) (updates : List RefUpdate) (configs : List ConfigDoc) :
    List RefEvent :=
  movesFrom ("refs/tags/".toList.isPrefixOf refName.toList) contains [] (validUpdates env updates configs refNameHash)

end Moves

/-! ### Protection and the whole history -/

/-- The config in force after each block of a sorted history. -/
def lastOfBlocks : List ConfigDoc → List ConfigDoc
  | [] => []
  | [c] => [c]
  | c :: n :: rest => if n.createdAt = c.createdAt then lastOfBlocks (n :: rest) else c :: lastOfBlocks (n :: rest)

/-- How a change of protection reads. -/
def changeKind : Bool → Bool → RefEventKind
  | false, _ => .protectionLifted
  | true, false => .protectionAdded
  | true, true => .protectionRestored

/-- The changes of protection, given whether the ref is protected now and ever was. -/
def protectionEvents (env : RefEnv) (refName : String) : Bool → Bool → List ConfigDoc → List RefEvent
  | _, _, [] => []
  | now, ever, c :: rest =>
    let protects := matchesProtected env refName c.protectedPatterns
    if protects = now then protectionEvents env refName now ever rest
    else
      ⟨changeKind protects ever, c.id, c.createdAt, none, none, none⟩ ::
        protectionEvents env refName protects (ever || protects) rest

/-- The changes of protection of a ref's activity. -/
def protectionOf (env : RefEnv) (refName : String) (configs : List ConfigDoc) : List RefEvent :=
  protectionEvents env refName false false (lastOfBlocks (sortByKey ConfigDoc.key configs))

/-- The activity of a ref, oldest first: a config change goes before the updates of its block. -/
def refHistory (contains : Oid → Oid → Option Bool) (env : RefEnv) (refName refNameHash : String)
    (updates : List RefUpdate) (configs : List ConfigDoc) : List RefEvent :=
  let moves := refMoves contains env refName refNameHash updates configs
  (protectionOf env refName configs).merge moves fun c u => c.at_ ≤ u.at_

/-! ### One more update -/

/-- Whether a later update leaves a head live, with identity ancestry. -/
def RefHead.keptBy (v : RefUpdate) (h : RefHead) : Bool :=
  h.oid != v.newOid && !(v.force || !isNullOid v.prevOid && v.prevOid == h.oid && v.newOid != h.oid)

theorem supersedes_identity {u v : RefUpdate} (hnull : isNullOid v.newOid = false) :
    supersedes (· == ·) u v = !u.toHead.keptBy v := by
  simp only [supersedes, hnull, Bool.false_or, RefHead.keptBy, buildsOn, RefUpdate.toHead, bne]
  cases v.force <;> cases u.newOid == v.newOid <;> simp

/-- What one more update leaves of the heads. -/
theorem collectHeads_concat (l : List RefUpdate) (v : RefUpdate) : collectHeads (· == ·) (l ++ [v]) =
    if isNullOid v.newOid then [] else v.toHead :: (collectHeads (· == ·) l).filter (RefHead.keptBy v) := by
  split_ifs with hnull
  · exact collectHeads_eq_nil (getLast?_concat) hnull
  rw [Bool.not_eq_true] at hnull
  induction l with
  | nil => simp [collectHeads, hnull]
  | cons u l ih =>
    rw [cons_append, collectHeads, collectHeads, ih]
    by_cases hu : isNullOid u.newOid
    · simp [hu]
    rw [Bool.not_eq_true] at hu
    simp only [hu, Bool.false_or, any_cons, any_append, any_nil, Bool.or_false,
      supersedes_identity hnull]
    generalize collectHeads (· == ·) l = heads
    by_cases hin : heads.any fun h => h.oid == u.newOid
    · -- a newer setter of the tip: what the update keeps of it, it keeps of `u`
      rw [if_pos hin]
      obtain ⟨h, hh, hoid⟩ := any_eq_true.mp hin
      have hkept : u.toHead.keptBy v = h.keptBy v := by
        simp only [RefHead.keptBy, ← beq_iff_eq.mp hoid, RefUpdate.toHead]
      cases hk : h.keptBy v with
      | true =>
        have hany : (heads.filter (RefHead.keptBy v)).any fun h => h.oid == u.newOid :=
          any_eq_true.mpr ⟨h, mem_filter.mpr ⟨hh, hk⟩, hoid⟩
        simp [hany]
      | false => simp [hkept, hk]
    by_cases hsup : l.any (supersedes (· == ·) u)
    · simp [hin, hsup]
    · have hnone : (heads.filter (RefHead.keptBy v)).any (fun h => h.oid == u.newOid) = false := by
        rw [Bool.not_eq_true, List.any_eq_false] at hin
        exact List.any_eq_false.mpr fun h hh => hin h (mem_of_mem_filter hh)
      rw [if_neg hin, if_neg hsup, filter_append, filter_cons, hnone]
      have hoid : v.toHead.oid = v.newOid := rfl
      by_cases hvu : v.newOid = u.newOid
      · have hdrop : u.toHead.keptBy v = false := by simp [RefHead.keptBy, RefUpdate.toHead, hvu]
        simp [hdrop, hoid, hvu]
      · cases hk : u.toHead.keptBy v <;> simp [hsup, hoid, hvu]

theorem headsAfter_concat (l : List RefUpdate) (v : RefUpdate) :
    headsAfter (l ++ [v]) = nextHeads (headsAfter l) v := by
  rw [headsAfter, foldl_concat, ← headsAfter]

/-- The walk and ref resolution hold the same heads. -/
theorem map_headsAfter (l : List RefUpdate) :
    (headsAfter l).map RefUpdate.toHead = (collectHeads (· == ·) l).reverse := by
  induction l using reverseRecOn with
  | nil => rfl
  | append_singleton l v ih =>
    rw [headsAfter_concat, collectHeads_concat, nextHeads]
    split
    · rfl
    · rw [reverse_cons, ← filter_reverse, ← ih, List.filter_map, map_append]
      rfl

theorem headsAfter_eq_nil {l : List RefUpdate} : headsAfter l = [] ↔ collectHeads (· == ·) l = [] := by
  rw [← map_eq_nil_iff (f := RefUpdate.toHead), map_headsAfter, reverse_eq_nil_iff]

theorem length_headsAfter (l : List RefUpdate) : (headsAfter l).length = (collectHeads (· == ·) l).length := by
  rw [← length_map (f := RefUpdate.toHead), map_headsAfter, length_reverse]

/-! ### The events of the walk -/

section Walk

variable {isTag : Bool} {contains : Oid → Oid → Option Bool}

theorem movesFrom_append (heads l l' : List RefUpdate) : movesFrom isTag contains heads (l ++ l') =
    movesFrom isTag contains heads l ++ movesFrom isTag contains (l.foldl nextHeads heads) l' := by
  induction l generalizing heads with
  | nil => rfl
  | cons v l ih => rw [cons_append, movesFrom, ih, movesFrom, append_assoc, foldl_cons]

theorem movesFrom_concat (l : List RefUpdate) (v : RefUpdate) : movesFrom isTag contains [] (l ++ [v]) =
    movesFrom isTag contains [] l ++ (moveOf isTag contains (headsAfter l) v).toList := by
  rw [movesFrom_append, movesFrom, movesFrom, append_nil, headsAfter]

theorem refMoveKind_ne (superseded : List RefUpdate) (v : RefUpdate) :
    refMoveKind isTag contains superseded v ∉ [.created, .deleted, .diverged] := by
  unfold refMoveKind
  split_ifs <;> decide

variable {heads l : List RefUpdate} {v : RefUpdate}

/-- What an update's event is. -/
theorem moveOf_eq_some {e : RefEvent}
    (h : moveOf isTag contains heads v = some e) : ∃ from_ to_, e = v.event e.kind from_ to_ ∧
      (e.kind = .created ↔ isNullOid v.newOid = false ∧ heads = []) ∧
      (e.kind = .deleted ↔ isNullOid v.newOid = true ∧ heads ≠ []) := by
  unfold moveOf at h
  split at h
  · rename_i hnull
    obtain ⟨last, hlast, rfl⟩ := map_eq_some_iff.mp h
    refine ⟨_, _, rfl, ?_, ?_⟩
    · simp [RefUpdate.event, hnull]
    · simpa [RefUpdate.event, hnull] using ne_nil_of_mem (mem_of_getLast? hlast)
  · rename_i hnull
    rw [Bool.not_eq_true] at hnull
    split at h
    · rename_i hlast
      obtain rfl := some.inj h
      refine ⟨_, _, rfl, ?_, ?_⟩
      · simpa [RefUpdate.event, hnull] using hlast
      · simp [RefUpdate.event, hnull]
    · rename_i newest hlast
      have hne : heads ≠ [] := ne_nil_of_mem (mem_of_getLast? hlast)
      split at h
      · split at h
        · cases h
        · obtain rfl := some.inj h
          exact ⟨_, _, rfl, by simp [RefUpdate.event, hne], by simp [RefUpdate.event, hnull]⟩
      · obtain rfl := some.inj h
        have hkind := @refMoveKind_ne isTag contains (supersededHeads heads v) v
        simp only [mem_cons, not_mem_nil, or_false, not_or] at hkind
        exact ⟨_, _, rfl, by simp [RefUpdate.event, hne, hkind], by simp [RefUpdate.event, hnull, hkind]⟩

/-- The first head is created, a live ref is deleted: every such update has its event. -/
theorem isSome_moveOf (h : isNullOid v.newOid = false ∧ heads = [] ∨ isNullOid v.newOid = true ∧ heads ≠ []) :
    (moveOf isTag contains heads v).isSome := by
  rcases h with ⟨hnull, rfl⟩ | ⟨hnull, hne⟩
  · simp [moveOf, hnull]
  · simpa [moveOf, hnull] using hne

/-- An update has a created event exactly where it is the first head. -/
theorem exists_moveOf_created_iff :
    (∃ e, moveOf isTag contains heads v = some e ∧ e.kind = .created) ↔ isNullOid v.newOid = false ∧ heads = [] := by
  constructor
  · rintro ⟨e, hmove, hkind⟩
    obtain ⟨-, -, -, hcreated, -⟩ := moveOf_eq_some hmove
    exact hcreated.mp hkind
  · intro hcond
    obtain ⟨e, hmove⟩ := isSome_iff_exists.mp (isSome_moveOf (.inl hcond))
    obtain ⟨-, -, -, hcreated, -⟩ := moveOf_eq_some hmove
    exact ⟨e, hmove, hcreated.mpr hcond⟩

/-- An update has a deleted event exactly where it deletes a live ref. -/
theorem exists_moveOf_deleted_iff :
    (∃ e, moveOf isTag contains heads v = some e ∧ e.kind = .deleted) ↔ isNullOid v.newOid = true ∧ heads ≠ [] := by
  constructor
  · rintro ⟨e, hmove, hkind⟩
    obtain ⟨-, -, -, -, hdeleted⟩ := moveOf_eq_some hmove
    exact hdeleted.mp hkind
  · intro hcond
    obtain ⟨e, hmove⟩ := isSome_iff_exists.mp (isSome_moveOf (.inr hcond))
    obtain ⟨-, -, -, -, hdeleted⟩ := moveOf_eq_some hmove
    exact ⟨e, hmove, hdeleted.mpr hcond⟩

theorem moveOf_diverged (hone : heads.length ≤ 1) (htwo : 2 ≤ (nextHeads heads v).length) :
    ∃ e, moveOf isTag contains heads v = some e ∧ e.kind = .diverged := by
  unfold nextHeads at htwo
  split at htwo
  · simp at htwo
  · rename_i hnull
    obtain ⟨h, rfl⟩ : ∃ h, heads = [h] := by
      match heads, hone, htwo with
      | [], _, htwo => simp at htwo
      | [h], _, _ => exact ⟨h, rfl⟩
    have hkept : keepsHead v h = true := by
      by_contra hdrop
      simp [hdrop] at htwo
    simp only [keepsHead, Bool.and_eq_true, bne_iff_ne, ne_eq, Bool.not_eq_true', Bool.or_eq_false_iff] at hkept
    refine ⟨v.event .diverged (some h.newOid) (some v.newOid), ?_, rfl⟩
    simp [moveOf, hnull, supersededHeads, hkept]

theorem mem_movesFrom {e : RefEvent} : e ∈ movesFrom isTag contains [] l ↔
    ∃ earlier v later, l = earlier ++ v :: later ∧ moveOf isTag contains (headsAfter earlier) v = some e := by
  induction l using reverseRecOn with
  | nil => simp [movesFrom]
  | append_singleton l w ih =>
    rw [movesFrom_concat, mem_append, ih, mem_toList]
    constructor
    · rintro (⟨earlier, v, later, rfl, he⟩ | he)
      · exact ⟨earlier, v, later ++ [w], by simp, he⟩
      · exact ⟨l, w, [], rfl, he⟩
    · rintro ⟨earlier, v, later, heq, he⟩
      rcases eq_nil_or_concat later with rfl | ⟨later, x, rfl⟩
      · obtain ⟨rfl, hw⟩ := append_inj' heq rfl
        obtain rfl : w = v := by simpa using hw
        exact .inr he
      · rw [concat_eq_append, ← cons_append, ← append_assoc] at heq
        obtain ⟨rfl, -⟩ := append_inj' heq rfl
        exact .inl ⟨earlier, v, later, rfl, he⟩

/-- With distinct ids, an update's event is found by its id. -/
theorem exists_event_iff {earlier later : List RefUpdate} (hids : (l.map RefUpdate.id).Nodup)
    (hl : l = earlier ++ v :: later) (p : RefEvent → Prop) : (∃ e ∈ movesFrom isTag contains [] l, e.id = v.id ∧ p e) ↔
      ∃ e, moveOf isTag contains (headsAfter earlier) v = some e ∧ p e := by
  constructor
  · rintro ⟨e, he, hid, hp⟩
    obtain ⟨earlier', v', later', hl', hmove⟩ := mem_movesFrom.mp he
    obtain ⟨from_, to_, hev, -⟩ := moveOf_eq_some hmove
    have hid' : v'.id = v.id := by rw [← hid, hev]; rfl
    obtain rfl : v' = v := inj_on_of_nodup_map hids (hl' ▸ by simp) (hl ▸ by simp) hid'
    have hnodup := List.Nodup.of_map _ hids
    rw [hl, nodup_middle, nodup_cons, mem_append, not_or] at hnodup
    obtain ⟨rfl, -⟩ := (append_cons_inj_of_notMem hnodup.1.1 hnodup.1.2).mp (hl.symm.trans hl')
    exact ⟨e, hmove, hp⟩
  · rintro ⟨e, hmove, hp⟩
    obtain ⟨from_, to_, hev, -⟩ := moveOf_eq_some hmove
    exact ⟨e, mem_movesFrom.mpr ⟨earlier, v, later, hl, hmove⟩, by rw [hev]; rfl, hp⟩

/-- What an event makes of whether a ref exists. -/
def existsStep (live : Bool) (e : RefEvent) : Bool :=
  match e.kind with
  | .created => true
  | .deleted => false
  | _ => live

/-- Whether events leave a ref existing: created, and not deleted since. -/
def existsAfter (events : List RefEvent) : Bool := events.foldl existsStep false

/-- The events leave a ref existing when it has a live head. -/
theorem existsAfter_movesFrom (l : List RefUpdate) :
    existsAfter (movesFrom isTag contains [] l) ↔ headsAfter l ≠ [] := by
  induction l using reverseRecOn with
  | nil => simp [existsAfter, movesFrom, headsAfter]
  | append_singleton l v ih =>
    rw [movesFrom_concat, headsAfter_concat]
    generalize movesFrom isTag contains [] l = events at ih ⊢
    have hnext : nextHeads (headsAfter l) v ≠ [] ↔ isNullOid v.newOid = false := by
      cases hnull : isNullOid v.newOid <;> simp [nextHeads, hnull]
    rw [hnext]
    cases hmove : moveOf isTag contains (headsAfter l) v with
    | none =>
      rw [toList_none, append_nil, ih]
      have hno := mt (@isSome_moveOf isTag contains (headsAfter l) v) (by simp [hmove])
      cases hnull : isNullOid v.newOid <;> simp_all
    | some e =>
      obtain ⟨from_, to_, -, hcreated, hdeleted⟩ := moveOf_eq_some hmove
      rw [toList_some, existsAfter, foldl_concat, ← existsAfter, existsStep]
      split
      · rename_i hkind
        simpa using (hcreated.mp hkind).1
      · rename_i hkind
        simpa using (hdeleted.mp hkind).1
      · rename_i hc hd
        rw [ih]
        cases hnull : isNullOid v.newOid <;> simp_all [moveOf]

/-- Several heads are live when a divergence is open: its update found one head, and since then there
were never fewer than two. -/
theorem two_le_headsAfter_iff : 2 ≤ (headsAfter l).length ↔ ∃ earlier v later, l = earlier ++ v :: later ∧
      (∃ e, moveOf isTag contains (headsAfter earlier) v = some e ∧ e.kind = .diverged) ∧
      ∀ mid, mid <+: later → 2 ≤ (headsAfter (earlier ++ v :: mid)).length := by
  constructor
  · induction l using reverseRecOn with
    | nil => simp [headsAfter]
    | append_singleton l w ih =>
      intro htwo
      by_cases hbefore : 2 ≤ (headsAfter l).length
      · obtain ⟨earlier, v, later, rfl, hdiv, hopen⟩ := ih hbefore
        refine ⟨earlier, v, later ++ [w], by simp, hdiv, fun mid hmid => ?_⟩
        rcases prefix_concat_iff.mp hmid with rfl | hmid
        · simpa using htwo
        · exact hopen mid hmid
      · refine ⟨l, w, [], rfl, moveOf_diverged (by omega) ?_, fun mid hmid => ?_⟩
        · rwa [headsAfter_concat] at htwo
        · rwa [prefix_nil.mp hmid]
  · rintro ⟨earlier, v, later, rfl, -, hopen⟩
    exact hopen later prefix_rfl

end Walk

/-! ### Protection -/

section Protection

variable {env : RefEnv} {refName : String}

/-- The kind of the change with a number, given whether the ref is protected before the first one and
ever was: lifted, then restored, in turn. -/
def protectionKind (now ever : Bool) (i : ℕ) : RefEventKind :=
  if now ^^ i % 2 == 1 then .protectionLifted
  else if i = 0 ∧ ¬ever then .protectionAdded
  else .protectionRestored

theorem kind_protectionEvents {cs : List ConfigDoc} {now ever : Bool} (hever : now → ever) {i : ℕ} {e : RefEvent}
    (h : (protectionEvents env refName now ever cs)[i]? = some e) : e.kind = protectionKind now ever i := by
  induction cs generalizing now ever i with
  | nil => simp [protectionEvents] at h
  | cons c cs ih =>
    rw [protectionEvents] at h
    split at h
    · exact ih hever h
    · rename_i hne
      obtain hflip : matchesProtected env refName c.protectedPatterns = !now := Bool.eq_not.mpr hne
      rw [hflip] at h
      cases i with
      | zero =>
        obtain rfl := some.inj h
        cases now <;> cases ever <;> simp_all [protectionKind, changeKind]
      | succ i =>
        rw [getElem?_cons_succ] at h
        have hever' : (!now) = true → (ever || !now) = true := fun hnow => by rw [hnow, Bool.or_true]
        rw [ih hever' h]
        have hparity : ((i + 1) % 2 == 1) = !(i % 2 == 1) := by
          rcases Nat.mod_two_eq_zero_or_one i with hi | hi <;> simp [Nat.add_mod, hi]
        cases now with
        | false => simp [protectionKind, hparity]
        | true => simp [protectionKind, hparity, hever rfl]

theorem getLast?_protectionEvents (now ever : Bool) (cs : List ConfigDoc) :
    ((protectionEvents env refName now ever cs).getLast?.elim now fun e => e.kind != .protectionLifted) =
      cs.getLast?.elim now fun c => matchesProtected env refName c.protectedPatterns := by
  induction cs generalizing now ever with
  | nil => rfl
  | cons c cs ih =>
    have hcons : (c :: cs).getLast?.elim now (fun c => matchesProtected env refName c.protectedPatterns) =
        cs.getLast?.elim (matchesProtected env refName c.protectedPatterns)
          fun c => matchesProtected env refName c.protectedPatterns := by
      cases cs with
      | nil => rfl
      | cons d cs => rw [getLast?_cons_cons, getLast?_cons]; rfl
    rw [hcons, protectionEvents]
    split_ifs with hsame
    · rw [ih, hsame]
    · rw [← ih _ (ever || matchesProtected env refName c.protectedPatterns)]
      cases protectionEvents env refName (matchesProtected env refName c.protectedPatterns)
          (ever || matchesProtected env refName c.protectedPatterns) cs with
      | nil => cases matchesProtected env refName c.protectedPatterns <;> cases ever <;> rfl
      | cons e es => rw [getLast?_cons_cons, getLast?_cons]; rfl

theorem protectionEvents_map (now ever : Bool) (cs : List ConfigDoc) :
    ((protectionEvents env refName now ever cs).map RefEvent.at_).Sublist (cs.map ConfigDoc.createdAt) ∧
      ∀ e ∈ protectionEvents env refName now ever cs, e.by_ = none := by
  induction cs generalizing now ever with
  | nil => simp [protectionEvents]
  | cons c cs ih =>
    rw [protectionEvents]
    split_ifs
    · exact ⟨(ih now ever).1.trans (sublist_cons_self _ _), (ih now ever).2⟩
    · obtain ⟨hsub, hnone⟩ := ih (matchesProtected env refName c.protectedPatterns)
        (ever || matchesProtected env refName c.protectedPatterns)
      exact ⟨hsub.cons_cons _, forall_mem_cons.mpr ⟨rfl, hnone⟩⟩

theorem lastOfBlocks_sublist (cs : List ConfigDoc) : (lastOfBlocks cs).Sublist cs := by
  fun_induction lastOfBlocks cs with
  | case1 => exact .slnil
  | case2 c => exact List.Sublist.refl _
  | case3 c n rest _ ih => exact ih.trans (sublist_cons_self _ _)
  | case4 c n rest _ ih => exact ih.cons_cons _

theorem getLast?_lastOfBlocks (cs : List ConfigDoc) : (lastOfBlocks cs).getLast? = cs.getLast? := by
  fun_induction lastOfBlocks cs with
  | case1 => rfl
  | case2 c => rfl
  | case3 c n rest _ ih => rw [ih, getLast?_cons_cons]
  | case4 c n rest _ ih => rw [getLast?_cons, ih, getLast?_cons_cons, getLast?_cons]; rfl

end Protection

/-! ### The merge -/

/-- The order of the page: by time, config changes before updates. -/
def RefEvent.order (e : RefEvent) : ℕ ×ₗ Bool := toLex (e.at_, e.by_.isSome)

theorem RefEvent.le_order_iff {a b : RefEvent} :
    a.order ≤ b.order ↔ a.at_ < b.at_ ∨ a.at_ = b.at_ ∧ (b.by_ = none → a.by_ = none) := by
  rw [RefEvent.order, RefEvent.order, Prod.Lex.toLex_le_toLex]
  refine or_congr_right (and_congr_right fun _ => ?_)
  cases a.by_ <;> cases b.by_ <;> simp

section History

variable {contains : Oid → Oid → Option Bool} {env : RefEnv} {refName refNameHash : String}
  {updates : List RefUpdate} {configs : List ConfigDoc}

variable {e : RefEvent} {l : List RefEvent}

theorem by_refMoves (he : e ∈ refMoves contains env refName refNameHash updates configs) : e.by_.isSome := by
  obtain ⟨earlier, v, later, -, hmove⟩ := mem_movesFrom.mp he
  obtain ⟨from_, to_, hev, -⟩ := moveOf_eq_some hmove
  rw [hev]
  rfl

theorem by_protectionOf (he : e ∈ protectionOf env refName configs) : e.by_ = none :=
  (protectionEvents_map _ _ _).2 e he

/-- The page is the moves and the changes of protection, each in its order. -/
theorem filter_refHistory :
    (refHistory contains env refName refNameHash updates configs).filter (fun e => e.by_.isSome) =
        refMoves contains env refName refNameHash updates configs ∧
      (refHistory contains env refName refNameHash updates configs).filter (fun e => e.by_.isNone) =
        protectionOf env refName configs := by
  have hnone : ∀ e ∈ protectionOf env refName configs, e.by_.isSome = false := fun e he => by
    rw [by_protectionOf he]; rfl
  have hsome : ∀ e ∈ refMoves contains env refName refNameHash updates configs, e.by_.isNone = false := fun e he =>
    isNone_eq_false_iff.mpr (by_refMoves he)
  constructor
  · refine (filter_merge fun c hc u _ _ => hnone c hc).trans ?_
    rw [filter_eq_nil_iff.mpr fun c hc => by simp [hnone c hc], nil_append,
      filter_eq_self.mpr fun e he => by_refMoves he]
  · refine (filter_merge fun c _ u hu hp => absurd hp (by simp [hsome u hu])).trans ?_
    rw [filter_eq_self.mpr fun c hc => by simp [by_protectionOf hc],
      filter_eq_nil_iff.mpr fun u hu => by simp [hsome u hu], append_nil]

theorem movesFrom_map {isTag : Bool} (heads l : List RefUpdate) :
    ((movesFrom isTag contains heads l).map RefEvent.at_).Sublist (l.map RefUpdate.createdAt) := by
  induction l generalizing heads with
  | nil => exact .slnil
  | cons v l ih =>
    rw [movesFrom, map_append, map_cons]
    cases hmove : moveOf isTag contains heads v with
    | none => exact (ih _).cons _
    | some e =>
      obtain ⟨from_, to_, hev, -⟩ := moveOf_eq_some hmove
      have hat : e.at_ = v.createdAt := by rw [hev]; rfl
      rw [toList_some, map_singleton, hat]
      exact (ih _).cons_cons _

theorem pairwise_order {b : Bool} (htime : (l.map RefEvent.at_).Pairwise (· ≤ ·))
    (hby : ∀ e ∈ l, e.by_.isSome = b) : l.Pairwise fun x y => decide (x.order ≤ y.order) = true := by
  refine (pairwise_map.mp htime).imp_of_mem fun {x y} hx hy hxy => decide_eq_true ?_
  rw [RefEvent.order, RefEvent.order, hby x hx, hby y hy, Prod.Lex.toLex_le_toLex]
  exact hxy.lt_or_eq.imp_right fun heq => ⟨heq, le_rfl⟩

/-- The page is in order. -/
theorem pairwise_refHistory : (refHistory contains env refName refNameHash updates configs).Pairwise
    fun a b => a.order ≤ b.order := by
  have hmoves : (refMoves contains env refName refNameHash updates configs).Pairwise
      fun a b => decide (a.order ≤ b.order) = true := by
    have htimes : ((validUpdates env updates configs refNameHash).map RefUpdate.createdAt).Pairwise (· ≤ ·) :=
      pairwise_map.mpr (pairwise_causalOrder _)
    exact pairwise_order (htimes.sublist (movesFrom_map [] _)) fun e he => by_refMoves he
  have hprotection : (protectionOf env refName configs).Pairwise fun a b => decide (a.order ≤ b.order) = true := by
    have hsorted : ((sortByKey ConfigDoc.key configs).map ConfigDoc.createdAt).Pairwise (· ≤ ·) :=
      pairwise_map.mpr ((pairwise_sortByKey ConfigDoc.key configs).imp fun h => Prod.Lex.monotone_fst _ _ h)
    have htimes := hsorted.sublist ((lastOfBlocks_sublist _).map ConfigDoc.createdAt)
    have hnone : ∀ e ∈ protectionOf env refName configs, e.by_.isSome = false := fun e he => by
      rw [by_protectionOf he]; rfl
    exact pairwise_order (htimes.sublist (protectionEvents_map false false _).1) hnone
  have hmerge : refHistory contains env refName refNameHash updates configs =
      (protectionOf env refName configs).merge (refMoves contains env refName refNameHash updates configs)
        fun a b => decide (a.order ≤ b.order) := by
    refine merge_congr fun c hc u hu => ?_
    have hnone : c.by_.isSome = false := by rw [by_protectionOf hc]; rfl
    rw [RefEvent.order, RefEvent.order, hnone, by_refMoves hu, decide_eq_decide, Prod.Lex.toLex_le_toLex,
      le_iff_lt_or_eq]
    exact or_congr_right ⟨fun h => ⟨h, Bool.false_le _⟩, fun h => h.1⟩
  rw [hmerge]
  refine (pairwise_merge ?_ ?_ _ _ hprotection hmoves).imp fun h => of_decide_eq_true h
  · intro a b c hab hbc
    exact decide_eq_true ((of_decide_eq_true hab).trans (of_decide_eq_true hbc))
  · intro a b
    simpa using le_total a.order b.order

theorem kind_protectionOf (he : e ∈ protectionOf env refName configs) : e.kind ∉ [.created, .deleted, .diverged] := by
  obtain ⟨i, hi⟩ := mem_iff_getElem?.mp he
  rw [kind_protectionEvents (fun h => h) hi, protectionKind]
  split_ifs <;> decide

/-- The changes of protection alternate, from its start. -/
theorem kind_getElem?_protectionOf {i : ℕ} (h : (protectionOf env refName configs)[i]? = some e) :
    e.kind = if i = 0 then .protectionAdded else if i % 2 = 1 then .protectionLifted else .protectionRestored := by
  rw [kind_protectionEvents (fun h => h) h, protectionKind]
  rcases Nat.mod_two_eq_zero_or_one i with hpar | hpar
  · simp [hpar]
  · have hne : i ≠ 0 := by rintro rfl; simp at hpar
    simp [hpar, hne]

/-- The last change of protection says whether the config in force protects the ref. -/
theorem lifted_getLast?_protectionOf {time : ℕ} (htime : ∀ c ∈ configs, c.createdAt ≤ time) :
    ((protectionOf env refName configs).getLast?.any fun e => e.kind != .protectionLifted) =
      (configAsOf configs time).any fun c => matchesProtected env refName c.protectedPatterns := by
  have hall : configs.filter (fun c => c.createdAt ≤ time) = configs :=
    filter_eq_self.mpr fun c hc => decide_eq_true (htime c hc)
  have hlast := @getLast?_protectionEvents env refName false false (lastOfBlocks (sortByKey ConfigDoc.key configs))
  rw [getLast?_lastOfBlocks, getLast?_sortByKey] at hlast
  have hany : ∀ {α : Type} (o : Option α) (p : α → Bool), o.any p = o.elim false p := fun o p => by cases o <;> rfl
  rw [configAsOf, hall, hany, hany]
  exact hlast

/-- The moves of the page are those of the walk. -/
theorem exists_mem_refHistory_iff {kind : RefEventKind} (hkind : kind ∈ [.created, .deleted, .diverged]) (id : String) :
    (∃ e ∈ refHistory contains env refName refNameHash updates configs, e.id = id ∧ e.kind = kind) ↔
      ∃ e ∈ refMoves contains env refName refNameHash updates configs, e.id = id ∧ e.kind = kind := by
  simp only [refHistory, mem_merge]
  constructor
  · rintro ⟨e, he | he, hid, hk⟩
    · exact absurd (hk ▸ hkind) (kind_protectionOf he)
    · exact ⟨e, he, hid, hk⟩
  · rintro ⟨e, he, hid, hk⟩
    exact ⟨e, .inr he, hid, hk⟩

theorem existsAfter_filter {q : RefEvent → Bool} (h : ∀ e ∈ l, q e = false → e.kind ∉ [.created, .deleted, .diverged]) :
    existsAfter (l.filter q) = existsAfter l := by
  have hfold : ∀ live, (l.filter q).foldl existsStep live = l.foldl existsStep live := by
    induction l with
    | nil => exact fun _ => rfl
    | cons e l ih =>
      have ih' := ih fun x hx => h x (mem_cons_of_mem e hx)
      intro live
      cases hq : q e with
      | true => rw [filter_cons_of_pos hq, foldl_cons, foldl_cons, ih']
      | false =>
        have hkind := h e mem_cons_self hq
        have hstep : existsStep live e = live := by
          unfold existsStep
          split <;> simp_all
        rw [filter_cons_of_neg (by simp [hq]), foldl_cons, ih', hstep]
  exact hfold false

theorem existsAfter_refHistory : existsAfter (refHistory contains env refName refNameHash updates configs) =
    existsAfter (refMoves contains env refName refNameHash updates configs) := by
  rw [← filter_refHistory.1, existsAfter_filter]
  intro e he hnone
  rcases mem_merge.mp he with he | he
  · exact kind_protectionOf he
  · simp [by_refMoves he] at hnone

end History

/-- **The activity page agrees with the branch list.** The heads the walk holds in the end are the live
heads, oldest first. A divergence is open on the page when resolution reports several heads, and the page
leaves the ref deleted or never created when it is unborn. An update is listed as creating the ref when no
head is live before it, and as deleting it when one is. The page is sorted by time, config changes first;
these alternate, and the last says whether the config in force protects the ref. -/
theorem refHistory_agrees (env : RefEnv) (refName refNameHash : String) (updates : List RefUpdate)
    (configs : List ConfigDoc) (contains : Oid → Oid → Option Bool) (hids : (updates.map RefUpdate.id).Nodup) :
    let valid := validUpdates env updates configs refNameHash
    let page := refHistory contains env refName refNameHash updates configs
    let state := resolveRef (· == ·) env updates configs refNameHash
    let changes := page.filter fun e => e.by_.isNone
    (headsAfter valid).map RefUpdate.toHead = (liveHeads (· == ·) env updates configs refNameHash).reverse ∧
    ((∃ heads, state = .diverged heads) ↔ ∃ earlier v later, valid = earlier ++ v :: later ∧
      (∃ e ∈ page, e.id = v.id ∧ e.kind = .diverged) ∧
      ∀ mid, mid <+: later → 2 ≤ (collectHeads (· == ·) (earlier ++ v :: mid)).length) ∧
    (state = .unborn ↔ existsAfter page = false) ∧
    (∀ earlier v later, valid = earlier ++ v :: later →
      ((∃ e ∈ page, e.id = v.id ∧ e.kind = .created) ↔
        isNullOid v.newOid = false ∧ collectHeads (· == ·) earlier = []) ∧
      ((∃ e ∈ page, e.id = v.id ∧ e.kind = .deleted) ↔
        isNullOid v.newOid = true ∧ collectHeads (· == ·) earlier ≠ [])) ∧
    page.Pairwise (fun a b => a.at_ < b.at_ ∨ a.at_ = b.at_ ∧ (b.by_ = none → a.by_ = none)) ∧
    (∀ i e, changes[i]? = some e → e.kind =
      if i = 0 then .protectionAdded else if i % 2 = 1 then .protectionLifted else .protectionRestored) ∧
    ∀ time, (∀ c ∈ configs, c.createdAt ≤ time) →
      (changes.getLast?.any fun e => e.kind != .protectionLifted) =
        (configAsOf configs time).any fun c => matchesProtected env refName c.protectedPatterns := by
  intro valid page state changes
  have hnodup : (valid.map RefUpdate.id).Nodup := by
    have hperm : (valid.map RefUpdate.id).Perm _ := (perm_causalOrder _).map _
    exact hperm.nodup_iff.mpr (hids.sublist (filter_sublist.map _))
  have hchanges : changes = protectionOf env refName configs := filter_refHistory.2
  refine ⟨?_, ?_, ?_, fun earlier v later hsplit => ⟨?_, ?_⟩, ?_, fun i e hi => ?_, fun time htime => ?_⟩
  · rw [map_headsAfter, liveHeads_eq_collectHeads]
  · rw [exists_resolveRef_eq_diverged_iff, liveHeads_eq_collectHeads, ← length_headsAfter,
      @two_le_headsAfter_iff ("refs/tags/".toList.isPrefixOf refName.toList) contains]
    refine exists_congr fun earlier => exists_congr fun v => exists_congr fun later =>
      and_congr_right fun hsplit => ?_
    rw [exists_mem_refHistory_iff (by decide), refMoves, exists_event_iff hnodup hsplit]
    simp only [length_headsAfter]
  · rw [resolveRef_eq_unborn_iff, liveHeads_eq_collectHeads, ← headsAfter_eq_nil, existsAfter_refHistory,
      Bool.eq_false_iff, ne_eq, refMoves, existsAfter_movesFrom, not_not]
  · rw [exists_mem_refHistory_iff (by decide), refMoves, exists_event_iff hnodup hsplit, ← headsAfter_eq_nil]
    exact exists_moveOf_created_iff
  · rw [exists_mem_refHistory_iff (by decide), refMoves, exists_event_iff hnodup hsplit, ne_eq, ← headsAfter_eq_nil]
    exact exists_moveOf_deleted_iff
  · exact pairwise_refHistory.imp RefEvent.le_order_iff.mp
  · exact kind_getElem?_protectionOf (hchanges ▸ hi)
  · rw [hchanges]
    exact lifted_getLast?_protectionOf htime

/-- A race that one side settles, a deletion, and configs that protect the ref and lift it. -/
def activityUpdates : List RefUpdate := raceUpdates ++
  [⟨"u4", "k", "refs/heads/main", "bb", "cc", false, false, "ann", 3⟩,
    ⟨"u5", "k", "refs/heads/main", "cc", "0", false, false, "ann", 4⟩]

theorem refHistory_agrees_activityUpdates : (activityUpdates.map RefUpdate.id).Nodup ∧
    existsAfter (refHistory (fun _ _ => none) plainEnv "refs/heads/main" "k" activityUpdates []) = false :=
  ⟨by decide, (refHistory_agrees plainEnv "refs/heads/main" "k" activityUpdates [] (fun _ _ => none)
    (by decide)).2.2.1.mp (by decide +kernel)⟩

example : (refMoves (fun _ _ => none) plainEnv "refs/heads/main" "k" activityUpdates []).map RefEvent.kind =
    [.created, .updated, .diverged, .updated, .deleted] := by decide +kernel

end DashForge
