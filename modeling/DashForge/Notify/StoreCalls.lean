import DashForge.Notify.Store
import Mathlib.Data.List.Permutation

/-!
# Concurrent calls of the address store

A confirmation and an unsubscribe check under one acquisition of the lock and act under another. A run in
which no such call is overtaken in between (`RunFresh`) is linearizable, tokens are used once, and a link of
an epoch that ended removes nothing (`store_linearizable`). Overtaken, a confirmation brings back an address
that was removed (`not_linearizable_overtakenConfirm`).
-/

namespace DashForge.Notify

open CallObject SortedMap
open Option

/-- A run's calls and the store. -/
abbrev StoreConfig : Type := Config Store Op Next Result

/-- A call about to act on what it read finds it as it read it. -/
def Fresh (c : StoreConfig) (i : ℕ) : Prop :=
  ∀ op l, c.calls i = .running op l →
    match l with
    | .enter _ => True
    | .confirm tokenHash p _ => c.state.pendingEmail.lookup tokenHash = some p
    | .remove identity epoch _ => c.state.unsubEpoch identity = some epoch.toNat

/-- No call of a run is overtaken between its check and its act. -/
def RunFresh (s : Store) (es : List (Event Op)) : Prop :=
  ∀ before i after c, es = before ++ .step i :: after → storeObject.run (init s) before = some c → Fresh c i

/-- The step a call takes next ends it with a result. -/
def Ends (c : StoreConfig) (i : ℕ) (op : Op) (r : Result) : Prop :=
  ∃ l s, c.calls i = .running op l ∧ l.run c.state = (s, .inr r)

/-- What a call has read when it waits to act. -/
def OpAt (op : Op) : Next → Prop
  | .enter op' => op' = op
  | .confirm tokenHash p writtenAt =>
    ∃ readAt, op = .confirmPending tokenHash readAt writtenAt ∧ toI64 readAt < p.expiresAt
  | .remove identity epoch now => op = .unsubscribe identity epoch now

variable {op : Op} {l : Next} {s s' : Store} {t identity id : String} {m : ℕ}

theorem opAt_step {l' : Next} (h : OpAt op l) (hstep : l.run s = (s', .inl l')) : OpAt op l' ∧ s' = s := by
  match l, h with
  | .enter op', h =>
    obtain rfl : op' = op := h
    match op' with
    | .confirmPending t readAt writtenAt =>
      simp only [Next.run] at hstep
      split at hstep
      · next p hp =>
        obtain ⟨rfl, rfl⟩ : s = s' ∧ Next.confirm t p writtenAt = l' := by simpa using hstep
        have hlt := (filter_eq_some_iff.mp hp).2
        exact ⟨⟨readAt, rfl, by simpa using hlt⟩, rfl⟩
      · simp at hstep
    | .unsubscribe id e now =>
      simp only [Next.run] at hstep
      split at hstep
      · obtain ⟨rfl, rfl⟩ : s = s' ∧ Next.remove id e now = l' := by simpa using hstep
        exact ⟨rfl, rfl⟩
      · simp at hstep
    | .addPending _ _ | .removeEmail _ _ | .deleteIdentity _ | .ensureSubscriber _ _ _ =>
      simp [Next.run] at hstep
  | .confirm t p writtenAt, h => simp [Next.run] at hstep
  | .remove id e now, h => simp [Next.run] at hstep

variable {c : StoreConfig} {i now : ℕ} {x : Next ⊕ Result}

theorem opAt_of_run {es : List (Event Op)}
    (h : storeObject.run (init s) es = some c) (hrun : c.calls i = .running op l) : OpAt op l :=
  running_of_run storeObject (P := OpAt) (fun _ => rfl) (fun hop hstep => (opAt_step hop hstep).1) h hrun

/-- A call that finds what it read does at its last step what it does alone. -/
theorem effectAtLast_of_fresh (hop : ∀ op l, c.calls i = .running op l → OpAt op l)
    (hfresh : Fresh c i) : EffectAtLast storeObject c i := by
  intro op l hrun
  have hat := hop op l hrun
  refine ⟨fun s l' hstep => (opAt_step hat hstep).2, fun s r hstep => ?_⟩
  have hf := hfresh op l hrun
  match l, hat, hf with
  | .enter op', hat, _ =>
    obtain rfl : op' = op := hat
    exact .last hstep
  | .confirm t p writtenAt, ⟨readAt, hop', hlt⟩, hf =>
    -- alone, the call reads the row it confirms
    have hread : c.state.pending t readAt = some p := by
      rw [Store.pending, hf, filter_some, if_pos (by simpa using hlt)]
    have hfirst : storeObject.step (storeObject.enter op) c.state = (c.state, .inl (.confirm t p writtenAt)) := by
      simp [storeObject, hop', Next.run, hread]
    exact .next hfirst (.last hstep)
  | .remove id e now, hat, hf =>
    have hfirst : storeObject.step (storeObject.enter op) c.state = (c.state, .inl (.remove id e now)) := by
      have hop' : op = .unsubscribe id e now := hat
      simp only [storeObject, hop', Next.run]
      exact if_pos hf
    exact .next hfirst (.last hstep)

/-! ### What a step can bring about -/

theorem lookup_deletePending (s : Store) (identity t : String) : (s.deletePending identity).pendingEmail.lookup t =
      (s.pendingEmail.lookup t).filter fun p => p.identity ≠ identity :=
  lookup_filter ..

@[simp]
theorem pendingEmail_updateSubscriber (s : Store) (identity : String) (f : Subscriber → Subscriber) :
    (s.updateSubscriber identity f).1.pendingEmail = s.pendingEmail := by
  unfold Store.updateSubscriber
  split <;> rfl

theorem lookup_removeEmail (s : Store) (identity : String) (now : ℕ) (t : String) :
    (s.removeEmail identity now).pendingEmail.lookup t =
      (s.pendingEmail.lookup t).filter fun p => p.identity ≠ identity := by
  rw [Store.removeEmail, pendingEmail_updateSubscriber, lookup_deletePending]

theorem lookup_confirm (s : Store) (p : Pending) (now : ℕ) (t : String) : (s.confirm p now).1.pendingEmail.lookup t =
      (s.pendingEmail.lookup t).filter fun q => q.identity ≠ p.identity := by
  simp [Store.confirm, pendingEmail_updateSubscriber, lookup_deletePending]

theorem lookup_addPending (s : Store) (t : String) (p : Pending) (t' : String) :
    (s.addPending t p).1.pendingEmail.lookup t' =
      if (s.addPending t p).2 = true ∧ t' = t then some { p with expiresAt := toI64 p.expiresAt }
      else (s.pendingEmail.lookup t').filter fun q => q.identity ≠ p.identity := by
  cases h : (s.deletePending p.identity).pendingEmail.lookup t with
  | some q => simp [Store.addPending, h, lookup_deletePending]
  | none => simp [Store.addPending, h, lookup_insert, lookup_deletePending]

theorem lookup_pending_of_step {p : Pending} (hstep : l.run s = (s', x)) (hp : s'.pendingEmail.lookup t = some p) :
    s.pendingEmail.lookup t = some p ∨ ∃ q, l = .enter (.addPending t q) ∧ q.identity = p.identity ∧
        x = .inr .done := by
  have hkept : ∀ {identity : String}, (s.pendingEmail.lookup t).filter (fun q => q.identity ≠ identity) = some p →
      s.pendingEmail.lookup t = some p := fun h => (filter_eq_some_iff.mp h).1
  match l with
  | .enter (.addPending t' q) =>
    obtain ⟨rfl, rfl⟩ : (s.addPending t' q).1 = s' ∧ _ = x := by simpa [Next.run] using hstep
    rw [lookup_addPending] at hp
    split at hp
    · next hadd =>
      obtain ⟨hadd, rfl⟩ := hadd
      obtain rfl := some.inj hp
      exact .inr ⟨q, rfl, rfl, by simp [hadd]⟩
    · exact .inl (hkept hp)
  | .enter (.confirmPending t' readAt writtenAt) =>
    simp only [Next.run] at hstep
    split at hstep <;> (obtain ⟨rfl, -⟩ := Prod.mk.inj hstep; exact .inl hp)
  | .enter (.removeEmail id now) =>
    obtain ⟨rfl, -⟩ := Prod.mk.inj hstep
    exact .inl (hkept ((lookup_removeEmail ..).symm.trans hp))
  | .enter (.unsubscribe id e now) =>
    simp only [Next.run] at hstep
    split at hstep <;> (obtain ⟨rfl, -⟩ := Prod.mk.inj hstep; exact .inl hp)
  | .enter (.deleteIdentity id) =>
    obtain ⟨rfl, -⟩ := Prod.mk.inj hstep
    exact .inl (hkept ((lookup_deletePending ..).symm.trans hp))
  | .enter (.ensureSubscriber id now random) =>
    obtain ⟨rfl, -⟩ : (s.ensureSubscriber id now random).1 = s' ∧ _ = x := by simpa [Next.run] using hstep
    unfold Store.ensureSubscriber at hp
    split at hp <;> exact .inl hp
  | .confirm t' q writtenAt =>
    obtain ⟨rfl, -⟩ : (s.confirm q writtenAt).1 = s' ∧ _ = x := by simpa [Next.run] using hstep
    exact .inl (hkept ((lookup_confirm ..).symm.trans hp))
  | .remove id e now =>
    obtain ⟨rfl, -⟩ := Prod.mk.inj hstep
    exact .inl (hkept ((lookup_removeEmail ..).symm.trans hp))

theorem unsubEpoch_updateSubscriber {f : Subscriber → Subscriber} (hf : ∀ row, row.unsubEpoch ≤ (f row).unsubEpoch)
    (hm : (s.updateSubscriber identity f).1.unsubEpoch id = some m) : ∃ n, s.unsubEpoch id = some n ∧ n ≤ m := by
  unfold Store.updateSubscriber at hm
  split at hm
  · next row hrow =>
    simp only [Store.unsubEpoch, lookup_insert] at hm ⊢
    split at hm
    · next hid =>
      obtain rfl := some.inj hm
      exact ⟨row.unsubEpoch, by simp [hid, hrow], hf row⟩
    · exact ⟨m, hm, le_rfl⟩
  · exact ⟨m, hm, le_rfl⟩

theorem unsubEpoch_removeEmail
    (hm : (s.removeEmail identity now).unsubEpoch id = some m) : ∃ n, s.unsubEpoch id = some n ∧ n ≤ m := by
  rw [Store.removeEmail] at hm
  exact unsubEpoch_updateSubscriber (s := s.deletePending _) (fun _ => Nat.le_succ _) hm

theorem unsubEpoch_of_step
    (hstep : l.run s = (s', x)) (hm : s'.unsubEpoch id = some m) : (∃ n, s.unsubEpoch id = some n ∧ n ≤ m) ∨
      ∃ now random, l = .enter (.ensureSubscriber id now random) ∧ x = .inr (.created true) ∧
        m = (random >>> 1).toNat := by
  have hsame : s' = s → (∃ n, s.unsubEpoch id = some n ∧ n ≤ m) := fun h => ⟨m, h ▸ hm, le_rfl⟩
  match l with
  | .enter (.addPending t' q) =>
    obtain ⟨rfl, -⟩ : (s.addPending t' q).1 = s' ∧ _ = x := by simpa [Next.run] using hstep
    refine .inl ⟨m, ?_, le_rfl⟩
    unfold Store.addPending at hm
    dsimp only at hm
    split at hm <;> exact hm
  | .enter (.confirmPending t' readAt writtenAt) =>
    simp only [Next.run] at hstep
    split at hstep <;> exact .inl (hsame (Prod.mk.inj hstep).1.symm)
  | .enter (.removeEmail identity now) =>
    obtain ⟨rfl, -⟩ := Prod.mk.inj hstep
    exact .inl (unsubEpoch_removeEmail hm)
  | .enter (.unsubscribe identity e now) =>
    simp only [Next.run] at hstep
    split at hstep <;> exact .inl (hsame (Prod.mk.inj hstep).1.symm)
  | .enter (.deleteIdentity identity) =>
    obtain ⟨rfl, -⟩ := Prod.mk.inj hstep
    simp only [Store.deleteIdentity, Store.unsubEpoch, lookup_erase] at hm
    split at hm
    · cases hm
    · exact .inl ⟨m, hm, le_rfl⟩
  | .enter (.ensureSubscriber identity now random) =>
    obtain ⟨rfl, rfl⟩ : (s.ensureSubscriber identity now random).1 = s' ∧ _ = x := by
      simpa [Next.run] using hstep
    unfold Store.ensureSubscriber at hm ⊢
    split at hm
    · exact .inl ⟨m, hm, le_rfl⟩
    · simp only [Store.unsubEpoch, lookup_insert] at hm ⊢
      split at hm
      · next hid =>
        subst hid
        exact .inr ⟨now, random, rfl, by simp, (some.inj hm).symm⟩
      · exact .inl ⟨m, hm, le_rfl⟩
  | .confirm t' q writtenAt =>
    obtain ⟨rfl, -⟩ : (s.confirm q writtenAt).1 = s' ∧ _ = x := by simpa [Next.run] using hstep
    simp only [Store.confirm] at hm
    exact .inl (unsubEpoch_updateSubscriber (s := s.deletePending _) (fun _ => Nat.le_succ _) hm)
  | .remove identity e now =>
    obtain ⟨rfl, -⟩ := Prod.mk.inj hstep
    exact .inl (unsubEpoch_removeEmail hm)

/-! ### Runs -/

theorem exists_pending_of_confirmed {readAt writtenAt : ℕ} (hat : OpAt (.confirmPending t readAt writtenAt) l)
    (hfresh : ∀ p w, l = .confirm t p w → s.pendingEmail.lookup t = some p)
    (hstep : l.run s = (s', .inr (.confirmed (some identity)))) :
    ∃ p, s.pendingEmail.lookup t = some p ∧ p.identity = identity ∧
      ∀ t', s'.pendingEmail.lookup t' = (s.pendingEmail.lookup t').filter fun q => q.identity ≠ identity := by
  match l, hat with
  | .enter op, hat =>
    obtain rfl : op = .confirmPending t readAt writtenAt := hat
    simp only [Next.run] at hstep
    split at hstep <;> simp at hstep
  | .confirm t' p w, hat =>
    obtain ⟨_, hop, -⟩ := hat
    obtain ⟨rfl, -, -⟩ : t = t' ∧ _ := by simpa using hop
    obtain ⟨rfl, hid⟩ : (s.confirm p w).1 = s' ∧ (s.confirm p w).2 = some identity := by
      simpa [Next.run] using hstep
    obtain rfl : p.identity = identity := by
      have hid' : (if ((s.deletePending p.identity).updateSubscriber p.identity _).2 = 1 then some p.identity
          else none) = some identity := hid
      split at hid'
      · exact some.inj hid'
      · cases hid'
    exact ⟨p, hfresh p w rfl, rfl, lookup_confirm s p w⟩

/-- The calls after which a token does not confirm an address for an identity until it is recorded again: the
token was used, or the identity's pending rows were deleted. -/
def Voids (t identity : String) : Op → Result → Prop
  | .confirmPending t' _ _, .confirmed (some _) => t' = t
  | .removeEmail identity' _, _ => identity' = identity
  | .unsubscribe identity' _ _, .removed true => identity' = identity
  | .deleteIdentity identity', _ => identity' = identity
  | .addPending t' p, _ => p.identity = identity ∧ t' ≠ t
  | _, _ => False

theorem eq_enter_of_opAt (hat : OpAt op l) (hc : ∀ t r w, op ≠ .confirmPending t r w)
    (hu : ∀ id e n, op ≠ .unsubscribe id e n) : l = .enter op := by
  match l, hat with
  | .enter op', hat => exact congrArg Next.enter hat
  | .confirm t p w, ⟨r, hop, _⟩ => exact absurd hop (hc t r w)
  | .remove id e n, hop => exact absurd hop (hu id e n)

theorem eq_remove_of_removed {epoch : UInt32}
    (hat : OpAt (.unsubscribe identity epoch now) l) (hstep : l.run s = (s', .inr (.removed true))) :
    l = .remove identity epoch now := by
  match l, hat with
  | .enter op, hat =>
    obtain rfl : op = .unsubscribe identity epoch now := hat
    simp only [Next.run] at hstep
    split at hstep <;> simp at hstep
  | .confirm _ _ _, ⟨_, hop, _⟩ => cases hop
  | .remove _ _ _, hop =>
    cases hop
    rfl

theorem not_pending_of_voids {r : Result}
    (hat : OpAt op l) (hfresh : ∀ t p w, l = .confirm t p w → s.pendingEmail.lookup t = some p)
    (hstep : l.run s = (s', .inr r)) (hvoids : Voids t identity op r) :
    ¬∃ p, s'.pendingEmail.lookup t = some p ∧ p.identity = identity := by
  rintro ⟨p, hp, hid⟩
  have hdeleted : s'.pendingEmail.lookup t = (s.pendingEmail.lookup t).filter (fun q => q.identity ≠ identity) →
      False := by
    intro heq
    have hne := (filter_eq_some_iff.mp (heq.symm.trans hp)).2
    simp [hid] at hne
  match op, r, hvoids with
  | .confirmPending t' readAt writtenAt, .confirmed (some identity'), hvoids =>
    obtain rfl : t' = t := hvoids
    obtain ⟨q, hq, hqid, hrows⟩ := exists_pending_of_confirmed hat (fun p w => hfresh _ p w) hstep
    obtain ⟨hp', hne⟩ := filter_eq_some_iff.mp ((hrows t').symm.trans hp)
    obtain rfl := some.inj (hq.symm.trans hp')
    simp [hqid] at hne
  | .removeEmail identity' now, r, hvoids =>
    obtain rfl : identity' = identity := hvoids
    obtain rfl := eq_enter_of_opAt hat nofun nofun
    obtain ⟨rfl, -⟩ := Prod.mk.inj hstep
    exact hdeleted (lookup_removeEmail ..)
  | .unsubscribe identity' epoch now, .removed true, hvoids =>
    obtain rfl : identity' = identity := hvoids
    obtain rfl := eq_remove_of_removed hat hstep
    obtain ⟨rfl, -⟩ := Prod.mk.inj hstep
    exact hdeleted (lookup_removeEmail ..)
  | .deleteIdentity identity', r, hvoids =>
    obtain rfl : identity' = identity := hvoids
    obtain rfl := eq_enter_of_opAt hat nofun nofun
    obtain ⟨rfl, -⟩ := Prod.mk.inj hstep
    exact hdeleted (lookup_deletePending ..)
  | .addPending t' q, r, hvoids =>
    obtain ⟨rfl, hne⟩ := hvoids
    obtain rfl := eq_enter_of_opAt hat nofun nofun
    obtain ⟨rfl, -⟩ : (s.addPending t' q).1 = s' ∧ _ = _ := by simpa [Next.run] using hstep
    refine hdeleted ?_
    rw [lookup_addPending, if_neg fun h => hne h.2.symm]

/-- A token that confirms an address for an identity has been recorded for it since it was void. -/
def TokensOnce (s : Store) (es : List (Event Op)) : Prop :=
  ∀ before i mid j after c₁ c₂ op r t readAt writtenAt identity,
    es = before ++ .step i :: (mid ++ .step j :: after) → storeObject.run (init s) before = some c₁ →
    storeObject.run (init s) (before ++ .step i :: mid) = some c₂ → Ends c₁ i op r → Voids t identity op r →
    Ends c₂ j (.confirmPending t readAt writtenAt) (.confirmed (some identity)) →
    ∃ between k rest c p, mid = between ++ .step k :: rest ∧
      storeObject.run (init s) (before ++ .step i :: between) = some c ∧
      Ends c k (.addPending t p) .done ∧ p.identity = identity

/-- A link removes an address only while its epoch is current, and none after its epoch ended unless a row was
created since with an epoch no higher. -/
def LinksVoid (s : Store) (es : List (Event Op)) : Prop :=
  ∀ before mid i after c₁ c₂ identity epoch now, es = before ++ (mid ++ .step i :: after) →
    storeObject.run (init s) before = some c₁ → storeObject.run (init s) (before ++ mid) = some c₂ →
    Ends c₂ i (.unsubscribe identity epoch now) (.removed true) →
    c₂.state.unsubEpoch identity = some epoch.toNat ∧
      ∀ n, c₁.state.unsubEpoch identity = some n → epoch.toNat < n →
        ∃ between k rest c at_ random, mid = between ++ .step k :: rest ∧
          storeObject.run (init s) (before ++ between) = some c ∧
          Ends c k (.ensureSubscriber identity at_ random) (.created true) ∧ (random >>> 1).toNat ≤ epoch.toNat

section Run

variable {s : Store} {es : List (Event Op)} (hfresh : RunFresh s es)

include hfresh

theorem tokensOnce_of_fresh : TokensOnce s es := by
  intro before i mid j after c₁ c₂ op r t readAt writtenAt identity hes hrun₁ hrun₂ hends hvoids hconfirmed
  obtain ⟨l, s', hl, hstep⟩ := hends
  obtain ⟨l₂, s₂, hl₂, hstep₂⟩ := hconfirmed
  have hfresh₁ := hfresh before i _ c₁ hes hrun₁ op l hl
  have hfresh₂ := hfresh (before ++ .step i :: mid) j after c₂ (by simp [hes]) hrun₂ _ l₂ hl₂
  have hgone := not_pending_of_voids (opAt_of_run hrun₁ hl) (by rintro t p w rfl; exact hfresh₁) hstep hvoids
  obtain ⟨p, hp, hid, -⟩ := exists_pending_of_confirmed (opAt_of_run hrun₂ hl₂)
    (by rintro p w rfl; exact hfresh₂) hstep₂
  -- the row came about between the two steps
  obtain ⟨c₁', hrun₁', hmid⟩ := (run_append storeObject).mp
    (show storeObject.run (init s) ((before ++ [.step i]) ++ mid) = some c₂ by simpa using hrun₂)
  have hstate : c₁'.state = s' := by
    obtain ⟨c₀, hc₀, hnext⟩ := (run_concat storeObject).mp hrun₁'
    obtain rfl := some.inj (hrun₁.symm.trans hc₀)
    obtain ⟨op', l', hl', ⟨s₁, l₁, hstep', rfl⟩ | ⟨s₁, r', hstep', rfl⟩⟩ := next?_step hnext <;>
      obtain ⟨rfl, rfl⟩ : op = op' ∧ l = l' := by simpa using hl.symm.trans hl'
    · cases hstep.symm.trans hstep'
    · cases hstep.symm.trans hstep'
      rfl
  obtain ⟨between, k, rest, c, op', l', s'', x, hes', hbetween, hk, hkstep, hbefore, hafter⟩ :=
    exists_step_of_run storeObject (P := fun s => ∃ p, s.pendingEmail.lookup t = some p ∧ p.identity = identity)
      hmid (hstate ▸ hgone) ⟨p, hp, hid⟩
  obtain ⟨q, hq, hqid⟩ := hafter
  obtain hold | ⟨q', rfl, hq', rfl⟩ := lookup_pending_of_step hkstep hq
  · exact absurd ⟨q, hold, hqid⟩ hbefore
  · have hrun : storeObject.run (init s) (before ++ .step i :: between) = some c := by
      have happend : storeObject.run (init s) ((before ++ [.step i]) ++ between) = some c :=
        (run_append storeObject).mpr ⟨c₁', hrun₁', hbetween⟩
      simpa using happend
    have hop : op' = .addPending t q' := (opAt_of_run hrun hk).symm
    exact ⟨between, k, rest, c, q', hes', hrun, ⟨.enter (.addPending t q'), s'', hop ▸ hk, hkstep⟩, hq'.trans hqid⟩

theorem linksVoid_of_fresh : LinksVoid s es := by
  intro before mid i after c₁ c₂ identity epoch now hes hrun₁ hrun₂ hends
  obtain ⟨l, s', hl, hstep⟩ := hends
  have hf := hfresh (before ++ mid) i after c₂ (by simp [hes]) hrun₂ _ l hl
  obtain rfl := eq_remove_of_removed (opAt_of_run hrun₂ hl) hstep
  refine ⟨hf, fun n hn hlt => ?_⟩
  obtain ⟨c₁', hrun₁', hmid⟩ := (run_append storeObject).mp hrun₂
  obtain rfl := some.inj (hrun₁.symm.trans hrun₁')
  have hstart : ¬∃ m, c₁.state.unsubEpoch identity = some m ∧ m ≤ epoch.toNat := by
    rintro ⟨m, hm, hle⟩
    obtain rfl := some.inj (hn.symm.trans hm)
    omega
  obtain ⟨between, k, rest, c, op, l, s'', x, hes', hbetween, hk, hkstep, hbefore, m, hm, hle⟩ :=
    exists_step_of_run storeObject (P := fun s => ∃ m, s.unsubEpoch identity = some m ∧ m ≤ epoch.toNat)
      hmid hstart ⟨_, hf, le_rfl⟩
  obtain ⟨m', hm', hle'⟩ | ⟨at_, random, rfl, rfl, rfl⟩ := unsubEpoch_of_step hkstep hm
  · exact absurd ⟨m', hm', hle'.trans hle⟩ hbefore
  · have hrun : storeObject.run (init s) (before ++ between) = some c :=
      (run_append storeObject).mpr ⟨c₁, hrun₁, hbetween⟩
    have hop : op = .ensureSubscriber identity at_ random := (opAt_of_run hrun hk).symm
    exact ⟨between, k, rest, c, at_, random, hes', hrun, ⟨.enter (.ensureSubscriber identity at_ random), s'',
      hop ▸ hk, hkstep⟩, hle⟩

end Run

/-- When no call is overtaken between its check and its act, the calls of a run do what they do one after
another in an order that keeps the real one, a token confirms once, and a link removes nothing after its
epoch. -/
theorem store_linearizable {s : Store} {es : List (Event Op)} {c : StoreConfig}
    (h : storeObject.run (init s) es = some c) (hfresh : RunFresh s es) :
    storeObject.Linearizable s es c ∧ TokensOnce s es ∧ LinksVoid s es := by
  refine ⟨linearizable_of_lastStep h fun before i after c₁ hes hrun => ?_, tokensOnce_of_fresh hfresh,
    linksVoid_of_fresh hfresh⟩
  exact effectAtLast_of_fresh (fun _ _ hl => opAt_of_run hrun hl) (hfresh before i after c₁ hes hrun)

/-! ### Two runs -/

/-- A subscriber with a pending address. -/
def signedUp : Store :=
  ((({} : Store).ensureSubscriber "id" 1 7).1.addPending "tok"
    { identity := "id", emailSealed := [1], emailIdx := "a", expiresAt := 9 }).1

/-- Another identity's address is removed between the two steps of a confirmation. -/
def crossedConfirm : List (Event Op) :=
  [.call 0 (.confirmPending "tok" 2 5), .step 0, .call 1 (.removeEmail "other" 3), .step 1, .ret 1, .step 0, .ret 0]

theorem store_linearizable_crossedConfirm : ∃ c, storeObject.run (init signedUp) crossedConfirm = some c ∧
    RunFresh signedUp crossedConfirm ∧ storeObject.Linearizable signedUp crossedConfirm c ∧
    TokensOnce signedUp crossedConfirm ∧ LinksVoid signedUp crossedConfirm := by
  have hfresh : RunFresh signedUp crossedConfirm := by
    intro before i after c hes hrun
    rcases before with _ | ⟨e₀, _ | ⟨e₁, _ | ⟨e₂, _ | ⟨e₃, _ | ⟨e₄, _ | ⟨e₅, _ | ⟨e₆, before⟩⟩⟩⟩⟩⟩⟩ <;>
      simp [crossedConfirm] at hes
    -- the check, the removal of the other address, and the act
    · obtain ⟨rfl, rfl, -⟩ := hes
      obtain rfl := Option.some.inj hrun
      rintro op l hl
      cases hl
      trivial
    · obtain ⟨rfl, rfl, rfl, rfl, -⟩ := hes
      obtain rfl := Option.some.inj hrun
      rintro op l hl
      cases hl
      trivial
    · obtain ⟨rfl, rfl, rfl, rfl, rfl, rfl, -⟩ := hes
      obtain rfl := Option.some.inj hrun
      rintro op l hl
      cases hl
      rfl
  have hrun : (storeObject.run (init signedUp) crossedConfirm).isSome := rfl
  obtain ⟨c, hc⟩ := Option.isSome_iff_exists.mp hrun
  exact ⟨c, hc, hfresh, store_linearizable hc hfresh⟩

/-- The address is removed between the two steps of its confirmation. -/
def overtakenConfirm : List (Event Op) :=
  [.call 0 (.confirmPending "tok" 2 5), .step 0, .call 1 (.removeEmail "id" 3), .step 1, .ret 1, .step 0, .ret 0]

theorem not_linearizable_overtakenConfirm : ∃ c, storeObject.run (init signedUp) overtakenConfirm = some c ∧
    (c.state.subscriber.lookup "id").map Subscriber.emailVerified = some true ∧
    ¬storeObject.Linearizable signedUp overtakenConfirm c := by
  refine ⟨_, rfl, by decide, ?_⟩
  rintro ⟨order, hfinished, honce, hsequential, -⟩
  have hcalls : ∀ i op r, (i, op, r) ∈ order ↔
      (i, op, r) ∈ [(0, Op.confirmPending "tok" 2 5, Result.confirmed (some "id")),
          (1, .removeEmail "id" 3, .done)] := by
    intro i op r
    rw [hfinished]
    match i with
    | 0 => simp [Config.set, init, eq_comm]
    | 1 => simp [Config.set, init, eq_comm]
    | i + 2 => simp [Config.set, init]
  have hperm := (List.perm_ext_iff_of_nodup (List.Nodup.of_map _ honce) (by decide)).mpr fun x => hcalls x.1 x.2.1 x.2.2
  rcases List.perm_pair.mp hperm with rfl | rfl
  · -- confirmed first: the address is gone at the end
    have halone := hsequential.unique (.cons (.next rfl (.last rfl)) (.cons (.last rfl) (.nil _))) rfl
    exact absurd (congrArg (fun s : Store => (s.subscriber.lookup "id").map Subscriber.emailVerified) halone.2)
      (by decide)
  · -- removed first: the token confirms nothing
    have halone : storeObject.Sequential signedUp
        [(Op.removeEmail "id" 3, Result.done), (.confirmPending "tok" 2 5, .confirmed none)] _ :=
      .cons (.last rfl) (.cons (.last rfl) (.nil _))
    exact absurd (hsequential.unique halone rfl).1 (by decide)

end DashForge.Notify
