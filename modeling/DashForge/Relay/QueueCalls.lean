import DashForge.Relay.QueueBounds

/-!
# The queue's calls

What every call keeps (`Queue.Inv`): the indexes are those of the entries, the bounds are met, and at most
`maxDropped` records are kept. What a call does to the entries is `Kept`. Every call on a queue with the
invariant returns (`Queue.Inv.exists_step`), and so does loading any files (`Queue.exists_load`).
-/

namespace DashForge.Relay

open Finset (card_le_card mem_sort)
open List Option SortedMap

variable {q : Queue} {lim : Limits} {st st₁ st' : State} {now : ℕ}

/-- The clock a call reads. -/
def Op.clock : Op → Option ℕ
  | .fail _ now _ _ => some now
  | .dropEntry _ _ now => some now
  | .dropWhere _ _ now => some now
  | .due now => some now
  | _ => none

/-- A call makes an entry: a failure of an id that has none. -/
def Op.Creates (op : Op) (st : State) (id : String) : Prop :=
  match op with
  | .fail f _ _ _ => f.id = id ∧ st.entries.lookup id = none
  | _ => False

/-- What a call does to the entries. -/
structure Kept (op : Op) (st st' : State) : Prop where
  /-- A pending entry, or a new one, is pending after, or given up now. -/
  pending : ∀ id, st.isPending id ∨ op.Creates st id → op ≠ .succeeded id →
    st'.isPending id ∨ ∃ now, op.clock = some now ∧ st'.GivenUp now id
  /-- A record stays, unless all that are kept are newer or it is past its retention. -/
  record : ∀ e, st.Record e → op ≠ .succeeded e.id → st'.Record e ∨ st'.Full e.droppedKey ∨
    ∃ now, op = .due now ∧ droppedRetention ≤ now - e.droppedMs.getD 0
  /-- What is pending was, since the same time, or is new. -/
  origin : ∀ e, st'.Pending e → (∃ e₀, st.Pending e₀ ∧ e₀.id = e.id ∧ e₀.createdMs = e.createdMs) ∨
    op.Creates st e.id ∧ op.clock = some e.createdMs

namespace Queue

/-- What holds of the queue between calls. -/
structure Inv (q : Queue) (st : State) : Prop extends Sound q.limits st where
  bounded : Bounded q.limits st.entries.values
  card_dropped : st.dropped.card ≤ maxDropped

end Queue

namespace Sound

theorem isPending_iff (h : Sound lim st) {id : String} : st.isPending id ↔ ∃ e, st.Pending e ∧ e.id = id := by
  rw [State.isPending_iff]
  constructor
  · rintro ⟨e, he, hp⟩
    obtain rfl := h.keyed id e he
    exact ⟨e, ⟨he, hp⟩, rfl⟩
  · rintro ⟨e, he, rfl⟩
    exact ⟨e, he.1, he.2⟩

theorem eq_of_pending {e e' : Entry} (he : st.Pending e) (he' : st.Pending e') (hid : e.id = e'.id) : e = e' :=
  some.inj (he.1.symm.trans (hid ▸ he'.1))

end Sound

variable {op : Op}

theorem Kept.of_drops (hs₁ : Sound lim st₁) (hs' : Sound lim st') (hnow : op.clock = some now)
    (hpending : ∀ id, st.isPending id ∨ op.Creates st id → st₁.isPending id) (hrecord : ∀ e, st.Record e → st₁.Record e)
    (horigin : ∀ e, st₁.Pending e → (∃ e₀, st.Pending e₀ ∧ e₀.id = e.id ∧ e₀.createdMs = e.createdMs) ∨
      op.Creates st e.id ∧ op.clock = some e.createdMs) (h : Drops now st₁ st') : Kept op st st' where
  pending id hid _ := by
    obtain ⟨e, he, rfl⟩ := hs₁.isPending_iff.mp (hpending id hid)
    rcases h.pending e he with he' | hgiven
    · exact .inl (hs'.isPending_iff.mpr ⟨e, he', rfl⟩)
    · exact .inr ⟨now, hnow, hgiven⟩
  record e he _ := (h.record e (hrecord e he)).imp_right .inl
  origin e he := horigin e (h.pending_of e he)

/-- A call that leaves the pending entries and the records. -/
theorem Kept.of_same (hop : ∀ id, ¬op.Creates st id) (hpending : ∀ id, st'.isPending id = st.isPending id)
    (hrecord : ∀ e, st.Record e → st'.Record e)
    (horigin : ∀ e, st'.Pending e → ∃ e₀, st.Pending e₀ ∧ e₀.id = e.id ∧ e₀.createdMs = e.createdMs) :
    Kept op st st' where
  pending id hid _ := .inl (by rw [hpending]; exact hid.resolve_right (hop id))
  record e he _ := .inl (hrecord e he)
  origin e he := .inl (horigin e he)

namespace Sound

/-! ### States with one index -/

theorem length_inHook_congr (hs : Sound lim st) (hs' : Sound lim st') (h : st'.toIndex = st.toIndex) (hook : Hook) :
    (pendingIn st'.entries.values (inHook hook)).length = (pendingIn st.entries.values (inHook hook)).length := by
  have hagrees : Agrees st'.entries.values st.toIndex := h ▸ hs'.agrees
  rw [← hs.card_pendingKeys, ← hs'.card_pendingKeys, ← getD_agedOf, ← hagrees.hooks, hs.agrees.hooks, getD_agedOf]

theorem length_inRepo_congr (hs : Sound lim st) (hs' : Sound lim st') (h : st'.toIndex = st.toIndex) (repo : String) :
    (pendingIn st'.entries.values (inRepo repo)).length = (pendingIn st.entries.values (inRepo repo)).length := by
  have hagrees : Agrees st'.entries.values st.toIndex := h ▸ hs'.agrees
  have htally := (getD_tallyOf (l := st'.entries.values) repo).symm
  rw [← hagrees.repos, hs.agrees.repos, getD_tallyOf] at htally
  rw [← hs.card_pendingKeys, ← hs'.card_pendingKeys]
  exact congrArg (fun t : Tally => t.aged.card) htally

end Sound

namespace Queue

theorem Bounded.congr (hb : Bounded lim st.entries.values) (hs : Sound lim st) (hs' : Sound lim st')
    (h : st'.toIndex = st.toIndex) : Bounded lim st'.entries.values := by
  have hagrees : Agrees st'.entries.values st.toIndex := h ▸ hs'.agrees
  refine ⟨⟨?_, ?_⟩, fun hook => ?_, fun repo => ?_⟩
  · rw [← hs'.card_pendingKeys, ← hagrees.aged, hs.agrees.aged, hs.card_pendingKeys]
    exact hb.total
  · rw [← hagrees.bytes, hs.agrees.bytes]
    exact hb.bytes
  · rw [hs.length_inHook_congr hs' h]
    exact hb.perHook hook
  · rw [hs.length_inRepo_congr hs' h]
    exact hb.perRepo repo

/-! ### Failures -/

theorem lookup_add (st : State) (e : Entry) (id : String) :
    (st.add e).entries.lookup id = if id = e.id then some e else st.entries.lookup id :=
  lookup_insert _ _ _ _

theorem length_pendingIn_add {e : Entry} {p : Entry → Bool} (hnone : st.entries.lookup e.id = none)
    (hp : ¬(e.status = .pending ∧ p e = true)) :
    (pendingIn (st.add e).entries.values p).length = (pendingIn st.entries.values p).length := by
  have hperm := values_perm_insert st.entries e.id e
  rw [erase_eq_self hnone] at hperm
  calc (pendingIn (st.add e).entries.values p).length = (pendingIn (e :: st.entries.values) p).length :=
        (hperm.filter _).length_eq
    _ = (pendingIn st.entries.values p).length := by rw [pendingIn_cons_of_not hp]

theorem failLocked_eq_map {e : Entry} (order : HashOrder) (f : Failure) (now : ℕ) (count : Bool) (deferUntil : Option ℕ)
    (hst₁ : (if (st.entries.lookup f.id).isSome then st else st.add (newEntry f now)) = st₁)
    (he : st₁.entries.lookup f.id = some e) (hp : e.status = .pending) : q.failLocked order f now count deferUntil st =
      (q.enforceBounds order e.hook now
        { st₁ with entries := st₁.entries.insert f.id (q.retried f now count deferUntil e) }).map
        fun st => (st, st.isPending f.id) := by
  have hfilter : (some e).filter (fun e : Entry => decide (e.status = .pending)) = some e := by simp [hp]
  simp [failLocked, hst₁, he, hfilter]

theorem exists_retry {e : Entry} (h : Sound q.limits st) (he : st.Pending e) (order : HashOrder) (f : Failure)
    (now : ℕ) (count : Bool) (deferUntil : Option ℕ)
    (hhooks : ∀ hook, hook ≠ e.hook → (pendingIn st.entries.values (inHook hook)).length ≤ q.limits.perHook)
    (hrepos : ∀ repo, repo ≠ e.repoId → (pendingIn st.entries.values (inRepo repo)).length ≤ q.limits.perRepo)
    (hcard : st.dropped.card ≤ maxDropped) : ∃ st₁ st', q.enforceBounds order e.hook now
        { st with entries := st.entries.insert e.id (q.retried f now count deferUntil e) } = some st' ∧
      q.Inv st' ∧ Sound q.limits st₁ ∧ Drops now st₁ st' ∧ (∀ id, st.isPending id → st₁.isPending id) ∧
      (∀ e, st.Record e → st₁.Record e) ∧
      ∀ e', st₁.Pending e' → ∃ e₀, st.Pending e₀ ∧ e₀.id = e'.id ∧ e₀.createdMs = e'.createdMs := by
  have hs₁ := h.replace (q.retried f now count deferUntil e) he rfl rfl rfl rfl
  obtain ⟨st', henforce, hs', hdrops, hbounded⟩ := exists_enforceBounds hs₁ order e.hook now
    (fun hook hne => (h.length_inHook_congr hs₁ rfl hook).trans_le (hhooks hook hne))
    (fun repo hne => (h.length_inRepo_congr hs₁ rfl repo).trans_le (hrepos repo hne))
  refine ⟨_, st', henforce, ⟨hs', hbounded, hdrops.card_dropped hcard⟩, hs₁, hdrops, fun id hid => ?_,
    fun e' he' => ?_, fun e' he' => ?_⟩
  · obtain ⟨e', he', rfl⟩ := h.isPending_iff.mp hid
    rw [State.isPending_iff, lookup_insert]
    split
    · exact ⟨_, rfl, he.2⟩
    · exact ⟨e', he'.1, he'.2⟩
  · exact ⟨by rw [lookup_insert, if_neg (he.id_ne he'), he'.1], he'.2⟩
  · obtain ⟨hfind, hp⟩ := he'
    rw [lookup_insert] at hfind
    split at hfind
    · next heq =>
      refine ⟨e, he, heq.symm, ?_⟩
      rw [← some.inj hfind]
      rfl
    · exact ⟨e', ⟨hfind, hp⟩, rfl, rfl⟩

theorem exists_failLocked (h : q.Inv st) (order : HashOrder) (f : Failure) (now : ℕ) (count : Bool)
    (deferUntil : Option ℕ) : ∃ st' b, q.failLocked order f now count deferUntil st = some (st', b) ∧ q.Inv st' ∧
      Kept (.fail f now count deferUntil) st st' := by
  cases hlookup : st.entries.lookup f.id with
  | some e =>
    obtain hid := h.keyed f.id e hlookup
    have hcreates : ∀ id, ¬(Op.fail f now count deferUntil).Creates st id := by
      rintro id ⟨rfl, hnone⟩
      rw [hlookup] at hnone
      cases hnone
    cases hstatus : e.status with
    | pending =>
      have he : st.Pending e := ⟨hid ▸ hlookup, hstatus⟩
      obtain ⟨st₁, st', henforce, hinv, hs₁, hdrops, hpending, hrecord, horigin⟩ :=
        exists_retry h.toSound he order f now count deferUntil (fun hook _ => h.bounded.perHook hook)
          (fun repo _ => h.bounded.perRepo repo) h.card_dropped
      refine ⟨st', st'.isPending f.id, ?_, hinv, Kept.of_drops hs₁ hinv.toSound rfl
        (fun id hor => hpending id (hor.resolve_right (hcreates id))) hrecord (fun e he => .inl (horigin e he)) hdrops⟩
      rw [hid] at henforce
      rw [failLocked_eq_map order f now count deferUntil (if_pos (by rw [hlookup]; rfl)) hlookup hstatus, henforce,
        map_some]
    | dropped =>
      have hfilter : (some e).filter (fun e : Entry => decide (e.status = .pending)) = none := by simp [hstatus]
      refine ⟨st, false, ?_, h, Kept.of_same hcreates (fun _ => rfl) (fun _ => id) fun e he => ⟨e, he, rfl, rfl⟩⟩
      simp [failLocked, hlookup, hfilter]
  | none =>
    -- the entry is new: its hook and its repo have one more
    have hs₁ : Sound q.limits (st.add (newEntry f now)) := h.add hlookup
    have he : (st.add (newEntry f now)).Pending (newEntry f now) := ⟨by rw [lookup_add, if_pos rfl], rfl⟩
    obtain ⟨st₁, st', henforce, hinv, hsound, hdrops, hpending, hrecord, horigin⟩ :=
      exists_retry hs₁ he order f now count deferUntil
        (fun hook hne => by
          rw [length_pendingIn_add hlookup fun hand => hne (of_decide_eq_true hand.2).symm]
          exact h.bounded.perHook hook)
        (fun repo hne => by
          rw [length_pendingIn_add hlookup fun hand => hne (of_decide_eq_true hand.2).symm]
          exact h.bounded.perRepo repo)
        h.card_dropped
    refine ⟨st', st'.isPending f.id, ?_, hinv, Kept.of_drops hsound hinv.toSound rfl (fun id hid => hpending id ?_)
      (fun e he => hrecord e ?_) (fun e he => ?_) hdrops⟩
    · rw [failLocked_eq_map order f now count deferUntil (if_neg (by rw [hlookup]; simp)) he.1 rfl]
      exact congrArg (Option.map _) henforce
    · rw [State.isPending_iff, lookup_add]
      split
      · exact ⟨_, rfl, rfl⟩
      · next hne =>
        rcases hid with hid | hid
        · exact State.isPending_iff.mp hid
        · exact absurd hid.1.symm hne
    · have hne : e.id ≠ (newEntry f now).id := fun heq =>
        absurd ((congrArg st.entries.lookup heq).symm.trans he.1)
          (by rw [show (newEntry f now).id = f.id from rfl, hlookup]; simp)
      exact ⟨by rw [lookup_add, if_neg hne, he.1], he.2⟩
    · obtain ⟨e₀, he₀, hid₀, hms₀⟩ := horigin e he
      obtain ⟨hfind, hp⟩ := he₀
      rw [lookup_add] at hfind
      split at hfind
      · next heq =>
        obtain rfl := some.inj hfind
        exact .inr ⟨⟨hid₀, hid₀ ▸ hlookup⟩, congrArg some hms₀⟩
      · exact .inl ⟨e₀, ⟨hfind, hp⟩, hid₀, hms₀⟩

end Queue

/-! ### Claims -/

theorem Queue.Inv.withClaimed (h : q.Inv st) (claimed : Finset String) : q.Inv { st with claimed := claimed } :=
  ⟨⟨h.keyed, h.agrees, h.fair⟩, h.bounded, h.card_dropped⟩

theorem Kept.withClaimed (h : Kept op st st') (claimed : Finset String) : Kept op st { st' with claimed := claimed } :=
  ⟨h.pending, h.record, h.origin⟩

theorem Kept.refl (hop : ∀ id, ¬op.Creates st id) : Kept op st st :=
  .of_same hop (fun _ => rfl) (fun _ => id) fun e he => ⟨e, he, rfl, rfl⟩

/-! ### One entry -/

theorem Queue.Inv.defer (h : q.Inv st) (id : String) (t : ℕ) :
    q.Inv (st.defer id t) ∧ Kept (.defer id t) st (st.defer id t) := by
  rw [State.defer]
  cases hfind : (st.entries.lookup id).filter fun e => e.status = .pending ∧ e.nextMs ≠ t with
  | none => exact ⟨h, .refl fun _ => not_false⟩
  | some e =>
    obtain ⟨hlookup, hp⟩ := filter_eq_some_iff.mp hfind
    obtain rfl := h.keyed id e hlookup
    have he : st.Pending e := ⟨hlookup, (of_decide_eq_true hp).1⟩
    have hs' := h.replace { e with nextMs := t } he rfl rfl rfl rfl
    refine ⟨⟨hs', h.bounded.congr h.toSound hs' rfl, h.card_dropped⟩, .of_same (fun _ => not_false) (fun id' => ?_)
      (fun e' he' => ?_) fun e' he' => ?_⟩
    · rw [State.isPending, lookup_insert]
      split
      · next heq => rw [State.isPending, heq, hlookup]; rfl
      · rfl
    · exact ⟨by rw [lookup_insert, if_neg (he.id_ne he'), he'.1], he'.2⟩
    · obtain ⟨hfind', hp'⟩ := he'
      rw [lookup_insert] at hfind'
      split at hfind'
      · next heq =>
        refine ⟨e, he, heq.symm, ?_⟩
        rw [← some.inj hfind']
      · exact ⟨e', ⟨hfind', hp'⟩, rfl, rfl⟩

theorem Queue.Inv.succeeded (h : q.Inv st) (id : String) :
    q.Inv (st.succeeded id) ∧ Kept (.succeeded id) st (st.succeeded id) := by
  rw [State.succeeded]
  cases hlookup : st.entries.lookup id with
  | none =>
    have hkept : Kept (.succeeded id) st st := .refl fun _ => not_false
    exact ⟨h.withClaimed _, hkept.withClaimed _⟩
  | some e =>
    obtain rfl := h.keyed id e hlookup
    have hs' := h.remove hlookup
    have hlookup' : ∀ id, (st.remove e).entries.lookup id = if id = e.id then none else st.entries.lookup id :=
      fun id => lookup_erase _ _ _
    have hsub : ∀ e', (st.remove e).Pending e' → st.Pending e' := by
      rintro e' ⟨hfind, hp⟩
      rw [hlookup'] at hfind
      split at hfind
      · cases hfind
      · exact ⟨hfind, hp⟩
    have hdropped : (st.remove e).dropped ⊆ st.dropped := by
      rw [State.remove, Index.unindex]
      split
      · exact subset_rfl
      · exact Finset.erase_subset _ _
    have hinv : q.Inv (st.remove e) :=
      ⟨hs', h.bounded.mono h.toSound hs' hsub, (card_le_card hdropped).trans h.card_dropped⟩
    refine ⟨hinv.withClaimed _, Kept.withClaimed ⟨fun id hid hne => .inl ?_, fun e' he' hne => .inl ?_,
      fun e' he' => .inl ⟨e', hsub e' he', rfl, rfl⟩⟩ _⟩
    · rcases hid with hid | hid
      · have hne' : id ≠ e.id := fun heq => hne (heq ▸ rfl)
        rw [State.isPending]
        change ((st.remove e).entries.lookup id).any _ = true
        rw [hlookup', if_neg hne']
        exact hid
      · exact hid.elim
    · have hne' : e'.id ≠ e.id := fun heq => hne (heq ▸ rfl)
      refine ⟨?_, he'.2⟩
      rw [hlookup', if_neg hne', he'.1]

theorem Sound.foldl_markDropped (h : Sound lim st) (ids : List String) (hnodup : ids.Nodup)
    (hids : ∀ id ∈ ids, st.isPending id) (reason : String) (now : ℕ) :
    Sound lim (ids.foldl (fun st id => st.markDropped id reason now) st) ∧
      Drops now st (ids.foldl (fun st id => st.markDropped id reason now) st) := by
  induction ids generalizing st with
  | nil => exact ⟨h, .refl now st⟩
  | cons id ids ih =>
    obtain ⟨e, he, rfl⟩ := h.isPending_iff.mp (hids id mem_cons_self)
    obtain ⟨hs₁, hd₁, hpending, -, -⟩ := h.markDropped he reason now
    obtain ⟨hnot, hnodup⟩ := nodup_cons.mp hnodup
    obtain ⟨hs₂, hd₂⟩ := ih hs₁ hnodup fun id hid => by
      obtain ⟨e', he', rfl⟩ := h.isPending_iff.mp (hids id (mem_cons_of_mem _ hid))
      exact hs₁.isPending_iff.mpr ⟨e', (hpending e').mpr ⟨he', fun heq => hnot (heq ▸ hid)⟩, rfl⟩
    exact ⟨hs₂, hd₁.trans hd₂⟩

theorem Queue.Inv.of_drops (h : q.Inv st) (hs' : Sound q.limits st') (hdrops : Drops now st st') : q.Inv st' :=
  ⟨hs', h.bounded.mono h.toSound hs' hdrops.pending_of, hdrops.card_dropped h.card_dropped⟩

theorem Queue.Inv.kept_of_drops (h : q.Inv st) (hop : ∀ id, ¬op.Creates st id)
    (hclock : op.clock = some now) (hs' : Sound q.limits st') (hdrops : Drops now st st') : Kept op st st' :=
  .of_drops h.toSound hs' hclock (fun id hid => hid.resolve_right (hop id)) (fun _ => id)
    (fun e he => .inl ⟨e, he, rfl, rfl⟩) hdrops

theorem Queue.Inv.dropEntry (h : q.Inv st) (id reason : String) (now : ℕ) :
    q.Inv (st.dropEntry id reason now) ∧ Kept (.dropEntry id reason now) st (st.dropEntry id reason now) := by
  rw [State.dropEntry]
  split
  · next hp =>
    obtain ⟨e, he, rfl⟩ := h.isPending_iff.mp hp
    obtain ⟨hs', hdrops, -⟩ := h.markDropped he reason now
    have hkept : Kept (.dropEntry e.id reason now) st (st.markDropped e.id reason now) :=
      h.kept_of_drops (fun _ => not_false) rfl hs' hdrops
    exact ⟨(h.of_drops hs' hdrops).withClaimed _, hkept.withClaimed _⟩
  · have hkept : Kept (.dropEntry id reason now) st st := .refl fun _ => not_false
    exact ⟨h.withClaimed _, hkept.withClaimed _⟩

/-- The ids that `dropWhere` collects are pending, and each comes once: a pending entry has one hook. -/
theorem Sound.hookIds (h : Sound lim st) (order : HashOrder) (hits : String → String → Bool) :
    (((order.hooks st.hooks).filter fun x => hits (ofLex x.1).1 (ofLex x.1).2).flatMap fun x =>
      (x.2.sort (· ≤ ·)).map fun k => (ofLex k).2).Nodup ∧
    ∀ id ∈ ((order.hooks st.hooks).filter fun x => hits (ofLex x.1).1 (ofLex x.1).2).flatMap fun x =>
      (x.2.sort (· ≤ ·)).map fun k => (ofLex k).2, st.isPending id := by
  have hof : ∀ x ∈ order.hooks st.hooks, ∀ k ∈ x.2, ∃ e, st.Pending e ∧ e.hook = x.1 ∧ e.key = k := by
    intro x hx k hk
    rw [(order.hooks_perm _).mem_iff, ← SortedMap.lookup_eq_some_iff] at hx
    obtain ⟨-, haged⟩ := h.lookup_hooks_eq_some.mp hx
    obtain ⟨e, he, ⟨hp, hhook⟩, rfl⟩ := mem_pendingKeys.mp (haged ▸ hk)
    exact ⟨e, ⟨h.mem_values.mp he, hp⟩, of_decide_eq_true hhook, rfl⟩
  have hnodup : (order.hooks st.hooks).Nodup :=
    (order.hooks_perm _).nodup_iff.mpr (st.hooks.sorted.imp fun hlt => ne_of_apply_ne Prod.fst hlt.ne)
  refine ⟨nodup_flatMap.mpr ⟨fun x hx => ?_, ?_⟩, fun id hid => ?_⟩
  · refine (Finset.sort_nodup _ _).map_on fun k hk k' hk' heq => ?_
    obtain ⟨e, he, -, rfl⟩ := hof x (mem_filter.mp hx).1 k ((mem_sort _).mp hk)
    obtain ⟨e', he', -, rfl⟩ := hof x (mem_filter.mp hx).1 k' ((mem_sort _).mp hk')
    rw [Sound.eq_of_pending he he' heq]
  · refine (hnodup.filter _).imp_of_mem fun {x y} hx hy hne => ?_
    rw [Function.onFun_apply, disjoint_left]
    intro id hid hid'
    obtain ⟨k, hk, rfl⟩ := mem_map.mp hid
    obtain ⟨k', hk', heq⟩ := mem_map.mp hid'
    obtain ⟨e, he, hhook, rfl⟩ := hof x (mem_filter.mp hx).1 k ((mem_sort _).mp hk)
    obtain ⟨e', he', hhook', rfl⟩ := hof y (mem_filter.mp hy).1 k' ((mem_sort _).mp hk')
    have hsame : e' = e := Sound.eq_of_pending he' he heq
    have hkey : x.1 = y.1 := hhook.symm.trans (hsame ▸ hhook')
    have hx' := (order.hooks_perm _).mem_iff.mp (mem_filter.mp hx).1
    exact hne (eq_of_mem_entries hx' ((order.hooks_perm _).mem_iff.mp (mem_filter.mp hy).1) hkey)
  · obtain ⟨x, hx, hid⟩ := mem_flatMap.mp hid
    obtain ⟨k, hk, rfl⟩ := mem_map.mp hid
    obtain ⟨e, he, -, rfl⟩ := hof x (mem_filter.mp hx).1 k ((mem_sort _).mp hk)
    exact h.isPending_iff.mpr ⟨e, he, rfl⟩

theorem Queue.Inv.dropWhere (h : q.Inv st) (order : HashOrder) (hits : String → String → Bool) (reason : String)
    (now : ℕ) : q.Inv (st.dropWhere order hits reason now) ∧
      Kept (.dropWhere hits reason now) st (st.dropWhere order hits reason now) := by
  obtain ⟨hnodup, hids⟩ := h.hookIds order hits
  obtain ⟨hs', hdrops⟩ := h.foldl_markDropped _ hnodup hids reason now
  exact ⟨h.of_drops hs' hdrops, h.kept_of_drops (fun _ => not_false) rfl hs' hdrops⟩

/-! ### Housekeeping -/

theorem Sound.expiryRound_eq (h : Sound lim st) (now : ℕ) :
    st.expiryRound now = none ∧ (∀ e, st.Pending e → now - e.createdMs < expiry) ∨
    ∃ k ∈ st.aged, st.expiryRound now = some (st.markDropped (ofLex k).2 "expired: undelivered for 48 h" now) := by
  rw [State.expiryRound]
  cases hfirst : first st.aged with
  | none =>
    refine .inl ⟨rfl, fun e he => ?_⟩
    have hmem := h.mem_aged.mpr ⟨e, he, rfl⟩
    rw [first_eq_none_iff.mp hfirst] at hmem
    exact absurd hmem (Finset.notMem_empty _)
  | some k =>
    obtain ⟨hk, hmin⟩ := first_eq_some_iff.mp hfirst
    rw [filter_some]
    by_cases hold : expiry ≤ now - (ofLex k).1
    · refine .inr ⟨k, hk, ?_⟩
      rw [decide_eq_true hold, if_pos rfl, map_some]
    · refine .inl ⟨?_, fun e he => ?_⟩
      · rw [decide_eq_false hold, if_neg Bool.false_ne_true, map_none]
      · -- no pending entry is older than the first
        have hle : (ofLex k).1 ≤ e.createdMs := Prod.Lex.monotone_fst _ _ (hmin _ (h.mem_aged.mpr ⟨e, he, rfl⟩))
        omega

theorem Sound.exists_expire (h : Sound lim st) (now : ℕ) : ∃ st', st.expire now = some st' ∧ Sound lim st' ∧
    Drops now st st' ∧ ∀ e, st'.Pending e → now - e.createdMs < expiry :=
  exists_loop_dropped (fun _ hs => hs.expiryRound_eq now) h

/-- Records forgotten for their age. -/
structure Prunes (now : ℕ) (st st' : State) : Prop where
  pending : ∀ e, st'.Pending e ↔ st.Pending e
  record : ∀ e, st.Record e → st'.Record e ∨ droppedRetention ≤ now - e.droppedMs.getD 0
  dropped : st'.dropped ⊆ st.dropped
  young : ∀ k ∈ st.dropped, now - (ofLex k).1 < droppedRetention → k ∈ st'.dropped

theorem Sound.pruneDropped (h : Sound lim st) (now : ℕ) :
    Sound lim (st.pruneDropped now) ∧ Prunes now st (st.pruneDropped now) := by
  fun_induction State.pruneDropped st now with
  | case1 st k hfirst hyoung =>
    exact ⟨h, fun _ => .rfl, fun _ => .inl, subset_rfl, fun _ hk _ => hk⟩
  | case2 st k hfirst hold ih =>
    obtain ⟨e, he, rfl, hpop⟩ := h.popDropped_eq hfirst
    have hdropped : st.popDropped.dropped = st.dropped.erase e.droppedKey := by rw [State.popDropped, hfirst]
    obtain ⟨hsound, hprunes⟩ := ih (hpop ▸ h.remove he.1)
    refine ⟨hsound, fun e' => (hprunes.pending e').trans ?_, fun e' he' => ?_, ?_, fun k' hk' hyoung => ?_⟩
    · rw [hpop, State.pending_remove he]
    · rcases State.record_remove he he' with hleft | rfl
      · exact hprunes.record e' (hpop ▸ hleft)
      · exact .inr (not_lt.mp hold)
    · exact hprunes.dropped.trans (hdropped ▸ Finset.erase_subset _ _)
    · refine hprunes.young k' ?_ hyoung
      rw [hdropped]
      exact Finset.mem_erase.mpr ⟨fun heq => hold (heq ▸ hyoung), hk'⟩
  | case3 st hfirst => exact ⟨h, fun _ => .rfl, fun _ => .inl, subset_rfl, fun _ hk _ => hk⟩

theorem Prunes.full (h : Prunes now st st') {k : Key} (hk : now - (ofLex k).1 < droppedRetention)
    (hfull : st.Full k) : st'.Full k := by
  refine hfull.trans (card_le_card fun k' hk' => ?_)
  obtain ⟨hmem, hlt⟩ := Finset.mem_filter.mp hk'
  have hle : (ofLex k).1 ≤ (ofLex k').1 := Prod.Lex.monotone_fst _ _ hlt.le
  exact Finset.mem_filter.mpr ⟨h.young k' hmem (by omega), hlt⟩

theorem Queue.Inv.exists_due (h : q.Inv st) (now : ℕ) : ∃ st' entries, st.due now = some (st', entries) ∧
    q.Inv st' ∧ Kept (.due now) st st' ∧
    ∀ e ∈ entries, ∃ e', st'.Pending e' ∧ e = e'.head ∧ now - e'.createdMs < expiry := by
  obtain ⟨st₁, hexpire, hs₁, hdrops, hyoung⟩ := h.exists_expire now
  obtain ⟨hs₂, hprunes⟩ := hs₁.pruneDropped now
  have hnow : now - now < droppedRetention := by
    rw [Nat.sub_self]
    decide
  refine ⟨st₁.pruneDropped now, _, by rw [State.due, hexpire, map_some], ⟨hs₂,
    h.bounded.mono h.toSound hs₂ fun e he => hdrops.pending_of e ((hprunes.pending e).mp he),
    (card_le_card hprunes.dropped).trans (hdrops.card_dropped h.card_dropped)⟩,
    ⟨fun id hid _ => ?_, fun e he _ => ?_, fun e he => ?_⟩, fun e he => ?_⟩
  · rcases hid with hid | hid
    · obtain ⟨e, he, rfl⟩ := h.isPending_iff.mp hid
      rcases hdrops.pending e he with he | ⟨r, hr, hid', hms⟩ | hfull
      · exact .inl (hs₂.isPending_iff.mpr ⟨e, (hprunes.pending e).mpr he, rfl⟩)
      · refine .inr ⟨now, rfl, .inl ⟨r, (hprunes.record r hr).resolve_right ?_, hid', hms⟩⟩
        rw [hms]
        exact not_le.mpr hnow
      · exact .inr ⟨now, rfl, .inr (hprunes.full hnow hfull)⟩
    · exact hid.elim
  · by_cases hold : droppedRetention ≤ now - e.droppedMs.getD 0
    · exact .inr (.inr ⟨now, rfl, hold⟩)
    · rcases hdrops.record e he with he | hfull
      · exact .inl ((hprunes.record e he).resolve_right hold)
      · exact .inr (.inl (hprunes.full (not_le.mp hold) hfull))
  · exact .inl ⟨e, hdrops.pending_of e ((hprunes.pending e).mp he), rfl, rfl⟩
  · obtain ⟨e', he', rfl⟩ := mem_map.mp he
    obtain ⟨hmem, hdue⟩ := mem_filter.mp he'
    have hp : (st₁.pruneDropped now).Pending e' :=
      ⟨hs₂.mem_values.mp hmem, (of_decide_eq_true hdue).1.1⟩
    exact ⟨e', hp, rfl, hyoung e' ((hprunes.pending e').mp hp)⟩

end DashForge.Relay
