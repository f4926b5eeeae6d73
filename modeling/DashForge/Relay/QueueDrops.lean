import DashForge.Relay.QueueIndex

/-!
# Dropping entries

What dropping a pending entry does to the queue (`Sound.markDropped`): its indexes stay those of its entries
(`Sound`), the entry becomes a record of its own time, and a record is given up only for `maxDropped` that
are newer (`Drops`).
-/

namespace DashForge.Relay

open List Option SortedMap

/-! ### Entries of a state -/

namespace State

/-- A pending entry of the queue. -/
def Pending (st : State) (e : Entry) : Prop := st.entries.lookup e.id = some e ∧ e.status = .pending

/-- A dropped record of the queue. -/
def Record (st : State) (e : Entry) : Prop := st.entries.lookup e.id = some e ∧ e.status = .dropped

/-- As many records as are kept come after a key. -/
def Full (st : State) (k : Key) : Prop := maxDropped ≤ (st.dropped.filter fun k' => k < k').card

/-- An id was dropped at `now`: its record is there, unless all that are kept are newer. -/
def GivenUp (st : State) (now : ℕ) (id : String) : Prop :=
  (∃ e, st.Record e ∧ e.id = id ∧ e.droppedMs = some now) ∨ st.Full (toLex (now, id))

theorem isPending_iff {st : State} {id : String} :
    st.isPending id = true ↔ ∃ e, st.entries.lookup id = some e ∧ e.status = .pending := by
  simp [isPending, Option.any_eq_true]

/-- Unindex an entry and forget it. -/
def remove (st : State) (e : Entry) : State :=
  { st with toIndex := st.toIndex.unindex e, entries := st.entries.erase e.id }

variable {st : State} {e e' : Entry}

theorem Pending.id_ne (he : st.Pending e) (he' : st.Record e') : e'.id ≠ e.id := by
  intro heq
  have hsame : e = e' := some.inj (he.1.symm.trans (heq ▸ he'.1))
  exact absurd (he.2.symm.trans (hsame ▸ he'.2)) (by decide)

theorem pending_remove (he : st.Record e) : (st.remove e).Pending e' ↔ st.Pending e' := by
  rw [Pending, remove, lookup_erase, Pending]
  split
  · next heq =>
    rw [heq, he.1]
    constructor
    · rintro ⟨h, -⟩
      cases h
    · rintro ⟨h, hp⟩
      rw [← some.inj h, he.2] at hp
      cases hp
  · rfl

theorem record_remove (he : st.Record e) (he' : st.Record e') : (st.remove e).Record e' ∨ e = e' := by
  by_cases heq : e'.id = e.id
  · exact .inr (some.inj (he.1.symm.trans (heq ▸ he'.1)))
  · exact .inl ⟨by rw [remove, lookup_erase, if_neg heq, he'.1], he'.2⟩

end State

/-- An eviction took the oldest entry of a repo with the most entries or, where only the bodies were too
much, of one with the most bytes. -/
def Fair (lim : Limits) (l : List Entry) (id : String) : Prop :=
  ∃ e ∈ pendingIn l anyEntry, e.id = id ∧ (∀ e' ∈ pendingIn l (inRepo e.repoId), e.key ≤ e'.key) ∧
    if lim.total < (pendingIn l anyEntry).length then
      ∀ repo, (pendingIn l (inRepo repo)).length ≤ (pendingIn l (inRepo e.repoId)).length
    else
      lim.bytes < pendingBytes l anyEntry ∧ ∀ repo, pendingBytes l (inRepo repo) ≤ pendingBytes l (inRepo e.repoId)

/-- The entries are under their ids, the indexes are theirs, and the evictions were fair. -/
structure Sound (lim : Limits) (st : State) : Prop where
  keyed : ∀ id e, st.entries.lookup id = some e → e.id = id
  agrees : Agrees st.entries.values st.toIndex
  fair : ∀ ev ∈ st.evicted, Fair lim ev.entries.values ev.id

namespace Sound

variable {lim : Limits} {st : State} {e : Entry}

theorem empty (lim : Limits) : Sound lim {} where
  keyed _ _ h := by cases h
  agrees := .nil
  fair _ h := by cases h

variable (h : Sound lim st)

include h in
theorem mem_values : e ∈ st.entries.values ↔ st.entries.lookup e.id = some e := by
  rw [SortedMap.mem_values]
  constructor
  · rintro ⟨id, hid⟩
    rwa [h.keyed id e hid]
  · exact fun hid => ⟨e.id, hid⟩

include h in
theorem mem_pendingIn {p : Entry → Bool} :
    e ∈ pendingIn st.entries.values p ↔ st.Pending e ∧ p e = true := by
  rw [pendingIn, mem_filter, h.mem_values, decide_eq_true_eq, State.Pending, and_assoc]

include h in
theorem mem_aged {k : Key} : k ∈ st.aged ↔ ∃ e, st.Pending e ∧ e.key = k := by
  simp only [h.agrees.aged, mem_pendingKeys, h.mem_values, anyEntry, State.Pending, and_true, and_assoc]

include h in
theorem mem_dropped {k : Key} : k ∈ st.dropped ↔ ∃ e, st.Record e ∧ e.droppedKey = k := by
  simp only [h.agrees.dropped, mem_droppedKeys, h.mem_values, State.Record, and_assoc]

include h in
theorem nodup_values : st.entries.values.Nodup := by
  refine List.Nodup.map_on (fun x hx y hy hxy => ?_)
    (st.entries.sorted.imp fun hlt => ne_of_apply_ne Prod.fst hlt.ne)
  refine eq_of_mem_entries hx hy ?_
  rw [← h.keyed x.1 x.2 (lookup_eq_some_iff.mpr hx), hxy,
    h.keyed y.1 y.2 (lookup_eq_some_iff.mpr hy)]

include h in
/-- One key a pending entry. -/
theorem card_pendingKeys (p : Entry → Bool) :
    (pendingKeys st.entries.values p).card = (pendingIn st.entries.values p).length := by
  have hnodup : ((pendingIn st.entries.values p).map Entry.key).Nodup := by
    refine (h.nodup_values.filter _).map_on fun e he e' he' hkey => ?_
    have hid : e.id = e'.id := congrArg (fun k => (ofLex k).2) hkey
    have hlookup := (h.mem_pendingIn.mp he).1.1
    rw [hid, (h.mem_pendingIn.mp he').1.1] at hlookup
    exact (some.inj hlookup).symm
  rw [pendingKeys, toFinset_card_of_nodup hnodup, length_map]

include h in
/-- One key a dropped record. -/
theorem card_dropped :
    st.dropped.card = (st.entries.values.filter fun e => e.status = .dropped).length := by
  have hnodup : ((st.entries.values.filter fun e => e.status = .dropped).map Entry.droppedKey).Nodup := by
    refine (h.nodup_values.filter _).map_on fun e he e' he' hkey => ?_
    have hid : e.id = e'.id := congrArg (fun k => (ofLex k).2) hkey
    have hlookup := h.mem_values.mp (mem_filter.mp he).1
    rw [hid, h.mem_values.mp (mem_filter.mp he').1] at hlookup
    exact (some.inj hlookup).symm
  rw [h.agrees.dropped, droppedKeys, toFinset_card_of_nodup hnodup, length_map]

include h in
theorem id_ne_of_mem_erase {id : String} (he : e ∈ (st.entries.erase id).values) : e.id ≠ id := by
  obtain ⟨id', hid'⟩ := SortedMap.mem_values.mp he
  rw [lookup_erase] at hid'
  split at hid'
  · cases hid'
  · next hne => rwa [h.keyed id' e hid']

include h in
theorem add (hnone : st.entries.lookup e.id = none) : Sound lim (st.add e) where
  keyed id e' hid := by
    rw [State.add, lookup_insert] at hid
    split at hid
    · next heq => rw [← some.inj hid, heq]
    · exact h.keyed id e' hid
  agrees := by
    have hperm := values_perm_insert st.entries e.id e
    rw [erase_eq_self hnone] at hperm
    exact (h.agrees.index e).of_perm hperm.symm
  fair := h.fair

include h in
theorem remove (he : st.entries.lookup e.id = some e) : Sound lim (st.remove e) where
  keyed id e' hid := by
    rw [State.remove, lookup_erase] at hid
    split at hid
    · cases hid
    · exact h.keyed id e' hid
  agrees := (h.agrees.of_perm (values_perm_erase he)).unindex fun _ => h.id_ne_of_mem_erase
  fair := h.fair

include h in
/-- A pending entry changed in nothing the indexes hold. -/
theorem replace (e' : Entry) (he : st.Pending e) (hkey : e'.key = e.key)
    (hhook : e'.hook = e.hook) (hstatus : e'.status = e.status) (hbytes : e'.bytes = e.bytes) :
    Sound lim { st with entries := st.entries.insert e.id e' } where
  keyed id e'' hid := by
    rw [lookup_insert] at hid
    split at hid
    · next heq => rw [heq, ← some.inj hid]; exact congrArg (fun k => (ofLex k).2) hkey
    · exact h.keyed id e'' hid
  agrees := ((h.agrees.of_perm (values_perm_erase he.1)).replace hkey hhook hstatus hbytes he.2).of_perm
    (values_perm_insert _ _ _).symm
  fair := h.fair

end Sound

/-! ### Trimming the records -/

/-- Records forgotten only for newer ones. -/
structure Trims (st st' : State) : Prop where
  pending : ∀ e, st'.Pending e ↔ st.Pending e
  record : ∀ e, st.Record e → st'.Record e ∨ st'.Full e.droppedKey
  full : ∀ k, st.Full k → st'.Full k
  aged : st'.aged = st.aged
  evicted : st'.evicted = st.evicted

namespace Trims

variable {st st₁ st₂ : State}

theorem refl (st : State) : Trims st st := ⟨fun _ => .rfl, fun _ => .inl, fun _ => id, rfl, rfl⟩

theorem trans (h : Trims st st₁) (h' : Trims st₁ st₂) : Trims st st₂ where
  pending e := (h'.pending e).trans (h.pending e)
  record e he := by
    rcases h.record e he with he | hfull
    · exact h'.record e he
    · exact .inr (h'.full _ hfull)
  full k hk := h'.full k (h.full k hk)
  aged := h'.aged.trans h.aged
  evicted := h'.evicted.trans h.evicted

end Trims

namespace Sound

variable {lim : Limits} {st : State}

theorem popDropped_eq (h : Sound lim st) {k : Key} (hk : first st.dropped = some k) :
    ∃ e, st.Record e ∧ e.droppedKey = k ∧ st.popDropped = st.remove e := by
  obtain ⟨e, he, rfl⟩ := h.mem_dropped.mp (first_eq_some_iff.mp hk).1
  refine ⟨e, he, rfl, ?_⟩
  rw [State.popDropped, hk, State.remove, Index.unindex, he.2]
  rfl

theorem trims_popDropped (h : Sound lim st) (hcard : maxDropped < st.dropped.card) :
    Sound lim st.popDropped ∧ Trims st st.popDropped := by
  obtain ⟨k, hk⟩ := State.exists_first (Finset.card_pos.mp ((Nat.zero_le _).trans_lt hcard))
  obtain ⟨e, he, rfl, hpop⟩ := h.popDropped_eq hk
  obtain ⟨hmem, hmin⟩ := first_eq_some_iff.mp hk
  have hdropped : st.popDropped.dropped = st.dropped.erase e.droppedKey := by rw [State.popDropped, hk]
  -- what is left is all newer than the record forgotten
  have hnewer : st.popDropped.Full e.droppedKey := by
    rw [State.Full, hdropped, Finset.filter_true_of_mem, Finset.card_erase_of_mem hmem]
    · omega
    · exact fun k' hk' => lt_of_le_of_ne (hmin k' (Finset.mem_of_mem_erase hk')) (Finset.ne_of_mem_erase hk').symm
  refine ⟨hpop ▸ h.remove he.1, fun e' => ?_, fun e' he' => ?_, fun k' hk' => ?_, ?_, ?_⟩
  · rw [hpop, State.pending_remove he]
  · rcases State.record_remove he he' with hleft | rfl
    · exact .inl (hpop ▸ hleft)
    · exact .inr hnewer
  · by_cases hlt : k' < e.droppedKey
    · refine hnewer.trans (Finset.card_le_card fun k'' hk'' => ?_)
      rw [Finset.mem_filter] at hk'' ⊢
      exact ⟨hk''.1, hlt.trans hk''.2⟩
    · refine hk'.trans (Finset.card_le_card fun k'' hk'' => ?_)
      rw [Finset.mem_filter] at hk'' ⊢
      refine ⟨?_, hk''.2⟩
      rw [hdropped]
      exact Finset.mem_erase.mpr ⟨fun heq => hlt (heq ▸ hk''.2), hk''.1⟩
  · rw [hpop, State.remove, Index.unindex, he.2]
  · rw [hpop, State.remove]

theorem trimDropped (h : Sound lim st) :
    Sound lim st.trimDropped ∧ Trims st st.trimDropped ∧ st.trimDropped.dropped.card ≤ maxDropped := by
  fun_induction State.trimDropped st with
  | case1 st hcard ih =>
    obtain ⟨hpop, htrims⟩ := h.trims_popDropped hcard
    obtain ⟨hsound, htrims', hle⟩ := ih hpop
    exact ⟨hsound, htrims.trans htrims', hle⟩
  | case2 st hcard => exact ⟨h, .refl st, not_lt.mp hcard⟩

end Sound

/-! ### Dropping -/

/-- Entries dropped at `now`: those that were pending are still, or are given up. -/
structure Drops (now : ℕ) (st st' : State) : Prop where
  pending_of : ∀ e, st'.Pending e → st.Pending e
  pending : ∀ e, st.Pending e → st'.Pending e ∨ st'.GivenUp now e.id
  record : ∀ e, st.Record e → st'.Record e ∨ st'.Full e.droppedKey
  full : ∀ k, st.Full k → st'.Full k
  card_dropped : st.dropped.card ≤ maxDropped → st'.dropped.card ≤ maxDropped

namespace Drops

variable {now : ℕ} {st st₁ st₂ : State}

theorem refl (now : ℕ) (st : State) : Drops now st st :=
  ⟨fun _ => id, fun _ => .inl, fun _ => .inl, fun _ => id, id⟩

theorem givenUp {id : String} (h : Drops now st st₁) (hid : st.GivenUp now id) : st₁.GivenUp now id := by
  rcases hid with ⟨e, he, rfl, hms⟩ | hfull
  · rcases h.record e he with he | hfull
    · exact .inl ⟨e, he, rfl, hms⟩
    · exact .inr (by rwa [Entry.droppedKey, hms] at hfull)
  · exact .inr (h.full _ hfull)

theorem trans (h : Drops now st st₁) (h' : Drops now st₁ st₂) : Drops now st st₂ where
  pending_of e he := h.pending_of e (h'.pending_of e he)
  pending e he := by
    rcases h.pending e he with he | hgiven
    · exact h'.pending e he
    · exact .inr (h'.givenUp hgiven)
  record e he := by
    rcases h.record e he with he | hfull
    · exact h'.record e he
    · exact .inr (h'.full _ hfull)
  full k hk := h'.full k (h.full k hk)
  card_dropped hle := h'.card_dropped (h.card_dropped hle)

end Drops

variable {st : State} {e : Entry}

theorem Trims.drops {st' : State} (h : Trims st st') (hcard : st'.dropped.card ≤ maxDropped) (now : ℕ) :
    Drops now st st' where
  pending_of e := (h.pending e).mp
  pending e he := .inl ((h.pending e).mpr he)
  record := h.record
  full := h.full
  card_dropped _ := hcard

/-- The record a pending entry leaves. -/
def Entry.toRecord (e : Entry) (reason : String) (now : ℕ) : Entry :=
  { e with status := .dropped, dropReason := some reason, droppedMs := some now, payload := none, bytes := 0 }

theorem State.markDropped_eq (he : st.Pending e) (reason : String) (now : ℕ) :
    st.markDropped e.id reason now = ((st.remove e).add (e.toRecord reason now)).trimDropped := by
  simp [State.markDropped, he.1, he.2, State.remove, Entry.toRecord]

theorem State.dropped_add_toRecord (he : st.Pending e) (reason : String) (now : ℕ) :
    ((st.remove e).add (e.toRecord reason now)).dropped = insert (toLex (now, e.id)) st.dropped := by
  simp [State.add, State.remove, Index.index, Index.unindex, he.2, Entry.toRecord, Entry.droppedKey]

/-- Dropping a pending entry. -/
theorem Sound.markDropped {lim : Limits} (h : Sound lim st) (he : st.Pending e) (reason : String) (now : ℕ) :
    Sound lim (st.markDropped e.id reason now) ∧ Drops now st (st.markDropped e.id reason now) ∧
      (∀ e', (st.markDropped e.id reason now).Pending e' ↔ st.Pending e' ∧ e'.id ≠ e.id) ∧
      (st.markDropped e.id reason now).aged = st.aged.erase e.key ∧
      (st.markDropped e.id reason now).dropped.card ≤ maxDropped := by
  let record : Entry := e.toRecord reason now
  have hlookup : ∀ id, ((st.remove e).add record).entries.lookup id =
      if id = e.id then some record else st.entries.lookup id := by
    intro id
    have hid : record.id = e.id := rfl
    rw [State.add, lookup_insert, hid]
    split
    · rfl
    · next hne => rw [State.remove, lookup_erase, if_neg hne]
  have hsound : Sound lim ((st.remove e).add record) :=
    (h.remove he.1).add (by simp [State.remove, lookup_erase, record, Entry.toRecord])
  have hdropped := State.dropped_add_toRecord he reason now
  have haged : ((st.remove e).add record).aged = st.aged.erase e.key := by
    simp [State.add, State.remove, Index.index, Index.unindex, he.2, record, Entry.toRecord]
  have hrecord : ((st.remove e).add record).Record record := ⟨(hlookup e.id).trans (if_pos rfl), rfl⟩
  obtain ⟨htrim, htrims, hle⟩ := hsound.trimDropped
  have hpending : ∀ e', ((st.remove e).add record).trimDropped.Pending e' ↔ st.Pending e' ∧ e'.id ≠ e.id := by
    intro e'
    rw [htrims.pending, State.Pending, hlookup, State.Pending]
    split
    · next heq =>
      refine ⟨fun he' => ?_, fun he' => absurd heq he'.2⟩
      obtain ⟨hsome, hp⟩ := he'
      rw [← some.inj hsome] at hp
      cases hp
    · next hne => exact ⟨fun he' => ⟨he', hne⟩, fun he' => he'.1⟩
  rw [State.markDropped_eq he]
  refine ⟨htrim, ⟨fun e' he' => ((hpending e').mp he').1, fun e' he' => ?_, fun e' he' => ?_, fun k hk => ?_,
    fun _ => hle⟩, hpending, htrims.aged.trans haged, hle⟩
  · by_cases heq : e'.id = e.id
    · rw [heq]
      exact .inr ((htrims.drops hle now).givenUp (.inl ⟨record, hrecord, rfl, rfl⟩))
    · exact .inl ((hpending e').mpr ⟨he', heq⟩)
  · exact htrims.record e' ⟨by rw [hlookup, if_neg (he.id_ne he'), he'.1], he'.2⟩
  · refine htrims.full k (hk.trans (Finset.card_le_card ?_))
    rw [hdropped]
    exact Finset.filter_subset_filter _ (Finset.subset_insert _ _)

end DashForge.Relay
