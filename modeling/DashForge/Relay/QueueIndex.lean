import DashForge.Relay.Queue
import Mathlib.Algebra.GroupWithZero.Nat
import Mathlib.Algebra.Order.BigOperators.Group.List

/-!
# The queue's indexes

What the indexes are, said of the entries (`Agrees`): the keys of the pending entries, of a repo's and of a
hook's, the bytes of their bodies, and the keys of the dropped records. Indexing an entry and unindexing it
keep this, with no subtraction saturating (`Agrees.index`, `Agrees.unindex`), and only the index that is
computed anew has it (`Agrees.eq_rebuild`).
-/

namespace DashForge.Relay

open List Option SortedMap

theorem first_eq_some_iff {aged : Aged} {k : Key} : first aged = some k ↔ k ∈ aged ∧ ∀ k' ∈ aged, k ≤ k' := by
  rw [first]
  split
  · next hne =>
    rw [some.injEq]
    constructor
    · rintro rfl
      exact ⟨aged.min'_mem hne, fun k' hk' => aged.min'_le k' hk'⟩
    · rintro ⟨hk, hmin⟩
      exact le_antisymm (aged.min'_le k hk) (hmin _ (aged.min'_mem hne))
  · next hne =>
    rw [Finset.not_nonempty_iff_eq_empty] at hne
    simp [hne]

theorem first_eq_none_iff {aged : Aged} : first aged = none ↔ aged = ∅ := by
  rw [first]
  split
  · next hne => simpa using hne.ne_empty
  · next hne => simpa using hne

/-! ### What the entries say -/

def anyEntry (_ : Entry) : Bool := true

def inRepo (repo : String) (e : Entry) : Bool := e.repoId = repo

def inHook (hook : Hook) (e : Entry) : Bool := e.hook = hook

section

variable (l : List Entry) (p : Entry → Bool)

/-- The pending entries with a property. -/
def pendingIn : List Entry := l.filter fun e => e.status = .pending ∧ p e

def pendingKeys : Aged := ((pendingIn l p).map Entry.key).toFinset

def pendingBytes : ℕ := ((pendingIn l p).map Entry.bytes).sum

def droppedKeys : Aged := ((l.filter fun e => e.status = .dropped).map Entry.droppedKey).toFinset

/-- A repo's tally, where it has pending entries. -/
def tallyOf (repo : String) : Option Tally :=
  if pendingKeys l (inRepo repo) = ∅ then none
  else some { aged := pendingKeys l (inRepo repo), bytes := pendingBytes l (inRepo repo) }

/-- A hook's set, where it has pending entries. -/
def agedOf (hook : Hook) : Option Aged :=
  if pendingKeys l (inHook hook) = ∅ then none else some (pendingKeys l (inHook hook))

/-- An index is what the entries say. -/
structure Agrees (ix : Index) : Prop where
  aged : ix.aged = pendingKeys l anyEntry
  repos : ∀ repo, ix.repos.lookup repo = tallyOf l repo
  hooks : ∀ hook, ix.hooks.lookup hook = agedOf l hook
  bytes : ix.bytes = pendingBytes l anyEntry
  dropped : ix.dropped = droppedKeys l
  drift : ix.drift = 0

end

section

variable {l l' : List Entry} {p : Entry → Bool} {e : Entry}

theorem mem_pendingKeys {k : Key} : k ∈ pendingKeys l p ↔ ∃ e ∈ l, (e.status = .pending ∧ p e = true) ∧ e.key = k := by
  simp [pendingKeys, pendingIn, and_assoc]

theorem mem_droppedKeys {k : Key} : k ∈ droppedKeys l ↔ ∃ e ∈ l, e.status = .dropped ∧ e.droppedKey = k := by
  simp [droppedKeys, and_assoc]

theorem pendingKeys_eq_of_perm (h : l.Perm l') : pendingKeys l p = pendingKeys l' p :=
  toFinset_eq_of_perm _ _ ((h.filter _).map _)

theorem pendingBytes_eq_of_perm (h : l.Perm l') : pendingBytes l p = pendingBytes l' p :=
  ((h.filter _).map _).sum_nat

theorem pendingKeys_cons (h : e.status = .pending ∧ p e = true) :
    pendingKeys (e :: l) p = insert e.key (pendingKeys l p) := by
  simp [pendingKeys, pendingIn, h]

theorem pendingBytes_cons (h : e.status = .pending ∧ p e = true) :
    pendingBytes (e :: l) p = e.bytes + pendingBytes l p := by
  simp [pendingBytes, pendingIn, h]

variable (h : ¬(e.status = .pending ∧ p e = true))

include h in
theorem pendingIn_cons_of_not : pendingIn (e :: l) p = pendingIn l p := by
  simp [pendingIn, h]

include h in
theorem pendingKeys_cons_of_not :
    pendingKeys (e :: l) p = pendingKeys l p := by
  rw [pendingKeys, pendingIn_cons_of_not h, pendingKeys]

include h in
theorem pendingBytes_cons_of_not :
    pendingBytes (e :: l) p = pendingBytes l p := by
  rw [pendingBytes, pendingIn_cons_of_not h, pendingBytes]

theorem pendingBytes_eq_zero (h : pendingKeys l p = ∅) : pendingBytes l p = 0 := by
  rw [pendingKeys, toFinset_eq_empty_iff, map_eq_nil_iff] at h
  rw [pendingBytes, h]
  rfl

theorem pendingKeys_subset (h : ∀ e ∈ l, e.status = .pending → e ∈ l') : pendingKeys l p ⊆ pendingKeys l' p := by
  intro k hk
  obtain ⟨e, he, hp, rfl⟩ := mem_pendingKeys.mp hk
  exact mem_pendingKeys.mpr ⟨e, h e he hp.1, hp, rfl⟩

theorem pendingBytes_le (hl : l.Nodup) (h : ∀ e ∈ l, e.status = .pending → e ∈ l') :
    pendingBytes l p ≤ pendingBytes l' p := by
  have hsub : (pendingIn l p).Subperm (pendingIn l' p) := by
    refine (hl.filter _).subperm fun e he => ?_
    have hmem := mem_filter.mp he
    exact mem_filter.mpr ⟨h e hmem.1 (of_decide_eq_true hmem.2).1, hmem.2⟩
  obtain ⟨sub, hperm, hsublist⟩ := hsub
  calc pendingBytes l p = (sub.map Entry.bytes).sum := (hperm.map _).symm.sum_nat
    _ ≤ pendingBytes l' p := (hsublist.map _).sum_le_sum fun _ _ => Nat.zero_le _

theorem key_notMem_pendingKeys (h : ∀ e' ∈ l, e'.id ≠ e.id) : e.key ∉ pendingKeys l p := by
  intro hk
  obtain ⟨e', he', -, hkey⟩ := mem_pendingKeys.mp hk
  exact h e' he' (congrArg (fun k => (ofLex k).2) hkey)

theorem droppedKey_notMem_droppedKeys (h : ∀ e' ∈ l, e'.id ≠ e.id) : e.droppedKey ∉ droppedKeys l := by
  intro hk
  obtain ⟨e', he', -, hkey⟩ := mem_droppedKeys.mp hk
  exact h e' he' (congrArg (fun k => (ofLex k).2) hkey)

/-! ### Tallies and sets -/

theorem tallyOf_eq_of_perm (h : l.Perm l') (repo : String) : tallyOf l repo = tallyOf l' repo := by
  rw [tallyOf, pendingKeys_eq_of_perm h, pendingBytes_eq_of_perm h, tallyOf]

theorem agedOf_eq_of_perm (h : l.Perm l') (hook : Hook) : agedOf l hook = agedOf l' hook := by
  rw [agedOf, pendingKeys_eq_of_perm h, agedOf]

theorem getD_tallyOf (repo : String) : (tallyOf l repo).getD {} =
    { aged := pendingKeys l (inRepo repo), bytes := pendingBytes l (inRepo repo) } := by
  rw [tallyOf]
  split
  · next h => rw [h, pendingBytes_eq_zero h]; rfl
  · rfl

theorem getD_agedOf (hook : Hook) : (agedOf l hook).getD ∅ = pendingKeys l (inHook hook) := by
  rw [agedOf]
  split
  · next h => rw [h]; rfl
  · rfl

theorem tallyOf_cons (h : e.status = .pending) : tallyOf (e :: l) e.repoId =
    some { aged := insert e.key (pendingKeys l (inRepo e.repoId)),
           bytes := e.bytes + pendingBytes l (inRepo e.repoId) } := by
  have hrepo : e.status = .pending ∧ inRepo e.repoId e = true := ⟨h, decide_eq_true rfl⟩
  rw [tallyOf, pendingKeys_cons hrepo, pendingBytes_cons hrepo, if_neg (Finset.insert_ne_empty _ _)]

theorem tallyOf_cons_of_not {repo : String} (h : ¬(e.status = .pending ∧ repo = e.repoId)) :
    tallyOf (e :: l) repo = tallyOf l repo := by
  have hrepo : ¬(e.status = .pending ∧ inRepo repo e = true) := by simpa [inRepo, eq_comm] using h
  rw [tallyOf, pendingKeys_cons_of_not hrepo, pendingBytes_cons_of_not hrepo, tallyOf]

theorem agedOf_cons (h : e.status = .pending) :
    agedOf (e :: l) e.hook = some (insert e.key (pendingKeys l (inHook e.hook))) := by
  have hhook : e.status = .pending ∧ inHook e.hook e = true := ⟨h, decide_eq_true rfl⟩
  rw [agedOf, pendingKeys_cons hhook, if_neg (Finset.insert_ne_empty _ _)]

theorem agedOf_cons_of_not {hook : Hook} (h : ¬(e.status = .pending ∧ hook = e.hook)) :
    agedOf (e :: l) hook = agedOf l hook := by
  have hhook : ¬(e.status = .pending ∧ inHook hook e = true) := by simpa [inHook, eq_comm] using h
  rw [agedOf, pendingKeys_cons_of_not hhook, agedOf]

end

/-! ### Keeping the index -/

namespace Agrees

variable {l l' : List Entry} {ix ix' : Index} {e : Entry}

theorem nil : Agrees [] {} where
  aged := rfl
  repos _ := rfl
  hooks _ := rfl
  bytes := rfl
  dropped := rfl
  drift := rfl

theorem of_perm (h : Agrees l ix) (hp : l.Perm l') : Agrees l' ix where
  aged := h.aged.trans (pendingKeys_eq_of_perm hp)
  repos repo := (h.repos repo).trans (tallyOf_eq_of_perm hp repo)
  hooks hook := (h.hooks hook).trans (agedOf_eq_of_perm hp hook)
  bytes := h.bytes.trans (pendingBytes_eq_of_perm hp)
  dropped := h.dropped.trans (toFinset_eq_of_perm _ _ ((hp.filter _).map _))
  drift := h.drift

theorem index (h : Agrees l ix) (e : Entry) : Agrees (e :: l) (ix.index e) := by
  cases hstatus : e.status with
  | pending =>
    have hany : e.status = .pending ∧ anyEntry e = true := ⟨hstatus, rfl⟩
    simp only [Index.index, hstatus]
    refine ⟨?_, fun repo => ?_, fun hook => ?_, ?_, ?_, h.drift⟩
    · rw [h.aged, pendingKeys_cons hany]
    · rw [lookup_alter, h.repos, h.repos]
      split
      · next heq => rw [heq, getD_tallyOf, tallyOf_cons hstatus, add_comm]
      · next hne => rw [tallyOf_cons_of_not fun hand => hne hand.2]
    · rw [lookup_alter, h.hooks, h.hooks]
      split
      · next heq => rw [heq, getD_agedOf, agedOf_cons hstatus]
      · next hne => rw [agedOf_cons_of_not fun hand => hne hand.2]
    · rw [h.bytes, pendingBytes_cons hany, add_comm]
    · simp [h.dropped, droppedKeys, hstatus]
  | dropped =>
    have hnot : e.status ≠ .pending := by simp [hstatus]
    simp only [Index.index, hstatus]
    refine ⟨?_, fun repo => ?_, fun hook => ?_, ?_, ?_, h.drift⟩
    · rw [h.aged, pendingKeys_cons_of_not fun hand => hnot hand.1]
    · rw [h.repos, tallyOf_cons_of_not fun hand => hnot hand.1]
    · rw [h.hooks, agedOf_cons_of_not fun hand => hnot hand.1]
    · rw [h.bytes, pendingBytes_cons_of_not fun hand => hnot hand.1]
    · simp [h.dropped, droppedKeys, hstatus]

theorem unindex (h : Agrees (e :: l) ix) (hid : ∀ e' ∈ l, e'.id ≠ e.id) : Agrees l (ix.unindex e) := by
  cases hstatus : e.status with
  | pending =>
    have hany : e.status = .pending ∧ anyEntry e = true := ⟨hstatus, rfl⟩
    have hbytes : ix.bytes = e.bytes + pendingBytes l anyEntry := by rw [h.bytes, pendingBytes_cons hany]
    have hrepo := (h.repos e.repoId).trans (tallyOf_cons hstatus)
    have hhook := (h.hooks e.hook).trans (agedOf_cons hstatus)
    have herase : ∀ p, (insert e.key (pendingKeys l p)).erase e.key = pendingKeys l p := fun p =>
      Finset.erase_insert (key_notMem_pendingKeys hid)
    simp only [Index.unindex, hstatus]
    refine ⟨?_, fun repo => ?_, fun hook => ?_, ?_, ?_, ?_⟩
    · rw [h.aged, pendingKeys_cons hany, herase]
    · rw [lookup_alter]
      split
      · next heq =>
        rw [heq, hrepo, map_some, herase, Nat.add_sub_cancel_left, tallyOf, filter_some]
        split <;> simp_all
      · next hne => rw [h.repos, tallyOf_cons_of_not fun hand => hne hand.2]
    · rw [lookup_alter]
      split
      · next heq =>
        rw [heq, hhook, map_some, herase, agedOf, filter_some]
        split <;> simp_all
      · next hne => rw [h.hooks, agedOf_cons_of_not fun hand => hne hand.2]
    · rw [hbytes, Nat.add_sub_cancel_left]
    · simp [h.dropped, droppedKeys, hstatus]
    · simp [h.drift, Index.saturations, hrepo, hbytes]
  | dropped =>
    have hnot : e.status ≠ .pending := by simp [hstatus]
    simp only [Index.unindex, hstatus]
    refine ⟨?_, fun repo => ?_, fun hook => ?_, ?_, ?_, h.drift⟩
    · rw [h.aged, pendingKeys_cons_of_not fun hand => hnot hand.1]
    · rw [h.repos, tallyOf_cons_of_not fun hand => hnot hand.1]
    · rw [h.hooks, agedOf_cons_of_not fun hand => hnot hand.1]
    · rw [h.bytes, pendingBytes_cons_of_not fun hand => hnot hand.1]
    · have hcons : droppedKeys (e :: l) = insert e.droppedKey (droppedKeys l) := by simp [droppedKeys, hstatus]
      rw [h.dropped, hcons, Finset.erase_insert (droppedKey_notMem_droppedKeys hid)]

theorem replace {e' : Entry} (h : Agrees (e :: l) ix) (hkey : e'.key = e.key) (hhook : e'.hook = e.hook)
    (hstatus : e'.status = e.status) (hbytes : e'.bytes = e.bytes) (hpending : e.status = .pending) :
    Agrees (e' :: l) ix := by
  have hrepo : e'.repoId = e.repoId := congrArg (fun h => (ofLex h).1) hhook
  have hin : ∀ p, p e' = p e → (pendingKeys (e' :: l) p = pendingKeys (e :: l) p ∧
      pendingBytes (e' :: l) p = pendingBytes (e :: l) p) := by
    intro p hp
    simp only [pendingKeys, pendingBytes, pendingIn, filter_cons, hstatus, hp]
    split <;> simp [hkey, hbytes]
  refine ⟨?_, fun repo => ?_, fun hook => ?_, ?_, ?_, h.drift⟩
  · rw [h.aged, (hin anyEntry rfl).1]
  · have := hin (inRepo repo) (by rw [inRepo, inRepo, hrepo])
    rw [h.repos, tallyOf, tallyOf, this.1, this.2]
  · rw [h.hooks, agedOf, agedOf, (hin (inHook hook) (by rw [inHook, inHook, hhook])).1]
  · rw [h.bytes, (hin anyEntry rfl).2]
  · simp [h.dropped, droppedKeys, hstatus, hpending]

theorem unique (h : Agrees l ix) (h' : Agrees l ix') : ix = ix' := by
  refine Index.ext (h.aged.trans h'.aged.symm) (ext_lookup fun repo => ?_)
    (ext_lookup fun hook => ?_) (h.bytes.trans h'.bytes.symm) (h.dropped.trans h'.dropped.symm)
    (h.drift.trans h'.drift.symm)
  · rw [h.repos, h'.repos]
  · rw [h.hooks, h'.hooks]

end Agrees

theorem agrees_foldl_index (l : List Entry) : Agrees l (l.foldl Index.index {}) := by
  induction l using List.reverseRecOn with
  | nil => exact .nil
  | append_singleton l e ih =>
    rw [foldl_concat]
    exact (ih.index e).of_perm (perm_append_singleton e l).symm

theorem Agrees.eq_rebuild {entries : SortedMap String Entry} {ix : Index} (h : Agrees entries.values ix) :
    ix = rebuild entries :=
  h.unique (agrees_foldl_index entries.values)

end DashForge.Relay
