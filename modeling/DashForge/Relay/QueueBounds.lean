import DashForge.Relay.QueueDrops

/-!
# The queue's bounds

Each loop that enforces a bound stops, whatever the order the hash maps are iterated in, with the bound met;
it only drops entries (`Drops`), and past a global bound it takes the oldest of a repo that holds the most
(`Queue.exists_enforceGlobalBounds`).
-/

namespace DashForge.Relay

open Option SortedMap

variable {lim : Limits} {q : Queue} {st st' : State} {now : ℕ}

namespace Sound

/-- The entry of a pending key, dropped. -/
theorem drops_of_mem_aged (h : Sound lim st) {k : Key} (hk : k ∈ st.aged) (reason : String) (now : ℕ) :
    Sound lim (st.markDropped (ofLex k).2 reason now) ∧ Drops now st (st.markDropped (ofLex k).2 reason now) ∧
      (st.markDropped (ofLex k).2 reason now).aged.card < st.aged.card := by
  obtain ⟨e, he, rfl⟩ := h.mem_aged.mp hk
  obtain ⟨hsound, hdrops, -, haged, -⟩ := h.markDropped he reason now
  refine ⟨hsound, hdrops, ?_⟩
  change (st.markDropped e.id reason now).aged.card < _
  rw [haged]
  exact Finset.card_erase_lt_of_mem hk

theorem mem_aged_of_mem_pendingKeys (h : Sound lim st) {p : Entry → Bool} {k : Key}
    (hk : k ∈ pendingKeys st.entries.values p) : k ∈ st.aged := by
  obtain ⟨e, he, hp, rfl⟩ := mem_pendingKeys.mp hk
  exact h.mem_aged.mpr ⟨e, ⟨h.mem_values.mp he, hp.1⟩, rfl⟩

theorem lookup_repos_eq_some (h : Sound lim st) {repo : String} {t : Tally} :
    st.repos.lookup repo = some t ↔ (pendingKeys st.entries.values (inRepo repo)).Nonempty ∧
      t = { aged := pendingKeys st.entries.values (inRepo repo),
            bytes := pendingBytes st.entries.values (inRepo repo) } := by
  rw [h.agrees.repos, tallyOf]
  split
  · next hnil => simp [hnil]
  · next hne => simp [Finset.nonempty_iff_ne_empty.mpr hne, eq_comm]

theorem lookup_hooks_eq_some (h : Sound lim st) {hook : Hook} {aged : Aged} :
    st.hooks.lookup hook = some aged ↔ (pendingKeys st.entries.values (inHook hook)).Nonempty ∧
      aged = pendingKeys st.entries.values (inHook hook) := by
  rw [h.agrees.hooks, agedOf]
  split
  · next hnil => simp [hnil]
  · next hne => simp [Finset.nonempty_iff_ne_empty.mpr hne, eq_comm]

end Sound

namespace Sound

variable (hs : Sound lim st) (hs' : Sound lim st') (h : ∀ e, st'.Pending e → st.Pending e) (p : Entry → Bool)

include hs hs' h p in
/-- Fewer pending entries raise no count. -/
theorem length_pendingIn_le : (pendingIn st'.entries.values p).length ≤ (pendingIn st.entries.values p).length := by
  rw [← hs.card_pendingKeys, ← hs'.card_pendingKeys]
  exact Finset.card_le_card (pendingKeys_subset fun e he hp =>
    hs.mem_values.mpr (h e ⟨hs'.mem_values.mp he, hp⟩).1)

include hs hs' h p in
theorem pendingBytes_le : pendingBytes st'.entries.values p ≤ pendingBytes st.entries.values p :=
  Relay.pendingBytes_le hs'.nodup_values fun e he hp =>
    hs.mem_values.mpr (h e ⟨hs'.mem_values.mp he, hp⟩).1

end Sound

/-- A loop that drops a pending entry a round stops. -/
theorem exists_loop_drops {body : ℕ → State → Option State} (hbody : ∀ n st st', Sound lim st → body n st = some st' →
      Sound lim st' ∧ Drops now st st' ∧ st'.aged.card < st.aged.card) (h : Sound lim st) :
    ∃ st' n, loop body (st.aged.card + 1) st = some st' ∧ Sound lim st' ∧ Drops now st st' ∧ body n st' = none := by
  obtain ⟨st', n, hloop, ⟨hsound, hdrops⟩, hstop⟩ :=
    exists_loop_eq_some (fun s => Sound lim s ∧ Drops now st s) (fun s => s.aged.card)
      (fun n s s' hs hround => by
        obtain ⟨hs', hdrops, hlt⟩ := hbody n s s' hs.1 hround
        exact ⟨⟨hs', hs.2.trans hdrops⟩, hlt⟩)
      ⟨h, .refl now st⟩ (Nat.lt_succ_self _)
  exact ⟨st', n, hloop, hsound, hdrops, hstop⟩

/-- A loop whose rounds drop the entry of a key wherever `P` does not hold stops with `P`. -/
theorem exists_loop_dropped {round : State → Option State} {reason : String} {P : State → Prop}
    (hround : ∀ s, Sound lim s → round s = none ∧ P s ∨
      ∃ k ∈ s.aged, round s = some (s.markDropped (ofLex k).2 reason now)) (h : Sound lim st) :
    ∃ st', loop (fun _ => round) (st.aged.card + 1) st = some st' ∧ Sound lim st' ∧ Drops now st st' ∧ P st' := by
  have hbody : ∀ (_ : ℕ) s s', Sound lim s → round s = some s' →
      Sound lim s' ∧ Drops now s s' ∧ s'.aged.card < s.aged.card := by
    intro _ s s' hs hsome
    rcases hround s hs with ⟨hnone, -⟩ | ⟨k, hk, hdrop⟩
    · exact absurd (hsome.symm.trans hnone) (by simp)
    · obtain rfl := some.inj (hsome.symm.trans hdrop)
      exact hs.drops_of_mem_aged hk _ now
  obtain ⟨st', n, hloop, hsound, hdrops, hstop⟩ := exists_loop_drops hbody h
  rcases hround st' hsound with ⟨-, hP⟩ | ⟨k, -, hdrop⟩
  · exact ⟨st', hloop, hsound, hdrops, hP⟩
  · exact absurd (hstop.symm.trans hdrop) (by simp)

namespace Queue

variable (h : Sound q.limits st)

include h in
theorem hookRound_eq (hook : Hook) (now : ℕ) :
    q.hookRound hook now st = none ∧ (pendingIn st.entries.values (inHook hook)).length ≤ q.limits.perHook ∨
    q.limits.perHook < (pendingIn st.entries.values (inHook hook)).length ∧ ∃ k ∈ st.aged, q.hookRound hook now st =
      some (st.markDropped (ofLex k).2 "queue full for this hook (oldest dropped)" now) := by
  rw [hookRound, ← h.card_pendingKeys]
  by_cases hover : q.limits.perHook < (pendingKeys st.entries.values (inHook hook)).card
  · -- a set past the bound has a first key
    have hne := Finset.card_pos.mp ((Nat.zero_le _).trans_lt hover)
    obtain ⟨k, hk⟩ := State.exists_first hne
    refine .inr ⟨hover, k, h.mem_aged_of_mem_pendingKeys (first_eq_some_iff.mp hk).1, ?_⟩
    rw [h.lookup_hooks_eq_some.mpr ⟨hne, rfl⟩, filter_some, decide_eq_true hover, if_pos rfl,
      bind_some, hk, map_some]
  · refine .inl ⟨?_, not_lt.mp hover⟩
    rw [map_eq_none_iff, bind_eq_none_iff]
    intro aged haged
    obtain ⟨hlookup, hlt⟩ := filter_eq_some_iff.mp haged
    obtain ⟨-, rfl⟩ := h.lookup_hooks_eq_some.mp hlookup
    exact absurd (of_decide_eq_true hlt) hover

include h in
theorem repoRound_eq (repo : String) (now : ℕ) :
    q.repoRound repo now st = none ∧ (pendingIn st.entries.values (inRepo repo)).length ≤ q.limits.perRepo ∨
    q.limits.perRepo < (pendingIn st.entries.values (inRepo repo)).length ∧ ∃ k ∈ st.aged, q.repoRound repo now st =
      some (st.markDropped (ofLex k).2 "queue full for this repo (oldest dropped)" now) := by
  rw [repoRound, ← h.card_pendingKeys]
  by_cases hover : q.limits.perRepo < (pendingKeys st.entries.values (inRepo repo)).card
  · have hne := Finset.card_pos.mp ((Nat.zero_le _).trans_lt hover)
    obtain ⟨k, hk⟩ := State.exists_first hne
    refine .inr ⟨hover, k, h.mem_aged_of_mem_pendingKeys (first_eq_some_iff.mp hk).1, ?_⟩
    rw [h.lookup_repos_eq_some.mpr ⟨hne, rfl⟩, filter_some, decide_eq_true hover, if_pos rfl,
      bind_some, hk, map_some]
  · refine .inl ⟨?_, not_lt.mp hover⟩
    rw [map_eq_none_iff, bind_eq_none_iff]
    intro t ht
    obtain ⟨hlookup, hlt⟩ := filter_eq_some_iff.mp ht
    obtain ⟨-, rfl⟩ := h.lookup_repos_eq_some.mp hlookup
    exact absurd (of_decide_eq_true hlt) hover

include h in
theorem exists_enforceHookBound (hook : Hook) (now : ℕ) :
    ∃ st', q.enforceHookBound hook now st = some st' ∧ Sound q.limits st' ∧ Drops now st st' ∧
      (pendingIn st'.entries.values (inHook hook)).length ≤ q.limits.perHook :=
  exists_loop_dropped (fun _ hs => (hookRound_eq hs hook now).imp_right And.right) h

include h in
theorem exists_enforceRepoBound (repo : String) (now : ℕ) :
    ∃ st', q.enforceRepoBound repo now st = some st' ∧ Sound q.limits st' ∧ Drops now st st' ∧
      (pendingIn st'.entries.values (inRepo repo)).length ≤ q.limits.perRepo :=
  exists_loop_dropped (fun _ hs => (repoRound_eq hs repo now).imp_right And.right) h

/-- The global bounds. -/
structure WithinTotals (lim : Limits) (l : List Entry) : Prop where
  total : (pendingIn l anyEntry).length ≤ lim.total
  bytes : pendingBytes l anyEntry ≤ lim.bytes

/-- The repo whose oldest entry goes is one that holds the most. -/
theorem fair_of_maxByKey (h : Sound lim st) {order : HashOrder} {round : ℕ} {t : Tally} {k : Key}
    (hover : ¬WithinTotals lim st.entries.values)
    (ht : maxByKey (fun t : Tally => if decide (lim.total < st.aged.card) then t.aged.card else t.bytes)
      ((order.repos round st.repos).map Prod.snd) = some t)
    (hk : first t.aged = some k) : k ∈ st.aged ∧ Fair lim st.entries.values (ofLex k).2 := by
  have hheld : ∀ t, t ∈ (order.repos round st.repos).map Prod.snd ↔ ∃ repo, st.repos.lookup repo = some t := by
    intro t
    rw [((order.repos_perm round st.repos).map Prod.snd).mem_iff, ← mem_values]
    rfl
  have hcount : st.aged.card = (pendingIn st.entries.values anyEntry).length := by
    rw [h.agrees.aged, h.card_pendingKeys]
  obtain ⟨hmem, hmax⟩ := maxByKey_spec _ ht
  obtain ⟨repo, hrepo⟩ := (hheld t).mp hmem
  obtain ⟨-, rfl⟩ := h.lookup_repos_eq_some.mp hrepo
  obtain ⟨hkmem, hmin⟩ := first_eq_some_iff.mp hk
  obtain ⟨e, he, ⟨hp, hin⟩, rfl⟩ := mem_pendingKeys.mp hkmem
  obtain rfl : e.repoId = repo := of_decide_eq_true hin
  have hpending : st.Pending e := ⟨h.mem_values.mp he, hp⟩
  refine ⟨h.mem_aged.mpr ⟨e, hpending, rfl⟩, e, h.mem_pendingIn.mpr ⟨hpending, rfl⟩, rfl, fun e' he' => ?_, ?_⟩
  · obtain ⟨hp', hin'⟩ := h.mem_pendingIn.mp he'
    exact hmin _ (mem_pendingKeys.mpr ⟨e', h.mem_values.mpr hp'.1, ⟨hp'.2, hin'⟩, rfl⟩)
  · rw [← hcount]
    split
    · next hby =>
      -- a repo without pending entries is not in the map, and holds none
      intro repo
      rw [← h.card_pendingKeys, ← h.card_pendingKeys]
      by_cases hne : (pendingKeys st.entries.values (inRepo repo)).Nonempty
      · have := hmax _ ((hheld _).mpr ⟨repo, h.lookup_repos_eq_some.mpr ⟨hne, rfl⟩⟩)
        simpa only [decide_eq_true hby, if_true] using this
      · rw [Finset.not_nonempty_iff_eq_empty.mp hne]
        exact Nat.zero_le _
    · next hby =>
      refine ⟨not_le.mp fun hle => hover ⟨hcount ▸ not_lt.mp hby, hle⟩, fun repo => ?_⟩
      by_cases hne : (pendingKeys st.entries.values (inRepo repo)).Nonempty
      · have := hmax _ ((hheld _).mpr ⟨repo, h.lookup_repos_eq_some.mpr ⟨hne, rfl⟩⟩)
        simpa only [decide_eq_false hby, Bool.false_eq_true, if_false] using this
      · rw [pendingBytes_eq_zero (Finset.not_nonempty_iff_eq_empty.mp hne)]
        exact Nat.zero_le _

theorem exists_maxByKey (h : Sound lim st) (order : HashOrder) (round : ℕ) (key : Tally → ℕ)
    (hover : ¬WithinTotals lim st.entries.values) :
    ∃ t k, maxByKey key ((order.repos round st.repos).map Prod.snd) = some t ∧ first t.aged = some k := by
  have hheld : ∀ t, t ∈ (order.repos round st.repos).map Prod.snd ↔ ∃ repo, st.repos.lookup repo = some t := by
    intro t
    rw [((order.repos_perm round st.repos).map Prod.snd).mem_iff, ← mem_values]
    rfl
  have hany : (pendingKeys st.entries.values anyEntry).Nonempty := by
    by_contra hnil
    rw [Finset.not_nonempty_iff_eq_empty] at hnil
    refine hover ⟨?_, ?_⟩
    · rw [← h.card_pendingKeys, hnil]
      exact Nat.zero_le _
    · rw [pendingBytes_eq_zero hnil]
      exact Nat.zero_le _
  obtain ⟨k, hk⟩ := hany
  obtain ⟨e, he, hp, rfl⟩ := mem_pendingKeys.mp hk
  have hrepo := h.lookup_repos_eq_some.mpr
    ⟨⟨e.key, mem_pendingKeys.mpr ⟨e, he, ⟨hp.1, decide_eq_true rfl⟩, rfl⟩⟩, rfl⟩
  cases hmax : maxByKey key ((order.repos round st.repos).map Prod.snd) with
  | none =>
    rw [maxByKey_eq_none_iff] at hmax
    exact absurd ((hheld _).mpr ⟨e.repoId, hrepo⟩) (by simp [hmax])
  | some t =>
    obtain ⟨repo, ht⟩ := (hheld t).mp (maxByKey_spec _ hmax).1
    obtain ⟨hne, rfl⟩ := h.lookup_repos_eq_some.mp ht
    obtain ⟨k, hfirst⟩ := State.exists_first hne
    exact ⟨_, k, rfl, hfirst⟩

include h in
theorem globalRound_eq (order : HashOrder) (now round : ℕ) :
    q.globalRound order now round st = none ∧ WithinTotals q.limits st.entries.values ∨
    ¬WithinTotals q.limits st.entries.values ∧ ∃ k, k ∈ st.aged ∧
      Fair q.limits st.entries.values (ofLex k).2 ∧ q.globalRound order now round st =
      some (State.markDropped { st with evicted := st.evicted ++ [⟨st.entries, (ofLex k).2⟩] } (ofLex k).2
        "queue full (oldest of the repo with the most queued dropped)" now) := by
  have hcount : st.aged.card = (pendingIn st.entries.values anyEntry).length := by
    rw [h.agrees.aged, h.card_pendingKeys]
  rw [globalRound]
  by_cases hwithin : WithinTotals q.limits st.entries.values
  · refine .inl ⟨if_pos ?_, hwithin⟩
    have htotal : ¬q.limits.total < st.aged.card := by rw [hcount]; exact not_lt.mpr hwithin.total
    simp [htotal, h.agrees.bytes, hwithin.bytes]
  · refine .inr ?_
    obtain ⟨t, k, ht, hk⟩ := exists_maxByKey h order round
      (fun t : Tally => if decide (q.limits.total < st.aged.card) then t.aged.card else t.bytes) hwithin
    obtain ⟨hmem, hfair⟩ := fair_of_maxByKey h hwithin ht hk
    refine ⟨hwithin, k, hmem, hfair, ?_⟩
    rw [if_neg]
    · simp only [ht, bind_some, hk, map_some]
    intro hstop
    rw [Bool.and_eq_true, Bool.not_eq_true', decide_eq_false_iff_not, decide_eq_true_eq, not_lt, hcount,
      h.agrees.bytes] at hstop
    exact hwithin ⟨hstop.1, hstop.2⟩

include h in
theorem exists_enforceGlobalBounds (order : HashOrder) (now : ℕ) :
    ∃ st', q.enforceGlobalBounds order now st = some st' ∧ Sound q.limits st' ∧ Drops now st st' ∧
      WithinTotals q.limits st'.entries.values := by
  have hbody : ∀ n s s', Sound q.limits s → q.globalRound order now n s = some s' →
      Sound q.limits s' ∧ Drops now s s' ∧ s'.aged.card < s.aged.card := by
    intro n s s' hs hround
    rcases globalRound_eq hs order now n with ⟨hnone, -⟩ | ⟨-, k, hmem, hfair, hsome⟩
    · exact absurd (hround.symm.trans hnone) (by simp)
    · obtain rfl := some.inj (hround.symm.trans hsome)
      have hs' : Sound q.limits { s with evicted := s.evicted ++ [⟨s.entries, (ofLex k).2⟩] } := by
        refine ⟨hs.keyed, hs.agrees, fun ev hev => ?_⟩
        rcases List.mem_append.mp hev with hev | hev
        · exact hs.fair ev hev
        · obtain rfl := List.mem_singleton.mp hev
          exact hfair
      obtain ⟨hsound, hdrops, hlt⟩ := hs'.drops_of_mem_aged hmem
        "queue full (oldest of the repo with the most queued dropped)" now
      exact ⟨hsound, ⟨hdrops.pending_of, hdrops.pending, hdrops.record, hdrops.full, hdrops.card_dropped⟩, hlt⟩
  obtain ⟨st', n, hloop, hsound, hdrops, hstop⟩ := exists_loop_drops hbody h
  rcases globalRound_eq hsound order now n with ⟨-, hwithin⟩ | ⟨-, k, -, -, hsome⟩
  · exact ⟨st', hloop, hsound, hdrops, hwithin⟩
  · exact absurd (hstop.symm.trans hsome) (by simp)

/-! ### All the bounds -/

/-- The bounds on the pending entries. -/
structure Bounded (lim : Limits) (l : List Entry) : Prop extends WithinTotals lim l where
  perHook : ∀ hook, (pendingIn l (inHook hook)).length ≤ lim.perHook
  perRepo : ∀ repo, (pendingIn l (inRepo repo)).length ≤ lim.perRepo

theorem Bounded.mono (hb : Bounded lim st.entries.values) (hs : Sound lim st) (hs' : Sound lim st')
    (h : ∀ e, st'.Pending e → st.Pending e) : Bounded lim st'.entries.values where
  total := (hs.length_pendingIn_le hs' h _).trans hb.total
  bytes := (hs.pendingBytes_le hs' h _).trans hb.bytes
  perHook hook := (hs.length_pendingIn_le hs' h _).trans (hb.perHook hook)
  perRepo repo := (hs.length_pendingIn_le hs' h _).trans (hb.perRepo repo)

include h in
theorem exists_enforceBounds (order : HashOrder) (hook : Hook) (now : ℕ)
    (hhooks : ∀ hook', hook' ≠ hook → (pendingIn st.entries.values (inHook hook')).length ≤ q.limits.perHook)
    (hrepos : ∀ repo, repo ≠ (ofLex hook).1 → (pendingIn st.entries.values (inRepo repo)).length ≤ q.limits.perRepo) :
    ∃ st', q.enforceBounds order hook now st = some st' ∧ Sound q.limits st' ∧ Drops now st st' ∧
      Bounded q.limits st'.entries.values := by
  obtain ⟨st₁, h₁, hs₁, hd₁, hhook⟩ := exists_enforceHookBound h hook now
  obtain ⟨st₂, h₂, hs₂, hd₂, hrepo⟩ := exists_enforceRepoBound hs₁ (ofLex hook).1 now
  obtain ⟨st₃, h₃, hs₃, hd₃, htotals⟩ := exists_enforceGlobalBounds hs₂ order now
  refine ⟨st₃, by simp [enforceBounds, h₁, h₂, h₃], hs₃, (hd₁.trans hd₂).trans hd₃, htotals, fun hook' => ?_,
    fun repo => ?_⟩
  · have hle := hs₁.length_pendingIn_le hs₃ (hd₂.trans hd₃).pending_of (inHook hook')
    by_cases heq : hook' = hook
    · exact hle.trans (heq ▸ hhook)
    · exact (hle.trans (h.length_pendingIn_le hs₁ hd₁.pending_of _)).trans (hhooks hook' heq)
  · have hle := hs₂.length_pendingIn_le hs₃ hd₃.pending_of (inRepo repo)
    by_cases heq : repo = (ofLex hook).1
    · exact hle.trans (heq ▸ hrepo)
    · exact (hle.trans (h.length_pendingIn_le hs₂ (hd₁.trans hd₂).pending_of _)).trans (hrepos repo heq)

include h in
theorem exists_enforceAll (order : HashOrder) (now : ℕ) :
    ∃ st', q.enforceAll order now st = some st' ∧ Sound q.limits st' ∧ Drops now st st' ∧
      Bounded q.limits st'.entries.values ∧ st'.dropped.card ≤ maxDropped := by
  -- after the pass over the hooks each hook of the map is within its bound, and the others hold nothing
  obtain ⟨st₁, h₁, ⟨hs₁, hd₁⟩, hhooks, -⟩ := exists_foldlM_eq_some
    (f := fun st hook => q.enforceHookBound hook now st)
    (P := fun s => Sound q.limits s ∧ Drops now st s)
    (R := fun hook s => ∃ s₀, Sound q.limits s₀ ∧ Drops now s₀ s ∧
      (pendingIn s₀.entries.values (inHook hook)).length ≤ q.limits.perHook)
    (fun s hook hs => by
      obtain ⟨s', hs', hsound, hdrops, hle⟩ := exists_enforceHookBound hs.1 hook now
      exact ⟨s', hs', ⟨hsound, hs.2.trans hdrops⟩, ⟨s', hsound, .refl now s', hle⟩,
        fun b ⟨s₀, hs₀, hd, hle⟩ => ⟨s₀, hs₀, hd.trans hdrops, hle⟩⟩)
    ((order.hooks st.hooks).map Prod.fst) ⟨h, .refl now st⟩
  obtain ⟨st₂, h₂, ⟨hs₂, hd₂⟩, hrepos, -⟩ := exists_foldlM_eq_some
    (f := fun st repo => q.enforceRepoBound repo now st)
    (P := fun s => Sound q.limits s ∧ Drops now st₁ s)
    (R := fun repo s => ∃ s₀, Sound q.limits s₀ ∧ Drops now s₀ s ∧
      (pendingIn s₀.entries.values (inRepo repo)).length ≤ q.limits.perRepo)
    (fun s repo hs => by
      obtain ⟨s', hs', hsound, hdrops, hle⟩ := exists_enforceRepoBound hs.1 repo now
      exact ⟨s', hs', ⟨hsound, hs.2.trans hdrops⟩, ⟨s', hsound, .refl now s', hle⟩,
        fun b ⟨s₀, hs₀, hd, hle⟩ => ⟨s₀, hs₀, hd.trans hdrops, hle⟩⟩)
    ((order.repos 0 st₁.repos).map Prod.fst) ⟨hs₁, .refl now st₁⟩
  obtain ⟨st₃, h₃, hs₃, hd₃, htotals⟩ := exists_enforceGlobalBounds hs₂ order now
  obtain ⟨hs₄, htrims, hcard⟩ := hs₃.trimDropped
  have hd₄ := htrims.drops hcard now
  refine ⟨st₃.trimDropped, by simp [enforceAll, h₁, h₂, h₃], hs₄, ((hd₁.trans hd₂).trans hd₃).trans hd₄,
    ⟨⟨(hs₃.length_pendingIn_le hs₄ hd₄.pending_of _).trans htotals.total,
      (hs₃.pendingBytes_le hs₄ hd₄.pending_of _).trans htotals.bytes⟩,
      fun hook => ?_, fun repo => ?_⟩, hcard⟩
  · by_cases hne : (pendingKeys st.entries.values (inHook hook)).Nonempty
    · have hlookup := h.lookup_hooks_eq_some.mpr ⟨hne, rfl⟩
      obtain ⟨s₀, hs₀, hd₀, hle⟩ := hhooks hook (List.mem_map.mpr
        ⟨_, (order.hooks_perm _).mem_iff.mpr (lookup_eq_some_iff.mp hlookup), rfl⟩)
      exact (hs₀.length_pendingIn_le hs₄ (((hd₀.trans hd₂).trans hd₃).trans hd₄).pending_of _).trans hle
    · have hzero := h.card_pendingKeys (inHook hook)
      rw [Finset.not_nonempty_iff_eq_empty.mp hne, Finset.card_empty] at hzero
      have hle := h.length_pendingIn_le hs₄ (((hd₁.trans hd₂).trans hd₃).trans hd₄).pending_of (inHook hook)
      omega
  · by_cases hne : (pendingKeys st₁.entries.values (inRepo repo)).Nonempty
    · have hlookup := hs₁.lookup_repos_eq_some.mpr ⟨hne, rfl⟩
      obtain ⟨s₀, hs₀, hd₀, hle⟩ := hrepos repo (List.mem_map.mpr
        ⟨_, (order.repos_perm 0 _).mem_iff.mpr (lookup_eq_some_iff.mp hlookup), rfl⟩)
      exact (hs₀.length_pendingIn_le hs₄ ((hd₀.trans hd₃).trans hd₄).pending_of _).trans hle
    · have hzero := hs₁.card_pendingKeys (inRepo repo)
      rw [Finset.not_nonempty_iff_eq_empty.mp hne, Finset.card_empty] at hzero
      have hle := hs₁.length_pendingIn_le hs₄ ((hd₂.trans hd₃).trans hd₄).pending_of (inRepo repo)
      omega

/-! ### Queues within their bounds -/

variable (h : Sound q.limits st) (hb : Bounded q.limits st.entries.values)

include h hb in
theorem enforceHookBound_eq_self (hook : Hook)
    (now : ℕ) : q.enforceHookBound hook now st = some st := by
  refine loop_eq_self ?_
  rcases hookRound_eq h hook now with ⟨hnone, -⟩ | ⟨hover, -⟩
  · exact hnone
  · exact absurd (hb.perHook hook) (not_le.mpr hover)

include h hb in
theorem enforceRepoBound_eq_self (repo : String)
    (now : ℕ) : q.enforceRepoBound repo now st = some st := by
  refine loop_eq_self ?_
  rcases repoRound_eq h repo now with ⟨hnone, -⟩ | ⟨hover, -⟩
  · exact hnone
  · exact absurd (hb.perRepo repo) (not_le.mpr hover)

include h hb in
theorem enforceGlobalBounds_eq_self (order : HashOrder) (now : ℕ) : q.enforceGlobalBounds order now st = some st := by
  refine loop_eq_self ?_
  rcases globalRound_eq h order now st.aged.card with ⟨hnone, -⟩ | ⟨hover, -⟩
  · exact hnone
  · exact absurd hb.toWithinTotals hover

include h hb in
theorem enforceBounds_eq_self (order : HashOrder) (hook : Hook) (now : ℕ) :
    q.enforceBounds order hook now st = some st := by
  rw [enforceBounds, enforceHookBound_eq_self h hb]
  simp only [bind_eq_bind, bind_some, enforceRepoBound_eq_self h hb, enforceGlobalBounds_eq_self h hb]

include h hb in
theorem enforceAll_eq_self (hcard : st.dropped.card ≤ maxDropped) (order : HashOrder) (now : ℕ) :
    q.enforceAll order now st = some st := by
  have htrim : st.trimDropped = st := by rw [State.trimDropped, if_neg (not_lt.mpr hcard)]
  have hhooks := foldlM_eq_self (f := fun st hook => q.enforceHookBound hook now st)
    (l := (order.hooks st.hooks).map Prod.fst) fun hook _ => enforceHookBound_eq_self h hb hook now
  have hrepos := foldlM_eq_self (f := fun st repo => q.enforceRepoBound repo now st)
    (l := (order.repos 0 st.repos).map Prod.fst) fun repo _ => enforceRepoBound_eq_self h hb repo now
  simp only [enforceAll, hhooks, hrepos, bind_eq_bind, bind_some, enforceGlobalBounds_eq_self h hb, htrim,
    pure_def]

end Queue

end DashForge.Relay
