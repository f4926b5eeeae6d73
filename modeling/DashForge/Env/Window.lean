import DashForge.Env.Chain

/-!
# What a new snapshot names

A new snapshot of an environment names its heads, then the newest snapshot of each other author, then
the rest, newest first, 32 at most (`window`). Naming each author's newest keeps the chain whole when an
author is removed: whichever maintainers remain, a chain written this way resolves to the newest
remaining snapshot (`heads_of_run`). Naming every head ends a fork (`heads_of_merge`).
-/

namespace DashForge.Env

open List Option

/-- The environment of a name. -/
def Resolution.env (r : Resolution) (name : String) : Option EnvState :=
  r.environments.find? fun e => e.env == name

/-- The most pack hashes a snapshot names. -/
def maxSupersedes : ℕ := 32

/-- The order newest first. -/
def SnapshotRef.newest (m : SnapshotRef) : (ℕ ×ₗ String)ᵒᵈ := OrderDual.toDual m.order

/-- The snapshots picked so far, with their authors and ids. -/
structure Picked where
  authors : List String
  taken : List String
  out : List SnapshotRef

/-- Pick the first snapshot of an author. -/
def pickAuthor (st : Picked) (s : SnapshotRef) : Picked :=
  if s.ownerId ∈ st.authors then st
  else ⟨s.ownerId :: st.authors, s.id :: st.taken, st.out ++ [s]⟩

/-- Pick a snapshot that is not picked yet. -/
def pickRest (st : Picked) (s : SnapshotRef) : Picked :=
  if s.id ∈ st.taken then st else { st with taken := s.id :: st.taken, out := st.out ++ [s] }

/-- What a new snapshot names, given the snapshots of its environment and the ids of their heads. -/
def window (snapshots : List SnapshotRef) (heads : List String) : List Bytes :=
  let out := sortByKey SnapshotRef.newest (snapshots.filter fun s => s.id ∈ heads)
  let rest := sortByKey SnapshotRef.newest (snapshots.filter fun s => s.id ∉ heads)
  let st : Picked := ⟨out.map SnapshotRef.ownerId, out.map SnapshotRef.id, out⟩
  let st := rest.foldl pickAuthor st
  let st := rest.foldl pickRest st
  (st.out.take maxSupersedes).map SnapshotRef.packHash

/-! ### What the window holds -/

theorem foldl_pickAuthor (rest : List SnapshotRef) (st : Picked) :
    ∃ firsts, (rest.foldl pickAuthor st).out = st.out ++ firsts ∧ firsts ⊆ rest ∧
      (firsts.map SnapshotRef.ownerId).Nodup ∧ (∀ s ∈ firsts, s.ownerId ∉ st.authors) ∧
      ∀ pre s post, rest = pre ++ s :: post → s.ownerId ∉ st.authors →
        (∀ t ∈ pre, t.ownerId ≠ s.ownerId) → s ∈ firsts := by
  induction rest generalizing st with
  | nil => exact ⟨[], by simp, by simp, by simp, by simp, by simp⟩
  | cons r rest ih =>
    obtain ⟨firsts, hout, hsub, hnodup, hnew, hfirst⟩ := ih (pickAuthor st r)
    rw [foldl_cons]
    by_cases hr : r.ownerId ∈ st.authors
    · have hstep : pickAuthor st r = st := if_pos hr
      rw [hstep] at hout hnew hfirst ⊢
      refine ⟨firsts, hout, fun s hs => mem_cons_of_mem r (hsub hs), hnodup, hnew, ?_⟩
      rintro (_ | ⟨p, pre⟩) s post heq hs hpre
      · obtain ⟨rfl, -⟩ := List.cons.inj heq
        exact absurd hr hs
      · obtain ⟨-, heq⟩ := List.cons.inj heq
        exact hfirst pre s post heq hs fun t ht => hpre t (mem_cons_of_mem p ht)
    · have hstep : pickAuthor st r = ⟨r.ownerId :: st.authors, r.id :: st.taken, st.out ++ [r]⟩ := if_neg hr
      rw [hstep] at hout hnew hfirst ⊢
      refine ⟨r :: firsts, by rw [hout, append_assoc]; rfl, ?_, ?_, ?_, ?_⟩
      · exact cons_subset_cons r hsub
      · rw [map_cons, nodup_cons]
        refine ⟨fun hmem => ?_, hnodup⟩
        obtain ⟨s, hs, heq⟩ := mem_map.mp hmem
        exact hnew s hs (heq ▸ mem_cons_self)
      · intro s hs
        rcases mem_cons.mp hs with rfl | hs
        · exact hr
        · exact fun h => hnew s hs (mem_cons_of_mem _ h)
      · rintro (_ | ⟨p, pre⟩) s post heq hs hpre
        · obtain ⟨rfl, -⟩ := List.cons.inj heq
          exact mem_cons_self
        · obtain ⟨hp, hrest⟩ := List.cons.inj heq
          subst hp
          refine mem_cons_of_mem _ (hfirst pre s post hrest ?_ fun t ht => hpre t (mem_cons_of_mem r ht))
          intro h
          rcases mem_cons.mp h with h | h
          · exact hpre r mem_cons_self h.symm
          · exact hs h

theorem foldl_pickRest (rest : List SnapshotRef) (st : Picked) :
    ∃ more, (rest.foldl pickRest st).out = st.out ++ more ∧ more ⊆ rest := by
  induction rest generalizing st with
  | nil => exact ⟨[], by simp, by simp⟩
  | cons r rest ih =>
    obtain ⟨more, hout, hsub⟩ := ih (pickRest st r)
    rw [foldl_cons, hout]
    unfold pickRest
    split
    · exact ⟨more, rfl, fun s hs => mem_cons_of_mem r (hsub hs)⟩
    · exact ⟨r :: more, by rw [append_assoc]; rfl, cons_subset_cons r hsub⟩

/-- The window is a beginning of the heads, the first of each other author and more of the rest. -/
theorem exists_window (snapshots : List SnapshotRef) (heads : List String) : ∃ firsts more,
      window snapshots heads = ((sortByKey SnapshotRef.newest (snapshots.filter fun s => s.id ∈ heads) ++
        firsts ++ more).take maxSupersedes).map SnapshotRef.packHash ∧ firsts ⊆ snapshots ∧ more ⊆ snapshots ∧
      (firsts.map SnapshotRef.ownerId).Nodup ∧ (∀ s ∈ firsts, ∀ t ∈ snapshots, t.id ∈ heads → s.ownerId ≠ t.ownerId) ∧
      ∀ s ∈ snapshots, s.id ∉ heads → (∀ t ∈ snapshots, t.id ∈ heads → t.ownerId ≠ s.ownerId) →
        (∀ t ∈ snapshots, t.ownerId = s.ownerId → t ≠ s → t.order < s.order) → s ∈ firsts := by
  have hhead : ∀ s, s ∈ sortByKey SnapshotRef.newest (snapshots.filter fun s => s.id ∈ heads) ↔
      s ∈ snapshots ∧ s.id ∈ heads := fun s => by simp
  have hrest : ∀ s, s ∈ sortByKey SnapshotRef.newest (snapshots.filter fun s => s.id ∉ heads) ↔
      s ∈ snapshots ∧ s.id ∉ heads := fun s => by simp
  have hsorted := pairwise_sortByKey SnapshotRef.newest (snapshots.filter fun s => s.id ∉ heads)
  unfold window
  generalize sortByKey SnapshotRef.newest (snapshots.filter fun s => s.id ∈ heads) = out at hhead ⊢
  generalize sortByKey SnapshotRef.newest (snapshots.filter fun s => s.id ∉ heads) = rest at hrest hsorted ⊢
  obtain ⟨firsts, hout, hsub, hnodup, hnew, hfirst⟩ :=
    foldl_pickAuthor rest ⟨out.map SnapshotRef.ownerId, out.map SnapshotRef.id, out⟩
  obtain ⟨more, hout', hsub'⟩ := foldl_pickRest rest
    (rest.foldl pickAuthor ⟨out.map SnapshotRef.ownerId, out.map SnapshotRef.id, out⟩)
  refine ⟨firsts, more, by simp only [hout', hout], fun s hs => ((hrest s).mp (hsub hs)).1,
    fun s hs => ((hrest s).mp (hsub' hs)).1, hnodup, fun s hs t ht hid heq => ?_, fun s hs hid hheads hlow => ?_⟩
  · exact hnew s hs (heq ▸ mem_map_of_mem ((hhead t).mpr ⟨ht, hid⟩))
  · obtain ⟨pre, post, hsplit, hpre⟩ := eq_append_cons_of_mem ((hrest s).mpr ⟨hs, hid⟩)
    refine hfirst pre s post hsplit ?_ fun t ht howner => ?_
    · intro hmem
      obtain ⟨t, ht, howner⟩ := mem_map.mp hmem
      obtain ⟨ht, htid⟩ := (hhead t).mp ht
      exact hheads t ht htid howner
    · have htrest : t ∈ rest := hsplit ▸ mem_append_left _ ht
      rw [hsplit] at hsorted
      have hle : s.order ≤ t.order := (pairwise_append.mp hsorted).2.2 t ht s mem_cons_self
      have hne : t ≠ s := fun h => hpre (h ▸ ht)
      exact absurd (hlow t ((hrest t).mp htrest).1 howner hne) (not_lt.mpr hle)

variable {snapshots manifests run pre post manifests' : List SnapshotRef} {heads : List String} {s m : SnapshotRef}
  {authors maintainers kept : Finset String} {envOf : Bytes → Option String}

theorem exists_of_mem_window {h : Bytes} (hh : h ∈ window snapshots heads) : ∃ s ∈ snapshots, s.packHash = h := by
  obtain ⟨firsts, more, heq, hfirsts, hmore, -⟩ := exists_window snapshots heads
  rw [heq] at hh
  obtain ⟨s, hs, rfl⟩ := mem_map.mp hh
  refine ⟨s, ?_, rfl⟩
  rcases mem_append.mp (mem_of_mem_take hs) with hs | hs
  · rcases mem_append.mp hs with hs | hs
    · exact mem_of_mem_filter ((mem_sortByKey _).mp hs)
    · exact hfirsts hs
  · exact hmore hs

theorem mem_take_append {l₁ l₂ : List SnapshotRef} {n : ℕ} (hlen : l₁.length ≤ n)
    (hs : s ∈ l₁) : s ∈ (l₁ ++ l₂).take n := by
  rw [take_append, take_of_length_le hlen]
  exact mem_append_left _ hs

theorem mem_window_of_head (hlen : (snapshots.filter fun s => s.id ∈ heads).length ≤ maxSupersedes)
    (hs : s ∈ snapshots) (hid : s.id ∈ heads) : s.packHash ∈ window snapshots heads := by
  obtain ⟨firsts, more, heq, -⟩ := exists_window snapshots heads
  rw [heq, append_assoc]
  refine mem_map_of_mem (mem_take_append ?_ ?_)
  · rwa [(perm_sortByKey _ _).length_eq]
  · simp [hs, hid]

theorem mem_window_of_newest (hauthors : ∀ s ∈ snapshots, s.ownerId ∈ authors) (hcard : authors.card ≤ maxSupersedes)
    (hheads : ((snapshots.filter fun s => s.id ∈ heads).map SnapshotRef.ownerId).Nodup)
    (hs : s ∈ snapshots) (hnewest : ∀ t ∈ snapshots, t.ownerId = s.ownerId → t ≠ s → t.order < s.order)
    (hhead : ∀ t ∈ snapshots, t.id ∈ heads → t.ownerId = s.ownerId → t = s) : s.packHash ∈ window snapshots heads := by
  obtain ⟨firsts, more, heq, hfirsts, -, hnodup, hdisj, hfirst⟩ := exists_window snapshots heads
  have hperm := perm_sortByKey SnapshotRef.newest (snapshots.filter fun s => s.id ∈ heads)
  have hmem : ∀ t, t ∈ sortByKey SnapshotRef.newest (snapshots.filter fun s => s.id ∈ heads) ↔
      t ∈ snapshots ∧ t.id ∈ heads := fun t => by simp
  rw [heq]
  generalize sortByKey SnapshotRef.newest (snapshots.filter fun s => s.id ∈ heads) = out at hperm hmem ⊢
  have hall : ((out ++ firsts).map SnapshotRef.ownerId).Nodup := by
    rw [map_append]
    refine nodup_append.mpr ⟨(hperm.map _).nodup_iff.mpr hheads, hnodup, ?_⟩
    rintro a ha b hb rfl
    obtain ⟨t, ht, rfl⟩ := mem_map.mp ha
    obtain ⟨u, hu, heq⟩ := mem_map.mp hb
    exact hdisj u hu t ((hmem t).mp ht).1 ((hmem t).mp ht).2 heq
  have hlen : (out ++ firsts).length ≤ maxSupersedes := by
    rw [← length_map SnapshotRef.ownerId, ← toFinset_card_of_nodup hall]
    refine (Finset.card_le_card fun a ha => ?_).trans hcard
    obtain ⟨t, ht, rfl⟩ := mem_map.mp (mem_toFinset.mp ha)
    rcases mem_append.mp ht with ht | ht
    · exact hauthors t ((hmem t).mp ht).1
    · exact hauthors t (hfirsts ht)
  refine mem_map_of_mem (mem_take_append hlen ?_)
  by_cases hid : s.id ∈ heads
  · exact mem_append_left _ ((hmem s).mpr ⟨hs, hid⟩)
  · refine mem_append_right _ (hfirst s hs hid (fun t ht htid howner => ?_) hnewest)
    exact hid (hhead t ht htid howner ▸ htid)

/-! ### The snapshots that count -/

theorem exists_counted (maintainers : Finset String) {l : List SnapshotRef} {t : SnapshotRef} (ht : t ∈ l)
    (howner : t.ownerId ∈ maintainers) :
    ∃ n ∈ (l.foldl (countManifest maintainers) ⟨[], [], []⟩).nodes, n.packHash = t.packHash := by
  induction l using reverseRecOn with
  | nil => simp at ht
  | append_singleton l m ih =>
    rw [foldl_concat]
    generalize l.foldl (countManifest maintainers) ⟨[], [], []⟩ = acc at ih
    unfold countManifest
    rcases mem_append.mp ht with ht | ht
    · obtain ⟨n, hn, hhash⟩ := ih ht
      split_ifs
      · exact ⟨n, hn, hhash⟩
      · exact ⟨n, mem_append_left _ hn, hhash⟩
      · exact ⟨n, hn, hhash⟩
    · obtain rfl := mem_singleton.mp ht
      split_ifs with hdup
      · simpa using hdup
      · exact ⟨t, mem_append_right _ mem_cons_self, rfl⟩

theorem mem_foldl_countManifest (maintainers : Finset String) {l : List SnapshotRef}
    (hids : (l.map SnapshotRef.id).Nodup) (hsorted : l.Pairwise fun a b => a.order ≤ b.order)
    {n : SnapshotRef} : n ∈ (l.foldl (countManifest maintainers) ⟨[], [], []⟩).nodes ↔ n ∈ l ∧ n.ownerId ∈ maintainers ∧
        ∀ t ∈ l, t.ownerId ∈ maintainers → t.packHash = n.packHash → n.order ≤ t.order := by
  induction l using reverseRecOn generalizing n with
  | nil => simp
  | append_singleton l m ih =>
    rw [map_append, nodup_append] at hids
    obtain ⟨hsortedL, -, hlast⟩ := pairwise_append.mp hsorted
    have hbelow : ∀ t ∈ l, t.order < m.order := by
      intro t ht
      refine lt_of_le_of_ne (hlast t ht m mem_cons_self) fun heq => ?_
      have hid : t.id = m.id := congrArg (fun o => (ofLex o).2) heq
      exact hids.2.2 t.id (mem_map_of_mem ht) m.id (by simp) hid
    have hcounted := fun t => @exists_counted maintainers l t
    have ih' := fun n => @ih hids.1 hsortedL n
    rw [foldl_concat]
    generalize l.foldl (countManifest maintainers) ⟨[], [], []⟩ = acc at ih' hcounted
    simp only [mem_append, mem_singleton, or_imp, forall_and, forall_eq]
    have hold : n ∈ acc.nodes → (n ∈ l ∨ n = m) ∧ n.ownerId ∈ maintainers ∧
        (∀ t ∈ l, t.ownerId ∈ maintainers → t.packHash = n.packHash → n.order ≤ t.order) ∧
        (m.ownerId ∈ maintainers → m.packHash = n.packHash → n.order ≤ m.order) := by
      intro hn
      obtain ⟨hn, hm, hfirst⟩ := (ih' n).mp hn
      exact ⟨.inl hn, hm, hfirst, fun _ _ => (hbelow n hn).le⟩
    unfold countManifest
    split_ifs with howner hdup
    · simp only [List.any_eq_true, beq_iff_eq] at hdup
      obtain ⟨n₀, hn₀, hhash⟩ := hdup
      obtain ⟨hn₀, hm₀, -⟩ := (ih' n₀).mp hn₀
      refine ⟨hold, ?_⟩
      rintro ⟨hn | rfl, hm, hfirst, -⟩
      · exact (ih' n).mpr ⟨hn, hm, hfirst⟩
      · exact absurd (hfirst n₀ hn₀ hm₀ hhash) (not_le.mpr (hbelow n₀ hn₀))
    · simp only [List.any_eq_true, beq_iff_eq, not_exists, not_and] at hdup
      simp only [mem_append, mem_singleton]
      constructor
      · rintro (hn | rfl)
        · exact hold hn
        · refine ⟨.inr rfl, howner, fun t ht htm hhash => ?_, fun _ _ => le_rfl⟩
          obtain ⟨n₀, hn₀, hhash₀⟩ := hcounted t ht htm
          exact absurd (hhash₀.trans hhash) (hdup n₀ hn₀)
      · rintro ⟨hn | rfl, hm, hfirst, -⟩
        · exact .inl ((ih' n).mpr ⟨hn, hm, hfirst⟩)
        · exact .inr rfl
    · refine ⟨hold, ?_⟩
      rintro ⟨hn | rfl, hm, hfirst, -⟩
      · exact (ih' n).mpr ⟨hn, hm, hfirst⟩
      · exact absurd hm howner

theorem mem_nodes_iff (hids : (manifests.map SnapshotRef.id).Nodup) {n : SnapshotRef} :
    n ∈ (countManifests maintainers manifests).nodes ↔ n ∈ manifests ∧ n.ownerId ∈ maintainers ∧
      ∀ t ∈ manifests, t.ownerId ∈ maintainers → t.packHash = n.packHash → n.order ≤ t.order := by
  have hperm := perm_sortByKey SnapshotRef.order manifests
  rw [countManifests, mem_foldl_countManifest maintainers ((hperm.map _).nodup_iff.mpr hids)
    (pairwise_sortByKey _ _)]
  simp [mem_sortByKey]

/-! ### The heads of an environment -/

section

variable {nodes : List SnapshotRef} {envOf : Bytes → Option String}

variable {s m : SnapshotRef} {e : EnvState} {comps : List (List Bytes)} {group : String × List Bytes}

/-- A link between counted snapshots counts when it leads lower, and not between readable snapshots of
different environments. -/
theorem mem_edgesOf_iff (hok : NodesOk nodes) {t : SnapshotRef} (ht : t ∈ nodes) (hs : s ∈ nodes) :
    (t.packHash, s.packHash) ∈ edgesOf nodes envOf ↔ s.packHash ∈ t.supersedes ∧ s.height < t.height ∧
      ∀ a ∈ envOf t.packHash, ∀ b ∈ envOf s.packHash, a = b := by
  have hnode := (node?_eq_some hok).mpr ⟨hs, rfl⟩
  have hcounts : counts nodes envOf t s.packHash ↔ s.height < t.height ∧
      ∀ a ∈ envOf t.packHash, ∀ b ∈ envOf s.packHash, a = b := by
    rw [counts, hnode]
    dsimp only
    split
    · rename_i hge
      simp [not_lt.mpr hge]
    · rename_i hlt
      cases envOf t.packHash <;> cases envOf s.packHash <;> simp [not_le.mp hlt]
  rw [mem_edgesOf]
  constructor
  · rintro ⟨t', ht', hhash, hsup, hc⟩
    obtain rfl := hok.eq_of_hash ht' ht hhash
    exact ⟨hsup, hcounts.mp hc⟩
  · rintro ⟨hsup, hc⟩
    exact ⟨t, ht, rfl, hsup, hcounts.mpr hc⟩

/-- The packs of an environment. -/
def Member (nodes : List SnapshotRef) (envOf : Bytes → Option String) (name : String) (h : Bytes) : Prop :=
  NamedBy nodes envOf h name ∧ ∀ x ∈ envOf h, x = name

/-- What the heads of an environment are. -/
structure HeadsOf (nodes : List SnapshotRef) (envOf : Bytes → Option String) (e : EnvState) : Prop where
  nodup : e.heads.Nodup
  counted : ∀ i ∈ e.heads, ∃ m ∈ nodes, m.id = i
  mem : ∀ m ∈ nodes, m.id ∈ e.heads ↔ Member nodes envOf e.env m.packHash ∧
    ∀ t ∈ nodes, Member nodes envOf e.env t.packHash → (t.packHash, m.packHash) ∉ edgesOf nodes envOf
  snapshots : ∀ m ∈ nodes, m.id ∈ e.snapshots ↔ Member nodes envOf e.env m.packHash
  state : e.state = .current ↔ ∃ m ∈ nodes, e.heads = [m.id] ∧ (envOf m.packHash).isSome

theorem HeadsOf.eq_singleton (h : HeadsOf nodes envOf e)
    (hm : m.id ∈ e.heads) (hone : ∀ t ∈ nodes, t.id ∈ e.heads → t = m) : e.heads = [m.id] := by
  have hall : ∀ i ∈ e.heads, i = m.id := by
    intro i hi
    obtain ⟨t, ht, rfl⟩ := h.counted i hi
    rw [hone t ht hi]
  have hnodup := h.nodup
  match heads : e.heads, hm, hall, hnodup with
  | [i], _, hall, _ => rw [hall i mem_cons_self]
  | i :: j :: rest, _, hall, hnodup =>
    have hij : i ≠ j := fun h => (nodup_cons.mp hnodup).1 (h ▸ mem_cons_self)
    exact absurd ((hall i (by simp)).trans (hall j (by simp)).symm) hij

theorem HeadsOf.current (h : HeadsOf nodes envOf e) (hm : m ∈ nodes) {name : String}
    (hread : envOf m.packHash = some name) (hhead : m.id ∈ e.heads) (hone : ∀ t ∈ nodes, t.id ∈ e.heads → t = m) :
    e.heads = [m.id] ∧ e.state = .current := by
  have hsole := h.eq_singleton hhead hone
  exact ⟨hsole, h.state.mpr ⟨m, hm, hsole, by rw [hread]; rfl⟩⟩

theorem mem_window_of_heads (hok : NodesOk nodes) (hlen : e.heads.length ≤ maxSupersedes)
    {snapshots : List SnapshotRef} (hsnapshots : snapshots.Perm (nodes.filter fun n => n.id ∈ e.snapshots))
        (hs : s ∈ snapshots) (hid : s.id ∈ e.heads) : s.packHash ∈ window snapshots e.heads := by
  refine mem_window_of_head ?_ hs hid
  have hnodup : ((snapshots.filter fun s => s.id ∈ e.heads).map SnapshotRef.id).Nodup := by
    refine List.Nodup.sublist (filter_sublist.map _) ?_
    rw [(hsnapshots.map _).nodup_iff]
    exact hok.ids.sublist (filter_sublist.map _)
  have hsub : (snapshots.filter fun s => s.id ∈ e.heads).map SnapshotRef.id ⊆ e.heads := by
    intro i hi
    obtain ⟨s, hs, rfl⟩ := mem_map.mp hi
    simpa using (mem_filter.mp hs).2
  have h := (subperm_of_subset hnodup hsub).length_le
  rw [length_map] at h
  exact h.trans hlen

theorem nodup_of_mem_envGroups (hgroup : group ∈ envGroups envOf comps) : group.2.Nodup := by
  obtain ⟨g, -, rfl⟩ := mem_map.mp hgroup
  exact nodup_sortedDistinct _

theorem headsOf_of_environment (hok : NodesOk nodes)
    (hcomps : IsComponents nodes envOf comps) {others : List SnapshotRef} (hgroup : group ∈ envGroups envOf comps)
    (he : environment nodes envOf others (edgesOf nodes envOf) group = some e) :
    e.env = group.1 ∧ HeadsOf nodes envOf e := by
  have hcounted : ∀ h ∈ group.2, h ∈ hashesOf nodes := by
    intro h hh
    obtain ⟨g, hg, hin, -⟩ := ((envGroups_spec envOf comps).2.2 group hgroup h).mp hh
    exact hcomps.subset hg hin
  obtain ⟨rows, hrows, -, hmem⟩ := rowsOf_spec hok _ hcounted
  obtain ⟨headRows, hheads, hmap, hmemHeads⟩ := rowsOf_spec hok
    (headsOf (edgesOf nodes envOf) group.2) fun h hh => hcounted h (headsOf_subset hh)
  simp only [environment, hrows, hheads, some_bind, some.injEq] at he
  subst he
  have hsub : ∀ r ∈ headRows, r ∈ nodes := fun r hr => ((hmemHeads r).mp hr).1
  have hrowsNodup : headRows.Nodup := by
    refine List.Nodup.of_map SnapshotRef.packHash ?_
    rw [hmap]
    exact (nodup_of_mem_envGroups hgroup).filter _
  have hidsNodup : (idsOf headRows).Nodup := by
    rw [idsOf, ((perm_sortByKey _ headRows).map _).nodup_iff]
    exact hrowsNodup.map_on fun a ha b hb => hok.eq_of_id (hsub a ha) (hsub b hb)
  refine ⟨rfl, hidsNodup, fun i hi => ?_, fun m hm => ?_, fun m hm => ?_, ?_⟩
  · obtain ⟨r, hr, rfl⟩ := mem_map.mp hi
    exact ⟨r, hsub r ((mem_sortByKey _).mp hr), rfl⟩
  · rw [mem_idsOf hok hsub hm, hmemHeads, and_iff_right hm]
    simp only [headsOf, mem_filter, Bool.not_eq_true', List.any_eq_false, contains_iff_mem]
    refine and_congr (mem_group_iff hcomps hgroup hm) ⟨fun h t ht hmt => ?_, fun h x hx => ?_⟩
    · exact h t.packHash ((mem_group_iff hcomps hgroup ht).mpr hmt)
    · obtain ⟨t, ht, rfl⟩ := mem_hashesOf.mp (hcounted x hx)
      exact h t ht ((mem_group_iff hcomps hgroup ht).mp hx)
  · rw [mem_idsOf hok (fun r hr => ((hmem r).mp hr).1) hm, hmem, and_iff_right hm]
    exact mem_group_iff hcomps hgroup hm
  · rw [← hmap]
    exact stateOf_eq_current hok hsub

theorem resolve_env (maintainers : Finset String) {manifests : List SnapshotRef}
    (hids : (manifests.map SnapshotRef.id).Nodup) (envOf : Bytes → Option String) :
    ∃ res, resolve maintainers manifests envOf = some res ∧
      (∀ e ∈ res.environments, HeadsOf (countManifests maintainers manifests).nodes envOf e) ∧
      ∀ n ∈ (countManifests maintainers manifests).nodes, ∀ name, envOf n.packHash = some name →
        ∃ e ∈ res.environments, e.env = name ∧ res.env name = some e := by
  obtain ⟨comps, envs, hidden, hres, -, hcomps, henvs, -⟩ :=
    exists_resolve maintainers manifests envOf hids
  have hok : NodesOk (countManifests maintainers manifests).nodes := nodesOk_countManifests hids
  refine ⟨_, hres, fun e he => ?_, fun n hn name hname => ?_⟩
  · obtain ⟨group, hgroup, henv⟩ := exists_of_mem_mapM_some henvs he
    exact (headsOf_of_environment hok hcomps hgroup henv).2
  · obtain ⟨g, hg, hin⟩ := hcomps.covers n hn
    have hlisted : name ∈ (envGroups envOf comps).map Prod.fst :=
      ((envGroups_spec envOf comps).2.1 name).mpr ⟨g, hg, n.packHash, hin, hname⟩
    obtain ⟨group, hgroup, rfl⟩ := mem_map.mp hlisted
    have hmapped : environment _ envOf _ _ group ∈ envs.map some := map_eq_map_some henvs ▸ mem_map_of_mem hgroup
    obtain ⟨e, he, henv⟩ := mem_map.mp hmapped
    have hfound : (envs.find? fun e => e.env == group.1).isSome :=
      find?_isSome.mpr ⟨e, he, by simpa using (headsOf_of_environment hok hcomps hgroup henv.symm).1⟩
    obtain ⟨e', he'⟩ := isSome_iff_exists.mp hfound
    exact ⟨e', mem_of_find?_eq_some he', by simpa using find?_some he', he'⟩

end

/-! ### A chain with authors removed -/

/-- A chain of snapshots: each is written above those before it and names their window, whose sole head
is the last of them. -/
inductive Written : List SnapshotRef → Prop
  | nil : Written []
  | snoc {run : List SnapshotRef} {t : SnapshotRef} (h : Written run) (above : ∀ s ∈ run, s.height < t.height)
      (names : t.supersedes = window run (run.getLast?.map SnapshotRef.id).toList) : Written (run ++ [t])

theorem Written.split (h : Written run) {t : SnapshotRef}
    (heq : run = pre ++ t :: post) : (∀ s ∈ pre, s.height < t.height) ∧
      t.supersedes = window pre (pre.getLast?.map SnapshotRef.id).toList := by
  induction h generalizing post with
  | nil => simp at heq
  | @snoc run u _ above names ih =>
    rcases eq_nil_or_concat' post with rfl | ⟨post, last, rfl⟩
    · obtain ⟨rfl, hu⟩ := append_inj' heq rfl
      obtain rfl := singleton_inj.mp hu
      exact ⟨above, names⟩
    · rw [← cons_append, ← append_assoc] at heq
      exact ih (append_inj' heq rfl).1

theorem Written.height_lt (h : Written run) : run.Pairwise fun s t => s.height < t.height := by
  induction h with
  | nil => exact .nil
  | snoc _ above _ ih => exact pairwise_append.mpr ⟨ih, pairwise_singleton _ _, by simpa using above⟩

theorem order_lt_of_height_lt {t : SnapshotRef} (h : s.height < t.height) : s.order < t.order :=
  Prod.Lex.toLex_lt_toLex.mpr (.inl h)

theorem mem_window_of_written (hids : (pre.map SnapshotRef.id).Nodup)
    (hheight : pre.Pairwise fun s t => s.height < t.height)
    (hauthors : ∀ s ∈ pre, s.ownerId ∈ authors) (hcard : authors.card ≤ maxSupersedes)
    (hs : s ∈ pre) (hnewest : ∀ t ∈ pre, t.ownerId = s.ownerId → t ≠ s → t.height < s.height) :
    s.packHash ∈ window pre (pre.getLast?.map SnapshotRef.id).toList := by
  obtain ⟨init, last, rfl⟩ := eq_nil_or_concat' pre |>.resolve_left (ne_nil_of_mem hs)
  have hlast : last ∈ init ++ [last] := mem_append_right _ mem_cons_self
  have hhead : ∀ t ∈ init ++ [last], t.id ∈ ((init ++ [last]).getLast?.map SnapshotRef.id).toList → t = last := by
    intro t ht hid
    rw [getLast?_concat, map_some, toList_some, mem_singleton] at hid
    exact inj_on_of_nodup_map hids ht hlast hid
  have hfilter : ((init ++ [last]).filter fun s =>
      s.id ∈ ((init ++ [last]).getLast?.map SnapshotRef.id).toList) = [last] := by
    rw [filter_append, filter_cons_of_pos (by simp), filter_nil, filter_eq_nil_iff.mpr]
    · rfl
    · intro t ht hid
      have heq := hhead t (mem_append_left _ ht) (by simpa using hid)
      have hlt := (pairwise_append.mp hheight).2.2 t ht last mem_cons_self
      exact absurd hlt (heq ▸ lt_irrefl _)
  refine mem_window_of_newest hauthors hcard ?_ hs ?_ ?_
  · rw [hfilter]
    simp
  · exact fun t ht howner hne => order_lt_of_height_lt (hnewest t ht howner hne)
  · intro t ht hid howner
    obtain rfl := hhead t ht hid
    by_contra hne
    have hinit : s ∈ init := by
      rcases mem_append.mp hs with hs | hs
      · exact hs
      · exact absurd (mem_singleton.mp hs).symm hne
    have hlt := (pairwise_append.mp hheight).2.2 s hinit t mem_cons_self
    exact absurd (hnewest t ht howner hne) (not_lt.mpr hlt.le)

variable (h : Written run) (hids : (run.map SnapshotRef.id).Nodup)
  (hcard : (run.map SnapshotRef.ownerId).toFinset.card ≤ maxSupersedes)

include h hids hcard in
theorem Written.next {mid : List SnapshotRef} {t : SnapshotRef} (heq : run = pre ++ s :: mid ++ t :: post)
    (hs : s.ownerId ∈ kept) (hmid : ∀ u ∈ mid, u.ownerId ∉ kept) : s.packHash ∈ t.supersedes ∧ s.height < t.height := by
  obtain ⟨habove, hnames⟩ := h.split heq
  have hmem : s ∈ pre ++ s :: mid := mem_append_right _ mem_cons_self
  have hsub : (pre ++ s :: mid).Sublist run := heq ▸ sublist_append_left _ _
  have hheight := h.height_lt.sublist hsub
  refine ⟨?_, habove s hmem⟩
  rw [hnames]
  refine mem_window_of_written (hids.sublist (hsub.map _)) hheight (fun u hu => ?_) hcard hmem ?_
  · exact mem_toFinset.mpr (mem_map_of_mem (hsub.subset hu))
  · intro u hu howner hne
    rcases mem_append.mp hu with hu | hu
    · exact (pairwise_append.mp hheight).2.2 u hu s mem_cons_self
    · rcases mem_cons.mp hu with hu | hu
      · exact absurd hu hne
      · exact absurd (howner ▸ hs) (hmid u hu)

include h hids hcard in
theorem Written.exists_next {u : SnapshotRef} (hs : s ∈ run) (hsKept : s.ownerId ∈ kept)
    (hu : u ∈ run) (huKept : u.ownerId ∈ kept)
    (hlt : s.height < u.height) : ∃ t ∈ run, t.ownerId ∈ kept ∧ s.packHash ∈ t.supersedes ∧ s.height < t.height := by
  obtain ⟨pre, rest, hsplit⟩ := append_of_mem hs
  have hfind : (rest.find? fun t => t.ownerId ∈ kept).isSome := by
    refine find?_isSome.mpr ⟨u, ?_, by simpa using huKept⟩
    have hheight := h.height_lt
    rw [hsplit] at hu hheight
    rcases mem_append.mp hu with hu | hu
    · have hlt' := (pairwise_append.mp hheight).2.2 u hu s mem_cons_self
      exact absurd hlt (not_lt.mpr hlt'.le)
    · exact (mem_cons.mp hu).resolve_left fun heq => absurd hlt (heq ▸ lt_irrefl _)
  -- the next kept snapshot after `s` supersedes it
  obtain ⟨t, ht⟩ := isSome_iff_exists.mp hfind
  obtain ⟨htKept, mid, post, hrest, hmid⟩ := find?_eq_some_iff_append.mp ht
  have heq : run = pre ++ s :: mid ++ t :: post := by rw [hsplit, hrest]; simp
  exact ⟨t, by rw [heq]; simp, by simpa using htKept, h.next hids hcard heq hsKept (by simpa using hmid)⟩

/-- Whichever authors are kept, a chain resolves to its newest snapshot that remains. -/
theorem heads_of_run (hrun : Written run)
    (hids : (run.map SnapshotRef.id).Nodup) (hhashes : (run.map SnapshotRef.packHash).Nodup)
    (hcard : (run.map SnapshotRef.ownerId).toFinset.card ≤ maxSupersedes)
    {name : String} (hread : ∀ s ∈ run, envOf s.packHash = some name) (hperm : manifests.Perm run)
      {newest : SnapshotRef}
    (hnewest : (run.filter fun s => s.ownerId ∈ kept).getLast? = some newest) :
    ∃ res e, resolve kept manifests envOf = some res ∧ res.env name = some e ∧ e.heads = [newest.id] ∧
      e.state = .current := by
  have hids' : (manifests.map SnapshotRef.id).Nodup := (hperm.map _).nodup_iff.mpr hids
  have hnodes : ∀ n, n ∈ (countManifests kept manifests).nodes ↔ n ∈ run ∧ n.ownerId ∈ kept := by
    intro n
    rw [mem_nodes_iff hids', hperm.mem_iff]
    refine ⟨fun h => ⟨h.1, h.2.1⟩, fun h => ⟨h.1, h.2, fun t ht _ hhash => ?_⟩⟩
    rw [inj_on_of_nodup_map hhashes (hperm.mem_iff.mp ht) h.1 hhash]
  obtain ⟨init, hinit⟩ := getLast?_eq_some_iff.mp hnewest
  have hmemNewest : newest ∈ run ∧ newest.ownerId ∈ kept := by
    have : newest ∈ run.filter fun s => s.ownerId ∈ kept := hinit ▸ mem_append_right _ mem_cons_self
    simpa using this
  obtain ⟨res, hres, hheads, hlisted⟩ := resolve_env kept hids' envOf
  obtain ⟨e, he, hname, hfound⟩ :=
    hlisted newest ((hnodes newest).mpr hmemNewest) name (hread newest hmemNewest.1)
  have hspec := hheads e he
  have hok : NodesOk (countManifests kept manifests).nodes := nodesOk_countManifests hids'
  generalize (countManifests kept manifests).nodes = nodes at hnodes hspec hok
  have hmember : ∀ n ∈ nodes, Member nodes envOf e.env n.packHash := by
    intro n hn
    have hr := hread n ((hnodes n).mp hn).1
    exact ⟨⟨n, hn, .refl _, hname ▸ hr⟩, fun x hx => by rw [hname, ← some.inj (hr.symm.trans hx)]⟩
  have hedge : ∀ s ∈ nodes, ∀ t ∈ nodes, s.packHash ∈ t.supersedes → s.height < t.height →
      (t.packHash, s.packHash) ∈ edgesOf nodes envOf := by
    intro s hs t ht hsup hlt
    refine (mem_edgesOf_iff hok ht hs).mpr ⟨hsup, hlt, fun a ha b hb => ?_⟩
    rw [hread t ((hnodes t).mp ht).1] at ha
    rw [hread s ((hnodes s).mp hs).1] at hb
    exact some.inj (ha.symm.trans hb)
  have hlast : ∀ s ∈ nodes, s ≠ newest → s.height < newest.height := by
    intro s hs hne
    have hmem : s ∈ init ++ [newest] := hinit ▸ mem_filter.mpr (by simpa using (hnodes s).mp hs)
    have hheight := hrun.height_lt.filter fun s => s.ownerId ∈ kept
    rw [hinit] at hheight
    rcases mem_append.mp hmem with hmem | hmem
    · exact (pairwise_append.mp hheight).2.2 s hmem newest mem_cons_self
    · exact absurd (mem_singleton.mp hmem) hne
  have hnewestNode := (hnodes newest).mpr hmemNewest
  have hhead : newest.id ∈ e.heads := by
    refine (hspec.mem newest hnewestNode).mpr ⟨hmember newest hnewestNode, fun t ht _ hmem => ?_⟩
    obtain ⟨-, hlt, -⟩ := (mem_edgesOf_iff hok ht hnewestNode).mp hmem
    by_cases hne : t = newest
    · exact absurd hlt (hne ▸ lt_irrefl _)
    · exact absurd (hlast t ht hne) (not_lt.mpr hlt.le)
  have hone : ∀ s ∈ nodes, s.id ∈ e.heads → s = newest := by
    intro s hs hsHead
    by_contra hne
    obtain ⟨hsRun, hsKept⟩ := (hnodes s).mp hs
    obtain ⟨t, htRun, htKept, hsup, hlt⟩ :=
      hrun.exists_next hids hcard hsRun hsKept hmemNewest.1 hmemNewest.2 (hlast s hs hne)
    have htNode : t ∈ nodes := (hnodes t).mpr ⟨htRun, htKept⟩
    exact ((hspec.mem s hs).mp hsHead).2 t htNode (hmember t htNode) (hedge s hs t htNode hsup hlt)
  exact ⟨res, e, hres, hfound, hspec.current hnewestNode (hread newest hmemNewest.1) hhead hone⟩

/-! ### A fork ended -/

section

variable {nodes nodes' : List SnapshotRef} {envOf : Bytes → Option String} {m : SnapshotRef} {name : String}

variable {h h' : Bytes}

theorem NamedBy.of_connected (hn : NamedBy nodes envOf h' name)
    (hconn : Connected nodes envOf h h') : NamedBy nodes envOf h name := by
  obtain ⟨r, hr, hconn', hname⟩ := hn
  exact ⟨r, hr, hconn.trans _ _ _ hconn', hname⟩

variable (hok : NodesOk nodes) (hok' : NodesOk nodes') (hadd : ∀ n, n ∈ nodes' ↔ n = m ∨ n ∈ nodes)

include hok hok' hadd in
/-- The links between the snapshots there were are as they were. -/
theorem edgesOf_added {t s : SnapshotRef} (ht : t ∈ nodes) (hs : s ∈ nodes) :
    (t.packHash, s.packHash) ∈ edgesOf nodes' envOf ↔ (t.packHash, s.packHash) ∈ edgesOf nodes envOf := by
  rw [mem_edgesOf_iff hok ht hs, mem_edgesOf_iff hok' ((hadd t).mpr (.inr ht)) ((hadd s).mpr (.inr hs))]

include hok hok' hadd in
theorem connected_added (hconn : Connected nodes envOf h h') : Connected nodes' envOf h h' := by
  refine hconn.mono fun a b hedge => ?_
  obtain ⟨t, ht, s, hs, rfl, rfl, -⟩ := height_lt_of_mem_edgesOf hok hedge
  exact (edgesOf_added hok hok' hadd ht hs).mpr hedge

include hok hok' hadd in
theorem namedBy_of_added (hnew : ∀ n ∈ nodes, n.packHash ≠ m.packHash)
    (hsup : ∀ n ∈ nodes, n.packHash ∈ m.supersedes → NamedBy nodes envOf n.packHash name)
    (hunnamed : ∀ n ∈ nodes, m.packHash ∈ n.supersedes → n.height ≤ m.height) {n : SnapshotRef} (hn : n ∈ nodes)
    (hnamed : NamedBy nodes' envOf n.packHash name) : NamedBy nodes envOf n.packHash name := by
  have hm : m ∈ nodes' := (hadd m).mpr (.inl rfl)
  -- being the new snapshot or named before does not change along a link
  have hlink : ∀ a b, (a, b) ∈ edgesOf nodes' envOf →
      ((a = m.packHash ∨ NamedBy nodes envOf a name) ↔ (b = m.packHash ∨ NamedBy nodes envOf b name)) := by
    intro a b hedge
    obtain ⟨t, ht, s, hs, rfl, rfl, hlt⟩ := height_lt_of_mem_edgesOf hok' hedge
    obtain ⟨hsupers, -, -⟩ := (mem_edgesOf_iff hok' ht hs).mp hedge
    rcases (hadd t).mp ht with rfl | ht
    · rcases (hadd s).mp hs with rfl | hs
      · exact Iff.rfl
      · exact ⟨fun _ => .inr (hsup s hs hsupers), fun _ => .inl rfl⟩
    · rcases (hadd s).mp hs with rfl | hs
      · exact absurd (hunnamed t ht hsupers) (not_le.mpr hlt)
      · have hedge' := (edgesOf_added hok hok' hadd ht hs).mp hedge
        have hconn : Connected nodes envOf t.packHash s.packHash := .rel _ _ hedge'
        refine or_congr (iff_of_false (hnew t ht) (hnew s hs)) ⟨fun h => ?_, fun h => h.of_connected hconn⟩
        exact h.of_connected (hconn.symm _ _)
  have hpath : ∀ a b, Connected nodes' envOf a b →
      ((a = m.packHash ∨ NamedBy nodes envOf a name) ↔ (b = m.packHash ∨ NamedBy nodes envOf b name)) := by
    intro a b hconn
    induction hconn with
    | rel a b h => exact hlink a b h
    | refl a => exact Iff.rfl
    | symm a b _ ih => exact ih.symm
    | trans a b c _ _ ih ih' => exact ih.trans ih'
  obtain ⟨r, hr, hconn, hname⟩ := hnamed
  have hend : r.packHash = m.packHash ∨ NamedBy nodes envOf r.packHash name := by
    rcases (hadd r).mp hr with rfl | hr
    · exact .inl rfl
    · exact .inr ⟨r, hr, .refl _, hname⟩
  exact ((hpath _ _ hconn).mpr hend).resolve_left (hnew n hn)

end

theorem mem_nodes_added (hids : (manifests'.map SnapshotRef.id).Nodup)
    (hperm : manifests'.Perm (m :: manifests)) (howner : m.ownerId ∈ maintainers)
    (hnew : ∀ n ∈ (countManifests maintainers manifests).nodes, n.packHash ≠ m.packHash) (n : SnapshotRef) :
    n ∈ (countManifests maintainers manifests').nodes ↔ n = m ∨ n ∈ (countManifests maintainers manifests).nodes := by
  have hids' : (manifests.map SnapshotRef.id).Nodup :=
    (nodup_cons.mp ((hperm.map SnapshotRef.id).nodup_iff.mp hids)).2
  have hfresh : ∀ t ∈ manifests, t.ownerId ∈ maintainers → t.packHash ≠ m.packHash := by
    intro t ht hto heq
    obtain ⟨n, hn, hhash⟩ := exists_counted maintainers ((mem_sortByKey SnapshotRef.order).mpr ht) hto
    exact hnew n hn (hhash.trans heq)
  rw [mem_nodes_iff hids, mem_nodes_iff hids']
  simp only [hperm.mem_iff, mem_cons, forall_eq_or_imp]
  constructor
  · rintro ⟨rfl | hn, hno, -, hfirst⟩
    · exact .inl rfl
    · exact .inr ⟨hn, hno, hfirst⟩
  · rintro (rfl | ⟨hn, hno, hfirst⟩)
    · exact ⟨.inl rfl, howner, fun _ _ => le_rfl, fun t ht hto heq => absurd heq (hfresh t ht hto)⟩
    · exact ⟨.inr hn, hno, fun _ heq => absurd heq.symm (hfresh n hn hno), hfirst⟩

/-- A new snapshot that names every head of an environment from above becomes its sole head. -/
theorem heads_of_merge (hids : (manifests'.map SnapshotRef.id).Nodup)
    (hperm : manifests'.Perm (m :: manifests)) {res : Resolution}
    (hres : resolve maintainers manifests envOf = some res) {e : EnvState} (he : e ∈ res.environments)
    (hlen : e.heads.length ≤ maxSupersedes) (howner : m.ownerId ∈ maintainers) (hread : envOf m.packHash = some e.env)
    (hnew : ∀ n ∈ (countManifests maintainers manifests).nodes, n.packHash ≠ m.packHash)
    (habove : ∀ n ∈ (countManifests maintainers manifests).nodes, n.id ∈ e.heads → n.height < m.height)
    (hunnamed : ∀ n ∈ (countManifests maintainers manifests).nodes, m.packHash ∈ n.supersedes →
      n.height ≤ m.height) (hsnapshots : snapshots.Perm
      ((countManifests maintainers manifests).nodes.filter fun n => n.id ∈ e.snapshots))
    (hnames : m.supersedes = window snapshots e.heads) :
    ∃ res' e', resolve maintainers manifests' envOf = some res' ∧ res'.env e.env = some e' ∧
      e'.heads = [m.id] ∧ e'.state = .current := by
  have hids₀ : (manifests.map SnapshotRef.id).Nodup :=
    (nodup_cons.mp ((hperm.map SnapshotRef.id).nodup_iff.mp hids)).2
  have hadd := mem_nodes_added hids hperm howner hnew
  obtain ⟨res₀, hres₀, hheads, -⟩ := resolve_env maintainers hids₀ envOf
  obtain rfl := some.inj (hres.symm.trans hres₀)
  have hspec := hheads e he
  obtain ⟨res', hres', hheads', hlisted⟩ := resolve_env maintainers hids envOf
  obtain ⟨e', he', hname, hfound⟩ := hlisted m ((hadd m).mpr (.inl rfl)) e.env hread
  have hspec' := hheads' e' he'
  have hok : NodesOk (countManifests maintainers manifests).nodes := nodesOk_countManifests hids₀
  have hok' : NodesOk (countManifests maintainers manifests').nodes := nodesOk_countManifests hids
  generalize (countManifests maintainers manifests).nodes = nodes at *
  generalize (countManifests maintainers manifests').nodes = nodes' at *
  have hm : m ∈ nodes' := (hadd m).mpr (.inl rfl)
  have hsnap : ∀ s, s ∈ snapshots ↔ s ∈ nodes ∧ Member nodes envOf e.env s.packHash := by
    intro s
    rw [hsnapshots.mem_iff, mem_filter, decide_eq_true_eq]
    exact and_congr_right fun hs => hspec.snapshots s hs
  have hsup : ∀ n ∈ nodes, n.packHash ∈ m.supersedes → NamedBy nodes envOf n.packHash e.env := by
    intro n hn hin
    rw [hnames] at hin
    obtain ⟨s, hs, hhash⟩ := exists_of_mem_window hin
    obtain ⟨hs, hmember⟩ := (hsnap s).mp hs
    exact hok.eq_of_hash hs hn hhash ▸ hmember.1
  have hmember : ∀ n ∈ nodes, Member nodes' envOf e.env n.packHash ↔ Member nodes envOf e.env n.packHash := by
    intro n hn
    refine and_congr_left fun _ => ⟨namedBy_of_added hok hok' hadd hnew hsup hunnamed hn, ?_⟩
    rintro ⟨r, hr, hconn, hrname⟩
    exact ⟨r, (hadd r).mpr (.inr hr), connected_added hok hok' hadd hconn, hrname⟩
  have hmemberM : Member nodes' envOf e.env m.packHash :=
    ⟨⟨m, hm, .refl _, hread⟩, fun x hx => (some.inj (hread.symm.trans hx)).symm⟩
  have hwindow : ∀ n ∈ nodes, n.id ∈ e.heads → n.packHash ∈ m.supersedes := by
    intro n hn hid
    rw [hnames]
    exact mem_window_of_heads hok hlen hsnapshots ((hsnap n).mpr ⟨hn, ((hspec.mem n hn).mp hid).1⟩) hid
  have hhead : m.id ∈ e'.heads := by
    refine (hspec'.mem m hm).mpr ⟨hname ▸ hmemberM, fun t ht _ hedge => ?_⟩
    obtain ⟨hin, hlt, -⟩ := (mem_edgesOf_iff hok' ht hm).mp hedge
    rcases (hadd t).mp ht with rfl | ht
    · exact lt_irrefl _ hlt
    · exact absurd (hunnamed t ht hin) (not_le.mpr hlt)
  have hone : ∀ s ∈ nodes', s.id ∈ e'.heads → s = m := by
    intro s hs hsHead
    refine ((hadd s).mp hs).resolve_right fun hold => ?_
    obtain ⟨hmemberS, hfree⟩ := (hspec'.mem s hs).mp hsHead
    rw [hname] at hmemberS hfree
    have hmemberS' := (hmember s hold).mp hmemberS
    by_cases hid : s.id ∈ e.heads
    · refine hfree m hm hmemberM ((mem_edgesOf_iff hok' hm hs).mpr
        ⟨hwindow s hold hid, habove s hold hid, fun a ha b hb => ?_⟩)
      rw [hmemberS'.2 b hb, ← some.inj (hread.symm.trans ha)]
    · rw [hspec.mem s hold] at hid
      push Not at hid
      obtain ⟨t, ht, hmemberT, hedge⟩ := hid hmemberS'
      exact hfree t ((hadd t).mpr (.inr ht)) ((hmember t ht).mpr hmemberT)
        ((edgesOf_added hok hok' hadd ht hold).mpr hedge)
  exact ⟨res', e', hres', hfound, hspec'.current hm hread hhead hone⟩

/-- A chain survives the removal of any of its authors, and naming every head ends a fork. -/
theorem chain_survives :
    (∀ run manifests : List SnapshotRef, Written run → (run.map SnapshotRef.id).Nodup →
      (run.map SnapshotRef.packHash).Nodup → (run.map SnapshotRef.ownerId).toFinset.card ≤ 32 →
      manifests.Perm run → ∀ (envOf : Bytes → Option String) (name : String),
        (∀ s ∈ run, envOf s.packHash = some name) → ∀ (kept : Finset String) (newest : SnapshotRef),
          (run.filter fun s => s.ownerId ∈ kept).getLast? = some newest →
          ∃ res e, resolve kept manifests envOf = some res ∧ res.env name = some e ∧
            e.heads = [newest.id] ∧ e.state = .current) ∧
    ∀ (maintainers : Finset String) (manifests manifests' : List SnapshotRef) (envOf : Bytes → Option String)
      (res : Resolution) (m : SnapshotRef) (e : EnvState) (snapshots : List SnapshotRef),
      (manifests'.map SnapshotRef.id).Nodup → manifests'.Perm (m :: manifests) →
      resolve maintainers manifests envOf = some res → e ∈ res.environments → e.heads.length ≤ 32 →
      m.ownerId ∈ maintainers → envOf m.packHash = some e.env →
      (∀ n ∈ (countManifests maintainers manifests).nodes, n.packHash ≠ m.packHash) →
      (∀ n ∈ (countManifests maintainers manifests).nodes, n.id ∈ e.heads → n.height < m.height) →
      (∀ n ∈ (countManifests maintainers manifests).nodes, m.packHash ∈ n.supersedes → n.height ≤ m.height) →
      snapshots.Perm ((countManifests maintainers manifests).nodes.filter fun n => n.id ∈ e.snapshots) →
      m.supersedes = window snapshots e.heads →
      ∃ res' e', resolve maintainers manifests' envOf = some res' ∧ res'.env e.env = some e' ∧
        e'.heads = [m.id] ∧ e'.state = .current := by
  constructor
  · intro run manifests hrun hids hhashes hcard hperm envOf name hread kept newest hnewest
    exact heads_of_run hrun hids hhashes hcard hread hperm hnewest
  · intro maintainers manifests manifests' envOf res m e snapshots hids hperm hres he hlen howner hread hnew
      habove hunnamed hsnapshots hnames
    exact heads_of_merge hids hperm hres he hlen howner hread hnew habove hunnamed hsnapshots hnames

/-- Three snapshots by two authors in turn. -/
def runSample : List SnapshotRef :=
  [⟨"a", "A", [1], [], 1⟩, ⟨"b", "B", [2], [[1]], 2⟩, ⟨"c", "A", [3], [[2], [1]], 3⟩]

theorem written_runSample : Written runSample := by
  have h₁ : Written [⟨"a", "A", [1], [], 1⟩] := .snoc .nil (by simp) (by decide)
  have h₂ : Written [⟨"a", "A", [1], [], 1⟩, ⟨"b", "B", [2], [[1]], 2⟩] := h₁.snoc (by simp) (by decide)
  exact h₂.snoc (by simp) (by decide)

/-- A fork of two heads, one unreadable. -/
def forkSample : List SnapshotRef :=
  [⟨"a", "A", [1], [], 1⟩, ⟨"b", "B", [2], [[1]], 2⟩, ⟨"c", "A", [3], [[1]], 3⟩]

def forkEnv (h : Bytes) : Option String := if h = [2] then none else some "prod"

theorem chain_survives_sample :
    (∃ res e, resolve {"B"} runSample (fun _ => some "prod") = some res ∧ res.env "prod" = some e ∧
      e.heads = ["b"] ∧ e.state = .current) ∧
    ∃ res e, resolve {"A", "B"} (⟨"d", "B", [4], [[3], [2], [1]], 4⟩ :: forkSample) forkEnv = some res ∧
      res.env "prod" = some e ∧ e.heads = ["d"] ∧ e.state = .current := by
  constructor
  · exact chain_survives.1 runSample runSample written_runSample (by decide) (by decide) (by decide)
      (.refl _) (fun _ => some "prod") "prod" (fun _ _ => rfl) {"B"} ⟨"b", "B", [2], [[1]], 2⟩ (by decide)
  · exact chain_survives.2 {"A", "B"} forkSample _ forkEnv
      ⟨[], [⟨"prod", .conflict, ["b", "c"], ["a", "b", "c"], []⟩], []⟩ ⟨"d", "B", [4], [[3], [2], [1]], 4⟩
      ⟨"prod", .conflict, ["b", "c"], ["a", "b", "c"], []⟩ forkSample (by decide) (.refl _)
      (by decide +kernel) (by simp) (by decide) (by decide) (by decide) (by decide +kernel) (by decide +kernel)
      (by decide +kernel) (by decide +kernel) (by decide)

/-- A snapshot of a higher block that names the new one takes its place. -/
theorem merge_named_from_above :
    ¬∀ (maintainers : Finset String) (manifests manifests' : List SnapshotRef) (envOf : Bytes → Option String)
      (res : Resolution) (m : SnapshotRef) (e : EnvState) (snapshots : List SnapshotRef),
      (manifests'.map SnapshotRef.id).Nodup → manifests'.Perm (m :: manifests) →
      resolve maintainers manifests envOf = some res → e ∈ res.environments → e.heads.length ≤ 32 →
      m.ownerId ∈ maintainers → envOf m.packHash = some e.env →
      (∀ n ∈ (countManifests maintainers manifests).nodes, n.packHash ≠ m.packHash) →
      (∀ n ∈ (countManifests maintainers manifests).nodes, n.id ∈ e.heads → n.height < m.height) →
      snapshots.Perm ((countManifests maintainers manifests).nodes.filter fun n => n.id ∈ e.snapshots) →
      m.supersedes = window snapshots e.heads →
      ∃ res' e', resolve maintainers manifests' envOf = some res' ∧ res'.env e.env = some e' ∧
        e'.heads = [m.id] := by
  intro h
  obtain ⟨res', e', hres, hfound, hheads⟩ := h {"A"} [⟨"a", "A", [1], [], 1⟩, ⟨"t", "A", [2], [[4]], 9⟩]
    [⟨"m", "A", [4], [[1]], 5⟩, ⟨"a", "A", [1], [], 1⟩, ⟨"t", "A", [2], [[4]], 9⟩] forkEnv
    ⟨[], [⟨"prod", .current, ["a"], ["a"], []⟩], [⟨["t"], ["t"]⟩]⟩ ⟨"m", "A", [4], [[1]], 5⟩
    ⟨"prod", .current, ["a"], ["a"], []⟩ [⟨"a", "A", [1], [], 1⟩] (by decide) (.refl _)
    (by decide +kernel) (by simp) (by decide) (by decide) (by decide) (by decide +kernel) (by decide +kernel)
    (by decide +kernel) (by decide)
  have heval : resolve {"A"} [⟨"m", "A", [4], [[1]], 5⟩, ⟨"a", "A", [1], [], 1⟩, ⟨"t", "A", [2], [[4]], 9⟩]
      forkEnv = some ⟨[], [⟨"prod", .unreadable, ["t"], ["a", "m", "t"], []⟩], []⟩ := by decide +kernel
  obtain rfl := Option.some.inj (hres.symm.trans heval)
  obtain rfl := Option.some.inj hfound
  exact absurd hheads (by decide)

end DashForge.Env
