import DashForge.Data.BigEndian
import DashForge.Data.UnionFind
import DashForge.Pack.Entry

/-!
# Environment snapshots

Which snapshots of an environment's secrets count, which supersede which, and what state each
environment is in (`env/chain.rs`). Only manifests by current maintainers count. A snapshot
supersedes a lower one it names, the groups these links form are split into the environments their
readable snapshots name, and an environment's heads are its snapshots no other of them supersedes.
-/

namespace DashForge.Env

open List

/-! ### The documents and the result -/

/-- A snapshot manifest, as the chain reads it. -/
structure SnapshotRef where
  id : String
  ownerId : String
  packHash : Bytes
  supersedes : List Bytes
  height : ℕ
deriving DecidableEq, Repr

/-- The order of manifests. -/
def SnapshotRef.order (m : SnapshotRef) : ℕ ×ₗ String := toLex (m.height, m.id)

/-- Why a manifest does not count. -/
inductive IgnoredReason where
  | notAMaintainer
  | duplicate
deriving DecidableEq, Repr

structure Ignored where
  id : String
  reason : IgnoredReason
deriving DecidableEq, Repr

/-- The state of one environment. -/
inductive State where
  | current
  | unreadable
  | conflict
deriving DecidableEq, Repr

/-- One environment this reader can name. -/
structure EnvState where
  env : String
  state : State
  heads : List String
  snapshots : List String
  /-- Ignored manifests that name a head from a higher block. -/
  ignoredNewer : List String
deriving DecidableEq, Repr

/-- An environment none of whose snapshots open for this reader. -/
structure HiddenEnv where
  heads : List String
  snapshots : List String
deriving DecidableEq, Repr

structure Resolution where
  ignored : List Ignored
  environments : List EnvState
  hidden : List HiddenEnv
deriving DecidableEq, Repr

/-! ### The resolution -/

/-- The manifests sorted into those that count, in order, and the others. -/
structure Counted where
  nodes : List SnapshotRef
  others : List SnapshotRef
  ignored : List Ignored

/-- One manifest: ignored unless its owner is a maintainer and its pack is new. -/
def countManifest (maintainers : Finset String) (acc : Counted) (m : SnapshotRef) : Counted :=
  if m.ownerId ∉ maintainers then
    { acc with others := acc.others ++ [m], ignored := acc.ignored ++ [⟨m.id, .notAMaintainer⟩] }
  else if acc.nodes.any fun n => n.packHash == m.packHash then
    { acc with ignored := acc.ignored ++ [⟨m.id, .duplicate⟩] }
  else { acc with nodes := acc.nodes ++ [m] }

def countManifests (maintainers : Finset String) (manifests : List SnapshotRef) : Counted :=
  (sortByKey SnapshotRef.order manifests).foldl (countManifest maintainers) ⟨[], [], []⟩

/-- The counted snapshot of a pack. -/
def node? (nodes : List SnapshotRef) (h : Bytes) : Option SnapshotRef :=
  nodes.find? fun n => n.packHash == h

/-- The packs of the counted snapshots, in the order of the map that holds them. -/
def hashesOf (nodes : List SnapshotRef) : List Bytes := sortedDistinct (nodes.map SnapshotRef.packHash)

section

variable (nodes : List SnapshotRef) (envOf : Bytes → Option String)

/-- Whether the link from `t` to the pack `s` counts: to a counted snapshot strictly lower, and not
between readable snapshots of different environments. -/
def counts (t : SnapshotRef) (s : Bytes) : Bool :=
  match node? nodes s with
  | none => false
  | some target =>
    if target.height ≥ t.height then false
    else
      match envOf t.packHash, envOf s with
      | some a, some b => a == b
      | _, _ => true

/-- The counted links, in order. -/
def edgesOf : List (Bytes × Bytes) :=
  (sortedDistinct (nodes.flatMap fun t =>
    (t.supersedes.filter (counts nodes envOf t)).map fun s => toLex (t.packHash, s))).map ofLex

/-- The members of a group no other member supersedes. -/
def headsOf (edges : List (Bytes × Bytes)) (group : List Bytes) : List Bytes :=
  group.filter fun n => !group.any fun t => edges.contains (t, n)

/-- The counted snapshots of packs; `none` where the source panics. -/
def rowsOf (hs : List Bytes) : Option (List SnapshotRef) := hs.mapM (node? nodes)

/-- The document ids of snapshots, oldest first. -/
def idsOf (rows : List SnapshotRef) : List String :=
  (sortByKey SnapshotRef.order rows).map SnapshotRef.id

/-- The ignored manifests that name a head from a higher block. -/
def newer (others heads : List SnapshotRef) : List String :=
  sortByKey id ((others.filter fun m => heads.any fun h =>
    m.supersedes.contains h.packHash && decide (m.height > h.height) &&
      m.packHash != h.packHash).map SnapshotRef.id)

/-- The environments the readable members of a group name. -/
def namesOf (group : List Bytes) : List String := sortedDistinct (group.filterMap envOf)

/-- What an ordered map holds once each entry in turn extended the value of its key. -/
def gather {β : Type} (entries : List (String × List β)) : List (String × List β) :=
  (sortedDistinct (entries.map Prod.fst)).map fun k =>
    (k, (entries.filter fun e => e.1 == k).flatMap Prod.snd)

/-- The environments by name, with their members. -/
def envGroups (comps : List (List Bytes)) : List (String × List Bytes) :=
  (gather (comps.flatMap fun members => (namesOf envOf members).map fun name =>
    (name, members.filter fun h => (envOf h).all fun e => e == name))).map
      fun e => (e.1, sortedDistinct e.2)

/-- The state of an environment with these heads. -/
def stateOf : List Bytes → State
  | [one] => if (envOf one).isSome then .current else .unreadable
  | _ => .conflict

def environment (others : List SnapshotRef) (edges : List (Bytes × Bytes))
    (group : String × List Bytes) : Option EnvState := do
  let heads := headsOf edges group.2
  let headRows ← rowsOf nodes heads
  let rows ← rowsOf nodes group.2
  some ⟨group.1, stateOf envOf heads, idsOf headRows, idsOf rows, newer others headRows⟩

/-- The least key of a group, below every key when it is empty. -/
def oldestKey (rows : List SnapshotRef) : WithBot (ℕ ×ₗ String) :=
  (rows.map SnapshotRef.order).min?

def hiddenEnv (edges : List (Bytes × Bytes)) (rows : List SnapshotRef) : Option HiddenEnv := do
  let group := rows.map SnapshotRef.packHash
  let headRows ← rowsOf nodes (headsOf edges group)
  some ⟨idsOf headRows, idsOf rows⟩

end

/-- Resolve manifests against the current maintainers and the environment each snapshot opened to;
`none` where the source would panic or not return. -/
def resolve (maintainers : Finset String) (manifests : List SnapshotRef)
    (envOf : Bytes → Option String) : Option Resolution := do
  let counted := countManifests maintainers manifests
  let nodes := counted.nodes
  let edges := edgesOf nodes envOf
  let comps ← UnionFind.components (hashesOf nodes) edges
  let environments ← (envGroups envOf comps).mapM
    (environment nodes envOf counted.others edges)
  let hidden ← (comps.filter fun members => (namesOf envOf members).isEmpty).mapM (rowsOf nodes)
  let hidden ← (sortByKey oldestKey hidden).mapM (hiddenEnv nodes edges)
  some ⟨counted.ignored, environments, hidden⟩

/-! ### The snapshots that count -/

theorem foldl_countManifest_spec (maintainers : Finset String) (l : List SnapshotRef) :
    let nodes := (l.foldl (countManifest maintainers) ⟨[], [], []⟩).nodes
    nodes.Sublist l ∧ (nodes.map SnapshotRef.packHash).Nodup ∧ ∀ n ∈ nodes, n.ownerId ∈ maintainers := by
  induction l using reverseRecOn with
  | nil => simp
  | append_singleton l m ih =>
    rw [foldl_concat]
    generalize l.foldl (countManifest maintainers) ⟨[], [], []⟩ = acc at ih
    obtain ⟨hsub, hnodup, howner⟩ := ih
    unfold countManifest
    split_ifs with howned hdup
    · exact ⟨hsub.trans (sublist_append_left l [m]), hnodup, howner⟩
    · refine ⟨hsub.append (List.Sublist.refl [m]), ?_, fun n hn => ?_⟩
      · rw [map_append, nodup_append]
        simp only [any_eq_true, beq_iff_eq, not_exists, not_and] at hdup
        refine ⟨hnodup, by simp, fun h hh h' hh' => ?_⟩
        obtain ⟨n, hn, rfl⟩ := mem_map.mp hh
        obtain rfl : h' = m.packHash := by simpa using hh'
        exact hdup n hn
      · rcases mem_append.mp hn with hn | hn
        · exact howner n hn
        · rwa [mem_singleton.mp hn]
    · exact ⟨hsub.trans (sublist_append_left l [m]), hnodup, howner⟩

theorem foldl_countManifest_filter (maintainers : Finset String) (l : List SnapshotRef) :
    (l.foldl (countManifest maintainers) ⟨[], [], []⟩).nodes =
      ((l.filter fun m => decide (m.ownerId ∈ maintainers)).foldl (countManifest maintainers) ⟨[], [], []⟩).nodes := by
  induction l using reverseRecOn with
  | nil => rfl
  | append_singleton l m ih =>
    rw [foldl_concat, filter_append]
    by_cases hm : m.ownerId ∈ maintainers
    · rw [filter_cons_of_pos (by simpa using hm), filter_nil, foldl_concat]
      simp only [countManifest, hm, not_true_eq_false, if_false, ih]
      split_ifs <;> rfl
    · rw [filter_cons_of_neg (by simpa using hm), filter_nil, append_nil]
      simpa [countManifest, hm] using ih

/-- Snapshots with a pack and an id each. -/
structure NodesOk (nodes : List SnapshotRef) : Prop where
  hashes : (nodes.map SnapshotRef.packHash).Nodup
  ids : (nodes.map SnapshotRef.id).Nodup

variable {maintainers : Finset String} {manifests rows manifests' : List SnapshotRef} {m n : SnapshotRef} {h s : Bytes}
  {comps : List (List Bytes)} {g : List Bytes}

theorem nodesOk_countManifests (hids : (manifests.map SnapshotRef.id).Nodup) :
    NodesOk (countManifests maintainers manifests).nodes := by
  obtain ⟨hsub, hnodup, -⟩ :=
    foldl_countManifest_spec maintainers (sortByKey SnapshotRef.order manifests)
  refine ⟨hnodup, ?_⟩
  have hperm := (perm_sortByKey SnapshotRef.order manifests).map SnapshotRef.id
  exact (hperm.nodup_iff.mpr hids).sublist (hsub.map SnapshotRef.id)

variable {nodes : List SnapshotRef} {envOf : Bytes → Option String}

theorem NodesOk.eq_of_hash (hok : NodesOk nodes) (hm : m ∈ nodes) (hn : n ∈ nodes)
    (h : m.packHash = n.packHash) : m = n :=
  inj_on_of_nodup_map hok.hashes hm hn h

theorem NodesOk.eq_of_id (hok : NodesOk nodes) (hm : m ∈ nodes) (hn : n ∈ nodes) (h : m.id = n.id) : m = n :=
  inj_on_of_nodup_map hok.ids hm hn h

theorem mem_hashesOf : h ∈ hashesOf nodes ↔ ∃ n ∈ nodes, n.packHash = h := by
  simp [hashesOf]

theorem node?_eq_some (hok : NodesOk nodes) : node? nodes h = some n ↔ n ∈ nodes ∧ n.packHash = h := by
  constructor
  · intro hn
    exact ⟨mem_of_find?_eq_some hn, by simpa using find?_some hn⟩
  · rintro ⟨hn, rfl⟩
    obtain ⟨n', hn'⟩ : ∃ n', nodes.find? (fun m => m.packHash == n.packHash) = some n' :=
      Option.isSome_iff_exists.mp (find?_isSome.mpr ⟨n, hn, by simp⟩)
    have hhash : n'.packHash = n.packHash := by simpa using find?_some hn'
    rw [node?, hn', hok.eq_of_hash (mem_of_find?_eq_some hn') hn hhash]

/-- The snapshots of counted packs are found. -/
theorem rowsOf_spec (hok : NodesOk nodes) (hs : List Bytes) (hhs : ∀ h ∈ hs, h ∈ hashesOf nodes) :
    ∃ rows, rowsOf nodes hs = some rows ∧ rows.map SnapshotRef.packHash = hs ∧
      ∀ m, m ∈ rows ↔ m ∈ nodes ∧ m.packHash ∈ hs := by
  induction hs with
  | nil => exact ⟨[], rfl, rfl, by simp⟩
  | cons h hs ih =>
    obtain ⟨n, hn, rfl⟩ := mem_hashesOf.mp (hhs h mem_cons_self)
    obtain ⟨rows, hrows, hmap, hmem⟩ := ih fun h' hh' => hhs h' (mem_cons_of_mem _ hh')
    have hnode := (node?_eq_some hok).mpr ⟨hn, rfl⟩
    refine ⟨n :: rows, ?_, by simp [hmap], fun m => ?_⟩
    · rw [rowsOf] at hrows ⊢
      simp [mapM_cons, hnode, hrows]
    · rw [mem_cons, hmem, mem_cons]
      constructor
      · rintro (rfl | ⟨hm, hin⟩)
        · exact ⟨hn, .inl rfl⟩
        · exact ⟨hm, .inr hin⟩
      · rintro ⟨hm, heq | hin⟩
        · exact .inl (hok.eq_of_hash hm hn heq)
        · exact .inr ⟨hm, hin⟩

theorem mem_idsOf (hok : NodesOk nodes) (hrows : ∀ r ∈ rows, r ∈ nodes) (hm : m ∈ nodes) :
    m.id ∈ idsOf rows ↔ m ∈ rows := by
  simp only [idsOf, mem_map, mem_sortByKey]
  constructor
  · rintro ⟨r, hr, hid⟩
    rwa [← hok.eq_of_id (hrows r hr) hm hid]
  · exact fun h => ⟨m, h, rfl⟩

/-! ### The links -/

variable {e : Bytes × Bytes} {group : List Bytes} {envs : List EnvState}

theorem mem_edgesOf : e ∈ edgesOf nodes envOf ↔ ∃ t ∈ nodes, t.packHash = e.1 ∧ e.2 ∈ t.supersedes ∧
      counts nodes envOf t e.2 := by
  obtain ⟨h, s⟩ := e
  simp only [edgesOf, mem_map, mem_sortedDistinct, mem_flatMap, mem_filter]
  constructor
  · rintro ⟨e, ⟨t, ht, s', ⟨hs', hc⟩, rfl⟩, heq⟩
    obtain ⟨rfl, rfl⟩ := Prod.mk.inj heq
    exact ⟨t, ht, rfl, hs', hc⟩
  · rintro ⟨t, ht, rfl, hs, hc⟩
    exact ⟨_, ⟨t, ht, s, ⟨hs, hc⟩, rfl⟩, rfl⟩

/-- A counted link leads to a counted snapshot strictly lower. -/
theorem height_lt_of_mem_edgesOf (hok : NodesOk nodes) (he : e ∈ edgesOf nodes envOf) :
    ∃ t ∈ nodes, ∃ s ∈ nodes, t.packHash = e.1 ∧ s.packHash = e.2 ∧ s.height < t.height := by
  obtain ⟨t, ht, htHash, -, hcounts⟩ := mem_edgesOf.mp he
  cases hs : node? nodes e.2 with
  | none => simp [counts, hs] at hcounts
  | some s =>
    obtain ⟨hsmem, hsHash⟩ := (node?_eq_some hok).mp hs
    have hlt : s.height < t.height := by
      by_contra hge
      simp [counts, hs, not_lt.mp hge] at hcounts
    exact ⟨t, ht, s, hsmem, htHash, hsHash, hlt⟩

variable (envOf) in
theorem headsOf_ne_nil (hok : NodesOk nodes) (hne : group ≠ [])
    (hgroup : ∀ h ∈ group, h ∈ hashesOf nodes) : headsOf (edgesOf nodes envOf) group ≠ [] := by
  obtain ⟨rows, -, hmap, hmem⟩ := rowsOf_spec hok _ hgroup
  obtain ⟨top, htop⟩ : ∃ top, maxByKey SnapshotRef.height rows = some top := by
    cases hmax : maxByKey SnapshotRef.height rows with
    | some top => exact ⟨top, rfl⟩
    | none =>
      rw [maxByKey_eq_none_iff] at hmax
      exact absurd (by rw [← hmap, hmax]; rfl) hne
  obtain ⟨htopRow, hmax⟩ := maxByKey_spec _ htop
  obtain ⟨htopNode, htopIn⟩ := (hmem top).mp htopRow
  refine ne_nil_of_mem (mem_filter.mpr ⟨htopIn, ?_⟩)
  simp only [Bool.not_eq_true', any_eq_false, contains_iff_mem]
  intro h hh hedge
  obtain ⟨t, ht, s, hs, htHash, hsHash, hlt⟩ := height_lt_of_mem_edgesOf hok hedge
  obtain rfl := hok.eq_of_hash hs htopNode hsHash
  have htRow : t ∈ rows := (hmem t).mpr ⟨ht, htHash ▸ hh⟩
  exact absurd (hmax t htRow) (not_le.mpr hlt)

/-! ### The environments -/

/-- The environments of the groups: each name a readable member gives, once, with the members of its
groups that are unreadable or give that name. -/
theorem envGroups_spec (envOf : Bytes → Option String) (comps : List (List Bytes)) :
    ((envGroups envOf comps).map Prod.fst).Nodup ∧ (∀ name, name ∈ (envGroups envOf comps).map Prod.fst ↔
      ∃ g ∈ comps, ∃ r ∈ g, envOf r = some name) ∧ ∀ e ∈ envGroups envOf comps, ∀ h, h ∈ e.2 ↔
      ∃ g ∈ comps, h ∈ g ∧ (∃ r ∈ g, envOf r = some e.1) ∧ ∀ x ∈ envOf h, x = e.1 := by
  have hfst : (envGroups envOf comps).map Prod.fst = sortedDistinct (comps.flatMap fun g => namesOf envOf g) := by
    simp only [envGroups, gather, map_map, map_flatMap, Function.comp_def, map_id']
  refine ⟨?_, fun name => ?_, fun e he h => ?_⟩
  · rw [hfst]
    exact nodup_sortedDistinct _
  · simp [hfst, namesOf]
  · simp only [envGroups, gather, map_map, mem_map, mem_sortedDistinct] at he
    obtain ⟨name, -, rfl⟩ := he
    simp only [Function.comp_apply, mem_sortedDistinct, mem_flatMap, mem_filter,
      mem_map, namesOf, mem_filterMap, beq_iff_eq]
    constructor
    · rintro ⟨x, ⟨⟨g, hg, name', ⟨r, hr, hname⟩, rfl⟩, rfl⟩, hh⟩
      obtain ⟨hh, hall⟩ := mem_filter.mp hh
      exact ⟨g, hg, hh, ⟨r, hr, hname⟩, by simpa [Option.all_eq_true] using hall⟩
    · rintro ⟨g, hg, hh, ⟨r, hr, hname⟩, hall⟩
      refine ⟨_, ⟨⟨g, hg, name, ⟨r, hr, hname⟩, rfl⟩, rfl⟩, mem_filter.mpr ⟨hh, ?_⟩⟩
      simpa [Option.all_eq_true] using hall

/-- What an environment is made of. -/
structure IsEnvironment (nodes : List SnapshotRef) (envOf : Bytes → Option String)
    (group : String × List Bytes) (e : EnvState) : Prop where
  env : e.env = group.1
  heads : e.heads ≠ []
  snapshots : ∀ m ∈ nodes, m.id ∈ e.snapshots ↔ m.packHash ∈ group.2
  state : e.state = .current ↔ ∃ m ∈ nodes, e.heads = [m.id] ∧ (envOf m.packHash).isSome

theorem length_idsOf (rows : List SnapshotRef) : (idsOf rows).length = rows.length := by
  rw [idsOf, length_map, (perm_sortByKey _ _).length_eq]

theorem idsOf_ne_nil {hs : List Bytes}
    (hmap : rows.map SnapshotRef.packHash = hs) (hne : hs ≠ []) : idsOf rows ≠ [] := by
  rw [ne_eq, ← length_eq_zero_iff, length_idsOf, length_eq_zero_iff]
  rintro rfl
  exact hne hmap.symm

theorem stateOf_eq_current (hok : NodesOk nodes) (hrows : ∀ r ∈ rows, r ∈ nodes) :
    stateOf envOf (rows.map SnapshotRef.packHash) = .current ↔
      ∃ m ∈ nodes, idsOf rows = [m.id] ∧ (envOf m.packHash).isSome := by
  constructor
  · intro h
    match rows, hrows, h with
    | [m], hrows, h =>
      refine ⟨m, hrows m mem_cons_self, rfl, ?_⟩
      by_contra hnone
      simp [stateOf, hnone] at h
  · rintro ⟨m, hm, hids, hsome⟩
    have hlen : rows.length = 1 := by rw [← length_idsOf, hids]; rfl
    obtain ⟨r, rfl⟩ := length_eq_one_iff.mp hlen
    have hid : r.id = m.id := by simpa [idsOf, sortByKey] using hids
    obtain rfl := hok.eq_of_id (hrows r mem_cons_self) hm hid
    simp [stateOf, hsome]

theorem headsOf_subset {edges : List (Bytes × Bytes)}
    (hh : h ∈ headsOf edges group) : h ∈ group := mem_of_mem_filter hh

theorem environment_spec (hok : NodesOk nodes) (others : List SnapshotRef)
    {group : String × List Bytes} (hne : group.2 ≠ []) (hgroup : ∀ h ∈ group.2, h ∈ hashesOf nodes) :
    ∃ e, environment nodes envOf others (edgesOf nodes envOf) group = some e ∧ IsEnvironment nodes envOf group e := by
  obtain ⟨rows, hrows, -, hmem⟩ := rowsOf_spec hok _ hgroup
  obtain ⟨headRows, hheads, hmap, hmemHeads⟩ := rowsOf_spec hok
    (headsOf (edgesOf nodes envOf) group.2) fun h hh => hgroup h (headsOf_subset hh)
  have hhead := headsOf_ne_nil envOf hok hne hgroup
  refine ⟨⟨group.1, stateOf envOf (headsOf (edgesOf nodes envOf) group.2), idsOf headRows, idsOf rows,
    newer others headRows⟩, ?_, rfl, ?_, fun m hm => ?_, ?_⟩
  · simp [environment, hrows, hheads, some_bind]
  · exact idsOf_ne_nil hmap hhead
  · rw [mem_idsOf hok (fun r hr => ((hmem r).mp hr).1) hm, hmem]
    exact and_iff_right hm
  · rw [← hmap]
    exact stateOf_eq_current hok fun r hr => ((hmemHeads r).mp hr).1

/-- What a hidden environment is made of. -/
structure IsHidden (nodes : List SnapshotRef) (group : List Bytes) (e : HiddenEnv) : Prop where
  heads : e.heads ≠ []
  snapshots : ∀ m ∈ nodes, m.id ∈ e.snapshots ↔ m.packHash ∈ group

theorem hiddenEnv_spec (hok : NodesOk nodes) (hne : rows ≠ []) (hrows : ∀ r ∈ rows, r ∈ nodes) :
    ∃ e, hiddenEnv nodes (edgesOf nodes envOf) rows = some e ∧ IsHidden nodes (rows.map SnapshotRef.packHash) e := by
  have hgroup : ∀ h ∈ rows.map SnapshotRef.packHash, h ∈ hashesOf nodes := by
    intro h hh
    obtain ⟨r, hr, rfl⟩ := mem_map.mp hh
    exact mem_hashesOf.mpr ⟨r, hrows r hr, rfl⟩
  obtain ⟨headRows, hheads, hmap, -⟩ := rowsOf_spec hok
    (headsOf (edgesOf nodes envOf) (rows.map SnapshotRef.packHash))
    fun h hh => hgroup h (headsOf_subset hh)
  have hhead := headsOf_ne_nil envOf hok (by simpa using hne) hgroup
  refine ⟨⟨idsOf headRows, idsOf rows⟩, ?_, idsOf_ne_nil hmap hhead, fun m hm => ?_⟩
  · simp [hiddenEnv, hheads, some_bind]
  · rw [mem_idsOf hok hrows hm]
    refine ⟨mem_map_of_mem, fun h => ?_⟩
    obtain ⟨r, hr, hhash⟩ := mem_map.mp h
    rwa [← hok.eq_of_hash (hrows r hr) hm hhash]

/-! ### The whole resolution -/

/-- Whether two packs are linked by a chain of counted links. -/
def Connected (nodes : List SnapshotRef) (envOf : Bytes → Option String) (h s : Bytes) : Prop :=
  Relation.EqvGen (fun a b => (a, b) ∈ edgesOf nodes envOf) h s

/-- The groups of the counted snapshots are their connected components. -/
structure IsComponents (nodes : List SnapshotRef) (envOf : Bytes → Option String)
    (comps : List (List Bytes)) : Prop where
  nonempty : ∀ g ∈ comps, g ≠ []
  covers : ∀ m ∈ nodes, ∃ g ∈ comps, m.packHash ∈ g
  disjoint : comps.Pairwise fun g g' => ∀ h ∈ g, h ∉ g'
  connected : ∀ g ∈ comps, ∀ h ∈ g, ∀ s, s ∈ g ↔ s ∈ hashesOf nodes ∧ Connected nodes envOf h s

theorem exists_components (hok : NodesOk nodes) (envOf : Bytes → Option String) :
    ∃ comps, UnionFind.components (hashesOf nodes) (edgesOf nodes envOf) = some comps ∧
      IsComponents nodes envOf comps := by
  obtain ⟨comps, hrun, hne, hcover, hdisj, hconn⟩ :=
    UnionFind.components_spec (hashesOf nodes) (edgesOf nodes envOf) fun e he => by
      obtain ⟨t, ht, s, hs, htHash, hsHash, -⟩ := height_lt_of_mem_edgesOf hok he
      exact ⟨mem_hashesOf.mpr ⟨t, ht, htHash⟩, mem_hashesOf.mpr ⟨s, hs, hsHash⟩⟩
  exact ⟨comps, hrun, hne, fun m hm => hcover _ (mem_hashesOf.mpr ⟨m, hm, rfl⟩), hdisj, fun g hg => (hconn g hg).2⟩

theorem IsComponents.subset (h : IsComponents nodes envOf comps) (hg : g ∈ comps) (hs : s ∈ g) : s ∈ hashesOf nodes :=
  ((h.connected g hg s hs s).mp hs).1

/-- The readable packs a pack is connected to name its environments. -/
def NamedBy (nodes : List SnapshotRef) (envOf : Bytes → Option String) (h : Bytes) (name : String) :
    Prop :=
  ∃ r ∈ nodes, Connected nodes envOf h r.packHash ∧ envOf r.packHash = some name

theorem IsComponents.namedBy_iff (h : IsComponents nodes envOf comps) (hg : g ∈ comps) (hs : s ∈ g) {name : String} :
    NamedBy nodes envOf s name ↔ ∃ r ∈ g, envOf r = some name := by
  constructor
  · rintro ⟨r, hr, hconn, hname⟩
    exact ⟨r.packHash, (h.connected g hg s hs _).mpr ⟨mem_hashesOf.mpr ⟨r, hr, rfl⟩, hconn⟩, hname⟩
  · rintro ⟨r, hr, hname⟩
    obtain ⟨hin, hconn⟩ := (h.connected g hg s hs r).mp hr
    obtain ⟨n, hn, rfl⟩ := mem_hashesOf.mp hin
    exact ⟨n, hn, hconn, hname⟩

theorem IsComponents.eq_of_mem (h : IsComponents nodes envOf comps)
    {g' : List Bytes} (hg : g ∈ comps) (hg' : g' ∈ comps) (hs : s ∈ g) (hs' : s ∈ g') : g = g' := by
  by_contra hne
  have : Std.Symm fun g g' : List Bytes => ∀ h ∈ g, h ∉ g' := ⟨fun a b hab x hx hx' => hab x hx' hx⟩
  exact h.disjoint.forall hg hg' hne s hs hs'

theorem exists_environments (hok : NodesOk nodes)
    (hcomps : IsComponents nodes envOf comps) (others : List SnapshotRef) : ∃ envs, (envGroups envOf comps).mapM
        (environment nodes envOf others (edgesOf nodes envOf)) = some envs ∧
      List.Forall₂ (IsEnvironment nodes envOf) (envGroups envOf comps) envs := by
  obtain ⟨-, hnames, hmembers⟩ := envGroups_spec envOf comps
  refine exists_forall₂_of_mapM fun group hgroup => environment_spec hok others ?_ fun h hh => ?_
  · obtain ⟨g, hg, r, hr, hname⟩ := (hnames group.1).mp (mem_map_of_mem hgroup)
    refine ne_nil_of_mem ((hmembers group hgroup r).mpr ⟨g, hg, hr, ⟨r, hr, hname⟩, ?_⟩)
    simp [hname]
  · obtain ⟨g, hg, hin, -⟩ := (hmembers group hgroup h).mp hh
    exact hcomps.subset hg hin

theorem exists_hidden (hok : NodesOk nodes) (hcomps : IsComponents nodes envOf comps) :
    ∃ rows hidden, (comps.filter fun g => (namesOf envOf g).isEmpty).mapM (rowsOf nodes) = some rows ∧
      (sortByKey oldestKey rows).mapM (hiddenEnv nodes (edgesOf nodes envOf)) = some hidden ∧
      (∀ e ∈ hidden, e.heads ≠ []) ∧ ∀ m ∈ nodes, hidden.countP (fun e => m.id ∈ e.snapshots) =
        (comps.filter fun g => (namesOf envOf g).isEmpty).countP fun g => m.packHash ∈ g := by
  obtain ⟨rows, hrows, hrel⟩ := exists_forall₂_of_mapM (f := rowsOf nodes)
    (r := fun g rs => rs ≠ [] ∧ ∀ m, m ∈ rs ↔ m ∈ nodes ∧ m.packHash ∈ g)
    (l := comps.filter fun g => (namesOf envOf g).isEmpty) fun g hg => by
      have hg' := mem_of_mem_filter hg
      obtain ⟨rs, hrs, hmap, hmem⟩ := rowsOf_spec hok g fun h hh => hcomps.subset hg' hh
      refine ⟨rs, hrs, ?_, hmem⟩
      rintro rfl
      exact hcomps.nonempty g hg' hmap.symm
  have hall : ∀ rs ∈ rows, rs ≠ [] ∧ ∀ r ∈ rs, r ∈ nodes := by
    intro rs hrs
    obtain ⟨g, -, hne, hmem⟩ := exists_left_of_forall₂ hrel hrs
    exact ⟨hne, fun r hr => ((hmem r).mp hr).1⟩
  obtain ⟨hidden, hhidden, hrel'⟩ := exists_forall₂_of_mapM
    (l := sortByKey oldestKey rows) (f := hiddenEnv nodes (edgesOf nodes envOf)) fun rs hrs =>
      have hrs' := hall rs ((mem_sortByKey _).mp hrs)
      hiddenEnv_spec hok hrs'.1 hrs'.2
  refine ⟨rows, hidden, hrows, hhidden, fun e he => ?_, fun m hm => ?_⟩
  · obtain ⟨rs, -, hrs⟩ := exists_left_of_forall₂ hrel' he
    exact hrs.heads
  · calc hidden.countP (fun e => m.id ∈ e.snapshots)
        = (sortByKey oldestKey rows).countP (fun rs => m ∈ rs) := ?_
      _ = rows.countP (fun rs => m ∈ rs) := (perm_sortByKey oldestKey rows).countP_eq _
      _ = _ := ?_
    · refine (countP_eq_of_forall₂ hrel' fun rs hrs e he => ?_).symm
      have hrs' := hall rs ((mem_sortByKey _).mp hrs)
      rw [decide_eq_decide, he.snapshots m hm, mem_map]
      refine ⟨fun h => ⟨m, h, rfl⟩, fun ⟨r, hr, hhash⟩ => ?_⟩
      rwa [← hok.eq_of_hash (hrs'.2 r hr) hm hhash]
    · refine (countP_eq_of_forall₂ hrel fun g _ rs hrs => ?_).symm
      rw [decide_eq_decide, hrs.2 m]
      exact (and_iff_right hm).symm

/-- The environment without its warnings. -/
def EnvState.withoutNewer (e : EnvState) : EnvState := { e with ignoredNewer := [] }

theorem environment_withoutNewer (others others' : List SnapshotRef) (edges : List (Bytes × Bytes))
    (group : String × List Bytes) : (environment nodes envOf others' edges group).map EnvState.withoutNewer =
      (environment nodes envOf others edges group).map EnvState.withoutNewer := by
  simp only [environment]
  cases rowsOf nodes (headsOf edges group.2) with
  | none => rfl
  | some headRows => cases rowsOf nodes group.2 <;> rfl

variable (hids : (manifests.map SnapshotRef.id).Nodup)
  (hp : (manifests'.filter fun m => decide (m.ownerId ∈ maintainers)).Perm (manifests.filter fun m =>
    decide (m.ownerId ∈ maintainers)))

include hids hp in
theorem nodes_eq_of_perm :
    (countManifests maintainers manifests').nodes = (countManifests maintainers manifests).nodes := by
  have hsort : sortByKey SnapshotRef.order
      (manifests'.filter fun m => decide (m.ownerId ∈ maintainers)) = sortByKey SnapshotRef.order
          (manifests.filter fun m => decide (m.ownerId ∈ maintainers)) := by
    refine sortByKey_eq_of_perm _ hp fun a ha b hb hab => ?_
    have hmem : ∀ c, c ∈ manifests'.filter (fun m => decide (m.ownerId ∈ maintainers)) →
        c ∈ manifests := fun c hc => mem_of_mem_filter (hp.mem_iff.mp hc)
    have hid : a.id = b.id := congrArg (fun o => (ofLex o).2) hab
    exact inj_on_of_nodup_map hids (hmem a ha) (hmem b hb) hid
  rw [countManifests, foldl_countManifest_filter, ← sortByKey_filter, hsort, sortByKey_filter,
    ← foldl_countManifest_filter, countManifests]

theorem countManifests_eq_of_perm (hids : (manifests.map SnapshotRef.id).Nodup) (hp : manifests'.Perm manifests) :
    countManifests maintainers manifests' = countManifests maintainers manifests := by
  rw [countManifests, countManifests]
  congr 1
  refine sortByKey_eq_of_perm _ hp fun a ha b hb hab => ?_
  have hid : a.id = b.id := congrArg (fun o => (ofLex o).2) hab
  exact inj_on_of_nodup_map hids (hp.mem_iff.mp ha) (hp.mem_iff.mp hb) hid

/-- A group without a readable member holds a pack exactly once, unless its component has a name. -/
theorem IsComponents.countP_unnamed (h : IsComponents nodes envOf comps) (hm : m ∈ nodes) :
    ((∃ name, NamedBy nodes envOf m.packHash name) →
      (comps.filter fun g => (namesOf envOf g).isEmpty).countP (fun g => m.packHash ∈ g) = 0) ∧
    ((¬∃ name, NamedBy nodes envOf m.packHash name) →
      (comps.filter fun g => (namesOf envOf g).isEmpty).countP (fun g => m.packHash ∈ g) = 1) := by
  have hnames : ∀ g ∈ comps, m.packHash ∈ g →
      ((namesOf envOf g).isEmpty ↔ ¬∃ name, NamedBy nodes envOf m.packHash name) := by
    intro g hg hin
    simp only [h.namedBy_iff hg hin, List.isEmpty_iff, eq_nil_iff_forall_not_mem, namesOf,
      mem_sortedDistinct, mem_filterMap, not_exists]
  constructor
  · intro hnamed
    refine countP_eq_zero.mpr fun g hg => ?_
    obtain ⟨hg, hempty⟩ := mem_filter.mp hg
    simpa using fun hin => (hnames g hg hin).mp hempty hnamed
  · intro hunnamed
    obtain ⟨g, hg, hin⟩ := h.covers m hm
    refine countP_eq_one ⟨g, ?_, by simpa using hin⟩ ?_
    · exact mem_filter.mpr ⟨hg, (hnames g hg hin).mpr hunnamed⟩
    · refine (h.disjoint.filter _).imp fun hdisj => ?_
      simpa using hdisj m.packHash

theorem mem_group_iff (h : IsComponents nodes envOf comps)
    {group : String × List Bytes} (hgroup : group ∈ envGroups envOf comps) (hm : m ∈ nodes) : m.packHash ∈ group.2 ↔
      NamedBy nodes envOf m.packHash group.1 ∧ ∀ x ∈ envOf m.packHash, x = group.1 := by
  obtain ⟨g, hg, hin⟩ := h.covers m hm
  rw [(envGroups_spec envOf comps).2.2 group hgroup, h.namedBy_iff hg hin]
  constructor
  · rintro ⟨g', hg', hin', hname, hown⟩
    rw [h.eq_of_mem hg hg' hin hin']
    exact ⟨hname, hown⟩
  · rintro ⟨hname, hown⟩
    exact ⟨g, hg, hin, hname, hown⟩

/-- A snapshot is listed in the environments its component names, and only in its own when it is
readable. -/
theorem mem_snapshots_iff (h : IsComponents nodes envOf comps) (hrel : List.Forall₂
    (IsEnvironment nodes envOf) (envGroups envOf comps) envs) (hm : m ∈ nodes) {e : EnvState} (he : e ∈ envs) :
    m.id ∈ e.snapshots ↔ NamedBy nodes envOf m.packHash e.env ∧ ∀ x ∈ envOf m.packHash, x = e.env := by
  obtain ⟨group, hgroup, hisEnv⟩ := exists_left_of_forall₂ hrel he
  rw [hisEnv.snapshots m hm, mem_group_iff h hgroup hm, hisEnv.env]

theorem map_env_eq {groups : List (String × List Bytes)} (hrel : List.Forall₂ (IsEnvironment nodes envOf) groups envs) :
    envs.map EnvState.env = groups.map Prod.fst := by
  induction hrel with
  | nil => rfl
  | cons h _ ih => rw [map_cons, map_cons, h.env, ih]

variable (envOf) in
include hids hp in
/-- Manifests by others change only what is ignored and the warnings about it. -/
theorem resolve_outsiders : (resolve maintainers manifests' envOf).map
        (fun r => (r.environments.map EnvState.withoutNewer, r.hidden)) = (resolve maintainers manifests envOf).map
        fun r => (r.environments.map EnvState.withoutNewer, r.hidden) := by
  have hnodes := nodes_eq_of_perm hids hp
  simp only [resolve, hnodes]
  generalize (countManifests maintainers manifests).nodes = nodes
  cases hcomps : UnionFind.components (hashesOf nodes) (edgesOf nodes envOf) with
  | none => rfl
  | some comps =>
    have henvs : ∀ others others', ((envGroups envOf comps).mapM
        (environment nodes envOf others' (edgesOf nodes envOf))).map
          (map EnvState.withoutNewer) = ((envGroups envOf comps).mapM
        (environment nodes envOf others (edgesOf nodes envOf))).map
          (map EnvState.withoutNewer) := by
      intro others others'
      rw [map_map_mapM, map_map_mapM]
      simp only [environment_withoutNewer others others']
    have h := henvs (countManifests maintainers manifests).others
      (countManifests maintainers manifests').others
    simp only [Option.bind_eq_bind, Option.bind_some]
    -- both sides list the environments, or neither does
    generalize (envGroups envOf comps).mapM (environment nodes envOf
      (countManifests maintainers manifests').others (edgesOf nodes envOf)) = envs' at h ⊢
    generalize (envGroups envOf comps).mapM (environment nodes envOf
      (countManifests maintainers manifests).others (edgesOf nodes envOf)) = envs at h ⊢
    match envs', envs, h with
    | none, none, _ => rfl
    | some envs', some envs, h =>
      have h' : envs'.map EnvState.withoutNewer = envs.map EnvState.withoutNewer := by simpa using h
      cases (comps.filter fun g => (namesOf envOf g).isEmpty).mapM (rowsOf nodes) with
      | none => rfl
      | some rows =>
        simp only [Option.bind_some]
        cases (sortByKey oldestKey rows).mapM (hiddenEnv nodes (edgesOf nodes envOf)) with
        | none => rfl
        | some hidden => simp [h']

/-- A resolution is reached: the environments and the hidden groups of the connected components. -/
theorem exists_resolve (maintainers : Finset String) (manifests : List SnapshotRef)
    (envOf : Bytes → Option String) (hids : (manifests.map SnapshotRef.id).Nodup) :
    let counted := countManifests maintainers manifests
    let edges := edgesOf counted.nodes envOf
    ∃ comps envs hidden, resolve maintainers manifests envOf = some ⟨counted.ignored, envs, hidden⟩ ∧
      UnionFind.components (hashesOf counted.nodes) edges = some comps ∧ IsComponents counted.nodes envOf comps ∧
      (envGroups envOf comps).mapM (environment counted.nodes envOf counted.others edges) = some envs ∧
      List.Forall₂ (IsEnvironment counted.nodes envOf) (envGroups envOf comps) envs ∧ (∀ e ∈ hidden, e.heads ≠ []) ∧
      ∀ m ∈ counted.nodes, hidden.countP (fun e => m.id ∈ e.snapshots) =
        (comps.filter fun g => (namesOf envOf g).isEmpty).countP fun g => m.packHash ∈ g := by
  intro counted edges
  have hok : NodesOk counted.nodes := nodesOk_countManifests hids
  obtain ⟨comps, hcomps, hisComps⟩ := exists_components hok envOf
  obtain ⟨envs, henvs, hrel⟩ := exists_environments hok hisComps counted.others
  obtain ⟨rows, hidden, hrows, hhidden, hheads, hcount⟩ := exists_hidden hok hisComps
  refine ⟨comps, envs, hidden, ?_, hcomps, hisComps, henvs, hrel, hheads, hcount⟩
  simp only [resolve, Option.bind_eq_bind]
  rw [show countManifests maintainers manifests = counted from rfl]
  simp [hcomps, henvs, hrows, hhidden]

/-- For every maintainer set and manifests with an id each, a resolution is reached. It does not
depend on the order of the manifests, and manifests by others change only what is ignored and the
warnings about it. Counted links lead strictly lower, the groups are the connected components, every
environment and hidden group has a head, every readable snapshot is listed in its own environment
alone and every unreadable one in those its component names or else in one hidden group, and an
environment is current exactly when it has one head, a readable one. -/
theorem resolve_spec (maintainers : Finset String) (manifests : List SnapshotRef)
    (envOf : Bytes → Option String) (hids : (manifests.map SnapshotRef.id).Nodup) :
    let nodes := (countManifests maintainers manifests).nodes
    ∃ res comps, resolve maintainers manifests envOf = some res ∧
      UnionFind.components (hashesOf nodes) (edgesOf nodes envOf) = some comps ∧
      IsComponents nodes envOf comps ∧
      (∀ manifests', manifests'.Perm manifests → resolve maintainers manifests' envOf = some res) ∧
      (∀ manifests', (manifests'.map SnapshotRef.id).Nodup →
        (manifests'.filter fun m => decide (m.ownerId ∈ maintainers)).Perm
          (manifests.filter fun m => decide (m.ownerId ∈ maintainers)) →
        ∃ res', resolve maintainers manifests' envOf = some res' ∧
          res'.environments.map EnvState.withoutNewer =
            res.environments.map EnvState.withoutNewer ∧
          res'.hidden = res.hidden) ∧
      (∀ e ∈ edgesOf nodes envOf, ∃ t ∈ nodes, ∃ s ∈ nodes,
        t.packHash = e.1 ∧ s.packHash = e.2 ∧ s.height < t.height) ∧
      (∀ e ∈ res.environments, e.heads ≠ []) ∧ (∀ e ∈ res.hidden, e.heads ≠ []) ∧
      (∀ m ∈ nodes, ∀ name, envOf m.packHash = some name →
        res.environments.countP (fun e => m.id ∈ e.snapshots) = 1 ∧
        (∀ e ∈ res.environments, m.id ∈ e.snapshots ↔ e.env = name) ∧
        res.hidden.countP (fun e => m.id ∈ e.snapshots) = 0) ∧
      (∀ m ∈ nodes, envOf m.packHash = none →
        (∀ e ∈ res.environments, m.id ∈ e.snapshots ↔ NamedBy nodes envOf m.packHash e.env) ∧
        (∀ name, NamedBy nodes envOf m.packHash name → ∃ e ∈ res.environments, e.env = name) ∧
        ((∃ name, NamedBy nodes envOf m.packHash name) →
          res.hidden.countP (fun e => m.id ∈ e.snapshots) = 0) ∧
        ((¬∃ name, NamedBy nodes envOf m.packHash name) →
          res.hidden.countP (fun e => m.id ∈ e.snapshots) = 1)) ∧
      ∀ e ∈ res.environments, e.state = .current ↔
        ∃ m ∈ nodes, e.heads = [m.id] ∧ (envOf m.packHash).isSome := by
  intro nodes
  have hok : NodesOk nodes := nodesOk_countManifests hids
  obtain ⟨comps, envs, hidden, hres, hcomps, hisComps, -, hrel, hheads, hcount⟩ :=
    exists_resolve maintainers manifests envOf hids
  obtain ⟨hnodup, hnames, hmembers⟩ := envGroups_spec envOf comps
  have henvOf := map_env_eq hrel
  have hlisted : ∀ m ∈ nodes, ∀ name, NamedBy nodes envOf m.packHash name →
      ∃ e ∈ envs, e.env = name := by
    intro m hm name hname
    obtain ⟨g, hg, hin⟩ := hisComps.covers m hm
    have hmem : name ∈ envs.map EnvState.env := by
      rw [henvOf, hnames]
      exact ⟨g, hg, (hisComps.namedBy_iff hg hin).mp hname⟩
    exact mem_map.mp hmem
  refine ⟨_, comps, hres, hcomps, hisComps, fun manifests' hp => ?_, fun manifests' hids' hp => ?_,
    fun e => height_lt_of_mem_edgesOf hok, fun e he => ?_, hheads, fun m hm name hname => ?_,
    fun m hm hnone => ?_, fun e he => ?_⟩
  · rw [← hres, resolve, resolve, countManifests_eq_of_perm hids hp]
  · have houtsiders := resolve_outsiders envOf hids hp
    rw [hres, Option.map_some] at houtsiders
    obtain ⟨res', hres', heq⟩ := Option.map_eq_some_iff.mp houtsiders
    exact ⟨res', hres', Prod.mk.inj heq⟩
  · obtain ⟨g, -, hg⟩ := exists_left_of_forall₂ hrel he
    exact hg.heads
  · have hnamed : NamedBy nodes envOf m.packHash name := ⟨m, hm, .refl _, hname⟩
    have hiff : ∀ e ∈ envs, m.id ∈ e.snapshots ↔ e.env = name := by
      intro e he
      rw [mem_snapshots_iff hisComps hrel hm he]
      simp only [hname, Option.mem_def, Option.some.injEq, forall_eq']
      exact ⟨fun h => h.2.symm, fun h => ⟨h ▸ hnamed, h.symm⟩⟩
    refine ⟨countP_eq_one ?_ ?_, hiff, ?_⟩
    · obtain ⟨e, he, henv⟩ := hlisted m hm name hnamed
      exact ⟨e, he, by simpa using (hiff e he).mpr henv⟩
    · rw [← henvOf, List.Nodup, pairwise_map] at hnodup
      refine hnodup.imp_of_mem fun {a b} ha hb hne hin hin' => hne ?_
      rw [(hiff a ha).mp (by simpa using hin), (hiff b hb).mp (by simpa using hin')]
    · rw [hcount m hm]
      exact (hisComps.countP_unnamed hm).1 ⟨name, hnamed⟩
  · refine ⟨fun e he => ?_, hlisted m hm, fun hnamed => ?_, fun hunnamed => ?_⟩
    · rw [mem_snapshots_iff hisComps hrel hm he]
      simp [hnone, nodes]
    · rw [hcount m hm]
      exact (hisComps.countP_unnamed hm).1 hnamed
    · rw [hcount m hm]
      exact (hisComps.countP_unnamed hm).2 hunnamed
  · obtain ⟨g, -, hg⟩ := exists_left_of_forall₂ hrel he
    exact hg.state

/-- A readable snapshot, an unreadable one over it, a third of its own, and an outsider's. -/
def snapshotSample : List SnapshotRef :=
  [⟨"a", "M", [1], [], 1⟩, ⟨"b", "M", [2], [[1]], 2⟩, ⟨"c", "M", [3], [], 3⟩,
    ⟨"d", "W", [4], [[2]], 4⟩]

def snapshotSampleEnv (h : Bytes) : Option String := if h = [1] then some "prod" else none

theorem resolve_spec_sample :
    (snapshotSample.map SnapshotRef.id).Nodup ∧
    ∃ res, resolve {"M"} snapshotSample snapshotSampleEnv = some res ∧
      res.environments = [⟨"prod", .unreadable, ["b"], ["a", "b"], ["d"]⟩] ∧
      res.hidden = [⟨["c"], ["c"]⟩] ∧ ∀ e ∈ res.environments, e.heads ≠ [] := by
  have hids : (snapshotSample.map SnapshotRef.id).Nodup := by decide
  obtain ⟨res, -, hres, -, -, -, -, -, hheads, -⟩ :=
    resolve_spec {"M"} snapshotSample snapshotSampleEnv hids
  have heval : resolve {"M"} snapshotSample snapshotSampleEnv =
      some ⟨[⟨"d", .notAMaintainer⟩], [⟨"prod", .unreadable, ["b"], ["a", "b"], ["d"]⟩],
        [⟨["c"], ["c"]⟩]⟩ := by
    decide +kernel
  obtain rfl := Option.some.inj (hres.symm.trans heval)
  exact ⟨hids, _, hres, rfl, rfl, hheads⟩

end DashForge.Env
