import DashForge.Merge.NewCommits
import Mathlib.Order.WellFoundedSet

/-!
# The pack of a merge is complete

Every visit of a tree ends with each entry a parent's at the same path, or taken (`Closed`). By induction on the history
the pack then has, with what the base repository has, all that the new tip holds (`pack_complete`).
-/

namespace DashForge.Git

open Classical (not_not)
open List Except

variable {reader : ObjectReader} {visitCap : ℕ} {s s' s'' : PackWalk} {oid : String}

/-! ### Reads -/

variable {entries : List TreeEntry} {name x p tip : String}
  {walk : String → List String → PackWalk → Except GitError PackWalk} {cap : ℕ}

theorem readTreeEntries_eq_ok (h : readTreeEntries reader oid = .ok entries) :
    entries = entriesOf reader oid ∧ Checked reader oid := by
  obtain ⟨obj, hread, h⟩ := bind_eq_ok.mp h
  obtain ⟨htype, h⟩ := refuseIf_bind_eq_ok.mp h
  obtain ⟨u, hcheck, h⟩ := bind_eq_ok.mp h
  have htree : obj.type = .tree := not_not.mp htype
  refine ⟨?_, obj, hread, htree, hcheck⟩
  rw [entriesOf, hread]
  simp only [htree, if_true]
  exact (ok.inj h).symm

variable {parents commits : List String} {e : TreeEntry} {obj? : Option GitObject} {obj : GitObject} {c y : String}

theorem readAll_eq_ok {parentEntries : List (List TreeEntry)}
    (h : parents.mapM (readTreeEntries reader) = .ok parentEntries) :
    parentEntries = parents.map (entriesOf reader) := by
  have hmap := map_eq_map_ok h
  induction parents generalizing parentEntries with
  | nil => simpa using hmap.symm
  | cons p ps ih =>
    cases parentEntries with
    | nil => simp at hmap
    | cons entries rest =>
      rw [mapM_cons, bind_eq_ok] at h
      obtain ⟨es, hes, h⟩ := h
      obtain ⟨more, hmore, h⟩ := bind_eq_ok.mp h
      obtain ⟨rfl, rfl⟩ := List.cons.inj (ok.inj h)
      rw [map_cons, ← (readTreeEntries_eq_ok hes).1, ← ih hmore (map_eq_map_ok hmore)]

theorem mem_sameName {x : TreeEntry} (h : x ∈ sameName (parents.map (entriesOf reader)) name) :
    ∃ p ∈ parents, (entriesOf reader p).find? (fun y => y.name = name) = some x := by
  obtain ⟨entries, hentries, hfind⟩ := mem_filterMap.mp h
  obtain ⟨p, hp, rfl⟩ := mem_map.mp hentries
  exact ⟨p, hp, hfind⟩

/-! ### What was visited -/

/-- The tree is one it is compared with, or was visited against some of these. -/
def Visited (s : PackWalk) (oid : String) (parents : List String) : Prop :=
  oid ∈ parents ∨ ∃ v ∈ s.walked, v.oid = oid ∧ ∀ p ∈ v.parents, p ∈ parents

/-- What a visit leaves of an entry. -/
inductive Handled (reader : ObjectReader) (s : PackWalk) (parents : List String) (e : TreeEntry) : Prop
  | gitlink (h : e.mode = modeGitlink)
  | same (p : String) (x : TreeEntry) (hp : p ∈ parents)
      (hx : (entriesOf reader p).find? (fun y => y.name = e.name) = some x) (hoid : x.oid = e.oid)
        (hmode : x.mode = e.mode)
  | blob (hname : specialFileName e.name = none) (htaken : e.oid ∈ s.taken) (obj : GitObject)
      (hread : reader e.oid = .ok obj) (htype : obj.type = .blob)
  | tree (hname : specialFileName e.name = none) (below : List String)
      (hbelow : ∀ q ∈ below, ∃ p ∈ parents, ∃ x, (entriesOf reader p).find? (fun y => y.name = e.name) = some x ∧
        x.mode = modeTree ∧ x.oid = q)
      (hvisited : Visited s e.oid below)

/-- A visit that ended. -/
structure Closed (reader : ObjectReader) (s : PackWalk) (v : Visit) : Prop where
  taken : v.oid ∈ s.taken
  checked : Checked reader v.oid
  handled : ∀ e ∈ entriesOf reader v.oid, Handled reader s v.parents e

/-- The pack has what was taken, once. -/
structure PackInv (reader : ObjectReader) (s : PackWalk) : Prop where
  nodup : s.taken.Nodup
  reads : s.taken.map reader = s.out.map .ok

/-- What walking trees does. -/
structure Walks (reader : ObjectReader) (s s' : PackWalk) : Prop where
  inv : PackInv reader s → PackInv reader s'
  taken : s.taken ⊆ s'.taken
  walked : s.walked ⊆ s'.walked
  noCommit : ∀ x ∈ s'.taken, x ∈ s.taken ∨ ¬IsCommit reader x
  closed : ∀ v ∈ s'.walked, v ∈ s.walked ∨ Closed reader s' v

theorem Visited.mono (h : Visited s oid parents) (hsub : s.walked ⊆ s'.walked) : Visited s' oid parents := by
  rcases h with h | ⟨v, hv, heq, hparents⟩
  · exact .inl h
  · exact .inr ⟨v, hsub hv, heq, hparents⟩

theorem Handled.mono (h : Handled reader s parents e) (htaken : s.taken ⊆ s'.taken)
    (hwalked : s.walked ⊆ s'.walked) : Handled reader s' parents e := by
  cases h with
  | gitlink h => exact .gitlink h
  | same p x hp hx hoid hmode => exact .same p x hp hx hoid hmode
  | blob hname hmem obj hread htype => exact .blob hname (htaken hmem) obj hread htype
  | tree hname below hbelow hvisited => exact .tree hname below hbelow (hvisited.mono hwalked)

theorem Closed.mono {v : Visit} (h : Closed reader s v) (htaken : s.taken ⊆ s'.taken) (hwalked : s.walked ⊆ s'.walked) :
    Closed reader s' v :=
  ⟨htaken h.taken, h.checked, fun e he => (h.handled e he).mono htaken hwalked⟩

theorem Walks.refl (s : PackWalk) : Walks reader s s :=
  ⟨fun h => h, fun _ h => h, fun _ h => h, fun _ h => .inl h, fun _ h => .inl h⟩

theorem Walks.trans (h : Walks reader s s') (h' : Walks reader s' s'') : Walks reader s s'' where
  inv hs := h'.inv (h.inv hs)
  taken := fun _ hx => h'.taken (h.taken hx)
  walked := fun _ hv => h'.walked (h.walked hv)
  noCommit x hx := by
    rcases h'.noCommit x hx with hx | hx
    · exact h.noCommit x hx
    · exact .inr hx
  closed v hv := by
    rcases h'.closed v hv with hv | hv
    · exact (h.closed v hv).imp_right fun hclosed => hclosed.mono h'.taken h'.walked
    · exact .inr hv

/-! ### Taking objects -/

variable (h : s.take reader oid = .ok (s', obj?))

include h in
theorem take_eq_ok : (oid ∈ s.taken ∧ s' = s ∧ obj? = none) ∨
    (oid ∉ s.taken ∧ ∃ obj, reader oid = .ok obj ∧ obj? = some obj ∧
      s' = { s with taken := s.taken ++ [oid], out := s.out ++ [obj] }) := by
  rw [PackWalk.take] at h
  split at h
  · next hmem =>
    obtain ⟨rfl, rfl⟩ := Prod.mk.inj (ok.inj h)
    exact .inl ⟨hmem, rfl, rfl⟩
  · next hmem =>
    obtain ⟨obj, hread, h⟩ := bind_eq_ok.mp h
    obtain ⟨u, -, h⟩ := bind_eq_ok.mp h
    obtain ⟨rfl, rfl⟩ := Prod.mk.inj (ok.inj h)
    exact .inr ⟨hmem, obj, hread, rfl, rfl⟩

include h in
theorem mem_taken_of_take : oid ∈ s'.taken := by
  rcases take_eq_ok h with ⟨hmem, rfl, -⟩ | ⟨-, obj, -, -, rfl⟩
  · exact hmem
  · exact mem_append_right _ (mem_singleton_self _)

include h in
theorem walked_of_take : s'.walked = s.walked := by
  rcases take_eq_ok h with ⟨-, rfl, -⟩ | ⟨-, obj, -, -, rfl⟩
  · rfl
  · rfl

theorem PackInv.take (hs : PackInv reader s) (h : s.take reader oid = .ok (s', obj?)) : PackInv reader s' := by
  rcases take_eq_ok h with ⟨-, rfl, -⟩ | ⟨hnew, obj, hread, -, rfl⟩
  · exact hs
  · refine ⟨?_, by simp [hs.reads, hread]⟩
    exact nodup_append.mpr ⟨hs.nodup, nodup_singleton _, fun a ha b hb heq =>
      hnew (mem_singleton.mp hb ▸ heq ▸ ha)⟩

include h in
theorem Walks.take (hno : ¬IsCommit reader oid) : Walks reader s s' := by
  have hinv (hs : PackInv reader s) : PackInv reader s' := hs.take h
  rcases take_eq_ok h with ⟨-, rfl, -⟩ | ⟨-, obj, -, -, rfl⟩
  · exact .refl _
  · refine ⟨hinv, fun x hx => mem_append_left _ hx, fun v hv => hv, fun x hx => ?_, fun v hv => .inl hv⟩
    rcases mem_append.mp hx with hx | hx
    · exact .inl hx
    · exact .inr (mem_singleton.mp hx ▸ hno)

theorem not_isCommit (hread : reader oid = .ok obj) (htype : obj.type ≠ .commit) : ¬IsCommit reader oid := by
  rintro ⟨obj', hread', htype'⟩
  obtain rfl := ok.inj (hread.symm.trans hread')
  exact htype htype'

/-! ### Walking trees -/

/-- What a walk of a tree does. -/
def WalksTree (reader : ObjectReader) (walk : String → List String → PackWalk → Except GitError PackWalk) : Prop :=
  ∀ oid parents s s', walk oid parents s = .ok s' → Walks reader s s' ∧ Visited s' oid parents

theorem walkEntry_spec (hwalk : WalksTree reader walk)
    (h : walkEntry reader walk oid (parents.map (entriesOf reader)) s e = .ok s') :
    Walks reader s s' ∧ Handled reader s' parents e := by
  rw [walkEntry] at h
  split at h
  · next hlink =>
    obtain rfl := ok.inj h
    exact ⟨.refl s, .gitlink hlink⟩
  · dsimp only at h
    split at h
    · next hsame =>
      obtain rfl := ok.inj h
      obtain ⟨x, hx, heq⟩ := any_eq_true.mp hsame
      obtain ⟨p, hp, hfind⟩ := mem_sameName hx
      simp only [Bool.and_eq_true, decide_eq_true_eq] at heq
      exact ⟨.refl s, .same p x hp hfind heq.1.1 heq.1.2⟩
    · obtain ⟨hname, h⟩ := refuseIf_bind_eq_ok.mp h
      obtain ⟨obj, hread, h⟩ := bind_eq_ok.mp h
      obtain ⟨htype, h⟩ := refuseIf_bind_eq_ok.mp h
      have hname := not_not.mp hname
      have htype := not_not.mp htype
      split at h
      · obtain ⟨hwalks, hvisited⟩ := hwalk _ _ _ _ h
        refine ⟨hwalks, .tree hname _ (fun q hq => ?_) hvisited⟩
        obtain ⟨x, hx, rfl⟩ := mem_map.mp hq
        obtain ⟨hx, hmode⟩ := mem_filter.mp hx
        obtain ⟨p, hp, hfind⟩ := mem_sameName hx
        exact ⟨p, hp, x, hfind, of_decide_eq_true hmode, rfl⟩
      · next htree =>
        obtain ⟨⟨s₁, obj?⟩, htake, h⟩ := bind_eq_ok.mp h
        obtain rfl := ok.inj h
        have hblob : obj.type = .blob := by
          split at htype
          · exact absurd htype htree
          · exact htype
        have hno : ¬IsCommit reader e.oid := not_isCommit hread (by simp [hblob])
        exact ⟨.take htake hno, .blob hname (mem_taken_of_take htake) obj hread hblob⟩

theorem walkEntries_spec (hwalk : WalksTree reader walk)
    (h : entries.foldlM (walkEntry reader walk oid (parents.map (entriesOf reader))) s = .ok s') :
    Walks reader s s' ∧ ∀ e ∈ entries, Handled reader s' parents e := by
  induction entries generalizing s with
  | nil =>
    obtain rfl := ok.inj h
    exact ⟨.refl s, by simp⟩
  | cons e entries ih =>
    rw [foldlM_cons] at h
    obtain ⟨s₁, hs₁, h⟩ := bind_eq_ok.mp h
    obtain ⟨hwalks₁, he⟩ := walkEntry_spec hwalk hs₁
    obtain ⟨hwalks₂, hrest⟩ := ih h
    refine ⟨hwalks₁.trans hwalks₂, fun x hx => ?_⟩
    rcases mem_cons.mp hx with rfl | hx
    · exact he.mono hwalks₂.taken hwalks₂.walked
    · exact hrest x hx

theorem walkTree_spec (levels : ℕ) : WalksTree reader (walkTree reader visitCap levels) := by
  induction levels with
  | zero =>
    intro oid parents s s' h
    rw [walkTree] at h
    split at h
    · next hmem =>
      obtain rfl := ok.inj h
      exact ⟨.refl s, .inl hmem⟩
    · cases h
  | succ levels ih =>
    intro oid parents s s' h
    rw [walkTree] at h
    dsimp only at h
    split at h
    · next hmem =>
      obtain rfl := ok.inj h
      exact ⟨.refl s, .inl hmem⟩
    · split at h
      · next hvisit =>
        obtain rfl := ok.inj h
        exact ⟨.refl s, .inr ⟨_, hvisit, rfl, fun p hp => (mem_mergeSort).mp hp⟩⟩
      · obtain ⟨-, h⟩ := refuseIf_bind_eq_ok.mp h
        obtain ⟨⟨s₁, obj?⟩, htake, h⟩ := bind_eq_ok.mp h
        obtain ⟨entries, hentries, h⟩ := bind_eq_ok.mp h
        obtain ⟨parentEntries, hparents, h⟩ := bind_eq_ok.mp h
        obtain ⟨rfl, hchecked⟩ := readTreeEntries_eq_ok hentries
        obtain rfl := readAll_eq_ok hparents
        obtain ⟨hrest, hhandled⟩ := walkEntries_spec ih h
        obtain ⟨obj, hread, htype, hcheck⟩ := hchecked
        have hno : ¬IsCommit reader oid := not_isCommit hread (by rw [htype]; nofun)
        have hstart := Walks.take htake hno
        have hwalked := walked_of_take htake
        have hmem : (⟨oid, levels, parents.mergeSort⟩ : Visit) ∈ s'.walked :=
          hrest.walked (hwalked ▸ mem_append_right _ (mem_singleton_self _))
        -- The visit was in progress while its entries were walked, and is closed now.
        have hclosed : Closed reader s' ⟨oid, levels, parents.mergeSort⟩ := by
          refine ⟨hrest.taken (mem_taken_of_take htake), ⟨obj, hread, htype, hcheck⟩, fun e he => ?_⟩
          cases hhandled e he with
          | gitlink h => exact .gitlink h
          | same p x hp hx hoid hmode => exact .same p x (mem_mergeSort.mpr hp) hx hoid hmode
          | blob hname htaken obj hread htype => exact .blob hname htaken obj hread htype
          | tree hname below hbelow hvisited =>
            refine .tree hname below (fun q hq => ?_) hvisited
            obtain ⟨p, hp, hx⟩ := hbelow q hq
            exact ⟨p, mem_mergeSort.mpr hp, hx⟩
        refine ⟨⟨fun hs => hrest.inv (hstart.inv ⟨hs.nodup, hs.reads⟩), fun x hx => hrest.taken (hstart.taken hx),
          fun v hv => hrest.walked (hstart.walked (mem_append_left _ hv)), fun x hx => ?_, fun v hv => ?_⟩,
          .inr ⟨_, hmem, rfl, fun p hp => mem_mergeSort.mp hp⟩⟩
        · exact (hstart.trans hrest).noCommit x hx
        · rcases hrest.closed v hv with hv | hv
          · rw [hwalked] at hv
            rcases mem_append.mp hv with hv | hv
            · exact .inl hv
            · exact .inr (mem_singleton.mp hv ▸ hclosed)
          · exact .inr hv

/-! ### Commits -/

/-- A commit whose tree was walked against those of its parents. -/
def CommitDone (reader : ObjectReader) (s : PackWalk) (c : String) : Prop :=
  ∃ obj, reader c = .ok obj ∧ obj.type = .commit ∧
    Visited s (parseCommit obj.bytes).tree ((parseCommit obj.bytes).parents.map (treeOf reader))

/-- What packing commits keeps. -/
structure PackDone (reader : ObjectReader) (s : PackWalk) : Prop where
  inv : PackInv reader s
  closed : ∀ v ∈ s.walked, Closed reader s v
  commits : ∀ c ∈ s.taken, IsCommit reader c → CommitDone reader s c

theorem readParents_eq_ok {ps trees : List String}
    (h : (ps.mapM fun p => (reader p).map fun po => (parseCommit po.bytes).tree) = .ok trees) :
    trees = ps.map (treeOf reader) := by
  induction ps generalizing trees with
  | nil => exact (ok.inj h).symm
  | cons p ps ih =>
    rw [mapM_cons] at h
    obtain ⟨t, ht, h⟩ := bind_eq_ok.mp h
    obtain ⟨rest, hrest, h⟩ := bind_eq_ok.mp h
    obtain rfl := ok.inj h
    rw [map_cons, ← ih hrest, treeOf]
    cases hread : reader p with
    | error e => rw [hread] at ht; cases ht
    | ok po =>
      rw [hread] at ht
      rw [← ok.inj ht]

variable (hs : PackDone reader s)

include hs in
theorem PackDone.step (h : packCommit reader visitCap s c = .ok s') :
    PackDone reader s' ∧ s.taken ⊆ s'.taken ∧ c ∈ s'.taken := by
  obtain ⟨⟨s₁, obj?⟩, htake, h⟩ := bind_eq_ok.mp h
  rcases take_eq_ok htake with ⟨hmem, rfl, rfl⟩ | ⟨-, obj, hread, rfl, hs₁⟩
  · obtain rfl := ok.inj h
    exact ⟨hs, fun _ hx => hx, hmem⟩
  · obtain ⟨htype, h⟩ := refuseIf_bind_eq_ok.mp h
    obtain ⟨u, -, h⟩ := bind_eq_ok.mp h
    obtain ⟨parentTrees, hparents, h⟩ := bind_eq_ok.mp h
    obtain rfl := readParents_eq_ok hparents
    obtain ⟨hwalks, hvisited⟩ := walkTree_spec _ _ _ _ _ h
    have htaken : s.taken ⊆ s₁.taken := fun x hx => hs₁ ▸ mem_append_left _ hx
    have hwalked : s₁.walked = s.walked := walked_of_take htake
    refine ⟨⟨hwalks.inv (hs.inv.take htake), fun v hv => ?_, fun x hx hcommit => ?_⟩, fun x hx =>
      hwalks.taken (htaken hx),
      hwalks.taken (mem_taken_of_take htake)⟩
    · rcases hwalks.closed v hv with hv | hv
      · rw [hwalked] at hv
        exact (hs.closed v hv).mono (fun x hx => hwalks.taken (htaken hx)) fun x hx => hwalks.walked (hwalked ▸ hx)
      · exact hv
    · rcases hwalks.noCommit x hx with hx | hx
      · rw [hs₁] at hx
        rcases mem_append.mp hx with hx | hx
        · obtain ⟨po, hpo, hpt, hpv⟩ := hs.commits x hx hcommit
          exact ⟨po, hpo, hpt, hpv.mono fun v hv => hwalks.walked (hwalked ▸ hv)⟩
        · rw [mem_singleton.mp hx]
          exact ⟨obj, hread, not_not.mp htype, hvisited⟩
      · exact absurd hcommit hx

include hs in
theorem PackDone.foldl (h : commits.foldlM (packCommit reader visitCap) s = .ok s') :
    PackDone reader s' ∧ s.taken ⊆ s'.taken ∧ ∀ c ∈ commits, c ∈ s'.taken := by
  induction commits generalizing s with
  | nil =>
    obtain rfl := ok.inj h
    exact ⟨hs, fun _ hx => hx, by simp⟩
  | cons c commits ih =>
    rw [foldlM_cons] at h
    obtain ⟨s₁, hs₁, h⟩ := bind_eq_ok.mp h
    obtain ⟨hdone₁, hsub₁, hc⟩ := hs.step hs₁
    obtain ⟨hdone₂, hsub₂, hrest⟩ := ih hdone₁ h
    refine ⟨hdone₂, fun x hx => hsub₂ (hsub₁ hx), fun x hx => ?_⟩
    rcases mem_cons.mp hx with rfl | hx
    · exact hsub₂ hc
    · exact hrest x hx

theorem packDone_nil : PackDone reader {} := ⟨⟨nodup_nil, rfl⟩, by simp, by simp⟩

/-! ### Completeness -/

/-- An object that is in the pack, or that the base repository has. -/
def Stored (reader : ObjectReader) (have_ : List String) (s : PackWalk) (y : String) : Prop :=
  y ∈ s.taken ∨ ∃ h ∈ have_, h ≠ "" ∧ Holds reader h y

/-- All that an object holds is stored. -/
def Complete (reader : ObjectReader) (have_ : List String) (s : PackWalk) (x : String) : Prop :=
  ∀ y, Holds reader x y → Stored reader have_ s y

variable {have_ : List String}

theorem Complete.child (h : Complete reader have_ s x) (hy : Child reader x y) :
    Complete reader have_ s y := fun z hz => h z (.head hy hz)

theorem not_child_of_blob (hread : reader x = .ok obj) (htype : obj.type = .blob) : ¬Child reader x y := by
  have hno (obj' : GitObject) (hread' : reader x = .ok obj') : obj'.type = .blob := by
    obtain rfl := ok.inj (hread.symm.trans hread')
    exact htype
  rintro (⟨obj', hread', htype', -⟩ | ⟨obj', hread', htype', -⟩ | ⟨obj', hread', htype', -⟩)
  all_goals
    rw [hno obj' hread'] at htype'
    cases htype'

theorem mem_entriesOf_of_child (hchecked : Checked reader x) (h : Child reader x y) :
    ∃ e ∈ entriesOf reader x, e.mode ≠ modeGitlink ∧ y = e.oid := by
  obtain ⟨obj, hread, htype, -⟩ := hchecked
  have hno (obj' : GitObject) (hread' : reader x = .ok obj') : obj' = obj :=
    (ok.inj (hread.symm.trans hread')).symm
  rcases h with ⟨obj', hread', htype', -⟩ | ⟨obj', hread', htype', -⟩ | ⟨obj', hread', htype', e, he, hlink, rfl⟩
  · rw [hno obj' hread', htype] at htype'
    cases htype'
  · rw [hno obj' hread', htype] at htype'
    cases htype'
  · refine ⟨e, ?_, hlink, rfl⟩
    rw [entriesOf, hread']
    simp only [htype', if_true]
    exact he

theorem child_of_find {x : TreeEntry}
    (h : (entriesOf reader p).find? (fun y => y.name = name) = some x) (hlink : x.mode ≠ modeGitlink) :
    Child reader p x.oid := by
  have hmem := mem_of_find?_eq_some h
  rw [entriesOf] at hmem
  split at hmem
  · next obj hread =>
    split at hmem
    · next htype => exact .inr (.inr ⟨obj, hread, htype, x, hmem, hlink, rfl⟩)
    · cases hmem
  · cases hmem

/-- A tree whose objects are all stored: all it holds, or all that a visit of it came to. -/
def Covered (reader : ObjectReader) (have_ : List String) (s : PackWalk) (x : String) : Prop :=
  Complete reader have_ s x ∨ ∃ v ∈ s.walked, v.oid = x ∧ ∀ p ∈ v.parents, Complete reader have_ s p

theorem covered_of_visited (h : Visited s x parents)
    (hparents : ∀ p ∈ parents, Complete reader have_ s p) : Covered reader have_ s x := by
  rcases h with h | ⟨v, hv, heq, hsub⟩
  · exact .inl (hparents x h)
  · exact .inr ⟨v, hv, heq, fun p hp => hparents p (hsub p hp)⟩

include hs in
theorem Covered.child (h : Covered reader have_ s x) (hy : Child reader x y) :
    Covered reader have_ s y := by
  rcases h with h | ⟨v, hv, rfl, hparents⟩
  · exact .inl (h.child hy)
  · obtain ⟨-, hchecked, hhandled⟩ := hs.closed v hv
    obtain ⟨e, he, hlink, rfl⟩ := mem_entriesOf_of_child hchecked hy
    cases hhandled e he with
    | gitlink h => exact absurd h hlink
    | same p x hp hx hoid hmode =>
      -- What a parent has at the path is stored with all of the parent's tree.
      exact .inl (hoid ▸ (hparents p hp).child (child_of_find hx (by rw [hmode]; exact hlink)))
    | blob hname htaken obj hread htype =>
      refine .inl fun z hz => ?_
      rcases Relation.ReflTransGen.cases_head hz with rfl | ⟨c, hc, -⟩
      · exact .inl htaken
      · exact absurd hc (not_child_of_blob hread htype)
    | tree hname below hbelow hvisited =>
      refine covered_of_visited hvisited fun q hq => ?_
      obtain ⟨p, hp, x, hx, hmode, rfl⟩ := hbelow q hq
      exact (hparents p hp).child (child_of_find hx (by rw [hmode]; decide))

include hs in
theorem Covered.complete (h : Covered reader have_ s x) : Complete reader have_ s x := by
  intro y hy
  have hcovered : Covered reader have_ s y := by
    induction hy with
    | refl => exact h
    | tail _ hstep ih => exact ih.child hs hstep
  rcases hcovered with hcomplete | ⟨v, hv, rfl, -⟩
  · exact hcomplete y .refl
  · exact .inl (hs.closed v hv).taken

theorem Has.complete (h : Has reader have_ c) : Complete reader have_ s c := by
  obtain ⟨r, hr, hne, hreach⟩ := h
  exact fun y hy => .inr ⟨r, hr, hne, (Relation.ReflTransGen.mono (fun _ _ hp => .inl hp) _ _ hreach).trans hy⟩

/-- A history of finitely many commits without a cycle can be walked from its ends. -/
theorem wellFounded_parent (hfinite : {c | IsCommit reader c}.Finite)
    (hacyclic : ∀ c, ¬Relation.TransGen (Parent reader) c c) :
    WellFounded fun p c => Parent reader c p := by
  have hcommit {c p : String} (h : Parent reader c p) : IsCommit reader c := by
    obtain ⟨obj, hread, htype, -⟩ := h
    exact ⟨obj, hread, htype⟩
  let below (p c : String) : Prop := Relation.TransGen (Parent reader) c p
  have hstrict : IsStrictOrder String below :=
    { irrefl := hacyclic, trans := fun a b c hab hbc => hbc.trans hab }
  have hwf : WellFounded (Subrel below (· ∈ {c | IsCommit reader c})) := hfinite.wellFoundedOn
  have hacc (c : {c | IsCommit reader c}) : Acc (fun p c => Parent reader c p) c.1 := by
    induction c using hwf.induction with
    | _ c ih =>
      refine ⟨_, fun p hp => ?_⟩
      by_cases hc : IsCommit reader p
      · exact ih ⟨p, hc⟩ (Relation.TransGen.single hp)
      · exact ⟨_, fun q hq => absurd (hcommit hq) hc⟩
  refine ⟨fun c => ⟨_, fun p hp => ?_⟩⟩
  by_cases hc : IsCommit reader p
  · exact hacc ⟨p, hc⟩
  · exact ⟨_, fun q hq => absurd (hcommit hq) hc⟩

include hs in
theorem complete_commit (hc : c ∈ s.taken) (hdone : CommitDone reader s c)
    (hparents : ∀ p, Parent reader c p → IsCommit reader p ∧ Complete reader have_ s p) :
        Complete reader have_ s c := by
  obtain ⟨obj, hread, htype, hvisited⟩ := hdone
  have hobj {obj' : GitObject} (hread' : reader c = .ok obj') : obj' = obj :=
    (ok.inj (hread.symm.trans hread')).symm
  have htree : Complete reader have_ s (parseCommit obj.bytes).tree := by
    refine (covered_of_visited hvisited fun t ht => ?_).complete hs
    obtain ⟨p, hp, rfl⟩ := mem_map.mp ht
    obtain ⟨⟨po, hpo, hpt⟩, hcomplete⟩ := hparents p ⟨obj, hread, htype, hp⟩
    refine hcomplete.child (.inr (.inl ⟨po, hpo, hpt, ?_⟩))
    rw [treeOf, hpo]
  intro y hy
  rcases Relation.ReflTransGen.cases_head hy with rfl | ⟨z, hz, hy⟩
  · exact .inl hc
  · rcases hz with hz | ⟨obj', hread', -, rfl⟩ | ⟨obj', hread', htype', -⟩
    · exact (hparents z hz).2 y hy
    · rw [hobj hread'] at hy
      exact htree y hy
    · rw [hobj hread', htype] at htype'
      cases htype'

/-! ### Special files -/

include hs in
/-- A special file of a tree that was visited is as in a tree at the same path it was compared with. -/
theorem special_of_visited {path : List String} {t : String}
    (h : Visited s t parents) (he : entryAt reader t path = some e) (hspecial : specialFileName e.name ≠ none) :
    ∃ q ∈ parents, ∃ x, entryAt reader q path = some x ∧ x.oid = e.oid ∧ x.mode = e.mode := by
  induction path generalizing t parents with
  | nil => cases he
  | cons name rest ih =>
    rcases h with hmem | ⟨v, hv, rfl, hsub⟩
    · exact ⟨t, hmem, e, he, rfl, rfl⟩
    · obtain ⟨-, hchecked, hhandled⟩ := hs.closed v hv
      cases rest with
      | nil =>
        have hfind : (entriesOf reader v.oid).find? (fun x => x.name = name) = some e := he
        have hname : e.name = name := by simpa using find?_some hfind
        have hmem := mem_of_find?_eq_some hfind
        cases hhandled e hmem with
        | gitlink hlink =>
          -- A special file of a checked tree is a file.
          obtain ⟨obj, hread, htype, hcheck⟩ := hchecked
          rw [entriesOf, hread] at hmem
          simp only [htype, if_true] at hmem
          rcases mode_of_special hcheck hmem hspecial with hmode | hmode <;> rw [hmode] at hlink <;> cases hlink
        | same p x hp hx hoid hmode => exact ⟨p, hsub p hp, x, hname ▸ hx, hoid, hmode⟩
        | blob hno => exact absurd hno hspecial
        | tree hno => exact absurd hno hspecial
      | cons name' rest =>
        rw [entryAt] at he
        · obtain ⟨d, hfind, he⟩ := Option.bind_eq_some_iff.mp he
          split at he
          · next hdir =>
            have hname : d.name = name := by simpa using find?_some hfind
            have hup {q : String} {x : TreeEntry} (hx : (entriesOf reader q).find? (fun y => y.name = d.name) = some x)
                (hmode : x.mode = modeTree) : entryAt reader q (name :: name' :: rest) =
                    entryAt reader x.oid (name' :: rest) := by
              rw [hname] at hx
              rw [entryAt, hx]
              · simp [hmode]
              · simp
            cases hhandled d (mem_of_find?_eq_some hfind) with
            | gitlink hlink => rw [hdir] at hlink; cases hlink
            | same p x hp hx hoid hmode =>
              exact ⟨p, hsub p hp, e, by rw [hup hx (hmode.trans hdir), hoid]; exact he, rfl, rfl⟩
            | blob hno htaken obj hread htype =>
              have hempty : entryAt reader d.oid (name' :: rest) = none := by
                have hnil : entriesOf reader d.oid = [] := by
                  rw [entriesOf, hread]
                  simp [htype]
                cases rest <;> simp [entryAt, hnil]
              rw [hempty] at he
              cases he
            | tree hno below hbelow hvisited =>
              obtain ⟨q, hq, y, hy, hoid, hmode⟩ := ih hvisited he
              obtain ⟨p, hp, x, hx, hxdir, rfl⟩ := hbelow q hq
              exact ⟨p, hsub p hp, y, by rw [hup hx hxdir]; exact hy, hoid, hmode⟩
          · cases he
        · simp

/-! ### The pack -/

theorem newCommits_spec (h : newCommits reader cap tip have_ = .ok commits) :
    (∀ c, Reaches reader tip c → ¬Has reader have_ c → c ∈ commits) ∧
    ∀ c ∈ commits, Reaches reader tip c ∧ IsCommit reader c ∧ ∀ p, Parent reader c p → IsCommit reader p := by
  obtain ⟨w, hw, hmem⟩ := mem_newCommits h
  obtain ⟨⟨n, hinv⟩, hend⟩ := walkCommits_spec.1 w hw
  refine ⟨fun c hc hnew => (hmem c).mpr (mem_out_of_new hinv hend hc hnew), fun c hc => ?_⟩
  obtain ⟨hreach, hparents⟩ := hinv.out c ((hmem c).mp hc).1
  refine ⟨hreach, hinv.isCommit (hinv.kept c ((hmem c).mp hc).1), fun p hp => hinv.isCommit ?_⟩
  exact (hparents p hp).resolve_right (by simp)

/-- Every commit of the history is stored with all it holds: by induction on the history. -/
theorem complete_of_reaches
    (hwf : WellFounded fun p c => Parent reader c p) (h : newCommits reader cap tip have_ = .ok commits)
    (hs : PackDone reader s) (hcommits : ∀ c ∈ commits, c ∈ s.taken) (hc : Reaches reader tip c) :
    Complete reader have_ s c := by
  obtain ⟨hall, hnew⟩ := newCommits_spec h
  induction c using hwf.induction with
  | _ c ih =>
    by_cases hhas : Has reader have_ c
    · exact hhas.complete
    · have hmem := hall c hc hhas
      obtain ⟨-, hcommit, hparents⟩ := hnew c hmem
      exact complete_commit hs (hcommits c hmem) (hs.commits c (hcommits c hmem) hcommit) fun p hp =>
        ⟨hparents p hp, ih p hp (hc.tail hp)⟩

theorem objectsToPack_spec {objects : List GitObject} (h : objectsToPack reader visitCap commits = .ok objects) :
    ∃ s, PackDone reader s ∧ s.out = objects ∧ ∀ c ∈ commits, c ∈ s.taken := by
  rw [objectsToPack] at h
  cases hs : commits.foldlM (packCommit reader visitCap) {} with
  | error e => rw [hs] at h; cases h
  | ok s =>
    rw [hs] at h
    obtain ⟨hdone, -, hcommits⟩ := packDone_nil.foldl hs
    exact ⟨s, hdone, ok.inj h, hcommits⟩

theorem PackInv.mem_out (hs : PackInv reader s) (hy : y ∈ s.taken) : ∃ obj ∈ s.out, reader y = .ok obj := by
  have hmem := mem_map_of_mem (f := reader) hy
  rw [hs.reads] at hmem
  obtain ⟨obj, hobj, heq⟩ := mem_map.mp hmem
  exact ⟨obj, hobj, heq.symm⟩

/-- Objects that are read by their ids are packed once. -/
theorem PackInv.nodup_out (hs : PackInv reader s) {gitOid : GitObject → String}
    (hread : ∀ oid obj, reader oid = .ok obj → gitOid obj = oid) : s.out.Nodup := by
  have hids : s.out.map gitOid = s.taken := by
    apply map_injective_iff.mpr (show Function.Injective fun oid : String => (ok oid : Except GitError String) from
      fun _ _ heq => ok.inj heq)
    rw [map_map]
    have hmap : s.taken.map (fun oid => (reader oid).map gitOid) = s.out.map fun obj => .ok (gitOid obj) := by
      have hreads := congrArg (map (Except.map gitOid)) hs.reads
      simpa [Function.comp_def, Except.map] using hreads
    rw [show ((fun oid : String => (ok oid : Except GitError String)) ∘ gitOid) = fun obj => .ok (gitOid obj) from rfl,
      ← hmap]
    refine map_congr_left fun oid hoid => ?_
    obtain ⟨obj, -, hobj⟩ := hs.mem_out hoid
    rw [hobj]
    exact congrArg ok (hread oid obj hobj)
  exact List.Nodup.of_map gitOid (hids ▸ hs.nodup)

/-- Whatever the commit times are: the walk takes each commit that the base repository has not, and none it painted, and
it ends within the caps; the pack of what it takes has, with what the base repository has, all that the tip holds, each
object once. A special file of a new commit is as in one of its parents. -/
theorem pack_complete (cap visitCap : ℕ) (tip : String) (have_ : List String) (gitOid : GitObject → String)
    (hread : ∀ oid obj, reader oid = .ok obj → gitOid obj = oid) (hfinite : {c | IsCommit reader c}.Finite)
    (hacyclic : ∀ c, ¬Relation.TransGen (Parent reader) c c) :
    ((∃ L, WithinCaps reader cap tip have_ L) → ∃ commits, newCommits reader cap tip have_ = .ok commits) ∧
    ∀ commits, newCommits reader cap tip have_ = .ok commits →
      (∃ w, walkCommits reader cap tip have_ = .ok w ∧ ∀ c ∈ commits, c ∉ w.uninteresting) ∧
      (∀ c, Reaches reader tip c → ¬Has reader have_ c → c ∈ commits) ∧
      ∀ objects, objectsToPack reader visitCap commits = .ok objects →
        objects.Nodup ∧
        (∀ y, Holds reader tip y → (∃ obj ∈ objects, reader y = .ok obj) ∨ ∃ h ∈ have_, h ≠ "" ∧ Holds reader h y) ∧
        ∀ c ∈ commits, ∀ path e, entryAt reader (treeOf reader c) path = some e → specialFileName e.name ≠ none →
          ∃ p, Parent reader c p ∧ ∃ x, entryAt reader (treeOf reader p) path = some x ∧
              x.oid = e.oid ∧ x.mode = e.mode := by
  refine ⟨fun hcaps => ?_, fun commits hcommits => ?_⟩
  · obtain ⟨w, hw⟩ := walkCommits_spec.2 hcaps
    exact ⟨_, by rw [newCommits, hw]; rfl⟩
  · obtain ⟨hall, hnew⟩ := newCommits_spec hcommits
    refine ⟨?_, hall, fun objects hobjects => ?_⟩
    · obtain ⟨w, hw, hmem⟩ := mem_newCommits hcommits
      exact ⟨w, hw, fun c hc => ((hmem c).mp hc).2⟩
    · obtain ⟨s, hs, rfl, htaken⟩ := objectsToPack_spec hobjects
      have hwf := wellFounded_parent hfinite hacyclic
      refine ⟨hs.inv.nodup_out hread, fun y hy => ?_, fun c hc path e he hspecial => ?_⟩
      · exact (complete_of_reaches hwf hcommits hs htaken .refl y hy).imp_left hs.inv.mem_out
      · obtain ⟨-, hcommit, -⟩ := hnew c hc
        obtain ⟨obj, hobj, htype, hvisited⟩ := hs.commits c (htaken c hc) hcommit
        have htree : treeOf reader c = (parseCommit obj.bytes).tree := by rw [treeOf, hobj]
        obtain ⟨q, hq, x, hx, hoid, hmode⟩ := special_of_visited hs hvisited (htree ▸ he) hspecial
        obtain ⟨p, hp, rfl⟩ := mem_map.mp hq
        exact ⟨p, ⟨obj, hobj, htype, hp⟩, x, hx, hoid, hmode⟩

/-! ### A sample -/

/-- The bytes of an id. -/
def sampleOid (hex : String) : List UInt8 := (hexDecode hex).getD []

/-- The ids of a file and of two commits. -/
def oneBlob : String := "5626abf0f72e58d7a153368ba57db4c673c0e171"

@[inherit_doc oneBlob]
def firstCommit : String := "454cb842bf3ee914d0249e454428f7d4dc809d38"

@[inherit_doc oneBlob]
def laterCommit : String := "a4cd5bbb2e8b7aff46d2f9a33a4f93aa8052cd8e"

/-- Two commits, the second one dated before the first. -/
def sampleObjects : List (String × GitObject) :=
  [(oneBlob, ⟨.blob, utf8 "one\n"⟩),
    ("f719efd430d52bcfc8566a43b2eb655688d38871", ⟨.blob, utf8 "two\n"⟩),
    ("b1ea253509c6004817f83cd7659ab4e6c38b2981",
      ⟨.tree, utf8 "100644 a\x00" ++ sampleOid oneBlob⟩),
    ("280bd343acd3b99e6f369110283329b8c3c5be24",
      ⟨.tree, utf8 "100644 a\x00" ++ sampleOid oneBlob ++
        utf8 "100644 b\x00" ++ sampleOid "f719efd430d52bcfc8566a43b2eb655688d38871"⟩),
    (firstCommit,
      ⟨.commit, utf8 ("tree b1ea253509c6004817f83cd7659ab4e6c38b2981\nauthor A <a> 9 +0000\n" ++
        "committer A <a> 9 +0000\n\n1\n")⟩),
    (laterCommit,
      ⟨.commit, utf8 ("tree 280bd343acd3b99e6f369110283329b8c3c5be24\n" ++
        "parent 454cb842bf3ee914d0249e454428f7d4dc809d38\nauthor A <a> 9 +0000\n" ++
        "committer A <a> 8 +0000\n\n2\n")⟩)]

def sampleReader : ObjectReader := fun oid => okOr (sampleObjects.lookup oid) (.unread "not found")

/-- The ids of the sample objects. -/
def sampleGitOid (obj : GitObject) : String := ((sampleObjects.find? fun e => e.2 = obj).map Prod.fst).getD ""

theorem mem_sampleObjects (h : sampleReader oid = .ok obj) : (oid, obj) ∈ sampleObjects := by
  obtain ⟨l₁, l₂, heq, -⟩ := lookup_eq_some_iff.mp (okOr_eq_ok.mp h)
  exact heq ▸ mem_append_right _ mem_cons_self

theorem sampleGitOid_eq : ∀ e ∈ sampleObjects, sampleGitOid e.2 = e.1 := by decide +kernel

theorem parents_sampleObjects : ∀ e ∈ sampleObjects, e.2.type = .commit →
    ∀ p ∈ (parseCommit e.2.bytes).parents, e.1 = laterCommit ∧
      p = firstCommit := by decide +kernel

theorem parent_sampleReader (h : Parent sampleReader c p) :
    c = laterCommit ∧ p = firstCommit := by
  obtain ⟨obj, hread, htype, hp⟩ := h
  exact parents_sampleObjects (c, obj) (mem_sampleObjects hread) htype p hp

theorem pack_complete_sample :
    ∃ objects, objectsToPack sampleReader treeVisitCap [laterCommit] = .ok objects ∧
      ∀ y, Holds sampleReader laterCommit y →
        (∃ obj ∈ objects, sampleReader y = .ok obj) ∨
        ∃ h ∈ [firstCommit], h ≠ "" ∧ Holds sampleReader h y := by
  have hfinite : {c | IsCommit sampleReader c}.Finite := by
    refine (sampleObjects.map Prod.fst).finite_toSet.subset fun c hc => ?_
    obtain ⟨obj, hread, -⟩ := hc
    exact mem_map.mpr ⟨(c, obj), mem_sampleObjects hread, rfl⟩
  have hacyclic (c : String) : ¬Relation.TransGen (Parent sampleReader) c c := by
    intro h
    -- The last step ends in the first commit, which has no parents.
    obtain ⟨b, hb, hlast⟩ := Relation.TransGen.tail'_iff.mp h
    obtain ⟨d, hfirst, -⟩ := Relation.TransGen.head'_iff.mp h
    exact absurd ((parent_sampleReader hfirst).1.symm.trans (parent_sampleReader hlast).2) (by decide)
  have hspec := pack_complete walkCommitCap treeVisitCap laterCommit
    [firstCommit] sampleGitOid
    (fun oid obj h => sampleGitOid_eq (oid, obj) (mem_sampleObjects h)) hfinite hacyclic
  have hpacks : ∃ objects, objectsToPack sampleReader treeVisitCap [laterCommit] = .ok objects := by
    have hok : (objectsToPack sampleReader treeVisitCap [laterCommit]).isOk = true := by
      decide +kernel
    cases h : objectsToPack sampleReader treeVisitCap [laterCommit] with
    | ok objects => exact ⟨objects, rfl⟩
    | error e => rw [h] at hok; cases hok
  obtain ⟨objects, hobjects⟩ := hpacks
  exact ⟨objects, hobjects, ((hspec.2 _ (by decide +kernel)).2.2 objects hobjects).2.1⟩

end DashForge.Git
