import DashForge.Merge.MergeTreesSound

/-!
# The walk of a tree merge

A walk of three trees that ends without a conflict derives their merge (`mergeWalk_merges`).
-/

namespace DashForge.Git

open Merge (merge3 merge3MaxBytes)
open List Option Except

variable {env : MergeEnv} {walk : Option String → String → String → String → Bool → Except GitError WalkOut}
  {be oe te : List (String × Entry)} {above name : String} {attributes : Bool}

/-- What a walk ended with, as an entry. -/
def Walked.entry : Walked → Option Entry
  | tree oid => some (treeEntry oid)
  | empty => none
  | conflict => none

/-! ### Names -/

/-- Three trees that a walk may be given. -/
structure WalkInputs (env : MergeEnv) (b : Option String) (o t : String) : Prop where
  base : ∀ x ∈ b, Accepted env.reader x
  ours : Accepted env.reader o
  theirs : Accepted env.reader t

/-- Entries that may be merged. -/
def NameInputs (env : MergeEnv) (e : Option Entry) : Prop := ∀ x ∈ e, x.mode = modeTree → Accepted env.reader x.oid

/-- A walk without a conflict derives the merge. -/
def WalkMerges (env : MergeEnv) (walk : Option String → String → String → String → Bool →
    Except GitError WalkOut) : Prop :=
  ∀ b o t above attributes out, WalkInputs env b o t → walk b o t above attributes = .ok out → out.result ≠ .conflict →
    Merges env out.written (b.map treeEntry) (some (treeEntry o)) (some (treeEntry t)) out.result.entry

variable {x : Entry} {bb : Option Entry} {e : TreeEntry} {o t : String}

theorem eq_treeEntry (h : isTree x = true) : x = treeEntry x.oid := by
  cases x
  simp only [isTree, decide_eq_true_eq] at h
  rw [h, treeEntry]

theorem map_treeEntry (h : bb.all isTree = true) : (bb.map Entry.oid).map treeEntry = bb := by
  cases bb with
  | none => rfl
  | some x => exact congrArg some (eq_treeEntry h).symm

theorem mode_of_isTree (h : isTree x = true) : x.mode = modeTree := of_decide_eq_true h

theorem walkInputs_of_isTree {o t : Entry} (hb : NameInputs env bb) (ho : NameInputs env (some o))
    (ht : NameInputs env (some t)) (hot : isTree o = true) (htt : isTree t = true) (hbt : bb.all isTree = true) :
    WalkInputs env (bb.map Entry.oid) o.oid t.oid := by
  refine ⟨fun x hx => ?_, ho o rfl (mode_of_isTree hot), ht t rfl (mode_of_isTree htt)⟩
  obtain ⟨b, rfl, rfl⟩ := map_eq_some_iff.mp hx
  exact hb b rfl (mode_of_isTree hbt)

variable {m : Option Entry} {picks : List (String × Picked)} {out : WalkOut}

theorem mergeName_merges (hwalk : WalkMerges env walk) {p : Picked}
    (h : mergeName env walk be oe te above attributes name = .ok p) (hpick : p.pick = some m)
    (hb : NameInputs env (be.lookup name)) (ho : NameInputs env (oe.lookup name))
      (ht : NameInputs env (te.lookup name)) :
    Merges env p.written (be.lookup name) (oe.lookup name) (te.lookup name) m := by
  unfold mergeName at h
  dsimp only at h
  split at h
  · next heq =>
    obtain rfl := ok.inj h
    obtain rfl := some.inj hpick
    rw [heq]
    exact .ours _ _
  · next hours =>
    split at h
    · next heq =>
      obtain rfl := ok.inj h
      obtain rfl := some.inj hpick
      rw [heq]
      exact .theirs _ _
    · next htheirs =>
      split at h
      · next o t hoe hte =>
        split at h
        · next hdir =>
          -- Directories on both sides, and in the base if it is there.
          simp only [Bool.and_eq_true] at hdir
          obtain ⟨⟨hot, htt⟩, hbt⟩ := hdir
          obtain ⟨sub, hsub, h⟩ := bind_eq_ok.mp h
          have hmerges (hne : sub.result ≠ .conflict) : Merges env sub.written (be.lookup name)
              (some o) (some t) sub.result.entry := by
            have hm := hwalk _ _ _ _ _ _ (walkInputs_of_isTree hb (hoe ▸ ho) (hte ▸ ht) hot htt hbt) hsub hne
            rwa [map_treeEntry hbt, ← eq_treeEntry hot, ← eq_treeEntry htt] at hm
          rw [hoe, hte]
          cases hresult : sub.result with
          | conflict =>
            rw [hresult] at h
            obtain rfl := ok.inj h
            cases hpick
          | empty =>
            rw [hresult] at h hmerges
            obtain rfl := ok.inj h
            obtain rfl := some.inj hpick
            exact hmerges nofun
          | tree oid =>
            rw [hresult] at h hmerges
            obtain rfl := ok.inj h
            obtain rfl := some.inj hpick
            exact hmerges nofun
        · split at h
          · next b hbb =>
            split at h
            · obtain rfl := ok.inj h
              cases hpick
            · next hno =>
              simp only [Bool.or_eq_true, not_or, Bool.not_eq_true] at hno
              obtain ⟨file?, hfile, h⟩ := bind_eq_ok.mp h
              split at h
              · next file written =>
                obtain rfl := ok.inj h
                obtain rfl := some.inj hpick
                rw [hoe, hbb] at hours
                rw [hte, hbb] at htheirs
                rw [hbb, hoe, hte]
                rcases mergeFile_eq_some hfile with ⟨rfl, rfl, -⟩ | ⟨hbr, hor, htr, hne, hfile, hstored⟩
                · exact .sameFile _ _ (by simpa [isTree] using hno.1.2)
                · exact .file _ _ _ _ hbr hor htr (fun heq => hours (congrArg some heq))
                    (fun heq => htheirs (congrArg some heq))
                    hne hfile hstored
              · obtain rfl := ok.inj h
                cases hpick
          · obtain rfl := ok.inj h
            cases hpick
      · obtain rfl := ok.inj h
        cases hpick

/-! ### Directories -/

theorem mem_pickedEntries : e ∈ pickedEntries picks ↔ ∃ p ∈ picks, p.1 = e.name ∧ p.2.pick = some (some e.entry) := by
  simp only [pickedEntries, mem_filterMap, map_eq_some_iff, join_eq_some_iff]
  constructor
  · rintro ⟨p, hp, x, hx, rfl⟩
    exact ⟨p, hp, rfl, hx⟩
  · rintro ⟨p, hp, hname, hpick⟩
    exact ⟨p, hp, e.entry, hpick, by rw [hname]; rfl⟩

theorem nodup_pickedEntries (h : (picks.map Prod.fst).Nodup) : ((pickedEntries picks).map TreeEntry.name).Nodup := by
  refine List.Nodup.sublist ?_ h
  induction picks with
  | nil => simp [pickedEntries]
  | cons p picks ih =>
    have ih := ih (nodup_cons.mp h).2
    rw [pickedEntries, filterMap_cons]
    cases p.2.pick.join with
    | none => exact ih.cons _
    | some e => exact ih.cons_cons _

theorem entryNamed_pickedEntries (h : (picks.map Prod.fst).Nodup) {p : String × Picked}
    (hp : p ∈ picks) (hpick : p.2.pick = some m) : entryNamed (pickedEntries picks) p.1 = m := by
  rw [entryNamed_eq_iff (nodup_pickedEntries h)]
  intro x
  constructor
  · rintro ⟨e, he, hname, rfl⟩
    obtain ⟨q, hq, hqname, hqpick⟩ := mem_pickedEntries.mp he
    obtain rfl := inj_on_of_nodup_map h hq hp (hqname.trans hname)
    exact some.inj (hpick.symm.trans hqpick)
  · rintro rfl
    exact ⟨⟨x.mode, p.1, x.oid⟩, mem_pickedEntries.mpr ⟨p, hp, rfl, hpick⟩, rfl, rfl⟩

theorem entryNamed_eq_none (h : name ∉ picks.map Prod.fst) : entryNamed (pickedEntries picks) name = none := by
  rw [entryNamed, map_eq_none_iff, find?_eq_none]
  intro e he heq
  obtain ⟨q, hq, hqname, -⟩ := mem_pickedEntries.mp he
  exact h (mem_map.mpr ⟨q, hq, hqname.trans (of_decide_eq_true heq)⟩)

theorem finishWalk_cases (h : finishWalk env picks = .ok out) (hne : out.result ≠ .conflict) :
    (∀ p ∈ picks, ∃ m, p.2.pick = some m) ∧ (∀ p ∈ picks, p.2.written ⊆ out.written) ∧
    ((out.result = .empty ∧ pickedEntries picks = [] ∧ out.written = picks.flatMap fun p => p.2.written) ∨
      ∃ bytes, out.result = .tree (gitOidHex env.sha1 ⟨.tree, bytes⟩) ∧
        out.written = (picks.flatMap fun p => p.2.written) ++ [⟨.tree, bytes⟩] ∧
        checkTree (gitOidHex env.sha1 ⟨.tree, bytes⟩) bytes = .ok () ∧
          serializeTree (pickedEntries picks) = some bytes ∧
        pickedEntries picks ≠ []) := by
  have hsub (p : String × Picked) (hp : p ∈ picks) : p.2.written ⊆ picks.flatMap fun p => p.2.written :=
    fun x hx => mem_flatMap.mpr ⟨p, hp, hx⟩
  unfold finishWalk at h
  dsimp only at h
  split at h
  · obtain rfl := ok.inj h
    exact absurd rfl hne
  · next hclean =>
    have hpicks (p : String × Picked) (hp : p ∈ picks) : ∃ m, p.2.pick = some m := by
      refine ne_none_iff_exists'.mp fun hnone => hclean (any_eq_true.mpr ⟨p, hp, ?_⟩)
      rw [hnone]
      rfl
    split at h
    · next hempty =>
      obtain rfl := ok.inj h
      exact ⟨hpicks, hsub, .inl ⟨rfl, hempty, rfl⟩⟩
    · next hnonempty =>
      obtain ⟨bytes, hbytes, h⟩ := bind_eq_ok.mp h
      obtain ⟨u, hcheck, h⟩ := bind_eq_ok.mp h
      obtain rfl := ok.inj h
      exact ⟨hpicks, fun p hp x hx => mem_append_left _ (hsub p hp hx),
        .inr ⟨bytes, rfl, rfl, hcheck, okOr_eq_ok.mp hbytes, hnonempty⟩⟩

theorem picks_of_mapM {f : String → Except GitError Picked} {names : List String}
    (h : (names.mapM fun name => (f name).map fun p => (name, p)) = .ok picks) :
    picks.map Prod.fst = names ∧ ∀ p ∈ picks, f p.1 = .ok p.2 := by
  have hof {name : String} {q : String × Picked} (hq : (f name).map (fun p => (name, p)) = .ok q) :
      q.1 = name ∧ f q.1 = .ok q.2 := by
    cases hf : f name with
    | error e => rw [hf] at hq; cases hq
    | ok p =>
      rw [hf] at hq
      obtain rfl := ok.inj hq
      exact ⟨rfl, hf⟩
  induction names generalizing picks with
  | nil =>
    obtain rfl := ok.inj h
    exact ⟨rfl, by simp⟩
  | cons name names ih =>
    rw [mapM_cons] at h
    obtain ⟨q, hq, h⟩ := bind_eq_ok.mp h
    obtain ⟨rest, hrest, h⟩ := bind_eq_ok.mp h
    obtain rfl := ok.inj h
    obtain ⟨hnames, hall⟩ := ih hrest
    refine ⟨by rw [map_cons, (hof hq).1, hnames], fun p hp => ?_⟩
    rcases mem_cons.mp hp with rfl | hp
    · exact (hof hq).2
    · exact hall p hp

/-! ### Entries that can be written -/

/-- An entry that may be written under a name. -/
def NamedOk (name : String) (e : Option Entry) : Prop := ∀ x ∈ e, EntryOk ⟨x.mode, name, x.oid⟩

theorem namedOk_of_accepted {x : String} (h : Accepted env.reader x) (name : String) :
    NamedOk name (entryNamed (entriesOf env.reader x) name) := by
  intro y hy
  obtain ⟨e, he, rfl, rfl⟩ := entryNamed_eq_some hy
  obtain ⟨obj, hread, htype, hcheck⟩ := h.checked x .refl
  rw [entriesOf, hread] at he
  simp only [htype, if_true] at he
  exact entryOk_of_mem hcheck he

theorem entryOk_regular (h : EntryOk e) (hx : isRegular x = true)
    (hid : ∃ bs, x.oid = hexEncode bs ∧ bs.length = 20 ∧ ∃ b ∈ bs, b ≠ 0) : EntryOk ⟨x.mode, e.name, x.oid⟩ := by
  have hmode : x.mode = modeFile ∨ x.mode = modeExecutable := by simpa [isRegular] using hx
  refine ⟨?_, h.nul, hid, h.length, h.legal, fun _ => hmode, fun hlink => ?_⟩
  · rcases hmode with hmode | hmode <;> simp [hmode, gitTreeModes]
  · rcases hmode with hmode | hmode <;> exact absurd (hmode.symm.trans hlink.1) (by decide)

theorem IdBytes.id (h : IdBytes env.sha1) (obj : GitObject) :
    ∃ bs, gitOidHex env.sha1 obj = hexEncode bs ∧ bs.length = 20 ∧ ∃ b ∈ bs, b ≠ 0 :=
  ⟨_, rfl, h.length _, h.notNull _⟩

theorem Merges.namedOk {W : List GitObject} {oo tt : Option Entry} (h : Merges env W bb oo tt m)
    (hid : IdBytes env.sha1)
    (ho : NamedOk name oo) (ht : NamedOk name tt) : NamedOk name m := by
  cases h with
  | ours => exact ht
  | theirs => exact ho
  | sameFile => exact ho
  | file b o t e hb hor htr hours htheirs hne h hstored =>
    intro x hx
    obtain rfl := mem_some_iff.mp hx
    have hoid : ∃ bs, e.oid = hexEncode bs ∧ bs.length = 20 ∧ ∃ b ∈ bs, b ≠ 0 := by
      cases h with
      | theirs => exact (ht t rfl).id
      | ours => exact (ho o rfl).id
      | lines => exact hid.id _
    exact entryOk_regular (ho o rfl) (h.isRegular hor htr) hoid
  | empty => exact fun x hx => by cases hx
  | tree b hb o t bytes hmem hcheck hne h =>
    intro x hx
    obtain rfl := mem_some_iff.mp hx
    obtain ⟨hmode, hnul, -, hlength, hlegal, hspecial, hlink⟩ := ho _ rfl
    exact ⟨hmode, hnul, hid.id _, hlength, hlegal, hspecial, hlink⟩

/-- What the names of a directory are merged to may be written. -/
theorem entryOk_pickedEntries (hid : IdBytes env.sha1) {bb : String → Option Entry}
    (ho : Accepted env.reader o) (ht : Accepted env.reader t)
    (hpicks : ∀ p ∈ picks, ∀ m, p.2.pick = some m → Merges env p.2.written (bb p.1)
      (entryNamed (entriesOf env.reader o) p.1) (entryNamed (entriesOf env.reader t) p.1) m) :
    ∀ e ∈ pickedEntries picks, EntryOk e := by
  intro e he
  obtain ⟨p, hp, hname, hpick⟩ := mem_pickedEntries.mp he
  have hok := (hpicks p hp _ hpick).namedOk hid (namedOk_of_accepted ho _) (namedOk_of_accepted ht _) e.entry rfl
  rw [hname] at hok
  exact hok

/-! ### The walk -/

theorem finishWalk_merges (hid : IdBytes env.sha1) {b : Option Entry} (hb : ∀ x ∈ b, x.mode = modeTree)
    (ho : Accepted env.reader o) (ht : Accepted env.reader t)
    (h : finishWalk env picks = .ok out) (hne : out.result ≠ .conflict) (hnodup : (picks.map Prod.fst).Nodup)
    (hnames : ∀ name, name ∉ picks.map Prod.fst → below env.reader b name = none ∧
      entryNamed (entriesOf env.reader o) name = none ∧ entryNamed (entriesOf env.reader t) name = none)
    (hpicks : ∀ p ∈ picks, ∀ m, p.2.pick = some m → Merges env p.2.written (below env.reader b p.1)
      (entryNamed (entriesOf env.reader o) p.1) (entryNamed (entriesOf env.reader t) p.1) m) :
    Merges env out.written b (some (treeEntry o)) (some (treeEntry t)) out.result.entry := by
  obtain ⟨hall, hsub, hcases⟩ := finishWalk_cases h hne
  have hmerges (name : String) : Merges env out.written (below env.reader b name)
    (entryNamed (entriesOf env.reader o) name)
      (entryNamed (entriesOf env.reader t) name) (entryNamed (pickedEntries picks) name) := by
    by_cases hname : name ∈ picks.map Prod.fst
    · obtain ⟨p, hp, rfl⟩ := mem_map.mp hname
      obtain ⟨m, hm⟩ := hall p hp
      rw [entryNamed_pickedEntries hnodup hp hm]
      exact (hpicks p hp m hm).mono (hsub p hp)
    · obtain ⟨hbn, hon, htn⟩ := hnames name hname
      rw [hbn, hon, htn, entryNamed_eq_none hname]
      exact .ours none none
  rcases hcases with ⟨hempty, hnil, -⟩ | ⟨bytes, htree, hwritten, hcheck, hbytes, hnonempty⟩
  · rw [hempty]
    refine .empty b hb o t fun name => ?_
    have := hmerges name
    rwa [hnil] at this
  · obtain ⟨bytes', hbytes', -, hparse⟩ := checkTree_serializeTree (entryOk_pickedEntries hid ho ht hpicks)
      (nodup_pickedEntries hnodup) (gitOidHex env.sha1 ⟨.tree, bytes⟩)
    obtain rfl := some.inj (hbytes.symm.trans hbytes')
    have hperm : (parseTree bytes).Perm (pickedEntries picks) := hparse ▸ perm_sortByKey TreeEntry.key _
    have hread (name : String) : entryNamed (parseTree bytes) name = entryNamed (pickedEntries picks) name := by
      rw [entryNamed_eq_iff ((hperm.map _).nodup_iff.mpr (nodup_pickedEntries hnodup))]
      simp only [hperm.mem_iff]
      exact (entryNamed_eq_iff (nodup_pickedEntries hnodup)).mp rfl
    rw [htree]
    refine .tree b hb o t bytes (by rw [hwritten]; simp) hcheck ?_ fun name => hread name ▸ hmerges name
    rintro hnil
    exact hnonempty (nil_perm.mp (hnil ▸ hperm))

/-- Three directories as they are read. -/
structure WalkReads (env : MergeEnv) (b : Option String) (o t : String) (be oe te : List (String × Entry)) : Prop where
  base : entries env b = .ok be
  ours : entries env (some o) = .ok oe
  theirs : entries env (some t) = .ok te

section WalkReads

variable {b : Option String} {o t : String} (hread : WalkReads env b o t be oe te) (hin : WalkInputs env b o t)

include hread hin

/-- A name's entries are those of the trees. -/
theorem WalkReads.lookup (name : String) : be.lookup name = below env.reader (b.map treeEntry) name ∧
    oe.lookup name = entryNamed (entriesOf env.reader o) name ∧
        te.lookup name = entryNamed (entriesOf env.reader t) name := by
  have ho := (entries_eq_ok hread.ours (by simpa using hin.ours)).1 name
  have ht := (entries_eq_ok hread.theirs (by simpa using hin.theirs)).1 name
  rw [map_some, below_treeEntry] at ho ht
  exact ⟨(entries_eq_ok hread.base hin.base).1 name, ho, ht⟩

theorem WalkReads.lookup_eq_none (hname : name ∉ namesOf be oe te) :
    be.lookup name = none ∧ oe.lookup name = none ∧ te.lookup name = none := by
  rw [mem_namesOf, (entries_eq_ok hread.base hin.base).2.2, (entries_eq_ok hread.ours (by simpa using hin.ours)).2.2,
    (entries_eq_ok hread.theirs (by simpa using hin.theirs)).2.2] at hname
  push Not at hname
  exact hname

theorem WalkReads.nameInputs (name : String) :
    NameInputs env (be.lookup name) ∧ NameInputs env (oe.lookup name) ∧ NameInputs env (te.lookup name) := by
  obtain ⟨hbl, hol, htl⟩ := hread.lookup hin name
  have hbelow (x : Entry) (hx : x ∈ b.map treeEntry) (_ : x.mode = modeTree) : Accepted env.reader x.oid := by
    obtain ⟨y, hy, rfl⟩ := map_eq_some_iff.mp hx
    exact hin.base y hy
  rw [hbl, hol, htl]
  exact ⟨accepted_below hbelow, (hin.ours.goodEntry name).accepted, (hin.theirs.goodEntry name).accepted⟩

theorem WalkReads.picks_merge (hwalk : WalkMerges env walk)
    (hpicks : ∀ p ∈ picks, mergeName env walk be oe te above attributes p.1 = .ok p.2) :
    ∀ p ∈ picks, ∀ m, p.2.pick = some m → Merges env p.2.written (below env.reader (b.map treeEntry) p.1)
      (entryNamed (entriesOf env.reader o) p.1) (entryNamed (entriesOf env.reader t) p.1) m := by
  intro p hp m hm
  obtain ⟨hb, ho, ht⟩ := hread.nameInputs hin p.1
  obtain ⟨hbl, hol, htl⟩ := hread.lookup hin p.1
  rw [← hbl, ← hol, ← htl]
  exact mergeName_merges hwalk (hpicks p hp) hm hb ho ht

end WalkReads

/-- What a walk ends with: a side as it is, a conflict of the whole directory, or what its names are merged to. -/
theorem mergeWalk_cases {levels : ℕ} {b : Option String} (h : mergeWalk env levels b o t above attributes = .ok out) :
    (b = some o ∧ out = { result := .tree t }) ∨ (b ≠ some o ∧ b = some t ∧ out = { result := .tree o }) ∨
    (b ≠ some o ∧ b ≠ some t ∧ o = t ∧ out = { result := .conflict, conflicts := [conflictPath above] }) ∨
    (b ≠ some o ∧ b ≠ some t ∧ o ≠ t ∧ ∃ n be oe te, levels = n + 1 ∧ WalkReads env b o t be oe te ∧
      ((oe = [] ∨ te = []) ∧ out = { result := .conflict, conflicts := [conflictPath above] } ∨
        ¬(oe = [] ∨ te = []) ∧ ∃ picks, picks.map Prod.fst = namesOf be oe te ∧
          (∀ p ∈ picks,
            mergeName env (mergeWalk env n) be oe te above (attributes || hasAttributes be oe te) p.1 = .ok p.2) ∧
          finishWalk env picks = .ok out)) := by
  rw [mergeWalk.eq_def] at h
  dsimp only at h
  split at h
  · next heq => exact .inl ⟨heq, (ok.inj h).symm⟩
  · next hours =>
    split at h
    · next heq => exact .inr (.inl ⟨hours, heq, (ok.inj h).symm⟩)
    · next htheirs =>
      split at h
      · next heq => exact .inr (.inr (.inl ⟨hours, htheirs, heq, (ok.inj h).symm⟩))
      · next hne =>
        refine .inr (.inr (.inr ⟨hours, htheirs, hne, ?_⟩))
        split at h
        · cases h
        · next n =>
          obtain ⟨be, hbe, h⟩ := bind_eq_ok.mp h
          obtain ⟨oe, hoe, h⟩ := bind_eq_ok.mp h
          obtain ⟨te, hte, h⟩ := bind_eq_ok.mp h
          refine ⟨n, be, oe, te, rfl, ⟨hbe, hoe, hte⟩, ?_⟩
          split at h
          · next hempty => exact .inl ⟨hempty, (ok.inj h).symm⟩
          · next hnonempty =>
            obtain ⟨picks, hpicks, h⟩ := bind_eq_ok.mp h
            obtain ⟨hnames, hmerge⟩ := picks_of_mapM hpicks
            exact .inr ⟨hnonempty, picks, hnames, hmerge, h⟩

/-- A walk that ends without a conflict derives the merge: by induction on the levels. -/
theorem mergeWalk_merges (hid : IdBytes env.sha1) (levels : ℕ) : WalkMerges env (mergeWalk env levels) := by
  induction levels using Nat.strong_induction_on with
  | h levels ih =>
    intro b o t above attributes out hin h hne
    rcases mergeWalk_cases h with ⟨rfl, rfl⟩ | ⟨-, rfl, rfl⟩ | ⟨-, -, -, rfl⟩ | ⟨-, -, -, n, be, oe,
      te, rfl, hread, hcases⟩
    · exact .ours _ _
    · exact .theirs _ _
    · exact absurd rfl hne
    · rcases hcases with ⟨-, rfl⟩ | ⟨-, picks, hnames, hmerge, hfinish⟩
      · exact absurd rfl hne
      · have hbase (x : Entry) (hx : x ∈ b.map treeEntry) : x.mode = modeTree := by
          obtain ⟨y, -, rfl⟩ := map_eq_some_iff.mp hx
          rfl
        refine finishWalk_merges hid hbase hin.ours hin.theirs hfinish hne (hnames ▸ nodup_namesOf be oe te)
          (fun name hname => ?_) (hread.picks_merge hin (ih n (Nat.lt_succ_self n)) hmerge)
        obtain ⟨hbl, hol, htl⟩ := hread.lookup hin name
        rw [← hbl, ← hol, ← htl]
        exact hread.lookup_eq_none hin (hnames ▸ hname)

end DashForge.Git
