import DashForge.Merge.MergeTrees

/-!
# Tree merges, path by path

The merge of three entries of a name as a relation (`Merges`): kept from a side, a merged file, or a directory whose
names all merge. A walk that ends without a conflict derives it, and by rule induction the merged tree is the
path-by-path merge of the flattened trees (`Merges.flat`), its trees pass the checks and none below it is empty.
-/

namespace DashForge.Git

open Merge (merge3 merge3MaxBytes)
open List Relation Except

variable {env : MergeEnv} {reader : ObjectReader} {W : List GitObject} {bb oo tt m : Option Entry} {name : String}
  {path : List String}

/-! ### Flat trees -/

def TreeEntry.entry (e : TreeEntry) : Entry := { mode := e.mode, oid := e.oid }

/-- A directory. -/
def treeEntry (oid : String) : Entry := { mode := modeTree, oid }

/-- The entry of a name among others. -/
def entryNamed (entries : List TreeEntry) (name : String) : Option Entry :=
  (entries.find? fun e => e.name = name).map TreeEntry.entry

/-- The entry of a name in what may be a directory. -/
def below (reader : ObjectReader) (e : Option Entry) (name : String) : Option Entry :=
  e.bind fun e => if e.mode = modeTree then entryNamed (entriesOf reader e.oid) name else none

/-- What is at a path: an entry that is no directory. -/
def flat (reader : ObjectReader) : Option Entry → List String → Option Entry
  | e, [] => e.filter fun e => e.mode ≠ modeTree
  | e, name :: path => flat reader (below reader e name) path

variable {e b o t : Entry} {x y oid z : String} {obj : GitObject} {bytes : List UInt8}

theorem below_of_not_tree (h : e.mode ≠ modeTree) : below reader (some e) name = none := if_neg h

@[simp]
theorem below_treeEntry (oid : String) :
    below reader (some (treeEntry oid)) name = entryNamed (entriesOf reader oid) name := by
  simp [below, treeEntry]

@[simp]
theorem flat_none : flat reader none path = none := by
  induction path with
  | nil => rfl
  | cons name path ih => exact ih

theorem flat_cons (reader : ObjectReader) (e : Option Entry) (name : String) (path : List String) :
    flat reader e (name :: path) = flat reader (below reader e name) path := rfl

/-! ### Accepted trees -/

/-- `y` is a directory of the tree `x`. -/
def SubTree (reader : ObjectReader) (x y : String) : Prop := ∃ e ∈ entriesOf reader x, e.mode = modeTree ∧ e.oid = y

/-- A tree that passes the checks at every level, without an empty directory. -/
structure Accepted (reader : ObjectReader) (root : String) : Prop where
  checked : ∀ y, ReflTransGen (SubTree reader) root y → Checked reader y
  nonempty : ∀ y, TransGen (SubTree reader) root y → entriesOf reader y ≠ []

theorem Accepted.sub (h : Accepted reader x) (hy : SubTree reader x y) : Accepted reader y where
  checked z hz := h.checked z (.head hy hz)
  nonempty z hz := h.nonempty z (.head hy hz)

/-- A directory below another one, with something in it. -/
def GoodEntry (reader : ObjectReader) (e : Option Entry) : Prop :=
  ∀ x ∈ e, x.mode = modeTree → Accepted reader x.oid ∧ entriesOf reader x.oid ≠ []

theorem entryNamed_eq_some {entries : List TreeEntry} {x : Entry} (h : entryNamed entries name = some x) :
    ∃ e ∈ entries, e.name = name ∧ e.entry = x := by
  obtain ⟨e, he, rfl⟩ := Option.map_eq_some_iff.mp h
  exact ⟨e, mem_of_find?_eq_some he, by simpa using find?_some he, rfl⟩

theorem Accepted.goodEntry (h : Accepted reader x) (name : String) :
    GoodEntry reader (entryNamed (entriesOf reader x) name) := by
  intro y hy hmode
  obtain ⟨e, he, -, rfl⟩ := entryNamed_eq_some hy
  have hsub : SubTree reader x e.oid := ⟨e, he, hmode, rfl⟩
  exact ⟨h.sub hsub, h.nonempty _ (.single hsub)⟩

theorem GoodEntry.accepted {e : Option Entry} (h : GoodEntry reader e) :
    ∀ x ∈ e, x.mode = modeTree → Accepted reader x.oid :=
  fun x hx hmode => (h x hx hmode).1

theorem accepted_below {e : Option Entry} (h : ∀ x ∈ e, x.mode = modeTree → Accepted reader x.oid) :
    ∀ x ∈ below reader e name, x.mode = modeTree → Accepted reader x.oid := by
  cases e with
  | none => exact fun x hx => by cases hx
  | some y =>
    by_cases hy : y.mode = modeTree
    · simp only [below, Option.bind_some, if_pos hy]
      exact ((h y rfl hy).goodEntry name).accepted
    · rw [below_of_not_tree hy]
      exact fun x hx => by cases hx

/-- A name among names that are distinct. -/
theorem entryNamed_of_mem {entries : List TreeEntry} (hnodup : (entries.map TreeEntry.name).Nodup) {e : TreeEntry}
    (he : e ∈ entries) : entryNamed entries e.name = some e.entry := by
  cases hfind : entries.find? fun x => x.name = e.name with
  | none => exact absurd (find?_eq_none.mp hfind e he) (by simp)
  | some x =>
    have hname : x.name = e.name := by simpa using find?_some hfind
    have heq := inj_on_of_nodup_map hnodup (mem_of_find?_eq_some hfind) he hname
    rw [entryNamed, hfind, heq]
    rfl

theorem goodEntry_none : GoodEntry reader none := by
  intro x hx
  cases hx

/-! ### What was written -/

/-- The objects of the inputs and what was written. -/
def after (env : MergeEnv) (W : List GitObject) : ObjectReader := fun oid =>
  match W.find? fun obj => gitOidHex env.sha1 obj = oid with
  | some obj => .ok obj
  | none => env.reader oid

/-- Objects are read by their ids, and what was written has no id of another one. -/
structure CollisionFree (env : MergeEnv) (W : List GitObject) : Prop where
  read : ∀ oid obj, env.reader oid = .ok obj → gitOidHex env.sha1 obj = oid
  free : ∀ x ∈ W, ∀ y, y ∈ W ∨ (∃ oid, env.reader oid = .ok y) → gitOidHex env.sha1 x = gitOidHex env.sha1 y → x = y

variable (h : CollisionFree env W)

include h in
theorem CollisionFree.after_of_mem (hobj : obj ∈ W) :
    after env W (gitOidHex env.sha1 obj) = .ok obj := by
  unfold after
  split
  · next obj' hfind =>
    have hoid : gitOidHex env.sha1 obj' = gitOidHex env.sha1 obj := by simpa using find?_some hfind
    rw [h.free obj hobj obj' (.inl (mem_of_find?_eq_some hfind)) hoid.symm]
  · next hnone =>
    have hnot := find?_eq_none.mp hnone obj hobj
    simp at hnot

include h in
theorem CollisionFree.after_of_read (hread : env.reader oid = .ok obj) : after env W oid = .ok obj := by
  unfold after
  split
  · next obj' hfind =>
    have hoid : gitOidHex env.sha1 obj' = oid := by simpa using find?_some hfind
    rw [h.free obj' (mem_of_find?_eq_some hfind) obj (.inr ⟨oid, hread⟩) (hoid.trans (h.read oid obj hread).symm)]
  · exact hread

include h in
theorem CollisionFree.entriesOf_after (hchecked : Checked env.reader oid) :
    entriesOf (after env W) oid = entriesOf env.reader oid := by
  obtain ⟨obj, hread, -⟩ := hchecked
  rw [entriesOf, entriesOf, h.after_of_read hread, hread]

include h in
theorem CollisionFree.entriesOf_written (hmem : ⟨.tree, bytes⟩ ∈ W) :
    entriesOf (after env W) (gitOidHex env.sha1 ⟨.tree, bytes⟩) = parseTree bytes := by
  rw [entriesOf, h.after_of_mem hmem]
  rfl

include h in
theorem CollisionFree.checked_after (hchecked : Checked env.reader oid) :
    Checked (after env W) oid := by
  obtain ⟨obj, hread, hrest⟩ := hchecked
  exact ⟨obj, h.after_of_read hread, hrest⟩

include h in
theorem CollisionFree.accepted_after (hx : Accepted env.reader x) :
    Accepted (after env W) x := by
  have hstep {a b : String} (ha : ReflTransGen (SubTree env.reader) x a) (hab : SubTree (after env W) a b) :
      SubTree env.reader a b := by
    obtain ⟨e, he, hmode, hoid⟩ := hab
    exact ⟨e, h.entriesOf_after (hx.checked a ha) ▸ he, hmode, hoid⟩
  have hreach {y : String} (hy : ReflTransGen (SubTree (after env W)) x y) :
      ReflTransGen (SubTree env.reader) x y := by
    induction hy with
    | refl => exact .refl
    | tail _ hbc ih => exact ih.tail (hstep ih hbc)
  refine ⟨fun y hy => h.checked_after (hx.checked y (hreach hy)), fun y hy => ?_⟩
  obtain ⟨a, ha, hay⟩ := TransGen.tail'_iff.mp hy
  have hreached := (hreach ha).tail (hstep (hreach ha) hay)
  rw [h.entriesOf_after (hx.checked y hreached)]
  exact hx.nonempty y (TransGen.tail' (hreach ha) (hstep (hreach ha) hay))

include h in
theorem CollisionFree.goodEntry_after {e : Option Entry} (he : GoodEntry env.reader e) :
    GoodEntry (after env W) e := by
  intro x hx hmode
  obtain ⟨haccepted, hne⟩ := he x hx hmode
  refine ⟨h.accepted_after haccepted, ?_⟩
  rw [h.entriesOf_after (haccepted.checked _ .refl)]
  exact hne

include h in
theorem CollisionFree.flat_after {e : Option Entry} (he : ∀ x ∈ e, x.mode = modeTree → Accepted env.reader x.oid) :
    flat (after env W) e path = flat env.reader e path := by
  induction path generalizing e with
  | nil => rfl
  | cons name path ih =>
    have hbelow : below (after env W) e name = below env.reader e name := by
      cases e with
      | none => rfl
      | some x =>
        by_cases hmode : x.mode = modeTree
        · simp [below, if_pos hmode, h.entriesOf_after ((he x rfl hmode).checked _ .refl)]
        · rw [below_of_not_tree hmode, below_of_not_tree hmode]
    rw [flat_cons, flat_cons, hbelow]
    refine ih fun x hx hmode => ?_
    cases e with
    | none => cases hx
    | some y =>
      by_cases hy : y.mode = modeTree
      · simp only [below, Option.bind_some, if_pos hy] at hx
        exact ((he y rfl hy).goodEntry name x hx hmode).1
      · rw [below_of_not_tree hy] at hx
        cases hx

/-! ### Merged entries -/

/-- The mode of a file that both sides changed. -/
def mergedMode (b o t : ℕ) : ℕ := if o = t ∨ o = b then t else o

/-- What a file that both sides changed differently is merged to: the only changed contents, or the merge of its lines. -/
inductive MergesFile (env : MergeEnv) (b o t : Entry) : Entry → Prop
  | theirs (h : o.oid = t.oid ∨ o.oid = b.oid) : MergesFile env b o t ⟨mergedMode b.mode o.mode t.mode, t.oid⟩
  | ours (h : t.oid = b.oid) : MergesFile env b o t ⟨mergedMode b.mode o.mode t.mode, o.oid⟩
  | lines (base ours theirs bytes : List UInt8) (hbase : env.reader b.oid = .ok ⟨.blob, base⟩)
      (hours : env.reader o.oid = .ok ⟨.blob, ours⟩) (htheirs : env.reader t.oid = .ok ⟨.blob, theirs⟩)
      (h : merge3 env.diffChanges base ours theirs = .clean bytes) :
      MergesFile env b o t ⟨mergedMode b.mode o.mode t.mode, gitOidHex env.sha1 ⟨.blob, bytes⟩⟩

/-- The merge of three entries of a path, none of them a directory. -/
structure MergedAt (env : MergeEnv) (bb oo tt m : Option Entry) : Prop where
  ours : oo = bb → m = tt
  theirs : tt = bb → m = oo
  same : oo = tt → m = oo
  file : oo ≠ bb → tt ≠ bb → oo ≠ tt → ∃ b o t e, bb = some b ∧ oo = some o ∧ tt = some t ∧ m = some e ∧
    isRegular b = true ∧ isRegular o = true ∧ isRegular t = true ∧ MergesFile env b o t e

/-- The merge of three entries of a name, whatever they are; `W` is what was written. -/
inductive Merges (env : MergeEnv) (W : List GitObject) : Option Entry → Option Entry → Option Entry →
    Option Entry → Prop
  | ours (b t : Option Entry) : Merges env W b b t t
  | theirs (b o : Option Entry) : Merges env W b o b o
  | sameFile (b : Option Entry) (e : Entry) (hmode : e.mode ≠ modeTree) : Merges env W b (some e) (some e) (some e)
  | file (b o t e : Entry) (hb : isRegular b = true) (ho : isRegular o = true) (ht : isRegular t = true)
      (hours : o ≠ b) (htheirs : t ≠ b) (hne : o ≠ t) (h : MergesFile env b o t e)
      (hstored : e.oid = o.oid ∨ e.oid = t.oid ∨ ∃ obj ∈ W, gitOidHex env.sha1 obj = e.oid) :
      Merges env W (some b) (some o) (some t) (some e)
  | empty (b : Option Entry) (hb : ∀ x ∈ b, x.mode = modeTree) (o t : String)
      (h : ∀ name, Merges env W (below env.reader b name) (entryNamed (entriesOf env.reader o) name)
        (entryNamed (entriesOf env.reader t) name) none) :
      Merges env W b (some (treeEntry o)) (some (treeEntry t)) none
  | tree (b : Option Entry) (hb : ∀ x ∈ b, x.mode = modeTree) (o t : String) (bytes : List UInt8)
      (hmem : ⟨.tree, bytes⟩ ∈ W) (hcheck : checkTree (gitOidHex env.sha1 ⟨.tree, bytes⟩) bytes = .ok ())
      (hne : parseTree bytes ≠ [])
      (h : ∀ name, Merges env W (below env.reader b name) (entryNamed (entriesOf env.reader o) name)
        (entryNamed (entriesOf env.reader t) name) (entryNamed (parseTree bytes) name)) :
      Merges env W b (some (treeEntry o)) (some (treeEntry t)) (some (treeEntry (gitOidHex env.sha1 ⟨.tree, bytes⟩)))

theorem Merges.mono {W' : List GitObject} (h : Merges env W bb oo tt m) (hsub : W ⊆ W') : Merges env W' bb oo tt m := by
  induction h with
  | ours b t => exact .ours b t
  | theirs b o => exact .theirs b o
  | sameFile b e hmode => exact .sameFile b e hmode
  | file b o t e hb ho ht hours htheirs hne h hstored =>
    exact .file b o t e hb ho ht hours htheirs hne h
      (hstored.imp_right fun h => h.imp_right fun ⟨obj, hobj, hoid⟩ => ⟨obj, hsub hobj, hoid⟩)
  | empty b hb o t _ ih => exact .empty b hb o t ih
  | tree b hb o t bytes hmem hcheck hne _ ih => exact .tree b hb o t bytes (hsub hmem) hcheck hne ih

theorem isRegular_ne_tree (h : isRegular e = true) : e.mode ≠ modeTree := by
  intro heq
  simp [isRegular, heq] at h

theorem isRegular_ne_gitlink (h : isRegular e = true) : e.mode ≠ modeGitlink := by
  intro heq
  simp [isRegular, heq] at h

/-- A regular mode stays one. -/
theorem MergesFile.isRegular (h : MergesFile env b o t e) (ho : isRegular o = true)
    (ht : isRegular t = true) : isRegular e = true := by
  have hmode : Git.isRegular ⟨mergedMode b.mode o.mode t.mode, ""⟩ = true := by
    simp only [mergedMode]
    split
    · exact ht
    · exact ho
  cases h <;> exact hmode

theorem mergedAt_ours (b t : Option Entry) : MergedAt env b b t t :=
  ⟨fun _ => rfl, fun h => h, fun h => h.symm, fun h => absurd rfl h⟩

theorem mergedAt_theirs (b o : Option Entry) : MergedAt env b o b o :=
  ⟨fun h => h, fun _ => rfl, fun _ => rfl, fun _ h => absurd rfl h⟩

theorem mergedAt_none : MergedAt env none none none none := mergedAt_ours none none

theorem flat_of_not_tree (h : e.mode ≠ modeTree) (name : String) (path : List String) :
    flat reader (some e) (name :: path) = none := by
  rw [flat_cons, below_of_not_tree h, flat_none]

theorem flat_nil_of_not_tree (h : e.mode ≠ modeTree) : flat reader (some e) [] = some e := by
  simp [flat, h]

theorem flat_nil_of_tree {e : Option Entry} (h : ∀ x ∈ e, x.mode = modeTree) : flat reader e [] = none := by
  cases e with
  | none => rfl
  | some x => simp [flat, h x rfl]

theorem Merges.flat (hfree : CollisionFree env W) (h : Merges env W bb oo tt m)
    (hbb : ∀ x ∈ bb, x.mode = modeTree → Accepted env.reader x.oid)
    (hoo : ∀ x ∈ oo, x.mode = modeTree → Accepted env.reader x.oid)
    (htt : ∀ x ∈ tt, x.mode = modeTree → Accepted env.reader x.oid) (path : List String) :
    MergedAt env (flat env.reader bb path) (flat env.reader oo path) (flat env.reader tt path)
        (flat (after env W) m path) := by
  induction h generalizing path with
  | ours b t => rw [hfree.flat_after htt]; exact mergedAt_ours _ _
  | theirs b o => rw [hfree.flat_after hoo]; exact mergedAt_theirs _ _
  | sameFile b e hmode =>
    rw [hfree.flat_after hoo]
    exact ⟨fun _ => rfl, fun _ => rfl, fun _ => rfl, fun _ _ h => absurd rfl h⟩
  | file b o t e hb ho ht hours htheirs hne h hstored =>
    have he := h.isRegular ho ht
    cases path with
    | cons name path =>
      rw [flat_of_not_tree (isRegular_ne_tree hb), flat_of_not_tree (isRegular_ne_tree ho),
        flat_of_not_tree (isRegular_ne_tree ht), flat_of_not_tree (isRegular_ne_tree he)]
      exact mergedAt_none
    | nil =>
      rw [flat_nil_of_not_tree (isRegular_ne_tree hb), flat_nil_of_not_tree (isRegular_ne_tree ho),
        flat_nil_of_not_tree (isRegular_ne_tree ht), flat_nil_of_not_tree (isRegular_ne_tree he)]
      refine ⟨fun heq => absurd (Option.some.inj heq) hours, fun heq => absurd (Option.some.inj heq) htheirs,
        fun heq => absurd (Option.some.inj heq) hne, fun _ _ _ => ?_⟩
      exact ⟨b, o, t, e, rfl, rfl, rfl, rfl, hb, ho, ht, h⟩
  | empty b hb o t h ih =>
    cases path with
    | nil =>
      rw [flat_nil_of_tree hb, flat_nil_of_tree (by simp [treeEntry]), flat_nil_of_tree (by simp [treeEntry])]
      exact mergedAt_none
    | cons name path =>
      have hnone : Git.flat (after env W) none path = none := flat_none
      rw [flat_cons, flat_cons, flat_cons, flat_none, ← hnone, below_treeEntry, below_treeEntry]
      exact ih name (accepted_below hbb) ((hoo _ rfl rfl).goodEntry name).accepted
        ((htt _ rfl rfl).goodEntry name).accepted path
  | tree b hb o t bytes hmem hcheck hne h ih =>
    cases path with
    | nil =>
      rw [flat_nil_of_tree hb, flat_nil_of_tree (by simp [treeEntry]), flat_nil_of_tree (by simp [treeEntry]),
        flat_nil_of_tree (by simp [treeEntry])]
      exact mergedAt_none
    | cons name path =>
      rw [flat_cons, flat_cons, flat_cons, flat_cons, below_treeEntry, below_treeEntry, below_treeEntry,
        hfree.entriesOf_written hmem]
      exact ih name (accepted_below hbb) ((hoo _ rfl rfl).goodEntry name).accepted
        ((htt _ rfl rfl).goodEntry name).accepted path

/-! ### The merged tree -/

theorem Merges.accepted (hfree : CollisionFree env W) (h : Merges env W bb oo tt m)
    (hoo : ∀ x ∈ oo, x.mode = modeTree → Accepted env.reader x.oid)
    (htt : ∀ x ∈ tt, x.mode = modeTree → Accepted env.reader x.oid) :
    (∀ x ∈ m, x.mode = modeTree → Accepted (after env W) x.oid) ∧
    (GoodEntry env.reader oo → GoodEntry env.reader tt → GoodEntry (after env W) m) := by
  induction h with
  | ours b t => exact ⟨fun x hx hmode => hfree.accepted_after (htt x hx hmode), fun _ ht => hfree.goodEntry_after ht⟩
  | theirs b o => exact ⟨fun x hx hmode => hfree.accepted_after (hoo x hx hmode), fun ho _ => hfree.goodEntry_after ho⟩
  | sameFile b e hmode =>
    exact ⟨fun x hx hm => hfree.accepted_after (hoo x hx hm), fun ho _ => hfree.goodEntry_after ho⟩
  | file b o t e hb ho ht hours htheirs hne h hstored =>
    have hno (x : Entry) (hx : x ∈ some e) (hmode : x.mode = modeTree) : False := by
      obtain rfl := Option.mem_some_iff.mp hx
      exact isRegular_ne_tree (h.isRegular ho ht) hmode
    exact ⟨fun x hx hmode => (hno x hx hmode).elim, fun _ _ x hx hmode => (hno x hx hmode).elim⟩
  | empty b hb o t h ih => exact ⟨nofun, fun _ _ => goodEntry_none⟩
  | tree b hb o t bytes hmem hcheck hne h ih =>
    have hafter := hfree.after_of_mem hmem
    have hentries := hfree.entriesOf_written hmem
    have hgood (e : TreeEntry) (he : e ∈ parseTree bytes) : GoodEntry (after env W) (some e.entry) := by
      have hnamed : entryNamed (parseTree bytes) e.name = some e.entry :=
        entryNamed_of_mem (nodup_of_checkTree hcheck) he
      have ho := (hoo _ rfl rfl).goodEntry e.name
      have ht := (htt _ rfl rfl).goodEntry e.name
      exact hnamed ▸ (ih e.name ho.accepted ht.accepted).2 ho ht
    have hsub {y : String} (hy : SubTree (after env W) (gitOidHex env.sha1 ⟨.tree, bytes⟩) y) :
        Accepted (after env W) y ∧ entriesOf (after env W) y ≠ [] := by
      obtain ⟨e, he, hmode, rfl⟩ := hy
      exact hgood e (hentries ▸ he) e.entry rfl hmode
    have haccepted : Accepted (after env W) (gitOidHex env.sha1 ⟨.tree, bytes⟩) := by
      refine ⟨fun y hy => ?_, fun y hy => ?_⟩
      · rcases ReflTransGen.cases_head hy with rfl | ⟨z, hz, hzy⟩
        · exact ⟨_, hafter, rfl, hcheck⟩
        · exact (hsub hz).1.checked y hzy
      · obtain ⟨z, hz, hzy⟩ := TransGen.head'_iff.mp hy
        rcases ReflTransGen.cases_head hzy with rfl | ⟨w, hw, hwy⟩
        · exact (hsub hz).2
        · exact (hsub hz).1.nonempty y (.head' hw hwy)
    have hroot (x : Entry) (hx : x ∈ some (treeEntry (gitOidHex env.sha1 ⟨.tree, bytes⟩))) :
        x.oid = gitOidHex env.sha1 ⟨.tree, bytes⟩ := by
      obtain rfl := Option.mem_some_iff.mp hx
      rfl
    refine ⟨fun x hx _ => hroot x hx ▸ haccepted, fun _ _ x hx _ => ?_⟩
    rw [hroot x hx]
    exact ⟨haccepted, hentries ▸ hne⟩

/-! ### The objects of a tree -/

/-- `y` is a tree or a file of the tree `root`. -/
def Contains (reader : ObjectReader) (root y : String) : Prop :=
  ∃ x, ReflTransGen (SubTree reader) root x ∧
    (x = y ∨ ∃ e ∈ entriesOf reader x, e.mode ≠ modeGitlink ∧ e.oid = y)

theorem Contains.refl (root : String) : Contains reader root root := ⟨root, .refl, .inl rfl⟩

theorem Contains.entry {root : String} {e : TreeEntry} (he : e ∈ entriesOf reader root) (hmode : e.mode ≠ modeGitlink) :
    Contains reader root e.oid := ⟨root, .refl, .inr ⟨e, he, hmode, rfl⟩⟩

theorem Contains.head (hxy : SubTree reader x y) : Contains reader y z → Contains reader x z :=
  fun ⟨w, hw, h⟩ => ⟨w, .head hxy hw, h⟩

theorem Contains.cases_head (h : Contains reader x z) :
    z = x ∨ (∃ e ∈ entriesOf reader x, e.mode ≠ modeGitlink ∧ e.oid = z) ∨ ∃ y, SubTree reader x y ∧
        Contains reader y z := by
  obtain ⟨w, hw, h⟩ := h
  rcases ReflTransGen.cases_head hw with rfl | ⟨y, hy, hyw⟩
  · exact h.imp Eq.symm .inl
  · exact .inr (.inr ⟨y, hy, w, hyw, h⟩)

include h in
theorem CollisionFree.contains_after (hx : Accepted env.reader x)
    (hy : Contains (after env W) x y) : Contains env.reader x y := by
  obtain ⟨w, hw, hwy⟩ := hy
  have hreached : ReflTransGen (SubTree env.reader) x w := by
    clear hwy
    induction hw with
    | refl => exact .refl
    | tail _ hbc ih =>
      obtain ⟨e, he, hmode, hoid⟩ := hbc
      exact ih.tail ⟨e, h.entriesOf_after (hx.checked _ ih) ▸ he, hmode, hoid⟩
  rw [h.entriesOf_after (hx.checked w hreached)] at hwy
  exact ⟨w, hreached, hwy⟩

/-- An object that was written, or is one of `inputs`. -/
def Kept (env : MergeEnv) (W : List GitObject) (inputs : String → Prop) (y : String) : Prop :=
  (∃ obj ∈ W, gitOidHex env.sha1 obj = y) ∨ inputs y

/-- An entry all of whose objects are kept. -/
def AllKept (env : MergeEnv) (W : List GitObject) (inputs : String → Prop) (e : Entry) : Prop :=
  (e.mode ≠ modeGitlink → Kept env W inputs e.oid) ∧
  (e.mode = modeTree → ∀ y, Contains (after env W) e.oid y → Kept env W inputs y)

/-- The objects of an entry are among the inputs. -/
def IsInput (reader : ObjectReader) (inputs : String → Prop) (e : Option Entry) : Prop :=
  ∀ x ∈ e, (x.mode ≠ modeGitlink → inputs x.oid) ∧
    (x.mode = modeTree → Accepted reader x.oid ∧ ∀ y, Contains reader x.oid y → inputs y)

variable {inputs : String → Prop}

theorem IsInput.allKept (hfree : CollisionFree env W) {e : Option Entry} (h : IsInput env.reader inputs e) :
    ∀ x ∈ e, AllKept env W inputs x := by
  intro x hx
  obtain ⟨hoid, htree⟩ := h x hx
  refine ⟨fun hmode => .inr (hoid hmode), fun hmode y hy => .inr ?_⟩
  obtain ⟨haccepted, hall⟩ := htree hmode
  exact hall y (hfree.contains_after haccepted hy)

theorem isInput_entryNamed (hx : Accepted reader x) (h : ∀ y, Contains reader x y → inputs y) (name : String) :
    IsInput reader inputs (entryNamed (entriesOf reader x) name) := by
  intro y hy
  obtain ⟨e, he, -, rfl⟩ := entryNamed_eq_some hy
  refine ⟨fun hmode => h _ (.entry he hmode), fun hmode => ?_⟩
  have hsub : SubTree reader x e.oid := ⟨e, he, hmode, rfl⟩
  exact ⟨hx.sub hsub, fun z hz => h z (hz.head hsub)⟩

/-- What was written and what the inputs have is all that a merge needs: by induction on the merge. -/
theorem Merges.allKept (hfree : CollisionFree env W) (h : Merges env W bb oo tt m) (hoo : IsInput env.reader inputs oo)
    (htt : IsInput env.reader inputs tt) : ∀ x ∈ m, AllKept env W inputs x := by
  induction h with
  | ours b t => exact htt.allKept hfree
  | theirs b o => exact hoo.allKept hfree
  | sameFile b e hmode => exact hoo.allKept hfree
  | file b o t e hb ho ht hours htheirs hne h hstored =>
    intro x hx
    obtain rfl := Option.mem_some_iff.mp hx
    refine ⟨fun _ => ?_, fun hmode => absurd hmode (isRegular_ne_tree (h.isRegular ho ht))⟩
    rcases hstored with hoid | hoid | hoid
    · exact .inr (hoid ▸ (hoo o rfl).1 (isRegular_ne_gitlink ho))
    · exact .inr (hoid ▸ (htt t rfl).1 (isRegular_ne_gitlink ht))
    · exact .inl hoid
  | empty b hb o t h ih => exact nofun
  | tree b hb o t bytes hmem hcheck hne h ih =>
    intro x hx
    obtain rfl := Option.mem_some_iff.mp hx
    have hself : Kept env W inputs (gitOidHex env.sha1 ⟨.tree, bytes⟩) := .inl ⟨_, hmem, rfl⟩
    have hentries := hfree.entriesOf_written hmem
    have hall (e : TreeEntry) (he : e ∈ parseTree bytes) : AllKept env W inputs e.entry := by
      obtain ⟨hto, hco⟩ := (hoo _ rfl).2 rfl
      obtain ⟨htt', hct⟩ := (htt _ rfl).2 rfl
      exact ih e.name (isInput_entryNamed hto hco e.name) (isInput_entryNamed htt' hct e.name) _
        (entryNamed_of_mem (nodup_of_checkTree hcheck) he)
    refine ⟨fun _ => hself, fun _ y hy => ?_⟩
    rcases hy.cases_head with rfl | ⟨e, he, hmode, rfl⟩ | ⟨z, ⟨e, he, hmode, rfl⟩, hz⟩
    · exact hself
    · exact (hall e (hentries ▸ he)).1 hmode
    · exact (hall e (hentries ▸ he)).2 hmode y hz

/-! ### Names -/

theorem foldl_setEntry {m : List (String × Entry)} {es : List TreeEntry}
    (h : (m.map Prod.fst ++ es.map TreeEntry.name).Nodup) :
    es.foldl setEntry m = m ++ es.map fun e => (e.name, e.entry) := by
  induction es generalizing m with
  | nil => simp
  | cons e es ih =>
    have hnew : e.name ∉ m.map Prod.fst := fun hmem =>
      (nodup_append.mp h).2.2 _ hmem _ (by simp) rfl
    rw [foldl_cons, setEntry, if_neg hnew, ih (by simpa using h)]
    simp [TreeEntry.entry]

theorem lookup_map_entry (es : List TreeEntry) (name : String) :
    (es.map fun e => (e.name, e.entry)).lookup name = entryNamed es name := by
  induction es with
  | nil => rfl
  | cons e es ih =>
    rw [map_cons, lookup_cons, entryNamed, find?_cons]
    by_cases h : e.name = name
    · simp [h]
    · have hne : (name == e.name) = false := by simpa using fun heq => h heq.symm
      rw [hne, decide_eq_false h]
      exact ih

theorem entries_eq_ok {b : Option String} {es : List (String × Entry)} (h : entries env b = .ok es)
    (hb : ∀ x ∈ b, Accepted env.reader x) :
    (∀ name, es.lookup name = below env.reader (b.map treeEntry) name) ∧
      (es = [] ↔ ∀ x ∈ b, entriesOf env.reader x = []) ∧
      ∀ name, name ∈ es.map Prod.fst ↔ es.lookup name ≠ none := by
  have hkeys (l : List (String × Entry)) (name : String) : name ∈ l.map Prod.fst ↔ l.lookup name ≠ none := by
    rw [Ne, lookup_eq_none_iff]
    constructor
    · intro hmem hall
      obtain ⟨e, he, rfl⟩ := mem_map.mp hmem
      simpa using hall e he
    · intro hnot
      by_contra hmem
      refine hnot fun e he => bne_iff_ne.mpr ?_
      rintro rfl
      exact hmem (mem_map_of_mem he)
  cases b with
  | none =>
    obtain rfl := ok.inj h
    exact ⟨fun _ => rfl, by simp, hkeys []⟩
  | some oid =>
    obtain ⟨obj, hread, h⟩ := bind_eq_ok.mp h
    obtain ⟨htype, h⟩ := refuseIf_bind_eq_ok.mp h
    obtain ⟨obj', hread', htype', hcheck⟩ := (hb oid rfl).checked oid .refl
    obtain rfl := ok.inj (hread.symm.trans hread')
    have hentries : entriesOf env.reader oid = parseTree obj.bytes := by
      rw [entriesOf, hread]
      exact if_pos htype'
    have hes : es = (parseTree obj.bytes).map fun e => (e.name, e.entry) := by
      rw [← ok.inj h, foldl_setEntry (by simpa using nodup_of_checkTree hcheck), nil_append]
    refine ⟨fun name => ?_, ?_, hkeys es⟩
    · rw [hes, lookup_map_entry, Option.map_some, below_treeEntry, hentries]
    · rw [hes]
      simp [hentries]

theorem mem_namesOf {be oe te : List (String × Entry)} :
    name ∈ namesOf be oe te ↔ name ∈ be.map Prod.fst ∨ name ∈ oe.map Prod.fst ∨ name ∈ te.map Prod.fst := by
  simp only [namesOf, mem_reverse, mem_dedup, mem_append, or_assoc]

theorem nodup_namesOf (be oe te : List (String × Entry)) : (namesOf be oe te).Nodup :=
  nodup_reverse.mpr (nodup_dedup _)

theorem entryNamed_eq_iff {entries : List TreeEntry} (hnodup : (entries.map TreeEntry.name).Nodup) :
    entryNamed entries name = m ↔ ∀ x, (∃ e ∈ entries, e.name = name ∧ e.entry = x) ↔ m = some x := by
  have hiff (x : Entry) : (∃ e ∈ entries, e.name = name ∧ e.entry = x) ↔ entryNamed entries name = some x := by
    constructor
    · rintro ⟨e, he, rfl, rfl⟩
      exact entryNamed_of_mem hnodup he
    · exact entryNamed_eq_some
  simp only [hiff]
  constructor
  · rintro rfl x
    exact Iff.rfl
  · intro h
    exact Option.ext fun x => (h x)

/-! ### Files -/

/-- What ids are: twenty bytes that are not all zero. -/
structure IdBytes (sha1 : List UInt8 → List UInt8) : Prop where
  length : ∀ bs, (sha1 bs).length = 20
  notNull : ∀ bs, ∃ b ∈ sha1 bs, b ≠ 0

theorem blob_eq_some (h : blob env oid = .ok (some bytes)) : env.reader oid = .ok ⟨.blob, bytes⟩ := by
  obtain ⟨obj, hread, h⟩ := bind_eq_ok.mp h
  split at h
  · cases h
  · split at h
    · cases h
    · next htype =>
      obtain rfl := Option.some.inj (ok.inj h)
      rw [hread, ← Classical.not_not.mp htype]

theorem mergeLines_eq_some {b o t : String} (h : mergeLines env b o t = .ok (some bytes)) :
    ∃ base ours theirs, env.reader b = .ok ⟨.blob, base⟩ ∧ env.reader o = .ok ⟨.blob, ours⟩ ∧
      env.reader t = .ok ⟨.blob, theirs⟩ ∧ merge3 env.diffChanges base ours theirs = .clean bytes := by
  obtain ⟨b?, hbase, h⟩ := bind_eq_ok.mp h
  obtain ⟨o?, hours, h⟩ := bind_eq_ok.mp h
  obtain ⟨t?, htheirs, h⟩ := bind_eq_ok.mp h
  split at h
  · split at h
    · next hclean =>
      obtain rfl := Option.some.inj (ok.inj h)
      exact ⟨_, _, _, blob_eq_some hbase, blob_eq_some hours, blob_eq_some htheirs, hclean⟩
    · cases h
  · cases h

theorem mergeFile_eq_some {attributes : Bool} {written : List GitObject}
    (h : mergeFile env b o t attributes = .ok (some (e, written))) : (o = t ∧ e = o ∧ written = []) ∨
    (isRegular b = true ∧ isRegular o = true ∧ isRegular t = true ∧ o ≠ t ∧ MergesFile env b o t e ∧
      (e.oid = o.oid ∨ e.oid = t.oid ∨ ∃ obj ∈ written, gitOidHex env.sha1 obj = e.oid)) := by
  unfold mergeFile at h
  split at h
  · next heq =>
    obtain ⟨rfl, rfl⟩ := Prod.mk.inj (Option.some.inj (ok.inj h))
    exact .inl ⟨heq, rfl, rfl⟩
  · next hne =>
    split at h
    · cases h
    · next hregular =>
      simp only [Bool.or_eq_true, Bool.not_eq_true', not_or, Bool.not_eq_false] at hregular
      obtain ⟨⟨hb, ho⟩, ht⟩ := hregular
      refine .inr ⟨hb, ho, ht, hne, ?_⟩
      dsimp only at h
      split at h
      · next hsame =>
        obtain ⟨rfl, rfl⟩ := Prod.mk.inj (Option.some.inj (ok.inj h))
        exact ⟨.theirs hsame, .inr (.inl rfl)⟩
      · split at h
        · next hsame =>
          obtain ⟨rfl, rfl⟩ := Prod.mk.inj (Option.some.inj (ok.inj h))
          exact ⟨.ours hsame, .inl rfl⟩
        · split at h
          · cases h
          · obtain ⟨merged, hlines, h⟩ := map_eq_ok.mp h
            obtain ⟨bytes, rfl, hentry⟩ := Option.map_eq_some_iff.mp h
            obtain ⟨rfl, rfl⟩ := Prod.mk.inj hentry
            obtain ⟨_, _, _, hbase, hours, htheirs, hclean⟩ := mergeLines_eq_some hlines
            exact ⟨.lines _ _ _ _ hbase hours htheirs hclean, .inr (.inr ⟨_, mem_singleton_self _, rfl⟩)⟩

end DashForge.Git
