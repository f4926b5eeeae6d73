import DashForge.Merge.Merge3Sound
import DashForge.Merge.MergeWalk

/-!
# The outcome of a tree merge

With ours and theirs swapped a walk ends in the same way (`mergeWalk_swap`), and one of trees whose files can be read
ends (`mergeWalk_total`). Both are by induction on the levels and rest on a name's merge, which is symmetric
(`mergeName_swap`) and made for every name (`mergeName_total`).
-/

namespace DashForge.Git

open Merge (XdChange IsScript merge3 merge3_swap)
open List Relation Except

variable {env : MergeEnv} {walk : Option String → String → String → String → Bool → Except GitError WalkOut}
  {be oe te : List (String × Entry)} {above name : String} {attributes : Bool}

/-! ### Files -/

/-- The diff makes valid scripts. -/
def MakesScripts (env : MergeEnv) : Prop := ∀ k0 k1 xs, env.diffChanges k0 k1 = .ok xs → IsScript k0 k1 0 0 0 xs

variable {e : Entry} {o t base ours theirs oid : String} {picks picks' : List (String × Picked)} {b : Option String}
  {n : ℕ} {W : List GitObject}

theorem mode_of_isRegular (h : isRegular e = true) : e.mode = modeFile ∨ e.mode = modeExecutable := by
  simpa [isRegular] using h

theorem mergedMode_swap {b o t : Entry} (hb : isRegular b = true) (ho : isRegular o = true) (ht : isRegular t = true) :
    mergedMode b.mode t.mode o.mode = mergedMode b.mode o.mode t.mode := by
  have htwo : o.mode = t.mode ∨ o.mode = b.mode ∨ t.mode = b.mode := by
    rcases mode_of_isRegular hb with hb | hb <;> rcases mode_of_isRegular ho with ho | ho <;>
      rcases mode_of_isRegular ht with ht | ht <;> simp [hb, ho, ht]
  simp only [mergedMode]
  split <;> split <;> omega

theorem mergeLines_swap (hdiff : MakesScripts env) {b : String} {r : Option (List UInt8)}
    (h : mergeLines env b o t = .ok r) : mergeLines env b t o = .ok r := by
  obtain ⟨b?, hbase, h⟩ := bind_eq_ok.mp h
  obtain ⟨o?, hours, h⟩ := bind_eq_ok.mp h
  obtain ⟨t?, htheirs, h⟩ := bind_eq_ok.mp h
  refine bind_eq_ok.mpr ⟨b?, hbase, bind_eq_ok.mpr ⟨t?, htheirs, bind_eq_ok.mpr ⟨o?, hours, ?_⟩⟩⟩
  match b?, o?, t? with
  | some base, some ours, some theirs =>
    have hiff (bytes : List UInt8) : merge3 env.diffChanges base theirs ours = .clean bytes ↔
        merge3 env.diffChanges base ours theirs = .clean bytes := ⟨merge3_swap hdiff, merge3_swap hdiff⟩
    dsimp only at h ⊢
    split
    · next bytes hclean => rwa [(hiff bytes).mp hclean] at h
    · next hunclean =>
      split at h
      · next bytes hclean => exact absurd ((hiff bytes).mpr hclean) (hunclean bytes)
      · exact h
  | none, _, _ => exact h
  | some _, none, none => exact h
  | some _, none, some _ => exact h
  | some _, some _, none => exact h

theorem mergeFile_swap (hdiff : MakesScripts env) {b o t : Entry} {r : Option (Entry × List GitObject)}
    (h : mergeFile env b o t attributes = .ok r) : mergeFile env b t o attributes = .ok r := by
  unfold mergeFile at h ⊢
  by_cases heq : o = t
  · rw [heq] at h ⊢
    exact h
  rw [if_neg heq] at h
  rw [if_neg (Ne.symm heq)]
  split at h
  · next hregular =>
    rwa [if_pos (by simpa only [Bool.or_eq_true, or_right_comm, or_assoc, or_comm, or_left_comm] using hregular)]
  · next hregular =>
    simp only [Bool.or_eq_true, Bool.not_eq_true', not_or, Bool.not_eq_false] at hregular
    obtain ⟨⟨hb, ho⟩, ht⟩ := hregular
    have hmode := mergedMode_swap hb ho ht
    simp only [mergedMode] at hmode
    simp only [hb, ho, ht, Bool.not_true, Bool.or_self, Bool.false_eq_true, if_false, hmode]
    dsimp only at h
    -- The contents that one side has changed, whichever it is.
    by_cases hsame : o.oid = t.oid
    · rw [if_pos (.inl hsame)] at h
      rwa [if_pos (.inl hsame.symm), hsame]
    by_cases hob : o.oid = b.oid
    · have htb : ¬(t.oid = o.oid ∨ t.oid = b.oid) := fun hor =>
        hor.elim (fun heq => hsame heq.symm) fun heq => hsame (hob.trans heq.symm)
      rw [if_pos (.inr hob)] at h
      rwa [if_neg htb, if_pos hob]
    rw [if_neg fun hor => hor.elim hsame hob] at h
    by_cases htb : t.oid = b.oid
    · rw [if_pos htb] at h
      rwa [if_pos (.inr htb)]
    rw [if_neg htb] at h
    rw [if_neg fun hor => hor.elim (fun heq => hsame heq.symm) htb, if_neg hob]
    split at h
    · next hattributes => rwa [if_pos hattributes]
    · next hattributes =>
      obtain ⟨merged, hlines, rfl⟩ := map_eq_ok.mp h
      rw [if_neg hattributes, mergeLines_swap hdiff hlines]
      rfl

/-! ### Names -/

/-- With the sides swapped a walk ends in the same way. -/
def WalkSwaps (env : MergeEnv) (walk : Option String → String → String → String → Bool →
    Except GitError WalkOut) : Prop :=
  ∀ b o t above attributes out, WalkInputs env b o t → walk b o t above attributes = .ok out →
    ∃ out', walk b t o above attributes = .ok out' ∧ out'.result = out.result

theorem mergeName_swap (hdiff : MakesScripts env) (hwalk : WalkSwaps env walk) {p : Picked}
    (h : mergeName env walk be oe te above attributes name = .ok p) (hb : NameInputs env (be.lookup name))
    (ho : NameInputs env (oe.lookup name)) (ht : NameInputs env (te.lookup name)) :
    ∃ p', mergeName env walk be te oe above attributes name = .ok p' ∧ p'.pick = p.pick := by
  unfold mergeName at h ⊢
  dsimp only at h ⊢
  generalize be.lookup name = bb at *
  generalize oe.lookup name = oo at *
  generalize te.lookup name = tt at *
  by_cases hob : oo = bb
  · rw [if_pos hob] at h
    obtain rfl := ok.inj h
    by_cases htb : tt = bb
    · rw [if_pos htb]
      exact ⟨_, rfl, by rw [hob, htb]⟩
    · rw [if_neg htb, if_pos hob]
      exact ⟨_, rfl, rfl⟩
  rw [if_neg hob] at h
  by_cases htb : tt = bb
  · rw [if_pos htb] at h
    obtain rfl := ok.inj h
    rw [if_pos htb]
    exact ⟨_, rfl, rfl⟩
  rw [if_neg htb] at h
  rw [if_neg htb, if_neg hob]
  match oo, tt with
  | none, none => exact ⟨p, h, rfl⟩
  | none, some t => exact ⟨p, h, rfl⟩
  | some o, none => exact ⟨p, h, rfl⟩
  | some o, some t =>
    dsimp only at h ⊢
    by_cases hdir : (isTree o && isTree t && bb.all isTree) = true
    · rw [if_pos hdir] at h
      rw [if_pos (by rwa [Bool.and_comm (isTree t)])]
      simp only [Bool.and_eq_true] at hdir
      obtain ⟨⟨hot, htt⟩, hbt⟩ := hdir
      obtain ⟨sub, hsub, h⟩ := bind_eq_ok.mp h
      obtain ⟨sub', hsub', hresult⟩ := hwalk _ _ _ _ _ _ (walkInputs_of_isTree hb ho ht hot htt hbt) hsub
      rw [hsub', ok_bind, hresult]
      split at h <;> (obtain rfl := ok.inj h; exact ⟨_, rfl, rfl⟩)
    · rw [if_neg hdir] at h
      rw [if_neg (by rwa [Bool.and_comm (isTree t)])]
      cases bb with
      | none => exact ⟨p, h, rfl⟩
      | some b =>
        dsimp only at h ⊢
        rw [Bool.or_right_comm]
        split at h
        · next htree => exact ⟨p, by rwa [if_pos htree], rfl⟩
        · next hfile =>
          rw [if_neg hfile]
          obtain ⟨file, hmerge, h⟩ := bind_eq_ok.mp h
          rw [mergeFile_swap hdiff hmerge]
          exact ⟨p, h, rfl⟩

/-! ### Directories -/

theorem hasAttributes_swap (be oe te : List (String × Entry)) : hasAttributes be te oe = hasAttributes be oe te := by
  simp only [hasAttributes, any_append]
  exact Bool.or_right_comm _ _ _

theorem mem_namesOf_swap : name ∈ namesOf be te oe ↔ name ∈ namesOf be oe te := by
  rw [mem_namesOf, mem_namesOf]
  tauto

theorem mapM_total {α β : Type} {f : α → Except GitError β} {l : List α} (h : ∀ a ∈ l, ∃ b, f a = .ok b) :
    ∃ out, l.mapM f = .ok out := by
  choose g hg using h
  induction l with
  | nil => exact ⟨[], rfl⟩
  | cons a l ih =>
    obtain ⟨out, hout⟩ := ih (fun a ha => g a (mem_cons_of_mem _ ha)) fun a ha => hg a (mem_cons_of_mem _ ha)
    exact ⟨g a mem_cons_self :: out, by rw [mapM_cons, hg a mem_cons_self, hout]; rfl⟩

/-- The same names are merged to the same. -/
def SamePicks (picks picks' : List (String × Picked)) : Prop :=
  ∀ name pick, (∃ p ∈ picks', p.1 = name ∧ p.2.pick = pick) ↔ ∃ p ∈ picks, p.1 = name ∧ p.2.pick = pick

theorem SamePicks.perm (h : SamePicks picks picks') (hnodup : (picks.map Prod.fst).Nodup)
    (hnodup' : (picks'.map Prod.fst).Nodup) : (pickedEntries picks').Perm (pickedEntries picks) := by
  refine (perm_ext_iff_of_nodup (nodup_pickedEntries hnodup').of_map
      (nodup_pickedEntries hnodup).of_map).mpr fun e => ?_
  rw [mem_pickedEntries, mem_pickedEntries]
  exact h e.name (some (some e.entry))

theorem serializeTree_perm {entries entries' : List TreeEntry} (h : entries'.Perm entries)
    (hok : ∀ e ∈ entries, EntryOk e)
    (hnodup : (entries.map TreeEntry.name).Nodup) : serializeTree entries' = serializeTree entries := by
  rw [serializeTree, serializeTree, sortByKey_eq_of_perm TreeEntry.key h.symm (key_injOn hok hnodup)]

theorem finishWalk_swap {out : WalkOut} (hsame : SamePicks picks picks')
    (hnodup : (picks.map Prod.fst).Nodup) (hnodup' : (picks'.map Prod.fst).Nodup)
    (hok : ∀ e ∈ pickedEntries picks, EntryOk e) (h : finishWalk env picks = .ok out) :
    ∃ out', finishWalk env picks' = .ok out' ∧ out'.result = out.result := by
  have hperm := hsame.perm hnodup hnodup'
  have hnil : pickedEntries picks' = [] ↔ pickedEntries picks = [] :=
    ⟨fun h => nil_perm.mp (h ▸ hperm), fun h => perm_nil.mp (h ▸ hperm)⟩
  have hnone : (picks'.any fun p => p.2.pick.isNone) = picks.any fun p => p.2.pick.isNone := by
    have hiff (l : List (String × Picked)) : (l.any fun p => p.2.pick.isNone) = true ↔ ∃ name,
        ∃ p ∈ l, p.1 = name ∧ p.2.pick = none := by
      simp [any_eq_true]
    rw [Bool.eq_iff_iff, hiff, hiff]
    exact exists_congr fun name => hsame name none
  unfold finishWalk at h ⊢
  dsimp only at h ⊢
  rw [hnone]
  split at h
  · next hconflict =>
    obtain rfl := ok.inj h
    rw [if_pos hconflict]
    exact ⟨_, rfl, rfl⟩
  · next hclean =>
    rw [if_neg hclean]
    split at h
    · next hempty =>
      obtain rfl := ok.inj h
      rw [if_pos (hnil.mpr hempty)]
      exact ⟨_, rfl, rfl⟩
    · next hnonempty =>
      obtain ⟨bytes, hbytes, h⟩ := bind_eq_ok.mp h
      obtain ⟨u, hcheck, h⟩ := bind_eq_ok.mp h
      obtain rfl := ok.inj h
      rw [if_neg fun hempty => hnonempty (hnil.mp hempty)]
      refine ⟨_, bind_eq_ok.mpr ⟨bytes, ?_, bind_eq_ok.mpr ⟨u, hcheck, rfl⟩⟩, rfl⟩
      rw [← hbytes]
      exact congrArg (okOr · _) (serializeTree_perm hperm hok (nodup_pickedEntries hnodup))

/-! ### Walks -/

theorem mergeWalk_ours (levels : ℕ) (o t : String) :
    mergeWalk env levels (some o) o t above attributes = .ok { result := .tree t } := by
  rw [mergeWalk.eq_def]
  exact if_pos rfl

theorem mergeWalk_theirs (levels : ℕ) (hbo : b ≠ some o) (hbt : b = some t) :
    mergeWalk env levels b o t above attributes = .ok { result := .tree o } := by
  rw [mergeWalk.eq_def]
  exact (if_neg hbo).trans (if_pos hbt)

theorem mergeWalk_same (levels : ℕ) (hbo : b ≠ some o) :
    mergeWalk env levels b o o above attributes = .ok { result := .conflict, conflicts := [conflictPath above] } := by
  rw [mergeWalk.eq_def]
  exact (if_neg hbo).trans ((if_neg hbo).trans (if_pos rfl))

theorem mergeWalk_emptied (hbo : b ≠ some o) (hbt : b ≠ some t) (hne : o ≠ t)
    (hread : WalkReads env b o t be oe te) (hempty : oe = [] ∨ te = []) :
    mergeWalk env (n + 1) b o t above attributes = .ok { result := .conflict, conflicts := [conflictPath above] } := by
  rw [mergeWalk, if_neg hbo, if_neg hbt, if_neg hne, hread.base, hread.ours, hread.theirs]
  exact if_pos hempty

theorem mergeWalk_names (above : String) (attributes : Bool) (hbo : b ≠ some o) (hbt : b ≠ some t) (hne : o ≠ t)
    (hread : WalkReads env b o t be oe te) (hnonempty : ¬(oe = [] ∨ te = [])) (hnames : ∀ name ∈ namesOf be oe te,
      ∃ p, mergeName env (mergeWalk env n) be oe te above (attributes || hasAttributes be oe te) name = .ok p) :
    ∃ picks, mergeWalk env (n + 1) b o t above attributes = finishWalk env picks ∧
      picks.map Prod.fst = namesOf be oe te ∧
      ∀ p ∈ picks,
          mergeName env (mergeWalk env n) be oe te above (attributes || hasAttributes be oe te) p.1 = .ok p.2 := by
  obtain ⟨picks, hpicks⟩ := mapM_total (f := fun name =>
    (mergeName env (mergeWalk env n) be oe te above (attributes || hasAttributes be oe te) name).map fun p => (name, p))
    fun name hname => let ⟨p, hp⟩ := hnames name hname; ⟨(name, p), map_eq_ok.mpr ⟨p, hp, rfl⟩⟩
  obtain ⟨hfst, hmerge⟩ := picks_of_mapM hpicks
  refine ⟨picks, ?_, hfst, hmerge⟩
  rw [mergeWalk, if_neg hbo, if_neg hbt, if_neg hne, hread.base, hread.ours, hread.theirs]
  refine (if_neg hnonempty).trans ?_
  rw [hpicks]
  rfl

theorem WalkReads.swap (h : WalkReads env b o t be oe te) : WalkReads env b t o be te oe :=
  ⟨h.base, h.theirs, h.ours⟩

theorem mergeWalk_swap (hid : IdBytes env.sha1) (hdiff : MakesScripts env) (levels : ℕ) :
    WalkSwaps env (mergeWalk env levels) := by
  induction levels using Nat.strong_induction_on with
  | h levels ih =>
    intro b o t above attributes out hin h
    rcases mergeWalk_cases h with ⟨rfl, rfl⟩ | ⟨-, rfl, rfl⟩ | ⟨hbo, -, rfl, rfl⟩ | ⟨hbo, hbt, hne,
      n, be, oe, te, rfl, hread, hcases⟩
    · by_cases hot : o = t
      · rw [← hot]
        exact ⟨_, mergeWalk_ours levels o o, rfl⟩
      · exact ⟨_, mergeWalk_theirs levels (fun heq => hot (Option.some.inj heq)) rfl, rfl⟩
    · exact ⟨_, mergeWalk_ours levels t o, rfl⟩
    · exact ⟨_, mergeWalk_same levels hbo, rfl⟩
    · rcases hcases with ⟨hempty, rfl⟩ | ⟨hnonempty, picks, hnames, hmerge, hfinish⟩
      · exact ⟨_, mergeWalk_emptied hbt hbo (Ne.symm hne) hread.swap hempty.symm, rfl⟩
      · have hpick (name : String) (hname : name ∈ namesOf be te oe) : ∃ p ∈ picks, p.1 = name := by
          rw [mem_namesOf_swap, ← hnames] at hname
          exact (mem_map.mp hname)
        have hswap (p : String × Picked) (hp : p ∈ picks) : ∃ p', mergeName env (mergeWalk env n) be te oe above
            (attributes || hasAttributes be te oe) p.1 = .ok p' ∧ p'.pick = p.2.pick := by
          obtain ⟨hb, ho, ht⟩ := hread.nameInputs hin p.1
          rw [hasAttributes_swap]
          exact mergeName_swap hdiff (ih n (Nat.lt_succ_self n)) (hmerge p hp) hb ho ht
        obtain ⟨picks', hwalk, hnames', hmerge'⟩ := mergeWalk_names (n := n) above attributes hbt hbo (Ne.symm hne)
          hread.swap (fun h => hnonempty h.symm) fun name hname => by
            obtain ⟨p, hp, rfl⟩ := hpick name hname
            exact (hswap p hp).imp fun p' hp' => hp'.1
        have hnodup : (picks.map Prod.fst).Nodup := hnames ▸ nodup_namesOf be oe te
        have hsame : SamePicks picks picks' := by
          -- The name's picks on either side are of one call with the sides swapped.
          have hone (p : String × Picked) (hp : p ∈ picks) (p' : String × Picked) (hp' : p' ∈ picks')
            (heq : p'.1 = p.1) :
              p'.2.pick = p.2.pick := by
            obtain ⟨q, hq, hqpick⟩ := hswap p hp
            have hcall := hmerge' p' hp'
            rw [heq] at hcall
            rw [← hqpick, ok.inj (hcall.symm.trans hq)]
          intro name pick
          constructor
          · rintro ⟨p', hp', rfl, rfl⟩
            obtain ⟨p, hp, heq⟩ := hpick p'.1 (hnames' ▸ mem_map_of_mem hp')
            exact ⟨p, hp, heq, (hone p hp p' hp' heq.symm).symm⟩
          · rintro ⟨p, hp, rfl, rfl⟩
            have hmem : p.1 ∈ picks'.map Prod.fst := by
              rw [hnames', mem_namesOf_swap, ← hnames]
              exact mem_map_of_mem hp
            obtain ⟨p', hp', heq⟩ := mem_map.mp hmem
            exact ⟨p', hp', heq, hone p hp p' hp' heq⟩
        have hok :=
          entryOk_pickedEntries hid hin.ours hin.theirs (hread.picks_merge hin (mergeWalk_merges hid n) hmerge)
        obtain ⟨out', hfinish', hresult⟩ := finishWalk_swap hsame hnodup (hnames' ▸ nodup_namesOf be te oe) hok hfinish
        exact ⟨out', hwalk.trans hfinish', hresult⟩

/-! ### Trees that can be read -/

/-- A tree of at most `n` levels. -/
def Nested (reader : ObjectReader) : ℕ → String → Prop
  | 0, _ => False
  | n + 1, x => ∀ y, SubTree reader x y → Nested reader n y

/-- A regular file that can be read. -/
def IsFile (reader : ObjectReader) (e : Entry) : Prop := isRegular e = true → ∃ bytes, reader e.oid = .ok ⟨.blob, bytes⟩

/-- A tree whose files can be read, of at most `n` levels. -/
structure Whole (reader : ObjectReader) (n : ℕ) (x : String) : Prop where
  accepted : Accepted reader x
  nested : Nested reader n x
  files : ∀ y, ReflTransGen (SubTree reader) x y → ∀ e ∈ entriesOf reader y, IsFile reader e.entry

/-- An entry of such a tree. -/
def WholeEntry (reader : ObjectReader) (n : ℕ) (e : Option Entry) : Prop :=
  ∀ x ∈ e, IsFile reader x ∧ (x.mode = modeTree → Whole reader n x.oid)

theorem Whole.entry {reader : ObjectReader} {x : String} (h : Whole reader (n + 1) x) (name : String) :
    WholeEntry reader n (entryNamed (entriesOf reader x) name) := by
  intro y hy
  obtain ⟨e, he, -, rfl⟩ := entryNamed_eq_some hy
  refine ⟨h.files x .refl e he, fun hmode => ?_⟩
  have hsub : SubTree reader x e.oid := ⟨e, he, hmode, rfl⟩
  exact ⟨h.accepted.sub hsub, h.nested _ hsub, fun y hy => h.files y (.head hsub hy)⟩

theorem blob_total (h : IsFile env.reader e) (he : isRegular e = true) : ∃ r, blob env e.oid = .ok r := by
  obtain ⟨bytes, hread⟩ := h he
  rw [blob, hread, ok_bind]
  dsimp only
  split
  · exact ⟨none, rfl⟩
  · exact ⟨some bytes, if_neg (not_not.mpr rfl)⟩

theorem mergeLines_total {b o t : Entry} (hb : ∃ r, blob env b.oid = .ok r) (ho : ∃ r, blob env o.oid = .ok r)
    (ht : ∃ r, blob env t.oid = .ok r) : ∃ r, mergeLines env b.oid o.oid t.oid = .ok r := by
  obtain ⟨b?, hb⟩ := hb
  obtain ⟨o?, ho⟩ := ho
  obtain ⟨t?, ht⟩ := ht
  rw [mergeLines, hb, ho, ht, ok_bind, ok_bind, ok_bind]
  split
  · split
    · exact ⟨_, rfl⟩
    · exact ⟨_, rfl⟩
  · exact ⟨_, rfl⟩

variable (attributes) in
theorem mergeFile_total {b o t : Entry} (hb : IsFile env.reader b) (ho : IsFile env.reader o)
    (ht : IsFile env.reader t) :
    ∃ r, mergeFile env b o t attributes = .ok r := by
  unfold mergeFile
  split
  · exact ⟨_, rfl⟩
  · split
    · exact ⟨_, rfl⟩
    · next hregular =>
      simp only [Bool.or_eq_true, Bool.not_eq_true', not_or, Bool.not_eq_false] at hregular
      obtain ⟨⟨hbr, hor⟩, htr⟩ := hregular
      dsimp only
      split
      · exact ⟨_, rfl⟩
      · split
        · exact ⟨_, rfl⟩
        · split
          · exact ⟨_, rfl⟩
          · obtain ⟨r, hr⟩ := mergeLines_total (blob_total hb hbr) (blob_total ho hor) (blob_total ht htr)
            rw [hr]
            exact ⟨_, rfl⟩

/-- A walk of trees whose files can be read ends. -/
def WalkEnds (env : MergeEnv) (n : ℕ) (walk : Option String → String → String → String → Bool →
    Except GitError WalkOut) :
    Prop :=
  ∀ b o t above attributes, (∀ x ∈ b, Whole env.reader n x) → Whole env.reader n o → Whole env.reader n t →
    ∃ out, walk b o t above attributes = .ok out

theorem mergeName_total (hwalk : WalkEnds env n walk) (hb : WholeEntry env.reader n (be.lookup name))
    (ho : WholeEntry env.reader n (oe.lookup name)) (ht : WholeEntry env.reader n (te.lookup name)) :
    ∃ p, mergeName env walk be oe te above attributes name = .ok p := by
  unfold mergeName
  dsimp only
  split
  · exact ⟨_, rfl⟩
  · split
    · exact ⟨_, rfl⟩
    · split
      · next o t hoe hte =>
        split
        · next hdir =>
          simp only [Bool.and_eq_true] at hdir
          obtain ⟨⟨hot, htt⟩, hbt⟩ := hdir
          have hbase (x : String) (hx : x ∈ (be.lookup name).map Entry.oid) : Whole env.reader n x := by
            obtain ⟨b, hbb, rfl⟩ := Option.map_eq_some_iff.mp hx
            exact (hb b hbb).2 (mode_of_isTree (by rw [hbb] at hbt; exact hbt))
          obtain ⟨sub, hsub⟩ := hwalk _ _ _ (above ++ name ++ "/") attributes hbase ((ho o hoe).2 (mode_of_isTree hot))
            ((ht t hte).2 (mode_of_isTree htt))
          rw [hsub, ok_bind]
          split
          · exact ⟨_, rfl⟩
          · exact ⟨_, rfl⟩
          · exact ⟨_, rfl⟩
        · split
          · next b hbb =>
            split
            · exact ⟨_, rfl⟩
            · obtain ⟨r, hr⟩ := mergeFile_total attributes (hb b hbb).1 (ho o hoe).1 (ht t hte).1
              rw [hr, ok_bind]
              split
              · exact ⟨_, rfl⟩
              · exact ⟨_, rfl⟩
          · exact ⟨_, rfl⟩
      · exact ⟨_, rfl⟩

theorem finishWalk_total (hok : ∀ e ∈ pickedEntries picks, EntryOk e)
    (hnodup : (picks.map Prod.fst).Nodup) : ∃ out, finishWalk env picks = .ok out := by
  unfold finishWalk
  dsimp only
  split
  · exact ⟨_, rfl⟩
  · split
    · exact ⟨_, rfl⟩
    · obtain ⟨bytes, hbytes, -, -⟩ := checkTree_serializeTree hok (nodup_pickedEntries hnodup) ""
      obtain ⟨bytes', hbytes', hcheck, -⟩ := checkTree_serializeTree hok (nodup_pickedEntries hnodup)
        (gitOidHex env.sha1 ⟨.tree, bytes⟩)
      obtain rfl := Option.some.inj (hbytes.symm.trans hbytes')
      exact ⟨_, bind_eq_ok.mpr ⟨bytes, okOr_eq_ok.mpr hbytes, bind_eq_ok.mpr ⟨(), hcheck, rfl⟩⟩⟩

theorem walkReads_total (hin : WalkInputs env b o t) : ∃ be oe te, WalkReads env b o t be oe te := by
  have hread {x : String} (hx : Accepted env.reader x) : ∃ es, entries env (some x) = .ok es := by
    obtain ⟨obj, hobj, htype, -⟩ := hx.checked x .refl
    exact ⟨_, bind_eq_ok.mpr ⟨obj, hobj, refuseIf_bind_eq_ok.mpr ⟨not_not.mpr htype, rfl⟩⟩⟩
  obtain ⟨oe, hoe⟩ := hread hin.ours
  obtain ⟨te, hte⟩ := hread hin.theirs
  obtain ⟨be, hbe⟩ : ∃ be, entries env b = .ok be := by
    cases b with
    | none => exact ⟨[], rfl⟩
    | some x => exact hread (hin.base x rfl)
  exact ⟨be, oe, te, hbe, hoe, hte⟩

theorem mergeWalk_total (hid : IdBytes env.sha1) (levels : ℕ) : WalkEnds env levels (mergeWalk env levels) := by
  induction levels with
  | zero => exact fun b o t above attributes hb ho ht => ho.nested.elim
  | succ n ih =>
    intro b o t above attributes hb ho ht
    by_cases hbo : b = some o
    · exact ⟨_, hbo ▸ mergeWalk_ours (n + 1) o t⟩
    by_cases hbt : b = some t
    · exact ⟨_, mergeWalk_theirs (n + 1) hbo hbt⟩
    by_cases hne : o = t
    · obtain rfl := hne
      exact ⟨_, mergeWalk_same (n + 1) hbo⟩
    have hin : WalkInputs env b o t := ⟨fun x hx => (hb x hx).accepted, ho.accepted, ht.accepted⟩
    obtain ⟨be, oe, te, hread⟩ := walkReads_total hin
    by_cases hempty : oe = [] ∨ te = []
    · exact ⟨_, mergeWalk_emptied hbo hbt hne hread hempty⟩
    have hnames (name : String) (_ : name ∈ namesOf be oe te) :
        ∃ p, mergeName env (mergeWalk env n) be oe te above (attributes || hasAttributes be oe te) name = .ok p := by
      obtain ⟨hbl, hol, htl⟩ := hread.lookup hin name
      refine mergeName_total ih (hbl ▸ ?_) (hol ▸ ho.entry name) (htl ▸ ht.entry name)
      intro x hx
      obtain ⟨e, he, hx⟩ := Option.bind_eq_some_iff.mp hx
      obtain ⟨y, hy, rfl⟩ := Option.map_eq_some_iff.mp he
      rw [if_pos (show (treeEntry y).mode = modeTree from rfl)] at hx
      exact (hb y hy).entry name x hx
    obtain ⟨picks, hwalk, hfst, hmerge⟩ := mergeWalk_names above attributes hbo hbt hne hread hempty hnames
    rw [hwalk]
    exact finishWalk_total (entryOk_pickedEntries hid hin.ours hin.theirs
      (hread.picks_merge hin (mergeWalk_merges hid n) hmerge)) (hfst ▸ nodup_namesOf be oe te)

/-! ### Roots -/

theorem Merges.of_none {W' : List GitObject} {bb oo tt m : Option Entry} (h : Merges env W bb oo tt m) (hm : m = none) :
    Merges env W' bb oo tt m := by
  induction h with
  | ours b t => exact .ours b t
  | theirs b o => exact .theirs b o
  | sameFile => cases hm
  | file => cases hm
  | empty b hb o t h ih => exact .empty b hb o t fun name => ih name rfl
  | tree => cases hm

theorem mergeTrees_merges (hid : IdBytes env.sha1) {written : List GitObject}
    (hin : WalkInputs env (some base) ours theirs) (h : mergeTrees env base ours theirs = .ok (.merged oid written)) :
    ∃ m, Merges env written (some (treeEntry base)) (some (treeEntry ours)) (some (treeEntry theirs)) m ∧
      (m = some (treeEntry oid) ∨ m = none ∧ oid = gitOidHex env.sha1 ⟨.tree, []⟩ ∧ written = [⟨.tree, []⟩]) := by
  obtain ⟨out, hout, h⟩ := bind_eq_ok.mp h
  have hmerges := mergeWalk_merges hid _ _ _ _ _ _ out hin hout
  split at h
  · cases ok.inj h
  · next hempty =>
    obtain ⟨rfl, rfl⟩ := MergeTreesResult.merged.inj (ok.inj h)
    rw [hempty] at hmerges
    exact ⟨none, (hmerges nofun).of_none rfl, .inr ⟨rfl, rfl, rfl⟩⟩
  · next oid htree =>
    obtain ⟨rfl, rfl⟩ := MergeTreesResult.merged.inj (ok.inj h)
    rw [htree] at hmerges
    exact ⟨_, hmerges nofun, .inl rfl⟩

/-- How a merge ends: its tree, or a conflict. -/
def MergeTreesResult.outcome : MergeTreesResult → Option String
  | merged oid _ => some oid
  | conflict _ => none

theorem CollisionFree.entriesOf_empty (h : CollisionFree env W) (hmem : ⟨.tree, []⟩ ∈ W) :
    entriesOf (after env W) (gitOidHex env.sha1 ⟨.tree, []⟩) = [] := h.entriesOf_written hmem

/-- A path that both sides changed to different entries which do not merge: one of the three is no regular file, or both
changed the contents and their lines do not merge. -/
def Unmergeable (env : MergeEnv) (bb oo tt : Option Entry) : Prop :=
  oo ≠ bb ∧ tt ≠ bb ∧ oo ≠ tt ∧ ¬∃ b o t e, bb = some b ∧ oo = some o ∧ tt = some t ∧
    isRegular b = true ∧ isRegular o = true ∧ isRegular t = true ∧ MergesFile env b o t e

/-- What is at a path of a tree. -/
def at_ (reader : ObjectReader) (root : String) (path : List String) : Option Entry :=
    flat reader (some (treeEntry root)) path

section Roots

variable {base ours theirs : String} (hid : IdBytes env.sha1) (hb : Accepted env.reader base)
  (ho : Accepted env.reader ours)
  (ht : Accepted env.reader theirs)

include hid hb ho ht

/-- A merged tree is the path-by-path merge, passes the checks at every level, and has all its objects written or in
the inputs. -/
theorem mergeTrees_merged {oid : String} {written : List GitObject}
    (h : mergeTrees env base ours theirs = .ok (.merged oid written)) (hfree : CollisionFree env written) :
    (∀ path, MergedAt env (at_ env.reader base path) (at_ env.reader ours path) (at_ env.reader theirs path)
      (at_ (after env written) oid path)) ∧ Accepted (after env written) oid ∧
    ∀ y, Contains (after env written) oid y → (∃ obj ∈ written, gitOidHex env.sha1 obj = y) ∨
      ∃ root ∈ [base, ours, theirs], Contains env.reader root y := by
  have hroot {x : String} (hx : Accepted env.reader x) : NameInputs env (some (treeEntry x)) := by
    intro y hy _
    obtain rfl := Option.mem_some_iff.mp hy
    exact hx
  obtain ⟨m, hm, hcases⟩ := mergeTrees_merges hid ⟨by simpa using hb, ho, ht⟩ h
  have hflat := hm.flat hfree (hroot hb) (hroot ho) (hroot ht)
  rcases hcases with rfl | ⟨rfl, rfl, rfl⟩
  · have hinput {x : String} (hx : Accepted env.reader x) (hmem : x ∈ [base, ours, theirs]) :
        IsInput env.reader (fun y => ∃ root ∈ [base, ours, theirs], Contains env.reader root y)
            (some (treeEntry x)) := by
      intro y hy
      obtain rfl := Option.mem_some_iff.mp hy
      exact ⟨fun _ => ⟨x, hmem, .refl x⟩, fun _ => ⟨hx, fun z hz => ⟨x, hmem, hz⟩⟩⟩
    refine ⟨hflat, (hm.accepted hfree (hroot ho) (hroot ht)).1 _ rfl rfl, fun y hy => ?_⟩
    exact (hm.allKept hfree (hinput ho (by simp)) (hinput ht (by simp)) _ rfl).2 rfl y hy
  · -- The empty tree has no path, no directory and no file.
    have hempty := hfree.entriesOf_empty (mem_singleton_self _)
    have hno {y : String} (hy : ReflTransGen (SubTree (after env [⟨.tree, []⟩])) (gitOidHex env.sha1 ⟨.tree, []⟩) y) :
        y = gitOidHex env.sha1 ⟨.tree, []⟩ := by
      rcases ReflTransGen.cases_head hy with rfl | ⟨w, ⟨e, he, -⟩, -⟩
      · rfl
      · rw [hempty] at he
        cases he
    refine ⟨fun path => ?_, ⟨fun y hy => ?_, fun y hy => ?_⟩, fun y hy => ?_⟩
    · have hnone : at_ (after env [⟨.tree, []⟩]) (gitOidHex env.sha1 ⟨.tree, []⟩) path = none := by
        cases path with
        | nil => exact flat_nil_of_tree (by simp [treeEntry])
        | cons name path => rw [at_, flat_cons, below_treeEntry, hempty]; exact flat_none
      have hat := hflat path
      rw [flat_none] at hat
      rw [hnone]
      exact hat
    · rw [hno hy]
      exact ⟨_, hfree.after_of_mem (mem_singleton_self _), rfl, rfl⟩
    · obtain ⟨w, ⟨e, he, -⟩, -⟩ := TransGen.head'_iff.mp hy
      rw [hempty] at he
      cases he
    · rcases hy.cases_head with rfl | ⟨e, he, -⟩ | ⟨w, ⟨e, he, -⟩, -⟩
      · exact .inl ⟨_, mem_singleton_self _, rfl⟩
      · rw [hempty] at he
        cases he
      · rw [hempty] at he
        cases he

theorem mergeTrees_swap (hdiff : MakesScripts env) {r : MergeTreesResult}
    (h : mergeTrees env base ours theirs = .ok r) :
    ∃ r', mergeTrees env base theirs ours = .ok r' ∧ r'.outcome = r.outcome := by
  obtain ⟨out, hout, h⟩ := bind_eq_ok.mp h
  obtain ⟨out', hout', hresult⟩ := mergeWalk_swap hid hdiff _ _ _ _ _ _ out ⟨by simpa using hb, ho, ht⟩ hout
  rw [mergeTrees, hout', ok_bind, hresult]
  split at h <;> (obtain rfl := ok.inj h; exact ⟨_, rfl, rfl⟩)

end Roots

theorem mergeTrees_total (hid : IdBytes env.sha1) (hb : Whole env.reader (maxTreeDepth + 1) base)
    (ho : Whole env.reader (maxTreeDepth + 1) ours) (ht : Whole env.reader (maxTreeDepth + 1) theirs) :
    ∃ r, mergeTrees env base ours theirs = .ok r := by
  obtain ⟨out, hout⟩ := mergeWalk_total hid (maxTreeDepth + 1) (some base) ours theirs "" false
    (by simpa using hb) ho ht
  rw [mergeTrees, hout, ok_bind]
  split
  · exact ⟨_, rfl⟩
  · exact ⟨_, rfl⟩
  · exact ⟨_, rfl⟩

/-- Of accepted trees a merge is the path-by-path merge of their flat trees, with the checks passed at every level and
all its objects written or in the inputs; if the differ makes scripts, it ends in the same way with the sides swapped; it
ends if the files can be read and the trees are not too deep; and a path that does not merge makes it a conflict. -/
theorem mergeTrees_spec {base ours theirs : String} (hid : IdBytes env.sha1)
    (hb : Accepted env.reader base) (ho : Accepted env.reader ours) (ht : Accepted env.reader theirs)
    (hfree : ∀ oid written, mergeTrees env base ours theirs = .ok (.merged oid written) → CollisionFree env written) :
    (∀ oid written, mergeTrees env base ours theirs = .ok (.merged oid written) →
      (∀ path, MergedAt env (at_ env.reader base path) (at_ env.reader ours path) (at_ env.reader theirs path)
        (at_ (after env written) oid path)) ∧ Accepted (after env written) oid ∧
      ∀ y, Contains (after env written) oid y → (∃ obj ∈ written, gitOidHex env.sha1 obj = y) ∨
        ∃ root ∈ [base, ours, theirs], Contains env.reader root y) ∧
    (MakesScripts env → ∀ r, mergeTrees env base ours theirs = .ok r →
      ∃ r', mergeTrees env base theirs ours = .ok r' ∧ r'.outcome = r.outcome) ∧
    ((∀ root ∈ [base, ours, theirs], Whole env.reader (maxTreeDepth + 1) root) →
      ∃ r, mergeTrees env base ours theirs = .ok r) ∧
    ∀ path, Unmergeable env (at_ env.reader base path) (at_ env.reader ours path) (at_ env.reader theirs path) →
      ∀ r, mergeTrees env base ours theirs = .ok r → ∃ paths, r = .conflict paths := by
  refine ⟨fun oid written h => mergeTrees_merged hid hb ho ht h (hfree oid written h),
    fun hdiff r => mergeTrees_swap hid hb ho ht hdiff, fun h => ?_, fun path hpath r h => ?_⟩
  · exact mergeTrees_total hid (h base (by simp)) (h ours (by simp)) (h theirs (by simp))
  · cases r with
    | conflict paths => exact ⟨paths, rfl⟩
    | merged oid written =>
      obtain ⟨hours, htheirs, hne, hno⟩ := hpath
      have hmerged := (mergeTrees_merged hid hb ho ht h (hfree oid written h)).1 path
      obtain ⟨b, o, t, e, hbb, hoo, htt, -, hbr, hor, htr, hfile⟩ := hmerged.file hours htheirs hne
      exact absurd ⟨b, o, t, e, hbb, hoo, htt, hbr, hor, htr, hfile⟩ hno

/-! ### A merge -/

/-- The ids of the files of the sample trees. -/
def oneFile : String := "d00491fd7e5bb6fa28c517a0bb32b8b506539d4d"

@[inherit_doc oneFile]
def twoFile : String := "0cfbf08886fca9a91cb753ec8734c84fcbe52c9f"

/-- The bytes of an id. -/
def idBytes (oid : String) : List UInt8 := (hexDecode oid).getD []

/-- A tree of two files. -/
def twoFiles (a b : String) : GitObject :=
  ⟨.tree, utf8 "100644 a\x00" ++ idBytes a ++ utf8 "100644 b\x00" ++ idBytes b⟩

/-- The ids of the sample trees. -/
def sampleBase : String := "753c1d6323889c4a5d8cf408d85430d243c2707d"

@[inherit_doc sampleBase]
def sampleOurs : String := "ac54627d1be3916c64d31d1e3fc8a1091d3aaa28"

@[inherit_doc sampleBase]
def sampleTheirs : String := "534214061d10f28dc90e50ba441f70772e2b98e4"

@[inherit_doc sampleBase]
def sampleMerged : String := "3d7a3d21ba40d192e476616697403e8684f09a11"

/-- A base, its sides with one file changed each, and what they merge to. -/
def sampleTrees : List (String × GitObject) :=
  [(sampleBase, twoFiles oneFile oneFile),
    (sampleOurs, twoFiles twoFile oneFile),
    (sampleTheirs, twoFiles oneFile twoFile),
    (sampleMerged, twoFiles twoFile twoFile)]

/-- The digests of the sample trees. -/
def sampleSha1 (bs : List UInt8) : List UInt8 :=
  match sampleTrees.find? fun e => utf8 "tree 58\x00" ++ e.2.bytes = bs with
  | some e => idBytes e.1
  | none => replicate 20 1

def sampleMergeEnv : MergeEnv where
  reader oid := okOr ((sampleTrees.take 3).lookup oid) (.unread "not found")
  sha1 := sampleSha1
  diffChanges _ _ := .error "no diff"

theorem mem_sampleTrees {obj : GitObject} (h : sampleMergeEnv.reader oid = .ok obj) : (oid, obj) ∈ sampleTrees := by
  obtain ⟨l₁, l₂, heq, -⟩ := lookup_eq_some_iff.mp (okOr_eq_ok.mp h)
  exact mem_of_mem_take (heq ▸ mem_append_right _ mem_cons_self : (oid, obj) ∈ sampleTrees.take 3)

theorem idBytes_sampleSha1 : IdBytes sampleSha1 := by
  have hall : ∀ e ∈ sampleTrees, (idBytes e.1).length = 20 ∧ ∃ b ∈ idBytes e.1, b ≠ 0 := by decide +kernel
  have hsha1 (bs : List UInt8) : (sampleSha1 bs).length = 20 ∧ ∃ b ∈ sampleSha1 bs, b ≠ 0 := by
    rw [sampleSha1]
    split
    · next e he => exact hall e (mem_of_find?_eq_some he)
    · decide
  exact ⟨fun bs => (hsha1 bs).1, fun bs => (hsha1 bs).2⟩

theorem gitOidHex_sampleTrees : ∀ e ∈ sampleTrees, gitOidHex sampleSha1 e.2 = e.1 := by decide +kernel

theorem accepted_sampleTrees : ∀ e ∈ sampleTrees.take 3, Accepted sampleMergeEnv.reader e.1 := by
  have hchecks : ∀ e ∈ sampleTrees.take 3, sampleMergeEnv.reader e.1 = .ok e.2 ∧ e.2.type = .tree ∧
      checkTree e.1 e.2.bytes = .ok () ∧ ∀ x ∈ entriesOf sampleMergeEnv.reader e.1,
        x.mode ≠ modeTree := by decide +kernel
  intro e he
  obtain ⟨hread, htype, hcheck, hno⟩ := hchecks e he
  refine ⟨fun y hy => ?_, fun y hy => ?_⟩
  · rcases ReflTransGen.cases_head hy with rfl | ⟨z, ⟨x, hx, hmode, -⟩, -⟩
    · exact ⟨e.2, hread, htype, hcheck⟩
    · exact absurd hmode (hno x hx)
  · obtain ⟨z, ⟨x, hx, hmode, -⟩, -⟩ := TransGen.head'_iff.mp hy
    exact absurd hmode (hno x hx)

theorem mergeTrees_spec_sample :
    mergeTrees sampleMergeEnv sampleBase sampleOurs sampleTheirs =
      .ok (.merged sampleMerged [twoFiles twoFile twoFile]) ∧
    (∀ path, MergedAt sampleMergeEnv (at_ sampleMergeEnv.reader sampleBase path)
      (at_ sampleMergeEnv.reader sampleOurs path)
      (at_ sampleMergeEnv.reader sampleTheirs path)
      (at_ (after sampleMergeEnv [twoFiles twoFile twoFile]) sampleMerged path)) ∧
    ∃ r, mergeTrees sampleMergeEnv sampleBase sampleTheirs sampleOurs = .ok r ∧
      r.outcome = (MergeTreesResult.merged sampleMerged [twoFiles twoFile twoFile]).outcome := by
  have hmerge : mergeTrees sampleMergeEnv sampleBase sampleOurs sampleTheirs =
      .ok (.merged sampleMerged [twoFiles twoFile twoFile]) := by decide +kernel
  have hfree : CollisionFree sampleMergeEnv [twoFiles twoFile twoFile] := by
    refine ⟨fun oid obj h => gitOidHex_sampleTrees (oid, obj) (mem_sampleTrees h), fun x hx y hy heq => ?_⟩
    obtain rfl := mem_singleton.mp hx
    have hids : ∀ e ∈ sampleTrees, gitOidHex sampleSha1 (twoFiles twoFile twoFile) = e.1 →
        twoFiles twoFile twoFile = e.2 := by
      decide +kernel
    rcases hy with hy | ⟨oid, hy⟩
    · exact (mem_singleton.mp hy).symm
    · have hmem := mem_sampleTrees hy
      have hoid : gitOidHex sampleSha1 y = oid := gitOidHex_sampleTrees (oid, y) hmem
      exact hids (oid, y) hmem (Eq.trans heq hoid)
  have hscripts : MakesScripts sampleMergeEnv := by
    intro k0 k1 xs h
    cases h
  have hb : Accepted sampleMergeEnv.reader sampleBase :=
    accepted_sampleTrees (sampleBase, twoFiles oneFile oneFile) (by decide +kernel)
  have ho : Accepted sampleMergeEnv.reader sampleOurs :=
    accepted_sampleTrees (sampleOurs, twoFiles twoFile oneFile) (by decide +kernel)
  have ht : Accepted sampleMergeEnv.reader sampleTheirs :=
    accepted_sampleTrees (sampleTheirs, twoFiles oneFile twoFile) (by decide +kernel)
  have hid : IdBytes sampleMergeEnv.sha1 := idBytes_sampleSha1
  have hspec := mergeTrees_spec hid hb ho ht fun oid written h => by
    obtain ⟨-, hwritten⟩ := MergeTreesResult.merged.inj (ok.inj (hmerge.symm.trans h))
    exact hwritten ▸ hfree
  exact ⟨hmerge, (hspec.1 _ _ hmerge).1, hspec.2.1 hscripts _ hmerge⟩

end DashForge.Git
