import DashForge.Data.SortedMap
import DashForge.Rules.RefGrammar
import Mathlib.Data.String.Basic

/-!
# The refs a mirror serves

The gateway's mirror of a repository serves the refs that Platform has of it (`mirror.rs`): `servableRef` keeps the
names it may serve, and `moveRefs` takes the served refs to these in one transaction of `git update-ref`, which git
refuses as a whole (`Accepts`). The transaction makes the served refs the wanted ones (`run_moveRefs`).

A legal name passes git's check of its format unless a component ends in `.lock` (`refFormat_iff`), and the mirror serves
it unless the name is its own or ends in `.lock` in some case (`servableRef_iff`).
-/

namespace DashForge.Mirror

open List SortedMap

variable {served wanted refs : SortedMap String String} {name oid : String} {path : List Char}

/-- Where a fetch puts refs before they are served. -/
def staging : String := "refs/forge-gateway/"

/-- Whether the mirror may serve a ref. -/
def servableRef (name : String) : Bool :=
  let cs := name.toList
  decide ("refs/".toList <+: cs)
    && !decide (staging.toList <+: cs)
    && !decide (['/'] <:+ cs)
    && !decide (".lock".toList <:+ cs.map Char.toLower)
    && !decide (['.'] <:+ cs)
    && !decide (['.', '.'] <:+: cs)
    && !decide (['/', '/'] <:+: cs)
    && !decide (['@', Char.ofNat 0x7b] <:+: cs)
    && !(cs.splitOn '/').any (fun c => c.isEmpty || decide (['.'] <+: c))
    && cs.all fun c => !isForbiddenRefChar c

/-- A line of a transaction. -/
inductive RefCommand where
  | update (name oid : String)
  | delete (name : String)
deriving DecidableEq, Repr

/-- The transaction that moves the served refs to the wanted ones; there is none where it has no line. -/
def moveRefs (served wanted : SortedMap String String) : List RefCommand :=
  (wanted.entries.filter fun x => served.lookup x.1 ≠ some x.2).map (fun x => .update x.1 x.2)
    ++ (served.keys.filter fun name => name ∉ wanted.keys).map .delete

/-! ### What git does -/

/-- What `git check-ref-format` accepts. -/
structure RefFormat (name : List Char) : Prop where
  component : ∀ c ∈ name.splitOn '/', c ≠ [] ∧ ¬['.'] <+: c ∧ ¬".lock".toList <:+ c
  dots : ¬['.', '.'] <:+: name
  brace : ¬['@', Char.ofNat 0x7b] <:+: name
  chars : ∀ c ∈ name, isForbiddenRefChar c = false
  last : ¬['.'] <:+ name ∧ ¬['/'] <:+ name

def RefCommand.run (refs : SortedMap String String) : RefCommand → SortedMap String String
  | .update name oid => refs.insert name oid
  | .delete name => refs.erase name

/-- A ref is a folder of another. -/
def IsFolder (a b : String) : Prop := a.toList ++ ['/'] <+: b.toList

instance (a b : String) : Decidable (IsFolder a b) := inferInstanceAs (Decidable (_ <+: _))

/-- What is assumed of `git update-ref`: the transactions that it accepts, by the names they update and by the refs there
are after them. -/
structure Accepts (refs : SortedMap String String) (commands : List RefCommand) : Prop where
  format : ∀ name oid, .update name oid ∈ commands → RefFormat name.toList
  apart : ∀ a ∈ (commands.foldl RefCommand.run refs).keys,
    ∀ b ∈ (commands.foldl RefCommand.run refs).keys, ¬IsFolder a b

/-- A transaction deletes no ref that is a folder of one it updates, or lies under one. Git refuses the others, whatever
refs there are after them. -/
def Separate (commands : List RefCommand) : Prop :=
  ∀ a oid b, .update a oid ∈ commands → .delete b ∈ commands → ¬IsFolder a b ∧ ¬IsFolder b a

/-- The transaction makes the served refs the wanted ones. -/
theorem run_moveRefs (served wanted : SortedMap String String) :
    (moveRefs served wanted).foldl RefCommand.run served = wanted := by
  have hrun : (moveRefs served wanted).foldl RefCommand.run served =
      (served.insertAll (wanted.entries.filter fun x => served.lookup x.1 ≠ some x.2)).eraseAll
        (served.keys.filter fun name => name ∉ wanted.keys) := by
    rw [moveRefs, foldl_append, foldl_map, foldl_map]
    rfl
  have hnodup : ((wanted.entries.filter fun x => served.lookup x.1 ≠ some x.2).map Prod.fst).Nodup :=
    wanted.nodup_keys.sublist (filter_sublist.map _)
  refine hrun ▸ ext_lookup fun name => ?_
  rw [lookup_eraseAll]
  cases hwant : wanted.lookup name with
  | none =>
    have hkey := lookup_eq_none_iff.mp hwant
    split_ifs with hin
    · rfl
    · have hserved : name ∉ served.keys := fun hmem => hin (mem_filter.mpr ⟨hmem, decide_eq_true hkey⟩)
      rw [lookup_insertAll_of_notMem, lookup_eq_none_iff.mpr hserved]
      exact fun hmem => hkey (map_subset _ (filter_subset_self _) hmem)
  | some oid =>
    have hkept : name ∉ served.keys.filter fun name => name ∉ wanted.keys := fun hmem => by
      have hnot : name ∉ wanted.keys := of_decide_eq_true (mem_filter.mp hmem).2
      exact hnot (mem_keys_iff.mpr ⟨oid, hwant⟩)
    rw [if_neg hkept]
    by_cases hsame : served.lookup name = some oid
    · -- what is served already is not updated
      rw [lookup_insertAll_of_notMem, hsame]
      intro hmem
      obtain ⟨x, hx, rfl⟩ := mem_map.mp hmem
      obtain ⟨hx, hne⟩ := mem_filter.mp hx
      obtain rfl := Option.some.inj (hwant.symm.trans (lookup_eq_some_iff.mpr hx))
      exact of_decide_eq_true hne hsame
    · exact lookup_insertAll_of_mem _ hnodup
        (mem_filter.mpr ⟨lookup_eq_some_iff.mp hwant, decide_eq_true hsame⟩)

/-! ### Legal names -/

theorem isLegalRefPath_name (h : isLegalRefName name = true) : isLegalRefPath name.toList = true := by
  obtain ⟨-, ⟨path, hpath, heq⟩, -⟩ := isLegalRefName_iff.mp h
  rw [heq, isLegalRefPath_iff_mem, mem_refPathLanguage]
  exact .cons (c := "refs".toList) ⟨by decide, forall_iff_forall_mem.mp (by decide), by decide⟩
    (mem_refSeparator.mpr (.inl rfl)) (mem_refPathLanguage.mp hpath)

theorem refFormat_iff {cs : List Char} (h : isLegalRefPath cs = true) :
    RefFormat cs ↔ ∀ c ∈ cs.splitOn '/', ¬".lock".toList <:+ c := by
  have hshape := isLegalRefPath_iff_shape.mp h
  simp only [isLegalRefPath, Bool.and_eq_true, Bool.not_eq_true', decide_eq_false_iff_not, any_eq_false,
    all_eq_true, isEmpty_eq_false_iff, Bool.not_eq_true] at h
  obtain ⟨⟨⟨⟨⟨-, hdots⟩, hbrace⟩, hdot⟩, hchars⟩, hparts⟩ := h
  refine ⟨fun hformat c hc => (hformat.component c hc).2.2, fun hlock =>
    ⟨fun c hc => ⟨(hparts c hc).1, (hparts c hc).2, hlock c hc⟩, hdots, hbrace, hchars, hdot, ?_⟩⟩
  rintro ⟨u, rfl⟩
  exact (hshape.last '/' getLast?_concat).2 rfl

theorem servableRef_iff (h : isLegalRefName name = true) : servableRef name = true ↔
    ¬staging.toList <+: name.toList ∧ ¬".lock".toList <:+ name.toList.map Char.toLower := by
  obtain ⟨-, ⟨path, -, heq⟩, -⟩ := isLegalRefName_iff.mp h
  have hpath := isLegalRefPath_name h
  have hshape := isLegalRefPath_iff_shape.mp hpath
  have hslash : ¬['/'] <:+ name.toList := by
    rintro ⟨u, hu⟩
    exact (hshape.last '/' (hu ▸ getLast?_concat)).2 rfl
  have hslashes : ¬['/', '/'] <:+: name.toList :=
    not_pair_infix_iff.mpr (hshape.pairs.imp fun a b hab hboth => hab.2.2 ⟨hboth.1, .inl hboth.2⟩)
  have hrefs : "refs/".toList <+: name.toList := ⟨path, heq.symm⟩
  simp only [isLegalRefPath, Bool.and_eq_true, Bool.not_eq_true', decide_eq_false_iff_not, any_eq_false,
    all_eq_true, isEmpty_eq_false_iff, Bool.not_eq_true] at hpath
  obtain ⟨⟨⟨⟨⟨-, hdots⟩, hbrace⟩, hdot⟩, hchars⟩, hparts⟩ := hpath
  simp only [servableRef, Bool.and_eq_true, Bool.not_eq_true', decide_eq_false_iff_not, decide_eq_true_eq,
    any_eq_false, all_eq_true, Bool.or_eq_true, List.isEmpty_iff, not_or]
  refine ⟨fun hserve => ⟨hserve.1.1.1.1.1.1.1.1.2, hserve.1.1.1.1.1.1.2⟩, fun ⟨hstaging, hlock⟩ => ?_⟩
  exact ⟨⟨⟨⟨⟨⟨⟨⟨⟨hrefs, hstaging⟩, hslash⟩, hlock⟩, hdot⟩, hdots⟩, hslashes⟩, hbrace⟩, hparts⟩, hchars⟩

/-! ### What is served -/

/-- The refs the mirror may serve. -/
def servable (refs : SortedMap String String) : SortedMap String String := refs.filter fun name _ => servableRef name

theorem mem_keys_servable : name ∈ (servable refs).keys ↔ name ∈ refs.keys ∧ servableRef name = true := by
  simp [mem_keys_iff, servable, lookup_filter]

theorem mem_keys_of_update_mem (h : .update name oid ∈ moveRefs served wanted) : name ∈ wanted.keys := by
  rcases mem_append.mp h with hmem | hmem
  · obtain ⟨x, hx, heq⟩ := mem_map.mp hmem
    obtain ⟨rfl, rfl⟩ := RefCommand.update.inj heq
    exact mem_map_of_mem (mem_of_mem_filter hx)
  · obtain ⟨x, -, heq⟩ := mem_map.mp hmem
    cases heq

theorem notMem_keys_of_delete_mem (h : .delete name ∈ moveRefs served wanted) :
    name ∈ served.keys ∧ name ∉ wanted.keys := by
  rcases mem_append.mp h with hmem | hmem
  · obtain ⟨x, -, heq⟩ := mem_map.mp hmem
    cases heq
  · obtain ⟨x, hx, heq⟩ := mem_map.mp hmem
    obtain rfl := RefCommand.delete.inj heq
    exact ⟨mem_of_mem_filter hx, of_decide_eq_true (mem_filter.mp hx).2⟩

/-- Where no name that is updated has a component that ends in `.lock`, what is assumed of git comes down to the names
to be served. -/
theorem accepts_moveRefs_iff (hlegal : ∀ name ∈ wanted.keys, isLegalRefName name = true)
    (hlock : ∀ name oid, .update name oid ∈ moveRefs served wanted →
      ∀ c ∈ name.toList.splitOn '/', ¬".lock".toList <:+ c) :
    Accepts served (moveRefs served wanted) ↔ ∀ a ∈ wanted.keys, ∀ b ∈ wanted.keys, ¬IsFolder a b := by
  refine ⟨fun h => run_moveRefs served wanted ▸ h.apart, fun happart => ⟨fun name oid hmem => ?_, ?_⟩⟩
  · have hname := isLegalRefPath_name (hlegal name (mem_keys_of_update_mem hmem))
    exact (refFormat_iff hname).mpr (hlock name oid hmem)
  · rwa [run_moveRefs]

/-- **The refs a mirror serves.** For refs of legal names, the transaction makes the served refs those the mirror may
serve. If no name it updates has a component that ends in `.lock`, it is accepted exactly if no name to be served is a
folder of another; by a git for which this is assumed only of transactions that keep apart what they update and delete,
if also no ref it drops is a folder of one to be served, or under one. Of the names that git accepts, the mirror serves
those outside its own that do not end in `.lock` in some case. -/
theorem moveRefs_servable (hlegal : ∀ name ∈ refs.keys, isLegalRefName name = true) (served : SortedMap String String) :
    (moveRefs served (servable refs)).foldl RefCommand.run served = servable refs ∧
    ((∀ name oid, .update name oid ∈ moveRefs served (servable refs) →
        ∀ c ∈ name.toList.splitOn '/', ¬".lock".toList <:+ c) →
      (Accepts served (moveRefs served (servable refs)) ↔
        ∀ a ∈ (servable refs).keys, ∀ b ∈ (servable refs).keys, ¬IsFolder a b) ∧
      ∀ accepts : SortedMap String String → List RefCommand → Prop,
        (∀ refs commands, Separate commands → (accepts refs commands ↔ Accepts refs commands)) →
        (∀ a ∈ (servable refs).keys, ∀ b ∈ served.keys, b ∉ (servable refs).keys → ¬IsFolder a b ∧ ¬IsFolder b a) →
        (accepts served (moveRefs served (servable refs)) ↔
          ∀ a ∈ (servable refs).keys, ∀ b ∈ (servable refs).keys, ¬IsFolder a b)) ∧
    ∀ name ∈ refs.keys, RefFormat name.toList → (name ∈ (servable refs).keys ↔
      ¬staging.toList <+: name.toList ∧ ¬".lock".toList <:+ name.toList.map Char.toLower) := by
  have hwanted : ∀ name ∈ (servable refs).keys, isLegalRefName name = true := fun name hname =>
    hlegal name (mem_keys_servable.mp hname).1
  refine ⟨run_moveRefs _ _, fun hlock => ?_, fun name hname _ => ?_⟩
  · have hiff := accepts_moveRefs_iff hwanted hlock
    refine ⟨hiff, fun accepts hgit hdropped => (hgit _ _ fun a oid b hupdate hdelete => ?_).trans hiff⟩
    obtain ⟨hb, hkept⟩ := notMem_keys_of_delete_mem hdelete
    exact hdropped a (mem_keys_of_update_mem hupdate) b hb hkept
  · rw [mem_keys_servable, and_iff_right hname, servableRef_iff (hlegal name hname)]

/-- A branch is created and a stale one deleted, by a git that also refuses a transaction which deletes a folder of what
it updates. -/
theorem moveRefs_servable_sample :
    let commands := moveRefs (.ofList [("refs/heads/old", "1")]) (servable (.ofList [("refs/heads/main", "2")]))
    Accepts (.ofList [("refs/heads/old", "1")]) commands ∧ Separate commands := by
  have h := (@moveRefs_servable (.ofList [("refs/heads/main", "2")]) (by decide +kernel)
    (.ofList [("refs/heads/old", "1")])).2.1
  have hmoves : moveRefs (.ofList [("refs/heads/old", "1")]) (servable (.ofList [("refs/heads/main", "2")])) =
      [.update "refs/heads/main" "2", .delete "refs/heads/old"] := by decide +kernel
  refine ((h fun name oid hmem => ?_).2 (fun refs commands => Accepts refs commands ∧ Separate commands)
    (fun refs commands hseparate => and_iff_left hseparate) (by decide +kernel)).mpr (by decide +kernel)
  rw [hmoves, mem_cons, mem_singleton] at hmem
  obtain ⟨rfl, rfl⟩ := RefCommand.update.inj (hmem.resolve_right nofun)
  decide +kernel

/-- A component that ends in `.lock`, and a branch beside a folder of its name, each stop the transaction; and a branch
`a.LOCK` is not served, though git accepts it. -/
theorem moveRefs_refused :
    (isLegalRefName "refs/heads/a.lock/b" = true ∧
      ¬Accepts .empty (moveRefs .empty (servable (.ofList [("refs/heads/a.lock/b", "1")])))) ∧
    (isLegalRefName "refs/heads/a" = true ∧ isLegalRefName "refs/heads/a/b" = true ∧
      ¬Accepts .empty (moveRefs .empty (servable (.ofList [("refs/heads/a", "1"), ("refs/heads/a/b", "2")])))) ∧
    (isLegalRefName "refs/heads/a.LOCK" = true ∧ RefFormat "refs/heads/a.LOCK".toList ∧
      servableRef "refs/heads/a.LOCK" = false) := by
  refine ⟨⟨by decide +kernel, fun h => ?_⟩, ⟨by decide +kernel, by decide +kernel, fun h => ?_⟩, by decide +kernel, ?_,
    by decide +kernel⟩
  · have hformat := h.format "refs/heads/a.lock/b" "1" (by decide +kernel)
    exact (hformat.component "a.lock".toList (by decide +kernel)).2.2 (by decide +kernel)
  · have happart := h.apart
    rw [run_moveRefs] at happart
    exact happart "refs/heads/a" (by decide +kernel) "refs/heads/a/b" (by decide +kernel) (by decide +kernel)
  · rw [refFormat_iff (by decide +kernel)]
    decide +kernel

end DashForge.Mirror
