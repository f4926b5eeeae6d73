import DashForge.Pack.HistoryIndex
import Mathlib.Data.Finset.Basic

/-!
# The walk behind the history index

How `git log` over a first-parent range becomes a list of changes for each path (`pack/historyindex.rs`).
The log is read newest first. The lines of a commit are gathered by path (`Walk.touch`) and settled when the
next commit starts (`settle`); a path is open until its list reaches the commit that added it or the limit, and
the walk stops when no path is open.

What git prints is a relation (`LogOf`), as a commit's lines come in any order and a change between a tree and
a blob is two of them. `firstParentChanges_spec` is the result: the first changes of each path, up to the limit.
-/

namespace DashForge.History

open List Option SortedMap

/-! ### Reading the log -/

/-- A token of the log. -/
inductive LogToken where
  | commit (oid : Bytes)
  | raw (path : Bytes) (srcMode dstMode : ℕ) (dstOid : Bytes)
deriving DecidableEq

/-- One change of a path, as the log reports it. -/
structure RawVersion where
  commit : Bytes
  mode : ℕ
  oid : Bytes
deriving DecidableEq

/-- A path's changes found so far. -/
structure RawList where
  versions : List RawVersion := []
  complete : Bool := false
deriving DecidableEq

abbrev RawLists := SortedMap Bytes RawList

/-- What the lines of one commit say about a path: whether its first parent had it, and its entry after. -/
structure Touch where
  inParent : Bool := false
  after : Option (ℕ × Bytes) := none
deriving DecidableEq

/-- Take in a line. A change between a tree and a blob is a delete and an add. -/
def Touch.line (t : Touch) (l : ℕ × ℕ × Bytes) : Touch where
  inParent := t.inParent || l.1 ≠ 0
  after := if l.2.1 ≠ 0 then some l.2 else t.after

/-- The state of the walk. -/
structure Walk where
  current : Option Bytes := none
  touched : SortedMap Bytes Touch := .empty
  open_ : Finset Bytes
  lists : RawLists := .empty

/-- Take in a line of an open path. -/
def Walk.touch (w : Walk) (path : Bytes) (l : ℕ × ℕ × Bytes) : Walk :=
  if path ∈ w.open_ then { w with touched := w.touched.insert path (((w.touched.lookup path).getD {}).line l) } else w

/-- Add a change to a list, which is complete when the parent did not have the path. -/
def RawList.push (l : RawList) (v : RawVersion) (inParent : Bool) : RawList := ⟨l.versions ++ [v], !inParent⟩

/-- Whether a list needs no older changes. -/
def RawList.closed (limit : ℕ) (l : RawList) : Bool := l.complete || limit ≤ l.versions.length

section Walk

variable (limit : ℕ)

/-- Append the change a commit made to one path. -/
def settlePath (commit : Option Bytes) (x : Finset Bytes × RawLists) (e : Bytes × Touch) :
    Except (Fault PackError) (Finset Bytes × RawLists) := do
  let commit ← orErr commit (bad "git log: a change before any commit")
  let after ← orErr e.2.after (bad "git log: a listed path is absent after its change")
  let list := ((x.2.lookup e.1).getD {}).push ⟨commit, after.1, after.2⟩ e.2.inParent
  return (if list.closed limit then x.1.erase e.1 else x.1, x.2.insert e.1 list)

/-- Append the changes one commit made. -/
def settle (w : Walk) : Except (Fault PackError) Walk := do
  let x ← w.touched.entries.foldlM (settlePath limit w.current) (w.open_, w.lists)
  return { w with touched := .empty, open_ := x.1, lists := x.2 }

def walk : List LogToken → Walk → Except (Fault PackError) Walk
  | [], w => settle limit w
  | token :: tokens, w =>
    if w.open_ = ∅ then settle limit w
    else
      match token with
      | .commit oid => do
        let w ← settle limit w
        walk tokens { w with current := some oid }
      | .raw path src dst oid => walk tokens (w.touch path (src, dst, oid))

/-- The changes of each path of `paths`, newest first, at most `limit` of a path. -/
def firstParentChanges (tokens : List LogToken) (paths : List Bytes) : Except (Fault PackError) RawLists := do
  let w ← walk limit tokens { open_ := paths.toFinset }
  return w.lists

end Walk

/-! ### First-parent histories -/

/-- An entry of a tree. -/
structure TreeEntry where
  mode : ℕ
  oid : Bytes
  mode_ne_zero : mode ≠ 0
deriving DecidableEq

/-- Every path of a commit, directories included. -/
abbrev Tree := SortedMap Bytes TreeEntry

structure Commit where
  oid : Bytes
  tree : Tree

/-- The entry of a path at the tip of a history, which is listed newest first. -/
def entryAt : List Commit → Bytes → Option TreeEntry
  | [], _ => none
  | c :: _, p => c.tree.lookup p

/-- What git prints of a path between two trees: nothing, a line, or a delete and an add. -/
inductive LinesOf : Option TreeEntry → Option TreeEntry → List (ℕ × ℕ × Bytes) → Prop
  | same (e) : LinesOf e e []
  | add (e) : LinesOf none (some e) [(0, e.mode, e.oid)]
  | delete (e zero) : LinesOf (some e) none [(e.mode, 0, zero)]
  | modify (e e') : e ≠ e' → LinesOf (some e) (some e') [(e.mode, e'.mode, e'.oid)]
  | deleteAdd (e e' zero) : e ≠ e' → LinesOf (some e) (some e') [(e.mode, 0, zero), (0, e'.mode, e'.oid)]
  | addDelete (e e' zero) : e ≠ e' → LinesOf (some e) (some e') [(0, e'.mode, e'.oid), (e.mode, 0, zero)]

/-- The raw lines of a path. -/
def linesAt (p : Bytes) (lines : List (Bytes × ℕ × ℕ × Bytes)) : List (ℕ × ℕ × Bytes) :=
  (lines.filter fun l => l.1 = p).map Prod.snd

def rawToken (l : Bytes × ℕ × ℕ × Bytes) : LogToken := .raw l.1 l.2.1 l.2.2.1 l.2.2.2

/-- The log of the newest commits of a history, after `base`. -/
inductive LogOf (base : List Commit) : List Commit → List LogToken → Prop
  | nil : LogOf base [] []
  | cons {c : Commit} {new : List Commit} {lines : List (Bytes × ℕ × ℕ × Bytes)} {tokens : List LogToken} :
      (∀ p, LinesOf (entryAt (new ++ base) p) (c.tree.lookup p) (linesAt p lines)) → LogOf base new tokens →
      LogOf base (c :: new) (.commit c.oid :: (lines.map rawToken ++ tokens))

/-- A change of a path, and whether it added it. -/
structure Change where
  version : RawVersion
  added : Bool
deriving DecidableEq

/-- The changes of a path in the newest commits of a history, newest first, back to the newest that added it. -/
def changesIn (base : List Commit) (p : Bytes) : List Commit → List Change
  | [] => []
  | c :: new =>
    let before := entryAt (new ++ base) p
    if before = c.tree.lookup p then changesIn base p new
    else
      match c.tree.lookup p with
      | none => []
      | some e => ⟨⟨c.oid, e.mode, e.oid⟩, before.isNone⟩ :: if before.isNone then [] else changesIn base p new

/-! ### One commit -/

theorem LinesOf.foldl_line {before after : Option TreeEntry} {lines : List (ℕ × ℕ × Bytes)}
    (h : LinesOf before after lines) :
    (lines = [] ↔ before = after) ∧ (lines ≠ [] → lines.foldl Touch.line {} =
      ⟨before.isSome, after.map fun e => (e.mode, e.oid)⟩) := by
  cases h with
  | same e => simp
  | add e => simp [Touch.line, e.mode_ne_zero]
  | delete e zero => simp [Touch.line, e.mode_ne_zero]
  | modify e e' hne => simp [Touch.line, e.mode_ne_zero, e'.mode_ne_zero, hne]
  | deleteAdd e e' zero hne => simp [Touch.line, e.mode_ne_zero, e'.mode_ne_zero, hne]
  | addDelete e e' zero hne => simp [Touch.line, e.mode_ne_zero, e'.mode_ne_zero, hne]

theorem Walk.touch_frame (w : Walk) (path : Bytes) (l : ℕ × ℕ × Bytes) : (w.touch path l).open_ = w.open_ ∧
    (w.touch path l).lists = w.lists ∧ (w.touch path l).current = w.current := by
  rw [touch]
  split <;> exact ⟨rfl, rfl, rfl⟩

/-- Take in all lines of a commit. -/
def Walk.touchAll (w : Walk) (lines : List (Bytes × ℕ × ℕ × Bytes)) : Walk := lines.foldl (fun w l => w.touch l.1 l.2) w

theorem Walk.touchAll_frame (w : Walk) (lines : List (Bytes × ℕ × ℕ × Bytes)) : (w.touchAll lines).open_ = w.open_ ∧
    (w.touchAll lines).lists = w.lists ∧ (w.touchAll lines).current = w.current := by
  induction lines generalizing w with
  | nil => exact ⟨rfl, rfl, rfl⟩
  | cons l lines ih =>
    obtain ⟨hopen, hlists, hcurrent⟩ := w.touch_frame l.1 l.2
    obtain ⟨hopen', hlists', hcurrent'⟩ := ih (w.touch l.1 l.2)
    exact ⟨hopen'.trans hopen, hlists'.trans hlists, hcurrent'.trans hcurrent⟩

theorem Walk.lookup_touchAll (w : Walk) (lines : List (Bytes × ℕ × ℕ × Bytes)) (p : Bytes) :
    (w.touchAll lines).touched.lookup p = if p ∈ w.open_ ∧ linesAt p lines ≠ [] then
        some ((linesAt p lines).foldl Touch.line ((w.touched.lookup p).getD {})) else w.touched.lookup p := by
  induction lines generalizing w with
  | nil => simp [touchAll, linesAt]
  | cons l lines ih =>
    rw [touchAll, foldl_cons, ← touchAll, ih, (w.touch_frame l.1 l.2).1]
    by_cases hopen : p ∈ w.open_
    · by_cases hl : l.1 = p
      · subst hl
        have htouch : (w.touch l.1 l.2).touched.lookup l.1 = some (((w.touched.lookup l.1).getD {}).line l.2) := by
          rw [touch, if_pos hopen, lookup_insert, if_pos rfl]
        have hlines : linesAt l.1 (l :: lines) = l.2 :: linesAt l.1 lines := by simp [linesAt]
        rw [htouch, hlines]
        split
        · simp [hopen]
        · next hnil =>
          have hnil' : linesAt l.1 lines = [] := by simpa [hopen] using hnil
          simp [hopen, hnil']
      · have htouch : (w.touch l.1 l.2).touched.lookup p = w.touched.lookup p := by
          rw [touch]
          split
          · rw [lookup_insert, if_neg (Ne.symm hl)]
          · rfl
        have hlines : linesAt p (l :: lines) = linesAt p lines := by simp [linesAt, hl]
        rw [htouch, hlines]
    · have htouch : (w.touch l.1 l.2).touched.lookup p = w.touched.lookup p := by
        rw [touch]
        split
        · next hl =>
          have hne : p ≠ l.1 := fun h => hopen (h ▸ hl)
          rw [lookup_insert, if_neg hne]
        · rfl
      simp [hopen, htouch]

/-- What is known of a path: whether it is open, and its list. -/
def viewOf (x : Finset Bytes × RawLists) (p : Bytes) : Bool × Option RawList := (p ∈ x.1, x.2.lookup p)

def Walk.view (w : Walk) (p : Bytes) : Bool × Option RawList := viewOf (w.open_, w.lists) p

section Settle

variable (limit : ℕ)

/-- What a change does to what is known of its path. -/
def pushView (v : RawVersion) (inParent : Bool) (s : Bool × Option RawList) : Bool × Option RawList :=
  let list := (s.2.getD {}).push v inParent
  (s.1 && !list.closed limit, some list)

/-- What a commit does to what is known of a path. -/
def pathStep (oid : Bytes) (before after : Option TreeEntry) (s : Bool × Option RawList) : Bool × Option RawList :=
  match after with
  | none => s
  | some e => if s.1 ∧ before ≠ after then pushView limit ⟨oid, e.mode, e.oid⟩ before.isSome s else s

variable {limit}

theorem settlePath_eq {oid path : Bytes} {mode : ℕ} {entry : Bytes} {inParent : Bool} (x : Finset Bytes × RawLists) :
    ∃ x', settlePath limit (some oid) x (path, ⟨inParent, some (mode, entry)⟩) = .ok x' ∧ ∀ p, viewOf x' p =
      if p = path then pushView limit ⟨oid, mode, entry⟩ inParent (viewOf x p) else viewOf x p := by
  refine ⟨_, rfl, fun p => ?_⟩
  simp only [viewOf, pushView, lookup_insert]
  by_cases hp : p = path
  · subst hp
    simp only [if_true, Prod.mk.injEq, and_true]
    split
    · next hclosed => simp [hclosed]
    · next hclosed => simp [hclosed]
  · simp only [if_neg hp, Prod.mk.injEq, and_true]
    split
    · simp [hp]
    · rfl

theorem foldlM_settlePath {oid : Bytes} {entries : List (Bytes × Touch)} (hkeys : (entries.map Prod.fst).Nodup)
    (hafter : ∀ e ∈ entries, e.2.after ≠ none) (x : Finset Bytes × RawLists) :
    ∃ x', entries.foldlM (settlePath limit (some oid)) x = .ok x' ∧
      (∀ p, (∀ e ∈ entries, e.1 ≠ p) → viewOf x' p = viewOf x p) ∧
      ∀ path inParent mode entry, (path, ⟨inParent, some (mode, entry)⟩) ∈ entries →
        viewOf x' path = pushView limit ⟨oid, mode, entry⟩ inParent (viewOf x path) := by
  induction entries generalizing x with
  | nil => exact ⟨x, rfl, fun _ _ => rfl, by simp⟩
  | cons e entries ih =>
    obtain ⟨path, inParent, after⟩ := e
    obtain ⟨hpath, hkeys'⟩ := nodup_cons.mp hkeys
    obtain ⟨⟨mode, entry⟩, rfl⟩ := ne_none_iff_exists'.mp (hafter _ mem_cons_self)
    obtain ⟨x₁, hstep, hview⟩ := @settlePath_eq limit oid path mode entry inParent x
    obtain ⟨x', hfold, hframe, hpush⟩ := ih hkeys' (fun e he => hafter e (mem_cons_of_mem _ he)) x₁
    have hnot : ∀ e ∈ entries, e.1 ≠ path := fun e he h => hpath (mem_map.mpr ⟨e, he, h⟩)
    refine ⟨x', by rw [foldlM_cons, hstep]; exact hfold, fun p hp => ?_, fun q inParent' mode' entry' hq => ?_⟩
    · rw [hframe p fun e he => hp e (mem_cons_of_mem _ he), hview, if_neg fun h => hp _ mem_cons_self h.symm]
    · rcases mem_cons.mp hq with heq | hq
      · obtain ⟨rfl, hrest⟩ := Prod.mk.inj heq
        obtain ⟨rfl, hafter'⟩ := Touch.mk.inj hrest
        obtain ⟨rfl, rfl⟩ := Prod.mk.inj (some.inj hafter')
        rw [hframe q hnot, hview, if_pos rfl]
      · have hne : q ≠ path := fun h => hnot _ hq h
        rw [hpush q inParent' mode' entry' hq, hview, if_neg hne]

/-- The touches of a commit between two trees. -/
def Walk.Between (w : Walk) (before after : Bytes → Option TreeEntry) : Prop := ∀ p, w.touched.lookup p =
  if p ∈ w.open_ ∧ before p ≠ after p then some ⟨(before p).isSome, (after p).map fun e => (e.mode, e.oid)⟩ else none

variable {w : Walk}

theorem between_touchAll {before after : Bytes → Option TreeEntry}
    {lines : List (Bytes × ℕ × ℕ × Bytes)} (htouched : w.touched = .empty)
    (hlines : ∀ p, LinesOf (before p) (after p) (linesAt p lines)) : (w.touchAll lines).Between before after := by
  intro p
  obtain ⟨hnil, hfold⟩ := (hlines p).foldl_line
  rw [Walk.lookup_touchAll, (w.touchAll_frame lines).1, htouched, lookup_empty]
  by_cases hopen : p ∈ w.open_
  · by_cases hne : linesAt p lines = []
    · simp [hne, hnil.mp hne]
    · have hdiff : before p ≠ after p := fun h => hne (hnil.mpr h)
      rw [if_pos ⟨hopen, hne⟩, if_pos ⟨hopen, hdiff⟩, getD_none, hfold hne]
  · simp [hopen]

theorem settle_eq {oid : Bytes} {before after : Bytes → Option TreeEntry} (hcurrent : w.current = some oid)
    (hbetween : w.Between before after) (hpresent : ∀ p ∈ w.open_, before p ≠ after p → after p ≠ none) :
    ∃ w', settle limit w = .ok w' ∧ w'.touched = .empty ∧
      ∀ p, w'.view p = pathStep limit oid (before p) (after p) (w.view p) := by
  have hkeys : (w.touched.entries.map Prod.fst).Nodup :=
    pairwise_map.mpr (w.touched.sorted.imp fun h => h.ne)
  have hentry : ∀ e ∈ w.touched.entries, e.1 ∈ w.open_ ∧ before e.1 ≠ after e.1 ∧
      e.2 = ⟨(before e.1).isSome, (after e.1).map fun e => (e.mode, e.oid)⟩ := by
    rintro ⟨p, t⟩ he
    have hlookup := hbetween p
    rw [lookup_eq_some_iff.mpr he] at hlookup
    split at hlookup
    · next h => exact ⟨h.1, h.2, some.inj hlookup⟩
    · cases hlookup
  have hafter : ∀ e ∈ w.touched.entries, e.2.after ≠ none := by
    intro e he
    obtain ⟨hopen, hne, heq⟩ := hentry e he
    rw [heq]
    simpa using hpresent e.1 hopen hne
  obtain ⟨x', hfold, hframe, hpush⟩ := @foldlM_settlePath limit oid _ hkeys hafter (w.open_, w.lists)
  refine ⟨{ w with touched := .empty, open_ := x'.1, lists := x'.2 }, ?_, rfl, fun p => ?_⟩
  · rw [settle, hcurrent, hfold]
    rfl
  · change viewOf x' p = _
    have hopen : (w.view p).1 = true ↔ p ∈ w.open_ := decide_eq_true_iff
    by_cases hp : p ∈ w.open_ ∧ before p ≠ after p
    · cases ha : after p with
      | none => exact absurd ha (hpresent p hp.1 hp.2)
      | some e =>
        have hlookup := hbetween p
        rw [if_pos hp, ha] at hlookup
        rw [hpush p _ _ _ (lookup_eq_some_iff.mp hlookup)]
        exact (if_pos ⟨hopen.mpr hp.1, ha ▸ hp.2⟩).symm
    · rw [hframe p fun e he h => hp (h ▸ ⟨(hentry e he).1, (hentry e he).2.1⟩)]
      cases ha : after p with
      | none => rfl
      | some e => exact (if_neg fun h => hp ⟨hopen.mp h.1, ha ▸ h.2⟩).symm

end Settle

/-! ### The walk -/

section Run

variable {limit : ℕ} {base : List Commit}

variable {w : Walk} {new : List Commit}

theorem settle_of_touched_empty (h : w.touched = .empty) : settle limit w = .ok w := by
  obtain ⟨current, touched, open_, lists⟩ := w
  subst h
  rfl

theorem touched_of_settle {w' : Walk} (h : settle limit w = .ok w') : w'.touched = .empty := by
  obtain ⟨x, -, hw⟩ := bind_eq_ok.mp h
  rw [← pure_eq_ok.mp hw]

theorem walk_of_open_empty (h : w.open_ = ∅) (tokens : List LogToken) : walk limit tokens w = settle limit w := by
  cases tokens with
  | nil => rfl
  | cons token tokens => cases token <;> rw [walk, if_pos h]

theorem Walk.touchAll_of_open_empty (h : w.open_ = ∅) (lines : List (Bytes × ℕ × ℕ × Bytes)) :
    w.touchAll lines = w := by
  induction lines with
  | nil => rfl
  | cons l lines ih =>
    have htouch : w.touch l.1 l.2 = w := by simp [touch, h]
    rw [touchAll, foldl_cons, htouch]
    exact ih

theorem walk_rawTokens (lines : List (Bytes × ℕ × ℕ × Bytes)) (tokens : List LogToken) (w : Walk) :
    walk limit (lines.map rawToken ++ tokens) w = walk limit tokens (w.touchAll lines) := by
  by_cases hempty : w.open_ = ∅
  · rw [walk_of_open_empty hempty, w.touchAll_of_open_empty hempty, walk_of_open_empty hempty]
  · induction lines generalizing w with
    | nil => rfl
    | cons l lines ih =>
      rw [map_cons, cons_append, rawToken, walk, if_neg hempty]
      exact ih (w.touch l.1 l.2) ((w.touch_frame l.1 l.2).1 ▸ hempty)

variable (limit base) in
/-- What the newest commits of a history do to what is known of a path. -/
def pathRun (p : Bytes) : List Commit → Bool × Option RawList → Bool × Option RawList
  | [], s => s
  | c :: new, s => pathRun p new (pathStep limit c.oid (entryAt (new ++ base) p) (c.tree.lookup p) s)

variable {o : Option RawList} {tokens : List LogToken}

theorem pathStep_closed {oid : Bytes} {before after : Option TreeEntry} :
    pathStep limit oid before after (false, o) = (false, o) := by
  cases after <;> simp [pathStep]

theorem pathRun_closed (p : Bytes) (new : List Commit) (o : Option RawList) :
    pathRun limit base p new (false, o) = (false, o) := by
  induction new with
  | nil => rfl
  | cons c new ih => rw [pathRun, pathStep_closed, ih]

theorem before_ne_none_of_pathStep {oid : Bytes} {before after : Option TreeEntry} {s : Bool × Option RawList}
    (hafter : s.1 → after ≠ none) (h : (pathStep limit oid before after s).1 = true) : s.1 = true ∧ before ≠ none := by
  obtain ⟨isOpen, o⟩ := s
  cases isOpen with
  | false => simp [pathStep_closed] at h
  | true =>
    refine ⟨rfl, fun hnone => ?_⟩
    subst hnone
    cases after with
    | none => exact hafter rfl rfl
    | some e => simp [pathStep, pushView, RawList.push, RawList.closed] at h

theorem walk_eq (hlog : LogOf base new tokens) {w₁ : Walk}
    (hsettle : settle limit w = .ok w₁) (hidle : w.open_ = ∅ → w.touched = .empty)
    (hpresent : ∀ p ∈ w₁.open_, entryAt (new ++ base) p ≠ none) :
    ∃ w', walk limit tokens w = .ok w' ∧ ∀ p, w'.view p = pathRun limit base p new (w₁.view p) := by
  induction hlog generalizing w w₁ with
  | nil => exact ⟨w₁, hsettle, fun _ => rfl⟩
  | @cons c new lines tokens hlines hlog ih =>
    by_cases hempty : w.open_ = ∅
    · -- no path is open, and none will be
      have hw := hsettle.symm.trans (settle_of_touched_empty (hidle hempty))
      obtain rfl := Except.ok.inj hw
      refine ⟨w₁, by rw [walk_of_open_empty hempty, hsettle], fun p => ?_⟩
      have hclosed : w₁.view p = (false, w₁.lists.lookup p) := by simp [Walk.view, viewOf, hempty]
      rw [hclosed, pathRun_closed]
    · have hrun : walk limit (.commit c.oid :: (lines.map rawToken ++ tokens)) w =
          walk limit tokens (({ w₁ with current := some c.oid } : Walk).touchAll lines) := by
        rw [walk, if_neg hempty, hsettle, ok_bind, walk_rawTokens]
      have htouched : w₁.touched = .empty := touched_of_settle hsettle
      have hframe := ({ w₁ with current := some c.oid } : Walk).touchAll_frame lines
      have hbetween : (({ w₁ with current := some c.oid } : Walk).touchAll lines).Between
          (entryAt (new ++ base)) fun p => c.tree.lookup p := between_touchAll htouched hlines
      have hidle' : (({ w₁ with current := some c.oid } : Walk).touchAll lines).open_ = ∅ →
          (({ w₁ with current := some c.oid } : Walk).touchAll lines).touched = .empty := fun h => by
        rw [Walk.touchAll_of_open_empty (hframe.1.symm.trans h)]
        exact htouched
      generalize ({ w₁ with current := some c.oid } : Walk).touchAll lines = w₂ at hrun hframe hbetween hidle'
      have hview : ∀ p, w₂.view p = w₁.view p := fun p => by simp only [Walk.view, hframe.1, hframe.2.1]
      have hopen : ∀ p ∈ w₂.open_, c.tree.lookup p ≠ none := fun p hp => hpresent p (hframe.1 ▸ hp)
      obtain ⟨w₃, hsettle₃, -, hview₃⟩ := @settle_eq limit w₂ c.oid _ _ hframe.2.2 hbetween fun p hp _ => hopen p hp
      obtain ⟨w', hwalk, hw'⟩ := ih hsettle₃ hidle' fun p hp => by
        have hp' : (w₃.view p).1 = true := decide_eq_true hp
        rw [hview₃] at hp'
        refine (before_ne_none_of_pathStep (fun h => hopen p (of_decide_eq_true h)) hp').2
      refine ⟨w', hrun.trans hwalk, fun p => ?_⟩
      rw [hw', hview₃, hview, pathRun]

/-- The list of a path's changes, up to the limit. -/
def listOf (limit : ℕ) (cs : List Change) : RawList :=
  ⟨(cs.take limit).map Change.version, (cs.take limit).getLast?.any Change.added⟩

theorem pathRun_open {p : Bytes} {vs : List RawVersion}
    (ho : o.getD {} = ⟨vs, false⟩) (hlt : vs.length < limit) (hpresent : entryAt (new ++ base) p ≠ none) :
    (pathRun limit base p new (true, o)).2 = if changesIn base p new = [] then o
      else some ⟨vs ++ (listOf (limit - vs.length) (changesIn base p new)).versions,
        (listOf (limit - vs.length) (changesIn base p new)).complete⟩ := by
  induction new generalizing vs o with
  | nil => rfl
  | cons c new ih =>
    obtain ⟨e, he⟩ := ne_none_iff_exists'.mp hpresent
    replace he : c.tree.lookup p = some e := he
    rw [pathRun, changesIn, he]
    dsimp only [pathStep]
    by_cases hsame : entryAt (new ++ base) p = some e
    · rw [if_neg fun h => h.2 hsame, if_pos hsame]
      exact ih ho hlt (by rw [hsame]; simp)
    · obtain ⟨n, hn⟩ : ∃ n, limit - vs.length = n + 1 := ⟨limit - vs.length - 1, by omega⟩
      rw [if_pos ⟨rfl, hsame⟩, if_neg hsame, if_neg (cons_ne_nil _ _), hn]
      cases hbefore : entryAt (new ++ base) p with
      | none => simp [pushView, ho, RawList.push, RawList.closed, pathRun_closed, listOf]
      | some b =>
        by_cases hlimit : limit ≤ vs.length + 1
        · obtain rfl : n = 0 := by omega
          simp [pushView, ho, RawList.push, RawList.closed, pathRun_closed, listOf, hlimit]
        · have hpush : pushView limit ⟨c.oid, e.mode, e.oid⟩ true (true, o) =
              (true, some ⟨vs ++ [⟨c.oid, e.mode, e.oid⟩], false⟩) := by
            simp [pushView, ho, RawList.push, RawList.closed, hlimit]
          have hrest : limit - (vs ++ [(⟨c.oid, e.mode, e.oid⟩ : RawVersion)]).length = n := by simp; omega
          rw [isSome_some, hpush, ih rfl (by simp; omega) (by rw [hbefore]; simp), hrest]
          cases hchanges : changesIn base p new with
          | nil => simp [listOf]
          | cons ch cs =>
            obtain ⟨m, rfl⟩ : ∃ m, n = m + 1 := ⟨n - 1, by omega⟩
            simp [listOf]

theorem firstParentChanges_spec (hlog : LogOf base new tokens)
    (hlimit : 1 ≤ limit) {paths : List Bytes} (hpresent : ∀ p ∈ paths, entryAt (new ++ base) p ≠ none) :
    ∃ found, firstParentChanges limit tokens paths = .ok found ∧ ∀ p, found.lookup p =
      if p ∈ paths ∧ changesIn base p new ≠ [] then some (listOf limit (changesIn base p new)) else none := by
  have hstart : settle limit { open_ := paths.toFinset } = .ok { open_ := paths.toFinset } := rfl
  obtain ⟨w', hwalk, hview⟩ := walk_eq hlog hstart (fun _ => rfl) fun p hp => hpresent p (mem_toFinset.mp hp)
  refine ⟨w'.lists, by rw [firstParentChanges, hwalk]; rfl, fun p => ?_⟩
  change (w'.view p).2 = _
  rw [hview]
  by_cases hp : p ∈ paths
  · have hopen : ({ open_ := paths.toFinset } : Walk).view p = (true, none) := by
      simp [Walk.view, viewOf, hp, lookup_empty]
    have hzero : ([] : List RawVersion).length < limit := hlimit
    rw [hopen, pathRun_open rfl hzero (hpresent p hp)]
    by_cases hnil : changesIn base p new = [] <;> simp [hp, hnil, listOf]
  · have hclosed : ({ open_ := paths.toFinset } : Walk).view p = (false, none) := by
      simp [Walk.view, viewOf, hp, lookup_empty]
    rw [hclosed, pathRun_closed, if_neg fun h => hp h.1]

end Run

end DashForge.History
