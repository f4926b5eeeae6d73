import DashForge.Data.BigEndian
import DashForge.Data.SortBy
import DashForge.Pack.Entry
import Mathlib.Data.Finmap
import Mathlib.Data.Finset.Sort

/-!
# Branch-key letters

A narrower branch has its own key, in generations, and the keys reach its audience in letters
(`private/branch_key.rs`). `fold` takes the opened letters in the order of height and id: per branch
the first letter starts a chain and a later one counts when it agrees with the chain on every
generation both carry and its sender is in the chain's audience.

`Chain` is the run of the counted letters, and `fold_spec` what it leaves: an append-only chain that
letters from outside the audience, or of another chain, cannot move.
-/

namespace DashForge.BranchKey

open List Option

/-! ### Letters and branches -/

/-- A role group of an audience. -/
inductive Group where
  | maintainers
  | writers
  | members
deriving DecidableEq, Repr

/-- Who a branch is for. -/
structure Audience where
  group : Option Group
  also : List String
deriving DecidableEq, Repr

/-- A branch-key letter's body; the keys are those of every generation. -/
structure BranchKeyLetter where
  name : String
  keys : List Bytes
  audience : Audience
  sealedTo : List String
deriving DecidableEq, Repr

/-- One opened letter, as the fold takes it. -/
structure LetterIn where
  id : String
  height : ℕ
  sender : String
  letter : BranchKeyLetter
deriving DecidableEq, Repr

/-- The order of the fold. -/
def LetterIn.order (l : LetterIn) : ℕ ×ₗ String := toLex (l.height, l.id)

/-- Why a letter was not folded. -/
inductive Ignored where
  | malformed
  | otherChain
  | sender
deriving DecidableEq, Repr

/-- One branch a reader holds keys for. -/
structure Branch where
  name : String
  keys : List Bytes
  audience : Audience
  /-- The height of the first letter carrying each generation. -/
  issuedAt : List ℕ
  /-- Who holds the current generation. -/
  holders : Finset String
  /-- The letters counted, in fold order. -/
  letters : List String
  /-- Keys of letters that do not count, by generation. -/
  readOnly : List (ℕ × Bytes)
deriving DecidableEq

/-- The current generation. -/
def Branch.gen (b : Branch) : ℕ := min (b.keys.length - 1) u32Max

/-! ### The fold -/

/-- The branches so far, the letters ignored, and the bodies of those. -/
structure FoldState where
  out : Finmap fun _ : String => Branch
  ignored : List (String × Ignored)
  uncounted : List BranchKeyLetter

/-- The branch a first letter starts. -/
def startBranch (l : LetterIn) : Branch where
  name := l.letter.name
  keys := l.letter.keys
  audience := l.letter.audience
  issuedAt := replicate l.letter.keys.length l.height
  holders := l.letter.sealedTo.toFinset
  letters := [l.id]
  readOnly := []

/-- Whether a letter's keys agree with the chain's on every generation both carry. -/
def agrees (b : Branch) (letter : BranchKeyLetter) : Bool :=
  let common := min b.keys.length letter.keys.length
  b.keys.take common == letter.keys.take common

/-- The branch after a later letter that counts. -/
def extendBranch (cur : Branch) (l : LetterIn) : Branch :=
  let held := cur.keys.length
  let holders :=
    if l.letter.keys.length > held then l.letter.sealedTo.toFinset
    else if l.letter.keys.length = held then cur.holders ∪ l.letter.sealedTo.toFinset
    else cur.holders
  let cur := { cur with holders }
  let cur :=
    if l.letter.keys.length ≥ held then
      { cur with
        issuedAt := cur.issuedAt ++ replicate (l.letter.keys.length - held) l.height
        keys := l.letter.keys
        audience := l.letter.audience }
    else cur
  { cur with letters := cur.letters ++ [l.id] }

/-- Leave a letter out. -/
def FoldState.ignore (st : FoldState) (l : LetterIn) (why : Ignored) : FoldState :=
  { st with ignored := st.ignored ++ [(l.id, why)], uncounted := st.uncounted ++ [l.letter] }

section

variable (inAudience : String → Audience → Bool)

def foldLetter (st : FoldState) (l : LetterIn) : FoldState :=
  match st.out.lookup l.letter.name with
  | none =>
    if !inAudience l.sender l.letter.audience then st.ignore l .sender
    else { st with out := st.out.insert l.letter.name (startBranch l) }
  | some cur =>
    if !agrees cur l.letter then st.ignore l .otherChain
    else if !inAudience l.sender cur.audience then st.ignore l .sender
    else { st with out := st.out.insert l.letter.name (extendBranch cur l) }

/-- One uncounted key of generation `g`: kept unless the chain or the list has it. -/
def keepReadOnly (b : Branch) (readOnly : List (ℕ × Bytes)) (gk : Bytes × ℕ) : List (ℕ × Bytes) :=
  let g := min gk.2 u32Max
  if b.keys[gk.2]? ≠ some gk.1 ∧ (g, gk.1) ∉ readOnly then readOnly ++ [(g, gk.1)] else readOnly

/-- The branch with the keys of its uncounted letters kept read-only. -/
def withReadOnly (uncounted : List BranchKeyLetter) (b : Branch) : Branch :=
  let keys := (uncounted.filter fun u => u.name == b.name).flatMap fun u => u.keys.zipIdx
  { b with
    readOnly := sortByKey (fun p : ℕ × Bytes => toLex p) (keys.foldl (keepReadOnly b) b.readOnly) }

/-- The letters folded in order. -/
def foldLetters (letters : List LetterIn) : FoldState :=
  (sortByKey LetterIn.order letters).foldl (foldLetter inAudience) ⟨∅, [], []⟩

/-- Fold opened letters into the branches by name and the letters ignored. -/
def fold (letters : List LetterIn) : List (String × Branch) × List (String × Ignored) :=
  let st := foldLetters inAudience letters
  (st.out.keys.sort.filterMap fun name =>
    (st.out.lookup name).map fun b => (name, withReadOnly st.uncounted b), st.ignored)

end

/-! ### The ring -/

/-- A key held, of a branch: its generation, the key its subkeys are derived from, and whether it is
read-only. -/
structure Derived where
  name : String
  gen : ℕ
  key : Bytes
  readOnly : Bool
deriving DecidableEq, Repr

/-- The keys a branch of a ring is derived to: its own, and the read-only ones. -/
def derivedOf (nb : String × Branch) : List Derived :=
  (nb.2.keys.zipIdx.map fun kg => ⟨nb.1, min kg.2 u32Max, kg.1, false⟩) ++
    nb.2.readOnly.map fun gk => ⟨nb.1, gk.1, gk.2, true⟩

/-- The keys a ring over folded branches derives. -/
def derived (branches : List (String × Branch)) : List Derived := branches.flatMap derivedOf

/-- The keys of a branch's current generation, to write under. -/
def writeKeys (branches : List (String × Branch)) (name : String) : Option Derived := do
  let b ← branches.lookup name
  (derived branches).find? fun d => d.name == name && d.gen == b.gen && !d.readOnly

/-! ### The chain of the counted letters -/

/-- The letters a branch counts, in turn: the first is by someone of its own audience, and each later
one agrees with the chain and is by someone of the chain's audience so far. -/
inductive Chain (inAudience : String → Audience → Bool) : List LetterIn → Branch → Prop
  | start {l : LetterIn} (h : inAudience l.sender l.letter.audience) :
      Chain inAudience [l] (startBranch l)
  | extend {counted : List LetterIn} {b : Branch} {l : LetterIn} (h : Chain inAudience counted b)
      (hagrees : agrees b l.letter) (hsender : inAudience l.sender b.audience) :
      Chain inAudience (counted ++ [l]) (extendBranch b l)

variable {b : Branch} {l : LetterIn} {counted : List LetterIn}

theorem agrees_iff {letter : BranchKeyLetter} :
    agrees b letter = true ↔ letter.keys <+: b.keys ∨ b.keys <+: letter.keys := by
  simp only [agrees, beq_iff_eq]
  constructor
  · intro h
    rcases le_total b.keys.length letter.keys.length with hle | hle
    · rw [min_eq_left hle, take_length] at h
      exact .inr (h ▸ List.take_prefix _ _)
    · rw [min_eq_right hle, take_length] at h
      exact .inl (h ▸ List.take_prefix _ _)
  · rintro (⟨t, ht⟩ | ⟨t, ht⟩)
    · rw [← ht]
      simp
    · rw [← ht]
      simp

/-- How a counted letter changes the chain: it carries fewer generations, as many, or more. -/
theorem extendBranch_cases (hagrees : agrees b l.letter) :
    (l.letter.keys.length < b.keys.length ∧ l.letter.keys <+: b.keys ∧
      extendBranch b l = { b with letters := b.letters ++ [l.id] }) ∨ (l.letter.keys = b.keys ∧
      extendBranch b l = { b with
        audience := l.letter.audience
        holders := b.holders ∪ l.letter.sealedTo.toFinset
        letters := b.letters ++ [l.id] }) ∨ (b.keys.length < l.letter.keys.length ∧ b.keys <+: l.letter.keys ∧
      extendBranch b l = { b with
        keys := l.letter.keys
        audience := l.letter.audience
        issuedAt := b.issuedAt ++ replicate (l.letter.keys.length - b.keys.length) l.height
        holders := l.letter.sealedTo.toFinset
        letters := b.letters ++ [l.id] }) := by
  have hprefix := agrees_iff.mp hagrees
  rcases lt_trichotomy l.letter.keys.length b.keys.length with hlt | heq | hgt
  · refine .inl ⟨hlt, hprefix.resolve_right fun h => absurd h.length_le (by omega), ?_⟩
    have hnot : ¬l.letter.keys.length > b.keys.length := by omega
    have hne : l.letter.keys.length ≠ b.keys.length := by omega
    simp [extendBranch, hnot, hne, not_le.mpr hlt]
  · have hkeys : l.letter.keys = b.keys :=
      hprefix.elim (fun h => h.eq_of_length heq) fun h => (h.eq_of_length heq.symm).symm
    refine .inr (.inl ⟨hkeys, ?_⟩)
    simp [extendBranch, hkeys]
  · refine .inr (.inr ⟨hgt, hprefix.resolve_left fun h => absurd h.length_le (by omega), ?_⟩)
    simp [extendBranch, hgt, hgt.le]

/-- What the counted letters leave of a chain. -/
structure ChainSpec (counted : List LetterIn) (b : Branch) : Prop where
  letters : b.letters = counted.map LetterIn.id
  /-- The keys extend those of every counted letter, and one of them carries them all. -/
  keys_prefix : ∀ l ∈ counted, l.letter.keys <+: b.keys
  keys_mem : ∃ l ∈ counted, l.letter.keys = b.keys
  issued_length : b.issuedAt.length = b.keys.length
  issued_mono : b.issuedAt.Pairwise (· ≤ ·)
  /-- A generation is issued at the height of the first counted letter that carries it. -/
  issued : ∀ g < b.keys.length,
    b.issuedAt[g]? = (counted.find? fun l => decide (g < l.letter.keys.length)).map LetterIn.height
  holders : b.holders = ((counted.filter fun l => l.letter.keys.length = b.keys.length).flatMap
    fun l => l.letter.sealedTo).toFinset
  audience : ((counted.filter fun l => l.letter.keys.length = b.keys.length).getLast?).map
    (fun l => l.letter.audience) = some b.audience

theorem chainSpec_start (l : LetterIn) : ChainSpec [l] (startBranch l) where
  letters := rfl
  keys_prefix l' hl' := by
    rw [mem_singleton.mp hl']
    exact prefix_rfl
  keys_mem := ⟨l, mem_cons_self, rfl⟩
  issued_length := by simp [startBranch]
  issued_mono := pairwise_replicate.mpr (.inr le_rfl)
  issued g hg := by
    have hg' : g < l.letter.keys.length := hg
    simp [startBranch, hg']
  holders := by simp [startBranch]
  audience := by simp [startBranch]

theorem ChainSpec.length_le (h : ChainSpec counted b) (hl : l ∈ counted) : l.letter.keys.length ≤ b.keys.length :=
  (h.keys_prefix l hl).length_le

theorem ChainSpec.issued_le (h : ChainSpec counted b) {n : ℕ}
    (hn : ∀ l ∈ counted, l.height ≤ n) {t : ℕ} (ht : t ∈ b.issuedAt) : t ≤ n := by
  obtain ⟨g, hg⟩ := mem_iff_getElem?.mp ht
  have hlt : g < b.keys.length := h.issued_length ▸ (List.getElem?_eq_some_iff.mp hg).1
  rw [h.issued g hlt] at hg
  obtain ⟨l, hl, rfl⟩ := map_eq_some_iff.mp hg
  exact hn l (mem_of_find?_eq_some hl)

theorem ChainSpec.extend (h : ChainSpec counted b) (hagrees : agrees b l.letter)
    (hheight : ∀ l' ∈ counted, l'.height ≤ l.height) :
    ChainSpec (counted ++ [l]) (extendBranch b l) := by
  have hletters : b.letters ++ [l.id] = (counted ++ [l]).map LetterIn.id := by
    rw [h.letters, map_append, map_singleton]
  obtain ⟨top, htop, htopKeys⟩ := h.keys_mem
  -- a generation the chain had is still issued where it was
  have hissued : ∀ g < b.keys.length, b.issuedAt[g]? = ((counted ++ [l]).find? fun l =>
      decide (g < l.letter.keys.length)).map LetterIn.height := by
    intro g hg
    rw [h.issued g hg, find?_append]
    have hsome : (counted.find? fun l => decide (g < l.letter.keys.length)).isSome :=
      find?_isSome.mpr ⟨top, htop, by simpa [htopKeys] using hg⟩
    rw [or_of_isSome hsome]
  rcases extendBranch_cases hagrees with ⟨hlt, hpre, heq⟩ | ⟨hkeys, heq⟩ | ⟨hgt, hpre, heq⟩
  · have hfilter : (counted ++ [l]).filter (fun l => decide (l.letter.keys.length = b.keys.length)) =
        counted.filter fun l => decide (l.letter.keys.length = b.keys.length) := by
      rw [filter_append, filter_cons_of_neg (by simpa using hlt.ne), filter_nil, append_nil]
    rw [heq]
    refine ⟨hletters, fun l' hl' => ?_, ⟨top, by simp [htop], htopKeys⟩, h.issued_length,
      h.issued_mono, hissued, ?_, ?_⟩
    · rcases mem_append.mp hl' with hl' | hl'
      · exact h.keys_prefix l' hl'
      · rwa [mem_singleton.mp hl']
    · simpa only [hfilter] using h.holders
    · simpa only [hfilter] using h.audience
  · have hfilter : (counted ++ [l]).filter (fun l => decide (l.letter.keys.length = b.keys.length)) =
        (counted.filter fun l => decide (l.letter.keys.length = b.keys.length)) ++ [l] := by
      rw [filter_append, filter_cons_of_pos (by simp [hkeys]), filter_nil]
    rw [heq]
    refine ⟨hletters, fun l' hl' => ?_, ⟨top, by simp [htop], htopKeys⟩, h.issued_length,
      h.issued_mono, hissued, ?_, ?_⟩
    · rcases mem_append.mp hl' with hl' | hl'
      · exact h.keys_prefix l' hl'
      · rw [mem_singleton.mp hl', hkeys]
    · simp [hfilter, h.holders]
    · simp [hfilter]
  · have hfilter : (counted ++ [l]).filter
        (fun l' => decide (l'.letter.keys.length = l.letter.keys.length)) = [l] := by
      have hnone : counted.filter
          (fun l' => decide (l'.letter.keys.length = l.letter.keys.length)) = [] := by
        refine filter_eq_nil_iff.mpr fun l' hl' => ?_
        have := h.length_le hl'
        simp only [decide_eq_true_eq]
        omega
      rw [filter_append, hnone, nil_append, filter_cons_of_pos (by simp), filter_nil]
    rw [heq]
    refine ⟨hletters, fun l' hl' => ?_, ⟨l, by simp, rfl⟩, ?_, ?_, fun g hg => ?_, ?_, ?_⟩
    · rcases mem_append.mp hl' with hl' | hl'
      · exact (h.keys_prefix l' hl').trans hpre
      · rw [mem_singleton.mp hl']
    · simp only [length_append, length_replicate, h.issued_length]
      omega
    · refine pairwise_append.mpr ⟨h.issued_mono, pairwise_replicate.mpr (.inr le_rfl), fun t ht t' ht' => ?_⟩
      rw [(mem_replicate.mp ht').2]
      exact h.issued_le hheight ht
    · by_cases hold : g < b.keys.length
      · rw [getElem?_append_left (h.issued_length.symm ▸ hold)]
        exact hissued g hold
      · have hnone : (counted.find? fun l => decide (g < l.letter.keys.length)) = none := by
          refine find?_eq_none.mpr fun l' hl' => ?_
          have := h.length_le hl'
          simp only [decide_eq_true_eq]
          omega
        have hg' : g < l.letter.keys.length := hg
        have hroom : g - b.issuedAt.length < l.letter.keys.length - b.keys.length := by
          have := h.issued_length
          omega
        rw [find?_append, hnone, none_or, getElem?_append_right (by rw [h.issued_length]; omega),
          getElem?_replicate_of_lt hroom]
        simp [hg']
    · simp [hfilter]
    · simp [hfilter]

variable {inAudience : String → Audience → Bool}

/-- The counted letters in order of height leave the chain they say. -/
theorem Chain.spec (h : Chain inAudience counted b) (hsorted : counted.Pairwise fun l l' => l.height ≤ l'.height) :
    ChainSpec counted b := by
  induction h with
  | @start l _ => exact chainSpec_start l
  | @extend counted b l _ hagrees _ ih =>
    obtain ⟨hcounted, -, hlater⟩ := pairwise_append.mp hsorted
    exact (ih hcounted).extend hagrees fun l' hl' => hlater l' hl' l (by simp)

theorem Chain.readOnly_eq_nil (h : Chain inAudience counted b) : b.readOnly = [] := by
  induction h with
  | start _ => rfl
  | extend _ hagrees _ ih =>
    rcases extendBranch_cases hagrees with ⟨-, -, heq⟩ | ⟨-, heq⟩ | ⟨-, -, heq⟩ <;> rw [heq] <;>
      exact ih

/-- The keys kept read-only are not part of the chain. -/
theorem ChainSpec.withReadOnly (h : ChainSpec counted b)
    (uncounted : List BranchKeyLetter) : ChainSpec counted (withReadOnly uncounted b) :=
  ⟨h.letters, h.keys_prefix, h.keys_mem, h.issued_length, h.issued_mono, h.issued, h.holders, h.audience⟩

/-! ### The fold of one branch -/

section Branches

variable {inAudience : String → Audience → Bool}

/-- What one letter does to its branch. -/
def branchStep (inAudience : String → Audience → Bool) (cur : Option Branch) (l : LetterIn) :
    Option Branch :=
  match cur with
  | none => if inAudience l.sender l.letter.audience then some (startBranch l) else none
  | some b =>
    if agrees b l.letter && inAudience l.sender b.audience then some (extendBranch b l) else some b

theorem lookup_foldLetter (st : FoldState) (l : LetterIn) (name : String) :
    (foldLetter inAudience st l).out.lookup name =
      if l.letter.name = name then branchStep inAudience (st.out.lookup name) l else st.out.lookup name := by
  by_cases hname : l.letter.name = name
  · subst hname
    rw [if_pos rfl]
    cases hcur : st.out.lookup l.letter.name with
    | none =>
      cases haud : inAudience l.sender l.letter.audience <;>
        simp [foldLetter, branchStep, hcur, haud, FoldState.ignore, Finmap.lookup_insert]
    | some b =>
      cases hagrees : agrees b l.letter <;> cases haud : inAudience l.sender b.audience <;>
        simp [foldLetter, branchStep, hcur, hagrees, haud, FoldState.ignore, Finmap.lookup_insert]
  · rw [if_neg hname]
    unfold foldLetter
    split <;> split_ifs <;>
      simp [FoldState.ignore, Finmap.lookup_insert_of_ne _ (Ne.symm hname)]

variable (inAudience) in
theorem lookup_foldl_foldLetter (letters : List LetterIn) (st : FoldState) (name : String) :
    (letters.foldl (foldLetter inAudience) st).out.lookup name =
      (letters.filter fun l => l.letter.name == name).foldl (branchStep inAudience) (st.out.lookup name) := by
  induction letters generalizing st with
  | nil => rfl
  | cons l letters ih =>
    rw [foldl_cons, ih, lookup_foldLetter]
    by_cases hname : l.letter.name = name
    · rw [if_pos hname, filter_cons_of_pos (by simpa using hname), foldl_cons]
    · rw [if_neg hname, filter_cons_of_neg (by simpa using hname)]

variable {letters : List LetterIn} {b : Branch}

/-- A folded branch is a chain of some of its letters. -/
theorem exists_chain (h : letters.foldl (branchStep inAudience) none = some b) :
    ∃ counted, counted.Sublist letters ∧ Chain inAudience counted b := by
  induction letters using reverseRecOn generalizing b with
  | nil => simp at h
  | append_singleton letters l ih =>
    rw [foldl_concat] at h
    cases hcur : letters.foldl (branchStep inAudience) none with
    | none =>
      rw [hcur] at h
      simp only [branchStep] at h
      split_ifs at h with haud
      obtain rfl := some.inj h
      exact ⟨[l], sublist_append_right letters [l], .start haud⟩
    | some b₀ =>
      obtain ⟨counted, hsub, hchain⟩ := ih hcur
      rw [hcur] at h
      simp only [branchStep] at h
      split_ifs at h with hcounts
      · obtain ⟨hagrees, haud⟩ := Bool.and_eq_true_iff.mp hcounts
        obtain rfl := some.inj h
        exact ⟨counted ++ [l], hsub.append (List.Sublist.refl [l]), hchain.extend hagrees haud⟩
      · obtain rfl := some.inj h
        exact ⟨counted, hsub.trans (sublist_append_left letters [l]), hchain⟩

/-- Letters that do not count leave the branch. -/
theorem foldl_branchStep_of_rejected (h : ∀ l ∈ letters,
    (agrees b l.letter && inAudience l.sender b.audience) = false) :
    letters.foldl (branchStep inAudience) (some b) = some b := by
  induction letters with
  | nil => rfl
  | cons l letters ih =>
    have hl := h l mem_cons_self
    rw [foldl_cons, branchStep, hl]
    exact ih fun l' hl' => h l' (mem_cons_of_mem l hl')

theorem lookup_filterMap {β γ : Type} (f : String → Option β) (g : β → γ) (names : List String) (name : String) :
    (names.filterMap fun n => (f n).map fun b => (n, g b)).lookup name =
      if name ∈ names then (f name).map g else none := by
  induction names with
  | nil => rfl
  | cons n names ih =>
    rw [filterMap_cons]
    by_cases hn : name = n
    · subst hn
      cases hf : f name with
      | none => simp [ih, hf]
      | some b => simp
    · cases hf : f n with
      | none => simp [ih, hn]
      | some b => simp [lookup_cons, ih, hn, beq_false_of_ne hn]

/-- The branch of a name, folded from the letters that name it. -/
theorem lookup_fold (letters : List LetterIn) (name : String) :
    (fold inAudience letters).1.lookup name = (((sortByKey LetterIn.order letters).filter
      fun l => l.letter.name == name).foldl (branchStep inAudience) none).map
        (withReadOnly (foldLetters inAudience letters).uncounted) := by
  have hlookup := lookup_foldl_foldLetter inAudience (sortByKey LetterIn.order letters)
    ⟨∅, [], []⟩ name
  rw [Finmap.lookup_empty] at hlookup
  rw [fold, lookup_filterMap, foldLetters, ← hlookup]
  split_ifs with hmem
  · rfl
  · rw [Finset.mem_sort, Finmap.mem_keys, ← Finmap.lookup_eq_none] at hmem
    rw [hmem, map_none]

/-! ### What can move a branch -/

theorem fold_eq_of_perm {letters' : List LetterIn}
    (hids : (letters.map LetterIn.id).Nodup) (hp : letters'.Perm letters) :
    fold inAudience letters' = fold inAudience letters := by
  have hsort : sortByKey LetterIn.order letters' = sortByKey LetterIn.order letters := by
    refine sortByKey_eq_of_perm _ hp fun a ha b hb hab => ?_
    have hid : a.id = b.id := congrArg (fun o => (ofLex o).2) hab
    exact inj_on_of_nodup_map hids (hp.mem_iff.mp ha) (hp.mem_iff.mp hb) hid
  rw [fold, foldLetters, hsort, fold, foldLetters]

/-- Two key lists differ on a generation both carry. -/
def Disagree (keys keys' : List Bytes) : Prop :=
  ∃ (g : ℕ) (k k' : Bytes), keys[g]? = some k ∧ keys'[g]? = some k' ∧ k ≠ k'

theorem getElem?_eq_of_isPrefix {keys keys' : List Bytes} (h : keys <+: keys') {g : ℕ} {k : Bytes}
    (hk : keys[g]? = some k) : keys'[g]? = some k := by
  obtain ⟨t, rfl⟩ := h
  rw [getElem?_append_left (List.getElem?_eq_some_iff.mp hk).1, hk]

theorem agrees_eq_false {letter : BranchKeyLetter} (h : Disagree b.keys letter.keys) : agrees b letter = false := by
  obtain ⟨g, k, k', hk, hk', hne⟩ := h
  rw [Bool.eq_false_iff]
  intro hagrees
  rcases agrees_iff.mp hagrees with hpre | hpre
  · exact hne (some.inj (hk.symm.trans (getElem?_eq_of_isPrefix hpre hk')))
  · exact hne (some.inj ((getElem?_eq_of_isPrefix hpre hk).symm.trans hk'))

/-- The first of a branch's own keys that is of its current generation. -/
def currentKey (name : String) (b : Branch) : Option Derived :=
  (b.keys.zipIdx.map fun kg => (⟨name, min kg.2 u32Max, kg.1, false⟩ : Derived)).find?
    fun d => d.gen == b.gen

theorem name_of_mem_derivedOf {nb : String × Branch} {d : Derived} (h : d ∈ derivedOf nb) : d.name = nb.1 := by
  simp only [derivedOf, mem_append, List.mem_map] at h
  rcases h with ⟨_, _, rfl⟩ | ⟨_, _, rfl⟩ <;> rfl

variable {branches : List (String × Branch)}

theorem find?_derived_of_notMem {name : String} (g : ℕ) (h : name ∉ branches.map Prod.fst) :
    (derived branches).find? (fun d => d.name == name && d.gen == g && !d.readOnly) = none := by
  refine find?_eq_none.mpr fun d hd => ?_
  obtain ⟨nb, hnb, hd⟩ := mem_flatMap.mp hd
  have hne : d.name ≠ name := by
    rintro rfl
    exact h (name_of_mem_derivedOf hd ▸ mem_map_of_mem hnb)
  simp [hne]

theorem find?_derivedOf (name : String) (b : Branch) :
    (derivedOf (name, b)).find? (fun d => d.name == name && d.gen == b.gen && !d.readOnly) = currentKey name b := by
  have hreadOnly : (b.readOnly.map fun gk => (⟨name, gk.1, gk.2, true⟩ : Derived)).find?
      (fun d => d.name == name && d.gen == b.gen && !d.readOnly) = none := by
    refine find?_eq_none.mpr fun d hd => ?_
    obtain ⟨gk, -, rfl⟩ := List.mem_map.mp hd
    simp
  rw [derivedOf, find?_append, hreadOnly, or_none, currentKey, find?_map, find?_map]
  refine congrArg (Option.map _) (congrArg (fun p => List.find? p _) ?_)
  funext kg
  simp

/-- The keys to write under come from the branch's own keys. -/
theorem writeKeys_eq (hnodup : (branches.map Prod.fst).Nodup)
    (name : String) : writeKeys branches name = (branches.lookup name).bind (currentKey name) := by
  cases hb : branches.lookup name with
  | none => simp [writeKeys, hb]
  | some b =>
    simp only [writeKeys, hb, bind_eq_bind, bind_some]
    induction branches with
    | nil => simp at hb
    | cons nb branches ih =>
      obtain ⟨n, b'⟩ := nb
      obtain ⟨hn, hnodup⟩ := nodup_cons.mp hnodup
      rw [derived, flatMap_cons, find?_append, ← derived]
      by_cases hname : name = n
      · subst hname
        obtain rfl : b' = b := by simpa using hb
        rw [find?_derivedOf, find?_derived_of_notMem _ hn, or_none]
      · have hnone : (derivedOf (n, b')).find?
            (fun d => d.name == name && d.gen == b.gen && !d.readOnly) = none := by
          have hnotMem : name ∉ [(n, b')].map Prod.fst := by simpa using hname
          simpa [derived] using find?_derived_of_notMem b.gen hnotMem
        rw [hnone, none_or]
        exact ih hnodup (by simpa [lookup_cons, beq_false_of_ne hname] using hb)

theorem nodup_fold_names (letters : List LetterIn) : ((fold inAudience letters).1.map Prod.fst).Nodup := by
  have hsub : ((fold inAudience letters).1.map Prod.fst).Sublist
      (foldLetters inAudience letters).out.keys.sort := by
    simp only [fold]
    generalize (foldLetters inAudience letters).out.keys.sort = names
    induction names with
    | nil => exact List.Sublist.refl _
    | cons n names ih =>
      cases hn : (foldLetters inAudience letters).out.lookup n with
      | none => simpa [filterMap_cons, hn] using ih.cons n
      | some b => simpa [filterMap_cons, hn] using ih
  exact (Finset.sort_nodup _ _).sublist hsub

/-- The branches of a fold are chains of the letters that count, whatever the order of the letters.
Later letters that are outside the chain's audience or of another chain change nothing of a branch
but the keys kept read-only, and so not the key it is written under. -/
theorem fold_spec (inAudience : String → Audience → Bool) (letters : List LetterIn)
    (hids : (letters.map LetterIn.id).Nodup) :
    (∀ letters', letters'.Perm letters → fold inAudience letters' = fold inAudience letters) ∧
    ∀ name b, (fold inAudience letters).1.lookup name = some b →
      (∃ counted, counted.Sublist (sortByKey LetterIn.order letters) ∧
        (∀ l ∈ counted, l.letter.name = name) ∧
        Chain inAudience counted { b with readOnly := [] } ∧ ChainSpec counted b) ∧
      ∀ later all, (∀ l ∈ letters, ∀ d ∈ later, l.order < d.order) →
        all.Perm (letters ++ later) → (all.map LetterIn.id).Nodup →
        (∀ d ∈ later, d.letter.name = name →
          inAudience d.sender b.audience = false ∨ Disagree b.keys d.letter.keys) →
        (∃ readOnly, (fold inAudience all).1.lookup name = some { b with readOnly }) ∧
          writeKeys (fold inAudience all).1 name = writeKeys (fold inAudience letters).1 name := by
  refine ⟨fun letters' => fold_eq_of_perm hids, fun name b hb => ?_⟩
  rw [lookup_fold] at hb
  obtain ⟨b₀, hb₀, rfl⟩ := Option.map_eq_some_iff.mp hb
  refine ⟨?_, fun later all hlater hperm hall hout => ?_⟩
  · obtain ⟨counted, hsub, hchain⟩ := exists_chain hb₀
    have hsorted : counted.Pairwise fun l l' => l.height ≤ l'.height := by
      refine (((pairwise_sortByKey LetterIn.order letters).filter _).sublist hsub).imp ?_
      exact fun hle => (Prod.Lex.monotone_fst _ _ hle)
    refine ⟨counted, hsub.trans filter_sublist, fun l hl => ?_, ?_,
      (hchain.spec hsorted).withReadOnly _⟩
    · simpa using (mem_filter.mp (hsub.subset hl)).2
    · have hnil := hchain.readOnly_eq_nil
      have heq : { withReadOnly (foldLetters inAudience letters).uncounted b₀ with readOnly := [] } =
          b₀ := by
        rw [← hnil]
        rfl
      rwa [heq]
  · have hids' : ((letters ++ later).map LetterIn.id).Nodup := (hperm.map _).nodup_iff.mp hall
    have hrejected : ∀ d ∈ (sortByKey LetterIn.order later).filter fun l => l.letter.name == name,
        (agrees b₀ d.letter && inAudience d.sender b₀.audience) = false := by
      intro d hd
      obtain ⟨hd, hname⟩ := mem_filter.mp hd
      rcases hout d ((mem_sortByKey _).mp hd) (by simpa using hname) with hsender | hdis
      · rw [show inAudience d.sender b₀.audience = false from hsender, Bool.and_false]
      · rw [agrees_eq_false (b := b₀) hdis, Bool.false_and]
    have hlookup : (fold inAudience all).1.lookup name =
        some (withReadOnly (foldLetters inAudience (letters ++ later)).uncounted b₀) := by
      rw [fold_eq_of_perm hids' hperm, lookup_fold,
        sortByKey_append LetterIn.order fun l hl d hd => (hlater l hl d hd).le, filter_append,
        foldl_append, hb₀, foldl_branchStep_of_rejected hrejected, Option.map_some]
    refine ⟨⟨_, hlookup⟩, ?_⟩
    rw [writeKeys_eq (nodup_fold_names all), writeKeys_eq (nodup_fold_names letters), hlookup,
      lookup_fold, hb₀]
    rfl

/-- A first letter, one of another chain, and one that adds a generation. -/
def letterSample : List LetterIn :=
  [⟨"a", 1, "ann", "refs/heads/sec", [[1]], ⟨some .writers, []⟩, ["ann"]⟩,
    ⟨"b", 2, "ann", "refs/heads/sec", [[9]], ⟨some .members, []⟩, ["bob"]⟩,
    ⟨"c", 3, "ann", "refs/heads/sec", [[1], [2]], ⟨some .writers, ["cid"]⟩, ["ann", "cid"]⟩]

theorem fold_spec_letterSample :
    (letterSample.map LetterIn.id).Nodup ∧
    ∃ b counted, (fold (fun sender _ => sender == "ann") letterSample).1.lookup "refs/heads/sec" =
        some b ∧
      b.keys = [[1], [2]] ∧ b.issuedAt = [1, 3] ∧ b.letters = ["a", "c"] ∧
      Chain (fun sender _ => sender == "ann") counted { b with readOnly := [] } ∧
        ChainSpec counted b := by
  have hids : (letterSample.map LetterIn.id).Nodup := by decide
  have heval : ((fold (fun sender _ => sender == "ann") letterSample).1.lookup
      "refs/heads/sec").map (fun b => (b.keys, b.issuedAt, b.letters)) =
        some ([[1], [2]], [1, 3], ["a", "c"]) := by
    decide +kernel
  obtain ⟨b, hb, hfields⟩ := Option.map_eq_some_iff.mp heval
  obtain ⟨⟨counted, -, -, hchain, hspec⟩, -⟩ := (fold_spec _ letterSample hids).2 _ b hb
  obtain ⟨hkeys, hrest⟩ := Prod.mk.inj hfields
  obtain ⟨hissued, hletters⟩ := Prod.mk.inj hrest
  exact ⟨hids, b, counted, hb, hkeys, hissued, hletters, hchain, hspec⟩

end Branches

end DashForge.BranchKey
