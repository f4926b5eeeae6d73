import DashForge.Private.BranchKey
import DashForge.Rules.Role

/-!
# Re-lettering a narrower branch

The audience of a narrower branch resolves against the members now, and each reader folds the letters addressed to it
(`narrow.rs`). Whoever re-letters sends the keys of its own fold, and a fresh one if someone left (`reletter`).

Letters are written and members change in any order (`Step`). Whether a letter counts is judged by its sender's standing now, so
the letters a reader counts can all stop counting: `keeps_iff` says exactly when a reader still holds the branch, and
that a reader who does holds every key it was sent.
-/

namespace DashForge.Narrow

open DashForge.BranchKey
open List Option

/-! ### Audiences -/

/-- Whether a role holds the members key. -/
def holdsMembersKey : Role → Bool
  | .maintainer | .writer | .triage | .reader => true
  | .bot => false

/-- Whether a member with a role is in the group. -/
def includes (g : Group) (role : Role) : Bool :=
  match g with
  | .maintainers => role = .maintainer
  | .writers => role = .maintainer || role = .writer
  | .members => holdsMembersKey role

/-- Who an audience is: its people, and its group's members, the owner in every group. -/
def resolvePeople (audience : Audience) (owner : String) (members : List Membership) : Finset String :=
  audience.also.toFinset ∪
    match audience.group with
    | some g => insert owner ((members.filter fun m => includes g m.role).map Membership.identity).toFinset
    | none => ∅

/-- Generations a letter carries at most. -/
def maxGenerations : ℕ := 256

/-- What a branch's letters need now. -/
inductive Reletter where
  | nothing
  | joiners (joined : Finset String)
  | newGeneration (left : Finset String)
deriving DecidableEq

/-- What a branch needs when its audience resolves to `now`. -/
def plan (b : Branch) (now : Finset String) : Reletter :=
  let left := b.holders \ now
  if left ≠ ∅ then .newGeneration left
  else
    let joined := now \ b.holders
    if joined = ∅ then .nothing else .joiners joined

/-- The keys of the letter that `plan` asks for; an error where the branch has had all its generations. -/
def reletter (b : Branch) (now : Finset String) (fresh : Bytes) : Except Unit (Option (List Bytes)) :=
  match plan b now with
  | .nothing => .ok none
  | .joiners _ => .ok (some b.keys)
  | .newGeneration _ => if b.keys.length ≥ maxGenerations then .error () else .ok (some (b.keys ++ [fresh]))

/-! ### Opening -/

/-- Why no key of a ring opens a ref update. -/
inductive NotOpened where
  | noKey
  | commitMismatch
deriving DecidableEq, Repr

/-- The key of a ring that a ref update of generation `epoch` was sealed under: of that generation and prefix, with the
commitment. `kcv` is the prefix of a key, and `commit` the commitment of the update under a key. -/
def openKey (branches : List (String × Branch)) (kcv : Bytes → Bytes) (commit : ℕ → Bytes → Bytes) (epoch : ℕ)
    (sealedKcv commitment : Bytes) : Except NotOpened Derived :=
  match (derived branches).filter fun d => d.gen = epoch ∧ kcv d.key = sealedKcv with
  | [] => .error .noKey
  | held =>
    match held.find? fun d => commit d.gen d.key = commitment with
    | none => .error .commitMismatch
    | some d => .ok d

theorem openKey_of_mem {branches : List (String × Branch)} {d : Derived} (h : d ∈ derived branches)
    (kcv : Bytes → Bytes)
    (commit : ℕ → Bytes → Bytes) :
    ∃ d', openKey branches kcv commit d.gen (kcv d.key) (commit d.gen d.key) = .ok d' := by
  have hheld : d ∈ (derived branches).filter fun d' => d'.gen = d.gen ∧ kcv d'.key = kcv d.key :=
    mem_filter.mpr ⟨h, by simp⟩
  unfold openKey
  split
  · next hnil =>
    rw [hnil] at hheld
    cases hheld
  · split
    · next hnone => exact absurd (decide_eq_true rfl) (find?_eq_none.mp hnone d hheld)
    · next d' _ => exact ⟨d', rfl⟩

/-! ### Runs -/

structure State where
  owner : String
  members : List Membership
  /-- The letters of one branch, as they were written. -/
  letters : List LetterIn

namespace State

/-- Who an audience is now. -/
def now (s : State) (a : Audience) : Finset String := resolvePeople a s.owner s.members

/-- The fold of the letters addressed to a reader, each sender judged by its standing now. -/
def readerFold (s : State) (p : String) : List (String × Branch) :=
  (fold (fun sender a => decide (sender ∈ s.now a)) (s.letters.filter fun l => p ∈ l.letter.sealedTo)).1

end State

/-- A letter someone can write: the branch's first one, with one key, or one with the keys of the writer's own fold and at
most one fresh key. It goes to everyone in its audience, and the writer. -/
structure Writes (name : String) (s : State) (l : LetterIn) : Prop where
  named : l.letter.name = name
  fresh : l.id ∉ s.letters.map LetterIn.id
  height : ∀ x ∈ s.letters, x.height ≤ l.height
  keys : (s.letters = [] ∧ l.sender ∈ s.now l.letter.audience ∧ ∃ key, l.letter.keys = [key]) ∨
    ∃ b, (s.readerFold l.sender).lookup name = some b ∧ l.sender ∈ s.now b.audience ∧
      (l.letter.keys = b.keys ∨ b.keys.length < maxGenerations ∧ ∃ key, key ∉ b.keys ∧ l.letter.keys = b.keys ++ [key])
  sealedTo : l.letter.sealedTo.Pairwise (· < ·) ∧ l.letter.sealedTo.toFinset = insert l.sender (s.now l.letter.audience)

inductive Step (name : String) : State → State → Prop
  | members (s : State) (members : List Membership) : Step name s { s with members }
  | letter (s : State) (l : LetterIn) (h : Writes name s l) : Step name s { s with letters := s.letters ++ [l] }

def Reachable (name : String) (s : State) : Prop := ∃ s₀ : State, s₀.letters = [] ∧
    Relation.ReflTransGen (Step name) s₀ s

/-- A letter's keys are all held by a reader, as keys of the chain or read-only, and each opens what was sealed under it. -/
def Keeps (name : String) (s : State) (p : String) (l : LetterIn) : Prop :=
  ∃ b, (s.readerFold p).lookup name = some b ∧ ∀ (g : ℕ) (k : Bytes), l.letter.keys[g]? = some k →
    (b.keys[g]? = some k ∨ (g, k) ∈ b.readOnly) ∧
    ∀ kcv commit, ∃ d, openKey (s.readerFold p) kcv commit g (kcv k) (commit g k) = .ok d

/-! ### What a fold keeps -/

section Keeping

variable {inAudience : String → Audience → Bool}

variable (inAudience) in
theorem branchStep_some (b : Branch) (l : LetterIn) :
    ∃ b', branchStep inAudience (some b) l = some b' ∧ b'.name = b.name ∧ b.keys <+: b'.keys := by
  unfold branchStep
  dsimp only
  split
  · next hcounts =>
    refine ⟨extendBranch b l, rfl, ?_⟩
    rcases extendBranch_cases (Bool.and_eq_true_iff.mp hcounts).1 with ⟨-, -, heq⟩ | ⟨hkeys, heq⟩ | ⟨-, hpre, heq⟩
    · rw [heq]
      exact ⟨rfl, prefix_rfl⟩
    · rw [heq]
      exact ⟨rfl, prefix_rfl⟩
    · rw [heq]
      exact ⟨rfl, hpre⟩
  · exact ⟨b, rfl, rfl, prefix_rfl⟩

variable (inAudience) in
theorem foldl_branchStep_some (letters : List LetterIn) (b : Branch) :
    ∃ b', letters.foldl (branchStep inAudience) (some b) = some b' ∧ b'.name = b.name := by
  induction letters generalizing b with
  | nil => exact ⟨b, rfl, rfl⟩
  | cons l letters ih =>
    obtain ⟨b₁, hstep, hname, -⟩ := branchStep_some inAudience b l
    obtain ⟨b', hfold, hname'⟩ := ih b₁
    exact ⟨b', by rw [foldl_cons, hstep, hfold], hname'.trans hname⟩

variable {name : String} {st : FoldState} {b : Branch} {l : LetterIn}

variable (inAudience) in
theorem foldl_branchStep_none {letters : List LetterIn} (hnames : ∀ l ∈ letters, l.letter.name = name) :
    (∃ b, letters.foldl (branchStep inAudience) none = some b ∧ b.name = name ∧
      ∃ l ∈ letters, inAudience l.sender l.letter.audience = true) ∨
    letters.foldl (branchStep inAudience) none = none ∧ ¬∃ l ∈ letters,
        inAudience l.sender l.letter.audience = true := by
  induction letters with
  | nil => exact .inr ⟨rfl, by simp⟩
  | cons l letters ih =>
    rw [foldl_cons, exists_mem_cons_iff, branchStep]
    split
    · next hsender =>
      obtain ⟨b, hfold, hname⟩ := foldl_branchStep_some inAudience letters (startBranch l)
      exact .inl ⟨b, hfold, hname.trans (hnames l mem_cons_self), .inl hsender⟩
    · next hsender =>
      rcases ih fun l' hl' => hnames l' (mem_cons_of_mem l hl') with ⟨b, hfold, hname, hl'⟩ | ⟨hfold, hnone⟩
      · exact .inl ⟨b, hfold, hname, .inr hl'⟩
      · exact .inr ⟨hfold, not_or.mpr ⟨hsender, hnone⟩⟩

/-- What a letter leaves in a fold: its keys are the chain's, or it is remembered as one that does not count. -/
def Held (st : FoldState) (l : LetterIn) : Prop :=
  l.letter ∈ st.uncounted ∨ ∃ b, st.out.lookup l.letter.name = some b ∧ l.letter.keys <+: b.keys

theorem lookup_foldLetter_some (hb : st.out.lookup name = some b) (l : LetterIn) :
    ∃ b', (foldLetter inAudience st l).out.lookup name = some b' ∧ b.keys <+: b'.keys := by
  rw [lookup_foldLetter]
  split
  · obtain ⟨b', hstep, -, hpre⟩ := branchStep_some inAudience b l
    exact ⟨b', by rw [hb, hstep], hpre⟩
  · exact ⟨b, hb, prefix_rfl⟩

theorem Held.foldLetter (h : Held st l) (l' : LetterIn) : Held (foldLetter inAudience st l') l := by
  rcases h with hmem | ⟨b, hb, hpre⟩
  · left
    unfold BranchKey.foldLetter
    split <;> split_ifs <;> first | exact hmem | exact mem_append_left _ hmem
  · obtain ⟨b', hb', hpre'⟩ := lookup_foldLetter_some hb l'
    exact .inr ⟨b', hb', hpre.trans hpre'⟩

theorem held_foldLetter (st : FoldState) (l : LetterIn) : Held (foldLetter inAudience st l) l := by
  cases hcur : st.out.lookup l.letter.name with
  | none =>
    by_cases hsender : inAudience l.sender l.letter.audience = true
    · refine .inr ⟨startBranch l, ?_, prefix_rfl⟩
      rw [lookup_foldLetter, if_pos rfl, hcur, branchStep]
      exact if_pos hsender
    · left
      unfold foldLetter
      rw [hcur]
      simp [hsender, FoldState.ignore]
  | some b =>
    by_cases hcounts : (agrees b l.letter && inAudience l.sender b.audience) = true
    · refine .inr ⟨extendBranch b l, ?_, ?_⟩
      · rw [lookup_foldLetter, if_pos rfl, hcur, branchStep]
        exact if_pos hcounts
      · rcases extendBranch_cases (Bool.and_eq_true_iff.mp hcounts).1 with ⟨-, hpre, heq⟩ | ⟨hkeys, heq⟩ | ⟨-, -, heq⟩
        · rw [heq]
          exact hpre
        · rw [heq, hkeys]
        · rw [heq]
    · left
      unfold foldLetter
      rw [hcur]
      rw [Bool.and_eq_true_iff, not_and_or] at hcounts
      rcases hcounts with hagrees | hsender
      · simp [hagrees, FoldState.ignore]
      · by_cases hagrees : agrees b l.letter = true <;> simp [hagrees, hsender, FoldState.ignore]

theorem held_foldl (letters : List LetterIn) (st : FoldState) (h : l ∈ letters ∨ Held st l) :
    Held (letters.foldl (foldLetter inAudience) st) l := by
  induction letters generalizing st with
  | nil => exact h.resolve_left not_mem_nil
  | cons l' letters ih =>
    rw [foldl_cons]
    refine ih _ ?_
    rcases h with hmem | hheld
    · rcases mem_cons.mp hmem with rfl | hmem
      · exact .inr (held_foldLetter st l)
      · exact .inl hmem
    · exact .inr (hheld.foldLetter l')

theorem mem_foldl_keepReadOnly (b : Branch) (keys : List (Bytes × ℕ)) (readOnly : List (ℕ × Bytes)) :
    readOnly ⊆ keys.foldl (keepReadOnly b) readOnly ∧ ∀ gk ∈ keys, b.keys[gk.2]? ≠ some gk.1 →
      (min gk.2 u32Max, gk.1) ∈ keys.foldl (keepReadOnly b) readOnly := by
  induction keys generalizing readOnly with
  | nil => exact ⟨List.Subset.refl _, fun gk h => by cases h⟩
  | cons gk keys ih =>
    have hone : readOnly ⊆ keepReadOnly b readOnly gk := by
      unfold keepReadOnly
      dsimp only
      split
      · exact subset_append_left _ _
      · exact List.Subset.refl _
    obtain ⟨hsub, hmem⟩ := ih (keepReadOnly b readOnly gk)
    refine ⟨List.Subset.trans hone hsub, fun gk' hgk' hnot => ?_⟩
    rcases mem_cons.mp hgk' with rfl | hgk'
    · refine hsub ?_
      unfold keepReadOnly
      dsimp only
      split
      · exact mem_append_right _ (mem_singleton.mpr rfl)
      · next hkept =>
        rw [not_and_or, not_not, not_not] at hkept
        exact hkept.resolve_left hnot
    · exact hmem gk' hgk' hnot

theorem mem_readOnly {uncounted : List BranchKeyLetter} {u : BranchKeyLetter} (hu : u ∈ uncounted)
    (hname : u.name = b.name) {g : ℕ} {k : Bytes} (hk : u.keys[g]? = some k) (hnot : b.keys[g]? ≠ some k) :
    (min g u32Max, k) ∈ (withReadOnly uncounted b).readOnly := by
  unfold withReadOnly
  dsimp only
  rw [mem_sortByKey]
  refine (mem_foldl_keepReadOnly b _ b.readOnly).2 (k, g) (mem_flatMap.mpr ⟨u, ?_, ?_⟩) hnot
  · exact mem_filter.mpr ⟨hu, beq_iff_eq.mpr hname⟩
  · exact mem_zipIdx_iff_getElem?.mpr hk

variable (inAudience) in
/-- A fold has a branch when a letter of it is from someone of that letter's own audience, and then holds all keys of all its
letters. -/
theorem fold_keeps {letters : List LetterIn} (hnames : ∀ l ∈ letters, l.letter.name = name) :
    ((∃ b, (fold inAudience letters).1.lookup name = some b) ↔ ∃ l ∈ letters,
      inAudience l.sender l.letter.audience = true) ∧
    ∀ b, (fold inAudience letters).1.lookup name = some b → ∀ l ∈ letters, ∀ (g : ℕ) (k : Bytes), g ≤ u32Max →
      l.letter.keys[g]? = some k → b.keys[g]? = some k ∨ (g, k) ∈ b.readOnly := by
  have hsorted : ∀ l ∈ sortByKey LetterIn.order letters, l.letter.name = name :=
    fun l hl => hnames l ((mem_sortByKey _).mp hl)
  have hall : ((sortByKey LetterIn.order letters).filter fun l => l.letter.name == name) =
      sortByKey LetterIn.order letters :=
    filter_eq_self.mpr fun l hl => beq_iff_eq.mpr (hsorted l hl)
  have hlookup := lookup_foldl_foldLetter inAudience (sortByKey LetterIn.order letters) ⟨∅, [], []⟩ name
  rw [hall, Finmap.lookup_empty] at hlookup
  rw [lookup_fold, hall]
  rcases foldl_branchStep_none inAudience hsorted with ⟨b₀, hfold, hname, l₀, hl₀, hsender⟩ | ⟨hfold, hnone⟩
  · rw [hfold, map_some]
    refine ⟨iff_of_true ⟨_, rfl⟩ ⟨l₀, (mem_sortByKey _).mp hl₀, hsender⟩, fun b hb l hl g k hg hk => ?_⟩
    obtain rfl := some.inj hb
    rw [hfold] at hlookup
    rcases held_foldl (sortByKey LetterIn.order letters) ⟨∅, [], []⟩
      (.inl ((mem_sortByKey _).mpr hl)) with hmem | ⟨b, hb, hpre⟩
    · by_cases hchain : b₀.keys[g]? = some k
      · exact .inl hchain
      · have hkept := mem_readOnly hmem ((hnames l hl).trans hname.symm) hk hchain
        rw [min_eq_left hg] at hkept
        exact .inr hkept
    · rw [hnames l hl, hlookup] at hb
      obtain rfl := some.inj hb
      exact .inl (getElem?_eq_of_isPrefix hpre hk)
  · rw [hfold, map_none]
    refine ⟨iff_of_false (by simp) fun ⟨l, hl, hsender⟩ => hnone ⟨l, (mem_sortByKey _).mpr hl, hsender⟩, ?_⟩
    rintro b ⟨⟩

end Keeping

/-! ### Runs of letters -/

section Runs

variable {inAudience : String → Audience → Bool} {name : String} {s : State}

theorem exists_keys {counted : List LetterIn} {b : Branch} (h : BranchKey.Chain inAudience counted b) :
    ∃ l ∈ counted, l.letter.keys = b.keys := by
  induction h with
  | @start l _ => exact ⟨l, mem_cons_self, rfl⟩
  | @extend counted b l _ hagrees _ ih =>
    obtain ⟨l', hl', hkeys⟩ := ih
    rcases extendBranch_cases hagrees with ⟨-, -, heq⟩ | ⟨-, heq⟩ | ⟨-, -, heq⟩
    · exact ⟨l', mem_append_left _ hl', by rw [heq]; exact hkeys⟩
    · exact ⟨l', mem_append_left _ hl', by rw [heq]; exact hkeys⟩
    · exact ⟨l, by simp, by rw [heq]⟩

theorem exists_readerFold_keys {p : String} {b : Branch} (hb : (s.readerFold p).lookup name = some b) :
    ∃ l ∈ s.letters, l.letter.keys = b.keys := by
  rw [State.readerFold, lookup_fold] at hb
  obtain ⟨b₀, hb₀, rfl⟩ := map_eq_some_iff.mp hb
  obtain ⟨counted, hsub, hchain⟩ := exists_chain hb₀
  obtain ⟨l, hl, hkeys⟩ := exists_keys hchain
  have hl' := (mem_sortByKey _).mp (mem_of_mem_filter (hsub.subset hl))
  exact ⟨l, mem_of_mem_filter hl', hkeys⟩

/-- The letters of a run are of its branch, and carry no more generations than a letter may. -/
theorem Reachable.letters (h : Reachable name s) :
    ∀ l ∈ s.letters, l.letter.name = name ∧ l.letter.keys.length ≤ maxGenerations := by
  obtain ⟨s₀, hnil, hsteps⟩ := h
  induction hsteps with
  | refl => simp [hnil]
  | tail _ hstep ih =>
    cases hstep with
    | members => exact ih
    | letter l hwrites =>
      intro l' hl'
      rcases mem_append.mp hl' with hl' | hl'
      · exact ih l' hl'
      obtain rfl := mem_singleton.mp hl'
      refine ⟨hwrites.named, ?_⟩
      rcases hwrites.keys with ⟨-, -, key, hkeys⟩ | ⟨b, hb, -, hkeys | ⟨hroom, key, -, hkeys⟩⟩
      · rw [hkeys, length_singleton, maxGenerations]
        omega
      · obtain ⟨x, hx, hxkeys⟩ := exists_readerFold_keys hb
        rw [hkeys, ← hxkeys]
        exact (ih x hx).2
      · rw [hkeys, length_append]
        exact hroom

theorem Writes.of_reletter {l : LetterIn} (hnamed : l.letter.name = name) (hid : l.id ∉ s.letters.map LetterIn.id)
    (hheight : ∀ x ∈ s.letters, x.height ≤ l.height) {b : Branch} (hb : (s.readerFold l.sender).lookup name = some b)
    (hsender : l.sender ∈ s.now b.audience) {fresh : Bytes} (hfresh : fresh ∉ b.keys)
    (hkeys : reletter b (s.now l.letter.audience) fresh = .ok (some l.letter.keys))
    (hto : l.letter.sealedTo.Pairwise (· < ·) ∧ l.letter.sealedTo.toFinset =
      insert l.sender (s.now l.letter.audience)) :
    Writes name s l := by
  refine ⟨hnamed, hid, hheight, .inr ⟨b, hb, hsender, ?_⟩, hto⟩
  unfold reletter at hkeys
  split at hkeys
  · cases hkeys
  · exact .inl (some.inj (Except.ok.inj hkeys)).symm
  · split at hkeys
    · cases hkeys
    · next hroom => exact .inr ⟨Nat.lt_of_not_le hroom, fresh, hfresh, (some.inj (Except.ok.inj hkeys)).symm⟩

/-- The letter that is asked for leaves the branch with its keys, held by who is in the audience now. -/
theorem extendBranch_reletter {b : Branch} {l : LetterIn} {fresh : Bytes} {now : Finset String}
    (hkeys : reletter b now fresh = .ok (some l.letter.keys))
    (hto : l.letter.sealedTo.toFinset = now) :
    agrees b l.letter = true ∧ (extendBranch b l).keys = l.letter.keys ∧ (extendBranch b l).holders = now := by
  unfold reletter at hkeys
  split at hkeys
  · cases hkeys
  · next joined hplan =>
    have hle : b.holders ⊆ now := by
      unfold plan at hplan
      dsimp only at hplan
      split_ifs at hplan with hleft
      exact Finset.sdiff_eq_empty_iff_subset.mp (not_not.mp hleft)
    obtain heq : b.keys = l.letter.keys := some.inj (Except.ok.inj hkeys)
    simp [agrees, extendBranch, ← heq, hto, Finset.union_eq_right.mpr hle]
  · split_ifs at hkeys
    obtain heq : b.keys ++ [fresh] = l.letter.keys := some.inj (Except.ok.inj hkeys)
    simp [agrees, extendBranch, ← heq, hto]

/-- A letter that a re-lettering asks for settles the branch: whoever is in the audience, and folded the branch it was
made from or none, folds its keys, and nothing more is asked for. -/
theorem reletter_settles {b : Branch} {l : LetterIn} {fresh : Bytes} {p : String}
    (hlast : ∀ x ∈ s.letters, x.order ≤ l.order) (hself : l.sender ∈ s.now l.letter.audience)
    (hsender : l.sender ∈ s.now b.audience)
      (hkeys : reletter b (s.now l.letter.audience) fresh = .ok (some l.letter.keys))
    (hto : l.letter.sealedTo.toFinset = s.now l.letter.audience) (hp : p ∈ s.now l.letter.audience)
    (hfold : (s.readerFold p).lookup l.letter.name = none ∨ (s.readerFold p).lookup l.letter.name = some b) :
    ∃ b', (State.readerFold { s with letters := s.letters ++ [l] } p).lookup l.letter.name = some b' ∧
      b'.keys = l.letter.keys ∧ plan b' (s.now l.letter.audience) = .nothing := by
  have hread : decide (p ∈ l.letter.sealedTo) = true := by rwa [decide_eq_true_eq, ← List.mem_toFinset, hto]
  have hlast' : ∀ x ∈ s.letters.filter fun x => p ∈ x.letter.sealedTo, ∀ y ∈ [l], x.order ≤ y.order :=
    fun x hx y hy => mem_singleton.mp hy ▸ hlast x (mem_of_mem_filter hx)
  have hone : sortByKey LetterIn.order [l] = [l] := rfl
  have hplan {b' : Branch} (h : b'.holders = s.now l.letter.audience) :
      plan b' (s.now l.letter.audience) = .nothing := by
    simp [plan, h]
  simp only [State.readerFold, lookup_fold, Option.map_eq_none_iff, Option.map_eq_some_iff] at hfold ⊢
  simp only [filter_append, filter_singleton, hread, cond_true, sortByKey_append _ hlast', hone, foldl_append,
    beq_self_eq_true]
  rcases hfold with hnone | ⟨b₀, hsome, rfl⟩
  · refine ⟨_, ⟨startBranch l, ?_, rfl⟩, rfl, hplan hto⟩
    exact (congrArg (branchStep (fun sender a => decide (sender ∈ s.now a)) · l) hnone).trans
      (if_pos (decide_eq_true hself))
  · obtain ⟨hagrees, hkeys', hholders⟩ := extendBranch_reletter (b := b₀) hkeys hto
    refine ⟨_, ⟨extendBranch b₀ l, ?_, rfl⟩, hkeys', hplan hholders⟩
    have hcounts : (agrees b₀ l.letter && decide (l.sender ∈ s.now b₀.audience)) = true :=
      (Bool.and_eq_true _ _).mpr ⟨hagrees, decide_eq_true hsender⟩
    exact (congrArg (branchStep (fun sender a => decide (sender ∈ s.now a)) · l) hsome).trans (if_pos hcounts)

/-- In every run, a reader holds the keys of a letter it was sent exactly when some letter it was sent is from someone who
is in that letter's audience now. -/
theorem keeps_iff (h : Reachable name s) {p : String} {l : LetterIn} (hl : l ∈ s.letters)
    (hto : p ∈ l.letter.sealedTo) :
    Keeps name s p l ↔ ∃ x ∈ s.letters, p ∈ x.letter.sealedTo ∧ x.sender ∈ s.now x.letter.audience := by
  have hread {x : LetterIn} : x ∈ s.letters.filter (fun l => p ∈ l.letter.sealedTo) ↔ x ∈ s.letters ∧
      p ∈ x.letter.sealedTo := by
    rw [mem_filter, decide_eq_true_eq]
  have hnames : ∀ x ∈ s.letters.filter (fun l => p ∈ l.letter.sealedTo), x.letter.name = name :=
    fun x hx => (h.letters x (hread.mp hx).1).1
  obtain ⟨hstarted, hkept⟩ := fold_keeps (fun sender a => decide (sender ∈ s.now a)) hnames
  have hsenders : (∃ x ∈ s.letters.filter (fun l => p ∈ l.letter.sealedTo),
    decide (x.sender ∈ s.now x.letter.audience) = true) ↔
      ∃ x ∈ s.letters, p ∈ x.letter.sealedTo ∧ x.sender ∈ s.now x.letter.audience := by
    simp only [hread, decide_eq_true_eq, and_assoc]
  rw [← hsenders, ← hstarted]
  constructor
  · rintro ⟨b, hb, -⟩
    exact ⟨b, hb⟩
  · rintro ⟨b, hb⟩
    refine ⟨b, hb, fun g k hk => ?_⟩
    have hg : g < l.letter.keys.length := (List.getElem?_eq_some_iff.mp hk).1
    have hmax : g ≤ u32Max := by
      have hlength := (h.letters l hl).2
      unfold maxGenerations at hlength
      unfold u32Max
      omega
    have hkept' := hkept b hb l (hread.mpr ⟨hl, hto⟩) g k hmax hk
    refine ⟨hkept', fun kcv commit => ?_⟩
    have hin : (name, b) ∈ s.readerFold p := by
      obtain ⟨l₁, l₂, heq, -⟩ := lookup_eq_some_iff.mp hb
      unfold State.readerFold
      rw [heq]
      exact mem_append_right _ mem_cons_self
    -- Whichever way the key is held, the ring derives it at its generation.
    rcases hkept' with hchain | hreadOnly
    · have hmem : (⟨name, g, k, false⟩ : Derived) ∈ derived (s.readerFold p) := by
        refine mem_flatMap.mpr ⟨(name, b), hin, mem_append_left _ (mem_map.mpr ⟨(k, g), ?_, ?_⟩)⟩
        · exact mem_zipIdx_iff_getElem?.mpr hchain
        · rw [min_eq_left hmax]
      exact openKey_of_mem hmem kcv commit
    · have hmem : (⟨name, g, k, true⟩ : Derived) ∈ derived (s.readerFold p) :=
        mem_flatMap.mpr ⟨(name, b), hin, mem_append_right _ (mem_map.mpr ⟨(g, k), hreadOnly, rfl⟩)⟩
      exact openKey_of_mem hmem kcv commit

end Runs

/-- A branch's one letter, from `cat` to all writers. -/
def onlyLetter : LetterIn :=
  ⟨"a", 1, "cat", "refs/heads/sec", [[1]], ⟨some .writers, []⟩, ["cat", "own", "pat"]⟩

def lettered : State := ⟨"own", [⟨"cat", .writer, 0⟩, ⟨"pat", .writer, 0⟩], [onlyLetter]⟩

/-- A letter from `cat` once `dog` has joined. -/
def joinLetter : LetterIn :=
  ⟨"b", 2, "cat", "refs/heads/sec", [[1]], ⟨some .writers, []⟩, ["cat", "dog", "own", "pat"]⟩

theorem reletter_settles_sample :
    let s : State := ⟨"own", [⟨"cat", .writer, 0⟩, ⟨"dog", .writer, 0⟩, ⟨"pat", .writer, 0⟩], [onlyLetter]⟩
    ∃ b, (State.readerFold { s with letters := s.letters ++ [joinLetter] } "dog").lookup "refs/heads/sec" = some b ∧
      b.keys = [[1]] ∧ plan b (s.now ⟨some .writers, []⟩) = .nothing :=
  @reletter_settles _ ⟨"refs/heads/sec", [[1]], ⟨some .writers, []⟩, [1], {"cat", "own", "pat"},
    ["a"], []⟩ joinLetter [2] "dog"
    (by decide) (by decide) (by decide) (by decide +kernel) (by decide) (by decide) (.inl (by decide +kernel))

theorem lettered_reachable : Reachable "refs/heads/sec" lettered := by
  refine ⟨{ lettered with letters := [] }, rfl, .single (.letter { lettered with letters := [] } onlyLetter ?_)⟩
  exact ⟨rfl, not_mem_nil, fun x hx => absurd hx not_mem_nil, .inl ⟨rfl, by decide, [1], rfl⟩, by decide, by decide⟩

/-- The letter that `pat` writes when `dog` joins. -/
def patLetter : LetterIn := { joinLetter with sender := "pat" }

theorem relettered_reachable : Reachable "refs/heads/sec"
    ⟨"own", [⟨"cat", .writer, 0⟩, ⟨"dog", .writer, 0⟩, ⟨"pat", .writer, 0⟩], [onlyLetter, patLetter]⟩ := by
  obtain ⟨s₀, hnil, hsteps⟩ := lettered_reachable
  have hjoined := hsteps.tail (.members _ [⟨"cat", .writer, 0⟩, ⟨"dog", .writer, 0⟩, ⟨"pat", .writer, 0⟩])
  refine ⟨s₀, hnil, hjoined.tail (.letter _ patLetter (@Writes.of_reletter _ _ patLetter rfl (by decide) (by decide)
    ⟨"refs/heads/sec", [[1]], ⟨some .writers, []⟩, [1], {"cat", "own", "pat"}, ["a"], []⟩
      (by decide +kernel) (by decide)
    [2] (by decide) (by decide +kernel) ⟨by decide, by decide⟩))⟩

/-- `cat` is removed, and `pat` keeps the keys of `cat`'s letter by one that still counts. -/
theorem keeps_iff_sample : Keeps "refs/heads/sec"
    ⟨"own", [⟨"dog", .writer, 0⟩, ⟨"pat", .writer, 0⟩], [onlyLetter, patLetter]⟩ "pat" onlyLetter := by
  obtain ⟨s₀, hnil, hsteps⟩ := relettered_reachable
  refine (keeps_iff ⟨s₀, hnil, hsteps.tail (.members _ [⟨"dog", .writer, 0⟩, ⟨"pat", .writer, 0⟩])⟩ mem_cons_self
    (by decide)).mpr ⟨patLetter, by decide, by decide, by decide⟩

/-- The one who wrote the only letter is removed, and nobody else holds the branch any more. -/
theorem not_keeps_of_removed : ¬∀ name s, Reachable name s → ∀ l ∈ s.letters, (∀ x ∈ s.letters, x.order ≤ l.order) →
    ∀ p, p ∈ s.now l.letter.audience → p ∈ l.letter.sealedTo → Keeps name s p l := by
  intro h
  obtain ⟨s₀, hnil, hsteps⟩ := lettered_reachable
  have hremoved : Reachable "refs/heads/sec" { lettered with members := [⟨"pat", .writer, 0⟩] } :=
    ⟨s₀, hnil, hsteps.tail (.members _ _)⟩
  obtain ⟨b, hb, -⟩ := h _ _ hremoved onlyLetter mem_cons_self
    (fun x hx => by rw [mem_singleton.mp hx]) "pat" (by decide) (by decide)
  have hnone : (State.readerFold { lettered with members := [⟨"pat", .writer, 0⟩] } "pat").lookup
      "refs/heads/sec" = none := by
    decide +kernel
  rw [hnone] at hb
  cases hb

end DashForge.Narrow
