import DashForge.Data.Saturating
import DashForge.Data.SortedMap
import DashForge.Rules.MergeBase
import Mathlib.Data.List.TakeWhile

/-!
# Release provenance

What the tag of a release pointed at when the release was first published, and whether the tag or the assets changed
since (`rules/provenance.rs`). The baseline is the tag's tip at the first publish; where the tag named nothing then, the
commit that the release records; and without such a record the first tip of a tag that was pushed later.

`releaseProvenance` reads documents that are only ever added to. Documents of a later time leave the baseline as it is
and only add moves (`kept_extend`); `verdict_eq_unchanged_iff` says which histories are called unchanged, and
`altered_of_resolved` that a tip which the tag had at the publish cannot be given up unseen.
-/

namespace DashForge.Provenance

open List Option

/-- An asset's name and hash. -/
structure Asset where
  name : String
  /-- Hex. -/
  sha256 : String
deriving DecidableEq, Repr

/-- One revision of a release. -/
structure Revision where
  id : String
  createdAt : ℕ
  /-- +1 a publish, 0 an edit or yank, −1 an unpublish. -/
  delta : ℤ
  publisher : String
  assets : List Asset
deriving DecidableEq, Repr

/-- The position of a revision in the platform order. -/
def Revision.key (r : Revision) : ℕ ×ₗ String := toLex (r.createdAt, r.id)

/-- A tip and the update that set it. -/
@[ext]
structure Tip where
  oid : Oid
  author : String
  time : ℕ
deriving DecidableEq, Repr

/-- A later update that moved the tag; to `none` it is a deletion. -/
structure TagMove where
  id : String
  time : ℕ
  author : String
  fromOid : Option Oid
  toOid : Option Oid
deriving DecidableEq, Repr

/-- Where the tag stands against the baseline. -/
inductive TagVerdict where
  /-- It points where it did, and never moved since. -/
  | unchanged
  /-- It moved since, and points where it did again. -/
  | restored
  | moved
  | deleted
  /-- Two tips race. -/
  | diverged
  /-- It never existed. -/
  | missing
deriving DecidableEq, Repr

/-- The newest revision's assets against the first published revision's, by name. -/
structure AssetChanges where
  added : List String
  removed : List String
  replaced : List String
deriving DecidableEq, Repr

def AssetChanges.isEmpty (c : AssetChanges) : Bool := c.added.isEmpty && c.removed.isEmpty && c.replaced.isEmpty

/-- The first published revision. -/
structure Published where
  id : String
  time : ℕ
  publisher : String
deriving DecidableEq, Repr

/-- What `releaseProvenance` finds. -/
structure ReleaseProvenance where
  published : Option Published
  baseline : Option Tip
  /-- `release`: the baseline is the release's own record; `tag`: the tag's history. -/
  pinnedBy : String
  /-- The tag was first pushed after the release was published. -/
  lateTag : Bool
  current : Option Tip
  moves : List TagMove
  tag : TagVerdict
  assets : AssetChanges
  recorded : Option Oid
  recordDiffers : Bool
deriving DecidableEq, Repr

/-- The tag or the assets differ from what was first published. -/
def ReleaseProvenance.altered (p : ReleaseProvenance) : Bool :=
  p.tag = .moved || p.tag = .deleted || p.tag = .diverged || p.tag = .missing || !p.assets.isEmpty || p.recordDiffers

/-! ### The pieces -/

def toAsciiLowercase (s : String) : String := String.ofList (s.toList.map Char.toLower)

/-- The tip of a ref that has just one. -/
def tipOf : RefState → Option Tip
  | .resolved oid author createdAt => some ⟨oid, author, createdAt⟩
  | _ => none

def assetMap (r : Revision) : SortedMap String String :=
    .ofList (r.assets.map fun a => (a.name, toAsciiLowercase a.sha256))

def assetChanges (first newest : Revision) : AssetChanges :=
  let was := assetMap first
  let now := assetMap newest
  { added := now.keys.filter fun n => (was.lookup n).isNone
    removed := was.keys.filter fun n => (now.lookup n).isNone
    replaced := (now.entries.filter fun e => (was.lookup e.1).any fun w => w ≠ e.2).map Prod.fst }

/-- The tip an update leaves. -/
def leaves (u : RefUpdate) : Option Oid := if isNullOid u.newOid then none else some u.newOid

/-- Each update of a walk that changed the tip, in order. -/
def movesFrom (tip : Option Oid) : List RefUpdate → List TagMove
  | [] => []
  | u :: walk =>
    if leaves u = tip then movesFrom tip walk
    else ⟨u.id, u.createdAt, u.author, tip, leaves u⟩ :: movesFrom (leaves u) walk

/-- What a record of a release names. -/
def record (o : Option Oid) : Option Oid := (o.filter fun p => !isNullOid p).map toAsciiLowercase

/-- What the provenance of one tag's release is read from. -/
structure Release where
  refNameHash : String
  updates : List RefUpdate
  configs : List ConfigDoc
  /-- Every revision of the tag's release. -/
  revisions : List Revision
  /-- The commit a sealed release records. -/
  pin : Option Oid
  /-- The tag tip a public release records. -/
  target : Option Oid

namespace Release

variable (env : RefEnv) (rel : Release)

/-- The revisions that publish or edit, in order. -/
def live : List Revision := (sortByKey Revision.key rel.revisions).filter fun r => 0 ≤ r.delta

def assets : AssetChanges :=
  match rel.live.head?, rel.live.getLast? with
  | some first, some newest => assetChanges first newest
  | _, _ => ⟨[], [], []⟩

def publishedAt : ℕ := rel.live.head?.elim u64Max Revision.createdAt

def valid : List RefUpdate := validUpdates env rel.updates rel.configs rel.refNameHash

def nowState : RefState := resolveRef (· == ·) env rel.updates rel.configs rel.refNameHash

/-- The updates written by the first publish. -/
def before : List RefUpdate := (rel.valid env).filter fun u => u.createdAt ≤ rel.publishedAt

/-- The tag's tip at the first publish. -/
def atPublish : Option Tip := tipOf (resolveRef (· == ·) env (rel.before env) rel.configs rel.refNameHash)

def later : List RefUpdate := (rel.valid env).filter fun u => rel.publishedAt < u.createdAt

/-- The later updates from the first push on. -/
def pushed : List RefUpdate := (rel.later env).dropWhile fun u => isNullOid u.newOid

def lateTag : Bool := (rel.before env).isEmpty && !(rel.pushed env).isEmpty

def recorded : Option Oid := record rel.target

/-- A public record must agree with the tag's history at the first publish. -/
def recordDiffers : Bool :=
  rel.recorded.any fun t => (rel.atPublish env).any fun a => t ≠ toAsciiLowercase a.oid

/-- The release's own record, which counts only when the tag named nothing at the first publish. -/
def ownPin : Option Oid := (rel.recorded.or (record rel.pin)).filter fun _ => (rel.atPublish env).isNone

def tagBaseline : Option Tip :=
  if rel.lateTag env then (rel.pushed env).head?.map fun u => ⟨u.newOid, u.author, u.createdAt⟩ else rel.atPublish env

def baseline : Option Tip :=
  match rel.ownPin env with
  | some p => some ⟨p, rel.live.head?.elim "" Revision.publisher, rel.publishedAt⟩
  | none => rel.tagBaseline env

/-- The updates that may be moves. -/
def walk : List RefUpdate := if rel.lateTag env then (rel.pushed env).tail else rel.later env

def moves : List TagMove := movesFrom ((rel.tagBaseline env).map Tip.oid) (rel.walk env)

def verdict : TagVerdict :=
  if (rel.valid env).isEmpty then .missing
  else match rel.nowState env with
    | .diverged _ => .diverged
    | state => match tipOf state, rel.baseline env with
      | none, _ => .deleted
      | some c, some b =>
        if c.oid = b.oid then if (rel.moves env).isEmpty then .unchanged else .restored else .moved
      | some _, none => .moved

end Release

/-- The provenance of the release of one tag. -/
def releaseProvenance (env : RefEnv) (rel : Release) : ReleaseProvenance where
  published := rel.live.head?.map fun r => ⟨r.id, r.createdAt, r.publisher⟩
  baseline := rel.baseline env
  pinnedBy := if (rel.ownPin env).isSome then "release" else "tag"
  lateTag := rel.lateTag env
  current := tipOf (rel.nowState env)
  moves := rel.moves env
  tag := rel.verdict env
  assets := rel.assets
  recorded := rel.recorded
  recordDiffers := rel.recordDiffers env

/-! ### The walk of the moves -/

theorem leaves_eq_some_iff {u : RefUpdate} {oid : Oid} :
    leaves u = some oid ↔ u.newOid = oid ∧ isNullOid oid = false := by
  rw [leaves]
  split_ifs with h
  · simp only [false_iff, not_and]
    rintro rfl
    simp [h]
  · rw [some_inj]
    refine ⟨fun heq => ⟨heq, ?_⟩, And.left⟩
    simpa [← heq] using h

theorem leaves_eq_none_iff {u : RefUpdate} : leaves u = none ↔ isNullOid u.newOid = true := by
  rw [leaves]
  split_ifs with h <;> simp [h]

theorem movesFrom_eq_nil_iff {tip : Option Oid} {walk : List RefUpdate} :
    movesFrom tip walk = [] ↔ ∀ u ∈ walk, leaves u = tip := by
  induction walk with
  | nil => simp [movesFrom]
  | cons u walk ih =>
    rw [movesFrom, forall_mem_cons]
    split_ifs with h
    · simp [ih, h]
    · simp [h]

theorem movesFrom_append_prefix (tip : Option Oid) (walk more : List RefUpdate) :
    movesFrom tip walk <+: movesFrom tip (walk ++ more) := by
  induction walk generalizing tip with
  | nil => exact List.nil_prefix
  | cons u walk ih =>
    rw [cons_append, movesFrom, movesFrom]
    split_ifs with h
    · exact ih tip
    · exact (prefix_cons_inj _).mpr (ih _)

/-! ### Valid updates up to a time -/

section Valid

variable {env : RefEnv} {us us' : List RefUpdate} {cfgs cfgs' : List ConfigDoc} {refNameHash : String}

theorem resolveRef_congr (h : validUpdates env us cfgs refNameHash = validUpdates env us' cfgs' refNameHash) :
    resolveRef (· == ·) env us cfgs refNameHash = resolveRef (· == ·) env us' cfgs' refNameHash := by
  simp [resolveRef, liveHeads_eq_collectHeads, h]

theorem getLast?_of_resolved {oid : Oid} {author : String} {t : ℕ}
    (h : resolveRef (· == ·) env us cfgs refNameHash = .resolved oid author t) :
    ∃ newest, (validUpdates env us cfgs refNameHash).getLast? = some newest ∧ newest.newOid = oid ∧
      isNullOid oid = false := by
  have htip := tipOf_resolveRef (· == ·) env us cfgs refNameHash
  rw [h, liveHeads_eq_collectHeads] at htip
  rcases hlast : (validUpdates env us cfgs refNameHash).getLast? with _ | newest
  · rw [getLast?_eq_none_iff.mp hlast] at htip
    exact absurd htip (by simp [DashForge.tipOf, collectHeads])
  · rcases hnull : isNullOid newest.newOid with _ | _
    · rw [head?_collectHeads hlast hnull] at htip
      obtain rfl : oid = newest.newOid := by simpa [DashForge.tipOf, RefUpdate.toHead] using htip
      exact ⟨newest, rfl, rfl, hnull⟩
    · rw [collectHeads_eq_nil hlast hnull] at htip
      exact absurd htip (by simp [DashForge.tipOf])

theorem mem_validUpdates {u : RefUpdate} : u ∈ validUpdates env us cfgs refNameHash ↔
    u ∈ us ∧ u.refNameHash = refNameHash ∧ isUpdateValid env u cfgs = true := by
  rw [validUpdates, mem_causalOrder, mem_filter, Bool.and_eq_true, beq_iff_eq]

theorem filter_append_filter {valid : List RefUpdate} (h : valid.Pairwise fun u v =>
    u.createdAt ≤ v.createdAt) (t : ℕ) :
    (valid.filter fun u => u.createdAt ≤ t) ++ (valid.filter fun u => t < u.createdAt) = valid := by
  induction h with
  | nil => rfl
  | @cons u valid hhead _ ih =>
    by_cases hu : u.createdAt ≤ t
    · rw [filter_cons_of_pos (by simpa using hu), filter_cons_of_neg (by simpa using hu), cons_append, ih]
    · -- everything after a later update is later
      have hlater : ∀ v ∈ u :: valid, t < v.createdAt := by
        refine forall_mem_cons.mpr ⟨Nat.lt_of_not_le hu, fun v hv => ?_⟩
        exact Nat.lt_of_lt_of_le (Nat.lt_of_not_le hu) (hhead v hv)
      rw [filter_eq_nil_iff.mpr (fun v hv => by simpa using hlater v hv),
        filter_eq_self.mpr (fun v hv => by simpa using hlater v hv), nil_append]

theorem validUpdates_filter (hids : (us.map RefUpdate.id).Nodup) (t : ℕ) :
    validUpdates env (us.filter fun u => u.createdAt ≤ t) cfgs refNameHash =
      (validUpdates env us cfgs refNameHash).filter fun u => u.createdAt ≤ t := by
  have hunion : IsUnion RefUpdate.id (us.filter fun u => u.createdAt ≤ t)
      (us.filter fun u => !decide (u.createdAt ≤ t)) us :=
    .inr ⟨(filter_append_perm _ us).symm, hids⟩
  have hcfgs : IsUnion ConfigDoc.id cfgs [] cfgs := .inl (append_nil _).symm
  have hlate : ∀ v ∈ us.filter fun u => !decide (u.createdAt ≤ t), t < v.createdAt := fun v hv => by
    simpa using (mem_filter.mp hv).2
  have hsplit := @validUpdates_of_isUnion env _ _ _ _ _ _ refNameHash hunion hcfgs
    (fun u hu v hv => Nat.lt_of_le_of_lt (by simpa using (mem_filter.mp hu).2) (hlate v hv)) (by simp)
  have hfirst : (validUpdates env (us.filter fun u => u.createdAt ≤ t) cfgs refNameHash).filter
      (fun u => u.createdAt ≤ t) = validUpdates env (us.filter fun u => u.createdAt ≤ t) cfgs refNameHash :=
    filter_eq_self.mpr fun u hu => (mem_filter.mp (mem_validUpdates.mp hu).1).2
  have hrest : (validUpdates env (us.filter fun u => !decide (u.createdAt ≤ t)) cfgs refNameHash).filter
      (fun u => u.createdAt ≤ t) = [] :=
    filter_eq_nil_iff.mpr fun u hu => by simpa using hlate u (mem_validUpdates.mp hu).1
  rw [hsplit, filter_append, hfirst, hrest, append_nil]

theorem validUpdates_idem (hids : (us.map RefUpdate.id).Nodup) :
    validUpdates env (validUpdates env us cfgs refNameHash) cfgs refNameHash =
        validUpdates env us cfgs refNameHash := by
  have hself : (validUpdates env us cfgs refNameHash).filter (fun u =>
      u.refNameHash == refNameHash && isUpdateValid env u cfgs) = validUpdates env us cfgs refNameHash := by
    refine filter_eq_self.mpr fun u hu => ?_
    obtain ⟨-, hname, hvalid⟩ := mem_validUpdates.mp hu
    simp [hname, hvalid]
  rw [validUpdates, hself, validUpdates]
  have hperm := perm_causalOrder (us.filter fun u => u.refNameHash == refNameHash && isUpdateValid env u cfgs)
  refine causalOrder_eq_of_perm hperm ((hperm.map RefUpdate.id).nodup_iff.mpr ?_)
  exact hids.sublist (filter_sublist.map _)

end Valid

namespace Release

variable {env : RefEnv} {rel : Release}

/-! ### What the pieces are -/

variable {u : RefUpdate} {c : Tip}

theorem mem_valid_createdAt (h : u ∈ rel.valid env) : u ∈ rel.updates := (mem_validUpdates.mp h).1

theorem before_append_later : rel.before env ++ rel.later env = rel.valid env :=
  filter_append_filter (pairwise_causalOrder _) _

theorem pushed_eq_nil_iff : rel.pushed env = [] ↔ ∀ u ∈ rel.later env, isNullOid u.newOid = true :=
  dropWhile_eq_nil_iff

theorem head_pushed (h : (rel.pushed env).head? = some u) : isNullOid u.newOid = false := by
  have hnot := head?_dropWhile_not (fun u => isNullOid u.newOid) (rel.later env)
  rw [pushed] at h
  rw [h] at hnot
  simpa using hnot

theorem lateTag_iff : rel.lateTag env = true ↔ rel.before env = [] ∧ rel.pushed env ≠ [] := by
  rw [lateTag, Bool.and_eq_true, List.isEmpty_iff, Bool.not_eq_true', isEmpty_eq_false_iff]

theorem before_ne_nil {tip : Tip} (h : rel.atPublish env = some tip) : rel.before env ≠ [] := by
  intro hnil
  rw [atPublish, hnil] at h
  exact absurd h (by simp [resolveRef, liveHeads, validUpdates, causalOrder, blocks, tipOf])

/-- Such a tag is no late one and is not judged against the release's own record. -/
theorem of_atPublish {tip : Tip} (h : rel.atPublish env = some tip) :
    rel.lateTag env = false ∧ rel.ownPin env = none ∧ rel.baseline env = some tip := by
  have hlate : rel.lateTag env = false := by
    rw [Bool.eq_false_iff, Ne, lateTag_iff]
    exact fun hl => before_ne_nil h hl.1
  have hpin : rel.ownPin env = none := by simp [ownPin, h]
  exact ⟨hlate, hpin, by simp [baseline, hpin, tagBaseline, hlate, h]⟩

theorem exists_publishedAt (h : ∃ r ∈ rel.revisions, 0 ≤ r.delta) :
    ∃ r ∈ rel.revisions, rel.live.head? = some r ∧ rel.publishedAt = r.createdAt := by
  obtain ⟨r, hr, hdelta⟩ := h
  have hlive : r ∈ rel.live := by simp [live, hr, hdelta]
  obtain ⟨first, rest, heq⟩ := exists_cons_of_ne_nil (ne_nil_of_mem hlive)
  have hfirst : first ∈ rel.live := heq ▸ mem_cons_self
  refine ⟨first, ?_, by rw [heq]; rfl, by rw [publishedAt, heq]; rfl⟩
  simpa [live] using (mem_filter.mp hfirst).1

/-! ### Documents of a later time -/

/-- The times of everything that is read. -/
def times (rel : Release) : List ℕ :=
  rel.updates.map RefUpdate.createdAt ++ rel.configs.map ConfigDoc.createdAt ++ rel.revisions.map Revision.createdAt

/-- The same release with more documents. -/
def extend (rel : Release) (us : List RefUpdate) (cfgs : List ConfigDoc) (revs : List Revision) : Release :=
  { rel with updates := rel.updates ++ us, configs := rel.configs ++ cfgs, revisions := rel.revisions ++ revs }

/-- Documents that are all written after everything that is read. -/
structure IsLater (rel : Release) (us : List RefUpdate) (cfgs : List ConfigDoc) (revs : List Revision) : Prop where
  updates : ∀ t ∈ rel.times, ∀ u ∈ us, t < u.createdAt
  configs : ∀ t ∈ rel.times, ∀ c ∈ cfgs, t < c.createdAt
  revisions : ∀ t ∈ rel.times, ∀ r ∈ revs, t < r.createdAt

theorem mem_times_updates (h : u ∈ rel.updates) : u.createdAt ∈ rel.times :=
  mem_append_left _ (mem_append_left _ (mem_map_of_mem h))

theorem mem_times_revisions {r : Revision} (h : r ∈ rel.revisions) : r.createdAt ∈ rel.times :=
  mem_append_right _ (mem_map_of_mem h)

section Extend

variable {us : List RefUpdate} {cfgs : List ConfigDoc} {revs : List Revision} (hlater : rel.IsLater us cfgs revs)
include hlater

theorem valid_extend : (rel.extend us cfgs revs).valid env =
    rel.valid env ++ validUpdates env us (rel.configs ++ cfgs) rel.refNameHash :=
  validUpdates_of_isUnion (.inl rfl) (.inl rfl)
    (fun _ hu v hv => hlater.updates _ (mem_times_updates hu) v hv)
    fun _ hu c hc => hlater.configs _ (mem_times_updates hu) c hc

variable (hlive : ∃ r ∈ rel.revisions, 0 ≤ r.delta)
include hlive

/-- The first publish stays the first. -/
theorem head?_live_extend : (rel.extend us cfgs revs).live.head? = rel.live.head? := by
  obtain ⟨first, -, hfirst, -⟩ := exists_publishedAt hlive
  have hkey : ∀ r ∈ rel.revisions, ∀ r' ∈ revs, r.key ≤ r'.key := fun r hr r' hr' =>
    (Prod.Lex.toLex_lt_toLex.mpr (.inl (hlater.revisions _ (mem_times_revisions hr) r' hr'))).le
  have hsplit : (rel.extend us cfgs revs).live = rel.live ++ (sortByKey Revision.key revs).filter fun r =>
      0 ≤ r.delta := by
    rw [live, extend, sortByKey_append _ hkey, filter_append, live]
  rw [hsplit, head?_append, hfirst]
  rfl

theorem publishedAt_extend : (rel.extend us cfgs revs).publishedAt = rel.publishedAt := by
  rw [publishedAt, head?_live_extend hlater hlive, publishedAt]

theorem publishedAt_lt {u : RefUpdate} (h : u ∈ validUpdates env us (rel.configs ++ cfgs) rel.refNameHash) :
    rel.publishedAt < u.createdAt := by
  obtain ⟨first, hmem, -, htime⟩ := exists_publishedAt hlive
  rw [htime]
  exact hlater.updates _ (mem_times_revisions hmem) u (mem_validUpdates.mp h).1

theorem before_extend : (rel.extend us cfgs revs).before env = rel.before env := by
  have hnone : (validUpdates env us (rel.configs ++ cfgs) rel.refNameHash).filter
      (fun u => u.createdAt ≤ rel.publishedAt) = [] :=
    filter_eq_nil_iff.mpr fun u hu => by simpa using publishedAt_lt hlater hlive hu
  rw [before, publishedAt_extend hlater hlive, valid_extend hlater, filter_append, hnone, append_nil, before]

theorem later_extend : (rel.extend us cfgs revs).later env =
    rel.later env ++ validUpdates env us (rel.configs ++ cfgs) rel.refNameHash := by
  rw [later, publishedAt_extend hlater hlive, valid_extend hlater, filter_append, later]
  rw [append_cancel_left_eq, filter_eq_self]
  intro u hu
  simpa using publishedAt_lt hlater hlive hu

/-- What the tag named at the first publish stays what it named then. -/
theorem atPublish_extend : (rel.extend us cfgs revs).atPublish env = rel.atPublish env := by
  have hbefore : ∀ u ∈ rel.before env, ∀ c ∈ cfgs, u.createdAt < c.createdAt := fun u hu c hc =>
    hlater.configs _ (mem_times_updates (mem_valid_createdAt (mem_of_mem_filter hu))) c hc
  have hvalid : validUpdates env (rel.before env) (rel.configs ++ cfgs) rel.refNameHash =
      validUpdates env (rel.before env) rel.configs rel.refNameHash := by
    have hunion : IsUnion RefUpdate.id (rel.before env) [] (rel.before env) := .inl (append_nil _).symm
    rw [validUpdates_of_isUnion hunion (.inl rfl) (by simp) hbefore]
    exact append_nil _
  rw [atPublish, before_extend hlater hlive, atPublish]
  exact congrArg tipOf (resolveRef_congr hvalid)

theorem recordDiffers_extend : (rel.extend us cfgs revs).recordDiffers env = rel.recordDiffers env := by
  rw [recordDiffers, atPublish_extend hlater hlive, recordDiffers]
  rfl

theorem ownPin_extend : (rel.extend us cfgs revs).ownPin env = rel.ownPin env := by
  rw [ownPin, atPublish_extend hlater hlive, ownPin]
  rfl

/-- A tag that was pushed after the publish has the same first push. -/
theorem pushed_extend (h : rel.pushed env ≠ []) : (rel.extend us cfgs revs).pushed env =
    rel.pushed env ++ validUpdates env us (rel.configs ++ cfgs) rel.refNameHash := by
  rw [pushed, later_extend hlater hlive, dropWhile_append, if_neg, pushed]
  simpa [pushed] using h

theorem lateTag_extend_iff (hbase : rel.baseline env ≠ none) :
    (rel.extend us cfgs revs).lateTag env = true ↔ rel.lateTag env = true ∨ rel.ownPin env ≠ none ∧
      rel.before env = [] ∧ ∃ u ∈ (rel.extend us cfgs revs).valid env, isNullOid u.newOid = false := by
  have hpushed : rel.before env = [] → ((rel.extend us cfgs revs).pushed env ≠ [] ↔
      ∃ u ∈ (rel.extend us cfgs revs).valid env, isNullOid u.newOid = false) := fun hnil => by
    rw [Ne, pushed_eq_nil_iff, ← before_append_later, before_extend hlater hlive, hnil]
    simp
  rw [lateTag_iff, before_extend hlater hlive]
  constructor
  · rintro ⟨hnil, hne⟩
    rcases hpin : rel.ownPin env with _ | p
    · -- without an own record, the baseline is the tag's, which is late already
      refine .inl (by_contra fun hlate => hbase ?_)
      have hnone : rel.atPublish env = none :=
        eq_none_iff_forall_ne_some.mpr fun tip htip => before_ne_nil htip hnil
      simp [baseline, hpin, tagBaseline, hlate, hnone]
    · exact .inr ⟨by simp, hnil, (hpushed hnil).mp hne⟩
  · rintro (hlate | ⟨-, hnil, hex⟩)
    · obtain ⟨hnil, hne⟩ := lateTag_iff.mp hlate
      rw [pushed_extend hlater hlive hne]
      exact ⟨hnil, by simp [hne]⟩
    · exact ⟨hnil, (hpushed hnil).mpr hex⟩

theorem tagBaseline_extend {tip : Tip} (h : rel.tagBaseline env = some tip) :
    (rel.extend us cfgs revs).lateTag env = rel.lateTag env ∧ (rel.extend us cfgs revs).tagBaseline env = some tip := by
  rcases hlate : rel.lateTag env with _ | _
  · have hpub : rel.atPublish env = some tip := by simpa [tagBaseline, hlate] using h
    have hpub' : (rel.extend us cfgs revs).atPublish env = some tip := (atPublish_extend hlater hlive).trans hpub
    have hlate' := (of_atPublish hpub').1
    exact ⟨hlate', by simp [tagBaseline, hlate', hpub']⟩
  · have hne := (lateTag_iff.mp hlate).2
    have hlate' : (rel.extend us cfgs revs).lateTag env = true := by
      rw [lateTag_iff, before_extend hlater hlive, pushed_extend hlater hlive hne]
      exact ⟨(lateTag_iff.mp hlate).1, by simp [hne]⟩
    obtain ⟨first, rest, heq⟩ := exists_cons_of_ne_nil hne
    refine ⟨hlate', ?_⟩
    rw [tagBaseline, if_pos hlate', pushed_extend hlater hlive hne]
    simpa [tagBaseline, hlate, heq] using h

theorem baseline_extend (hbase : rel.baseline env ≠ none) :
    (rel.extend us cfgs revs).baseline env = rel.baseline env := by
  rw [baseline, ownPin_extend hlater hlive, publishedAt_extend hlater hlive, head?_live_extend hlater hlive]
  rcases hpin : rel.ownPin env with _ | p
  · have hne : rel.tagBaseline env ≠ none := by simpa [baseline, hpin] using hbase
    obtain ⟨tip, htip⟩ := ne_none_iff_exists'.mp hne
    simp [baseline, hpin, htip, (tagBaseline_extend hlater hlive htip).2]
  · simp [baseline, hpin]

theorem moves_extend : rel.moves env <+: (rel.extend us cfgs revs).moves env := by
  rcases htip : rel.tagBaseline env with _ | tip
  · have hlate : rel.lateTag env = false := by
      rw [Bool.eq_false_iff]
      intro hl
      obtain ⟨first, rest, heq⟩ := exists_cons_of_ne_nil (lateTag_iff.mp hl).2
      simp [tagBaseline, hl, heq] at htip
    rw [moves, htip, walk, hlate, if_neg (by simp), map_none]
    rcases hlate' : (rel.extend us cfgs revs).lateTag env with _ | _
    · have hpub : rel.atPublish env = none := by simpa [tagBaseline, hlate] using htip
      have htip' : (rel.extend us cfgs revs).tagBaseline env = none := by
        rw [tagBaseline, hlate', if_neg (by simp), atPublish_extend hlater hlive, hpub]
      rw [moves, htip', walk, hlate', if_neg (by simp), later_extend hlater hlive]
      exact movesFrom_append_prefix _ _ _
    · -- the tag becomes a late one: what came before its first push are deletions, no moves
      have hnil : rel.before env = [] := before_extend hlater hlive ▸ (lateTag_iff.mp hlate').1
      have hpushed : rel.pushed env = [] := by_contra fun hne => by simp [lateTag_iff.mpr ⟨hnil, hne⟩] at hlate
      rw [movesFrom_eq_nil_iff.mpr fun u hu => leaves_eq_none_iff.mpr (pushed_eq_nil_iff.mp hpushed u hu)]
      exact List.nil_prefix
  · obtain ⟨hlate, htip'⟩ := tagBaseline_extend hlater hlive htip
    have hwalk : (rel.extend us cfgs revs).walk env =
        rel.walk env ++ validUpdates env us (rel.configs ++ cfgs) rel.refNameHash := by
      rw [walk, hlate, walk]
      split_ifs with hl
      · have hne := (lateTag_iff.mp hl).2
        rw [pushed_extend hlater hlive hne, tail_append_of_ne_nil hne]
      · exact later_extend hlater hlive
    rw [moves, moves, htip, htip', hwalk]
    exact movesFrom_append_prefix _ _ _

end Extend

/-! ### The verdict -/

theorem tipOf_eq_some_iff {state : RefState} : tipOf state = some c ↔ state = .resolved c.oid c.author c.time := by
  cases state with
  | resolved oid author createdAt => simp [tipOf, Tip.ext_iff]
  | unborn => simp [tipOf]
  | diverged heads => simp [tipOf]

/-- The last update decides where the tag points. -/
theorem getLast?_of_tipOf (h : tipOf (rel.nowState env) = some c) :
    isNullOid c.oid = false ∧ ∃ newest, (rel.valid env).getLast? = some newest ∧ newest.newOid = c.oid := by
  obtain ⟨newest, hlast, hoid, hnull⟩ := getLast?_of_resolved (tipOf_eq_some_iff.mp h)
  exact ⟨hnull, newest, hlast, hoid⟩

theorem mem_pushed_of_getLast? {newest : RefUpdate} (hlate : rel.lateTag env = true)
    (hlast : (rel.valid env).getLast? = some newest) : newest ∈ rel.pushed env := by
  obtain ⟨hnil, hne⟩ := lateTag_iff.mp hlate
  have hsplit : rel.valid env = (rel.later env).takeWhile (fun u => isNullOid u.newOid) ++ rel.pushed env := by
    rw [pushed, takeWhile_append_dropWhile, ← before_append_later, hnil, nil_append]
  rw [hsplit, getLast?_append] at hlast
  rcases hl : (rel.pushed env).getLast? with _ | u
  · exact absurd (getLast?_eq_none_iff.mp hl) hne
  · rw [hl] at hlast
    obtain rfl : u = newest := by simpa using hlast
    exact mem_of_getLast? hl

/-- Either the tag points at the baseline and its moves decide, or the verdict is one of the red ones. -/
theorem verdict_cases : (∃ c b, tipOf (rel.nowState env) = some c ∧ rel.baseline env = some b ∧ c.oid = b.oid ∧
      rel.verdict env = if (rel.moves env).isEmpty then .unchanged else .restored) ∨
    ((∀ c b, tipOf (rel.nowState env) = some c → rel.baseline env = some b → c.oid ≠ b.oid) ∧
      (rel.verdict env = .moved ∨ rel.verdict env = .deleted ∨ rel.verdict env = .diverged ∨
        rel.verdict env = .missing)) := by
  rcases htip : tipOf (rel.nowState env) with _ | c
  · refine .inr ⟨by simp, ?_⟩
    rw [verdict]
    by_cases hvalid : (rel.valid env).isEmpty = true
    · simp [hvalid]
    · rw [if_neg hvalid]
      rcases hstate : rel.nowState env with _ | ⟨oid, author, t⟩ | heads
      · simp [tipOf]
      · rw [hstate] at htip
        exact absurd htip (by simp [tipOf])
      · simp
  · have hvalid : (rel.valid env).isEmpty = false := by
      obtain ⟨-, newest, hlast, -⟩ := getLast?_of_tipOf htip
      exact isEmpty_eq_false_iff.mpr (ne_nil_of_mem (mem_of_getLast? hlast))
    have hstate := tipOf_eq_some_iff.mp htip
    rcases hbase : rel.baseline env with _ | b
    · exact .inr ⟨by simp, by simp [verdict, hvalid, hstate, tipOf, hbase]⟩
    · by_cases heq : c.oid = b.oid
      · exact .inl ⟨c, b, rfl, rfl, heq, by simp [verdict, hvalid, hstate, tipOf, hbase, heq]⟩
      · exact .inr ⟨by simp [heq], by simp [verdict, hvalid, hstate, tipOf, hbase, heq]⟩

theorem verdict_eq_unchanged_iff_moves : rel.verdict env = .unchanged ↔
    ∃ c b, tipOf (rel.nowState env) = some c ∧ rel.baseline env = some b ∧ c.oid = b.oid ∧ rel.moves env = [] := by
  rcases @verdict_cases env rel with ⟨c, b, hc, hb, heq, hverdict⟩ | ⟨hne, hverdict⟩
  · rw [hverdict]
    constructor
    · intro h
      refine ⟨c, b, hc, hb, heq, by_contra fun hmoves => ?_⟩
      simp [hmoves] at h
    · rintro ⟨-, -, -, -, -, hmoves⟩
      simp [hmoves]
  · constructor
    · intro h
      rw [h] at hverdict
      simp at hverdict
    · rintro ⟨c, b, hc, hb, heq, -⟩
      exact absurd heq (hne c b hc hb)

theorem exists_later_push (hc : tipOf (rel.nowState env) = some c) (hids : (rel.updates.map RefUpdate.id).Nodup)
    (hpub : rel.atPublish env = none) : ∃ u ∈ rel.later env, u.newOid = c.oid := by
  obtain ⟨hnull, newest, hlast, hoid⟩ := getLast?_of_tipOf hc
  rw [← before_append_later, getLast?_append] at hlast
  rcases hl : (rel.later env).getLast? with _ | u
  · -- nothing since the publish: the tag points where it did then
    have hsame : rel.before env = rel.valid env := by
      rw [← before_append_later, getLast?_eq_none_iff.mp hl, append_nil]
    rw [atPublish, hsame, valid, resolveRef_congr (validUpdates_idem hids)] at hpub
    exact absurd (hpub.symm.trans hc) (by simp)
  · rw [hl] at hlast
    obtain rfl : u = newest := by simpa using hlast
    exact ⟨u, mem_of_getLast? hl, hoid⟩

/-- The updates after the baseline was set, a late tag's first push among them. -/
def afterBaseline (env : RefEnv) (rel : Release) : List RefUpdate :=
  if rel.lateTag env then rel.pushed env else rel.later env

/-- **Unchanged**: the tag points at the baseline, and so did everything since. A tag that was deleted or racing at the
first publish and is judged against the release's own record is never called unchanged. -/
theorem verdict_eq_unchanged_iff (hids : (rel.updates.map RefUpdate.id).Nodup) : rel.verdict env = .unchanged ↔
    ∃ b, rel.baseline env = some b ∧ (∃ author t, rel.nowState env = .resolved b.oid author t) ∧
      (∀ u ∈ rel.afterBaseline env, u.newOid = b.oid) ∧ (rel.ownPin env ≠ none → rel.lateTag env = true) := by
  rw [verdict_eq_unchanged_iff_moves]
  constructor
  · rintro ⟨c, b, hc, hb, heq, hmoves⟩
    obtain ⟨hnull, newest, hlast, hnewest⟩ := getLast?_of_tipOf hc
    refine ⟨b, hb, ⟨c.author, c.time, by rw [← heq, tipOf_eq_some_iff.mp hc]⟩, ?_⟩
    rw [moves, movesFrom_eq_nil_iff] at hmoves
    rcases hlate : rel.lateTag env with _ | _
    · rw [walk, hlate, if_neg (by simp), tagBaseline, hlate, if_neg (by simp)] at hmoves
      rcases hpub : rel.atPublish env with _ | tip
      · -- the last push is a move from nothing
        obtain ⟨u, hu, hoid⟩ := exists_later_push hc hids hpub
        have hleaves := leaves_eq_none_iff.mp ((hmoves u hu).trans (by rw [hpub]; rfl))
        rw [hoid, hnull] at hleaves
        exact absurd hleaves (by simp)
      · obtain ⟨-, hpin, hb'⟩ := of_atPublish hpub
        obtain rfl : b = tip := some.inj (hb.symm.trans hb')
        rw [afterBaseline, hlate, if_neg (by simp)]
        refine ⟨fun u hu => ?_, fun hne => absurd hpin hne⟩
        exact (leaves_eq_some_iff.mp ((hmoves u hu).trans (by rw [hpub]; rfl))).1
    · -- a late tag: its baseline is the first push, and the walk is what follows it
      obtain ⟨hnil, hne⟩ := lateTag_iff.mp hlate
      obtain ⟨first, rest, hcons⟩ := exists_cons_of_ne_nil hne
      have hfirst : isNullOid first.newOid = false := head_pushed (by rw [hcons]; rfl)
      rw [walk, if_pos hlate, tagBaseline, if_pos hlate, hcons] at hmoves
      have hall : ∀ u ∈ rel.pushed env, u.newOid = first.newOid := by
        rw [hcons]
        exact forall_mem_cons.mpr ⟨rfl, fun u hu => (leaves_eq_some_iff.mp (hmoves u hu)).1⟩
      have hmem : newest ∈ rel.pushed env := mem_pushed_of_getLast? hlate hlast
      rw [afterBaseline, if_pos hlate]
      refine ⟨fun u hu => ?_, fun _ => rfl⟩
      rw [hall u hu, ← hall newest hmem, hnewest, heq]
  · rintro ⟨b, hb, ⟨author, t, hstate⟩, hafter, hpin⟩
    have hc : tipOf (rel.nowState env) = some ⟨b.oid, author, t⟩ := by rw [hstate]; rfl
    have hnull := (getLast?_of_tipOf hc).1
    refine ⟨_, b, hc, hb, rfl, ?_⟩
    rw [moves, movesFrom_eq_nil_iff]
    intro u hu
    rw [afterBaseline] at hafter
    rcases hlate : rel.lateTag env with _ | _
    · have hown : rel.ownPin env = none := by_contra fun hne => by simp [hlate] at hpin; exact hne hpin
      rw [hlate, if_neg (by simp)] at hafter
      rw [walk, hlate, if_neg (by simp)] at hu
      have htag : rel.tagBaseline env = some b := by simpa [baseline, hown] using hb
      rw [htag]
      exact leaves_eq_some_iff.mpr ⟨hafter u hu, hnull⟩
    · obtain ⟨first, rest, hcons⟩ := exists_cons_of_ne_nil (lateTag_iff.mp hlate).2
      rw [if_pos hlate, hcons] at hafter
      rw [walk, if_pos hlate, hcons] at hu
      rw [tagBaseline, if_pos hlate, hcons]
      refine leaves_eq_some_iff.mpr ⟨?_, ?_⟩
      · exact (hafter u (mem_cons_of_mem _ hu)).trans (hafter first mem_cons_self).symm
      · exact (congrArg isNullOid (hafter first mem_cons_self)).trans hnull

/-! ### What is read in another order -/

theorem nodup_before (hids : (rel.updates.map RefUpdate.id).Nodup) : ((rel.before env).map RefUpdate.id).Nodup := by
  have hvalid : ((rel.valid env).map RefUpdate.id).Nodup :=
    ((perm_causalOrder _).map RefUpdate.id).nodup_iff.mpr (hids.sublist (filter_sublist.map _))
  exact hvalid.sublist (filter_sublist.map _)

/-- The tag's tip at the first publish, from the updates that were written by then. -/
theorem atPublish_eq (hids : (rel.updates.map RefUpdate.id).Nodup) : rel.atPublish env =
    tipOf (resolveRef (· == ·) env (rel.updates.filter fun u => u.createdAt ≤ rel.publishedAt) rel.configs
      rel.refNameHash) := by
  have hbefore : rel.before env =
      validUpdates env (rel.updates.filter fun u => u.createdAt ≤ rel.publishedAt) rel.configs rel.refNameHash :=
    (validUpdates_filter hids _).symm
  rw [atPublish, hbefore, resolveRef_congr (validUpdates_idem (hids.sublist (filter_sublist.map _)))]

theorem releaseProvenance_congr {rel' : Release} (hlive : rel'.live = rel.live)
    (hvalid : rel'.valid env = rel.valid env)
    (hnow : rel'.nowState env = rel.nowState env) (hpub : rel'.atPublish env = rel.atPublish env)
    (hpin : rel'.pin = rel.pin) (htarget : rel'.target = rel.target) :
    releaseProvenance env rel' = releaseProvenance env rel := by
  have hat : rel'.publishedAt = rel.publishedAt := by rw [publishedAt, hlive, publishedAt]
  have hpushed : rel'.pushed env = rel.pushed env := by simp only [pushed, later, hvalid, hat]
  have hlate : rel'.lateTag env = rel.lateTag env := by simp only [lateTag, before, hvalid, hat, hpushed]
  have hown : rel'.ownPin env = rel.ownPin env := by simp only [ownPin, recorded, hpub, hpin, htarget]
  have htag : rel'.tagBaseline env = rel.tagBaseline env := by simp only [tagBaseline, hlate, hpushed, hpub]
  have hbase : rel'.baseline env = rel.baseline env := by simp only [baseline, hown, htag, hlive, hat]
  have hmoves : rel'.moves env = rel.moves env := by
    simp [moves, htag, walk, hlate, hpushed, later, hvalid, hat]
  have hverdict : rel'.verdict env = rel.verdict env := by rw [verdict, hvalid, hnow, hbase, hmoves, verdict]
  have hdiffers : rel'.recordDiffers env = rel.recordDiffers env := by simp only [recordDiffers,
    recorded, hpub, htarget]
  simp only [releaseProvenance, hlive, hbase, hown, hlate, hnow, hmoves, hverdict, hdiffers, assets, recorded, htarget]

/-- The order of the documents does not matter. -/
theorem releaseProvenance_eq_of_perm (hus : (rel.updates.map RefUpdate.id).Nodup)
    (hcfgs : (rel.configs.map ConfigDoc.id).Nodup) (hrevs : (rel.revisions.map Revision.id).Nodup)
    {us : List RefUpdate} {cfgs : List ConfigDoc} {revs : List Revision} (hpu : rel.updates.Perm us)
    (hpc : rel.configs.Perm cfgs) (hpr : rel.revisions.Perm revs) :
    releaseProvenance env { rel with updates := us, configs := cfgs, revisions := revs } =
        releaseProvenance env rel := by
  have hlive : ({ rel with updates := us, configs := cfgs, revisions := revs } : Release).live = rel.live := by
    rw [live, live, sortByKey_eq_of_perm Revision.key hpr (injOn_key_of_nodup Revision.createdAt hrevs)]
  have hvalid : ({ rel with updates := us, configs := cfgs, revisions := revs } : Release).valid env = rel.valid env :=
    (validUpdates_eq_of_perm env rel.refNameHash hus hcfgs hpu hpc).symm
  have hbefore : ({ rel with updates := us, configs := cfgs, revisions := revs } : Release).before env =
      rel.before env := by
    rw [before, before, hvalid, publishedAt, publishedAt, hlive]
  refine releaseProvenance_congr hlive hvalid (resolveRef_congr hvalid) ?_ rfl rfl
  rw [atPublish, hbefore, atPublish]
  refine congrArg tipOf (resolveRef_congr ?_)
  exact (validUpdates_eq_of_perm env rel.refNameHash (nodup_before hus) hcfgs (List.Perm.refl _) hpc).symm

end Release

/-! ### The guarantees -/

/-- What later documents leave of the provenance of a release: all that was fixed by the publish, and the moves so far. A
tag is late once it is pushed, so that a release with a record of its own may be followed by one. -/
structure Kept (env : RefEnv) (rel rel' : Release) : Prop where
  published : (releaseProvenance env rel').published = (releaseProvenance env rel).published
  baseline : (releaseProvenance env rel').baseline = (releaseProvenance env rel).baseline
  recorded : (releaseProvenance env rel').recorded = (releaseProvenance env rel).recorded
  recordDiffers : (releaseProvenance env rel').recordDiffers = (releaseProvenance env rel).recordDiffers
  moves : (releaseProvenance env rel).moves <+: (releaseProvenance env rel').moves
  lateTag : (releaseProvenance env rel').lateTag = true ↔ (releaseProvenance env rel).lateTag = true ∨
    (releaseProvenance env rel).pinnedBy = "release" ∧ rel.before env = [] ∧
      ∃ u ∈ rel'.valid env, isNullOid u.newOid = false

variable {env : RefEnv} {rel : Release}

theorem pinnedBy_eq_release_iff : (releaseProvenance env rel).pinnedBy = "release" ↔ rel.ownPin env ≠ none := by
  rcases hpin : rel.ownPin env with _ | p <;> simp [releaseProvenance, hpin]

theorem kept_extend (hlive : ∃ r ∈ rel.revisions, 0 ≤ r.delta)
    (hbase : (releaseProvenance env rel).baseline ≠ none) {us : List RefUpdate} {cfgs : List ConfigDoc}
    {revs : List Revision} (hlater : rel.IsLater us cfgs revs) : Kept env rel (rel.extend us cfgs revs) where
  published := congrArg (Option.map _) (Release.head?_live_extend hlater hlive)
  baseline := Release.baseline_extend hlater hlive hbase
  recorded := rfl
  recordDiffers := Release.recordDiffers_extend hlater hlive
  moves := Release.moves_extend hlater hlive
  lateTag := by
    rw [pinnedBy_eq_release_iff]
    exact Release.lateTag_extend_iff hlater hlive hbase

/-- A tip the tag had at the first publish is not given up unseen. -/
theorem altered_of_atPublish {tip : Tip} (hpub : rel.atPublish env = some tip)
    (hnow : ∀ author t, rel.nowState env ≠ .resolved tip.oid author t) :
        (releaseProvenance env rel).altered = true := by
  have hred : rel.verdict env = .moved ∨ rel.verdict env = .deleted ∨ rel.verdict env = .diverged ∨
      rel.verdict env = .missing := by
    rcases @Release.verdict_cases env rel with ⟨c, b, hc, hb, heq, -⟩ | ⟨-, hred⟩
    · obtain rfl : b = tip := some.inj (hb.symm.trans (Release.of_atPublish hpub).2.2)
      exact absurd (heq ▸ Release.tipOf_eq_some_iff.mp hc) (hnow _ _)
    · exact hred
  rcases hred with h | h | h | h <;> simp [ReleaseProvenance.altered, releaseProvenance, h]

/-- **The provenance of a release is fixed once it is published and cannot be whitewashed.** Later documents keep what
the publish fixed; unchanged is said of a tag that points at the baseline since it was set, and not of one that was
deleted or racing at the publish and is judged against the release's record; a tip the tag had at the publish is not
given up unseen; and the documents may be read in any order. -/
theorem releaseProvenance_spec (env : RefEnv) (rel : Release) (hus : (rel.updates.map RefUpdate.id).Nodup)
    (hcfgs : (rel.configs.map ConfigDoc.id).Nodup) (hrevs : (rel.revisions.map Revision.id).Nodup)
    (hlive : ∃ r ∈ rel.revisions, 0 ≤ r.delta) (hbase : (releaseProvenance env rel).baseline ≠ none) :
    (∀ us cfgs revs, rel.IsLater us cfgs revs → Kept env rel (rel.extend us cfgs revs)) ∧
    ((releaseProvenance env rel).tag = .unchanged ↔
      ∃ b, (releaseProvenance env rel).baseline = some b ∧
        (∃ author t, resolveRef (· == ·) env rel.updates rel.configs rel.refNameHash = .resolved b.oid author t) ∧
        (∀ u ∈ rel.afterBaseline env, u.newOid = b.oid) ∧
        ((releaseProvenance env rel).pinnedBy = "release" → (releaseProvenance env rel).lateTag = true)) ∧
    (∀ p oid author t, (releaseProvenance env rel).published = some p →
      resolveRef (· == ·) env (rel.updates.filter fun u => u.createdAt ≤ p.time) rel.configs rel.refNameHash =
        .resolved oid author t →
      (∀ author' t', resolveRef (· == ·) env rel.updates rel.configs rel.refNameHash ≠ .resolved oid author' t') →
      (releaseProvenance env rel).altered = true) ∧
    ∀ us cfgs revs, rel.updates.Perm us → rel.configs.Perm cfgs → rel.revisions.Perm revs →
      releaseProvenance env { rel with updates := us, configs := cfgs, revisions := revs } =
          releaseProvenance env rel := by
  refine ⟨fun us cfgs revs hlater => kept_extend hlive hbase hlater, ?_, fun p oid author t hp hthen hnow => ?_,
    fun us cfgs revs => Release.releaseProvenance_eq_of_perm hus hcfgs hrevs⟩
  · rw [pinnedBy_eq_release_iff]
    exact Release.verdict_eq_unchanged_iff hus
  · have htime : rel.publishedAt = p.time := by
      obtain ⟨r, hr, rfl⟩ := Option.map_eq_some_iff.mp hp
      rw [Release.publishedAt, hr, Option.elim_some]
    refine @altered_of_atPublish env rel ⟨oid, author, t⟩ ?_ hnow
    rw [Release.atPublish_eq hus, htime, hthen]
    rfl

/-- A tag that is moved after the release was published. -/
def movedTag : Release where
  refNameHash := "k"
  updates := [⟨"u1", "k", "refs/tags/v1", "", "aa", false, false, "ann", 1⟩,
    ⟨"u2", "k", "refs/tags/v1", "aa", "bb", true, false, "bob", 3⟩]
  configs := []
  revisions := [⟨"r1", 2, 1, "ann", []⟩]
  pin := none
  target := none

theorem releaseProvenance_movedTag : (releaseProvenance plainEnv movedTag).altered = true ∧
    Kept plainEnv movedTag (movedTag.extend [⟨"u3", "k", "refs/tags/v1", "bb", "aa", true, false, "bob", 4⟩] [] []) :=
  have hspec := releaseProvenance_spec plainEnv movedTag (by decide) (by decide) (by decide)
    (by decide) (by decide +kernel)
  ⟨hspec.2.2.1 ⟨"r1", 2, "ann"⟩ "aa" "ann" 1 (by decide +kernel) (by decide +kernel) (fun author' t' h => by
      have hstate : resolveRef (· == ·) plainEnv movedTag.updates movedTag.configs movedTag.refNameHash =
          .resolved "bb" "bob" 3 := by decide +kernel
      rw [hstate] at h
      exact absurd (RefState.resolved.inj h).1 (by decide)),
    hspec.1 _ _ _ ⟨by decide, by decide, by decide⟩⟩

/-- A release that records its commit, of a tag that was deleted when it was published and pushed to that commit later. -/
def restoredTag : Release where
  refNameHash := "k"
  updates := [⟨"u1", "k", "refs/tags/v1", "", "aa", false, false, "ann", 1⟩,
    ⟨"u2", "k", "refs/tags/v1", "aa", "", false, false, "ann", 2⟩,
    ⟨"u3", "k", "refs/tags/v1", "", "cc", false, false, "ann", 4⟩]
  configs := []
  revisions := [⟨"r1", 3, 1, "ann", []⟩]
  pin := some "cc"
  target := none

/-- A release that records its commit, whose tag is not pushed yet. -/
def untagged : Release where
  refNameHash := "k"
  updates := []
  configs := []
  revisions := [⟨"r1", 1, 1, "ann", []⟩]
  pin := some "cc"
  target := none

/-- The tag points at the baseline and every update since the publish set it there, yet the verdict is not unchanged. And
a release is followed by the first push of its tag, which is late from then on only. -/
theorem restored_and_late : ((releaseProvenance plainEnv restoredTag).baseline = some ⟨"cc", "ann", 3⟩ ∧
      resolveRef (· == ·) plainEnv restoredTag.updates [] "k" = .resolved "cc" "ann" 4 ∧
      (∀ u ∈ restoredTag.valid plainEnv, 3 < u.createdAt → u.newOid = "cc") ∧
      (releaseProvenance plainEnv restoredTag).tag = .restored) ∧
    (releaseProvenance plainEnv untagged).baseline = some ⟨"cc", "ann", 1⟩ ∧
    untagged.IsLater [⟨"u1", "k", "refs/tags/v1", "", "cc", false, false, "ann", 2⟩] [] [] ∧
    (releaseProvenance plainEnv untagged).lateTag = false ∧
    (releaseProvenance plainEnv
      (untagged.extend [⟨"u1", "k", "refs/tags/v1", "", "cc", false, false, "ann", 2⟩] [] [])).lateTag = true := by
  refine ⟨by decide +kernel, by decide +kernel, ⟨by decide, by decide, by decide⟩, by decide +kernel, by decide +kernel⟩

end DashForge.Provenance
