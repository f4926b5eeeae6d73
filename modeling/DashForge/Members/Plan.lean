import DashForge.Data.SortBy
import DashForge.Members.Ledger

/-!
# Packs by audience

A push is split into one public pack and one pack for each sealed branch (`members_git/plan.rs`). The
public pack is built on public tips alone, a sealed branch's on these, the public tips of the push and
the branch's own previous tip.

`Repository` is what runs of pushes leave: the live refs and the packs stored, over any object graph.
Every branch stays whole and its packs hold nothing but its own (`packs_whole`).
-/

namespace DashForge.Members

open List

/-- Who a ref, a commit or a pack is for. -/
inductive Audience where
  | public_
  | members
  /-- A narrower branch's audience, by its token. -/
  | narrower (token : String)
deriving DecidableEq, Repr

namespace Audience

def isSealed (a : Audience) : Bool := a ≠ public_

def asStr : Audience → String
  | public_ => "public"
  | members => "members"
  | narrower t => t

/-- The audience a commit pushed for it is recorded with. -/
def entry : Audience → Option EntryAudience
  | public_ => none
  | members => some .members
  | narrower t => some (.narrower t)

end Audience

/-- One ref update of a push; a deletion has no new tip. -/
structure BatchRef where
  dst : String
  new : Option String
  audience : Audience
deriving DecidableEq, Repr

/-- A pack to build. -/
structure PackJob where
  want : List String
  have_ : List String
deriving DecidableEq, Repr

/-- A sealed branch's pack. -/
structure MembersPackJob where
  refName : String
  want : List String
  have_ : List String
deriving DecidableEq, Repr

structure PackPlan where
  public_ : Option PackJob
  members : List MembersPackJob
deriving DecidableEq, Repr

/-- The updates of a push that set a tip, public or sealed. -/
def newOf (batch : List BatchRef) (isSealed : Bool) : List (BatchRef × String) :=
  (batch.filter fun u => u.audience.isSealed == isSealed).filterMap fun u => u.new.map fun n => (u, n)

/-- The new public tips of a push. -/
def publicWant (p : List String) (batch : List BatchRef) : List String :=
  sortedDistinct (((newOf batch false).map Prod.snd).filter fun n => n ∉ p)

/-- The pack of one sealed branch, unless its bases have its tip. -/
def membersJob (bases : List String) (membersTips : SortedMap String String) (u : BatchRef × String) :
    Option MembersPackJob :=
  let have_ := sortedDistinct (bases ++ (membersTips.lookup u.1.dst).toList)
  if u.2 ∈ have_ then none else some ⟨u.1.dst, [u.2], have_⟩

/-- The packs of a push, given the public tips and each sealed branch's previous tip. -/
def plan (publicTips : List String) (membersTips : SortedMap String String) (batch : List BatchRef) :
    PackPlan :=
  let p := sortedDistinct publicTips
  let want := publicWant p batch
  ⟨if want = [] then none else some ⟨want, p⟩,
    (sortByKey (fun u => u.1.dst) (newOf batch true)).filterMap (membersJob (p ++ want) membersTips)⟩

variable {batch : List BatchRef} {n : String}

theorem mem_newOf {s : Bool} {u : BatchRef} :
    (u, n) ∈ newOf batch s ↔ u ∈ batch ∧ u.audience.isSealed = s ∧ u.new = some n := by
  simp only [newOf, mem_filterMap, mem_filter, beq_iff_eq, Option.map_eq_some_iff, Prod.mk.injEq]
  constructor
  · rintro ⟨u', ⟨hu, hs⟩, n', hn, rfl, rfl⟩
    exact ⟨hu, hs, hn⟩
  · rintro ⟨hu, hs, hn⟩
    exact ⟨u, ⟨hu, hs⟩, n, hn, rfl, rfl⟩

theorem mem_publicWant {p : List String} :
    n ∈ publicWant p batch ↔ (∃ u ∈ batch, u.audience = .public_ ∧ u.new = some n) ∧ n ∉ p := by
  have hpublic : ∀ u : BatchRef, u.audience.isSealed = false ↔ u.audience = .public_ := by
    intro u
    simp [Audience.isSealed]
  simp only [publicWant, mem_sortedDistinct, mem_filter, mem_map, decide_eq_true_eq]
  refine and_congr_left fun _ => ⟨?_, ?_⟩
  · rintro ⟨⟨u, n'⟩, hu, rfl⟩
    obtain ⟨hu, hs, hn⟩ := mem_newOf.mp hu
    exact ⟨u, hu, (hpublic u).mp hs, hn⟩
  · rintro ⟨u, hu, ha, hn⟩
    exact ⟨(u, n), mem_newOf.mpr ⟨hu, (hpublic u).mpr ha, hn⟩, rfl⟩

/-! ### Runs of pushes -/

section Run

variable {Obj : Type} (reach : String → Obj → Prop)

/-- What a pack holds: the objects its tips reach and its bases do not. -/
def stored (want bases : List String) : Set Obj :=
  {x | (∃ w ∈ want, reach w x) ∧ ∀ b ∈ bases, ¬reach b x}

/-- The live refs, the tips ever pushed to each ref, and the packs. -/
structure Repository (Obj : Type) where
  live : String → Option (Audience × String)
  pushed : List (String × Audience × String)
  publicPacks : List (Set Obj)
  sealedPacks : List (String × Set Obj)

/-- A repository nothing was pushed to. -/
def Repository.empty : Repository Obj := ⟨fun _ => none, [], [], []⟩

/-- The ref of an update set or deleted. -/
def setRef (live : String → Option (Audience × String)) (u : BatchRef) :
    String → Option (Audience × String) :=
  Function.update live u.dst (u.new.map fun n => (u.audience, n))

/-- A push with its packs. -/
def Repository.push (r : Repository Obj) (packs : PackPlan) (batch : List BatchRef) : Repository Obj where
  live := batch.foldl setRef r.live
  pushed := r.pushed ++ batch.filterMap fun u => u.new.map fun n => (u.dst, u.audience, n)
  publicPacks := r.publicPacks ++ packs.public_.toList.map fun j => stored reach j.want j.have_
  sealedPacks := r.sealedPacks ++ packs.members.map fun j => (j.refName, stored reach j.want j.have_)

/-- What any run of pushes leaves. Each is planned from live public tips and, for a sealed branch, from
a previous tip of it. -/
inductive Reachable : Repository Obj → Prop
  | empty : Reachable .empty
  | push {r : Repository Obj} (h : Reachable r) (publicTips : List String)
      (membersTips : SortedMap String String) (batch : List BatchRef)
      (hpublic : ∀ t ∈ publicTips, ∃ ref, r.live ref = some (.public_, t))
      (hmembers : ∀ ref t, membersTips.lookup ref = some t → ∃ a, (ref, a, t) ∈ r.pushed) :
      Reachable (r.push reach (plan publicTips membersTips batch) batch)

/-- In some public pack. -/
def Repository.InPublic (r : Repository Obj) (x : Obj) : Prop := ∃ pack ∈ r.publicPacks, x ∈ pack

/-- In some pack stored for a branch. -/
def Repository.InSealed (r : Repository Obj) (ref : String) (x : Obj) : Prop :=
  ∃ pack ∈ r.sealedPacks, pack.1 = ref ∧ x ∈ pack.2

/-- What holds of every tip ever pushed, live or not. -/
structure Invariant (r : Repository Obj) : Prop where
  live : ∀ ref a t, r.live ref = some (a, t) → (ref, a, t) ∈ r.pushed
  whole : ∀ ref a t, (ref, a, t) ∈ r.pushed → ∀ x, reach t x →
    r.InPublic x ∨ a ≠ .public_ ∧ r.InSealed ref x
  publicOnly : ∀ pack ∈ r.publicPacks, ∀ x ∈ pack, ∃ ref t, (ref, .public_, t) ∈ r.pushed ∧ reach t x
  sealedOnly : ∀ pack ∈ r.sealedPacks, ∀ x ∈ pack.2, ∃ a t,
    a ≠ .public_ ∧ (pack.1, a, t) ∈ r.pushed ∧ reach t x

theorem foldl_setRef {batch : List BatchRef} {live : String → Option (Audience × String)} {ref : String}
    {a : Audience} {t : String} (h : batch.foldl setRef live ref = some (a, t)) :
    (∃ u ∈ batch, u.dst = ref ∧ u.audience = a ∧ u.new = some t) ∨ live ref = some (a, t) := by
  induction batch generalizing live with
  | nil => exact .inr h
  | cons u batch ih =>
    rcases ih h with ⟨u', hu', hrest⟩ | h
    · exact .inl ⟨u', mem_cons_of_mem u hu', hrest⟩
    · unfold setRef Function.update at h
      split at h
      · rename_i href
        subst href
        obtain ⟨n, hn, heq⟩ := Option.map_eq_some_iff.mp h
        obtain ⟨rfl, rfl⟩ := Prod.mk.inj heq
        exact .inl ⟨u, mem_cons_self, rfl, rfl, hn⟩
      · exact .inr h

variable {reach}

section Step

variable {r : Repository Obj} {publicTips : List String} {membersTips : SortedMap String String}
  {batch : List BatchRef}

variable {packs : PackPlan} {x : Obj} {t : String}

theorem inPublic_mono (hx : r.InPublic x) : (r.push reach packs batch).InPublic x := by
  obtain ⟨pack, hpack, hx⟩ := hx
  exact ⟨pack, mem_append_left _ hpack, hx⟩

theorem inSealed_mono {ref : String} (hx : r.InSealed ref x) : (r.push reach packs batch).InSealed ref x := by
  obtain ⟨pack, hpack, hx⟩ := hx
  exact ⟨pack, mem_append_left _ hpack, hx⟩

theorem mem_pushed_push {ref : String} {a : Audience} : (ref, a, t) ∈ (r.push reach packs batch).pushed ↔
      (ref, a, t) ∈ r.pushed ∨ ∃ u ∈ batch, u.dst = ref ∧ u.audience = a ∧ u.new = some t := by
  simp only [Repository.push, mem_append, mem_filterMap, Option.map_eq_some_iff, Prod.mk.injEq]
  refine or_congr_right ⟨?_, ?_⟩
  · rintro ⟨u, hu, n, hn, rfl, rfl, rfl⟩
    exact ⟨u, hu, rfl, rfl, hn⟩
  · rintro ⟨u, hu, rfl, rfl, hn⟩
    exact ⟨u, hu, t, hn, rfl, rfl, rfl⟩

variable (hinv : Invariant reach r) (hpublic : ∀ t ∈ publicTips, ∃ ref, r.live ref = some (.public_, t))

include hinv hpublic in
theorem inPublic_push (ht : t ∈ publicTips ∨ t ∈ publicWant (sortedDistinct publicTips) batch) (hx : reach t x) :
    (r.push reach (plan publicTips membersTips batch) batch).InPublic x := by
  have hbase : ∀ b ∈ publicTips, reach b x → r.InPublic x := by
    intro b hb hbx
    obtain ⟨ref, hlive⟩ := hpublic b hb
    exact (hinv.whole ref _ b (hinv.live ref _ b hlive) x hbx).resolve_right fun h => h.1 rfl
  rcases ht with ht | ht
  · exact inPublic_mono (hbase t ht hx)
  · by_cases hb : ∃ b ∈ publicTips, reach b x
    · obtain ⟨b, hb, hbx⟩ := hb
      exact inPublic_mono (hbase b hb hbx)
    · have hne : publicWant (sortedDistinct publicTips) batch ≠ [] := ne_nil_of_mem ht
      refine ⟨stored reach (publicWant (sortedDistinct publicTips) batch) (sortedDistinct publicTips), ?_, ?_⟩
      · simp [Repository.push, plan, hne]
      · exact ⟨⟨t, ht, hx⟩, fun b hb' hbx => hb ⟨b, mem_sortedDistinct.mp hb', hbx⟩⟩

variable (hmembers : ∀ ref t, membersTips.lookup ref = some t → ∃ a, (ref, a, t) ∈ r.pushed)

include hmembers in
include hinv hpublic in
theorem inSealed_push {u : BatchRef}
    (hu : u ∈ batch) (hsealed : u.audience ≠ .public_) (ht : u.new = some t)
    (hx : reach t x) : (r.push reach (plan publicTips membersTips batch) batch).InPublic x ∨
      (r.push reach (plan publicTips membersTips batch) batch).InSealed u.dst x := by
  -- every base of the branch's pack is covered
  have hbase : ∀ b ∈ sortedDistinct (sortedDistinct publicTips ++ publicWant (sortedDistinct publicTips) batch ++
      (membersTips.lookup u.dst).toList), reach b x →
      (r.push reach (plan publicTips membersTips batch) batch).InPublic x ∨
      (r.push reach (plan publicTips membersTips batch) batch).InSealed u.dst x := by
    intro b hb hbx
    simp only [mem_sortedDistinct, mem_append, Option.mem_toList] at hb
    rcases hb with hb | hb
    · exact .inl (inPublic_push hinv hpublic hb hbx)
    · obtain ⟨a, hpushed⟩ := hmembers u.dst b hb
      rcases hinv.whole u.dst a b hpushed x hbx with h | ⟨-, h⟩
      · exact .inl (inPublic_mono h)
      · exact .inr (inSealed_mono h)
  by_cases hb : ∃ b ∈ sortedDistinct (sortedDistinct publicTips ++
      publicWant (sortedDistinct publicTips) batch ++ (membersTips.lookup u.dst).toList), reach b x
  · obtain ⟨b, hb, hbx⟩ := hb
    exact hbase b hb hbx
  · have hnew : (u, t) ∈ newOf batch true := mem_newOf.mpr ⟨hu, by simpa [Audience.isSealed] using hsealed, ht⟩
    refine .inr ⟨(u.dst, stored reach [t] (sortedDistinct (sortedDistinct publicTips ++
      publicWant (sortedDistinct publicTips) batch ++ (membersTips.lookup u.dst).toList))), ?_, rfl, ?_⟩
    · refine mem_append_right _ (mem_map.mpr ⟨⟨u.dst, [t], _⟩, ?_, rfl⟩)
      refine mem_filterMap.mpr ⟨(u, t), (mem_sortByKey _).mpr hnew, ?_⟩
      exact if_neg fun hmem => hb ⟨t, hmem, hx⟩
    · exact ⟨⟨t, mem_cons_self, hx⟩, fun b hb' hbx => hb ⟨b, hb', hbx⟩⟩

include hmembers in
include hinv hpublic in
theorem Invariant.push :
    Invariant reach (r.push reach (plan publicTips membersTips batch) batch) where
  live ref a t h := by
    rcases foldl_setRef h with hnew | hold
    · exact mem_pushed_push.mpr (.inr hnew)
    · exact mem_pushed_push.mpr (.inl (hinv.live ref a t hold))
  whole ref a t h x hx := by
    rcases mem_pushed_push.mp h with hold | ⟨u, hu, rfl, rfl, ht⟩
    · rcases hinv.whole ref a t hold x hx with h | ⟨ha, h⟩
      · exact .inl (inPublic_mono h)
      · exact .inr ⟨ha, inSealed_mono h⟩
    · by_cases ha : u.audience = .public_
      · refine .inl (inPublic_push hinv hpublic ?_ hx)
        by_cases hp : t ∈ sortedDistinct publicTips
        · exact .inl (mem_sortedDistinct.mp hp)
        · exact .inr (mem_publicWant.mpr ⟨⟨u, hu, ha, ht⟩, hp⟩)
      · exact (inSealed_push hinv hpublic hmembers hu ha ht hx).imp_right fun h => ⟨ha, h⟩
  publicOnly pack hpack x hx := by
    rcases mem_append.mp hpack with hpack | hpack
    · obtain ⟨ref, t, hpushed, hreach⟩ := hinv.publicOnly pack hpack x hx
      exact ⟨ref, t, mem_pushed_push.mpr (.inl hpushed), hreach⟩
    · simp only [plan, mem_map, Option.mem_toList, Option.ite_none_left_eq_some, Option.some.injEq] at hpack
      obtain ⟨j, ⟨-, rfl⟩, rfl⟩ := hpack
      obtain ⟨⟨t, ht, hreach⟩, -⟩ := hx
      obtain ⟨⟨u, hu, ha, hn⟩, -⟩ := mem_publicWant.mp ht
      exact ⟨u.dst, t, mem_pushed_push.mpr (.inr ⟨u, hu, rfl, ha, hn⟩), hreach⟩
  sealedOnly pack hpack x hx := by
    rcases mem_append.mp hpack with hpack | hpack
    · obtain ⟨a, t, ha, hpushed, hreach⟩ := hinv.sealedOnly pack hpack x hx
      exact ⟨a, t, ha, mem_pushed_push.mpr (.inl hpushed), hreach⟩
    · simp only [plan, mem_map, mem_filterMap, mem_sortByKey, membersJob,
        Option.ite_none_left_eq_some, Option.some.injEq] at hpack
      obtain ⟨j, ⟨⟨u, t⟩, hu, -, rfl⟩, rfl⟩ := hpack
      obtain ⟨hmem, hs, hn⟩ := mem_newOf.mp hu
      obtain ⟨⟨w, hw, hreach⟩, -⟩ := hx
      obtain rfl := mem_singleton.mp hw
      exact ⟨u.audience, w, by simpa [Audience.isSealed] using hs,
        mem_pushed_push.mpr (.inr ⟨u, hmem, rfl, rfl, hn⟩), hreach⟩

end Step

theorem Reachable.invariant {r : Repository Obj} (h : Reachable reach r) : Invariant reach r := by
  induction h with
  | empty => constructor <;> simp [Repository.empty]
  | push _ _ _ _ hpublic hmembers ih => exact ih.push hpublic hmembers

/-- After any run of pushes, every branch is whole for its audience, and no pack holds anything else. -/
theorem packs_whole {r : Repository Obj} (h : Reachable reach r) :
    (∀ ref t, r.live ref = some (.public_, t) → ∀ x, reach t x → ∃ pack ∈ r.publicPacks, x ∈ pack) ∧
    (∀ ref a t, r.live ref = some (a, t) → a ≠ .public_ → ∀ x, reach t x →
      (∃ pack ∈ r.publicPacks, x ∈ pack) ∨ ∃ pack ∈ r.sealedPacks, pack.1 = ref ∧ x ∈ pack.2) ∧
    (∀ pack ∈ r.publicPacks, ∀ x ∈ pack, ∃ ref t, (ref, .public_, t) ∈ r.pushed ∧ reach t x) ∧
    ∀ pack ∈ r.sealedPacks, ∀ x ∈ pack.2, ∃ a t, a ≠ .public_ ∧ (pack.1, a, t) ∈ r.pushed ∧ reach t x := by
  have hinv := h.invariant
  refine ⟨fun ref t hlive x hx => ?_, fun ref a t hlive _ x hx => ?_, hinv.publicOnly, hinv.sealedOnly⟩
  · exact (hinv.whole ref _ t (hinv.live ref _ t hlive) x hx).resolve_right fun h => h.1 rfl
  · exact (hinv.whole ref a t (hinv.live ref a t hlive) x hx).imp_right And.right

end Run

/-- Objects along a line: a tip reaches those below its length. -/
def lineReach (t : String) (x : ℕ) : Prop := x < t.length

def firstBatch : List BatchRef := [⟨"main", some "a", .public_⟩, ⟨"fix", some "abc", .members⟩]

def secondBatch : List BatchRef := [⟨"main", some "ab", .public_⟩, ⟨"fix", some "abcd", .members⟩]

/-- A sealed branch on a public one, then both moved on. -/
def twoPushes : Repository ℕ :=
  (Repository.empty.push lineReach (plan [] .empty firstBatch) firstBatch).push lineReach
    (plan ["a"] (SortedMap.empty.insert "fix" "abc") secondBatch) secondBatch

theorem reachable_twoPushes : Reachable lineReach twoPushes := by
  refine .push (.push .empty [] .empty _ (by simp) (by simp [SortedMap.lookup_empty])) _ _ _ ?_ ?_
  · simp only [mem_singleton, forall_eq]
    exact ⟨"main", rfl⟩
  · intro ref t h
    rw [SortedMap.lookup_insert] at h
    split at h
    · rename_i href
      subst href
      obtain rfl := Option.some.inj h
      exact ⟨.members, by decide⟩
    · cases h

theorem packs_whole_twoPushes : twoPushes.live "fix" = some (.members, "abcd") ∧
    ∀ x, lineReach "abcd" x → (∃ pack ∈ twoPushes.publicPacks, x ∈ pack) ∨
      ∃ pack ∈ twoPushes.sealedPacks, pack.1 = "fix" ∧ x ∈ pack.2 :=
  ⟨rfl, (packs_whole reachable_twoPushes).2.1 "fix" .members "abcd" rfl (by decide)⟩

end DashForge.Members
