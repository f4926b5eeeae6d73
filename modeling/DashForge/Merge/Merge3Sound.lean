import DashForge.Data.Utf8
import DashForge.Merge.Merge3

/-!
# What a three-way merge makes

`doMerge` finds a conflict exactly where two changes of the two sides are neither a record apart nor the same
(`conflict_of_not_compatible`, `doMerge_merged`), and without one its regions put every change of either side into the base
once. The walk is followed by the place in the base that both scripts are past, with its places in ours and theirs.
-/

namespace DashForge.Merge

open Hunk (Apart Compatible IsUnion)
open List Function

variable {α β : Type*}

/-! ### Scripts -/

section Script

variable {base file : List α} {gap p q : ℕ} {x : XdChange} {xs : List XdChange}

theorem XdChange.stop_hunk (file : List α) (x : XdChange) : (x.hunk file).stop = x.i1 + x.chg1 := rfl

variable (h : IsScript base file gap p q xs)

include h in
theorem IsScript.le_start (hx : x ∈ xs) : p + gap ≤ x.i1 := by
  induction xs generalizing gap p q with
  | nil => simp at hx
  | cons y xs ih =>
    obtain ⟨hgap, -, -, -, -, -, hrest⟩ := h
    rcases mem_cons.mp hx with rfl | hx
    · exact hgap
    · have hle := ih hrest hx
      omega

include h in
theorem IsScript.pairwise : (xs.map (XdChange.hunk file)).Pairwise Apart := by
  induction xs generalizing gap p q with
  | nil => exact .nil
  | cons x xs ih =>
    obtain ⟨-, -, -, -, -, -, hrest⟩ := h
    rw [map_cons, pairwise_cons]
    refine ⟨forall_mem_map.mpr fun y hy => ?_, ih hrest⟩
    exact Nat.lt_of_succ_le (hrest.le_start hy)

include h in
/-- Up to its next change a script's files are equal. -/
theorem IsScript.between_eq {p' : ℕ} (hnext : ∀ x ∈ xs.head?, p' ≤ x.i1) :
    between base p p' = between file q (q + (p' - p)) := by
  have htake : ∀ (l : List α) (i : ℕ), (l.drop i).take (p' - p) = between l i (i + (p' - p)) := fun l i => by
    rw [between, Nat.add_sub_cancel_left]
  rw [← htake, between]
  cases xs with
  | nil => rw [h.2.2]
  | cons x xs =>
    obtain ⟨-, hi2, heq, -⟩ := h
    have hle : p' - p ≤ x.i1 - p := Nat.sub_le_sub_right (hnext x rfl) p
    have hcut := congrArg (List.take (p' - p)) heq
    rwa [between, between, take_take, take_take, min_eq_left hle, min_eq_left (by omega)] at hcut

include h in
/-- A script holds from any later place before its next change. -/
theorem IsScript.advance {p' : ℕ} (hp : p ≤ p') (hnext : ∀ x ∈ xs.head?, p' < x.i1)
    (hbase : p' ≤ base.length) : IsScript base file 1 p' (q + (p' - p)) xs := by
  have hequal := h.between_eq fun x hx => (hnext x hx).le
  cases xs with
  | nil =>
    obtain ⟨hple, hqle, heq⟩ := h
    have hlength := congrArg List.length heq
    rw [length_drop, length_drop] at hlength
    rw [← between_append_drop base hp, hequal, ← between_append_drop file (Nat.le_add_right q (p' - p))] at heq
    exact ⟨hbase, by omega, append_cancel_left heq⟩
  | cons x xs =>
    obtain ⟨hgap, hi2, heq, hne, hb, hf, hrest⟩ := h
    have hlt : p' < x.i1 := hnext x rfl
    refine ⟨hlt, by omega, ?_, hne, hb, hf, hrest⟩
    rw [← between_append_between base hp hlt.le, hequal,
      ← between_append_between file (k := x.i2) (Nat.le_add_right q (p' - p)) (by omega)] at heq
    exact append_cancel_left heq

include h in
theorem IsScript.le_file : ∀ x ∈ xs, x.i2 + x.chg2 ≤ file.length := by
  induction xs generalizing gap p q with
  | nil => simp
  | cons x xs ih =>
    obtain ⟨-, -, -, -, -, hfile, hrest⟩ := h
    exact forall_mem_cons.mpr ⟨hfile, ih hrest⟩

include h in
/-- The side is the base with the script's changes. -/
theorem IsScript.applyFrom :
    Hunk.applyFrom base p (xs.map (XdChange.hunk file)) = file.drop q := by
  induction xs generalizing gap p q with
  | nil => exact h.2.2
  | cons x xs ih =>
    obtain ⟨hgap, hi2, heq, -, -, hf, hrest⟩ := h
    rw [map_cons, Hunk.applyFrom, XdChange.stop_hunk, ih hrest]
    calc between base p x.i1 ++ between file x.i2 (x.i2 + x.chg2) ++ file.drop (x.i2 + x.chg2)
        = between file q x.i2 ++ between file x.i2 (x.i2 + x.chg2) ++ file.drop (x.i2 + x.chg2) := by rw [heq]
      _ = between file q (x.i2 + x.chg2) ++ file.drop (x.i2 + x.chg2) := by
        rw [between_append_between file (by omega) (by omega)]
      _ = file.drop q := between_append_drop file (by omega)

end Script

/-! ### Regions -/

section Regions

variable {c : List XdMerge} {new : XdMerge}

def HasConflict (c : List XdMerge) : Prop := ∃ m ∈ c, m.mode = .conflict

theorem appendMerge_eq_append (h : ∀ m ∈ c.getLast?, m.i1 + m.chg1 < new.i1 ∧ m.i2 + m.chg2 < new.i2) :
    appendMerge c new = c ++ [new] := by
  unfold appendMerge
  split
  · rfl
  · next m hm =>
    obtain ⟨h₁, h₂⟩ := h m hm
    rw [if_neg (by omega)]

/-- A conflict stays one when a region joins it. -/
theorem HasConflict.appendMerge (h : HasConflict c) (new : XdMerge) : HasConflict (appendMerge c new) := by
  obtain ⟨m, hm, hmode⟩ := h
  unfold Merge.appendMerge
  split
  · exact ⟨m, mem_append_left _ hm, hmode⟩
  · next last hlast =>
    split
    · -- the last region may be the conflict
      have hc : c.dropLast ++ [last] = c := dropLast_append_getLast? last hlast
      rw [← hc] at hm
      rcases mem_append.mp hm with hm | hm
      · exact ⟨m, mem_append_left _ hm, hmode⟩
      · obtain rfl := mem_singleton.mp hm
        refine ⟨_, mem_append_right _ (mem_singleton_self _), ?_⟩
        simp only [hmode]
        split <;> rfl
    · exact ⟨m, mem_append_left _ hm, hmode⟩

theorem hasConflict_appendMerge (hnew : new.mode = .conflict) : HasConflict (appendMerge c new) := by
  unfold appendMerge
  split
  · exact ⟨new, by simp, hnew⟩
  · split
    · refine ⟨_, mem_append_right _ (mem_singleton_self _), ?_⟩
      simp only [hnew]
      split
      · rfl
      · next h => exact (not_not.mp h).symm
    · exact ⟨new, by simp, hnew⟩

theorem mode_conflictRegion (x1 x2 : XdChange) : (conflictRegion x1 x2).mode = .conflict := by
  unfold conflictRegion
  simp only
  split <;> rfl

theorem HasConflict.foldl {f : XdChange → XdMerge} (h : HasConflict c) (xs : List XdChange) :
    HasConflict (xs.foldl (fun c x => Merge.appendMerge c (f x)) c) := by
  induction xs generalizing c with
  | nil => exact h
  | cons x xs ih => exact ih (h.appendMerge (f x))

end Regions

/-! ### Conflicts -/

section Conflicts

variable [DecidableEq α] {ours theirs : List α} {n0a n0b : ℕ} {xscr1 xscr2 : List XdChange} {c : List XdMerge}

theorem HasConflict.ite_appendMerge (h : HasConflict c) (p : Prop) [Decidable p] (new : XdMerge) :
    HasConflict (if p then c else Merge.appendMerge c new) := by
  split
  · exact h
  · exact h.appendMerge new

theorem HasConflict.doMerge (h : HasConflict c) : HasConflict (Merge.doMerge ours n0a theirs n0b xscr1 xscr2 c) := by
  fun_induction Merge.doMerge ours n0a theirs n0b xscr1 xscr2 c with
  | case1 xscr2 c => exact h.foldl xscr2
  | case2 x1 xscr1 c => exact h.foldl _
  | case3 x1 xscr1 x2 xscr2 c hlt ih => exact ih (h.appendMerge _)
  | case4 x1 xscr1 x2 xscr2 c hlt hgt ih => exact ih (h.appendMerge _)
  | case5 x1 xscr1 x2 xscr2 c hlt hgt c' e1 e2 he ih => exact ih (h.ite_appendMerge _ _)
  | case6 x1 xscr1 x2 xscr2 c hlt hgt c' e1 e2 he he' ih => exact ih (h.ite_appendMerge _ _)
  | case7 x1 xscr1 x2 xscr2 c hlt hgt c' e1 e2 he he' ih => exact ih (h.ite_appendMerge _ _)

/-- The changes of a script keep a record between them. -/
def Ordered (xs : List XdChange) : Prop := xs.Pairwise fun x y => x.i1 + x.chg1 < y.i1

variable {xs : List XdChange} {i1 i2 n : ℕ} {x1 x2 x y : XdChange}

theorem IsScript.ordered {base file : List β} {gap p q : ℕ} (h : IsScript base file gap p q xs) :
    Ordered xs := pairwise_map.mp h.pairwise

omit [DecidableEq α] in
theorem between_eq_between : between ours i1 (i1 + n) = between theirs i2 (i2 + n) ↔
    ∀ k < n, ours[i1 + k]? = theirs[i2 + k]? := by
  have hget : ∀ (l : List α) (i k : ℕ), k < n → (between l i (i + n))[k]? = l[i + k]? := fun l i k hk =>
    getElem?_between (by omega)
  constructor
  · intro h k hk
    rw [← hget ours i1 k hk, h, hget theirs i2 k hk]
  · intro h
    refine ext_getElem? fun k => ?_
    rcases lt_or_ge k n with hk | hk
    · rw [hget ours i1 k hk, h k hk, hget theirs i2 k hk]
    · have hout : ∀ (l : List α) (i : ℕ), (between l i (i + n))[k]? = none := fun l i => by
        rw [List.getElem?_eq_none_iff, length_between]
        omega
      rw [hout, hout]

theorem sameLines_iff : sameLines ours theirs i1 i2 n = true ↔
    between ours i1 (i1 + n) = between theirs i2 (i2 + n) := by
  simp [sameLines, between_eq_between]

theorem sameChange_iff (h1 : x1.i2 + x1.chg2 ≤ ours.length) (h2 : x2.i2 + x2.chg2 ≤ theirs.length) :
    sameChange ours theirs x1 x2 = true ↔ x1.hunk ours = x2.hunk theirs := by
  simp only [sameChange, Bool.and_eq_true, decide_eq_true_eq, sameLines_iff, XdChange.hunk, Hunk.mk.injEq]
  constructor
  · rintro ⟨⟨⟨hi1, hchg1⟩, hchg2⟩, hlines⟩
    rw [hchg2] at hlines ⊢
    exact ⟨hi1, hchg1, hlines⟩
  · rintro ⟨hi1, hchg1, hlines⟩
    have hlength := congrArg List.length hlines
    rw [length_between_of_le h1, length_between_of_le h2, Nat.add_sub_cancel_left, Nat.add_sub_cancel_left] at hlength
    rw [hlength] at hlines ⊢
    exact ⟨⟨⟨hi1, hchg1⟩, rfl⟩, hlines⟩

theorem Ordered.le_start (h : Ordered (x :: xs)) (hy : y ∈ x :: xs) : x.i1 ≤ y.i1 := by
  rcases mem_cons.mp hy with rfl | hy
  · exact le_rfl
  · have hlt := (pairwise_cons.mp h).1 y hy
    omega

omit [DecidableEq α] in
theorem Ordered.apart (h : Ordered (x2 :: xs)) (hlt : x.i1 + x.chg1 < x2.i1)
    (hy : y ∈ x2 :: xs) (ours theirs : List α) : (x.hunk ours).Apart (y.hunk theirs) :=
  hlt.trans_le (h.le_start hy)

theorem sameChange_of_not_hasConflict (hno : ¬HasConflict (Merge.doMerge ours n0a theirs n0b xscr1 xscr2
    (if sameChange ours theirs x1 x2 = true then c else Merge.appendMerge c (conflictRegion x1 x2)))) :
    sameChange ours theirs x1 x2 = true := by
  by_contra hsame
  rw [if_neg hsame] at hno
  exact hno (HasConflict.doMerge (hasConflict_appendMerge (mode_conflictRegion x1 x2)))

theorem compatible_of_doMerge (h1 : Ordered xscr1) (h2 : Ordered xscr2)
    (hlength1 : ∀ x ∈ xscr1, x.i2 + x.chg2 ≤ ours.length) (hlength2 : ∀ x ∈ xscr2, x.i2 + x.chg2 ≤ theirs.length)
    (hno : ¬HasConflict (doMerge ours n0a theirs n0b xscr1 xscr2 c)) :
    ∀ x ∈ xscr1, ∀ y ∈ xscr2, (x.hunk ours).Compatible (y.hunk theirs) := by
  fun_induction doMerge ours n0a theirs n0b xscr1 xscr2 c with
  | case1 xscr2 c => simp
  | case2 x1 xscr1 c => simp
  | case3 x1 xscr1 x2 xscr2 c hlt ih =>
    intro x hx y hy
    rcases mem_cons.mp hx with rfl | hx
    · exact .inl (h2.apart hlt hy ours theirs)
    · exact ih h1.of_cons h2 (fun z hz => hlength1 z (mem_cons_of_mem _ hz)) hlength2 hno x hx y hy
  | case4 x1 xscr1 x2 xscr2 c hlt hgt ih =>
    intro x hx y hy
    rcases mem_cons.mp hy with rfl | hy
    · exact .inr (.inl (h1.apart hgt hx theirs ours))
    · exact ih h1 h2.of_cons hlength1 (fun z hz => hlength2 z (mem_cons_of_mem _ hz)) hno x hx y hy
  | case5 x1 xscr1 x2 xscr2 c hlt hgt c' e1 e2 he ih =>
    have hsame := sameChange_of_not_hasConflict hno
    rw [sameChange_iff (hlength1 _ mem_cons_self) (hlength2 _ mem_cons_self)] at hsame
    exact absurd (congrArg Hunk.stop hsame) (by simp only [XdChange.stop_hunk]; omega)
  | case6 x1 xscr1 x2 xscr2 c hlt hgt c' e1 e2 he he' ih =>
    have hsame := sameChange_of_not_hasConflict hno
    rw [sameChange_iff (hlength1 _ mem_cons_self) (hlength2 _ mem_cons_self)] at hsame
    exact absurd (congrArg Hunk.stop hsame) (by simp only [XdChange.stop_hunk]; omega)
  | case7 x1 xscr1 x2 xscr2 c hlt hgt c' e1 e2 he he' ih =>
    have hsame := sameChange_of_not_hasConflict hno
    rw [sameChange_iff (hlength1 _ mem_cons_self) (hlength2 _ mem_cons_self)] at hsame
    have hstop : x1.i1 + x1.chg1 = x2.i1 + x2.chg1 := congrArg Hunk.stop hsame
    intro x hx y hy
    rcases mem_cons.mp hx with rfl | hx
    · rcases mem_cons.mp hy with rfl | hy
      · exact .inr (.inr hsame)
      · -- past the same change, the other side's changes are apart from it
        exact .inl (show x.i1 + x.chg1 < y.i1 from hstop ▸ (pairwise_cons.mp h2).1 y hy)
    · rcases mem_cons.mp hy with rfl | hy
      · exact .inr (.inl (show y.i1 + y.chg1 < x.i1 from hstop ▸ (pairwise_cons.mp h1).1 x hx))
      · exact ih h1.of_cons h2.of_cons (fun z hz => hlength1 z (mem_cons_of_mem _ hz))
          (fun z hz => hlength2 z (mem_cons_of_mem _ hz)) hno x hx y hy

end Conflicts

/-! ### Clean merges -/

section Clean

variable {base ours theirs : List α} {gap p q1 q2 : ℕ} {x : XdChange} {xs xscr1 xscr2 : List XdChange}
  {c rest : List XdMerge}
  {m : XdMerge} {hs₁ hs₂ : List (Hunk α)}

/-- Regions that put the hunks of both sides into ours, which is past `q1` where the base is past `p`. -/
structure Merged (base ours theirs : List α) (p q1 : ℕ) (hs₁ hs₂ : List (Hunk α)) (rest : List XdMerge) : Prop where
  noConflict : ∀ m ∈ rest, m.mode ≠ .conflict
  fills : ∃ hs, IsUnion hs hs₁ hs₂ ∧
    ∀ i ≤ q1, fill ours theirs i rest = between ours i q1 ++ Hunk.applyFrom base p hs

theorem records_natCast (recs : List α) (i j : ℕ) : records recs i j = between recs i j := by
  rw [records, Int.toNat_natCast, Int.toNat_natCast]

theorem Merged.nil (h1 : IsScript base ours gap p q1 []) : Merged base ours theirs p q1 [] [] [] := by
  refine ⟨by simp, [], .of_nil .nil, fun i hi => ?_⟩
  have hall : between ours q1 ours.length = ours.drop q1 := by
    rw [between, ← length_drop, take_length]
  rw [fill, records_natCast, Hunk.applyFrom, h1.2.2, ← hall, between_append_between ours hi h1.2.1]

theorem Merged.cons_ours (h : Merged base ours theirs (x.i1 + x.chg1) (x.i2 + x.chg2) hs₁ hs₂ rest)
    (hi2 : q1 ≤ x.i2) (heq : between base p x.i1 = between ours q1 x.i2) (hmode : m.mode = .ours) (hm1 : m.i1 = x.i2)
    (hm : m.chg1 = x.chg2) (hapart : ∀ k, k ∈ hs₁ ∨ k ∈ hs₂ → (x.hunk ours).Apart k) :
    Merged base ours theirs p q1 (x.hunk ours :: hs₁) hs₂ (m :: rest) := by
  obtain ⟨hno, hs, hunion, hfill⟩ := h
  refine ⟨forall_mem_cons.mpr ⟨by simp [hmode], hno⟩, _, hunion.cons_left hapart, fun i hi => ?_⟩
  have hend : m.i1 + m.chg1 = ((x.i2 + x.chg2 : ℕ) : ℤ) := by omega
  rw [fill, hend, hfill _ le_rfl, if_pos hmode, hm1, records_natCast, records_natCast, between_self, nil_append,
    Hunk.applyFrom, XdChange.stop_hunk, ← between_append_between ours hi hi2, ← heq]
  simp [XdChange.hunk]

theorem Merged.cons_theirs {i1 : ℕ} (h : Merged base ours theirs (x.i1 + x.chg1) (i1 + x.chg1) hs₁ hs₂ rest)
    (hi1 : q1 ≤ i1) (heq : between base p x.i1 = between ours q1 i1) (hmode : m.mode = .theirs) (hm1 : m.i1 = i1)
    (hm : m.chg1 = x.chg1) (hm2 : m.i2 = x.i2) (hm' : m.chg2 = x.chg2)
    (hapart : ∀ k, k ∈ hs₁ ∨ k ∈ hs₂ → (x.hunk theirs).Apart k) :
    Merged base ours theirs p q1 hs₁ (x.hunk theirs :: hs₂) (m :: rest) := by
  obtain ⟨hno, hs, hunion, hfill⟩ := h
  refine ⟨forall_mem_cons.mpr ⟨by simp [hmode], hno⟩, _, hunion.cons_right hapart, fun i hi => ?_⟩
  have hend : m.i1 + m.chg1 = ((i1 + x.chg1 : ℕ) : ℤ) := by omega
  have hend2 : m.i2 + m.chg2 = ((x.i2 + x.chg2 : ℕ) : ℤ) := by omega
  rw [fill, hend, hfill _ le_rfl, if_neg (by simp [hmode]), hm1, hend2, hm2, records_natCast,
    records_natCast, between_self,
    nil_append, Hunk.applyFrom, XdChange.stop_hunk, ← between_append_between ours hi hi1, ← heq]
  simp [XdChange.hunk]

theorem Merged.cons_same {h : Hunk α} (hrest : Merged base ours theirs (x.i1 + x.chg1) (x.i2 + x.chg2) hs₁ hs₂ rest)
    (hi2 : q1 ≤ x.i2) (heq : between base p x.i1 = between ours q1 x.i2) (hx : x.hunk ours = h)
    (hapart : ∀ k, k ∈ hs₁ ∨ k ∈ hs₂ → h.Apart k) : Merged base ours theirs p q1 (h :: hs₁) (h :: hs₂) rest := by
  subst hx
  obtain ⟨hno, hs, hunion, hfill⟩ := hrest
  refine ⟨hno, _, hunion.cons_both hapart, fun i hi => ?_⟩
  rw [hfill i (by omega), Hunk.applyFrom, XdChange.stop_hunk, ← between_append_between ours (hi.trans hi2) (by omega),
    ← between_append_between ours hi hi2, ← heq]
  simp [XdChange.hunk]

/-- The last region ends before where the next may start. -/
def EndsBy (c : List XdMerge) (gap q1 q2 : ℕ) : Prop :=
  ∀ m ∈ c.getLast?, m.i1 + m.chg1 < q1 + gap ∧ m.i2 + m.chg2 < q2 + gap

theorem EndsBy.appendMerge (h : EndsBy c gap q1 q2) {d : ℕ} (hd : gap ≤ d) (hm1 : m.i1 = q1 + d) (hm2 : m.i2 = q2 + d) :
    Merge.appendMerge c m = c ++ [m] :=
  appendMerge_eq_append fun m' hm' => by
    obtain ⟨h₁, h₂⟩ := h m' hm'
    omega

theorem endsBy_append (hm1 : m.i1 + m.chg1 = q1) (hm2 : m.i2 + m.chg2 = q2) : EndsBy (c ++ [m]) 1 q1 q2 := by
  intro m' hm'
  rw [getLast?_concat, Option.mem_some_iff] at hm'
  subst hm'
  omega

theorem EndsBy.mono (h : EndsBy c gap q1 q2) {q1' q2' : ℕ} (h1 : q1 + gap ≤ q1' + 1) (h2 : q2 + gap ≤ q2' + 1) :
    EndsBy c 1 q1' q2' := fun m hm => by
  obtain ⟨h₁, h₂⟩ := h m hm
  omega

theorem IsScript.length_sub (h : IsScript base theirs gap p q2 []) : (theirs.length : ℤ) - base.length = q2 - p := by
  obtain ⟨hp, hq, heq⟩ := h
  have hlength := congrArg List.length heq
  rw [length_drop, length_drop] at hlength
  omega

theorem foldl_oursLast (h1 : IsScript base ours gap p q1 xs) (h2 : IsScript base theirs gap p q2 [])
    (hlast : EndsBy c gap q1 q2) :
    ∃ rest, xs.foldl (fun c x1 => appendMerge c (oursLast theirs base.length x1)) c = c ++ rest ∧
      Merged base ours theirs p q1 (xs.map (XdChange.hunk ours)) [] rest := by
  induction xs generalizing gap p q1 q2 c with
  | nil => exact ⟨[], by simp, .nil h1⟩
  | cons x xs ih =>
    have hsorted := h1.pairwise
    obtain ⟨hgap, hi2, heq, -, hbase, -, hrest⟩ := h1
    have hsub := h2.length_sub
    have happend : appendMerge c (oursLast theirs base.length x) = c ++ [oursLast theirs base.length x] := by
      refine hlast.appendMerge (d := x.i1 - p) (by omega) ?_ ?_
      · simp only [oursLast]
        omega
      · simp only [oursLast]
        omega
    have hnext : IsScript base theirs 1 (x.i1 + x.chg1) (q2 + (x.i1 + x.chg1 - p)) [] :=
      h2.advance (by omega) (by simp) hbase
    have hlast' : EndsBy (c ++ [oursLast theirs base.length x]) 1 (x.i2 + x.chg2) (q2 + (x.i1 + x.chg1 - p)) := by
      refine endsBy_append ?_ ?_
      · simp only [oursLast]
        omega
      · simp only [oursLast]
        omega
    obtain ⟨rest, hfold, hmerged⟩ := ih hrest hnext hlast'
    refine ⟨oursLast theirs base.length x :: rest, ?_, ?_⟩
    · rw [foldl_cons, happend, hfold, append_assoc, singleton_append]
    · refine hmerged.cons_ours (by omega) heq rfl rfl rfl fun k hk => ?_
      exact (pairwise_cons.mp hsorted).1 k (by simpa using hk)

theorem foldl_theirsLast (h1 : IsScript base ours gap p q1 []) (h2 : IsScript base theirs gap p q2 xs)
    (hlast : EndsBy c gap q1 q2) :
    ∃ rest, xs.foldl (fun c x2 => appendMerge c (theirsLast ours base.length x2)) c = c ++ rest ∧
      Merged base ours theirs p q1 [] (xs.map (XdChange.hunk theirs)) rest := by
  induction xs generalizing gap p q1 q2 c with
  | nil => exact ⟨[], by simp, .nil h1⟩
  | cons x xs ih =>
    have hsorted := h2.pairwise
    obtain ⟨hgap, hi2, -, -, hbase, -, hrest⟩ := h2
    have hsub := h1.length_sub
    have hequal : between base p x.i1 = between ours q1 (q1 + (x.i1 - p)) := h1.between_eq (by simp)
    have happend : appendMerge c (theirsLast ours base.length x) = c ++ [theirsLast ours base.length x] := by
      refine hlast.appendMerge (d := x.i1 - p) (by omega) ?_ ?_
      · simp only [theirsLast]
        omega
      · simp only [theirsLast]
        omega
    have hnext : IsScript base ours 1 (x.i1 + x.chg1) (q1 + (x.i1 - p) + x.chg1) [] := by
      rw [show q1 + (x.i1 - p) + x.chg1 = q1 + (x.i1 + x.chg1 - p) by omega]
      exact h1.advance (by omega) (by simp) hbase
    have hlast' : EndsBy (c ++ [theirsLast ours base.length x]) 1 (q1 + (x.i1 - p) + x.chg1) (x.i2 + x.chg2) := by
      refine endsBy_append ?_ ?_
      · simp only [theirsLast]
        omega
      · simp only [theirsLast]
        omega
    obtain ⟨rest, hfold, hmerged⟩ := ih hnext hrest hlast'
    refine ⟨theirsLast ours base.length x :: rest, ?_, ?_⟩
    · rw [foldl_cons, happend, hfold, append_assoc, singleton_append]
    · refine hmerged.cons_theirs (by omega) hequal rfl ?_ rfl rfl rfl fun k hk => ?_
      · simp only [theirsLast]
        omega
      · exact (pairwise_cons.mp hsorted).1 k (by simpa using hk)

variable [DecidableEq α]

theorem doMerge_merged (h1 : IsScript base ours gap p q1 xscr1) (h2 : IsScript base theirs gap p q2 xscr2)
    (hcompat : ∀ x ∈ xscr1, ∀ y ∈ xscr2, (x.hunk ours).Compatible (y.hunk theirs)) (hlast : EndsBy c gap q1 q2) :
    ∃ rest, doMerge ours base.length theirs base.length xscr1 xscr2 c = c ++ rest ∧
      Merged base ours theirs p q1 (xscr1.map (XdChange.hunk ours)) (xscr2.map (XdChange.hunk theirs)) rest := by
  fun_induction doMerge ours base.length theirs base.length xscr1 xscr2 c generalizing gap p q1 q2 with
  | case1 xscr2 c => exact foldl_theirsLast h1 h2 hlast
  | case2 x1 xscr1 c => exact foldl_oursLast h1 h2 hlast
  | case3 x1 xscr1 x2 xscr2 c hlt ih =>
    have hsorted := h1.pairwise
    have hafter := h2.ordered
    have hi2' := h2.2.1
    have hgap2 := h2.1
    obtain ⟨hgap, hi2, heq, -, hbase, -, hrest⟩ := h1
    have happend : appendMerge c (oursRegion x1 x2) = c ++ [oursRegion x1 x2] := by
      refine hlast.appendMerge (d := x1.i1 - p) (by omega) ?_ ?_
      · simp only [oursRegion]
        omega
      · simp only [oursRegion]
        omega
    have hnext : IsScript base theirs 1 (x1.i1 + x1.chg1) (q2 + (x1.i1 + x1.chg1 - p)) (x2 :: xscr2) :=
      h2.advance (by omega) (by simpa using hlt) hbase
    have hlast' : EndsBy (c ++ [oursRegion x1 x2]) 1 (x1.i2 + x1.chg2) (q2 + (x1.i1 + x1.chg1 - p)) := by
      refine endsBy_append ?_ ?_
      · simp only [oursRegion]
        omega
      · simp only [oursRegion]
        omega
    rw [happend] at ih ⊢
    obtain ⟨rest, hwalk, hmerged⟩ := ih hrest hnext (fun x hx => hcompat x (mem_cons_of_mem _ hx)) hlast'
    refine ⟨oursRegion x1 x2 :: rest, ?_, ?_⟩
    · rw [hwalk, append_assoc, singleton_append]
    · refine hmerged.cons_ours (by omega) heq rfl rfl rfl fun k hk => ?_
      rcases hk with hk | hk
      · exact (pairwise_cons.mp hsorted).1 k hk
      · obtain ⟨y, hy, rfl⟩ := mem_map.mp hk
        exact hafter.apart hlt hy ours theirs
  | case4 x1 xscr1 x2 xscr2 c hlt hgt ih =>
    have hsorted := h2.pairwise
    have hafter := h1.ordered
    have hi2' := h1.2.1
    have hgap1 := h1.1
    have hequal : between base p x2.i1 = between ours q1 (q1 + (x2.i1 - p)) :=
      h1.between_eq (by simpa using by omega)
    obtain ⟨hgap, hi2, -, -, hbase, -, hrest⟩ := h2
    have happend : appendMerge c (theirsRegion x1 x2) = c ++ [theirsRegion x1 x2] := by
      refine hlast.appendMerge (d := x2.i1 - p) (by omega) ?_ ?_
      · simp only [theirsRegion]
        omega
      · simp only [theirsRegion]
        omega
    have hnext : IsScript base ours 1 (x2.i1 + x2.chg1) (q1 + (x2.i1 - p) + x2.chg1) (x1 :: xscr1) := by
      rw [show q1 + (x2.i1 - p) + x2.chg1 = q1 + (x2.i1 + x2.chg1 - p) by omega]
      exact h1.advance (by omega) (by simpa using hgt) hbase
    have hlast' : EndsBy (c ++ [theirsRegion x1 x2]) 1 (q1 + (x2.i1 - p) + x2.chg1) (x2.i2 + x2.chg2) := by
      refine endsBy_append ?_ ?_
      · simp only [theirsRegion]
        omega
      · simp only [theirsRegion]
        omega
    rw [happend] at ih ⊢
    obtain ⟨rest, hwalk, hmerged⟩ := ih hnext hrest (fun x hx y hy => hcompat x hx y (mem_cons_of_mem _ hy)) hlast'
    refine ⟨theirsRegion x1 x2 :: rest, ?_, ?_⟩
    · rw [hwalk, append_assoc, singleton_append]
    · refine hmerged.cons_theirs (by omega) hequal rfl ?_ rfl rfl rfl fun k hk => ?_
      · simp only [theirsRegion]
        omega
      · rcases hk with hk | hk
        · obtain ⟨y, hy, rfl⟩ := mem_map.mp hk
          exact hafter.apart hgt hy theirs ours
        · exact (pairwise_cons.mp hsorted).1 k hk
  | case5 x1 xscr1 x2 xscr2 c hlt hgt c' e1 =>
    rename_i e2 he ih
    have hsame := ((hcompat x1 mem_cons_self x2 mem_cons_self).resolve_left hlt).resolve_left hgt
    exact absurd (congrArg Hunk.stop hsame) (by simp only [XdChange.stop_hunk]; omega)
  | case6 x1 xscr1 x2 xscr2 c hlt hgt c' e1 e2 =>
    rename_i he he' ih
    have hsame := ((hcompat x1 mem_cons_self x2 mem_cons_self).resolve_left hlt).resolve_left hgt
    exact absurd (congrArg Hunk.stop hsame) (by simp only [XdChange.stop_hunk]; omega)
  | case7 x1 xscr1 x2 xscr2 c hlt hgt c' e1 e2 =>
    rename_i he he' ih
    have hsame := ((hcompat x1 mem_cons_self x2 mem_cons_self).resolve_left hlt).resolve_left hgt
    have hstop : x1.i1 + x1.chg1 = x2.i1 + x2.chg1 := congrArg Hunk.stop hsame
    have hsorted1 := h1.pairwise
    have hsorted2 := h2.pairwise
    obtain ⟨hgap, hi2, heq, -, -, hours, hrest⟩ := h1
    obtain ⟨hgap2, hi2', -, -, -, htheirs, hrest'⟩ := h2
    have hc : c' = c := if_pos ((sameChange_iff hours htheirs).mpr hsame)
    rw [hc] at ih ⊢
    rw [← hstop] at hrest'
    have hlast' : EndsBy c 1 (x1.i2 + x1.chg2) (x2.i2 + x2.chg2) := hlast.mono (by omega) (by omega)
    obtain ⟨rest, hwalk, hmerged⟩ := ih hrest hrest'
      (fun x hx y hy => hcompat x (mem_cons_of_mem _ hx) y (mem_cons_of_mem _ hy)) hlast'
    refine ⟨rest, hwalk, ?_⟩
    rw [map_cons, map_cons, ← hsame]
    refine hmerged.cons_same (by omega) heq rfl fun k hk => ?_
    rcases hk with hk | hk
    · exact (pairwise_cons.mp hsorted1).1 k hk
    · rw [hsame]
      exact (pairwise_cons.mp hsorted2).1 k hk

end Clean

/-! ### Files -/

theorem flatten_splitFrom (record bytes : List UInt8) : (splitFrom record bytes).flatten = record ++ bytes := by
  induction bytes generalizing record with
  | nil =>
    rw [splitFrom]
    split
    · next h => simp [h]
    · simp
  | cons b bytes ih =>
    rw [splitFrom]
    split
    · rw [flatten_cons, ih, nil_append, append_assoc, singleton_append]
    · rw [ih, append_assoc, singleton_append]

theorem flatten_splitRecords (bytes : List UInt8) : (splitRecords bytes).flatten = bytes := flatten_splitFrom [] bytes

/-- Equal keys are equal bytes. -/
theorem recordKey_injective : Injective recordKey := by
  intro r r' h
  have hchar : Injective fun b : UInt8 => Char.ofNat b.toNat := by
    intro b b' hb
    have hvalid : ∀ b : UInt8, (Char.ofNat b.toNat).toNat = b.toNat := fun b => by
      have hlt := b.toNat_lt
      have hvalid : b.toNat.isValidChar := .inl (by omega)
      rw [Char.ofNat, dif_pos hvalid]
      rfl
    have hnat := congrArg Char.toNat hb
    rw [hvalid, hvalid] at hnat
    exact UInt8.toNat_inj.mp hnat
  exact map_injective_iff.mpr hchar (String.ofList_injective h)

section Map

variable {f : α → β} {base file ours theirs : List α} {xs xscr1 xscr2 : List XdChange}

theorem isScript_map (hf : Injective f) {gap p q : ℕ} :
    IsScript (base.map f) (file.map f) gap p q xs ↔ IsScript base file gap p q xs := by
  have hmap : ∀ l l' : List α, l.map f = l'.map f ↔ l = l' := fun l l' => (map_injective_iff.mpr hf).eq_iff
  induction xs generalizing gap p q with
  | nil => rw [IsScript, IsScript, length_map, length_map, ← map_drop, ← map_drop, hmap]
  | cons x xs ih =>
    rw [IsScript, IsScript, length_map, length_map, ← map_between, ← map_between, hmap]
    simp [ih]

variable [DecidableEq α] [DecidableEq β]

theorem sameChange_map (hf : Injective f) (x1 x2 : XdChange) :
    sameChange (ours.map f) (theirs.map f) x1 x2 = sameChange ours theirs x1 x2 := by
  have hget : ∀ (l l' : List α) (i j : ℕ), ((l.map f)[i]? = (l'.map f)[j]?) = (l[i]? = l'[j]?) := fun l l' i j => by
    rw [getElem?_map, getElem?_map, (Option.map_injective hf).eq_iff]
  simp only [sameChange, sameLines, hget]

theorem doMerge_map (hf : Injective f) (n0a n0b : ℕ) (c : List XdMerge) :
    doMerge (ours.map f) n0a (theirs.map f) n0b xscr1 xscr2 c = doMerge ours n0a theirs n0b xscr1 xscr2 c := by
  fun_induction doMerge ours n0a theirs n0b xscr1 xscr2 c with
  | case1 xscr2 c =>
    rw [doMerge]
    simp [theirsLast]
  | case2 x1 xscr1 c =>
    rw [doMerge]
    simp [oursLast]
  | case3 x1 xscr1 x2 xscr2 c hlt ih => rw [doMerge, if_pos hlt, ih]
  | case4 x1 xscr1 x2 xscr2 c hlt hgt ih => rw [doMerge, if_neg hlt, if_pos hgt, ih]
  | case5 x1 xscr1 x2 xscr2 c hlt hgt c' e1 e2 he ih =>
    rw [doMerge, if_neg hlt, if_neg hgt]
    simp only [sameChange_map hf]
    exact (if_pos he).trans ih
  | case6 x1 xscr1 x2 xscr2 c hlt hgt c' e1 e2 he he' ih =>
    rw [doMerge, if_neg hlt, if_neg hgt]
    simp only [sameChange_map hf]
    exact ((if_neg he).trans (if_pos he')).trans ih
  | case7 x1 xscr1 x2 xscr2 c hlt hgt c' e1 e2 he he' ih =>
    rw [doMerge, if_neg hlt, if_neg hgt]
    simp only [sameChange_map hf]
    exact ((if_neg he).trans (if_neg he')).trans ih

end Map

/-- The records of a file as keys. -/
def keysOf (bytes : List UInt8) : List String := (splitRecords bytes).map recordKey

/-- What a script puts into the base. -/
def hunksOf (side : List UInt8) (xscr : List XdChange) : List (Hunk (List UInt8)) :=
  xscr.map (XdChange.hunk (splitRecords side))

/-- Changes that merge: a base record is between any two of different sides, or they are the same. -/
def Mergeable (hs₁ hs₂ : List (Hunk (List UInt8))) : Prop := ∀ h ∈ hs₁, ∀ k ∈ hs₂, h.Compatible k

theorem Mergeable.symm {hs₁ hs₂ : List (Hunk (List UInt8))} (h : Mergeable hs₁ hs₂) : Mergeable hs₂ hs₁ :=
  fun k hk h' hh => (h h' hh k hk).symm

section Files

variable {diffChanges : List String → List String → Except String (List XdChange)} {base ours theirs : List UInt8}
  {xscr1 xscr2 : List XdChange}

/-- Files that are merged by their lines: none is too large or binary. -/
def IsText (base ours theirs : List UInt8) : Prop := ∀ file ∈ [base, ours, theirs],
  file.length ≤ merge3MaxBytes ∧ isBinary file = false

instance : Decidable (IsText base ours theirs) := inferInstanceAs (Decidable (∀ file ∈ [base, ours, theirs], _))

variable (hscript1 : IsScript (keysOf base) (keysOf ours) 0 0 0 xscr1)
  (hscript2 : IsScript (keysOf base) (keysOf theirs) 0 0 0 xscr2)

variable (htext : IsText base ours theirs) (h1 : diffChanges (keysOf base) (keysOf ours) = .ok xscr1)
  (h2 : diffChanges (keysOf base) (keysOf theirs) = .ok xscr2)

include htext h1 h2 in
theorem merge3_eq : merge3 diffChanges base ours theirs =
      if xscr1 = [] then .clean theirs else if xscr2 = [] then .clean ours else
        let regions := doMerge (splitRecords ours) (splitRecords base).length (splitRecords theirs)
          (splitRecords base).length
          xscr1 xscr2 []
        if regions.any fun m => m.mode = .conflict then .conflict
        else .clean (fill (splitRecords ours) (splitRecords theirs) 0 regions).flatten := by
  obtain ⟨⟨hb, hb'⟩, ⟨ho, ho'⟩, ht, ht'⟩ : (base.length ≤ merge3MaxBytes ∧ isBinary base = false) ∧
      (ours.length ≤ merge3MaxBytes ∧ isBinary ours = false) ∧ theirs.length ≤ merge3MaxBytes ∧
          isBinary theirs = false := by
    simpa [IsText] using htext
  have hsize : ¬(merge3MaxBytes < base.length ∨ merge3MaxBytes < ours.length ∨
    merge3MaxBytes < theirs.length) := by omega
  rw [keysOf, keysOf] at h1 h2
  rw [merge3, if_neg hsize, hb', ho', ht', if_neg (by decide)]
  simp [h1, h2, doMerge_map recordKey_injective]

include hscript1 hscript2 htext h1 h2 in
/-- Where every two changes of the sides merge, the merge is the base with the changes of both. -/
theorem merge3_eq_clean (hm : Mergeable (hunksOf ours xscr1) (hunksOf theirs xscr2)) :
    ∃ hs, IsUnion hs (hunksOf ours xscr1) (hunksOf theirs xscr2) ∧
      merge3 diffChanges base ours theirs = .clean (Hunk.applyFrom (splitRecords base) 0 hs).flatten := by
  rw [keysOf, keysOf, isScript_map recordKey_injective] at hscript1 hscript2
  rw [merge3_eq htext h1 h2]
  by_cases hnil1 : xscr1 = []
  · subst hnil1
    refine ⟨hunksOf theirs xscr2, .of_nil hscript2.pairwise, ?_⟩
    rw [if_pos rfl, hunksOf, hscript2.applyFrom, drop_zero, flatten_splitRecords]
  by_cases hnil2 : xscr2 = []
  · subst hnil2
    refine ⟨hunksOf ours xscr1, (IsUnion.of_nil hscript1.pairwise).symm, ?_⟩
    rw [if_neg hnil1, if_pos rfl, hunksOf, hscript1.applyFrom, drop_zero, flatten_splitRecords]
  rw [if_neg hnil1, if_neg hnil2]
  obtain ⟨rest, hwalk, hno, hs, hunion, hfill⟩ := doMerge_merged (c := []) hscript1 hscript2
    (fun x hx y hy => hm _ (mem_map_of_mem hx) _ (mem_map_of_mem hy)) (by simp [EndsBy])
  refine ⟨hs, hunion, ?_⟩
  have hclean : (rest.any fun m => decide (m.mode = .conflict)) = false := by
    rw [any_eq_false]
    exact fun m hm' => by simpa using hno m hm'
  have hbytes : fill (splitRecords ours) (splitRecords theirs) 0 rest =
      between (splitRecords ours) 0 0 ++ Hunk.applyFrom (splitRecords base) 0 hs := hfill 0 le_rfl
  rw [between_self, nil_append] at hbytes
  rw [hwalk, nil_append]
  simp [hclean, hbytes]

include hscript1 hscript2 htext h1 h2 in
/-- Where two changes of the sides do not merge, the merge is a conflict. -/
theorem merge3_eq_conflict (hm : ¬Mergeable (hunksOf ours xscr1) (hunksOf theirs xscr2)) :
    merge3 diffChanges base ours theirs = .conflict := by
  rw [keysOf, keysOf, isScript_map recordKey_injective] at hscript1 hscript2
  rw [merge3_eq htext h1 h2, if_neg, if_neg]
  · have hconflict : HasConflict (doMerge (splitRecords ours) (splitRecords base).length (splitRecords theirs)
        (splitRecords base).length xscr1 xscr2 []) := by
      by_contra hno
      have hall := compatible_of_doMerge hscript1.ordered hscript2.ordered hscript1.le_file hscript2.le_file hno
      exact hm (forall_mem_map.mpr fun x hx => forall_mem_map.mpr fun y hy => hall x hx y hy)
    have hany : ((doMerge (splitRecords ours) (splitRecords base).length (splitRecords theirs)
        (splitRecords base).length xscr1 xscr2 []).any fun m => decide (m.mode = .conflict)) = true := by
      obtain ⟨m, hmem, hmode⟩ := hconflict
      exact any_eq_true.mpr ⟨m, hmem, decide_eq_true hmode⟩
    exact if_pos hany
  · rintro rfl
    exact hm (by simp [Mergeable, hunksOf])
  · rintro rfl
    exact hm (by simp [Mergeable, hunksOf])

include hscript1 hscript2 htext h1 h2 in
theorem merge3_eq_swap :
    merge3 diffChanges base theirs ours = merge3 diffChanges base ours theirs := by
  have hswap : IsText base theirs ours := fun file hfile => htext file (by
    simp only [mem_cons, not_mem_nil, or_false] at hfile ⊢
    tauto)
  by_cases hm : Mergeable (hunksOf ours xscr1) (hunksOf theirs xscr2)
  · obtain ⟨hs, hunion, heq⟩ := merge3_eq_clean hscript1 hscript2 htext h1 h2 hm
    obtain ⟨hs', hunion', heq'⟩ := merge3_eq_clean hscript2 hscript1 hswap h2 h1 hm.symm
    rw [heq, heq', hunion'.symm.unique hunion]
  · rw [merge3_eq_conflict hscript1 hscript2 htext h1 h2 hm,
      merge3_eq_conflict hscript2 hscript1 hswap h2 h1 fun hm' => hm hm'.symm]

/-- Of valid scripts the merge is clean exactly where every change of ours and every change of theirs have a base
record between them or are the same; it is then the base with every change of either side in it once, and with the
sides swapped it is the same. -/
theorem merge3_spec (htext : IsText base ours theirs) (h1 : diffChanges (keysOf base) (keysOf ours) = .ok xscr1)
    (h2 : diffChanges (keysOf base) (keysOf theirs) = .ok xscr2)
    (hscript1 : IsScript (keysOf base) (keysOf ours) 0 0 0 xscr1)
    (hscript2 : IsScript (keysOf base) (keysOf theirs) 0 0 0 xscr2) :
    ((∃ bytes, merge3 diffChanges base ours theirs = .clean bytes) ↔
      Mergeable (hunksOf ours xscr1) (hunksOf theirs xscr2)) ∧
    (∀ bytes, merge3 diffChanges base ours theirs = .clean bytes →
      ∃ hs, IsUnion hs (hunksOf ours xscr1) (hunksOf theirs xscr2) ∧
        bytes = (Hunk.applyFrom (splitRecords base) 0 hs).flatten) ∧
    Hunk.applyFrom (splitRecords base) 0 (hunksOf ours xscr1) = splitRecords ours ∧
    Hunk.applyFrom (splitRecords base) 0 (hunksOf theirs xscr2) = splitRecords theirs ∧
    merge3 diffChanges base theirs ours = merge3 diffChanges base ours theirs := by
  have hconflict := merge3_eq_conflict hscript1 hscript2 htext h1 h2
  have hclean := merge3_eq_clean hscript1 hscript2 htext h1 h2
  refine ⟨⟨?_, fun hm => ?_⟩, fun bytes hbytes => ?_, ?_, ?_, ?_⟩
  · rintro ⟨bytes, hbytes⟩
    by_contra hm
    rw [hconflict hm] at hbytes
    cases hbytes
  · obtain ⟨hs, -, heq⟩ := hclean hm
    exact ⟨_, heq⟩
  · by_cases hm : Mergeable (hunksOf ours xscr1) (hunksOf theirs xscr2)
    · obtain ⟨hs, hunion, heq⟩ := hclean hm
      exact ⟨hs, hunion, Merge3Result.clean.inj (hbytes.symm.trans heq)⟩
    · rw [hconflict hm] at hbytes
      cases hbytes
  · exact ((isScript_map recordKey_injective).mp hscript1).applyFrom
  · exact ((isScript_map recordKey_injective).mp hscript2).applyFrom
  · exact merge3_eq_swap hscript1 hscript2 htext h1 h2

theorem isText_of_clean {bytes : List UInt8} (h : merge3 diffChanges base ours theirs = .clean bytes) :
    IsText base ours theirs ∧ ∃ xscr1 xscr2, diffChanges (keysOf base) (keysOf ours) = .ok xscr1 ∧
      diffChanges (keysOf base) (keysOf theirs) = .ok xscr2 := by
  rw [merge3] at h
  split at h
  · cases h
  · next hsize =>
    split at h
    · cases h
    · next hbinary =>
      simp only [Bool.or_eq_true, not_or, Bool.not_eq_true] at hbinary
      refine ⟨?_, ?_⟩
      · simp only [IsText, mem_cons, not_mem_nil, or_false, forall_eq_or_imp, forall_eq]
        exact ⟨⟨by omega, hbinary.1.1⟩, ⟨by omega, hbinary.1.2⟩, by omega, hbinary.2⟩
      · dsimp only at h
        split at h
        · cases h
        · cases h
        · next xscr1 xscr2 h1 h2 => exact ⟨xscr1, xscr2, h1, h2⟩

theorem merge3_swap (hdiff : ∀ k0 k1 xs, diffChanges k0 k1 = .ok xs → IsScript k0 k1 0 0 0 xs) {bytes : List UInt8}
    (h : merge3 diffChanges base ours theirs = .clean bytes) : merge3 diffChanges base theirs ours = .clean bytes := by
  obtain ⟨htext, xscr1, xscr2, h1, h2⟩ := isText_of_clean h
  rw [← h]
  exact merge3_eq_swap (hdiff _ _ _ h1) (hdiff _ _ _ h2) htext h1 h2

/-- A diff of three files by their first lines. -/
def diffSample (k0 k1 : List String) : Except String (List XdChange) :=
  if k0.head? = k1.head? then .ok [⟨2, 2, 1, 1⟩] else .ok [⟨0, 0, 1, 1⟩]

theorem merge3_spec_sample :
    merge3 diffSample (utf8 "a\nb\nc\n") (utf8 "A\nb\nc\n") (utf8 "a\nb\nC\n") = .clean (utf8 "A\nb\nC\n") ∧
      merge3 diffSample (utf8 "a\nb\nc\n") (utf8 "a\nb\nC\n") (utf8 "A\nb\nc\n") =
        merge3 diffSample (utf8 "a\nb\nc\n") (utf8 "A\nb\nc\n") (utf8 "a\nb\nC\n") := by
  have hspec := @merge3_spec diffSample (utf8 "a\nb\nc\n") (utf8 "A\nb\nc\n") (utf8 "a\nb\nC\n") [⟨0, 0, 1, 1⟩]
    [⟨2, 2, 1, 1⟩] (by decide +kernel) (by decide +kernel) (by decide +kernel) (by decide +kernel) (by decide +kernel)
  exact ⟨by decide +kernel, hspec.2.2.2.2⟩

end Files

end DashForge.Merge
