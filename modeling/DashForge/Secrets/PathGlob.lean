import DashForge.Data.Memo
import Mathlib.Data.List.DropRight

/-!
# Path globs of the allow file

Which paths a pattern of the allow file matches (`crates/forge-secrets`, `glob.rs`). `globAt` is the recursion on a
pattern position and a text position with its table of answers; an index outside the table is `none`. `plainAt` is the
same recursion without the table, and `Matches` the language of a pattern read as tokens from the left.

`pathMatches_spec` is what the allow file promises: a pattern matches a path whose whole, or one of whose folders, is
in its language.
-/

namespace DashForge.PathGlob

open Memo (Table recalled anyOf)
open List Bool

section Glob

variable (text : List Char)

/-- The positions from `at` to the end of the text. -/
def positions (i : ℕ) : List ℕ := List.range' i (text.length + 1 - i)

/-- Whether a slash is right before a position. -/
def afterSlash (t : ℕ) : Bool := text[t - 1]? == some '/'

/-- Whether what is left of the text matches what is left of the pattern, at pattern position `k`. -/
def globAt : List Char → ℕ → ℕ → Table Bool → Option (Bool × Table Bool)
  | [], k, i, memo => recalled (k * (text.length + 1) + i) memo fun memo => some (i == text.length, memo)
  | '*' :: '*' :: '/' :: p, k, i, memo => recalled (k * (text.length + 1) + i) memo fun memo =>
    -- a double star with its slash also matches nothing
    anyOf (fun t memo => if t == i || afterSlash text t then globAt p (k + 3) t memo else some (false, memo))
      (positions text i) memo
  | '*' :: '*' :: p, k, i, memo => recalled (k * (text.length + 1) + i) memo fun memo =>
    anyOf (fun t memo => globAt p (k + 2) t memo) (positions text i) memo
  | '*' :: p, k, i, memo => recalled (k * (text.length + 1) + i) memo fun memo =>
    anyOf (fun t memo => globAt p (k + 1) t memo)
      ((positions text i).takeWhile fun t => t == i || !afterSlash text t) memo
  | '?' :: p, k, i, memo => recalled (k * (text.length + 1) + i) memo fun memo =>
    if text[i]?.any (· != '/') then globAt p (k + 1) (i + 1) memo else some (false, memo)
  | c :: p, k, i, memo => recalled (k * (text.length + 1) + i) memo fun memo =>
    if text[i]? == some c then globAt p (k + 1) (i + 1) memo else some (false, memo)

/-- Whether all of the text matches all of the pattern. -/
def glob (pat : List Char) : Option Bool :=
  (globAt text pat 0 0 (replicate ((pat.length + 1) * (text.length + 1)) none)).map Prod.fst

/-- The recursion without its table. -/
def plainAt : List Char → ℕ → Bool
  | [], i => i == text.length
  | '*' :: '*' :: '/' :: p, i => (positions text i).any fun t => (t == i || afterSlash text t) && plainAt p t
  | '*' :: '*' :: p, i => (positions text i).any fun t => plainAt p t
  | '*' :: p, i => ((positions text i).takeWhile fun t => t == i || !afterSlash text t).any fun t => plainAt p t
  | '?' :: p, i => text[i]?.any (· != '/') && plainAt p (i + 1)
  | c :: p, i => text[i]? == some c && plainAt p (i + 1)

end Glob

/-- A pattern without the slashes around it. -/
def trimmed (pattern : String) : List Char := (pattern.toList.rdropWhile (· == '/')).dropWhile (· == '/')

/-- Whether a pattern matches folders only. -/
def foldersOnly (pattern : String) : Bool := pattern.toList.getLast? == some '/'

/-- Whether a path, from the root, matches a pattern. -/
def pathMatches (pattern path : String) : Option Bool :=
  let p := trimmed pattern
  if p = [] then some false
  else
    let parts := path.toList.splitOn '/'
    ((List.range' 1 parts.length).filter fun k => decide (k < parts.length) || !foldersOnly pattern).foldlM
      (fun found k => if found then some true else glob (['/'].intercalate (parts.take k)) p) false

/-! ### The table -/

section Table

variable {text pat : List Char}

variable (text pat) in
/-- The answer a cell of the table is for. -/
def cellAnswer (key : ℕ) : Bool := plainAt text (pat.drop (key / (text.length + 1))) (key % (text.length + 1))

variable (text pat) in
/-- A table of the search's size with right answers. -/
abbrev TableOk (memo : Table Bool) : Prop :=
  Memo.Ok (cellAnswer text pat) ((pat.length + 1) * (text.length + 1)) memo

variable (text pat) in
/-- A search that finds `b` and leaves such a table. -/
abbrev FindsIn (found : Option (Bool × Table Bool)) (b : Bool) : Prop :=
  Memo.Finds (cellAnswer text pat) ((pat.length + 1) * (text.length + 1)) found b

variable {k i : ℕ} {p : List Char}

theorem cellAnswer_eq (hi : i ≤ text.length) :
    cellAnswer text pat (k * (text.length + 1) + i) = plainAt text (pat.drop k) i := by
  have hlt : i < text.length + 1 := Nat.lt_succ_of_le hi
  rw [cellAnswer, Nat.add_comm, Nat.add_mul_div_right _ _ (Nat.succ_pos _), Nat.div_eq_of_lt hlt, Nat.zero_add,
    Nat.add_mul_mod_self_right, Nat.mod_eq_of_lt hlt]

theorem key_lt (hk : k ≤ pat.length) (hi : i ≤ text.length) :
    k * (text.length + 1) + i < (pat.length + 1) * (text.length + 1) := by
  have := Nat.mul_le_mul_right (text.length + 1) hk
  rw [Nat.add_mul, Nat.one_mul]
  omega

theorem mem_positions {t : ℕ} : t ∈ positions text i ↔ i ≤ t ∧ t ≤ text.length := by
  rw [positions, mem_range'_1]
  omega

theorem drop_of_cons {c : Char} (h : c :: p = pat.drop k) : p = pat.drop (k + 1) ∧ k < pat.length := by
  constructor
  · rw [← tail_drop, ← h, tail_cons]
  · by_contra hle
    rw [drop_eq_nil_of_le (not_lt.mp hle)] at h
    cases h

theorem finds_recalled (hp : p = pat.drop k) (hk : k ≤ pat.length) (hi : i ≤ text.length)
    {memo : Table Bool} (hmemo : TableOk text pat memo) {find : Table Bool → Option (Bool × Table Bool)}
    (hfind : FindsIn text pat (find memo) (plainAt text p i)) :
    FindsIn text pat (recalled (k * (text.length + 1) + i) memo find) (plainAt text p i) := by
  have hcell : plainAt text p i = cellAnswer text pat (k * (text.length + 1) + i) := by rw [cellAnswer_eq hi, ← hp]
  rw [hcell] at hfind ⊢
  exact hfind.recalled hmemo (key_lt hk hi)

theorem finds_globAt (hp : p = pat.drop k) (hk : k ≤ pat.length) (hi : i ≤ text.length)
    {memo : Table Bool} (hmemo : TableOk text pat memo) :
    FindsIn text pat (globAt text p k i memo) (plainAt text p i) := by
  induction p, i using plainAt.induct generalizing k memo with
  | case1 i =>
    rw [globAt, plainAt]
    exact finds_recalled (p := []) hp hk hi hmemo (Memo.finds_some hmemo _)
  | case2 p i ih =>
    obtain ⟨hp₁, hk₁⟩ := drop_of_cons hp
    obtain ⟨hp₂, hk₂⟩ := drop_of_cons hp₁
    obtain ⟨hp₃, hk₃⟩ := drop_of_cons hp₂
    rw [globAt]
    refine finds_recalled hp hk hi hmemo ?_
    rw [plainAt]
    refine Memo.finds_anyOf (fun t ht memo hmemo => ?_) hmemo
    cases hat : t == i || afterSlash text t with
    | true => exact ih t hp₃ hk₃ (mem_positions.mp ht).2 hmemo
    | false => exact Memo.finds_some hmemo false
  | case3 p i hnot ih =>
    obtain ⟨hp₁, hk₁⟩ := drop_of_cons hp
    obtain ⟨hp₂, hk₂⟩ := drop_of_cons hp₁
    rw [globAt]
    · refine finds_recalled hp hk hi hmemo ?_
      rw [plainAt]
      · exact Memo.finds_anyOf (fun t ht memo hmemo => ih t hp₂ hk₂ (mem_positions.mp ht).2 hmemo) hmemo
      · exact hnot
    · exact hnot
  | case4 p i hnot hnot' ih =>
    obtain ⟨hp₁, hk₁⟩ := drop_of_cons hp
    rw [globAt]
    · refine finds_recalled hp hk hi hmemo ?_
      rw [plainAt]
      · refine Memo.finds_anyOf (fun t ht memo hmemo => ih t hp₁ hk₁ ?_ hmemo) hmemo
        exact (mem_positions.mp ((takeWhile_sublist _).mem ht)).2
      · exact hnot
      · exact hnot'
    · exact hnot
    · exact hnot'
  | case5 p i ih =>
    obtain ⟨hp₁, hk₁⟩ := drop_of_cons hp
    rw [globAt]
    refine finds_recalled hp hk hi hmemo ?_
    rw [plainAt]
    cases hc : text[i]?.any (· != '/') with
    | true =>
      obtain ⟨c, hc, -⟩ := (Option.any_eq_true _ _).mp hc
      exact ih hp₁ hk₁ (List.getElem?_eq_some_iff.mp hc).1 hmemo
    | false => exact Memo.finds_some hmemo false
  | case6 c p i hnot hnot' hstar hquest ih =>
    obtain ⟨hp₁, hk₁⟩ := drop_of_cons hp
    rw [globAt.eq_6 _ _ _ _ _ _ hnot hnot' hstar hquest]
    refine finds_recalled hp hk hi hmemo ?_
    rw [plainAt.eq_6 _ _ _ _ hnot hnot' hstar hquest]
    cases hc : text[i]? == some c with
    | true => exact ih hp₁ hk₁ (List.getElem?_eq_some_iff.mp (beq_iff_eq.mp hc)).1 hmemo
    | false => exact Memo.finds_some hmemo false

/-- The table is made large enough, and its search answers as the plain one. -/
theorem glob_eq : glob text pat = some (plainAt text pat 0) := by
  obtain ⟨memo, hfound, -⟩ := finds_globAt (drop_zero (l := pat)).symm (Nat.zero_le _) (Nat.zero_le text.length)
    Memo.ok_replicate
  rw [glob, hfound, Option.map_some]

end Table

/-! ### The language of a pattern -/

/-- What a pattern is made of. -/
inductive Tok where
  | lit (c : Char)
  /-- One character but a slash. -/
  | quest
  /-- A run without slashes. -/
  | star
  /-- Any run. -/
  | deep
  /-- Nothing, or a run that ends in a slash. -/
  | dirs
deriving DecidableEq, Repr

/-- A pattern read from the left. -/
def tokens : List Char → List Tok
  | [] => []
  | '*' :: '*' :: '/' :: p => .dirs :: tokens p
  | '*' :: '*' :: p => .deep :: tokens p
  | '*' :: p => .star :: tokens p
  | '?' :: p => .quest :: tokens p
  | c :: p => .lit c :: tokens p

/-- What tokens match. -/
inductive Matches : List Tok → List Char → Prop
  | nil : Matches [] []
  | lit (c : Char) {toks : List Tok} {s : List Char} (h : Matches toks s) : Matches (.lit c :: toks) (c :: s)
  | quest (c : Char) (hc : c ≠ '/') {toks : List Tok} {s : List Char} (h : Matches toks s) :
      Matches (.quest :: toks) (c :: s)
  | star (run : List Char) (hrun : '/' ∉ run) {toks : List Tok} {s : List Char} (h : Matches toks s) :
      Matches (.star :: toks) (run ++ s)
  | deep (run : List Char) {toks : List Tok} {s : List Char} (h : Matches toks s) : Matches (.deep :: toks) (run ++ s)
  | dirs (run : List Char) (hrun : run = [] ∨ run.getLast? = some '/') {toks : List Tok} {s : List Char}
      (h : Matches toks s) : Matches (.dirs :: toks) (run ++ s)

section Language

variable {toks : List Tok} {s : List Char}

theorem matches_nil_iff : Matches [] s ↔ s = [] := by
  constructor
  · rintro ⟨⟩
    rfl
  · rintro rfl
    exact .nil

theorem matches_lit_iff {c : Char} : Matches (.lit c :: toks) s ↔ ∃ rest, s = c :: rest ∧ Matches toks rest := by
  constructor
  · rintro ⟨⟩
    exact ⟨_, rfl, by assumption⟩
  · rintro ⟨rest, rfl, h⟩
    exact .lit c h

theorem matches_quest_iff : Matches (.quest :: toks) s ↔ ∃ c rest, s = c :: rest ∧ c ≠ '/' ∧ Matches toks rest := by
  constructor
  · rintro ⟨⟩
    exact ⟨_, _, rfl, by assumption, by assumption⟩
  · rintro ⟨c, rest, rfl, hc, h⟩
    exact .quest c hc h

theorem matches_star_iff : Matches (.star :: toks) s ↔ ∃ run rest, s = run ++ rest ∧ '/' ∉ run ∧ Matches toks rest := by
  constructor
  · rintro ⟨⟩
    exact ⟨_, _, rfl, by assumption, by assumption⟩
  · rintro ⟨run, rest, rfl, hrun, h⟩
    exact .star run hrun h

theorem matches_deep_iff : Matches (.deep :: toks) s ↔ ∃ run rest, s = run ++ rest ∧ Matches toks rest := by
  constructor
  · rintro ⟨⟩
    exact ⟨_, _, rfl, by assumption⟩
  · rintro ⟨run, rest, rfl, h⟩
    exact .deep run h

theorem matches_dirs_iff : Matches (.dirs :: toks) s ↔
    ∃ run rest, s = run ++ rest ∧ (run = [] ∨ run.getLast? = some '/') ∧ Matches toks rest := by
  constructor
  · rintro ⟨⟩
    exact ⟨_, _, rfl, by assumption, by assumption⟩
  · rintro ⟨run, rest, rfl, hrun, h⟩
    exact .dirs run hrun h

end Language

section Plain

variable {text : List Char} {i t : ℕ}

theorem exists_run_iff {P : List Char → List Char → Prop} (hi : i ≤ text.length) :
    (∃ run rest, text.drop i = run ++ rest ∧ P run rest) ↔
      ∃ t ∈ positions text i, P ((text.drop i).take (t - i)) (text.drop t) := by
  constructor
  · rintro ⟨run, rest, heq, h⟩
    have hlen := congrArg List.length heq
    rw [length_drop, length_append] at hlen
    refine ⟨i + run.length, mem_positions.mpr ⟨by omega, by omega⟩, ?_⟩
    rw [Nat.add_sub_cancel_left, ← drop_drop, heq, take_left' rfl, drop_left' rfl]
    exact h
  · rintro ⟨t, ht, h⟩
    have hit := (mem_positions.mp ht).1
    refine ⟨_, _, ?_, h⟩
    conv_lhs => rw [← take_append_drop (t - i) (text.drop i), drop_drop, Nat.add_sub_cancel' hit]

theorem mem_run_iff (hi : i ≤ t) :
    '/' ∈ (text.drop i).take (t - i) ↔ ∃ j, i < j ∧ j ≤ t ∧ afterSlash text j = true := by
  rw [mem_iff_getElem?]
  constructor
  · rintro ⟨k, hk⟩
    have hlt : k < t - i := by
      have := (List.getElem?_eq_some_iff.mp hk).1
      rw [length_take] at this
      omega
    rw [getElem?_take_of_lt hlt, getElem?_drop] at hk
    refine ⟨i + k + 1, by omega, by omega, ?_⟩
    rw [afterSlash, Nat.add_sub_cancel, hk]
    rfl
  · rintro ⟨j, hij, hjt, hj⟩
    refine ⟨j - 1 - i, ?_⟩
    rw [getElem?_take_of_lt (by omega), getElem?_drop, show i + (j - 1 - i) = j - 1 by omega]
    exact beq_iff_eq.mp hj

theorem getLast?_run (hi : i ≤ t) (ht : t ≤ text.length) :
    ((text.drop i).take (t - i) = [] ∨ ((text.drop i).take (t - i)).getLast? = some '/') ↔
      (t == i || afterSlash text t) = true := by
  have hlen : ((text.drop i).take (t - i)).length = t - i := by
    rw [length_take, length_drop]
    omega
  rcases hi.eq_or_lt with rfl | hlt
  · simp
  · have hne : ¬(text.drop i).take (t - i) = [] := by
      rw [← length_eq_zero_iff, hlen]
      omega
    rw [or_iff_right hne, List.getLast?_eq_getElem?, hlen, getElem?_take_of_lt (by omega), getElem?_drop,
      show i + (t - i - 1) = t - 1 by omega]
    simp [afterSlash, hlt.ne']

theorem mem_takeWhile_positions (ht : t ∈ positions text i) :
    t ∈ (positions text i).takeWhile (fun t => t == i || !afterSlash text t) ↔
      ∀ j, i < j → j ≤ t → afterSlash text j = false := by
  have hgo : ∀ n m, i ≤ m → t ∈ List.range' m n →
      (t ∈ (List.range' m n).takeWhile (fun t => t == i || !afterSlash text t) ↔
        ∀ j, i < j → m ≤ j → j ≤ t → afterSlash text j = false) := by
    intro n
    induction n with
    | zero => intro m _ hm; simp at hm
    | succ n ih =>
      intro m him hm
      have hmt : m ≤ t := (mem_range'_1.mp hm).1
      rw [range'_succ, takeWhile_cons]
      cases hat : m == i || !afterSlash text m with
      | false =>
        have hm' : i ≠ m ∧ afterSlash text m = true := by
          simpa only [or_eq_false_iff, beq_eq_false_iff_ne, ne_comm, not_eq_false'] using hat
        refine iff_of_false not_mem_nil fun h => ?_
        have := h m (lt_of_le_of_ne him hm'.1) le_rfl hmt
        rw [hm'.2] at this
        cases this
      | true =>
        have hfirst : i < m → afterSlash text m = false := fun hlt => by simpa [hlt.ne'] using hat
        rw [if_pos rfl, mem_cons]
        rcases hmt.eq_or_lt with rfl | hlt
        · refine iff_of_true (.inl rfl) fun j hij hmj hjt => ?_
          obtain rfl := le_antisymm hmj hjt
          exact hfirst hij
        · have hin : t ∈ List.range' (m + 1) n := by
            rw [mem_range'_1] at hm ⊢
            omega
          rw [or_iff_right hlt.ne', ih (m + 1) (by omega) hin]
          constructor
          · intro h j hij hmj hjt
            rcases hmj.eq_or_lt with rfl | hmj
            · exact hfirst hij
            · exact h j hij hmj hjt
          · intro h j hij hmj hjt
            exact h j hij (by omega) hjt
  rw [positions] at ht ⊢
  rw [hgo _ i le_rfl ht]
  exact forall_congr' fun j => forall_congr' fun hij => ⟨fun h => h hij.le, fun h _ => h⟩

/-- The plain recursion decides the language. -/
theorem plainAt_iff {p : List Char} (hi : i ≤ text.length) :
    plainAt text p i = true ↔ Matches (tokens p) (text.drop i) := by
  induction p, i using plainAt.induct with
  | case1 i =>
    rw [plainAt, tokens, matches_nil_iff, drop_eq_nil_iff, beq_iff_eq]
    omega
  | case2 p i ih =>
    rw [plainAt, tokens, matches_dirs_iff, exists_run_iff hi (P := fun run rest =>
      (run = [] ∨ run.getLast? = some '/') ∧ Matches (tokens p) rest), any_eq_true]
    refine exists_congr fun t => and_congr_right fun ht => ?_
    obtain ⟨hit, htl⟩ := mem_positions.mp ht
    rw [and_eq_true, getLast?_run hit htl, ih t htl]
  | case3 p i hnot ih =>
    rw [plainAt.eq_3 _ _ _ hnot, tokens.eq_3 _ hnot, matches_deep_iff, exists_run_iff hi (P := fun _ rest =>
      Matches (tokens p) rest), any_eq_true]
    exact exists_congr fun t => and_congr_right fun ht => ih t (mem_positions.mp ht).2
  | case4 p i hnot hnot' ih =>
    rw [plainAt.eq_4 _ _ _ hnot hnot', tokens.eq_4 _ hnot hnot', matches_star_iff, exists_run_iff hi
      (P := fun run rest => '/' ∉ run ∧ Matches (tokens p) rest), any_eq_true]
    have hin : ∀ t, t ∈ (positions text i).takeWhile (fun t => t == i || !afterSlash text t) →
        t ∈ positions text i := fun t ht => (takeWhile_sublist _).mem ht
    constructor
    · rintro ⟨t, ht, h⟩
      obtain ⟨hit, htl⟩ := mem_positions.mp (hin t ht)
      refine ⟨t, hin t ht, fun hslash => ?_, (ih t htl).mp h⟩
      obtain ⟨j, hij, hjt, hj⟩ := (mem_run_iff hit).mp hslash
      rw [(mem_takeWhile_positions (hin t ht)).mp ht j hij hjt] at hj
      cases hj
    · rintro ⟨t, ht, hslash, h⟩
      obtain ⟨hit, htl⟩ := mem_positions.mp ht
      refine ⟨t, (mem_takeWhile_positions ht).mpr fun j hij hjt => ?_, (ih t htl).mpr h⟩
      by_contra hj
      exact hslash ((mem_run_iff hit).mpr ⟨j, hij, hjt, by simpa using hj⟩)
  | case5 p i ih =>
    rw [plainAt, tokens, matches_quest_iff, and_eq_true, Option.any_eq_true]
    constructor
    · rintro ⟨⟨c, hc, hne⟩, h⟩
      obtain ⟨hlt, hget⟩ := List.getElem?_eq_some_iff.mp hc
      exact ⟨c, text.drop (i + 1), by rw [drop_eq_getElem_cons hlt, hget], by simpa using hne, (ih hlt).mp h⟩
    · rintro ⟨c, rest, hdrop, hne, h⟩
      obtain ⟨rfl, hlt⟩ := drop_of_cons hdrop.symm
      have hc : text[i]? = some c := by
        have := congrArg List.head? hdrop
        rwa [head?_drop, head?_cons] at this
      exact ⟨⟨c, hc, by simpa using hne⟩, (ih hlt).mpr h⟩
  | case6 c p i hnot hnot' hstar hquest ih =>
    rw [plainAt.eq_6 _ _ _ _ hnot hnot' hstar hquest, tokens.eq_6 _ _ hnot hnot' hstar hquest, matches_lit_iff,
      and_eq_true, beq_iff_eq]
    constructor
    · rintro ⟨hc, h⟩
      obtain ⟨hlt, hget⟩ := List.getElem?_eq_some_iff.mp hc
      exact ⟨text.drop (i + 1), by rw [drop_eq_getElem_cons hlt, hget], (ih hlt).mp h⟩
    · rintro ⟨rest, hdrop, h⟩
      obtain ⟨rfl, hlt⟩ := drop_of_cons hdrop.symm
      have hc : text[i]? = some c := by
        have := congrArg List.head? hdrop
        rwa [head?_drop, head?_cons] at this
      exact ⟨hc, (ih hlt).mpr h⟩

end Plain

/-! ### Paths -/

section Path

variable {sep : List Char} {ps qs : List (List Char)}

theorem intercalate_append (hp : ps ≠ []) (hq : qs ≠ []) :
    sep.intercalate (ps ++ qs) = sep.intercalate ps ++ (sep ++ sep.intercalate qs) := by
  induction ps with
  | nil => exact absurd rfl hp
  | cons p ps ih =>
    rcases eq_or_ne ps [] with rfl | hne
    · rw [singleton_append, intercalate_cons_of_ne_nil hq, intercalate_singleton, append_assoc]
    · rw [cons_append, intercalate_cons_of_ne_nil (append_ne_nil_of_left_ne_nil hne _), ih hne,
        intercalate_cons_of_ne_nil hne]
      simp

/-- The leading runs of a path's parts are its folders: what is before one of its slashes. -/
theorem exists_folder_iff {path : List Char} {P : List Char → Prop} :
    (∃ k, 1 ≤ k ∧ k < (path.splitOn '/').length ∧ P (['/'].intercalate ((path.splitOn '/').take k))) ↔
      ∃ folder rest, path = folder ++ '/' :: rest ∧ P folder := by
  constructor
  · rintro ⟨k, hk, hlt, h⟩
    refine ⟨_, ['/'].intercalate ((path.splitOn '/').drop k), ?_, h⟩
    have htake : (path.splitOn '/').take k ≠ [] := by
      rw [← length_pos_iff, length_take]
      omega
    have hdrop : (path.splitOn '/').drop k ≠ [] := by
      rw [← length_pos_iff, length_drop]
      omega
    have hsplit : ['/'].intercalate _ = _ := intercalate_append htake hdrop
    rwa [take_append_drop, intercalate_splitOn, singleton_append] at hsplit
  · rintro ⟨folder, rest, rfl, h⟩
    have hne : (folder.splitOn '/').length ≠ 0 := fun h => splitOn_ne_nil _ _ (length_eq_zero_iff.mp h)
    have hne' : (rest.splitOn '/').length ≠ 0 := fun h => splitOn_ne_nil _ _ (length_eq_zero_iff.mp h)
    refine ⟨(folder.splitOn '/').length, Nat.one_le_iff_ne_zero.mpr hne, ?_, ?_⟩
    · rw [splitOn_append_cons_self, length_append]
      omega
    · rwa [splitOn_append_cons_self, take_left' rfl, intercalate_splitOn]

/-- A search that stops at its first success. -/
theorem foldlM_found {g : ℕ → Bool} (l : List ℕ) (found : Bool) :
    l.foldlM (fun found k => if found then some true else some (g k)) found = some (found || l.any g) := by
  induction l generalizing found with
  | nil => rw [foldlM_nil, any_nil, Bool.or_false]; rfl
  | cons k l ih =>
    rw [foldlM_cons, any_cons]
    cases found with
    | true => exact (ih true).trans (by rw [Bool.true_or, Bool.true_or])
    | false => exact (ih (g k)).trans (by rw [Bool.false_or])

/-- A pattern matches, its table never left, the paths with a leading run in its language: the whole path unless the
pattern is for folders only, or a folder. -/
theorem pathMatches_spec (pattern path : String) :
    (∀ text pat, glob text pat = some (plainAt text pat 0)) ∧
      ∃ b, pathMatches pattern path = some b ∧
        (b = true ↔ trimmed pattern ≠ [] ∧
          (foldersOnly pattern = false ∧ Matches (tokens (trimmed pattern)) path.toList ∨
            ∃ folder rest, path.toList = folder ++ '/' :: rest ∧ Matches (tokens (trimmed pattern)) folder)) := by
  refine ⟨fun text pat => glob_eq, ?_⟩
  by_cases hp : trimmed pattern = []
  · exact ⟨false, by rw [pathMatches, if_pos hp], by simp [hp]⟩
  have hplain : ∀ text, plainAt text (trimmed pattern) 0 = true ↔ Matches (tokens (trimmed pattern)) text :=
    fun text => plainAt_iff (Nat.zero_le _)
  refine ⟨_, by simp only [pathMatches, if_neg hp, glob_eq, foldlM_found]; rfl, ?_⟩
  rw [Bool.false_or, any_eq_true, ← exists_folder_iff, and_iff_right hp]
  simp only [mem_filter, mem_range'_1, hplain, Bool.or_eq_true, decide_eq_true_eq, Bool.not_eq_true']
  have hone : 1 ≤ (path.toList.splitOn '/').length :=
    length_pos_iff.mpr (splitOn_ne_nil _ _)
  have hwhole : ['/'].intercalate ((path.toList.splitOn '/').take (path.toList.splitOn '/').length) = path.toList := by
    rw [take_length, intercalate_splitOn]
  constructor
  · rintro ⟨k, ⟨⟨hk, hkn⟩, hlt | hfolders⟩, h⟩
    · exact .inr ⟨k, hk, hlt, h⟩
    · rcases lt_or_ge k (path.toList.splitOn '/').length with hlt | hge
      · exact .inr ⟨k, hk, hlt, h⟩
      · obtain rfl : k = (path.toList.splitOn '/').length := by omega
        rw [hwhole] at h
        exact .inl ⟨hfolders, h⟩
  · rintro (⟨hfolders, h⟩ | ⟨k, hk, hlt, h⟩)
    · exact ⟨_, ⟨⟨hone, by omega⟩, .inr hfolders⟩, by rwa [hwhole]⟩
    · exact ⟨k, ⟨⟨hk, by omega⟩, .inl hlt⟩, h⟩

example : pathMatches "docs/**/k*/" "docs/a/b/keys/id" = some true := by decide +kernel

end Path

end DashForge.PathGlob
