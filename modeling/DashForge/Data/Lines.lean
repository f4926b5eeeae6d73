import Mathlib.Data.List.Infix
import Mathlib.Data.String.Basic

/-!
# Lines of a text

A text as lines that end in `\n` or `\r\n`. Its pieces are what stands between its line endings (`pieces`), and its
lines are these less an empty piece at the end, where the last line is ended (`linesOf`). Pieces joined by one kind
of ending are read back, unless a carriage return at the end of a piece merges with a bare `\n` (`pieces_intercalate`).
-/

namespace DashForge.Lines

open List

/-! ### Line endings -/

/-- A text with every `\r\n` made a `\n`. -/
def replaceCrlf : List Char → List Char
  | [] => []
  | '\r' :: '\n' :: cs => '\n' :: replaceCrlf cs
  | c :: cs => c :: replaceCrlf cs

/-- A line ending. -/
def ending (crlf : Bool) : List Char := if crlf then ['\r', '\n'] else ['\n']

/-- No line ends in `\r\n`. -/
def AllLf (s : List Char) : Prop := ¬['\r', '\n'] <:+: s

/-- Every line ends in `\r\n`. -/
def AllCrlf (s : List Char) : Prop := ∀ u v, s = u ++ '\n' :: v → ['\r'] <:+ u

instance decidableAllLf (s : List Char) : Decidable (AllLf s) := inferInstanceAs (Decidable ¬_)

variable {c : Char} {l sep : List Char}

theorem replaceCrlf_cons {cs : List Char} (h : c ≠ '\r' ∨ ∀ cs', cs ≠ '\n' :: cs') :
    replaceCrlf (c :: cs) = c :: replaceCrlf cs := by
  rw [replaceCrlf]
  rintro cs' rfl rfl
  exact h.elim (fun hc => hc rfl) fun hcs => hcs cs' rfl

variable {s p : List Char} {ps : List (List Char)}

theorem replaceCrlf_eq_self (h : AllLf s) : replaceCrlf s = s := by
  induction s with
  | nil => rfl
  | cons c s ih =>
    rw [replaceCrlf_cons, ih fun hin => h (hin.trans (suffix_cons c s).isInfix)]
    by_contra hnot
    rw [not_or, not_not] at hnot
    obtain ⟨rfl, hs⟩ := hnot
    obtain ⟨s, rfl⟩ := not_forall_not.mp hs
    exact h ⟨[], s, rfl⟩

theorem replaceCrlf_append_crlf (h : '\n' ∉ l) (m : List Char) :
    replaceCrlf (l ++ '\r' :: '\n' :: m) = l ++ '\n' :: replaceCrlf m := by
  induction l with
  | nil => rfl
  | cons c l ih =>
    rw [mem_cons, not_or] at h
    rw [cons_append, replaceCrlf_cons, ih h.2, cons_append]
    refine .inr fun cs' hcs => ?_
    cases l with
    | nil => exact absurd (List.cons.inj hcs).1 (by decide)
    | cons d l => exact h.2 (by rw [(List.cons.inj hcs).1]; exact mem_cons_self)

theorem replaceCrlf_append_lf (h : '\n' ∉ l) (hcr : ¬['\r'] <:+ l) (m : List Char) :
    replaceCrlf (l ++ '\n' :: m) = l ++ '\n' :: replaceCrlf m := by
  induction l with
  | nil => exact replaceCrlf_cons (.inl (by decide))
  | cons c l ih =>
    rw [mem_cons, not_or] at h
    rw [cons_append, replaceCrlf_cons, ih h.2 fun hsuf => hcr (hsuf.trans (suffix_cons c l)),
      cons_append]
    cases l with
    | nil =>
      refine .inl ?_
      rintro rfl
      exact hcr (suffix_refl _)
    | cons d l =>
      refine .inr fun cs' hcs => h.2 ?_
      rw [(List.cons.inj hcs).1]
      exact mem_cons_self

theorem replaceCrlf_eq_nil : replaceCrlf s = [] ↔ s = [] := by
  cases s with
  | nil => exact iff_of_true rfl rfl
  | cons c s =>
    refine iff_of_false ?_ (cons_ne_nil c s)
    rw [replaceCrlf.eq_def]
    split <;> simp_all

theorem getLast?_replaceCrlf (s : List Char) : (replaceCrlf s).getLast? = s.getLast? := by
  induction s using replaceCrlf.induct with
  | case1 => rfl
  | case2 cs ih =>
    rw [replaceCrlf]
    cases cs with
    | nil => rfl
    | cons d cs =>
      obtain ⟨e, es, he⟩ := exists_cons_of_ne_nil (mt replaceCrlf_eq_nil.mp (cons_ne_nil d cs))
      rw [he] at ih ⊢
      rw [getLast?_cons_cons, getLast?_cons_cons, getLast?_cons_cons, ih]
  | case3 c cs hnot ih =>
    rw [replaceCrlf_cons]
    · cases cs with
      | nil => rfl
      | cons d cs =>
        obtain ⟨e, es, he⟩ := exists_cons_of_ne_nil (mt replaceCrlf_eq_nil.mp (cons_ne_nil d cs))
        rw [he] at ih ⊢
        rw [getLast?_cons_cons, getLast?_cons_cons, ih]
    · by_contra h
      rw [not_or, not_not] at h
      obtain ⟨cs', hcs⟩ := not_forall_not.mp h.2
      exact hnot cs' h.1 hcs

/-! ### Pieces and lines -/

/-- What stands between the line endings of a text. -/
def pieces (s : List Char) : List (List Char) := (replaceCrlf s).splitOn '\n'

/-- The lines of a text. -/
def linesOf (s : List Char) : List (List Char) :=
  if (pieces s).getLast? = some [] then (pieces s).dropLast else pieces s

theorem pieces_ne_nil (s : List Char) : pieces s ≠ [] := splitOn_ne_nil _ _

theorem notMem_splitOn {a : Char} (h : p ∈ s.splitOn a) : a ∉ p := by
  induction s generalizing p with
  | nil =>
    rw [splitOn_nil, mem_singleton] at h
    subst h
    exact not_mem_nil
  | cons c s ih =>
    rw [splitOn_cons_eq_if_modifyHead] at h
    split at h
    · rcases mem_cons.mp h with rfl | h
      · exact not_mem_nil
      · exact ih h
    · next hc =>
      obtain ⟨q, qs, hq⟩ := exists_cons_of_ne_nil (splitOn_ne_nil a s)
      rw [hq, modifyHead_cons] at h
      rcases mem_cons.mp h with rfl | h
      · rw [mem_cons, not_or]
        exact ⟨fun hac => hc (by rw [hac, beq_self_eq_true]), ih (by rw [hq]; exact mem_cons_self)⟩
      · exact ih (by rw [hq]; exact mem_cons_of_mem q h)

theorem notMem_of_mem_pieces (h : p ∈ pieces s) : '\n' ∉ p := notMem_splitOn h

/-- A text up to its last newline, if it has one. -/
theorem exists_last_newline (s : List Char) : '\n' ∉ s ∨ ∃ a b, s = a ++ '\n' :: b ∧ '\n' ∉ b := by
  induction s with
  | nil => exact .inl not_mem_nil
  | cons c s ih =>
    rcases ih with hnone | ⟨a, b, rfl, hb⟩
    · by_cases hc : c = '\n'
      · exact .inr ⟨[], s, by rw [hc, nil_append], hnone⟩
      · exact .inl (by rw [mem_cons, not_or]; exact ⟨fun h => hc h.symm, hnone⟩)
    · exact .inr ⟨c :: a, b, rfl, hb⟩

theorem getLast?_splitOn : (s.splitOn '\n').getLast? = some [] ↔ s = [] ∨ ['\n'] <:+ s := by
  rcases exists_last_newline s with hnone | ⟨a, b, rfl, hb⟩
  · rw [splitOn_eq_singleton hnone, getLast?_singleton, Option.some.injEq]
    refine (or_iff_left fun hsuf => hnone ?_).symm
    exact hsuf.subset mem_cons_self
  · rw [splitOn_append_cons_self, splitOn_eq_singleton hb, getLast?_concat, Option.some.injEq]
    constructor
    · rintro rfl
      exact .inr (suffix_append a ['\n'])
    · rintro (h | ⟨t, ht⟩)
      · simp at h
      · rcases eq_nil_or_concat' b with rfl | ⟨b', c, rfl⟩
        · rfl
        · rw [← cons_append, ← append_assoc] at ht
          obtain ⟨-, hc⟩ := append_inj' ht rfl
          exact absurd (by rw [(List.cons.inj hc).1]; simp) hb

theorem newline_suffix_replaceCrlf : ['\n'] <:+ replaceCrlf s ↔ ['\n'] <:+ s := by
  have hlast : ∀ t : List Char, ['\n'] <:+ t ↔ t.getLast? = some '\n' := fun t => by
    rw [getLast?_eq_some_iff]
    exact ⟨fun ⟨u, hu⟩ => ⟨u, hu.symm⟩, fun ⟨u, hu⟩ => ⟨u, hu.symm⟩⟩
  rw [hlast, hlast, getLast?_replaceCrlf]

theorem getLast?_pieces : (pieces s).getLast? = some [] ↔ s = [] ∨ ['\n'] <:+ s := by
  rw [pieces, getLast?_splitOn, replaceCrlf_eq_nil, newline_suffix_replaceCrlf]

theorem pieces_intercalate (crlf : Bool) (hne : ps ≠ []) (hnl : ∀ p ∈ ps, '\n' ∉ p)
    (hcr : crlf = false → ∀ p ∈ ps.dropLast, ¬['\r'] <:+ p) : pieces ((ending crlf).intercalate ps) = ps := by
  have hreplace : replaceCrlf ((ending crlf).intercalate ps) = ['\n'].intercalate ps := by
    clear hne
    induction ps with
    | nil => rfl
    | cons p ps ih =>
      have hp := hnl p mem_cons_self
      cases ps with
      | nil =>
        rw [intercalate_singleton, intercalate_singleton]
        refine replaceCrlf_eq_self fun hin => hp (hin.subset ?_)
        exact mem_cons_of_mem _ mem_cons_self
      | cons q qs =>
        have ih' := ih (fun r hr => hnl r (mem_cons_of_mem p hr)) fun hlf r hr =>
          hcr hlf r (mem_cons_of_mem p hr)
        rw [intercalate_cons_cons, intercalate_cons_cons, ← ih', append_assoc, append_assoc]
        cases crlf with
        | true => exact replaceCrlf_append_crlf hp _
        | false => exact replaceCrlf_append_lf hp (hcr rfl p mem_cons_self) _
  rw [pieces, hreplace, splitOn_intercalate '\n' hnl hne]

theorem append_infix_intercalate (h : p ∈ ps.dropLast) : p ++ sep <:+: sep.intercalate ps := by
  induction ps with
  | nil => exact absurd h not_mem_nil
  | cons q ps ih =>
    cases ps with
    | nil => exact absurd h not_mem_nil
    | cons r rs =>
      rw [intercalate_cons_cons]
      rw [dropLast_cons_cons] at h
      rcases mem_cons.mp h with rfl | h
      · exact (prefix_append _ _).isInfix
      · exact (ih h).trans (suffix_append _ _).isInfix

theorem not_cr_of_mem_pieces (h : AllLf s) (hp : p ∈ (pieces s).dropLast) : ¬['\r'] <:+ p := by
  rintro ⟨u, rfl⟩
  have hs : ['\n'].intercalate (pieces s) = s := by
    rw [pieces, replaceCrlf_eq_self h, intercalate_splitOn]
  have hin : u ++ ['\r'] ++ ['\n'] <:+: ['\n'].intercalate (pieces s) := append_infix_intercalate hp
  rw [hs, append_assoc] at hin
  exact h ((suffix_append u _).isInfix.trans hin)

theorem exists_splitOn_concat (hc : c ≠ '\n') (s : List Char) : ∃ qs q, (s ++ [c]).splitOn '\n' = qs ++ [q ++ [c]] := by
  rcases exists_last_newline s with hnone | ⟨a, b, rfl, hb⟩
  · refine ⟨[], s, splitOn_eq_singleton fun hin => ?_⟩
    rcases mem_append.mp hin with hin | hin
    exacts [hnone hin, hc (mem_singleton.mp hin).symm]
  · refine ⟨a.splitOn '\n', b, ?_⟩
    have hbc : '\n' ∉ b ++ [c] := fun hin => (mem_append.mp hin).elim hb fun hin =>
      hc (mem_singleton.mp hin).symm
    rw [append_assoc, cons_append, splitOn_append_cons_self, splitOn_eq_singleton hbc]

theorem allLf_intercalate (hnl : ∀ p ∈ ps, '\n' ∉ p)
    (hcr : ∀ p ∈ ps.dropLast, ¬['\r'] <:+ p) : AllLf (['\n'].intercalate ps) := by
  rintro ⟨u, v, huv⟩
  rcases eq_or_ne ps [] with rfl | hne
  · simp at huv
  have hps := splitOn_intercalate '\n' hnl hne
  rw [← huv, show u ++ ['\r', '\n'] ++ v = (u ++ ['\r']) ++ '\n' :: v by simp, splitOn_append_cons_self] at hps
  obtain ⟨qs, q, hq⟩ := exists_splitOn_concat (show '\r' ≠ '\n' by decide) u
  -- The piece before that newline is not the last one.
  refine hcr (q ++ ['\r']) ?_ (suffix_append q _)
  rw [← hps, dropLast_append_of_ne_nil (splitOn_ne_nil _ _), hq]
  exact mem_append_left _ (mem_append_right _ mem_cons_self)

theorem AllCrlf.append (hp : '\n' ∉ p) (hs : AllCrlf s) : AllCrlf (p ++ '\r' :: '\n' :: s) := by
  intro u v h
  rcases append_eq_append_iff.mp h with ⟨w, rfl, hw⟩ | ⟨w, rfl, hw⟩
  · refine .trans ?_ (suffix_append p w)
    -- The newline after `p`, or one of `s`.
    rcases w with _ | ⟨d, _ | ⟨e, w⟩⟩
    · exact absurd (List.cons.inj hw).1 (by decide)
    · rw [(List.cons.inj hw).1]
    · exact (hs w v (List.cons.inj (List.cons.inj hw).2).2).trans (suffix_append [d, e] w)
  · rcases w with _ | ⟨d, w⟩
    · exact absurd (List.cons.inj hw).1 (by decide)
    · refine absurd (mem_append_right u ?_) hp
      rw [(List.cons.inj hw).1]
      exact mem_cons_self

theorem allCrlf_intercalate (hnl : ∀ p ∈ ps, '\n' ∉ p) : AllCrlf (['\r', '\n'].intercalate ps) := by
  induction ps with
  | nil => exact fun u v h => by simp at h
  | cons p ps ih =>
    have hp := hnl p mem_cons_self
    cases ps with
    | nil =>
      rw [intercalate_singleton]
      exact fun u v h => absurd (by rw [h]; exact mem_append_right u mem_cons_self) hp
    | cons q qs =>
      rw [intercalate_cons_cons, append_assoc]
      exact .append hp (ih fun r hr => hnl r (mem_cons_of_mem p hr))

/-- A newline at the end leaves an empty piece after the lines. -/
theorem pieces_eq_linesOf_append (hs : s ≠ []) : pieces s = linesOf s ++ if ['\n'] <:+ s then [[]] else [] := by
  have hlast := getLast?_pieces (s := s)
  rw [or_iff_right hs] at hlast
  rw [linesOf]
  split
  · next h =>
    rw [if_pos (hlast.mp h)]
    obtain ⟨t, ht⟩ := getLast?_eq_some_iff.mp h
    rw [ht, dropLast_concat]
  · next h => rw [if_neg (mt hlast.mpr h), append_nil]

theorem newline_suffix_of_getLast?_linesOf (h : (linesOf s).getLast? = some []) : ['\n'] <:+ s := by
  by_contra hnl
  rcases eq_or_ne s [] with rfl | hs
  · exact Option.some_ne_none _ h.symm
  · have hpieces := pieces_eq_linesOf_append hs
    rw [if_neg hnl, append_nil] at hpieces
    rw [← hpieces, getLast?_pieces] at h
    exact h.elim hs hnl

theorem intercalate_concat (h : ps ≠ []) (p : List Char) :
    sep.intercalate (ps ++ [p]) = sep.intercalate ps ++ sep ++ p := by
  induction ps with
  | nil => exact absurd rfl h
  | cons q ps ih =>
    cases ps with
    | nil =>
      rw [singleton_append, intercalate_cons_cons, intercalate_singleton, intercalate_singleton]
    | cons r rs =>
      rw [cons_append, cons_append, intercalate_cons_cons, intercalate_cons_cons,
        ← cons_append, ih (cons_ne_nil r rs), ← append_assoc, ← append_assoc]

theorem linesOf_flatMap (hnl : ∀ p ∈ ps, '\n' ∉ p) (hcr : ∀ p ∈ ps, ¬['\r'] <:+ p) :
    linesOf (ps.flatMap fun p => p ++ ['\n']) = ps := by
  have hjoin : ps.flatMap (fun p => p ++ ['\n']) = (ending false).intercalate (ps ++ [[]]) := by
    induction ps with
    | nil => rfl
    | cons p ps ih =>
      rw [flatMap_cons, ih (fun q hq => hnl q (mem_cons_of_mem p hq)) fun q hq => hcr q (mem_cons_of_mem p hq),
        cons_append, intercalate_cons_of_ne_nil (by simp)]
      rfl
  have hpieces : pieces (ps.flatMap fun p => p ++ ['\n']) = ps ++ [[]] := by
    rw [hjoin]
    refine pieces_intercalate false (by simp) (fun p hp => ?_) fun _ p hp => hcr p (by simpa using hp)
    rcases mem_append.mp hp with hp | hp
    · exact hnl p hp
    · rw [mem_singleton.mp hp]
      exact not_mem_nil
  rw [linesOf, hpieces, getLast?_concat, if_pos rfl, dropLast_concat]

end DashForge.Lines
