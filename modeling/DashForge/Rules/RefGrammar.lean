import DashForge.Rules.RefName
import Mathlib.Computability.Language
import Mathlib.Data.List.Chain
import Mathlib.Data.List.TakeWhile

/-!
# The grammar of ref names

The contract's grammar of what follows `refs/` is `C((\.?/|\.)C)*`, over components `C`. `isLegalRefPath` decides it
with tests of substrings and of the parts between slashes; all of them are conditions on neighbouring characters and
on the two ends (`RefShape`), and a text of that shape falls into components (`isLegalRefPath_iff`).
-/

namespace DashForge

open Computability
open List

/-! ### The language -/

/-- A component: a non-empty run of other characters than dots, slashes and forbidden ones, without an `@` before an
opening brace. -/
def refComponent : Language Char :=
  {c | c ≠ [] ∧ (∀ x ∈ c, x ≠ '.' ∧ x ≠ '/' ∧ isForbiddenRefChar x = false) ∧ ¬['@', Char.ofNat 0x7b] <:+: c}

/-- What stands between components: a slash, which a dot may precede, or a dot. -/
def refSeparator : Language Char := (1 + {['.']}) * {['/']} + {['.']}

/-- The grammar of a ref name after `refs/`. -/
def refPathLanguage : Language Char := refComponent * (refSeparator * refComponent)∗

/-- A path as its first component and the rest. -/
inductive RefPath : List Char → Prop
  | component {c : List Char} (hc : c ∈ refComponent) : RefPath c
  | cons {c sep rest : List Char} (hc : c ∈ refComponent) (hsep : sep ∈ refSeparator) (hrest : RefPath rest) :
      RefPath (c ++ (sep ++ rest))

variable {sep l h c : List Char} {t : List (List Char)}

theorem mem_refSeparator : sep ∈ refSeparator ↔ sep = ['/'] ∨ sep = ['.', '/'] ∨ sep = ['.'] := by
  have hmem : ∀ {x y : List Char}, x ∈ ({y} : Language Char) ↔ x = y := Iff.rfl
  simp only [refSeparator, Language.mem_add, Language.mem_mul, Language.mem_one, hmem]
  constructor
  · rintro (⟨a, rfl | rfl, b, rfl, rfl⟩ | rfl)
    · exact .inl rfl
    · exact .inr (.inl rfl)
    · exact .inr (.inr rfl)
  · rintro (rfl | rfl | rfl)
    · exact .inl ⟨[], .inl rfl, ['/'], rfl, rfl⟩
    · exact .inl ⟨['.'], .inr rfl, ['/'], rfl, rfl⟩
    · exact .inr rfl

theorem mem_refPathLanguage {path : List Char} : path ∈ refPathLanguage ↔ RefPath path := by
  constructor
  · rintro ⟨c, hc, rest, ⟨parts, rfl, hparts⟩, rfl⟩
    induction parts generalizing c with
    | nil =>
      show RefPath (c ++ [])
      rw [append_nil]
      exact .component hc
    | cons part parts ih =>
      obtain ⟨sep, hsep, c', hc', rfl⟩ := hparts _ mem_cons_self
      have := ih c' hc' fun y hy => hparts y (mem_cons_of_mem _ hy)
      show RefPath (c ++ ((sep ++ c') ++ parts.flatten))
      rw [append_assoc]
      exact .cons hc hsep this
  · intro h
    induction h with
    | component hc => exact ⟨_, hc, [], Language.nil_mem_kstar _, append_nil _⟩
    | @cons c sep rest hc hsep hrest ih =>
      obtain ⟨c', hc', tail, ⟨parts, rfl, hparts⟩, rfl⟩ := ih
      refine ⟨c, hc, _, ⟨(sep ++ c') :: parts, rfl, fun y hy => ?_⟩, ?_⟩
      · rcases mem_cons.mp hy with rfl | hy
        · exact ⟨sep, hsep, c', hc', rfl⟩
        · exact hparts y hy
      · show c ++ ((sep ++ c') ++ parts.flatten) = c ++ (sep ++ (c' ++ parts.flatten))
        rw [append_assoc]

/-! ### The shape of a legal path -/

/-- Whether one character may stand before another. -/
def RefPair (a b : Char) : Prop :=
  ¬(a = '.' ∧ b = '.') ∧ ¬(a = '@' ∧ b = Char.ofNat 0x7b) ∧ ¬(a = '/' ∧ (b = '/' ∨ b = '.'))

/-- Whether a character may end a path, or start one. -/
def RefEnd (c : Char) : Prop := c ≠ '.' ∧ c ≠ '/'

structure RefShape (path : List Char) : Prop where
  ne_nil : path ≠ []
  chars : ∀ c ∈ path, isForbiddenRefChar c = false
  pairs : path.IsChain RefPair
  head : ∀ c ∈ path.head?, RefEnd c
  last : ∀ c ∈ path.getLast?, RefEnd c

theorem not_pair_infix_iff {a b : Char} : ¬[a, b] <:+: l ↔ l.IsChain fun x y => ¬(x = a ∧ y = b) := by
  rw [isChain_iff_forall_rel_of_append_cons_cons]
  constructor
  · rintro h x y l₁ l₂ rfl ⟨rfl, rfl⟩
    exact h ⟨l₁, l₂, by simp⟩
  · rintro h ⟨l₁, l₂, rfl⟩
    exact @h a b l₁ l₂ (by simp) ⟨rfl, rfl⟩

/-- A part between slashes. -/
def refPartOk (c : List Char) : Bool := !c.isEmpty && !decide (['.'] <+: c)

/-- Whether a text starts as a part between slashes does. -/
def StartsPart (l : List Char) : Prop := ∃ c v, l = c :: v ∧ RefEnd c

theorem refPartOk_head (hsplit : l.splitOn '/' = h :: t) : refPartOk h = true ↔ StartsPart l := by
  cases l with
  | nil =>
    rw [splitOn_nil] at hsplit
    obtain rfl := (List.cons.inj hsplit).1
    refine iff_of_false (by decide) ?_
    rintro ⟨c, v, hl, -⟩
    cases hl
  | cons x l =>
    rw [splitOn_cons_eq_if_modifyHead] at hsplit
    split at hsplit
    · next hx =>
      obtain rfl := (List.cons.inj hsplit).1
      refine iff_of_false (by decide) ?_
      rintro ⟨c, v, hl, -, hc⟩
      obtain ⟨rfl, -⟩ := List.cons.inj hl
      exact hc (by simpa using hx)
    · next hx =>
      obtain ⟨h', t', hl⟩ := exists_cons_of_ne_nil (splitOn_ne_nil '/' l)
      rw [hl, modifyHead_cons] at hsplit
      obtain rfl := (List.cons.inj hsplit).1
      rw [beq_iff_eq] at hx
      simp only [refPartOk, isEmpty_cons, Bool.not_false, Bool.true_and, Bool.not_eq_true',
        decide_eq_false_iff_not, cons_prefix_cons, List.nil_prefix, and_true]
      constructor
      · exact fun hdot => ⟨x, l, rfl, fun h => hdot h.symm, hx⟩
      · rintro ⟨c, v, hl, hdot, -⟩ rfl
        exact hdot (List.cons.inj hl).1.symm

theorem tail_splitOn_all (hsplit : l.splitOn '/' = h :: t) :
    t.all refPartOk = true ↔ ∀ u v, l = u ++ '/' :: v → StartsPart v := by
  induction l generalizing h t with
  | nil =>
    rw [splitOn_nil] at hsplit
    obtain rfl := (List.cons.inj hsplit).2
    exact iff_of_true rfl fun u v huv => by simp at huv
  | cons x l ih =>
    obtain ⟨h', t', hl⟩ := exists_cons_of_ne_nil (splitOn_ne_nil '/' l)
    rw [splitOn_cons_eq_if_modifyHead] at hsplit
    split at hsplit
    · next hx =>
      rw [beq_iff_eq] at hx
      subst hx
      obtain rfl := (List.cons.inj hsplit).2
      rw [hl, all_cons, Bool.and_eq_true, refPartOk_head hl, ih hl]
      constructor
      · rintro ⟨hstart, hrest⟩ u v huv
        cases u with
        | nil =>
          obtain rfl := (List.cons.inj huv).2
          exact hstart
        | cons y u => exact hrest u v (List.cons.inj huv).2
      · exact fun hall => ⟨hall [] l rfl, fun u v huv => hall ('/' :: u) v (by rw [huv, cons_append])⟩
    · next hx =>
      rw [beq_iff_eq] at hx
      rw [hl, modifyHead_cons] at hsplit
      obtain rfl := (List.cons.inj hsplit).2
      rw [ih hl]
      constructor
      · intro hall u v huv
        cases u with
        | nil => exact absurd (List.cons.inj huv).1 hx
        | cons y u => exact hall u v (List.cons.inj huv).2
      · exact fun hall u v huv => hall (x :: u) v (by rw [huv, cons_append])

theorem slashes_iff : (∀ u v, l = u ++ '/' :: v → StartsPart v) ↔
    l.IsChain (fun a b => ¬(a = '/' ∧ (b = '/' ∨ b = '.'))) ∧ l.getLast? ≠ some '/' := by
  rw [isChain_iff_forall_rel_of_append_cons_cons]
  constructor
  · refine fun hall => ⟨?_, fun hlast => ?_⟩
    · rintro a b u v rfl ⟨rfl, hb⟩
      obtain ⟨c, w, hcw, hc⟩ := hall u (b :: v) rfl
      obtain ⟨rfl, -⟩ := List.cons.inj hcw
      exact hb.elim hc.2 hc.1
    · obtain ⟨u, rfl⟩ := getLast?_eq_some_iff.mp hlast
      obtain ⟨c, w, hcw, -⟩ := hall u [] rfl
      cases hcw
  · rintro ⟨hpairs, hlast⟩ u v rfl
    cases v with
    | nil => exact absurd (by simp) hlast
    | cons b v => exact ⟨b, v, rfl, fun hb => hpairs rfl ⟨rfl, .inr hb⟩, fun hb => hpairs rfl ⟨rfl, .inl hb⟩⟩

theorem dot_suffix_iff {path : List Char} : ['.'] <:+ path ↔ path.getLast? = some '.' := by
  constructor
  · rintro ⟨u, rfl⟩
    exact getLast?_concat
  · intro hlast
    obtain ⟨u, rfl⟩ := getLast?_eq_some_iff.mp hlast
    exact suffix_append u ['.']

/-- The tests of a path are conditions on neighbouring characters and on its ends. -/
theorem isLegalRefPath_iff_shape {path : List Char} : isLegalRefPath path = true ↔ RefShape path := by
  obtain ⟨h, t, hsplit⟩ := exists_cons_of_ne_nil (splitOn_ne_nil '/' path)
  have hparts : (path.splitOn '/').all refPartOk = true ↔ StartsPart path ∧
      path.IsChain (fun a b => ¬(a = '/' ∧ (b = '/' ∨ b = '.'))) ∧ path.getLast? ≠ some '/' := by
    rw [hsplit, all_cons, Bool.and_eq_true, refPartOk_head hsplit, tail_splitOn_all hsplit, slashes_iff]
  have hunfold : isLegalRefPath path = (!path.isEmpty && !decide (['.', '.'] <:+: path)
    && !decide (['@', Char.ofNat 0x7b] <:+: path) && !decide (['.'] <:+ path) && !path.any isForbiddenRefChar
    && (path.splitOn '/').all refPartOk) := rfl
  simp only [hunfold, Bool.and_eq_true, hparts, Bool.not_eq_true', decide_eq_false_iff_not, not_pair_infix_iff,
    dot_suffix_iff, isEmpty_eq_false_iff, any_eq_false, Bool.not_eq_true,
    isChain_iff_forall_rel_of_append_cons_cons]
  constructor
  · rintro ⟨⟨⟨⟨⟨hne, hdots⟩, hbrace⟩, hlast⟩, hforbidden⟩, ⟨c, v, hcv, hc⟩, hslash, hlast'⟩
    refine ⟨hne, hforbidden, isChain_iff_forall_rel_of_append_cons_cons.mpr fun a b u v huv =>
      ⟨hdots huv, hbrace huv, hslash huv⟩, fun x hx => ?_, fun x hx => ⟨?_, ?_⟩⟩
    · obtain rfl : c = x := by simpa [hcv] using hx
      exact hc
    · rintro rfl
      exact hlast hx
    · rintro rfl
      exact hlast' hx
  · intro hshape
    have hpairs := isChain_iff_forall_rel_of_append_cons_cons.mp hshape.pairs
    refine ⟨⟨⟨⟨⟨hshape.ne_nil, fun a b u v huv => (hpairs huv).1⟩, fun a b u v huv => (hpairs huv).2.1⟩,
      fun hlast => ?_⟩,
      hshape.chars⟩, ?_, fun a b u v huv => (hpairs huv).2.2, fun hlast => ?_⟩
    · exact (hshape.last '.' hlast).1 rfl
    · obtain ⟨c, v, rfl⟩ := exists_cons_of_ne_nil hshape.ne_nil
      exact ⟨c, v, rfl, hshape.head c rfl⟩
    · exact (hshape.last '/' hlast).2 rfl

/-! ### Paths of components -/

theorem RefShape.of_component (hc : c ∈ refComponent) : RefShape c := by
  obtain ⟨hne, hchars, hbrace⟩ := hc
  refine ⟨hne, fun x hx => (hchars x hx).2.2, ?_, fun x hx => ?_, fun x hx => ?_⟩
  · refine (not_pair_infix_iff.mp hbrace).imp_of_mem_imp fun a b ha _ hab => ⟨fun h => ?_, hab, fun h => ?_⟩
    · exact (hchars a ha).1 h.1
    · exact (hchars a ha).2.1 h.1
  · have := hchars x (mem_of_mem_head? hx)
    exact ⟨this.1, this.2.1⟩
  · have := hchars x (mem_of_mem_getLast? hx)
    exact ⟨this.1, this.2.1⟩

theorem RefShape.cons {rest : List Char} (hc : c ∈ refComponent) (hsep : sep ∈ refSeparator) (hrest : RefShape rest) :
    RefShape (c ++ (sep ++ rest)) := by
  have hcomp := RefShape.of_component hc
  obtain ⟨x, v, rfl⟩ := exists_cons_of_ne_nil hrest.ne_nil
  have hx : RefEnd x := hrest.head x rfl
  have hsepPairs : (sep ++ x :: v).IsChain RefPair := by
    have hdot : RefPair '.' x := ⟨fun h => hx.1 h.2, fun h => absurd h.1 (by decide), fun h => absurd h.1 (by decide)⟩
    have hslash : RefPair '/' x :=
      ⟨fun h => absurd h.1 (by decide), fun h => absurd h.1 (by decide), fun h => h.2.elim hx.2 hx.1⟩
    have hboth : RefPair '.' '/' := by unfold RefPair; decide
    rcases mem_refSeparator.mp hsep with rfl | rfl | rfl
    · exact hrest.pairs.cons_cons hslash
    · exact (hrest.pairs.cons_cons hslash).cons_cons hboth
    · exact hrest.pairs.cons_cons hdot
  refine ⟨by simp, fun y hy => ?_, ?_, fun y hy => ?_, fun y hy => ?_⟩
  · rcases mem_append.mp hy with hy | hy
    · exact hcomp.chars y hy
    · rcases mem_append.mp hy with hy | hy
      · have hplain : (sep.all fun z => !isForbiddenRefChar z) = true := by
          rcases mem_refSeparator.mp hsep with rfl | rfl | rfl <;> decide +kernel
        exact (Bool.not_eq_true' _).mp (all_eq_true.mp hplain y hy)
      · exact hrest.chars y hy
  · refine hcomp.pairs.append hsepPairs fun a ha b hb => ?_
    have hend : RefEnd a := hcomp.last a ha
    have hb' : b = '/' ∨ b = '.' := by
      rcases mem_refSeparator.mp hsep with rfl | rfl | rfl <;> simp at hb <;> simp [← hb]
    refine ⟨fun h => hend.1 h.1, fun h => ?_, fun h => hend.2 h.1⟩
    rcases hb' with rfl | rfl
    · exact absurd h.2 (by decide)
    · exact absurd h.2 (by decide)
  · obtain ⟨z, w, rfl⟩ := exists_cons_of_ne_nil hcomp.ne_nil
    exact hcomp.head y hy
  · rw [← append_assoc, getLast?_append_cons] at hy
    exact hrest.last y hy

theorem RefPath.shape {path : List Char} (h : RefPath path) : RefShape path := by
  induction h with
  | component hc => exact .of_component hc
  | cons hc hsep _ ih => exact .cons hc hsep ih

/-- Whether a character is one of a component's. -/
def isPlain (c : Char) : Bool := c != '.' && c != '/'

theorem RefShape.suffix {u v : List Char} (h : RefShape (u ++ v)) (hv : StartsPart v) : RefShape v := by
  obtain ⟨c, w, rfl, hc⟩ := hv
  refine ⟨cons_ne_nil c w, fun x hx => h.chars x (mem_append_right u hx), h.pairs.right_of_append,
    fun x hx => ?_, fun x hx => h.last x ?_⟩
  · obtain rfl : c = x := by simpa using hx
    exact hc
  · rw [getLast?_append_cons]
    exact hx

theorem RefShape.takeWhile_mem {path : List Char} (h : RefShape path) : path.takeWhile isPlain ∈ refComponent := by
  obtain ⟨c, v, rfl⟩ := exists_cons_of_ne_nil h.ne_nil
  have hc : isPlain c = true := by
    have := h.head c rfl
    simpa [isPlain, RefEnd] using this
  have hbrace : ¬['@', Char.ofNat 0x7b] <:+: c :: v :=
    not_pair_infix_iff.mpr (h.pairs.imp fun _ _ hab => hab.2.1)
  refine ⟨by simp [hc], fun x hx => ?_, fun hin => hbrace (hin.trans ?_)⟩
  · have hplain := mem_takeWhile_imp hx
    rw [isPlain, Bool.and_eq_true, bne_iff_ne, bne_iff_ne] at hplain
    exact ⟨hplain.1, hplain.2, h.chars x ((List.takeWhile_prefix _).subset hx)⟩
  · exact (List.takeWhile_prefix _).isInfix

theorem RefShape.path {path : List Char} (h : RefShape path) : RefPath path := by
  induction hn : path.length using Nat.strong_induction_on generalizing path with
  | _ n ih =>
    subst hn
    have hc := h.takeWhile_mem
    have hsplit := takeWhile_append_dropWhile (p := isPlain) (l := path)
    have hpos : 0 < (path.takeWhile isPlain).length := length_pos_of_ne_nil hc.1
    cases hrest : path.dropWhile isPlain with
    | nil =>
      rw [hrest, append_nil] at hsplit
      rw [hsplit] at hc
      exact .component hc
    | cons x v =>
      have hx : x = '.' ∨ x = '/' := by
        have hnot := head_dropWhile_not isPlain (by rw [hrest]; exact cons_ne_nil x v)
        simp only [hrest, head_cons, isPlain, Bool.and_eq_false_iff, bne_eq_false_iff_eq] at hnot
        exact hnot
      rw [hrest] at hsplit
      set c := path.takeWhile isPlain
      -- What follows the separator is a shorter path of the legal shape.
      have hnext : ∀ sep w, sep ∈ refSeparator → x :: v = sep ++ w → StartsPart w → RefPath path := by
        intro sep w hsep hsepw hw
        rw [hsepw] at hsplit
        have hshape : RefShape w := by
          refine RefShape.suffix (u := c ++ sep) ?_ hw
          rw [append_assoc, hsplit]
          exact h
        have hlen : w.length < path.length := by
          rw [← hsplit, length_append, length_append]
          omega
        rw [← hsplit]
        exact .cons hc hsep (ih w.length hlen hshape rfl)
      have hpairs : (x :: v).IsChain RefPair := by
        have := h.pairs
        rw [← hsplit] at this
        exact this.right_of_append
      have hlast : ∀ y ∈ (x :: v).getLast?, RefEnd y := fun y hy => h.last y (by
        rw [← hsplit, getLast?_append_cons]
        exact hy)
      cases v with
      | nil =>
        have := hlast x rfl
        exact absurd hx (not_or.mpr this)
      | cons y w =>
        obtain ⟨hxy, hpairs'⟩ := isChain_cons_cons.mp hpairs
        rcases hx with rfl | rfl
        · by_cases hy : y = '/'
          · subst hy
            cases w with
            | nil => exact absurd rfl (hlast '/' rfl).2
            | cons z w =>
              have hz := (isChain_cons_cons.mp hpairs').1
              exact hnext ['.', '/'] (z :: w) (mem_refSeparator.mpr (.inr (.inl rfl))) rfl
                ⟨z, w, rfl, fun h => hz.2.2 ⟨rfl, .inr h⟩, fun h => hz.2.2 ⟨rfl, .inl h⟩⟩
          · exact hnext ['.'] (y :: w) (mem_refSeparator.mpr (.inr (.inr rfl))) rfl
              ⟨y, w, rfl, fun h => hxy.1 ⟨rfl, h⟩, hy⟩
        · exact hnext ['/'] (y :: w) (mem_refSeparator.mpr (.inl rfl)) rfl
            ⟨y, w, rfl, fun h => hxy.2.2 ⟨rfl, .inr h⟩, fun h => hxy.2.2 ⟨rfl, .inl h⟩⟩

/-- The tests accept exactly the grammar. -/
theorem isLegalRefPath_iff_mem {path : List Char} : isLegalRefPath path = true ↔ path ∈ refPathLanguage := by
  rw [isLegalRefPath_iff_shape, mem_refPathLanguage]
  exact ⟨RefShape.path, RefPath.shape⟩

/-- A legal path's characters are not forbidden. -/
theorem not_mem_of_isLegalRefPath {path : List Char} (h : isLegalRefPath path = true) {c : Char}
    (hc : isForbiddenRefChar c = true) : c ∉ path := fun hmem => by
  have := (isLegalRefPath_iff_shape.mp h).chars c hmem
  rw [hc] at this
  cases this

theorem isLegalRefName_iff {name : String} : isLegalRefName name = true ↔ name.utf8ByteSize ≤ maxRefNameBytes ∧
    (∃ path ∈ refPathLanguage, name.toList = "refs/".toList ++ path) ∧ ¬".lock".toList <:+ name.toList := by
  simp only [isLegalRefName, Bool.and_eq_true, decide_eq_true_eq, Bool.not_eq_true', decide_eq_false_iff_not,
    Option.any_eq_true, dropPrefix?_eq_some_iff, and_assoc, isLegalRefPath_iff_mem]
  refine and_congr_right fun _ => and_congr_left fun _ => ?_
  constructor
  · rintro ⟨path, ⟨pre, heq, hpre⟩, hpath⟩
    exact ⟨path, hpath, by rw [heq, eq_of_beq hpre]⟩
  · rintro ⟨path, hpath, heq⟩
    exact ⟨path, ⟨_, heq, beq_self_eq_true _⟩, hpath⟩

/-- The path test accepts exactly the contract's grammar; so a legal name is at most 255 bytes of `refs/` and that
grammar, does not end in `.lock`, and holds no newline, NUL or space. -/
theorem isLegalRefPath_spec :
    (∀ path : List Char, isLegalRefPath path = true ↔ path ∈ refPathLanguage) ∧
    (∀ name : String, isLegalRefName name = true ↔ name.utf8ByteSize ≤ maxRefNameBytes ∧
      (∃ path ∈ refPathLanguage, name.toList = "refs/".toList ++ path) ∧ ¬".lock".toList <:+ name.toList) ∧
    ∀ name : String, isLegalRefName name = true → '\n' ∉ name.toList ∧ Char.ofNat 0 ∉ name.toList ∧
        ' ' ∉ name.toList := by
  refine ⟨fun path => isLegalRefPath_iff_mem, fun name => isLegalRefName_iff, fun name h => ?_⟩
  obtain ⟨-, ⟨path, hpath, heq⟩, -⟩ := isLegalRefName_iff.mp h
  have hnot : ∀ c, isForbiddenRefChar c = true → c ∉ "refs/".toList → c ∉ name.toList := by
    intro c hc hpre hmem
    rw [heq] at hmem
    exact (List.mem_append.mp hmem).elim hpre (not_mem_of_isLegalRefPath (isLegalRefPath_iff_mem.mpr hpath) hc)
  exact ⟨hnot _ (by decide) (by decide), hnot _ (by decide) (by decide), hnot _ (by decide) (by decide)⟩

end DashForge
