import DashForge.Data.Lines

/-!
# Applying a suggested change

A review comment may suggest a text for the lines it is anchored at. Applying it replaces lines `startLine` to
`endLine` of the file, counted from 1, and keeps the file's line endings and whether a newline ends it.

That is what comes out except in two cases, which `Keeps` excludes. Where the file's last line is replaced and no
newline ends it, an empty line that comes to stand last reads as a newline at the end of the line before it. And a
line of the text that ends in a carriage return makes a `\r\n` with the bare `\n` it gets in a file without any.
-/

namespace DashForge

open Lines
open List Option

/-- Why a suggestion is refused. -/
inductive SuggestionError
  /-- `startLine` is 0, or after `endLine`. -/
  | badRange
  /-- `endLine` is past the file's last line. -/
  | outOfRange
  deriving DecidableEq, Repr

/-- Whether the first line ending of a file is a `\r\n`. -/
def isCrlf (file : List Char) : Bool :=
  (file.idxOf? '\n').any fun i => decide (0 < i) && file[i - 1]? == some '\r'

/-- The lines `applySuggestion` sees in a file. -/
def splitBody (file : List Char) : List (List Char) :=
  let normalized := replaceCrlf file
  let body := if ['\n'] <:+ normalized then normalized.dropLast else normalized
  if normalized = [] then [] else body.splitOn '\n'

/-- The lines `applySuggestion` puts in. -/
def splitText (text : List Char) : List (List Char) :=
  let replacement := replaceCrlf text
  if replacement = [] then [] else replacement.splitOn '\n'

/-- Replaces lines `startLine` to `endLine` of `file` with `text`. -/
def applySuggestion (file : List Char) (startLine endLine : ℕ) (text : List Char) :
    Except SuggestionError (List Char) :=
  if startLine = 0 ∨ endLine < startLine then .error .badRange
  else
    let nl := ending (isCrlf file)
    let lines := splitBody file
    if lines.length < endLine then .error .outOfRange
    else
      let lines := lines.take (startLine - 1) ++ splitText text ++ lines.drop endLine
      let out := nl.intercalate lines
      .ok (if ['\n'] <:+ file ∧ lines ≠ [] then out ++ nl else out)

/-! ### What the lines of the parts are -/

theorem splitBody_eq_linesOf (file : List Char) : splitBody file = linesOf file := by
  have hlast := getLast?_pieces (s := file)
  simp only [splitBody, replaceCrlf_eq_nil, newline_suffix_replaceCrlf]
  split
  · next h => subst h; rfl
  · next h =>
    rw [or_iff_right h] at hlast
    rw [linesOf]
    by_cases hnl : ['\n'] <:+ file
    · obtain ⟨t, ht⟩ := newline_suffix_replaceCrlf.mpr hnl
      rw [if_pos hnl, if_pos (hlast.mpr hnl), pieces, ← ht, dropLast_concat, splitOn_append_cons_self]
      rw [splitOn_nil, dropLast_concat]
    · rw [if_neg hnl, if_neg (mt hlast.mp hnl), pieces]

/-- The lines of a suggested text, none of which is ended but by those after it. An empty text has none. -/
def textLines (text : List Char) : List (List Char) := if text = [] then [] else pieces text

theorem splitText_eq_textLines (text : List Char) : splitText text = textLines text := by
  simp [splitText, textLines, replaceCrlf_eq_nil, pieces]

variable {text p file : List Char} {startLine endLine : ℕ}

theorem notMem_of_mem_textLines (h : p ∈ textLines text) : '\n' ∉ p := by
  rw [textLines] at h
  split at h
  · exact absurd h not_mem_nil
  · exact notMem_of_mem_pieces h

theorem isCrlf_append (hp : '\n' ∉ p) (s : List Char) : isCrlf (p ++ '\n' :: s) = true ↔ ['\r'] <:+ p := by
  have hidx : (p ++ '\n' :: s).idxOf? '\n' = some p.length := by
    induction p with
    | nil => rfl
    | cons c p ih =>
      rw [mem_cons, not_or] at hp
      rw [cons_append, idxOf?_cons, if_neg (by simpa using Ne.symm hp.1), ih hp.2]
      rfl
  rw [isCrlf, hidx, any_some, Bool.and_eq_true, decide_eq_true_eq, beq_iff_eq]
  rcases eq_nil_or_concat' p with rfl | ⟨q, c, rfl⟩
  · simp
  · have hc : (q ++ [c] ++ '\n' :: s)[(q ++ [c]).length - 1]? = some c := by simp
    rw [hc, some.injEq]
    refine ⟨fun h => h.2 ▸ suffix_append q _, fun ⟨t, ht⟩ => ⟨by simp, ?_⟩⟩
    exact (List.cons.inj (append_inj' ht rfl).2).1.symm

theorem isCrlf_iff (h : AllLf file ∨ AllCrlf file) : isCrlf file = true ↔ ¬AllLf file := by
  by_cases hnl : '\n' ∈ file
  · obtain ⟨p, s, rfl, hp⟩ := eq_append_cons_of_mem hnl
    rw [isCrlf_append hp]
    refine ⟨fun ⟨q, hq⟩ hlf => hlf ⟨q, s, by rw [← hq]; simp⟩, fun hlf => ?_⟩
    exact h.resolve_left hlf p s rfl
  · have hidx : file.idxOf? '\n' = none := idxOf?_eq_none_iff.mpr hnl
    rw [isCrlf, hidx, any_none]
    refine iff_of_false Bool.false_ne_true fun hlf => hlf fun hin => hnl (hin.subset ?_)
    exact mem_cons_of_mem _ mem_cons_self

/-! ### What comes out -/

/-- The pieces of the file with the suggestion in it. -/
def editedPieces (file : List Char) (startLine endLine : ℕ) (text : List Char) : List (List Char) :=
  (pieces file).take (startLine - 1) ++ textLines text ++ (pieces file).drop endLine

/-- The lines of the file with the suggestion in it. -/
def editedLines (file : List Char) (startLine endLine : ℕ) (text : List Char) : List (List Char) :=
  (linesOf file).take (startLine - 1) ++ textLines text ++ (linesOf file).drop endLine

theorem editedPieces_eq (hstart : 1 ≤ startLine) (hend : startLine ≤ endLine) (hlen : endLine ≤ (linesOf file).length) :
    editedPieces file startLine endLine text =
      editedLines file startLine endLine text ++ if ['\n'] <:+ file then [[]] else [] := by
  have hne : file ≠ [] := by
    rintro rfl
    exact absurd (hstart.trans (hend.trans hlen)) (by decide)
  have htake : startLine - 1 ≤ (linesOf file).length := by omega
  rw [editedPieces, editedLines, pieces_eq_linesOf_append hne, take_append_of_le_length htake,
    drop_append_of_le_length hlen, ← append_assoc]

/-- A newline ends the file where it did, by an empty piece after the last line. -/
theorem applySuggestion_eq (hstart : 1 ≤ startLine)
    (hend : startLine ≤ endLine) : applySuggestion file startLine endLine text =
    if (linesOf file).length < endLine then .error .outOfRange
    else .ok ((ending (isCrlf file)).intercalate (editedPieces file startLine endLine text)) := by
  rw [applySuggestion, if_neg (by omega)]
  simp only [splitBody_eq_linesOf, splitText_eq_textLines]
  split
  · rfl
  · next hlen =>
    rw [editedPieces_eq hstart hend (Nat.le_of_not_lt hlen), editedLines]
    generalize (linesOf file).take (startLine - 1) ++ textLines text ++ (linesOf file).drop endLine = lines
    by_cases hnl : ['\n'] <:+ file
    · rw [if_pos hnl]
      by_cases hlines : lines = []
      · rw [if_neg fun h => h.2 hlines, hlines]
        rfl
      · rw [if_pos ⟨hnl, hlines⟩, intercalate_concat hlines, append_nil]
    · rw [if_neg hnl, append_nil, if_neg fun h => hnl h.1]

/-- The file with `lines` for lines, its line endings and its end kept. -/
structure Edited (file out : List Char) (lines : List (List Char)) : Prop where
  lines_eq : linesOf out = lines
  lf : AllLf file → AllLf out
  crlf : ¬AllLf file → AllCrlf out
  trailing : lines ≠ [] → (['\n'] <:+ out ↔ ['\n'] <:+ file)
  empty : lines = [] → out = []

/-- The suggestion is refused for a line past the end, and else changes the lines it is anchored at and no other. -/
def EditsAnchored (file : List Char) (startLine endLine : ℕ) (text : List Char) : Prop :=
  (applySuggestion file startLine endLine text = .error .outOfRange ↔ (linesOf file).length < endLine) ∧
    (endLine ≤ (linesOf file).length → ∃ out, applySuggestion file startLine endLine text = .ok out ∧
      Edited file out (editedLines file startLine endLine text))

/-- The file's last line is replaced, and no newline ends it. -/
def Unended (file : List Char) (endLine : ℕ) : Prop := endLine = (linesOf file).length ∧ ¬['\n'] <:+ file

instance decidableUnended (file : List Char) (endLine : ℕ) : Decidable (Unended file endLine) :=
  inferInstanceAs (Decidable (_ ∧ _))

/-- What keeps a suggestion from changing what a line is. -/
structure Keeps (file : List Char) (startLine endLine : ℕ) (text : List Char) : Prop where
  /-- No empty line comes to stand last without a newline after it. -/
  last : Unended file endLine →
    if text = [] then startLine = 1 ∨ (linesOf file)[startLine - 2]? ≠ some [] else ¬['\n'] <:+ text
  /-- No line of the text that gets a bare newline ends in a carriage return. -/
  cr : AllLf file → ∀ l ∈ if Unended file endLine then (textLines text).dropLast else textLines text, ¬['\r'] <:+ l

theorem notMem_of_mem_editedPieces (h : p ∈ editedPieces file startLine endLine text) : '\n' ∉ p := by
  rw [editedPieces, mem_append, mem_append] at h
  rcases h with (h | h) | h
  · exact notMem_of_mem_pieces (mem_of_mem_take h)
  · exact notMem_of_mem_textLines h
  · exact notMem_of_mem_pieces (mem_of_mem_drop h)

section Anchored

variable {file text : List Char} {startLine endLine : ℕ}

variable (hstart : 1 ≤ startLine) (hend : startLine ≤ endLine) (hlen : endLine ≤ (linesOf file).length)

include hstart hend hlen in
theorem ne_nil_of_anchored : file ≠ [] := by
  rintro rfl
  exact absurd (hstart.trans (hend.trans hlen)) (by decide)

/-- Pieces come after the replaced lines unless the file's end is replaced. -/
theorem drop_pieces_eq_nil (hne : file ≠ []) (hlen : endLine ≤ (linesOf file).length) :
    (pieces file).drop endLine = [] ↔ Unended file endLine := by
  rw [pieces_eq_linesOf_append hne, drop_eq_nil_iff, length_append, Unended]
  split
  · next h => exact iff_of_false (by simp; omega) fun hu => hu.2 h
  · next h => exact ⟨fun hle => ⟨by simp at hle; omega, h⟩, fun hu => by simp [hu.1]⟩

theorem mem_dropLast_editedPieces (hne : file ≠ []) (hlen : endLine ≤ (linesOf file).length) {l : List Char}
    (h : l ∈ if Unended file endLine then (textLines text).dropLast else textLines text) :
    l ∈ (editedPieces file startLine endLine text).dropLast := by
  rw [editedPieces]
  split at h
  · next hu =>
    rw [(drop_pieces_eq_nil hne hlen).mpr hu, append_nil,
      dropLast_append_of_ne_nil fun hnil => not_mem_nil (hnil ▸ h)]
    exact mem_append_right _ h
  · next hu =>
    rw [dropLast_append_of_ne_nil (mt (drop_pieces_eq_nil hne hlen).mp hu)]
    exact mem_append_left _ (mem_append_right _ h)

include hstart hend hlen in
theorem mem_of_mem_dropLast_editedPieces {l : List Char}
    (h : l ∈ (editedPieces file startLine endLine text).dropLast) : l ∈ (pieces file).dropLast ∨
      l ∈ if Unended file endLine then (textLines text).dropLast else textLines text := by
  have hne := ne_nil_of_anchored hstart hend hlen
  have hlt : endLine ≤ (pieces file).length := by
    rw [pieces_eq_linesOf_append hne, length_append]
    exact hlen.trans (Nat.le_add_right _ _)
  have htake : (pieces file).take (startLine - 1) ⊆ (pieces file).dropLast := by
    rw [dropLast_eq_take]
    exact take_subset_take_left _ (by omega)
  rw [editedPieces] at h
  split
  · next hu =>
    rw [(drop_pieces_eq_nil hne hlen).mpr hu, append_nil] at h
    rcases eq_or_ne (textLines text) [] with hnil | hnil
    · rw [hnil, append_nil] at h
      exact .inl (htake (dropLast_subset _ h))
    · rw [dropLast_append_of_ne_nil hnil] at h
      exact (mem_append.mp h).imp_left fun h => htake h
  · next hu =>
    rw [dropLast_append_of_ne_nil (mt (drop_pieces_eq_nil hne hlen).mp hu), mem_append,
      mem_append, dropLast_drop_eq_drop_dropLast] at h
    rcases h with (h | h) | h
    exacts [.inl (htake h), .inr h, .inl (mem_of_mem_drop h)]

include hstart hend hlen in
theorem getLast?_editedLines (hnl : ¬['\n'] <:+ file) :
    (editedLines file startLine endLine text).getLast? = some [] ↔ Unended file endLine ∧
      if text = [] then startLine ≠ 1 ∧ (linesOf file)[startLine - 2]? = some [] else ['\n'] <:+ text := by
  have hne := ne_nil_of_anchored hstart hend hlen
  have hpieces : pieces file = linesOf file := by
    rw [pieces_eq_linesOf_append hne, if_neg hnl, append_nil]
  rw [editedLines]
  by_cases hu : Unended file endLine
  · rw [and_iff_right hu, hu.1, drop_length, append_nil]
    by_cases htext : text = []
    · rw [textLines, if_pos htext, if_pos htext, append_nil, getLast?_take]
      by_cases hone : startLine = 1
      · simp [hone]
      · have hget : (linesOf file)[startLine - 1 - 1]? = some (linesOf file)[startLine - 1 - 1] :=
          getElem?_eq_getElem (by omega)
        rw [if_neg (by omega), and_iff_right hone, hget, some_or, ← hget]
        rfl
    · have hpiece := getLast?_pieces (s := text)
      rw [or_iff_right htext] at hpiece
      rw [textLines, if_neg htext, if_neg htext, getLast?_append_of_ne_nil _ (pieces_ne_nil text), hpiece]
  · -- The file's last line stays, which is not empty.
    rw [← hpieces, getLast?_append_of_ne_nil _ (mt (drop_pieces_eq_nil hne hlen).mp hu), getLast?_drop]
    refine iff_of_false ?_ fun h => hu h.1
    split
    · exact (some_ne_none _).symm
    · rw [getLast?_pieces, or_iff_right hne]
      exact hnl

include hstart hend hlen in
theorem keeps_last_iff : (Unended file endLine →
      if text = [] then startLine = 1 ∨ (linesOf file)[startLine - 2]? ≠ some [] else ¬['\n'] <:+ text) ↔
    (¬['\n'] <:+ file → (editedLines file startLine endLine text).getLast? ≠ some []) := by
  by_cases hnl : ['\n'] <:+ file
  · exact iff_of_true (fun hu => absurd hnl hu.2) fun h => absurd hnl h
  · rw [forall_prop_of_true hnl]
    refine Iff.trans ?_ (not_congr (getLast?_editedLines hstart hend hlen hnl)).symm
    rw [not_and]
    refine imp_congr_right fun _ => ?_
    split
    · rw [not_and_or, not_not]
    · rfl

theorem Keeps.edited (hstyle : AllLf file ∨ AllCrlf file) (hstart : 1 ≤ startLine) (hend : startLine ≤ endLine)
    (hlen : endLine ≤ (linesOf file).length) (h : Keeps file startLine endLine text) :
    Edited file ((ending (isCrlf file)).intercalate (editedPieces file startLine endLine text))
      (editedLines file startLine endLine text) := by
  have hlast := (keeps_last_iff hstart hend hlen).mp h.last
  have heq : editedPieces file startLine endLine text = _ := editedPieces_eq hstart hend hlen
  have hnl : ∀ p ∈ editedPieces file startLine endLine text, '\n' ∉ p := fun p => notMem_of_mem_editedPieces
  have hcr : AllLf file → ∀ p ∈ (editedPieces file startLine endLine text).dropLast, ¬['\r'] <:+ p := fun hlf p hp =>
    (mem_of_mem_dropLast_editedPieces hstart hend hlen hp).elim (not_cr_of_mem_pieces hlf) (h.cr hlf p)
  have hcrlf : isCrlf file = false ↔ AllLf file := by
    rw [← Bool.not_eq_true, isCrlf_iff hstyle, not_not]
  generalize editedPieces file startLine endLine text = ps at heq hnl hcr ⊢
  generalize editedLines file startLine endLine text = lines at heq hlast ⊢
  have hpieces : ps ≠ [] → pieces ((ending (isCrlf file)).intercalate ps) = ps := fun hne =>
    pieces_intercalate _ hne hnl fun hf => hcr (hcrlf.mp hf)
  have hempty : lines = [] → (ending (isCrlf file)).intercalate ps = [] := fun hnil => by
    rw [heq, hnil]
    split <;> rfl
  have hlines : linesOf ((ending (isCrlf file)).intercalate ps) = lines := by
    by_cases hnil : lines = []
    · rw [hempty hnil, hnil]
      rfl
    · rw [linesOf, hpieces (by simp [heq, hnil]), heq]
      split
      · rw [if_pos getLast?_concat, dropLast_concat]
      · next hend => rw [append_nil, if_neg (hlast hend)]
  refine ⟨hlines, fun hlf => ?_, fun hlf => ?_, fun hne => ?_, hempty⟩
  · rw [hcrlf.mpr hlf]
    exact allLf_intercalate hnl (hcr hlf)
  · rw [(isCrlf_iff hstyle).mpr hlf]
    exact allCrlf_intercalate hnl
  · have hout : (ending (isCrlf file)).intercalate ps ≠ [] := fun hnil => hne (by rw [← hlines, hnil]; rfl)
    have hpiece := getLast?_pieces (s := (ending (isCrlf file)).intercalate ps)
    rw [or_iff_right hout, hpieces (by simp [heq, hne])] at hpiece
    rw [← hpiece, heq]
    split
    · next hend => exact iff_of_true getLast?_concat hend
    · next hend => exact iff_of_false (by rw [append_nil]; exact hlast hend) hend

theorem Edited.keeps (hstyle : AllLf file ∨ AllCrlf file) (hstart : 1 ≤ startLine) (hend : startLine ≤ endLine)
    (hlen : endLine ≤ (linesOf file).length)
    (h : Edited file ((ending (isCrlf file)).intercalate (editedPieces file startLine endLine text))
      (editedLines file startLine endLine text)) : Keeps file startLine endLine text := by
  refine ⟨(keeps_last_iff hstart hend hlen).mpr fun hnl hlast => ?_, fun hlf l hl => ?_⟩
  · have hne : editedLines file startLine endLine text ≠ [] := fun hnil => by
      rw [hnil] at hlast
      exact some_ne_none _ hlast.symm
    rw [← h.lines_eq] at hlast
    exact hnl ((h.trailing hne).mp (newline_suffix_of_getLast?_linesOf hlast))
  · -- Its newline makes a `\r\n` of the carriage return.
    rintro ⟨u, rfl⟩
    have hlf' := h.lf hlf
    rw [Bool.eq_false_iff.mpr (mt (isCrlf_iff hstyle).mp (not_not.mpr hlf))] at hlf'
    have hin : u ++ ['\r'] ++ ['\n'] <:+: ['\n'].intercalate (editedPieces file startLine endLine text) :=
      append_infix_intercalate (mem_dropLast_editedPieces (ne_nil_of_anchored hstart hend hlen) hlen hl)
    rw [append_assoc] at hin
    exact hlf' ((suffix_append u _).isInfix.trans hin)

end Anchored

/-- A suggestion is applied as it is meant exactly where it keeps what a line is. -/
theorem applySuggestion_spec {file text : List Char} {startLine endLine : ℕ} (hstyle : AllLf file ∨ AllCrlf file)
    (hstart : 1 ≤ startLine) (hend : startLine ≤ endLine) : EditsAnchored file startLine endLine text ↔
      (endLine ≤ (linesOf file).length → Keeps file startLine endLine text) := by
  rw [EditsAnchored, applySuggestion_eq hstart hend]
  by_cases hlen : (linesOf file).length < endLine
  · rw [if_pos hlen]
    refine iff_of_true ⟨iff_of_true rfl hlen, fun h => ?_⟩ fun h => ?_
    all_goals exact absurd hlen (Nat.not_lt.mpr h)
  · have hlen' := Nat.le_of_not_lt hlen
    rw [if_neg hlen, and_iff_right (iff_of_false (by simp) hlen), forall_prop_of_true hlen',
      forall_prop_of_true hlen']
    constructor
    · rintro ⟨out, hout, h⟩
      rw [← Except.ok.inj hout] at h
      exact h.keeps hstyle hstart hend hlen'
    · exact fun h => ⟨_, rfl, h.edited hstyle hstart hend hlen'⟩

/-- Lines 2 and 3 of a file made one. -/
theorem applySuggestion_spec_sample : EditsAnchored "a\nb\nc\n".toList 2 3 "d".toList :=
  (applySuggestion_spec (.inl (by decide)) (by decide) (by decide)).mpr fun _ =>
    ⟨fun hu => absurd hu (by decide), fun _ => by decide⟩

/-- Without its last line, a file that ends in none comes to end in a newline. -/
theorem applySuggestion_ends_newline :
    AllLf "a\n\nb".toList ∧ ¬EditsAnchored "a\n\nb".toList 3 3 [] := by
  refine ⟨by decide, ?_⟩
  have hout : applySuggestion "a\n\nb".toList 3 3 [] = .ok "a\n".toList := by decide
  rintro ⟨-, h⟩
  obtain ⟨out, hok, hedited⟩ := h (by decide)
  rw [hout] at hok
  have htrailing := hedited.trailing (by decide)
  rw [← Except.ok.inj hok] at htrailing
  exact absurd (htrailing.mp (by decide)) (by decide)

end DashForge
