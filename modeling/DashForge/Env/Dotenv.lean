import DashForge.Data.Except
import DashForge.Data.Lines
import DashForge.Data.ShellWords
import DashForge.Data.SortedMap
import DashForge.Data.Utf8

/-!
# Variables as `.env` text

`renderDotenv` writes variables as `NAME=value` lines and `parseDotenv` reads such a text (`env/format.rs`). A value
is written bare, in single or in double quotes, by its characters; a double-quoted value that is read may span lines.

What is written is meant for two readers. `parseDotenv` reads it back exactly (`parseDotenv_renderDotenv`), line by
line (`parseRound_renderVar`); a shell that sources it makes the assignments and does nothing else
(`source_renderDotenv`), but takes the `\n`, `\r` and `\t` of a double-quoted value as two characters each
(`shellValue`).
-/

namespace DashForge.Dotenv

open List

/-- A line that could not be read, and what is wrong. -/
structure DotenvError where
  /-- The 1-based line. -/
  line : ℕ
  why : String
deriving DecidableEq

/-- Whether a name is one of a variable: 1 to 128 letters, digits and underscores, not starting with a digit. -/
def validVarName (name : List Char) : Bool :=
  decide (1 ≤ name.length ∧ name.length ≤ 128) && name.head?.any (fun c => c.isAlpha || c == '_') &&
    name.all fun c => c.isAlphanum || c == '_'

/-! ### Reading -/

def trimStart (cs : List Char) : List Char := cs.dropWhile isWhitespace

def trimEnd (cs : List Char) : List Char := cs.rdropWhile isWhitespace

/-- The text before the first blank and number sign. -/
def beforeComment : List Char → List Char
  | [] => []
  | c :: cs => if c = ' ' ∧ cs.head? = some '#' then [] else c :: beforeComment cs

/-- The characters after a backslash in double quotes. -/
def unescape (c : Char) : List Char :=
  if c = 'n' then ['\n']
  else if c = 'r' then ['\r']
  else if c = 't' then ['\t']
  else if c = '"' ∨ c = '\\' ∨ c = '$' ∨ c = '\x60' then [c]
  else ['\\', c]

/-- A line of a double-quoted value, and whether it ends there. -/
def readChunk : List Char → List Char × Bool
  | [] => ([], false)
  | '"' :: _ => ([], true)
  | ['\\'] => (['\\'], false)
  | '\\' :: c :: cs => (unescape c ++ (readChunk cs).1, (readChunk cs).2)
  | c :: cs => (c :: (readChunk cs).1, (readChunk cs).2)

/-- A double-quoted value from its first line and the lines after it, and the lines left. -/
def readQuoted (chunk : List Char) : List (List Char) → Option (List Char × List (List Char))
  | [] => if (readChunk chunk).2 then some ((readChunk chunk).1, []) else none
  | line :: lines =>
    if (readChunk chunk).2 then some ((readChunk chunk).1, line :: lines)
    else (readQuoted line lines).map fun r => ((readChunk chunk).1 ++ '\n' :: r.1, r.2)

/-- A value, after the blanks, and the lines left. -/
def readValue (rest : List Char) (lines : List (List Char)) : Except String (List Char × List (List Char)) :=
  match rest with
  | '\'' :: body =>
    if '\'' ∈ body then .ok (body.takeWhile (· ≠ '\''), lines)
    else .error "a single-quoted value is not closed on its line"
  | '"' :: body =>
    match readQuoted body lines with
    | some r => .ok r
    | none => .error "a double-quoted value is not closed"
  | _ => .ok (trimEnd (beforeComment rest), lines)

/-- One round: the variable that the line at index `i` starts, if it starts one, and the lines left after it. -/
def parseRound (i : ℕ) (line : List Char) (lines : List (List Char)) :
    Except DotenvError (Option (String × String) × List (List Char)) :=
  let line := trimStart line
  if line = [] ∨ line.head? = some '#' then .ok (none, lines)
  else
    let line := if "export ".toList.isPrefixOf line then trimStart (line.drop 7) else line
    if '=' ∈ line then
      let name := trimEnd (line.takeWhile (· ≠ '='))
      let rest := (line.dropWhile (· ≠ '=')).drop 1
      if validVarName name then
        match readValue (trimStart rest) lines with
        | .ok (value, lines) => .ok (some (String.ofList name, String.ofList value), lines)
        | .error why => .error ⟨i + 1, why⟩
      else .error ⟨i + 1, "not a variable name (letters, digits and \x60_\x60, not starting with a digit)"⟩
    else .error ⟨i + 1, "expected NAME=value"⟩

variable {value cs : List Char} {lines left : List (List Char)}

variable {chunk line : List Char} {i : ℕ} {entry : Option (String × String)} {name : String}

theorem readQuoted_suffix (h : readQuoted chunk lines = some (value, left)) : left <:+ lines := by
  induction lines generalizing chunk value with
  | nil =>
    rw [readQuoted] at h
    split_ifs at h
    rw [(Prod.mk.inj (Option.some.inj h)).2]
  | cons line lines ih =>
    rw [readQuoted] at h
    split_ifs at h
    · rw [← (Prod.mk.inj (Option.some.inj h)).2]
    · obtain ⟨⟨value', left'⟩, hrest, heq⟩ := Option.map_eq_some_iff.mp h
      obtain ⟨-, rfl⟩ := Prod.mk.inj heq
      exact (ih hrest).trans (suffix_cons line lines)

theorem readValue_suffix {rest : List Char} (h : readValue rest lines = .ok (value, left)) : left <:+ lines := by
  unfold readValue at h
  split at h
  · split_ifs at h
    obtain ⟨-, rfl⟩ := Prod.mk.inj (Except.ok.inj h)
    exact suffix_refl _
  · split at h
    · next r hr =>
      obtain rfl := Except.ok.inj h
      exact readQuoted_suffix hr
    · exact absurd h (by simp)
  · obtain ⟨-, rfl⟩ := Prod.mk.inj (Except.ok.inj h)
    exact suffix_refl _

/-- A round takes its own line, and any further ones from those that come next. -/
theorem parseRound_suffix (h : parseRound i line lines = .ok (entry, left)) : left <:+ lines := by
  unfold parseRound at h
  dsimp only at h
  split at h
  · obtain ⟨-, rfl⟩ := Prod.mk.inj (Except.ok.inj h)
    exact suffix_refl _
  · generalize (if "export ".toList.isPrefixOf (trimStart line) then trimStart ((trimStart line).drop 7)
      else trimStart line) = line' at h
    split at h
    · split at h
      · split at h
        · next value left' hvalue =>
          obtain ⟨-, rfl⟩ := Prod.mk.inj (Except.ok.inj h)
          exact readValue_suffix hvalue
        · exact absurd h (by simp)
      · exact absurd h (by simp)
    · exact absurd h (by simp)

/-- The lines from index `i` on, read into the variables so far. -/
def parseLines (i : ℕ) (lines : List (List Char)) (out : SortedMap String String) :
    Except DotenvError (SortedMap String String) :=
  match lines with
  | [] => .ok out
  | line :: rest =>
    match hround : parseRound i line rest with
    | .error e => .error e
    | .ok (entry, left) =>
      parseLines (i + (rest.length + 1 - left.length)) left (entry.elim out fun x => out.insert x.1 x.2)
termination_by lines.length
decreasing_by exact Nat.lt_succ_of_le (parseRound_suffix hround).length_le

/-- Parse `.env` text. A name given twice keeps the last value. -/
def parseDotenv (text : List Char) : Except DotenvError (SortedMap String String) :=
  parseLines 0 (Lines.linesOf (if text.head? = some '\uFEFF' then text.tail else text)) .empty

/-! ### Writing -/

def isBareChar (c : Char) : Bool :=
  c.isAlphanum || ['_', '.', '/', ':', '@', '%', '+', ',', '-'].contains c

/-- A character in double quotes. -/
def escape (c : Char) : List Char :=
  if c = '\n' then ['\\', 'n']
  else if c = '\r' then ['\\', 'r']
  else if c = '\t' then ['\\', 't']
  else if c = '"' ∨ c = '\\' ∨ c = '$' ∨ c = '\x60' then ['\\', c]
  else [c]

def renderValue (value : List Char) : List Char :=
  if value.all isBareChar then value
  else if '\'' ∉ value ∧ '\n' ∉ value ∧ '\r' ∉ value then '\'' :: (value ++ ['\''])
  else '"' :: (value.flatMap escape ++ ['"'])

def renderLine (name value : String) : List Char := name.toList ++ '=' :: renderValue value.toList

/-- Variables as `.env` text, one line each in name order. -/
def renderDotenv (vars : SortedMap String String) : List Char :=
  vars.entries.flatMap fun x => renderLine x.1 x.2 ++ ['\n']

/-! ### What is written -/

theorem isBareChar_spec {c : Char} (h : isBareChar c = true) :
    ShellWords.Plain c ∧ isWhitespace c = false ∧ c ≠ '\r' := by
  have hlt : c.toNat < 128 := by
    rcases Bool.or_eq_true _ _ |>.mp h with h | h
    · exact toNat_lt_of_isAlphanum h
    · revert h
      simp only [contains_eq_mem, mem_cons, not_mem_nil, or_false, decide_eq_true_eq]
      rintro (rfl | rfl | rfl | rfl | rfl | rfl | rfl | rfl | rfl) <;> decide
  exact of_ascii (P := fun c => isBareChar c = true → ShellWords.Plain c ∧ isWhitespace c = false ∧ c ≠ '\r')
    (by decide +kernel) hlt h

theorem isBareChar_of_name {name : List Char} (h : validVarName name = true) : ∀ c ∈ name, isBareChar c = true := by
  simp only [validVarName, Bool.and_eq_true, all_eq_true, Bool.or_eq_true, beq_iff_eq] at h
  intro c hc
  rcases h.2 c hc with halnum | rfl
  · rw [isBareChar, halnum, Bool.true_or]
  · decide

theorem isName_of_valid {name : List Char} (h : validVarName name = true) : ShellWords.isName name = true := by
  simp only [validVarName, Bool.and_eq_true, Option.any_eq_true, Bool.or_eq_true, beq_iff_eq] at h
  obtain ⟨⟨-, c, hc, hfirst⟩, hall⟩ := h
  have hdigit : c.isDigit = false := by
    rcases hfirst with halpha | rfl
    · have hlt : c.toNat < 128 := toNat_lt_of_isAlphanum (by simp [Char.isAlphanum, halpha])
      exact of_ascii (P := fun c => c.isAlpha = true → c.isDigit = false) (by decide +kernel) hlt halpha
    · decide
  rw [ShellWords.isName, Bool.and_eq_true]
  exact ⟨by simp [hc, hdigit], hall⟩

theorem trimStart_eq_self (h : ∀ c ∈ cs.head?, isWhitespace c = false) : trimStart cs = cs := by
  cases cs with
  | nil => rfl
  | cons c cs => exact dropWhile_cons_of_neg (by simp [h c rfl])

theorem trimEnd_eq_self (h : ∀ c ∈ cs, isWhitespace c = false) : trimEnd cs = cs := by
  rw [trimEnd, rdropWhile_eq_self_iff]
  intro hne
  simp [h _ (getLast_mem hne)]

theorem head?_renderValue (value : List Char) : ∀ c ∈ (renderValue value).head?, isWhitespace c = false := by
  rw [renderValue]
  split_ifs with hbare
  · intro c hc
    exact (isBareChar_spec (all_eq_true.mp hbare c (mem_of_mem_head? hc))).2.1
  · rintro c ⟨rfl⟩
    decide
  · rintro c ⟨rfl⟩
    decide

/-! ### Reading it back -/

theorem beforeComment_eq_self (h : ' ' ∉ cs) : beforeComment cs = cs := by
  induction cs with
  | nil => rfl
  | cons c cs ih =>
    rw [mem_cons, not_or] at h
    rw [beforeComment, if_neg fun hc => h.1 hc.1.symm, ih h.2]

theorem readChunk_escape (value rest : List Char) :
    readChunk (value.flatMap escape ++ '"' :: rest) = (value, true) := by
  induction value with
  | nil => simp [readChunk]
  | cons c value ih =>
    rw [flatMap_cons, append_assoc, escape]
    split_ifs with hn hr ht hesc
    · simp [readChunk, ih, unescape, hn]
    · simp [readChunk, ih, unescape, hr]
    · simp [readChunk, ih, unescape, ht]
    · -- an escaped character is not one of the letters that stand for another
      have hne : c ≠ 'n' ∧ c ≠ 'r' ∧ c ≠ 't' := by
        rcases hesc with rfl | rfl | rfl | rfl <;> decide
      simp [readChunk, ih, unescape, hne, hesc]
    · rw [not_or, not_or] at hesc
      simp [readChunk, ih, hesc.1, hesc.2.1]

theorem readQuoted_of_closed (h : readChunk chunk = (value, true)) (lines : List (List Char)) :
    readQuoted chunk lines = some (value, lines) := by
  cases lines <;> rw [readQuoted, h, if_pos rfl]

theorem readValue_renderValue (value : List Char) (lines : List (List Char)) :
    readValue (renderValue value) lines = .ok (value, lines) := by
  rw [renderValue]
  split_ifs with hbare hsingle
  · have hchars := all_eq_true.mp hbare
    have hnot : ∀ c, isBareChar c = false → c ∉ value := fun c hc hmem =>
      Bool.noConfusion (hc.symm.trans (hchars c hmem))
    have hread : readValue value lines = .ok (trimEnd (beforeComment value), lines) := by
      unfold readValue
      split
      · exact absurd mem_cons_self (hnot '\'' (by decide))
      · exact absurd mem_cons_self (hnot '"' (by decide))
      · rfl
    rw [hread, beforeComment_eq_self (hnot ' ' (by decide)), trimEnd_eq_self fun c hc =>
      (isBareChar_spec (hchars c hc)).2.1]
  · obtain ⟨-, htake⟩ := ShellWords.dropWhile_append_cons (p := (· ≠ '\'')) (m := []) (l := value) (a := '\'')
      (fun c hc => by
        simp only [ne_eq, decide_not, Bool.not_eq_true', decide_eq_false_iff_not]
        rintro rfl
        exact hsingle.1 hc) (by simp)
    rw [readValue, if_pos (by simp), htake]
  · rw [readValue, readQuoted_of_closed (readChunk_escape value [])]

theorem renderLine_spec (h : validVarName name.toList = true) (value : String) :
    (∃ c, (renderLine name value).head? = some c ∧ isBareChar c = true) ∧
      (renderLine name value).takeWhile (· ≠ '=') = name.toList ∧
      (renderLine name value).dropWhile (· ≠ '=') = '=' :: renderValue value.toList := by
  have hbare := isBareChar_of_name h
  refine ⟨?_, ?_⟩
  · simp only [validVarName, Bool.and_eq_true, Option.any_eq_true] at h
    obtain ⟨⟨-, c, hc, -⟩, -⟩ := h
    exact ⟨c, by simp [renderLine, head?_append, hc], hbare c (mem_of_mem_head? hc)⟩
  · obtain ⟨hdrop, htake⟩ := ShellWords.dropWhile_append_cons (p := (· ≠ '=')) (m := renderValue value.toList)
      (l := name.toList) (a := '=') (fun c hc => by
        simp only [ne_eq, decide_not, Bool.not_eq_true', decide_eq_false_iff_not]
        rintro rfl
        exact absurd (hbare '=' hc) (by decide)) (by simp)
    exact ⟨htake, hdrop⟩

theorem not_export (h : validVarName name.toList = true) (value : String) :
    "export ".toList.isPrefixOf (renderLine name value) = false := by
  rw [← Bool.not_eq_true, List.isPrefixOf_iff_prefix]
  rintro ⟨rest, hrest⟩
  -- the first character that is not one of a name is a blank here and an equals sign there
  have hexport : ("export ".toList ++ rest).dropWhile ShellWords.isNameChar = ' ' :: rest := rfl
  have hname : ∀ c ∈ name.toList, ShellWords.isNameChar c = true := by
    have hvalid := isName_of_valid h
    rw [ShellWords.isName, Bool.and_eq_true, all_eq_true] at hvalid
    exact hvalid.2
  have hline : (renderLine name value).dropWhile ShellWords.isNameChar = '=' :: renderValue value.toList :=
    (ShellWords.dropWhile_append_cons hname (by decide)).1
  rw [hrest, hline] at hexport
  exact absurd (List.cons.inj hexport).1 (by decide)

theorem parseRound_renderLine (h : validVarName name.toList = true) (value : String) (i : ℕ)
    (lines : List (List Char)) : parseRound i (renderLine name value) lines = .ok (some (name, value), lines) := by
  obtain ⟨⟨c, hc, hbare⟩, htake, hdrop⟩ := renderLine_spec h value
  have hstart : trimStart (renderLine name value) = renderLine name value := by
    refine trimStart_eq_self fun d hd => ?_
    obtain rfl := Option.some.inj (hc.symm.trans hd)
    exact (isBareChar_spec hbare).2.1
  have hsome : ¬(renderLine name value = [] ∨ (renderLine name value).head? = some '#') := by
    rintro (hnil | hhash)
    · simp [hnil] at hc
    · obtain rfl := Option.some.inj (hc.symm.trans hhash)
      exact absurd hbare (by decide)
  have heq : '=' ∈ renderLine name value := by simp [renderLine]
  have hend : trimEnd name.toList = name.toList := trimEnd_eq_self fun d hd =>
    (isBareChar_spec (isBareChar_of_name h d hd)).2.1
  simp only [parseRound, hstart, if_neg hsome, not_export h value, Bool.false_eq_true, if_false,
    if_pos heq, htake, hend,
    hdrop, drop_one, tail_cons, h, if_true, trimStart_eq_self (head?_renderValue value.toList),
    readValue_renderValue, String.ofList_toList]

theorem notMem_renderLine (h : validVarName name.toList = true) (value : String) :
    '\n' ∉ renderLine name value ∧ '\r' ∉ renderLine name value := by
  have hbare : ∀ cs : List Char, (∀ c ∈ cs, isBareChar c = true) → '\n' ∉ cs ∧ '\r' ∉ cs := fun cs hcs =>
    ⟨fun hmem => absurd (hcs _ hmem) (by decide), fun hmem => absurd (hcs _ hmem) (by decide)⟩
  have hescape : ∀ c d, d ∈ escape c → d ≠ '\n' ∧ d ≠ '\r' := by
    intro c d hd
    rw [escape] at hd
    split_ifs at hd with hn hr ht hesc
    · simp only [mem_cons, not_mem_nil, or_false] at hd
      rcases hd with rfl | rfl <;> decide
    · simp only [mem_cons, not_mem_nil, or_false] at hd
      rcases hd with rfl | rfl <;> decide
    · simp only [mem_cons, not_mem_nil, or_false] at hd
      rcases hd with rfl | rfl <;> decide
    · simp only [mem_cons, not_mem_nil, or_false] at hd
      rcases hd with rfl | rfl
      · decide
      · exact ⟨hn, hr⟩
    · rw [mem_singleton.mp hd]
      exact ⟨hn, hr⟩
  have hvalue : '\n' ∉ renderValue value.toList ∧ '\r' ∉ renderValue value.toList := by
    rw [renderValue]
    split_ifs with hall hsingle
    · exact hbare _ (all_eq_true.mp hall)
    · simp [hsingle.2.1, hsingle.2.2]
    · simp only [mem_cons, mem_append, mem_flatMap, not_mem_nil, or_false, not_or, not_exists, not_and]
      exact ⟨⟨by decide, fun c _ hd => (hescape c _ hd).1 rfl, by decide⟩, by decide,
        fun c _ hd => (hescape c _ hd).2 rfl, by decide⟩
  have hname := hbare _ (isBareChar_of_name h)
  simp only [renderLine, mem_append, mem_cons, not_or]
  exact ⟨⟨hname.1, by decide, hvalue.1⟩, hname.2, by decide, hvalue.2⟩

/-- The lines of what is written are the variables. -/
theorem linesOf_renderDotenv {vars : SortedMap String String} (h : ∀ name ∈ vars.keys,
    validVarName name.toList = true) :
    Lines.linesOf (renderDotenv vars) = vars.entries.map fun x => renderLine x.1 x.2 := by
  have hlines : ∀ p ∈ vars.entries.map (fun x => renderLine x.1 x.2), '\n' ∉ p ∧ '\r' ∉ p := by
    intro p hp
    obtain ⟨x, hx, rfl⟩ := mem_map.mp hp
    exact notMem_renderLine (h x.1 (mem_map_of_mem hx)) x.2
  rw [← Lines.linesOf_flatMap (fun p hp => (hlines p hp).1) fun p hp hcr => (hlines p hp).2 (hcr.subset (by simp)),
    flatMap_map, renderDotenv]

theorem parseLines_cons {rest : List (List Char)}
    (h : parseRound i line rest = .ok (entry, left)) (out : SortedMap String String) : parseLines i (line :: rest) out =
      parseLines (i + (rest.length + 1 - left.length)) left (entry.elim out fun x => out.insert x.1 x.2) := by
  rw [parseLines]
  split
  · next e he => exact absurd (h.symm.trans he) (by simp)
  · next entry' left' he =>
    obtain ⟨rfl, rfl⟩ := Prod.mk.inj (Except.ok.inj (h.symm.trans he))
    rfl

theorem parseLines_map {entries : List (String × String)} (h : ∀ x ∈ entries, validVarName x.1.toList = true) (i : ℕ)
    (out : SortedMap String String) : parseLines i (entries.map fun x => renderLine x.1 x.2) out =
      .ok (entries.foldl (fun m x => m.insert x.1 x.2) out) := by
  induction entries generalizing i out with
  | nil => rw [map_nil, parseLines, foldl_nil]
  | cons x entries ih =>
    obtain ⟨hx, hentries⟩ := forall_mem_cons.mp h
    rw [map_cons, parseLines_cons (parseRound_renderLine hx x.2 i _), ih hentries]
    rfl

/-- **The round trip**: what is written is read back exactly. -/
theorem parseDotenv_renderDotenv {vars : SortedMap String String}
    (h : ∀ name ∈ vars.keys, validVarName name.toList = true) : parseDotenv (renderDotenv vars) = .ok vars := by
  have hentries : ∀ x ∈ vars.entries, validVarName x.1.toList = true := fun x hx => h x.1 (mem_map_of_mem hx)
  have hmark : (renderDotenv vars).head? ≠ some '\uFEFF' := by
    rw [renderDotenv]
    cases hvars : vars.entries with
    | nil => simp
    | cons x entries =>
      obtain ⟨⟨c, hc, hbare⟩, -⟩ := renderLine_spec (hentries x (by simp [hvars])) x.2
      intro hhead
      rw [flatMap_cons, append_assoc, head?_append, hc, Option.some_or] at hhead
      rw [Option.some.inj hhead] at hbare
      exact absurd hbare (by decide)
  rw [parseDotenv, if_neg hmark, linesOf_renderDotenv h, parseLines_map hentries]
  exact congrArg Except.ok (SortedMap.ofList_entries vars)

/-! ### Sourcing it -/

/-- What a shell takes for a character that is not a plain one of a double-quoted value. -/
def shellEscape (c : Char) : List Char := if c = '\n' ∨ c = '\r' ∨ c = '\t' then escape c else [c]

/-- The value a shell assigns: of a double-quoted one, each line ending and tab as two characters. -/
def shellValue (value : List Char) : List Char :=
  if value.all isBareChar ∨ '\'' ∉ value ∧ '\n' ∉ value ∧ '\r' ∉ value then value else value.flatMap shellEscape

theorem read_double_escape (c : Char) (cs : List Char) : ShellWords.read .double (escape c ++ cs) =
      (shellEscape c).map (.lit · true) ++ ShellWords.read .double cs := by
  rw [escape]
  split_ifs with hn hr ht hesc
  · rw [hn]
    rfl
  · rw [hr]
    rfl
  · rw [ht]
    rfl
  · rcases hesc with rfl | rfl | rfl | rfl <;> rfl
  · have hnot : c ∉ ShellWords.escapable := by
      simp only [ShellWords.escapable, mem_cons, not_mem_nil, or_false]
      tauto
    rw [shellEscape, if_neg (by tauto)]
    exact ShellWords.read_double_cons hnot cs

theorem read_renderValue (value : List Char) (cs : List Char) :
    ∃ quoted, ShellWords.read .bare (renderValue value ++ '\n' :: cs) =
      (shellValue value).map (.lit · quoted) ++ .newline :: ShellWords.read .bare cs := by
  rw [renderValue, shellValue]
  by_cases hbare : value.all isBareChar = true
  · rw [if_pos hbare, if_pos (Or.inl hbare)]
    exact ⟨false, ShellWords.read_bare_append (fun c hc => (isBareChar_spec (all_eq_true.mp hbare c hc)).1) _⟩
  by_cases hsingle : '\'' ∉ value ∧ '\n' ∉ value ∧ '\r' ∉ value
  · rw [if_neg hbare, if_pos hsingle, if_pos (Or.inr hsingle)]
    refine ⟨true, ?_⟩
    rw [cons_append, append_assoc]
    exact ShellWords.read_single_append hsingle.1 _
  · rw [if_neg hbare, if_neg hsingle, if_neg (not_or.mpr ⟨hbare, hsingle⟩)]
    refine ⟨true, ?_⟩
    rw [cons_append, append_assoc]
    change ShellWords.read .double (value.flatMap escape ++ '"' :: '\n' :: cs) = _
    -- character by character, up to the quote that closes the value
    clear hbare hsingle
    induction value with
    | nil => rfl
    | cons c value ih =>
      rw [flatMap_cons, append_assoc, read_double_escape, ih, flatMap_cons, map_append,
        append_assoc]

/-- **Sourcing it**: a shell makes the assignments and does nothing else. -/
theorem source_renderDotenv {vars : SortedMap String String} (h : ∀ name ∈ vars.keys, validVarName name.toList = true) :
    ShellWords.source (renderDotenv vars) = some (vars.entries.map fun x => (x.1.toList, shellValue x.2.toList)) := by
  have hentries : ∀ x ∈ vars.entries, validVarName x.1.toList = true := fun x hx => h x.1 (mem_map_of_mem hx)
  rw [renderDotenv]
  generalize vars.entries = entries at hentries ⊢
  induction entries with
  | nil => rfl
  | cons x entries ih =>
    obtain ⟨hx, hentries⟩ := forall_mem_cons.mp hentries
    have hplain : ∀ c ∈ x.1.toList ++ ['='], ShellWords.Plain c := by
      intro c hc
      rcases mem_append.mp hc with hc | hc
      · exact (isBareChar_spec (isBareChar_of_name hx c hc)).1
      · rw [mem_singleton.mp hc]
        decide
    obtain ⟨quoted, hvalue⟩ := read_renderValue x.2.toList (entries.flatMap fun x => renderLine x.1 x.2 ++ ['\n'])
    have hline : ShellWords.read .bare
        (renderLine x.1 x.2 ++ '\n' :: entries.flatMap fun x => renderLine x.1 x.2 ++ ['\n']) =
        (x.1.toList.map (.lit · false) ++ .lit '=' false :: (shellValue x.2.toList).map (.lit · quoted)) ++
          .newline :: ShellWords.read .bare (entries.flatMap fun x => renderLine x.1 x.2 ++ ['\n']) := by
      rw [renderLine, append_assoc, cons_append, append_cons, ShellWords.read_bare_append hplain, hvalue]
      simp
    rw [flatMap_cons, append_assoc, singleton_append, ShellWords.source_cons (isName_of_valid hx) hline,
      ih hentries]
    rfl

/-- **Exported text is exact and inert**: it is read back exactly; it has one line for each variable, and sourcing it
makes these assignments and does nothing else. Reading ends on every text, since a round takes its own line and any
further ones from those after it. -/
theorem renderDotenv_spec (vars : SortedMap String String)
    (h : ∀ name ∈ vars.keys, validVarName name.toList = true) :
    parseDotenv (renderDotenv vars) = .ok vars ∧
      Lines.linesOf (renderDotenv vars) = vars.entries.map (fun x => renderLine x.1 x.2) ∧
      ShellWords.source (renderDotenv vars) = some (vars.entries.map fun x => (x.1.toList, shellValue x.2.toList)) ∧
      ∀ i line lines entry left, parseRound i line lines = .ok (entry, left) → left <:+ lines :=
  ⟨parseDotenv_renderDotenv h, linesOf_renderDotenv h, source_renderDotenv h, fun _ _ _ _ _ => parseRound_suffix⟩

theorem renderDotenv_spec_sample :
    parseDotenv (renderDotenv (.ofList [("A_1", "it's $(x)\n"), ("B", "#  y"), ("c", "")])) =
      .ok (.ofList [("A_1", "it's $(x)\n"), ("B", "#  y"), ("c", "")]) :=
  (renderDotenv_spec (.ofList [("A_1", "it's $(x)\n"), ("B", "#  y"), ("c", "")]) (by decide +kernel)).1

end DashForge.Dotenv
