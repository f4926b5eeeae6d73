import Mathlib.Data.List.Basic

/-!
# What a shell reads

The quoting of the POSIX shell, as far as a script of assignments needs it (`read`): a word is bare, in single quotes,
where every character stands for itself, or in double quotes, where a backslash escapes a backslash, a double quote,
a dollar sign or a backquote, and joins lines. A character that the shell would act on is kept apart (`Piece.active`):
one that starts an expansion or a pattern, an operator, a blank between words, a comment.

`source` runs a script if all it does is assign, one assignment a command. So a script that `source` runs expands and
substitutes nothing, splits no word and has no further command.

The lemmas read one quoted text followed by anything (`read_bare_append`, `read_single_append`, `read_double_append`).
-/

namespace DashForge.ShellWords

open List

inductive Quoting where
  | bare
  | single
  | double
  /-- After a backslash in a bare word. -/
  | bareEscape
  /-- After a backslash in double quotes. -/
  | doubleEscape
deriving DecidableEq

/-- What the shell reads. -/
inductive Piece where
  /-- A character that stands for itself. -/
  | lit (c : Char) (quoted : Bool)
  /-- A character that the shell acts on. -/
  | active (c : Char)
  /-- The end of a command. -/
  | newline
  /-- A quotation that the text does not close. -/
  | unclosed
deriving DecidableEq

/-- The characters that an unquoted word cannot hold as themselves. -/
def activeChars : List Char :=
  ['|', '&', ';', '<', '>', '(', ')', '$', '\x60', '\\', '"', '\'', ' ', '\t', '*', '?', '[', ']',
    '#', '~', '!', '\x7b',
    '\x7d', '^']

/-- The characters that a backslash escapes in double quotes. -/
def escapable : List Char := ['\\', '"', '$', '\x60']

/-- What a character is read as, and how the next one is quoted. -/
def next : Quoting → Char → List Piece × Quoting
  | .bare, c =>
    if c = '\'' then ([], .single)
    else if c = '"' then ([], .double)
    else if c = '\\' then ([], .bareEscape)
    else if c = '\n' then ([.newline], .bare)
    else if c ∈ activeChars then ([.active c], .bare)
    else ([.lit c false], .bare)
  | .bareEscape, c => if c = '\n' then ([], .bare) else ([.lit c true], .bare)
  | .single, c => if c = '\'' then ([], .bare) else ([.lit c true], .single)
  | .double, c =>
    if c = '"' then ([], .bare)
    else if c = '\\' then ([], .doubleEscape)
    else if c ∈ escapable then ([.active c], .double)
    else ([.lit c true], .double)
  | .doubleEscape, c =>
    if c = '\n' then ([], .double)
    else if c ∈ escapable then ([.lit c true], .double)
    else ([.lit '\\' true, .lit c true], .double)

def read : Quoting → List Char → List Piece
  | q, [] => if q = .bare then [] else [.unclosed]
  | q, c :: cs => (next q c).1 ++ read (next q c).2 cs

/-- The commands of a script, one a line. -/
def commands : List Piece → List (List Piece)
  | [] => [[]]
  | .newline :: ps => [] :: commands ps
  | p :: ps => (commands ps).modifyHead (p :: ·)

def isNameChar (c : Char) : Bool := c.isAlphanum || c == '_'

/-- A name that a shell assigns to. -/
def isName (name : List Char) : Bool := name.head?.any (fun c => !c.isDigit) && name.all isNameChar

/-- The character that a piece stands for. -/
def Piece.char : Piece → Option Char
  | .lit c _ => some c
  | _ => none

/-- An unquoted character of a name. -/
def Piece.inName : Piece → Bool
  | .lit c quoted => !quoted && isNameChar c
  | _ => false

/-- The characters that pieces stand for, if all of them stand for one. -/
def literal (ps : List Piece) : Option (List Char) := ps.mapM Piece.char

/-- The assignment that a command is, if it is one: a name, an unquoted equals sign, and a word of characters that
stand for themselves. -/
def assignment (command : List Piece) : Option (List Char × List Char) :=
  match command.dropWhile Piece.inName with
  | .lit '=' false :: value => do
    let name ← literal (command.takeWhile Piece.inName)
    let value ← literal value
    if isName name then some (name, value) else none
  | _ => none

/-- The assignments that a script makes, if it does nothing else. -/
def source (text : List Char) : Option (List (List Char × List Char)) :=
  ((commands (read .bare text)).filter (· ≠ [])).mapM assignment

/-! ### Reading one quotation -/

/-- The character stands for itself in an unquoted word. -/
def Plain (c : Char) : Prop := c ∉ activeChars ∧ c ≠ '\n'

instance decidablePlain (c : Char) : Decidable (Plain c) := inferInstanceAs (Decidable (_ ∧ _))

variable {v name : List Char}

theorem read_bare_append (h : ∀ c ∈ v, Plain c) (cs : List Char) :
    read .bare (v ++ cs) = v.map (.lit · false) ++ read .bare cs := by
  induction v with
  | nil => rfl
  | cons c v ih =>
    obtain ⟨⟨hactive, hnl⟩, hv⟩ := forall_mem_cons.mp h
    have hne : ∀ d ∈ activeChars, c ≠ d := fun d hd heq => hactive (heq ▸ hd)
    have hnext : next .bare c = ([.lit c false], .bare) := by
      rw [next, if_neg (hne _ (by decide)), if_neg (hne _ (by decide)), if_neg (hne _ (by decide)), if_neg hnl,
        if_neg hactive]
    rw [cons_append, read, hnext, ih hv]
    rfl

theorem read_single_append (h : '\'' ∉ v) (cs : List Char) :
    read .bare ('\'' :: (v ++ '\'' :: cs)) = v.map (.lit · true) ++ read .bare cs := by
  change read .single (v ++ '\'' :: cs) = _
  induction v with
  | nil => rfl
  | cons c v ih =>
    rw [mem_cons, not_or] at h
    have hnext : next .single c = ([.lit c true], .single) := by rw [next, if_neg (Ne.symm h.1)]
    rw [cons_append, read, hnext, ih h.2]
    rfl

theorem read_double_cons {c : Char} (h : c ∉ escapable) (cs : List Char) :
    read .double (c :: cs) = .lit c true :: read .double cs := by
  have hne : ∀ d ∈ escapable, c ≠ d := fun d hd heq => h (heq ▸ hd)
  have hnext : next .double c = ([.lit c true], .double) := by
    rw [next, if_neg (hne _ (by decide)), if_neg (hne _ (by decide)), if_neg h]
  rw [read, hnext]
  rfl

theorem literal_map_lit (v : List Char) (quoted : Bool) : literal (v.map (.lit · quoted)) = some v := by
  induction v with
  | nil => rfl
  | cons c v ih =>
    rw [literal] at ih
    rw [literal, map_cons, mapM_cons, ih]
    rfl

/-! ### Running a script line by line -/

theorem commands_append {ps : List Piece} (h : Piece.newline ∉ ps) (qs : List Piece) :
    commands (ps ++ .newline :: qs) = ps :: commands qs := by
  induction ps with
  | nil => rfl
  | cons p ps ih =>
    rw [mem_cons, not_or] at h
    rw [cons_append, commands, ih h.2]
    · rfl
    · exact fun heq => h.1 heq.symm

theorem dropWhile_append_cons {α : Type*} {p : α → Bool} {l m : List α} {a : α} (hl : ∀ x ∈ l, p x = true)
    (ha : p a = false) : (l ++ a :: m).dropWhile p = a :: m ∧ (l ++ a :: m).takeWhile p = l := by
  rw [dropWhile_append_of_pos hl, takeWhile_append_of_pos hl, dropWhile_cons_of_neg (by simp [ha]),
    takeWhile_cons_of_neg (by simp [ha]), append_nil]
  exact ⟨rfl, rfl⟩

theorem assignment_eq (hname : isName name = true) (value : List Char) (quoted : Bool) :
    assignment (name.map (.lit · false) ++ .lit '=' false :: value.map (.lit · quoted)) = some (name, value) := by
  have hchars : ∀ p ∈ name.map (Piece.lit · false), p.inName = true := by
    intro p hp
    obtain ⟨c, hc, rfl⟩ := mem_map.mp hp
    rw [isName, Bool.and_eq_true, all_eq_true] at hname
    simp [Piece.inName, hname.2 c hc]
  obtain ⟨hdrop, htake⟩ := dropWhile_append_cons (m := value.map (Piece.lit · quoted)) hchars
    (show (Piece.lit '=' false).inName = false by decide)
  rw [assignment, hdrop, htake]
  simp [literal_map_lit, hname]

theorem source_cons {line value rest : List Char} {quoted : Bool} (hname : isName name = true)
    (hline : read .bare (line ++ '\n' :: rest) =
      (name.map (.lit · false) ++ .lit '=' false :: value.map (.lit · quoted)) ++ .newline :: read .bare rest) :
    source (line ++ '\n' :: rest) = (source rest).map ((name, value) :: ·) := by
  have hnl : Piece.newline ∉ name.map (.lit · false) ++ Piece.lit '=' false :: value.map (.lit · quoted) := by simp
  rw [source, hline, commands_append hnl, filter_cons_of_pos (by simp), mapM_cons, assignment_eq hname, source]
  cases ((commands (read .bare rest)).filter (· ≠ [])).mapM assignment <;> rfl

end DashForge.ShellWords
