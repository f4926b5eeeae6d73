import DashForge.Data.Hex
import DashForge.Data.Json
import DashForge.Data.Utf8

/-!
# JSON text

What a JSON text denotes (`Denotes`), for the texts whose numbers are unsigned 64-bit integers: white space
between tokens, the escapes of a string, and of an object's repeated keys the last. A parser is lawful if it reads
each such text as what it denotes (`Lawful`). The compact texts a printer writes denote what it prints
(`Prints`), whatever order its objects' keys were built in.
-/

namespace DashForge.Json

open List

/-! ### Tokens -/

def isWhitespace (c : Char) : Bool := c = ' ' || c = '\t' || c = '\n' || c = '\r'

def skipWs (cs : List Char) : List Char := cs.dropWhile isWhitespace

/-- The escapes of one letter, and what each stands for. -/
def escapes : List (Char × Char) :=
  [('"', '"'), ('\\', '\\'), ('/', '/'), ('b', '\x08'), ('f', '\x0c'), ('n', '\n'), ('r', '\r'), ('t', '\t')]

def hexVal4 (a b c d : Char) : Option ℕ := do
  return (← hexVal a) * 0x1000 + (← hexVal b) * 0x100 + (← hexVal c) * 0x10 + (← hexVal d)

/-- After its opening quote a string's text starts with `cs`, has the characters `s`, and goes on with `rest`. -/
inductive Chars : List Char → List Char → List Char → Prop
  | close (rest : List Char) : Chars ('"' :: rest) [] rest
  | raw {c : Char} {cs s rest : List Char} (hquote : c ≠ '"') (hescape : c ≠ '\\') (hcontrol : 0x20 ≤ c.toNat)
    (h : Chars cs s rest) : Chars (c :: cs) (c :: s) rest
  | escape {e c : Char} {cs s rest : List Char} (hmem : (e, c) ∈ escapes) (h : Chars cs s rest) :
    Chars ('\\' :: e :: cs) (c :: s) rest
  | unicode {x₁ x₂ x₃ x₄ : Char} {n : ℕ} {cs s rest : List Char} (hn : hexVal4 x₁ x₂ x₃ x₄ = some n)
    (hscalar : n < 0xd800 ∨ 0xdfff < n) (h : Chars cs s rest) :
    Chars ('\\' :: 'u' :: x₁ :: x₂ :: x₃ :: x₄ :: cs) (Char.ofNat n :: s) rest
  | surrogates {x₁ x₂ x₃ x₄ y₁ y₂ y₃ y₄ : Char} {high low : ℕ} {cs s rest : List Char}
    (hhigh : hexVal4 x₁ x₂ x₃ x₄ = some high) (hhigh' : 0xd800 ≤ high ∧ high ≤ 0xdbff)
    (hlow : hexVal4 y₁ y₂ y₃ y₄ = some low) (hlow' : 0xdc00 ≤ low ∧ low ≤ 0xdfff) (h : Chars cs s rest) :
    Chars ('\\' :: 'u' :: x₁ :: x₂ :: x₃ :: x₄ :: '\\' :: 'u' :: y₁ :: y₂ :: y₃ :: y₄ :: cs)
      (Char.ofNat (0x10000 + (high - 0xd800) * 0x400 + (low - 0xdc00)) :: s) rest

/-- A text that does not go on with what could belong to a number. -/
def EndsNumber (rest : List Char) : Prop := ∀ c ∈ rest.head?, c.isDigit = false ∧ c ∉ ['.', 'e', 'E']

/-! ### Grammar -/

/-- What a stretch of text is read as. -/
inductive Part where
  | value (v : JsonValue)
  /-- The items of an array up to its end. -/
  | items (items : List JsonValue)
  | member (key : String) (v : JsonValue)
  /-- The members of an object up to its end. -/
  | members (members : List (String × JsonValue))

/-- The text `cs` starts with a part that nests at most so deep, and goes on with `rest`. -/
inductive Reads : ℕ → List Char → Part → List Char → Prop
  | null (d : ℕ) (rest : List Char) : Reads d ("null".toList ++ rest) (.value .null) rest
  | bool (d : ℕ) (b : Bool) (rest : List Char) :
    Reads d ((if b then "true" else "false").toList ++ rest) (.value (.bool b)) rest
  | nat (d : ℕ) (n : UInt64) {rest : List Char} (h : EndsNumber rest) :
    Reads d (Nat.toDigits 10 n.toNat ++ rest) (.value (.nat n)) rest
  | string (d : ℕ) {cs s rest : List Char} (h : Chars cs s rest) :
    Reads d ('"' :: cs) (.value (.string (String.ofList s))) rest
  | emptyArray (d : ℕ) {cs rest : List Char} (h : skipWs cs = ']' :: rest) :
    Reads (d + 1) ('[' :: cs) (.value (.array [])) rest
  | array {d : ℕ} {cs rest : List Char} {items : List JsonValue} (h : Reads d cs (.items items) rest) :
    Reads (d + 1) ('[' :: cs) (.value (.array items)) rest
  | emptyObject (d : ℕ) {cs rest : List Char} (h : skipWs cs = '}' :: rest) :
    Reads (d + 1) ('{' :: cs) (.value (.object .empty)) rest
  | object {d : ℕ} {cs rest : List Char} {members : List (String × JsonValue)}
    (h : Reads d cs (.members members) rest) :
    Reads (d + 1) ('{' :: cs) (.value (.object (.ofList members))) rest
  | lastItem {d : ℕ} {cs cs' rest : List Char} {v : JsonValue} (h : Reads d (skipWs cs) (.value v) cs')
    (hclose : skipWs cs' = ']' :: rest) : Reads d cs (.items [v]) rest
  | item {d : ℕ} {cs cs₁ cs₂ rest : List Char} {v : JsonValue} {items : List JsonValue}
    (h : Reads d (skipWs cs) (.value v) cs₁)
    (hcomma : skipWs cs₁ = ',' :: cs₂) (hitems : Reads d cs₂ (.items items) rest) :
    Reads d cs (.items (v :: items)) rest
  | member {d : ℕ} {cs cs₁ cs₂ cs₃ rest key : List Char} {v : JsonValue} (hquote : skipWs cs = '"' :: cs₁)
    (hkey : Chars cs₁ key cs₂) (hcolon : skipWs cs₂ = ':' :: cs₃) (h : Reads d (skipWs cs₃) (.value v) rest) :
    Reads d cs (.member (String.ofList key) v) rest
  | lastMember {d : ℕ} {cs cs' rest : List Char} {key : String} {v : JsonValue} (h : Reads d cs (.member key v) cs')
    (hclose : skipWs cs' = '}' :: rest) : Reads d cs (.members [(key, v)]) rest
  | consMember {d : ℕ} {cs cs₁ cs₂ rest : List Char} {key : String} {v : JsonValue}
    {members : List (String × JsonValue)}
    (h : Reads d cs (.member key v) cs₁) (hcomma : skipWs cs₁ = ',' :: cs₂)
    (hmembers : Reads d cs₂ (.members members) rest) : Reads d cs (.members ((key, v) :: members)) rest

/-- How deep a text may nest. -/
def maxNesting : ℕ := 127

/-- The whole of a text is read as a value. -/
def Denotes (text : List Char) (v : JsonValue) : Prop :=
  ∃ rest, Reads maxNesting (skipWs text) (.value v) rest ∧ skipWs rest = []

/-- A parser that reads each text as what it denotes. -/
def Lawful (parse : List UInt8 → Option JsonValue) : Prop :=
  ∀ (text : List Char) (v : JsonValue), Denotes text v → parse (utf8 (String.ofList text)) = some v

/-! ### Compact texts -/

/-- A character as a string has it: the short escapes, else `\u00xx` for a control. -/
def escapeChar (c : Char) : List Char :=
  if c = '"' then ['\\', '"']
  else if c = '\\' then ['\\', '\\']
  else if c = '\x08' then ['\\', 'b']
  else if c = '\x0c' then ['\\', 'f']
  else if c = '\n' then ['\\', 'n']
  else if c = '\r' then ['\\', 'r']
  else if c = '\t' then ['\\', 't']
  else if c.toNat < 0x20 then ['\\', 'u', '0', '0', hexDigit (c.toNat / 16), hexDigit (c.toNat % 16)]
  else [c]

def quote (s : String) : List Char := '"' :: s.toList.flatMap escapeChar ++ ['"']

/-- Texts between brackets, with commas. -/
def bracket (opening closing : Char) (texts : List (List Char)) : List Char :=
  opening :: [','].intercalate texts ++ [closing]

/-- A text that is read as a value wherever it stands before what ends a number. -/
def Prints (d : ℕ) (text : List Char) (v : JsonValue) : Prop :=
  ∀ rest, EndsNumber rest → Reads d (text ++ rest) (.value v) rest

theorem endsNumber_nil : EndsNumber [] := nofun

variable {c : Char} {cs text : List Char} {texts : List (List Char)} {items : List JsonValue}

theorem endsNumber_cons (h : c.isDigit = false ∧ c ∉ ['.', 'e', 'E']) (rest : List Char) :
    EndsNumber (c :: rest) := fun _ hc => Option.some.inj hc ▸ h

theorem skipWs_cons (h : isWhitespace c = false) (rest : List Char) : skipWs (c :: rest) = c :: rest :=
  dropWhile_cons_of_neg (by simp [h])

variable {d : ℕ} {rest : List Char} {v : JsonValue}

/-- The text of a value starts with no white space. -/
theorem Reads.skipWs_eq (h : Reads d cs (.value v) rest) : skipWs cs = cs := by
  cases h with
  | null => rfl
  | bool d b => cases b <;> rfl
  | nat d n _ =>
    cases hdigits : Nat.toDigits 10 n.toNat with
    | nil => exact absurd hdigits (Nat.toDigits_ne_nil)
    | cons c cs =>
      have hc : c.isDigit = true := Nat.isDigit_of_mem_toDigits (by omega) (by omega) (hdigits ▸ mem_cons_self)
      refine skipWs_cons (Bool.eq_false_iff.mpr fun hws => ?_) _
      simp only [isWhitespace, Bool.or_eq_true, decide_eq_true_eq] at hws
      rcases hws with ((rfl | rfl) | rfl) | rfl <;> cases hc
  | string _ => rfl
  | emptyArray _ => rfl
  | array _ => rfl
  | emptyObject _ => rfl
  | object _ => rfl

theorem chars_escapeChar (c : Char) {s : List Char} (h : Chars cs s rest) :
    Chars (escapeChar c ++ cs) (c :: s) rest := by
  rw [escapeChar]
  split_ifs with h₁ h₂ h₃ h₄ h₅ h₆ h₇ h₈
  · exact .escape (by simp [escapes, h₁]) h
  · exact .escape (by simp [escapes, h₂]) h
  · exact .escape (by simp [escapes, h₃]) h
  · exact .escape (by simp [escapes, h₄]) h
  · exact .escape (by simp [escapes, h₅]) h
  · exact .escape (by simp [escapes, h₆]) h
  · exact .escape (by simp [escapes, h₇]) h
  · have hn : hexVal4 '0' '0' (hexDigit (c.toNat / 16)) (hexDigit (c.toNat % 16)) = some c.toNat := by
      rw [hexVal4, hexVal_hexDigit _ (by omega), hexVal_hexDigit _ (by omega)]
      simp [hexVal]
      omega
    have hc := Chars.unicode hn (.inl (by omega)) h
    rwa [Char.ofNat_toNat] at hc
  · exact .raw h₁ h₂ (not_lt.mp h₈) h

theorem chars_flatMap_escapeChar (s rest : List Char) : Chars (s.flatMap escapeChar ++ '"' :: rest) s rest := by
  induction s with
  | nil => exact .close rest
  | cons c s ih =>
    rw [flatMap_cons, append_assoc]
    exact chars_escapeChar c ih

theorem chars_quote (s : String) (rest : List Char) : ∃ cs, quote s ++ rest = '"' :: cs ∧ Chars cs s.toList rest := by
  refine ⟨s.toList.flatMap escapeChar ++ '"' :: rest, by simp [quote], chars_flatMap_escapeChar _ _⟩

theorem prints_quote (d : ℕ) (s : String) : Prints d (quote s) (.string s) := by
  intro rest _
  obtain ⟨cs, hcs, hchars⟩ := chars_quote s rest
  rw [hcs]
  simpa using Reads.string d hchars

theorem prints_null (d : ℕ) : Prints d "null".toList .null := fun rest _ => .null d rest

theorem prints_bool (d : ℕ) (b : Bool) : Prints d (if b then "true" else "false").toList (.bool b) :=
  fun rest _ => .bool d b rest

theorem prints_nat (d : ℕ) (n : UInt64) : Prints d (Nat.toDigits 10 n.toNat) (.nat n) :=
  fun _ h => .nat d n h

theorem endsNumber_comma (rest : List Char) : EndsNumber (',' :: rest) := endsNumber_cons (by decide) rest

theorem endsNumber_bracket (rest : List Char) : EndsNumber (']' :: rest) := endsNumber_cons (by decide) rest

theorem endsNumber_brace (rest : List Char) : EndsNumber ('}' :: rest) := endsNumber_cons (by decide) rest

theorem reads_items (h : List.Forall₂ (Prints d) texts items) (hne : items ≠ []) (rest : List Char) :
    Reads d ([','].intercalate texts ++ ']' :: rest) (.items items) rest := by
  induction h with
  | nil => exact absurd rfl hne
  | @cons text v texts items hv hrest ih =>
    cases hrest with
    | nil =>
      have hread := hv _ (endsNumber_bracket rest)
      rw [← hread.skipWs_eq] at hread
      simpa using Reads.lastItem hread (skipWs_cons (by decide) rest)
    | @cons text' v' texts' items' hv' hrest' =>
      have hread := hv _ (endsNumber_comma ([','].intercalate (text' :: texts') ++ ']' :: rest))
      rw [← hread.skipWs_eq] at hread
      have hitem := Reads.item hread (skipWs_cons (by decide) _) (ih (cons_ne_nil _ _))
      simpa using hitem

theorem prints_array (h : List.Forall₂ (Prints d) texts items) :
    Prints (d + 1) (bracket '[' ']' texts) (.array items) := by
  intro rest _
  cases items with
  | nil =>
    obtain rfl := forall₂_nil_right_iff.mp h
    exact .emptyArray d (skipWs_cons (by decide) rest)
  | cons v items =>
    have hread := Reads.array (reads_items h (cons_ne_nil _ _) rest)
    simpa [bracket] using hread

/-- The text of a member. -/
def memberText (key : String) (text : List Char) : List Char := quote key ++ ':' :: text

theorem reads_member {key : String} (h : Prints d text v)
    (hends : EndsNumber rest) : Reads d (memberText key text ++ rest) (.member key v) rest := by
  obtain ⟨cs, hcs, hchars⟩ := chars_quote key (':' :: text ++ rest)
  have hread := h rest hends
  rw [← hread.skipWs_eq] at hread
  have hquote : skipWs (memberText key text ++ rest) = '"' :: cs := by
    rw [memberText, append_assoc, hcs]
    exact skipWs_cons (by decide) cs
  have hmember := Reads.member hquote hchars (skipWs_cons (by decide) _) hread
  rwa [String.ofList_toList] at hmember

theorem reads_members {texts : List (String × List Char)} {members : List (String × JsonValue)}
    (h : List.Forall₂ (fun x y => x.1 = y.1 ∧ Prints d x.2 y.2) texts members) (hne : members ≠ []) (rest : List Char) :
    Reads d ([','].intercalate (texts.map fun x => memberText x.1 x.2) ++ '}' :: rest) (.members members) rest := by
  induction h with
  | nil => exact absurd rfl hne
  | @cons x y texts members hxy hrest ih =>
    obtain ⟨key, v⟩ := y
    obtain ⟨rfl, hv⟩ := hxy
    cases hrest with
    | nil =>
      simpa using Reads.lastMember (reads_member hv (endsNumber_brace rest)) (skipWs_cons (by decide) rest)
    | @cons x' y' texts' members' hxy' hrest' =>
      have hmembers := ih (cons_ne_nil _ _)
      have hmember : ∀ cs, Reads d (memberText x.1 x.2 ++ ',' :: cs) (.member x.1 v) (',' :: cs) := fun cs =>
        reads_member hv (endsNumber_comma cs)
      simpa using (hmember _).consMember (skipWs_cons (by decide) _) hmembers

theorem prints_object {texts : List (String × List Char)} {members : SortedMap String JsonValue}
    (h : List.Forall₂ (fun x y => x.1 = y.1 ∧ Prints d x.2 y.2) texts members.entries) :
    Prints (d + 1) (bracket '{' '}' (texts.map fun x => memberText x.1 x.2)) (.object members) := by
  intro rest _
  by_cases hnil : members.entries = []
  · rw [hnil] at h
    obtain rfl := forall₂_nil_right_iff.mp h
    obtain rfl : members = .empty := SortedMap.ext hnil
    exact .emptyObject d (skipWs_cons (by decide) rest)
  · have hread := Reads.object (reads_members h hnil rest)
    rw [SortedMap.ofList_entries members] at hread
    simpa [bracket] using hread

/-- A compact text denotes what it prints. -/
theorem Prints.denotes (h : Prints maxNesting text v) : Denotes text v := by
  have hread := h [] endsNumber_nil
  rw [append_nil] at hread
  exact ⟨[], hread.skipWs_eq.symm ▸ hread, rfl⟩

end DashForge.Json
