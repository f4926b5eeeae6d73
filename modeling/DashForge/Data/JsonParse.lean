import DashForge.Data.JsonText

/-!
# A lawful JSON parser

A recursive descent over the characters, and that it reads each text the grammar has as what it denotes
(`lawful_parse`). The fuel of the descent is two steps a character: one for a value and one for the list it
stands in.
-/

namespace DashForge.Json

open List

/-! ### Tokens -/

/-- The character of a `\u` escape, which is two escapes where the first is a surrogate. -/
def readUnicode : List Char → Option (Char × List Char)
  | x₁ :: x₂ :: x₃ :: x₄ :: cs => do
    let n ← hexVal4 x₁ x₂ x₃ x₄
    if n < 0xd800 ∨ 0xdfff < n then return (Char.ofNat n, cs)
    match cs with
    | '\\' :: 'u' :: y₁ :: y₂ :: y₃ :: y₄ :: cs => do
      let low ← hexVal4 y₁ y₂ y₃ y₄
      if n ≤ 0xdbff ∧ 0xdc00 ≤ low ∧ low ≤ 0xdfff then
        some (Char.ofNat (0x10000 + (n - 0xd800) * 0x400 + (low - 0xdc00)), cs)
      else none
    | _ => none
  | _ => none

/-- The character an escape stands for. -/
def readEscape : List Char → Option (Char × List Char)
  | 'u' :: cs => readUnicode cs
  | e :: cs => (escapes.lookup e).map fun c => (c, cs)
  | [] => none

/-- The characters of a string up to its closing quote. -/
def readChars : ℕ → List Char → Option (List Char × List Char)
  | 0, _ => none
  | _, [] => none
  | fuel + 1, c :: cs =>
    if c = '"' then some ([], cs)
    else if c = '\\' then do
      let (c, cs) ← readEscape cs
      let (s, rest) ← readChars fuel cs
      return (c :: s, rest)
    else if 0x20 ≤ c.toNat then do
      let (s, rest) ← readChars fuel cs
      return (c :: s, rest)
    else none

def readNat (cs : List Char) : Option (JsonValue × List Char) :=
  let digits := cs.takeWhile Char.isDigit
  let n := Nat.ofDigitChars 10 digits 0
  if Nat.toDigits 10 n = digits ∧ n < 2 ^ 64 then some (.nat (UInt64.ofNat n), cs.dropWhile Char.isDigit) else none

/-- A value of one token. -/
def readScalar (cs : List Char) : Option (JsonValue × List Char) :=
  match cs with
  | '"' :: cs => (readChars cs.length cs).map fun x => (.string (String.ofList x.1), x.2)
  | 'n' :: 'u' :: 'l' :: 'l' :: rest => some (.null, rest)
  | 't' :: 'r' :: 'u' :: 'e' :: rest => some (.bool true, rest)
  | 'f' :: 'a' :: 'l' :: 's' :: 'e' :: rest => some (.bool false, rest)
  | cs => readNat cs

/-! ### Values -/

mutual

def readValue : ℕ → List Char → Option (JsonValue × List Char)
  | 0, _ => none
  | fuel + 1, '[' :: cs =>
    match skipWs cs with
    | ']' :: rest => some (.array [], rest)
    | _ => (readItems fuel cs).map fun x => (.array x.1, x.2)
  | fuel + 1, '{' :: cs =>
    match skipWs cs with
    | '}' :: rest => some (.object .empty, rest)
    | _ => (readMembers fuel cs).map fun x => (.object (.ofList x.1), x.2)
  | _, cs => readScalar cs

def readItems : ℕ → List Char → Option (List JsonValue × List Char)
  | 0, _ => none
  | fuel + 1, cs => do
    let (v, cs) ← readValue fuel (skipWs cs)
    match skipWs cs with
    | ']' :: rest => some ([v], rest)
    | ',' :: cs => (readItems fuel cs).map fun x => (v :: x.1, x.2)
    | _ => none

def readMember : ℕ → List Char → Option ((String × JsonValue) × List Char)
  | 0, _ => none
  | fuel + 1, cs =>
    match skipWs cs with
    | '"' :: cs => do
      let (key, cs) ← readChars cs.length cs
      match skipWs cs with
      | ':' :: cs => (readValue fuel (skipWs cs)).map fun x => ((String.ofList key, x.1), x.2)
      | _ => none
    | _ => none

def readMembers : ℕ → List Char → Option (List (String × JsonValue) × List Char)
  | 0, _ => none
  | fuel + 1, cs => do
    let (m, cs) ← readMember fuel cs
    match skipWs cs with
    | '}' :: rest => some ([m], rest)
    | ',' :: cs => (readMembers fuel cs).map fun x => (m :: x.1, x.2)
    | _ => none

end

/-- The value a whole text is read as. -/
def parseText (text : List Char) : Option JsonValue :=
  match readValue (2 * text.length) (skipWs text) with
  | some (v, rest) => if skipWs rest = [] then some v else none
  | none => none

def parse (bytes : List UInt8) : Option JsonValue := (fromUtf8 bytes).bind fun s => parseText s.toList

/-! ### Completeness -/

variable {cs rest : List Char} {d : ℕ} {v : JsonValue}

theorem Chars.length_lt {s : List Char} (h : Chars cs s rest) : rest.length < cs.length := by
  induction h <;> simp only [length_cons] at * <;> omega

theorem readEscape_letter {e c : Char} (h : (e, c) ∈ escapes) (cs : List Char) :
    readEscape (e :: cs) = some (c, cs) := by
  simp only [escapes, mem_cons, Prod.mk.injEq, not_mem_nil, or_false] at h
  rcases h with h | h | h | h | h | h | h | h <;> obtain ⟨rfl, rfl⟩ := h <;> rfl

section Escapes

variable {x₁ x₂ x₃ x₄ y₁ y₂ y₃ y₄ : Char} {n low : ℕ} (hn : hexVal4 x₁ x₂ x₃ x₄ = some n) (cs : List Char)

include hn

theorem readEscape_unicode (hscalar : n < 0xd800 ∨ 0xdfff < n) :
    readEscape ('u' :: x₁ :: x₂ :: x₃ :: x₄ :: cs) = some (Char.ofNat n, cs) := by
  simp [readEscape, readUnicode, hn, hscalar]

theorem readEscape_surrogates (hhigh : 0xd800 ≤ n ∧ n ≤ 0xdbff) (hy : hexVal4 y₁ y₂ y₃ y₄ = some low)
    (hlow : 0xdc00 ≤ low ∧ low ≤ 0xdfff) :
    readEscape ('u' :: x₁ :: x₂ :: x₃ :: x₄ :: '\\' :: 'u' :: y₁ :: y₂ :: y₃ :: y₄ :: cs) =
      some (Char.ofNat (0x10000 + (n - 0xd800) * 0x400 + (low - 0xdc00)), cs) := by
  have hnot : ¬(n < 0xd800 ∨ 0xdfff < n) := by omega
  simp [readEscape, readUnicode, hn, hnot, hy, hhigh.2, hlow]

end Escapes

theorem exists_succ {c : Char} {cs : List Char} {fuel : ℕ} (h : (c :: cs).length ≤ fuel) : ∃ n, fuel = n + 1 :=
  Nat.exists_eq_succ_of_ne_zero (Nat.ne_zero_of_lt (h.trans_lt' (Nat.succ_pos _)))

theorem Chars.readChars_eq {s : List Char} (h : Chars cs s rest) {fuel : ℕ} (hfuel : cs.length ≤ fuel) :
    readChars fuel cs = some (s, rest) := by
  have hescape : ∀ {c : Char} {cs cs' s rest : List Char} {fuel : ℕ}, readEscape cs = some (c, cs') →
      readChars fuel cs' = some (s, rest) → readChars (fuel + 1) ('\\' :: cs) = some (c :: s, rest) :=
    fun hc hs => by simp [readChars, hc, hs]
  induction h generalizing fuel with
  | close rest =>
    obtain ⟨fuel, rfl⟩ := exists_succ hfuel
    rfl
  | raw hquote hnot hcontrol _ ih =>
    obtain ⟨fuel, rfl⟩ := exists_succ hfuel
    simp [readChars, hquote, hnot, hcontrol, ih (Nat.le_of_succ_le_succ hfuel)]
  | escape hmem _ ih =>
    obtain ⟨fuel, rfl⟩ := exists_succ hfuel
    exact hescape (readEscape_letter hmem _) (ih (by simp at hfuel; omega))
  | unicode hn hscalar _ ih =>
    obtain ⟨fuel, rfl⟩ := exists_succ hfuel
    exact hescape (readEscape_unicode hn _ hscalar) (ih (by simp at hfuel; omega))
  | surrogates hhigh hhigh' hlow hlow' _ ih =>
    obtain ⟨fuel, rfl⟩ := exists_succ hfuel
    exact hescape (readEscape_surrogates hhigh _ hhigh' hlow hlow') (ih (by simp at hfuel; omega))

theorem readNat_toDigits (n : UInt64) (h : EndsNumber rest) :
    readNat (Nat.toDigits 10 n.toNat ++ rest) = some (.nat n, rest) := by
  have hdigits : ∀ c ∈ Nat.toDigits 10 n.toNat, c.isDigit = true := fun c hc =>
    Nat.isDigit_of_mem_toDigits (by omega) (by omega) hc
  have hrest : rest.takeWhile Char.isDigit = [] ∧ rest.dropWhile Char.isDigit = rest := by
    cases rest with
    | nil => exact ⟨rfl, rfl⟩
    | cons c rest => simp [(h c rfl).1]
  rw [readNat, takeWhile_append_of_pos hdigits, dropWhile_append_of_pos hdigits, hrest.1, hrest.2,
    append_nil, Nat.ofDigitChars_ten_toDigits]
  simp [n.toNat_lt]

theorem length_skipWs_le (cs : List Char) : (skipWs cs).length ≤ cs.length := (dropWhile_suffix _).length_le

theorem Reads.length_lt {p : Part} (h : Reads d cs p rest) : rest.length < cs.length := by
  have hskip : ∀ {cs rest : List Char} {c : Char}, skipWs cs = c :: rest → rest.length < cs.length :=
    fun {cs _ _} h => by
      have := length_skipWs_le cs
      rw [h, length_cons] at this
      omega
  induction h with
  | null =>
    simp
    omega
  | bool d b => cases b <;> simp <;> omega
  | nat d n =>
    have := Nat.length_toDigits_pos (b := 10) (n := n.toNat)
    simp
    omega
  | string d h => exact h.length_lt.trans (Nat.lt_succ_self _)
  | emptyArray d h => exact (hskip h).trans (Nat.lt_succ_self _)
  | array _ ih => exact ih.trans (Nat.lt_succ_self _)
  | emptyObject d h => exact (hskip h).trans (Nat.lt_succ_self _)
  | object _ ih => exact ih.trans (Nat.lt_succ_self _)
  | lastItem _ hclose ih => exact (hskip hclose).trans (ih.trans_le (length_skipWs_le _))
  | item _ hcomma _ ih ih' => exact ih'.trans ((hskip hcomma).trans (ih.trans_le (length_skipWs_le _)))
  | member hquote hkey hcolon _ ih =>
    exact ih.trans_le ((length_skipWs_le _).trans ((hskip hcolon).trans (hkey.length_lt.trans (hskip hquote))).le)
  | lastMember _ hclose ih => exact (hskip hclose).trans ih
  | consMember _ hcomma _ ih ih' => exact ih'.trans ((hskip hcomma).trans ih)

theorem exists_isDigit (n : UInt64) : ∃ c cs, Nat.toDigits 10 n.toNat = c :: cs ∧ c.isDigit = true := by
  cases hdigits : Nat.toDigits 10 n.toNat with
  | nil => exact absurd hdigits Nat.toDigits_ne_nil
  | cons c cs => exact ⟨c, cs, rfl, Nat.isDigit_of_mem_toDigits (by omega) (by omega) (hdigits ▸ mem_cons_self)⟩

theorem readValue_of_isDigit {c : Char} (h : c.isDigit = true) (fuel : ℕ) (cs : List Char) :
    readValue (fuel + 1) (c :: cs) = readNat (c :: cs) := by
  have hne : c ∉ ['[', '{', '"', 'n', 't', 'f'] := fun hmem => by
    simp only [mem_cons, not_mem_nil, or_false] at hmem
    rcases hmem with rfl | rfl | rfl | rfl | rfl | rfl <;> cases h
  rw [readValue.eq_def]
  split
  all_goals simp_all [readScalar]

theorem Reads.ne_bracket (h : Reads d cs (.value v) rest) (rest' : List Char) : cs ≠ ']' :: rest' := by
  rintro rfl
  generalize hcs : ']' :: rest' = cs at h
  cases h with
  | bool d b => cases b <;> cases hcs
  | nat d n =>
    obtain ⟨c, cs, heq, hc⟩ := exists_isDigit n
    rw [heq] at hcs
    obtain ⟨rfl, -⟩ := List.cons.inj hcs
    cases hc
  | _ => cases hcs

theorem Reads.ne_brace {key : String}
    (h : Reads d cs (.member key v) rest) (rest' : List Char) : skipWs cs ≠ '}' :: rest' := by
  intro hclose
  cases h with
  | member hquote => cases hquote.symm.trans hclose

/-- What the parser finds where a part is read. -/
def Found (cs rest : List Char) : Part → Prop
  | .value v => ∀ fuel, 2 * cs.length ≤ fuel → readValue fuel cs = some (v, rest)
  | .items items => ∀ fuel, 2 * cs.length + 1 ≤ fuel → readItems fuel cs = some (items, rest)
  | .member key v => ∀ fuel, 2 * cs.length ≤ fuel → readMember fuel cs = some ((key, v), rest)
  | .members members => ∀ fuel, 2 * cs.length + 1 ≤ fuel → readMembers fuel cs = some (members, rest)

theorem Reads.found {p : Part} (h : Reads d cs p rest) : Found cs rest p := by
  have hsucc : ∀ {cs rest : List Char} {fuel : ℕ}, rest.length < cs.length → 2 * cs.length ≤ fuel →
      ∃ n, fuel = n + 1 := fun hlt hle => ⟨_, (Nat.succ_pred_eq_of_pos (by omega)).symm⟩
  induction h with
  | null d rest =>
    intro fuel hfuel
    obtain ⟨fuel, rfl⟩ := hsucc (Reads.null d rest).length_lt hfuel
    rfl
  | bool d b rest =>
    intro fuel hfuel
    obtain ⟨fuel, rfl⟩ := hsucc (Reads.bool d b rest).length_lt hfuel
    cases b <;> rfl
  | nat d n hends =>
    intro fuel hfuel
    obtain ⟨fuel, rfl⟩ := hsucc (Reads.nat d n hends).length_lt hfuel
    obtain ⟨c, cs, heq, hc⟩ := exists_isDigit n
    have hnat := readNat_toDigits n hends
    rw [heq] at hnat ⊢
    exact (readValue_of_isDigit hc fuel _).trans hnat
  | string d hchars =>
    intro fuel hfuel
    obtain ⟨fuel, rfl⟩ := hsucc (Reads.string d hchars).length_lt hfuel
    simp [readValue, readScalar, hchars.readChars_eq le_rfl]
  | emptyArray d hclose =>
    intro fuel hfuel
    obtain ⟨fuel, rfl⟩ := hsucc (Reads.emptyArray d hclose).length_lt hfuel
    simp [readValue, hclose]
  | emptyObject d hclose =>
    intro fuel hfuel
    obtain ⟨fuel, rfl⟩ := hsucc (Reads.emptyObject d hclose).length_lt hfuel
    simp [readValue, hclose]
  | @array d cs rest items hitems ih =>
    intro fuel hfuel
    obtain ⟨fuel, rfl⟩ := hsucc (Reads.array hitems).length_lt hfuel
    rw [readValue]
    split
    · next hclose =>
      -- the items start with a value
      cases hitems with
      | lastItem hv _ => exact absurd hclose (hv.ne_bracket _)
      | item hv _ _ => exact absurd hclose (hv.ne_bracket _)
    · rw [ih fuel (by simp at hfuel; omega)]
      rfl
  | @object d cs rest members hmembers ih =>
    intro fuel hfuel
    obtain ⟨fuel, rfl⟩ := hsucc (Reads.object hmembers).length_lt hfuel
    rw [readValue]
    split
    · next hclose =>
      -- the members start with a key
      cases hmembers with
      | lastMember hm _ => exact absurd hclose (hm.ne_brace _)
      | consMember hm _ _ => exact absurd hclose (hm.ne_brace _)
    · rw [ih fuel (by simp at hfuel; omega)]
      rfl
  | @lastItem d cs cs' rest v hv hclose ih =>
    intro fuel hfuel
    obtain ⟨fuel, rfl⟩ : ∃ n, fuel = n + 1 := ⟨fuel - 1, by omega⟩
    have hle := length_skipWs_le cs
    rw [readItems, ih fuel (by omega)]
    simp [hclose]
  | @item d cs cs₁ cs₂ rest v items hv hcomma hitems ih ih' =>
    intro fuel hfuel
    obtain ⟨fuel, rfl⟩ : ∃ n, fuel = n + 1 := ⟨fuel - 1, by omega⟩
    have hle := length_skipWs_le cs
    have hlt := hv.length_lt
    have hle' := length_skipWs_le cs₁
    rw [hcomma, length_cons] at hle'
    rw [readItems, ih fuel (by omega)]
    simp [hcomma, ih' fuel (by omega)]
  | @member d cs cs₁ cs₂ cs₃ rest key v hquote hkey hcolon hv ih =>
    intro fuel hfuel
    obtain ⟨fuel, rfl⟩ := hsucc (Reads.member hquote hkey hcolon hv).length_lt hfuel
    have h₁ := length_skipWs_le cs
    have h₂ := hkey.length_lt
    have h₃ := length_skipWs_le cs₂
    have h₄ := length_skipWs_le cs₃
    rw [hquote, length_cons] at h₁
    rw [hcolon, length_cons] at h₃
    simp [readMember, hquote, hkey.readChars_eq le_rfl, hcolon, ih fuel (by omega)]
  | @lastMember d cs cs' rest key v hm hclose ih =>
    intro fuel hfuel
    obtain ⟨fuel, rfl⟩ : ∃ n, fuel = n + 1 := ⟨fuel - 1, by omega⟩
    rw [readMembers, ih fuel (by omega)]
    simp [hclose]
  | @consMember d cs cs₁ cs₂ rest key v members hm hcomma hmembers ih ih' =>
    intro fuel hfuel
    obtain ⟨fuel, rfl⟩ : ∃ n, fuel = n + 1 := ⟨fuel - 1, by omega⟩
    have hlt := hm.length_lt
    have hle := length_skipWs_le cs₁
    rw [hcomma, length_cons] at hle
    rw [readMembers, ih fuel (by omega)]
    simp [hcomma, ih' fuel (by omega)]

theorem parseText_eq {text : List Char} (h : Denotes text v) : parseText text = some v := by
  obtain ⟨rest, hread, hrest⟩ := h
  have hle := length_skipWs_le text
  rw [parseText, hread.found (2 * text.length) (by omega)]
  exact if_pos hrest

theorem lawful_parse : Lawful parse := by
  intro text v h
  rw [parse, fromUtf8_utf8, Option.bind_some, String.toList_ofList]
  exact parseText_eq h

end DashForge.Json
