import DashForge.Rules.RefName

/-!
# Protected patterns as tokens

A pattern is read as tokens: `\x` is the literal `x`, any other character stands for itself, with whatever meaning the
glob matcher gives it. `neutralizeWildmatch` (`rules.rs`) is to make literals of the braces and of a leading run of `!`
and to leave all other tokens as they are. It puts a backslash before every brace, also before one that has one
(`patternTokens_neutralizeWildmatch`), so that it does what it is to do exactly where the pattern escapes no brace
(`neutralizeWildmatch_neutral_iff`).
-/

namespace DashForge

open List

/-! ### Tokens -/

inductive PatternToken where
  /-- An escaped character. -/
  | literal (c : Char)
  /-- A character as the matcher reads it. -/
  | plain (c : Char)
deriving DecidableEq, Repr

/-- The tokens of a pattern. A backslash at its end escapes nothing. -/
def patternTokens : List Char → List PatternToken
  | [] => []
  | ['\\'] => [.plain '\\']
  | '\\' :: c :: rest => .literal c :: patternTokens rest
  | c :: rest => .plain c :: patternTokens rest

def isBrace (c : Char) : Bool := c = Char.ofNat 0x7b ∨ c = Char.ofNat 0x7d

namespace PatternToken

/-- A brace that is not escaped. -/
def isOpenBrace : PatternToken → Bool
  | literal _ => false
  | plain c => isBrace c

/-- A brace that is escaped. -/
def isEscapedBrace : PatternToken → Bool
  | literal c => isBrace c
  | plain _ => false

/-- A brace as a literal. -/
def neutral : PatternToken → PatternToken
  | literal c => .literal c
  | plain c => if isBrace c then .literal c else .plain c

/-- What becomes of a token when every brace gets a backslash: one that had one has it escaped instead. -/
def escaped : PatternToken → List PatternToken
  | literal c => if isBrace c then [.literal '\\', .plain c] else [.literal c]
  | plain c => if isBrace c then [.literal c] else [.plain c]

theorem escaped_eq {t : PatternToken} (h : t.isEscapedBrace = false) : t.escaped = [t.neutral] := by
  cases t with
  | literal c =>
    have hc : isBrace c = false := h
    simp [escaped, neutral, hc]
  | plain c =>
    simp only [escaped, neutral]
    split <;> rfl

theorem isOpenBrace_neutral (t : PatternToken) : t.neutral.isOpenBrace = false := by
  cases t with
  | literal c => rfl
  | plain c =>
    simp only [neutral]
    split
    · rfl
    · next hc => exact Bool.not_eq_true _ ▸ hc

theorem exists_isOpenBrace_escaped {t : PatternToken} (h : t.isEscapedBrace = true) :
    ∃ t' ∈ t.escaped, t'.isOpenBrace = true := by
  cases t with
  | literal c =>
    have hc : isBrace c = true := h
    exact ⟨.plain c, by simp [escaped, hc], hc⟩
  | plain c => cases h

end PatternToken

/-- The tokens with braces and the `!` of a leading run as literals. -/
def neutralTokens : List PatternToken → List PatternToken
  | .plain '!' :: tokens => .literal '!' :: neutralTokens tokens
  | tokens => tokens.map PatternToken.neutral

/-! ### What is escaped -/

@[simp]
theorem patternTokens_backslash (c : Char) (rest : List Char) :
    patternTokens ('\\' :: c :: rest) = .literal c :: patternTokens rest := rfl

variable {c : Char} {tokens : List PatternToken}

theorem patternTokens_cons (hc : c ≠ '\\') (rest : List Char) :
    patternTokens (c :: rest) = .plain c :: patternTokens rest := by
  rw [patternTokens]
  · exact fun h => absurd h hc
  · exact fun c' rest' h => absurd h hc

theorem isBrace_ne_backslash (h : isBrace c = true) : c ≠ '\\' := by
  rintro rfl
  exact absurd h (by decide)

theorem escapeBraces_cons (c : Char) (cs : List Char) :
    escapeBraces (c :: cs) = (if isBrace c then ['\\', c] else [c]) ++ escapeBraces cs := by
  simp [escapeBraces, isBrace]

theorem ne_backslash {rest : List Char} (hlone : c = '\\' → rest = [] → False)
    (hescape : ∀ c' rest', c = '\\' → rest = c' :: rest' → False) : c ≠ '\\' := by
  intro hc
  cases rest with
  | nil => exact hlone hc rfl
  | cons c' rest => exact hescape c' rest hc rfl

theorem patternTokens_escapeBraces (cs : List Char) :
    patternTokens (escapeBraces cs) = (patternTokens cs).flatMap PatternToken.escaped := by
  fun_induction patternTokens cs with
  | case1 => rfl
  | case2 => rfl
  | case3 c rest ih =>
    rw [escapeBraces_cons, if_neg (by decide), escapeBraces_cons, flatMap_cons, PatternToken.escaped, ← ih]
    by_cases hc : isBrace c = true
    · rw [if_pos hc, if_pos hc]
      exact congrArg (PatternToken.literal '\\' :: ·) (patternTokens_cons (isBrace_ne_backslash hc) _)
    · rw [if_neg hc, if_neg hc]
      rfl
  | case4 c rest hlone hescape ih =>
    have hbackslash := ne_backslash hlone hescape
    rw [escapeBraces_cons, flatMap_cons, PatternToken.escaped, ← ih]
    by_cases hc : isBrace c = true
    · rw [if_pos hc, if_pos hc]
      rfl
    · rw [if_neg hc, if_neg hc]
      exact patternTokens_cons hbackslash _

theorem eq_cons_of_patternTokens {cs : List Char}
    (h : patternTokens cs = .plain '!' :: tokens) : cs = '!' :: cs.tail := by
  fun_cases patternTokens cs with
  | case1 => cases h
  | case2 => cases h
  | case3 c rest => cases h
  | case4 c rest hlone hescape =>
    have hbackslash := ne_backslash hlone hescape
    rw [patternTokens_cons hbackslash] at h
    rw [PatternToken.plain.inj (List.cons.inj h).1, tail_cons]

/-- The tokens that the pass makes. -/
def escapedTokens : List PatternToken → List PatternToken
  | .plain '!' :: tokens => .literal '!' :: escapedTokens tokens
  | tokens => tokens.flatMap PatternToken.escaped

theorem patternTokens_escapeLeadingBangs (cs : List Char) :
    patternTokens (escapeLeadingBangs cs) = escapedTokens (patternTokens cs) := by
  fun_induction escapeLeadingBangs cs with
  | case1 cs ih => rw [patternTokens_backslash, ih, patternTokens_cons (by decide), escapedTokens]
  | case2 cs hno =>
    rw [patternTokens_escapeBraces, escapedTokens]
    exact fun tokens htokens => hno _ (eq_cons_of_patternTokens htokens)

theorem patternTokens_neutralizeWildmatch (p : String) :
    patternTokens (neutralizeWildmatch p).toList = escapedTokens (patternTokens p.toList) := by
  rw [neutralizeWildmatch, String.toList_ofList, patternTokens_escapeLeadingBangs]

/-! ### Neutral patterns -/

theorem escapedTokens_eq (h : ∀ t ∈ tokens, t.isEscapedBrace = false) :
    escapedTokens tokens = neutralTokens tokens := by
  fun_induction neutralTokens tokens with
  | case1 tokens ih => rw [escapedTokens, ih fun t ht => h t (mem_cons_of_mem _ ht)]
  | case2 tokens hno =>
    rw [escapedTokens]
    · rw [← flatMap_singleton' (tokens.map PatternToken.neutral), flatMap_map]
      exact flatMap_congr fun t ht => PatternToken.escaped_eq (h t ht)
    · exact hno

theorem isOpenBrace_neutralTokens : ∀ t ∈ neutralTokens tokens, t.isOpenBrace = false := by
  fun_induction neutralTokens tokens with
  | case1 tokens ih => exact forall_mem_cons.mpr ⟨rfl, ih⟩
  | case2 tokens hno => exact forall_mem_map.mpr fun t _ => t.isOpenBrace_neutral

theorem exists_isOpenBrace_escapedTokens {t : PatternToken} (ht : t ∈ tokens)
    (hbrace : t.isEscapedBrace = true) : ∃ t' ∈ escapedTokens tokens, t'.isOpenBrace = true := by
  fun_induction escapedTokens tokens with
  | case1 tokens ih =>
    rcases mem_cons.mp ht with rfl | ht
    · cases hbrace
    · obtain ⟨t', ht', hopen⟩ := ih ht
      exact ⟨t', mem_cons_of_mem _ ht', hopen⟩
  | case2 tokens hno =>
    obtain ⟨t', ht', hopen⟩ := PatternToken.exists_isOpenBrace_escaped hbrace
    exact ⟨t', mem_flatMap.mpr ⟨t, ht, ht'⟩, hopen⟩

theorem head_neutralTokens : (neutralTokens tokens).head? ≠ some (.plain '!') := by
  fun_induction neutralTokens tokens with
  | case1 tokens ih => exact nofun
  | case2 tokens hno =>
    intro h
    cases tokens with
    | nil => cases h
    | cons t tokens =>
      have hneutral : t.neutral = .plain '!' := Option.some.inj h
      refine hno tokens (congrArg (· :: tokens) ?_)
      cases t with
      | literal c => cases hneutral
      | plain c =>
        simp only [PatternToken.neutral] at hneutral
        split at hneutral
        · cases hneutral
        · exact hneutral

/-- A pattern is made neutral, with braces and the leading `!` literals and all else as it was, exactly where it escapes
no brace. -/
theorem neutralizeWildmatch_neutral_iff (p : String) :
    (patternTokens (neutralizeWildmatch p).toList = neutralTokens (patternTokens p.toList) ∧
      (∀ t ∈ patternTokens (neutralizeWildmatch p).toList, t.isOpenBrace = false) ∧
      (patternTokens (neutralizeWildmatch p).toList).head? ≠ some (.plain '!')) ↔
    ∀ t ∈ patternTokens p.toList, t.isEscapedBrace = false := by
  rw [patternTokens_neutralizeWildmatch]
  constructor
  · rintro ⟨-, hopen, -⟩ t ht
    by_contra hbrace
    obtain ⟨t', ht', hopen'⟩ := exists_isOpenBrace_escapedTokens ht (Bool.not_eq_false _ ▸ hbrace)
    exact absurd hopen' (Bool.not_eq_true _ ▸ hopen t' ht')
  · intro h
    rw [escapedTokens_eq h]
    exact ⟨rfl, isOpenBrace_neutralTokens, head_neutralTokens⟩

/-- An escaped brace opens an alternation. -/
theorem neutralizeWildmatch_escapedBrace :
    patternTokens (neutralizeWildmatch "\\\x7ba,b\\\x7d").toList ≠ neutralTokens
      (patternTokens "\\\x7ba,b\\\x7d".toList) ∧
      .plain (Char.ofNat 0x7b) ∈ patternTokens (neutralizeWildmatch "\\\x7ba,b\\\x7d").toList := by
  decide

end DashForge
