import Mathlib.Data.List.Infix

/-!
# Ref names and protected patterns

The two string tests every ref update passes before it can move a ref (`rules.rs`): a legal ref
name (`isLegalRefName`, the contract's ref grammar with its length and `.lock` rules), and the
protected patterns of a config (`matchesProtected`).

Two things live outside the repository and are fields of `RefEnv`: the SHA-256 of a name in hex
and the glob matcher. Byte tests of the source concern ASCII bytes only, so they are tests of
characters here; lengths are counted in UTF-8 bytes.
-/

namespace DashForge

/-- The third-party functions the ref rules call. -/
structure RefEnv where
  /-- `hex::encode(Sha256(name))`. -/
  sha256Hex : String → String
  /-- `glob_match::glob_match(pattern, text)`. -/
  globMatch : String → String → Bool

/-! ### Legal names -/

/-- The longest ref name (and default branch) the contract stores, in bytes. -/
def maxRefNameBytes : ℕ := 255

/-- A character the ref grammar excludes: a control character, space, DEL or one of
`~^:?*[\`. -/
def isForbiddenRefChar (c : Char) : Bool :=
  decide (c.toNat ≤ 0x20) || c.toNat == 0x7f || "~^:?*[\\".toList.contains c

/-- The contract's ref grammar after `refs/`: components split by `/` are non-empty and do not
start with `.`; no `..`, no `@` before an opening brace, no trailing `.`, no forbidden
character. -/
def isLegalRefPath (path : List Char) : Bool :=
  !path.isEmpty
    && !decide (['.', '.'] <:+: path)
    && !decide (['@', Char.ofNat 0x7b] <:+: path)
    && !decide (['.'] <:+ path)
    && !path.any isForbiddenRefChar
    && (path.splitOn '/').all fun c => !c.isEmpty && !decide (['.'] <+: c)

/-- Whether a ref name is one the contract accepts on a ref update. -/
def isLegalRefName (name : String) : Bool :=
  decide (name.utf8ByteSize ≤ maxRefNameBytes)
    && (name.toList.dropPrefix? "refs/".toList).any isLegalRefPath
    && !decide (".lock".toList <:+ name.toList)

/-! ### The key a name is filed under -/

/-- An ASCII hex digit of either case. -/
def isAsciiHexdigit (c : Char) : Bool :=
  c.isDigit || (decide ('a' ≤ c) && decide (c ≤ 'f')) || (decide ('A' ≤ c) && decide (c ≤ 'F'))

/-- Whether `h` is a SHA-256 rendered as 64 hex digits. -/
def isSha256Hex (h : String) : Bool :=
  h.utf8ByteSize == 64 && h.toList.all isAsciiHexdigit

/-- Equality of strings up to the case of ASCII letters. -/
def eqIgnoreAsciiCase (a b : String) : Bool :=
  a.toList.map Char.toLower == b.toList.map Char.toLower

/-- Whether `refNameHash` is the hash of `refName`. -/
def refNameHashMatches (env : RefEnv) (refName refNameHash : String) : Bool :=
  eqIgnoreAsciiCase (env.sha256Hex refName) refNameHash

/-! ### Protected patterns -/

/-- Escape every opening or closing brace. -/
def escapeBraces (cs : List Char) : List Char :=
  cs.flatMap fun c =>
    if c = Char.ofNat 0x7b ∨ c = Char.ofNat 0x7d then ['\\', c] else [c]

/-- Escape a leading run of `!`, then every brace after it. -/
def escapeLeadingBangs : List Char → List Char
  | '!' :: cs => '\\' :: '!' :: escapeLeadingBangs cs
  | cs => escapeBraces cs

/-- Escape the two constructs the glob crate supports and git `wildmatch` does not: a leading run
of `!` and every brace. -/
def neutralizeWildmatch (pattern : String) : String :=
  String.ofList (escapeLeadingBangs pattern.toList)

/-- Whether `refName` matches any protected glob in `patterns`. -/
def matchesProtected (env : RefEnv) (refName : String) (patterns : List String) : Bool :=
  patterns.any fun p => env.globMatch (neutralizeWildmatch p) refName

end DashForge
