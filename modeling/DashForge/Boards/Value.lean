import DashForge.Data.Utf8
import DashForge.Rules.RefName
import Mathlib.Algebra.Order.Ring.Unbundled.Rat

/-!
# The values a board's documents hold

JSON values as `serde_json` reads them, and the shapes the board rules (`rules/boards.rs`) accept:
bounded integers, texts, names, colours, identifiers and `YYYY-MM-DD` dates.

A JSON number is the rational its `f64` stands for; JSON has no other numbers. Byte tests of the
source concern ASCII bytes only, so they are tests of characters here.
-/

namespace DashForge

/-- A JSON value. -/
inductive Value where
  | null
  | bool (b : Bool)
  /-- A number, by the value of its `f64` (`as_f64`). -/
  | num (x : ℚ)
  | str (s : String)
  | arr (l : List Value)
  /-- An object's members, each key once. -/
  | obj (members : List (String × Value))
deriving Inhabited

/-- The members of a JSON object. -/
abbrev Members := List (String × Value)

namespace Value

def asF64 : Value → Option ℚ
  | num x => some x
  | _ => none

def asStr : Value → Option String
  | str s => some s
  | _ => none

def asArray : Value → Option (List Value)
  | arr l => some l
  | _ => none

def asObject : Value → Option Members
  | obj m => some m
  | _ => none

end Value

/-- What the board rules take from outside the repository: JSON parsing and printing
(`serde_json`), the Unicode lower case and decimal-to-`f64` conversion. -/
structure BoardEnv where
  /-- `serde_json::from_str::<Value>`. -/
  fromStr : String → Option Value
  /-- `serde_json::to_string` of an `f64`: the shortest digits that read back. -/
  ryu : ℚ → String
  /-- `str::to_lowercase`. -/
  toLowercase : String → String
  /-- `str::parse::<f64>`. -/
  parseF64 : String → Option ℚ

/-! ### Scalars -/

/-- A number or a string: a field value, a query operand, a group key. -/
inductive Scalar where
  | num (x : ℚ)
  | text (t : String)
deriving DecidableEq, Repr

namespace Scalar

def text? : Scalar → Option String
  | num _ => none
  | text t => some t

/-- A whole number (`From<i64>`). -/
def ofInt (n : ℤ) : Scalar := num n

end Scalar

/-- The value of a run of decimal digits. -/
def digitsVal (cs : List Char) : ℕ :=
  cs.foldl (fun n c => 10 * n + (c.toNat - '0'.toNat)) 0

/-- `str::parse` of an integer type with values in `min..=max`: an optional sign and digits. -/
def parseInt (min max : ℤ) (cs : List Char) : Option ℤ :=
  let value (neg : Bool) (ds : List Char) : Option ℤ :=
    let n : ℤ := if neg then -(digitsVal ds : ℤ) else digitsVal ds
    if !ds.isEmpty && ds.all Char.isDigit && decide (min ≤ n ∧ n ≤ max) then some n else none
  match cs with
  | '-' :: ds => if min < 0 then value true ds else none
  | '+' :: ds => value false ds
  | ds => value false ds

def parseI64 (cs : List Char) : Option ℤ := parseInt (-2 ^ 63) (2 ^ 63 - 1) cs

def parseU64 (cs : List Char) : Option ℕ := (parseInt 0 (2 ^ 64 - 1) cs).map Int.toNat

def parseU8 (cs : List Char) : Option ℕ := (parseInt 0 255 cs).map Int.toNat

/-- A finite number as JavaScript's `String(x)` writes it. -/
def jsNumber (env : BoardEnv) (x : ℚ) : String :=
  if x = 0 then "0"
  else if x.den = 1 ∧ |x| < 2 ^ 53 then toString x.num
  else
    let ryu := (env.ryu x).toList
    let sign := if ['-'] <+: ryu then ['-'] else []
    let body := if ['-'] <+: ryu then ryu.tail else ryu
    let (mantissa, exp) := match splitOnce 'e' body with
      | some (m, e) => (m, (parseI64 e).getD 0)
      | none => (body, 0)
    let (int, frac) := (splitOnce '.' mantissa).getD (mantissa, [])
    let all := int ++ frac
    let digits := all.dropWhile (· = '0')
    let point : ℤ := int.length + exp - (all.length - digits.length : ℕ)
    let digits := digits.rdropWhile (· = '0')
    let zeros (n : ℤ) := List.replicate n.toNat '0'
    String.ofList <|
      if point ≤ 0 then sign ++ ['0', '.'] ++ zeros (-point) ++ digits
      else if (digits.length : ℤ) ≤ point then sign ++ digits ++ zeros (point - digits.length)
      else sign ++ digits.take point.toNat ++ ['.'] ++ digits.drop point.toNat

/-- A scalar as `String(v)` writes it. -/
def Scalar.display (env : BoardEnv) : Scalar → String
  | num x => jsNumber env x
  | text t => t

/-! ### Accepted shapes -/

def nameMax : ℕ := 63

/-- The length of a string in characters. -/
def charLen (s : String) : ℕ := s.toList.length

/-- The white space a name may not start or end with. -/
def isSpace (c : Char) : Bool :=
  let x := c.toNat
  [0x20, 0xa0, 0x1680, 0x2028, 0x2029, 0x202f, 0x205f, 0x3000, 0xfeff].contains x ||
    decide (0x2000 ≤ x ∧ x ≤ 0x200a)

/-- C0, DEL and C1 control characters. -/
def isControl (c : Char) : Bool :=
  decide (c.toNat < 0x20) || decide (0x7f ≤ c.toNat ∧ c.toNat ≤ 0x9f)

/-- A column, field, option or view name. -/
def nameOk (s : String) : Bool :=
  decide (1 ≤ charLen s ∧ charLen s ≤ nameMax)
    && !s.toList.any (fun c => isControl c || c == '"')
    && !s.toList.head?.any isSpace
    && !s.toList.getLast?.any isSpace

/-- A JSON number that is a whole number in `min..=max`. -/
def intIn (v : Option Value) (min max : ℤ) : Option ℤ := do
  let x ← (← v).asF64
  if x.den = 1 ∧ (min : ℚ) ≤ x ∧ x ≤ max then some x.num else none

/-- A JSON string of at most `max` characters. -/
def textIn (v : Value) (max : ℕ) : Option String :=
  v.asStr.filter fun s => decide (charLen s ≤ max)

def isColor (s : String) : Bool :=
  s.utf8ByteSize == 7 && decide (['#'] <+: s.toList) && s.toList.tail.all isAsciiHexdigit

/-- An identity or document id: 42–44 base58 characters. -/
def isIdentifier (s : String) : Bool :=
  decide (42 ≤ s.utf8ByteSize ∧ s.utf8ByteSize ≤ 44)
    && s.toList.all fun c => c.isAlphanum && !(['0', 'O', 'I', 'l'].contains c)

theorem intIn_eq_some {v : Option Value} {min max n : ℤ} (h : intIn v min max = some n) : min ≤ n ∧ n ≤ max := by
  simp only [intIn, Option.bind_eq_bind, Option.bind_eq_some_iff] at h
  obtain ⟨w, -, x, -, hx⟩ := h
  split at hx
  case isFalse => simp at hx
  case isTrue hwhole =>
    obtain ⟨hden, hmin, hmax⟩ := hwhole
    obtain rfl : x.num = n := by simpa using hx
    rw [← Rat.den_eq_one_iff x |>.mp hden] at hmin hmax
    exact ⟨by exact_mod_cast hmin, by exact_mod_cast hmax⟩

/-! ### Dates -/

def dayMs : ℤ := 86400000

/-- Days since 1970-01-01 of a proleptic Gregorian date. -/
def daysFromCivil (y m d : ℤ) : ℤ :=
  let yy := if m ≤ 2 then y - 1 else y
  let era := yy / 400
  let yoe := yy - era * 400
  let doy := (153 * (m + if m > 2 then -3 else 9) + 2) / 5 + d - 1
  let doe := yoe * 365 + yoe / 4 - yoe / 100 + doy
  era * 146097 + doe - 719468

/-- `n` in at least `width` characters, filled with leading zeros after its sign. -/
def zeroPad (width : ℕ) (n : ℤ) : List Char :=
  let digits := (toString n.natAbs).toList
  if n < 0 then '-' :: (List.replicate (width - 1 - digits.length) '0' ++ digits)
  else List.replicate (width - digits.length) '0' ++ digits

/-- The date `days` after 1970-01-01, as `YYYY-MM-DD`. -/
def civilFromDays (days : ℤ) : String :=
  let z := days + 719468
  let era := z / 146097
  let doe := z - era * 146097
  let yoe := (doe - doe / 1460 + doe / 36524 - doe / 146096) / 365
  let doy := doe - (365 * yoe + yoe / 4 - yoe / 100)
  let mp := (5 * doy + 2) / 153
  let d := doy - (153 * mp + 2) / 5 + 1
  let m := if mp < 10 then mp + 3 else mp - 9
  let y := yoe + era * 400 + if m ≤ 2 then 1 else 0
  String.ofList (zeroPad 4 y ++ ['-'] ++ zeroPad 2 m ++ ['-'] ++ zeroPad 2 d)

/-- The number of days of a month. -/
def monthDays (y m : ℕ) : ℕ :=
  let leap := (y % 4 == 0 && y % 100 != 0) || y % 400 == 0
  [31, if leap then 29 else 28, 31, 30, 31, 30, 31, 31, 30, 31, 30, 31].getD (m - 1) 0

/-- A `YYYY-MM-DD` calendar date's day number. -/
def dateDays (s : String) : Option ℤ :=
  match s.toList with
  | [y₁, y₂, y₃, y₄, '-', m₁, m₂, '-', d₁, d₂] =>
    if [y₁, y₂, y₃, y₄, m₁, m₂, d₁, d₂].all Char.isDigit then
      let y := digitsVal [y₁, y₂, y₃, y₄]
      let m := digitsVal [m₁, m₂]
      let d := digitsVal [d₁, d₂]
      if y < 1 ∨ ¬(1 ≤ m ∧ m ≤ 12) ∨ d < 1 then none
      else if d ≤ monthDays y m then some (daysFromCivil y m d) else none
    else none
  | _ => none

/-- The UTC date of a millisecond time. -/
def dateOf (ms : ℤ) : String := civilFromDays (ms / dayMs)

example : dateDays "2024-02-29" = some 19782 := by decide

end DashForge
