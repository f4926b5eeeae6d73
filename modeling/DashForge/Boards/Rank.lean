import Mathlib.Data.Nat.Digits.Defs
import Mathlib.Data.String.Basic

/-!
# Ranks

The base-62 ranks a column is ordered by (`rules/boards.rs`). A card may carry an explicit rank; an
item without one has an implicit rank made of its creation time and the first bytes of its id.
-/

namespace DashForge

/-- The 62 rank digits, in byte order. -/
def rankDigits : List Char :=
  "0123456789ABCDEFGHIJKLMNOPQRSTUVWXYZabcdefghijklmnopqrstuvwxyz".toList

def rankMax : ℕ := 63

/-- A rank digit's value 0–61. -/
def digitOf (c : Char) : Option ℕ :=
  if '0' ≤ c ∧ c ≤ '9' then some (c.toNat - '0'.toNat)
  else if 'A' ≤ c ∧ c ≤ 'Z' then some (c.toNat - 'A'.toNat + 10)
  else if 'a' ≤ c ∧ c ≤ 'z' then some (c.toNat - 'a'.toNat + 36)
  else none

def rankDigit (x : ℕ) : Char := rankDigits.getD x '0'

/-- A well-formed explicit rank: 1–63 digits, not ending in `0`. -/
def isExplicitRank (r : String) : Bool :=
  decide (1 ≤ r.utf8ByteSize ∧ r.utf8ByteSize ≤ rankMax)
    && r.toList.all (fun c => (digitOf c).isSome)
    && !decide (['0'] <:+ r.toList)

/-- The last `width` base-62 digits of `v`. -/
def base62Digits (v : ℕ) : ℕ → List Char
  | 0 => []
  | width + 1 => base62Digits (v / 62) width ++ [rankDigit (v % 62)]

/-- `n` in `width` base-62 digits, clamped to what they can write. -/
def base62 (n : ℤ) (width : ℕ) : List Char :=
  base62Digits (max 0 (min n (62 ^ width - 1))).toNat width

/-- The rank of an item with no card, or whose newest card has no rank: `V`, its creation time in
8 digits, the first 3 bytes of its id (big-endian, mod 62⁴) in 4. -/
def implicitRank (createdAtMs : ℤ) (itemIdBytes : List ℕ) : String :=
  let byte (i : ℕ) := itemIdBytes.getD i 0
  let head := byte 0 <<< 16 ||| byte 1 <<< 8 ||| byte 2
  String.ofList ('V' :: (base62 createdAtMs 8 ++ base62 (head % 62 ^ 4 : ℕ) 4))

def base58Alphabet : List Char :=
  "123456789ABCDEFGHJKLMNPQRSTUVWXYZabcdefghijkmnopqrstuvwxyz".toList

/-- A little-endian magnitude times 58 plus `carry`. -/
def mulAdd58 (carry : ℕ) : List ℕ → List ℕ
  | [] => Nat.digits 256 carry
  | b :: le => (carry + b * 58) % 256 :: mulAdd58 ((carry + b * 58) / 256) le

/-- The bytes of a base58 id; none when it is not base58. -/
def base58Bytes (s : String) : List ℕ :=
  match s.toList.mapM fun c => base58Alphabet.idxOf? c with
  | none => []
  | some ds =>
    let le := ds.foldl (fun le d => mulAdd58 d le) []
    List.replicate (s.toList.takeWhile (· = '1')).length 0 ++ le.reverse

/-- The implicit rank of an item by its base58 id. -/
def implicitRankOf (createdAtMs : ℤ) (itemId : String) : String :=
  implicitRank createdAtMs (base58Bytes itemId)

theorem length_base62Digits (v width : ℕ) : (base62Digits v width).length = width := by
  induction width generalizing v with
  | zero => rfl
  | succ width ih => simp [base62Digits, ih]

example : implicitRankOf 1793102400000 "112QabqpfPtBDgyDYU5suefhVfk1HR3Gs6i8bH6kHjz" =
    "V0VZFavzc0007" := by decide

end DashForge
