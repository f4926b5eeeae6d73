import DashForge.Data.Utf8

/-!
# Texts padded to buckets

A text padded with spaces to a positive multiple of a bucket size, and the text back from its padded bytes
(`trimSpaces_padSpaces`).
-/

namespace DashForge

open List

/-- The length of so many bytes once padded. -/
def bucketSize (bucket n : ℕ) : ℕ := max ((n + bucket - 1) / bucket) 1 * bucket

def padSpaces (bucket : ℕ) (bytes : List UInt8) : List UInt8 :=
  bytes ++ replicate (bucketSize bucket bytes.length - bytes.length) 0x20

/-- The bytes up to the last that is not a space. -/
def trimSpaces (bytes : List UInt8) : List UInt8 := bytes.rdropWhile fun b => b = 0x20

variable {bucket : ℕ}

theorem le_bucketSize (hpos : 0 < bucket) (n : ℕ) : n ≤ bucketSize bucket n := by
  have hdiv := Nat.div_add_mod (n + bucket - 1) bucket
  have hmod := Nat.mod_lt (n + bucket - 1) hpos
  have hle : (n + bucket - 1) / bucket * bucket ≤ bucketSize bucket n := Nat.mul_le_mul_right _ (le_max_left _ _)
  rw [Nat.mul_comm] at hdiv
  omega

theorem length_padSpaces (hpos : 0 < bucket) (bytes : List UInt8) :
    (padSpaces bucket bytes).length = bucketSize bucket bytes.length := by
  have := le_bucketSize hpos bytes.length
  rw [padSpaces, length_append, length_replicate]
  omega

theorem bucketSize_pos (hpos : 0 < bucket) (n : ℕ) : 0 < bucketSize bucket n :=
  Nat.mul_pos (Nat.one_pos.trans_le (le_max_right _ _)) hpos

theorem bucketSize_mod (n : ℕ) : bucketSize bucket n % bucket = 0 := Nat.mul_mod_left _ _

theorem trimSpaces_padSpaces {bytes : List UInt8} {b : UInt8} (hb : b ≠ 0x20) :
    trimSpaces (padSpaces bucket (bytes ++ [b])) = bytes ++ [b] := by
  have hspaces : ∀ (l : List UInt8) (n : ℕ), trimSpaces (l ++ replicate n 0x20) = trimSpaces l := by
    intro l n
    induction n with
    | zero => rw [replicate_zero, append_nil]
    | succ n ih =>
      rw [replicate_succ', ← append_assoc, trimSpaces, rdropWhile_concat_pos _ _ _ (by simp)]
      exact ih
  rw [padSpaces, hspaces]
  exact rdropWhile_concat_neg _ _ _ (by simpa using hb)

theorem utf8_concat (cs : List Char) {c : Char} {b : UInt8} (h : utf8 (String.singleton c) = [b]) :
    utf8 (String.ofList (cs ++ [c])) = utf8 (String.ofList cs) ++ [b] := by
  rw [← h]
  simp [utf8, String.ofList_append]

end DashForge
