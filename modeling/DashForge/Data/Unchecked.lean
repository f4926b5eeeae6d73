import DashForge.Data.Except
import DashForge.Data.Saturating

/-!
# Unchecked 64-bit arithmetic

Sums, differences, products and shifts that the source does not check. Where one would not fit in 64
bits, or an index is out of range, the computation ends in a panic, which `Fault` keeps apart from the
errors a function returns.
-/

namespace DashForge

open List

/-- How a computation fails: with an error it returns, or in a panic. -/
inductive Fault (ε : Type) where
  | err (e : ε)
  | panic
deriving DecidableEq, Repr

variable {ε α β : Type}

/-- A computation that does not panic. -/
def NoPanic (x : Except (Fault ε) α) : Prop := x ≠ .error .panic

/-- The value of a checked operation, or an error. -/
def orErr (o : Option α) (e : ε) : Except (Fault ε) α := o.elim (.error (.err e)) .ok

/-- The element an index names, a panic where it is out of range. -/
def orPanic (o : Option α) : Except (Fault ε) α := o.elim (.error .panic) .ok

def addU64 (a b : ℕ) : Except (Fault ε) ℕ := if a + b ≤ u64Max then .ok (a + b) else .error .panic

def subU64 (a b : ℕ) : Except (Fault ε) ℕ := if b ≤ a then .ok (a - b) else .error .panic

def mulU64 (a b : ℕ) : Except (Fault ε) ℕ := if a * b ≤ u64Max then .ok (a * b) else .error .panic

/-- `a << n`, with no bit lost at the top. -/
def shlU64 (a n : ℕ) : Except (Fault ε) ℕ :=
  if a * 2 ^ n ≤ u64Max then .ok (a * 2 ^ n) else .error .panic

@[simp]
theorem orErr_some (a : α) (e : ε) : orErr (some a) e = .ok a := rfl

@[simp]
theorem orErr_none (e : ε) : (orErr none e : Except (Fault ε) α) = .error (.err e) := rfl

theorem orErr_eq_ok {o : Option α} {e : ε} {a : α} : (orErr o e : Except (Fault ε) α) = .ok a ↔ o = some a := by
  cases o <;> simp

@[simp]
theorem orPanic_some (a : α) : (orPanic (some a) : Except (Fault ε) α) = .ok a := rfl

theorem addU64_eq_ok {a b : ℕ} (h : a + b ≤ u64Max) : (addU64 a b : Except (Fault ε) ℕ) = .ok (a + b) :=
  if_pos h

theorem subU64_eq_ok {a b : ℕ} (h : b ≤ a) : (subU64 a b : Except (Fault ε) ℕ) = .ok (a - b) :=
  if_pos h

theorem mulU64_eq_ok {a b : ℕ} (h : a * b ≤ u64Max) : (mulU64 a b : Except (Fault ε) ℕ) = .ok (a * b) :=
  if_pos h

theorem shlU64_eq_ok {a n : ℕ} (h : a * 2 ^ n ≤ u64Max) : (shlU64 a n : Except (Fault ε) ℕ) = .ok (a * 2 ^ n) :=
  if_pos h

theorem noPanic_ok (a : α) : NoPanic (.ok a : Except (Fault ε) α) := by simp [NoPanic]

theorem noPanic_err (e : ε) : NoPanic (.error (.err e) : Except (Fault ε) α) := by simp [NoPanic]

theorem noPanic_orErr (o : Option α) (e : ε) : NoPanic (orErr o e) := by
  cases o <;> simp [orErr, NoPanic]

theorem noPanic_ite {p : Prop} [Decidable p] {x y : Except (Fault ε) α} (hx : p → NoPanic x)
    (hy : ¬p → NoPanic y) : NoPanic (if p then x else y) := by
  split
  · exact hx ‹_›
  · exact hy ‹_›

/-- A bind panics only where one of its steps does. -/
theorem NoPanic.bind {x : Except (Fault ε) α} {f : α → Except (Fault ε) β} (hx : NoPanic x)
    (hf : ∀ a, x = .ok a → NoPanic (f a)) : NoPanic (x >>= f) := by
  cases x with
  | error e => simpa [NoPanic, Bind.bind, Except.bind] using hx
  | ok a => exact hf a rfl

theorem NoPanic.foldlM {ι : Type} {f : β → ι → Except (Fault ε) β} {l : List ι} {b : β}
    (hf : ∀ b, ∀ a ∈ l, NoPanic (f b a)) : NoPanic (l.foldlM f b) := by
  induction l generalizing b with
  | nil => exact noPanic_ok b
  | cons a l ih =>
    rw [foldlM_cons]
    exact (hf b a mem_cons_self).bind fun b' _ => ih fun b a ha => hf b a (mem_cons_of_mem _ ha)

theorem NoPanic.mapM {ι : Type} {f : ι → Except (Fault ε) β} {l : List ι} (hf : ∀ a ∈ l, NoPanic (f a)) :
    NoPanic (l.mapM f) := by
  induction l with
  | nil => exact noPanic_ok _
  | cons a l ih =>
    rw [mapM_cons]
    exact (hf a mem_cons_self).bind fun b _ =>
      (ih fun a' ha' => hf a' (mem_cons_of_mem a ha')).bind fun bs _ => noPanic_ok _

end DashForge
