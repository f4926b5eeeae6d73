import DashForge.Data.Unchecked

/-!
# Readers of a prefix

A reader takes a value off the front of its input, or fails. `Reads p x a` says that `p` reads `x` as `a`
whatever follows, which is one half of a round trip; `Safe p k Q` says that whatever the input `p` does
not panic, and that a value it gives has `Q` and took `k` symbols at least. Both are closed under `bind`
and repetition.
-/

namespace DashForge

open List

/-- A reader: its state is the input that is left. -/
abbrev Parser (ε τ α : Type) : Type := StateT (List τ) (Except (Fault ε)) α

namespace Parser

variable {ε τ α β ι : Type}

/-- Fail with an error. -/
def fail (e : ε) : Parser ε τ α := fun _ => .error (.err e)

/-- A computation that reads nothing. -/
def run (x : Except (Fault ε) α) : Parser ε τ α := fun bs => x >>= fun a => .ok (a, bs)

/-- Take the first `n` symbols off. -/
def take (n : ℕ) (e : ε) : Parser ε τ (List τ) := fun bs =>
  if n ≤ bs.length then .ok (bs.take n, bs.drop n) else .error (.err e)

/-- How much input is left. -/
def remaining : Parser ε τ ℕ := fun bs => .ok (bs.length, bs)

/-- Read `n` values. -/
def many : ℕ → Parser ε τ α → Parser ε τ (List α)
  | 0, _ => pure []
  | n + 1, p => do
    let a ← p
    let rest ← many n p
    return a :: rest

theorem remaining_bind (f : ℕ → Parser ε τ β) (bs : List τ) : (remaining >>= f) bs = f bs.length bs := rfl

/-! ### Round trips -/

/-- `p` reads `x` as `a`, whatever follows. -/
def Reads (p : Parser ε τ α) (x : List τ) (a : α) : Prop := ∀ rest, p (x ++ rest) = .ok (a, rest)

theorem reads_pure (a : α) : Reads (pure a : Parser ε τ α) [] a := fun _ => rfl

variable {p q : Parser ε τ α} {y : List τ} {a : α} {b : β} {c : Prop}

variable {f : α → Parser ε τ β} {x bs : List τ} {enc : ι → List τ}

theorem Reads.bind (hp : Reads p x a) (hf : Reads (f a) y b) : Reads (p >>= f) (x ++ y) b := by
  intro rest
  change (p (x ++ y ++ rest) >>= fun r => f r.1 r.2) = _
  rw [append_assoc, hp, ok_bind]
  exact hf rest

/-- A reader and what is done with the rest of the input. -/
theorem Reads.bind_apply
    {r : Except (Fault ε) (β × List τ)} (hp : Reads p x a) (hf : f a y = r) : (p >>= f) (x ++ y) = r := by
  change (p (x ++ y) >>= fun r => f r.1 r.2) = r
  rw [hp, ok_bind]
  exact hf

/-- What reads nothing goes first. -/
theorem Reads.bind_nil (hp : Reads p [] a) (hf : Reads (f a) y b) : Reads (p >>= f) y b := hp.bind hf

theorem reads_if_neg [Decidable c] (hc : ¬c) (hq : Reads q x a) : Reads (if c then p else q) x a := by rwa [if_neg hc]

/-- What reads nothing goes last. -/
theorem Reads.bind_last (hp : Reads p x a) (hf : Reads (f a) [] b) : Reads (p >>= f) x b := by
  have h := hp.bind hf
  rwa [append_nil] at h

theorem Reads.bind_pure (f : α → β) (hp : Reads p x a) :
    Reads (p >>= fun a => pure (f a)) x (f a) := hp.bind_last (reads_pure (f a))

theorem reads_run {x : Except (Fault ε) α} (hx : x = .ok a) :
    Reads (run x : Parser ε τ α) [] a := fun rest => by rw [run, hx]; rfl

theorem reads_take (x : List τ) (e : ε) : Reads (take x.length e) x x := by
  intro rest
  rw [take, if_pos (by simp), take_left, drop_left]

theorem Reads.many {val : ι → α} {l : List ι} (hl : ∀ i ∈ l, Reads p (enc i) (val i)) :
    Reads (Parser.many l.length p) (l.flatMap enc) (l.map val) := by
  induction l with
  | nil => exact reads_pure []
  | cons i l ih =>
    rw [flatMap_cons]
    refine (hl i mem_cons_self).bind ?_
    exact (ih fun j hj => hl j (mem_cons_of_mem i hj)).bind_pure _

theorem Reads.mapM {f : ι → Parser ε τ β} {val : ι → β} {l : List ι}
    (hl : ∀ i ∈ l, Reads (f i) (enc i) (val i)) : Reads (l.mapM f) (l.flatMap enc) (l.map val) := by
  induction l with
  | nil => exact reads_pure []
  | cons i l ih =>
    rw [flatMap_cons, mapM_cons]
    refine (hl i mem_cons_self).bind ?_
    exact (ih fun j hj => hl j (mem_cons_of_mem i hj)).bind_pure _

/-! ### Whatever the input -/

/-- `p` does not panic, and what it gives has `Q` and took `k` symbols at least. -/
def Safe (p : Parser ε τ α) (k : ℕ) (Q : α → Prop) : Prop :=
  ∀ bs, NoPanic (p bs) ∧ ∀ a rest, p bs = .ok (a, rest) → Q a ∧ rest.length + k ≤ bs.length

variable {k l : ℕ} {Q : α → Prop} {R : β → Prop}

theorem safe_pure (ha : Q a) : Safe (pure a : Parser ε τ α) 0 Q := by
  refine fun bs => ⟨noPanic_ok _, fun a' rest h => ?_⟩
  obtain ⟨rfl, rfl⟩ := Prod.mk.inj (Except.ok.inj h)
  exact ⟨ha, le_rfl⟩

theorem safe_fail (e : ε) : Safe (fail e : Parser ε τ α) k Q :=
  fun _ => ⟨noPanic_err e, fun _ _ h => by cases h⟩

theorem Safe.bind (hp : Safe p k Q) (hf : ∀ a, Q a → Safe (f a) l R) : Safe (p >>= f) (k + l) R := by
  intro bs
  obtain ⟨hsafe, hok⟩ := hp bs
  refine ⟨NoPanic.bind hsafe fun x hx => (hf x.1 (hok x.1 x.2 hx).1 x.2).1, fun b rest h => ?_⟩
  obtain ⟨⟨a, mid⟩, hmid, h⟩ := bind_eq_ok.mp h
  obtain ⟨ha, hlen⟩ := hok a mid hmid
  obtain ⟨hb, hlen'⟩ := (hf a ha mid).2 b rest h
  exact ⟨hb, by omega⟩

theorem Safe.mono {Q' : α → Prop} (hp : Safe p k Q) (hl : l ≤ k) (hQ : ∀ a, Q a → Q' a) : Safe p l Q' := by
  refine fun bs => ⟨(hp bs).1, fun a rest h => ?_⟩
  obtain ⟨ha, hlen⟩ := (hp bs).2 a rest h
  exact ⟨hQ a ha, by omega⟩

/-- A bind whose consumption is not of interest. -/
theorem Safe.bind_zero (hp : Safe p k Q) (hf : ∀ a, Q a → Safe (f a) 0 R) : Safe (p >>= f) 0 R :=
  (hp.bind hf).mono (Nat.zero_le _) fun _ => id

theorem safe_ite [Decidable c] (hp : c → Safe p k Q) (hq : ¬c → Safe q k Q) : Safe (if c then p else q) k Q := by
  split
  · exact hp ‹_›
  · exact hq ‹_›

theorem safe_run {x : Except (Fault ε) α} (hx : NoPanic x) (hQ : ∀ a, x = .ok a → Q a) :
    Safe (run x : Parser ε τ α) 0 Q := by
  refine fun bs => ⟨hx.bind fun a _ => noPanic_ok _, fun a rest h => ?_⟩
  obtain ⟨a', ha', h⟩ := bind_eq_ok.mp h
  obtain ⟨rfl, rfl⟩ := Prod.mk.inj (Except.ok.inj h)
  exact ⟨hQ _ ha', le_rfl⟩

theorem safe_take (n : ℕ) (e : ε) : Safe (take n e : Parser ε τ (List τ)) n fun x => x.length = n := by
  refine fun bs => ⟨noPanic_ite (fun _ => noPanic_ok _) fun _ => noPanic_err _, fun x rest h => ?_⟩
  unfold take at h
  split at h
  · obtain ⟨rfl, rfl⟩ := Prod.mk.inj (Except.ok.inj h)
    have hlen : (bs.take n).length = n := by rw [length_take]; omega
    exact ⟨hlen, by rw [length_drop]; omega⟩
  · cases h

theorem Safe.many (hp : Safe p k Q) (n : ℕ) : Safe (Parser.many n p) 0 fun l => l.length = n ∧ ∀ a ∈ l, Q a := by
  induction n with
  | zero => exact safe_pure ⟨rfl, by simp⟩
  | succ n ih =>
    refine hp.bind_zero fun a ha => ih.bind_zero fun rest hrest => safe_pure ⟨by simp [hrest.1], ?_⟩
    intro b hb
    rcases mem_cons.mp hb with rfl | hb
    · exact ha
    · exact hrest.2 b hb

theorem Safe.mapM {f : ι → Parser ε τ β} {l : List ι} {P : ι → β → Prop}
    (hl : ∀ i ∈ l, Safe (f i) 0 (P i)) : Safe (l.mapM f) 0 fun out => List.Forall₂ P l out := by
  induction l with
  | nil => exact safe_pure .nil
  | cons i l ih =>
    rw [mapM_cons]
    refine (hl i mem_cons_self).bind_zero fun b hb => ?_
    refine (ih fun j hj => hl j (mem_cons_of_mem i hj)).bind_zero fun out hout => ?_
    exact safe_pure (.cons hb hout)

/-- On one input, `p` does not panic and what it gives has `Q`. -/
def SafeAt (p : Parser ε τ α) (bs : List τ) (Q : α → Prop) : Prop :=
  NoPanic (p bs) ∧ ∀ a rest, p bs = .ok (a, rest) → Q a

theorem Safe.safeAt (hp : Safe p k Q) (bs : List τ) : SafeAt p bs Q :=
  ⟨(hp bs).1, fun a rest h => ((hp bs).2 a rest h).1⟩

theorem safeAt_fail (e : ε) (bs : List τ) : SafeAt (fail e : Parser ε τ α) bs Q :=
  (safe_fail (k := 0) e).safeAt bs

theorem safeAt_ite [Decidable c] (hp : c → SafeAt p bs Q)
    (hq : ¬c → SafeAt q bs Q) : SafeAt (if c then p else q) bs Q := by
  split
  · exact hp ‹_›
  · exact hq ‹_›

theorem Safe.bind_at (hp : Safe p k Q)
    (hf : ∀ a rest, Q a → rest.length + k ≤ bs.length → SafeAt (f a) rest R) : SafeAt (p >>= f) bs R := by
  obtain ⟨hsafe, hok⟩ := hp bs
  refine ⟨hsafe.bind fun x hx => ?_, fun b rest h => ?_⟩
  · obtain ⟨ha, hlen⟩ := hok x.1 x.2 hx
    exact (hf x.1 x.2 ha hlen).1
  · obtain ⟨⟨a, mid⟩, hmid, h⟩ := bind_eq_ok.mp h
    obtain ⟨ha, hlen⟩ := hok a mid hmid
    exact (hf a mid ha hlen).2 b rest h

end Parser

end DashForge
