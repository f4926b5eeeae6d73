import DashForge.Pack.Entry

/-!
# Delta chains

The chain of bases under every object of a pack (`pack/parse.rs`). `resolveChains` resolves each
chain once: it walks down from an object to one whose chain is known or ends, with the deltas on
the way on a path, and unwinds the path.

`ChainOf` is the chain an object has by following its bases one by one. Every chain that is
resolved is that one, with at most `maxDeltaDepth` hops (`resolveChains_eq_ok`); so the bases of an
accepted pack end.
-/

namespace DashForge

open List Option

/-- The longest delta chain git writes. -/
def maxDeltaDepth : ℕ := 4095

/-- One object's resolved delta chain. -/
structure Chain where
  /-- Type code of the entry the chain ends at. -/
  root : ℕ
  /-- Delta hops down to it. -/
  depth : ℕ
  /-- Lowest offset among the object and every base in its chain. -/
  minOff : ℕ
  /-- Whether every base sits at a lower offset than the delta naming it. -/
  contiguous : Bool
deriving DecidableEq, Repr

/-- What the chains of a pack are resolved from, by object index. -/
structure ChainInput where
  offset : ℕ → ℕ
  rawType : ℕ → ℕ
  /-- The offset of an object's immediate base. -/
  baseOff : ℕ → Option ℕ
  /-- The object at an offset. -/
  atOffset : ℕ → Option ℕ

def tooDeep : PackError :=
  .config ("delta chain deeper than " ++ toString maxDeltaDepth ++ " (or a cycle)")

namespace ChainInput

variable (inp : ChainInput)

/-- The chain of an entry that is no delta. -/
def rootChain (j : ℕ) : Chain := ⟨inp.rawType j, 0, inp.offset j, true⟩

/-- The chain of a delta whose base, at offset `b`, is not in the pack. -/
def missingChain (j b : ℕ) : Chain := ⟨inp.rawType j, 1, min (inp.offset j) b, false⟩

/-- The chain of a delta whose base, at offset `b`, has chain `chain`. -/
def deltaChain (j b : ℕ) (chain : Chain) : Chain :=
  ⟨chain.root, chain.depth + 1, min (inp.offset j) chain.minOff,
    chain.contiguous && decide (b < inp.offset j)⟩

/-- One step of the walk at `j`: its chain when that is known or ends there, else its base's offset
and index. -/
def stepDown (chains : ℕ → Option Chain) (path : List (ℕ × ℕ)) (j : ℕ) :
    Except PackError (Chain ⊕ ℕ × ℕ) :=
  match chains j with
  | some known => .ok (.inl known)
  | none =>
    if path.any fun e => e.1 = j then .error tooDeep
    else match inp.baseOff j with
      | none => .ok (.inl (inp.rootChain j))
      | some b =>
        match inp.atOffset b with
        | none => .ok (.inl (inp.missingChain j b))
        | some next => .ok (.inr (b, next))

/-- Walk down from `j` to an object whose chain is known or ends: its chain, the object and the path
of deltas to it, innermost first. The path has room for `room` more. -/
def walkDown (chains : ℕ → Option Chain) (room : ℕ) (path : List (ℕ × ℕ)) (j : ℕ) :
    Except PackError (Chain × ℕ × List (ℕ × ℕ)) :=
  match inp.stepDown chains path j with
  | .error e => .error e
  | .ok (.inl chain) => .ok (chain, j, path)
  | .ok (.inr (b, next)) =>
    match room with
    | 0 => .error tooDeep
    | room + 1 => walkDown chains room ((j, b) :: path) next

/-- Give every delta on the path its chain, `chain` being that of the base of the first. -/
def unwind : Chain → (ℕ → Option Chain) → List (ℕ × ℕ) → Except PackError (ℕ → Option Chain)
  | _, chains, [] => .ok chains
  | chain, chains, (p, b) :: path =>
    let chain := inp.deltaChain p b chain
    if chain.depth > maxDeltaDepth then .error tooDeep
    else unwind chain (Function.update chains p (some chain)) path

/-- Resolve the chain of `start`, and of every object under it. -/
def resolveFrom (chains : ℕ → Option Chain) (start : ℕ) : Except PackError (ℕ → Option Chain) := do
  let (chain, j, path) ← inp.walkDown chains maxDeltaDepth [] start
  inp.unwind chain (Function.update chains j (some chain)) path

/-- Resolve the chains of objects `0..n`, taken in `order`. -/
def resolveChains (order : List ℕ) (n : ℕ) : Except PackError (List Chain) := do
  let chains ← order.foldlM inp.resolveFrom fun _ => none
  okOr ((range n).mapM chains) (.config "pack object left unresolved")

/-! ### The chain by following bases -/

/-- The chain of an object, following its bases one by one. -/
inductive ChainOf : ℕ → Chain → Prop
  | root {j : ℕ} (hbase : inp.baseOff j = none) : ChainOf j (inp.rootChain j)
  | missing {j b : ℕ} (hbase : inp.baseOff j = some b) (hmissing : inp.atOffset b = none) :
      ChainOf j (inp.missingChain j b)
  | delta {j b next : ℕ} {chain : Chain} (hbase : inp.baseOff j = some b)
      (hnext : inp.atOffset b = some next) (hchain : ChainOf next chain) :
      ChainOf j (inp.deltaChain j b chain)

/-- `chain` is that of `j`, within the depth git writes. -/
def Resolved (j : ℕ) (chain : Chain) : Prop := inp.ChainOf j chain ∧ chain.depth ≤ maxDeltaDepth

/-- The deltas of a path lead down to `j`. -/
def PathTo : ℕ → List (ℕ × ℕ) → Prop
  | _, [] => True
  | j, (p, b) :: path => inp.baseOff p = some b ∧ inp.atOffset b = some j ∧ PathTo p path

variable {inp}

variable {j : ℕ} {chains chains' : ℕ → Option Chain} {path : List (ℕ × ℕ)} {chain : Chain}

theorem ChainOf.unique {c c' : Chain} (hc : inp.ChainOf j c) (hc' : inp.ChainOf j c') : c = c' := by
  induction hc generalizing c' with
  | root hbase =>
    cases hc' with
    | root => rfl
    | missing hbase' | delta hbase' => simp [hbase] at hbase'
  | missing hbase hmissing =>
    cases hc' with
    | root hbase' => simp [hbase] at hbase'
    | missing hbase' =>
      obtain rfl := some.inj (hbase.symm.trans hbase')
      rfl
    | delta hbase' hnext' =>
      obtain rfl := some.inj (hbase.symm.trans hbase')
      simp [hmissing] at hnext'
  | delta hbase hnext _ ih =>
    cases hc' with
    | root hbase' => simp [hbase] at hbase'
    | missing hbase' hmissing' =>
      obtain rfl := some.inj (hbase.symm.trans hbase')
      simp [hnext] at hmissing'
    | delta hbase' hnext' hchain' =>
      obtain rfl := some.inj (hbase.symm.trans hbase')
      obtain rfl := some.inj (hnext.symm.trans hnext')
      rw [ih hchain']

variable (hchains : ∀ j chain, chains j = some chain → inp.Resolved j chain)

include hchains in
theorem resolved_of_stepDown (h : inp.stepDown chains path j = .ok (.inl chain)) :
    inp.Resolved j chain := by
  unfold stepDown at h
  split at h
  case h_1 known hknown =>
    obtain rfl : known = chain := by simpa using h
    exact hchains j known hknown
  case h_2 =>
    split at h
    · cases h
    split at h
    case h_1 hbase =>
      obtain rfl : inp.rootChain j = chain := by simpa using h
      exact ⟨.root hbase, Nat.zero_le _⟩
    case h_2 b hbase =>
      split at h
      case h_1 hmissing =>
        obtain rfl : inp.missingChain j b = chain := by simpa using h
        exact ⟨.missing hbase hmissing, Nat.succ_le_of_lt (by decide : 0 < maxDeltaDepth)⟩
      case h_2 => simp at h

theorem base_of_stepDown {b next : ℕ} (h : inp.stepDown chains path j = .ok (.inr (b, next))) :
    inp.baseOff j = some b ∧ inp.atOffset b = some next := by
  unfold stepDown at h
  split at h
  · simp at h
  split at h
  · cases h
  split at h
  · simp at h
  case h_2 b' hbase =>
    split at h
    · simp at h
    case h_2 next' hnext =>
      obtain ⟨rfl, rfl⟩ : b' = b ∧ next' = next := by simpa using h
      exact ⟨hbase, hnext⟩

include hchains in
theorem resolved_of_walkDown {room j' : ℕ}
    {path' : List (ℕ × ℕ)} (hpath : inp.PathTo j path) (h : inp.walkDown chains room path j = .ok (chain, j', path')) :
    inp.Resolved j' chain ∧ inp.PathTo j' path' := by
  induction room generalizing path j with
  | zero =>
    unfold walkDown at h
    split at h
    · cases h
    case h_2 hstep =>
      simp only [Except.ok.injEq, Prod.mk.injEq] at h
      obtain ⟨rfl, rfl, rfl⟩ := h
      exact ⟨resolved_of_stepDown hchains hstep, hpath⟩
    · cases h
  | succ room ih =>
    unfold walkDown at h
    split at h
    · cases h
    case h_2 hstep =>
      simp only [Except.ok.injEq, Prod.mk.injEq] at h
      obtain ⟨rfl, rfl, rfl⟩ := h
      exact ⟨resolved_of_stepDown hchains hstep, hpath⟩
    case h_3 hstep =>
      obtain ⟨hbase, hnext⟩ := base_of_stepDown hstep
      refine ih ?_ h
      exact ⟨hbase, hnext, hpath⟩

include hchains in
theorem resolved_update {p : ℕ} {c : Chain}
    (hp : inp.Resolved p c) (j : ℕ) (chain : Chain)
    (h : Function.update chains p (some c) j = some chain) : inp.Resolved j chain := by
  by_cases hj : j = p
  · subst hj
    obtain rfl : c = chain := by simpa using h
    exact hp
  · rw [Function.update_of_ne hj] at h
    exact hchains j chain h

include hchains in
theorem resolved_of_unwind (hchain : inp.Resolved j chain) (hpath : inp.PathTo j path)
    (h : inp.unwind chain chains path = .ok chains') (i : ℕ) (c : Chain)
    (hc : chains' i = some c) : inp.Resolved i c := by
  induction path generalizing chain chains j with
  | nil =>
    obtain rfl : chains = chains' := by simpa [unwind] using h
    exact hchains i c hc
  | cons e path ih =>
    obtain ⟨p, b⟩ := e
    obtain ⟨hbase, hnext, hpath⟩ := hpath
    simp only [unwind] at h
    split at h
    · cases h
    case isFalse hdepth =>
      have hp : inp.Resolved p (inp.deltaChain p b chain) :=
        ⟨.delta hbase hnext hchain.1, not_lt.mp hdepth⟩
      exact ih (resolved_update hchains hp) hp hpath h

include hchains in
theorem resolved_of_resolveFrom {start : ℕ}
    (h : inp.resolveFrom chains start = .ok chains') (i : ℕ) (c : Chain)
    (hc : chains' i = some c) : inp.Resolved i c := by
  simp only [resolveFrom, bind_eq_ok] at h
  obtain ⟨⟨chain, j, path⟩, hwalk, hunwind⟩ := h
  have hnil : inp.PathTo start [] := trivial
  obtain ⟨hchain, hpath⟩ := resolved_of_walkDown hchains hnil hwalk
  exact resolved_of_unwind (resolved_update hchains hchain) hchain hpath hunwind i c hc

theorem resolved_of_foldlM {order : List ℕ} (hchains : ∀ j chain, chains j = some chain → inp.Resolved j chain)
    (h : order.foldlM inp.resolveFrom chains = .ok chains') (i : ℕ) (c : Chain)
    (hc : chains' i = some c) : inp.Resolved i c := by
  induction order generalizing chains with
  | nil =>
    rw [foldlM_nil, pure_eq_ok] at h
    subst h
    exact hchains i c hc
  | cons start order ih =>
    rw [foldlM_cons, bind_eq_ok] at h
    obtain ⟨mid, hmid, h⟩ := h
    exact ih (resolved_of_resolveFrom hchains hmid) h

/-- Every chain that is resolved is the object's own, within the depth git writes. -/
theorem resolveChains_eq_ok {order : List ℕ} {n : ℕ} {out : List Chain} (h : inp.resolveChains order n = .ok out) :
    out.length = n ∧ ∀ i c, out[i]? = some c → inp.Resolved i c := by
  simp only [resolveChains, bind_eq_ok, okOr_eq_ok] at h
  obtain ⟨chains, hfold, hout⟩ := h
  have hmap := map_eq_map_some hout
  have hlen : out.length = n := by simpa using (congrArg List.length hmap).symm
  refine ⟨hlen, fun i c hi => ?_⟩
  have hresolved := resolved_of_foldlM (fun j chain hj => by simp at hj) hfold
  have hlt : i < n := hlen ▸ (List.getElem?_eq_some_iff.mp hi).1
  have hget : (map chains (range n))[i]? = (out.map some)[i]? := by rw [hmap]
  rw [getElem?_map, getElem?_map, getElem?_range hlt, hi] at hget
  exact hresolved i c (by simpa using hget)

end ChainInput

end DashForge
