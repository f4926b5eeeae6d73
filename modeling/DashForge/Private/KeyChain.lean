import DashForge.Private.Anchor
import Mathlib.Data.Finmap

/-!
# The chain of epoch keys

A reader who holds the key of an epoch opens its anchor and finds the key of the epoch below
(`private/epoch.rs`). `walkChain` is the source's loop: it adds the keys it reaches to a shared map
and stops at the first epoch that is held already, burned or broken. Key derivation and the opening
of a sealed config are a `KeyEnv`, arbitrary but for a binding commitment.

The loop is run once for each accepted wrap. `walkAll_spec` says that the runs together compute the
least set of keys that holds the wraps and is closed under `ChainStep`, and raise an alert exactly for
each held epoch whose link is broken.
-/

namespace DashForge

open List Option

variable {K : Type}

/-- What the chain reads of an opened config. -/
structure ConfigFields (K : Type) where
  burned : Bool
  prevEpoch : Option ℕ
  prevEpochKey : Option K
  skipEpochKey : Option K
deriving DecidableEq

/-- Key derivation and the sealed documents, as the chain uses them. -/
structure KeyEnv (K : Type) where
  /-- Whether the keys derived from an epoch key commit to a commitment. -/
  commitsTo : ℕ → K → Bytes → Bool
  /-- The fields of the config an owner sealed under an epoch, when it opens. -/
  openWith : ℕ → K → Bytes → Bytes → Option (ConfigFields K)

/-- No two keys commit to one anchor. -/
def KeyEnv.Binding (env : KeyEnv K) : Prop :=
  ∀ e k k' commit, env.commitsTo e k commit → env.commitsTo e k' commit → k = k'

/-- An alert shown to the affected member and maintainers. -/
inductive Alert where
  | keyMismatch (epoch : ℕ) (author : Bytes)
  | chainBroken (epoch : ℕ) (author : Bytes)
  | epochGap (epoch : ℕ) (author : Bytes)
  | publishedKeyMismatch (epoch : ℕ) (author : Bytes)
  | rotationRequired (epoch : ℕ) (members : List Bytes)
deriving DecidableEq, Repr

/-- The keys held, by epoch. -/
abbrev KeyMap (K : Type) : Type := Finmap fun _ : ℕ => K

/-- Add a key unless the epoch is held. -/
def KeyMap.orInsert (keys : KeyMap K) (e : ℕ) (k : K) : KeyMap K :=
  if (keys.lookup e).isSome then keys else keys.insert e k

section Walk

variable (env : KeyEnv K) (first : List (ℕ × ConfigRow)) (commitsTo : ℕ → K → Bool)

/-- The fields of an epoch's anchor under a key, when it opens; `none` outside the anchors, where the
source panics. -/
def openAt (e : ℕ) (key : K) : Option (Option (ConfigFields K)) :=
  (first.lookup e).map fun c => env.openWith e key c.owner c.enc

/-- The nearest epoch below `p` an anchor's skip key commits to. -/
def skipNearest (p : ℕ) (fields : ConfigFields K) : Option (ℕ × K) :=
  fields.skipEpochKey.bind fun sk =>
    ((range p).reverse.find? fun s => commitsTo s sk).map fun s => (s, sk)

/-- Where the skip key leads from above the burned epoch `p`: the nearest epoch it commits to, if
that opens and is not burned. -/
def skipTarget (p : ℕ) (fields : ConfigFields K) : Option (Option (ℕ × K)) :=
  match skipNearest commitsTo p fields with
  | none => some none
  | some (s, sk) => (openAt env first s sk).map fun opened =>
    if opened.any fun f => !f.burned then some (s, sk) else none

/-- Walk the chain down from `e`; `none` where the source would panic or not return within `fuel`
turns. -/
def walkChain : ℕ → ℕ → KeyMap K → Finset Alert → Option (KeyMap K × Finset Alert)
  | 0, _, _, _ => none
  | fuel + 1, e, keys, alerts =>
    if e = 0 then some (keys, alerts)
    else do
      let c ← first.lookup e
      let broken := Alert.chainBroken e c.owner
      let key ← keys.lookup e
      let opened ← openAt env first e key
      match opened with
      | none => some (keys, insert broken alerts)
      | some fields =>
        -- a chain link only from above (its skip key)
        if fields.burned then some (keys, alerts)
        else
          match fields.prevEpoch, fields.prevEpochKey with
          | some p, some pk =>
            if p ≠ e - 1 ∨ !commitsTo p pk then some (keys, insert broken alerts)
            else do
              let below ← openAt env first p pk
              if !below.any ConfigFields.burned then
                if (keys.lookup p).isSome then some (keys, alerts)
                else walkChain fuel p (keys.insert p pk) alerts
              else do
                let keys := KeyMap.orInsert keys p pk
                let target ← skipTarget env first commitsTo p fields
                match target with
                | none => some (keys, insert broken alerts)
                | some (s, sk) =>
                  if (keys.lookup s).isSome then some (keys, alerts)
                  else walkChain fuel s (keys.insert s sk) alerts
          | _, _ => some (keys, insert broken alerts)

/-- The walks from every start, in order. -/
def walkAll : List ℕ → KeyMap K → Finset Alert → Option (KeyMap K × Finset Alert)
  | [], keys, alerts => some (keys, alerts)
  | start :: starts, keys, alerts => do
    let r ← walkChain env first commitsTo (start + 1) start keys alerts
    walkAll starts r.1 r.2

/-! ### One step of the chain -/

/-- One step of the chain from an epoch and its key: from an anchor that opens and is not burned to
the epoch below; and, when that one is burned, also over it to the nearest lower epoch the skip key
commits to, if that opens and is not burned. -/
inductive ChainStep : ℕ × K → ℕ × K → Prop
  | prev {e : ℕ} {k pk : K} {f : ConfigFields K} (hpos : 0 < e)
      (hopen : openAt env first e k = some (some f)) (hburned : f.burned = false)
      (hprev : f.prevEpoch = some (e - 1)) (hkey : f.prevEpochKey = some pk)
      (hcommit : commitsTo (e - 1) pk) : ChainStep (e, k) (e - 1, pk)
  | skip {e s : ℕ} {k pk sk : K} {f g h : ConfigFields K} (hpos : 0 < e)
      (hopen : openAt env first e k = some (some f)) (hburned : f.burned = false)
      (hprev : f.prevEpoch = some (e - 1)) (hkey : f.prevEpochKey = some pk)
      (hcommit : commitsTo (e - 1) pk) (hbelow : openAt env first (e - 1) pk = some (some g))
      (hbelowBurned : g.burned = true) (hskip : f.skipEpochKey = some sk) (hlt : s < e - 1)
      (htarget : commitsTo s sk) (hnearest : ∀ s', s < s' → s' < e - 1 → ¬commitsTo s' sk)
      (htargetOpen : openAt env first s sk = some (some h)) (htargetBurned : h.burned = false) :
      ChainStep (e, k) (s, sk)

/-- The step over a burned epoch to whatever epoch the skip key commits to, opened or not. -/
inductive UnguardedStep : ℕ × K → ℕ × K → Prop
  | prev {e : ℕ} {k pk : K} {f : ConfigFields K} (hpos : 0 < e)
      (hopen : openAt env first e k = some (some f)) (hburned : f.burned = false)
      (hprev : f.prevEpoch = some (e - 1)) (hkey : f.prevEpochKey = some pk)
      (hcommit : commitsTo (e - 1) pk) : UnguardedStep (e, k) (e - 1, pk)
  | skip {e s : ℕ} {k pk sk : K} {f g : ConfigFields K} (hpos : 0 < e)
      (hopen : openAt env first e k = some (some f)) (hburned : f.burned = false)
      (hprev : f.prevEpoch = some (e - 1)) (hkey : f.prevEpochKey = some pk)
      (hcommit : commitsTo (e - 1) pk) (hbelow : openAt env first (e - 1) pk = some (some g))
      (hbelowBurned : g.burned = true) (hskip : f.skipEpochKey = some sk) (hlt : s < e - 1)
      (htarget : commitsTo s sk) (hnearest : ∀ s', s < s' → s' < e - 1 → ¬commitsTo s' sk) :
      UnguardedStep (e, k) (s, sk)

/-- What an anchor says about the chain below it. -/
inductive ChainLink (K : Type)
  | stop
  | broken
  | down (pk : K)
  | over (pk : K) (target : Option (ℕ × K))

/-- The link of an epoch under its key. -/
def chainLink (e : ℕ) (k : K) : ChainLink K :=
  if e = 0 then .stop
  else
    match (openAt env first e k).join with
    | none => .broken
    | some f =>
      if f.burned then .stop
      else
        match f.prevEpoch, f.prevEpochKey with
        | some p, some pk =>
          if p ≠ e - 1 ∨ !commitsTo p pk then .broken
          else if !(openAt env first p pk).join.any ConfigFields.burned then .down pk
          else .over pk (skipTarget env first commitsTo p f).join
        | _, _ => .broken

/-- The epochs and keys a link leads to. -/
def ChainLink.targets (e : ℕ) : ChainLink K → List (ℕ × K)
  | .stop | .broken => []
  | .down pk => [(e - 1, pk)]
  | .over pk target => (e - 1, pk) :: target.toList

/-- Whether the walk raises an alert at a link. -/
def ChainLink.isBroken : ChainLink K → Bool
  | .broken | .over _ none => true
  | _ => false

end Walk

theorem find?_reverse_range {q : ℕ → Bool} {n s : ℕ} :
    (range n).reverse.find? q = some s ↔ s < n ∧ q s ∧ ∀ s', s < s' → s' < n → ¬q s' := by
  induction n with
  | zero => simp
  | succ n ih =>
    rw [range_succ, reverse_concat, find?_cons]
    cases hq : q n with
    | true =>
      simp only [some.injEq]
      constructor
      · rintro rfl
        exact ⟨Nat.lt_succ_self _, hq, fun s' h h' => by omega⟩
      · rintro ⟨hlt, -, hmax⟩
        by_contra hne
        exact hmax n (by omega) (Nat.lt_succ_self n) hq
    | false =>
      simp only [ih]
      refine ⟨fun ⟨hlt, hs, hmax⟩ => ⟨by omega, hs, fun s' h h' => ?_⟩,
        fun ⟨hlt, hs, hmax⟩ => ⟨?_, hs, fun s' h h' => hmax s' h (by omega)⟩⟩
      · rcases Nat.lt_succ_iff_lt_or_eq.mp h' with h' | rfl
        · exact hmax s' h h'
        · simp [hq]
      · have : s ≠ n := by
          rintro rfl
          simp [hq] at hs
        omega

section Spec

variable {env : KeyEnv K} {first : List (ℕ × ConfigRow)} {commitsTo : ℕ → K → Bool}

variable {e p : ℕ} {k pk : K} {f : ConfigFields K} {y x : ℕ × K}

variable (env) in
theorem openAt_isSome (hfirst : ∀ e k, commitsTo e k → ∃ c, first.lookup e = some c)
    (h : commitsTo e k) : ∃ o, openAt env first e k = some o := by
  obtain ⟨c, hc⟩ := hfirst e k h
  exact ⟨_, by rw [openAt, hc]; rfl⟩

variable {s : ℕ} {sk : K} {c : ConfigRow}

theorem skipNearest_eq_some : skipNearest commitsTo p f = some (s, sk) ↔
      f.skipEpochKey = some sk ∧ s < p ∧ commitsTo s sk ∧ ∀ s', s < s' → s' < p → ¬commitsTo s' sk := by
  constructor
  · intro h
    obtain ⟨sk', hsk, hfind⟩ := bind_eq_some_iff.mp h
    obtain ⟨s', hs', heq⟩ := map_eq_some_iff.mp hfind
    obtain ⟨rfl, rfl⟩ := Prod.mk.inj heq
    exact ⟨hsk, find?_reverse_range.mp hs'⟩
  · rintro ⟨hsk, hs⟩
    have hfind : (range p).reverse.find? (fun s => commitsTo s sk) = some s :=
      find?_reverse_range.mpr hs
    simp [skipNearest, hsk, hfind]

variable (env) in
theorem skipTarget_isSome (hfirst : ∀ e k, commitsTo e k → ∃ c, first.lookup e = some c) (p : ℕ)
    (f : ConfigFields K) : ∃ t, skipTarget env first commitsTo p f = some t := by
  cases hnear : skipNearest commitsTo p f with
  | none => exact ⟨none, by simp only [skipTarget, hnear]⟩
  | some t =>
    obtain ⟨o, ho⟩ := openAt_isSome env hfirst (skipNearest_eq_some.mp hnear).2.2.1
    exact ⟨_, by simp only [skipTarget, hnear, ho, map_some]; rfl⟩

theorem mem_skipTarget : (s, sk) ∈ (skipTarget env first commitsTo p f).join ↔
      skipNearest commitsTo p f = some (s, sk) ∧ ∃ h, openAt env first s sk = some (some h) ∧ h.burned = false := by
  cases hnear : skipNearest commitsTo p f with
  | none => simp [skipTarget, hnear]
  | some t =>
    obtain ⟨s', sk'⟩ := t
    simp only [skipTarget, hnear, some.injEq, Prod.mk.injEq]
    constructor
    · intro h
      cases ho : openAt env first s' sk' with
      | none => simp [ho] at h
      | some o =>
        cases o with
        | none => simp [ho] at h
        | some g =>
          cases hg : g.burned with
          | true => simp [ho, hg] at h
          | false =>
            obtain ⟨rfl, rfl⟩ : s' = s ∧ sk' = sk := by simpa [ho, hg] using h
            exact ⟨⟨rfl, rfl⟩, g, ho, hg⟩
    · rintro ⟨⟨rfl, rfl⟩, g, ho, hg⟩
      simp [ho, hg]

/-- An anchor that opens under its key, is not burned and names a key of the epoch below. -/
structure LinkOk (env : KeyEnv K) (first : List (ℕ × ConfigRow)) (commitsTo : ℕ → K → Bool) (e : ℕ)
    (k : K) (f : ConfigFields K) (pk : K) : Prop where
  pos : e ≠ 0
  opens : openAt env first e k = some (some f)
  burned : f.burned = false
  prev : f.prevEpoch = some (e - 1)
  key : f.prevEpochKey = some pk
  commit : commitsTo (e - 1) pk = true

theorem LinkOk.chainLink_eq (h : LinkOk env first commitsTo e k f pk) : chainLink env first commitsTo e k =
      if (openAt env first (e - 1) pk).join.any ConfigFields.burned then
        .over pk (skipTarget env first commitsTo (e - 1) f).join else .down pk := by
  simp only [chainLink, if_neg h.pos, h.opens, join_some, h.burned, h.prev, h.key, h.commit]
  cases (openAt env first (e - 1) pk).join.any ConfigFields.burned <;> simp

variable (env first commitsTo) in
theorem chainLink_cases (e : ℕ) (k : K) :
    chainLink env first commitsTo e k = .stop ∨ chainLink env first commitsTo e k = .broken ∨
      ∃ f pk, LinkOk env first commitsTo e k f pk := by
  by_cases hpos : e = 0
  · exact .inl (by simp [chainLink, hpos])
  cases hopen : (openAt env first e k).join with
  | none => exact .inr (.inl (by simp [chainLink, hpos, hopen]))
  | some f =>
    cases hburned : f.burned with
    | true => exact .inl (by simp [chainLink, hpos, hopen, hburned])
    | false =>
      cases hprev : f.prevEpoch with
      | none => exact .inr (.inl (by simp [chainLink, hpos, hopen, hburned, hprev]))
      | some p =>
        cases hkey : f.prevEpochKey with
        | none => exact .inr (.inl (by simp [chainLink, hpos, hopen, hburned, hprev, hkey]))
        | some pk =>
          by_cases hbad : p ≠ e - 1 ∨ !commitsTo p pk
          · exact .inr (.inl (by
              simp only [chainLink, if_neg hpos, hopen, hburned, hprev, hkey, if_pos hbad]; rfl))
          · push Not at hbad
            obtain ⟨rfl, hcommit⟩ := hbad
            exact .inr (.inr ⟨f, pk, hpos, join_eq_some_iff.mp hopen, hburned, hprev, hkey,
              by simpa using hcommit⟩)

theorem chainStep_iff : ChainStep env first commitsTo (e, k) y ↔ y ∈ (chainLink env first commitsTo e k).targets e := by
  constructor
  · intro h
    cases h with
    | prev hpos hopen hburned hprev hkey hcommit =>
      rw [LinkOk.chainLink_eq ⟨hpos.ne', hopen, hburned, hprev, hkey, hcommit⟩]
      split_ifs <;> simp [ChainLink.targets]
    | skip hpos hopen hburned hprev hkey hcommit hbelow hbelowBurned hskip hlt htarget hnearest
        htargetOpen htargetBurned =>
      have hmem := mem_skipTarget.mpr
        ⟨skipNearest_eq_some.mpr ⟨hskip, hlt, htarget, hnearest⟩, _, htargetOpen, htargetBurned⟩
      rw [LinkOk.chainLink_eq ⟨hpos.ne', hopen, hburned, hprev, hkey, hcommit⟩]
      simp [hbelow, hbelowBurned, mem_def.mp hmem, ChainLink.targets]
  · intro h
    rcases chainLink_cases env first commitsTo e k with hlink | hlink | ⟨f, pk, hok⟩
    · simp [hlink, ChainLink.targets] at h
    · simp [hlink, ChainLink.targets] at h
    · have hpos : 0 < e := Nat.pos_of_ne_zero hok.pos
      have hprev := ChainStep.prev hpos hok.opens hok.burned hok.prev hok.key hok.commit
      rw [hok.chainLink_eq] at h
      split_ifs at h with hbelow
      · rcases mem_cons.mp h with rfl | hmem
        · exact hprev
        · obtain ⟨s, sk⟩ := y
          obtain ⟨hnear, g, hg, hgb⟩ := mem_skipTarget.mp (mem_toList.mp hmem)
          obtain ⟨hskip, hlt, htarget, hnearest⟩ := skipNearest_eq_some.mp hnear
          obtain ⟨b, hb, hbb⟩ := (Option.any_eq_true _ _).mp hbelow
          exact ChainStep.skip hpos hok.opens hok.burned hok.prev hok.key hok.commit
            (join_eq_some_iff.mp hb) hbb hskip hlt htarget hnearest hg hgb
      · obtain rfl : y = (e - 1, pk) := by simpa [ChainLink.targets] using h
        exact hprev

/-! ### One walk -/

theorem walkChain_succ (hfirst : ∀ e k, commitsTo e k → ∃ c, first.lookup e = some c) {fuel : ℕ}
    {keys : KeyMap K} {alerts : Finset Alert}
    (hc : first.lookup e = some c) (hk : keys.lookup e = some k) :
    walkChain env first commitsTo (fuel + 1) e keys alerts = match chainLink env first commitsTo e k with
      | .stop => some (keys, alerts)
      | .broken => some (keys, insert (.chainBroken e c.owner) alerts)
      | .down pk =>
        if (keys.lookup (e - 1)).isSome then some (keys, alerts)
        else walkChain env first commitsTo fuel (e - 1) (keys.insert (e - 1) pk) alerts
      | .over pk none =>
        some (KeyMap.orInsert keys (e - 1) pk, insert (.chainBroken e c.owner) alerts)
      | .over pk (some (s, sk)) =>
        if ((KeyMap.orInsert keys (e - 1) pk).lookup s).isSome then some (KeyMap.orInsert keys (e - 1) pk, alerts)
        else walkChain env first commitsTo fuel s ((KeyMap.orInsert keys (e - 1) pk).insert s sk) alerts := by
  by_cases hpos : e = 0
  · simp [walkChain, chainLink, hpos]
  have hopened : openAt env first e k = some (env.openWith e k c.owner c.enc) := by
    rw [openAt, hc]; rfl
  cases hopen : env.openWith e k c.owner c.enc with
  | none => simp [walkChain, chainLink, hpos, hopened, hopen, hc, hk]
  | some f =>
    cases hburned : f.burned with
    | true => simp [walkChain, chainLink, hpos, hopened, hopen, hc, hk, hburned]
    | false =>
      cases hprev : f.prevEpoch with
      | none => simp [walkChain, chainLink, hpos, hopened, hopen, hc, hk, hburned, hprev]
      | some p =>
        cases hkey : f.prevEpochKey with
        | none => simp [walkChain, chainLink, hpos, hopened, hopen, hc, hk, hburned, hprev, hkey]
        | some pk =>
          by_cases hbad : p ≠ e - 1 ∨ !commitsTo p pk
          · simp only [walkChain, chainLink, if_neg hpos, hopened, hopen, hc, hk, hburned, hprev,
              hkey, if_pos hbad, some_bind, join_some, Bool.false_eq_true, if_false]
          · have hgood := hbad
            push Not at hgood
            obtain ⟨rfl, hcommit⟩ := hgood
            obtain ⟨below, hbelow⟩ := openAt_isSome env (k := pk) hfirst
              (by simpa using hcommit)
            obtain ⟨target, htarget⟩ := skipTarget_isSome env hfirst (e - 1) f
            simp only [walkChain, chainLink, if_neg hpos, hopened, hopen, hc, hk, hburned, hprev,
              hkey, if_neg hbad, hbelow, htarget, some_bind,
              join_some, Bool.false_eq_true, if_false]
            cases hb : below.any ConfigFields.burned with
            | false => simp
            | true =>
              cases target with
              | none => simp
              | some t => simp

/-- What the chain reaches from a set of held keys. -/
def Reached (env : KeyEnv K) (first : List (ℕ × ConfigRow)) (commitsTo : ℕ → K → Bool)
    (start : Set (ℕ × K)) : Set (ℕ × K) :=
  {y | ∃ x ∈ start, Relation.ReflTransGen (ChainStep env first commitsTo) x y}

/-- The sets that hold `start` and are closed under a step. -/
def closedSets {α : Type*} (step : α → α → Prop) (start : Set α) : Set (Set α) :=
  {S | start ⊆ S ∧ ∀ x ∈ S, ∀ y, step x y → y ∈ S}

theorem isLeast_reached (start : Set (ℕ × K)) :
    IsLeast (closedSets (ChainStep env first commitsTo) start) (Reached env first commitsTo start) := by
  refine ⟨⟨fun x hx => ⟨x, hx, .refl⟩, ?_⟩, ?_⟩
  · rintro x ⟨x₀, hx₀, hx⟩ y hstep
    exact ⟨x₀, hx₀, hx.tail hstep⟩
  · rintro S ⟨hstart, hclosed⟩ y ⟨x, hx, hxy⟩
    induction hxy with
    | refl => exact hstart hx
    | tail _ hstep ih => exact hclosed _ ih _ hstep

theorem ChainStep.commits (h : ChainStep env first commitsTo x y) : commitsTo y.1 y.2 := by
  cases h with
  | prev hpos hopen hburned hprev hkey hcommit => exact hcommit
  | skip hpos hopen hburned hprev hkey hcommit hbelow hbelowBurned hskip hlt htarget => exact htarget

theorem ChainStep.lt (h : ChainStep env first commitsTo x y) : y.1 < x.1 := by
  cases h with
  | prev hpos => exact Nat.sub_lt hpos Nat.one_pos
  | skip hpos hopen hburned hprev hkey hcommit hbelow hbelowBurned hskip hlt => exact by grind

theorem Reached.commits {start : Set (ℕ × K)} (hstart : ∀ x ∈ start, commitsTo x.1 x.2)
    (h : y ∈ Reached env first commitsTo start) : commitsTo y.1 y.2 := by
  obtain ⟨x, hx, hxy⟩ := h
  cases hxy with
  | refl => exact hstart _ hx
  | tail _ hstep => exact hstep.commits

theorem Reached.step {start : Set (ℕ × K)} (h : x ∈ Reached env first commitsTo start)
    (hstep : ChainStep env first commitsTo x y) : y ∈ Reached env first commitsTo start :=
  (isLeast_reached start).1.2 x h y hstep

/-- A held epoch the walk is done with: its targets are held and its alert, if any, is raised. -/
def Settled (env : KeyEnv K) (first : List (ℕ × ConfigRow)) (commitsTo : ℕ → K → Bool)
    (keys : KeyMap K) (alerts : Finset Alert) (e : ℕ) : Prop :=
  ∀ k c, keys.lookup e = some k → first.lookup e = some c →
    (∀ y ∈ (chainLink env first commitsTo e k).targets e, keys.lookup y.1 = some y.2) ∧
      ((chainLink env first commitsTo e k).isBroken → .chainBroken e c.owner ∈ alerts)

/-- Between two turns of a walk, every key held is reached, and every epoch held is pending or
settled. -/
structure WalkInv (env : KeyEnv K) (first : List (ℕ × ConfigRow)) (commitsTo : ℕ → K → Bool)
    (start : Set (ℕ × K)) (base : Finset Alert) (pending : Set ℕ) (keys : KeyMap K)
    (alerts : Finset Alert) : Prop where
  reached : ∀ e k, keys.lookup e = some k → (e, k) ∈ Reached env first commitsTo start
  kept : base ⊆ alerts
  raised : ∀ a ∈ alerts, a ∈ base ∨ ∃ e k c, keys.lookup e = some k ∧ first.lookup e = some c ∧
    (chainLink env first commitsTo e k).isBroken ∧ a = .chainBroken e c.owner
  settled : ∀ e k, keys.lookup e = some k → e ∈ pending ∨ Settled env first commitsTo keys alerts e

variable {start : Set (ℕ × K)} {base : Finset Alert} {pending : Set ℕ} {keys : KeyMap K}
  {alerts : Finset Alert}

theorem WalkInv.settle (h : WalkInv env first commitsTo start base (insert e pending) keys alerts)
    (he : Settled env first commitsTo keys alerts e) : WalkInv env first commitsTo start base pending keys alerts where
  reached := h.reached
  kept := h.kept
  raised := h.raised
  settled e' k' hk' := by
    rcases h.settled e' k' hk' with (rfl | hp) | hs
    · exact .inr he
    · exact .inl hp
    · exact .inr hs

variable (h : WalkInv env first commitsTo start base pending keys alerts)

include h in
theorem WalkInv.alert (hk : keys.lookup e = some k)
    (hc : first.lookup e = some c) (hb : (chainLink env first commitsTo e k).isBroken) :
    WalkInv env first commitsTo start base pending keys (insert (.chainBroken e c.owner) alerts) where
  reached := h.reached
  kept := h.kept.trans (Finset.subset_insert _ _)
  raised a ha := by
    rcases Finset.mem_insert.mp ha with rfl | ha
    · exact .inr ⟨e, k, c, hk, hc, hb, rfl⟩
    · exact h.raised a ha
  settled e' k' hk' := by
    refine (h.settled e' k' hk').imp_right fun hs k c hk hc => ?_
    exact ⟨(hs k c hk hc).1, fun hb => Finset.mem_insert_of_mem ((hs k c hk hc).2 hb)⟩

theorem update_of_eq_some (hnone : keys.lookup p = none) (h : keys.lookup e = some k) :
    (keys.insert p pk).lookup e = some k := by
  have hne : e ≠ p := by
    rintro rfl
    simp [hnone] at h
  rw [Finmap.lookup_insert_of_ne _ hne, h]

include h in
theorem WalkInv.grow (hnone : keys.lookup p = none)
    (hp : (p, pk) ∈ Reached env first commitsTo start) : WalkInv env first commitsTo start base (insert p pending)
      (keys.insert p pk) alerts where
  reached e k hk := by
    by_cases he : e = p
    · subst he
      obtain rfl : pk = k := by simpa using hk
      exact hp
    · exact h.reached e k (by rwa [Finmap.lookup_insert_of_ne _ he] at hk)
  kept := h.kept
  raised a ha := by
    refine (h.raised a ha).imp_right fun ⟨e, k, c, hk, hrest⟩ => ⟨e, k, c, ?_, hrest⟩
    exact update_of_eq_some hnone hk
  settled e k hk := by
    by_cases he : e = p
    · exact .inl (.inl he)
    · rw [Finmap.lookup_insert_of_ne _ he] at hk
      refine (h.settled e k hk).imp .inr fun hs k' c hk' hc => ?_
      rw [Finmap.lookup_insert_of_ne _ he] at hk'
      exact ⟨fun y hy => update_of_eq_some hnone ((hs k' c hk' hc).1 y hy), (hs k' c hk' hc).2⟩

include h in
theorem WalkInv.orInsert (hp : (p, pk) ∈ Reached env first commitsTo start)
    (hstop : chainLink env first commitsTo p pk = .stop) :
    WalkInv env first commitsTo start base pending (KeyMap.orInsert keys p pk) alerts := by
  unfold KeyMap.orInsert
  split_ifs with hsome
  · exact h
  · refine (h.grow (by simpa using hsome) hp).settle fun k c hk _ => ?_
    obtain rfl : pk = k := by simpa using hk
    simp [hstop, ChainLink.targets, ChainLink.isBroken]

theorem orInsert_of_eq_some (h : keys.lookup e = some k) : (KeyMap.orInsert keys p pk).lookup e = some k := by
  unfold KeyMap.orInsert
  split_ifs with hsome
  · exact h
  · exact update_of_eq_some (by simpa using hsome) h

theorem chainLink_of_burned (h : (openAt env first p pk).join.any ConfigFields.burned = true) :
    chainLink env first commitsTo p pk = .stop := by
  obtain ⟨g, hg, hburned⟩ := (Option.any_eq_true _ _).mp h
  by_cases hp : p = 0
  · simp [chainLink, hp]
  · simp [chainLink, hp, hg, hburned]

section Bound

variable (hfirst : ∀ e k, commitsTo e k → ∃ c, first.lookup e = some c)
  (hbind : ∀ e k k', commitsTo e k → commitsTo e k' → k = k')
  (hstart : ∀ x ∈ start, commitsTo x.1 x.2)

include hbind hstart in
theorem WalkInv.eq_of_reached
    (h : WalkInv env first commitsTo start base pending keys alerts) (hk : keys.lookup p = some k)
    (hp : (p, pk) ∈ Reached env first commitsTo start) : keys.lookup p = some pk := by
  rw [hk, hbind p k pk (Reached.commits hstart (h.reached p k hk)) (Reached.commits hstart hp)]

/-- What a walk from `e` with `fuel` turns does. -/
def WalksFrom (env : KeyEnv K) (first : List (ℕ × ConfigRow)) (commitsTo : ℕ → K → Bool)
    (start : Set (ℕ × K)) (base : Finset Alert) (pending : Set ℕ) (keys : KeyMap K)
    (result : Option (KeyMap K × Finset Alert)) : Prop :=
  ∃ keys' alerts', result = some (keys', alerts') ∧
    WalkInv env first commitsTo start base pending keys' alerts' ∧
      ∀ e k, keys.lookup e = some k → keys'.lookup e = some k

include hbind hstart in
/-- The end of a turn that leads on to `t`: it returns when `t` is held and walks on from it
otherwise. -/
theorem WalkInv.walksOn {fuel t : ℕ} {tk : K} (ih : ∀ {keys : KeyMap K}, keys.lookup t = some tk →
      WalkInv env first commitsTo start base (insert t pending) keys alerts →
      WalksFrom env first commitsTo start base pending keys (walkChain env first commitsTo fuel t keys alerts))
    (h : WalkInv env first commitsTo start base (insert e pending) keys alerts)
    (hk : keys.lookup e = some k) (ht : (t, tk) ∈ Reached env first commitsTo start)
    (htargets : ∀ y ∈ (chainLink env first commitsTo e k).targets e, keys.lookup y.1 = some y.2 ∨ y = (t, tk))
    (hbroken : (chainLink env first commitsTo e k).isBroken = false) :
    WalksFrom env first commitsTo start base pending keys (if (keys.lookup t).isSome then some (keys, alerts)
        else walkChain env first commitsTo fuel t (keys.insert t tk) alerts) := by
  have hsettled : ∀ keys' : KeyMap K, (∀ e k, keys.lookup e = some k → keys'.lookup e = some k) →
      keys'.lookup t = some tk → Settled env first commitsTo keys' alerts e := by
    intro keys' hmono ht' k' c hk' _
    obtain rfl : k = k' := some.inj ((hmono e k hk).symm.trans hk')
    refine ⟨fun y hy => ?_, by simp [hbroken]⟩
    rcases htargets y hy with hheld | rfl
    · exact hmono _ _ hheld
    · exact ht'
  split_ifs with hsome
  · obtain ⟨k', hk'⟩ := isSome_iff_exists.mp hsome
    have heq := h.eq_of_reached hbind hstart hk' ht
    exact ⟨keys, alerts, rfl, h.settle (hsettled keys (fun _ _ h => h) heq), fun _ _ h => h⟩
  · have hnone : keys.lookup t = none := by simpa using hsome
    have hgrow := h.grow hnone ht
    rw [Set.insert_comm] at hgrow
    have hself : (keys.insert t tk).lookup t = some tk := Finmap.lookup_insert _
    have hmono : ∀ e k, keys.lookup e = some k → (keys.insert t tk).lookup e = some k :=
      fun _ _ => update_of_eq_some hnone
    obtain ⟨keys', alerts', hrun, hinv, hkept⟩ := ih hself (hgrow.settle (hsettled _ hmono hself))
    exact ⟨keys', alerts', hrun, hinv, fun e k hk => hkept e k (hmono e k hk)⟩

include hfirst hbind hstart in
theorem walkChain_inv (fuel : ℕ) (hfuel : e < fuel) (hk : keys.lookup e = some k)
    (h : WalkInv env first commitsTo start base (insert e pending) keys alerts) :
    WalksFrom env first commitsTo start base pending keys (walkChain env first commitsTo fuel e keys alerts) := by
  induction fuel generalizing e k keys alerts with
  | zero => exact absurd hfuel (Nat.not_lt_zero e)
  | succ fuel ih =>
    have hreach := h.reached e k hk
    obtain ⟨c, hc⟩ := hfirst e k (Reached.commits hstart hreach)
    rw [walkChain_succ hfirst hc hk]
    rcases chainLink_cases env first commitsTo e k with hlink | hlink | ⟨f, pk, hok⟩
    · refine ⟨keys, alerts, by rw [hlink], h.settle fun k' c' hk' hc' => ?_, fun _ _ h => h⟩
      obtain rfl : k = k' := some.inj (hk.symm.trans hk')
      simp [hlink, ChainLink.targets, ChainLink.isBroken]
    · have hb : (chainLink env first commitsTo e k).isBroken := by simp [hlink, ChainLink.isBroken]
      refine ⟨keys, _, by rw [hlink], (h.alert hk hc hb).settle fun k' c' hk' hc' => ?_, fun _ _ h => h⟩
      obtain rfl : k = k' := some.inj (hk.symm.trans hk')
      obtain rfl : c = c' := some.inj (hc.symm.trans hc')
      simp [hlink, ChainLink.targets]
    · have hstep : ∀ y ∈ (chainLink env first commitsTo e k).targets e,
          y ∈ Reached env first commitsTo start := fun y hy =>
        Reached.step hreach (chainStep_iff.mpr hy)
      have hpos := hok.pos
      cases hbelow : (openAt env first (e - 1) pk).join.any ConfigFields.burned with
      | false =>
        have hlink : chainLink env first commitsTo e k = .down pk := by
          rw [hok.chainLink_eq, hbelow]; rfl
        rw [hlink] at hstep ⊢
        refine h.walksOn hbind hstart (ih (by omega)) hk (hstep _ (by simp [ChainLink.targets])) ?_ ?_
        · simp [hlink, ChainLink.targets]
        · simp [hlink, ChainLink.isBroken]
      | true =>
        obtain ⟨target, hlink⟩ : ∃ target, chainLink env first commitsTo e k = .over pk target :=
          ⟨_, by rw [hok.chainLink_eq, hbelow]; rfl⟩
        rw [hlink] at hstep ⊢
        have hp := hstep (e - 1, pk) (by simp [ChainLink.targets])
        have hheld : (KeyMap.orInsert keys (e - 1) pk).lookup (e - 1) = some pk := by
          cases hkp : keys.lookup (e - 1) with
          | none => simp [KeyMap.orInsert, hkp]
          | some k' => exact orInsert_of_eq_some (h.eq_of_reached hbind hstart hkp hp)
        have hmono : ∀ e' k', keys.lookup e' = some k' → (KeyMap.orInsert keys (e - 1) pk).lookup e' = some k' :=
          fun _ _ => orInsert_of_eq_some
        have hinv := h.orInsert hp (chainLink_of_burned hbelow)
        cases target with
        | none =>
          have hb : (chainLink env first commitsTo e k).isBroken := by
            simp [hlink, ChainLink.isBroken]
          refine ⟨_, _, rfl, (hinv.alert (hmono e k hk) hc hb).settle fun k' c' hk' hc' => ?_, hmono⟩
          obtain rfl : k = k' := some.inj ((hmono e k hk).symm.trans hk')
          obtain rfl : c = c' := some.inj (hc.symm.trans hc')
          simp [hlink, ChainLink.targets, hheld]
        | some t =>
          obtain ⟨s, sk⟩ := t
          have hlt : s < e :=
            (chainStep_iff.mpr (hlink ▸ by simp [ChainLink.targets]) : ChainStep env first commitsTo
              (e, k) (s, sk)).lt
          obtain ⟨keys', alerts', hrun, hinv', hkept⟩ := hinv.walksOn hbind hstart
            (ih (by omega)) (hmono e k hk) (hstep (s, sk) (by simp [ChainLink.targets]))
            (by simp [hlink, ChainLink.targets, hheld]) (by simp [hlink, ChainLink.isBroken])
          exact ⟨keys', alerts', hrun, hinv', fun e' k' hk' => hkept e' k' (hmono e' k' hk')⟩

include hfirst hbind hstart in
theorem walkAll_inv (starts : List ℕ) (hheld : ∀ e ∈ starts, ∃ k, keys.lookup e = some k)
    (h : WalkInv env first commitsTo start base {e | e ∈ starts} keys alerts) :
    WalksFrom env first commitsTo start base ∅ keys (walkAll env first commitsTo starts keys alerts) := by
  induction starts generalizing keys alerts with
  | nil => exact ⟨keys, alerts, rfl, by simpa using h, fun _ _ h => h⟩
  | cons e starts ih =>
    obtain ⟨k, hk⟩ := hheld e mem_cons_self
    have hinsert : {e' | e' ∈ e :: starts} = insert e {e' | e' ∈ starts} := by
      ext e'
      simp
    rw [hinsert] at h
    obtain ⟨keys₁, alerts₁, hrun, hinv, hkept⟩ :=
      walkChain_inv hfirst hbind hstart (e + 1) (Nat.lt_succ_self e) hk h
    obtain ⟨keys₂, alerts₂, hrun₂, hinv₂, hkept₂⟩ := ih (fun e' he' => by
      obtain ⟨k', hk'⟩ := hheld e' (mem_cons_of_mem e he')
      exact ⟨k', hkept e' k' hk'⟩) hinv
    refine ⟨keys₂, alerts₂, ?_, hinv₂, fun e' k' hk' => hkept₂ e' k' (hkept e' k' hk')⟩
    simp [walkAll, hrun, some_bind, hrun₂]

/-! ### All walks -/

/-- The keys an assignment holds. -/
def KeyMap.held (keys : KeyMap K) : Set (ℕ × K) := {x | keys.lookup x.1 = some x.2}

variable (base) in
include hfirst hbind in
/-- The walks from every held epoch return, hold exactly what the chain reaches, and raise an alert
for each held epoch whose link is broken. -/
theorem walkAll_spec {starts : List ℕ} (hstarts : ∀ e, e ∈ starts ↔ ∃ k, keys.lookup e = some k)
    (hcommits : ∀ x ∈ keys.held, commitsTo x.1 x.2) :
    ∃ keys' alerts', walkAll env first commitsTo starts keys base = some (keys', alerts') ∧
      keys'.held = Reached env first commitsTo keys.held ∧
      ∀ a, a ∈ alerts' ↔ a ∈ base ∨ ∃ e k c, keys'.lookup e = some k ∧ first.lookup e = some c ∧
        (chainLink env first commitsTo e k).isBroken ∧ a = .chainBroken e c.owner := by
  have hinit : WalkInv env first commitsTo keys.held base {e | e ∈ starts} keys base :=
    { reached := fun e k hk => ⟨(e, k), hk, .refl⟩
      kept := Finset.Subset.refl base
      raised := fun a ha => .inl ha
      settled := fun e k hk => .inl ((hstarts e).mpr ⟨k, hk⟩) }
  obtain ⟨keys', alerts', hrun, hinv, hkept⟩ :=
    walkAll_inv hfirst hbind hcommits starts (fun e he => (hstarts e).mp he) hinit
  have hdone : ∀ e k c, keys'.lookup e = some k → first.lookup e = some c →
      (∀ y ∈ (chainLink env first commitsTo e k).targets e, keys'.lookup y.1 = some y.2) ∧
        ((chainLink env first commitsTo e k).isBroken → .chainBroken e c.owner ∈ alerts') :=
    fun e k c hk hc => ((hinv.settled e k hk).resolve_left (Set.notMem_empty e)) k c hk hc
  refine ⟨keys', alerts', hrun, Set.Subset.antisymm (fun x hx => hinv.reached x.1 x.2 hx) ?_, ?_⟩
  · rintro y ⟨x, hx, hxy⟩
    induction hxy with
    | refl => exact hkept _ _ hx
    | @tail b d hxb hstep ih =>
      obtain ⟨c, hc⟩ := hfirst b.1 b.2 (Reached.commits hcommits ⟨x, hx, hxb⟩)
      exact (hdone b.1 b.2 c ih hc).1 d (chainStep_iff.mp hstep)
  · refine fun a => ⟨hinv.raised a, ?_⟩
    rintro (ha | ⟨e, k, c, hk, hc, hb, rfl⟩)
    · exact hinv.kept ha
    · exact (hdone e k c hk hc).2 hb

end Bound

end Spec

end DashForge
