import DashForge.Pack.Decode
import Mathlib.Data.Fintype.Pigeonhole

/-!
# Which chains are resolved

`resolveChains` fails exactly where some object's bases loop or lie more than `maxDeltaDepth` hops down, the hop to a
base outside the pack counted (`resolveChains_spec`): under a depth that every object keeps within, the walk down from
an object has room for its path and meets no object twice, and unwinding the path passes its check.

So the chains of an accepted pack end, and the walk that reads an object follows one of them: it is never the one to
fail (`PackOk.linksAt_not_chainError`).
-/

namespace DashForge

open List Option Relation Function

namespace ChainInput

variable (inp : ChainInput)

/-- Object `k` is the base of object `j`. -/
def Next (j k : ℕ) : Prop := (inp.baseOff j).bind inp.atOffset = some k

/-- Following bases from object `j` comes back to one of them. -/
def Loops (j : ℕ) : Prop := ∃ k, ReflTransGen inp.Next j k ∧ TransGen inp.Next k k

variable {inp}

variable {j k : ℕ} {c : Chain}

theorem next_iff : inp.Next j k ↔ ∃ b, inp.baseOff j = some b ∧ inp.atOffset b = some k :=
  bind_eq_some_iff

/-! ### Chains that end and chains that loop -/

theorem ChainOf.of_next (hc : inp.ChainOf j c) (h : inp.Next j k) :
    ∃ c', inp.ChainOf k c' ∧ c.depth = c'.depth + 1 := by
  obtain ⟨b, hb, hk⟩ := next_iff.mp h
  cases hc with
  | root hbase => exact absurd (hbase.symm.trans hb) (some_ne_none b).symm
  | missing hbase hmissing =>
    obtain rfl := some.inj (hbase.symm.trans hb)
    exact absurd (hmissing.symm.trans hk) (some_ne_none k).symm
  | delta hbase hnext hchain =>
    obtain rfl := some.inj (hbase.symm.trans hb)
    obtain rfl := some.inj (hnext.symm.trans hk)
    exact ⟨_, hchain, rfl⟩

theorem ChainOf.of_reflTransGen (hc : inp.ChainOf j c)
    (h : ReflTransGen inp.Next j k) : ∃ c', inp.ChainOf k c' := by
  induction h with
  | refl => exact ⟨c, hc⟩
  | tail _ hstep ih =>
    obtain ⟨c', hc'⟩ := ih
    obtain ⟨c'', hc'', -⟩ := hc'.of_next hstep
    exact ⟨c'', hc''⟩

theorem ChainOf.depth_lt_of_transGen (hc : inp.ChainOf j c)
    (h : TransGen inp.Next j k) : ∃ c', inp.ChainOf k c' ∧ c'.depth < c.depth := by
  induction h with
  | single hstep =>
    obtain ⟨c', hc', hdepth⟩ := hc.of_next hstep
    exact ⟨c', hc', by omega⟩
  | tail _ hstep ih =>
    obtain ⟨c', hc', hlt⟩ := ih
    obtain ⟨c'', hc'', hdepth⟩ := hc'.of_next hstep
    exact ⟨c'', hc'', by omega⟩

theorem ChainOf.not_loops (hc : inp.ChainOf j c) : ¬inp.Loops j := by
  rintro ⟨k, hreach, hloop⟩
  obtain ⟨c', hc'⟩ := hc.of_reflTransGen hreach
  obtain ⟨c'', hc'', hlt⟩ := hc'.depth_lt_of_transGen hloop
  rw [hc'.unique hc''] at hlt
  exact lt_irrefl _ hlt

theorem exists_next_of_not_chainOf (h : ∀ c, ¬inp.ChainOf j c) : ∃ k, inp.Next j k ∧ ∀ c, ¬inp.ChainOf k c := by
  cases hbase : inp.baseOff j with
  | none => exact absurd (.root hbase) (h _)
  | some b =>
    cases hnext : inp.atOffset b with
    | none => exact absurd (.missing hbase hnext) (h _)
    | some k => exact ⟨k, next_iff.mpr ⟨b, hbase, hnext⟩, fun c hc => h _ (.delta hbase hnext hc)⟩

theorem exists_chainOf_of_not_loops {n : ℕ} (hat : ∀ b k, inp.atOffset b = some k → k < n) (hj : j < n)
    (h : ¬inp.Loops j) : ∃ c, inp.ChainOf j c := by
  by_contra hnone
  rw [not_exists] at hnone
  -- The objects of the chain, one after the other.
  have hstep : ∀ i : {i : Fin n // ∀ c, ¬inp.ChainOf i c}, ∃ k : {i : Fin n // ∀ c, ¬inp.ChainOf i c},
      inp.Next i.1 k.1 := fun i => by
    obtain ⟨k, hk, hend⟩ := exists_next_of_not_chainOf i.2
    obtain ⟨b, -, hb⟩ := next_iff.mp hk
    exact ⟨⟨⟨k, hat b k hb⟩, hend⟩, hk⟩
  choose f hf using hstep
  let walk : ℕ → {i : Fin n // ∀ c, ¬inp.ChainOf i c} := fun i => f^[i] ⟨⟨j, hj⟩, hnone⟩
  have hnext : ∀ i, inp.Next (walk i).1 (walk (i + 1)).1 := fun i => by
    simp only [walk, iterate_succ_apply']
    exact hf _
  have hreach : ∀ i k, i ≤ k → ReflTransGen inp.Next (walk i).1 (walk k).1 := fun i k hik => by
    induction k, hik using Nat.le_induction with
    | base => exact .refl
    | succ k _ ih => exact ih.tail (hnext k)
  have hloops : ∀ i k, i < k → walk i = walk k → inp.Loops j := fun i k hlt heq => by
    refine ⟨(walk i).1, hreach 0 i (Nat.zero_le _), ?_⟩
    have hloop := TransGen.head' (hnext i) (hreach (i + 1) k hlt)
    rwa [← heq] at hloop
  obtain ⟨i, k, hik, heq⟩ := Finite.exists_ne_map_eq_of_infinite walk
  rcases lt_or_gt_of_ne hik with hlt | hlt
  exacts [h (hloops i k hlt heq), h (hloops k i hlt heq.symm)]

/-! ### Every object within the depth is resolved -/

section Complete

variable {n : ℕ}

variable {j : ℕ} {path : List (ℕ × ℕ)} {c : Chain} {chains : ℕ → Option Chain}

theorem depth_lt_of_pathTo (hpath : inp.PathTo j path)
    (hc : inp.ChainOf j c) : ∀ e ∈ path, ∃ c', inp.ChainOf e.1 c' ∧ c.depth < c'.depth := by
  induction path generalizing j c with
  | nil => exact fun e he => absurd he not_mem_nil
  | cons e path ih =>
    obtain ⟨hbase, hnext, hrest⟩ := hpath
    have hp : inp.ChainOf e.1 (inp.deltaChain e.1 e.2 c) := .delta hbase hnext hc
    have hdepth : (inp.deltaChain e.1 e.2 c).depth = c.depth + 1 := rfl
    intro e' he'
    rcases mem_cons.mp he' with rfl | he'
    · exact ⟨_, hp, by omega⟩
    · obtain ⟨c', hc', hlt⟩ := ih hrest hp e' he'
      exact ⟨c', hc', by omega⟩

theorem not_any_path (hpath : inp.PathTo j path) (hc : inp.ChainOf j c) :
    ¬(path.any fun e => decide (e.1 = j)) = true := by
  rw [List.any_eq_true]
  rintro ⟨e, he, hej⟩
  obtain ⟨c', hc', hlt⟩ := depth_lt_of_pathTo hpath hc e he
  rw [of_decide_eq_true hej] at hc'
  rw [hc.unique hc'] at hlt
  exact lt_irrefl _ hlt

/-- The objects whose chains `chains` has. -/
def Known (chains : ℕ → Option Chain) (j : ℕ) : Prop := chains j ≠ none

theorem known_update {p : ℕ} : Known (update chains p (some c)) j ↔ j = p ∨ Known chains j := by
  unfold Known
  by_cases hj : j = p
  · subst hj
    rw [update_self]
    exact iff_of_true (some_ne_none c) (.inl rfl)
  · rw [update_of_ne hj]
    exact (or_iff_right hj).symm

theorem exists_stepDown (chains : ℕ → Option Chain) (hpath : inp.PathTo j path)
    (hc : inp.ChainOf j c) : (∃ chain, inp.stepDown chains path j = .ok (.inl chain)) ∨
      ∃ b next, inp.stepDown chains path j = .ok (.inr (b, next)) := by
  unfold stepDown
  split
  · next known _ => exact .inl ⟨known, rfl⟩
  · rw [if_neg (not_any_path hpath hc)]
    split
    · exact .inl ⟨_, rfl⟩
    · split
      · exact .inl ⟨_, rfl⟩
      · exact .inr ⟨_, _, rfl⟩

theorem exists_walkDown (hat : ∀ b k, inp.atOffset b = some k → k < n) (chains : ℕ → Option Chain)
    {room : ℕ} (hpath : inp.PathTo j path) (hlt : ∀ e ∈ path, e.1 < n) (hj : j < n)
    (hc : inp.ChainOf j c) (hroom : c.depth ≤ room) :
    ∃ chain j' path', inp.walkDown chains room path j = .ok (chain, j', path') ∧ (∀ e ∈ path', e.1 < n) ∧
      ∀ p, p = j ∨ p ∈ path.map Prod.fst → p = j' ∨ p ∈ path'.map Prod.fst := by
  induction room generalizing j path c with
  | zero =>
    unfold walkDown
    rcases exists_stepDown chains hpath hc with ⟨chain, hstep⟩ | ⟨b, next, hstep⟩
    · rw [hstep]
      exact ⟨chain, j, path, rfl, hlt, fun p hp => hp⟩
    · obtain ⟨c', -, hdepth⟩ := hc.of_next (next_iff.mpr ⟨b, base_of_stepDown hstep⟩)
      omega
  | succ room ih =>
    unfold walkDown
    rcases exists_stepDown chains hpath hc with ⟨chain, hstep⟩ | ⟨b, next, hstep⟩
    · rw [hstep]
      exact ⟨chain, j, path, rfl, hlt, fun p hp => hp⟩
    · obtain ⟨hbase, hnext⟩ := base_of_stepDown hstep
      obtain ⟨c', hc', hdepth⟩ := hc.of_next (next_iff.mpr ⟨b, hbase, hnext⟩)
      have hpath' : inp.PathTo next ((j, b) :: path) := ⟨hbase, hnext, hpath⟩
      have hlt' : ∀ e ∈ (j, b) :: path, e.1 < n := forall_mem_cons.mpr ⟨hj, hlt⟩
      obtain ⟨chain, j', path', hwalk, hlt'', hall⟩ := ih hpath' hlt' (hat b next hnext) hc' (by omega)
      rw [hstep]
      refine ⟨chain, j', path', hwalk, hlt'', fun p hp => hall p (.inr ?_)⟩
      rw [map_cons, mem_cons]
      exact hp

theorem exists_unwind (hresolved : ∀ j < n, ∃ c, inp.Resolved j c) {chain : Chain} (chains : ℕ →
    Option Chain) (hpath : inp.PathTo j path) (hlt : ∀ e ∈ path, e.1 < n) (hc : inp.ChainOf j chain) :
    ∃ chains', inp.unwind chain chains path = .ok chains' ∧
      ∀ p, Known chains p ∨ p ∈ path.map Prod.fst → Known chains' p := by
  induction path generalizing j chain chains with
  | nil => exact ⟨chains, rfl, fun p hp => hp.resolve_right not_mem_nil⟩
  | cons e path ih =>
    obtain ⟨p, b⟩ := e
    obtain ⟨hbase, hnext, hrest⟩ := hpath
    obtain ⟨hp, hlt⟩ := forall_mem_cons.mp hlt
    have hchain : inp.ChainOf p (inp.deltaChain p b chain) := .delta hbase hnext hc
    obtain ⟨c, hc', hdepth⟩ := hresolved p hp
    rw [hc'.unique hchain] at hdepth
    obtain ⟨chains', hunwind, hall⟩ := ih (update chains p (some (inp.deltaChain p b chain))) hrest hlt hchain
    refine ⟨chains', ?_, fun q hq => hall q ?_⟩
    · rw [unwind]
      simp only [if_neg (not_lt.mpr hdepth)]
      exact hunwind
    · rw [known_update]
      rw [map_cons, mem_cons] at hq
      rcases hq with hq | rfl | hq
      exacts [.inl (.inr hq), .inl (.inl rfl), .inr hq]

variable (hresolved : ∀ j < n, ∃ c, inp.Resolved j c) (hat : ∀ b k, inp.atOffset b = some k → k < n)

include hresolved hat in
theorem exists_resolveFrom (hchains : ∀ j chain, chains j = some chain → inp.Resolved j chain)
    {start : ℕ} (hstart : start < n) :
    ∃ chains', inp.resolveFrom chains start = .ok chains' ∧ ∀ p, p = start ∨ Known chains p → Known chains' p := by
  obtain ⟨c, hc, hdepth⟩ := hresolved start hstart
  have hnil : inp.PathTo start [] := trivial
  have hempty : ∀ e ∈ ([] : List (ℕ × ℕ)), e.1 < n := fun e he => absurd he not_mem_nil
  obtain ⟨chain, j, path, hwalk, hlt, hall⟩ := exists_walkDown hat chains hnil hempty hstart hc hdepth
  obtain ⟨hchain, hpath⟩ := resolved_of_walkDown hchains hnil hwalk
  obtain ⟨chains', hunwind, hknown⟩ :=
    exists_unwind hresolved (update chains j (some chain)) hpath hlt hchain.1
  refine ⟨chains', ?_, fun p hp => hknown p ?_⟩
  · rw [resolveFrom, hwalk, ok_bind]
    exact hunwind
  · rw [known_update]
    rcases hp with rfl | hp
    · exact (hall p (.inl rfl)).imp_left .inl
    · exact .inl (.inr hp)

include hresolved hat in
theorem exists_foldlM_resolveFrom {order : List ℕ} (horder : ∀ j ∈ order, j < n)
    (hchains : ∀ j chain, chains j = some chain → inp.Resolved j chain) :
    ∃ chains', order.foldlM inp.resolveFrom chains = .ok chains' ∧ ∀ p, p ∈ order ∨ Known chains p →
        Known chains' p := by
  induction order generalizing chains with
  | nil => exact ⟨chains, rfl, fun p hp => hp.resolve_left not_mem_nil⟩
  | cons start order ih =>
    obtain ⟨hstart, horder⟩ := forall_mem_cons.mp horder
    obtain ⟨mid, hmid, hknown⟩ := exists_resolveFrom hresolved hat hchains hstart
    obtain ⟨chains', hfold, hall⟩ := ih horder fun j chain => resolved_of_resolveFrom hchains hmid j chain
    refine ⟨chains', by rw [foldlM_cons, hmid, ok_bind, hfold], fun p hp => hall p ?_⟩
    rw [mem_cons] at hp
    rcases hp with (rfl | hp) | hp
    exacts [.inr (hknown p (.inl rfl)), .inl hp, .inr (hknown p (.inr hp))]

theorem exists_resolveChains_iff (hat : ∀ b k, inp.atOffset b = some k → k < n) {order : List ℕ}
    (horder : ∀ j, j ∈ order ↔ j < n) :
    (∃ out, inp.resolveChains order n = .ok out) ↔ ∀ j < n, ∃ c, inp.Resolved j c := by
  constructor
  · rintro ⟨out, hout⟩ j hj
    obtain ⟨hlen, hget⟩ := resolveChains_eq_ok hout
    rw [← hlen] at hj
    exact ⟨out[j], hget j _ (getElem?_eq_getElem hj)⟩
  · intro hresolved
    have hnone : ∀ j chain, (fun _ => none : ℕ → Option Chain) j = some chain → inp.Resolved j chain :=
      fun j chain h => absurd h.symm (some_ne_none chain)
    obtain ⟨chains, hfold, hknown⟩ := exists_foldlM_resolveFrom hresolved hat (fun j hj => (horder j).mp hj) hnone
    refine ⟨(range n).map fun j => (chains j).getD (inp.rootChain j), ?_⟩
    rw [resolveChains, hfold, ok_bind, mapM_eq_some_map]
    · rfl
    · intro j hj
      have hj' := hknown j (.inl ((horder j).mpr (mem_range.mp hj)))
      obtain ⟨c, hc⟩ := ne_none_iff_exists'.mp hj'
      rw [hc, getD_some]

end Complete

end ChainInput

/-! ### Reading along a chain -/

/-- The errors of a walk that comes back to an object, or that runs too deep. -/
def IsChainError (e : PackError) : Prop :=
  e = .config "delta chain loops back on itself" ∨ e = .config ("delta chain deeper than " ++ toString maxDeltaDepth)

instance decidableIsChainError (e : PackError) : Decidable (IsChainError e) := inferInstanceAs (Decidable (_ ∨ _))

theorem failsIn_sizeVarint (bs : Bytes) (size shift p : ℕ) :
    FailsIn (¬IsChainError ·) (sizeVarint bs size shift p) := by
  induction bs generalizing size shift p with
  | nil => exact failsIn_error (by decide)
  | cons c bs ih =>
    rw [sizeVarint]
    refine .bind (failsIn_okOr (by decide)) fun v _ => ?_
    split
    · exact ih _ _ _
    · exact failsIn_ok _ _

theorem failsIn_ofsVarint (bs : Bytes) (ofs p : ℕ) : FailsIn (¬IsChainError ·) (ofsVarint bs ofs p) := by
  induction bs generalizing ofs p with
  | nil => exact failsIn_error (by decide)
  | cons c bs ih =>
    rw [ofsVarint]
    refine .bind (failsIn_okOr (by decide)) fun v _ => ?_
    dsimp only
    split
    · exact ih _ _
    · exact failsIn_ok _ _

theorem failsIn_parseObjHeader (buf : Bytes) (pos : ℕ) : FailsIn (¬IsChainError ·) (parseObjHeader buf pos) := by
  rw [parseObjHeader]
  cases buf.drop pos with
  | nil => exact failsIn_error (by decide)
  | cons c rest =>
    rw [objHeader]
    refine .bind ?_ fun r _ => failsIn_ok _ _
    rw [sizeAfter]
    split
    · exact failsIn_sizeVarint _ _ _ _
    · exact failsIn_ok _ _

theorem failsIn_parseOfsBase (buf : Bytes) (pos : ℕ) : FailsIn (¬IsChainError ·) (parseOfsBase buf pos) := by
  rw [parseOfsBase]
  cases buf.drop pos with
  | nil => exact failsIn_error (by decide)
  | cons c rest =>
    rw [ofsBase]
    refine .bind ?_ fun r _ => .bind (failsIn_refuseIf (by decide)) fun u _ => failsIn_ok _ _
    rw [ofsAfter]
    split
    · exact failsIn_ofsVarint _ _ _
    · exact failsIn_ok _ _

theorem failsIn_readEntry (buf : Bytes) (pos : ℕ) : FailsIn (¬IsChainError ·) (readEntry buf pos) := by
  rw [readEntry]
  refine .bind (failsIn_parseObjHeader buf pos) fun header _ => .bind ?_ fun base _ => failsIn_ok _ _
  unfold readBase
  split
  · exact .bind (failsIn_parseOfsBase buf _) fun r _ => failsIn_ok _ _
  · exact .bind (failsIn_okOr (by decide)) fun oid _ => failsIn_ok _ _
  · exact failsIn_ok _ _

theorem failsIn_fromCode (t : ℕ) : FailsIn (¬IsChainError ·) (GitObjType.fromCode t) := by
  unfold GitObjType.fromCode
  split
  · exact failsIn_ok _ _
  · exact failsIn_ok _ _
  · exact failsIn_ok _ _
  · exact failsIn_ok _ _
  · refine failsIn_error ?_
    -- The message starts with another letter.
    have hhead : ("non-base pack object type " ++ toString t).toList.head? = some 'n' := by
      rw [String.toList_append]
      rfl
    rintro (h | h) <;> rw [PackError.config.inj h] at hhead <;> revert hhead <;> decide

namespace ParsedPack

theorem failsIn_linkAt (pp : ParsedPack) (buf : Bytes) (baseAddr : ℕ) (allowRef : Bool) (addr covered : ℕ) :
    FailsIn (¬IsChainError ·) (pp.linkAt buf baseAddr allowRef addr covered) := by
  rw [linkAt]
  refine .bind (failsIn_okOr (by decide)) fun pos _ => .bind ?_ fun r _ =>
    .bind (failsIn_refuseIf (by decide)) fun _ _ => .bind (failsIn_readEntry _ _) fun _ _ => failsIn_ok _ _
  rw [linkEnd]
  split
  · refine .bind ?_ fun r _ => failsIn_ok _ _
    rw [extent]
    exact .bind (failsIn_okOr (by decide)) fun j _ => .bind (failsIn_okOr (by decide)) fun stop _ => failsIn_ok _ _
  · exact failsIn_ok _ _

theorem failsIn_nextAddr (pp : ParsedPack) (allowRef : Bool) (addr : ℕ) (base : EntryBase) :
    FailsIn (¬IsChainError ·) (pp.nextAddr allowRef addr base) := by
  unfold nextAddr
  split
  · exact failsIn_ok _ _
  · exact failsIn_okOr (by decide)
  · split
    · exact failsIn_okOr (by decide)
    · exact failsIn_error (by decide)

variable {pp : ParsedPack} {allowRef : Bool} {next : ℕ}

theorem baseAddr_of_nextAddr {addr : ℕ} {base : EntryBase}
    (h : pp.nextAddr allowRef addr base = .ok (some next)) : pp.baseAddr addr base = some next := by
  unfold nextAddr at h
  split at h
  · exact absurd (Except.ok.inj h) (some_ne_none next).symm
  · rw [okOr_eq_ok, map_eq_some_iff] at h
    obtain ⟨a, ha, hnext⟩ := h
    rw [← some.inj hnext]
    exact ha
  · split at h
    · rw [okOr_eq_ok, map_eq_some_iff] at h
      obtain ⟨o, ho, hnext⟩ := h
      rw [ParsedPack.baseAddr, ho, map_some, some.inj hnext]
    · cases h

theorem EntryOk.exists_base {i : ℕ} {entry : Entry} (hok : pp.EntryOk i entry)
    (h : pp.nextAddr allowRef (pp.obj i).offset entry.base = .ok (some next)) :
    ∃ b < pp.objects.length, next = (pp.obj b).offset ∧ (pp.obj i).deltaDepth = (pp.obj b).deltaDepth + 1 := by
  have hnext := baseAddr_of_nextAddr h
  cases hok with
  | root hbase hentry =>
    rw [hentry] at hnext
    exact absurd hnext.symm (some_ne_none next)
  | @delta b hbase hb haddr htype hdepth => exact ⟨b, hb, some.inj (hnext.symm.trans haddr), hdepth⟩

namespace PackOk

variable {pp : ParsedPack} (hpp : pp.PackOk)
variable {lo hi i : ℕ} {allowRef : Bool}

include hpp

theorem entryOk_of_linkAt {covered covered' : ℕ} {entry : Entry} {link : Link}
    (hi' : i < pp.objects.length)
      (h : pp.linkAt ((pp.packBytes.take hi).drop lo) lo allowRef (pp.obj i).offset covered =
      .ok (entry, link, covered')) : pp.EntryOk i { entry with data := entry.data + lo } := by
  simp only [linkAt, bind_eq_ok, okOr_eq_ok, checkedSub_eq_some, pure_eq_ok, Prod.mk.injEq] at h
  obtain ⟨pos, ⟨hlo, rfl⟩, r, -, -, -, entry', hread, rfl, -⟩ := h
  have hadd := readEntry_add (pp.packBytes.take hi) ((pp.obj i).offset - lo) lo
  rw [readEntry_of_take hread, Nat.sub_add_cancel hlo] at hadd
  obtain ⟨whole, hwhole, hok⟩ := hpp.entry i hi'
  rwa [Except.ok.inj (hwhole.symm.trans (readEntry_of_take hadd))] at hok

theorem failsIn_linksFrom {room covered : ℕ} {seen : Finset ℕ} {deltas : List Link}
    (hi' : i < pp.objects.length) (hroom : (pp.obj i).deltaDepth ≤ room)
    (hseen : pp.Deeper seen i) :
    FailsIn (¬IsChainError ·) (pp.linksFrom ((pp.packBytes.take hi).drop lo) lo allowRef room seen (pp.obj i).offset
      deltas covered) := by
  induction room generalizing i seen deltas covered with
  | zero =>
    unfold linksFrom
    rw [if_neg (hpp.not_mem_seen hi' hseen)]
    split
    · next e h => exact failsIn_error (pp.failsIn_linkAt _ _ _ _ _ e h)
    · next entry link covered' h =>
      split
      · next e hnext => exact failsIn_error (pp.failsIn_nextAddr _ _ _ e hnext)
      · exact .bind (failsIn_fromCode _) fun _ _ => failsIn_ok _ _
      · next next hnext =>
        obtain ⟨b, -, -, hdepth⟩ := (hpp.entryOk_of_linkAt hi' h).exists_base hnext
        omega
  | succ room ih =>
    unfold linksFrom
    rw [if_neg (hpp.not_mem_seen hi' hseen)]
    split
    · next e h => exact failsIn_error (pp.failsIn_linkAt _ _ _ _ _ e h)
    · next entry link covered' h =>
      split
      · next e hnext => exact failsIn_error (pp.failsIn_nextAddr _ _ _ e hnext)
      · exact .bind (failsIn_fromCode _) fun _ _ => failsIn_ok _ _
      · next next hnext =>
        obtain ⟨b, hb, rfl, hdepth⟩ := (hpp.entryOk_of_linkAt hi' h).exists_base hnext
        exact ih hb (by omega) (hseen.insert hi' (by omega))

/-- Reading an object out of a range of its pack never fails for a loop or for depth. -/
theorem failsIn_linksAt (hi' : i < pp.objects.length) :
    FailsIn (¬IsChainError ·) (pp.linksAt ((pp.packBytes.take hi).drop lo) lo (pp.obj i).offset allowRef) :=
  .bind (hpp.failsIn_linksFrom hi' (hpp.depth_le i hi') deeper_empty) fun _ _ => failsIn_ok _ _

end PackOk

end ParsedPack

/-! ### Both -/

namespace ChainInput

/-- A chain is too long: it comes back to itself, or has more than `maxDeltaDepth` hops, that to a base outside the
pack counted. -/
def TooLong (inp : ChainInput) (j : ℕ) : Prop := inp.Loops j ∨ ∃ c, inp.ChainOf j c ∧ maxDeltaDepth < c.depth

theorem not_exists_resolved_iff {inp : ChainInput} {n j : ℕ} (hat : ∀ b k, inp.atOffset b = some k →
    k < n) (hj : j < n) :
    (¬∃ c, inp.Resolved j c) ↔ inp.TooLong j := by
  constructor
  · intro h
    by_cases hloops : inp.Loops j
    · exact .inl hloops
    · obtain ⟨c, hc⟩ := exists_chainOf_of_not_loops hat hj hloops
      exact .inr ⟨c, hc, not_le.mp fun hle => h ⟨c, hc, hle⟩⟩
  · rintro (hloops | ⟨c, hc, hlt⟩) ⟨c', hc', hle⟩
    · exact hc'.not_loops hloops
    · rw [hc.unique hc'] at hlt
      omega

end ChainInput

/-- What the chains of objects at `offsets` are resolved from. -/
def chainInputOf (offsets : List ℕ) (rawType : ℕ → ℕ) (baseOff : ℕ → Option ℕ) : ChainInput where
  offset i := offsets.getD i 0
  rawType
  baseOff
  atOffset := lastIdxOf offsets

/-- The chains of the objects at `offsets`, taken in ascending offset. -/
def chainsOf (offsets : List ℕ) (rawType : ℕ → ℕ) (baseOff : ℕ → Option ℕ) : Except PackError (List Chain) :=
  (chainInputOf offsets rawType baseOff).resolveChains
    (sortByKey (fun i => offsets.getD i 0) (range offsets.length)) offsets.length

theorem exists_chainsOf_iff (offsets : List ℕ) (rawType : ℕ → ℕ) (baseOff : ℕ → Option ℕ) :
    (∃ e, chainsOf offsets rawType baseOff = .error e) ↔
      ∃ j < offsets.length, (chainInputOf offsets rawType baseOff).TooLong j := by
  have hat : ∀ b k, (chainInputOf offsets rawType baseOff).atOffset b = some k → k < offsets.length := fun b k h =>
    (List.getElem?_eq_some_iff.mp (getElem?_of_lastIdxOf h)).1
  have horder : ∀ j, j ∈ sortByKey (fun i => offsets.getD i 0) (range offsets.length) ↔ j < offsets.length :=
    fun j => by rw [mem_sortByKey, mem_range]
  have hok := ChainInput.exists_resolveChains_iff hat horder
  have herr : (∃ e, chainsOf offsets rawType baseOff = .error e) ↔ ¬∃ out,
      chainsOf offsets rawType baseOff = .ok out := by
    cases chainsOf offsets rawType baseOff <;> simp
  rw [herr, chainsOf, hok, not_forall]
  refine exists_congr fun j => ?_
  rw [not_forall, exists_prop]
  exact and_congr_right fun hj => ChainInput.not_exists_resolved_iff hat hj

/-- Chains are resolved as by following bases one by one, and are refused where one loops or has too many hops. In a
pack that is accepted, no object is then read along a chain that does. -/
theorem resolveChains_spec :
    (∀ (offsets : List ℕ) (rawType : ℕ → ℕ) (baseOff : ℕ → Option ℕ),
      ((∃ e, chainsOf offsets rawType baseOff = .error e) ↔
        ∃ j < offsets.length, (chainInputOf offsets rawType baseOff).TooLong j) ∧
      ∀ out, chainsOf offsets rawType baseOff = .ok out → out.length = offsets.length ∧
        ∀ i c, out[i]? = some c → (chainInputOf offsets rawType baseOff).ChainOf i c) ∧
    ∀ (env : PackEnv) (packBytes idxBytes : Bytes) (pp : ParsedPack), ParsedPack.parse env packBytes idxBytes = .ok pp →
      ∀ i < pp.objects.length, ∀ lo hi allowRef,
        FailsIn (¬IsChainError ·) (pp.linksAt ((packBytes.take hi).drop lo) lo (pp.obj i).offset allowRef) := by
  refine ⟨fun offsets rawType baseOff => ⟨exists_chainsOf_iff offsets rawType baseOff, fun out hout => ?_⟩, ?_⟩
  · obtain ⟨hlen, hget⟩ := ChainInput.resolveChains_eq_ok hout
    exact ⟨hlen, fun i c hi => (hget i c hi).1⟩
  · intro env packBytes idxBytes pp hparse i hi' lo hi allowRef
    obtain ⟨hpp, rfl⟩ := packOk_of_parse hparse
    exact hpp.failsIn_linksAt hi'

/-- How many hops lead down from an object within the pack. -/
inductive ChainInput.Hops (inp : ChainInput) : ℕ → ℕ → Prop
  | zero (j : ℕ) : Hops inp j 0
  | succ {j k hops : ℕ} (h : inp.Next j k) (hrest : Hops inp k hops) : Hops inp j (hops + 1)

/-! ### A row of deltas -/

/-- `n` deltas, each of the one before it and the first of an object that is not in the pack. -/
def deltaRow (n : ℕ) : ChainInput := chainInputOf (List.range' 1 n) (fun _ => tOfsDelta) some

section DeltaRow

variable {n : ℕ}

theorem atOffset_deltaRow {b k : ℕ} (h : (deltaRow n).atOffset b = some k) : b = k + 1 := by
  obtain ⟨hlt, hget⟩ := List.getElem?_eq_some_iff.mp (getElem?_of_lastIdxOf h)
  rw [← hget, getElem_range']
  omega

theorem next_deltaRow {j k : ℕ} (h : (deltaRow n).Next j k) : j = k + 1 := by
  obtain ⟨b, hb, hk⟩ := ChainInput.next_iff.mp h
  rw [some.inj hb]
  exact atOffset_deltaRow hk

theorem not_loops_deltaRow (j : ℕ) : ¬(deltaRow n).Loops j := by
  rintro ⟨k, -, hloop⟩
  have hlt : ∀ {i}, TransGen (deltaRow n).Next k i → i < k := fun h => by
    induction h with
    | single hstep => exact Nat.lt_of_succ_le (next_deltaRow hstep).ge
    | tail _ hstep ih => exact (Nat.lt_of_succ_le (next_deltaRow hstep).ge).trans ih
  exact lt_irrefl k (hlt hloop)

theorem hops_deltaRow_le {j hops : ℕ} (h : (deltaRow n).Hops j hops) : hops ≤ j := by
  induction h with
  | zero => exact Nat.zero_le _
  | succ hstep _ ih => exact (Nat.succ_le_succ ih).trans (next_deltaRow hstep).ge

theorem exists_chainOf_deltaRow {j : ℕ} (hj : j < n) : ∃ c, (deltaRow n).ChainOf j c ∧ c.depth = j + 1 := by
  induction j with
  | zero =>
    refine ⟨_, .missing (b := 0) rfl ?_, rfl⟩
    by_contra hsome
    obtain ⟨k, hk⟩ := ne_none_iff_exists'.mp hsome
    exact absurd (atOffset_deltaRow hk) (Nat.succ_ne_zero k).symm
  | succ j ih =>
    obtain ⟨c, hc, hdepth⟩ := ih (by omega)
    have hat : (deltaRow n).atOffset (j + 1) = some j := by
      refine lastIdxOf_eq_some nodup_range' ?_
      rw [getElem?_range' (by omega), one_mul, add_comm]
    exact ⟨_, .delta (b := j + 1) rfl hat hc, by rw [← hdepth]; rfl⟩

theorem deltaRow_refused (hn : maxDeltaDepth < n) : ∃ e,
    chainsOf (List.range' 1 n) (fun _ => tOfsDelta) some = .error e := by
  obtain ⟨c, hc, hdepth⟩ := exists_chainOf_deltaRow hn
  refine (exists_chainsOf_iff _ _ _).mpr ⟨maxDeltaDepth, by rwa [length_range'], .inr ⟨c, hc, ?_⟩⟩
  rw [hdepth]
  exact Nat.lt_succ_self _

end DeltaRow

/-- A row of 4096 deltas is refused for its last one, although no chain in it has more than 4095 hops within the pack.
An entry without a base counts as contiguous, whatever its type. -/
theorem chainsOf_missing_base :
    ((∀ j < 4096, ¬(deltaRow 4096).Loops j ∧ ∀ hops, (deltaRow 4096).Hops j hops → hops ≤ maxDeltaDepth) ∧
      ∃ e, chainsOf (List.range' 1 4096) (fun _ => tOfsDelta) some = .error e) ∧
    chainsOf [12] (fun _ => tRefDelta) (fun _ => none) = .ok [⟨tRefDelta, 0, 12, true⟩] := by
  refine ⟨⟨fun j hj => ⟨not_loops_deltaRow j, fun hops h => ?_⟩, deltaRow_refused (Nat.lt_succ_self _)⟩, by decide⟩
  exact (hops_deltaRow_le h).trans (Nat.le_of_lt_succ hj)

end DashForge
