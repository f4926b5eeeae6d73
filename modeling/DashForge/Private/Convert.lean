import DashForge.Data.BigEndian
import DashForge.Data.SortBy
import DashForge.Pack.Entry

/-!
# The boundary of a repository being made public

An owner who makes a private repository public rotates its key and marks the new epoch in a config: only
what lies below that boundary is published (`private/convert.rs`). `activeSealOff` reads the boundary in
force from every config, `sealOffDecision` says what a device does next from its own record, and a later
marker may set earlier boundaries aside (`SealOffMarker.replacesEpoch`).

`sealOff_sticky` is the rule readers rely on: the boundary does not depend on the order of the configs or
on configs that carry no owner marker, it is the lowest that nothing replaced, no decision publishes above
it, and a start-over takes every device to the new one.
-/

namespace DashForge

open List Option

/-! ### The marker -/

/-- What becomes public. -/
inductive SealOffMode where
  | codeOnly
  | everything
deriving DecidableEq, Repr

/-- The owner's marker of a run. -/
structure SealOffMarker where
  mode : SealOffMode
  conversionId : Bytes
  /-- The enclosing config's epoch. -/
  boundaryEpoch : ℕ
  startedAtMs : ℕ
  /-- The boundary an intentional start-over sets aside. -/
  replacesEpoch : Option ℕ
  length_conversionId : conversionId.length = 16
  boundaryEpoch_lt : boundaryEpoch < 256 ^ 4
  startedAtMs_lt : startedAtMs < 256 ^ 8
  replacesEpoch_lt : ∀ e ∈ replacesEpoch, e < 256 ^ 4
deriving DecidableEq

namespace SealOffMarker

def modeByte : SealOffMode → UInt8
  | .codeOnly => 1
  | .everything => 2

def modeOfByte : UInt8 → Option SealOffMode
  | 1 => some .codeOnly
  | 2 => some .everything
  | _ => none

/-- The bytes of a marker. -/
def encode (m : SealOffMarker) : Bytes :=
  [1, modeByte m.mode] ++ m.conversionId ++ toBe 4 m.boundaryEpoch ++ toBe 8 m.startedAtMs ++
    (m.replacesEpoch.map (toBe 4)).getD []

theorem beNat_slice_lt (value : Bytes) (i n : ℕ) : beNat ((value.drop i).take n) < 256 ^ n := by
  refine (beNat_lt _).trans_le (Nat.pow_le_pow_right (by decide) ?_)
  simp

/-- The marker that bytes of a config of an epoch hold. -/
def parse (value : Bytes) (epoch : ℕ) : Option SealOffMarker :=
  if h : (value.length = 30 ∨ value.length = 34) ∧ value[0]? = some 1 ∧ epoch ≠ 0 then
    (value[1]?.bind modeOfByte).bind fun mode =>
      if beNat ((value.drop 18).take 4) ≠ epoch then none
      else some
        { mode := mode
          conversionId := (value.drop 2).take 16
          boundaryEpoch := beNat ((value.drop 18).take 4)
          startedAtMs := beNat ((value.drop 22).take 8)
          replacesEpoch := if value.length = 34 then some (beNat ((value.drop 30).take 4)) else none
          length_conversionId := by
            rw [length_take, length_drop]
            omega
          boundaryEpoch_lt := beNat_slice_lt value 18 4
          startedAtMs_lt := beNat_slice_lt value 22 8
          replacesEpoch_lt := by
            intro e he
            split at he
            · obtain rfl := Option.some.inj he
              exact beNat_slice_lt value 30 4
            · cases he }
  else none

theorem modeOfByte_modeByte (mode : SealOffMode) : modeOfByte (modeByte mode) = some mode := by
  cases mode <;> rfl

theorem drop_take_append {l₁ l₂ l₃ : Bytes} {i n : ℕ} (hi : l₁.length = i) (hn : l₂.length = n) :
    ((l₁ ++ (l₂ ++ l₃)).drop i).take n = l₂ := by
  rw [← hi, drop_left, ← hn, take_left]

/-- A marker is read back from its bytes. -/
theorem parse_encode (m : SealOffMarker) (h : m.boundaryEpoch ≠ 0) : parse m.encode m.boundaryEpoch = some m := by
  obtain ⟨mode, cid, boundary, started, replaces, hcid, hboundary, hstarted, hreplaces⟩ := m
  have hvalue : encode ⟨mode, cid, boundary, started, replaces, hcid, hboundary, hstarted, hreplaces⟩ =
      [1, modeByte mode] ++ cid ++ toBe 4 boundary ++ toBe 8 started ++ (replaces.map (toBe 4)).getD [] := rfl
  generalize encode ⟨mode, cid, boundary, started, replaces, hcid, hboundary, hstarted, hreplaces⟩ = value at hvalue
  have hlen : value.length = if replaces.isSome then 34 else 30 := by
    cases replaces <;> simp [hvalue, hcid]
  have hone : value[0]? = some 1 := by rw [hvalue]; rfl
  have hmode : value[1]? = some (modeByte mode) := by rw [hvalue]; rfl
  have hid : (value.drop 2).take 16 = cid := by
    rw [hvalue]
    simp only [append_assoc]
    exact drop_take_append rfl hcid
  have hb : (value.drop 18).take 4 = toBe 4 boundary := by
    rw [hvalue]
    simp only [append_assoc]
    rw [← append_assoc [1, modeByte mode]]
    exact drop_take_append (by simp [hcid]) (by simp)
  have hs : (value.drop 22).take 8 = toBe 8 started := by
    rw [hvalue]
    rw [append_assoc ([1, modeByte mode] ++ cid ++ toBe 4 boundary)]
    exact drop_take_append (by simp [hcid]) (by simp)
  have hr : (value.drop 30).take 4 = (replaces.map (toBe 4)).getD [] := by
    rw [hvalue, drop_left' (by simp [hcid])]
    cases replaces with
    | none => rfl
    | some e => exact take_of_length_le (by simp)
  have hguard : (value.length = 30 ∨ value.length = 34) ∧ value[0]? = some 1 ∧ boundary ≠ 0 := by
    refine ⟨?_, hone, h⟩
    rw [hlen]
    cases replaces <;> simp
  have hboundary' : beNat ((value.drop 18).take 4) = boundary := by rw [hb, beNat_toBe_of_lt hboundary]
  have hstarted' : beNat ((value.drop 22).take 8) = started := by rw [hs, beNat_toBe_of_lt hstarted]
  have hreplaces' : (if value.length = 34 then some (beNat ((value.drop 30).take 4)) else none) = replaces := by
    rw [hlen, hr]
    cases replaces with
    | none => rfl
    | some e => simpa using hreplaces e rfl
  rw [parse, dif_pos hguard, hmode, bind_some, modeOfByte_modeByte, bind_some, if_neg (by simpa using hboundary')]
  simp [hid, hboundary', hstarted', hreplaces']

end SealOffMarker

/-! ### The boundary in force -/

/-- How a config opened. -/
inductive SealOffOpening where
  /-- Under its anchored epoch's key, with the bytes of its marker if it has one. -/
  | opened (marker : Option Bytes)
  | otherKey
  | unreadable
deriving DecidableEq, Repr

structure SealOffConfig where
  id : Bytes
  owner : Bytes
  epoch : Option ℕ
  isPrivate : Bool
  height : ℕ
  opening : SealOffOpening
deriving DecidableEq, Repr

/-- The boundary of a conversion. -/
inductive ActiveSealOff where
  | none
  /-- Some config of the owner cannot be opened. -/
  | unknown
  | active (epoch height : ℕ) (marker : Option SealOffMarker) (highestEpoch : ℕ) (replacesThrough : Option ℕ)
deriving DecidableEq

/-- A config that marks a boundary. -/
structure Candidate where
  config : SealOffConfig
  epoch : ℕ
  /-- None when the marker is of an unknown form. -/
  marker : Option SealOffMarker

namespace Candidate

/-- The boundary an intentional start-over sets aside, when it lies below its own. -/
def replaces (c : Candidate) : Option ℕ := (c.marker.bind SealOffMarker.replacesEpoch).filter fun r => r < c.epoch

def key (c : Candidate) : ℕ ×ₗ ℕ ×ₗ Bytes := toLex (c.epoch, toLex (c.config.height, c.config.id))

end Candidate

/-- Whether a config takes part: an owner's private config of an epoch after the first. -/
def SealOffConfig.counts (owner : Bytes) (c : SealOffConfig) : Bool :=
  c.owner = owner ∧ c.isPrivate ∧ c.epoch.any fun e => 1 ≤ e

/-- The boundary a config marks. -/
def SealOffConfig.candidate (c : SealOffConfig) : Option Candidate :=
  match c.opening, c.epoch with
  | .opened (some value), some epoch => some ⟨c, epoch, SealOffMarker.parse value epoch⟩
  | _, _ => none

def candidates (configs : List SealOffConfig) (owner : Bytes) : List Candidate :=
  (configs.filter (SealOffConfig.counts owner)).filterMap SealOffConfig.candidate

/-- All boundaries through this epoch were set aside by the owner. -/
def replacesThrough (cs : List Candidate) : Option ℕ := (cs.filterMap Candidate.replaces).max?

/-- The candidates no replacement sets aside. -/
def inForce (cs : List Candidate) : List Candidate := cs.filter fun c => (replacesThrough cs).all fun r => r < c.epoch

/-- The boundary in force, from every config. -/
def activeSealOff (configs : List SealOffConfig) (owner : Bytes) : ActiveSealOff :=
  if (configs.filter (SealOffConfig.counts owner)).any fun c => c.opening = .unreadable then .unknown
  else
    let cs := candidates configs owner
    match (sortByKey Candidate.key (inForce cs)).head? with
    | none => .none
    | some c =>
      .active c.epoch c.config.height c.marker (((inForce cs).map Candidate.epoch).max?.getD c.epoch)
        (replacesThrough cs)

namespace ActiveSealOff

def epoch : ActiveSealOff → Option ℕ
  | active e _ _ _ _ => some e
  | _ => .none

/-- The greater of two options; none is below every number. -/
def optMax (a b : Option ℕ) : Option ℕ :=
  match a, b with
  | some a, some b => some (max a b)
  | a, b => a.or b

/-- The highest boundary to cover when starting over. -/
def replacementEpoch (a : ActiveSealOff) (recorded : Option ℕ) : Option ℕ :=
  optMax recorded <|
    match a with
    | active _ _ _ highest _ => some highest
    | _ => .none

end ActiveSealOff

/-- The lower of two cutoffs, of those there are. -/
def historyCutoff : Option ℕ → Option ℕ → Option ℕ
  | some a, some b => some (min a b)
  | a, b => a.or b

/-- The lower boundary still in force, given the one a device recorded. -/
def ActiveSealOff.boundary (a : ActiveSealOff) (recorded : Option ℕ) : Option ℕ :=
  let recorded := match a with
    | active _ _ _ _ (some r) => recorded.filter fun e => r < e
    | _ => recorded
  historyCutoff recorded a.epoch

inductive SealOffDecision where
  | new
  | adopt (epoch : ℕ)
  | lagging (epoch : ℕ)
  | passed (epoch : ℕ)
  | public_ (cutoff : Option ℕ)
  | unknown
deriving DecidableEq, Repr

/-- What a device does, from its record, the boundary in force and the current epoch. -/
def sealOffDecision (recorded : Option ℕ) (active : ActiveSealOff) (current : Option ℕ) (flipped : Bool)
    (stated : Option ℕ) : SealOffDecision :=
  if active = .unknown then .unknown
  else if flipped then .public_ (historyCutoff stated (active.boundary recorded))
  else
    match active.boundary recorded with
    | none => .new
    | some e => if current = some e then .adopt e else if current.any fun c => e < c then .passed e else .lagging e

/-! ### What takes part -/

section Rule

variable {configs : List SealOffConfig} {owner : Bytes}

/-- The boundary a marked config of the owner states. -/
def IsBoundary (configs : List SealOffConfig) (owner : Bytes) (b : ℕ) : Prop :=
  ∃ c ∈ configs, c.owner = owner ∧ c.isPrivate ∧ c.epoch = some b ∧ 1 ≤ b ∧ ∃ v, c.opening = .opened (some v)

/-- A boundary a valid marker of the owner sets aside. -/
def IsReplaced (configs : List SealOffConfig) (owner : Bytes) (r : ℕ) : Prop :=
  ∃ c ∈ configs, c.owner = owner ∧ c.isPrivate ∧ ∃ b v m, c.epoch = some b ∧ 1 ≤ b ∧ c.opening = .opened (some v) ∧
    SealOffMarker.parse v b = some m ∧ m.replacesEpoch = some r ∧ r < b

variable {k : Candidate} {recorded : Option ℕ}

theorem SealOffConfig.candidate_eq_some {c : SealOffConfig} : c.candidate = some k ↔
    ∃ v, c.opening = .opened (some v) ∧ c.epoch = some k.epoch ∧ k = ⟨c, k.epoch, SealOffMarker.parse v k.epoch⟩ := by
  unfold SealOffConfig.candidate
  constructor
  · intro h
    split at h
    · rename_i value epoch ho he
      obtain rfl := some.inj h
      exact ⟨value, ho, he, rfl⟩
    · cases h
  · rintro ⟨v, ho, he, hk⟩
    rw [ho, he]
    exact congrArg some hk.symm

theorem mem_candidates : k ∈ candidates configs owner ↔
    ∃ c ∈ configs, c.owner = owner ∧ c.isPrivate ∧ c.epoch = some k.epoch ∧ 1 ≤ k.epoch ∧
      ∃ v, c.opening = .opened (some v) ∧ k = ⟨c, k.epoch, SealOffMarker.parse v k.epoch⟩ := by
  simp only [candidates, mem_filterMap, mem_filter, SealOffConfig.candidate_eq_some,
    SealOffConfig.counts, decide_eq_true_eq]
  constructor
  · rintro ⟨c, ⟨hc, ho, hp, hone⟩, v, hv, he, hk⟩
    refine ⟨c, hc, ho, hp, he, ?_, v, hv, hk⟩
    simpa [he] using hone
  · rintro ⟨c, hc, ho, hp, he, hone, v, hv, hk⟩
    exact ⟨c, ⟨hc, ho, hp, by simpa [he] using hone⟩, v, hv, he, hk⟩

variable {b height highest c : ℕ} {cs : List Candidate} {marker : Option SealOffMarker}
  {through a current stated : Option ℕ} {flipped : Bool}

theorem isBoundary_iff : IsBoundary configs owner b ↔ ∃ k ∈ candidates configs owner, k.epoch = b := by
  simp only [IsBoundary, mem_candidates]
  constructor
  · rintro ⟨c, hc, ho, hp, he, hone, v, hv⟩
    exact ⟨⟨c, b, SealOffMarker.parse v b⟩, ⟨c, hc, ho, hp, he, hone, v, hv, rfl⟩, rfl⟩
  · rintro ⟨k, ⟨c, hc, ho, hp, he, hone, v, hv, -⟩, rfl⟩
    exact ⟨c, hc, ho, hp, he, hone, v, hv⟩

theorem isReplaced_iff {r : ℕ} : IsReplaced configs owner r ↔ ∃ k ∈ candidates configs owner, k.replaces = some r := by
  simp only [IsReplaced, mem_candidates, Candidate.replaces, filter_eq_some_iff, bind_eq_some_iff,
    decide_eq_true_eq]
  constructor
  · rintro ⟨c, hc, ho, hp, b, v, m, he, hone, hv, hm, hr, hlt⟩
    exact ⟨⟨c, b, SealOffMarker.parse v b⟩, ⟨c, hc, ho, hp, he, hone, v, hv, rfl⟩, ⟨m, hm, hr⟩, hlt⟩
  · rintro ⟨k, ⟨c, hc, ho, hp, he, hone, v, hv, hk⟩, ⟨m, hm, hr⟩, hlt⟩
    rw [hk] at hm
    exact ⟨c, hc, ho, hp, k.epoch, v, m, he, hone, hv, hm, hr, hlt⟩

theorem all_replacesThrough :
    ((replacesThrough cs).all fun r => r < b) ↔ ∀ k ∈ cs, ∀ r, k.replaces = some r → r < b := by
  have hmem : ∀ r, r ∈ cs.filterMap Candidate.replaces ↔ ∃ k ∈ cs, k.replaces = some r := fun r => mem_filterMap
  cases hmax : replacesThrough cs with
  | none =>
    have hnil := max?_eq_none_iff.mp hmax
    simp only [all_none, true_iff]
    intro k hk r hr
    have hin := (hmem r).mpr ⟨k, hk, hr⟩
    simp [hnil] at hin
  | some t =>
    obtain ⟨ht, hle⟩ := max?_eq_some_iff.mp hmax
    simp only [all_some, decide_eq_true_eq]
    constructor
    · intro hlt k hk r hr
      exact (hle r ((hmem r).mpr ⟨k, hk, hr⟩)).trans_lt hlt
    · intro h
      obtain ⟨k, hk, hr⟩ := (hmem t).mp ht
      exact h k hk t hr

theorem mem_inForce : k ∈ inForce (candidates configs owner) ↔
    k ∈ candidates configs owner ∧ ∀ r, IsReplaced configs owner r → r < k.epoch := by
  rw [inForce, mem_filter, all_replacesThrough]
  simp only [isReplaced_iff]
  constructor
  · rintro ⟨hk, h⟩
    exact ⟨hk, fun r ⟨k', hk', hr⟩ => h k' hk' r hr⟩
  · rintro ⟨hk, h⟩
    exact ⟨hk, fun k' hk' r hr => h r ⟨k', hk', hr⟩⟩

/-- What it means that a boundary is active. -/
theorem activeSealOff_eq_active {epoch : ℕ}
    (h : activeSealOff configs owner = .active epoch height marker highest through) :
    through = replacesThrough (candidates configs owner) ∧ (∃ k ∈ inForce (candidates configs owner), k.epoch = epoch) ∧
    (∀ k ∈ inForce (candidates configs owner), epoch ≤ k.epoch ∧ k.epoch ≤ highest) := by
  unfold activeSealOff at h
  split at h
  · cases h
  · dsimp only at h
    split at h
    · cases h
    · rename_i k hk
      obtain ⟨rfl, rfl, rfl, rfl, rfl⟩ := ActiveSealOff.active.inj h
      have hleast := head?_sortByKey_eq_some_iff.mp hk
      refine ⟨rfl, ⟨k, hleast.mem, rfl⟩, fun k' hk' => ⟨Prod.Lex.monotone_fst _ _ (hleast.le hk'), ?_⟩⟩
      obtain ⟨t, ht⟩ := isSome_iff_exists.mp
        (isSome_max?_of_mem (mem_map_of_mem (f := Candidate.epoch) hk'))
      rw [ht, getD_some]
      exact (max?_eq_some_iff.mp ht).2 _ (mem_map_of_mem hk')

theorem inForce_ne_nil (h : cs ≠ []) : inForce cs ≠ [] := by
  cases hmax : replacesThrough cs with
  | none => simpa [inForce, hmax] using h
  | some t =>
    obtain ⟨ht, -⟩ := max?_eq_some_iff.mp hmax
    obtain ⟨k, hk, hr⟩ := mem_filterMap.mp ht
    have hlt : t < k.epoch := by simpa using (filter_eq_some_iff.mp hr).2
    exact ne_nil_of_mem (mem_filter.mpr ⟨hk, by simpa [hmax] using hlt⟩)

theorem activeSealOff_eq_none (h : activeSealOff configs owner = .none) : candidates configs owner = [] := by
  unfold activeSealOff at h
  split at h
  · cases h
  · dsimp only at h
    split at h
    · rename_i hhead
      by_contra hne
      have hsort : sortByKey Candidate.key (inForce (candidates configs owner)) = [] := head?_eq_none_iff.mp hhead
      have hperm := perm_sortByKey Candidate.key (inForce (candidates configs owner))
      rw [hsort, nil_perm] at hperm
      exact inForce_ne_nil hne hperm
    · cases h

/-! ### The order of the configs -/

theorem activeSealOff_eq_of_perm {configs' : List SealOffConfig} (hids : (configs.map SealOffConfig.id).Nodup)
    (h : configs.Perm configs') : activeSealOff configs' owner = activeSealOff configs owner := by
  have hcs : (candidates configs owner).Perm (candidates configs' owner) := (h.filter _).filterMap _
  have hthrough : replacesThrough (candidates configs owner) = replacesThrough (candidates configs' owner) :=
    max?_eq_of_perm (hcs.filterMap _)
  have hforce : (inForce (candidates configs owner)).Perm (inForce (candidates configs' owner)) := by
    rw [inForce, inForce, hthrough]
    exact hcs.filter _
  have hinj : Set.InjOn Candidate.key {k | k ∈ inForce (candidates configs owner)} := by
    intro k hk k' hk' hkey
    obtain ⟨c, hc, -, -, -, -, v, hv, hkc⟩ := mem_candidates.mp (mem_of_mem_filter hk)
    obtain ⟨c', hc', -, -, -, -, v', hv', hkc'⟩ := mem_candidates.mp (mem_of_mem_filter hk')
    have hepoch : k.epoch = k'.epoch := congrArg (fun x => (ofLex x).1) hkey
    have hid : k.config.id = k'.config.id := congrArg (fun x => (ofLex (ofLex x).2).2) hkey
    rw [hkc, hkc'] at hid
    obtain rfl : c = c' := inj_on_of_nodup_map hids hc hc' hid
    obtain rfl : v = v' := by simpa using hv.symm.trans hv'
    rw [hkc, hkc', hepoch]
  have hany : (configs'.filter (SealOffConfig.counts owner)).any (fun c => c.opening = .unreadable) =
      (configs.filter (SealOffConfig.counts owner)).any fun c => c.opening = .unreadable :=
    ((h.filter _).any_eq).symm
  unfold activeSealOff
  dsimp only
  rw [hany, sortByKey_eq_of_perm Candidate.key hforce hinj, max?_eq_of_perm (hforce.map Candidate.epoch), hthrough]

/-- A config that says nothing about the boundary: of another owner, public, without a marker, or under
another key. -/
def SealOffConfig.IsNeutral (owner : Bytes) (c : SealOffConfig) : Prop :=
  c.owner ≠ owner ∨ c.isPrivate = false ∨ c.opening = .opened none ∨ c.opening = .otherKey

theorem activeSealOff_append {extra : List SealOffConfig} (h : ∀ c ∈ extra, c.IsNeutral owner) :
    activeSealOff (configs ++ extra) owner = activeSealOff configs owner := by
  have hcounted : ∀ c ∈ extra.filter (SealOffConfig.counts owner), c.opening = .opened none ∨
      c.opening = .otherKey := by
    intro c hc
    obtain ⟨hmem, hcounts⟩ := mem_filter.mp hc
    simp only [SealOffConfig.counts, decide_eq_true_eq] at hcounts
    rcases h c hmem with ho | hp | hopen
    · exact absurd hcounts.1 ho
    · simp [hp] at hcounts
    · exact hopen
  have hcs : candidates (configs ++ extra) owner = candidates configs owner := by
    have hnil : (extra.filter (SealOffConfig.counts owner)).filterMap SealOffConfig.candidate = [] := by
      rw [filterMap_eq_nil_iff]
      intro c hc
      rcases hcounted c hc with ho | ho <;> simp [SealOffConfig.candidate, ho]
    rw [candidates, filter_append, filterMap_append, hnil, append_nil, candidates]
  have hany : (extra.filter (SealOffConfig.counts owner)).any (fun c => c.opening = .unreadable) = false := by
    rw [List.any_eq_false]
    intro c hc
    rcases hcounted c hc with ho | ho <;> simp [ho]
  unfold activeSealOff
  rw [hcs, filter_append, any_append, hany, Bool.or_false]

/-! ### Decisions -/

theorem historyCutoff_le {b : Option ℕ} (h : historyCutoff a b = some c) :
    (∀ x, a = some x → c ≤ x) ∧ ∀ y, b = some y → c ≤ y := by
  cases a <;> cases b <;> simp_all [historyCutoff]
  omega

theorem historyCutoff_eq_none {b : Option ℕ} : historyCutoff a b = none ↔ a = none ∧ b = none := by
  cases a <;> cases b <;> simp [historyCutoff]

theorem boundary_spec (configs : List SealOffConfig) (owner : Bytes) (recorded : Option ℕ) :
    ∃ kept, (activeSealOff configs owner).boundary recorded = historyCutoff kept (activeSealOff configs owner).epoch ∧
      (kept = none → recorded = none ∨ (activeSealOff configs owner).epoch.isSome) ∧
      ∀ r, recorded = some r → (∀ t, IsReplaced configs owner t → t < r) → kept = some r := by
  cases hactive : activeSealOff configs owner with
  | none => exact ⟨recorded, rfl, .inl, fun r hr _ => hr⟩
  | unknown => exact ⟨recorded, rfl, .inl, fun r hr _ => hr⟩
  | active epoch height marker highest through =>
    obtain ⟨hthrough, -, -⟩ := activeSealOff_eq_active hactive
    cases through with
    | none => exact ⟨recorded, rfl, .inl, fun r hr _ => hr⟩
    | some t =>
      refine ⟨recorded.filter fun e => t < e, rfl, fun _ => .inr rfl, fun r hr hfree => ?_⟩
      obtain ⟨ht, -⟩ := max?_eq_some_iff.mp hthrough.symm
      have hlt := hfree t (isReplaced_iff.mpr (mem_filterMap.mp ht))
      simp [hr, hlt]

/-- A cutoff that is published lies below every boundary in force. -/
theorem sealOffDecision_public
    (h : sealOffDecision recorded (activeSealOff configs owner) current flipped stated = .public_ (some c)) :
    (∀ s, stated = some s → c ≤ s) ∧ (∀ e, (activeSealOff configs owner).epoch = some e → c ≤ e) ∧
      ∀ r, recorded = some r → (∀ t, IsReplaced configs owner t → t < r) → c ≤ r := by
  obtain ⟨kept, hboundary, -, hkept⟩ := boundary_spec configs owner recorded
  unfold sealOffDecision at h
  split at h
  · cases h
  · split at h
    · obtain ⟨hstated, hle⟩ := historyCutoff_le (SealOffDecision.public_.inj h)
      cases hb : historyCutoff kept (activeSealOff configs owner).epoch with
      | none =>
        obtain ⟨rfl, hnone⟩ := historyCutoff_eq_none.mp hb
        refine ⟨hstated, fun e he => by simp [hnone] at he, fun r hr hfree => ?_⟩
        exact absurd (hkept r hr hfree) (by simp)
      | some b =>
        have hcb : c ≤ b := hle b (hboundary.trans hb)
        obtain ⟨hk, he⟩ := historyCutoff_le hb
        exact ⟨hstated, fun e heq => hcb.trans (he e heq), fun r hr hfree => hcb.trans (hk r (hkept r hr hfree))⟩
    · split at h
      · cases h
      · split_ifs at h

/-- A new boundary is made only when none is in force or recorded. -/
theorem sealOffDecision_new (h : sealOffDecision recorded (activeSealOff configs owner) current flipped stated = .new) :
    recorded = none ∧ activeSealOff configs owner = .none := by
  obtain ⟨kept, hboundary, hnone, -⟩ := boundary_spec configs owner recorded
  unfold sealOffDecision at h
  split at h
  · cases h
  · rename_i hknown
    split at h
    · cases h
    · split at h
      · rename_i hb
        obtain ⟨rfl, hepoch⟩ := historyCutoff_eq_none.mp (hboundary.symm.trans hb)
        refine ⟨(hnone rfl).resolve_right (by simp [hepoch]), ?_⟩
        cases hactive : activeSealOff configs owner with
        | none => rfl
        | unknown => exact absurd hactive hknown
        | active epoch height marker highest through => simp [hactive, ActiveSealOff.epoch] at hepoch
      · split_ifs at h

/-! ### Starting over -/

/-- A config in which the owner starts over at an epoch: a marker that sets everything through an earlier
epoch aside. -/
structure StartsOver (new : SealOffConfig) (owner : Bytes) (e r : ℕ) (m : SealOffMarker) : Prop where
  owner_eq : new.owner = owner
  isPrivate : new.isPrivate
  epoch_eq : new.epoch = some e
  boundary_eq : m.boundaryEpoch = e
  replaces_eq : m.replacesEpoch = some r
  lt : r < e
  opening_eq : new.opening = .opened (some m.encode)

variable {new : SealOffConfig} {e r : ℕ} {m : SealOffMarker}

variable (h : StartsOver new owner e r m)

include h in
theorem StartsOver.parse_eq : SealOffMarker.parse m.encode e = some m := by
  have hne : m.boundaryEpoch ≠ 0 := by
    rw [h.boundary_eq]
    exact (Nat.zero_le r).trans_lt h.lt |>.ne'
  rw [← h.boundary_eq]
  exact SealOffMarker.parse_encode m hne

include h in
theorem StartsOver.candidates_cons :
    candidates (new :: configs) owner = ⟨new, e, some m⟩ :: candidates configs owner := by
  have hcounts : new.counts owner := by
    have hpos : 1 ≤ e := (Nat.zero_le r).trans_lt h.lt
    simp [SealOffConfig.counts, h.owner_eq, h.isPrivate, h.epoch_eq, hpos]
  have hcandidate : new.candidate = some ⟨new, e, some m⟩ :=
    SealOffConfig.candidate_eq_some.mpr ⟨m.encode, h.opening_eq, h.epoch_eq, by rw [h.parse_eq]⟩
  rw [candidates, filter_cons_of_pos hcounts, filterMap_cons_some hcandidate, candidates]

include h in
/-- Everything the owner set aside or had in force lies at or below what the start-over sets aside. -/
theorem inForce_startsOver (hlast : ∀ b, IsBoundary configs owner b → b < e)
    (hhigh : ∀ k ∈ inForce (candidates configs owner), k.epoch ≤ r) :
    ∃ t, replacesThrough (candidates (new :: configs) owner) = some t ∧ r ≤ t ∧
      inForce (candidates (new :: configs) owner) = [⟨new, e, some m⟩] := by
  have hreplaces : Candidate.replaces ⟨new, e, some m⟩ = some r := by
    simp [Candidate.replaces, h.replaces_eq, h.lt]
  have hcs : candidates (new :: configs) owner = _ := h.candidates_cons
  obtain ⟨t, ht⟩ := isSome_iff_exists.mp (isSome_max?_of_mem
    (mem_filterMap.mpr ⟨_, hcs ▸ mem_cons_self, hreplaces⟩ :
      r ∈ (candidates (new :: configs) owner).filterMap Candidate.replaces))
  obtain ⟨hmem, hmax⟩ := max?_eq_some_iff.mp ht
  have hle : ∀ k ∈ candidates (new :: configs) owner, ∀ x, k.replaces = some x → x ≤ t := fun k hk x hx =>
    hmax x (mem_filterMap.mpr ⟨k, hk, hx⟩)
  have hrt : r ≤ t := hle _ (hcs ▸ mem_cons_self) r hreplaces
  refine ⟨t, ht, hrt, ?_⟩
  -- the start-over is above all that is set aside, its own included
  have hte : t < e := by
    obtain ⟨k, hk, hkt⟩ := mem_filterMap.mp hmem
    have htk : t < k.epoch := by simpa using (filter_eq_some_iff.mp hkt).2
    rw [hcs] at hk
    rcases mem_cons.mp hk with rfl | hk
    · exact htk
    · exact htk.trans (hlast k.epoch (isBoundary_iff.mpr ⟨k, hk, rfl⟩))
  have hrest : (candidates configs owner).filter (fun c => t < c.epoch) = [] := by
    rw [filter_eq_nil_iff]
    intro k hk
    rw [decide_eq_true_eq, not_lt]
    by_cases hforce : k ∈ inForce (candidates configs owner)
    · exact (hhigh k hforce).trans hrt
    · rw [inForce, mem_filter, all_replacesThrough] at hforce
      push Not at hforce
      obtain ⟨k', hk', x, hx, hkx⟩ := hforce hk
      exact hkx.trans (hle k' (hcs ▸ mem_cons_of_mem _ hk') x hx)
  have hall : inForce (candidates (new :: configs) owner) =
      (candidates (new :: configs) owner).filter fun c => t < c.epoch := by
    rw [inForce]
    have hthrough : replacesThrough (candidates (new :: configs) owner) = some t := ht
    rw [hthrough]
    rfl
  rw [hall, hcs, filter_cons_of_pos (by simpa using hte), hrest]

theorem le_replacementEpoch {a : ActiveSealOff} (h : a.replacementEpoch recorded = some r) {epoch : ℕ}
    (ha : a = .active epoch height marker highest through) : highest ≤ r := by
  subst ha
  cases recorded with
  | none => exact (some.inj h).le
  | some x =>
    obtain rfl : max x highest = r := some.inj h
    exact le_max_right _ _

include h in
/-- A start-over is the boundary in force, and every device whose record it covers adopts it. -/
theorem startsOver_adopted (hknown : activeSealOff configs owner ≠ .unknown)
    (hr : (activeSealOff configs owner).replacementEpoch recorded = some r)
    (hlast : ∀ b, IsBoundary configs owner b → b < e) :
    (activeSealOff (new :: configs) owner).epoch = some e ∧ ∀ recorded', (∀ x, recorded' = some x → x ≤ r) →
      ∀ stated, sealOffDecision recorded' (activeSealOff (new :: configs) owner) (some e) false stated = .adopt e := by
  have hhigh : ∀ k ∈ inForce (candidates configs owner), k.epoch ≤ r := by
    intro k hk
    cases hactive : activeSealOff configs owner with
    | none => simp [activeSealOff_eq_none hactive, inForce] at hk
    | unknown => exact absurd hactive hknown
    | active epoch height marker highest through =>
      exact ((activeSealOff_eq_active hactive).2.2 k hk).2.trans (le_replacementEpoch hr hactive)
  obtain ⟨t, ht, hrt, hforce⟩ := inForce_startsOver h hlast hhigh
  have hreadable : ((new :: configs).filter (SealOffConfig.counts owner)).any (fun c => c.opening = .unreadable) =
      false := by
    have hold : (configs.filter (SealOffConfig.counts owner)).any (fun c => c.opening = .unreadable) = false := by
      by_contra hany
      exact hknown (if_pos (by simpa using hany))
    rw [filter_cons]
    split <;> simp [h.opening_eq, hold]
  have hactive : activeSealOff (new :: configs) owner = .active e new.height (some m) e (some t) := by
    unfold activeSealOff
    rw [hreadable]
    dsimp only
    rw [hforce, ht]
    rfl
  refine ⟨by rw [hactive]; rfl, fun recorded' hrec stated => ?_⟩
  have hdrop : recorded'.filter (fun x => t < x) = none := by
    cases recorded' with
    | none => rfl
    | some x =>
      have hx := (hrec x rfl).trans hrt
      simp [hx]
  rw [hactive]
  simp [sealOffDecision, ActiveSealOff.boundary, hdrop, historyCutoff, ActiveSealOff.epoch]

end Rule

/-- **The boundary is sticky, and starting over converges.** The boundary in force does not depend on the
order of the configs or on those without an owner marker, and is the lowest the owner marked above all that
was set aside. Nothing is published above the stated epoch, that boundary or a record the owner did not
replace, and no new run starts while there is one. A start-over that covers what its device knows is then
the boundary in force, and every device whose record it covers adopts it. -/
theorem sealOff_sticky (configs : List SealOffConfig) (owner : Bytes) (hids : (configs.map SealOffConfig.id).Nodup) :
    (∀ configs', configs'.Perm configs → activeSealOff configs' owner = activeSealOff configs owner) ∧
    (∀ extra, (∀ c ∈ extra, SealOffConfig.IsNeutral owner c) → ∀ configs', configs'.Perm (configs ++ extra) →
      (configs'.map SealOffConfig.id).Nodup → activeSealOff configs' owner = activeSealOff configs owner) ∧
    (∀ e, (activeSealOff configs owner).epoch = some e →
      IsLeast {b | IsBoundary configs owner b ∧ ∀ r, IsReplaced configs owner r → r < b} e) ∧
    (∀ recorded current stated flipped c,
      sealOffDecision recorded (activeSealOff configs owner) current flipped stated = .public_ (some c) →
      (∀ s, stated = some s → c ≤ s) ∧ (∀ e, (activeSealOff configs owner).epoch = some e → c ≤ e) ∧
        ∀ r, recorded = some r → (∀ t, IsReplaced configs owner t → t < r) → c ≤ r) ∧
    (∀ recorded current stated flipped, recorded.isSome ∨ (activeSealOff configs owner).epoch.isSome →
      sealOffDecision recorded (activeSealOff configs owner) current flipped stated ≠ .new) ∧
    (∀ new e r m recorded, activeSealOff configs owner ≠ .unknown → StartsOver new owner e r m →
      (activeSealOff configs owner).replacementEpoch recorded = some r → (∀ b, IsBoundary configs owner b → b < e) →
      (activeSealOff (new :: configs) owner).epoch = some e ∧ ∀ recorded', (∀ x, recorded' = some x → x ≤ r) →
        ∀ stated, sealOffDecision recorded' (activeSealOff (new :: configs) owner) (some e) false stated = .adopt e) ∧
    ∀ m : SealOffMarker, m.boundaryEpoch ≠ 0 → SealOffMarker.parse m.encode m.boundaryEpoch = some m := by
  refine ⟨fun configs' hperm => activeSealOff_eq_of_perm hids hperm.symm, fun extra hextra configs' hperm hids' => ?_,
    fun e he => ?_, fun recorded current stated flipped c h => sealOffDecision_public h,
    fun recorded current stated flipped hin hnew => ?_,
    fun new e r m recorded hknown h hr hlast => startsOver_adopted h hknown hr hlast, SealOffMarker.parse_encode⟩
  · exact (activeSealOff_eq_of_perm hids' hperm).symm.trans (activeSealOff_append hextra)
  · cases hactive : activeSealOff configs owner with
    | none => simp [hactive, ActiveSealOff.epoch] at he
    | unknown => simp [hactive, ActiveSealOff.epoch] at he
    | active epoch height marker highest through =>
      obtain rfl : epoch = e := by simpa [hactive, ActiveSealOff.epoch] using he
      obtain ⟨-, ⟨k, hk, hke⟩, hleast⟩ := activeSealOff_eq_active hactive
      obtain ⟨hcand, hfree⟩ := mem_inForce.mp hk
      refine ⟨⟨isBoundary_iff.mpr ⟨k, hcand, hke⟩, hke ▸ hfree⟩, fun b ⟨hb, hbfree⟩ => ?_⟩
      obtain ⟨k', hk', rfl⟩ := isBoundary_iff.mp hb
      exact (hleast k' (mem_inForce.mpr ⟨hk', hbfree⟩)).1
  · obtain ⟨rfl, hnone⟩ := sealOffDecision_new hnew
    simp [hnone, ActiveSealOff.epoch] at hin

/-- An owner's config with a marker. -/
def markedConfig (id : UInt8) (m : SealOffMarker) : SealOffConfig :=
  ⟨[id], [7], some m.boundaryEpoch, true, m.boundaryEpoch, .opened (some m.encode)⟩

/-- A marker at an epoch. -/
def markerAt (boundary : Fin 256) (replaces : Option (Fin 256)) : SealOffMarker :=
  { mode := .codeOnly
    conversionId := replicate 16 0
    boundaryEpoch := boundary
    startedAtMs := 1
    replacesEpoch := replaces.map Fin.val
    length_conversionId := length_replicate
    boundaryEpoch_lt := boundary.isLt.trans (by decide)
    startedAtMs_lt := by decide
    replacesEpoch_lt := by
      intro e he
      obtain ⟨r, -, rfl⟩ := Option.map_eq_some_iff.mp he
      exact r.isLt.trans (by decide) }

theorem sealOff_sticky_startOver :
    (activeSealOff [markedConfig 3 (markerAt 3 (some 2)), markedConfig 1 (markerAt 1 none),
      markedConfig 2 (markerAt 2 none)] [7]).epoch = some 3 := by
  have hrule := (sealOff_sticky [markedConfig 1 (markerAt 1 none), markedConfig 2 (markerAt 2 none)] [7]
    (by decide)).2.2.2.2.2.1
  refine (hrule (markedConfig 3 (markerAt 3 (some 2))) 3 2 (markerAt 3 (some 2)) none (by decide +kernel)
    ⟨rfl, rfl, rfl, rfl, rfl, by decide, rfl⟩ (by decide +kernel) ?_).1
  rintro b ⟨c, hc, -, -, hb, -⟩
  simp only [mem_cons, not_mem_nil, or_false] at hc
  rcases hc with rfl | rfl
  · obtain rfl : 1 = b := Option.some.inj hb
    decide
  · obtain rfl : 2 = b := Option.some.inj hb
    decide

/-- An owner's config that this device cannot open. -/
def unreadableConfig (id : UInt8) (epoch : ℕ) : SealOffConfig := ⟨[id], [7], some epoch, true, epoch, .unreadable⟩

/-- With a config of the owner that cannot be opened, a start-over above every epoch is written but is not in force,
and a device whose record it covers does not adopt it. -/
theorem not_startsOver_adopted_unreadable :
    StartsOver (markedConfig 2 (markerAt 2 (some 1))) [7] 2 1 (markerAt 2 (some 1)) ∧
    (activeSealOff [unreadableConfig 1 1] [7]).replacementEpoch (some 1) = some 1 ∧
    (∀ b, IsBoundary [unreadableConfig 1 1] [7] b → b < 2) ∧
    (activeSealOff [markedConfig 2 (markerAt 2 (some 1)), unreadableConfig 1 1] [7]).epoch = none ∧
    sealOffDecision (some 1) (activeSealOff [markedConfig 2 (markerAt 2 (some 1)), unreadableConfig 1 1] [7]) (some 2)
      false none = .unknown := by
  refine ⟨⟨rfl, rfl, rfl, rfl, rfl, by decide, rfl⟩, by decide +kernel, ?_, by decide +kernel, by decide +kernel⟩
  rintro b ⟨c, hc, -, -, hb, -⟩
  obtain rfl := mem_singleton.mp hc
  obtain rfl : 1 = b := some.inj hb
  decide

end DashForge
