import DashForge.Members.GuardSound

/-!
# What the guard refuses

A finding for a sealed update lists no commit that is public or that an audience it is within held, and
the order of the batch decides nothing (`guard_exact`), as long as the narrower audiences pushed for one
tip are within each other. Of two that are not, the guard keeps the first.
-/

namespace DashForge.Members

open List Option

variable {g : ObjectGraph} {reach contains : String → String → Prop} {input : GuardInput} {text : String}

/-! ### Audiences within each other -/

theorem within_refl (a : String) (audiences : NarrowAudiences) : within a a audiences := by
  simp [within]

variable {audiences : NarrowAudiences} {r : Option String × List Finding × List PublicCommit}

theorem within_trans {a b c : String} (hab : within a b audiences)
    (hbc : within b c audiences) : within a c audiences := by
  by_cases h : a = b
  · exact h ▸ hbc
  by_cases h' : b = c
  · exact h' ▸ hab
  unfold within at hab hbc ⊢
  rw [if_neg h] at hab
  rw [if_neg h'] at hbc
  split_ifs
  · rfl
  · cases ha : audienceOf audiences a with
    | none => simp [ha] at hab
    | some x =>
      cases hb : audienceOf audiences b with
      | none => simp [ha, hb] at hab
      | some y =>
        cases hc : audienceOf audiences c with
        | none => simp [hb, hc] at hbc
        | some z =>
          simp only [ha, hb, hc, decide_eq_true_eq] at hab hbc ⊢
          exact ⟨hab.1.trans hbc.1, hab.2.trans hbc.2⟩

theorem narrowestOf_perm {l l' : List EntryAudience} (hperm : l'.Perm l)
    (hnarrow : ∀ x y, .narrower x ∈ l → .narrower y ∈ l → within x y audiences) (dst : String) :
    (narrowestOf l').map (fun a => within dst (tokenOf a) audiences) =
      (narrowestOf l).map fun a => within dst (tokenOf a) audiences := by
  cases h : narrowestOf l with
  | none =>
    rw [narrowestOf_eq_none.mp h, perm_nil] at hperm
    rw [hperm]
    rfl
  | some a =>
    cases h' : narrowestOf l' with
    | none =>
      rw [narrowestOf_eq_none.mp h', nil_perm] at hperm
      simp [hperm, narrowestOf] at h
    | some a' =>
      obtain ⟨hmem, hall⟩ := narrowestOf_spec h
      obtain ⟨hmem', hall'⟩ := narrowestOf_spec h'
      simp only [map_some, some.injEq]
      cases a with
      | members => rw [hall rfl a' (hperm.mem_iff.mp hmem')]
      | narrower x =>
        cases a' with
        | members => exact absurd (hall' rfl _ (hperm.mem_iff.mpr hmem)) (by simp)
        | narrower y =>
          have hyx := hnarrow y x (hperm.mem_iff.mp hmem') hmem
          have hxy := hnarrow x y hmem (hperm.mem_iff.mp hmem')
          exact Bool.eq_iff_iff.mpr ⟨fun h => within_trans h hyx, fun h => within_trans h hxy⟩

theorem mem_recordsIn {batch : List BatchRef} {oid : String} {a : EntryAudience} :
    a ∈ recordsIn batch oid ↔ ∃ u ∈ batch, u.new = some oid ∧ u.audience.entry = some a := by
  simp [recordsIn]

theorem entry_eq_narrower {a : Audience} {x : String} : a.entry = some (.narrower x) ↔ a = .narrower x := by
  cases a <;> simp [Audience.entry]

/-! ### The findings for one update -/

/-- The findings for an update. -/
def findingsFor (g : ObjectGraph) (input : GuardInput) (u : BatchRef) : List Finding :=
  match examine g input u with
  | .ok r => r.2.1
  | .error _ => []

variable {u : BatchRef} {f : Finding}

/-- A finding for a sealed update lists what it may not add. -/
theorem refused_of_mem_findingsFor (hg : Consistent g reach contains) (hu : u.audience ≠ .public_)
    (hf : f ∈ findingsFor g input u) :
    ∃ t, u.new = some t ∧ ∀ c, c ∈ f.oids ↔ Refused input reach u.audience.asStr t c := by
  have hsealed : u.audience.isSealed = true := by simpa [Audience.isSealed] using hu
  unfold findingsFor at hf
  split at hf
  · rename_i r hr
    unfold examine at hr
    split at hr
    · obtain rfl := pure_eq_ok.mp hr
      exact absurd hf not_mem_nil
    · rename_i t ht
      rw [if_pos hsealed] at hr
      obtain ⟨found, hfound, hr⟩ := bind_eq_ok.mp hr
      obtain rfl := pure_eq_ok.mp hr
      obtain ⟨oids, hoids, -, rfl⟩ := sealedFindings_spec hg hfound
      obtain ⟨-, rfl⟩ := mem_finding.mp hf
      exact ⟨t, ht, hoids⟩
  · exact absurd hf not_mem_nil

theorem dst_of_mem_publicFindings {t : String} {found : List Finding} {commits : List PublicCommit}
    (h : publicFindings g input u t = .ok (found, commits)) (hf : f ∈ found) : f.dst = u.dst := by
  obtain ⟨peeled, -, h⟩ := bind_eq_ok.mp h
  obtain ⟨tags, htags, h⟩ := bind_eq_ok.mp h
  obtain ⟨⟨target, commits'⟩, htarget, h⟩ := bind_eq_ok.mp h
  obtain ⟨notes, hnotes, h⟩ := bind_eq_ok.mp h
  obtain ⟨replaced, hreplaced, h⟩ := bind_eq_ok.mp h
  obtain ⟨rfl, rfl⟩ := Prod.mk.inj (pure_eq_ok.mp h)
  simp only [mem_append] at hf
  rcases hf with ((hf | hf) | hf) | hf
  · obtain ⟨hits, -, htags⟩ := bind_eq_ok.mp htags
    rw [← pure_eq_ok.mp htags] at hf
    obtain ⟨tag, -, rfl⟩ := mem_map.mp hf
    rfl
  · unfold targetFindings at htarget
    split at htarget
    · split at htarget
      · obtain ⟨rfl, -⟩ := Prod.mk.inj (pure_eq_ok.mp htarget)
        exact absurd hf not_mem_nil
      · obtain ⟨adds, -, htarget⟩ := bind_eq_ok.mp htarget
        obtain ⟨publicOnly, -, htarget⟩ := bind_eq_ok.mp htarget
        obtain ⟨rfl, -⟩ := Prod.mk.inj (pure_eq_ok.mp htarget)
        rw [(mem_finding.mp hf).2]
    · obtain ⟨hit, -, htarget⟩ := bind_eq_ok.mp htarget
      obtain ⟨rfl, -⟩ := Prod.mk.inj (pure_eq_ok.mp htarget)
      cases hit <;> simp_all
  · unfold noteFindings at hnotes
    split at hnotes
    · obtain ⟨targets, -, hnotes⟩ := bind_eq_ok.mp hnotes
      obtain ⟨named, -, hnotes⟩ := bind_eq_ok.mp hnotes
      rw [← pure_eq_ok.mp hnotes] at hf
      rw [(mem_finding.mp hf).2]
    · rw [← pure_eq_ok.mp hnotes] at hf
      exact absurd hf not_mem_nil
  · unfold replaceFindings at hreplaced
    split at hreplaced
    · obtain ⟨hit, -, hreplaced⟩ := bind_eq_ok.mp hreplaced
      rw [← pure_eq_ok.mp hreplaced] at hf
      cases hit <;> simp_all
    · rw [← pure_eq_ok.mp hreplaced] at hf
      exact absurd hf not_mem_nil

theorem dst_of_mem_findingsFor (hg : Consistent g reach contains) (hf : f ∈ findingsFor g input u) : f.dst = u.dst := by
  unfold findingsFor at hf
  split at hf
  · rename_i r hr
    unfold examine at hr
    split at hr
    · obtain rfl := pure_eq_ok.mp hr
      exact absurd hf not_mem_nil
    · split at hr
      · obtain ⟨found, hfound, hr⟩ := bind_eq_ok.mp hr
        obtain rfl := pure_eq_ok.mp hr
        obtain ⟨oids, -, -, rfl⟩ := sealedFindings_spec hg hfound
        rw [(mem_finding.mp hf).2]
      · obtain ⟨⟨found, commits⟩, hfound, hr⟩ := bind_eq_ok.mp hr
        obtain rfl := pure_eq_ok.mp hr
        exact dst_of_mem_publicFindings hfound hf
  · exact absurd hf not_mem_nil

theorem examine_fst (h : examine g input u = .ok r) : r.1 = u.new ∧ (u.new = none → r.2.1 = []) := by
  unfold examine at h
  split at h
  · rename_i hnew
    obtain rfl := pure_eq_ok.mp h
    exact ⟨hnew.symm, fun _ => rfl⟩
  · rename_i t ht
    split at h
    · obtain ⟨found, -, h⟩ := bind_eq_ok.mp h
      obtain rfl := pure_eq_ok.mp h
      exact ⟨ht.symm, fun hnone => by simp [ht] at hnone⟩
    · obtain ⟨found, -, h⟩ := bind_eq_ok.mp h
      obtain rfl := pure_eq_ok.mp h
      exact ⟨ht.symm, fun hnone => by simp [ht] at hnone⟩

theorem isPublished_eq (h : examine g input u = .ok r) (hne : r.2.1 ≠ []) :
    isPublished input r = decide (input.publishPrivate = u.new) := by
  obtain ⟨hfst, hnone⟩ := examine_fst h
  have hsome : u.new.isSome := by
    rw [isSome_iff_ne_none]
    exact fun hnew => hne (hnone hnew)
  simp [isPublished, hne, hfst, hsome]

theorem mem_flatMap_rows {rows : List (Option String × List Finding × List PublicCommit)}
    (hrows : input.batch.mapM (examine g input) = .ok rows) (b : Bool) (f : Finding) :
    f ∈ (rows.filter fun r => isPublished input r == b).flatMap (fun r => r.2.1) ↔
      ∃ u ∈ input.batch, decide (input.publishPrivate = u.new) = b ∧ f ∈ findingsFor g input u := by
  simp only [mem_flatMap, mem_filter, beq_iff_eq]
  constructor
  · rintro ⟨r, ⟨hr, hpub⟩, hf⟩
    obtain ⟨u, hu, hex⟩ := exists_of_mem_mapM hrows hr
    rw [isPublished_eq hex (ne_nil_of_mem hf)] at hpub
    exact ⟨u, hu, hpub, by simpa [findingsFor, hex] using hf⟩
  · rintro ⟨u, hu, hpub, hf⟩
    have hmem : examine g input u ∈ rows.map .ok := map_eq_map_ok hrows ▸ mem_map_of_mem hu
    obtain ⟨r, hr, hex⟩ := mem_map.mp hmem
    have hf' : f ∈ r.2.1 := by simpa [findingsFor, ← hex] using hf
    exact ⟨r, ⟨hr, (isPublished_eq hex.symm (ne_nil_of_mem hf')).trans hpub⟩, hf'⟩

theorem exists_update_of_finding {out : Outcome} (h : guard g input = .ok out)
    (hf : f ∈ out.findings ++ out.published) : ∃ u ∈ input.batch, f ∈ findingsFor g input u := by
  rcases guard_eq_ok h with ⟨-, -, hfind, hpub⟩ | ⟨-, -, -, hfind, hpub⟩ | ⟨-, -, rows, hrows, hfind, hpub, -⟩
  · simp [hfind, hpub] at hf
  · simp [hfind, hpub] at hf
  · rcases mem_append.mp hf with hf | hf
    · rw [hfind] at hf
      obtain ⟨u, hu, -, hfor⟩ := (mem_flatMap_rows hrows false f).mp (by simpa using hf)
      exact ⟨u, hu, hfor⟩
    · rw [hpub] at hf
      obtain ⟨u, hu, -, hfor⟩ := (mem_flatMap_rows hrows true f).mp (by simpa using hf)
      exact ⟨u, hu, hfor⟩

/-! ### Another order of the batch -/

section Reorder

variable {batch' : List BatchRef}

/-- The input with its batch replaced. -/
def GuardInput.reorder (input : GuardInput) (batch' : List BatchRef) : GuardInput := { input with batch := batch' }

/-- What is kept for each oid with either batch is within the same audiences. -/
def SameKept (input : GuardInput) (batch' : List BatchRef) : Prop :=
  ∀ dst oid, ((sealedOids (input.reorder batch')).lookup oid).map (fun a => within dst (tokenOf a) input.audiences) =
    ((sealedOids input).lookup oid).map fun a => within dst (tokenOf a) input.audiences

theorem sameKept_of_perm (hledger : LedgerOf input text) (hperm : batch'.Perm input.batch)
    (hnarrow : ∀ u ∈ input.batch, ∀ u' ∈ input.batch, ∀ tip x y, u.new = some tip → u'.new = some tip →
      u.audience = .narrower x → u'.audience = .narrower y → recordsBefore input text tip = [] →
      within x y input.audiences) : SameKept input batch' := by
  intro dst oid
  rw [lookup_sealedOids, lookup_sealedOids]
  have hheld : heldBefore (input.reorder batch') = heldBefore input := rfl
  rw [hheld]
  cases h : (heldBefore input).lookup oid with
  | some a => rfl
  | none =>
    rw [lookup_heldBefore hledger, narrowestOf_eq_none] at h
    simp only [none_or]
    refine narrowestOf_perm (hperm.filterMap _) (fun x y hx hy => ?_) dst
    obtain ⟨u, hu, hnew, hx⟩ := mem_recordsIn.mp hx
    obtain ⟨u', hu', hnew', hy⟩ := mem_recordsIn.mp hy
    exact hnarrow u hu u' hu' oid x y hnew hnew' (entry_eq_narrower.mp hx) (entry_eq_narrower.mp hy) h

variable {dst oid t : String} {rows rows' : List (Option String × List Finding × List PublicCommit)}

variable (h : SameKept input batch')

include h in
theorem SameKept.exists_iff {b : Bool} :
    (∃ a, (sealedOids (input.reorder batch')).lookup oid = some a ∧ within dst (tokenOf a) input.audiences = b) ↔
      ∃ a, (sealedOids input).lookup oid = some a ∧ within dst (tokenOf a) input.audiences = b := by
  rw [← map_eq_some_iff, ← map_eq_some_iff, h dst oid]

include h in
theorem SameKept.mem_keys_iff :
    oid ∈ (sealedOids (input.reorder batch')).keys ↔ oid ∈ (sealedOids input).keys := by
  rw [mem_keys_sealedOids, mem_keys_sealedOids, ← isSome_iff_exists, ← isSome_iff_exists]
  have hmap := congrArg Option.isSome (h "" oid)
  rw [isSome_map, isSome_map] at hmap
  rw [hmap]

include h in
theorem SameKept.keys_eq :
    (sealedOids (input.reorder batch')).keys = (sealedOids input).keys := by
  have hsorted : ∀ s : SortedMap String EntryAudience, s.keys.Pairwise (· < ·) := fun s =>
    pairwise_map.mpr s.sorted
  exact (hsorted _).eq_of_mem_iff (hsorted _) fun oid => h.mem_keys_iff

include h in
theorem SameKept.refused_iff {c : String} :
    Refused (input.reorder batch') reach dst t c ↔ Refused input reach dst t c := by
  have hex : (∃ oid a, (sealedOids (input.reorder batch')).lookup oid = some a ∧
        within dst (tokenOf a) input.audiences = false ∧ reach oid c) ↔
      ∃ oid a, (sealedOids input).lookup oid = some a ∧ within dst (tokenOf a) input.audiences = false ∧
        reach oid c := by
    refine exists_congr fun oid => ?_
    simp only [← and_assoc, exists_and_right]
    rw [h.exists_iff]
  exact and_congr_right fun _ => and_congr_right fun _ => and_congr hex Iff.rfl

variable (h : SameKept input batch') (hg : Consistent g reach contains)

include h hg in
theorem SameKept.sealedFindings_eq {out out' : List Finding} (hout : sealedFindings g input u t = .ok out)
    (hout' : sealedFindings g (input.reorder batch') u t = .ok out') : out' = out := by
  obtain ⟨oids, hoids, hsorted, rfl⟩ := sealedFindings_spec hg hout
  obtain ⟨oids', hoids', hsorted', rfl⟩ := sealedFindings_spec hg hout'
  rw [hsorted'.eq_of_mem_iff hsorted fun c => by rw [hoids, hoids', h.refused_iff]]

include h in
theorem SameKept.isSealedObject_eq :
    isSealedObject g (input.reorder batch') = isSealedObject g input := by
  funext oid
  unfold isSealedObject
  rw [h.keys_eq]
  rfl

include h in
theorem SameKept.publicFindings_eq (u : BatchRef) (t : String) :
    publicFindings g (input.reorder batch') u t = publicFindings g input u t := by
  have htarget : targetFindings g (input.reorder batch') u = targetFindings g input u := by
    funext peeled
    unfold targetFindings commitFindings
    rw [h.keys_eq, h.isSealedObject_eq]
    rfl
  unfold publicFindings tagFindings noteFindings replaceFindings
  rw [htarget, h.isSealedObject_eq]

include h hg in
theorem SameKept.examine_eq {r r' : Option String × List Finding × List PublicCommit} (hr : examine g input u = .ok r)
    (hr' : examine g (input.reorder batch') u = .ok r') : r'.2.1 = r.2.1 := by
  unfold examine at hr hr'
  cases hnew : u.new with
  | none =>
    rw [hnew] at hr hr'
    rw [← pure_eq_ok.mp hr, ← pure_eq_ok.mp hr']
  | some t =>
    rw [hnew] at hr hr'
    dsimp only at hr hr'
    split at hr
    · rename_i hsealed
      rw [if_pos hsealed] at hr'
      obtain ⟨found, hfound, hr⟩ := bind_eq_ok.mp hr
      obtain ⟨found', hfound', hr'⟩ := bind_eq_ok.mp hr'
      rw [← pure_eq_ok.mp hr, ← pure_eq_ok.mp hr']
      exact h.sealedFindings_eq hg hfound hfound'
    · rename_i hsealed
      rw [if_neg hsealed, h.publicFindings_eq] at hr'
      rw [hr] at hr'
      rw [Except.ok.inj hr']

include h hg in
theorem SameKept.findingsFor_eq {batch : List BatchRef}
    (hu : u ∈ batch) (hu' : u ∈ batch') (hrows : batch.mapM (examine g input) = .ok rows)
    (hrows' : batch'.mapM (examine g (input.reorder batch')) = .ok rows') :
    findingsFor g (input.reorder batch') u = findingsFor g input u := by
  have hmem : examine g input u ∈ rows.map .ok := map_eq_map_ok hrows ▸ mem_map_of_mem hu
  have hmem' : examine g (input.reorder batch') u ∈ rows'.map .ok := map_eq_map_ok hrows' ▸ mem_map_of_mem hu'
  obtain ⟨r, -, hr⟩ := mem_map.mp hmem
  obtain ⟨r', -, hr'⟩ := mem_map.mp hmem'
  unfold findingsFor
  rw [← hr, ← hr']
  exact h.examine_eq hg hr.symm hr'.symm

include h hg in
theorem SameKept.mem_rows_iff (hperm : batch'.Perm input.batch) (hrows : input.batch.mapM (examine g input) = .ok rows)
    (hrows' : batch'.mapM (examine g (input.reorder batch')) = .ok rows') (b : Bool) (f : Finding) :
    f ∈ (rows'.filter fun r => isPublished (input.reorder batch') r == b).flatMap (fun r => r.2.1) ↔
      f ∈ (rows.filter fun r => isPublished input r == b).flatMap (fun r => r.2.1) := by
  rw [mem_flatMap_rows hrows b f]
  have hreorder : (input.reorder batch').batch.mapM (examine g (input.reorder batch')) = .ok rows' := hrows'
  refine (mem_flatMap_rows hreorder b f).trans (exists_congr fun u => ?_)
  constructor
  · rintro ⟨hu, hpub, hf⟩
    have hu' := hperm.mem_iff.mp hu
    exact ⟨hu', hpub, h.findingsFor_eq hg hu' hu hrows hrows' ▸ hf⟩
  · rintro ⟨hu, hpub, hf⟩
    have hu' := hperm.mem_iff.mpr hu
    exact ⟨hu', hpub, h.findingsFor_eq hg hu hu' hrows hrows' ▸ hf⟩

include h hg in
/-- With either batch, the same verdict and findings. -/
theorem SameKept.outcome_eq (hperm : batch'.Perm input.batch) {out out' : Outcome} (hout : guard g input = .ok out)
    (hout' : guard g (input.reorder batch') = .ok out') :
    out'.verdict = out.verdict ∧ (∀ f, f ∈ out'.findings ↔ f ∈ out.findings) ∧
      ∀ f, f ∈ out'.published ↔ f ∈ out.published := by
  have hun : isUnavailable (input.reorder batch') = isUnavailable input := rfl
  rcases guard_eq_ok hout with ⟨hno, hv, hfind, hpub⟩ | ⟨hyes, hempty, hv, hfind, hpub⟩ |
    ⟨hyes, hne, rows, hrows, hfind, hpub, hv⟩
  · rcases guard_eq_ok hout' with ⟨-, hv', hfind', hpub'⟩ | ⟨hyes, -⟩ | ⟨hyes, -⟩
    · simp [hv, hfind, hpub, hv', hfind', hpub']
    · exact absurd (hun ▸ hno) hyes
    · exact absurd (hun ▸ hno) hyes
  · rcases guard_eq_ok hout' with ⟨hno, -⟩ | ⟨-, -, hv', hfind', hpub'⟩ | ⟨-, hne, -⟩
    · exact absurd (hun ▸ hno) hyes
    · simp [hv, hfind, hpub, hv', hfind', hpub']
    · exact absurd (h.keys_eq.trans hempty) hne
  · rcases guard_eq_ok hout' with ⟨hno, -⟩ | ⟨-, hempty, -⟩ | ⟨-, -, rows', hrows', hfind', hpub', hv'⟩
    · exact absurd (hun ▸ hno) hyes
    · exact absurd (h.keys_eq.symm.trans hempty) hne
    · have hfindings : ∀ f, f ∈ out'.findings ↔ f ∈ out.findings := by
        intro f
        rw [hfind, hfind']
        simpa using h.mem_rows_iff hg hperm hrows hrows' false f
      have hnil : out'.findings = [] ↔ out.findings = [] := by
        simp only [eq_nil_iff_forall_not_mem, hfindings]
      refine ⟨by simp only [hv, hv', hnil], hfindings, fun f => ?_⟩
      rw [hpub, hpub']
      simpa using h.mem_rows_iff hg hperm hrows hrows' true f

end Reorder

/-- The guard refuses what its rule names. Every finding is for an update of the batch; one for a sealed
update lists nothing that is reachable from a public tip or from an oid whose kept audience, the narrowest
recorded before the batch, it is within; and another order of the batch gives the same verdict and
findings, when the narrower audiences it pushes for one new tip are within each other. -/
theorem guard_exact (g : ObjectGraph) (reach contains : String → String → Prop) (hg : Consistent g reach contains)
    (input : GuardInput) (text : String) (hledger : LedgerOf input text) (out : Outcome)
    (h : guard g input = .ok out) :
    (∀ f ∈ out.findings ++ out.published, ∃ u ∈ input.batch, f.dst = u.dst ∧ f ∈ findingsFor g input u) ∧
    (∀ u ∈ input.batch, u.audience ≠ .public_ → ∀ f ∈ findingsFor g input u, ∀ c,
      (∃ p ∈ input.publicTips, reach p c) ∨ (∃ oid a, narrowestOf (recordsBefore input text oid) = some a ∧
        within u.audience.asStr (tokenOf a) input.audiences ∧ reach oid c) → c ∉ f.oids) ∧
    ∀ batch', batch'.Perm input.batch →
      (∀ u ∈ input.batch, ∀ u' ∈ input.batch, ∀ tip x y, u.new = some tip → u'.new = some tip →
        u.audience = .narrower x → u'.audience = .narrower y → recordsBefore input text tip = [] →
        within x y input.audiences) →
      ∀ out', guard g { input with batch := batch' } = .ok out' →
        out'.verdict = out.verdict ∧ (∀ f, f ∈ out'.findings ↔ f ∈ out.findings) ∧
          ∀ f, f ∈ out'.published ↔ f ∈ out.published := by
  refine ⟨fun f hf => ?_, fun u _ hsealed f hf c hheld hc => ?_, fun batch' hperm hnarrow out' h' => ?_⟩
  · obtain ⟨u, hu, hfor⟩ := exists_update_of_finding h hf
    exact ⟨u, hu, dst_of_mem_findingsFor hg hfor, hfor⟩
  · obtain ⟨t, -, hoids⟩ := refused_of_mem_findingsFor hg hsealed hf
    obtain ⟨-, hpublic, -, hfree⟩ := (hoids c).mp hc
    rcases hheld with ⟨p, hp, hreach⟩ | ⟨oid, a, hkept, hin, hreach⟩
    · exact hpublic p hp hreach
    · exact hfree oid a ((lookup_heldBefore hledger oid).trans hkept) hin hreach
  · have hsame := sameKept_of_perm hledger hperm hnarrow
    exact hsame.outcome_eq hg hperm h h'

/-- A push of two narrower branches that start at one commit. -/
def orderSample : GuardInput :=
  { guardSample with
    batch := [⟨"refs/heads/a", some "w", .narrower "x"⟩, ⟨"refs/heads/b", some "w", .narrower "y"⟩]
    audiences := SortedMap.empty.insert "x" ⟨none, {"ann"}⟩ |>.insert "y" ⟨none, {"ann"}⟩ }

theorem guard_exact_sample : ∃ out, guard (.ofPairs guardSampleGraph)
    { orderSample with batch := orderSample.batch.reverse } = .ok out ∧ out.verdict = .pass := by
  have hperm := orderSample.batch.reverse_perm
  have hledger : LedgerOf orderSample header := by
    intro l hl
    obtain rfl : Ledger.empty = l := LedgerState.present.inj hl
    decide +kernel
  have hpass : guard (.ofPairs guardSampleGraph) orderSample = .ok ⟨.pass, [], [], [], [], []⟩ := by decide +kernel
  have hback : guard (.ofPairs guardSampleGraph) { orderSample with batch := orderSample.batch.reverse } =
      .ok ⟨.pass, [], [], [], [], []⟩ := by decide +kernel
  have hsame := (guard_exact _ _ _ (consistent_ofPairs guardSampleGraph) orderSample header hledger _ hpass).2.2
    _ hperm (by
      intro u hu u' hu' tip x y _ _ hx hy _
      simp only [orderSample, mem_cons, not_mem_nil, or_false] at hu hu'
      rcases hu with rfl | rfl <;> rcases hu' with rfl | rfl <;> cases hx <;> cases hy <;> decide +kernel) _ hback
  exact ⟨_, hback, hsame.1⟩

/-- A commit the members hold, and a narrower branch too. -/
def heldTwiceSample : GuardInput :=
  { guardSample with
    decryptable := some ["w"]
    decryptableNarrower := [("w", "x")]
    batch := [⟨"refs/heads/work", some "w", .members⟩] }

/-- The members' own commit is refused to them once it is recorded for a narrower branch: one audience is
kept for each oid, the narrowest. -/
theorem heldTwice_listed : ¬∀ (g : ObjectGraph) (reach contains : String → String → Prop),
    Consistent g reach contains → ∀ (input : GuardInput) (text : String), LedgerOf input text →
    ∀ out, guard g input = .ok out → ∀ u ∈ input.batch, u.audience ≠ .public_ → ∀ f ∈ findingsFor g input u,
    ∀ c oid, ∀ a ∈ recordsBefore input text oid, within u.audience.asStr (tokenOf a) input.audiences →
      reach oid c → c ∉ f.oids := by
  intro hall
  have hledger : LedgerOf heldTwiceSample header := by
    intro l hl
    obtain rfl : Ledger.empty = l := LedgerState.present.inj hl
    decide +kernel
  have hout : guard (.ofPairs guardSampleGraph) heldTwiceSample =
      .ok ⟨.refuse, [⟨"refs/heads/work", .commits, ["w"]⟩], [], [], [], []⟩ := by decide +kernel
  refine hall _ _ _ (consistent_ofPairs guardSampleGraph) heldTwiceSample header hledger _ hout
    ⟨"refs/heads/work", some "w", .members⟩ mem_cons_self (by decide) ⟨"refs/heads/work", .commits, ["w"]⟩ ?_
    "w" "w" .members ?_ (within_refl _ _) (by decide) mem_cons_self
  · decide +kernel
  · decide +kernel

end DashForge.Members
