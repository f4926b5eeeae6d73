import DashForge.Members.Guard

/-!
# What the guard lets through

The records of an oid are the audiences the ledger's lines, the decryptable tips and the batch give it;
the guard keeps one of them (`lookup_heldBefore`, `lookup_sealedOids`). A batch that passes publishes
nothing sealed and gives no sealed commit to an audience that did not hold it (`guard_sound`).
-/

namespace DashForge.Members

open List SortedMap

/-! ### The records of an oid -/

variable {input : GuardInput} {text : String}

/-- The text the ledger was read from, when there is one. -/
def LedgerOf (input : GuardInput) (text : String) : Prop := ∀ l, input.ledger = .present l → parse text = some l

/-- The audiences the ledger's lines record for an oid. -/
def ledgerRecords (input : GuardInput) (text oid : String) : List EntryAudience :=
  match input.ledger with
  | .present _ => recordedAudiences text oid
  | _ => []

/-- The audiences recorded for an oid before the batch, in order. -/
def recordsBefore (input : GuardInput) (text oid : String) : List EntryAudience :=
  ledgerRecords input text oid ++ ((input.decryptable.getD []).filter (· = oid)).map (fun _ => .members) ++
    (input.decryptableNarrower.filter fun e => e.1 = oid).map fun e => .narrower e.2

/-- The audiences the batch pushes a tip for, in order. -/
def recordsIn (batch : List BatchRef) (oid : String) : List EntryAudience :=
  batch.filterMap fun u => if u.new = some oid then u.audience.entry else none

theorem lookup_orInsert (s : SortedMap String EntryAudience) (oid oid' : String) (a : EntryAudience) :
    (orInsert s oid a).lookup oid' = if oid' = oid then some ((s.lookup oid).getD a) else s.lookup oid' := by
  unfold orInsert
  cases h : s.lookup oid with
  | none => simp [lookup_insert]
  | some b =>
    simp only [Option.isSome_some, if_true, Option.getD_some]
    split
    · rename_i heq
      rw [heq, h]
    · rfl

variable (l : List (String × EntryAudience)) (s : SortedMap String EntryAudience)

include l s in
theorem foldl_recordIn (oid : String) :
    (l.foldl (fun s e => recordIn s e.1 e.2) s).lookup oid =
      ((l.filter fun e => e.1 = oid).map Prod.snd).foldl (fun o a => some (record o a)) (s.lookup oid) := by
  induction l generalizing s with
  | nil => rfl
  | cons e l ih =>
    rw [foldl_cons, ih, lookup_recordIn]
    by_cases he : e.1 = oid
    · subst he
      simp
    · have he' : oid ≠ e.1 := fun h => he h.symm
      simp [he, he']

theorem foldl_orInsert_members (l : List String) (s : SortedMap String EntryAudience) (oid : String) :
    (l.foldl (fun s oid => orInsert s oid .members) s).lookup oid =
      ((l.filter (· = oid)).map fun _ => EntryAudience.members).foldl (fun o a => some (record o a))
        (s.lookup oid) := by
  induction l generalizing s with
  | nil => rfl
  | cons x l ih =>
    rw [foldl_cons, ih, lookup_orInsert]
    by_cases hx : x = oid
    · subst hx
      cases s.lookup x with
      | none => simp [record]
      | some a => cases a <;> simp [record, EntryAudience.narrowest]
    · have hx' : oid ≠ x := fun h => hx h.symm
      simp [hx, hx']

/-- Before the batch, an oid is kept with the narrowest of its records. -/
theorem lookup_heldBefore (h : LedgerOf input text) (oid : String) :
    (heldBefore input).lookup oid = narrowestOf (recordsBefore input text oid) := by
  have hledger : (match input.ledger with
      | .present l => l.commits
      | _ => empty).lookup oid = narrowestOf (ledgerRecords input text oid) := by
    unfold ledgerRecords
    split
    · rename_i l hl
      exact parse_spec (h l hl) oid
    · rfl
  have hnarrow := foldl_recordIn (input.decryptableNarrower.map fun e => (e.1, .narrower e.2))
    ((input.decryptable.getD []).foldl (fun s oid => orInsert s oid .members) (match input.ledger with
      | .present l => l.commits
      | _ => empty)) oid
  rw [foldl_map, foldl_orInsert_members, hledger] at hnarrow
  rw [recordsBefore, narrowestOf_append, narrowestOf_append]
  refine hnarrow.trans ?_
  rw [filter_map, map_map]
  rfl

theorem lookup_batchTips (batch : List BatchRef) (oid : String) :
    (batchTips batch).lookup oid = narrowestOf (recordsIn batch oid) := by
  induction batch using reverseRecOn with
  | nil => rfl
  | append_singleton batch u ih =>
    rw [batchTips, foldl_concat, ← batchTips, recordsIn, filterMap_append, ← recordsIn]
    cases hn : u.new with
    | none => simpa [hn] using ih
    | some t =>
      cases ha : u.audience.entry with
      | none => simpa [hn, ha] using ih
      | some a =>
        simp only [lookup_recordIn]
        by_cases ht : oid = t
        · subst ht
          simp [hn, ha, narrowestOf_concat, ih]
        · have ht' : t ≠ oid := fun h => ht h.symm
          simpa [hn, ha, ht, ht'] using ih

include l s in
theorem foldl_orInsert (hl : (l.map Prod.fst).Nodup) (oid : String) :
    (l.foldl (fun s e => orInsert s e.1 e.2) s).lookup oid =
      (s.lookup oid).or ((l.find? fun e => e.1 = oid).map Prod.snd) := by
  induction l generalizing s with
  | nil => simp
  | cons e l ih =>
    obtain ⟨hnot, hl⟩ := nodup_cons.mp hl
    rw [foldl_cons, ih _ hl, lookup_orInsert, find?_cons]
    by_cases he : e.1 = oid
    · subst he
      cases s.lookup e.1 <;> simp
    · have he' : oid ≠ e.1 := fun h => he h.symm
      simp [he, he']

/-- An oid is kept with what was recorded before the batch, else with what the batch pushes it for. -/
theorem lookup_sealedOids (oid : String) : (sealedOids input).lookup oid =
    ((heldBefore input).lookup oid).or (narrowestOf (recordsIn input.batch oid)) := by
  rw [← lookup_batchTips]
  exact foldl_orInsert _ _ (pairwise_map.mpr ((batchTips input.batch).sorted.imp fun h => h.ne)) oid

/-! ### The oids of an audience -/

theorem foldl_byAudience (l : List (String × EntryAudience)) (m : SortedMap String (List String)) (tok oid : String) :
    oid ∈ ((l.foldl (fun m e => m.insert (tokenOf e.2) ((m.lookup (tokenOf e.2)).getD [] ++ [e.1])) m).lookup
        tok).getD [] ↔ oid ∈ (m.lookup tok).getD [] ∨ ∃ e ∈ l, e.1 = oid ∧ tokenOf e.2 = tok := by
  induction l generalizing m with
  | nil => simp
  | cons e l ih =>
    rw [foldl_cons, ih, lookup_insert]
    simp only [exists_mem_cons_iff]
    by_cases ht : tok = tokenOf e.2
    · subst ht
      simp only [if_true, Option.getD_some, mem_append, mem_singleton, and_true, or_assoc]
      rw [eq_comm (a := oid)]
    · rw [if_neg ht]
      have ht' : tokenOf e.2 ≠ tok := fun h => ht h.symm
      simp [ht']

variable {oid : String} {u : BatchRef} {a : EntryAudience}

theorem mem_oidsWhere {s : SortedMap String EntryAudience} {p : String → Bool} :
    oid ∈ oidsWhere s p ↔ ∃ a, s.lookup oid = some a ∧ p (tokenOf a) := by
  have hgroup : ∀ tok, oid ∈ ((byAudience s).lookup tok).getD [] ↔ ∃ a, s.lookup oid = some a ∧ tokenOf a = tok := by
    intro tok
    rw [byAudience, foldl_byAudience, SortedMap.lookup_empty]
    simp only [Option.getD_none, not_mem_nil, false_or, SortedMap.lookup_eq_some_iff]
    constructor
    · rintro ⟨e, he, rfl, rfl⟩
      exact ⟨e.2, he, rfl⟩
    · rintro ⟨a, ha, rfl⟩
      exact ⟨(oid, a), ha, rfl, rfl⟩
  simp only [oidsWhere, mem_flatMap, mem_filter]
  constructor
  · rintro ⟨⟨tok, oids⟩, ⟨he, hp⟩, hoid⟩
    have hlook := SortedMap.lookup_eq_some_iff.mpr he
    obtain ⟨a, ha, rfl⟩ := (hgroup tok).mp (by rw [hlook]; exact hoid)
    exact ⟨a, ha, hp⟩
  · rintro ⟨a, ha, hp⟩
    have hoid := (hgroup (tokenOf a)).mpr ⟨a, ha, rfl⟩
    cases hlook : (byAudience s).lookup (tokenOf a) with
    | none => simp [hlook] at hoid
    | some oids =>
      rw [hlook] at hoid
      exact ⟨(tokenOf a, oids), ⟨SortedMap.lookup_eq_some_iff.mp hlook, hp⟩, hoid⟩

/-! ### The graph -/

/-- The commits are those of a reachability relation, and the objects those of a containment. -/
structure Consistent (g : ObjectGraph) (reach contains : String → String → Prop) : Prop where
  commits : ∀ tips bases cs, g.commits tips bases = .ok cs →
    ∀ c, c ∈ cs ↔ (∃ t ∈ tips, reach t c) ∧ ∀ b ∈ bases, ¬reach b c
  objects : ∀ tips bases os, g.objects tips bases = .ok os →
    ∀ x, x ∈ os ↔ (∃ t ∈ tips, contains t x) ∧ ∀ b ∈ bases, ¬contains b x

variable {g : ObjectGraph} {reach contains : String → String → Prop}

variable {dst t : String} {kind : FindingKind} {oids : List String} {commits : List PublicCommit} {out : Outcome}

theorem finding_eq_nil : finding dst kind oids = [] ↔ oids = [] := by
  unfold finding
  split <;> simp [*]

theorem mem_finding {f : Finding} : f ∈ finding dst kind oids ↔ oids ≠ [] ∧ f = ⟨dst, kind, oids⟩ := by
  unfold finding
  split <;> simp [*]

variable (hg : Consistent g reach contains)

include hg in
theorem mem_minusHeld {covered : List String} {cs out : Finset String}
    (h : minusHeld g input covered cs = .ok out) (c : String) :
    c ∈ out ↔ c ∈ cs ∧ ¬((∃ t ∈ covered, reach t c) ∧ ∀ b ∈ input.publicTips, ¬reach b c) := by
  unfold minusHeld at h
  split at h
  · rename_i hnil
    rw [← pure_eq_ok.mp h, hnil]
    simp
  · obtain ⟨held, hheld, h⟩ := bind_eq_ok.mp h
    rw [← pure_eq_ok.mp h, Finset.mem_sdiff, hg.commits _ _ _ hheld]

/-- What a sealed update of audience `dst` may not add: commits it adds that an oid not kept for an
audience it is within reaches, and none kept before the batch for one. -/
def Refused (input : GuardInput) (reach : String → String → Prop) (dst t c : String) : Prop :=
  reach t c ∧ (∀ b ∈ input.publicTips, ¬reach b c) ∧
    (∃ oid a, (sealedOids input).lookup oid = some a ∧ within dst (tokenOf a) input.audiences = false ∧ reach oid c) ∧
    ∀ oid a, (heldBefore input).lookup oid = some a → within dst (tokenOf a) input.audiences → ¬reach oid c

include hg in
/-- The findings of a sealed update: one that lists what it may not add, or none. -/
theorem sealedFindings_spec {out : List Finding}
    (h : sealedFindings g input u t = .ok out) : ∃ oids : List String,
      (∀ c, c ∈ oids ↔ Refused input reach u.audience.asStr t c) ∧ oids.Pairwise (· < ·) ∧
        out = finding u.dst .commits oids := by
  have hwider : ∀ oid, oid ∈ oidsWhere (sealedOids input) (fun a => !within u.audience.asStr a input.audiences) ↔
      ∃ a, (sealedOids input).lookup oid = some a ∧ within u.audience.asStr (tokenOf a) input.audiences = false := by
    intro oid
    rw [mem_oidsWhere]
    simp
  have hcovered : ∀ oid, oid ∈ oidsWhere (heldBefore input) (fun a => within u.audience.asStr a input.audiences) ↔
      ∃ a, (heldBefore input).lookup oid = some a ∧
        within u.audience.asStr (tokenOf a) input.audiences := fun oid => mem_oidsWhere
  unfold sealedFindings at h
  dsimp only at h
  generalize oidsWhere (sealedOids input) (fun a => !within u.audience.asStr a input.audiences) = wider at h hwider
  generalize oidsWhere (heldBefore input) (fun a => within u.audience.asStr a input.audiences) = covered
    at h hcovered
  split at h
  · rename_i hnil
    refine ⟨[], fun c => ?_, .nil, (pure_eq_ok.mp h).symm⟩
    simp only [not_mem_nil, false_iff]
    rintro ⟨-, -, ⟨oid, a, hlook, hnot, -⟩, -⟩
    have hmem := (hwider oid).mpr ⟨a, hlook, hnot⟩
    simp [hnil] at hmem
  · obtain ⟨adds, hadds, h⟩ := bind_eq_ok.mp h
    obtain ⟨cs, hcs, h⟩ := bind_eq_ok.mp h
    obtain ⟨rest, hrest, h⟩ := bind_eq_ok.mp h
    refine ⟨(adds ∩ rest).sort (· ≤ ·), fun c => ?_, Finset.sortedLT_sort _ |>.pairwise, (pure_eq_ok.mp h).symm⟩
    rw [Finset.mem_sort, Finset.mem_inter, hg.commits _ _ _ hadds, mem_minusHeld hg hrest, hg.commits _ _ _ hcs]
    simp only [mem_singleton, exists_eq_left]
    constructor
    · rintro ⟨⟨hreach, hp⟩, ⟨⟨oid, hoid, hreach'⟩, -⟩, hheld⟩
      obtain ⟨a, hlook, hnot⟩ := (hwider oid).mp hoid
      refine ⟨hreach, hp, ⟨oid, a, hlook, hnot, hreach'⟩, fun oid' a' hlook' hin hreach'' => ?_⟩
      exact hheld ⟨⟨oid', (hcovered oid').mpr ⟨a', hlook', hin⟩, hreach''⟩, hp⟩
    · rintro ⟨hreach, hp, ⟨oid, a, hlook, hnot, hreach'⟩, hfree⟩
      refine ⟨⟨hreach, hp⟩, ⟨⟨oid, (hwider oid).mpr ⟨a, hlook, hnot⟩, hreach'⟩, hp⟩, ?_⟩
      rintro ⟨⟨oid', hoid', hreach''⟩, -⟩
      obtain ⟨a', hlook', hin⟩ := (hcovered oid').mp hoid'
      exact hfree oid' a' hlook' hin hreach''

/-! ### Public updates -/

theorem mem_keys_sealedOids :
    oid ∈ (sealedOids input).keys ↔ ∃ a, (sealedOids input).lookup oid = some a := mem_keys_iff

include hg in
theorem isSealedObject_spec {x : String} {b : Bool}
    (h : isSealedObject g input x = .ok b) : b ↔ (∃ oid a, (sealedOids input).lookup oid = some a ∧
      contains oid x) ∧ ∀ p ∈ input.publicTips, ¬contains p x := by
  unfold isSealedObject at h
  dsimp only at h
  split at h
  · rename_i hnil
    obtain rfl := pure_eq_ok.mp h
    simp only [Bool.false_eq_true, false_iff]
    rintro ⟨⟨oid, a, hlook, -⟩, -⟩
    have hmem := mem_keys_sealedOids.mpr ⟨a, hlook⟩
    simp [hnil] at hmem
  · obtain ⟨os, hos, h⟩ := bind_eq_ok.mp h
    obtain rfl := pure_eq_ok.mp h
    rw [decide_eq_true_eq, hg.objects _ _ _ hos]
    simp only [mem_keys_sealedOids]
    refine and_congr_left fun _ => ⟨?_, ?_⟩
    · rintro ⟨oid, ⟨a, hlook⟩, hin⟩
      exact ⟨oid, a, hlook, hin⟩
    · rintro ⟨oid, a, hlook, hin⟩
      exact ⟨oid, ⟨a, hlook⟩, hin⟩

include hg in
theorem tagFindings_eq_nil {tags : List String}
    (h : tagFindings g input u tags = .ok []) {tag : String} (htag : tag ∈ tags) :
    ¬((∃ oid a, (sealedOids input).lookup oid = some a ∧ contains oid tag) ∧
      ∀ p ∈ input.publicTips, ¬contains p tag) := by
  obtain ⟨hits, hhits, h⟩ := bind_eq_ok.mp h
  obtain rfl : hits = [] := by simpa using pure_eq_ok.mp h
  obtain ⟨b, hb⟩ := (mem_filterM hhits).1 htag
  rw [← isSealedObject_spec hg hb]
  rintro rfl
  exact absurd ((mem_filterM hhits).2.mpr ⟨htag, hb⟩) not_mem_nil

include hg in
theorem commitFindings_eq_nil {target : String} (h : commitFindings g input u target = .ok ([], commits)) {c : String}
    (hc : reach target c) (hp : ∀ p ∈ input.publicTips, ¬reach p c)
    (hoid : (sealedOids input).lookup oid = some a) : ¬reach oid c := by
  obtain ⟨adds, hadds, h⟩ := bind_eq_ok.mp h
  obtain ⟨publicOnly, honly, h⟩ := bind_eq_ok.mp h
  obtain ⟨hnil, -⟩ := Prod.mk.inj (pure_eq_ok.mp h)
  intro hreach
  have hmem : c ∈ (adds \ publicOnly).sort (· ≤ ·) := by
    rw [Finset.mem_sort, Finset.mem_sdiff, hg.commits _ _ _ hadds, hg.commits _ _ _ honly]
    refine ⟨⟨⟨target, mem_cons_self, hc⟩, hp⟩, fun hin => ?_⟩
    exact hin.2 oid (mem_append_right _ (mem_keys_sealedOids.mpr ⟨a, hoid⟩)) hreach
  rw [finding_eq_nil.mp hnil] at hmem
  exact absurd hmem not_mem_nil

include hg in
/-- What a public update without findings publishes. -/
theorem publicFindings_eq_nil (h : publicFindings g input u t = .ok ([], commits)) {peeled : Peeled}
    (hpeel : g.peel t = .ok peeled) :
    (∀ tag ∈ peeled.tags, ¬((∃ oid a, (sealedOids input).lookup oid = some a ∧ contains oid tag) ∧
      ∀ p ∈ input.publicTips, ¬contains p tag)) ∧
    (peeled.kind = .commit → ∀ c, reach peeled.target c → (∀ p ∈ input.publicTips, ¬reach p c) →
      ∀ oid a, (sealedOids input).lookup oid = some a → ¬reach oid c) := by
  unfold publicFindings at h
  rw [hpeel, ok_bind] at h
  obtain ⟨tags, htags, h⟩ := bind_eq_ok.mp h
  obtain ⟨⟨target, commits'⟩, htarget, h⟩ := bind_eq_ok.mp h
  obtain ⟨notes, -, h⟩ := bind_eq_ok.mp h
  obtain ⟨replaced, -, h⟩ := bind_eq_ok.mp h
  obtain ⟨hnil, rfl⟩ := Prod.mk.inj (pure_eq_ok.mp h)
  simp only [append_eq_nil_iff] at hnil
  obtain ⟨⟨⟨rfl, rfl⟩, -⟩, -⟩ := hnil
  refine ⟨fun tag => tagFindings_eq_nil hg htags, fun hkind c hc hp oid a hoid => ?_⟩
  unfold targetFindings at htarget
  rw [if_pos hkind] at htarget
  split at htarget
  · rename_i hempty
    have hmem := mem_keys_sealedOids.mpr ⟨a, hoid⟩
    simp [hempty] at hmem
  · exact commitFindings_eq_nil hg htarget hc hp hoid

/-! ### The whole batch -/

/-- What an outcome is. -/
theorem guard_eq_ok (h : guard g input = .ok out) :
    (isUnavailable input ∧ out.verdict = .unavailable ∧ out.findings = [] ∧ out.published = []) ∨
    (¬isUnavailable input ∧ (sealedOids input).keys = [] ∧ out.verdict = .pass ∧ out.findings = [] ∧
      out.published = []) ∨
    (¬isUnavailable input ∧ (sealedOids input).keys ≠ [] ∧ ∃ rows, input.batch.mapM (examine g input) = .ok rows ∧
      out.findings = (rows.filter fun r => !isPublished input r).flatMap (fun r => r.2.1) ∧
      out.published = (rows.filter fun r => isPublished input r).flatMap (fun r => r.2.1) ∧
      out.verdict = if out.findings = [] then .pass else .refuse) := by
  unfold guard at h
  split at h
  · rename_i hun
    obtain rfl := pure_eq_ok.mp h
    exact .inl ⟨hun, rfl, rfl, rfl⟩
  · rename_i hun
    dsimp only at h
    split at h
    · rename_i hempty
      obtain rfl := pure_eq_ok.mp h
      exact .inr (.inl ⟨hun, hempty, rfl, rfl, rfl⟩)
    · rename_i hsealed
      obtain ⟨rows, hrows, h⟩ := bind_eq_ok.mp h
      obtain ⟨notes, -, h⟩ := bind_eq_ok.mp h
      obtain rfl := pure_eq_ok.mp h
      exact .inr (.inr ⟨hun, hsealed, rows, hrows, rfl, rfl, rfl⟩)

/-- A batch that passes has no finding. -/
theorem examine_of_pass (hnone : input.publishPrivate = none) (h : guard g input = .ok out)
    (hpass : out.verdict = .pass) (hsealed : (sealedOids input).keys ≠ []) (hu : u ∈ input.batch) :
    ∃ t commits, examine g input u = .ok (t, [], commits) := by
  rcases guard_eq_ok h with ⟨-, hv, -⟩ | ⟨-, hempty, -⟩ | ⟨-, -, rows, hrows, hfindings, -, hv⟩
  · exact absurd (hv.symm.trans hpass) (by decide)
  · exact absurd hempty hsealed
  · have hnil : out.findings = [] := by
      by_contra hne
      rw [if_neg hne] at hv
      exact absurd (hv.symm.trans hpass) (by decide)
    have hmap := map_eq_map_ok hrows
    have hmem : examine g input u ∈ rows.map .ok := hmap ▸ mem_map_of_mem hu
    obtain ⟨⟨t, found, commits⟩, hr, heq⟩ := mem_map.mp hmem
    have hunpublished : isPublished input (t, found, commits) = false := by
      cases t <;> simp [isPublished, hnone]
    have hfound : found = [] := by
      rw [hfindings, flatMap_eq_nil_iff] at hnil
      exact hnil _ (mem_filter.mpr ⟨hr, by rw [hunpublished]; rfl⟩)
    exact ⟨t, commits, by rw [← heq, hfound]⟩

/-- The audiences recorded for an oid: before the batch, then by it. -/
def records (input : GuardInput) (text oid : String) : List EntryAudience :=
  recordsBefore input text oid ++ recordsIn input.batch oid

/-- What is kept for an oid is one of its records. -/
theorem mem_records_of_lookup (hledger : LedgerOf input text)
    (h : (sealedOids input).lookup oid = some a) : a ∈ records input text oid := by
  rw [lookup_sealedOids, lookup_heldBefore hledger, Option.or_eq_some_iff] at h
  rcases h with h | ⟨-, h⟩
  · exact mem_append_left _ (narrowestOf_spec h).1
  · exact mem_append_right _ (narrowestOf_spec h).1

/-- An oid with a record is kept. -/
theorem exists_lookup_of_mem_records (hledger : LedgerOf input text)
    (h : a ∈ records input text oid) : ∃ a', (sealedOids input).lookup oid = some a' := by
  rw [← Option.isSome_iff_exists, lookup_sealedOids, lookup_heldBefore hledger, Option.isSome_or, Bool.or_eq_true]
  have hsome : ∀ l : List EntryAudience, a ∈ l → (narrowestOf l).isSome := by
    intro l hl
    rw [Option.isSome_iff_ne_none, ne_eq, narrowestOf_eq_none]
    exact ne_nil_of_mem hl
  exact (mem_append.mp h).imp (hsome _) (hsome _)

/-- A batch that passes is sound, where nothing private is to be published. A public update publishes no commit a sealed oid reaches and no sealed
tag; a sealed update gives no commit of an oid recorded only for audiences it is not within, unless one
recorded before the batch for an audience it is within reaches it. The guard does not pass when it cannot
know what is sealed. -/
theorem guard_sound (g : ObjectGraph) (reach contains : String → String → Prop) (hg : Consistent g reach contains)
    (input : GuardInput) (text : String) (hledger : LedgerOf input text) (out : Outcome)
    (h : guard g input = .ok out) :
    (input.publishPrivate = none → out.verdict = .pass →
      (∀ u ∈ input.batch, u.audience = .public_ → ∀ t, u.new = some t → ∀ peeled, g.peel t = .ok peeled →
        (peeled.kind = .commit → ∀ c, reach peeled.target c → ∀ oid, ∀ a ∈ records input text oid, reach oid c →
          ∃ p ∈ input.publicTips, reach p c) ∧
        ∀ tag ∈ peeled.tags, ¬((∃ oid, ∃ a ∈ records input text oid, contains oid tag) ∧
          ∀ p ∈ input.publicTips, ¬contains p tag)) ∧
      ∀ u ∈ input.batch, u.audience ≠ .public_ → ∀ t, u.new = some t → ∀ c, reach t c →
        (∀ p ∈ input.publicTips, ¬reach p c) → ∀ oid, records input text oid ≠ [] → reach oid c →
        (∀ a ∈ records input text oid, within u.audience.asStr (tokenOf a) input.audiences = false) →
        ∃ oid', ∃ a ∈ recordsBefore input text oid', within u.audience.asStr (tokenOf a) input.audiences ∧
          reach oid' c) ∧
    (input.ledger = .unknown ∨ input.membersKey ∧ input.decryptable = none ∧ input.ledger = .absent →
      out.verdict ≠ .pass) := by
  refine ⟨fun hnone hpass => ⟨fun u hu ha t ht peeled hpeel => ?_,
    fun u hu ha t ht c hc hp oid hoid hreach hout => ?_⟩, fun hun => ?_⟩
  · have hexamine : ∀ oid, ∀ a ∈ records input text oid, ∃ commits, publicFindings g input u t = .ok ([], commits) := by
      intro oid a hrec
      obtain ⟨a', hlook⟩ := exists_lookup_of_mem_records hledger hrec
      have hne : (sealedOids input).keys ≠ [] := ne_nil_of_mem (mem_keys_sealedOids.mpr ⟨a', hlook⟩)
      obtain ⟨t', commits, hex⟩ := examine_of_pass hnone h hpass hne hu
      simp only [examine, ht, ha, Audience.isSealed, ne_eq, not_true_eq_false, decide_false, Bool.false_eq_true,
        if_false] at hex
      obtain ⟨⟨found, commits'⟩, hfound, hex⟩ := bind_eq_ok.mp hex
      obtain ⟨-, hex⟩ := Prod.mk.inj (pure_eq_ok.mp hex)
      obtain ⟨rfl, rfl⟩ := Prod.mk.inj hex
      exact ⟨_, hfound⟩
    constructor
    · intro hkind c hc oid a hrec hreach
      by_contra hp
      push Not at hp
      obtain ⟨commits, hfound⟩ := hexamine oid a hrec
      obtain ⟨a', hlook⟩ := exists_lookup_of_mem_records hledger hrec
      exact (publicFindings_eq_nil hg hfound hpeel).2 hkind c hc hp oid a' hlook hreach
    · rintro tag htag ⟨⟨oid, a, hrec, hcontains⟩, hp⟩
      obtain ⟨commits, hfound⟩ := hexamine oid a hrec
      obtain ⟨a', hlook⟩ := exists_lookup_of_mem_records hledger hrec
      exact (publicFindings_eq_nil hg hfound hpeel).1 tag htag ⟨⟨oid, a', hlook, hcontains⟩, hp⟩
  · obtain ⟨a₀, hrec⟩ := exists_mem_of_ne_nil _ hoid
    obtain ⟨a, hlook⟩ := exists_lookup_of_mem_records hledger hrec
    have hne : (sealedOids input).keys ≠ [] := ne_nil_of_mem (mem_keys_sealedOids.mpr ⟨a, hlook⟩)
    obtain ⟨t', commits, hex⟩ := examine_of_pass hnone h hpass hne hu
    have hsealed : u.audience.isSealed = true := by simpa [Audience.isSealed] using ha
    simp only [examine, ht, hsealed, if_true] at hex
    obtain ⟨found, hfound, hex⟩ := bind_eq_ok.mp hex
    obtain ⟨-, hex⟩ := Prod.mk.inj (pure_eq_ok.mp hex)
    obtain ⟨rfl, -⟩ := Prod.mk.inj hex
    obtain ⟨oids, hoids, -, hfinding⟩ := sealedFindings_spec hg hfound
    rw [eq_comm, finding_eq_nil] at hfinding
    have hnot : ¬Refused input reach u.audience.asStr t c := by
      rw [← hoids c, hfinding]
      exact not_mem_nil
    by_contra hfree
    push Not at hfree
    refine hnot ⟨hc, hp, ⟨oid, a, hlook, hout a (mem_records_of_lookup hledger hlook), hreach⟩, ?_⟩
    intro oid' a' hlook' hin
    rw [lookup_heldBefore hledger] at hlook'
    exact hfree oid' a' (narrowestOf_spec hlook').1 hin
  · intro hpass
    have hun' : isUnavailable input := by simpa [isUnavailable] using hun
    rcases guard_eq_ok h with ⟨-, hv, -⟩ | ⟨hnot, -⟩ | ⟨hnot, -⟩
    · exact absurd (hv.symm.trans hpass) (by decide)
    · exact hnot hun'
    · exact hnot hun'

/-- The graph in which each tip reaches what the pairs say, and every object is a commit. -/
def ObjectGraph.ofPairs (pairs : List (String × String)) : ObjectGraph :=
  let reached (tips bases : List String) : Finset String :=
    ((pairs.filter fun e => e.1 ∈ tips ∧ ∀ b ∈ bases, (b, e.2) ∉ pairs).map Prod.snd).toFinset
  { commits := fun tips bases => .ok (reached tips bases)
    objects := fun tips bases => .ok (reached tips bases)
    peel := fun oid => .ok ⟨[], oid, .commit⟩
    noteTargets := fun _ => .ok []
    gitlinks := fun _ _ => .ok []
    patchIds := fun _ => .ok .empty }

theorem consistent_ofPairs (pairs : List (String × String)) :
    Consistent (.ofPairs pairs) (fun t c => (t, c) ∈ pairs) (fun t x => (t, x) ∈ pairs) := by
  have hmem : ∀ (tips bases : List String) (c : String),
      c ∈ ((pairs.filter fun e => e.1 ∈ tips ∧ ∀ b ∈ bases, (b, e.2) ∉ pairs).map Prod.snd).toFinset ↔
        (∃ t ∈ tips, (t, c) ∈ pairs) ∧ ∀ b ∈ bases, (b, c) ∉ pairs := by
    intro tips bases c
    simp only [mem_toFinset, mem_map, mem_filter, decide_eq_true_eq]
    constructor
    · rintro ⟨⟨t, c'⟩, ⟨hin, ht, hb⟩, rfl⟩
      exact ⟨⟨t, ht, hin⟩, hb⟩
    · rintro ⟨⟨t, ht, hin⟩, hb⟩
      exact ⟨(t, c), ⟨hin, ht, hb⟩, rfl⟩
  constructor
  · intro tips bases cs h
    obtain rfl := Except.ok.inj h
    exact hmem tips bases
  · intro tips bases os h
    obtain rfl := Except.ok.inj h
    exact hmem tips bases

/-- Two commits made on the public one: `w` for the members, `n` to be published. -/
def guardSampleGraph : List (String × String) :=
  [("p", "p"), ("w", "w"), ("w", "p"), ("n", "n"), ("n", "p")]

/-- A push of `w` to the members and `n` to everyone. -/
def guardSample : GuardInput :=
  { membersKey := true
    ledger := .present .empty
    decryptable := some []
    publicTips := ["p"]
    batch := [⟨"refs/heads/work", some "w", .members⟩, ⟨"refs/heads/main", some "n", .public_⟩]
    publishPrivate := none
    patchIds := false
    audiences := .empty
    decryptableNarrower := [] }

theorem guard_guardSample : guard (.ofPairs guardSampleGraph) guardSample = .ok ⟨.pass, [], [], [], [], []⟩ := by
  decide +kernel

theorem guard_sound_sample : guard (.ofPairs guardSampleGraph) guardSample = .ok ⟨.pass, [], [], [], [], []⟩ ∧
    ∃ p ∈ guardSample.publicTips, (p, "p") ∈ guardSampleGraph := by
  have hledger : LedgerOf guardSample header := by
    intro l hl
    obtain rfl : Ledger.empty = l := LedgerState.present.inj hl
    decide +kernel
  obtain ⟨hpass, -⟩ := guard_sound _ _ _ (consistent_ofPairs guardSampleGraph) guardSample header hledger _
    guard_guardSample
  have hmain := (hpass rfl rfl).1 ⟨"refs/heads/main", some "n", .public_⟩ (by simp [guardSample]) rfl "n" rfl _ rfl
  exact ⟨guard_guardSample, hmain.1 rfl "p" (by decide) "w" .members (by decide +kernel) (by decide)⟩

end DashForge.Members
