import DashForge.Graph.Forest
import DashForge.Pack.Decode

/-!
# Verifying a pack

`verifyAllOids` (`pack/parse.rs`) checks the OID of every object of a pack. It builds each object
once, from its base's bytes, by walking the delta forest from the roots with an explicit stack; a
frame is dropped when its last delta starts, and the heaviest subtree goes last.

The walk is the per-object check done fast (`verifyAllOids_spec`): it succeeds exactly when every
object decodes from the whole pack to bytes with its OID, visits no object twice and every object
when it succeeds, applies a delta only to the decoded bytes of its own base, and ends within two
steps for every object. Each loop takes its number of steps as `fuel`, and the walk keeps a log of
its visits.
-/

namespace DashForge

open List Option

/-- One object of the walk, with the bytes its deltas build on. -/
structure VerifyFrame where
  idx : ℕ
  objType : GitObjType
  data : Bytes
  covered : ℕ
  built : ℕ
  nextChild : ℕ
deriving DecidableEq, Repr

/-- A visit of the walk: the object, and the frame and bytes its delta is applied to. -/
structure Visit where
  obj : ℕ
  base : Option (ℕ × Bytes)
deriving DecidableEq, Repr

namespace ParsedPack

/-- The deltas on each object, in index order. -/
def children (pp : ParsedPack) (c : ℕ) : List ℕ :=
  (range pp.objects.length).filter fun i => pp.base i = some c

/-- The objects without a base in the pack. -/
def roots (pp : ParsedPack) : List ℕ :=
  (range pp.objects.length).filter fun i => pp.base i = none

/-- Subtree weights, children before parents. -/
def weights (pp : ParsedPack) (preorder : List ℕ) : ℕ → ℕ :=
  preorder.reverse.foldl (fun weight i =>
    match pp.base i with
    | some b => Function.update weight b (weight b + weight i)
    | none => weight) fun _ => 1

/-- The deltas on an object, the heaviest subtree last. -/
def sortedChildren (pp : ParsedPack) (weight : ℕ → ℕ) (c : ℕ) : List ℕ :=
  sortByKey weight (pp.children c)

/-- Apply object `i`'s own delta to `base`, producing at most `budget`. -/
def applyOwnDelta (env : PackEnv) (pp : ParsedPack) (i : ℕ) (base : Bytes) (budget : ℕ) :
    Except PackError Bytes := do
  let (entry, stop) ← pp.ownEntry i
  refuseIf (entry.base = .none) (.config "pack object has a base but is no delta")
  let delta ← inflate env ((pp.packBytes.take stop).drop entry.data) entry.size
  applyDelta base delta budget

/-- Compare the OID of an object's bytes with the index. -/
def checkOid (env : PackEnv) (pp : ParsedPack) (i : ℕ) (t : GitObjType) (data : Bytes) :
    Except PackError Unit :=
  refuseIf (gitOid env t data ≠ (pp.obj i).oid) .integrity

/-- Build and check `child` from the bytes of the frame `top` it is a delta on. -/
def verifyChild (env : PackEnv) (pp : ParsedPack) (top : VerifyFrame) (child : ℕ) :
    Except PackError VerifyFrame := do
  let covered := satAdd top.covered (pp.obj child).length
  -- what reading the child alone would have left after building its base
  let budget ← (ReadBudget.new covered).spend top.built
  let data ← pp.applyOwnDelta env child top.data budget.nextStep
  pp.checkOid env child top.objType data
  return ⟨child, top.objType, data, covered, satAdd top.built data.length, 0⟩

/-- The stack once the next child of `top` is checked, with its frame `frame`: `top` goes with its
last child, and a frame without children is not kept. -/
def stackAfter (kids : ℕ → List ℕ) (top frame : VerifyFrame) (rest : List VerifyFrame) :
    List VerifyFrame :=
  let last := top.nextChild + 1 = (kids top.idx).length
  let rest := if last then rest else { top with nextChild := top.nextChild + 1 } :: rest
  if (kids frame.idx).isEmpty then rest else frame :: rest

/-- The walk from a stack of frames; `none` when `fuel` runs out first. -/
def verifyWalk (env : PackEnv) (pp : ParsedPack) (kids : ℕ → List ℕ) :
    ℕ → List VerifyFrame → List Visit → Option (Except PackError Unit × List Visit)
  | _, [], log => some (.ok (), log)
  | 0, _ :: _, _ => none
  | fuel + 1, top :: rest, log =>
    match (kids top.idx)[top.nextChild]? with
    | none => verifyWalk env pp kids fuel rest log
    | some child =>
      let log := log ++ [⟨child, some (top.idx, top.data)⟩]
      match pp.verifyChild env top child with
      | .error e => some (.error e, log)
      | .ok frame => verifyWalk env pp kids fuel (stackAfter kids top frame rest) log

/-- Decode and check a root. -/
def verifyRoot (env : PackEnv) (pp : ParsedPack) (root : ℕ) : Except PackError VerifyFrame := do
  let (objType, data) ← pp.decodeAt env pp.packBytes 0 (pp.obj root).offset true
  pp.checkOid env root objType data
  return ⟨root, objType, data, (pp.obj root).length, data.length, 0⟩

/-- The walks from each of `roots`. -/
def verifyRoots (env : PackEnv) (pp : ParsedPack) (kids : ℕ → List ℕ) (fuel : ℕ) :
    List ℕ → List Visit → Option (Except PackError Unit × List Visit)
  | [], log => some (.ok (), log)
  | root :: roots, log =>
    let log := log ++ [⟨root, none⟩]
    match pp.verifyRoot env root with
    | .error e => some (.error e, log)
    | .ok frame =>
      match pp.verifyWalk env kids fuel [frame] log with
      | none => none
      | some (.error e, log) => some (.error e, log)
      | some (.ok (), log) => verifyRoots env pp kids fuel roots log

/-- The check of every object, with the log of its visits. -/
def verifyRun (env : PackEnv) (pp : ParsedPack) (fuel : ℕ) :
    Option (Except PackError ℕ × List Visit) := do
  let n := pp.objects.length
  -- the source takes from the end of its vector, so the stack is its reverse
  let preorder ← drain (fun c => (pp.children c).reverse) fuel pp.roots.reverse []
  if preorder.length ≠ n then return (.error (.config "delta bases form a cycle"), [])
  else
    let (r, log) ← pp.verifyRoots env (pp.sortedChildren (pp.weights preorder)) fuel pp.roots []
    return (r.map fun _ => n, log)

/-- The number of objects verified. -/
def verifyAllOids (env : PackEnv) (pp : ParsedPack) (fuel : ℕ) : Option (Except PackError ℕ) :=
  (pp.verifyRun env fuel).map Prod.fst

/-! ### The delta forest -/

/-- The depth of an object in the delta forest. -/
def depthOf (pp : ParsedPack) (i : ℕ) : ℕ := (pp.obj i).deltaDepth

theorem PackOk.isForest {pp : ParsedPack} (hpp : pp.PackOk) :
    IsForest (range pp.objects.length) pp.base pp.roots pp.children pp.depthOf maxDeltaDepth where
  nodup := nodup_range
  base_mem i hi b hb := by
    obtain ⟨entry, -, hentry⟩ := hpp.entry i (mem_range.mp hi)
    cases hentry with
    | root hbase => simp [hb] at hbase
    | delta hbase hlt =>
      obtain rfl := some.inj (hb.symm.trans hbase)
      exact mem_range.mpr hlt
  depth_root i hi hb := by
    obtain ⟨entry, -, hentry⟩ := hpp.entry i (mem_range.mp hi)
    cases hentry with
    | root _ _ _ hdepth => exact hdepth
    | delta hbase => simp [hb] at hbase
  depth_base i hi b hb := by
    obtain ⟨entry, -, hentry⟩ := hpp.entry i (mem_range.mp hi)
    cases hentry with
    | root hbase => simp [hb] at hbase
    | delta hbase _ _ _ hdepth =>
      obtain rfl := some.inj (hb.symm.trans hbase)
      exact hdepth
  depth_le i hi := hpp.depth_le i (mem_range.mp hi)
  roots_nodup := nodup_range.filter _
  mem_roots i := by simp [roots]
  kids_nodup c := nodup_range.filter _
  mem_kids c i := by simp [children]

/-! ### One step of the walk -/

/-- Object `i` decodes from the whole pack to bytes with its OID. -/
def Verifies (env : PackEnv) (pp : ParsedPack) (i : ℕ) : Prop :=
  ∃ t data, pp.decodeAt env pp.packBytes 0 (pp.obj i).offset true = .ok (t, data) ∧
    gitOid env t data = (pp.obj i).oid

/-- A frame holds its object as it decodes. -/
structure FrameOk (env : PackEnv) (pp : ParsedPack) (f : VerifyFrame) : Prop where
  lt : f.idx < pp.objects.length
  objType : f.objType = (pp.obj f.idx).objType
  covered : f.covered = min (pp.chainBytes f.idx) u64Max
  decodes : pp.Decodes env f.idx f.data f.built

namespace PackOk

variable {env : PackEnv} {pp : ParsedPack} (hpp : pp.PackOk)
variable {i child root : ℕ} {top f : VerifyFrame}

include hpp

theorem verifies_iff (hi : i < pp.objects.length) : pp.Verifies env i ↔ ∃ data built, pp.Decodes env i data built ∧
      gitOid env (pp.obj i).objType data = (pp.obj i).oid := by
  simp only [Verifies, hpp.decodeAt_eq_ok_iff hi]
  constructor
  · rintro ⟨_, data, ⟨rfl, built, hdecodes⟩, hoid⟩
    exact ⟨data, built, hdecodes, hoid⟩
  · rintro ⟨data, built, hdecodes, hoid⟩
    exact ⟨_, data, ⟨rfl, built, hdecodes⟩, hoid⟩

variable {b : ℕ} {base data : Bytes}

theorem applyOwnDelta_eq_ok_iff (hi : i < pp.objects.length) (hbase : pp.base i = some b) {budget : ℕ} :
    pp.applyOwnDelta env i base budget = .ok data ↔
      ∃ delta, pp.ownData env i = .ok delta ∧ applyDelta base delta budget = .ok data := by
  simp only [applyOwnDelta, ownData, ownLink, Link.inflated, bind_eq_ok, refuseIf_eq_ok, pure_eq_ok]
  constructor
  · rintro ⟨⟨entry, stop⟩, hown, -, -, delta, hdelta, happly⟩
    exact ⟨delta, ⟨_, ⟨_, hown, rfl⟩, hdelta⟩, happly⟩
  · rintro ⟨delta, ⟨_, ⟨⟨entry, stop⟩, hown, rfl⟩, hdelta⟩, happly⟩
    refine ⟨(entry, stop), hown, (), ?_, delta, hdelta, happly⟩
    cases (hpp.ownEntry_eq_ok hi hown).1 with
    | root hbase' => simp [hbase] at hbase'
    | delta _ _ haddr =>
      intro hnone
      simp only at hnone
      simp [hnone, baseAddr] at haddr

theorem decodes_delta_iff {built : ℕ} (hi : i < pp.objects.length)
    (hbase : pp.base i = some b) (hb : pp.Decodes env b base built) {built' : ℕ} :
    pp.Decodes env i data built' ↔ built ≤ (pp.budgetOf i).left ∧
      built' = built + data.length ∧ ∃ delta, pp.ownData env i = .ok delta ∧
        applyDelta base delta (min (pp.budgetOf i).step ((pp.budgetOf i).left - built)) = .ok data := by
  have hchain : pp.chainBytes b ≤ pp.chainBytes i := by
    rw [chainBytes_delta hbase (hpp.isForest.depth_base i (mem_range.mpr hi) b hbase)]
    exact Nat.le_add_right _ _
  have hcovered : min (pp.chainBytes b) u64Max ≤ min (pp.chainBytes i) u64Max := by omega
  -- the base is built the same within the larger budget of the delta
  have hb' : pp.Builds env (pp.budgetOf i).step (pp.budgetOf i).left b base built :=
    Builds.mono hb (ReadBudget.step_new_le hcovered) (ReadBudget.left_new_le hcovered)
  constructor
  · intro h
    cases h with
    | root hbase' => simp [hbase] at hbase'
    | delta hbase' hbuilds hdelta happly =>
      obtain rfl := some.inj (hbase.symm.trans hbase')
      obtain ⟨rfl, rfl⟩ := hb'.unique hbuilds
      exact ⟨hb'.built_le, rfl, _, hdelta, happly⟩
  · rintro ⟨-, rfl, delta, hdelta, happly⟩
    exact .delta hbase hb' hdelta happly

variable (htop : pp.FrameOk env top) (hlt : child < pp.objects.length) (hbase : pp.base child = some top.idx)

include htop hlt hbase in
theorem verifyChild_eq_ok_iff : pp.verifyChild env top child = .ok f ↔
      ∃ data, pp.Decodes env child data (top.built + data.length) ∧
        gitOid env (pp.obj child).objType data = (pp.obj child).oid ∧
        f = ⟨child, (pp.obj child).objType, data, min (pp.chainBytes child) u64Max, top.built + data.length, 0⟩ := by
  have hmem := mem_range.mpr hlt
  have hcovered : satAdd top.covered (pp.obj child).length = min (pp.chainBytes child) u64Max := by
    rw [chainBytes_delta hbase (hpp.isForest.depth_base child hmem _ hbase), htop.covered, satAdd]
    omega
  have htype : top.objType = (pp.obj child).objType := by
    obtain ⟨entry, -, hentry⟩ := hpp.entry child hlt
    cases hentry with
    | root hbase' => simp [hbase] at hbase'
    | delta hbase' _ _ htype =>
      obtain rfl := some.inj (hbase.symm.trans hbase')
      rw [htop.objType, htype]
  simp only [verifyChild, hcovered, htype, checkOid, bind_eq_ok, refuseIf_eq_ok, pure_eq_ok,
    ReadBudget.spend_eq_ok, hpp.applyOwnDelta_eq_ok_iff hlt hbase, not_not,
    hpp.decodes_delta_iff hlt hbase htop.decodes, true_and]
  -- what a delta builds stays within its budget, so the sum does not saturate
  have hsum : ∀ {data delta : Bytes}, top.built ≤ (pp.budgetOf child).left → applyDelta top.data delta
        (min (pp.budgetOf child).step ((pp.budgetOf child).left - top.built)) = .ok data →
      satAdd top.built data.length = top.built + data.length := by
    intro data delta hle happly
    have hlen := length_applyDelta happly
    have hmax : (pp.budgetOf child).left ≤ u64Max := ReadBudget.left_new_le_u64Max _
    exact satAdd_eq_add (by omega)
  constructor
  · rintro ⟨_, ⟨hle, rfl⟩, data, ⟨delta, hdelta, happly⟩, -, hoid, rfl⟩
    exact ⟨data, ⟨hle, delta, hdelta, happly⟩, hoid, by rw [hsum hle happly]⟩
  · rintro ⟨data, ⟨hle, delta, hdelta, happly⟩, hoid, rfl⟩
    exact ⟨_, ⟨hle, rfl⟩, data, ⟨delta, hdelta, happly⟩, (), hoid, by rw [hsum hle happly]⟩

include htop hlt hbase in
theorem frameOk_of_verifyChild (h : pp.verifyChild env top child = .ok f) :
    pp.FrameOk env f ∧ f.idx = child ∧ f.nextChild = 0 := by
  obtain ⟨data, hdecodes, -, rfl⟩ := (hpp.verifyChild_eq_ok_iff htop hlt hbase).mp h
  exact ⟨⟨hlt, rfl, rfl, hdecodes⟩, rfl, rfl⟩

include htop hlt hbase in
theorem verifies_iff_verifyChild :
    pp.Verifies env child ↔ ∃ f, pp.verifyChild env top child = .ok f := by
  simp only [hpp.verifies_iff hlt, hpp.verifyChild_eq_ok_iff htop hlt hbase]
  constructor
  · rintro ⟨data, built, hdecodes, hoid⟩
    obtain ⟨-, rfl, -⟩ := (hpp.decodes_delta_iff hlt hbase htop.decodes).mp hdecodes
    exact ⟨_, data, hdecodes, hoid, rfl⟩
  · rintro ⟨_, data, hdecodes, hoid, -⟩
    exact ⟨data, _, hdecodes, hoid⟩

theorem verifyRoot_eq_ok_iff (hlt : root < pp.objects.length) : pp.verifyRoot env root = .ok f ↔
      ∃ data built, pp.Decodes env root data built ∧ gitOid env (pp.obj root).objType data = (pp.obj root).oid ∧
        f = ⟨root, (pp.obj root).objType, data, (pp.obj root).length, data.length, 0⟩ := by
  simp only [verifyRoot, checkOid, bind_eq_ok, refuseIf_eq_ok, pure_eq_ok, Prod.exists,
    hpp.decodeAt_eq_ok_iff hlt, not_not]
  constructor
  · rintro ⟨_, data, ⟨rfl, built, hdecodes⟩, -, hoid, rfl⟩
    exact ⟨data, built, hdecodes, hoid, rfl⟩
  · rintro ⟨data, built, hdecodes, hoid, rfl⟩
    exact ⟨_, data, ⟨rfl, built, hdecodes⟩, (), hoid, rfl⟩

theorem frameOk_of_verifyRoot (hlt : root < pp.objects.length)
    (hbase : pp.base root = none) (h : pp.verifyRoot env root = .ok f) :
    pp.FrameOk env f ∧ f.idx = root ∧ f.nextChild = 0 := by
  obtain ⟨data, built, hdecodes, -, rfl⟩ := (hpp.verifyRoot_eq_ok_iff hlt).mp h
  cases hdecodes with
  | delta hbase' => simp [hbase] at hbase'
  | root _ hdata hle =>
    refine ⟨⟨hlt, rfl, ?_, .root hbase hdata hle⟩, rfl, rfl⟩
    -- the extent of the root was read, so its length is a machine word
    simp only [ownData, ownLink, bind_eq_ok] at hdata
    obtain ⟨_, ⟨⟨entry, stop⟩, hown, -⟩, -⟩ := hdata
    obtain ⟨-, hstop, hmax⟩ := hpp.ownEntry_eq_ok hlt hown
    have hlength : (pp.obj root).length ≤ u64Max := by omega
    rw [chainBytes_root hbase]
    exact (Nat.min_eq_left hlength).symm

theorem verifies_iff_verifyRoot (hlt : root < pp.objects.length) :
    pp.Verifies env root ↔ ∃ f, pp.verifyRoot env root = .ok f := by
  simp only [hpp.verifies_iff hlt, hpp.verifyRoot_eq_ok_iff hlt]
  constructor
  · rintro ⟨data, built, hdecodes, hoid⟩
    exact ⟨_, data, built, hdecodes, hoid, rfl⟩
  · rintro ⟨_, data, built, hdecodes, hoid, -⟩
    exact ⟨data, built, hdecodes, hoid⟩

end PackOk

/-! ### The whole walk -/

/-- A delta is applied to the decoded bytes of its own base, and a root to none. -/
def VisitOk (env : PackEnv) (pp : ParsedPack) (v : Visit) : Prop :=
  match v.base with
  | none => pp.base v.obj = none
  | some (b, data) => pp.base v.obj = some b ∧
    ∃ t, pp.decodeAt env pp.packBytes 0 (pp.obj b).offset true = .ok (t, data)

/-- A part of the walk that had the objects `todo` to visit, with result `r`, from log `log` to
`log'`. -/
structure WalkOk (env : PackEnv) (pp : ParsedPack) (todo : List ℕ) (log : List Visit)
    (r : Except PackError Unit) (log' : List Visit) : Prop where
  ok_iff : r = .ok () ↔ ∀ i ∈ todo, pp.Verifies env i
  visits : ∃ visits, log' = log ++ visits ∧ visits.map Visit.obj <+: todo ∧
    (r = .ok () → visits.map Visit.obj = todo) ∧ ∀ v ∈ visits, pp.VisitOk env v

namespace WalkOk

variable {env : PackEnv} {pp : ParsedPack}

theorem nil (log : List Visit) : pp.WalkOk env [] log (.ok ()) log :=
  ⟨by simp, [], by simp, by simp, fun _ => rfl, by simp⟩

variable {v : Visit} {r : Except PackError Unit}

theorem fail (hv : pp.VisitOk env v) (hfail : ¬pp.Verifies env v.obj)
    (todo : List ℕ) (log : List Visit) (e : PackError) : pp.WalkOk env (v.obj :: todo) log (.error e) (log ++ [v]) := by
  refine ⟨?_, [v], rfl, by simp, by simp, by simpa using hv⟩
  simp only [reduceCtorEq, false_iff]
  exact fun h => hfail (h v.obj mem_cons_self)

variable {todo : List ℕ} {log log' : List Visit}

theorem cons (hv : pp.VisitOk env v) (hok : pp.Verifies env v.obj)
    (h : pp.WalkOk env todo (log ++ [v]) r log') : pp.WalkOk env (v.obj :: todo) log r log' := by
  obtain ⟨visits, rfl, hpre, hall, hvisits⟩ := h.visits
  refine ⟨h.ok_iff.trans (by simp [hok]), v :: visits, by simp, ?_, fun hr => ?_, ?_⟩
  · rw [map_cons, cons_prefix_cons]
    exact ⟨rfl, hpre⟩
  · rw [map_cons, hall hr]
  · simpa using ⟨hv, hvisits⟩

theorem append_fail {e : PackError} (h : pp.WalkOk env todo log (.error e) log') (rest : List ℕ) :
    pp.WalkOk env (todo ++ rest) log (.error e) log' := by
  obtain ⟨visits, hlog, hpre, -, hvisits⟩ := h.visits
  refine ⟨?_, visits, hlog, hpre.trans (prefix_append _ _), by simp, hvisits⟩
  have hnot := mt h.ok_iff.mpr (by simp : ¬(Except.error e : Except PackError Unit) = .ok ())
  simp only [reduceCtorEq, false_iff]
  exact fun hall => hnot fun i hi => hall i (mem_append_left _ hi)

theorem append {rest : List ℕ} {log'' : List Visit}
    (h : pp.WalkOk env todo log (.ok ()) log') (h' : pp.WalkOk env rest log' r log'') :
    pp.WalkOk env (todo ++ rest) log r log'' := by
  obtain ⟨visits, rfl, -, hall, hvisits⟩ := h.visits
  obtain ⟨visits', rfl, hpre', hall', hvisits'⟩ := h'.visits
  have htodo := h.ok_iff.mp rfl
  refine ⟨h'.ok_iff.trans ⟨fun hrest => ?_, fun hboth => ?_⟩, visits ++ visits',
    append_assoc _ _ _, ?_, fun hr => ?_, ?_⟩
  · exact forall_mem_append.mpr ⟨htodo, hrest⟩
  · exact (forall_mem_append.mp hboth).2
  · rw [map_append, hall rfl]
    exact (prefix_append_right_inj todo).mpr hpre'
  · rw [map_append, hall rfl, hall' hr]
  · exact forall_mem_append.mpr ⟨hvisits, hvisits'⟩

end WalkOk

section

variable {env : PackEnv} {pp : ParsedPack} (hpp : pp.PackOk) {kids : ℕ → List ℕ}
  (hkids : IsForest (range pp.objects.length) pp.base pp.roots kids pp.depthOf maxDeltaDepth)

/-- The objects a frame has still to visit, in order. -/
def frameTodo (pp : ParsedPack) (kids : ℕ → List ℕ) (f : VerifyFrame) : List ℕ :=
  ((kids f.idx).drop f.nextChild).flatMap (preorder kids pp.depthOf maxDeltaDepth)

theorem mem_stackAfter {top frame f : VerifyFrame} {rest : List VerifyFrame} (hf : f ∈ stackAfter kids top frame rest) :
    f = frame ∨ f = { top with nextChild := top.nextChild + 1 } ∨ f ∈ rest := by
  simp only [stackAfter] at hf
  grind

theorem length_stackAfter_le (kids : ℕ → List ℕ) (top frame : VerifyFrame)
    (rest : List VerifyFrame) : (stackAfter kids top frame rest).length ≤ rest.length + 2 := by
  simp only [stackAfter]
  grind

include hkids in
theorem todo_stackAfter {top frame : VerifyFrame} (rest : List VerifyFrame)
    (hchild : (kids top.idx)[top.nextChild]? = some frame.idx) (hnext : frame.nextChild = 0) :
    (top :: rest).flatMap (pp.frameTodo kids) =
      frame.idx :: (stackAfter kids top frame rest).flatMap (pp.frameTodo kids) := by
  obtain ⟨hlt, hget⟩ := List.getElem?_eq_some_iff.mp hchild
  have hmem : frame.idx ∈ range pp.objects.length :=
    hkids.kid_mem (hget ▸ getElem_mem hlt)
  have hdrop : (kids top.idx).drop top.nextChild = frame.idx :: (kids top.idx).drop (top.nextChild + 1) := by
    rw [drop_eq_getElem_cons hlt, hget]
  have hframe : pp.frameTodo kids frame = (kids frame.idx).flatMap (preorder kids pp.depthOf maxDeltaDepth) := by
    rw [frameTodo, hnext, drop_zero]
  -- `top` has nothing left to visit when it is dropped
  have htop : (if top.nextChild + 1 = (kids top.idx).length then rest
      else { top with nextChild := top.nextChild + 1 } :: rest).flatMap (pp.frameTodo kids) =
      ((kids top.idx).drop (top.nextChild + 1)).flatMap (preorder kids pp.depthOf maxDeltaDepth) ++
        rest.flatMap (pp.frameTodo kids) := by
    split
    case isTrue hlast => rw [hlast, drop_length]; rfl
    case isFalse => rfl
  rw [flatMap_cons, frameTodo, hdrop, flatMap_cons, hkids.preorder_eq hmem,
    cons_append, cons_append, append_assoc, ← htop, ← hframe, stackAfter]
  congr 1
  by_cases hempty : (kids frame.idx).isEmpty
  · rw [if_pos hempty, hframe, isEmpty_iff.mp hempty]
    rfl
  · rw [if_neg hempty, flatMap_cons]

include hpp hkids in
theorem exists_verifyWalk {fuel : ℕ} {stack : List VerifyFrame} (hstack : ∀ f ∈ stack, pp.FrameOk env f)
    (hfuel : 2 * (stack.flatMap (pp.frameTodo kids)).length + stack.length ≤ fuel) (log : List Visit) :
    ∃ r log', pp.verifyWalk env kids fuel stack log = some (r, log') ∧
      pp.WalkOk env (stack.flatMap (pp.frameTodo kids)) log r log' := by
  induction fuel generalizing stack log with
  | zero =>
    obtain rfl : stack = [] := length_eq_zero_iff.mp (by omega)
    exact ⟨.ok (), log, rfl, .nil log⟩
  | succ fuel ih =>
    cases stack with
    | nil => exact ⟨.ok (), log, rfl, .nil log⟩
    | cons top rest =>
      have htop := hstack top mem_cons_self
      have hrest : ∀ f ∈ rest, pp.FrameOk env f := fun f hf => hstack f (mem_cons_of_mem _ hf)
      cases hchild : (kids top.idx)[top.nextChild]? with
      | none =>
        -- no child is left: the frame goes
        have hnil : pp.frameTodo kids top = [] := by
          rw [frameTodo, drop_eq_nil_of_le (List.getElem?_eq_none_iff.mp hchild)]
          rfl
        rw [flatMap_cons, hnil, nil_append] at hfuel ⊢
        simp only [verifyWalk, hchild]
        exact ih hrest (by simp only [length_cons] at hfuel; omega) log
      | some child =>
        obtain ⟨hlt, hget⟩ := List.getElem?_eq_some_iff.mp hchild
        have hkid : child ∈ kids top.idx := hget ▸ getElem_mem hlt
        have hn : child < pp.objects.length := mem_range.mp (hkids.kid_mem hkid)
        have hbase : pp.base child = some top.idx := ((hkids.mem_kids _ _).mp hkid).2
        have hvisit : pp.VisitOk env ⟨child, some (top.idx, top.data)⟩ :=
          ⟨hbase, _, (hpp.decodeAt_eq_ok_iff htop.lt).mpr ⟨rfl, _, htop.decodes⟩⟩
        have hverifies := hpp.verifies_iff_verifyChild htop hn hbase
        cases hstep : pp.verifyChild env top child with
        | error e =>
          simp only [verifyWalk, hchild, hstep]
          rw [flatMap_cons, frameTodo, drop_eq_getElem_cons hlt, hget,
            flatMap_cons, hkids.preorder_eq (mem_range.mpr hn), cons_append, cons_append]
          refine ⟨_, _, rfl, .fail hvisit ?_ _ log e⟩
          rw [hverifies, hstep]
          simp
        | ok frame =>
          obtain ⟨hframe, rfl, hnext⟩ := hpp.frameOk_of_verifyChild htop hn hbase hstep
          have hok : ∀ f ∈ stackAfter kids top frame rest, pp.FrameOk env f := by
            intro f hf
            rcases mem_stackAfter hf with rfl | rfl | hf
            · exact hframe
            · exact ⟨htop.lt, htop.objType, htop.covered, htop.decodes⟩
            · exact hrest f hf
          have hlen := length_stackAfter_le kids top frame rest
          rw [todo_stackAfter hkids rest hchild hnext, length_cons, length_cons] at hfuel
          rw [todo_stackAfter hkids rest hchild hnext]
          obtain ⟨r, log', hrun, hwalk⟩ :=
            ih hok (by omega) (log ++ [⟨frame.idx, some (top.idx, top.data)⟩])
          refine ⟨r, log', ?_, hwalk.cons hvisit (hverifies.mpr ⟨frame, hstep⟩)⟩
          simp only [verifyWalk, hchild, hstep]
          exact hrun

include hpp hkids in
theorem exists_verifyRoots {fuel : ℕ} (hfuel : 2 * pp.objects.length + 1 ≤ fuel) {roots : List ℕ}
    (hroots : ∀ root ∈ roots, root ∈ pp.roots) (log : List Visit) :
    ∃ r log', pp.verifyRoots env kids fuel roots log = some (r, log') ∧
      pp.WalkOk env (roots.flatMap (preorder kids pp.depthOf maxDeltaDepth)) log r log' := by
  induction roots generalizing log with
  | nil => exact ⟨.ok (), log, rfl, .nil log⟩
  | cons root roots ih =>
    obtain ⟨hmem, hbase⟩ := (hkids.mem_roots root).mp (hroots root mem_cons_self)
    have hlt := mem_range.mp hmem
    have hvisit : pp.VisitOk env ⟨root, none⟩ := hbase
    have hverifies : pp.Verifies env root ↔ _ := hpp.verifies_iff_verifyRoot hlt
    rw [flatMap_cons, hkids.preorder_eq hmem, cons_append]
    cases hstep : pp.verifyRoot env root with
    | error e =>
      simp only [verifyRoots, hstep]
      refine ⟨_, _, rfl, .fail hvisit ?_ _ log e⟩
      rw [hverifies, hstep]
      simp
    | ok frame =>
      obtain ⟨hframe, hidx, hnext⟩ := hpp.frameOk_of_verifyRoot hlt hbase hstep
      have htodo : [frame].flatMap (pp.frameTodo kids) =
          (kids root).flatMap (preorder kids pp.depthOf maxDeltaDepth) := by
        rw [flatMap_singleton, frameTodo, hidx, hnext, drop_zero]
      have hlen : ((kids root).flatMap (preorder kids pp.depthOf maxDeltaDepth)).length ≤ pp.objects.length := by
        have hsub : (preorder kids pp.depthOf maxDeltaDepth root).Sublist
            (pp.roots.flatMap (preorder kids pp.depthOf maxDeltaDepth)) :=
          sublist_flatten_of_mem (mem_map_of_mem (hroots root mem_cons_self))
        have hle := hsub.length_le
        rw [hkids.perm_preorder_roots.length_eq, length_range, hkids.preorder_eq hmem, length_cons] at hle
        omega
      have hsteps : 2 * ([frame].flatMap (pp.frameTodo kids)).length + [frame].length ≤ fuel := by
        rw [htodo, length_singleton]
        omega
      obtain ⟨r, log', hrun, hwalk⟩ := exists_verifyWalk hpp hkids
        (forall_mem_singleton.mpr hframe) hsteps (log ++ [⟨root, none⟩])
      rw [htodo] at hwalk
      have hok := hverifies.mpr ⟨frame, hstep⟩
      cases r with
      | error e =>
        refine ⟨.error e, log', ?_, .cons hvisit hok (hwalk.append_fail _)⟩
        simp [verifyRoots, hstep, hrun]
      | ok u =>
        obtain ⟨r, log'', hrest, hwalk'⟩ :=
          ih (fun s hs => hroots s (mem_cons_of_mem _ hs)) log'
        refine ⟨r, log'', ?_, .cons hvisit hok (hwalk.append hwalk')⟩
        simp [verifyRoots, hstep, hrun, hrest]

end

/-- The first walk lists every object, so no accepted pack has a cycle of bases. -/
theorem PackOk.exists_preorder {pp : ParsedPack} (hpp : pp.PackOk) {fuel : ℕ} (hfuel : pp.objects.length ≤ fuel) :
    ∃ order, drain (fun c => (pp.children c).reverse) fuel pp.roots.reverse [] = some order ∧
      order.length = pp.objects.length := by
  have hforest := hpp.isForest.of_perm pp.roots.reverse_perm fun c => (pp.children c).reverse_perm
  have hlen := hforest.perm_preorder_roots.length_eq
  rw [length_range] at hlen
  refine ⟨_, hforest.drain_eq_some (fun i hi => hforest.root_mem hi) (by omega) [], ?_⟩
  rw [nil_append, hlen]

/-- For an accepted pack, `verifyAllOids` is the check of every object by itself: with two steps
for every object it ends, and succeeds with the number of objects exactly when every object decodes
from the whole pack, at its own offset, to bytes with its OID. No object is visited twice, every
object is visited when the check succeeds, and a delta is only ever applied to the decoded bytes of
its own base. -/
theorem verifyAllOids_spec {env : PackEnv} {packBytes idxBytes : Bytes} {pp : ParsedPack}
    (h : parse env packBytes idxBytes = .ok pp) {fuel : ℕ}
    (hfuel : 2 * pp.objects.length + 1 ≤ fuel) :
    ∃ r log, pp.verifyRun env fuel = some (r, log) ∧ pp.verifyAllOids env fuel = some r ∧
      (∀ m, r = .ok m ↔ m = pp.objects.length ∧ ∀ i < pp.objects.length, ∃ t data,
        pp.decodeAt env packBytes 0 (pp.obj i).offset true = .ok (t, data) ∧
          gitOid env t data = (pp.obj i).oid) ∧
      (log.map Visit.obj).Nodup ∧
      (∀ m, r = .ok m → (log.map Visit.obj).Perm (range pp.objects.length)) ∧
      ∀ v ∈ log, pp.VisitOk env v := by
  obtain ⟨hpp, rfl⟩ := packOk_of_parse h
  obtain ⟨order, horder, hlen⟩ := hpp.exists_preorder (by omega : pp.objects.length ≤ fuel)
  set kids := pp.sortedChildren (pp.weights order) with hkidsDef
  have hkids : IsForest (range pp.objects.length) pp.base pp.roots kids pp.depthOf
      maxDeltaDepth := hpp.isForest.of_perm (.refl _) fun c => perm_sortByKey _ _
  have hperm := hkids.perm_preorder_roots
  obtain ⟨r, log, hrun, hwalk⟩ : ∃ r log, pp.verifyRoots env kids fuel pp.roots [] = some (r, log) ∧
      pp.WalkOk env (pp.roots.flatMap (preorder kids pp.depthOf maxDeltaDepth)) [] r log :=
    exists_verifyRoots hpp hkids hfuel (fun _ hroot => hroot) []
  obtain ⟨visits, hlog, hpre, hall, hvisits⟩ := hwalk.visits
  rw [nil_append] at hlog
  subst hlog
  have hwhole : pp.verifyRun env fuel = some (r.map fun _ => pp.objects.length, log) := by
    simp only [verifyRun, horder, Option.bind_eq_bind, Option.bind_some, hlen, ne_eq, not_true,
      if_false, ← hkidsDef, hrun]
    rfl
  have hmap : ∀ m, (r.map fun _ => pp.objects.length) = .ok m ↔
      m = pp.objects.length ∧ r = .ok () := by
    intro m
    cases r <;> simp [Except.map, eq_comm]
  refine ⟨_, _, hwhole, by rw [verifyAllOids, hwhole]; rfl, fun m => ?_, ?_, fun m hm => ?_, ?_⟩
  · rw [hmap, hwalk.ok_iff]
    refine and_congr_right fun _ => forall_congr' fun i => ?_
    rw [hperm.mem_iff, mem_range, Verifies]
  · exact hpre.sublist.nodup hkids.nodup_preorder_roots
  · rw [hall ((hmap m).mp hm).2]
    exact hperm
  · exact hvisits

/-! A pack of two blobs, the second an `OFS_DELTA` on the first. -/

def twoBlobsPack : Bytes :=
  [80, 65, 67, 75, 0, 0, 0, 2, 0, 0, 0, 2,
    56, 120, 156, 75, 76, 132, 0, 0, 13, 172, 3, 9,
    102, 12, 120, 156, 227, 224, 156, 192, 193, 152, 4, 0, 3, 31, 1, 13,
    38, 177, 14, 47, 240, 225, 88, 253, 16, 69, 79, 201, 250, 245, 107, 118, 56, 46, 71, 247]

def firstOid : Bytes :=
  [203, 138, 192, 111, 23, 160, 23, 6, 101, 93, 103, 82, 57, 58, 25, 136, 251, 215, 167, 111]

def secondOid : Bytes :=
  [204, 75, 25, 132, 216, 83, 110, 28, 172, 233, 9, 147, 234, 251, 100, 164, 85, 212, 244, 233]

/-- Its index: fanout, OIDs, checksums, offsets and trailers. -/
def twoBlobsIdx : Bytes :=
  [0xff, 0x74, 0x4f, 0x63, 0, 0, 0, 2]
    ++ (range 256).flatMap
      (fun k => [0, 0, 0, if k < 203 then 0 else if k < 204 then 1 else 2])
    ++ firstOid ++ secondOid
    ++ [216, 211, 78, 99, 124, 206, 179, 188]
    ++ [0, 0, 0, 12, 0, 0, 0, 24]
    ++ twoBlobsPack.drop 40
    ++ [91, 79, 35, 53, 27, 112, 9, 63, 40, 223, 242, 40, 141, 249, 181, 230, 223, 133, 220, 229]

/-- What zlib and the hashes give on the streams and the objects of this pack. -/
def twoBlobsEnv : PackEnv where
  zlibRead compressed _ :=
    if compressed = [120, 156, 75, 76, 132, 0, 0, 13, 172, 3, 9] then
      .ok [97, 97, 97, 97, 97, 97, 97, 97]
    else if compressed = [120, 156, 227, 224, 156, 192, 193, 152, 4, 0, 3, 31, 1, 13] then
      .ok [8, 9, 144, 8, 1, 98]
    else .error "corrupt deflate stream"
  sha1 bytes :=
    if bytes = [98, 108, 111, 98, 32, 56, 0, 97, 97, 97, 97, 97, 97, 97, 97] then firstOid
    else secondOid
  sha256 _ :=
    [219, 107, 124, 122, 146, 160, 135, 64, 12, 125, 209, 249, 173, 240, 53, 119, 132, 248, 2, 104,
      119, 153, 241, 1, 39, 147, 142, 111, 47, 181, 251, 202]

/-- Both blobs verify, each visited once and the delta applied to the first. -/
theorem verifyAllOids_spec_twoBlobs :
    ∃ pp log, parse twoBlobsEnv twoBlobsPack twoBlobsIdx = .ok pp ∧
      pp.verifyRun twoBlobsEnv 5 = some (.ok 2, log) ∧ (log.map Visit.obj).Perm [0, 1] ∧
      ∀ v ∈ log, pp.VisitOk twoBlobsEnv v := by
  have hparse : (parse twoBlobsEnv twoBlobsPack twoBlobsIdx).toOption.map
      (fun pp => (pp.objects.length, pp.verifyAllOids twoBlobsEnv 5)) =
        some (2, some (.ok 2)) := by
    decide +kernel
  cases h : parse twoBlobsEnv twoBlobsPack twoBlobsIdx with
  | error e => simp [h, Except.toOption] at hparse
  | ok pp =>
    simp only [h, Except.toOption, Option.map_some, Option.some.injEq, Prod.mk.injEq] at hparse
    obtain ⟨r, log, hrun, hverify, -, -, hperm, hvisits⟩ :=
      verifyAllOids_spec h (by omega : 2 * pp.objects.length + 1 ≤ 5)
    obtain rfl := Option.some.inj (hverify.symm.trans hparse.2)
    have hall := hperm 2 rfl
    rw [hparse.1] at hall
    exact ⟨pp, log, rfl, hrun, hall, hvisits⟩

end ParsedPack

end DashForge
