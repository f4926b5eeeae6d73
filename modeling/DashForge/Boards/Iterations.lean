import DashForge.Boards.Dates
import DashForge.Boards.Query

/-!
# Iterations

The iterations of an `iter` field (`rules/boards.rs`): ranges of days that follow one another from the field's first
day. A time is in the iteration whose range holds it, and the ranges' dates are read back (`iterations_tile`).
-/

namespace DashForge

open Option

/-- One iteration of an `iter` field. -/
structure IterationRange where
  index : ℤ
  name : String
  /-- The first day. -/
  start : String
  /-- The last day. -/
  last : String
  startMs : ℤ
  /-- The next iteration's start. -/
  endMs : ℤ
deriving DecidableEq, Repr

def iterationRange (field : BoardField) (k : ℤ) : Option IterationRange := do
  let (start, days) ← iterOf field
  if 0 ≤ k ∧ k ≤ iterIndexMax then
    let first := start + k * days
    let next := first + days
    some {
      index := k
      name := field.name ++ " " ++ toString (k + 1)
      start := civilFromDays first
      last := civilFromDays (next - 1)
      startMs := first * dayMs
      endMs := next * dayMs }
  else none

/-- An accepted `iter` field has a first day and a length. -/
theorem iterOf_of_parseFields {env : BoardEnv} {v : Option Value} {fields : List BoardField}
    (h : parseFields env v = .ok fields) {field : BoardField} (hfield : field ∈ fields) (hkind : field.kind = .iter) :
    ∃ start days, iterOf field = some (start, days) ∧ 0 < days ∧ days ≤ iterDaysMax := by
  cases v with
  | none =>
    obtain rfl : [] = fields := by simpa [parseFields] using h
    exact absurd hfield List.not_mem_nil
  | some v =>
    simp only [parseFields, bind_eq_ok, okOr_eq_ok, refuseIf_eq_ok, pure_eq_ok] at h
    obtain ⟨list, -, out, hout, -, -, rfl⟩ := h
    obtain ⟨f, -, hf⟩ := exists_of_mem_mapM hout hfield
    simp only [parseField, bind_eq_ok, okOr_eq_ok, refuseIf_eq_ok] at hf
    obtain ⟨o, -, ⟨id, name⟩, -, kind, -, -, -, -, -, hf⟩ := hf
    cases kind with
    | iter =>
      simp only [bind_eq_ok, okOr_eq_ok, pure_eq_ok] at hf
      obtain ⟨start, hstart, days, hdays, rfl⟩ := hf
      obtain ⟨-, hstart⟩ := filter_eq_some_iff.mp hstart
      obtain ⟨first, hfirst⟩ := isSome_iff_exists.mp hstart
      obtain ⟨hpos, hmax⟩ := intIn_eq_some hdays
      have hcast : (days.toNat : ℤ) = days := Int.toNat_of_nonneg (by omega)
      refine ⟨first, days, ?_, by omega, hmax⟩
      simp [iterOf, Option.filter, hfirst, show 0 < days by omega, hcast]
    | sel =>
      simp only [bind_eq_ok, pure_eq_ok] at hf
      obtain ⟨options, -, rfl⟩ := hf
      cases hkind
    | num | date | text =>
      obtain rfl := pure_eq_ok.mp hf
      cases hkind

section Range

variable {field : BoardField} {start days : ℤ}

theorem iterationAt_eq_some_iff (h : iterOf field = some (start, days)) {ms k : ℤ} :
    iterationAt field ms = some k ↔ (ms / dayMs - start) / days = k ∧ 0 ≤ k ∧ k ≤ iterIndexMax := by
  simp only [iterationAt, h, some_bind, ite_none_right_eq_some, some.injEq]
  constructor
  · rintro ⟨hk, rfl⟩
    exact ⟨rfl, hk⟩
  · rintro ⟨rfl, hk⟩
    exact ⟨hk, rfl⟩

theorem iteration_eq_iff (hdays : 0 < days) {ms k : ℤ} : (ms / dayMs - start) / days = k ↔
    (start + k * days) * dayMs ≤ ms ∧ ms < (start + k * days + days) * dayMs := by
  have hday : 0 < dayMs := by decide
  rw [Int.ediv_eq_iff_of_pos hdays, ← Int.le_ediv_iff_mul_le hday, ← Int.ediv_lt_iff_lt_mul hday]
  constructor <;> rintro ⟨hlow, hhigh⟩ <;> constructor <;> linarith

end Range

/-- Whether a day is in the years 1–9999. -/
def InYears (day : ℤ) : Prop := 1 ≤ (civilOf day).1 ∧ (civilOf day).1 ≤ 9999

/-- Iteration `k` of a field holds exactly the times of its range, which ends where the next one starts; the dates of
its first and last days are read back. -/
structure Tile (field : BoardField) (k : ℤ) (range : IterationRange) : Prop where
  holds : ∀ ms, iterationAt field ms = some k ↔ range.startMs ≤ ms ∧ ms < range.endMs
  next : ∀ range', iterationRange field (k + 1) = some range' → range'.startMs = range.endMs
  start : InYears (range.startMs / dayMs) → dateDays range.start = some (range.startMs / dayMs)
  last : InYears (range.endMs / dayMs - 1) → dateDays range.last = some (range.endMs / dayMs - 1)

theorem tile_of_iterOf {field : BoardField} {start days : ℤ} (h : iterOf field = some (start, days)) (hdays : 0 < days)
    {k : ℤ} (hk : 0 ≤ k) (hk' : k ≤ iterIndexMax) :
    ∃ range, iterationRange field k = some range ∧ Tile field k range := by
  have hrange : ∀ j, 0 ≤ j → j ≤ iterIndexMax → iterationRange field j = some {
      index := j, name := field.name ++ " " ++ toString (j + 1), start := civilFromDays (start + j * days),
      last := civilFromDays (start + j * days + days - 1), startMs := (start + j * days) * dayMs,
      endMs := (start + j * days + days) * dayMs } := fun j hj hj' => by
    simp [iterationRange, h, some_bind, hj, hj']
  have hday : ∀ n : ℤ, n * dayMs / dayMs = n := fun n => Int.mul_ediv_cancel n (by decide)
  refine ⟨_, hrange k hk hk', fun ms => ?_, fun range' hnext => ?_, ?_, ?_⟩
  · rw [iterationAt_eq_some_iff h, iteration_eq_iff hdays]
    exact and_iff_left ⟨hk, hk'⟩
  · by_cases hlast : k + 1 ≤ iterIndexMax
    · rw [hrange (k + 1) (by omega) hlast] at hnext
      obtain rfl := some.inj hnext
      show (start + (k + 1) * days) * dayMs = (start + k * days + days) * dayMs
      rw [add_mul k, one_mul, add_assoc]
    · simp [iterationRange, h, hlast] at hnext
  · show InYears ((start + k * days) * dayMs / dayMs) → _
    intro hyears
    rw [hday] at hyears ⊢
    exact dateDays_civilFromDays hyears.1 hyears.2
  · show InYears ((start + k * days + days) * dayMs / dayMs - 1) → _
    intro hyears
    rw [hday] at hyears ⊢
    exact dateDays_civilFromDays hyears.1 hyears.2

/-- The iterations of every accepted `iter` field tile the calendar, whose dates and days are inverse to each other and
in the same order. -/
theorem iterations_tile :
    (∀ (env : BoardEnv) (v : Option Value) (fields : List BoardField), parseFields env v = .ok fields →
      ∀ field ∈ fields, field.kind = .iter → ∀ k, 0 ≤ k → k ≤ iterIndexMax →
        ∃ range, iterationRange field k = some range ∧ Tile field k range) ∧
    (∀ s n, dateDays s = some n → civilFromDays n = s) ∧
    (∀ n, InYears n → dateDays (civilFromDays n) = some n) ∧
    ∀ s s' n n', dateDays s = some n → dateDays s' = some n' → (s < s' ↔ n < n') := by
  refine ⟨fun env v fields h field hfield hkind k hk hk' => ?_, fun _ _ h => civilFromDays_of_dateDays h,
    fun _ h => dateDays_civilFromDays h.1 h.2, fun _ _ _ _ h h' => dateDays_lt_iff h h'⟩
  obtain ⟨start, days, hiter, hdays, -⟩ := iterOf_of_parseFields h hfield hkind
  exact tile_of_iterOf hiter hdays hk hk'

/-- Two weeks from a Monday on, as a definition has them. -/
def sprintJson : Value :=
  .obj [("id", .num 2), ("name", .str "sprint"), ("type", .str "iter"), ("start", .str "2026-01-05"), ("days", .num 14)]

theorem iterations_tile_sample : ∃ range, iterationRange
      ⟨2, "sprint", .iter, none, some "2026-01-05", some 14⟩ 1 = some range ∧ range.start = "2026-01-19" ∧
    Tile ⟨2, "sprint", .iter, none, some "2026-01-05", some 14⟩ 1 range := by
  have hfields : parseFields ⟨fun _ => none, fun _ => "", fun s => s, fun _ => none⟩ (some (.arr [sprintJson])) =
      .ok [⟨2, "sprint", .iter, none, some "2026-01-05", some 14⟩] := by decide +kernel
  obtain ⟨range, hrange, htile⟩ := iterations_tile.1 _ _ _ hfields _ List.mem_cons_self rfl 1 (by decide) (by decide)
  have hstart : (iterationRange ⟨2, "sprint", .iter, none, some "2026-01-05", some 14⟩ 1).map IterationRange.start =
      some "2026-01-19" := by decide +kernel
  rw [hrange, map_some] at hstart
  exact ⟨range, hrange, some.inj hstart, htile⟩

end DashForge
