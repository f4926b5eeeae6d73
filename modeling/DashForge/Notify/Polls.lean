import DashForge.Notify.Addressed
import Mathlib.Data.Finset.Card

/-!
# Polling with one cursor

No document is passed over as long as the two pages a poll merges leave none out below what they keep, and none
lands at a time the poll has reached (`Meets`): then the cursor stays below every document that was not handled
(`Inv`), and each poll that runs to its end either handles a given document or moves the cursor to a document
before it (`poll_spec`). A document that lands at the cursor's own time is never read (`landed_at_cursor`).
-/

namespace DashForge.Notify

open List

/-! ### Merging -/

variable {viaAuthor : Bool} {d : Row} {page docs rest : List Row} {b : List Addressed} {x : Addressed} {since : ℕ}
  {act : Act}

variable {a : Addressed} {wanted : Wanted} {reads : Reads} {calls : Calls} {o : Outcome} {st₁ : State} {n : ℕ}

theorem createdAt_addressed (h : addressed? viaAuthor d = some a) : a.createdAt = d.createdAt := by
  simp only [addressed?, Option.bind_eq_bind, Option.bind_eq_some_iff, Option.pure_def, Option.some.injEq] at h
  obtain ⟨_, -, _, -, _, -, rfl⟩ := h
  rfl

theorem viaAuthor_addressed (h : addressed? viaAuthor d = some a) : a.viaAuthor = viaAuthor := by
  simp only [addressed?, Option.bind_eq_bind, Option.bind_eq_some_iff, Option.pure_def, Option.some.injEq] at h
  obtain ⟨_, -, _, -, _, -, rfl⟩ := h
  rfl

theorem mem_addressedOf : a ∈ addressedOf viaAuthor page ↔ ∃ d ∈ page, addressed? viaAuthor d = some a :=
  mem_filterMap

theorem mem_mergePages {a : List Addressed} :
    x ∈ mergePages a b ↔ (x ∈ a ∨ x ∈ b) ∧ ∀ h, horizon a b = some h → x.createdAt ≤ h := by
  simp [mergePages, Option.all_eq_true, or_and_right]

theorem mem_mergePages_of_le {a : List Addressed} {y : Addressed} (hx : x ∈ a ∨ x ∈ b) (hy : y ∈ mergePages a b)
    (hle : x.createdAt ≤ y.createdAt) : x ∈ mergePages a b :=
  mem_mergePages.mpr ⟨hx, fun h hh => hle.trans ((mem_mergePages.mp hy).2 h hh)⟩

theorem mergePages_ne_nil {a : List Addressed} (h : a ≠ [] ∨ b ≠ []) : mergePages a b ≠ [] := by
  cases hhorizon : horizon a b with
  | none =>
    obtain ⟨x, hx⟩ : ∃ x, x ∈ a ∨ x ∈ b := by
      rcases h with h | h
      · exact ⟨_, .inl (head_mem h)⟩
      · exact ⟨_, .inr (head_mem h)⟩
    exact ne_nil_of_mem (mem_mergePages.mpr ⟨hx, fun h hh => by rw [hhorizon] at hh; cases hh⟩)
  | some t =>
    obtain ⟨page, hpage, hmax⟩ := mem_filterMap.mp (min?_mem hhorizon)
    obtain ⟨x, hx, rfl⟩ := mem_map.mp (max?_mem hmax)
    have hxab : x ∈ a ∨ x ∈ b := by
      rcases mem_pair.mp (mem_filter.mp hpage).1 with rfl | rfl
      · exact .inl hx
      · exact .inr hx
    exact ne_nil_of_mem (mem_mergePages.mpr ⟨hxab, fun h hh => (Option.some.inj (hhorizon.symm.trans hh)).le⟩)

theorem IsPage.mem (h : IsPage docs since page rest)
    (hd : d ∈ docs) (hsince : since < d.createdAt) : d ∈ page ∨ d ∈ rest :=
  mem_append.mp (h.perm.mem_iff.mpr (mem_filter.mpr ⟨hd, decide_eq_true hsince⟩))

theorem IsPage.mem_docs (h : IsPage docs since page rest) (hd : d ∈ page) : d ∈ docs :=
  (mem_filter.mp (h.perm.mem_iff.mp (mem_append_left _ hd))).1

theorem IsPage.since_lt (h : IsPage docs since page rest) (hd : d ∈ page) : since < d.createdAt :=
  of_decide_eq_true (mem_filter.mp (h.perm.mem_iff.mp (mem_append_left _ hd))).2

/-! ### Runs -/

namespace State

variable (st : State)

/-- The rows that landed. -/
def landed : List Addressed := addressedOf false st.events ++ addressedOf true st.authorEvents

/-- What came of a row when a loop last came to it. -/
def lastOutcome (a : Addressed) : Option Outcome := (st.history.find? fun x => x.1 = a).map Prod.snd

/-- The last loop that came to a row refused it, or its delivery returned without an error. -/
def Settled (a : Addressed) : Prop := ∃ o, st.lastOutcome a = some o ∧ o ≠ .failed

/-- The times of the documents between the cursor and a row. -/
def ahead (a : Addressed) : Finset ℕ :=
  (st.landed.map Addressed.createdAt).toFinset.filter fun t => st.cursor < t ∧ t ≤ a.createdAt

end State

/-- The condition on a step. A document lands later than the cursor and than what a loop has before it. What the
first query left out or that landed since, and what the second leaves out, is later than what the merge keeps. A
page that is full has a row with its fields. -/
def Meets (st : State) : Act → Prop
  | .land _ d => st.cursor < d.createdAt ∧
    match st.phase with
    | .handling _ cursor found => cursor < d.createdAt ∧ ∀ x ∈ found, x.createdAt < d.createdAt
    | _ => True
  | .queryEvents page rest => rest ≠ [] → addressedOf false page ≠ []
  | .queryAuthorEvents page rest => (rest ≠ [] → addressedOf true page ≠ []) ∧
    match st.phase with
    | .readEvents _ _ events landed cut => ∀ d ∈ st.events.drop landed ++ cut ++ rest,
      ∀ x ∈ mergePages events (addressedOf true page), x.createdAt < d.createdAt
    | _ => True
  | _ => True

variable {w : Service} {P : State → Act → Prop} {st st' : State} {c : ℕ}

/-- The states of runs whose steps all meet `P`, from a stored cursor. -/
inductive Run (w : Service) (P : State → Act → Prop) (c : ℕ) : State → Prop
  | start (events authorEvents : List Row) (marks : Finset String) :
    Run w P c { events, authorEvents, marks, cursor := c }
  | step {st st' : State} {act : Act} (hrun : Run w P c st) (hact : P st act) (h : w.step st act = some st') :
    Run w P c st'

/-- Steps that all meet `P`. -/
inductive Steps (w : Service) (P : State → Act → Prop) : State → State → Prop
  | refl (st : State) : Steps w P st st
  | tail {st st₁ st₂ : State} {act : Act} (h : Steps w P st st₁) (hact : P st₁ act)
    (hstep : w.step st₁ act = some st₂) :
    Steps w P st st₂

/-- Steps from the start of a poll, while it runs. -/
inductive Polling (w : Service) (P : State → Act → Prop) (st : State) : State → Prop
  | start {st₁ : State} (wanted : Wanted) (hact : P st (.start wanted)) (h : w.step st (.start wanted) = some st₁) :
    Polling w P st st₁
  | step {st₁ st₂ : State} {act : Act} (h : Polling w P st st₁) (hact : P st₁ act) (hstep : w.step st₁ act = some st₂)
    (hphase : st₂.phase ≠ .idle) : Polling w P st st₂

/-- Steps in which `n` polls start and run to their end. -/
inductive Completes (w : Service) (P : State → Act → Prop) : ℕ → State → State → Prop
  | zero {st st' : State} (h : Steps w P st st') : Completes w P 0 st st'
  | succ {n : ℕ} {st st₁ st₂ st₃ st' : State} (h : Completes w P n st st₁) (hpoll : Polling w P st₁ st₂)
    (hact : P st₂ (.store true)) (hend : w.step st₂ (.store true) = some st₃) (hrest : Steps w P st₃ st') :
    Completes w P (n + 1) st st'

/-! ### What a step does -/

theorem step_land (h : w.step st (.land viaAuthor d) = some st') :
    (∀ d' ∈ st.events ++ st.authorEvents, d'.createdAt ≤ d.createdAt) ∧ st'.cursor = st.cursor ∧
      st'.history = st.history ∧ st'.phase = st.phase ∧ (∃ new, st'.events = st.events ++ new) ∧
      ∀ a, a ∈ st'.landed ↔ a ∈ st.landed ∨ addressed? viaAuthor d = some a := by
  rw [Service.step] at h
  split at h
  · next hlast =>
    obtain rfl := Option.some.inj h
    refine ⟨hlast, ?_⟩
    cases viaAuthor with
    | false =>
      refine ⟨rfl, rfl, rfl, ⟨[d], rfl⟩, fun a => ?_⟩
      simp [State.landed, mem_addressedOf, or_assoc, or_comm]
    | true =>
      refine ⟨rfl, rfl, rfl, ⟨[], (append_nil _).symm⟩, fun a => ?_⟩
      simp [State.landed, mem_addressedOf, or_assoc]
  · cases h

theorem step_start (h : w.step st (.start wanted) = some st') :
    st.phase = .idle ∧ st' = { st with phase := .reading wanted st.cursor } := by
  rw [Service.step] at h
  split at h
  · next hphase => exact ⟨hphase, (Option.some.inj h).symm⟩
  · cases h

theorem step_queryEvents (h : w.step st (.queryEvents page rest) = some st') :
    ∃ wanted since, st.phase = .reading wanted since ∧ IsPage st.events since page rest ∧
      st' = { st with phase := .readEvents wanted since (addressedOf false page) st.events.length rest } := by
  rw [Service.step] at h
  split at h
  · next wanted since hphase =>
    split at h
    · next hpage => exact ⟨wanted, since, hphase, hpage, (Option.some.inj h).symm⟩
    · cases h
  · cases h

theorem step_queryAuthorEvents (h : w.step st (.queryAuthorEvents page rest) = some st') :
    ∃ wanted since events landed cut, st.phase = .readEvents wanted since events landed cut ∧
      IsPage st.authorEvents since page rest ∧
      st' = { st with phase := .handling wanted since (mergePages events (addressedOf true page)) } := by
  rw [Service.step] at h
  split at h
  · next wanted since events landed cut hphase =>
    split at h
    · next hpage => exact ⟨wanted, since, events, landed, cut, hphase, hpage, (Option.some.inj h).symm⟩
    · cases h
  · cases h

/-- A loop goes on unless a read or the delivery failed. -/
theorem step_handle (h : w.step st (.handle reads calls) = some st') :
    ∃ wanted cursor a found o, st.phase = .handling wanted cursor (a :: found) ∧
      st'.history = (a, o) :: st.history ∧ st'.cursor = st.cursor ∧ st'.events = st.events ∧
      st'.authorEvents = st.authorEvents ∧ (o = .failed ∧ st'.phase = .idle ∨
        o ≠ .failed ∧ st'.phase = .handling wanted (max cursor a.createdAt) found) := by
  rw [Service.step] at h
  split at h
  · next wanted cursor a found hphase =>
    obtain rfl := Option.some.inj h
    rw [Service.handle]
    split
    · exact ⟨wanted, cursor, a, found, .failed, hphase, rfl, rfl, rfl, rfl, .inl ⟨rfl, rfl⟩⟩
    · exact ⟨wanted, cursor, a, found, .refused, hphase, rfl, rfl, rfl, rfl, .inr ⟨nofun, rfl⟩⟩
    · next n _ =>
      cases hok : (deliver w.dispatcher calls st.marks n).ok with
      | false =>
        exact ⟨wanted, cursor, a, found, .failed, hphase, by simp [hok], rfl, rfl, rfl, .inl ⟨rfl, by simp [hok]⟩⟩
      | true =>
        exact ⟨wanted, cursor, a, found, .delivered, hphase, by simp [hok], rfl, rfl, rfl, .inr ⟨nofun, by simp [hok]⟩⟩
  · cases h

theorem step_store {ok : Bool} (h : w.step st (.store ok) = some st') : ∃ wanted cursor,
    st.phase = .handling wanted cursor [] ∧
      st' = { st with cursor := if ok then cursor else st.cursor, phase := .idle } := by
  rw [Service.step] at h
  split at h
  · next wanted cursor hphase => exact ⟨wanted, cursor, hphase, (Option.some.inj h).symm⟩
  · cases h

/-! ### Nothing is passed over -/

theorem lastOutcome_cons (h : st'.history = (x, o) :: st.history) (a : Addressed) :
    st'.lastOutcome a = if x = a then some o else st.lastOutcome a := by
  rw [State.lastOutcome, h, find?_cons]
  split
  · next heq => rw [if_pos (of_decide_eq_true heq), Option.map_some]
  · next hne => rw [if_neg (of_decide_eq_false hne), State.lastOutcome]

theorem State.Settled.cons (h : st'.history = (x, o) :: st.history)
    (ha : st.Settled a) (hx : o ≠ .failed ∨ x ≠ a) : st'.Settled a := by
  rw [State.Settled, lastOutcome_cons h]
  split
  · next heq => exact ⟨o, rfl, hx.resolve_right (not_not.mpr heq)⟩
  · exact ha

/-- What holds of the poll in flight: its loop has before it all that is not later than what it has before it. -/
def PhaseInv (st : State) : Prop :=
  match st.phase with
  | .idle => True
  | .reading _ since => since = st.cursor
  | .readEvents _ since events landed cut => since = st.cursor ∧ landed ≤ st.events.length ∧
    (∀ x ∈ events, st.cursor < x.createdAt) ∧ ∀ d ∈ st.events.take landed, st.cursor < d.createdAt →
      d ∈ cut ∨ ∀ a, addressed? false d = some a → a ∈ events
  | .handling _ cursor found => st.cursor ≤ cursor ∧ (∀ x ∈ found, st.cursor < x.createdAt) ∧
    ∀ a ∈ st.landed, st.cursor < a.createdAt → (a.createdAt ≤ cursor ∨ ∃ x ∈ found, a.createdAt ≤ x.createdAt) →
      st.Settled a ∨ a ∈ found

/-- Every row up to the cursor is settled. -/
structure Inv (c : ℕ) (st : State) : Prop where
  le_cursor : c ≤ st.cursor
  settled : ∀ a ∈ st.landed, c < a.createdAt → a.createdAt ≤ st.cursor → st.Settled a
  phase : PhaseInv st

namespace Inv

theorem land (h : Inv c st) (hmeets : Meets st (.land viaAuthor d))
    (hstep : w.step st (.land viaAuthor d) = some st') : Inv c st' := by
  obtain ⟨-, hcursor, hhistory, hphase, ⟨new, hevents⟩, hlanded⟩ := step_land hstep
  have hsettled : ∀ a, st.Settled a → st'.Settled a := fun a ha => by
    rwa [State.Settled, State.lastOutcome, hhistory]
  refine ⟨hcursor ▸ h.le_cursor, fun a ha hc hle => ?_, ?_⟩
  · rw [hcursor] at hle
    rcases (hlanded a).mp ha with ha | ha
    · exact hsettled a (h.settled a ha hc hle)
    · have := hmeets.1
      rw [← createdAt_addressed ha] at this
      omega
  · have hinv := h.phase
    rw [PhaseInv] at hinv ⊢
    rw [hphase, hcursor]
    cases hp : st.phase with
    | idle => trivial
    | reading wanted since => simpa only [hp] using hinv
    | readEvents wanted since events landed cut =>
      simp only [hp] at hinv ⊢
      obtain ⟨hsince, hle, hgt, hcover⟩ := hinv
      rw [hevents, length_append, take_append_of_le_length hle]
      exact ⟨hsince, by omega, hgt, hcover⟩
    | handling wanted cursor found =>
      simp only [hp] at hinv ⊢
      obtain ⟨hle, hgt, hcover⟩ := hinv
      refine ⟨hle, hgt, fun a ha hlt hor => ?_⟩
      rcases (hlanded a).mp ha with ha | ha
      · exact (hcover a ha hlt hor).imp_left (hsettled a)
      · -- what lands is later than all the loop has before it
        have hlater := hmeets.2
        rw [hp] at hlater
        rw [createdAt_addressed ha] at hor
        rcases hor with hle' | ⟨x, hx, hle'⟩
        · exact absurd hlater.1 (not_lt.mpr hle')
        · have := hlater.2 x hx
          omega

theorem handle (h : Inv c st) {reads : Reads} {calls : Calls} (hstep : w.step st (.handle reads calls) = some st') :
    Inv c st' := by
  obtain ⟨wanted, cursor, x, found, o, hphase, hhistory, hcursor, hevents, hauthor, hcases⟩ := step_handle hstep
  have hinv := h.phase
  simp only [PhaseInv, hphase] at hinv
  obtain ⟨hle, hgt, hcover⟩ := hinv
  have hlanded : st'.landed = st.landed := by rw [State.landed, hevents, hauthor, State.landed]
  refine ⟨hcursor ▸ h.le_cursor, fun a ha hc hle' => ?_, ?_⟩
  · -- what the loop comes to is past the cursor
    rw [hcursor] at hle'
    rw [hlanded] at ha
    refine (h.settled a ha hc hle').cons hhistory (.inr fun heq => ?_)
    have := hgt x mem_cons_self
    rw [heq] at this
    omega
  · rcases hcases with ⟨-, hidle⟩ | ⟨ho, hnext⟩
    · simp [PhaseInv, hidle]
    · simp only [PhaseInv, hnext, hcursor, hlanded]
      refine ⟨hle.trans (le_max_left _ _), fun y hy => hgt y (mem_cons_of_mem _ hy), fun a ha hlt hor => ?_⟩
      have hbefore : a.createdAt ≤ cursor ∨ ∃ y ∈ x :: found, a.createdAt ≤ y.createdAt := by
        rcases hor with hle' | ⟨y, hy, hle'⟩
        · exact (le_max_iff.mp hle').imp_right fun hle' => ⟨x, mem_cons_self, hle'⟩
        · exact .inr ⟨y, mem_cons_of_mem _ hy, hle'⟩
      rcases hcover a ha hlt hbefore with hsettled | hmem
      · exact .inl (hsettled.cons hhistory (.inl ho))
      · rcases mem_cons.mp hmem with rfl | hmem
        · exact .inl ⟨o, by rw [lastOutcome_cons hhistory, if_pos rfl], ho⟩
        · exact .inr hmem

theorem queryAuthorEvents (h : Inv c st) (hmeets : Meets st (.queryAuthorEvents page rest))
    (hstep : w.step st (.queryAuthorEvents page rest) = some st') : Inv c st' := by
  obtain ⟨wanted, since, events, landed, cut, hphase, hpage, rfl⟩ := step_queryAuthorEvents hstep
  have hinv := h.phase
  have hlater := hmeets.2
  simp only [PhaseInv, hphase] at hinv hlater
  obtain ⟨rfl, -, hgt, hcover⟩ := hinv
  refine ⟨h.le_cursor, h.settled, le_rfl, fun x hx => ?_, fun a ha hlt hor => .inr ?_⟩
  · rcases (mem_mergePages.mp hx).1 with hx | hx
    · exact hgt x hx
    · obtain ⟨d, hd, hxd⟩ := mem_addressedOf.mp hx
      exact createdAt_addressed hxd ▸ hpage.since_lt hd
  · obtain ⟨x, hx, hle⟩ := hor.resolve_left (not_le.mpr hlt)
    refine mem_mergePages_of_le ?_ hx hle
    have hnot : ∀ d ∈ st.events.drop landed ++ cut ++ rest, a.createdAt ≠ d.createdAt := fun d hd heq => by
      have := hlater d hd x hx
      omega
    rcases mem_append.mp ha with ha | ha
    · obtain ⟨d, hd, had⟩ := mem_addressedOf.mp ha
      have htime := createdAt_addressed had
      rw [← take_append_drop landed st.events] at hd
      rcases mem_append.mp hd with hd | hd
      · rcases hcover d hd (htime ▸ hlt) with hd | hd
        · exact absurd htime (hnot d (by simp [hd]))
        · exact .inl (hd a had)
      · exact absurd htime (hnot d (by simp [hd]))
    · obtain ⟨d, hd, had⟩ := mem_addressedOf.mp ha
      have htime := createdAt_addressed had
      rcases hpage.mem hd (htime ▸ hlt) with hd | hd
      · exact .inr (mem_addressedOf.mpr ⟨d, hd, had⟩)
      · exact absurd htime (hnot d (by simp [hd]))

theorem step (h : Inv c st) (hmeets : Meets st act) (hstep : w.step st act = some st') : Inv c st' := by
  cases act with
  | land viaAuthor d => exact h.land hmeets hstep
  | start wanted =>
    obtain ⟨-, rfl⟩ := step_start hstep
    exact ⟨h.le_cursor, h.settled, rfl⟩
  | queryEvents page rest =>
    obtain ⟨wanted, since, hphase, hpage, rfl⟩ := step_queryEvents hstep
    have hinv := h.phase
    simp only [PhaseInv, hphase] at hinv
    subst hinv
    refine ⟨h.le_cursor, h.settled, rfl, le_rfl, fun x hx => ?_, fun d hd hlt => ?_⟩
    · obtain ⟨d, hd, hxd⟩ := mem_addressedOf.mp hx
      exact createdAt_addressed hxd ▸ hpage.since_lt hd
    · rw [take_length] at hd
      rcases hpage.mem hd hlt with hd | hd
      · exact .inr fun a ha => mem_addressedOf.mpr ⟨d, hd, ha⟩
      · exact .inl hd
  | queryAuthorEvents page rest => exact h.queryAuthorEvents hmeets hstep
  | handle reads calls => exact h.handle hstep
  | store ok =>
    obtain ⟨wanted, cursor, hphase, rfl⟩ := step_store hstep
    have hinv := h.phase
    simp only [PhaseInv, hphase] at hinv
    obtain ⟨hle, -, hcover⟩ := hinv
    cases ok with
    | false => exact ⟨h.le_cursor, h.settled, trivial⟩
    | true =>
      refine ⟨h.le_cursor.trans hle, fun a ha hc hle' => ?_, trivial⟩
      by_cases hlt : st.cursor < a.createdAt
      · exact (hcover a ha hlt (.inl hle')).resolve_right (by simp)
      · exact h.settled a ha hc (not_lt.mp hlt)

end Inv

theorem Run.inv (h : Run w Meets c st) : Inv c st := by
  induction h with
  | start events authorEvents marks => exact ⟨le_rfl, fun a _ hc hle => absurd hc (not_lt.mpr hle), trivial⟩
  | step _ hact hstep ih => exact ih.step hact hstep

theorem Run.next (h : Run w P c st) (act : Act) (hact : P st act) (hstep : w.step st act = some st') : Run w P c st' :=
  h.step hact hstep

theorem Run.mono {Q : State → Act → Prop} (h : Run w P c st) (hPQ : ∀ st act, P st act → Q st act) : Run w Q c st := by
  induction h with
  | start events authorEvents marks => exact .start events authorEvents marks
  | step _ hact hstep ih => exact ih.step (hPQ _ _ hact) hstep

/-! ### Every poll gets on -/

theorem exists_row_of_mem_landed (ha : a ∈ st.landed) :
    ∃ d ∈ st.events ++ st.authorEvents, d.createdAt = a.createdAt := by
  rcases mem_append.mp ha with ha | ha
  · obtain ⟨d, hd, had⟩ := mem_addressedOf.mp ha
    exact ⟨d, mem_append_left _ hd, (createdAt_addressed had).symm⟩
  · obtain ⟨d, hd, had⟩ := mem_addressedOf.mp ha
    exact ⟨d, mem_append_right _ hd, (createdAt_addressed had).symm⟩

theorem mem_events (ha : a ∈ st.landed) (hvia : a.viaAuthor = false) : a ∈ addressedOf false st.events := by
  rcases mem_append.mp ha with ha | ha
  · exact ha
  · obtain ⟨d, -, had⟩ := mem_addressedOf.mp ha
    exact absurd (viaAuthor_addressed had) (by simp [hvia])

theorem mem_authorEvents (ha : a ∈ st.landed) (hvia : a.viaAuthor = true) : a ∈ addressedOf true st.authorEvents := by
  rcases mem_append.mp ha with ha | ha
  · obtain ⟨d, -, had⟩ := mem_addressedOf.mp ha
    exact absurd (viaAuthor_addressed had) (by simp [hvia])
  · exact ha

/-- What lands is not below what landed before. -/
theorem landed_step (hstep : w.step st act = some st') (ha : a ∈ st.landed) :
    (∀ x ∈ st.landed, x ∈ st'.landed) ∧ ∀ x ∈ st'.landed, x ∈ st.landed ∨ a.createdAt ≤ x.createdAt := by
  have hsame : st'.events = st.events → st'.authorEvents = st.authorEvents →
      (∀ x ∈ st.landed, x ∈ st'.landed) ∧ ∀ x ∈ st'.landed, x ∈ st.landed ∨ a.createdAt ≤ x.createdAt := by
    intro hevents hauthor
    have hlanded : st'.landed = st.landed := by rw [State.landed, hevents, hauthor, State.landed]
    rw [hlanded]
    exact ⟨fun _ => id, fun _ => .inl⟩
  cases act with
  | land viaAuthor d =>
    obtain ⟨hlast, -, -, -, -, hlanded⟩ := step_land hstep
    obtain ⟨d', hd', htime⟩ := exists_row_of_mem_landed ha
    refine ⟨fun x hx => (hlanded x).mpr (.inl hx), fun x hx => ((hlanded x).mp hx).imp_right fun hx => ?_⟩
    rw [createdAt_addressed hx, ← htime]
    exact hlast d' hd'
  | start wanted => exact (step_start hstep).2 ▸ hsame (by rw [(step_start hstep).2]) (by rw [(step_start hstep).2])
  | queryEvents page rest =>
    obtain ⟨_, _, -, -, rfl⟩ := step_queryEvents hstep
    exact hsame rfl rfl
  | queryAuthorEvents page rest =>
    obtain ⟨_, _, _, _, _, -, -, rfl⟩ := step_queryAuthorEvents hstep
    exact hsame rfl rfl
  | handle reads calls =>
    obtain ⟨-, -, -, -, -, -, -, -, hevents, hauthor, -⟩ := step_handle hstep
    exact hsame hevents hauthor
  | store ok =>
    obtain ⟨_, _, -, rfl⟩ := step_store hstep
    exact hsame rfl rfl

theorem cursor_eq_of_phase_ne (hstep : w.step st act = some st') (hphase : st'.phase ≠ .idle) :
    st'.cursor = st.cursor := by
  cases act with
  | land viaAuthor d => exact (step_land hstep).2.1
  | start wanted => rw [(step_start hstep).2]
  | queryEvents page rest =>
    obtain ⟨_, _, -, -, rfl⟩ := step_queryEvents hstep
    rfl
  | queryAuthorEvents page rest =>
    obtain ⟨_, _, _, _, _, -, -, rfl⟩ := step_queryAuthorEvents hstep
    rfl
  | handle reads calls =>
    obtain ⟨-, -, -, -, -, -, -, hcursor, -⟩ := step_handle hstep
    exact hcursor
  | store ok =>
    obtain ⟨_, _, -, rfl⟩ := step_store hstep
    exact absurd rfl hphase

theorem Inv.cursor_le (h : Inv c st) (hstep : w.step st act = some st') : st.cursor ≤ st'.cursor := by
  by_cases hphase : st'.phase = .idle
  · cases act with
    | store ok =>
      obtain ⟨wanted, cursor, hhandling, rfl⟩ := step_store hstep
      have hinv := h.phase
      simp only [PhaseInv, hhandling] at hinv
      cases ok with
      | false => exact le_rfl
      | true => exact hinv.1
    | land viaAuthor d => exact (step_land hstep).2.1.ge
    | start wanted => rw [(step_start hstep).2]
    | queryEvents page rest =>
      obtain ⟨_, _, -, -, rfl⟩ := step_queryEvents hstep
      exact le_rfl
    | queryAuthorEvents page rest =>
      obtain ⟨_, _, _, _, _, -, -, rfl⟩ := step_queryAuthorEvents hstep
      exact le_rfl
    | handle reads calls =>
      obtain ⟨-, -, -, -, -, -, -, hcursor, -⟩ := step_handle hstep
      exact hcursor.ge
  · exact (cursor_eq_of_phase_ne hstep hphase).ge

/-- What a poll that started at `st₁` has reached: a document that is not past the row `a`. -/
structure Advances (st₁ : State) (a : Addressed) (st : State) : Prop where
  cursor : st.cursor = st₁.cursor
  mono : ∀ x ∈ st₁.landed, x ∈ st.landed
  landed : ∀ x ∈ st.landed, x ∈ st₁.landed ∨ a.createdAt ≤ x.createdAt
  phase : match st.phase with
    | .idle => False
    | .reading _ _ => True
    | .readEvents _ _ events landed cut => (cut ≠ [] → events ≠ []) ∧ (∀ x ∈ events, x ∈ st.landed) ∧
      (a ∈ addressedOf false st₁.events → a ∈ addressedOf false (st.events.take landed))
    | .handling _ cursor found => ∃ t ∈ st₁.ahead a, t ≤ cursor ∨ ∃ x ∈ found, t ≤ x.createdAt

namespace Advances

variable {st₁ : State} {a : Addressed}

theorem mem_ahead (hx : x ∈ st.landed) (hlt : st.cursor < x.createdAt) (hle : x.createdAt ≤ a.createdAt) :
    x.createdAt ∈ st.ahead a :=
  Finset.mem_filter.mpr ⟨mem_toFinset.mpr (mem_map_of_mem hx), hlt, hle⟩

variable (h : Advances st₁ a st) (hinv : Inv c st) (ha : a ∈ st₁.landed) (hlt : st₁.cursor < a.createdAt)

include h hinv ha hlt in
theorem queryAuthorEvents (hmeets : Meets st (.queryAuthorEvents page rest))
    (hstep : w.step st (.queryAuthorEvents page rest) = some st') : Advances st₁ a st' := by
  obtain ⟨wanted, since, events, landed, cut, hphase, hpage, rfl⟩ := step_queryAuthorEvents hstep
  have hp := hinv.phase
  have hready := h.phase
  simp only [PhaseInv, hphase] at hp hready
  obtain ⟨rfl, -, hgt, hcover⟩ := hp
  obtain ⟨hcut, hevents, htake⟩ := hready
  refine ⟨h.cursor, h.mono, h.landed, ?_⟩
  -- the merge keeps something, as `a` itself is past the cursor
  have hsome : events ≠ [] ∨ addressedOf true page ≠ [] := by
    rcases mem_append.mp ha with hevent | hauthor
    · obtain ⟨d, hd, had⟩ := mem_addressedOf.mp (htake hevent)
      rcases hcover d hd (by rw [h.cursor, ← createdAt_addressed had]; exact hlt) with hd | hd
      · exact .inl (hcut (ne_nil_of_mem hd))
      · exact .inl (ne_nil_of_mem (hd a had))
    · obtain ⟨_, -, hvia⟩ := mem_addressedOf.mp hauthor
      obtain ⟨d, hd, had⟩ := mem_addressedOf.mp (mem_authorEvents (h.mono a ha) (viaAuthor_addressed hvia))
      rcases hpage.mem hd (by rw [h.cursor, ← createdAt_addressed had]; exact hlt) with hd | hd
      · exact .inr (ne_nil_of_mem (mem_addressedOf.mpr ⟨d, hd, had⟩))
      · exact .inr (hmeets.1 (ne_nil_of_mem hd))
  obtain ⟨x, hx⟩ := exists_mem_of_ne_nil _ (mergePages_ne_nil hsome)
  have hxlanded : x ∈ st.landed ∧ st.cursor < x.createdAt := by
    rcases (mem_mergePages.mp hx).1 with hx | hx
    · exact ⟨hevents x hx, hgt x hx⟩
    · obtain ⟨d, hd, hxd⟩ := mem_addressedOf.mp hx
      exact ⟨mem_append_right _ (mem_addressedOf.mpr ⟨d, hpage.mem_docs hd, hxd⟩),
        createdAt_addressed hxd ▸ hpage.since_lt hd⟩
  by_cases hle : a.createdAt ≤ x.createdAt
  · exact ⟨a.createdAt, mem_ahead ha hlt le_rfl, .inr ⟨x, hx, hle⟩⟩
  · refine ⟨x.createdAt, mem_ahead ((h.landed x hxlanded.1).resolve_right hle) (h.cursor ▸ hxlanded.2) (by omega),
      .inr ⟨x, hx, le_rfl⟩⟩

include h hinv ha hlt in
theorem step (hmeets : Meets st act) (hstep : w.step st act = some st') (hphase : st'.phase ≠ .idle) :
    Advances st₁ a st' := by
  have hcursor := (cursor_eq_of_phase_ne hstep hphase).trans h.cursor
  obtain ⟨hmono, hnew⟩ := landed_step hstep (h.mono a ha)
  have hlanded : ∀ x ∈ st'.landed, x ∈ st₁.landed ∨ a.createdAt ≤ x.createdAt := fun x hx =>
    (hnew x hx).elim (h.landed x) .inr
  have hready := h.phase
  cases act with
  | land viaAuthor d =>
    obtain ⟨-, -, -, hsame, ⟨new, hevents⟩, -⟩ := step_land hstep
    refine ⟨hcursor, fun x hx => hmono x (h.mono x hx), hlanded, ?_⟩
    rw [hsame]
    cases hp : st.phase with
    | idle => simp only [hp] at hready
    | reading wanted since => trivial
    | readEvents wanted since events landed cut =>
      have hinv := hinv.phase
      simp only [PhaseInv, hp] at hinv hready ⊢
      rw [hevents, take_append_of_le_length hinv.2.1]
      exact ⟨hready.1, fun x hx => hmono x (hready.2.1 x hx), hready.2.2⟩
    | handling wanted cursor found => simpa only [hp] using hready
  | start wanted =>
    obtain ⟨hidle, -⟩ := step_start hstep
    simp only [hidle] at hready
  | queryEvents page rest =>
    obtain ⟨wanted, since, hreading, hpage, rfl⟩ := step_queryEvents hstep
    refine ⟨hcursor, fun x hx => hmono x (h.mono x hx), hlanded, hmeets, fun x hx => ?_, fun hevent => ?_⟩
    · obtain ⟨d, hd, hxd⟩ := mem_addressedOf.mp hx
      exact mem_append_left _ (mem_addressedOf.mpr ⟨d, hpage.mem_docs hd, hxd⟩)
    · obtain ⟨_, -, hvia⟩ := mem_addressedOf.mp hevent
      rw [take_length]
      exact mem_events (h.mono a ha) (viaAuthor_addressed hvia)
  | queryAuthorEvents page rest => exact h.queryAuthorEvents hinv ha hlt hmeets hstep
  | handle reads calls =>
    obtain ⟨wanted, cursor, y, found, o, hhandling, -, -, -, -, hcases⟩ := step_handle hstep
    refine ⟨hcursor, fun x hx => hmono x (h.mono x hx), hlanded, ?_⟩
    rcases hcases with ⟨-, hidle⟩ | ⟨-, hnext⟩
    · exact absurd hidle hphase
    · simp only [hhandling] at hready
      simp only [hnext]
      obtain ⟨t, ht, hor⟩ := hready
      refine ⟨t, ht, ?_⟩
      rcases hor with hle | ⟨x, hx, hle⟩
      · exact .inl (hle.trans (le_max_left _ _))
      · rcases mem_cons.mp hx with rfl | hx
        · exact .inl (hle.trans (le_max_right _ _))
        · exact .inr ⟨x, hx, hle⟩
  | store ok =>
    obtain ⟨_, _, -, rfl⟩ := step_store hstep
    exact absurd rfl hphase

end Advances

theorem Polling.advances (h : Polling w Meets st₁ st) (hrun : Run w Meets c st₁)
    (ha : a ∈ st₁.landed) (hlt : st₁.cursor < a.createdAt) : Run w Meets c st ∧ Advances st₁ a st := by
  induction h with
  | start wanted hact hstart =>
    obtain ⟨-, rfl⟩ := step_start hstart
    exact ⟨hrun.step hact hstart, rfl, fun _ => id, fun _ => .inl, trivial⟩
  | step _ hact hstep hphase ih =>
    obtain ⟨hrun', hadv⟩ := ih
    exact ⟨hrun'.step hact hstep, hadv.step hrun'.inv ha hlt hact hstep hphase⟩

theorem Polling.card_ahead_lt {st₂ : State} (h : Polling w Meets st st₁)
    (hrun : Run w Meets c st) (ha : a ∈ st.landed) (hlt : st.cursor < a.createdAt)
    (hend : w.step st₁ (.store true) = some st₂) : (st₂.ahead a).card < (st.ahead a).card := by
  obtain ⟨-, hadv⟩ := h.advances hrun ha hlt
  obtain ⟨wanted, cursor, hphase, rfl⟩ := step_store hend
  have hready := hadv.phase
  simp only [hphase] at hready
  obtain ⟨t, ht, hor⟩ := hready
  have hle : t ≤ cursor := hor.resolve_right (by simp)
  refine Finset.card_lt_card (Finset.ssubset_iff_of_subset (fun s hs => ?_) |>.mpr ⟨t, ht, fun hmem => ?_⟩)
  · obtain ⟨hs, hgt, hsa⟩ := Finset.mem_filter.mp hs
    obtain ⟨y, hy, rfl⟩ := mem_map.mp (mem_toFinset.mp hs)
    have hcursor : st.cursor < y.createdAt := (Finset.mem_filter.mp ht).2.1.trans (hle.trans_lt hgt)
    rcases hadv.landed y hy with hy | hge
    · exact Advances.mem_ahead hy hcursor hsa
    · rw [le_antisymm hsa hge]
      exact Advances.mem_ahead ha hlt le_rfl
  · exact absurd (Finset.mem_filter.mp hmem).2.1 (not_lt.mpr hle)

theorem Inv.ahead_subset (h : Inv c st) (hstep : w.step st act = some st')
    (ha : a ∈ st.landed) (hlt : st.cursor < a.createdAt) : st'.ahead a ⊆ st.ahead a := by
  intro s hs
  obtain ⟨hs, hgt, hsa⟩ := Finset.mem_filter.mp hs
  obtain ⟨y, hy, rfl⟩ := mem_map.mp (mem_toFinset.mp hs)
  have hcursor := h.cursor_le hstep
  rcases (landed_step hstep ha).2 y hy with hy | hge
  · exact Advances.mem_ahead hy (by omega) hsa
  · rw [le_antisymm hsa hge]
    exact Advances.mem_ahead ha hlt le_rfl

theorem Steps.ahead_le (h : Steps w Meets st st') (hrun : Run w Meets c st) (ha : a ∈ st.landed) :
    Run w Meets c st' ∧ a ∈ st'.landed ∧ st.cursor ≤ st'.cursor ∧
      (a.createdAt ≤ st'.cursor ∨ (st'.ahead a).card ≤ (st.ahead a).card) := by
  induction h with
  | refl => exact ⟨hrun, ha, le_rfl, .inr le_rfl⟩
  | tail _ hact hstep ih =>
    obtain ⟨hrun', ha', hle, hor⟩ := ih
    have hcursor := hrun'.inv.cursor_le hstep
    refine ⟨hrun'.step hact hstep, (landed_step hstep ha').1 a ha', hle.trans hcursor, ?_⟩
    rename_i st₁ st₂ act _
    by_cases hlt : st₁.cursor < a.createdAt
    · exact .inr ((Finset.card_le_card (hrun'.inv.ahead_subset hstep ha' hlt)).trans
        (hor.resolve_left (not_le.mpr hlt)))
    · exact .inl ((not_lt.mp hlt).trans hcursor)

theorem Polling.steps (h : Polling w P st st') : Steps w P st st' := by
  induction h with
  | start wanted hact hstart => exact (Steps.refl st).tail hact hstart
  | step _ hact hstep _ ih => exact ih.tail hact hstep

variable (h : Completes w Meets n st st') (hrun : Run w Meets c st) (ha : a ∈ st.landed)

include h hrun ha in
theorem Completes.ahead_le : Run w Meets c st' ∧ a ∈ st'.landed ∧
      (a.createdAt ≤ st'.cursor ∨ (st'.ahead a).card + n ≤ (st.ahead a).card) := by
  induction h with
  | zero hsteps =>
    obtain ⟨hrun', ha', -, hor⟩ := hsteps.ahead_le hrun ha
    exact ⟨hrun', ha', hor⟩
  | succ _ hpoll hact hend hrest ih =>
    rename_i n st st₁ st₂ st₃ st' _
    obtain ⟨hrun₁, ha₁, hor₁⟩ := ih hrun ha
    obtain ⟨hrun₃, ha₃, hle₃, -⟩ := (hpoll.steps.tail hact hend).ahead_le hrun₁ ha₁
    obtain ⟨hrun', ha', hle', hor'⟩ := hrest.ahead_le hrun₃ ha₃
    refine ⟨hrun', ha', ?_⟩
    by_cases hlt : st₁.cursor < a.createdAt
    · -- the poll leaves one time less, and the steps after it none more
      have hfall := hpoll.card_ahead_lt hrun₁ ha₁ hlt hend
      have hcard := hor₁.resolve_left (not_le.mpr hlt)
      exact hor'.imp_right fun h => by omega
    · exact .inl ((not_lt.mp hlt).trans (hle₃.trans hle'))

include h hrun ha in
/-- Once as many polls have run to their end as there were times up to a row, it is settled. -/
theorem Completes.settled (hc : c < a.createdAt) (hn : (st.ahead a).card ≤ n) : st'.Settled a := by
  obtain ⟨hrun', ha', hor⟩ := h.ahead_le hrun ha
  refine hrun'.inv.settled a ha' hc ?_
  by_contra hlt
  have hcard := hor.resolve_left hlt
  have hpos : 0 < (st'.ahead a).card := Finset.card_pos.mpr ⟨_, Advances.mem_ahead ha' (not_le.mp hlt) le_rfl⟩
  omega

/-! ### Nothing is sent twice -/

/-- What one delivery can do: queue the notice, or send at most one mail and one push. -/
def AtMostOnce (actions : List Action) : Prop := actions = [.digest] ∨ ∃ rows, actions.Sublist [.mail, .push rows]

theorem atMostOnce_sendNow (disp : Dispatcher) (calls : Calls) (s : Recipient) :
    AtMostOnce (sendNow disp calls s).1 := by
  refine .inr ⟨calls.push.1, ?_⟩
  rw [sendNow]
  cases s.mailOk && disp.mailer <;> cases calls.mail.1 <;> cases calls.mail.2 <;> cases s.push && disp.pusher <;>
    by_cases hrows : calls.push.1 = [] <;> simp [hrows]

theorem deliver_spec (disp : Dispatcher) (calls : Calls) (marks : Finset String) (n : OutNotice) :
    marks ⊆ (deliver disp calls marks n).marks ∧
      ((deliver disp calls marks n).actions ≠ [] → n.id ∉ marks ∧ n.id ∈ (deliver disp calls marks n).marks ∧
        AtMostOnce (deliver disp calls marks n).actions) := by
  have hsub : marks ⊆ insert n.id marks := Finset.subset_insert _ _
  have hid : n.id ∈ insert n.id marks := Finset.mem_insert_self _ _
  rw [deliver]
  split
  · exact ⟨subset_rfl, fun h => absurd rfl h⟩
  · exact ⟨subset_rfl, fun h => absurd rfl h⟩
  · next s _ =>
    split
    · exact ⟨subset_rfl, fun h => absurd rfl h⟩
    split
    · exact ⟨subset_rfl, fun h => absurd rfl h⟩
    split
    · exact ⟨subset_rfl, fun h => absurd rfl h⟩
    next hmem =>
      dsimp only
      split
      · exact ⟨hsub, fun h => absurd rfl h⟩
      split
      · refine ⟨hsub, fun h => ⟨hmem, hid, .inl ?_⟩⟩
        cases hdigest : calls.pushDigest with
        | false => exact absurd (by rw [hdigest]; rfl) h
        | true => rfl
      split
      · exact ⟨hsub, fun h => absurd rfl h⟩
      · exact ⟨hsub, fun _ => ⟨hmem, hid, atMostOnce_sendNow disp calls s⟩⟩

/-- Every notice that was sent or queued is marked, and stands in the log once. -/
structure Logged (st : State) : Prop where
  nodup : (st.log.map Prod.fst).Nodup
  marked : ∀ x ∈ st.log, x.1 ∈ st.marks ∧ AtMostOnce x.2

theorem Logged.handle (h : Logged st) {cursor : ℕ} {found : List Addressed} :
    Logged (w.handle st wanted cursor a found reads calls) := by
  rw [Service.handle]
  split
  · exact ⟨h.nodup, h.marked⟩
  · exact ⟨h.nodup, h.marked⟩
  · next n _ =>
    obtain ⟨hsub, hdo⟩ := deliver_spec w.dispatcher calls st.marks n
    by_cases hnil : (deliver w.dispatcher calls st.marks n).actions = []
    · simp only [hnil, if_true]
      exact ⟨h.nodup, fun x hx => (h.marked x hx).imp_left fun hx => hsub hx⟩
    · simp only [hnil, if_false]
      obtain ⟨hnew, hmark, honce⟩ := hdo hnil
      refine ⟨nodup_cons.mpr ⟨fun hmem => ?_, h.nodup⟩, fun x hx => ?_⟩
      · obtain ⟨x, hx, heq⟩ : ∃ x ∈ st.log, x.1 = n.id := mem_map.mp hmem
        exact hnew (heq ▸ (h.marked x hx).1)
      · rcases mem_cons.mp hx with rfl | hx
        · exact ⟨hmark, honce⟩
        · exact (h.marked x hx).imp_left fun hx => hsub hx

theorem Logged.step (h : Logged st) (hstep : w.step st act = some st') : Logged st' := by
  cases act with
  | land viaAuthor d =>
    rw [Service.step] at hstep
    split at hstep
    · obtain rfl := Option.some.inj hstep
      cases viaAuthor <;> exact ⟨h.nodup, h.marked⟩
    · cases hstep
  | start wanted => exact (step_start hstep).2 ▸ ⟨h.nodup, h.marked⟩
  | queryEvents page rest =>
    obtain ⟨_, _, -, -, rfl⟩ := step_queryEvents hstep
    exact ⟨h.nodup, h.marked⟩
  | queryAuthorEvents page rest =>
    obtain ⟨_, _, _, _, _, -, -, rfl⟩ := step_queryAuthorEvents hstep
    exact ⟨h.nodup, h.marked⟩
  | handle reads calls =>
    rw [Service.step] at hstep
    split at hstep
    · exact Option.some.inj hstep ▸ h.handle
    · cases hstep
  | store ok =>
    obtain ⟨_, _, -, rfl⟩ := step_store hstep
    exact ⟨h.nodup, h.marked⟩

theorem Run.logged (h : Run w P c st) : Logged st := by
  induction h with
  | start events authorEvents marks => exact ⟨nodup_nil, nofun⟩
  | step _ _ hstep ih => exact ih.step hstep

/-! ### A document at the cursor -/

/-- A row that is not later than the cursor, and that no loop has before it or has come to. -/
def Passed (a : Addressed) (st : State) : Prop :=
  a.createdAt ≤ st.cursor ∧ (∀ o, (a, o) ∉ st.history) ∧
    match st.phase with
    | .idle => True
    | .reading _ since => a.createdAt ≤ since
    | .readEvents _ since events _ _ => a.createdAt ≤ since ∧ ∀ x ∈ events, a.createdAt < x.createdAt
    | .handling _ cursor found => a.createdAt ≤ cursor ∧ ∀ x ∈ found, a.createdAt < x.createdAt

theorem Passed.step (h : Passed a st) (hstep : w.step st act = some st') : Passed a st' := by
  obtain ⟨hcursor, hhistory, hphase⟩ := h
  cases act with
  | land viaAuthor d =>
    obtain ⟨-, hcursor', hhistory', hphase', -, -⟩ := step_land hstep
    rw [Passed, hcursor', hhistory', hphase']
    exact ⟨hcursor, hhistory, hphase⟩
  | start wanted =>
    obtain ⟨-, rfl⟩ := step_start hstep
    exact ⟨hcursor, hhistory, hcursor⟩
  | queryEvents page rest =>
    obtain ⟨wanted, since, hreading, hpage, rfl⟩ := step_queryEvents hstep
    simp only [hreading] at hphase
    refine ⟨hcursor, hhistory, hphase, fun x hx => ?_⟩
    obtain ⟨d, hd, hxd⟩ := mem_addressedOf.mp hx
    rw [createdAt_addressed hxd]
    exact hphase.trans_lt (hpage.since_lt hd)
  | queryAuthorEvents page rest =>
    obtain ⟨wanted, since, events, landed, cut, hread, hpage, rfl⟩ := step_queryAuthorEvents hstep
    simp only [hread] at hphase
    refine ⟨hcursor, hhistory, hphase.1, fun x hx => ?_⟩
    rcases (mem_mergePages.mp hx).1 with hx | hx
    · exact hphase.2 x hx
    · obtain ⟨d, hd, hxd⟩ := mem_addressedOf.mp hx
      rw [createdAt_addressed hxd]
      exact hphase.1.trans_lt (hpage.since_lt hd)
  | handle reads calls =>
    obtain ⟨wanted, cursor, x, found, o, hhandling, hhistory', hcursor', -, -, hcases⟩ := step_handle hstep
    simp only [hhandling] at hphase
    have hx := hphase.2 x mem_cons_self
    rw [Passed, hcursor', hhistory']
    refine ⟨hcursor, fun o' hmem => ?_, ?_⟩
    · rcases mem_cons.mp hmem with heq | hmem
      · exact hx.ne (congrArg (fun y => y.1.createdAt) heq)
      · exact hhistory o' hmem
    · rcases hcases with ⟨-, hidle⟩ | ⟨-, hnext⟩
      · simp [hidle]
      · simp only [hnext]
        exact ⟨hphase.1.trans (le_max_left _ _), fun y hy => hphase.2 y (mem_cons_of_mem _ hy)⟩
  | store ok =>
    obtain ⟨wanted, cursor, hhandling, rfl⟩ := step_store hstep
    simp only [hhandling] at hphase
    refine ⟨?_, hhistory, trivial⟩
    cases ok with
    | false => exact hcursor
    | true => exact hphase.1

/-- No loop ever comes to a row that the cursor has passed. -/
theorem Passed.steps (h : Passed a st) (hsteps : Steps w P st st') : Passed a st' := by
  induction hsteps with
  | refl => exact h
  | tail _ _ hstep ih => exact ih.step hstep

/-! ### Main results -/

/-- In a run whose steps meet the condition: every row up to the cursor is settled, and a row that landed is settled
once as many polls have run to their end as times lay between the cursor and it. In every run, whatever its steps, no
notice is sent or queued twice. -/
theorem poll_spec (hrun : Run w Meets c st) :
    (∀ a ∈ st.landed, c < a.createdAt → a.createdAt ≤ st.cursor → st.Settled a) ∧
      (∀ a ∈ st.landed, c < a.createdAt → ∀ n st', Completes w Meets n st st' → (st.ahead a).card ≤ n →
        st'.Settled a) ∧
      ∀ w' P c' st', Run w' P c' st' → (st'.log.map Prod.fst).Nodup ∧ ∀ x ∈ st'.log, AtMostOnce x.2 :=
  ⟨hrun.inv.settled, fun _ ha hc _ _ hpolls hn => hpolls.settled hrun ha hc hn, fun _ _ _ _ hrun' =>
    ⟨hrun'.logged.nodup, fun x hx => (hrun'.logged.marked x hx).2⟩⟩

/-- A service that mails. -/
def plainService : Service := { identity := "alice", dispatcher := { mailer := true, pusher := false } }

/-- A review request. -/
def sampleRow (id : String) : Row :=
  { id, ownerId := "bob", createdAt := 10, kind := some 13, repoId := some "repo", targetId := some "pr" }

def sampleAddressed (id : String) : Addressed :=
  { docId := id, kind := 13, repoId := "repo", targetId := "pr", author := "bob", createdAt := 10, viaAuthor := false }

/-- The state after a poll has read the review request `r1` and mailed its notice. -/
def polledOnce : State :=
  { events := [sampleRow "r1"], authorEvents := [], cursor := 10, marks := {"addressed:r1"},
    log := [("addressed:r1", [.mail])], history := [(sampleAddressed "r1", .delivered)] }

/-- The state of the poll that ends in `polledOnce`. -/
def pollingOnce (phase : Phase) : State :=
  { events := [sampleRow "r1"], authorEvents := [], cursor := 0, marks := ∅, phase }

theorem run_polledOnce : Run plainService Meets 0 polledOnce := by
  let wanted : Wanted := { assigned := true, reviewRequested := true }
  have hstart : Run plainService Meets 0 { events := [], authorEvents := [], marks := ∅, cursor := 0 } :=
    Run.start [] [] ∅
  have hland : Run plainService Meets 0 (pollingOnce .idle) :=
    hstart.next (.land false (sampleRow "r1")) ⟨by decide, trivial⟩ rfl
  have hreading : Run plainService Meets 0 (pollingOnce (.reading wanted 0)) :=
    hland.next (.start wanted) trivial rfl
  have hevents : Run plainService Meets 0 (pollingOnce (.readEvents wanted 0 [sampleAddressed "r1"] 1 [])) :=
    hreading.next (.queryEvents [sampleRow "r1"] []) (fun h => absurd rfl h) (by decide +kernel)
  have hauthor : Run plainService Meets 0 (pollingOnce (.handling wanted 0 [sampleAddressed "r1"])) :=
    hevents.next (.queryAuthorEvents [] []) ⟨fun h => absurd rfl h, nofun⟩ (by decide +kernel)
  let calls : Calls := ⟨some (some ⟨[], true, false, false⟩), true, some true, false, (true, true), ([], true)⟩
  have hhandle : Run plainService Meets 0 { polledOnce with cursor := 0, phase := .handling wanted 10 [] } :=
    hauthor.next (.handle ⟨some (some ⟨true, "repo", 7⟩), some (some "repo")⟩ calls) trivial (by decide +kernel)
  exact hhandle.next (.store true) trivial rfl

/-- The request is settled, and its notice was mailed once. -/
theorem poll_spec_polledOnce : polledOnce.Settled (sampleAddressed "r1") ∧
    "addressed:r1" ∈ polledOnce.log.map Prod.fst ∧
    (polledOnce.log.map Prod.fst).Nodup := by
  obtain ⟨hsettled, -, honce⟩ := poll_spec run_polledOnce
  exact ⟨hsettled (sampleAddressed "r1") (by decide) (by decide) (by decide), by decide,
    (honce _ _ _ _ run_polledOnce).1⟩

/-- A document `r2` lands at the time the cursor has reached: no poll ever comes to it. -/
theorem landed_at_cursor : ∃ (w : Service) (c : ℕ) (st : State) (a : Addressed),
    Run w (fun _ _ => True) c st ∧ a ∈ st.landed ∧ c < a.createdAt ∧
      ∀ st', Steps w (fun _ _ => True) st st' → ∀ o, (a, o) ∉ st'.history := by
  let st : State := { polledOnce with events := [sampleRow "r1", sampleRow "r2"] }
  have hrun : Run plainService (fun _ _ => True) 0 st :=
    (run_polledOnce.mono fun _ _ _ => trivial).next (.land false (sampleRow "r2")) trivial rfl
  have hpassed : Passed (sampleAddressed "r2") st := by
    refine ⟨le_rfl, fun o hmem => ?_, trivial⟩
    have heq : sampleAddressed "r2" = sampleAddressed "r1" := congrArg Prod.fst (List.mem_singleton.mp hmem)
    exact absurd heq (by decide)
  exact ⟨plainService, 0, st, sampleAddressed "r2", hrun, by decide, by decide,
    fun st' hsteps => (hpassed.steps hsteps).2.1⟩

end DashForge.Notify
