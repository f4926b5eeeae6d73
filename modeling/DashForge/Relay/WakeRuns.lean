import DashForge.Relay.Wake

/-!
# Runs of the wake hub

Runners call `respond` while wakes arrive: a request subscribes, answers, and where there is nothing to tell it waits
until the watch reports a change or its deadline passes (`Step`). Each runner asks with the cursor of its own previous
answer. The state keeps the history of wakes, and what each runner was told with the length that the history had then.

One invariant (`Told`, `Next`, `Asking`) says what an answer lists of the history; `wake_spec` reads off that no wake
is missed, and that no signature is accepted twice while too few are accepted for one to be forgotten early.
-/

namespace DashForge.Wake

open List Function

/-- The body of an answer. -/
structure Body where
  cursor : String
  resync : Bool
  repos : List (String × WakeRepo)
deriving DecidableEq, Repr

/-- What a request was told, after the first `made` wakes; it had begun after `begun` of them. -/
structure Given where
  after : Option String
  begun : ℕ
  made : ℕ
  timedOut : Bool
  body : Body
deriving DecidableEq, Repr

inductive Phase where
  | idle
  /-- Subscribed, or woken: to be answered. -/
  | answering (after : Option String) (begun seen : ℕ)
  | waiting (after : Option String) (begun seen made : ℕ) (answer : Answer)
deriving DecidableEq, Repr

structure Runner where
  phase : Phase := .idle
  given : List Given := []
deriving DecidableEq, Repr

/-- The cursor of its previous answer. -/
def Runner.cursor (r : Runner) : Option String := r.given.getLast?.map fun g => g.body.cursor

structure Accepted where
  acceptedAt : ℕ
  message : List UInt8
  signature : String
deriving DecidableEq, Repr

structure State (ι : Type) where
  hub : WakeHub
  clock : ℕ := 0
  /-- The wakes of repositories that are served. -/
  notified : List String := []
  runner : ι → Runner := fun _ => {}
  accepted : List Accepted := []

/-- The body of an answer names the repositories. -/
def WakeHub.body (hub : WakeHub) (a : Answer) : Body where
  cursor := a.cursor
  resync := a.resync
  repos := a.repos.filterMap fun id => (hub.repos.lookup id).map fun r => (id, r)

variable {ι : Type}

namespace State

variable (s : State ι)

def notify (repoId : String) : State ι :=
  { s with hub := s.hub.notify repoId
           notified := if s.hub.serves repoId then s.notified ++ [repoId] else s.notified }

/-- Authenticate a request at the clock's time. -/
def request (hmac : List UInt8 → List UInt8 → List UInt8) (r : Request) : State ι :=
  let (hub, result) := s.hub.authenticate hmac r (s.clock / second) s.clock
  match result, r.message?, r.signature? with
  | .ok (), some message, some signature =>
    { s with hub, accepted := s.accepted ++ [{ acceptedAt := s.clock, message, signature }] }
  | _, _, _ => { s with hub }

variable [DecidableEq ι]

def setPhase (i : ι) (phase : Phase) : State ι :=
  { s with runner := update s.runner i { s.runner i with phase } }

def give (i : ι) (g : Given) : State ι :=
  { s with runner := update s.runner i { given := (s.runner i).given ++ [g] } }

/-- Answer a request at once when there is news or no cursor, else have it wait. -/
def answer (i : ι) (after : Option String) (begun seen : ℕ) : State ι :=
  let a := s.hub.answer after
  if after = none ∨ a.resync = true ∨ a.repos ≠ [] then
    s.give i { after, begun, made := s.notified.length, timedOut := false, body := s.hub.body a }
  else s.setPhase i (.waiting after begun seen s.notified.length a)

end State

inductive Step [DecidableEq ι] (hmac : List UInt8 → List UInt8 → List UInt8) : State ι → State ι → Prop
  | notify (s : State ι) (repoId : String) : Step hmac s (s.notify repoId)
  | tick (s : State ι) (clock : ℕ) (h : s.clock ≤ clock) : Step hmac s { s with clock }
  | request (s : State ι) (r : Request) : Step hmac s (s.request hmac r)
  /-- A runner's request subscribes. -/
  | subscribe (s : State ι) (i : ι) (h : (s.runner i).phase = .idle) :
      Step hmac s (s.setPhase i (.answering (s.runner i).cursor s.notified.length s.hub.seq))
  | answer (s : State ι) (i : ι) (after : Option String) (begun seen : ℕ)
      (h : (s.runner i).phase = .answering after begun seen) : Step hmac s (s.answer i after begun seen)
  /-- The watch reports that the number has changed; the request is answered again after it. -/
  | changed (s : State ι) (i : ι) (after : Option String) (begun seen made : ℕ) (a : Answer)
      (h : (s.runner i).phase = .waiting after begun seen made a) (hne : s.hub.seq ≠ seen) :
      Step hmac s (s.setPhase i (.answering after begun s.hub.seq))
  /-- The deadline passes, and the answer there was is given. -/
  | timeout (s : State ι) (i : ι) (after : Option String) (begun seen made : ℕ) (a : Answer)
      (h : (s.runner i).phase = .waiting after begun seen made a) :
      Step hmac s (s.give i { after, begun, made, timedOut := true, body := s.hub.body a })

def Reachable [DecidableEq ι] (hmac : List UInt8 → List UInt8 → List UInt8) (hub : WakeHub) : State ι → Prop :=
  Relation.ReflTransGen (Step hmac) { hub }

/-! ### What runners are told -/

/-- What a runner was told of the history. -/
structure Told (epoch : String) (notified : List String) (g : Given) : Prop where
  begun_le : g.begun ≤ g.made
  made_le : g.made ≤ notified.length
  cursor_eq : g.body.cursor = cursorText epoch g.made
  first : g.after = none → g.body.resync = false ∧ g.body.repos = [] ∧ g.timedOut = false
  listed : g.body.resync = false → ∀ after, g.after = some after →
    ∃ n, cursorSeq epoch after = some n ∧ ∀ r, r ∈ g.body.repos.map Prod.fst ↔ r ∈ (notified.take g.made).drop n
  timed_out : g.timedOut = true → g.body.resync = false ∧ g.body.repos = []

/-- A runner's next request. -/
structure Next (a b : Given) : Prop where
  after_eq : b.after = some a.body.cursor
  made_le : a.made ≤ b.begun

/-- A request under way. -/
def Asking (epoch : String) (notified : List String) (r : Runner) : Prop :=
  match r.phase with
  | .idle => True
  | .answering after begun seen => after = r.cursor ∧ begun ≤ notified.length ∧ seen ≤ notified.length ∧
      ∀ g ∈ r.given.getLast?, g.made ≤ begun
  | .waiting after begun seen made a => after = r.cursor ∧ begun ≤ made ∧ made ≤ notified.length ∧ seen ≤ made ∧
      (∀ g ∈ r.given.getLast?, g.made ≤ begun) ∧ a.cursor = cursorText epoch made ∧ a.resync = false ∧ a.repos = [] ∧
      ∃ text n, after = some text ∧ cursorSeq epoch text = some n ∧ (notified.take made).drop n = []

structure Served (epoch : String) (notified : List String) (r : Runner) : Prop where
  told : ∀ g ∈ r.given, Told epoch notified g
  first : ∀ g ∈ r.given.head?, g.after = none
  next : r.given.IsChain Next
  asking : Asking epoch notified r

section Served

variable {epoch : String} {notified : List String} {r : Runner}

theorem Told.append {g : Given} (h : Told epoch notified g) (repoId : String) :
    Told epoch (notified ++ [repoId]) g := by
  have htake : (notified ++ [repoId]).take g.made = notified.take g.made := take_append_of_le_length h.made_le
  refine { h with made_le := ?_, listed := ?_ }
  · rw [length_append]
    exact h.made_le.trans (Nat.le_add_right _ _)
  · rw [htake]
    exact h.listed

theorem Served.append (h : Served epoch notified r) (repoId : String) : Served epoch (notified ++ [repoId]) r := by
  refine ⟨fun g hg => (h.told g hg).append repoId, h.first, h.next, ?_⟩
  have hasking := h.asking
  have hle : notified.length ≤ (notified ++ [repoId]).length := by
    rw [length_append]
    exact Nat.le_add_right _ _
  unfold Asking at hasking ⊢
  split
  · trivial
  · next after begun seen hphase =>
    rw [hphase] at hasking
    obtain ⟨hafter, hbegun, hseen, hlast⟩ := hasking
    exact ⟨hafter, hbegun.trans hle, hseen.trans hle, hlast⟩
  · next after begun seen made a hphase =>
    rw [hphase] at hasking
    obtain ⟨hafter, hbegun, hmade, hseen, hlast, hcursor, hresync, hrepos, text, n, htext, hn, hnone⟩ := hasking
    refine ⟨hafter, hbegun, hmade.trans hle, hseen, hlast, hcursor, hresync, hrepos, text, n, htext, hn, ?_⟩
    rwa [take_append_of_le_length hmade]

theorem Served.give (h : Served epoch notified r) {g : Given} (htold : Told epoch notified g)
    (hafter : g.after = r.cursor)
    (hlast : ∀ l ∈ r.given.getLast?, l.made ≤ g.begun) : Served epoch notified { given := r.given ++ [g] } := by
  refine ⟨fun g' hg' => ?_, fun g' hg' => ?_, ?_, trivial⟩
  · rcases mem_append.mp hg' with hg' | hg'
    · exact h.told g' hg'
    · exact mem_singleton.mp hg' ▸ htold
  · rcases hgiven : r.given with _ | ⟨g₀, gs⟩
    · rw [hgiven] at hg'
      obtain rfl := Option.some.inj hg'
      rw [hafter, Runner.cursor, hgiven]
      rfl
    · rw [hgiven] at hg'
      exact h.first g' (by rw [hgiven]; exact hg')
  · refine isChain_append.mpr ⟨h.next, isChain_singleton g, fun l hl g' hg' => ?_⟩
    obtain rfl := Option.some.inj hg'
    refine ⟨?_, hlast l hl⟩
    rw [hafter, Runner.cursor, hl]
    rfl

end Served

/-! ### Steps -/

theorem cursor_answer (hub : WakeHub) (after : Option String) :
    (hub.answer after).cursor = cursorText hub.epoch hub.seq := by
  unfold WakeHub.answer
  split
  · rfl
  · dsimp only
    split <;> rfl

theorem mem_repos_body {hub : WakeHub} {a : Answer} (hserved : ∀ r ∈ a.repos, hub.serves r = true) (r : String) :
    r ∈ (hub.body a).repos.map Prod.fst ↔ r ∈ a.repos := by
  simp only [WakeHub.body, mem_map, mem_filterMap, Option.map_eq_some_iff]
  constructor
  · rintro ⟨-, ⟨r', hr', w, -, rfl⟩, rfl⟩
    exact hr'
  · intro hr
    obtain ⟨w, hw⟩ := Option.isSome_iff_exists.mp (hserved r hr)
    exact ⟨(r, w), ⟨r, hr, w, hw, rfl⟩, rfl⟩

theorem authenticate_frame (hmac : List UInt8 → List UInt8 → List UInt8) (hub : WakeHub) (r : Request) (now clock : ℕ) :
    ∃ seen, (hub.authenticate hmac r now clock).1 = { hub with seen } := by
  rcases authenticate_cases hmac hub r now clock with ⟨_, _, _, -, -, -, -, -, -, -, -, heq⟩ | ⟨-, heq | heq⟩
  · exact ⟨_, congrArg Prod.fst heq⟩
  · exact ⟨hub.seen, heq⟩
  · exact ⟨_, heq⟩

structure Inv (s : State ι) : Prop where
  dot : '.' ∉ s.hub.epoch.toList
  holds : Holds s.hub s.notified
  served : ∀ i, Served s.hub.epoch s.notified (s.runner i)

section Inv

variable {s s' : State ι} {hmac : List UInt8 → List UInt8 → List UInt8}

variable {i : ι} {begun seen : ℕ} {after : Option String}

theorem Inv.update [DecidableEq ι] (h : Inv s) {r : Runner} (hr : Served s.hub.epoch s.notified r) :
    Inv { s with runner := update s.runner i r } := by
  refine ⟨h.dot, h.holds, fun j => ?_⟩
  dsimp only
  rcases eq_or_ne j i with rfl | hne
  · rwa [update_self]
  · rw [update_of_ne hne]
    exact h.served j

theorem Inv.setPhase [DecidableEq ι] (h : Inv s) {phase : Phase}
    (hasking : Asking s.hub.epoch s.notified { s.runner i with phase }) : Inv (s.setPhase i phase) :=
  h.update { h.served i with asking := hasking }

theorem Inv.notify (h : Inv s) (repoId : String) : Inv (s.notify repoId) := by
  by_cases hserves : s.hub.serves repoId = true
  · rw [State.notify, if_pos hserves]
    have hepoch : (s.hub.notify repoId).epoch = s.hub.epoch := by rw [notify_of_serves hserves]
    refine ⟨hepoch ▸ h.dot, h.holds.notify hserves, fun i => ?_⟩
    dsimp only
    rw [hepoch]
    exact (h.served i).append repoId
  · rw [State.notify, if_neg hserves, WakeHub.notify, if_neg hserves]
    exact h

theorem Inv.told (h : Inv s) (after : Option String) (hbegun : begun ≤ s.notified.length) : Told s.hub.epoch s.notified
      { after, begun, made := s.notified.length, timedOut := false, body := s.hub.body (s.hub.answer after) } := by
  refine ⟨hbegun, le_rfl, ?_, ?_, ?_, nofun⟩
  · exact (cursor_answer s.hub after).trans (by rw [h.holds.seq_eq])
  · rintro rfl
    exact ⟨rfl, rfl, rfl⟩
  · rintro hresync text rfl
    obtain ⟨-, hlisted, -⟩ := answer_spec h.holds text
    obtain ⟨n, hn, -, hrepos⟩ := hlisted hresync
    refine ⟨n, hn, fun r => ?_⟩
    rw [mem_repos_body fun r hr => h.holds.served r (mem_of_mem_drop ((hrepos r).mp hr)), take_length]
    exact hrepos r

theorem Inv.answer [DecidableEq ι] (h : Inv s)
    (hphase : (s.runner i).phase = .answering after begun seen) : Inv (s.answer i after begun seen) := by
  have hasking := (h.served i).asking
  rw [Asking, hphase] at hasking
  obtain ⟨hafter, hbegun, hseen, hlast⟩ := hasking
  unfold State.answer
  dsimp only
  split
  · exact h.update ((h.served i).give (h.told after hbegun) hafter hlast)
  · next hwait =>
    push Not at hwait
    obtain ⟨hsome, hresync, hrepos⟩ := hwait
    obtain ⟨text, rfl⟩ := Option.ne_none_iff_exists'.mp hsome
    have hresync := Bool.eq_false_of_not_eq_true hresync
    obtain ⟨-, hlisted, -⟩ := answer_spec h.holds text
    obtain ⟨n, hn, -, hmem⟩ := hlisted hresync
    refine h.setPhase ⟨hafter, hbegun, le_rfl, hseen, hlast, ?_, hresync, hrepos, text, n, rfl, hn, ?_⟩
    · rw [cursor_answer, h.holds.seq_eq]
    · rw [take_length]
      refine eq_nil_iff_forall_not_mem.mpr fun r hr => ?_
      rw [← hmem, hrepos] at hr
      cases hr

theorem Inv.timeout [DecidableEq ι] (h : Inv s) {made : ℕ} {a : Answer}
    (hphase : (s.runner i).phase = .waiting after begun seen made a) :
    Inv (s.give i { after, begun, made, timedOut := true, body := s.hub.body a }) := by
  have hasking := (h.served i).asking
  rw [Asking, hphase] at hasking
  obtain ⟨hafter, hbegun, hmade, -, hlast, hcursor, hresync, hrepos, text, n, htext, hn, hnone⟩ := hasking
  have hbody : (s.hub.body a).repos = [] := by rw [WakeHub.body, hrepos, filterMap_nil]
  refine h.update ((h.served i).give ⟨hbegun, hmade, hcursor, ?_, ?_, fun _ => ⟨hresync, hbody⟩⟩ hafter hlast)
  · intro hfirst
    rw [htext] at hfirst
    cases hfirst
  · intro _ text' htext'
    obtain rfl := Option.some.inj (htext.symm.trans htext')
    refine ⟨n, hn, fun r => ?_⟩
    dsimp only
    rw [hbody, hnone, map_nil]

theorem Inv.step [DecidableEq ι] (h : Inv s) (hstep : Step hmac s s') : Inv s' := by
  cases hstep with
  | notify repoId => exact h.notify repoId
  | tick clock hle => exact ⟨h.dot, h.holds, h.served⟩
  | request r =>
    obtain ⟨seen, hframe⟩ := authenticate_frame hmac s.hub r (s.clock / second) s.clock
    have hholds : Holds { s.hub with seen } s.notified := ⟨h.holds.seq_eq, h.holds.wakes_eq, h.holds.served⟩
    unfold State.request
    dsimp only
    rw [hframe]
    split <;> exact ⟨h.dot, hholds, h.served⟩
  | subscribe i hphase =>
    refine h.setPhase ⟨rfl, le_rfl, h.holds.seq_eq.le, fun g hg => ?_⟩
    exact ((h.served i).told g (mem_of_getLast? hg)).made_le
  | answer i after begun seen hphase => exact h.answer hphase
  | changed i after begun seen made a hphase hne =>
    have hasking := (h.served i).asking
    rw [Asking, hphase] at hasking
    obtain ⟨hafter, hbegun, hmade, -, hlast, -⟩ := hasking
    exact h.setPhase ⟨hafter, hbegun.trans hmade, h.holds.seq_eq.le, hlast⟩
  | timeout i after begun seen made a hphase => exact h.timeout hphase

theorem Reachable.inv [DecidableEq ι] {secret digest : List UInt8} {repos : SortedMap String WakeRepo}
    (h : Reachable hmac (WakeHub.new secret digest repos) s) : Inv s := by
  induction h with
  | refl =>
    refine ⟨dot_notMem_epoch secret digest repos, ⟨rfl, drop_nil.symm, nofun⟩, fun i => ?_⟩
    exact ⟨nofun, nofun, isChain_nil, trivial⟩
  | tail _ hstep ih => exact ih.step hstep

end Inv

/-! ### Signatures -/

/-- Fewer requests than can be remembered are accepted in any window. -/
def Few (accepted : List Accepted) : Prop :=
  ∀ t, accepted.countP (fun a => t ≤ a.acceptedAt ∧ a.acceptedAt < t + window) < maxSeen

/-- No two messages that were accepted have one code. -/
def NoCollision (hmac : List UInt8 → List UInt8 → List UInt8) (secret : List UInt8) (accepted : List Accepted) : Prop :=
  ∀ a ∈ accepted, ∀ b ∈ accepted, hmac secret a.message = hmac secret b.message → a.message = b.message

/-- A request that was accepted was signed, and near the clock's time. -/
structure Genuine (hmac : List UInt8 → List UInt8 → List UInt8) (secret : List UInt8) (a : Accepted) : Prop where
  signed : a.signature = "sha256=" ++ hexEncode (hmac secret a.message)
  timely : ∃ path time, a.message = utf8 (requestMessage path time) ∧ time ≤ a.acceptedAt / second + maxSkewSecs ∧
    a.acceptedAt / second ≤ time + maxSkewSecs

structure Guarded (hmac : List UInt8 → List UInt8 → List UInt8) (secret : List UInt8) (s : State ι) : Prop where
  secret_eq : s.hub.secret = secret
  sorted : s.hub.seen.order.Pairwise fun a b => a.1 ≤ b.1
  le_clock : ∀ e ∈ s.hub.seen.order, e.1 ≤ s.clock
  set_eq : s.hub.seen.set = s.hub.seen.order.map Prod.snd
  /-- What is not remembered has left the window. -/
  forgotten : ∃ old, s.accepted.map (fun a => (a.acceptedAt, a.signature)) = old ++ s.hub.seen.order ∧
    ∀ e ∈ old, e.1 + window ≤ s.clock
  genuine : ∀ a ∈ s.accepted, Genuine hmac secret a
  nodup : (s.accepted.map Accepted.signature).Nodup

section Guarded

variable {s s' : State ι} {hmac : List UInt8 → List UInt8 → List UInt8} {secret : List UInt8}

theorem Few.sublist {l l' : List Accepted} (h : Few l') (hsub : l.Sublist l') : Few l :=
  fun t => hsub.countP_le.trans_lt (h t)

variable (h : Guarded hmac secret s)

include h in
theorem Guarded.few (hfew : Few s.accepted) :
    s.hub.seen.order.countP (fun e => s.clock < e.1 + window) < maxSeen := by
  obtain ⟨old, heq, -⟩ := h.forgotten
  have hsub : s.hub.seen.order.Sublist (s.accepted.map fun a => (a.acceptedAt, a.signature)) :=
    heq ▸ sublist_append_right _ _
  refine lt_of_le_of_lt ?_ (hfew (s.clock + 1 - window))
  calc s.hub.seen.order.countP (fun e => s.clock < e.1 + window)
      ≤ s.hub.seen.order.countP (fun e => s.clock + 1 - window ≤ e.1 ∧ e.1 < s.clock + 1 - window + window) := by
        refine countP_mono_left fun e he hin => ?_
        have := h.le_clock e he
        have := of_decide_eq_true hin
        exact decide_eq_true (by omega)
    _ ≤ (s.accepted.map fun a => (a.acceptedAt, a.signature)).countP
          (fun e => s.clock + 1 - window ≤ e.1 ∧ e.1 < s.clock + 1 - window + window) := hsub.countP_le
    _ = _ := by
        rw [countP_map]
        rfl

include h in
theorem Guarded.evict (hfew : Few s.accepted) :
    Guarded hmac secret { s with hub :=
        { s.hub with seen := Seen.evict s.clock s.hub.seen.set s.hub.seen.order } } := by
  obtain ⟨old', horder, hset, hold'⟩ := evict_spec h.sorted (h.few hfew)
  obtain ⟨old, heq, hold⟩ := h.forgotten
  rw [← h.set_eq] at horder hset
  have hsub : (Seen.evict s.clock s.hub.seen.set s.hub.seen.order).order.Sublist s.hub.seen.order := by
    conv_rhs => rw [horder]
    exact sublist_append_right _ _
  refine ⟨h.secret_eq, h.sorted.sublist hsub, fun e he => h.le_clock e (hsub.subset he), hset, ⟨old ++ old', ?_, ?_⟩,
    h.genuine, h.nodup⟩
  · rw [append_assoc, ← horder]
    exact heq
  · exact forall_mem_append.mpr ⟨hold, hold'⟩

include h in
theorem Guarded.fresh {a : Accepted} (ha : Genuine hmac secret a) (hnow : a.acceptedAt = s.clock)
    (hcollision : NoCollision hmac secret (s.accepted ++ [a])) (hnew : a.signature ∉ s.hub.seen.set) :
    a.signature ∉ s.accepted.map Accepted.signature := by
  intro hmem
  obtain ⟨b, hb, hsame⟩ := mem_map.mp hmem
  have hentry : (b.acceptedAt, b.signature) ∈ s.accepted.map fun a => (a.acceptedAt, a.signature) :=
    mem_map.mpr ⟨b, hb, rfl⟩
  obtain ⟨old, heq, hold⟩ := h.forgotten
  rw [heq] at hentry
  rcases mem_append.mp hentry with hentry | hentry
  · have hgone := hold _ hentry
    have hbsigned := h.genuine b hb
    have hmac_eq : hmac secret b.message = hmac secret a.message := by
      have htexts := congrArg String.toList (hbsigned.signed.symm.trans (hsame.trans ha.signed))
      rw [String.toList_append, String.toList_append] at htexts
      exact hexEncode_injective (String.toList_inj.mp (append_cancel_left htexts))
    have hmessage := hcollision b (mem_append_left _ hb) a (by simp) hmac_eq
    obtain ⟨path, time, htext, -, hlow⟩ := ha.timely
    obtain ⟨path', time', htext', hhigh, -⟩ := hbsigned.timely
    -- One time is near both of the clock's.
    obtain rfl := requestMessage_time (utf8_injective (htext'.symm.trans (hmessage.trans htext)))
    have hwindow : window = (2 * maxSkewSecs + 1) * second := by unfold window; rfl
    have hskew : maxSkewSecs = 300 := rfl
    have hsecond : second = 10 ^ 9 := rfl
    rw [hwindow, hskew, hsecond] at hgone
    rw [hskew, hsecond] at hlow hhigh
    omega
  · rw [h.set_eq] at hnew
    exact hnew (hsame ▸ mem_map_of_mem hentry)

include h in
theorem Guarded.request (r : Request) (hfew : Few (s.request hmac r).accepted)
    (hcollision : NoCollision hmac secret (s.request hmac r).accepted) : Guarded hmac secret (s.request hmac r) := by
  rcases authenticate_cases hmac s.hub r (s.clock / second) s.clock with
    ⟨time, message, signature, -, hutf8, hmessage, hsignature, hhigh, hlow, hsigned, hnew, heq⟩ | ⟨hrefused, heq⟩
  · have hrequest : s.request hmac r = { s with
        hub := { s.hub with seen := {
          set := (Seen.evict s.clock s.hub.seen.set s.hub.seen.order).set ++ [signature]
          order := (Seen.evict s.clock s.hub.seen.set s.hub.seen.order).order ++ [(s.clock, signature)] } }
        accepted := s.accepted ++ [{ acceptedAt := s.clock, message, signature }] } := by
      rw [State.request, heq, hmessage, hsignature]
    rw [hrequest] at hfew hcollision ⊢
    have hevicted := h.evict (hfew.sublist (sublist_append_left _ _))
    have ha : Genuine hmac secret { acceptedAt := s.clock, message, signature } :=
      ⟨h.secret_eq ▸ hsigned, r.pathAndQuery, time, hutf8, hhigh, hlow⟩
    have hfresh := hevicted.fresh ha rfl hcollision hnew
    obtain ⟨old, hsplit, hold⟩ := hevicted.forgotten
    refine ⟨h.secret_eq, ?_, ?_, ?_, ⟨old, ?_, hold⟩, ?_, ?_⟩
    · refine pairwise_append.mpr ⟨hevicted.sorted, pairwise_singleton _ _, fun e he e' he' => ?_⟩
      obtain rfl := mem_singleton.mp he'
      exact hevicted.le_clock e he
    · refine forall_mem_append.mpr ⟨hevicted.le_clock, fun e he => ?_⟩
      obtain rfl := mem_singleton.mp he
      exact le_rfl
    · dsimp only
      rw [map_append]
      exact congrArg (· ++ [signature]) hevicted.set_eq
    · dsimp only at hsplit ⊢
      rw [map_append, hsplit, append_assoc]
      rfl
    · refine forall_mem_append.mpr ⟨h.genuine, fun a hmem => ?_⟩
      exact mem_singleton.mp hmem ▸ ha
    · dsimp only
      rw [map_append]
      refine nodup_append.mpr ⟨h.nodup, nodup_singleton _, ?_⟩
      rintro a hmem b hb rfl
      exact hfresh (mem_singleton.mp hb ▸ hmem)
  · have hrequest : s.request hmac r = { s with hub := (s.hub.authenticate hmac r (s.clock / second) s.clock).1 } := by
      unfold State.request
      dsimp only
      rw [hrefused]
    rw [hrequest] at hfew ⊢
    rcases heq with heq | heq
    · rw [heq]
      exact h
    · rw [heq]
      exact h.evict hfew

theorem accepted_request (s : State ι) (hmac : List UInt8 → List UInt8 → List UInt8) (r : Request) :
    s.accepted.Sublist (s.request hmac r).accepted := by
  unfold State.request
  dsimp only
  split
  · exact sublist_append_left _ _
  · exact List.Sublist.refl _

theorem accepted_answer [DecidableEq ι] (s : State ι) (i : ι) (after : Option String) (begun seen : ℕ) :
    (s.answer i after begun seen).accepted = s.accepted ∧ (s.answer i after begun seen).hub = s.hub ∧
      (s.answer i after begun seen).clock = s.clock := by
  unfold State.answer
  dsimp only
  split <;> exact ⟨rfl, rfl, rfl⟩

theorem Step.accepted [DecidableEq ι] (hstep : Step hmac s s') : s.accepted.Sublist s'.accepted := by
  cases hstep with
  | request r => exact accepted_request s hmac r
  | answer i after begun seen hphase => exact (accepted_answer s i after begun seen).1 ▸ List.Sublist.refl _
  | _ => exact List.Sublist.refl _

include h in
theorem Guarded.congr (hsecret : s'.hub.secret = s.hub.secret) (hseen : s'.hub.seen = s.hub.seen)
    (hclock : s.clock ≤ s'.clock) (haccepted : s'.accepted = s.accepted) : Guarded hmac secret s' := by
  obtain ⟨old, hsplit, hold⟩ := h.forgotten
  refine ⟨hsecret.trans h.secret_eq, hseen ▸ h.sorted, fun e he => ?_, hseen ▸ h.set_eq, ⟨old, ?_, fun e he => ?_⟩,
    haccepted ▸ h.genuine, haccepted ▸ h.nodup⟩
  · rw [hseen] at he
    exact (h.le_clock e he).trans hclock
  · rw [haccepted, hseen]
    exact hsplit
  · exact (hold e he).trans hclock

theorem Guarded.step [DecidableEq ι] (h : Guarded hmac secret s) (hstep : Step hmac s s') (hfew : Few s'.accepted)
    (hcollision : NoCollision hmac secret s'.accepted) : Guarded hmac secret s' := by
  cases hstep with
  | notify repoId =>
    have hframe : (s.hub.notify repoId).secret = s.hub.secret ∧ (s.hub.notify repoId).seen = s.hub.seen := by
      unfold WakeHub.notify
      split <;> exact ⟨rfl, rfl⟩
    exact h.congr hframe.1 hframe.2 le_rfl rfl
  | tick clock hle => exact h.congr rfl rfl hle rfl
  | request r => exact h.request r hfew hcollision
  | answer i after begun seen hphase =>
    obtain ⟨haccepted, hhub, hclock⟩ := accepted_answer s i after begun seen
    exact h.congr (congrArg WakeHub.secret hhub) (congrArg WakeHub.seen hhub) hclock.ge haccepted
  | _ => exact h.congr rfl rfl le_rfl rfl

theorem Reachable.guarded [DecidableEq ι] {digest : List UInt8} {repos : SortedMap String WakeRepo}
    (h : Reachable hmac (WakeHub.new secret digest repos) s) (hfew : Few s.accepted)
    (hcollision : NoCollision hmac secret s.accepted) : Guarded hmac secret s := by
  induction h with
  | refl => exact ⟨rfl, List.Pairwise.nil, nofun, rfl, ⟨[], rfl, nofun⟩, nofun, nodup_nil⟩
  | @tail s s' _ hstep ih =>
    have hsub := hstep.accepted
    have hbefore := ih (hfew.sublist hsub) fun a ha b hb => hcollision a (hsub.subset ha) b (hsub.subset hb)
    exact hbefore.step hstep hfew hcollision

end Guarded

/-! ### Runs -/

/-- What the answers of a runner say of the history of wakes. -/
structure Informed (epoch : String) (notified : List String) (given : List Given) : Prop where
  /-- A cursor is of the state that the answer described. -/
  cursor : ∀ g ∈ given, cursorSeq epoch g.body.cursor = some g.made ∧ g.made ≤ notified.length
  /-- The next answer that is not a timeout lists all wakes since an answer. -/
  nothing_missed : ∀ earlier a timeouts b later, given = earlier ++ a :: (timeouts ++ b :: later) →
    (∀ g ∈ timeouts, g.timedOut = true) → b.timedOut = false →
    b.body.resync = true ∨ ∀ r ∈ (notified.take b.made).drop a.made, r ∈ b.body.repos.map Prod.fst
  /-- A timed-out answer lists nothing, and its cursor is still the one it was asked with. -/
  timed_out : ∀ earlier a b later, given = earlier ++ a :: b :: later → b.timedOut = true →
    b.body.resync = false ∧ b.body.repos = [] ∧ b.body.cursor = a.body.cursor ∧ b.made = a.made
  /-- Without resync, only wakes after the given cursor are listed. -/
  nothing_else : ∀ g ∈ given, g.body.resync = false → ∀ r ∈ g.body.repos.map Prod.fst,
    ∃ after n, g.after = some after ∧ cursorSeq epoch after = some n ∧ r ∈ (notified.take g.made).drop n
  /-- A wake that came once a request with a cursor had begun is in its answer, or after the answer's cursor. -/
  told_or_left : ∀ g ∈ given, g.after ≠ none → ∀ i r, g.begun ≤ i → notified[i]? = some r →
    g.body.resync = true ∨ r ∈ g.body.repos.map Prod.fst ∨ g.made ≤ i

section Informed

variable {epoch : String} {notified : List String} {r : Runner}

variable {earlier later : List Given} {a b : Given}

theorem Served.next_of_split (h : Served epoch notified r) (heq : r.given = earlier ++ a :: b :: later) : Next a b := by
  have hchain := h.next
  rw [heq, isChain_append_cons_cons] at hchain
  exact hchain.2.1

theorem Served.previous (h : Served epoch notified r) {g : Given} (hg : g ∈ r.given) (hafter : g.after ≠ none) :
    ∃ earlier a later, r.given = earlier ++ a :: g :: later := by
  obtain ⟨earlier, later, heq⟩ := append_of_mem hg
  rcases eq_nil_or_concat earlier with rfl | ⟨earlier, a, rfl⟩
  · exact absurd (h.first g (by rw [heq]; rfl)) hafter
  · exact ⟨earlier, a, later, by rw [heq, concat_eq_append, append_assoc]; rfl⟩

variable (h : Served epoch notified r) (hdot : '.' ∉ epoch.toList)

include h hdot in
/-- What an answer lists without resync: the wakes since the one before it. -/
theorem Served.listed (heq : r.given = earlier ++ a :: b :: later) (hresync : b.body.resync = false) (repoId : String) :
    repoId ∈ b.body.repos.map Prod.fst ↔ repoId ∈ (notified.take b.made).drop a.made := by
  have ha := h.told a (by rw [heq]; simp)
  have hb := h.told b (by rw [heq]; simp)
  obtain ⟨n, hn, hrepos⟩ := hb.listed hresync _ (h.next_of_split heq).after_eq
  rw [ha.cursor_eq, cursorSeq_cursorText hdot] at hn
  obtain rfl := Option.some.inj hn
  exact hrepos repoId

include h hdot in
theorem Served.timed_out (heq : r.given = earlier ++ a :: b :: later) (htimeout : b.timedOut = true) :
    b.body.resync = false ∧ b.body.repos = [] ∧ b.body.cursor = a.body.cursor ∧ b.made = a.made := by
  have ha := h.told a (by rw [heq]; simp)
  have hb := h.told b (by rw [heq]; simp)
  obtain ⟨hresync, hrepos⟩ := hb.timed_out htimeout
  have hnone : (notified.take b.made).drop a.made = [] := by
    refine eq_nil_iff_forall_not_mem.mpr fun repoId hmem => ?_
    rw [← h.listed hdot heq hresync, hrepos] at hmem
    cases hmem
  have hmade : b.made = a.made := by
    have hle := drop_eq_nil_iff.mp hnone
    rw [length_take, min_eq_left hb.made_le] at hle
    exact le_antisymm hle ((h.next_of_split heq).made_le.trans hb.begun_le)
  exact ⟨hresync, hrepos, by rw [hb.cursor_eq, ha.cursor_eq, hmade], hmade⟩

include h hdot in
theorem Served.nothing_missed {timeouts : List Given}
    (htimeouts : ∀ g ∈ timeouts, g.timedOut = true) (heq : r.given = earlier ++ a :: (timeouts ++ b :: later)) :
    b.body.resync = true ∨ ∀ r ∈ (notified.take b.made).drop a.made, r ∈ b.body.repos.map Prod.fst := by
  -- A timed-out answer leaves the runner where it was.
  induction timeouts generalizing earlier a with
  | nil =>
    by_cases hresync : b.body.resync = true
    · exact .inl hresync
    · exact .inr fun repoId hmem => (h.listed hdot heq (Bool.eq_false_of_not_eq_true hresync) repoId).mpr hmem
  | cons g timeouts ih =>
    obtain ⟨htimeout, htimeouts⟩ := forall_mem_cons.mp htimeouts
    obtain ⟨-, -, -, hmade⟩ := h.timed_out hdot heq htimeout
    rw [← hmade]
    have hsplit : r.given = (earlier ++ [a]) ++ g :: (timeouts ++ b :: later) := by
      rw [heq, append_assoc]
      rfl
    exact ih htimeouts hsplit

include h hdot in
theorem Served.informed : Informed epoch notified r.given := by
  refine ⟨fun g hg => ?_, ?_, ?_, fun g hg hresync repoId hmem => ?_, fun g hg hafter i repoId hbegun hget => ?_⟩
  · rw [(h.told g hg).cursor_eq]
    exact ⟨cursorSeq_cursorText hdot g.made, (h.told g hg).made_le⟩
  · exact fun earlier a timeouts b later heq htimeouts _ => h.nothing_missed hdot htimeouts heq
  · exact fun earlier a b later heq htimeout => h.timed_out hdot heq htimeout
  · cases hafter : g.after with
    | none =>
      rw [((h.told g hg).first hafter).2.1] at hmem
      cases hmem
    | some after =>
      obtain ⟨n, hn, hrepos⟩ := (h.told g hg).listed hresync after hafter
      exact ⟨after, n, rfl, hn, (hrepos repoId).mp hmem⟩
  · obtain ⟨earlier, a, later, heq⟩ := h.previous hg hafter
    by_cases hresync : g.body.resync = true
    · exact .inl hresync
    · by_cases hleft : g.made ≤ i
      · exact .inr (.inr hleft)
      · refine .inr (.inl ?_)
        have hmade := (h.next_of_split heq).made_le
        rw [h.listed hdot heq (Bool.eq_false_of_not_eq_true hresync), mem_iff_getElem?]
        refine ⟨i - a.made, ?_⟩
        rw [getElem?_drop, Nat.add_sub_cancel' (by omega), getElem?_take_of_lt (by omega), hget]

end Informed

/-- A request that waits is woken by any wake after its answer was made. -/
theorem Inv.waiting {s : State ι} (h : Inv s) {i : ι} {after : Option String} {begun seen made : ℕ} {a : Answer}
    (hphase : (s.runner i).phase = .waiting after begun seen made a) (hlt : made < s.notified.length) :
        s.hub.seq ≠ seen := by
  have hasking := (h.served i).asking
  rw [Asking, hphase] at hasking
  obtain ⟨-, -, -, hseen, -⟩ := hasking
  rw [h.holds.seq_eq]
  omega

/-- A cursor is resynced exactly where it has no number of the epoch, or one from the future or older than the oldest
wake kept less one. -/
theorem Inv.resync {s : State ι} (h : Inv s) (after : String) : (s.hub.answer (some after)).resync = true ↔
    ∀ n, cursorSeq s.hub.epoch after = some n → s.hub.seq < n ∨ ∃ w ∈ s.hub.wakes.head?, n + 1 < w.1 := by
  have holdest := h.holds.oldest
  rw [(answer_spec h.holds after).1]
  refine forall_congr' fun n => imp_congr_right fun _ => ?_
  rw [h.holds.seq_eq] at holdest ⊢
  refine or_congr_right ?_
  cases hhead : s.hub.wakes.head? with
  | none =>
    rw [hhead] at holdest
    simp only [Option.map_none, Option.getD_none] at holdest
    have hring := ring_pos
    refine iff_of_false (by omega) ?_
    rintro ⟨w, hw, -⟩
    cases hw
  | some w =>
    rw [hhead] at holdest
    simp only [Option.map_some, Option.getD_some] at holdest
    have hiff : n + ring < s.notified.length ↔ n + 1 < w.1 := by omega
    rw [hiff]
    constructor
    · exact fun hlt => ⟨w, rfl, hlt⟩
    · rintro ⟨w', hw', hlt⟩
      obtain rfl := Option.some.inj hw'
      exact hlt

/-- In every run the wakes are numbered without a gap and the last of them are kept, so a cursor is resynced exactly where it
must be; what runners are told misses no wake and invents none; a waiting request sees the watch change for any wake; and
while few requests are accepted in any window, no signature is accepted twice. -/
theorem wake_spec [DecidableEq ι] (hmac : List UInt8 → List UInt8 → List UInt8) (secret digest : List UInt8)
    (repos : SortedMap String WakeRepo) (s : State ι) (h : Reachable hmac (WakeHub.new secret digest repos) s) :
    (s.hub.seq = s.notified.length ∧ s.hub.wakes = (numbered s.notified).drop (s.notified.length - ring)) ∧
    (∀ after, (s.hub.answer (some after)).resync = true ↔
      ∀ n, cursorSeq s.hub.epoch after = some n → s.hub.seq < n ∨ ∃ w ∈ s.hub.wakes.head?, n + 1 < w.1) ∧
    (∀ i, Informed s.hub.epoch s.notified (s.runner i).given) ∧
    (∀ i after begun seen made a, (s.runner i).phase = .waiting after begun seen made a → made < s.notified.length →
      s.hub.seq ≠ seen) ∧
    (Few s.accepted → NoCollision hmac secret s.accepted → (s.accepted.map Accepted.signature).Nodup) := by
  have hinv := h.inv
  refine ⟨⟨hinv.holds.seq_eq, hinv.holds.wakes_eq⟩, hinv.resync, fun i => (hinv.served i).informed hinv.dot, ?_, ?_⟩
  · exact fun i after begun seen made a hphase hlt => hinv.waiting hphase hlt
  · exact fun hfew hcollision => (h.guarded hfew hcollision).nodup

def sampleHub : WakeHub :=
    WakeHub.new [] [0xab, 0xcd] (SortedMap.empty.insert "R1" { name := "O/one", label := "alice/one" })

/-- The last 32 bytes of a message, in place of its code. -/
def sampleHmac (_ message : List UInt8) : List UInt8 := (message.reverse ++ replicate 32 0).take 32

def sampleRequest : Request where
  pathAndQuery := "/v1/wakes"
  time := some "0"
  signature := some ("sha256=" ++ hexEncode (sampleHmac [] (utf8 (requestMessage "/v1/wakes" 0))))

/-- A runner's request, as it subscribes. -/
def State.subscribe (s : State Unit) : State Unit :=
  s.setPhase () (.answering (s.runner ()).cursor s.notified.length s.hub.seq)

/-- A request is accepted and refused when it is sent again; a runner asks once, then a wake comes, and it asks again. -/
def sampleRun : State Unit :=
  let s : State Unit := (({ hub := sampleHub } : State Unit).request sampleHmac sampleRequest).request
    sampleHmac sampleRequest
  let s := (s.subscribe.answer () none 0 0).notify "R1"
  s.subscribe.answer () (s.runner ()).cursor 1 1

theorem reachable_sampleRun : Reachable sampleHmac sampleHub sampleRun := by
  have hstart : Reachable sampleHmac sampleHub ({ hub := sampleHub } : State Unit) := .refl
  have hrefused := (hstart.tail (Step.request _ sampleRequest)).tail (Step.request _ sampleRequest)
  have hfirst := hrefused.tail (Step.subscribe _ () (by decide +kernel))
  have hwake := (hfirst.tail (Step.answer _ () none 0 0 (by decide +kernel))).tail (Step.notify _ "R1")
  exact (hwake.tail (Step.subscribe _ () (by decide +kernel))).tail (Step.answer _ () _ 1 1 (by decide +kernel))

theorem wake_spec_sample :
    (sampleRun.runner ()).given.map (fun g => g.body.repos.map Prod.fst) = [[], ["R1"]] ∧
    Informed sampleRun.hub.epoch sampleRun.notified (sampleRun.runner ()).given ∧
    sampleRun.accepted.length = 1 ∧ (sampleRun.accepted.map Accepted.signature).Nodup := by
  obtain ⟨-, -, hinformed, -, honce⟩ := wake_spec sampleHmac [] [0xab, 0xcd] _ sampleRun reachable_sampleRun
  have hone : sampleRun.accepted.length = 1 := by decide +kernel
  refine ⟨by decide +kernel, hinformed (), hone, honce (fun t => ?_) fun a ha b hb _ => ?_⟩
  · exact countP_le_length.trans_lt (hone ▸ by decide +kernel)
  · obtain ⟨x, hx⟩ := length_eq_one_iff.mp hone
    rw [hx, mem_singleton] at ha hb
    rw [ha, hb]

end DashForge.Wake
