import DashForge.Merge.Objects

/-!
# The commits a merge adds

What the walk of `newCommits` keeps (`WalkInv`): what it paints the base repository has, and a commit it took has its
parents queued. So it takes every commit the base repository has not, whatever the times of the commits are, and as
each round takes a commit that was read, it ends.
-/

namespace DashForge.Git

open List Except

variable {reader : ObjectReader} {cap : ℕ} {tip : String} {have_ : List String}
  {pending : List String} {n : ℕ} {w w' : CommitWalk}

/-- What the base repository has of a history. -/
def Has (reader : ObjectReader) (have_ : List String) (c : String) : Prop := ∃ h ∈ have_, h ≠ "" ∧ Reaches reader h c

variable {p oid : String}

variable {c : String} {bad : Bool}

theorem Has.parent (h : Has reader have_ c) (hp : Parent reader c p) : Has reader have_ p := by
  obtain ⟨r, hr, hne, hreach⟩ := h
  exact ⟨r, hr, hne, hreach.tail hp⟩

/-- A commit that can be read. -/
def IsCommit (reader : ObjectReader) (c : String) : Prop := ∃ obj, reader c = .ok obj ∧ obj.type = .commit

/-- What the walk keeps after `n` commits were taken. Those of `pending` are queued next. -/
structure WalkInv (reader : ObjectReader) (cap : ℕ) (tip : String) (have_ pending : List String) (n : ℕ)
    (w : CommitWalk) : Prop where
  keys : w.info.map Prod.fst = w.queued
  bound : w.info.length ≤ cap
  read : ∀ e ∈ w.info, ∃ obj, reader e.1 = .ok obj ∧ obj.type = .commit ∧ parseCommit obj.bytes = e.2
  nodup : w.queued.Nodup
  taken : w.queued.length = w.queue.length + n
  queue : ∀ q ∈ w.queue, q.1 ∈ w.queued
  painted : ∀ c ∈ w.uninteresting, Has reader have_ c
  reached : ∀ c ∈ w.queued, Reaches reader tip c ∨ c ∈ w.uninteresting
  out : ∀ c ∈ w.out, Reaches reader tip c ∧ ∀ p, Parent reader c p → p ∈ w.queued ∨ p ∈ pending
  tip : tip ∈ w.queued ∨ tip ∈ pending
  kept : ∀ c ∈ w.out, c ∈ w.queued
  /-- What was taken is kept or painted. -/
  done : ∀ c ∈ w.queued, c ∉ w.queue.map Prod.fst → c ∈ w.out ∨ c ∈ w.uninteresting

namespace WalkInv

theorem drop (h : WalkInv reader cap tip have_ (p :: pending) n w) (hp : p ∈ w.queued) :
    WalkInv reader cap tip have_ pending n w := by
  have hdrop {q : String} (hq : q ∈ w.queued ∨ q ∈ p :: pending) : q ∈ w.queued ∨ q ∈ pending := by
    rcases hq with hq | hq
    · exact .inl hq
    · rcases mem_cons.mp hq with rfl | hq
      · exact .inl hp
      · exact .inr hq
  exact ⟨h.keys, h.bound, h.read, h.nodup, h.taken, h.queue, h.painted, h.reached,
    fun c hc => ⟨(h.out c hc).1, fun q hq => hdrop ((h.out c hc).2 q hq)⟩, hdrop h.tip, h.kept, h.done⟩

theorem addPainted (h : WalkInv reader cap tip have_ pending n w) (hp : Has reader have_ p) :
    WalkInv reader cap tip have_ pending n { w with uninteresting := p :: w.uninteresting } where
  keys := h.keys
  bound := h.bound
  read := h.read
  nodup := h.nodup
  taken := h.taken
  queue := h.queue
  painted c hc := by
    rcases mem_cons.mp hc with rfl | hc
    · exact hp
    · exact h.painted c hc
  reached c hc := (h.reached c hc).imp_right fun hmem => mem_cons_of_mem _ hmem
  out := h.out
  tip := h.tip
  kept := h.kept
  done c hc hnot := (h.done c hc hnot).imp_right fun hmem => mem_cons_of_mem _ hmem

theorem addQueued {obj : GitObject} (h : WalkInv reader cap tip have_ (p :: pending) n w)
    (hread : reader p = .ok obj) (htype : obj.type = .commit) (hnew : p ∉ w.queued) (hcap : w.info.length < cap)
    (hreach : Reaches reader tip p ∨ p ∈ w.uninteresting) : WalkInv reader cap tip have_ pending n { w with
        info := w.info ++ [(p, parseCommit obj.bytes)]
        queued := w.queued ++ [p]
        queue := w.queue ++ [(p, (parseCommit obj.bytes).when)] } := by
  have hpending {q : String} (hq : q ∈ w.queued ∨ q ∈ p :: pending) : q ∈ w.queued ++ [p] ∨ q ∈ pending := by
    rcases hq with hq | hq
    · exact .inl (mem_append_left _ hq)
    · rcases mem_cons.mp hq with rfl | hq
      · exact .inl (mem_append_right _ (mem_singleton_self _))
      · exact .inr hq
  refine ⟨?_, ?_, fun e he => ?_, ?_, ?_, fun q hq => ?_, h.painted, fun c hc => ?_,
    fun c hc => ⟨(h.out c hc).1, fun q hq => hpending ((h.out c hc).2 q hq)⟩, hpending h.tip,
    fun c hc => mem_append_left _ (h.kept c hc), fun c hc hnot => ?_⟩
  · simp [h.keys]
  · rw [length_append]
    exact hcap
  · rcases mem_append.mp he with he | he
    · exact h.read e he
    · rw [mem_singleton.mp he]
      exact ⟨obj, hread, htype, rfl⟩
  · exact nodup_append.mpr ⟨h.nodup, nodup_singleton p, fun a ha b hb heq =>
      hnew (mem_singleton.mp hb ▸ heq ▸ ha)⟩
  · have htaken := h.taken
    simp only [length_append, length_cons, length_nil]
    omega
  · rcases mem_append.mp hq with hq | hq
    · exact mem_append_left _ (h.queue q hq)
    · rw [mem_singleton.mp hq]
      exact mem_append_right _ (mem_singleton_self _)
  · rcases mem_append.mp hc with hc | hc
    · exact h.reached c hc
    · rw [mem_singleton.mp hc]
      exact hreach
  · simp only [map_append, map_cons, map_nil, mem_append, mem_singleton, not_or] at hnot
    rcases mem_append.mp hc with hc | hc
    · exact h.done c hc hnot.1
    · exact absurd (mem_singleton.mp hc) hnot.2

end WalkInv

theorem WalkInv.isCommit (h : WalkInv reader cap tip have_ pending n w) (hc : c ∈ w.queued) : IsCommit reader c := by
  rw [← h.keys] at hc
  obtain ⟨e, he, rfl⟩ := mem_map.mp hc
  obtain ⟨obj, hread, htype, -⟩ := h.read e he
  exact ⟨obj, hread, htype⟩

/-! ### Queueing -/

theorem lookup_eq_none (hkeys : w.info.map Prod.fst = w.queued) (h : oid ∉ w.queued) : w.info.lookup oid = none := by
  rw [lookup_eq_none_iff]
  intro e he
  rw [bne_iff_ne]
  rintro rfl
  exact h (hkeys ▸ mem_map_of_mem he)

theorem enqueue_eq (hkeys : w.info.map Prod.fst = w.queued) (hnew : oid ∉ w.queued) :
    CommitWalk.enqueue reader cap w oid = if cap ≤ w.info.length then .error (.walkLimit cap "commit") else
        match reader oid with
        | .error e => .error e
        | .ok obj =>
          if obj.type ≠ .commit then .error (isA oid obj.type "commit") else .ok { w with
            info := w.info ++ [(oid, parseCommit obj.bytes)]
            queued := w.queued ++ [oid]
            queue := w.queue ++ [(oid, (parseCommit obj.bytes).when)] } := by
  rw [CommitWalk.enqueue, if_neg hnew, CommitWalk.load]
  simp only [lookup_eq_none hkeys hnew]
  by_cases hcap : cap ≤ w.info.length
  · simp [refuseIf, hcap]
  · cases hread : reader oid with
    | error e => simp [refuseIf, hcap]
    | ok obj =>
      by_cases htype : obj.type = .commit
      · simp [refuseIf, hcap, htype]
      · simp [refuseIf, hcap, htype]

/-- Every commit the walk can come to is one of `L`, and can be read. -/
structure WithinCaps (reader : ObjectReader) (cap : ℕ) (tip : String) (have_ L : List String) : Prop where
  length : L.length ≤ cap
  mem : ∀ c, Reaches reader tip c ∨ Has reader have_ c → c ∈ L ∧ IsCommit reader c

theorem WalkInv.info_lt {L : List String} (h : WalkInv reader cap tip have_ pending n w)
    (hcaps : WithinCaps reader cap tip have_ L) (hnew : p ∉ w.queued) (hp : Reaches reader tip p ∨ Has reader have_ p) :
    w.info.length < cap := by
  have hnodup : (p :: w.queued).Nodup := nodup_cons.mpr ⟨hnew, h.nodup⟩
  have hsub : p :: w.queued ⊆ L := by
    intro c hc
    rcases mem_cons.mp hc with rfl | hc
    · exact (hcaps.mem _ hp).1
    · exact (hcaps.mem c ((h.reached c hc).imp_right (h.painted c))).1
  have hle := (subperm_of_subset hnodup hsub).length_le
  have hinfo : w.info.length = w.queued.length := by rw [← h.keys, length_map]
  have hcap := hcaps.length
  rw [length_cons] at hle
  omega

theorem WalkInv.enqueue (h : WalkInv reader cap tip have_ (p :: pending) n w)
    (hreach : Reaches reader tip p ∨ p ∈ w.uninteresting) :
    (∀ w', CommitWalk.enqueue reader cap w p = .ok w' → WalkInv reader cap tip have_ pending n w') ∧
    ((∃ L, WithinCaps reader cap tip have_ L) → ∃ w', CommitWalk.enqueue reader cap w p = .ok w') := by
  by_cases hmem : p ∈ w.queued
  · have heq : CommitWalk.enqueue reader cap w p = .ok w := if_pos hmem
    refine ⟨fun w' hw' => ?_, fun _ => ⟨w, heq⟩⟩
    obtain rfl := ok.inj (heq.symm.trans hw')
    exact h.drop hmem
  · rw [enqueue_eq h.keys hmem]
    refine ⟨fun w' hw' => ?_, fun ⟨L, hcaps⟩ => ?_⟩
    · split at hw'
      · cases hw'
      · next hcap =>
        split at hw'
        · cases hw'
        · next obj hread =>
          split at hw'
          · cases hw'
          · next htype =>
            obtain rfl := ok.inj hw'
            exact h.addQueued hread (Classical.not_not.mp htype) hmem (Nat.lt_of_not_le hcap) hreach
    · have hp : Reaches reader tip p ∨ Has reader have_ p := hreach.imp_right (h.painted p)
      obtain ⟨-, obj, hread, htype⟩ := hcaps.mem p hp
      rw [if_neg (Nat.not_le.mpr (h.info_lt hcaps hmem hp)), hread]
      exact ⟨_, if_neg (fun hnot => hnot htype)⟩

theorem WalkInv.paint (h : WalkInv reader cap tip have_ (p :: pending) n w)
    (hbad : bad = true → Has reader have_ p) (hgood : bad = false → Reaches reader tip p) :
    (∀ w', CommitWalk.paint reader cap bad w p = .ok w' → WalkInv reader cap tip have_ pending n w') ∧
    ((∃ L, WithinCaps reader cap tip have_ L) → ∃ w', CommitWalk.paint reader cap bad w p = .ok w') := by
  cases bad with
  | true => exact (h.addPainted (hbad rfl)).enqueue (.inr mem_cons_self)
  | false => exact h.enqueue (.inl (hgood rfl))

theorem WalkInv.paintAll {ps : List String} (h : WalkInv reader cap tip have_ (ps ++ pending) n w)
    (hbad : ∀ p ∈ ps, bad = true → Has reader have_ p) (hgood : ∀ p ∈ ps, bad = false → Reaches reader tip p) :
    (∀ w', ps.foldlM (CommitWalk.paint reader cap bad) w = .ok w' → WalkInv reader cap tip have_ pending n w') ∧
    ((∃ L, WithinCaps reader cap tip have_ L) → ∃ w', ps.foldlM (CommitWalk.paint reader cap bad) w = .ok w') := by
  induction ps generalizing w with
  | nil =>
    refine ⟨fun w' hw' => ?_, fun _ => ⟨w, rfl⟩⟩
    obtain rfl := ok.inj hw'
    exact h
  | cons p ps ih =>
    obtain ⟨hkeeps, hruns⟩ := WalkInv.paint h (hbad p mem_cons_self) (hgood p mem_cons_self)
    have hrest {w₁ : CommitWalk} (h₁ : CommitWalk.paint reader cap bad w p = .ok w₁) :=
      ih (hkeeps w₁ h₁) (fun q hq => hbad q (mem_cons_of_mem _ hq)) (fun q hq => hgood q (mem_cons_of_mem _ hq))
    refine ⟨fun w' hw' => ?_, fun hcaps => ?_⟩
    · rw [foldlM_cons] at hw'
      obtain ⟨w₁, h₁, hw'⟩ := bind_eq_ok.mp hw'
      exact (hrest h₁).1 w' hw'
    · obtain ⟨w₁, h₁⟩ := hruns hcaps
      obtain ⟨w', hw'⟩ := (hrest h₁).2 hcaps
      exact ⟨w', by rw [foldlM_cons, h₁]; exact hw'⟩

/-! ### Rounds -/

theorem bestIndex_lt {queue : List (String × ℕ)} (h : queue ≠ []) : bestIndex queue < queue.length := by
  have hpos : 0 < queue.length := length_pos_iff.mpr h
  have hfold (when : ℕ → ℕ) (l : List ℕ) (best : ℕ) (hl : ∀ i ∈ l, i < queue.length) (hbest : best < queue.length) :
      l.foldl (fun best i => if when best < when i then i else best) best < queue.length := by
    induction l generalizing best with
    | nil => exact hbest
    | cons i l ih =>
      refine ih _ (fun j hj => hl j (mem_cons_of_mem _ hj)) ?_
      dsimp only
      split
      · exact hl i mem_cons_self
      · exact hbest
  exact hfold _ _ 0 (fun i hi => mem_range.mp hi) hpos

theorem WalkInv.lookup (h : WalkInv reader cap tip have_ pending n w) (hmem : oid ∈ w.queued) :
    ∃ c, w.info.lookup oid = some c ∧ ∀ p, Parent reader oid p ↔ p ∈ c.parents := by
  have hne : w.info.lookup oid ≠ none := by
    rw [Ne, lookup_eq_none_iff]
    intro hall
    rw [← h.keys] at hmem
    obtain ⟨e, he, rfl⟩ := mem_map.mp hmem
    exact absurd (hall e he) (by simp)
  obtain ⟨c, hc⟩ := Option.ne_none_iff_exists'.mp hne
  refine ⟨c, hc, fun p => ?_⟩
  obtain ⟨l₁, l₂, hinfo, -⟩ := lookup_eq_some_iff.mp hc
  obtain ⟨obj, hread, htype, hparse⟩ := h.read (oid, c) (hinfo ▸ mem_append_right _ mem_cons_self)
  dsimp only at hread hparse
  constructor
  · rintro ⟨obj', hread', -, hp⟩
    obtain rfl := ok.inj (hread.symm.trans hread')
    exact hparse ▸ hp
  · exact fun hp => ⟨obj, hread, htype, hparse ▸ hp⟩

theorem WalkInv.pop {i : ℕ} (h : WalkInv reader cap tip have_ [] n w) (hlt : i < w.queue.length) {c : CommitInfo}
    (hparents : ∀ p, Parent reader w.queue[i].1 p ↔ p ∈ c.parents) :
    WalkInv reader cap tip have_ (c.parents ++ []) (n + 1)
      { w with
        queue := w.queue.eraseIdx i
        out := if w.queue[i].1 ∈ w.uninteresting then w.out else w.out ++ [w.queue[i].1] } := by
  have hqueued : w.queue[i].1 ∈ w.queued := h.queue _ (getElem_mem hlt)
  have hkept : w.queue[i].1 ∈ (if w.queue[i].1 ∈ w.uninteresting then w.out else w.out ++ [w.queue[i].1]) ∨
      w.queue[i].1 ∈ w.uninteresting := by
    split
    · next hbad => exact .inr hbad
    · exact .inl (mem_append_right _ (mem_singleton_self _))
  have hold {x : String} (hx : x ∈ w.out) :
      x ∈ (if w.queue[i].1 ∈ w.uninteresting then w.out else w.out ++ [w.queue[i].1]) := by
    split
    · exact hx
    · exact mem_append_left _ hx
  refine ⟨h.keys, h.bound, h.read, h.nodup, ?_, fun q hq => h.queue q (mem_of_mem_eraseIdx hq), h.painted, h.reached,
    fun x hx => ?_, ?_, fun x hx => ?_, fun x hx hnot => ?_⟩
  · have htaken := h.taken
    have hlength := length_eraseIdx_add_one hlt
    dsimp only at *
    omega
  · dsimp only at hx
    have hkeep (hx : x ∈ w.out) := h.out x hx
    split at hx
    · exact ⟨(hkeep hx).1, fun p hp => .inl (((hkeep hx).2 p hp).resolve_right (by simp))⟩
    · next hgood =>
      rcases mem_append.mp hx with hx | hx
      · exact ⟨(hkeep hx).1, fun p hp => .inl (((hkeep hx).2 p hp).resolve_right (by simp))⟩
      · rw [mem_singleton.mp hx]
        exact ⟨(h.reached _ hqueued).resolve_right hgood, fun p hp => .inr (mem_append_left _ ((hparents p).mp hp))⟩
  · exact .inl (h.tip.resolve_right (by simp))
  · dsimp only at hx
    have hold (hx : x ∈ w.out) := h.kept x hx
    split at hx
    · exact hold hx
    · rcases mem_append.mp hx with hx | hx
      · exact hold hx
      · exact mem_singleton.mp hx ▸ hqueued
  · by_cases heq : x = w.queue[i].1
    · subst heq
      exact hkept
    · have hnotin : x ∉ w.queue.map Prod.fst := by
        intro hmem
        obtain ⟨q, hq, rfl⟩ := mem_map.mp hmem
        have hne : q ≠ w.queue[i] := fun hqi => heq (by rw [hqi])
        obtain ⟨j, hj, hqj⟩ := getElem_of_mem hq
        have hji : j ≠ i := fun hji => hne (by subst hji; exact hqj.symm)
        exact hnot (mem_map_of_mem (mem_eraseIdx_iff_getElem.mpr ⟨j, hj, hji, hqj⟩))
      exact (h.done x hx hnotin).imp_left hold

theorem WalkInv.takeBest (h : WalkInv reader cap tip have_ [] n w) (hne : w.queue ≠ []) :
    (∀ w', CommitWalk.takeBest reader cap w = .ok w' → WalkInv reader cap tip have_ [] (n + 1) w') ∧
    ((∃ L, WithinCaps reader cap tip have_ L) → ∃ w', CommitWalk.takeBest reader cap w = .ok w') := by
  have hlt := bestIndex_lt hne
  have hqueued : w.queue[bestIndex w.queue].1 ∈ w.queued := h.queue _ (getElem_mem hlt)
  obtain ⟨c, hlookup, hparents⟩ := h.lookup hqueued
  have hpop := h.pop hlt hparents
  have heq : CommitWalk.takeBest reader cap w = c.parents.foldlM
      (CommitWalk.paint reader cap (decide (w.queue[bestIndex w.queue].1 ∈ w.uninteresting)))
      { w with
        queue := w.queue.eraseIdx (bestIndex w.queue)
        out := if w.queue[bestIndex w.queue].1 ∈ w.uninteresting then w.out
          else w.out ++ [w.queue[bestIndex w.queue].1] } := by
    rw [CommitWalk.takeBest, getElem?_eq_getElem hlt]
    simp only [CommitWalk.load, hlookup, ok_bind]
    by_cases hbad : w.queue[bestIndex w.queue].1 ∈ w.uninteresting <;> simp [hbad]
  rw [heq]
  refine hpop.paintAll (fun p hp hbad => ?_) fun p hp hgood => ?_
  · exact (h.painted _ (of_decide_eq_true hbad)).parent ((hparents p).mpr hp)
  · exact ((h.reached _ hqueued).resolve_right (of_decide_eq_false hgood)).tail ((hparents p).mpr hp)

theorem WalkInv.rounds {m : ℕ} (h : WalkInv reader cap tip have_ [] n w) (hm : cap ≤ m + n) :
    (∀ w', CommitWalk.rounds reader cap m w = .ok w' →
      (∃ n', WalkInv reader cap tip have_ [] n' w') ∧ ∀ q ∈ w'.queue, q.1 ∈ w'.uninteresting) ∧
    ((∃ L, WithinCaps reader cap tip have_ L) → ∃ w', CommitWalk.rounds reader cap m w = .ok w') := by
  induction m generalizing n w with
  | zero =>
    have hqueue : w.queue = [] := by
      have htaken := h.taken
      have hbound := h.bound
      rw [← h.keys, length_map] at htaken
      exact length_eq_zero_iff.mp (by omega)
    refine ⟨fun w' hw' => ?_, fun _ => ⟨w, rfl⟩⟩
    obtain rfl := ok.inj hw'
    exact ⟨⟨n, h⟩, by simp [hqueue]⟩
  | succ m ih =>
    rw [CommitWalk.rounds]
    split
    · next hleft =>
      obtain ⟨q, hq, -⟩ := hleft
      obtain ⟨hkeeps, hruns⟩ := h.takeBest (ne_nil_of_mem hq)
      have hrest {w₁ : CommitWalk} (h₁ : CommitWalk.takeBest reader cap w = .ok w₁) := ih (hkeeps w₁ h₁) (by omega)
      refine ⟨fun w' hw' => ?_, fun hcaps => ?_⟩
      · obtain ⟨w₁, h₁, hw'⟩ := bind_eq_ok.mp hw'
        exact (hrest h₁).1 w' hw'
      · obtain ⟨w₁, h₁⟩ := hruns hcaps
        obtain ⟨w', hw'⟩ := (hrest h₁).2 hcaps
        exact ⟨w', bind_eq_ok.mpr ⟨w₁, h₁, hw'⟩⟩
    · next hnone =>
      refine ⟨fun w' hw' => ?_, fun _ => ⟨w, rfl⟩⟩
      obtain rfl := ok.inj hw'
      exact ⟨⟨n, h⟩, fun q hq => by_contra fun hnot => hnone ⟨q, hq, hnot⟩⟩

/-! ### The walk -/

theorem walkInv_nil : WalkInv reader cap tip have_ (have_.filter (· ≠ "") ++ [tip]) 0 {} where
  keys := rfl
  bound := Nat.zero_le _
  read := by simp
  nodup := nodup_nil
  taken := rfl
  queue := by simp
  painted := by simp
  reached := by simp
  out := by simp
  tip := .inr (by simp)
  kept := by simp
  done := by simp

theorem has_of_mem {h : String} (hh : h ∈ have_.filter (· ≠ "")) : Has reader have_ h := by
  obtain ⟨hmem, hne⟩ := mem_filter.mp hh
  exact ⟨h, hmem, of_decide_eq_true hne, .refl⟩

/-- The walk keeps its invariant to an end where only painted commits are queued, and gets there within the caps. -/
theorem walkCommits_spec : (∀ w, walkCommits reader cap tip have_ = .ok w →
      (∃ n, WalkInv reader cap tip have_ [] n w) ∧ ∀ q ∈ w.queue, q.1 ∈ w.uninteresting) ∧
    ((∃ L, WithinCaps reader cap tip have_ L) → ∃ w, walkCommits reader cap tip have_ = .ok w) := by
  have hhave := (@walkInv_nil reader cap tip have_).paintAll (fun p hp (_ : true = true) => has_of_mem hp) nofun
  have htip {w : CommitWalk} (hw : WalkInv reader cap tip have_ [tip] 0 w) := hw.enqueue (.inl .refl)
  refine ⟨fun w hw => ?_, fun hcaps => ?_⟩
  · obtain ⟨w₁, h₁, hw⟩ := bind_eq_ok.mp hw
    obtain ⟨w₂, h₂, hw⟩ := bind_eq_ok.mp hw
    exact (((htip (hhave.1 w₁ h₁)).1 w₂ h₂).rounds (by omega)).1 w hw
  · obtain ⟨w₁, h₁⟩ := hhave.2 hcaps
    obtain ⟨w₂, h₂⟩ := (htip (hhave.1 w₁ h₁)).2 hcaps
    obtain ⟨w, hw⟩ := (((htip (hhave.1 w₁ h₁)).1 w₂ h₂).rounds (m := cap) (by omega)).2 hcaps
    exact ⟨w, bind_eq_ok.mpr ⟨w₁, h₁, bind_eq_ok.mpr ⟨w₂, h₂, hw⟩⟩⟩

theorem mem_out_of_new (h : WalkInv reader cap tip have_ [] n w) (hend : ∀ q ∈ w.queue, q.1 ∈ w.uninteresting)
    (hreach : Reaches reader tip c) (hnew : ¬Has reader have_ c) : c ∈ w.out ∧ c ∉ w.uninteresting := by
  have htaken (x : String) (hx : x ∈ w.queued) (hxnew : ¬Has reader have_ x) : x ∉ w.queue.map Prod.fst := by
    intro hmem
    obtain ⟨q, hq, rfl⟩ := mem_map.mp hmem
    exact hxnew (h.painted _ (hend q hq))
  have hkept (x : String) (hx : x ∈ w.queued) (hxnew : ¬Has reader have_ x) : x ∈ w.out :=
    (h.done x hx (htaken x hx hxnew)).resolve_right fun hbad => hxnew (h.painted x hbad)
  have hqueued : c ∈ w.queued := by
    induction hreach with
    | refl => exact h.tip.resolve_right (by simp)
    | @tail b c hb hparent ih =>
      -- A parent of what the base repository has is there too.
      have hbnew : ¬Has reader have_ b := fun hb => hnew (hb.parent hparent)
      exact ((h.out b (hkept b (ih hbnew) hbnew)).2 c hparent).resolve_right (by simp)
  exact ⟨hkept c hqueued hnew, fun hbad => hnew (h.painted c hbad)⟩

theorem mem_newCommits {commits : List String} (h : newCommits reader cap tip have_ = .ok commits) :
    ∃ w, walkCommits reader cap tip have_ = .ok w ∧ ∀ c, c ∈ commits ↔ c ∈ w.out ∧ c ∉ w.uninteresting := by
  rw [newCommits] at h
  cases hw : walkCommits reader cap tip have_ with
  | error e => rw [hw] at h; cases h
  | ok w =>
    rw [hw] at h
    obtain rfl := ok.inj h
    exact ⟨w, rfl, fun c => by simp⟩

end DashForge.Git
