import DashForge.Data.Lines
import DashForge.Data.Utf8

/-!
# Cutting a long text

A long body keeps a prefix of its text, cut to a number of bytes (`rules/long_body.rs`): at a character boundary, then
back to a break in the cut's second half, and with code that the cut left open closed again (`fitPrefix`). Closing may
take the cut over the limit, so the cut is made shorter by the excess until it fits.

`closeCode` reads a text line by line, with the fence and the inline code span open so far (`codeLine`). Closing a
fence adds a line of its own and always works. The backquotes that close a span are added to the last line, where
they join a run of backquotes that the cut ends in: then the run is longer than the span's and closes nothing
(`closeCode_closeCode`). So a cut is closed exactly if it does not end in a backquote with a span open
(`fitPrefix_closed_iff`, `fitPrefix_leaves_open`).
-/

namespace DashForge.LongBody

open List Option

/-! ### Bytes and breaks -/

/-- The length of a text in UTF-8 bytes. -/
def byteLen : List Char → ℕ
  | [] => 0
  | c :: cs => c.utf8Size + byteLen cs

/-- The longest prefix within `max` bytes that ends on a character boundary. -/
def clipBytes : List Char → ℕ → List Char
  | [], _ => []
  | c :: cs, max => if c.utf8Size ≤ max then c :: clipBytes cs (max - c.utf8Size) else []

/-- The text before the last place where `sep` stands. -/
def beforeLast (sep : List Char) : List Char → Option (List Char)
  | [] => if sep = [] then some [] else none
  | c :: cs =>
    match beforeLast sep cs with
    | some pre => some (c :: pre)
    | none => if sep.isPrefixOf (c :: cs) then some [] else none

/-- The white space that a cut trims. -/
def isTrimmed (c : Char) : Bool := [' ', '\t', '\n', '\r'].contains c

/-- A text shortened to its last paragraph break, else line break, else space, when one falls in its second half. -/
def boundaryCut (s : List Char) : List Char :=
  ([['\n', '\n'], ['\n'], [' ']].findSome? fun sep =>
    (beforeLast sep s).filter fun pre => byteLen s / 2 ≤ byteLen pre).elim s fun pre => pre.rdropWhile isTrimmed

/-! ### Code -/

/-- The code span open after a run of backquotes, given the one open before. -/
def endRun : Option ℕ → ℕ → Option ℕ
  | span, 0 => span
  | none, n + 1 => some (n + 1)
  | some m, n + 1 => if m = n + 1 then none else some m

/-- Where the reading of a line is: the span open before the run of backquotes just read, the length of that run, and
whether the next character is escaped. -/
structure SpanState where
  span : Option ℕ
  run : ℕ
  escaped : Bool

/-- The span open at the end of the run. -/
def SpanState.current (st : SpanState) : Option ℕ := endRun st.span st.run

/-- One character read. A backslash outside a span takes the next character with it. -/
def SpanState.read (st : SpanState) (c : Char) : SpanState :=
  if st.escaped then ⟨none, 0, false⟩
  else if c = '\x60' then ⟨st.span, st.run + 1, false⟩
  else ⟨st.current, 0, st.current = none ∧ c = '\\'⟩

/-- The inline code span still open after a line. -/
def backtickSpans (line : List Char) (span : Option ℕ) : Option ℕ :=
  (line.foldl SpanState.read ⟨span, 0, false⟩).current

/-- What is open between two lines: a fence with its character and length, and an inline span with its length. -/
structure Code where
  fence : Option (Char × ℕ)
  span : Option ℕ
deriving DecidableEq

def isBlank (c : Char) : Bool := c == ' ' || c == '\t'

/-- The line without one carriage return at its end. -/
def stripCr (line : List Char) : List Char := if line.getLast? = some '\r' then line.dropLast else line

/-- How many of a character a line starts with, after its indentation. -/
def runOf (line : List Char) (c : Char) : ℕ := ((line.dropWhile isBlank).takeWhile (· == c)).length

/-- The fence that a line opens outside code. -/
def fenceOf (line : List Char) : Option (Char × ℕ) :=
  (['\x60', '~'].find? fun c => 3 ≤ runOf line c).map fun c => (c, runOf line c)

/-- What is open after a line. -/
def codeLine (code : Code) (line : List Char) : Code :=
  let line := stripCr line
  match code.fence with
  | some (c, n) =>
    if n ≤ runOf line c ∧ ((line.dropWhile isBlank).rdropWhile isBlank).all (· == c) then { code with fence := none }
    else code
  | none =>
    if code.span = none ∧ fenceOf line ≠ none then { code with fence := fenceOf line }
    else { code with span := backtickSpans line code.span }

/-- What is open at the end of a text. -/
def codeState (s : List Char) : Code := (s.splitOn '\n').foldl codeLine ⟨none, none⟩

/-- A text with a code fence or inline code span left open at its end closed again. -/
def closeCode (s : List Char) : List Char :=
  match (codeState s).fence, (codeState s).span with
  | some (c, n), _ => s ++ '\n' :: replicate n c
  | none, some n => s ++ replicate n '\x60'
  | none, none => s

/-! ### The cut -/

/-- The cut within a room. -/
def cutAt (text : List Char) (room : ℕ) : List Char := boundaryCut (clipBytes text room)

/-- The rounds from a room on: each shortens it by what the closed cut overflows. -/
def fitFrom (text : List Char) (max room : ℕ) : List Char :=
  if byteLen (closeCode (cutAt text room)) ≤ max ∨ room = 0 then closeCode (cutAt text room)
  else fitFrom text max (room - (byteLen (closeCode (cutAt text room)) - max))
termination_by room
decreasing_by omega

/-- A text within `max` bytes. -/
def fitPrefix (text : List Char) (max : ℕ) : List Char :=
  if byteLen text ≤ max then text else fitFrom text max max

/-! ### Spans -/

variable {span : Option ℕ} {n max room : ℕ} {line text : List Char} {code : Code} {c : Char}

theorem endRun_ne_zero {run : ℕ} (hspan : span ≠ some 0) (h : endRun span run = some n) : n ≠ 0 := by
  rintro rfl
  rcases run with _ | run
  · exact hspan h
  · rcases span with _ | m
    · exact absurd (some.inj h) (Nat.succ_ne_zero run)
    · rw [endRun] at h
      split_ifs at h
      exact hspan h

variable {st : SpanState} {s : List Char} {last : ℕ}

theorem SpanState.read_span_ne_zero (h : st.span ≠ some 0) (c : Char) : (st.read c).span ≠ some 0 := by
  rw [read]
  split_ifs
  · simp
  · exact h
  · exact fun hzero => endRun_ne_zero h hzero rfl

theorem backtickSpans_ne_zero (h : span ≠ some 0) : backtickSpans line span ≠ some 0 := by
  suffices hfold : ∀ st : SpanState, st.span ≠ some 0 → (line.foldl SpanState.read st).span ≠ some 0 from
    fun hzero => endRun_ne_zero (hfold _ h) hzero rfl
  induction line with
  | nil => exact fun st hst => hst
  | cons c line ih => exact fun st hst => ih _ (SpanState.read_span_ne_zero hst c)

theorem mem_of_backtickSpans (h : backtickSpans line none = some n) : '\x60' ∈ line := by
  by_contra hmem
  suffices hfold : ∀ st : SpanState, st.span = none → st.run = 0 → (line.foldl SpanState.read st).current = none by
    rw [backtickSpans, hfold _ rfl rfl] at h
    exact absurd h (by simp)
  clear h
  induction line with
  | nil =>
    intro st hspan hrun
    rw [foldl_nil, SpanState.current, hspan, hrun, endRun]
  | cons c line ih =>
    rw [mem_cons, not_or] at hmem
    intro st hspan hrun
    have hcurrent : st.current = none := by rw [SpanState.current, hspan, hrun, endRun]
    rw [foldl_cons]
    refine ih hmem.2 _ ?_ ?_ <;> rw [SpanState.read, if_neg (Ne.symm hmem.1)] <;> split_ifs <;> simp [hcurrent]

variable (h : backtickSpans line span = some n)

include h in
theorem run_eq_zero_iff :
    (line.foldl SpanState.read ⟨span, 0, false⟩).run = 0 ↔ line.getLast? ≠ some '\x60' := by
  rcases eq_nil_or_concat' line with rfl | ⟨init, c, rfl⟩
  · simp
  · rw [backtickSpans, foldl_concat, SpanState.read] at h
    rw [foldl_concat, getLast?_concat, SpanState.read]
    split_ifs at h ⊢ with hesc hc
    · exact absurd h (by simp [SpanState.current, endRun])
    · simp [hc]
    · simp [hc]

theorem foldl_read_replicate (n : ℕ) (h : st.escaped = false) :
    (replicate n '\x60').foldl SpanState.read st = ⟨st.span, st.run + n, false⟩ := by
  induction n generalizing st with
  | zero => rw [replicate_zero, foldl_nil, ← h]; rfl
  | succ n ih =>
    rw [replicate_succ, foldl_cons, SpanState.read, h, if_neg (by simp), if_pos rfl, ih rfl]
    simp only [Nat.add_right_comm, Nat.add_assoc]

include h in
theorem escaped_eq_false :
    (line.foldl SpanState.read ⟨span, 0, false⟩).escaped = false := by
  rcases eq_nil_or_concat' line with rfl | ⟨init, c, rfl⟩
  · rfl
  · rw [backtickSpans, foldl_concat, SpanState.read] at h
    rw [foldl_concat, SpanState.read]
    split_ifs at h ⊢
    · rfl
    · rfl
    · rw [SpanState.current, endRun] at h
      exact decide_eq_false fun hopen => some_ne_none n (h.symm.trans hopen.1)

include h in
theorem backtickSpans_append_replicate (hn : n ≠ 0) :
    backtickSpans (line ++ replicate n '\x60') span = none ↔ line.getLast? ≠ some '\x60' := by
  rw [← run_eq_zero_iff h, backtickSpans, foldl_append, foldl_read_replicate n (escaped_eq_false h)]
  rw [backtickSpans] at h
  generalize line.foldl SpanState.read ⟨span, 0, false⟩ = st at h ⊢
  obtain ⟨m, rfl⟩ := Nat.exists_eq_succ_of_ne_zero hn
  rw [SpanState.current] at h ⊢
  rcases hrun : st.run with _ | run
  · rw [hrun, endRun] at h
    rw [h, Nat.zero_add, endRun, if_pos rfl]
    simp
  · -- the run that the line ends in is as long as the span, or does not end it
    refine iff_of_false ?_ (Nat.succ_ne_zero run)
    rw [hrun] at h
    rcases hspan : st.span with _ | k
    · rw [Nat.add_succ, endRun]
      simp
    · rw [hspan, endRun] at h
      split_ifs at h
      rw [some.inj h, Nat.add_succ, endRun, if_neg (by omega)]
      simp

/-! ### Lines -/

/-- What can be open: a fence of three characters or more and no span in it, or a span of a run of backquotes. -/
structure Code.Valid (code : Code) : Prop where
  fence_char : ∀ x ∈ code.fence, (x.1 = '\x60' ∨ x.1 = '~') ∧ 3 ≤ x.2
  span_eq_none : code.fence ≠ none → code.span = none
  span_ne_zero : code.span ≠ some 0

theorem fenceOf_eq_some {x : Char × ℕ} (h : fenceOf line = some x) : (x.1 = '\x60' ∨ x.1 = '~') ∧ 3 ≤ x.2 := by
  obtain ⟨c, hc, rfl⟩ := map_eq_some_iff.mp h
  exact ⟨by simpa using mem_of_find?_eq_some hc, by simpa using find?_some hc⟩

theorem Code.Valid.codeLine (h : code.Valid) (line : List Char) : (codeLine code line).Valid := by
  rw [LongBody.codeLine]
  split
  · next c n hfence =>
    split_ifs
    · exact ⟨fun x hx => absurd hx (by simp), fun hne => absurd rfl hne, h.span_ne_zero⟩
    · exact h
  · next hfence =>
    split_ifs with hopen
    · exact ⟨fun x hx => fenceOf_eq_some hx, fun _ => hopen.1, h.span_ne_zero⟩
    · exact ⟨fun x hx => h.fence_char x hx, fun hne => absurd hfence hne, backtickSpans_ne_zero h.span_ne_zero⟩

theorem valid_codeState (s : List Char) : (codeState s).Valid := by
  suffices hfold : ∀ (lines : List (List Char)) (code : Code), code.Valid → (lines.foldl codeLine code).Valid from
    hfold _ _ ⟨fun x hx => absurd hx (by simp), fun hne => absurd rfl hne, by simp⟩
  intro lines
  induction lines with
  | nil => exact fun code h => h
  | cons line lines ih => exact fun code h => ih _ (h.codeLine line)

theorem exists_codeState_append (s : List Char) : ∃ (code : Code) (line : List Char), code.Valid ∧
    (line.getLast? = some '\x60' ↔ s.getLast? = some '\x60') ∧
      ∀ t, '\n' ∉ t → codeState (s ++ t) = codeLine code (line ++ t) := by
  rcases Lines.exists_last_newline s with hnone | ⟨a, b, rfl, hb⟩
  · refine ⟨codeState [], s, valid_codeState [], Iff.rfl, fun t ht => ?_⟩
    rw [codeState, splitOn_eq_singleton (by simp [hnone, ht])]
    rfl
  · refine ⟨codeState a, b, valid_codeState a, ?_, fun t ht => ?_⟩
    · rcases eq_nil_or_concat' b with rfl | ⟨b', c, rfl⟩
      · simp
      · rw [← cons_append, ← append_assoc, getLast?_concat, getLast?_concat]
    · have hbt : '\n' ∉ b ++ t := by simp [hb, ht]
      rw [codeState, append_assoc, cons_append, splitOn_append_cons_self,
        splitOn_eq_singleton hbt, foldl_concat]
      rfl

theorem codeState_append_newline (s : List Char) (h : '\n' ∉ line) :
    codeState (s ++ '\n' :: line) = codeLine (codeState s) line := by
  rw [codeState, splitOn_append_cons_self, splitOn_eq_singleton h, foldl_concat]
  rfl

theorem stripCr_append_replicate (line : List Char) (hc : c ≠ '\r') (hn : n ≠ 0) :
    stripCr (line ++ replicate n c) = line ++ replicate n c := by
  rw [stripCr, if_neg]
  rw [getLast?_append_of_ne_nil _ (by simpa using hn), getLast?_replicate, if_neg hn]
  exact fun h => hc (some.inj h)

theorem codeLine_replicate (hcode : code.Valid) (hfence : code.fence = some (c, n)) :
    codeLine code (replicate n c) = ⟨none, none⟩ := by
  obtain ⟨hc, hn⟩ := hcode.fence_char (c, n) hfence
  have hblank : isBlank c = false := by rcases hc with rfl | rfl <;> rfl
  have hcr : c ≠ '\r' := by rcases hc with rfl | rfl <;> decide
  obtain ⟨m, rfl⟩ := Nat.exists_eq_add_of_le' hn
  have hdrop : (replicate (m + 3) c).dropWhile isBlank = replicate (m + 3) c := by
    rw [replicate_succ, dropWhile_cons_of_neg (by simp [hblank])]
  have hstrip := stripCr_append_replicate [] hcr (Nat.succ_ne_zero (m + 2))
  rw [nil_append] at hstrip
  have hall : ((replicate (m + 3) c).rdropWhile isBlank).all (· == c) = true := by
    rw [List.all_eq_true]
    intro x hx
    rw [beq_iff_eq]
    exact eq_of_mem_replicate ((List.rdropWhile_prefix _ _).subset hx)
  rw [codeLine, hfence]
  simp only [hstrip, runOf, hdrop]
  rw [if_pos ⟨by simp, hall⟩, hcode.span_eq_none (by rw [hfence]; simp)]

theorem backtickSpans_of_stripCr (h : backtickSpans (stripCr line) span = some n) :
    backtickSpans line span = some n := by
  rw [stripCr] at h
  split_ifs at h with hcr
  · obtain ⟨init, rfl⟩ := getLast?_eq_some_iff.mp hcr
    rw [dropLast_concat] at h
    rw [backtickSpans, foldl_concat, SpanState.read, escaped_eq_false h, if_neg (by simp), if_neg (by decide)]
    exact h
  · exact h

theorem mem_dropWhile_isBlank (h : '\x60' ∈ line) : '\x60' ∈ line.dropWhile isBlank := by
  rw [← takeWhile_append_dropWhile (p := isBlank) (l := line)] at h
  exact (mem_append.mp h).resolve_left fun hmem => absurd (mem_takeWhile_imp hmem) (by decide)

theorem runOf_append (h : '\x60' ∈ line) {d : Char} (hd : d ≠ '\x60') (hc : c = '\x60' ∨ c = '~')
    (rest : List Char) : runOf (line ++ d :: rest) c = runOf line c := by
  have hmem := mem_dropWhile_isBlank h
  rw [runOf, runOf, dropWhile_append, if_neg (by simpa using ne_nil_of_mem hmem), takeWhile_append]
  split_ifs with hlen
  · have hall : (line.dropWhile isBlank).takeWhile (· == c) = line.dropWhile isBlank :=
      (List.takeWhile_prefix _).eq_of_length hlen
    rw [hall]
    rcases hc with rfl | rfl
    · rw [takeWhile_cons_of_neg (by simpa using hd), append_nil]
    · rw [← hall] at hmem
      exact absurd (mem_takeWhile_imp hmem) (by decide)
  · rfl

theorem fenceOf_eq_none : fenceOf line = none ↔ ∀ c, c = '\x60' ∨ c = '~' → runOf line c < 3 := by
  simp [fenceOf, find?_eq_none]

theorem fenceOf_append_replicate (hmem : '\x60' ∈ stripCr line) (hlast : line.getLast? ≠ some '\x60')
    (h : fenceOf (stripCr line) = none) (n : ℕ) : fenceOf (line ++ replicate n '\x60') = none := by
  rcases eq_nil_or_concat' line with rfl | ⟨init, d, rfl⟩
  · exact absurd hmem (by simp [stripCr])
  rw [getLast?_concat] at hlast
  have hd : d ≠ '\x60' := fun hd => hlast (congrArg some hd)
  have hinit : '\x60' ∈ init := by
    rw [stripCr] at hmem
    split_ifs at hmem
    · rwa [dropLast_concat] at hmem
    · exact (mem_append.mp hmem).resolve_right fun hx => hd (mem_singleton.mp hx).symm
  rw [fenceOf_eq_none] at h ⊢
  intro c hc
  have hlt := h c hc
  have hstrip : runOf (stripCr (init ++ [d])) c = runOf init c := by
    rw [stripCr]
    split_ifs
    · rw [dropLast_concat]
    · exact runOf_append hinit hd hc []
  rwa [append_assoc, singleton_append, runOf_append hinit hd hc, ← hstrip]

theorem codeLine_append_replicate (hcode : code.Valid) (h : codeLine code line = ⟨none, some n⟩) :
    codeLine code (line ++ replicate n '\x60') = ⟨none, none⟩ ↔ line.getLast? ≠ some '\x60' := by
  have hn : n ≠ 0 := fun hzero => (hcode.codeLine line).span_ne_zero (by rw [h, hzero])
  have hfence : code.fence = none := by
    by_contra hne
    obtain ⟨⟨c, m⟩, hx⟩ := ne_none_iff_exists'.mp hne
    have hspan := hcode.span_eq_none hne
    rw [codeLine, hx] at h
    simp only at h
    split_ifs at h
    · exact some_ne_none n (((Code.mk.inj h).2.symm.trans hspan))
    · rw [h] at hspan
      exact some_ne_none n hspan
  rw [codeLine, hfence] at h ⊢
  simp only [stripCr_append_replicate line (show '\x60' ≠ '\r' by decide) hn] at h ⊢
  split_ifs at h with hopen
  · exact absurd (Code.mk.inj h).1 hopen.2
  have hspans := (Code.mk.inj h).2
  have hclose := backtickSpans_append_replicate (backtickSpans_of_stripCr hspans) hn
  rw [← hclose]
  split_ifs with hfenced
  · refine iff_of_false (fun heq => hfenced.2 (Code.mk.inj heq).1) fun hnone => hfenced.2 ?_
    rw [hfenced.1] at hspans
    refine fenceOf_append_replicate (mem_of_backtickSpans hspans) (hclose.mp hnone) ?_ n
    exact by_contra fun hne => hopen ⟨hfenced.1, hne⟩
  · exact ⟨fun heq => (Code.mk.inj heq).2, fun heq => by rw [heq]⟩

/-! ### Closing -/

/-- A text that ends in a backquote with an inline code span open. -/
def Unclosable (s : List Char) : Prop := (∃ n, codeState s = ⟨none, some n⟩) ∧ s.getLast? = some '\x60'

theorem closeCode_eq_self : closeCode s = s ↔ codeState s = ⟨none, none⟩ := by
  have hvalid := valid_codeState s
  rw [closeCode]
  rcases hstate : codeState s with ⟨_ | ⟨c, n⟩, _ | m⟩
  · simp
  · have hm : m ≠ 0 := fun hzero => hvalid.span_ne_zero (by rw [hstate, hzero])
    simpa using hm
  · simp
  · simp

theorem closeCode_closeCode : closeCode (closeCode s) = closeCode s ↔ ¬Unclosable s := by
  have hvalid := valid_codeState s
  rw [closeCode_eq_self]
  rcases hstate : codeState s with ⟨_ | ⟨c, n⟩, span⟩
  · rcases span with _ | n
    · have hclose : closeCode s = s := closeCode_eq_self.mpr hstate
      rw [hclose, hstate]
      refine iff_of_true rfl fun hopen => ?_
      obtain ⟨n, hn⟩ := hopen.1
      exact absurd (hstate.symm.trans hn) (by simp)
    · have hclose : closeCode s = s ++ replicate n '\x60' := by rw [closeCode, hstate]
      obtain ⟨code, line, hcode, hlast, happend⟩ := exists_codeState_append s
      have hline := happend [] not_mem_nil
      rw [append_nil, append_nil, hstate] at hline
      rw [hclose, happend _ (by simp), codeLine_append_replicate hcode hline.symm, Unclosable, ← hlast, not_and]
      exact ⟨fun h _ => h, fun h => h ⟨n, hstate⟩⟩
  · have hclose : closeCode s = s ++ '\n' :: replicate n c := by rw [closeCode, hstate]
    obtain ⟨hc, -⟩ := hvalid.fence_char (c, n) (by rw [hstate]; rfl)
    have hnl : '\n' ∉ replicate n c := fun h => by
      rcases hc with hc | hc <;> exact absurd ((eq_of_mem_replicate h).trans hc) (by decide)
    rw [hclose, codeState_append_newline s hnl, codeLine_replicate hvalid (by rw [hstate])]
    refine iff_of_true rfl fun hopen => ?_
    obtain ⟨m, hm⟩ := hopen.1
    exact absurd (hstate.symm.trans hm) (by simp)

/-! ### Rounds -/

/-- A room that the cut closed again fits in. -/
def Settled (text : List Char) (max room : ℕ) : Prop := byteLen (closeCode (cutAt text room)) ≤ max ∨ room = 0

/-- The rounds from a room on and the room of the last one: each shortens it by what the closed cut overflows. -/
inductive Rounds (text : List Char) (max : ℕ) : ℕ → ℕ → Prop
  | last {room : ℕ} (h : Settled text max room) : Rounds text max room room
  | next {room last : ℕ} (h : ¬Settled text max room)
      (rest : Rounds text max (room - (byteLen (closeCode (cutAt text room)) - max)) last) : Rounds text max room last

theorem exists_rounds (text : List Char) (max room : ℕ) : ∃ last, Rounds text max room last := by
  induction room using Nat.strong_induction_on with
  | _ room ih =>
    by_cases h : Settled text max room
    · exact ⟨room, .last h⟩
    · have hlt : room - (byteLen (closeCode (cutAt text room)) - max) < room := by
        rw [Settled] at h
        omega
      obtain ⟨last, hlast⟩ := ih _ hlt
      exact ⟨last, .next h hlast⟩

theorem Rounds.settled (h : Rounds text max room last) : Settled text max last := by
  induction h with
  | last h => exact h
  | next h rest ih => exact ih

theorem Rounds.fitFrom (h : Rounds text max room last) : fitFrom text max room = closeCode (cutAt text last) := by
  induction h with
  | last h =>
    rw [LongBody.fitFrom]
    exact if_pos h
  | next h rest ih =>
    rw [LongBody.fitFrom]
    exact (if_neg h).trans ih

theorem clipBytes_zero (text : List Char) : clipBytes text 0 = [] := by
  cases text with
  | nil => rfl
  | cons c cs => rw [clipBytes, if_neg (Nat.not_le.mpr c.utf8Size_pos)]

theorem Settled.byteLen_le (h : Settled text max room) : byteLen (closeCode (cutAt text room)) ≤ max := by
  rcases h with h | rfl
  · exact h
  · rw [cutAt, clipBytes_zero, show closeCode (boundaryCut []) = [] by decide]
    exact Nat.zero_le max

/-- A cut is within the limit. -/
theorem byteLen_fitPrefix_le (text : List Char) (max : ℕ) : byteLen (fitPrefix text max) ≤ max := by
  rw [fitPrefix]
  split_ifs with h
  · exact h
  · obtain ⟨last, hlast⟩ := exists_rounds text max max
    rw [hlast.fitFrom]
    exact hlast.settled.byteLen_le

/-- A cut has no code open at its end exactly if the cut of the last round, before it is closed, does not end in a
backquote with an inline code span open. -/
theorem fitPrefix_closed_iff {text : List Char} {max : ℕ} (h : max < byteLen text) :
    byteLen (fitPrefix text max) ≤ max ∧
      (closeCode (fitPrefix text max) = fitPrefix text max ↔
        ∃ room, Rounds text max max room ∧ ¬Unclosable (cutAt text room)) := by
  refine ⟨byteLen_fitPrefix_le text max, ?_⟩
  have hfit : ∀ {room}, Rounds text max max room → fitPrefix text max = closeCode (cutAt text room) := fun hroom => by
    rw [fitPrefix, if_neg (Nat.not_le.mpr h), hroom.fitFrom]
  constructor
  · intro hclosed
    obtain ⟨room, hroom⟩ := exists_rounds text max max
    rw [hfit hroom] at hclosed
    exact ⟨room, hroom, closeCode_closeCode.mp hclosed⟩
  · rintro ⟨room, hroom, hnot⟩
    rw [hfit hroom]
    exact closeCode_closeCode.mpr hnot

theorem fitPrefix_closed_sample :
    byteLen (fitPrefix "ab cd\x60ef".toList 7) ≤ 7 ∧
      (closeCode (fitPrefix "ab cd\x60ef".toList 7) = fitPrefix "ab cd\x60ef".toList 7 ↔
        ∃ room, Rounds "ab cd\x60ef".toList 7 7 room ∧ ¬Unclosable (cutAt "ab cd\x60ef".toList room)) :=
  fitPrefix_closed_iff (by decide)

/-- A word with a backquote in it, cut where the backquote that closes the span has no room. -/
theorem fitPrefix_leaves_open :
    6 < byteLen "abcd\x60efgh".toList ∧ fitPrefix "abcd\x60efgh".toList 6 = "abcd\x60\x60".toList ∧
      closeCode (fitPrefix "abcd\x60efgh".toList 6) ≠ fitPrefix "abcd\x60efgh".toList 6 := by
  have hfirst : ¬Settled "abcd\x60efgh".toList 6 6 := by
    rw [Settled]
    decide
  have hsecond : Settled "abcd\x60efgh".toList 6 5 := .inl (by decide)
  have hrounds : Rounds "abcd\x60efgh".toList 6 6 5 := .next hfirst (.last hsecond)
  have hfit : fitPrefix "abcd\x60efgh".toList 6 = "abcd\x60\x60".toList := by
    rw [fitPrefix, if_neg (by decide), hrounds.fitFrom]
    decide
  rw [hfit]
  exact ⟨by decide, rfl, by decide⟩

end DashForge.LongBody
