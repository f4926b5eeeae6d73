import DashForge.Data.Hex
import DashForge.Data.SortBy
import DashForge.Data.SortedMap
import DashForge.Data.Utf8

/-!
# The wake hub

A relay tells runners which of their repositories had activity (`wake.rs`). The hub numbers the wakes and keeps the
last `ring` of them; a runner asks with the cursor of its previous answer and is told the repositories woken since, or to
look at all of them (`resync`) where the hub cannot say.

Of a hub that holds the end of a history of wakes (`Holds`), `answer_spec` says what an answer lists. A request is signed
over its path and time, and `authenticate` accepts a signature once while it remembers it; HMAC-SHA256 is a
parameter. Time is in nanoseconds.
-/

namespace DashForge.Wake

open List Option

/-- How far a request's time may be from the clock, in seconds. -/
def maxSkewSecs : ℕ := 300

/-- How many wakes are kept. -/
@[irreducible]
def ring : ℕ := 1024

theorem ring_pos : 0 < ring := by
  unfold ring
  decide

/-- How many signatures are remembered. -/
@[irreducible]
def maxSeen : ℕ := 10000

def second : ℕ := 10 ^ 9

/-- How long a signature is remembered. -/
@[irreducible]
def window : ℕ := (2 * maxSkewSecs + 1) * second

/-- A repository runners may be woken for. -/
structure WakeRepo where
  name : String
  label : String
deriving DecidableEq, Repr

/-- Signatures accepted inside the window, oldest first. -/
structure Seen where
  set : List String := []
  order : List (ℕ × String) := []
deriving DecidableEq, Repr

structure WakeHub where
  secret : List UInt8
  epoch : String
  repos : SortedMap String WakeRepo
  /-- The last wakes with their numbers, oldest first. -/
  wakes : List (ℕ × String) := []
  seq : ℕ := 0
  seen : Seen := {}

/-- What a runner is told. -/
structure Answer where
  cursor : String
  resync : Bool
  repos : List String
deriving DecidableEq, Repr

/-- Why a request is refused by `authenticate`. -/
inductive Refusal where
  | unauthorized
deriving DecidableEq, Repr

/-- A hub starts with the hash of when and by which process it was started as its epoch. -/
def WakeHub.new (secret digest : List UInt8) (repos : SortedMap String WakeRepo) : WakeHub where
  secret
  epoch := hexEncode (digest.take 8)
  repos

/-! ### Cursors -/

def cursorText (epoch : String) (seq : ℕ) : String := epoch ++ "." ++ toString seq

def parseDigits (cs : List Char) : Option ℕ :=
  if cs ≠ [] ∧ cs.all Char.isDigit then some (Nat.ofDigitChars 10 cs 0) else none

/-- `str::parse` of a number without a minus sign. -/
def parseDecimal : List Char → Option ℕ
  | '+' :: cs => parseDigits cs
  | cs => parseDigits cs

/-- The number of a cursor of an epoch. A number past 64 bits, which does not parse in the source, is past every number that
the hub gives. -/
def cursorSeq (epoch after : String) : Option ℕ :=
  match after.toList.dropWhile (· ≠ '.') with
  | _ :: n => if after.toList.takeWhile (· ≠ '.') = epoch.toList then parseDecimal n else none
  | [] => none

theorem parseDecimal_toDigits (n : ℕ) : parseDecimal (Nat.toDigits 10 n) = some n := by
  have hdigits : ∀ c ∈ Nat.toDigits 10 n, c.isDigit = true := fun c hc =>
    Nat.isDigit_of_mem_toDigits (by omega) (by omega) hc
  unfold parseDecimal
  split
  · next cs heq =>
    rw [heq] at hdigits
    exact absurd (hdigits '+' mem_cons_self) (by decide)
  · rw [parseDigits, if_pos ⟨Nat.toDigits_ne_nil, List.all_eq_true.mpr hdigits⟩, Nat.ofDigitChars_ten_toDigits]

theorem cursorSeq_cursorText {epoch : String} (hdot : '.' ∉ epoch.toList) (n : ℕ) :
    cursorSeq epoch (cursorText epoch n) = some n := by
  have hne : ∀ c ∈ epoch.toList, decide (c ≠ '.') = true := fun c hc => decide_eq_true fun heq => hdot (heq ▸ hc)
  have htext : (cursorText epoch n).toList = epoch.toList ++ '.' :: (toString n).toList := by
    simp [cursorText]
  rw [cursorSeq, htext, dropWhile_append_of_pos hne, takeWhile_append_of_pos hne]
  simp [parseDecimal_toDigits]

theorem dot_notMem_epoch (secret digest : List UInt8) (repos : SortedMap String WakeRepo) :
    '.' ∉ (WakeHub.new secret digest repos).epoch.toList := by
  intro hmem
  have hdigit : ∀ n < 16, hexDigit n ≠ '.' := by decide
  rw [WakeHub.new, toList_hexEncode, hexDigits, mem_flatMap] at hmem
  obtain ⟨b, -, hmem⟩ := hmem
  have hb := b.toNat_lt
  rcases mem_cons.mp hmem with heq | hmem
  · exact hdigit _ (by omega) heq.symm
  · exact hdigit _ (by omega) (mem_singleton.mp hmem).symm

namespace WakeHub

variable (hub : WakeHub)

/-! ### Wakes -/

def serves (repoId : String) : Bool := (hub.repos.lookup repoId).isSome

/-- Record activity; a repository that is not served is ignored. -/
def notify (repoId : String) : WakeHub :=
  if hub.serves repoId then
    let wakes := hub.wakes ++ [(hub.seq + 1, repoId)]
    { hub with wakes := wakes.drop (wakes.length - ring), seq := hub.seq + 1 }
  else hub

/-- What a runner with a cursor is told now. -/
def answer (after : Option String) : Answer :=
  let cursor := cursorText hub.epoch hub.seq
  match after with
  | none => { cursor, resync := false, repos := [] }
  | some after =>
    -- Kept: every wake after `oldest - 1`.
    let oldest := (hub.wakes.head?.map Prod.fst).getD (hub.seq + 1)
    match (cursorSeq hub.epoch after).filter fun s => s ≤ hub.seq ∧ oldest ≤ s + 1 with
    | none => { cursor, resync := true, repos := [] }
    | some since =>
      { cursor, resync := false, repos := sortedDistinct ((hub.wakes.filter fun w => since < w.1).map Prod.snd) }

end WakeHub

/-! ### Requests -/

/-- What a request is authenticated by: the path with the query, and two headers. -/
structure Request where
  pathAndQuery : String
  time : Option String
  signature : Option String
deriving DecidableEq, Repr

/-- The string a request's signature covers. -/
def requestMessage (pathAndQuery : String) (time : ℕ) : String :=
  "forge-wake-v1\nGET\n" ++ pathAndQuery ++ "\n" ++ toString time

namespace Request

def time? (r : Request) : Option ℕ := r.time.bind fun t => (parseDecimal (trim t.toList)).filter fun n => n < 2 ^ 64

def signature? (r : Request) : Option String := r.signature.map fun s => String.ofList (trim s.toList)

/-- The bytes that are signed. -/
def message? (r : Request) : Option (List UInt8) := r.time?.map fun time => utf8 (requestMessage r.pathAndQuery time)

end Request

section Signatures

variable (hmac : List UInt8 → List UInt8 → List UInt8)

def verifySignature (secret body : List UInt8) (signature : String) : Bool :=
  match signature.toList.dropPrefix? "sha256=".toList with
  | some h => hexDecode (String.ofList h) = some (hmac secret body)
  | none => false

/-- `sha256=` and 64 lowercase digits: one spelling only. -/
def canonical (signature : String) : Bool :=
  match signature.toList.dropPrefix? "sha256=".toList with
  | some h => h.length = 64 && h.all fun c => c.isDigit || ('a' ≤ c && c ≤ 'f')
  | none => false

/-- Forget what has left the window, and the oldest of too many. -/
def Seen.evict (clock : ℕ) : List String → List (ℕ × String) → Seen
  | set, [] => { set }
  | set, (seenAt, old) :: order =>
    if seenAt + window ≤ clock ∨ maxSeen ≤ order.length + 1 then evict clock (set.erase old) order
    else { set, order := (seenAt, old) :: order }

/-- Check a request's signature, and remember it so that it is accepted once. -/
def WakeHub.authenticate (hub : WakeHub) (r : Request) (now clock : ℕ) : WakeHub × Except Refusal Unit :=
  match r.time?, r.message?, r.signature? with
  | some time, some message, some signature =>
    if maxSkewSecs < (time - now) + (now - time) then (hub, .error .unauthorized)
    else if !canonical signature || !verifySignature hmac hub.secret message signature then (hub, .error .unauthorized)
    else
      let seen := Seen.evict clock hub.seen.set hub.seen.order
      if signature ∈ seen.set then ({ hub with seen }, .error .unauthorized)
      else ({ hub with seen :=
        { set := seen.set ++ [signature], order := seen.order ++ [(clock, signature)] } }, .ok ())
  | _, _, _ => (hub, .error .unauthorized)

end Signatures

/-! ### What is remembered of requests -/

/-- Sorted by time, no more than the signatures that have left the window are forgotten, where fewer than `maxSeen` are
inside it. -/
theorem evict_spec {clock : ℕ} {order : List (ℕ × String)} (hsorted : order.Pairwise fun a b => a.1 ≤ b.1)
    (hfew : order.countP (fun e => clock < e.1 + window) < maxSeen) :
    ∃ old, order = old ++ (Seen.evict clock (order.map Prod.snd) order).order ∧
      (Seen.evict clock (order.map Prod.snd) order).set =
        (Seen.evict clock (order.map Prod.snd) order).order.map Prod.snd ∧ ∀ e ∈ old, e.1 + window ≤ clock := by
  induction order with
  | nil => exact ⟨[], rfl, rfl, nofun⟩
  | cons e order ih =>
    obtain ⟨hlater, hsorted⟩ := pairwise_cons.mp hsorted
    rw [map_cons, Seen.evict]
    split
    · next hdrop =>
      have hold : e.1 + window ≤ clock := by
        by_contra hnew
        -- Then all of them are inside the window, and they are too few for that.
        have hall : (e :: order).countP (fun e => clock < e.1 + window) = (e :: order).length := by
          refine countP_eq_length.mpr fun e' he' => decide_eq_true ?_
          rcases mem_cons.mp he' with rfl | he'
          · omega
          · have := hlater e' he'
            omega
        rw [hall, length_cons] at hfew
        omega
      have hcount : order.countP (fun e => clock < e.1 + window) ≤ (e :: order).countP fun e => clock < e.1 + window :=
        (sublist_cons_self e order).countP_le
      rw [erase_cons_head]
      obtain ⟨old, horder, hset, hold'⟩ := ih hsorted (hcount.trans_lt hfew)
      refine ⟨e :: old, congrArg (e :: ·) horder, hset, ?_⟩
      exact forall_mem_cons.mpr ⟨hold, hold'⟩
    · exact ⟨[], rfl, rfl, nofun⟩

theorem requestMessage_time {path path' : String} {time time' : ℕ}
    (h : requestMessage path time = requestMessage path' time') : time = time' := by
  have htext (path : String) (time : ℕ) : (requestMessage path time).toList =
      ("forge-wake-v1\nGET\n" ++ path).toList ++ '\n' :: Nat.toDigits 10 time := by
    unfold requestMessage
    generalize "forge-wake-v1\nGET\n" = head
    simp
  have hnewline (n : ℕ) : '\n' ∉ Nat.toDigits 10 n := fun hmem =>
    absurd (Nat.isDigit_of_mem_toDigits (by omega) (by omega) hmem) (by decide)
  have hlists := congrArg String.toList h
  rw [htext, htext] at hlists
  have hdigits := (eq_of_append_cons hlists (hnewline _) (hnewline _)).2
  rw [← Nat.ofDigitChars_ten_toDigits (n := time), hdigits, Nat.ofDigitChars_ten_toDigits]

section Signatures

variable {hmac : List UInt8 → List UInt8 → List UInt8}

theorem isUpper_of_canonical {c : Char} (h : (c.isDigit || (decide ('a' ≤ c) && decide (c ≤ 'f'))) = true) :
    c.isUpper = false := by
  rw [Bool.eq_false_iff]
  intro hupper
  have hupper : c.val ≥ 'A'.val ∧ c.val ≤ 'Z'.val := of_decide_eq_true hupper
  simp only [UInt32.le_iff_toNat_le] at hupper
  simp only [Char.isDigit, Bool.or_eq_true, Bool.and_eq_true, decide_eq_true_eq, Char.le_def,
    UInt32.le_iff_toNat_le] at h
  simp only [Char.reduceVal, UInt32.reduceToNat] at h hupper
  omega

theorem signature_of_verify {secret body : List UInt8} {signature : String} (hcanonical : canonical signature = true)
    (hverify : verifySignature hmac secret body signature = true) :
    signature = "sha256=" ++ hexEncode (hmac secret body) := by
  unfold canonical at hcanonical
  unfold verifySignature at hverify
  split at hverify
  · next h hsome =>
    rw [hsome] at hcanonical
    simp only [Bool.and_eq_true, List.all_eq_true] at hcanonical
    have hlower : ∀ c ∈ (String.ofList h).toList, c.isUpper = false := by
      intro c hc
      rw [String.toList_ofList] at hc
      exact isUpper_of_canonical (hcanonical.2 c hc)
    have hhex := hexDecode_eq_some_iff.mp ⟨of_decide_eq_true hverify, hlower⟩
    obtain ⟨pre, heq, hpre⟩ := dropPrefix?_eq_some_iff.mp hsome
    refine String.toList_inj.mp ?_
    rw [heq, eq_of_beq hpre, String.toList_append, ← hhex, String.toList_ofList (l := h)]
  · cases hverify

/-- A request that is accepted: its time and message, that it is signed and timely, and that its signature is remembered
from then on. -/
theorem authenticate_cases (hmac : List UInt8 → List UInt8 → List UInt8) (hub : WakeHub) (r : Request) (now clock : ℕ) :
    (∃ time message signature, r.time? = some time ∧ message = utf8 (requestMessage r.pathAndQuery time) ∧
      r.message? = some message ∧ r.signature? = some signature ∧ time ≤ now + maxSkewSecs ∧ now ≤ time + maxSkewSecs ∧
      signature = "sha256=" ++ hexEncode (hmac hub.secret message) ∧
      signature ∉ (Seen.evict clock hub.seen.set hub.seen.order).set ∧
      hub.authenticate hmac r now clock = ({ hub with seen := {
        set := (Seen.evict clock hub.seen.set hub.seen.order).set ++ [signature]
        order := (Seen.evict clock hub.seen.set hub.seen.order).order ++ [(clock, signature)] } }, .ok ())) ∨
    (hub.authenticate hmac r now clock).2 = .error .unauthorized ∧ ((hub.authenticate hmac r now clock).1 = hub ∨
        (hub.authenticate hmac r now clock).1 = { hub with seen := Seen.evict clock hub.seen.set hub.seen.order }) := by
  unfold WakeHub.authenticate
  split
  · next time message signature htime hmessage hsignature =>
    have hutf8 : message = utf8 (requestMessage r.pathAndQuery time) := by
      rw [Request.message?, htime, map_some] at hmessage
      exact (some.inj hmessage).symm
    split
    · exact .inr ⟨rfl, .inl rfl⟩
    · next hskew =>
      split
      · exact .inr ⟨rfl, .inl rfl⟩
      · next hsigned =>
        simp only [Bool.or_eq_true, Bool.not_eq_true', not_or, Bool.not_eq_false] at hsigned
        dsimp only
        split
        · exact .inr ⟨rfl, .inr rfl⟩
        · next hnew =>
          exact .inl ⟨time, message, signature, htime, hutf8, hmessage, hsignature, by omega, by omega,
            signature_of_verify hsigned.1 hsigned.2, hnew, rfl⟩
  · exact .inr ⟨rfl, .inl rfl⟩

end Signatures

/-! ### What an answer lists -/

/-- Wakes with their numbers, from 1 on. -/
def numbered (notified : List String) : List (ℕ × String) := notified.zipIdx.map fun w => (w.2 + 1, w.1)

@[simp]
theorem length_numbered (notified : List String) : (numbered notified).length = notified.length := by simp [numbered]

theorem numbered_concat (notified : List String) (r : String) :
    numbered (notified ++ [r]) = numbered notified ++ [(notified.length + 1, r)] := by
  simp [numbered, zipIdx_append]

theorem mem_drop_numbered {notified : List String} {m k : ℕ} {r : String} :
    (k, r) ∈ (numbered notified).drop m ↔ ∃ i, m ≤ i ∧ notified[i]? = some r ∧ k = i + 1 := by
  rw [mem_iff_getElem?]
  simp only [numbered, getElem?_drop, getElem?_map, getElem?_zipIdx, Option.map_map, map_eq_some_iff,
    Function.comp_apply, Prod.mk.injEq]
  constructor
  · rintro ⟨i, r', hr, hk, rfl⟩
    exact ⟨m + i, by omega, hr, by omega⟩
  · rintro ⟨i, hle, hr, rfl⟩
    refine ⟨i - m, r, ?_, ?_, rfl⟩
    · rwa [Nat.add_sub_cancel' hle]
    · omega

theorem drop_numbered_concat (notified : List String) (r : String) (k : ℕ) :
    ((numbered notified).drop (notified.length - k) ++ [(notified.length + 1, r)]).drop
        (((numbered notified).drop (notified.length - k) ++ [(notified.length + 1, r)]).length - k) =
      (numbered (notified ++ [r])).drop ((notified ++ [r]).length - k) := by
  have hconcat := numbered_concat notified r
  rw [← drop_append_of_le_length (by rw [length_numbered]; omega), ← hconcat, drop_drop, length_drop,
    length_numbered, length_append, length_singleton]
  congr 1
  omega

theorem oldest_numbered (notified : List String) {k : ℕ} (hk : 0 < k) :
    ((((numbered notified).drop (notified.length - k)).head?).map Prod.fst).getD (notified.length + 1) =
      notified.length - k + 1 := by
  rw [head?_drop, numbered, getElem?_map, getElem?_zipIdx, Option.map_map, Option.map_map]
  cases hget : notified[notified.length - k]? with
  | none =>
    have := List.getElem?_eq_none_iff.mp hget
    simp only [map_none, getD_none]
    omega
  | some r => simp

/-- The hub holds the end of a history of wakes, all of repositories it serves, with no gap in their numbers. -/
structure Holds (hub : WakeHub) (notified : List String) : Prop where
  seq_eq : hub.seq = notified.length
  wakes_eq : hub.wakes = (numbered notified).drop (notified.length - ring)
  served : ∀ r ∈ notified, hub.serves r = true

section Holds

variable {hub : WakeHub} {notified : List String}

theorem notify_of_serves {r : String} (hserves : hub.serves r = true) : hub.notify r =
    { hub with wakes := (hub.wakes ++ [(hub.seq + 1, r)]).drop ((hub.wakes ++ [(hub.seq + 1, r)]).length - ring)
               seq := hub.seq + 1 } := by
  rw [WakeHub.notify, if_pos hserves]

theorem Holds.notify (h : Holds hub notified) {r : String} (hserves : hub.serves r = true) :
    Holds (hub.notify r) (notified ++ [r]) := by
  rw [notify_of_serves hserves]
  refine ⟨?_, ?_, ?_⟩
  · have hlength : (notified ++ [r]).length = notified.length + 1 := length_append
    exact (congrArg (· + 1) h.seq_eq).trans hlength.symm
  · dsimp only
    rw [h.wakes_eq, h.seq_eq, drop_numbered_concat]
  · intro r' hr'
    rcases mem_append.mp hr' with hr' | hr'
    · exact h.served r' hr'
    · exact mem_singleton.mp hr' ▸ hserves

theorem Holds.oldest (h : Holds hub notified) :
    (hub.wakes.head?.map Prod.fst).getD (hub.seq + 1) = notified.length - ring + 1 := by
  rw [h.wakes_eq, h.seq_eq, oldest_numbered _ ring_pos]

/-- What a runner with a cursor is told: all the wakes after it, and to look at everything exactly where the cursor has no
number of this epoch, or one that the hub has not reached or no longer keeps the next of. -/
theorem answer_spec (h : Holds hub notified) (after : String) : ((hub.answer (some after)).resync = true ↔
      ∀ n, cursorSeq hub.epoch after = some n → notified.length < n ∨ n + ring < notified.length) ∧
    ((hub.answer (some after)).resync = false → ∃ n, cursorSeq hub.epoch after = some n ∧ n ≤ notified.length ∧
      ∀ r, r ∈ (hub.answer (some after)).repos ↔ r ∈ notified.drop n) ∧
    ((hub.answer (some after)).resync = true → (hub.answer (some after)).repos = []) := by
  unfold WakeHub.answer
  dsimp only
  rw [h.oldest, h.seq_eq]
  split
  · next hnone =>
    rw [filter_eq_none_iff] at hnone
    refine ⟨iff_of_true rfl fun n hn => ?_, nofun, fun _ => rfl⟩
    have := hnone n hn
    simp only [decide_eq_true_eq] at this
    omega
  · next n hsome =>
    obtain ⟨hn, hbounds⟩ := filter_eq_some_iff.mp hsome
    have hbounds := of_decide_eq_true hbounds
    refine ⟨iff_of_false Bool.false_ne_true fun hall => ?_, fun _ => ⟨n, hn, hbounds.1, fun r => ?_⟩, nofun⟩
    · have := hall n hn
      omega
    · simp only [mem_sortedDistinct, List.mem_map, mem_filter, Prod.exists, exists_eq_right,
        decide_eq_true_eq, h.wakes_eq,
        mem_drop_numbered]
      rw [mem_iff_getElem?]
      simp only [getElem?_drop]
      constructor
      · rintro ⟨k, ⟨i, -, hr, rfl⟩, hlt⟩
        refine ⟨i - n, ?_⟩
        rwa [Nat.add_sub_cancel' (by omega)]
      · rintro ⟨i, hr⟩
        exact ⟨n + i + 1, ⟨n + i, by omega, hr, rfl⟩, by omega⟩

end Holds

end DashForge.Wake
