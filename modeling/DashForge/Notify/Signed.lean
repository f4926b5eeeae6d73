import DashForge.Data.Except
import DashForge.Data.Utf8
import DashForge.Notify.Store

/-!
# Signed requests

A request to the notification service is one JSON text with a signature of one of its identity's keys
(`services/forge-notify`, `auth.rs` and `api.rs`). `verify` checks it against the clock and the keys, and
`useNonce` lets each nonce of an identity pass once while its row is kept. The keys are read over the network
between the two, so a call reads the clock twice, and other calls and the purge come between.

The JSON reader, base58, base64 and secp256k1 are parameters without laws: `signed_spec` holds of any.
-/

namespace DashForge.Auth

open Notify (toI64)
open List

/-- What the client posts. -/
structure SignedEnvelope where
  request : String
  signature : String
deriving DecidableEq

/-- A request, as far as it is checked: its payload is its action's. -/
structure SignedRequest where
  v : UInt8
  service : String
  action : String
  identity : String
  key : UInt32
  nonce : String
  time : UInt64
deriving DecidableEq

/-- What a contract-bound key may sign for. -/
inductive KeyBounds where
  | contract (id : String) (documentType : Option String)
  | contractGroup (id : String)
deriving DecidableEq

/-- One public key of an identity. -/
structure IdentityKeyInfo where
  id : UInt32
  purpose : String
  securityLevel : String
  keyType : String
  publicKey : List UInt8
  disabled : Bool
  bounds : Option KeyBounds
deriving DecidableEq

/-- The contracts of a deployment. -/
structure ForgeIds where
  core : String
  collab : String
  community : String
  meta_ : Option String
  group : String
  supersededInGroup : List String

inductive NotifyError where
  | badRequest (text : String)
  | unauthorized (text : String)
  | unavailable (text : String)
deriving DecidableEq

/-- The libraries a request is checked with. -/
structure Libraries where
  /-- The request of a JSON text, or what is wrong with it. -/
  parseRequest : String → Except String SignedRequest
  /-- The id of a base58 text. -/
  decodeIdentifier : String → Option (List UInt8)
  decodeBase64 : String → Option (List UInt8)
  signatureFromCompact : List UInt8 → Option (List UInt8)
  normalizeS : List UInt8 → List UInt8
  publicKeyFromSlice : List UInt8 → Option (List UInt8)
  verifyEcdsa : List UInt8 → List UInt8 → List UInt8 → Bool
  sha256 : List UInt8 → List UInt8
  /-- A string in quotes, as `format!` writes it for debugging. -/
  debug : String → String

/-! ### Checking a request -/

def domain : String := "DashForgeService/v1\n"

def maxSkewSecs : ℕ := 300

def maxRequestBytes : ℕ := 8 * 1024

def actions : List String :=
  ["account.get", "email.set", "email.remove", "prefs.set", "push.add", "push.remove", "test.send", "data.export",
    "data.delete"]

namespace ForgeIds

variable (forge : ForgeIds)

def all : List String := [forge.core, forge.collab, forge.community] ++ forge.meta_.toList

def allowsKeyBounds : Option KeyBounds → Bool
  | none => true
  | some (.contract id _) => id ∈ forge.all || id ∈ forge.supersededInGroup
  | some (.contractGroup id) => id = forge.group

end ForgeIds

def usableSigningKey (k : IdentityKeyInfo) (forge : ForgeIds) : Bool :=
  !k.disabled && k.purpose = "AUTHENTICATION" && (k.securityLevel = "HIGH" || k.securityLevel = "CRITICAL") &&
    k.keyType = "ECDSA_SECP256K1" && forge.allowsKeyBounds k.bounds

/-- The characters of a nonce. -/
def isNonceChar (c : Char) : Bool := c.isAlphanum || c = '-' || c = '_'

def nonceOk (nonce : String) : Bool :=
  16 ≤ nonce.utf8ByteSize && nonce.utf8ByteSize ≤ 64 && nonce.toList.all isNonceChar

/-- How far two times are from each other. -/
def absDiff (a b : UInt64) : ℕ := (a.toNat - b.toNat) + (b.toNat - a.toNat)

/-- The answer about an identity's keys. -/
abbrev Keys := String → Except NotifyError (Option (List IdentityKeyInfo))

section Verify

variable (x : Libraries) (operator : String) (forge : ForgeIds)

def digest (request : String) : List UInt8 := x.sha256 (x.sha256 (utf8 domain ++ utf8 request))

/-- Everything but the signature. -/
def verifyFields (request : String) (nowSecs : UInt64) : Except NotifyError SignedRequest := do
  refuseIf (maxRequestBytes < request.utf8ByteSize) (.badRequest "the request is too long")
  let req ← (x.parseRequest request).mapError fun e => .badRequest ("the request does not parse: " ++ e)
  refuseIf (req.v ≠ 1) (.badRequest "unknown request version")
  refuseIf (req.service ≠ operator) (.unauthorized
    ("the request is for " ++ x.debug req.service ++ ", not this service (" ++ x.debug operator ++ ")"))
  refuseIf (req.action ∉ actions) (.badRequest ("unknown action " ++ x.debug req.action))
  refuseIf (x.decodeIdentifier req.identity = none) (.badRequest "identity is not an identity id")
  refuseIf (nonceOk req.nonce = false) (.badRequest "nonce must be 16 to 64 base64url characters")
  refuseIf (maxSkewSecs < absDiff req.time nowSecs)
    (.unauthorized "the request's time is more than 5 minutes off; check this device's clock")
  return req

/-- The signature, by the key the request names. -/
def verifySignature (env : SignedEnvelope) (req : SignedRequest) (keys : Keys) : Except NotifyError Unit := do
  let sigBytes ← okOr (x.decodeBase64 (String.ofList (trim env.signature.toList)))
    (.badRequest "signature is not base64")
  let sig ← okOr (x.signatureFromCompact sigBytes) (.badRequest "signature is not a 64-byte signature")
  let all ← okOr (← keys req.identity) (.unauthorized "no such identity")
  let key ← okOr (all.find? fun k => k.id = req.key)
    (.unauthorized ("the identity has no key " ++ toString req.key.toNat))
  refuseIf (usableSigningKey key forge = false) (.unauthorized ("key " ++ toString req.key.toNat ++
    " cannot sign service requests (it must be an enabled ECDSA_SECP256K1 AUTHENTICATION key of HIGH or CRITICAL " ++
    "level, unbound or bound to Forge)"))
  let pubkey ← okOr (x.publicKeyFromSlice key.publicKey) (.unauthorized "the key's data is not a public key")
  refuseIf (x.verifyEcdsa (digest x env.request) (x.normalizeS sig) pubkey = false)
    (.unauthorized "the signature does not verify")

/-- Check the envelope's shape, time, service and signature. -/
def verify (env : SignedEnvelope) (keys : Keys) (nowSecs : UInt64) : Except NotifyError SignedRequest := do
  let req ← verifyFields x operator env.request nowSecs
  verifySignature x forge env req keys
  return req

end Verify

/-! ### Nonces -/

/-- The table of used nonces with when each expires. -/
abbrev Nonces := SortedMap String ℕ

/-- `DELETE FROM nonce WHERE expires_at < ?`: all that the purge does to the table. -/
def Nonces.purge (t : Nonces) (now : UInt64) : Nonces := t.filter fun _ e => !decide (e < toI64 now.toNat)

/-- Use a nonce once: `false` when its row is still there. -/
def Nonces.useNonce (t : Nonces) (nonce : String) (expiresAt now : UInt64) : Nonces × Bool :=
  let t := t.purge now
  match t.lookup nonce with
  | some _ => (t, false)
  | none => (t.insert nonce (toI64 expiresAt.toNat), true)

namespace SignedRequest

variable (req : SignedRequest)

/-- The string a request's nonce is stored as. -/
def nonceKey : String := req.identity ++ ":" ++ req.nonce

/-- When a request's nonce expires, in milliseconds. Machine arithmetic wraps. -/
def expires : UInt64 := (req.time + UInt64.ofNat maxSkewSecs * 2) * 1000

end SignedRequest

/-- A call to the endpoint: what came, the keys as they were read for it, and the clock in milliseconds when it was
checked and when its nonce was used. -/
structure Call where
  env : SignedEnvelope
  keys : Keys
  verifyNow : UInt64
  nonceNow : UInt64

def nowSecs (now : UInt64) : UInt64 := now / 1000

section Signed

variable (x : Libraries) (operator : String) (forge : ForgeIds)

/-- A call: the request that is accepted, for its action to be carried out, or why it is not. -/
def signed (t : Nonces) (c : Call) : Nonces × Except NotifyError SignedRequest :=
  match verify x operator forge c.env c.keys (nowSecs c.verifyNow) with
  | .error e => (t, .error e)
  | .ok req =>
    let (t, fresh) := t.useNonce req.nonceKey req.expires c.nonceNow
    (t, if fresh then .ok req else .error (.unauthorized "this request was already used"))

/-- The service, with the calls accepted so far, the last one first. -/
structure State where
  clock : UInt64
  nonces : Nonces
  accepted : List (Call × SignedRequest) := []

/-- What a call does to the service. Its nonce is used under the store's lock, with the clock read there. -/
def State.signed (st : State) (c : Call) : State :=
  let (nonces, answer) := Auth.signed x operator forge st.nonces c
  { clock := c.nonceNow, nonces, accepted := (answer.toOption.map (Prod.mk c)).toList ++ st.accepted }

/-- Calls in the order they use their nonces, and purges, which read the clock before they take the lock. -/
inductive Step : State → State → Prop
  | signed {st : State} (c : Call) (hverify : c.verifyNow ≤ c.nonceNow) (hclock : st.clock ≤ c.nonceNow) :
    Step st (st.signed x operator forge c)
  | purge {st : State} (now later : UInt64) (hnow : now ≤ later) (hclock : st.clock ≤ later) :
    Step st { st with clock := later, nonces := st.nonces.purge now }

/-- The states of runs from any table. -/
def Reachable (st : State) : Prop := ∃ clock nonces, Relation.ReflTransGen (Step x operator forge) { clock, nonces } st

end Signed

/-! ### What a check lets through -/

section Verified

variable {x : Libraries} {operator : String} {forge : ForgeIds} {request : String} {env : SignedEnvelope} {keys : Keys}
  {now : UInt64} {req : SignedRequest}

theorem verifyFields_eq_ok (h : verifyFields x operator request now = .ok req) :
    x.parseRequest request = .ok req ∧ nonceOk req.nonce = true ∧ absDiff req.time now ≤ maxSkewSecs := by
  obtain ⟨_, -, h⟩ := bind_eq_ok.mp h
  obtain ⟨req', hreq, h⟩ := bind_eq_ok.mp h
  obtain ⟨_, -, h⟩ := bind_eq_ok.mp h
  obtain ⟨_, -, h⟩ := bind_eq_ok.mp h
  obtain ⟨_, -, h⟩ := bind_eq_ok.mp h
  obtain ⟨_, -, h⟩ := bind_eq_ok.mp h
  obtain ⟨_, hnonce, h⟩ := bind_eq_ok.mp h
  obtain ⟨_, htime, h⟩ := bind_eq_ok.mp h
  obtain rfl := pure_eq_ok.mp h
  refine ⟨?_, by simpa using refuseIf_eq_ok.mp hnonce, not_lt.mp (refuseIf_eq_ok.mp htime)⟩
  cases hparse : x.parseRequest request with
  | error e => simp [hparse, Except.mapError] at hreq
  | ok r => simpa [hparse, Except.mapError] using hreq

variable (h : verify x operator forge env keys now = .ok req)

include h in
theorem verifyFields_of_verify :
    verifyFields x operator env.request now = .ok req := by
  obtain ⟨req', hreq, h⟩ := bind_eq_ok.mp h
  obtain ⟨_, -, h⟩ := bind_eq_ok.mp h
  obtain rfl := pure_eq_ok.mp h
  exact hreq

include h in
theorem parse_of_verify : x.parseRequest env.request = .ok req :=
  (verifyFields_eq_ok (verifyFields_of_verify h)).1

/-- A request is let through while the clock, in milliseconds, is before 301 seconds after its time. -/
theorem lt_of_verify (h : verify x operator forge env keys (nowSecs now) = .ok req) :
    now.toNat < (req.time.toNat + 301) * 1000 ∧ req.time.toNat ≤ now.toNat / 1000 + 300 := by
  have htime := (verifyFields_eq_ok (verifyFields_of_verify h)).2.2
  have hsecs : (nowSecs now).toNat = now.toNat / 1000 := UInt64.toNat_div _ _
  rw [absDiff, hsecs, maxSkewSecs] at htime
  omega

/-- Where the clock is below 2^53 seconds the expiry is computed without overflow, and is stored as it is. -/
theorem expires_of_verify (h : verify x operator forge env keys (nowSecs now) = .ok req)
    (hnow : (nowSecs now).toNat < 2 ^ 53) :
    req.time.toNat + maxSkewSecs * 2 < 2 ^ 64 ∧ req.expires.toNat = (req.time.toNat + maxSkewSecs * 2) * 1000 ∧
      toI64 req.expires.toNat = req.expires.toNat := by
  have htime := (lt_of_verify h).2
  have hsecs : (nowSecs now).toNat = now.toNat / 1000 := UInt64.toNat_div _ _
  have hexpires : req.expires.toNat = (req.time.toNat + 600) % 2 ^ 64 * 1000 % 2 ^ 64 := by
    rw [SignedRequest.expires, UInt64.toNat_mul, UInt64.toNat_add]
    rfl
  have hvalue : req.expires.toNat = (req.time.toNat + 600) * 1000 := by omega
  refine ⟨?_, hvalue, ?_⟩
  · rw [maxSkewSecs]
    omega
  · rw [toI64]
    omega

include h in
theorem nonce_of_verify : ':' ∉ req.nonce.toList := by
  have hnonce := (verifyFields_eq_ok (verifyFields_of_verify h)).2.1
  rw [nonceOk, Bool.and_eq_true, all_eq_true] at hnonce
  intro hmem
  exact absurd (hnonce.2 ':' hmem) (by decide)

end Verified

/-- The stored string is of one identity and one nonce: a nonce has no colon. -/
theorem SignedRequest.nonceKey_inj {req req' : SignedRequest} (h : req.nonceKey = req'.nonceKey)
    (hnonce : ':' ∉ req.nonce.toList) (hnonce' : ':' ∉ req'.nonce.toList) :
    req.identity = req'.identity ∧ req.nonce = req'.nonce := by
  have hlist := congrArg String.toList h
  simp only [nonceKey, String.toList_append] at hlist
  have hcolon : ":".toList = [':'] := rfl
  rw [hcolon, append_assoc, append_assoc] at hlist
  obtain ⟨hid, hn⟩ := eq_of_append_cons hlist hnonce hnonce'
  exact ⟨String.toList_inj.mp hid, String.toList_inj.mp hn⟩

/-! ### Runs -/

theorem toI64_mono {a b : ℕ} (h : a ≤ b) : toI64 a ≤ toI64 b := min_le_min_right _ h

theorem lt_of_toI64_lt {a b : ℕ} (h : toI64 a < toI64 b) : a < b := lt_of_not_ge fun hle =>
    absurd (toI64_mono hle) (not_le.mpr h)

theorem Nonces.lookup_purge {t : Nonces} {k : String} {e : ℕ} (now : UInt64) (h : t.lookup k = some e) :
    (t.purge now).lookup k = some e ∨ e < toI64 now.toNat := by
  by_cases he : e < toI64 now.toNat
  · exact .inr he
  · refine .inl ?_
    rw [Nonces.purge, SortedMap.lookup_filter, h, Option.filter_some_pos (by simpa using he)]

theorem Nonces.useNonce_cases (t : Nonces) (k : String) (e now : UInt64) :
    (∃ e', (t.purge now).lookup k = some e' ∧ t.useNonce k e now = (t.purge now, false)) ∨
      ((t.purge now).lookup k = none ∧ t.useNonce k e now = ((t.purge now).insert k (toI64 e.toNat), true)) := by
  cases h : (t.purge now).lookup k with
  | none => exact .inr ⟨rfl, by simp only [useNonce, h]⟩
  | some e' => exact .inl ⟨e', rfl, by simp only [useNonce, h]⟩

section Runs

variable {x : Libraries} {operator : String} {forge : ForgeIds} {st st' : State}

theorem State.signed_cases (x : Libraries) (operator : String) (forge : ForgeIds) (st : State) (c : Call) :
    (∃ nonces, (nonces = st.nonces ∨ nonces = st.nonces.purge c.nonceNow) ∧
      st.signed x operator forge c = { st with clock := c.nonceNow, nonces := nonces }) ∨
    ∃ req, verify x operator forge c.env c.keys (nowSecs c.verifyNow) = .ok req ∧
      (st.nonces.purge c.nonceNow).lookup req.nonceKey = none ∧ st.signed x operator forge c =
        { clock := c.nonceNow, nonces := (st.nonces.purge c.nonceNow).insert req.nonceKey (toI64 req.expires.toNat),
          accepted := (c, req) :: st.accepted } := by
  cases hverify : verify x operator forge c.env c.keys (nowSecs c.verifyNow) with
  | error e =>
    refine .inl ⟨st.nonces, .inl rfl, ?_⟩
    simp [State.signed, Auth.signed, hverify, Except.toOption]
  | ok req =>
    obtain ⟨e', -, huse⟩ | ⟨hnone, huse⟩ := Nonces.useNonce_cases st.nonces req.nonceKey req.expires c.nonceNow
    · refine .inl ⟨_, .inr rfl, ?_⟩
      simp [State.signed, Auth.signed, hverify, huse, Except.toOption]
    · refine .inr ⟨req, rfl, hnone, ?_⟩
      simp [State.signed, Auth.signed, hverify, huse, Except.toOption]

/-- The row of an accepted request is there, or has expired. -/
def Kept (st : State) (req : SignedRequest) : Prop :=
  st.nonces.lookup req.nonceKey = some (toI64 req.expires.toNat) ∨ toI64 req.expires.toNat < toI64 st.clock.toNat

/-- A call that was checked, and later had its nonce used. -/
def Checked (x : Libraries) (operator : String) (forge : ForgeIds) (a : Call × SignedRequest) : Prop :=
  a.1.verifyNow ≤ a.1.nonceNow ∧ verify x operator forge a.1.env a.1.keys (nowSecs a.1.verifyNow) = .ok a.2

/-- The invariant of runs: a nonce was used again only after its first use had expired. -/
structure Inv (x : Libraries) (operator : String) (forge : ForgeIds) (st : State) : Prop where
  checked : ∀ a ∈ st.accepted, Checked x operator forge a
  kept : ∀ a ∈ st.accepted, Kept st a.2
  once : st.accepted.Pairwise fun b a => a.2.nonceKey = b.2.nonceKey → a.2.expires.toNat < b.1.nonceNow.toNat

variable {req : SignedRequest} {later : UInt64}

theorem Kept.purge (h : Kept st req) {now : UInt64} (hnow : now ≤ later)
    (hclock : st.clock ≤ later) : Kept { st with clock := later, nonces := st.nonces.purge now } req := by
  rcases h with hrow | hexpired
  · refine (Nonces.lookup_purge now hrow).imp_right fun hlt => ?_
    exact hlt.trans_le (toI64_mono (UInt64.le_iff_toNat_le.mp hnow))
  · exact .inr (hexpired.trans_le (toI64_mono (UInt64.le_iff_toNat_le.mp hclock)))

theorem Kept.clock (h : Kept st req) (hclock : st.clock ≤ later) : Kept { st with clock := later } req :=
  h.imp_right fun hexpired => hexpired.trans_le (toI64_mono (UInt64.le_iff_toNat_le.mp hclock))

theorem Kept.insert (h : Kept st req) {k : String} (hnone : st.nonces.lookup k = none) (e : ℕ)
    (accepted : List (Call × SignedRequest)) : Kept { st with nonces := st.nonces.insert k e, accepted := accepted } req := by
  refine h.imp_left fun hrow => ?_
  rw [SortedMap.lookup_insert, if_neg, hrow]
  rintro rfl
  rw [hrow] at hnone
  cases hnone

theorem Inv.step (h : Inv x operator forge st) (hstep : Step x operator forge st st') : Inv x operator forge st' := by
  cases hstep with
  | purge now later hnow hclock =>
    exact ⟨h.checked, fun a ha => (h.kept a ha).purge hnow hclock, h.once⟩
  | signed c hverify hclock =>
    have hpurged : ∀ a ∈ st.accepted, Kept { st with clock := c.nonceNow, nonces := st.nonces.purge c.nonceNow } a.2 :=
      fun a ha => (h.kept a ha).purge (UInt64.le_refl _) hclock
    obtain ⟨nonces, hnonces, heq⟩ | ⟨req, hreq, hnone, heq⟩ := State.signed_cases x operator forge st c
    · rw [heq]
      refine ⟨h.checked, fun a ha => ?_, h.once⟩
      rcases hnonces with rfl | rfl
      · exact (h.kept a ha).clock hclock
      · exact hpurged a ha
    · rw [heq]
      refine ⟨?_, ?_, ?_⟩
      · exact forall_mem_cons.mpr ⟨show Checked x operator forge (c, req) from ⟨hverify, hreq⟩, h.checked⟩
      · refine forall_mem_cons.mpr ⟨.inl ?_, fun a ha => (hpurged a ha).insert hnone _ _⟩
        rw [SortedMap.lookup_insert, if_pos rfl]
      · refine pairwise_cons.mpr ⟨fun a ha hkey => ?_, h.once⟩
        -- the earlier row is gone, so it has expired
        rcases hpurged a ha with hrow | hexpired
        · rw [hkey] at hrow
          exact absurd (hrow.symm.trans hnone) (by simp)
        · exact lt_of_toI64_lt hexpired

theorem Reachable.inv (h : Reachable x operator forge st) : Inv x operator forge st := by
  obtain ⟨clock, nonces, hrun⟩ := h
  induction hrun with
  | refl => exact ⟨by simp, by simp, .nil⟩
  | tail _ hstep ih => exact ih.step hstep

end Runs

/-- What keeps a request from being accepted again. A nonce passes again only when its first use has expired, so that
of two accepted requests with one nonce of one identity the later is another text with a later time, where its check
and the use of its nonce are less than 299 seconds apart. A stored string is one identity's nonce. Below 2^53 seconds
an expiry is what it says and lies after every moment the request is let through. -/
theorem signed_spec (x : Libraries) (operator : String) (forge : ForgeIds) :
    (∀ st, Reachable x operator forge st → st.accepted.Pairwise fun b a =>
      a.2.identity = b.2.identity → a.2.nonce = b.2.nonce → a.2.expires.toNat < b.1.nonceNow.toNat ∧
        ((nowSecs a.1.verifyNow).toNat < 2 ^ 53 → b.1.nonceNow.toNat ≤ b.1.verifyNow.toNat + 299000 →
          a.2.time < b.2.time ∧ a.1.env.request ≠ b.1.env.request)) ∧
    (∀ env env' keys keys' now now' req req', verify x operator forge env keys now = .ok req →
      verify x operator forge env' keys' now' = .ok req' → req.nonceKey = req'.nonceKey →
      req.identity = req'.identity ∧ req.nonce = req'.nonce) ∧
    ∀ env keys now req, verify x operator forge env keys (nowSecs now) = .ok req → (nowSecs now).toNat < 2 ^ 53 →
      req.time.toNat + maxSkewSecs * 2 < 2 ^ 64 ∧ req.expires.toNat = (req.time.toNat + maxSkewSecs * 2) * 1000 ∧
        toI64 req.expires.toNat = req.expires.toNat ∧
        ∀ env' keys' now' req', env'.request = env.request →
          verify x operator forge env' keys' (nowSecs now') = .ok req' → now'.toNat < req.expires.toNat := by
  have hsame : ∀ env env' keys keys' now now' req req', env'.request = env.request →
      verify x operator forge env keys now = .ok req → verify x operator forge env' keys' now' =
          .ok req' → req' = req := by
    intro env env' keys keys' now now' req req' htext h h'
    have hparse := parse_of_verify h'
    rw [htext, parse_of_verify h] at hparse
    exact (Except.ok.inj hparse).symm
  refine ⟨fun st hst => ?_, fun env env' keys keys' now now' req req' h h' hkey => ?_,
      fun env keys now req h hnow => ?_⟩
  · have hinv := hst.inv
    refine List.Pairwise.imp_of_mem (fun {b a} hb ha honce hid hnonce => ?_) hinv.once
    have hkey : a.2.nonceKey = b.2.nonceKey := by rw [SignedRequest.nonceKey, SignedRequest.nonceKey, hid, hnonce]
    have hlt := honce hkey
    obtain ⟨-, hb⟩ := hinv.checked b hb
    obtain ⟨-, ha⟩ := hinv.checked a ha
    refine ⟨hlt, fun hbelow hsoon => ?_⟩
    obtain ⟨-, hexpires, -⟩ := expires_of_verify ha hbelow
    have hlast := (lt_of_verify hb).1
    rw [maxSkewSecs] at hexpires
    have htime : a.2.time < b.2.time := UInt64.lt_iff_toNat_lt.mpr (by omega)
    refine ⟨htime, fun htext => ?_⟩
    rw [hsame _ _ _ _ _ _ _ _ htext hb ha] at htime
    exact absurd htime (UInt64.lt_irrefl _)
  · exact SignedRequest.nonceKey_inj hkey (nonce_of_verify h) (nonce_of_verify h')
  · obtain ⟨hadd, hexpires, hstored⟩ := expires_of_verify h hnow
    refine ⟨hadd, hexpires, hstored, fun env' keys' now' req' htext h' => ?_⟩
    obtain rfl := hsame _ _ _ _ _ _ _ _ htext h h'
    have hwindow : req'.time.toNat + 301 ≤ req'.time.toNat + maxSkewSecs * 2 := Nat.add_le_add_left (by decide) _
    rw [hexpires]
    exact (lt_of_verify h').1.trans_le (Nat.mul_le_mul_right 1000 hwindow)

/-! ### A nonce used twice -/

def requestSample (time : UInt64) : SignedRequest where
  v := 1
  service := "notify.example.org"
  action := "account.get"
  identity := "FrNpRnZQPP5gLFAjD7Foz4tZaML5DJ88CqaCvAkYNYjU"
  key := 2
  nonce := "AAAAAAAAAAAAAAAAAAAAAA"
  time := time

/-- The text of a sample request. -/
def textSample (time : UInt64) : String :=
  "\x7b\"v\":1,\"service\":\"notify.example.org\",\"action\":\"account.get\"," ++
  "\"identity\":\"FrNpRnZQPP5gLFAjD7Foz4tZaML5DJ88CqaCvAkYNYjU\",\"key\":2," ++
  "\"nonce\":\"AAAAAAAAAAAAAAAAAAAAAA\",\"time\":" ++ toString time.toNat ++ ",\"payload\":\x7b\x7d\x7d"

/-- Libraries that know two requests and take 64 zero bytes for their signatures. -/
def librariesSample : Libraries where
  parseRequest text :=
    if text = textSample 1791130000 then .ok (requestSample 1791130000)
    else if text = textSample 1791130601 then .ok (requestSample 1791130601)
    else .error "expected value at line 1 column 1"
  decodeIdentifier text := if text = (requestSample 0).identity then some (replicate 32 7) else none
  decodeBase64 text := if text = "AAAA" then some (replicate 64 0) else none
  signatureFromCompact b := if b.length = 64 then some b else none
  normalizeS := id
  publicKeyFromSlice b := if b.length = 33 then some b else none
  verifyEcdsa _ _ _ := true
  sha256 b := replicate 32 (b.foldl (· + ·) 0)
  debug s := "\"" ++ s ++ "\""

def forgeSample : ForgeIds where
  core := "CORE"
  collab := "COLLAB"
  community := "COMMUNITY"
  meta_ := none
  group := "G"
  supersededInGroup := []

def keySample : IdentityKeyInfo where
  id := 2
  purpose := "AUTHENTICATION"
  securityLevel := "HIGH"
  keyType := "ECDSA_SECP256K1"
  publicKey := replicate 33 2
  disabled := false
  bounds := none

/-- A call that is checked and has its nonce used at the time its request gives. -/
def callSample (time : UInt64) : Call where
  env := { request := textSample time, signature := "AAAA" }
  keys _ := .ok (some [keySample])
  verifyNow := time * 1000
  nonceNow := time * 1000

/-- An identity's second request, ten minutes after the first, is accepted with the same nonce. -/
theorem nonce_accepted_twice : ∃ st a b, Reachable librariesSample "notify.example.org" forgeSample st ∧
    st.accepted = [b, a] ∧ a.2.identity = b.2.identity ∧ a.2.nonce = b.2.nonce := by
  let st₀ : State := { clock := 0, nonces := .empty }
  let st₁ := st₀.signed librariesSample "notify.example.org" forgeSample (callSample 1791130000)
  let st₂ := st₁.signed librariesSample "notify.example.org" forgeSample (callSample 1791130601)
  have hfirst : Step librariesSample "notify.example.org" forgeSample st₀ st₁ :=
    .signed _ (by decide +kernel) (by decide +kernel)
  have hsecond : Step librariesSample "notify.example.org" forgeSample st₁ st₂ :=
    .signed _ (by decide +kernel) (by decide +kernel)
  have haccepted : st₂.accepted.map Prod.snd = [requestSample 1791130601, requestSample 1791130000] := by decide +kernel
  obtain ⟨b, rest, hst, hb, hrest⟩ := map_eq_cons_iff.mp haccepted
  obtain ⟨a, rest, rfl, ha, hnil⟩ := map_eq_cons_iff.mp hrest
  obtain rfl := map_eq_nil_iff.mp hnil
  refine ⟨st₂, a, b, ⟨0, .empty, .tail (.tail .refl hfirst) hsecond⟩, hst, ?_, ?_⟩
  · rw [ha, hb]
    rfl
  · rw [ha, hb]
    rfl

end DashForge.Auth
