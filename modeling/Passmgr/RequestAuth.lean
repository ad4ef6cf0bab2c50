/-
# Signed requests

How the server accepts a request (`auth/auth-middleware.ts`): a timestamp near its clock, a live
session, an HMAC over the request, and a nonce nobody claimed.  The session and nonce keys are
those of `util/redis-utils.ts`.

The window of the timestamp lies around the client's time, the life of a nonce starts at the
server's.  A nonce outlives every later moment its request would pass the timestamp check at only
when the client's clock was less than a minute ahead, and a timestamp that is no number passes the
check at any time.

Main definitions:

* `checkTimestamp`, `getSession`, `claimNonce`, `touchSession`, `verifySignedRequest` — the source;
* `Server`, `ServerStep` — the server under any sequence of requests and other commands;
* `Covered` — the nonce outlives the timestamp.

Main results:

* `of_verifySignedRequest` — what an accepted request says about the store;
* `checkTimestamp_of_covered`, `checkTimestamp_of_not_covered` — `Covered` is exact;
* `accepted_again` — what happens to a request that is not covered;
* `covered_accepted_once` — no request is accepted twice while the accepted ones are covered.
-/

import Passmgr.Expiring
import Passmgr.JsNumber
import Passmgr.Run
import Passmgr.Schema

set_option relaxedAutoImplicit false
set_option autoImplicit false

namespace Passmgr

open Expiring

/-! ### Keys in Redis -/

abbrev SessionId := String

/-- `Session` of `redis-utils.ts`. -/
structure Session where
  userId : UserId
  rawAuthKey : String
  authenticatedAt : Option Time
  deviceName : Option String
  secondFactor : Bool
  deviceCredentialId : Option String
  passwordless : Bool
  deriving DecidableEq, Repr

/-- The keys a signed request reads or writes: `session:`, `sessionepoch:`, `signedout:` and
`nonce:`. -/
structure Redis where
  sessions : Store SessionId Session
  sessionEpochs : Store UserId Time
  signedOut : Store SessionId Unit
  nonces : Store String Unit

def sessionTtl : ℕ := 60 * 60 * 24
def sessionMaxAge : ℕ := 30 * 24 * 60 * 60000
/-- `NONCE_TTL_SECONDS`, in milliseconds. -/
def nonceTtl : Time := 6 * 60 * 1000
/-- How far a timestamp may lie from the server's clock, in milliseconds. -/
def timestampWindow : Time := 5 * 60000

def isLive (session : Session) (epoch : Option Time) (now : Time) : Bool :=
  let authenticatedAt := session.authenticatedAt.getD 0
  match epoch with
  | some e => e < authenticatedAt && now - authenticatedAt < sessionMaxAge
  | none => now - authenticatedAt < sessionMaxAge

/-- The sliding idle time in seconds, capped by what is left of the session's greatest age. -/
def sessionTtlSeconds (authenticatedAt : Time) (now : Time) : ℕ :=
  min sessionTtl ((authenticatedAt + sessionMaxAge - now + 999) / 1000)

def deleteSession (redis : Redis) (sessionId : SessionId) : Redis :=
  { redis with sessions := redis.sessions.del sessionId }

/-- The session of an id; one past its epoch or its greatest age is deleted. -/
def getSession (redis : Redis) (now : Time) (sessionId : SessionId) : Option Session × Redis :=
  match redis.sessions.get now sessionId with
  | none => (none, redis)
  | some session =>
    if isLive session (redis.sessionEpochs.get now session.userId) now then (some session, redis)
    else (none, deleteSession redis sessionId)

def isSignedOut (redis : Redis) (now : Time) (sessionId : SessionId) : Bool :=
  (redis.signedOut.get now sessionId).isSome

/-- `SET nonce:… EX … NX`. -/
def claimNonce (redis : Redis) (now : Time) (nonce : String) : Bool × Redis :=
  let (claimed, nonces) := redis.nonces.setNx now nonce () (some (now + nonceTtl))
  (claimed, { redis with nonces := nonces })

def touchSession (redis : Redis) (now : Time) (sessionId : SessionId) (session : Session) :
    Redis :=
  match session.authenticatedAt with
  | none => redis
  | some at' =>
    if sessionTtlSeconds at' now = 0 then redis
    else
      { redis with
        sessions := redis.sessions.expire now sessionId (now + sessionTtlSeconds at' now * 1000) }

/-! ### The request -/

/-- `ctx.session`: what the headers or the connection parameters carry. -/
structure SessionHeaders where
  sessionId : Option String
  timestamp : Option String
  signature : Option String
  nonce : Option String
  deriving DecidableEq, Repr

/-- The arguments of `verifySignedRequest`. -/
structure SignedRequest (Input : Type) where
  session : Option SessionHeaders
  path : String
  type : String
  signedPath : String
  input : Input
  deriving DecidableEq, Repr

/-- What the runtime does: base64, `JSON.stringify` and HMAC-SHA-256. -/
structure Platform (Input Bytes : Type) where
  fromBase64 : String → Option Bytes
  stringify : Input → String
  verifyHmac : Bytes → Bytes → String → Bool

inductive AuthFailReason
  | sessionNotFound
  | sessionSignedOut
  | missingAuthHeaders
  | staleTimestamp
  | invalidSignature
  | replayDetected
  deriving DecidableEq, Repr

/-- How a request ends unaccepted: denied, or thrown by `fromBase64`. -/
inductive AuthError
  | denied (reason : AuthFailReason) (code : String) (message : Option String)
  | encoding
  deriving DecidableEq, Repr

/-- `denyAuth`: the code is `UNAUTHORIZED` unless the caller says otherwise. -/
def denyAuth (reason : AuthFailReason) : AuthError := .denied reason "UNAUTHORIZED" none

def sessionSignedOutMessage : String := "session_signed_out"

open JsNumber in
/-- `Math.abs(now - Number(timestamp)) > 5 * 60_000`, which is false for a text that is no
number. -/
def checkTimestamp (now : Time) (timestamp : String) : Bool :=
  if gt (abs (sub (fin now) (number timestamp))) (fin timestampWindow) then false else true

def getMessage (type path timestamp nonce reqBody : String) : String :=
  type ++ "\n" ++ path ++ "\n" ++ timestamp ++ "\n" ++ nonce ++ "\n" ++ reqBody

/-- A header that is there and not empty. -/
def present : Option String → Option String
  | some "" => none
  | h => h

variable {Input Bytes : Type}

/-- The four values of `ctx.session`, when all of them are there. -/
def SignedRequest.headers? (opts : SignedRequest Input) :
    Option (String × String × String × String) := do
  let session ← opts.session
  let sessionId ← present session.sessionId
  let timestamp ← present session.timestamp
  let signature ← present session.signature
  let nonce ← present session.nonce
  return (sessionId, timestamp, signature, nonce)

/-- The session of a signed request, or why it is refused, and the store after it. -/
def verifySignedRequest (P : Platform Input Bytes) (redis : Redis) (now : Time)
    (opts : SignedRequest Input) : Except AuthError (SessionId × Session) × Redis :=
  match opts.headers? with
  | none => (.error (denyAuth .missingAuthHeaders), redis)
  | some (sessionId, timestamp, signature, nonce) =>
    if !checkTimestamp now timestamp then (.error (denyAuth .staleTimestamp), redis)
    else
      match getSession redis now sessionId with
      | (none, redis) =>
        if isSignedOut redis now sessionId then
          (.error (.denied .sessionSignedOut "UNAUTHORIZED" (some sessionSignedOutMessage)), redis)
        else (.error (denyAuth .sessionNotFound), redis)
      | (some session, redis) =>
        let message :=
          getMessage opts.type opts.signedPath timestamp nonce (P.stringify opts.input)
        match P.fromBase64 session.rawAuthKey, P.fromBase64 signature with
        | some key, some signature =>
          if !P.verifyHmac key signature message then
            (.error (denyAuth .invalidSignature), redis)
          else
            match claimNonce redis now nonce with
            | (true, redis) => (.ok (sessionId, session), redis)
            | (false, redis) => (.error (denyAuth .replayDetected), redis)
        | _, _ => (.error .encoding, redis)

/-- What a `protectedProcedure` does before its handler: a verified request keeps its session
alive. -/
def protectedProcedure (P : Platform Input Bytes) (redis : Redis) (now : Time)
    (opts : SignedRequest Input) : Except AuthError (SessionId × Session) × Redis :=
  match verifySignedRequest P redis now { opts with signedPath := opts.path } with
  | (.ok (sessionId, session), redis) =>
    (.ok (sessionId, session), touchSession redis now sessionId session)
  | (.error e, redis) => (.error e, redis)

/-- `SUBSCRIPTION_SIGNATURE_PATH`. -/
def subscriptionSignaturePath : String := "subscription"

/-- What a `protectedSubscriptionProcedure` does: path and input are not signed, and the session is
not kept alive. -/
def protectedSubscriptionProcedure (P : Platform Input Bytes) (noInput : Input) (redis : Redis)
    (now : Time) (opts : SignedRequest Input) : Except AuthError (SessionId × Session) × Redis :=
  verifySignedRequest P redis now
    { opts with signedPath := subscriptionSignaturePath, input := noInput }

/-! ### What the steps leave alone -/

@[simp] theorem getSession_nonces (redis : Redis) (now : Time) (sessionId : SessionId) :
    (getSession redis now sessionId).2.nonces = redis.nonces := by
  unfold getSession deleteSession
  split
  · rfl
  · split <;> rfl

@[simp] theorem touchSession_nonces (redis : Redis) (now : Time) (sessionId : SessionId)
    (session : Session) : (touchSession redis now sessionId session).nonces = redis.nonces := by
  unfold touchSession
  cases session.authenticatedAt with
  | none => rfl
  | some at' =>
      by_cases httl : sessionTtlSeconds at' now = 0
      · simp only [httl, if_pos]
      · simp only [httl, if_false]

/-! ### Accepted requests -/

/-- The signature is the session's HMAC over the request. -/
def SignedBy (P : Platform Input Bytes) (session : Session) (opts : SignedRequest Input)
    (timestamp signature nonce : String) : Prop :=
  ∃ key sign, P.fromBase64 session.rawAuthKey = some key ∧ P.fromBase64 signature = some sign ∧
    P.verifyHmac key sign
      (getMessage opts.type opts.signedPath timestamp nonce (P.stringify opts.input)) = true

/-- An accepted request has a timestamp that passes the check, a live session that signed it and a
nonce nobody held, and claims the nonce; a refused one leaves the nonces alone. -/
def Verdict (P : Platform Input Bytes) (redis : Redis) (now : Time) (opts : SignedRequest Input) :
    Except AuthError (SessionId × Session) × Redis → Prop
  | (.ok (sessionId, session), redis') => ∃ timestamp signature nonce,
      opts.headers? = some (sessionId, timestamp, signature, nonce) ∧
      checkTimestamp now timestamp = true ∧ SignedBy P session opts timestamp signature nonce ∧
      redis.nonces.get now nonce = none ∧
      redis'.nonces = redis.nonces.set nonce () (some (now + nonceTtl))
  | (.error _, redis') => redis'.nonces = redis.nonces

theorem of_verifySignedRequest (P : Platform Input Bytes) (redis : Redis) (now : Time)
    (opts : SignedRequest Input) :
    Verdict P redis now opts (verifySignedRequest P redis now opts) := by
  unfold verifySignedRequest
  split
  · exact rfl
  · rename_i sessionId timestamp signature nonce hheaders
    split
    · exact rfl
    · rename_i hcheck
      rw [Bool.not_eq_true', Bool.not_eq_false] at hcheck
      have hsession := getSession_nonces redis now sessionId
      split
      · rename_i redis' hget
        rw [hget] at hsession
        split <;> exact hsession
      · rename_i session redis' hget
        rw [hget] at hsession
        dsimp only at hsession ⊢
        split
        · rename_i key sign hkey hsign
          split
          · exact hsession
          · rename_i hvalid
            rw [Bool.not_eq_true', Bool.not_eq_false] at hvalid
            unfold claimNonce
            rw [hsession]
            cases hnonce : redis.nonces.get now nonce with
            | none =>
                rw [Store.setNx_free hnonce]
                exact ⟨timestamp, signature, nonce, hheaders, hcheck,
                  ⟨key, sign, hkey, hsign, hvalid⟩, hnonce, rfl⟩
            | some held =>
                rw [Store.setNx_held hnonce]
                rfl
        · exact hsession

/-- A signed request of a live session with a timestamp that passes and a free nonce is
accepted. -/
theorem verifySignedRequest_ok (P : Platform Input Bytes) {redis : Redis} {now : Time}
    {opts : SignedRequest Input} {sessionId timestamp signature nonce : String}
    {session : Session} (hheaders : opts.headers? = some (sessionId, timestamp, signature, nonce))
    (hcheck : checkTimestamp now timestamp = true)
    (hsession : (getSession redis now sessionId).1 = some session)
    (hsigned : SignedBy P session opts timestamp signature nonce)
    (hfree : redis.nonces.get now nonce = none) :
    (verifySignedRequest P redis now opts).1 = .ok (sessionId, session) := by
  obtain ⟨key, sign, hkey, hsign, hvalid⟩ := hsigned
  have hnonces := getSession_nonces redis now sessionId
  unfold verifySignedRequest
  rw [hheaders]
  dsimp only
  rw [hcheck]
  cases hget : getSession redis now sessionId with
  | mk found redis' =>
  rw [hget] at hsession hnonces
  subst hsession
  have hclaim : redis'.nonces.get now nonce = none := by rw [hnonces]; exact hfree
  simp only [Bool.not_true, Bool.false_eq_true, if_false, hkey, hsign, hvalid, claimNonce,
    Store.setNx_free hclaim]

/-- A request whose nonce is held is refused. -/
theorem refused_of_nonce_held (P : Platform Input Bytes) {redis : Redis} {now : Time}
    {opts : SignedRequest Input} {sessionId timestamp signature nonce : String}
    (h : opts.headers? = some (sessionId, timestamp, signature, nonce))
    (hheld : checkTimestamp now timestamp = true → redis.nonces.get now nonce ≠ none) :
    ∃ e, (verifySignedRequest P redis now opts).1 = .error e := by
  have hspec := of_verifySignedRequest P redis now opts
  generalize verifySignedRequest P redis now opts = out at hspec
  obtain ⟨res, redis'⟩ := out
  cases res with
  | error e => exact ⟨e, rfl⟩
  | ok who =>
      unfold Verdict at hspec
      obtain ⟨_, _, _, h', hcheck, -, hfree, -⟩ := hspec
      rw [h'] at h
      cases h
      exact absurd hfree (hheld hcheck)

/-! ### When the nonce outlives the timestamp -/

open JsNumber in
/-- The timestamp of a request claimed at `now` is a number that is out of the window in the first
millisecond the nonce is gone. -/
def Covered (now : Time) (timestamp : String) : Prop :=
  ∃ t, number timestamp = fin t ∧
    gt (toDouble (((now + nonceTtl + 1 : Time) : ℚ) - t)) (fin timestampWindow) = true

open JsNumber in
theorem gt_abs_of_gt {a : JsNumber} {c : ℚ} (h : gt a (fin c) = true) :
    gt (abs a) (fin c) = true := by
  cases a with
  | nan => exact h
  | inf negative => simp [JsNumber.abs, gt]
  | fin v =>
      have hlt : c < v := of_decide_eq_true h
      exact decide_eq_true (lt_of_lt_of_le hlt (le_abs_self v))

open JsNumber in
/-- A covered timestamp is refused at every moment the nonce is gone. -/
theorem checkTimestamp_of_covered {now later : Time} {timestamp : String}
    (h : Covered now timestamp) (hlater : now + nonceTtl < later) :
    checkTimestamp later timestamp = false := by
  obtain ⟨t, ht, hgt⟩ := h
  have hle : ((now + nonceTtl + 1 : Time) : ℚ) - t ≤ (later : ℚ) - t := by
    have : ((now + nonceTtl + 1 : Time) : ℚ) ≤ (later : ℚ) := by exact_mod_cast hlater
    linarith
  have hwindow : (0 : ℚ) ≤ (timestampWindow : Time) := Nat.cast_nonneg _
  have hgt' := gt_abs_of_gt (gt_toDouble_mono hwindow hle hgt)
  have hsub : sub (fin later) (fin t) = toDouble (later - t) := rfl
  unfold checkTimestamp
  rw [ht, hsub, if_pos hgt']

theorem timestampWindow_lt : (timestampWindow : ℚ) < 2 ^ 1024 := by
  have hpow : (2 : ℚ) ^ 24 ≤ 2 ^ 1024 := pow_le_pow_right₀ (by norm_num) (by norm_num)
  refine lt_of_lt_of_le ?_ hpow
  norm_num [timestampWindow]

/-- A timestamp passes the check exactly when it lies in the window, or is no number. -/
theorem checkTimestamp_eq_true {now : Time} {timestamp : String} :
    checkTimestamp now timestamp = true ↔ JsNumber.number timestamp = .nan ∨
      ∃ t, JsNumber.number timestamp = .fin t ∧
        |JsNumber.round ((now : ℚ) - t)| ≤ (timestampWindow : ℚ) := by
  unfold checkTimestamp
  cases ht : JsNumber.number timestamp with
  | nan => simp [JsNumber.sub, JsNumber.abs, JsNumber.gt]
  | inf negative => simp [JsNumber.sub, JsNumber.abs, JsNumber.gt]
  | fin t =>
      have hsub : JsNumber.sub (.fin now) (.fin t) = JsNumber.toDouble (now - t) := rfl
      rw [hsub, JsNumber.toDouble]
      by_cases hfin : |JsNumber.round ((now : ℚ) - t)| < 2 ^ 1024
      · simp [hfin, JsNumber.abs, JsNumber.gt]
      · have hbig : ¬ |JsNumber.round ((now : ℚ) - t)| ≤ (timestampWindow : ℚ) :=
          fun hle => hfin (lt_of_le_of_lt hle timestampWindow_lt)
        simp [hfin, hbig, JsNumber.abs, JsNumber.gt]

/-- An accepted timestamp that is not covered passes the check again once the nonce is gone. -/
theorem checkTimestamp_of_not_covered {now : Time} {timestamp : String}
    (h : ¬ Covered now timestamp) (hnow : checkTimestamp now timestamp = true) :
    checkTimestamp (now + nonceTtl + 1) timestamp = true := by
  rw [checkTimestamp_eq_true] at hnow ⊢
  rcases hnow with hnan | ⟨t, ht, hnow⟩
  · exact Or.inl hnan
  · refine Or.inr ⟨t, ht, ?_⟩
    have hle : (now : ℚ) - t ≤ ((now + nonceTtl + 1 : Time) : ℚ) - t := by
      have : (now : ℚ) ≤ ((now + nonceTtl + 1 : Time) : ℚ) := by
        exact_mod_cast Nat.le_succ_of_le (Nat.le_add_right now nonceTtl)
      linarith
    have hround := JsNumber.round_mono hle
    have hnotgt := mt JsNumber.gt_toDouble.mpr fun hgt => h ⟨t, ht, hgt⟩
    rw [not_or, not_and, not_and] at hnotgt
    generalize ((now + nonceTtl + 1 : Time) : ℚ) - t = later at hround hnotgt ⊢
    rw [abs_le] at hnow ⊢
    refine ⟨hnow.1.trans hround, ?_⟩
    by_contra hbig
    have hpos : 0 < JsNumber.round later :=
      lt_of_le_of_lt (Nat.cast_nonneg _) (not_le.mp hbig)
    have hlater : 0 ≤ later := by
      by_contra hneg
      exact absurd (JsNumber.round_nonpos (not_le.mp hneg).le) (not_le.mpr hpos)
    exact hnotgt.2 hlater (not_lt.mp (hnotgt.1 (not_le.mp hbig)))

/-- A request accepted with a timestamp that is not covered is accepted again in the first
millisecond its nonce is gone, when its session is still there. -/
theorem accepted_again (P : Platform Input Bytes) {redis redis' : Redis} {now : Time}
    {opts : SignedRequest Input} {sessionId timestamp signature nonce : String}
    {session : Session} (hheaders : opts.headers? = some (sessionId, timestamp, signature, nonce))
    (haccepted : verifySignedRequest P redis now opts = (.ok (sessionId, session), redis'))
    (huncovered : ¬ Covered now timestamp)
    (hsession : (getSession redis' (now + nonceTtl + 1) sessionId).1 = some session) :
    (verifySignedRequest P redis' (now + nonceTtl + 1) opts).1 = .ok (sessionId, session) := by
  have hspec := of_verifySignedRequest P redis now opts
  rw [haccepted] at hspec
  obtain ⟨ts, sg, n, hh, hcheck, hsigned, -, hnonces⟩ := hspec
  rw [hheaders] at hh
  cases hh
  refine verifySignedRequest_ok P hheaders (checkTimestamp_of_not_covered huncovered hcheck)
    hsession hsigned ?_
  rw [hnonces]
  exact Store.get_set_expired _ _ _ _

/-! ### Runs of the server -/

/-- A request the server accepted, and when. -/
structure AcceptedRequest (Input : Type) where
  opts : SignedRequest Input
  acceptedAt : Time
  deriving DecidableEq, Repr

/-- The server: its clock, its keys and, kept for the statements only, what it accepted so far. -/
structure Server (Input : Type) where
  clock : Time
  redis : Redis
  accepted : List (AcceptedRequest Input)

/-- The server after `verifySignedRequest` at its clock. -/
def Server.handle (P : Platform Input Bytes) (s : Server Input) (opts : SignedRequest Input) :
    Server Input :=
  match verifySignedRequest P s.redis s.clock opts with
  | (.ok _, redis) =>
    { s with redis := redis, accepted := s.accepted ++ [⟨opts, s.clock⟩] }
  | (.error _, redis) => { s with redis := redis }

inductive ServerEvent (Input : Type)
  | tick
  | request (opts : SignedRequest Input)
  | other

/-- Time passes, a request of any kind comes in, or another part of the server changes keys of its
own: nothing but `claimNonce` writes a nonce. -/
inductive ServerStep (P : Platform Input Bytes) :
    Server Input → ServerEvent Input → Server Input → Prop
  | tick (s : Server Input) (clock : Time) (h : s.clock ≤ clock) :
    ServerStep P s .tick { s with clock := clock }
  | request (s : Server Input) (opts : SignedRequest Input) :
    ServerStep P s (.request opts) (s.handle P opts)
  | other (s : Server Input) (redis : Redis) (h : redis.nonces = s.redis.nonces) :
    ServerStep P s .other { s with redis := redis }

/-- A request that comes in is refused for its timestamp, or covered by the nonce it claims. -/
def ServerEvent.Meets (s : Server Input) : ServerEvent Input → Prop
  | .request opts => ∀ sessionId timestamp signature nonce,
      opts.headers? = some (sessionId, timestamp, signature, nonce) →
      checkTimestamp s.clock timestamp = true → Covered s.clock timestamp
  | _ => True

/-- A step of any event. -/
def AnyStep (P : Platform Input Bytes) (s t : Server Input) : Prop :=
  ∃ e, ServerStep P s e t

/-- A step whose event is covered. -/
def CoveredStep (P : Platform Input Bytes) (s t : Server Input) : Prop :=
  ∃ e, e.Meets s ∧ ServerStep P s e t

/-- A request to a `protectedProcedure` is a run of the server: the signed request, and the session
it keeps alive. -/
theorem reaches_protectedProcedure (P : Platform Input Bytes) (s : Server Input)
    (opts : SignedRequest Input) :
    Run.Reaches (AnyStep P) s { s.handle P { opts with signedPath := opts.path } with
      redis := (protectedProcedure P s.redis s.clock opts).2 } := by
  refine .tail (.single ⟨_, .request s { opts with signedPath := opts.path }⟩)
    ⟨_, .other _ _ ?_⟩
  unfold Server.handle protectedProcedure
  cases verifySignedRequest P s.redis s.clock { opts with signedPath := opts.path } with
  | mk res redis =>
      cases res with
      | error e => rfl
      | ok who => exact touchSession_nonces redis s.clock who.1 who.2

/-- A request to a `protectedSubscriptionProcedure` is one signed request. -/
theorem reaches_protectedSubscriptionProcedure (P : Platform Input Bytes) (s : Server Input)
    (noInput : Input) (opts : SignedRequest Input) :
    ∃ t, Run.Reaches (AnyStep P) s t ∧
      t.redis = (protectedSubscriptionProcedure P noInput s.redis s.clock opts).2 := by
  refine ⟨_, .single ⟨_, .request s
    { opts with signedPath := subscriptionSignaturePath, input := noInput }⟩, ?_⟩
  unfold Server.handle protectedSubscriptionProcedure
  cases verifySignedRequest P s.redis s.clock
      { opts with signedPath := subscriptionSignaturePath, input := noInput } with
  | mk res redis => cases res <;> rfl

/-- A server that accepted nothing yet. -/
def Server.start (clock : Time) (redis : Redis) : Server Input := ⟨clock, redis, []⟩

/-- An accepted request whose nonce is held for as long as its timestamp passes the check. -/
def AcceptedRequest.Guarded (redis : Redis) (clock : Time) (a : AcceptedRequest Input) : Prop :=
  ∃ sessionId timestamp signature nonce e until', a.opts.headers? =
      some (sessionId, timestamp, signature, nonce) ∧
    a.acceptedAt ≤ clock ∧ Covered a.acceptedAt timestamp ∧
    redis.nonces nonce = some e ∧ e.expiresAt = some until' ∧ a.acceptedAt + nonceTtl ≤ until'

/-- What a covered run keeps. -/
structure Server.Guarded (s : Server Input) : Prop where
  each : ∀ a ∈ s.accepted, a.Guarded s.redis s.clock
  once : (s.accepted.map (·.opts)).Nodup

theorem AcceptedRequest.Guarded.refused (P : Platform Input Bytes) {redis : Redis} {clock : Time}
    {a : AcceptedRequest Input} (h : a.Guarded redis clock) (now : Time) :
    ∃ e, (verifySignedRequest P redis now a.opts).1 = .error e := by
  obtain ⟨_, timestamp, _, nonce, e, until', hheaders, -, hcovered, hentry, huntil, hle⟩ := h
  refine refused_of_nonce_held P hheaders fun hcheck hfree => ?_
  by_cases hnow : a.acceptedAt + nonceTtl < now
  · have hfalse := checkTimestamp_of_covered hcovered hnow
    rw [hcheck] at hfalse
    cases hfalse
  · have hlive : e.live now = true := by
      simp only [Entry.live, huntil]
      exact decide_eq_true (Nat.le_trans (Nat.not_lt.mp hnow) hle)
    rw [Store.get_eq_some.mpr ⟨e, hentry, hlive, rfl⟩] at hfree
    cases hfree

theorem Server.Guarded.handle (P : Platform Input Bytes) {s : Server Input} (h : s.Guarded)
    (opts : SignedRequest Input) (hmeets : (ServerEvent.request opts).Meets s) :
    (s.handle P opts).Guarded := by
  rcases hres : verifySignedRequest P s.redis s.clock opts with ⟨res, redis'⟩
  have hspec := of_verifySignedRequest P s.redis s.clock opts
  rw [hres] at hspec
  unfold Server.handle
  rw [hres]
  cases res with
  | ok who =>
    obtain ⟨timestamp, signature, nonce, hheaders, hcheck, -, -, hnonces⟩ := hspec
    refine ⟨fun a ha => ?_, ?_⟩
    · rcases List.mem_append.mp ha with hold | hnew
      · obtain ⟨i, ts, sg, n, e, until', hh, hat, hcov, hentry, huntil, hle⟩ := h.each a hold
        by_cases hn : n = nonce
        · subst hn
          exact ⟨i, ts, sg, n, ⟨(), some (s.clock + nonceTtl)⟩, s.clock + nonceTtl, hh, hat, hcov,
            by rw [hnonces, Store.set_self], rfl, Nat.add_le_add_right hat _⟩
        · exact ⟨i, ts, sg, n, e, until', hh, hat, hcov,
            by rw [hnonces, Store.set_of_ne _ _ _ hn]; exact hentry, huntil, hle⟩
      · rw [List.mem_singleton] at hnew
        subst hnew
        exact ⟨who.1, timestamp, signature, nonce, ⟨(), some (s.clock + nonceTtl)⟩,
          s.clock + nonceTtl, hheaders, Nat.le_refl _, hmeets _ _ _ _ hheaders hcheck,
          by rw [hnonces, Store.set_self], rfl, Nat.le_refl _⟩
    · -- the request is none of those before: each of them is refused now
      rw [List.map_append, List.nodup_append]
      refine ⟨h.once, List.nodup_singleton _, ?_⟩
      intro o ho o' ho' heq
      simp only [List.map_cons, List.map_nil, List.mem_singleton] at ho'
      subst heq ho'
      obtain ⟨a, ha, haopts⟩ := List.mem_map.mp ho
      obtain ⟨e, he⟩ := (h.each a ha).refused P s.clock
      rw [haopts, hres] at he
      cases he
  | error e =>
    have hnonces : redis'.nonces = s.redis.nonces := hspec
    refine ⟨fun a ha => ?_, h.once⟩
    obtain ⟨i, ts, sg, n, e', until', hh, hat, hcov, hentry, huntil, hle⟩ := h.each a ha
    exact ⟨i, ts, sg, n, e', until', hh, hat, hcov, by rw [hnonces]; exact hentry, huntil, hle⟩

theorem Server.Guarded.step (P : Platform Input Bytes) {s t : Server Input} (h : s.Guarded)
    (hst : CoveredStep P s t) : t.Guarded := by
  obtain ⟨e, hmeets, hstep⟩ := hst
  cases hstep with
  | tick clock hclock =>
      refine ⟨fun a ha => ?_, h.once⟩
      obtain ⟨i, ts, sg, n, e, until', hh, hat, hrest⟩ := h.each a ha
      exact ⟨i, ts, sg, n, e, until', hh, Nat.le_trans hat hclock, hrest⟩
  | request opts => exact h.handle P opts hmeets
  | other redis hnonces =>
      refine ⟨fun a ha => ?_, h.once⟩
      obtain ⟨i, ts, sg, n, e, until', hh, hat, hcov, hentry, hrest⟩ := h.each a ha
      exact ⟨i, ts, sg, n, e, until', hh, hat, hcov, by rw [hnonces]; exact hentry, hrest⟩

theorem covered_run (P : Platform Input Bytes) {clock : Time} {redis : Redis} {s : Server Input}
    (h : Run.Reaches (CoveredStep P) (Server.start clock redis) s) : s.Guarded :=
  Run.invariant (fun _ _ hs hst => hs.step P hst) h
    ⟨fun a ha => absurd ha (by simp [Server.start]), by simp [Server.start]⟩

/-- The text of a request's timestamp is a number. -/
def SignedRequest.Timed (opts : SignedRequest Input) : Prop :=
  ∃ sessionId timestamp signature nonce,
    opts.headers? = some (sessionId, timestamp, signature, nonce) ∧
    JsNumber.number timestamp ≠ .nan

/-- No request is accepted twice, what was accepted once is refused at every later time, and a
timestamp that is no number is never accepted: in every run whose requests are covered. -/
theorem covered_accepted_once (P : Platform Input Bytes) {clock : Time} {redis : Redis}
    {s : Server Input} (h : Run.Reaches (CoveredStep P) (Server.start clock redis) s) :
    (s.accepted.map (·.opts)).Nodup ∧
    ∀ a ∈ s.accepted, a.opts.Timed ∧
      ∀ now, s.clock ≤ now → ∃ e, (verifySignedRequest P s.redis now a.opts).1 = .error e := by
  have hguarded := covered_run P h
  refine ⟨hguarded.once, fun a ha => ⟨?_, fun now _ => (hguarded.each a ha).refused P now⟩⟩
  obtain ⟨sessionId, timestamp, signature, nonce, _, _, hheaders, -, ⟨t, ht, -⟩, -⟩ :=
    hguarded.each a ha
  exact ⟨sessionId, timestamp, signature, nonce, hheaders, by rw [ht]; exact JsNumber.noConfusion⟩

/-! ### A clock ahead of the server's -/

/-- A MAC that is the message after the key. -/
def plainPlatform : Platform String String where
  fromBase64 := some
  stringify := id
  verifyHmac key signature message := signature = key ++ message

def oneSession : Redis where
  sessions := fun id => if id = "s" then some ⟨⟨1, "k", some 0, none, false, none, false⟩, none⟩
    else none
  sessionEpochs := fun _ => none
  signedOut := fun _ => none
  nonces := fun _ => none

/-- A request of that session, signed with its key. -/
def requestAt (timestamp nonce : String) : SignedRequest String where
  session := some ⟨some "s", some timestamp,
    some ("k" ++ getMessage "mutation" "record.push" timestamp nonce "{}"), some nonce⟩
  path := "record.push"
  type := "mutation"
  signedPath := "record.push"
  input := "{}"

theorem requestAt_meets : ServerEvent.Meets (Server.start 1000 oneSession)
    (.request (requestAt "31000" "n")) := by
  intro sessionId timestamp signature nonce hheaders _
  obtain rfl : "31000" = timestamp := by
    have : (requestAt "31000" "n").headers? = some ("s", "31000",
        "k" ++ getMessage "mutation" "record.push" "31000" "n" "{}", "n") := by decide +kernel
    rw [this] at hheaders
    cases hheaders
    rfl
  refine ⟨31000, by decide +kernel, by decide +kernel⟩

/-- A client half a minute ahead: the request is accepted once. -/
theorem covered_accepted_once_ahead :
    ((((Server.start 1000 oneSession).handle plainPlatform (requestAt "31000" "n")).accepted).map
        (·.opts)).Nodup ∧
      ((Server.start 1000 oneSession).handle plainPlatform
        (requestAt "31000" "n")).accepted.length = 1 :=
  ⟨(covered_accepted_once plainPlatform
      (.single ⟨_, requestAt_meets, .request _ (requestAt "31000" "n")⟩)).1, by decide +kernel⟩

/-- A client five minutes ahead: its request is accepted again when the nonce is gone, six minutes
later, and a request whose timestamp is no number is accepted at all. -/
theorem ahead_accepted_twice :
    (∃ s, Run.Reaches (AnyStep plainPlatform) (Server.start 1000 oneSession) s ∧
      ¬ (s.accepted.map (·.opts)).Nodup) ∧
    (∃ s, Run.Reaches (AnyStep plainPlatform) (Server.start 1000 oneSession) s ∧
      ∃ a ∈ s.accepted, a.opts = requestAt "now" "n" ∧ JsNumber.number "now" = .nan) := by
  constructor
  · refine ⟨_, .tail (.tail (.single ⟨_, .request _ (requestAt "301000" "n")⟩)
      ⟨_, .tick _ 361001 ?_⟩) ⟨_, .request _ (requestAt "301000" "n")⟩, ?_⟩
    · decide +kernel
    · decide +kernel
  · refine ⟨_, .single ⟨_, .request _ (requestAt "now" "n")⟩, ⟨requestAt "now" "n", 1000⟩, ?_⟩
    decide +kernel

end Passmgr
