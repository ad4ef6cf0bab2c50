/-
# Sessions and the credentials of their devices, command by command

`revoke` of `apps/server/src/auth/session-router.ts`, `registerDeviceCredential` and
`linkDeviceCredential` of `apps/server/src/user/router.ts`, and the commands of
`apps/server/src/util/redis-utils.ts` and `apps/server/src/auth/device-credentials.ts` they use.
A credential is a row, its link is a field of the session in Redis, and a revoke reads the link
before it ends the session; every read and write is a command of its own, and between two commands
of a call those of the others run.

The requests are those of one session; each is one whose signature, timestamp and nonce the server
accepts when it finds the session live.  The server keeps which credentials the session registered
or had a link to, whether a revoke has read its link and whether one has completed; none of them
has an effect.

Main definitions:

* `DeviceCredential` — the rows;
* `DeviceCall`, `DeviceCall.run` — what a call in flight runs next, and what is left of it;
* `DeviceServer`, `CredentialStep` — the server under any interleaving of revokes and requests.
-/

import Passmgr.Interleaving
import Passmgr.LoginKeys

set_option relaxedAutoImplicit false
set_option autoImplicit false

namespace Passmgr

open Expiring

abbrev CredentialId := String

def freshAuthWindow : ℕ := 5 * 60000

/-- A row of `device_credentials`. -/
structure DeviceCredential where
  credentialId : CredentialId
  userId : UserId
  publicKey : String
  algorithm : ℤ
  deviceName : Option String
  passwordVerifiedAt : Time
  deriving DecidableEq, Repr

/-- The input of `registerDeviceCredential`, with the device name of its request. -/
structure RegisterInput where
  credentialId : CredentialId
  publicKey : String
  algorithm : ℤ
  deviceName : Option String
  deriving DecidableEq, Repr

/-- A request of a session. -/
inductive DeviceRequest
  | registerDeviceCredential (input : RegisterInput)
  | linkDeviceCredential (credentialId : CredentialId)
  deriving DecidableEq, Repr

/-- What goes on after a credential is linked: for a password login that links a credential it has,
the row is refreshed. -/
inductive AfterLink
  | done
  | refresh (userId : UserId)
  deriving DecidableEq, Repr

/-- What a call runs next. -/
inductive DeviceCall
  -- `session.revoke`
  | revoke (id : String)
  | sessionCredentialId (target : SessionId)
  | revokeUserSession (target : SessionId) (credentialId : Option CredentialId)
  | signOutSessions (target : SessionId) (credentialId : Option CredentialId)
  | deleteDeviceCredential (target : SessionId) (credentialId : CredentialId)
  -- a request of the session
  | getSession (request : DeviceRequest)
  | readEpoch (request : DeviceRequest) (session : Session)
  | deleteSession (userId : UserId)
  | insertCredential (input : RegisterInput) (userId : UserId)
  | ownsDeviceCredential (credentialId : CredentialId) (userId : UserId) (passwordless : Bool)
  -- `linkSessionCredential`
  | linkSessionCredential (credentialId : CredentialId) (after : AfterLink)
  | setLinked (session : Session) (credentialId : CredentialId) (after : AfterLink)
  | refreshDeviceCredential (userId : UserId) (credentialId : CredentialId)
  -- `touchSession` of a request
  | touchSession (session : Session)
  deriving DecidableEq, Repr

/-- The calls as they come in. -/
inductive DeviceCall.Begins : DeviceCall → Prop
  | revoke (id : String) : Begins (.revoke id)
  | request (request : DeviceRequest) : Begins (.getSession request)
  | touchSession (session : Session) : Begins (.touchSession session)

inductive DeviceAnswer
  | ok
  | denied (code : String) (message : Option String)
  | dropped
  deriving DecidableEq, Repr

/-- What a command did that the server keeps in mind. -/
inductive DeviceEvent
  | quiet
  | registered (credentialId : CredentialId)
  | linked (credentialId : CredentialId)
  | credentialRead (target : SessionId)
  | revoked (target : SessionId)
  deriving DecidableEq, Repr

structure DeviceRan where
  redis : LoginRedis
  credentials : List DeviceCredential
  event : DeviceEvent
  rest : DeviceAnswer ⊕ DeviceCall

/-- What the runtime does: the handle a session is listed by, and which public keys it can use. -/
structure DevicePlatform where
  publicSessionId : SessionId → String
  credentialKey : String → ℤ → Bool

/-- `freshAuthProcedure`: the session comes from a password login a short time ago. -/
def freshAuth (now : Time) (session : Session) : Bool :=
  !session.passwordless && session.authenticatedAt.any fun authenticatedAt =>
    authenticatedAt ≠ 0 && now - authenticatedAt ≤ freshAuthWindow

section Commands

variable (P : DevicePlatform) (userId : UserId) (sessionId : SessionId) (now : Time)
  (redis : LoginRedis) (credentials : List DeviceCredential)

/-- A command that leaves the keys and rows. -/
def DeviceRan.read (rest : DeviceAnswer ⊕ DeviceCall) : DeviceRan where
  redis := redis
  credentials := credentials
  event := .quiet
  rest := rest

/-- A request whose session is live: what it does first. -/
def DeviceRequest.handle (session : Session) : DeviceRequest → DeviceAnswer ⊕ DeviceCall
  | .registerDeviceCredential input =>
    if !freshAuth now session then .inl (.denied "FORBIDDEN" none)
    else if !P.credentialKey input.publicKey input.algorithm then
      .inl (.denied "BAD_REQUEST" (some "unsupported public key"))
    else .inr (.insertCredential input session.userId)
  | .linkDeviceCredential credentialId =>
    .inr (.ownsDeviceCredential credentialId session.userId session.passwordless)

/-- `.insert(…).onConflictDoNothing()`. -/
def DeviceRan.insertCredential (input : RegisterInput) (owner : UserId) : DeviceRan :=
  if credentials.any (·.credentialId = input.credentialId) then
    .read redis credentials (.inl (.denied "CONFLICT" (some "credential exists")))
  else
    { redis := redis
      credentials := credentials ++ [{
        credentialId := input.credentialId
        userId := owner
        publicKey := input.publicKey
        algorithm := input.algorithm
        deviceName := input.deviceName
        passwordVerifiedAt := now }]
      event := .registered input.credentialId
      rest := .inr (.linkSessionCredential input.credentialId .done) }

/-- `SET … KEEPTTL XX` of the session with its link. -/
def DeviceRan.setLinked (session : Session) (credentialId : CredentialId) (after : AfterLink) : DeviceRan where
  redis := { redis with
    sessions := redis.sessions.replace now sessionId
      { session with deviceCredentialId := some credentialId } }
  credentials := credentials
  event := if (redis.sessions.get now sessionId).isSome then .linked credentialId else .quiet
  rest :=
    match after with
    | .done => .inl .ok
    | .refresh owner => .inr (.refreshDeviceCredential owner credentialId)

/-- `ZADD … XX` of the index of a user. -/
def zaddXx (owner : UserId) : LoginRedis :=
  match redis.userSessions.get now owner with
  | some ids =>
    if sessionId ∈ ids.map Prod.fst then
      { redis with
        userSessions := redis.userSessions.replace now owner (LoginRedis.indexed ids sessionId now) }
    else redis
  | none => redis

/-- The `MULTI` of `touchSession`. -/
def touchUserSession (session : Session) : LoginRedis :=
  match session.authenticatedAt with
  | none => redis
  | some at' =>
    if sessionTtlSeconds at' now = 0 then redis
    else
      { zaddXx sessionId now redis session.userId with
        sessions := redis.sessions.expire now sessionId (now + sessionTtlSeconds at' now * 1000) }

/-- The next command of a call, of the session's own requests or a revoke by its user. -/
def DeviceCall.run : DeviceCall → DeviceRan
  | .revoke id =>
    match (redis.userSessionIds now userId).find? fun sessionId => P.publicSessionId sessionId = id
    with
    | none => .read redis credentials (.inl (.denied "NOT_FOUND" none))
    | some target => .read redis credentials (.inr (.sessionCredentialId target))
  | .sessionCredentialId target =>
    { redis := redis
      credentials := credentials
      event := .credentialRead target
      rest := .inr (.revokeUserSession target
        ((redis.sessions.get now target).bind (·.deviceCredentialId))) }
  | .revokeUserSession target credentialId =>
    if target ∈ redis.userSessionIds now userId then
      .read redis credentials (.inr (.signOutSessions target credentialId))
    else .read redis credentials (.inl (.denied "NOT_FOUND" none))
  | .signOutSessions target credentialId =>
    match present credentialId with
    | some credentialId =>
      { redis := redis.signOutSessions now userId [target]
        credentials := credentials
        event := .quiet
        rest := .inr (.deleteDeviceCredential target credentialId) }
    | none =>
      { redis := redis.signOutSessions now userId [target]
        credentials := credentials
        event := .revoked target
        rest := .inl .ok }
  | .deleteDeviceCredential target credentialId =>
    { redis := redis
      credentials := credentials.filter fun row =>
        ¬ (row.userId = userId ∧ row.credentialId = credentialId)
      event := .revoked target
      rest := .inl .ok }
  | .getSession request =>
    match redis.sessions.get now sessionId with
    | none => .read redis credentials (.inl (.denied "UNAUTHORIZED" none))
    | some session => .read redis credentials (.inr (.readEpoch request session))
  | .readEpoch request session =>
    if isLive session (redis.sessionEpochs.get now session.userId) now then
      .read redis credentials (request.handle P now session)
    else .read redis credentials (.inr (.deleteSession session.userId))
  | .deleteSession owner =>
    .read (redis.endSession sessionId owner) credentials (.inl (.denied "UNAUTHORIZED" none))
  | .insertCredential input owner => .insertCredential now redis credentials input owner
  | .ownsDeviceCredential credentialId owner passwordless =>
    if credentials.any fun row => row.credentialId = credentialId ∧ row.userId = owner then
      .read redis credentials (.inr (.linkSessionCredential credentialId
        (if passwordless then .done else .refresh owner)))
    else .read redis credentials (.inl (.denied "NOT_FOUND" none))
  | .linkSessionCredential credentialId after =>
    match redis.sessions.get now sessionId, after with
    | some session, _ => .read redis credentials (.inr (.setLinked session credentialId after))
    | none, .done => .read redis credentials (.inl .ok)
    | none, .refresh owner =>
      .read redis credentials (.inr (.refreshDeviceCredential owner credentialId))
  | .setLinked session credentialId after =>
    .setLinked sessionId now redis credentials session credentialId after
  | .refreshDeviceCredential owner credentialId =>
    .read redis (credentials.map fun row =>
      if row.userId = owner ∧ row.credentialId = credentialId then
        { row with passwordVerifiedAt := now }
      else row) (.inl .ok)
  | .touchSession session =>
    .read (touchUserSession sessionId now redis session) credentials (.inl .dropped)

end Commands

/-! ### The server -/

structure DeviceServer where
  clock : Time
  redis : LoginRedis
  credentials : List DeviceCredential
  /-- The credentials the session registered or had a link to. -/
  links : List CredentialId
  /-- A revoke has read the link of the session. -/
  linkRead : Bool
  /-- A revoke of the session has completed. -/
  revoked : Bool

variable (P : DevicePlatform) (userId : UserId) (sessionId : SessionId)

namespace DeviceServer

/-- The server after a command. -/
def after (s : DeviceServer) (ran : DeviceRan) : DeviceServer where
  clock := s.clock
  redis := ran.redis
  credentials := ran.credentials
  links :=
    match ran.event with
    | .registered credentialId | .linked credentialId => credentialId :: s.links
    | _ => s.links
  linkRead := s.linkRead || ran.event = .credentialRead sessionId
  revoked := s.revoked || ran.event = .revoked sessionId

/-- Time passes. -/
inductive Passes (s : DeviceServer) : DeviceServer → Prop
  | tick (clock : Time) (hclock : s.clock ≤ clock) : Passes s { s with clock := clock }

/-- A server with the link the session has, and no revoke of it yet. -/
def start (clock : Time) (redis : LoginRedis) (credentials : List DeviceCredential) :
    DeviceServer where
  clock := clock
  redis := redis
  credentials := credentials
  links := ((redis.sessions.get clock sessionId).bind (·.deviceCredentialId)).toList
  linkRead := false
  revoked := false

end DeviceServer

/-- One command of a call. -/
def DeviceCommand : Interleaving.Command DeviceServer DeviceCall := fun _ s call s' rest =>
  s' = s.after sessionId (call.run P userId sessionId s.clock s.redis s.credentials) ∧
    rest = (call.run P userId sessionId s.clock s.redis s.credentials).rest.getRight?

/-- The server and its calls in flight. -/
abbrev DeviceState := Interleaving.State DeviceServer DeviceCall

/-- One step of an interleaving of the revokes by a user and the requests of a session, where a
command runs only when it `meets` a condition on the server before it. -/
abbrev CredentialStep (meets : DeviceServer → DeviceCall → Prop) : DeviceState → DeviceState → Prop :=
  Interleaving.Step DeviceCall.Begins
    (fun i s call s' rest => meets s call ∧ DeviceCommand P userId sessionId i s call s' rest)
    DeviceServer.Passes

/-! ### Schedules -/

instance : DecidablePred DeviceCall.Begins := fun call =>
  match call with
  | .revoke id => isTrue (.revoke id)
  | .getSession request => isTrue (.request request)
  | .touchSession session => isTrue (.touchSession session)
  | .sessionCredentialId _ | .revokeUserSession _ _ | .signOutSessions _ _
  | .deleteDeviceCredential _ _ | .readEpoch _ _ | .deleteSession _ | .insertCredential _ _
  | .ownsDeviceCredential _ _ _ | .linkSessionCredential _ _ | .setLinked _ _ _
  | .refreshDeviceCredential _ _ => isFalse nofun

/-- What a schedule does next; the time changes by itself. -/
abbrev DeviceMove := Interleaving.Move DeviceCall Time

/-- A command of a schedule, none where it does not meet the condition. -/
def deviceExec (meets : DeviceServer → DeviceCall → Prop) [∀ s call, Decidable (meets s call)]
    (_ : ℕ) (s : DeviceServer) (call : DeviceCall) : Option (DeviceServer × Option DeviceCall) :=
  let ran := call.run P userId sessionId s.clock s.redis s.credentials
  if meets s call then some (s.after sessionId ran, ran.rest.getRight?) else none

def DeviceServer.tick (clock : Time) (s : DeviceServer) : Option DeviceServer :=
  if s.clock ≤ clock then some { s with clock := clock } else none

/-- A schedule that goes through is a run. -/
theorem reaches_of_deviceMoves {meets : DeviceServer → DeviceCall → Prop}
    [∀ s call, Decidable (meets s call)] {moves : List DeviceMove} {s t : DeviceState}
    (h : moves.foldlM (Interleaving.move DeviceCall.Begins (deviceExec P userId sessionId meets)
      DeviceServer.tick) s = some t) :
    Run.Reaches (CredentialStep P userId sessionId meets) s t := by
  refine Interleaving.reaches_of_moves (fun i s call s' rest hran => ?_)
    (fun clock s s' htick => ?_) h
  · simp only [deviceExec, Option.ite_none_right_eq_some, Option.some.injEq, Prod.mk.injEq] at hran
    obtain ⟨hmeets, rfl, rfl⟩ := hran
    exact ⟨hmeets, rfl, rfl⟩
  · simp only [DeviceServer.tick, Option.ite_none_right_eq_some, Option.some.injEq] at htick
    obtain ⟨hclock, rfl⟩ := htick
    exact .tick clock hclock

end Passmgr
