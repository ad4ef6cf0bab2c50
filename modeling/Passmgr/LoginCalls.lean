/-
# Logins, command by command

`startLogin`, `finishLogin` and `verifySecondFactor` of `apps/server/src/auth/login-router.ts`,
`getSession` and `revokeUserSessions` of `apps/server/src/util/redis-utils.ts`, and the checks of
`apps/server/src/auth/two-factor.ts`: every place where a call waits for Redis or the database
is a command of its own, and so is every reading of the clock whose value is kept.  Between two
commands of a call those of the others run.

The server logs what its calls do; the log has no effect.

Main definitions:

* `LoginCall` — what a call in flight runs next, with what it has read so far;
* `LoginCall.run` — that command, and what is left of the call;
* `LoginServer`, `LoginStep` — the server under any interleaving of calls.

Main results:

* `opening_run` — what the commands before the second factor leave alone;
* `reaches_of_moves` — a schedule is a run.
-/

import Passmgr.Interleaving
import Passmgr.LoginKeys

set_option relaxedAutoImplicit false
set_option autoImplicit false

namespace Passmgr

/-! ### Calls -/

structure StartLoginInput where
  startLoginRequest : String
  email : String
  deriving DecidableEq, Repr

/-- The input of `finishLogin`, with the device name of its request. -/
structure FinishLoginInput where
  finishLoginRequest : String
  email : String
  authSalt : String
  attemptId : AttemptId
  deviceName : Option String
  deriving DecidableEq, Repr

/-- A login whose first factor was right; its key is derived. -/
structure VerifiedLogin where
  userId : UserId
  emailHash : EmailHash
  rawAuthKey : String
  deviceName : Option String
  startedAt : Time
  deviceCredentialId : Option String
  deriving DecidableEq, Repr

/-- A login about to get its session; `challengeId` is the challenge it took when it passed a
second factor. -/
structure FinishedLogin where
  login : VerifiedLogin
  keys : LoginKeys
  challengeId : Option ChallengeId
  deriving DecidableEq, Repr

/-- A `verifySecondFactor` with the challenge it read. -/
structure SecondFactorCheck where
  challengeId : ChallengeId
  code : String
  challenge : SecondFactorChallenge
  deriving DecidableEq, Repr

/-- What goes on after `recordLoginStart`: a login that starts, or a wrong second factor. -/
inductive AfterCount
  | start (input : StartLoginInput)
  | wrongCode (challengeId : ChallengeId) (attempts : ℕ)
  deriving DecidableEq, Repr

/-- What a call runs next. -/
inductive LoginCall
  -- `startLogin`
  | startLogin (input : StartLoginInput)
  | countLoginStart (emailHash : EmailHash) (after : AfterCount)
  | setLoginLock (emailHash : EmailHash) (backoffMs : ℕ) (after : AfterCount)
  | stampStart (input : StartLoginInput)
  | readRegistration (input : StartLoginInput) (startedAt : Time)
  | setLoginAttempt (attempt : LoginAttempt) (loginResponse : String)
  -- `finishLogin`
  | finishLogin (input : FinishLoginInput)
  | readLoginUser (login : VerifiedLogin)
  | checkRevoked (login : VerifiedLogin)
  -- `completeLogin`
  | completeLogin (login : VerifiedLogin)
  | setSecondFactorChallenge (login : VerifiedLogin)
  | loginKeys (login : VerifiedLogin)
  | resetLoginThrottle (finished : FinishedLogin)
  | stampSession (finished : FinishedLogin)
  | setSession (finished : FinishedLogin) (session : Session) (ttl : ℕ) (score : Time)
  -- `verifySecondFactor`
  | verifySecondFactor (challengeId : ChallengeId) (code : String)
  | readChallengeLock (check : SecondFactorCheck)
  | countAttempt (check : SecondFactorCheck)
  | burnChallenge (challengeId : ChallengeId)
  | checkChallengeRevoked (check : SecondFactorCheck) (attempts : ℕ)
  | loadChallengeKeys (check : SecondFactorCheck) (attempts : ℕ)
  | checkSecondFactor (check : SecondFactorCheck) (attempts : ℕ) (keys : LoginKeys)
  | claimTotpStep (check : SecondFactorCheck) (attempts : ℕ) (keys : LoginKeys) (step : ℕ)
  | takeChallenge (check : SecondFactorCheck) (keys : LoginKeys)
  -- `getSession`
  | getSession (sessionId : SessionId)
  | readEpoch (sessionId : SessionId) (session : Session)
  | dropSession (sessionId : SessionId) (userId : UserId)
  -- `revokeUserSessions`
  | revokeUserSessions (userId : UserId) (exceptSessionId : Option SessionId)
  | stampEpoch (userId : UserId) (exceptSessionId : Option SessionId)
      (sessionIds : List SessionId) (startedAt : Time)
  | setEpoch (userId : UserId) (exceptSessionId : Option SessionId)
      (sessionIds : List SessionId) (startedAt epoch : Time)
  | signOutSessions (userId : UserId) (exceptSessionId : Option SessionId)
      (sessionIds : List SessionId) (startedAt : Time)
  | endExcepted (userId : UserId) (exceptSessionId : SessionId) (startedAt : Time)
  deriving DecidableEq, Repr

/-- The calls as they come in. -/
inductive LoginCall.Begins : LoginCall → Prop
  | startLogin (input : StartLoginInput) : Begins (.startLogin input)
  | finishLogin (input : FinishLoginInput) : Begins (.finishLogin input)
  | verifySecondFactor (challengeId : ChallengeId) (code : String) :
      Begins (.verifySecondFactor challengeId code)
  | getSession (sessionId : SessionId) : Begins (.getSession sessionId)
  | revokeUserSessions (userId : UserId) (exceptSessionId : Option SessionId) :
      Begins (.revokeUserSessions userId exceptSessionId)

/-! ### What calls answer and what is logged -/

inductive LoginAnswer
  | started (loginResponse : String) (attemptId : AttemptId)
  | secondFactorRequired (challengeId : ChallengeId)
  | loggedIn (sessionId : SessionId) (userId : UserId) (keys : LoginKeys)
  | session (session : Option Session)
  | revoked
  | denied (code : String) (message : String)
  deriving DecidableEq, Repr

/-- `denyLogin`. -/
def denyLogin : LoginAnswer := .denied "UNAUTHORIZED" "invalid user credentials"

/-- `SECOND_FACTOR_INVALID`. -/
def secondFactorInvalid : String := "second_factor_invalid"

/-- `SECOND_FACTOR_EXPIRED`. -/
def secondFactorExpired : String := "second_factor_expired"

def denySecondFactor (message : String) : LoginAnswer := .denied "UNAUTHORIZED" message

def denyThrottled (lockMs : ℕ) : LoginAnswer :=
  .denied "TOO_MANY_REQUESTS"
    ("too many login attempts, retry in " ++ toString ((lockMs + 999) / 1000) ++ "s")

/-- A second factor that was accepted. -/
inductive AcceptedCode
  | totp (step : ℕ)
  | backup (codeHash : String)
  deriving DecidableEq, Repr

inductive LoginEvent
  /-- A `startLogin` found no lock. -/
  | admitted (emailHash : EmailHash)
  | counted (emailHash : EmailHash) (count : ℕ)
  | locked (emailHash : EmailHash) (backoffMs : ℕ)
  | attemptCounted (challengeId : ChallengeId) (attempts : ℕ)
  | codeChecked (challengeId : ChallengeId) (attempts : ℕ)
  | codeAccepted (userId : UserId) (code : AcceptedCode)
  | challengeTaken (challengeId : ChallengeId)
  /-- A session of a login that started at `startedAt`. -/
  | sessionCreated (sessionId : SessionId) (userId : UserId) (startedAt : Time)
      (challengeId : Option ChallengeId)
  /-- A `getSession` answers this session. -/
  | sessionRead (sessionId : SessionId)
  /-- The clock was read for the cut-off of a user's sessions. -/
  | cutOff (userId : UserId)
  /-- A `revokeUserSessions` that ran its first command at `startedAt` is done. -/
  | revoked (userId : UserId) (startedAt : Time)
  | answered (answer : LoginAnswer)
  deriving DecidableEq, Repr

/-- What a command leaves behind, and what is left of its call. -/
structure Ran where
  redis : LoginRedis
  db : LoginDb
  events : List LoginEvent
  rest : Option LoginCall

/-- A call that answers. -/
def Ran.answer (redis : LoginRedis) (db : LoginDb) (events : List LoginEvent)
    (answer : LoginAnswer) : Ran where
  redis := redis
  db := db
  events := events ++ [.answered answer]
  rest := none

/-- A call that goes on. -/
def Ran.next (redis : LoginRedis) (db : LoginDb) (events : List LoginEvent) (call : LoginCall) :
    Ran where
  redis := redis
  db := db
  events := events
  rest := some call

/-! ### Commands -/

/-- After the start is recorded: the login reads the record; a wrong code is denied, the last one
with its challenge burned. -/
def AfterCount.next (redis : LoginRedis) (db : LoginDb) (events : List LoginEvent) :
    AfterCount → Ran
  | .start input => .next redis db events (.stampStart input)
  | .wrongCode challengeId attempts =>
    if secondFactorMaxAttempts ≤ attempts then .next redis db events (.burnChallenge challengeId)
    else .answer redis db events (denySecondFactor secondFactorInvalid)

/-- A verified login about to get its session: a device login leaves the password throttle
alone. -/
def finishWith (finished : FinishedLogin) : LoginCall :=
  if finished.login.deviceCredentialId.isSome then .stampSession finished
  else .resetLoginThrottle finished

/-- The session of a finished login. -/
def FinishedLogin.session (finished : FinishedLogin) (now : Time) : Session where
  userId := finished.login.userId
  rawAuthKey := finished.login.rawAuthKey
  authenticatedAt := some now
  deviceName := finished.login.deviceName
  secondFactor := finished.challengeId.isSome
  deviceCredentialId := finished.login.deviceCredentialId
  passwordless := finished.login.deviceCredentialId.isSome

/-- The login a challenge stands for. -/
def SecondFactorChallenge.login (challenge : SecondFactorChallenge) : VerifiedLogin where
  userId := challenge.userId
  emailHash := challenge.emailHash
  rawAuthKey := challenge.rawAuthKey
  deviceName := challenge.deviceName
  startedAt := challenge.startedAt
  deviceCredentialId := challenge.deviceCredentialId

/-- The challenge `completeLogin` stores for a login. -/
def VerifiedLogin.challenge (login : VerifiedLogin) : SecondFactorChallenge where
  userId := login.userId
  emailHash := login.emailHash
  rawAuthKey := login.rawAuthKey
  deviceName := login.deviceName
  startedAt := login.startedAt
  deviceCredentialId := login.deviceCredentialId

/-- What is left of `revokeUserSessions` after the listed sessions were signed out. -/
def endExceptedOr (redis : LoginRedis) (db : LoginDb) (userId : UserId)
    (exceptSessionId : Option SessionId) (startedAt : Time) : Ran :=
  match exceptSessionId with
  | some sessionId => .next redis db [] (.endExcepted userId sessionId startedAt)
  | none => .answer redis db [.revoked userId startedAt] .revoked

variable (P : LoginPlatform)

/-- The next command of a call, run at `now`; `fresh` is the id it hands out, when it does. -/
def LoginCall.run (fresh : String) (now : Time) (redis : LoginRedis) (db : LoginDb) :
    LoginCall → Ran
  | .startLogin input =>
    let emailHash := P.hashEmail input.email
    let lockMs := redis.getLoginLockMs now emailHash
    if 0 < lockMs then .answer redis db [] (denyThrottled lockMs)
    else .next redis db [.admitted emailHash] (.countLoginStart emailHash (.start input))
  | .countLoginStart emailHash after =>
    let (count, redis) := redis.incrLoginThrottle now emailHash
    if count ≤ loginFreeAttempts then after.next redis db [.counted emailHash count]
    else
      .next redis db [.counted emailHash count]
        (.setLoginLock emailHash (LoginRedis.backoffMs (count - loginFreeAttempts)) after)
  | .setLoginLock emailHash backoffMs after =>
    after.next (redis.setLoginLock now emailHash backoffMs) db [.locked emailHash backoffMs]
  | .stampStart input => .next redis db [] (.readRegistration input now)
  | .readRegistration input startedAt =>
    let user := db.userByEmail (P.hashEmail input.email)
    let record := user.elim (P.fakeRegistrationRecord input.email) (·.registrationRecord)
    match P.authInit input.startLoginRequest record input.email fresh with
    | none => .answer redis db [] denyLogin
    | some (loginResponse, expected) =>
      .next redis db [] (.setLoginAttempt {
        userId := user.map (·.userId)
        emailHash := P.hashEmail input.email
        expected := expected
        startedAt := startedAt } loginResponse)
  | .setLoginAttempt attempt loginResponse =>
    .answer (redis.setLoginAttempt now fresh attempt) db [] (.started loginResponse fresh)
  | .finishLogin input =>
    let (attempt, redis) := redis.takeLoginAttempt now input.attemptId
    match attempt with
    | none => .answer redis db [] denyLogin
    | some attempt =>
      if attempt.emailHash ≠ P.hashEmail input.email then .answer redis db [] denyLogin
      else
        match attempt.userId, P.authFinish input.finishLoginRequest attempt.expected with
        | some userId, some sessionKey =>
          .next redis db [] (.readLoginUser {
            userId := userId
            emailHash := attempt.emailHash
            rawAuthKey := P.sessionAuthKey sessionKey input.authSalt
            deviceName := input.deviceName
            startedAt := attempt.startedAt
            deviceCredentialId := none })
        | _, _ => .answer redis db [] denyLogin
  | .readLoginUser login =>
    if db.hasUser login.userId then .next redis db [] (.checkRevoked login)
    else .answer redis db [] denyLogin
  | .checkRevoked login =>
    if redis.isLoginRevoked now login.userId login.startedAt then .answer redis db [] denyLogin
    else .next redis db [] (.completeLogin login)
  | .completeLogin login =>
    if db.hasTotp login.userId then .next redis db [] (.setSecondFactorChallenge login)
    else .next redis db [] (.loginKeys login)
  | .setSecondFactorChallenge login =>
    .answer (redis.setSecondFactorChallenge now fresh login.challenge) db []
      (.secondFactorRequired fresh)
  | .loginKeys login =>
    match db.keys login.userId with
    | none => .answer redis db [] denyLogin
    | some keys =>
      .next redis db [] (finishWith { login := login, keys := keys, challengeId := none })
  | .resetLoginThrottle finished =>
    .next (redis.resetLoginThrottle finished.login.emailHash) db [] (.stampSession finished)
  | .stampSession finished =>
    .next redis db []
      (.setSession finished (finished.session now) (sessionTtlSeconds now now) now)
  | .setSession finished session ttl score =>
    .answer (redis.setSession now fresh session ttl score) db
      [.sessionCreated fresh session.userId finished.login.startedAt finished.challengeId]
      (.loggedIn fresh finished.login.userId finished.keys)
  | .verifySecondFactor challengeId code =>
    match redis.getSecondFactorChallenge now challengeId with
    | none => .answer redis db [] (denySecondFactor secondFactorExpired)
    | some challenge =>
      .next redis db []
        (.readChallengeLock { challengeId := challengeId, code := code, challenge := challenge })
  | .readChallengeLock check =>
    let lockMs := redis.getLoginLockMs now check.challenge.emailHash
    if 0 < lockMs then .answer redis db [] (denyThrottled lockMs)
    else .next redis db [] (.countAttempt check)
  | .countAttempt check =>
    match redis.countSecondFactorAttempt now check.challengeId with
    | (none, redis) => .next redis db [] (.burnChallenge check.challengeId)
    | (some attempts, redis) =>
      .next redis db [.attemptCounted check.challengeId attempts]
        (if secondFactorMaxAttempts < attempts then .burnChallenge check.challengeId
         else .checkChallengeRevoked check attempts)
  | .burnChallenge challengeId =>
    .answer (redis.takeSecondFactorChallenge now challengeId).2 db []
      (denySecondFactor secondFactorExpired)
  | .checkChallengeRevoked check attempts =>
    if redis.isLoginRevoked now check.challenge.userId check.challenge.startedAt then
      .next redis db [] (.burnChallenge check.challengeId)
    else .next redis db [] (.loadChallengeKeys check attempts)
  | .loadChallengeKeys check attempts =>
    match db.keys check.challenge.userId with
    | none => .answer redis db [] denyLogin
    | some keys => .next redis db [] (.checkSecondFactor check attempts keys)
  | .checkSecondFactor check attempts keys =>
    let wrong : LoginCall :=
      .countLoginStart check.challenge.emailHash (.wrongCode check.challengeId attempts)
    let code := withoutSpaces check.code
    let userId := check.challenge.userId
    if isTotpCode code then
      match (db.totp? userId).bind fun row =>
          P.verifyToken (P.decryptSecret row.encryptedSecret row.secretNonce) code
            row.lastUsedStep now with
      | none => .next redis db [.codeChecked check.challengeId attempts] wrong
      | some step =>
        .next redis db [.codeChecked check.challengeId attempts]
          (.claimTotpStep check attempts keys step)
    else
      match db.useBackupCode now userId (P.hashBackupCode code) with
      | (true, db) =>
        .next redis db [.codeChecked check.challengeId attempts,
          .codeAccepted userId (.backup (P.hashBackupCode code))] (.takeChallenge check keys)
      | (false, db) => .next redis db [.codeChecked check.challengeId attempts] wrong
  | .claimTotpStep check attempts keys step =>
    match db.claimTotpStep check.challenge.userId step with
    | (true, db) =>
      .next redis db [.codeAccepted check.challenge.userId (.totp step)]
        (.takeChallenge check keys)
    | (false, db) =>
      .next redis db []
        (.countLoginStart check.challenge.emailHash (.wrongCode check.challengeId attempts))
  | .takeChallenge check keys =>
    match redis.takeSecondFactorChallenge now check.challengeId with
    | (false, redis) => .answer redis db [] (denySecondFactor secondFactorExpired)
    | (true, redis) =>
      .next redis db [.challengeTaken check.challengeId] (finishWith {
        login := check.challenge.login
        keys := keys
        challengeId := some check.challengeId })
  | .getSession sessionId =>
    match redis.sessions.get now sessionId with
    | none => .answer redis db [] (.session none)
    | some session => .next redis db [] (.readEpoch sessionId session)
  | .readEpoch sessionId session =>
    if isLive session (redis.sessionEpochs.get now session.userId) now then
      .answer redis db [.sessionRead sessionId] (.session (some session))
    else .next redis db [] (.dropSession sessionId session.userId)
  | .dropSession sessionId userId =>
    .answer (redis.endSession sessionId userId) db [] (.session none)
  | .revokeUserSessions userId exceptSessionId =>
    .next redis db []
      (.stampEpoch userId exceptSessionId (redis.userSessionIds now userId) now)
  | .stampEpoch userId exceptSessionId sessionIds startedAt =>
    .next redis db [.cutOff userId] (.setEpoch userId exceptSessionId sessionIds startedAt now)
  | .setEpoch userId exceptSessionId sessionIds startedAt epoch =>
    let redis := redis.setSessionEpoch userId epoch
    match sessionIds.filter (some · ≠ exceptSessionId) with
    | [] => endExceptedOr redis db userId exceptSessionId startedAt
    | others => .next redis db [] (.signOutSessions userId exceptSessionId others startedAt)
  | .signOutSessions userId exceptSessionId sessionIds startedAt =>
    endExceptedOr (redis.signOutSessions now userId sessionIds) db userId exceptSessionId startedAt
  | .endExcepted userId exceptSessionId startedAt =>
    .answer (redis.endSession exceptSessionId userId) db [.revoked userId startedAt] .revoked

/-! ### Commands before the second factor -/

/-- The commands of `startLogin`, of `finishLogin` and of the count of a start. -/
def LoginCall.isOpening : LoginCall → Bool
  | .startLogin .. | .countLoginStart .. | .setLoginLock .. | .stampStart .. | .readRegistration ..
  | .setLoginAttempt .. | .finishLogin .. | .readLoginUser .. | .checkRevoked ..
  | .completeLogin .. => true
  | _ => false

/-- What these commands log. -/
def LoginEvent.isOpening : LoginEvent → Bool
  | .admitted .. | .counted .. | .locked .. | .answered .. => true
  | _ => false

/-- A command that leaves the sessions, the challenges and the database alone, and what may come
after it. -/
structure Ran.Opens (redis : LoginRedis) (db : LoginDb) (ran : Ran) : Prop where
  sessions : ran.redis.toRedis = redis.toRedis
  secondFactors : ran.redis.secondFactors = redis.secondFactors
  db : ran.db = db
  events : ∀ event ∈ ran.events, event.isOpening = true
  rest : ∀ call, ran.rest = some call → call.isOpening = true ∨
    (∃ login, call = .setSecondFactorChallenge login) ∨ (∃ login, call = .loginKeys login) ∨
      ∃ challengeId, call = .burnChallenge challengeId

section Opening

variable {redis redis' : LoginRedis} {db : LoginDb} {events : List LoginEvent}

theorem opens_answer (hsessions : redis'.toRedis = redis.toRedis)
    (hfactors : redis'.secondFactors = redis.secondFactors)
    (hevents : ∀ event ∈ events, event.isOpening = true) (answer : LoginAnswer) :
    (Ran.answer redis' db events answer).Opens redis db where
  sessions := hsessions
  secondFactors := hfactors
  db := rfl
  events event hevent := by
    rcases List.mem_append.1 hevent with hold | hnew
    · exact hevents event hold
    · rw [List.mem_singleton.1 hnew]
      rfl
  rest call hcall := by cases hcall

theorem opens_next (hsessions : redis'.toRedis = redis.toRedis)
    (hfactors : redis'.secondFactors = redis.secondFactors)
    (hevents : ∀ event ∈ events, event.isOpening = true) {call : LoginCall}
    (hcall : call.isOpening = true ∨ (∃ login, call = .setSecondFactorChallenge login) ∨
      (∃ login, call = .loginKeys login) ∨ ∃ challengeId, call = .burnChallenge challengeId) :
    (Ran.next redis' db events call).Opens redis db where
  sessions := hsessions
  secondFactors := hfactors
  db := rfl
  events := hevents
  rest call' hcall' := by
    obtain rfl := Option.some.inj hcall'
    exact hcall

theorem opens_afterCount (hsessions : redis'.toRedis = redis.toRedis)
    (hfactors : redis'.secondFactors = redis.secondFactors)
    (hevents : ∀ event ∈ events, event.isOpening = true) (after : AfterCount) :
    (after.next redis' db events).Opens redis db := by
  cases after with
  | start input => exact opens_next hsessions hfactors hevents (Or.inl rfl)
  | wrongCode challengeId attempts =>
      simp only [AfterCount.next]
      split
      · exact opens_next hsessions hfactors hevents (Or.inr (Or.inr (Or.inr ⟨challengeId, rfl⟩)))
      · exact opens_answer hsessions hfactors hevents _

/-- **The commands before the second factor** leave the sessions and the challenges alone. -/
theorem opening_run (P : LoginPlatform) (fresh : String) (now : Time) (redis : LoginRedis)
    (db : LoginDb) {call : LoginCall} (h : call.isOpening = true) :
    (call.run P fresh now redis db).Opens redis db := by
  have hnil : ∀ event ∈ ([] : List LoginEvent), event.isOpening = true := by simp
  cases call with
  | startLogin input =>
      simp only [LoginCall.run]
      split
      · exact opens_answer (by rfl) (by rfl) hnil _
      · exact opens_next (by rfl) (by rfl) (by simp [LoginEvent.isOpening]) (Or.inl rfl)
  | countLoginStart emailHash after =>
      unfold LoginCall.run LoginRedis.incrLoginThrottle
      dsimp only
      split
      · exact opens_afterCount (by rfl) (by rfl) (by simp [LoginEvent.isOpening]) _
      · exact opens_next (by rfl) (by rfl) (by simp [LoginEvent.isOpening]) (Or.inl rfl)
  | setLoginLock emailHash backoffMs after =>
      exact opens_afterCount (by rfl) (by rfl) (by simp [LoginEvent.isOpening]) _
  | stampStart input => exact opens_next (by rfl) (by rfl) hnil (Or.inl rfl)
  | readRegistration input startedAt =>
      simp only [LoginCall.run]
      split
      · exact opens_answer (by rfl) (by rfl) hnil _
      · exact opens_next (by rfl) (by rfl) hnil (Or.inl rfl)
  | setLoginAttempt attempt loginResponse => exact opens_answer (by rfl) (by rfl) hnil _
  | finishLogin input =>
      simp only [LoginCall.run, LoginRedis.takeLoginAttempt]
      split
      · exact opens_answer (by rfl) (by rfl) hnil _
      · split
        · exact opens_answer (by rfl) (by rfl) hnil _
        · split
          · exact opens_next (by rfl) (by rfl) hnil (Or.inl rfl)
          · exact opens_answer (by rfl) (by rfl) hnil _
  | readLoginUser login =>
      simp only [LoginCall.run]
      split
      · exact opens_next (by rfl) (by rfl) hnil (Or.inl rfl)
      · exact opens_answer (by rfl) (by rfl) hnil _
  | checkRevoked login =>
      simp only [LoginCall.run]
      split
      · exact opens_answer (by rfl) (by rfl) hnil _
      · exact opens_next (by rfl) (by rfl) hnil (Or.inl rfl)
  | completeLogin login =>
      simp only [LoginCall.run]
      split
      · exact opens_next (by rfl) (by rfl) hnil (Or.inr (Or.inl ⟨login, rfl⟩))
      · exact opens_next (by rfl) (by rfl) hnil (Or.inr (Or.inr (Or.inl ⟨login, rfl⟩)))
  | _ => cases h

end Opening

/-! ### The server -/

/-- What a call logged, and when. -/
structure Logged where
  call : ℕ
  time : Time
  event : LoginEvent
  deriving DecidableEq, Repr

/-- The server's clock, its stores, the ids it handed out and the log. -/
structure LoginServer where
  clock : Time
  redis : LoginRedis
  db : LoginDb
  issued : List String
  trace : List Logged

namespace LoginServer

/-- The server after a command of call `i`. -/
def after (s : LoginServer) (i : ℕ) (fresh : String) (ran : Ran) : LoginServer where
  clock := s.clock
  redis := ran.redis
  db := ran.db
  issued := fresh :: s.issued
  trace := s.trace ++ ran.events.map fun event => { call := i, time := s.clock, event := event }

/-- What changes without a call: time passes, accounts and their keys change. -/
inductive Passes (s : LoginServer) : LoginServer → Prop
  | tick (clock : Time) (hclock : s.clock ≤ clock) : Passes s { s with clock := clock }
  | accounts (users : List LoginUser) (keys : UserId → Option LoginKeys) :
      Passes s { s with db := { s.db with users := users, keys := keys } }

/-- A server that logged nothing yet; `issued` are the ids handed out before. -/
def start (clock : Time) (redis : LoginRedis) (db : LoginDb) (issued : List String) :
    LoginServer where
  clock := clock
  redis := redis
  db := db
  issued := issued
  trace := []

end LoginServer

/-- One command of a call.  An id it hands out is random: none that was handed out before. -/
def LoginCommand : Interleaving.Command LoginServer LoginCall := fun i s call s' rest =>
  ∃ fresh, fresh ∉ s.issued ∧ s' = s.after i fresh (call.run P fresh s.clock s.redis s.db) ∧
    rest = (call.run P fresh s.clock s.redis s.db).rest

/-- The server and its calls in flight. -/
abbrev LoginState := Interleaving.State LoginServer LoginCall

/-- One step of an interleaving of calls that begin as `begins` says, where a command runs only when
it `meets` a condition on the server before it. -/
abbrev LoginStep (begins : LoginCall → Prop) (meets : LoginServer → LoginCall → Prop) :
    LoginState → LoginState → Prop :=
  Interleaving.Step begins
    (fun i s call s' rest => meets s call ∧ LoginCommand P i s call s' rest) LoginServer.Passes

/-- One step of any interleaving of logins. -/
abbrev AnyLoginStep : LoginState → LoginState → Prop :=
  LoginStep P LoginCall.Begins fun _ _ => True

section Forward

variable {P}

@[simp] theorem LoginServer.after_clock (s : LoginServer) (i : ℕ) (fresh : String) (ran : Ran) :
    (s.after i fresh ran).clock = s.clock := rfl

@[simp] theorem LoginServer.after_redis (s : LoginServer) (i : ℕ) (fresh : String) (ran : Ran) :
    (s.after i fresh ran).redis = ran.redis := rfl

@[simp] theorem LoginServer.after_db (s : LoginServer) (i : ℕ) (fresh : String) (ran : Ran) :
    (s.after i fresh ran).db = ran.db := rfl

theorem LoginServer.mem_after_trace {s : LoginServer} {i : ℕ} {fresh : String} {ran : Ran}
    {l : Logged} : l ∈ (s.after i fresh ran).trace ↔
      l ∈ s.trace ∨ (l.call = i ∧ l.time = s.clock ∧ l.event ∈ ran.events) := by
  simp only [LoginServer.after, List.mem_append, List.mem_map]
  constructor
  · rintro (h | ⟨event, hevent, rfl⟩)
    · exact Or.inl h
    · exact Or.inr ⟨rfl, rfl, hevent⟩
  · rintro (h | ⟨rfl, htime, hevent⟩)
    · exact Or.inl h
    · exact Or.inr ⟨l.event, hevent, by rw [← htime]⟩

end Forward

/-! ### Schedules -/

/-- What a schedule does next. -/
inductive LoginMove
  | begin (call : LoginCall)
  | run (i : ℕ) (fresh : String)
  | tick (clock : Time)
  deriving DecidableEq, Repr

/-- One move of a schedule, none where it is not allowed. -/
def loginMove (begins : LoginCall → Prop) [DecidablePred begins]
    (meets : LoginServer → LoginCall → Prop) [∀ s call, Decidable (meets s call)]
    (s : LoginState) : LoginMove → Option LoginState
  | .begin call =>
    if begins call then
      some { s with
        calls := Function.update s.calls s.begun (some call)
        begun := s.begun + 1 }
    else none
  | .run i fresh =>
    match s.calls i with
    | none => none
    | some call =>
      if meets s.shared call ∧ fresh ∉ s.shared.issued then
        let ran := call.run P fresh s.shared.clock s.shared.redis s.shared.db
        some { s with
          shared := s.shared.after i fresh ran
          calls := Function.update s.calls i ran.rest }
      else none
  | .tick clock =>
    if s.shared.clock ≤ clock then some { s with shared := { s.shared with clock := clock } }
    else none

/-- A schedule that goes through is a run. -/
theorem reaches_of_moves {begins : LoginCall → Prop} [DecidablePred begins]
    {meets : LoginServer → LoginCall → Prop} [∀ s call, Decidable (meets s call)]
    {moves : List LoginMove} {s t : LoginState}
    (h : moves.foldlM (loginMove P begins meets) s = some t) :
    Run.Reaches (LoginStep P begins meets) s t := by
  induction moves generalizing s with
  | nil =>
      obtain rfl := Option.some.inj h
      exact .refl
  | cons move moves ih =>
      rw [List.foldlM_cons, Option.bind_eq_bind, Option.bind_eq_some_iff] at h
      obtain ⟨u, hmove, hrest⟩ := h
      refine .head ?_ (ih hrest)
      cases move with
      | begin call =>
          simp only [loginMove, Option.ite_none_right_eq_some, Option.some.injEq] at hmove
          obtain ⟨hbegins, rfl⟩ := hmove
          exact .begin call hbegins
      | run i fresh =>
          simp only [loginMove] at hmove
          split at hmove
          · cases hmove
          · next call hcall =>
              simp only [Option.ite_none_right_eq_some, Option.some.injEq] at hmove
              obtain ⟨⟨hmeets, hfresh⟩, rfl⟩ := hmove
              exact .run i call _ _ hcall ⟨hmeets, fresh, hfresh, rfl, rfl⟩
      | tick clock =>
          simp only [loginMove, Option.ite_none_right_eq_some, Option.some.injEq] at hmove
          obtain ⟨hclock, rfl⟩ := hmove
          exact .other _ (.tick clock hclock)

instance : DecidablePred LoginCall.Begins := fun call =>
  match call with
  | .startLogin input => isTrue (.startLogin input)
  | .finishLogin input => isTrue (.finishLogin input)
  | .verifySecondFactor challengeId code => isTrue (.verifySecondFactor challengeId code)
  | .getSession sessionId => isTrue (.getSession sessionId)
  | .revokeUserSessions userId except => isTrue (.revokeUserSessions userId except)
  | .countLoginStart .. | .setLoginLock .. | .stampStart .. | .readRegistration ..
  | .setLoginAttempt .. | .readLoginUser .. | .checkRevoked .. | .completeLogin ..
  | .setSecondFactorChallenge .. | .loginKeys .. | .resetLoginThrottle .. | .stampSession ..
  | .setSession .. | .readChallengeLock .. | .countAttempt .. | .burnChallenge ..
  | .checkChallengeRevoked .. | .loadChallengeKeys .. | .checkSecondFactor ..
  | .claimTotpStep .. | .takeChallenge .. | .readEpoch .. | .dropSession .. | .stampEpoch ..
  | .setEpoch .. | .signOutSessions .. | .endExcepted .. => isFalse nofun

/-! ### A server with one account -/

/-- A handshake that knows a password when it is the record. -/
def plainLogin : LoginPlatform where
  hashEmail := id
  fakeRegistrationRecord email := email
  authInit request record _ _ := some (request, record)
  authFinish request expected := if request = expected then some "key" else none
  sessionAuthKey sessionKey _ := sessionKey
  decryptSecret secret _ := secret
  verifyToken secret code lastStep _ :=
    if secret = code ∧ lastStep.all (· < 2) then some 2 else none
  hashBackupCode := id

/-- Nothing in Redis. -/
def emptyLoginRedis : LoginRedis where
  sessions := fun _ => none
  sessionEpochs := fun _ => none
  signedOut := fun _ => none
  nonces := fun _ => none
  loginAttempts := fun _ => none
  secondFactors := fun _ => none
  loginThrottles := fun _ => none
  loginLocks := fun _ => none
  userSessions := fun _ => none

/-- The keys of that account. -/
def plainKeys : LoginKeys where
  userPasswordKeys := []
  recoveryKeys := none
  vaultKeys := []
  userKeyPair := { userId := 7, keyVersion := 1, publicKey := [] }

/-- An account that logs in with "pw". -/
def oneLoginDb : LoginDb where
  users := [{ userId := 7, emailHash := "a@b", registrationRecord := "pw", deletedAt := none }]
  keys := fun userId => if userId = 7 then some plainKeys else none
  totps := []
  backupCodes := []

/-- The account at time 10, before its first login. -/
def oneLoginState : LoginState :=
  Interleaving.State.idle (LoginServer.start 10 emptyLoginRedis oneLoginDb [])

/-- A `startLogin` of call `i`, run to its end; its attempt has the id `attempt`. -/
def startMoves (i : ℕ) (a b c d attempt : String) : List LoginMove :=
  [.begin (.startLogin { startLoginRequest := "r", email := "a@b" }), .run i a, .run i b, .run i c,
    .run i d, .run i attempt]

/-- The input that finishes that login. -/
def finishInput (attempt : AttemptId) : FinishLoginInput where
  finishLoginRequest := "pw"
  email := "a@b"
  authSalt := ""
  attemptId := attempt
  deviceName := none

end Passmgr
