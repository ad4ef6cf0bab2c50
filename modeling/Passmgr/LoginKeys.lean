/-
# What a login keeps in Redis and in the database

The keys of `apps/server/src/util/redis-utils.ts` a login reads and writes (attempts, second-factor
challenges, the throttle and its lock, sessions and the cut-off of a user's sessions) with the
commands on them, and the rows of `apps/server/src/auth/two-factor.ts`.  A command, or a `MULTI` of
them, is one step on the store at the time Redis runs it.

Main definitions:

* `LoginRedis`, `LoginDb` — the keys and the rows;
* `getLoginLockMs`, `incrLoginThrottle`, `backoffMs`, `resetLoginThrottle` — the throttle;
* `takeLoginAttempt`, `countSecondFactorAttempt`, `takeSecondFactorChallenge` — single use;
* `isLoginRevoked`, `setSession`, `signOutSessions` — sessions and their cut-off;
* `LoginDb.useBackupCode`, `LoginDb.claimTotpStep` — the conditional updates of a second factor.
-/

import Passmgr.RequestAuth
import Passmgr.ServerTables

set_option relaxedAutoImplicit false
set_option autoImplicit false

namespace Passmgr

open Expiring

abbrev AttemptId := String
abbrev ChallengeId := String
abbrev EmailHash := String

def loginAttemptTtl : Time := 5 * 60 * 1000
def loginFreeAttempts : ℕ := 5
def loginBaseBackoffMs : ℕ := 1000
def loginMaxBackoffMs : ℕ := 15 * 60000
/-- `LOGIN_THROTTLE_WINDOW_SECONDS`, in milliseconds. -/
def loginThrottleWindow : ℕ := 60 * 60 * 1000
def secondFactorMaxAttempts : ℕ := 5

/-! ### Keys -/

structure LoginAttempt where
  /-- None for an unknown email. -/
  userId : Option UserId
  emailHash : EmailHash
  expected : String
  startedAt : Time
  deriving DecidableEq, Repr

/-- A login whose first factor was right, waiting for its second. -/
structure SecondFactorChallenge where
  userId : UserId
  emailHash : EmailHash
  rawAuthKey : String
  deviceName : Option String
  startedAt : Time
  deviceCredentialId : Option String
  deriving DecidableEq, Repr

/-- The hash of a challenge: its fields and the `attempts` counter. -/
structure CountedChallenge where
  challenge : SecondFactorChallenge
  attempts : ℕ
  deriving DecidableEq, Repr

structure LoginRedis extends Redis where
  loginAttempts : Store AttemptId LoginAttempt
  secondFactors : Store ChallengeId CountedChallenge
  loginThrottles : Store EmailHash ℕ
  loginLocks : Store EmailHash Unit
  /-- The index of a user's sessions with their scores. -/
  userSessions : Store UserId (List (SessionId × Time))

namespace LoginRedis

variable (redis : LoginRedis) (now : Time)

/-! ### The throttle -/

/-- `PTTL` of the lock: what is left of it, 0 when there is none. -/
def getLoginLockMs (emailHash : EmailHash) : ℕ :=
  match redis.loginLocks emailHash with
  | some e => e.expiresAt.elim 0 (· - now)
  | none => 0

/-- The `MULTI` of `recordLoginStart`: the count of starts, this one included. -/
def incrLoginThrottle (emailHash : EmailHash) : ℕ × LoginRedis :=
  let count := (redis.loginThrottles.get now emailHash).getD 0 + 1
  (count, { redis with
    loginThrottles :=
      redis.loginThrottles.set emailHash count (some (now + loginThrottleWindow)) })

/-- How long a start locks the account that is `excess` past the free ones. -/
def backoffMs (excess : ℕ) : ℕ := min (loginBaseBackoffMs * 2 ^ (excess - 1)) loginMaxBackoffMs

def setLoginLock (emailHash : EmailHash) (backoffMs : ℕ) : LoginRedis :=
  { redis with loginLocks := redis.loginLocks.set emailHash () (some (now + backoffMs)) }

def resetLoginThrottle (emailHash : EmailHash) : LoginRedis :=
  { redis with
    loginThrottles := redis.loginThrottles.del emailHash
    loginLocks := redis.loginLocks.del emailHash }

/-! ### Attempts and challenges -/

def setLoginAttempt (attemptId : AttemptId) (attempt : LoginAttempt) : LoginRedis :=
  { redis with
    loginAttempts := redis.loginAttempts.set attemptId attempt (some (now + loginAttemptTtl)) }

/-- `GETDEL`: each attempt finishes at most once. -/
def takeLoginAttempt (attemptId : AttemptId) : Option LoginAttempt × LoginRedis :=
  (redis.loginAttempts.get now attemptId,
    { redis with loginAttempts := redis.loginAttempts.del attemptId })

def setSecondFactorChallenge (challengeId : ChallengeId) (challenge : SecondFactorChallenge) :
    LoginRedis :=
  { redis with
    secondFactors := redis.secondFactors.set challengeId
      { challenge := challenge, attempts := 0 } (some (now + loginAttemptTtl)) }

/-- The challenge, read back from its hash: an empty field is one that is not there. -/
def getSecondFactorChallenge (challengeId : ChallengeId) : Option SecondFactorChallenge :=
  match redis.secondFactors.get now challengeId with
  | some ⟨challenge, _⟩ =>
    if challenge.emailHash = "" || challenge.rawAuthKey = "" then none
    else
      some { challenge with
        deviceName := present challenge.deviceName
        deviceCredentialId := present challenge.deviceCredentialId }
  | none => none

/-- The count including this attempt, none (-1) when the challenge is gone.  The time to live
stays. -/
def countSecondFactorAttempt (challengeId : ChallengeId) : Option ℕ × LoginRedis :=
  match redis.secondFactors challengeId with
  | some e =>
    if e.live now then
      (some (e.value.attempts + 1), { redis with
        secondFactors := redis.secondFactors.set challengeId
          { e.value with attempts := e.value.attempts + 1 } e.expiresAt })
    else (none, redis)
  | none => (none, redis)

/-- `DEL`: true only for the one caller that ended the challenge. -/
def takeSecondFactorChallenge (challengeId : ChallengeId) : Bool × LoginRedis :=
  ((redis.secondFactors.get now challengeId).isSome,
    { redis with secondFactors := redis.secondFactors.del challengeId })

/-! ### Sessions -/

/-- A login started at or before the user's last cut-off. -/
def isLoginRevoked (userId : UserId) (startedAt : Time) : Bool :=
  match redis.sessionEpochs.get now userId with
  | some epoch => startedAt ≤ epoch
  | none => false

/-- The index after `ZADD` of a session and `ZREMRANGEBYSCORE` of those idle too long. -/
def indexed (index : List (SessionId × Time)) (sessionId : SessionId) (score : Time) :
    List (SessionId × Time) :=
  ((index.filter (·.1 ≠ sessionId)) ++ [(sessionId, score)]).filter
    fun entry => score < entry.2 + sessionTtl * 1000

/-- The `MULTI` of `setSession`: `score` is the caller's clock, `ttl` the seconds it lives. -/
def setSession (sessionId : SessionId) (session : Session) (ttl : ℕ) (score : Time) :
    LoginRedis :=
  { redis with
    sessions := redis.sessions.set sessionId session (some (now + ttl * 1000))
    userSessions := redis.userSessions.set session.userId
      (indexed ((redis.userSessions.get now session.userId).getD []) sessionId score)
      (some (now + sessionMaxAge)) }

/-- `ZREM` of sessions from the index of a user. -/
def zrem (userId : UserId) (sessionIds : List SessionId) : LoginRedis :=
  { redis with
    userSessions := match redis.userSessions userId with
      | some e => Function.update redis.userSessions userId
          (some { e with value := e.value.filter (·.1 ∉ sessionIds) })
      | none => redis.userSessions }

/-- `deleteSession`: the session and its entry in the index. -/
def endSession (sessionId : SessionId) (userId : UserId) : LoginRedis :=
  zrem { redis with sessions := redis.sessions.del sessionId } userId [sessionId]

/-- `ZRANGE` of the index. -/
def userSessionIds (userId : UserId) : List SessionId :=
  ((redis.userSessions.get now userId).getD []).map Prod.fst

def setSessionEpoch (userId : UserId) (epoch : Time) : LoginRedis :=
  { redis with sessionEpochs := redis.sessionEpochs.set userId epoch none }

/-- The `MULTI` of `signOutSessions`: the sessions end, and each is marked signed out. -/
def signOutSessions (userId : UserId) (sessionIds : List SessionId) : LoginRedis :=
  zrem { redis with
    sessions := fun id => if id ∈ sessionIds then none else redis.sessions id
    signedOut := fun id =>
      if id ∈ sessionIds then some ⟨(), some (now + sessionMaxAge)⟩ else redis.signedOut id }
    userId sessionIds

end LoginRedis

/-! ### Rows -/

/-- What `usersTable` holds for a login. -/
structure LoginUser where
  userId : UserId
  emailHash : EmailHash
  registrationRecord : String
  deletedAt : Option Time
  deriving DecidableEq, Repr

/-- What a completed login hands out besides the session. -/
structure LoginKeys where
  userPasswordKeys : Text
  recoveryKeys : Option Text
  vaultKeys : List MemberVault
  userKeyPair : UserKeyPair
  deriving DecidableEq, Repr

/-- `userTotpTable`. -/
structure UserTotp where
  userId : UserId
  encryptedSecret : String
  secretNonce : String
  lastUsedStep : Option ℕ
  deriving DecidableEq, Repr

/-- `userBackupCodesTable`. -/
structure BackupCode where
  userId : UserId
  codeHash : String
  usedAt : Option Time
  deriving DecidableEq, Repr

structure LoginDb where
  users : List LoginUser
  /-- `loginKeys` of a user, none where one of its queries finds nothing. -/
  keys : UserId → Option LoginKeys
  totps : List UserTotp
  backupCodes : List BackupCode

namespace LoginDb

variable (db : LoginDb)

/-- The account an email logs in to. -/
def userByEmail (emailHash : EmailHash) : Option LoginUser :=
  db.users.find? fun user => user.emailHash = emailHash && user.deletedAt.isNone

/-- Whether an account is there and not deleted. -/
def hasUser (userId : UserId) : Bool :=
  db.users.any fun user => user.userId = userId && user.deletedAt.isNone

def totp? (userId : UserId) : Option UserTotp := db.totps.find? (·.userId = userId)

def hasTotp (userId : UserId) : Bool := (db.totp? userId).isSome

/-- Whether a row is an unused backup code of the user with that hash. -/
def isUnused (userId : UserId) (codeHash : String) (row : BackupCode) : Bool :=
  row.userId = userId && row.codeHash = codeHash && row.usedAt.isNone

/-- The update of `checkSecondFactor`: whether it marked a row used. -/
def useBackupCode (now : Time) (userId : UserId) (codeHash : String) : Bool × LoginDb :=
  (db.backupCodes.any (isUnused userId codeHash),
    { db with
      backupCodes := db.backupCodes.map fun row =>
        if isUnused userId codeHash row then { row with usedAt := some now } else row })

/-- Whether a row is the user's and its last step lies below `step`. -/
def isBelowStep (userId : UserId) (step : ℕ) (row : UserTotp) : Bool :=
  row.userId = userId && row.lastUsedStep.all (· < step)

/-- The update of `checkTotpCode`: of two logins with the same code only one moves the step. -/
def claimTotpStep (userId : UserId) (step : ℕ) : Bool × LoginDb :=
  (db.totps.any (isBelowStep userId step),
    { db with
      totps := db.totps.map fun row =>
        if isBelowStep userId step row then { row with lastUsedStep := some step } else row })

end LoginDb

/-- What the runtime and OPAQUE do: the keyed hashes, the two halves of the handshake (none where a
message does not decode or the handshake fails), the key derivations and the check of a TOTP code. -/
structure LoginPlatform where
  hashEmail : String → EmailHash
  fakeRegistrationRecord : String → String
  authInit : (startLoginRequest registrationRecord email seed : String) → Option (String × String)
  authFinish : (finishLoginRequest expected : String) → Option String
  sessionAuthKey : (sessionKey authSalt : String) → String
  decryptSecret : (encryptedSecret secretNonce : String) → String
  verifyToken : (secret code : String) → (lastStep : Option ℕ) → (now : Time) → Option ℕ
  hashBackupCode : String → String

/-- `code.replace(/\s/g, "")`. -/
def withoutSpaces (code : String) : String :=
  String.ofList (code.toList.filter (!JsNumber.isStrWhiteSpace ·))

/-- `/^\d{6}$/`. -/
def isTotpCode (code : String) : Bool := code.length = 6 && code.toList.all Char.isDigit

end Passmgr
