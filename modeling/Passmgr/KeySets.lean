/-
# Key sets of an account

The transactions of `apps/server/src/user/router.ts` and `apps/server/src/auth/recovery-router.ts`
that replace the password side of an account: `rekeyPasswordKeys`, `finishPasswordChange` and
`finishRecovery`, with the requests that lead to them.  Each of them closes the active key set
under a row lock and inserts its successor; a password change and a recovery also replace the login
record.

A locking read finds its rows first and locks them then: a row that another transaction closed
meanwhile is read again when the lock is there, and left out.

Main definitions:

* `KeySet`, `KeyTables` — the rows;
* `lockActiveKeySet`, `replacePasswordWrap` — the statements the transactions share;
* `rekeyPasswordKeys`, `finishPasswordChange`, `finishRecovery` — the transactions;
* `KeyServer`, `KeyStep` — sessions, attempts and transactions in any order.
-/

import Passmgr.LoginKeys
import Passmgr.ReadCommitted

set_option relaxedAutoImplicit false
set_option autoImplicit false

namespace Passmgr

open ReadCommitted (Prog)

/-! ### Rows -/

structure ArgonParams where
  t : ℕ
  m : ℕ
  p : ℕ
  deriving DecidableEq, Repr

/-- `passwordKeySchema`: the account key, wrapped under the password. -/
structure PasswordKeys where
  passwordKekParams : ArgonParams
  passwordKekSalt : String
  encryptedAccountKey : String
  accountKeyEncryptionNonce : String
  deriving DecidableEq, Repr

/-- `recoveryKeySchema`: the account key, wrapped under the recovery key. -/
structure RecoveryKeys where
  recoveryKekSalt : String
  encryptedAccountKeyRecovery : String
  accountKeyEncryptionNonceRecovery : String
  /-- None for an account from before recovery existed. -/
  recoveryVerifier : Option String
  deriving DecidableEq, Repr

/-- `userKeySchema`. -/
structure UserKeys extends RecoveryKeys, PasswordKeys
  deriving DecidableEq, Repr

/-- `keysTable`. -/
structure KeySet extends UserKeys where
  keySetId : String
  userId : UserId
  validFrom : Time
  /-- When the key set was closed. -/
  validTo : Option Time
  deletedAt : Option Time
  deriving DecidableEq, Repr

structure KeyTables where
  users : List LoginUser
  keys : List KeySet
  deriving DecidableEq, Repr

/-- The active key set of a user: neither closed nor deleted. -/
def KeySet.isActive (userId : UserId) (row : KeySet) : Bool :=
  row.userId = userId && row.validTo.isNone && row.deletedAt.isNone

namespace KeyTables

variable (db : KeyTables)

/-- The account of a user, unless it is deleted. -/
def user? (userId : UserId) : Option LoginUser :=
  db.users.find? fun user => user.userId = userId && user.deletedAt.isNone

def userByEmail (emailHash : EmailHash) : Option LoginUser :=
  db.users.find? fun user => user.emailHash = emailHash && user.deletedAt.isNone

def activeKeySet? (userId : UserId) : Option KeySet := db.keys.find? (·.isActive userId)

/-- The ids of the rows a locking read of the active key set finds. -/
def activeIds (userId : UserId) : List String :=
  (db.keys.filter (·.isActive userId)).map (·.keySetId)

/-- The `UPDATE` that closes a key set. -/
def closeKeySet (keySetId : String) (now : Time) : KeyTables :=
  { db with
    keys := db.keys.map fun row =>
      if row.keySetId = keySetId then { row with validTo := some now } else row }

def insertKeySet (row : KeySet) : KeyTables := { db with keys := db.keys ++ [row] }

/-- The `UPDATE` of the login record. -/
def setRegistrationRecord (userId : UserId) (registrationRecord : String) : KeyTables :=
  { db with
    users := db.users.map fun user =>
      if user.userId = userId ∧ user.deletedAt.isNone then
        { user with registrationRecord := registrationRecord }
      else user }

end KeyTables

/-! ### Transactions -/

inductive KeyLock
  | keySet (keySetId : String)
  | user (userId : UserId)
  deriving DecidableEq, Repr

abbrev KeyTxn := Prog KeyTables KeyLock

/-- `lockActiveKeySet`; what it `expects` when the lock is there has no effect. -/
def lockActiveKeySet (userId : UserId) (expects : KeyTables → Prop)
    (next : Option KeySet → KeyTxn) : KeyTxn :=
  .read fun found =>
    .stmt expects (fun _ => (found.activeIds userId).map .keySet) (fun _ db => db) fun db =>
      next (db.keys.find? fun row =>
        row.isActive userId && row.keySetId ∈ found.activeIds userId)

/-- Close the active key set and insert its successor. -/
def replaceKeySet (active : KeySet) (row : KeySet) (now : Time) (next : KeyTxn) : KeyTxn :=
  .write (fun _ => [.keySet active.keySetId]) (fun _ db => db.closeKeySet active.keySetId now)
    (.write (fun _ => []) (fun _ db => db.insertKeySet row) next)

/-- The key set that follows an active one under a new password: the recovery wrap and its verifier
carry over. -/
def KeySet.withPassword (active : KeySet) (passwordKeys : PasswordKeys) (keySetId : String)
    (now : Time) : KeySet where
  toRecoveryKeys := active.toRecoveryKeys
  toPasswordKeys := passwordKeys
  keySetId := keySetId
  userId := active.userId
  validFrom := now
  validTo := none
  deletedAt := none

/-- `replacePasswordWrap`; `keySetId` is the id the new row gets. -/
def replacePasswordWrap (active : KeySet) (passwordKeys : PasswordKeys) (keySetId : String)
    (now : Time) (next : KeyTxn) : KeyTxn :=
  replaceKeySet active (active.withPassword passwordKeys keySetId now) now next

/-- The update of the login record; `next` is told whether there is an account. -/
def updateRegistrationRecord (userId : UserId) (registrationRecord : String)
    (next : Bool → KeyTxn) : KeyTxn :=
  .stmt (fun _ => True) (fun db => if (db.user? userId).isSome then [.user userId] else [])
    (fun _ db => db.setRegistrationRecord userId registrationRecord)
    fun db => next (db.user? userId).isSome

/-- The login record of the user. -/
def KeyTables.recordOf (db : KeyTables) (userId : UserId) : Option String :=
  (db.user? userId).map (·.registrationRecord)

/-- `rekeyPasswordKeys`.  It takes for granted that the login record is still the one its session
logged in with; nothing in the source checks it. -/
def rekeyPasswordKeys (userId : UserId) (loginRecord : String) (passwordKeys : PasswordKeys)
    (keySetId : String) (now : Time) : KeyTxn :=
  lockActiveKeySet userId (fun db => db.recordOf userId = some loginRecord) fun
    | none => .abort
    | some active => replacePasswordWrap active passwordKeys keySetId now .commit

/-- The transaction of `finishPasswordChange`; `attemptKeySetId` is the key set the attempt was
started with. -/
def finishPasswordChange (userId : UserId) (attemptKeySetId registrationRecord : String)
    (passwordKeys : PasswordKeys) (keySetId : String) (now : Time) : KeyTxn :=
  lockActiveKeySet userId (fun _ => True) fun
    | none => .abort
    | some active =>
      if active.keySetId ≠ attemptKeySetId then .abort
      else
        replacePasswordWrap active passwordKeys keySetId now
          (updateRegistrationRecord userId registrationRecord fun found =>
            if found then .commit else .abort)

/-- The row `finishRecovery` inserts. -/
def UserKeys.keySet (userKeys : UserKeys) (userId : UserId) (keySetId : String) (now : Time) :
    KeySet where
  toUserKeys := userKeys
  keySetId := keySetId
  userId := userId
  validFrom := now
  validTo := none
  deletedAt := none

/-- The transaction of `finishRecovery`. -/
def finishRecovery (userId : UserId) (attemptKeySetId registrationRecord : String)
    (userKeys : UserKeys) (keySetId : String) (now : Time) : KeyTxn :=
  lockActiveKeySet userId (fun _ => True) fun
    | none => .abort
    | some active =>
      if active.keySetId ≠ attemptKeySetId then .abort
      else
        replaceKeySet active (userKeys.keySet userId keySetId now) now
          (updateRegistrationRecord userId registrationRecord fun _ => .commit)

/-! ### Sessions and attempts -/

/-- A session.  The login record its login was checked against is not stored: it stands for the
password the client holds. -/
structure KeySession where
  userId : UserId
  loginRecord : String
  deriving DecidableEq, Repr

structure PasswordChangeAttempt where
  userId : UserId
  keySetId : String
  deriving DecidableEq, Repr

structure RecoveryAttempt where
  userId : UserId
  emailHash : EmailHash
  keySetId : String
  deriving DecidableEq, Repr

/-- `startPasswordChange`: the email must be the user's. -/
def startPasswordChange (db : KeyTables) (userId : UserId) (emailHash : EmailHash) :
    Option PasswordChangeAttempt :=
  match db.user? userId, db.activeKeySet? userId with
  | some user, some keys =>
    if user.emailHash = emailHash then some { userId := userId, keySetId := keys.keySetId }
    else none
  | _, _ => none

/-- `startRecovery`: `presented` is the hash of the recovery auth key. -/
def startRecovery (db : KeyTables) (emailHash : EmailHash) (presented : String) :
    Option RecoveryAttempt :=
  (db.userByEmail emailHash).bind fun user =>
    (db.activeKeySet? user.userId).bind fun keys =>
      if keys.recoveryVerifier = some presented then
        some { userId := user.userId, emailHash := emailHash, keySetId := keys.keySetId }
      else none

/-- The password a login record logs in with, and the one a wrap opens with. -/
structure Passwords where
  ofRecord : (registrationRecord : String) → String
  ofKeys : PasswordKeys → String

structure KeyServer where
  store : ReadCommitted.State KeyTables KeyLock
  sessions : SessionId → Option KeySession
  passwordChanges : AttemptId → Option PasswordChangeAttempt
  recoveries : AttemptId → Option RecoveryAttempt

/-- A transaction begins. -/
def KeyServer.begin (s : KeyServer) (i : ℕ) (prog : KeyTxn) : KeyServer :=
  { s with store := s.store.set i (some (ReadCommitted.Tx.new prog)) }

/-- One step of any interleaving of the requests of one user.  A rekey brings a wrap under the
password its session logged in with; a password change and a recovery bring a login record and a
wrap under one new password.  Where `inTime`, the statements find what they take for granted. -/
inductive KeyStep (P : Passwords) (userId : UserId) (inTime : Prop) (s : KeyServer) :
    KeyServer → Prop
  | login (sessionId : SessionId) (user : LoginUser)
      (huser : s.store.committed.user? userId = some user) :
      KeyStep P userId inTime s
        { s with
          sessions := Function.update s.sessions sessionId
            (some { userId := userId, loginRecord := user.registrationRecord }) }
  /-- Sessions end when they are revoked or expire. -/
  | endSessions (ended : SessionId → Bool) :
      KeyStep P userId inTime s
        { s with sessions := fun sessionId => if ended sessionId then none else s.sessions sessionId }
  | rekeyPasswordKeys (i : ℕ) (sessionId : SessionId) (session : KeySession)
      (passwordKeys : PasswordKeys) (keySetId : String) (now : Time)
      (hsession : s.sessions sessionId = some session) (huser : session.userId = userId)
      (hhonest : P.ofKeys passwordKeys = P.ofRecord session.loginRecord)
      (hfree : s.store.txs i = none) :
      KeyStep P userId inTime s
        (s.begin i (rekeyPasswordKeys userId session.loginRecord passwordKeys keySetId now))
  | startPasswordChange (sessionId : SessionId) (session : KeySession) (emailHash : EmailHash)
      (attemptId : AttemptId) (attempt : PasswordChangeAttempt)
      (hsession : s.sessions sessionId = some session) (huser : session.userId = userId)
      (hstart : startPasswordChange s.store.committed userId emailHash = some attempt) :
      KeyStep P userId inTime s
        { s with passwordChanges := Function.update s.passwordChanges attemptId (some attempt) }
  | finishPasswordChange (i : ℕ) (sessionId : SessionId) (session : KeySession)
      (attemptId : AttemptId) (attempt : PasswordChangeAttempt) (registrationRecord : String)
      (passwordKeys : PasswordKeys) (keySetId : String) (now : Time)
      (hsession : s.sessions sessionId = some session) (huser : session.userId = userId)
      (hattempt : s.passwordChanges attemptId = some attempt) (hown : attempt.userId = userId)
      (hhonest : P.ofKeys passwordKeys = P.ofRecord registrationRecord)
      (hfree : s.store.txs i = none) :
      KeyStep P userId inTime s
        { s.begin i (finishPasswordChange userId attempt.keySetId registrationRecord passwordKeys
            keySetId now) with
          passwordChanges := Function.update s.passwordChanges attemptId none }
  | startRecovery (emailHash : EmailHash) (presented : String) (attemptId : AttemptId)
      (attempt : RecoveryAttempt)
      (hstart : startRecovery s.store.committed emailHash presented = some attempt) :
      KeyStep P userId inTime s
        { s with recoveries := Function.update s.recoveries attemptId (some attempt) }
  | finishRecovery (i : ℕ) (attemptId : AttemptId) (attempt : RecoveryAttempt)
      (emailHash : EmailHash) (registrationRecord : String) (userKeys : UserKeys)
      (keySetId : String) (now : Time) (hattempt : s.recoveries attemptId = some attempt)
      (hown : attempt.userId = userId) (hemail : attempt.emailHash = emailHash)
      (hhonest : P.ofKeys userKeys.toPasswordKeys = P.ofRecord registrationRecord)
      (hfree : s.store.txs i = none) :
      KeyStep P userId inTime s
        { s.begin i (finishRecovery userId attempt.keySetId registrationRecord userKeys keySetId now)
            with recoveries := Function.update s.recoveries attemptId none }
  /-- A running transaction goes on, commits or is aborted. -/
  | transaction (store : ReadCommitted.State KeyTables KeyLock)
      (hstore : ReadCommitted.Step (fun _ => False) inTime s.store store) :
      KeyStep P userId inTime s { s with store := store }

end Passmgr
