/-
# A password reset that waits for the server

A reset of a linked profile's password with its recovery key while offline, and the connect that
takes it to the server (`recoverLinkedVault` and `finishPendingRecovery` of
`packages/client/src/recover.ts`, `recoverOnDevice` of `hooks/use-recovery.ts`, `attach` and
`finishPendingReset` of `hooks/use-connect-server.ts`, with `apps/server/src/auth/recovery-router.ts`).

Every request may not reach the server, and its answer may be lost.  An attempt doesn't expire
between its two requests.  A login is one exchange; a session, the login throttle and the second
factor are left out, as is the rekey of a password wrap below the Argon2 floor.

Main definitions:

* `LinkedProfile`, `AccountServer` — the two parties;
* `recoverLinkedVault`, `recoverOnDevice` — a reset on the device;
* `finishPendingRecovery`, `finishPendingReset`, `attachPassword` — a connect, which takes the reset
  to the server first;
* `RecoveryState`, `RecoveryOp` — resets and connects in any order.
-/

import Passmgr.AccountKeys
import Passmgr.SecretsStore

set_option relaxedAutoImplicit false
set_option autoImplicit false

namespace Passmgr

open IdealCipher (Ciphers)

/-! ### The device -/

/-- `PendingRecovery`: the proof of a recovery key, and the key set that replaces the server's. -/
structure PendingRecovery where
  recoveryAuthKey : Text
  userKeys : UserKeys
  deriving DecidableEq, Repr

/-- The text of a pending recovery and the pending recovery of a text. -/
structure PendingJson where
  stringify : PendingRecovery → Text
  parse : Text → Option PendingRecovery

/-- What is written is read back. -/
def PendingJson.Rereads (J : PendingJson) : Prop :=
  ∀ pending, J.parse (J.stringify pending) = some pending

/-- What a linked profile stores of its account. -/
structure LinkedProfile where
  email : Text
  userId : UserId
  material : AccountKeyMaterial
  recoveryWrap : Option RecoveryWrap
  vaults : List MemberVault
  pendingRecovery : Option SealedPendingRecovery
  deriving DecidableEq, Repr

/-- Why a reset on the device fails. -/
inductive RecoverError
  /-- `RecoveryFailedError`: the recovery key doesn't open the wrap. -/
  | failed
  /-- `LocalRecoveryMismatchError`: it opens to a key that isn't this vault's. -/
  | mismatch
  /-- An earlier reset that is pending can't be read. -/
  | unreadable
  /-- The device has no recovery wrap: the reset needs the server. -/
  | noWrap
  deriving DecidableEq, Repr

/-- `LinkedRecovery`, less the key that is shown. -/
structure LinkedRecovery where
  material : AccountKeyMaterial
  recoveryWrap : RecoveryWrap
  pending : SealedPendingRecovery
  serverRecovery : PendingRecovery
  deriving DecidableEq, Repr

/-- What a reset draws. -/
structure ResetRandom where
  password : PasswordRandom
  recovery : RecoveryRandom
  nonce : Text
  deriving DecidableEq, Repr

namespace LinkedProfile

variable (profile : LinkedProfile)

/-- `setLinkedRecovery`, in one transaction. -/
def setLinkedRecovery (recovered : LinkedRecovery) : LinkedProfile :=
  { profile with
    material := recovered.material
    recoveryWrap := some recovered.recoveryWrap
    pendingRecovery := some recovered.pending }

def clearPendingRecovery : LinkedProfile := { profile with pendingRecovery := none }

/-- `setAccountKeyMaterial` with a login's recovery wrap: a pending recovery is dropped. -/
def setAccountKeyMaterial (material : AccountKeyMaterial) (vaults : List MemberVault)
    (recoveryWrap : Option RecoveryWrap) : LinkedProfile :=
  { profile with
    material := material
    recoveryWrap := recoveryWrap
    vaults := vaults
    pendingRecovery := none }

end LinkedProfile

section Device

variable (C : Ciphers Text) (K : KeyDerivation) (J : PendingJson)

/-- `rewrapOnDevice`, up to the callback: the account key, which must open the personal vault. -/
def rewrapOnDevice (wrap : RecoveryWrap) (vaults : List MemberVault) (recoveryKey : Text) :
    Except RecoverError Text :=
  match unwrapAccountKeyWithRecoveryKey C K recoveryKey wrap with
  | none => .error .failed
  | some accountKey =>
    match vaults.find? (·.kind = .personal) with
    | none => .error .mismatch
    | some personal =>
      match unwrapVaultKey C accountKey personal.keyWrap with
      | none => .error .mismatch
      | some _ => .ok accountKey

/-- `openPendingRecovery` and `parsePendingRecovery`. -/
def readPendingRecovery (accountKey : Text) (sealed : SealedPendingRecovery) :
    Option PendingRecovery :=
  (openPendingRecovery C accountKey sealed).bind J.parse

/-- What proves a reset: the proof of an earlier one that is pending, as the server knows the recovery
key before it, or that of the recovery key. -/
def resetProof (accountKey recoveryKey : Text) :
    Option SealedPendingRecovery → Except RecoverError Text
  | some earlier =>
    match readPendingRecovery C J accountKey earlier with
    | some pending => .ok pending.recoveryAuthKey
    | none => .error .unreadable
  | none => .ok (deriveRecoveryAuthKey K recoveryKey)

/-- `recoverLinkedVault`. -/
def recoverLinkedVault (material : AccountKeyMaterial) (recoveryWrap : RecoveryWrap)
    (vaults : List MemberVault) (earlier : Option SealedPendingRecovery)
    (recoveryKey newPassword : Text) (random : ResetRandom) :
    Except RecoverError LinkedRecovery := do
  let accountKey ← rewrapOnDevice C K recoveryWrap vaults recoveryKey
  let recoveryAuthKey ← resetProof C K J accountKey recoveryKey earlier
  let passwordWrap := derivePasswordWrap C K random.password newPassword accountKey
  let newRecovery := generateRecoveryKeys C K random.recovery accountKey
  let pending : PendingRecovery := {
    recoveryAuthKey := recoveryAuthKey
    userKeys := { toPasswordKeys := passwordWrap, toRecoveryKeys := newRecovery } }
  return {
    material := { toPasswordKeys := passwordWrap, userKeyPair := material.userKeyPair }
    recoveryWrap := newRecovery.wrap
    pending := sealPendingRecovery C random.nonce accountKey (J.stringify pending)
    serverRecovery := pending }

/-- `recoverOnDevice` while offline, up to what it stores. -/
def recoverOnDevice (profile : LinkedProfile) (recoveryKey newPassword : Text)
    (random : ResetRandom) : Except RecoverError LinkedRecovery :=
  match profile.recoveryWrap with
  | none => .error .noWrap
  | some wrap =>
    recoverLinkedVault C K J profile.material wrap profile.vaults profile.pendingRecovery recoveryKey
      newPassword random

end Device

/-! ### The server -/

/-- The account a device is linked to, with the recoveries that were started. -/
structure AccountServer where
  hashEmail : Text → EmailHash
  tables : KeyTables
  recoveries : AttemptId → Option RecoveryAttempt
  userKeyPair : WrappedKeyPair
  vaultKeys : List MemberVault

/-- `AccountLogin`: what a login hands out, besides its session. -/
structure AccountLogin where
  userId : UserId
  userPasswordKeys : PasswordKeys
  recoveryKeys : Option RecoveryWrap
  vaultKeys : List MemberVault
  userKeyPair : WrappedKeyPair
  deriving DecidableEq, Repr

namespace AccountServer

variable (K : KeyDerivation) (server : AccountServer)

/-- The request `startRecovery`, and whether it is accepted. -/
def startRecovery (email recoveryAuthKey : Text) (attemptId : AttemptId) : AccountServer × Bool :=
  match Passmgr.startRecovery server.tables (server.hashEmail email)
    (hashRecoveryAuthKey K recoveryAuthKey) with
  | none => (server, false)
  | some attempt =>
    ({ server with recoveries := Function.update server.recoveries attemptId (some attempt) }, true)

/-- The request `finishRecovery`: the attempt is taken, then its transaction runs. -/
def finishRecovery (email : Text) (attemptId : AttemptId) (registrationRecord : String)
    (userKeys : UserKeys) (keySetId : String) (now : Time) : AccountServer × Bool :=
  let taken := { server with recoveries := Function.update server.recoveries attemptId none }
  match server.recoveries attemptId with
  | none => (taken, false)
  | some attempt =>
    if attempt.emailHash ≠ server.hashEmail email then (taken, false)
    else
      match (Passmgr.finishRecovery attempt.userId attempt.keySetId registrationRecord userKeys
        keySetId now).exec server.tables with
      | none => (taken, false)
      | some tables => ({ taken with tables := tables }, true)

/-- A login with an OPAQUE password, and `loginKeys`.  Without a verifier the server can't finish a
recovery. -/
def login (email opaquePassword : Text) : Option AccountLogin :=
  (server.tables.userByEmail (server.hashEmail email)).bind fun user =>
    if K.accepts user.registrationRecord opaquePassword then
      (server.tables.activeKeySet? user.userId).map fun keys => {
        userId := user.userId
        userPasswordKeys := keys.toPasswordKeys
        recoveryKeys := if keys.recoveryVerifier.isSome then some keys.wrap else none
        vaultKeys := server.vaultKeys
        userKeyPair := server.userKeyPair }
    else none

end AccountServer

/-! ### A connect -/

/-- What becomes of a request: its answer arrives, it is lost after the server processed the
request, or the server never saw it. -/
inductive Answer
  | delivered
  | lost
  | unreached
  deriving DecidableEq, Repr

/-- The answers to the requests of a connect; one that is not sent has none. -/
structure ConnectAnswers where
  startRecovery : Answer
  finishRecovery : Answer
  login : Answer
  deriving DecidableEq, Repr

def ConnectAnswers.delivered : ConnectAnswers := ⟨.delivered, .delivered, .delivered⟩

/-- What the parties of a connect draw, and its time. -/
structure ConnectRandom where
  attemptId : AttemptId
  opaqueRandom : Text
  keySetId : String
  now : Time
  deriving DecidableEq, Repr

/-- Why a request fails. -/
inductive RequestFailure
  | refused
  | unreachable
  deriving DecidableEq, Repr

/-- `ConnectResult`, less those of what is left out. -/
inductive ConnectResult
  | online
  | rejected
  | unreachable
  deriving DecidableEq, Repr

section Connect

variable (C : Ciphers Text) (K : KeyDerivation) (J : PendingJson)

/-- `finishPendingRecovery`. -/
def finishPendingRecovery (server : AccountServer) (email opaquePassword : Text)
    (pending : PendingRecovery) (random : ConnectRandom) (answers : ConnectAnswers) :
    AccountServer × Except RequestFailure Unit :=
  if answers.startRecovery = .unreached then (server, .error .unreachable)
  else
    let (server, started) := server.startRecovery K email pending.recoveryAuthKey random.attemptId
    if answers.startRecovery = .lost then (server, .error .unreachable)
    else if !started then (server, .error .refused)
    else if answers.finishRecovery = .unreached then (server, .error .unreachable)
    else
      let registrationRecord := K.register opaquePassword email random.opaqueRandom
      let (server, finished) := server.finishRecovery email random.attemptId registrationRecord
        pending.userKeys random.keySetId random.now
      if answers.finishRecovery = .lost then (server, .error .unreachable)
      else if !finished then (server, .error .refused)
      else (server, .ok ())

/-- `finishPendingReset`: a refusal ends it, an answer that doesn't arrive leaves it for the next
connect. -/
def finishPendingReset (server : AccountServer) (device : LinkedProfile)
    (accountKey opaquePassword : Text) (random : ConnectRandom) (answers : ConnectAnswers) :
    (AccountServer × LinkedProfile) × Except RequestFailure Unit :=
  match device.pendingRecovery with
  | none => ((server, device), .ok ())
  | some sealed =>
    match readPendingRecovery C J accountKey sealed with
    | none => ((server, device.clearPendingRecovery), .ok ())
    | some pending =>
      match finishPendingRecovery K server device.email opaquePassword pending random answers with
      | (server, .error .unreachable) => ((server, device), .error .unreachable)
      | (server, _) => ((server, device.clearPendingRecovery), .ok ())

/-- The login of `attach`, and what it stores. -/
def attach (server : AccountServer) (device : LinkedProfile) (opaquePassword : Text)
    (answers : ConnectAnswers) : LinkedProfile × ConnectResult :=
  if answers.login ≠ .delivered then (device, .unreachable)
  else
    match server.login K device.email opaquePassword with
    | none => (device, .rejected)
    | some info =>
      if info.userId ≠ device.userId then (device, .rejected)
      else
        (device.setAccountKeyMaterial
          { toPasswordKeys := info.userPasswordKeys, userKeyPair := info.userKeyPair }
          info.vaultKeys info.recoveryKeys, .online)

/-- `attachPassword`, with the password the profile was unlocked with and the account key. -/
def attachPassword (server : AccountServer) (device : LinkedProfile) (password accountKey : Text)
    (random : ConnectRandom) (answers : ConnectAnswers) :
    (AccountServer × LinkedProfile) × ConnectResult :=
  let opaquePassword := deriveOpaquePassword K password device.email
  match finishPendingReset C K J server device accountKey opaquePassword random answers with
  | (parties, .error _) => (parties, .unreachable)
  | ((server, device), .ok ()) =>
    let (device, result) := attach K server device opaquePassword answers
    ((server, device), result)

end Connect

/-! ### Resets and connects -/

/-- A password and the key set made for it. -/
structure Credentials where
  password : Text
  userKeys : UserKeys
  deriving DecidableEq, Repr

/-- The two parties, and what was chosen last: at the last reset, or before all of them. -/
structure RecoveryState where
  server : AccountServer
  device : LinkedProfile
  last : Credentials

/-- A step of the device. -/
inductive RecoveryOp
  | reset (recoveryKey newPassword : Text) (random : ResetRandom)
  | connect (password : Text) (random : ConnectRandom) (answers : ConnectAnswers)
  deriving DecidableEq, Repr

section Runs

variable (C : Ciphers Text) (K : KeyDerivation) (J : PendingJson)

/-- What a step does; a reset that fails changes nothing, and only an unlocked profile connects. -/
def RecoveryOp.run (s : RecoveryState) : RecoveryOp → Option RecoveryState
  | .reset recoveryKey newPassword random =>
    match recoverOnDevice C K J s.device recoveryKey newPassword random with
    | .error _ => some s
    | .ok recovered =>
      some { s with
        device := s.device.setLinkedRecovery recovered
        last := ⟨newPassword, recovered.serverRecovery.userKeys⟩ }
  | .connect password random answers =>
    (openPasswordWrap C K password s.device.material.toPasswordKeys).map fun accountKey =>
      let (parties, _) := attachPassword C K J s.server s.device password accountKey random answers
      { s with server := parties.1, device := parties.2 }

/-- A step of any sequence of resets and connects. -/
def RecoveryStep (s s' : RecoveryState) : Prop := ∃ op : RecoveryOp, op.run C K J s = some s'

end Runs

end Passmgr
