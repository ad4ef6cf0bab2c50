/-
# What a pull asks a device to do for sharing

`packages/client/src/vaults/sharing.ts`: a pull hands the device the newer keys sealed to it and the
vaults whose key is to be rotated.  The server is whoever answers the requests, `SharingServer`: it
gives any answer to each, depending on how many came before.  An error thrown by a request or by
the store ends a task, not the run, unless the connection is lost.

Main definitions:

* `SharingDevice` — what the tasks read and write on the device;
* `checkPeerKey`, `trustedSender` — whether a key is the pinned one, whether a sender may hand out
  keys;
* `acceptUpdate`, `acceptUpdates` — the loop over the newer keys;
* `rotateVault`, `runRotations` — the loop over the rotations;
* `runSharingTasks` — both.

The run keeps a list of the wraps it sent, `SharingRun.accepts`, that the source does not.
-/

import Passmgr.SecretsStore
import Passmgr.VaultLoss

set_option relaxedAutoImplicit false
set_option autoImplicit false

namespace Passmgr

open IdealCipher (Ciphers)
open SecretsStore (KeyRecipient RotatedVault)

/-! ### Answers and errors -/

/-- `vaultMemberSchema`: a vault's member, or invitee, as the server lists them. -/
structure ListedMember where
  userId : UserId
  role : VaultRole
  status : MemberStatus
  publicKey : UserPublicKey
  deriving DecidableEq, Repr

/-- How a request fails, as far as `trpc-errors.ts` tells the errors apart. -/
inductive RequestError
  /-- It didn't get through: no answer of the server. -/
  | notAnswered
  | unauthorized
  | conflict
  | preconditionFailed
  /-- SERVICE_UNAVAILABLE: the server can't take the request right now. -/
  | retryLater
  | serverError
  /-- Any other answer that refuses the call. -/
  | refused
  deriving DecidableEq, Repr

/-- Why a task fails. -/
inductive TaskError
  | request (error : RequestError)
  | secrets (error : SecretsError)
  | peerKeyChanged (userId : UserId)
  | untrustedKeySender
  | vaultMembersChanged
  | vaultKeyRotatedElsewhere
  | noVault (vaultId : VaultId)
  | notLinked
  deriving DecidableEq, Repr

/-- `isRequestFailure`: about the connection, not the task. -/
def isRequestFailure : TaskError → Bool
  | .request .notAnswered => true
  | .request .unauthorized => true
  | _ => false

/-- `isConflict`. -/
def isConflict : TaskError → Bool
  | .request .conflict => true
  | _ => false

/-- Whether the server refused a request: it answered, it did not fail on its side, and it could
take the request. -/
def RequestError.isRefusal : RequestError → Bool
  | .notAnswered | .serverError | .retryLater => false
  | _ => true

/-- The input of `vault.rotateKey` as the client sends it. -/
structure RotateKeyRequest where
  rotated : NewVaultKey
  previousKey : VaultKeyLink
  senderKeyVersion : ℕ
  memberKeys : List MemberKeySeal

/-- Whoever answers the requests of a run, the `n`-th with what it says for `n`. -/
structure SharingServer where
  members : ℕ → VaultId → Except RequestError (List ListedMember)
  acceptKey : ℕ → VaultKeyWrap → Except RequestError Unit
  rotateKey : ℕ → RotateKeyRequest → Except RequestError Unit

/-- The random values of a run, by the number of requests before. -/
structure SharingRandom where
  nonce : ℕ → Text
  key : ℕ → KeyRandom
  box : ℕ → ℕ → BoxRandom

/-! ### The device -/

/-- What the tasks read and write on the device.  `peerKeys` is what is stored of a user's key,
`rekeyTargets` the rotations whose records are still to be re-encrypted, `failedTasks` the tasks
that failed in this session. -/
structure SharingDevice where
  secrets : SecretsStore
  db : LocalDb
  ownUserId : Option UserId
  peerKeys : UserId → Option UserPublicKey
  peersRemoved : VaultId → UserId → Bool
  rekeyTargets : VaultId → Option ℕ
  failedTasks : List Text

/-- Whether a character is one of base64. -/
def isBase64Char (c : Char) : Bool := c.isAlphanum || c = '+' || c = '/'

/-- `z.base64().length(44)`: the base64 of 32 bytes. -/
def isPublicKeyText (text : Text) : Bool :=
  text.length = 44 && (text.take 42).all isBase64Char &&
    match text.drop 42 with
    | [c, d] => (isBase64Char c && (isBase64Char d || d = '=')) || (c = '=' && d = '=')
    | _ => false

/-- `userPublicKeySchema`. -/
def UserPublicKey.valid (key : UserPublicKey) : Bool :=
  0 < key.keyVersion && isPublicKeyText key.publicKey

namespace SharingDevice

variable (device : SharingDevice)

/-- `getPeerKey`: what is stored of a user's key, unless it is none. -/
def getPeerKey (userId : UserId) : Option UserPublicKey :=
  (device.peerKeys userId).filter (·.valid)

/-- `pinPeerKey`. -/
def pinPeerKey (userId : UserId) (key : UserPublicKey) : SharingDevice :=
  { device with peerKeys := Function.update device.peerKeys userId (some key) }

/-- `checkPeerKey`: refuse a key that differs from the one pinned for the user; pin it when none
is. -/
def checkPeerKey (userId : UserId) (key : UserPublicKey) : Except TaskError SharingDevice :=
  match device.getPeerKey userId with
  | none => .ok (device.pinPeerKey userId key)
  | some pinned =>
    if pinned.publicKey ≠ key.publicKey || pinned.keyVersion ≠ key.keyVersion then
      .error (.peerKeyChanged userId)
    else .ok device

/-- `setRekeyTarget`. -/
def setRekeyTarget (vaultId : VaultId) (keyVersion : ℕ) : SharingDevice :=
  { device with rekeyTargets := Function.update device.rekeyTargets vaultId (some keyVersion) }

/-- `clearRekeyTarget`: a later rotation started meanwhile stays. -/
def clearRekeyTarget (vaultId : VaultId) (keyVersion : ℕ) : SharingDevice :=
  if device.rekeyTargets vaultId = some keyVersion then
    { device with rekeyTargets := Function.update device.rekeyTargets vaultId none }
  else device

/-- `saveVault`. -/
def saveVault (vault : MemberVault) : SharingDevice :=
  { device with db := upsertVault vault device.db }

/-- `failed.add`. -/
def fail (task : Text) : SharingDevice :=
  { device with failedTasks := task :: device.failedTasks }

/-- `reloadVaultKeys` of the vaults in the database: keys that don't load leave the ones loaded
before. -/
def reloadVaultKeys (C : Ciphers Text) : SharingDevice :=
  if device.secrets.accountKey.isSome && device.secrets.personalVaultId.isSome then
    match device.secrets.loadVaultKeys C device.db.vaults with
    | .ok (secrets, _) => { device with secrets := secrets }
    | .error _ => device
  else device

end SharingDevice

/-! ### A run -/

/-- A wrap sent with `vault.acceptKey`: the update it was made for, and the keys that were pinned
by then. -/
structure AcceptedKey where
  update : VaultKeyUpdate
  wrap : VaultKeyWrap
  peerKeys : UserId → Option UserPublicKey

/-- A run under way: the device, the member lists fetched so far, how many requests were made,
whether anything changed on the server, and the wraps sent. -/
structure SharingRun where
  device : SharingDevice
  members : VaultId → Option (List ListedMember)
  requests : ℕ
  changed : Bool
  accepts : List AcceptedKey

/-- A run about to start. -/
def SharingRun.start (device : SharingDevice) : SharingRun where
  device := device
  members _ := none
  requests := 0
  changed := false
  accepts := []

section Functions

variable (C : Ciphers Text) (J : MetaJson) (server : SharingServer) (random : SharingRandom)

/-! ### Newer keys -/

/-- Whether a listed member may hand out the vault's keys under the sender's public key. -/
def mayHandOut (sender : VaultKeySender) (member : ListedMember) : Bool :=
  member.status = .active && member.role ∈ vaultManageRoles &&
    member.publicKey.publicKey = sender.publicKey.publicKey &&
    member.publicKey.keyVersion = sender.publicKey.keyVersion

/-- Whether the sender is listed and may hand out the vault's keys. -/
def listedAsManager (sender : VaultKeySender) (listed : List ListedMember) : Bool :=
  (listed.find? (·.userId = sender.userId)).any (mayHandOut sender)

/-- `trustedSender`: whether the sender of an update may hand out the vault's keys.  The list of
members is fetched once a run. -/
def trustedSender (run : SharingRun) (update : VaultKeyUpdate) :
    SharingRun × Except TaskError Bool :=
  if run.device.peersRemoved update.vaultId update.sender.userId then (run, .ok false)
  else
    match run.members update.vaultId with
    | some listed => (run, .ok (listedAsManager update.sender listed))
    | none =>
      match server.members run.requests update.vaultId with
      | .error e => ({ run with requests := run.requests + 1 }, .error (.request e))
      | .ok listed =>
        ({ run with
            requests := run.requests + 1
            members := Function.update run.members update.vaultId (some listed) },
         .ok (listedAsManager update.sender listed))

/-- The end of a task on a newer key: its wrap is opened and sent. -/
def sendWrap (run : SharingRun) (update : VaultKeyUpdate) : SharingRun × Except TaskError Unit :=
  match run.device.secrets.openKeyUpdate C (random.nonce run.requests) update with
  | .error e => (run, .error (.secrets e))
  | .ok wrap =>
    let sent := { run with
      requests := run.requests + 1
      accepts := run.accepts ++ [⟨update, wrap, run.device.peerKeys⟩] }
    match server.acceptKey run.requests wrap with
    | .error e => (sent, .error (.request e))
    | .ok () => ({ sent with changed := true }, .ok ())

/-- One task of the first loop. -/
def acceptUpdate (run : SharingRun) (update : VaultKeyUpdate) :
    SharingRun × Except TaskError Unit :=
  match trustedSender server run update with
  | (run, .error e) => (run, .error e)
  | (run, .ok false) => (run, .error .untrustedKeySender)
  | (run, .ok true) =>
    match run.device.checkPeerKey update.sender.userId update.sender.publicKey with
    | .error e => (run, .error e)
    | .ok device => sendWrap C server random { run with device := device } update

/-- The name a failed task is kept under, `vaultId/keyVersion`. -/
def taskName (vaultId : VaultId) (keyVersion : ℕ) : Text :=
  slashed [uuidText vaultId, versionText keyVersion]

/-- The first loop of `runSharingTasks`. -/
def acceptUpdates : List VaultKeyUpdate → SharingRun → SharingRun × Except TaskError Unit
  | [], run => (run, .ok ())
  | update :: rest, run =>
    let task := taskName update.vaultId update.keyVersion
    if task ∈ run.device.failedTasks then acceptUpdates rest run
    else
      match acceptUpdate C server random run update with
      | (run, .ok ()) => acceptUpdates rest run
      | (run, .error e) =>
        if isRequestFailure e then (run, .error e)
        -- Resealed meanwhile: the next pull brings the newer key.
        else if isConflict e then acceptUpdates rest { run with changed := true }
        else acceptUpdates rest { run with device := run.device.fail task }

/-! ### Rotations -/

/-- The loop of `otherMembers`: every listed key checked against its pin. -/
def checkPeerKeys : List ListedMember → SharingDevice → SharingDevice × Except TaskError Unit
  | [], device => (device, .ok ())
  | member :: rest, device =>
    match device.checkPeerKey member.userId member.publicKey with
    | .error e => (device, .error e)
    | .ok device => checkPeerKeys rest device

/-- `otherMembers`: every other member and invitee with their public key. -/
def otherMembers (run : SharingRun) (vaultId : VaultId) :
    SharingRun × Except TaskError (List KeyRecipient) :=
  match run.device.ownUserId with
  | none => (run, .error .notLinked)
  | some self =>
    let asked := { run with requests := run.requests + 1 }
    match server.members run.requests vaultId with
    | .error e => (asked, .error (.request e))
    | .ok listed =>
      let others := listed.filter (·.userId ≠ self)
      match checkPeerKeys others run.device with
      | (device, .error e) => ({ asked with device := device }, .error e)
      | (device, .ok ()) =>
        ({ asked with device := device }, .ok (others.map fun m => ⟨m.userId, m.publicKey⟩))

/-- A vault as rotated. -/
def MemberVault.rotatedTo (vault : MemberVault) (rotated : RotatedVault) : MemberVault :=
  { vault with
    keyVersion := rotated.rotated.wrap.keyVersion
    wrap := rotated.rotated.wrap.wrap
    encryptedMeta := rotated.rotated.encrypted.encryptedMeta
    metaEncryptionNonce := rotated.rotated.encrypted.metaEncryptionNonce
    previousKeys := vault.previousKeys ++ [rotated.previousKey] }

/-- The `catch` around `vault.rotateKey`: a rotation that was refused, not just unanswered, is
taken off the list of the re-encryptions. -/
def SharingRun.refuse (run : SharingRun) (vaultId : VaultId) (keyVersion : ℕ) (e : RequestError) :
    SharingRun :=
  if e.isRefusal then
    { run with device := run.device.clearRekeyTarget vaultId keyVersion }
  else run

/-- The loop of `rotateVault` with `retries` attempts left after this one: a member list that
moved on meanwhile is fetched again once. -/
def rotateAttempts (vault : MemberVault) : ℕ → SharingRun → SharingRun × Except TaskError Unit
  | retries, run =>
    match otherMembers server run vault.vaultId with
    | (run, .error e) => (run, .error e)
    | (run, .ok others) =>
      match run.device.secrets.rotateVaultKey C J (random.key run.requests)
          (random.box run.requests) vault.vaultId ⟨vault.encryptedMeta, vault.metaEncryptionNonce⟩
          others with
      | .error e => (run, .error (.secrets e))
      | .ok rotated =>
        let next := vault.rotatedTo rotated
        let run :=
          { run with device := run.device.setRekeyTarget vault.vaultId next.keyVersion }
        match run.device.secrets.userKeyPairVersion with
        | none => (run, .error (.secrets .locked))
        | some senderKeyVersion =>
          let asked := { run with requests := run.requests + 1 }
          match server.rotateKey run.requests
              ⟨rotated.rotated, rotated.previousKey, senderKeyVersion, rotated.memberKeys⟩ with
          | .ok () => ({ asked with device := asked.device.saveVault next }, .ok ())
          | .error e =>
            let refused := asked.refuse vault.vaultId next.keyVersion e
            match e, retries with
            | .preconditionFailed, retries + 1 => rotateAttempts vault retries refused
            | .preconditionFailed, 0 => (refused, .error .vaultMembersChanged)
            | .conflict, _ => (refused, .error .vaultKeyRotatedElsewhere)
            | e, _ => (refused, .error (.request e))

/-- `rotateVault`, for a linked profile. -/
def rotateVault (run : SharingRun) (vaultId : VaultId) : SharingRun × Except TaskError Unit :=
  match run.device.db.vaults.find? (·.vaultId = vaultId) with
  | none => (run, .error (.noVault vaultId))
  | some vault => rotateAttempts C J server random vault 1 run

/-- The second loop of `runSharingTasks`, over the vaults as listed before it. -/
def runRotations (vaults : List MemberVault) :
    List VaultId → SharingRun → SharingRun × Except TaskError Unit
  | [], run => (run, .ok ())
  | vaultId :: rest, run =>
    match vaults.find? (·.vaultId = vaultId) with
    | none => runRotations vaults rest run
    | some vault =>
      let task := taskName vaultId vault.keyVersion
      if task ∈ run.device.failedTasks then runRotations vaults rest run
      else
        match rotateVault C J server random run vaultId with
        | (run, .ok ()) =>
          runRotations vaults rest
            { run with device := run.device.reloadVaultKeys C, changed := true }
        -- Another manager rotated first: nothing left to do.
        | (run, .error .vaultKeyRotatedElsewhere) =>
          runRotations vaults rest { run with changed := true }
        | (run, .error e) =>
          if isRequestFailure e then (run, .error e)
          else runRotations vaults rest { run with device := run.device.fail task }

/-- `SharingTasks`: what a pull hands the client to do for sharing. -/
structure SharingTasks where
  keyUpdates : List VaultKeyUpdate
  rotationsDue : List VaultId

/-- `runSharingTasks`: the run as it ended, and the error that ended it if the connection was
lost. -/
def runSharingTasks (device : SharingDevice) (tasks : SharingTasks) :
    SharingRun × Except TaskError Unit :=
  match acceptUpdates C server random tasks.keyUpdates (SharingRun.start device) with
  | (run, .error e) => (run, .error e)
  | (run, .ok ()) => runRotations C J server random run.device.db.vaults tasks.rotationsDue run

end Functions

end Passmgr
