/-
# Operations on vaults and their members

The operations of `apps/server/src/vault/sharing.ts`, of `vault/router.ts` and of
`user/delete-account.ts` that change who owns a vault, statement by statement, with the row locks
they take.  An error (NOT_FOUND, FORBIDDEN, CONFLICT, …) aborts the transaction.

A row lock is only taken on a row that exists; an insert locks its primary key, as the unique index
makes a second insert of it wait.  The share locks of foreign keys are left out: they only make
transactions wait.

Main definitions:

* `RowLock`, `Txn` — the locks, and transactions over the tables;
* `updateVaultWhere`, `updateMemberWhere`, `deleteMemberRow`, `insertMemberRow` — the writing
  statements;
* `invite`, `acceptKey`, `declineInvite`, `setMemberRole`, `removeMember`, `leave`,
  `transferOwnership`, `rotateKey`, `deleteVault`, `deleteAccount` — the operations;
* `VaultOp` — any of them.
-/

import Passmgr.ReadCommitted
import Passmgr.ServerTables

set_option relaxedAutoImplicit false
set_option autoImplicit false

namespace Passmgr

open ReadCommitted (Prog)

/-- The rows a transaction locks. -/
inductive RowLock
  | vault (vaultId : VaultId)
  | member (vaultId : VaultId) (userId : UserId)
  | user (userId : UserId)
  deriving DecidableEq, Repr

abbrev Txn := Prog Db RowLock

/-! ### Reading -/

namespace Db

variable (db : Db)

/-- The membership row of a user in a vault, any status. -/
def member? (vaultId : VaultId) (userId : UserId) : Option VaultMember :=
  db.vaultMembers.find? fun m => m.vaultId = vaultId && m.userId = userId

/-- What `ownMembership` selects. -/
structure OwnMembership where
  role : VaultRole
  status : MemberStatus
  keyVersion : ℕ
  sealedKeyVersion : Option ℕ
  kind : VaultKind
  vaultKeyVersion : ℕ

/-- `ownMembership`: the caller's membership row of a live vault, any status. -/
def ownMembership (userId : UserId) (vaultId : VaultId) : Option OwnMembership :=
  match db.member? vaultId userId, db.vault? vaultId with
  | some member, some vault =>
    if vault.deletedAt.isNone then
      some {
        role := member.role
        status := member.status
        keyVersion := member.keyVersion
        sealedKeyVersion := member.sealedKey.map (·.sealedKeyVersion)
        kind := vault.kind
        vaultKeyVersion := vault.keyVersion }
    else none
  | _, _ => none

/-- `activeOwners`: how many active owners the vault has. -/
def activeOwners (vaultId : VaultId) : ℕ :=
  (db.vaultMembers.filter fun m =>
    m.vaultId = vaultId && m.role = .owner && m.status = .active).length

/-- `currentKeyPairVersions`, for one user: their current keypair version. -/
def currentKeyPairVersion (userId : UserId) : Option ℕ :=
  ((db.userKeyPairs.filter (·.userId = userId)).map (·.keyVersion)).max?

end Db

/-! ### Writing -/

/-- Change the row of a vault. -/
def Db.setVault (vaultId : VaultId) (f : VaultRow → VaultRow) (db : Db) : Db :=
  { db with vaults := updateVault vaultId f db.vaults }

/-- Change the membership row of a user in a vault. -/
def Db.setMember (vaultId : VaultId) (userId : UserId) (f : VaultMember → VaultMember) (db : Db) :
    Db :=
  { db with
    vaultMembers := db.vaultMembers.map fun m =>
      if m.vaultId = vaultId ∧ m.userId = userId then f m else m }

/-- Delete the membership rows `p` holds of. -/
def Db.deleteMembers (p : VaultMember → Bool) (db : Db) : Db :=
  { db with vaultMembers := db.vaultMembers.filter (!p ·) }

/-- Insert a membership row, unless its key is taken. -/
def Db.insertMember (member : VaultMember) (db : Db) : Db :=
  if (db.member? member.vaultId member.userId).isSome then db
  else { db with vaultMembers := db.vaultMembers ++ [member] }

/-- The lock on the row of a vault. -/
def vaultLock (vaultId : VaultId) (db : Db) : List RowLock :=
  if (db.vault? vaultId).isSome then [.vault vaultId] else []

/-- The lock on a membership row. -/
def memberLock (vaultId : VaultId) (userId : UserId) (db : Db) : List RowLock :=
  if (db.member? vaultId userId).isSome then [.member vaultId userId] else []

/-- `lockVaults` of one vault. -/
def lockVault (vaultId : VaultId) (next : Txn) : Txn := .lock (vaultLock vaultId) next

/-- An update of the row of a vault where `p` holds of it; `next` is told whether it did. -/
def updateVaultWhere (vaultId : VaultId) (p : VaultRow → Bool) (f : VaultRow → VaultRow)
    (next : Bool → Txn) : Txn :=
  .stmt (fun _ => True)
    (fun db => if (db.vault? vaultId).any p then [.vault vaultId] else [])
    (fun db => if (db.vault? vaultId).any p then Db.setVault vaultId f else id)
    fun db => next ((db.vault? vaultId).any p)

/-- An update of a membership row where `p` holds of it; `next` is told whether it did. -/
def updateMemberWhere (vaultId : VaultId) (userId : UserId) (p : VaultMember → Bool)
    (f : VaultMember → VaultMember) (next : Bool → Txn) : Txn :=
  .stmt (fun _ => True)
    (fun db => if (db.member? vaultId userId).any p then [.member vaultId userId] else [])
    (fun db => if (db.member? vaultId userId).any p then Db.setMember vaultId userId f else id)
    fun db => next ((db.member? vaultId userId).any p)

/-- Delete a membership row. -/
def deleteMemberRow (expects : Db → Prop) (vaultId : VaultId) (userId : UserId) (next : Txn) :
    Txn :=
  .stmt expects (memberLock vaultId userId)
    (fun db =>
      if (db.member? vaultId userId).isSome then
        Db.deleteMembers fun m => m.vaultId = vaultId && m.userId = userId
      else id)
    fun _ => next

/-- Insert a membership row; a key that is taken is a unique violation. -/
def insertMemberRow (member : VaultMember) (next : Txn) : Txn :=
  .stmt (fun _ => True) (fun _ => [.member member.vaultId member.userId])
    (fun _ => Db.insertMember member)
    fun db => if (db.member? member.vaultId member.userId).isSome then .abort else next

/-- `requireRotation`: someone who knows the current key lost access. -/
def requireRotation (vaultId : VaultId) (next : Txn) : Txn :=
  updateVaultWhere vaultId (fun _ => true) (fun v => { v with keyRotationNeeded := true })
    fun _ => next

/-- A member is an active owner of the vault. -/
def Db.IsActiveOwner (db : Db) (vaultId : VaultId) (userId : UserId) : Prop :=
  ∃ m, db.member? vaultId userId = some m ∧ m.role = .owner ∧ m.status = .active

/-! ### Sharing -/

/-- `MAX_VAULT_MEMBERS`. -/
def maxVaultMembers : ℕ := 256

/-- `inviteMemberInputSchema`, with the hash of the email. -/
structure InviteInput where
  vaultId : VaultId
  emailHash : Text
  role : VaultRole
  keyVersion : ℕ
  recipientKeyVersion : ℕ
  senderKeyVersion : ℕ
  sealedVaultKey : Text

/-- The row of an invite. -/
def invitedMember (sender : UserId) (invitee : UserId) (input : InviteInput) : VaultMember where
  vaultId := input.vaultId
  userId := invitee
  role := input.role
  status := .pending
  keyVersion := input.keyVersion
  wrap := none
  sealedKey := some {
    sealedVaultKey := input.sealedVaultKey
    sealedKeyVersion := input.keyVersion
    sealedToKeyVersion := input.recipientKeyVersion
    sealedByUserId := some sender
    sealedByKeyVersion := input.senderKeyVersion }

/-- `invite`. -/
def invite (userId : UserId) (input : InviteInput) : Txn :=
  .read fun db =>
    match db.ownMembership userId input.vaultId with
    | none => .abort
    | some own =>
      if own.status ≠ .active then .abort
      else if !canAssignRole own.role .manage || !canAssignRole own.role input.role then .abort
      -- The personal vault is every account's own.
      else if own.kind ≠ .shared then .abort
      else
        -- A rotation waits for this, and this sees the key it left.
        lockVault input.vaultId <| .read fun db =>
          if (db.vault? input.vaultId).map (·.keyVersion) ≠ some input.keyVersion then .abort
          else .read fun db =>
            match db.users.find? fun u =>
                u.emailHash = input.emailHash && u.deletedAt.isNone && u.emailVerifiedAt.isSome with
            | none => .abort
            | some invitee =>
              if invitee.userId = userId then .abort
              else .read fun db =>
                if db.currentKeyPairVersion invitee.userId ≠ some input.recipientKeyVersion ∨
                    db.currentKeyPairVersion userId ≠ some input.senderKeyVersion then .abort
                else .read fun db =>
                  if (db.vaultMembers.filter (·.vaultId = input.vaultId)).length ≥ maxVaultMembers
                  then .abort
                  else insertMemberRow (invitedMember userId invitee.userId input) .commit

/-- The membership with the caller's own wrap of the key sealed to them. -/
def acceptedMember (keyVersion : ℕ) (wrap : WrappedKey) (m : VaultMember) : VaultMember :=
  { m with status := .active, keyVersion := keyVersion, wrap := some wrap, sealedKey := none }

/-- `acceptKey`: accepts an invite or a rotated key. -/
def acceptKey (userId : UserId) (vaultId : VaultId) (keyVersion : ℕ) (wrap : WrappedKey) : Txn :=
  .read fun db =>
    match db.ownMembership userId vaultId with
    | none => .abort
    | some _ =>
      updateMemberWhere vaultId userId
        -- Not this version (resealed meanwhile, or nothing sealed): nothing to accept.
        (fun m => m.sealedKey.map (·.sealedKeyVersion) = some keyVersion)
        (acceptedMember keyVersion wrap)
        fun accepted => if accepted then .commit else .abort

/-- `declineInvite`: expects to delete an invite. -/
def declineInvite (userId : UserId) (vaultId : VaultId) : Txn :=
  .read fun db =>
    match db.ownMembership userId vaultId with
    | none => .abort
    | some own =>
      if own.status ≠ .pending then .abort
      else
        deleteMemberRow
          (fun db => ∀ m, db.member? vaultId userId = some m → m.status = .pending)
          vaultId userId <|
        requireRotation vaultId .commit

/-- `setMemberRole`. -/
def setMemberRole (actorId : UserId) (vaultId : VaultId) (userId : UserId) (role : VaultRole) :
    Txn :=
  .read fun db =>
    match db.requireVaultRole actorId vaultId vaultManageRoles with
    | .error _ => .abort
    | .ok actor =>
      -- Owner changes queue up, so two demotions can't both see another owner left.
      lockVault vaultId <| .read fun db =>
        match db.member? vaultId userId with
        | none => .abort
        | some target =>
          if !canAssignRole actor target.role || !canAssignRole actor role then .abort
          else
            let update : Txn := updateMemberWhere vaultId userId (fun _ => true)
              (fun m => { m with role := role }) fun _ => .commit
            if target.role = .owner ∧ target.status = .active ∧ role ≠ .owner then
              .read fun db => if db.activeOwners vaultId ≤ 1 then .abort else update
            else update

/-- `removeMember`: expects whoever removes an active owner to be one. -/
def removeMember (actorId : UserId) (vaultId : VaultId) (userId : UserId) : Txn :=
  if userId = actorId then .abort
  else .read fun db =>
    match db.requireVaultRole actorId vaultId vaultManageRoles with
    | .error _ => .abort
    | .ok actor =>
      lockVault vaultId <| .read fun db =>
        match db.member? vaultId userId with
        | none => .abort
        | some target =>
          if !canAssignRole actor target.role then .abort
          else
            deleteMemberRow
              (fun db => db.IsActiveOwner vaultId userId → db.IsActiveOwner vaultId actorId)
              vaultId userId <|
            requireRotation vaultId .commit

/-- `leave`: expects an active owner to have been one when it read the role. -/
def leave (userId : UserId) (vaultId : VaultId) : Txn :=
  .read fun db =>
    match db.ownMembership userId vaultId with
    | none => .abort
    | some own =>
      if own.status ≠ .active then .abort
      else if own.kind ≠ .shared then .abort
      else
        lockVault vaultId <|
          let delete : Txn := deleteMemberRow
            (fun db => db.IsActiveOwner vaultId userId → own.role = .owner)
            vaultId userId <|
            requireRotation vaultId .commit
          if own.role = .owner then
            .read fun db => if db.activeOwners vaultId ≤ 1 then .abort else delete
          else delete

/-- `transferOwnership`. -/
def transferOwnership (actorId : UserId) (vaultId : VaultId) (userId : UserId) : Txn :=
  if userId = actorId then .abort
  else .read fun db =>
    match db.ownMembership actorId vaultId with
    | none => .abort
    | some own =>
      if own.status ≠ .active then .abort
      else if own.role ≠ .owner ∨ own.kind ≠ .shared then .abort
      else
        lockVault vaultId <| .read fun db =>
          match db.member? vaultId userId with
          | none => .abort
          | some target =>
            -- An invitee can't own a vault they haven't joined.
            if target.status ≠ .active then .abort
            else
              updateMemberWhere vaultId userId (fun _ => true)
                (fun m => { m with role := .owner }) fun _ =>
              updateMemberWhere vaultId actorId (fun _ => true)
                (fun m => { m with role := .manage }) fun _ =>
              updateVaultWhere vaultId (fun v => v.kind ≠ .personal)
                (fun v => { v with ownerId := userId }) fun _ => .commit

/-! ### Keys and deletion -/

/-- `memberKeySealSchema`. -/
structure MemberKeySeal where
  userId : UserId
  recipientKeyVersion : ℕ
  sealedVaultKey : Text

/-- `rotateVaultKeyInputSchema`. -/
structure RotateKeyInput where
  vaultId : VaultId
  keyVersion : ℕ
  wrap : WrappedKey
  previousKey : VaultKeyLink
  encryptedMeta : Text
  metaEncryptionNonce : Text
  senderKeyVersion : ℕ
  memberKeys : List MemberKeySeal

/-- The seals of a rotation, one after the other.  An active member keeps their wrap of the old key
until they accept the new one; an invitee has only the sealed key, which is now this one. -/
def resealAll (senderId : UserId) (input : RotateKeyInput) : List MemberKeySeal → Txn
  | [] => .commit
  | seal_ :: rest =>
    let sealed : SealedKey := {
      sealedVaultKey := seal_.sealedVaultKey
      sealedKeyVersion := input.keyVersion
      sealedToKeyVersion := seal_.recipientKeyVersion
      sealedByUserId := some senderId
      sealedByKeyVersion := input.senderKeyVersion }
    updateMemberWhere input.vaultId seal_.userId (fun m => m.status = .active)
      (fun m => { m with sealedKey := some sealed }) fun _ =>
    updateMemberWhere input.vaultId seal_.userId (fun m => m.status = .pending)
      (fun m => { m with sealedKey := some sealed, keyVersion := input.keyVersion }) fun _ =>
    resealAll senderId input rest

/-- Whether a rotation seals the key to exactly the other members, each to their current keypair,
from the caller's current one. -/
def sealsMembers (db : Db) (userId : UserId) (others : List UserId) (input : RotateKeyInput) :
    Bool :=
  (input.memberKeys.map (·.userId)).eraseDups.length = others.length &&
    others.all (fun other =>
      match db.currentKeyPairVersion other with
      | none => false
      | some version =>
        (input.memberKeys.find? (·.userId = other)).map (·.recipientKeyVersion) = some version) &&
    db.currentKeyPairVersion userId = some input.senderKeyVersion

/-- `rotateKey`. -/
def rotateKey (userId : UserId) (input : RotateKeyInput) : Txn :=
  .read fun db =>
    match db.requireVaultRole userId input.vaultId vaultManageRoles with
    | .error _ => .abort
    | .ok _ =>
      lockVault input.vaultId <| .read fun db =>
        let members := db.vaultMembers.filter (·.vaultId = input.vaultId)
        -- Its link must wrap the key being replaced, not an older one it still holds.
        if (members.find? (·.userId = userId)).map (·.keyVersion) ≠ some (input.keyVersion - 1) then
          .abort
        else .read fun db =>
          let others := (members.filter (·.userId ≠ userId)).map (·.userId)
          if !sealsMembers db userId others input then .abort
          else
            updateVaultWhere input.vaultId
              -- Deleted after the role check, before the lock: nothing left to rotate.
              (fun v => v.keyVersion = input.keyVersion - 1 && v.deletedAt.isNone)
              (fun v => { v with
                keyVersion := input.keyVersion
                keyRotationNeeded := false
                encryptedMeta := input.encryptedMeta
                metaEncryptionNonce := input.metaEncryptionNonce })
              fun rotated =>
                if !rotated then .abort
                else
                  .write (fun _ => [])
                    (fun _ db => { db with
                      vaultKeyLinks :=
                        db.vaultKeyLinks ++ [{ input.previousKey with vaultId := input.vaultId }] }) <|
                  updateMemberWhere input.vaultId userId (fun _ => true)
                    (fun m => { m with keyVersion := input.keyVersion, wrap := some input.wrap })
                    fun _ => resealAll userId input input.memberKeys

/-- `delete`: a soft delete, by an owner; never the personal vault. -/
def deleteVault (userId : UserId) (vaultId : VaultId) (now : Time) : Txn :=
  .read fun db =>
    match db.requireVaultRole userId vaultId [.owner] with
    | .error _ => .abort
    | .ok _ =>
      updateVaultWhere vaultId (fun v => v.kind = .shared) (fun v => { v with deletedAt := some now })
        fun deleted => if deleted then .commit else .abort

/-! ### Account deletion -/

/-- `lockVaults`: in id order. -/
def lockVaults (vaultIds : List VaultId) (next : Txn) : Txn :=
  (vaultIds.eraseDups.insertionSort (· ≤ ·)).foldr lockVault next

/-- Every vault the user is in (any status) or is recorded as owner of. -/
def candidateVaults (db : Db) (userId : UserId) : List VaultId :=
  (db.vaults.filter fun v => v.ownerId = userId || (db.member? v.vaultId userId).isSome).map
    (·.vaultId)

/-- The shared vaults among the candidates the user is an active member or the recorded owner
of. -/
def sharedVaults (db : Db) (userId : UserId) (candidates activeIn : List VaultId) :
    List VaultRow :=
  db.vaults.filter fun v =>
    v.kind = .shared && v.deletedAt.isNone && v.vaultId ∈ candidates &&
      (v.ownerId = userId || v.vaultId ∈ activeIn)

/-- The active members of some vaults. -/
def activeMembers (db : Db) (shared : List VaultRow) : List VaultMember :=
  db.vaultMembers.filter fun m => m.vaultId ∈ shared.map (·.vaultId) && m.status = .active

/-- Another active owner of the vault. -/
def otherOwner (members : List VaultMember) (userId : UserId) (vaultId : VaultId) :
    Option VaultMember :=
  (members.filter (·.vaultId = vaultId)).find? fun m => m.userId ≠ userId && m.role = .owner

/-- The vaults the user is the only active owner of while others are in them. -/
def soleOwned (shared : List VaultRow) (members : List VaultMember) (userId : UserId) :
    List VaultRow :=
  shared.filter fun vault =>
    let others := members.filter fun m => m.vaultId = vault.vaultId && m.userId ≠ userId
    !others.isEmpty && !others.any (·.role = .owner)

/-- The vaults that are deleted with the account: nobody else active in them. -/
def deletedVaults (shared : List VaultRow) (members : List VaultMember) (userId : UserId) :
    List VaultId :=
  (shared.filter fun v => (otherOwner members userId v.vaultId).isNone).map (·.vaultId)

/-- The loop over the shared vaults: another owner takes over, and the key is to be rotated. -/
def leaveAll (userId : UserId) (members : List VaultMember) : List VaultRow → Txn → Txn
  | [], next => next
  | vault :: rest, next =>
    match otherOwner members userId vault.vaultId with
    | none => leaveAll userId members rest next
    | some other =>
      let rotate : Txn :=
        if members.any fun m => m.vaultId = vault.vaultId && m.userId = userId then
          requireRotation vault.vaultId (leaveAll userId members rest next)
        else leaveAll userId members rest next
      if vault.ownerId = userId then
        updateVaultWhere vault.vaultId (fun _ => true) (fun v => { v with ownerId := other.userId })
          fun _ => rotate
      else rotate

/-- Delete the membership rows with these keys. -/
def Db.deleteMemberKeys (keys : List (VaultId × UserId)) (db : Db) : Db :=
  db.deleteMembers fun m => (m.vaultId, m.userId) ∈ keys

/-- The keys of the membership rows `p` holds of. -/
def Db.memberKeysWhere (p : VaultMember → Bool) (db : Db) : List (VaultId × UserId) :=
  (db.vaultMembers.filter p).map fun m => (m.vaultId, m.userId)

def memberLocks (keys : List (VaultId × UserId)) : List RowLock :=
  keys.map fun key => .member key.1 key.2

/-- Delete the membership rows `p` holds of: the rows are found first, and looked at again once
they are locked. -/
def deleteMembersWhere (p : VaultMember → Bool) (next : Txn) : Txn :=
  .read fun db =>
    let found := db.memberKeysWhere p
    .write
      (fun db => memberLocks (db.memberKeysWhere fun m => p m && (m.vaultId, m.userId) ∈ found))
      (fun db =>
        Db.deleteMemberKeys (db.memberKeysWhere fun m => p m && (m.vaultId, m.userId) ∈ found))
      next

/-- Delete vaults, with their memberships, key links and records. -/
def Db.deleteVaults (vaultIds : List VaultId) (db : Db) : Db :=
  { db with
    vaults := db.vaults.filter (·.vaultId ∉ vaultIds)
    vaultMembers := db.vaultMembers.filter (·.vaultId ∉ vaultIds)
    vaultKeyLinks := db.vaultKeyLinks.filter (·.vaultId ∉ vaultIds)
    records := db.records.filter (·.vaultId ∉ vaultIds) }

/-- The locks a delete of vaults takes: their rows and the rows that go with them. -/
def deleteVaultsLocks (vaultIds : List VaultId) (db : Db) : List RowLock :=
  (db.vaults.filter (·.vaultId ∈ vaultIds)).map (fun v => .vault v.vaultId) ++
    memberLocks (db.memberKeysWhere (·.vaultId ∈ vaultIds))

/-- Delete vaults by id. -/
def deleteVaultRows (vaultIds : List VaultId) (next : Txn) : Txn :=
  .write (deleteVaultsLocks vaultIds) (fun _ => Db.deleteVaults vaultIds) next

/-- The vaults recorded as owned by a user. -/
def Db.vaultsOwnedBy (userId : UserId) (db : Db) : List VaultId :=
  (db.vaults.filter (·.ownerId = userId)).map (·.vaultId)

/-- Delete a user: the memberships, the keypairs and the vaults they own go with the row; where the
row is only referred to, nothing is left of it. -/
def Db.deleteUser (userId : UserId) (ownedVaults : List VaultId)
    (memberships : List (VaultId × UserId)) (db : Db) : Db :=
  let db := (db.deleteVaults ownedVaults).deleteMemberKeys memberships
  { db with
    users := db.users.filter (·.userId ≠ userId)
    userKeyPairs := db.userKeyPairs.filter (·.userId ≠ userId)
    vaultMembers := db.vaultMembers.map fun m =>
      { m with
        sealedKey := m.sealedKey.map fun s =>
          if s.sealedByUserId = some userId then { s with sealedByUserId := none } else s }
    records := db.records.map fun r =>
      if r.userId = some userId then { r with userId := none } else r }

/-- The locks a delete of a user takes: their row, the vaults they own and their memberships. -/
def deleteUserLocks (userId : UserId) (db : Db) : List RowLock :=
  .user userId :: deleteVaultsLocks (db.vaultsOwnedBy userId) db ++
    memberLocks (db.memberKeysWhere (·.userId = userId))

/-- Delete the row of a user with all that refers to it.  `candidates` are the vaults locked
before: it expects every vault the user is active in to be one of them. -/
def deleteUserRow (userId : UserId) (candidates : List VaultId) (next : Txn) : Txn :=
  .stmt
    (fun db => ∀ vaultId m, db.member? vaultId userId = some m → m.status = .active →
      vaultId ∈ candidates)
    (deleteUserLocks userId)
    (fun db =>
      Db.deleteUser userId (db.vaultsOwnedBy userId) (db.memberKeysWhere (·.userId = userId)))
    fun _ => next

/-- `deleteAccount`. -/
def deleteAccount (userId : UserId) : Txn :=
  .stmt (fun _ => True)
    (fun db => if db.users.any (·.userId = userId) then [.user userId] else [])
    (fun _ db => db) fun db =>
  if !db.users.any (·.userId = userId) then .abort
  else .read fun db =>
    let candidates := candidateVaults db userId
    lockVaults candidates <|
    -- The user's membership rows, so no invite is accepted meanwhile.
    .stmt (fun _ => True) (fun db => memberLocks (db.memberKeysWhere (·.userId = userId)))
      (fun _ db => db) fun db =>
    let activeIn := (db.vaultMembers.filter fun m =>
      m.userId = userId && m.status = .active).map (·.vaultId)
    .read fun db =>
      let shared := sharedVaults db userId candidates activeIn
      .read fun db =>
        let members := activeMembers db shared
        if !(soleOwned shared members userId).isEmpty then .abort
        else
          leaveAll userId members shared <|
          -- Invites they sent and nobody accepted: no one could open them any more.
          deleteMembersWhere (fun m =>
            (m.sealedKey.bind (·.sealedByUserId)) = some userId && m.status = .pending) <|
          deleteVaultRows (deletedVaults shared members userId) <|
          deleteUserRow userId candidates .commit

/-- The operations on vaults and members, by any user with any input. -/
inductive VaultOp : Txn → Prop
  | invite (userId : UserId) (input : InviteInput) : VaultOp (invite userId input)
  | acceptKey (userId : UserId) (vaultId : VaultId) (keyVersion : ℕ) (wrap : WrappedKey) :
      VaultOp (acceptKey userId vaultId keyVersion wrap)
  | declineInvite (userId : UserId) (vaultId : VaultId) : VaultOp (declineInvite userId vaultId)
  | setMemberRole (actorId : UserId) (vaultId : VaultId) (userId : UserId) (role : VaultRole) :
      VaultOp (setMemberRole actorId vaultId userId role)
  | removeMember (actorId : UserId) (vaultId : VaultId) (userId : UserId) :
      VaultOp (removeMember actorId vaultId userId)
  | leave (userId : UserId) (vaultId : VaultId) : VaultOp (leave userId vaultId)
  | transferOwnership (actorId : UserId) (vaultId : VaultId) (userId : UserId) :
      VaultOp (transferOwnership actorId vaultId userId)
  | rotateKey (userId : UserId) (input : RotateKeyInput) : VaultOp (rotateKey userId input)
  | deleteVault (userId : UserId) (vaultId : VaultId) (now : Time) :
      VaultOp (deleteVault userId vaultId now)
  | deleteAccount (userId : UserId) : VaultOp (deleteAccount userId)

end Passmgr
