/-
# The server's tables and who may touch a vault

The rows of `packages/db` and the queries of `apps/server/src/vault/access.ts` and
`apps/server/src/record/quota.ts` that reads and writes of records rest on.  A table is the list of
its rows; a query that needs one row takes the first match, of which the unique indexes leave one.

Main definitions:

* `RecordRow`, `VaultRow`, `VaultMember`, … and `Db` — the tables;
* `Db.requireVaultRole`, `Db.memberVaults` — access is an active membership of a live vault;
* `takeVaultSeqs` — the next seqs of a vault, taken with the bytes of the rows they are for;
* `storageBudgets` — the bytes every vault owner may still add.
-/

import Mathlib.Algebra.GroupWithZero.Nat
import Mathlib.Algebra.Ring.Int.Defs
import Mathlib.Data.List.Sort
import Passmgr.Schema

set_option relaxedAutoImplicit false
set_option autoImplicit false

namespace Passmgr

/-! ### Rows -/

/-- `recordsTable`: one version of a record. -/
structure RecordRow where
  recordId : RecordId
  vaultId : VaultId
  userId : Option UserId
  content : Ciphertext
  version : ℕ
  clientUpdatedAt : Time
  seq : ℕ
  clientChangeId : ChangeId
  tombstoneKind : Option TombstoneKind
  createdAt : Time
  updatedAt : Time
  deletedAt : Option Time
  deriving DecidableEq, Repr

/-- `vaultsTable`. -/
structure VaultRow where
  vaultId : VaultId
  ownerId : UserId
  kind : VaultKind
  keyVersion : ℕ
  lastSeq : ℕ
  usedBytes : ℤ
  keyRotationNeeded : Bool
  encryptedMeta : Text
  metaEncryptionNonce : Text
  deletedAt : Option Time
  deriving DecidableEq, Repr

/-- Only `active` members get access; `pending` is an invite not yet accepted. -/
inductive MemberStatus
  | active
  | pending
  deriving DecidableEq, Repr

/-- A vault key wrapped under another key. -/
structure WrappedKey where
  encryptedVaultKey : Text
  vaultKeyEncryptionNonce : Text
  deriving DecidableEq, Repr

/-- A vault key sealed to a member's keypair by the sender's. -/
structure SealedKey where
  sealedVaultKey : Text
  sealedKeyVersion : ℕ
  sealedToKeyVersion : ℕ
  sealedByUserId : Option UserId
  sealedByKeyVersion : ℕ
  deriving DecidableEq, Repr

/-- `vaultMembersTable`: a user's access to a vault, or an invite to it. -/
structure VaultMember where
  vaultId : VaultId
  userId : UserId
  role : VaultRole
  status : MemberStatus
  keyVersion : ℕ
  wrap : Option WrappedKey
  sealedKey : Option SealedKey
  deriving DecidableEq, Repr

/-- `vaultKeyLinksTable`: key `keyVersion` wrapped under key `keyVersion + 1`. -/
structure VaultKeyLink where
  vaultId : VaultId
  keyVersion : ℕ
  wrap : WrappedKey
  deriving DecidableEq, Repr

/-- `userKeyPairsTable`. -/
structure UserKeyPair where
  userId : UserId
  keyVersion : ℕ
  publicKey : Text
  deriving DecidableEq, Repr

/-- `usersTable`. -/
structure UserRow where
  userId : UserId
  emailHash : Text
  emailVerifiedAt : Option Time
  deletedAt : Option Time
  deriving DecidableEq, Repr

structure Db where
  users : List UserRow
  userKeyPairs : List UserKeyPair
  vaults : List VaultRow
  vaultMembers : List VaultMember
  vaultKeyLinks : List VaultKeyLink
  records : List RecordRow
  deriving DecidableEq, Repr

/-- What a stored version weighs: its ciphertext and a flat rate for the row. -/
def RecordRow.bytes (row : RecordRow) : ℕ := pushChangeBytes row.content

def RecordRow.isPurged (row : RecordRow) : Bool := row.tombstoneKind = some .purged

/-- `serializeRecord`: a stored version as the client sees it. -/
def serializeRecord (row : RecordRow) : EncryptedRecord where
  recordId := row.recordId
  vaultId := row.vaultId
  content := row.content
  version := row.version
  clientUpdatedAt := row.clientUpdatedAt
  createdAt := some row.createdAt
  updatedAt := some row.updatedAt
  deletedAt := row.deletedAt
  tombstoneKind := row.tombstoneKind

@[simp] theorem serializeRecord_recordId (row : RecordRow) :
    (serializeRecord row).recordId = row.recordId := rfl

@[simp] theorem serializeRecord_vaultId (row : RecordRow) :
    (serializeRecord row).vaultId = row.vaultId := rfl

@[simp] theorem serializeRecord_version (row : RecordRow) :
    (serializeRecord row).version = row.version := rfl

@[simp] theorem serializeRecord_content (row : RecordRow) :
    (serializeRecord row).content = row.content := rfl

@[simp] theorem serializeRecord_tombstoneKind (row : RecordRow) :
    (serializeRecord row).tombstoneKind = row.tombstoneKind := rfl

/-- The row of a vault that is created: at its first key, and empty. -/
def newVault (vaultId : VaultId) (ownerId : UserId) (kind : VaultKind)
    (encryptedMeta metaEncryptionNonce : Text) : VaultRow where
  vaultId := vaultId
  ownerId := ownerId
  kind := kind
  keyVersion := 1
  lastSeq := 0
  usedBytes := 0
  keyRotationNeeded := false
  encryptedMeta := encryptedMeta
  metaEncryptionNonce := metaEncryptionNonce
  deletedAt := none

/-- The membership of whoever creates a vault. -/
def ownerMembership (vaultId : VaultId) (userId : UserId) (keyVersion : ℕ) (wrap : WrappedKey) :
    VaultMember where
  vaultId := vaultId
  userId := userId
  role := .owner
  status := .active
  keyVersion := keyVersion
  wrap := some wrap
  sealedKey := none

/-! ### Vaults and their members -/

namespace Db

variable (db : Db)

/-- The row of a vault. -/
def vault? (vaultId : VaultId) : Option VaultRow := db.vaults.find? (·.vaultId = vaultId)

/-- The versions of a record, in the order they were inserted. -/
def rowsOf (recordId : RecordId) : List RecordRow := db.records.filter (·.recordId = recordId)

/-- The versions a vault holds, in the order they were inserted. -/
def rowsIn (vaultId : VaultId) : List RecordRow := db.records.filter (·.vaultId = vaultId)

/-- Whether the vault a membership row is of exists and is not deleted. -/
def isLive (vaultId : VaultId) : Bool :=
  db.vaults.any fun vault => vault.vaultId = vaultId && vault.deletedAt.isNone

/-- `activeMembership`: access is via an active membership of a live vault. -/
def activeMembership (userId : UserId) (member : VaultMember) : Bool :=
  member.userId = userId && member.status = .active && db.isLive member.vaultId

/-- The errors of `requireVaultRole`. -/
inductive AccessError
  | notFound
  | forbidden
  deriving DecidableEq, Repr

/-- `requireVaultRole`: the user's role in a vault.  NOT_FOUND when they aren't an active member
(the same answer as for a vault that doesn't exist), FORBIDDEN when their role isn't `allowed`. -/
def requireVaultRole (userId : UserId) (vaultId : VaultId) (allowed : List VaultRole) :
    Except AccessError VaultRole :=
  match db.vaultMembers.find? fun m => m.vaultId = vaultId && db.activeMembership userId m with
  | none => .error .notFound
  | some member => if member.role ∈ allowed then .ok member.role else .error .forbidden

/-- `vaultKeyVersions`: the current key version of each of the vaults. -/
def vaultKeyVersions (vaultIds : List VaultId) (vaultId : VaultId) : Option ℕ :=
  if vaultId ∈ vaultIds then (db.vault? vaultId).map (·.keyVersion) else none

end Db

/-- `memberVaultSchema`: a vault as its member's devices see it. -/
structure MemberVault where
  vaultId : VaultId
  keyVersion : ℕ
  wrap : WrappedKey
  role : VaultRole
  kind : VaultKind
  encryptedMeta : Text
  metaEncryptionNonce : Text
  previousKeys : List VaultKeyLink
  deriving DecidableEq, Repr

/-- `memberVaults`: every vault the user can access, with their wrap of its key, the earlier keys
(oldest first) below the one they hold, and its metadata.  A membership without a wrap is left
out. -/
def Db.memberVaults (db : Db) (userId : UserId) : List MemberVault :=
  (db.vaultMembers.filter (db.activeMembership userId)).filterMap fun member =>
    match db.vault? member.vaultId, member.wrap with
    | some vault, some wrap =>
      some {
        vaultId := member.vaultId
        keyVersion := member.keyVersion
        wrap := wrap
        role := member.role
        kind := vault.kind
        encryptedMeta := vault.encryptedMeta
        metaEncryptionNonce := vault.metaEncryptionNonce
        previousKeys :=
          ((db.vaultKeyLinks.filter (·.vaultId = member.vaultId)).insertionSort
            fun a b => a.keyVersion ≤ b.keyVersion).filter (·.keyVersion < member.keyVersion) }
    | _, _ => none

/-! ### Taking seqs and counting bytes -/

/-- Apply `f` to the row of a vault. -/
def updateVault (vaultId : VaultId) (f : VaultRow → VaultRow) (vaults : List VaultRow) :
    List VaultRow :=
  vaults.map fun vault => if vault.vaultId = vaultId then f vault else vault

/-- `takeVaultSeqs`: take the vault's next `count` seqs for rows of `addedBytes`, and answer the
first of them; `none` (NOT_FOUND) for a vault that does not exist. -/
def takeVaultSeqs (vaults : List VaultRow) (vaultId : VaultId) (count addedBytes : ℕ) :
    Option (List VaultRow × ℕ) :=
  (vaults.find? (·.vaultId = vaultId)).map fun vault =>
    (updateVault vaultId
      (fun v => { v with lastSeq := v.lastSeq + count, usedBytes := v.usedBytes + addedBytes })
      vaults,
     vault.lastSeq + count - count + 1)

/-- The budgets of a push: the owner of each vault, and the bytes an owner may still add.  The
budget of a vault is its owner's, shared by every vault they own. -/
structure StorageBudgets where
  ownerOf : VaultId → Option UserId
  remaining : UserId → Option ℤ

/-- `storageBudgets`: the owner of each of the vaults, and what is left of their quota after the
vaults they own that are not deleted. -/
def storageBudgets (db : Db) (quotaBytes : ℕ) (vaultIds : List VaultId) : StorageBudgets where
  ownerOf vaultId := if vaultId ∈ vaultIds then (db.vault? vaultId).map (·.ownerId) else none
  remaining ownerId :=
    match db.vaults.filter fun v => v.ownerId = ownerId && v.deletedAt.isNone with
    | [] => none
    | owned => some (quotaBytes - (owned.map (·.usedBytes)).sum)

/-- The budget the versions of a vault are taken from. -/
def StorageBudgets.get (budgets : StorageBudgets) (vaultId : VaultId) : Option ℤ :=
  (budgets.ownerOf vaultId).bind budgets.remaining

/-- Take bytes from the budget of a vault's owner. -/
def StorageBudgets.take (budgets : StorageBudgets) (vaultId : VaultId) (bytes : ℕ) :
    StorageBudgets where
  ownerOf := budgets.ownerOf
  remaining ownerId :=
    if budgets.ownerOf vaultId = some ownerId then (budgets.remaining ownerId).map (· - bytes)
    else budgets.remaining ownerId

/-- A user alone with their personal vault, as after the registration. -/
def registeredDb (userId : UserId) (vaultId : VaultId) : Db where
  users := [{ userId := userId, emailHash := [], emailVerifiedAt := some 0, deletedAt := none }]
  userKeyPairs := [{ userId := userId, keyVersion := 1, publicKey := [] }]
  vaults := [newVault vaultId userId .personal [] []]
  vaultMembers := [ownerMembership vaultId userId 1
    { encryptedVaultKey := [], vaultKeyEncryptionNonce := [] }]
  vaultKeyLinks := []
  records := []

end Passmgr
