/-
# The wire format and the limits of a push

The types a device and the server exchange (`packages/schema`): vault roles, the encrypted record
versions, the changes of `record.push` and the answer to each of them.

Ids are UUIDs.  They are only compared for equality and, where vaults are locked or read in id
order, sorted, so an id is the number its hexadecimal digits write: the order of two lower case
UUID strings is the order of these numbers.  A text whose characters are never looked at (a base64
ciphertext, a nonce) is the list of its characters, and a time is a number of milliseconds.

Main definitions:

* `VaultRole`, `canWriteVault`, `canManageVault`, `canAssignRole` — the roles and what each may do;
* `Ciphertext`, `EncryptedRecord` — a record version as the devices see it;
* `PushChange`, `PushResult`, `Rejection` — a change of a push and its answer;
* `pushChangeBytes` — the size a version counts against the batch limit and the storage quota.
-/

import Mathlib.Data.List.Basic
import Mathlib.Data.Nat.Basic

set_option relaxedAutoImplicit false
set_option autoImplicit false

namespace Passmgr

/-! ### Ids, texts and times -/

abbrev RecordId := ℕ
abbrev VaultId := ℕ
abbrev UserId := ℕ
/-- The `clientChangeId` of a change: the `changeId` of its outbox entry. -/
abbrev ChangeId := ℕ
/-- A text that is stored and compared, never parsed. -/
abbrev Text := List Char
/-- Milliseconds since the epoch. -/
abbrev Time := ℕ

instance instLawfulBEqText : LawfulBEq Text := inferInstance

/-! ### Roles -/

/-- `vaultKindSchema`: `personal` is the default vault every account has exactly one of. -/
inductive VaultKind
  | personal
  | shared
  deriving DecidableEq, Repr

/-- `vaultRoleSchema`: `owner` > `manage` > `write` > `read`. -/
inductive VaultRole
  | owner
  | manage
  | write
  | read
  deriving DecidableEq, Repr

/-- `ANY_ROLE`. -/
def anyRole : List VaultRole := [.owner, .manage, .write, .read]

/-- `VAULT_WRITE_ROLES`. -/
def vaultWriteRoles : List VaultRole := [.owner, .manage, .write]

/-- `VAULT_MANAGE_ROLES`. -/
def vaultManageRoles : List VaultRole := [.owner, .manage]

/-- Whether a member with this role may write records into the vault. -/
def canWriteVault (role : VaultRole) : Bool := role ∈ vaultWriteRoles

/-- Whether a member with role `actor` may give `role` to someone, or change the role of (or
remove) a member who has `role`. -/
def canAssignRole (actor role : VaultRole) : Bool :=
  match actor with
  | .owner => true
  | .manage => role ≠ .owner
  | _ => false

/-! ### Record versions -/

/-- `tombstoneKindSchema`: why a record is gone without being in the trash. -/
inductive TombstoneKind
  | moved
  | purged
  deriving DecidableEq, Repr

/-- The encrypted content of a version and the keys it is under. -/
structure Ciphertext where
  encryptedData : Text
  encryptionNonce : Text
  cryptoVersion : ℕ
  keyVersion : ℕ
  deriving DecidableEq, Repr

/-- `encryptedRecordSchema`: a record version as the server sends it and a device stores it. -/
structure EncryptedRecord where
  recordId : RecordId
  vaultId : VaultId
  content : Ciphertext
  version : ℕ
  clientUpdatedAt : Time
  createdAt : Option Time
  updatedAt : Option Time
  deletedAt : Option Time
  tombstoneKind : Option TombstoneKind
  deriving DecidableEq, Repr

/-- `PURGED_CONTENT` under the keys of the version below: a purged tombstone keeps nothing. -/
def Ciphertext.purged (c : Ciphertext) : Ciphertext :=
  { c with encryptedData := [], encryptionNonce := [] }

@[simp] theorem Ciphertext.purged_encryptedData (c : Ciphertext) :
    c.purged.encryptedData = [] := rfl

/-! ### Changes and answers -/

/-- What a change does: `put` writes a ciphertext, `delete` a tombstone. -/
inductive PushOp
  | put (content : Ciphertext)
  | delete (tombstoneKind : Option TombstoneKind)
  deriving DecidableEq, Repr

def PushOp.isPut : PushOp → Bool
  | .put _ => true
  | .delete _ => false

/-- `pushChangeSchema`: one local change, a compare-and-swap on `baseVersion`. -/
structure PushChange where
  clientChangeId : ChangeId
  recordId : RecordId
  vaultId : VaultId
  baseVersion : ℕ
  clientUpdatedAt : Time
  op : PushOp
  deriving DecidableEq, Repr

/-- Why a change can't apply as sent. -/
inductive Rejection
  | notFound
  | forbidden
  | keyVersion
  | quota
  deriving DecidableEq, Repr

/-- `pushResultSchema`: the answer for one change. -/
inductive PushResult
  | applied (clientChangeId : ChangeId) (record : EncryptedRecord)
  | stale (clientChangeId : ChangeId) (headVersion : ℕ)
  | rejected (clientChangeId : ChangeId) (reason : Rejection)
  deriving DecidableEq, Repr

def PushResult.clientChangeId : PushResult → ChangeId
  | .applied c _ => c
  | .stale c _ => c
  | .rejected c _ => c

/-! ### Limits -/

/-- `MAX_PUSH_CHANGES`. -/
def maxPushChanges : ℕ := 500

/-- `MAX_PUSH_BYTES`. -/
def maxPushBytes : ℕ := 768 * 1024

/-- `RECORD_VERSION_OVERHEAD_BYTES`. -/
def recordVersionOverheadBytes : ℕ := 256

/-- `pushChangeBytes` of a version holding this ciphertext. -/
def pushChangeBytes (c : Ciphertext) : ℕ := c.encryptedData.length + recordVersionOverheadBytes

/-- `pushChangeBytes` of a change: a delete carries no ciphertext. -/
def PushChange.bytes (change : PushChange) : ℕ :=
  match change.op with
  | .put content => pushChangeBytes content
  | .delete _ => recordVersionOverheadBytes

/-- `pushInputSchema`: a batch is not empty, not too long, and names no change twice. -/
def PushInput (changes : List PushChange) : Prop :=
  changes ≠ [] ∧ changes.length ≤ maxPushChanges ∧ (changes.map (·.clientChangeId)).Nodup

instance (changes : List PushChange) : Decidable (PushInput changes) :=
  inferInstanceAs (Decidable (_ ∧ _ ∧ _))

end Passmgr
