/-
# The tables of a device

The local database of a profile (`packages/store/src/schema`): the record versions with whether the
server has them, the outbox of the changes it does not have yet, the cached vaults, a pull cursor for
each, and what is kept of vaults the user lost.  A table is the list of its rows.

Main definitions:

* `LocalRow`, `OutboxEntry`, `LocalDb` — the rows and the database;
* `getHead`, `upsertRecords` — the newest version of a record, and storing server rows;
* `setSyncCursors`, `replaceVaults`, `sameVaults` — cursors and vaults;
* `keepRevokedChanges`, `dropVaults` — what happens to a vault the user lost.
-/

import Mathlib.Data.List.MinMax
import Passmgr.ServerTables

set_option relaxedAutoImplicit false
set_option autoImplicit false

namespace Passmgr

/-! ### Rows -/

/-- `pending`: written on this device and not acknowledged by the server yet. -/
inductive SyncState
  | synced
  | pending
  deriving DecidableEq, Repr

/-- A record version on the device. -/
structure LocalRow where
  record : EncryptedRecord
  syncState : SyncState
  deriving DecidableEq, Repr

namespace LocalRow

variable (row : LocalRow)

/-- The primary key of the table. -/
def key : RecordId × ℕ := (row.record.recordId, row.record.version)

def isPending : Bool := row.syncState = .pending

def isSynced : Bool := row.syncState = .synced

end LocalRow

/-- A local version waiting to be pushed; it points at its `pending` row. -/
structure OutboxEntry where
  seq : ℕ
  changeId : ChangeId
  recordId : RecordId
  version : ℕ
  attempts : ℕ
  lastError : Option Text
  parkedAt : Option Time
  createdAt : Time
  deriving DecidableEq, Repr

def OutboxEntry.key (entry : OutboxEntry) : RecordId × ℕ := (entry.recordId, entry.version)

/-- The latest unsent version of a record of a vault the user lost. -/
structure RevokedRecord where
  recordId : RecordId
  vaultId : VaultId
  content : Ciphertext
  version : ℕ
  clientUpdatedAt : Time
  deriving DecidableEq, Repr

/-- A vault the user lost, as it was. -/
structure RevokedVault where
  vault : MemberVault
  revokedAt : Time
  deriving DecidableEq, Repr

/-- `local` has no account; `linked` belongs to one. -/
inductive ProfileMode
  | «local»
  | linked
  deriving DecidableEq, Repr

structure LocalDb where
  records : List LocalRow
  outbox : List OutboxEntry
  vaults : List MemberVault
  syncCursors : List (VaultId × ℕ)
  revokedVaults : List RevokedVault
  revokedRecords : List RevokedRecord
  profile : Option ProfileMode
  deriving DecidableEq, Repr

/-- Why a write to the local database fails; the transaction it is in is rolled back. -/
inductive LocalError
  /-- `RecordWriteError`, with its reason. -/
  | recordWrite (recordId : RecordId) (reason : String)
  /-- A row with the same key is there already. -/
  | constraint
  /-- The personal vault can't be removed. -/
  | personalVault
  deriving DecidableEq, Repr

/-- The database of a new profile of an account. -/
def LocalDb.empty : LocalDb where
  records := []
  outbox := []
  vaults := []
  syncCursors := []
  revokedVaults := []
  revokedRecords := []
  profile := some .linked

/-! ### Record versions -/

namespace LocalDb

variable (db : LocalDb)

/-- Every version of a record. -/
def rowsOf (recordId : RecordId) : List LocalRow :=
  db.records.filter (·.record.recordId = recordId)

/-- The version of a record with this number. -/
def row? (recordId : RecordId) (version : ℕ) : Option LocalRow :=
  db.records.find? fun row => row.key = (recordId, version)

/-- The newest of the synced versions of a record. -/
def newestSynced (recordId : RecordId) : Option LocalRow :=
  ((db.rowsOf recordId).filter (·.isSynced)).argmax (·.record.version)

/-- The pending versions, ordered by record and version. -/
def pendingRows : List EncryptedRecord :=
  ((db.records.filter (·.isPending)).map (·.record)).insertionSort fun a b =>
    a.recordId < b.recordId ∨ a.recordId = b.recordId ∧ a.version ≤ b.version

end LocalDb

/-- `getHead`: the newest version of a record, pending or not, deleted or not. -/
def getHead (recordId : RecordId) (db : LocalDb) : Option LocalRow :=
  (db.rowsOf recordId).argmax (·.record.version)

/-- A server-sent row replaces the local copy of the same version. -/
def upsertRecord (db : LocalDb) (row : EncryptedRecord) : LocalDb :=
  { db with
    records := db.records.filter (fun r => r.key ≠ (row.recordId, row.version)) ++
      [{ record := row, syncState := .synced }] }

/-- `upsertRecords`. -/
def upsertRecords (rows : List EncryptedRecord) (db : LocalDb) : LocalDb :=
  rows.foldl upsertRecord db

/-! ### Vaults and cursors -/

/-- `sameVaults`: the same vaults with the same wraps, roles and metadata. -/
def sameVaults (a b : List MemberVault) : Bool :=
  a.length = b.length && b.all fun vault =>
    (a.reverse.find? (·.vaultId = vault.vaultId)) = some vault

/-- `replaceVaults`. -/
def replaceVaults (vaults : List MemberVault) (db : LocalDb) : LocalDb :=
  { db with vaults := vaults }

/-- `deleteVaultRows`. -/
def LocalDb.deleteVaultRows (vaultIds : List VaultId) (db : LocalDb) : LocalDb :=
  { db with vaults := db.vaults.filter (·.vaultId ∉ vaultIds) }

/-- The pull cursor of a vault among some. -/
def cursorOf (cursors : List (VaultId × ℕ)) (vaultId : VaultId) : ℕ :=
  ((cursors.find? (·.1 = vaultId)).map (·.2)).getD 0

/-- `setSyncCursors`. -/
def setSyncCursors (cursors : List (VaultId × ℕ)) (db : LocalDb) : LocalDb :=
  { db with
    syncCursors :=
      db.syncCursors.filter (fun entry => entry.1 ∉ cursors.map (·.1)) ++ cursors }

/-- `deleteSyncCursors`. -/
def deleteSyncCursors (vaultIds : List VaultId) (db : LocalDb) : LocalDb :=
  { db with syncCursors := db.syncCursors.filter (·.1 ∉ vaultIds) }

/-! ### Vaults the user lost -/

/-- The latest version of every record with a version in one of the vaults, if it is pending and
not a delete. -/
def unsentVersions (vaultIds : List VaultId) (db : LocalDb) : List LocalRow :=
  let inVaults := db.records.filter (·.record.vaultId ∈ vaultIds)
  db.records.filter fun row =>
    ((inVaults.filter (·.record.recordId = row.record.recordId)).map (·.record.version)).max? =
        some row.record.version &&
      row.isPending && row.record.deletedAt.isNone

/-- `keepRevokedChanges`: keep what the user wrote in these vaults and the server never got. -/
def keepRevokedChanges (vaults : List MemberVault) (now : Time) (db : LocalDb) : LocalDb :=
  let rows := unsentVersions (vaults.map (·.vaultId)) db
  let kept := vaults.filter (·.vaultId ∈ rows.map (·.record.vaultId))
  { db with
    revokedVaults :=
      db.revokedVaults.filter (·.vault.vaultId ∉ kept.map (·.vaultId)) ++
        kept.map fun vault => { vault := vault, revokedAt := now }
    revokedRecords :=
      db.revokedRecords.filter (·.recordId ∉ rows.map (·.record.recordId)) ++
        rows.map fun row => {
          recordId := row.record.recordId
          vaultId := row.record.vaultId
          content := row.record.content
          version := row.record.version
          clientUpdatedAt := row.record.clientUpdatedAt } }

/-- `deleteRevokedVault`. -/
def deleteRevokedVault (vaultId : VaultId) (db : LocalDb) : LocalDb :=
  { db with
    revokedVaults := db.revokedVaults.filter (·.vault.vaultId ≠ vaultId)
    revokedRecords := db.revokedRecords.filter (·.vaultId ≠ vaultId) }

/-- `deleteVaultChanges`: drop the outbox entries of records in these vaults.  They are found by
their record, through its rows. -/
def deleteVaultChanges (vaultIds : List VaultId) (db : LocalDb) : LocalDb :=
  let inVaults := (db.records.filter (·.record.vaultId ∈ vaultIds)).map (·.record.recordId)
  { db with outbox := db.outbox.filter (·.recordId ∉ inVaults) }

/-- `deleteVaultRecords`. -/
def deleteVaultRecords (vaultIds : List VaultId) (db : LocalDb) : LocalDb :=
  { db with records := db.records.filter (·.record.vaultId ∉ vaultIds) }

/-- `dropVaults`: drop vaults from the device with everything in them.  Changes first: they are
found through the records. -/
def dropVaults (vaultIds : List VaultId) (db : LocalDb) : LocalDb :=
  deleteSyncCursors vaultIds (deleteVaultRecords vaultIds (deleteVaultChanges vaultIds db))

end Passmgr
