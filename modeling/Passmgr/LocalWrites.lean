/-
# Writes on a device

The operations of `packages/store` by which a device writes record versions, and by which it learns
what became of their push (`outbox-schema.ts`, `vault.ts`).  Every write is one transaction: an
error leaves the database as it was.

A change id is a random UUID; here it is an argument, and the unique index on it is checked.

Main definitions:

* `writeLocalChange`, `insertPending`, `purgeRecord` — new pending versions;
* `ackPendingChange`, `failPendingChange`, `parkPendingChange`, `retryParkedChanges` — the answers;
* `writeReencryptedVersions`, `replacePendingCiphertexts` — after a key rotation;
* `removeVault`, `rescueRevokedVault` — leaving a vault, and saving what was unsent in it.
-/

import Passmgr.LocalTables

set_option relaxedAutoImplicit false
set_option autoImplicit false

namespace Passmgr

/-! ### New versions -/

/-- The ciphertext of a new record version, encrypted under its vault's key. -/
structure RecordCiphertext where
  recordId : RecordId
  vaultId : VaultId
  content : Ciphertext
  clientUpdatedAt : Time
  deriving DecidableEq, Repr

/-- One local write. -/
inductive LocalRecordChange
  | create (ciphertext : RecordCiphertext)
  | update (ciphertext : RecordCiphertext)
  | delete (recordId : RecordId) (clientUpdatedAt : Time) (moved : Bool)
  deriving DecidableEq, Repr

def LocalRecordChange.recordId : LocalRecordChange → RecordId
  | .create ciphertext => ciphertext.recordId
  | .update ciphertext => ciphertext.recordId
  | .delete recordId _ _ => recordId

/-- The version a ciphertext becomes; `insertPending` sets the other times. -/
def RecordCiphertext.toRecord (ciphertext : RecordCiphertext) (version : ℕ) : EncryptedRecord where
  recordId := ciphertext.recordId
  vaultId := ciphertext.vaultId
  content := ciphertext.content
  version := version
  clientUpdatedAt := ciphertext.clientUpdatedAt
  createdAt := none
  updatedAt := none
  deletedAt := none
  tombstoneKind := none

/-- The next `seq` of the outbox: one more than the greatest. -/
def nextOutboxSeq (db : LocalDb) : ℕ := (db.outbox.map (·.seq)).foldr max 0 + 1

/-- `insertPending`. -/
def insertPending (row : EncryptedRecord) (now : Time) (changeId : ChangeId) (db : LocalDb) :
    Except LocalError (LocalDb × EncryptedRecord) :=
  let written := { row with createdAt := some now, updatedAt := some now }
  if (db.row? row.recordId row.version).isSome then .error .constraint
  else if changeId ∈ db.outbox.map (·.changeId) then .error .constraint
  else .ok ({ db with
    records := db.records ++ [{ record := written, syncState := .pending }]
    outbox := db.outbox ++ [{
      seq := nextOutboxSeq db
      changeId := changeId
      recordId := row.recordId
      version := row.version
      attempts := 0
      lastError := none
      parkedAt := none
      createdAt := now }] }, written)

/-- `writeLocalChange`: write one change as the record's next version, marked `pending`, and
enqueue it. -/
def writeLocalChange (change : LocalRecordChange) (now : Time) (changeId : ChangeId)
    (db : LocalDb) : Except LocalError (LocalDb × EncryptedRecord) :=
  match change, getHead change.recordId db with
  | .create _, some _ => .error (.recordWrite change.recordId "it already exists")
  | .create ciphertext, none => insertPending (ciphertext.toRecord 1) now changeId db
  | _, none => .error (.recordWrite change.recordId "it doesn't exist")
  | .update ciphertext, some head =>
    -- The ciphertext is bound to its vault: it would never open in another one.
    if head.record.vaultId ≠ ciphertext.vaultId then
      .error (.recordWrite change.recordId "it lives in another vault")
    else insertPending (ciphertext.toRecord (head.record.version + 1)) now changeId db
  | .delete _ clientUpdatedAt moved, some head =>
    if head.record.deletedAt.isSome then .error (.recordWrite change.recordId "already deleted")
    else
      insertPending { head.record with
        clientUpdatedAt := clientUpdatedAt
        version := head.record.version + 1
        deletedAt := some now
        tombstoneKind := if moved then some .moved else none } now changeId db

/-- `writeLocalChanges`: all of them or none. -/
def writeLocalChanges (now : Time) (db : LocalDb) (changes : List (LocalRecordChange × ChangeId)) :
    Except LocalError LocalDb :=
  changes.foldlM (fun db change => do
    let (db, _) ← writeLocalChange change.1 now change.2 db
    pure db) db

/-- `purgeRecord`: every version and unsent change of a record goes.  A record the server may have
gets a `purged` tombstone, on top of the last synced version or of the newest unsent one. -/
def purgeRecord (recordId : RecordId) (clientUpdatedAt now : Time) (changeId : ChangeId)
    (db : LocalDb) : Except LocalError LocalDb :=
  match getHead recordId db with
  | none => .ok db
  | some head =>
    if head.record.tombstoneKind = some .purged then .ok db
    else
      let synced := db.newestSynced recordId
      let cleared := { db with
        outbox := db.outbox.filter (·.recordId ≠ recordId)
        records := db.records.filter (·.record.recordId ≠ recordId) }
      if synced.isNone ∧ db.profile ≠ some .linked then .ok cleared
      else do
        let (db, _) ← insertPending {
          recordId := recordId
          vaultId := head.record.vaultId
          content := head.record.content.purged
          version := (synced.getD head).record.version + 1
          clientUpdatedAt := clientUpdatedAt
          createdAt := none
          updatedAt := none
          deletedAt := some now
          tombstoneKind := some .purged } now changeId cleared
        pure db

/-- `purgeRecords`: refuses a record in a vault the user may not write to. -/
def purgeRecords (now : Time) (db : LocalDb) (records : List (RecordId × ChangeId)) :
    Except LocalError LocalDb :=
  let writable := (db.vaults.filter fun v => canWriteVault v.role).map (·.vaultId)
  records.foldlM (fun db record =>
    if (getHead record.1 db).any (·.record.vaultId ∉ writable) then
      .error (.recordWrite record.1 "its vault is read-only")
    else purgeRecord record.1 now now record.2 db) db

/-! ### Pending changes and their answers -/

/-- A record version waiting for the server. -/
structure PendingChange where
  changeId : ChangeId
  attempts : ℕ
  lastError : Option Text
  parkedAt : Option Time
  record : EncryptedRecord
  deriving DecidableEq, Repr

/-- `getPendingChanges`, in write order: the outbox joined with the rows its entries point at. -/
def getPendingChanges (db : LocalDb) : List PendingChange :=
  (db.outbox.insertionSort fun a b => a.seq ≤ b.seq).filterMap fun entry =>
    (db.row? entry.recordId entry.version).map fun row => {
      changeId := entry.changeId
      attempts := entry.attempts
      lastError := entry.lastError
      parkedAt := entry.parkedAt
      record := row.record }

/-- The outbox entry of a change. -/
def LocalDb.entry? (db : LocalDb) (changeId : ChangeId) : Option OutboxEntry :=
  db.outbox.find? (·.changeId = changeId)

/-- `ackPendingChange`: the server stored a change, or has nothing to store.  The row it answered
replaces the pending one. -/
def ackPendingChange (changeId : ChangeId) (serverRow : Option EncryptedRecord) (db : LocalDb) :
    LocalDb :=
  match db.entry? changeId with
  | none => db
  | some entry =>
    let outbox := db.outbox.filter (·.changeId ≠ changeId)
    match serverRow with
    | none =>
      { db with
        outbox := outbox
        records := db.records.map fun row =>
          if row.key = entry.key then { row with syncState := .synced } else row }
    -- Same (recordId, version) unless the server numbered it differently.
    | some serverRow =>
      upsertRecord { db with
        outbox := outbox
        records := db.records.filter (·.key ≠ entry.key) } serverRow

/-- Change the outbox entry of a change. -/
def updateEntry (changeId : ChangeId) (f : OutboxEntry → OutboxEntry) (db : LocalDb) : LocalDb :=
  { db with
    outbox := db.outbox.map fun entry => if entry.changeId = changeId then f entry else entry }

/-- `failPendingChange`: keep the reason and, unless `count` is false, count it. -/
def failPendingChange (changeId : ChangeId) (error : Text) (count : Bool) (db : LocalDb) :
    LocalDb :=
  updateEntry changeId (fun entry => { entry with
    attempts := if count then entry.attempts + 1 else entry.attempts
    lastError := some error }) db

/-- `parkPendingChange`: stop pushing a change until `retryParkedChanges`. -/
def parkPendingChange (changeId : ChangeId) (error : Text) (now : Time) (db : LocalDb) :
    LocalDb :=
  updateEntry changeId (fun entry => { entry with
    attempts := entry.attempts + 1
    lastError := some error
    parkedAt := some now }) db

/-- `retryParkedChanges`: queue the parked changes again. -/
def retryParkedChanges (db : LocalDb) : LocalDb :=
  { db with
    outbox := db.outbox.map fun entry =>
      if entry.parkedAt.isSome then { entry with attempts := 0, parkedAt := none } else entry }

/-! ### Key rotation -/

/-- A pending version's content, re-encrypted under another key. -/
structure ReencryptedVersion where
  recordId : RecordId
  version : ℕ
  content : Ciphertext
  /-- The key version it was read under: a row changed meanwhile is left alone. -/
  fromKeyVersion : ℕ
  deriving DecidableEq, Repr

/-- `replacePendingCiphertexts`: swap the ciphertext of pending versions in place. -/
def replacePendingCiphertexts (versions : List ReencryptedVersion) (db : LocalDb) : LocalDb :=
  versions.foldl (fun db v =>
    { db with
      records := db.records.map fun row =>
        if row.key = (v.recordId, v.version) ∧ row.isPending ∧
            row.record.content.keyVersion = v.fromKeyVersion then
          { row with record := { row.record with content := v.content } }
        else row }) db

/-- `writeReencryptedVersions`: write re-encrypted copies of records as their next versions, each
only if the record's head is still the version it was read from. -/
def writeReencryptedVersions (now : Time) (db : LocalDb)
    (versions : List (RecordCiphertext × ℕ × ChangeId)) : Except LocalError LocalDb :=
  versions.foldlM (fun db version =>
    match getHead version.1.recordId db with
    | none => .ok db
    | some head =>
      if head.record.version ≠ version.2.1 ∨ head.record.deletedAt.isSome then .ok db
      else do
        let (db, _) ← writeLocalChange (.update version.1) now version.2.2 db
        pure db) db

/-! ### Leaving a vault -/

/-- `removeVault`: remove a vault from the device; with `keepUnsent` what was unsent in it is kept
aside first. -/
def removeVault (vaultId : VaultId) (keepUnsent : Bool) (now : Time) (db : LocalDb) :
    Except LocalError LocalDb :=
  let vault := db.vaults.find? (·.vaultId = vaultId)
  if vault.any (·.kind = .personal) then .error .personalVault
  else
    let db := if keepUnsent then keepRevokedChanges vault.toList now db else db
    .ok ((dropVaults [vaultId] db).deleteVaultRows [vaultId])

/-- `rescueRevokedVault`: write copies of a lost vault's records into another vault, and drop what
was kept of it. -/
def rescueRevokedVault (vaultId : VaultId) (now : Time) (db : LocalDb)
    (changes : List (LocalRecordChange × ChangeId)) : Except LocalError LocalDb :=
  (writeLocalChanges now db changes).map (deleteRevokedVault vaultId)

end Passmgr
