/-
# Re-encrypting what waits to be sent

Once a vault is at a new key version the server takes puts under that key only, so a device
re-encrypts its pending versions (`packages/client/src/vaults/rekey.ts`).  `reencryptPendingVersions`
reads them, re-encrypts them outside any transaction, and writes the ciphertexts back in batches; in
between, anything else may happen to the database.  A write finds its row by record, number and the
key version that was read.

Main definitions:

* `getPendingUnderOldKeys`, `reencrypt`, `fillBatch` — what is read, and what is made of it;
* `RekeyState`, `RekeyStep` — a device with any number of such runs under way;
* `SlotsKept` — what a write finds is of the change that was read;
* `Rekeyed` — a version whose content is its own, re-encrypted.
-/

import Passmgr.SecretsStore
import Passmgr.VaultLoss

set_option relaxedAutoImplicit false
set_option autoImplicit false

namespace Passmgr

open IdealCipher (Ciphers)

/-! ### What is read -/

/-- `getPendingUnderOldKeys`: the pending versions with content under an older key than their
vault's. -/
def getPendingUnderOldKeys (db : LocalDb) : List EncryptedRecord :=
  db.pendingRows.filter fun row => row.deletedAt.isNone &&
    db.vaults.any fun vault =>
      vault.vaultId = row.vaultId && row.content.keyVersion < vault.keyVersion

/-- A version that was read, and the change it was of then, which is kept for the statements only. -/
structure ReadVersion where
  row : EncryptedRecord
  changeId : Option ChangeId
  deriving DecidableEq, Repr

/-- The change a version is of. -/
def changeIdAt (db : LocalDb) (row : EncryptedRecord) : Option ChangeId :=
  (db.outbox.find? (·.key = (row.recordId, row.version))).map (·.changeId)

def readPending (db : LocalDb) : List ReadVersion :=
  (getPendingUnderOldKeys db).map fun row => ⟨row, changeIdAt db row⟩

/-! ### What is made of it -/

/-- What `reencrypt` answers. -/
inductive Reencrypted
  /-- It can't be done here yet. -/
  | later
  /-- The key it is under does not open it. -/
  | unreadable
  | content (ciphertext : Ciphertext)
  deriving DecidableEq, Repr

section Reencrypt

variable (C : Ciphers Text) (store : SecretsStore)

/-- `reencrypt`: the content of a version under its vault's current key. -/
def reencrypt (nonce : Text) (row : EncryptedRecord) : Reencrypted :=
  match store.currentKeyVersion row.vaultId with
  | .error _ => .later
  | .ok currentKeyVersion =>
    if currentKeyVersion ≤ row.content.keyVersion then .later
    else
      match store.decryptRecord C row with
      | .error _ => .unreadable
      | .ok plaintext =>
        match store.encryptRecord C nonce row.recordId row.vaultId plaintext with
        | .error _ => .unreadable
        | .ok ciphertext => .content ciphertext

/-- `REKEY_BATCH_SIZE`. -/
def rekeyBatchSize : ℕ := 100

/-- The loop of `reencryptPendingVersions` up to its next write: what is re-encrypted until there is
no room in the batch, and the versions that are left. -/
def fillBatch (nonce : EncryptedRecord → Text) :
    List ReadVersion → ℕ → List (ReadVersion × Ciphertext) × List ReadVersion
  | rows, 0 => ([], rows)
  | [], _ + 1 => ([], [])
  | read :: rows, room + 1 =>
    match reencrypt C store (nonce read.row) read.row with
    | .content ciphertext =>
      ((read, ciphertext) :: (fillBatch nonce rows room).1, (fillBatch nonce rows room).2)
    | _ => fillBatch nonce rows (room + 1)

end Reencrypt

/-- One entry of a batch. -/
def ReadVersion.reencrypted (read : ReadVersion) (ciphertext : Ciphertext) : ReencryptedVersion where
  recordId := read.row.recordId
  version := read.row.version
  content := ciphertext
  fromKeyVersion := read.row.content.keyVersion

def reencryptedBatch (batch : List (ReadVersion × Ciphertext)) : List ReencryptedVersion :=
  batch.map fun item => item.1.reencrypted item.2

/-! ### Runs -/

/-- Where a run of `reencryptPendingVersions` is. -/
inductive Rekey
  | idle
  /-- These versions are still to be re-encrypted. -/
  | loaded (rows : List ReadVersion)
  /-- A batch is about to be written. -/
  | writing (batch : List (ReadVersion × Ciphertext)) (rest : List ReadVersion)

/-- The versions a run still holds. -/
def Rekey.reads : Rekey → List ReadVersion
  | .idle => []
  | .loaded rows => rows
  | .writing batch rest => batch.map (·.1) ++ rest

/-- A device, and its runs of `reencryptPendingVersions`. -/
structure RekeyState where
  db : LocalDb
  rekeys : ℕ → Rekey

/-- A version of this change is being re-encrypted. -/
def RekeyState.reads (s : RekeyState) (changeId : ChangeId) : Prop :=
  ∃ i, ∃ read ∈ (s.rekeys i).reads, read.changeId = some changeId

def RekeyState.setRekey (s : RekeyState) (i : ℕ) (rekey : Rekey) : RekeyState :=
  { s with rekeys := Function.update s.rekeys i rekey }

@[simp] theorem setRekey_db (s : RekeyState) (i : ℕ) (rekey : Rekey) :
    (s.setRekey i rekey).db = s.db := rfl

@[simp] theorem setRekey_self (s : RekeyState) (i : ℕ) (rekey : Rekey) :
    (s.setRekey i rekey).rekeys i = rekey := Function.update_self ..

theorem setRekey_of_ne (s : RekeyState) {i j : ℕ} (h : j ≠ i) (rekey : Rekey) :
    (s.setRekey i rekey).rekeys j = s.rekeys j := Function.update_of_ne h ..

/-- What the callers and the server see to: the ids of new changes are new, the server answers the
unsent changes of a record in their order and numbers none above its own, a merge is one of its
record, and a record goes with its vault. -/
def DeviceOp.InOrder (s : RekeyState) : DeviceOp → Prop
  | .write _ changes => ∀ change ∈ changes, ¬s.reads change.2
  | .purge _ records => ∀ record ∈ records, ¬s.reads record.2
  | .ack changeId serverRow => ∀ entry, s.db.entry? changeId = some entry →
      (∀ other ∈ s.db.entriesOf entry.recordId, entry.version ≤ other.version) ∧
        ∀ row ∈ serverRow, row.recordId = entry.recordId ∧ row.version ≤ entry.version
  | .writeReencrypted _ versions => ∀ version ∈ versions, ¬s.reads version.2.2
  | .removeVault vaultId _ _ => DropsWhole s.db [vaultId]
  | .applySync batch resolve _ newChangeId => MergesItsRecord resolve ∧
      DropsWhole s.db ((lostVaults s.db.vaults batch.vaults).map (·.vaultId)) ∧
      ∀ recordId, ¬s.reads (newChangeId recordId)
  | .replaceCiphertexts _ => False
  | _ => True

/-- What happens on the device. -/
inductive RekeyAct
  /-- Any operation of its own. -/
  | device (op : DeviceOp)
  | read (i : ℕ)
  /-- With the keys that are loaded then. -/
  | fill (i : ℕ) (store : SecretsStore) (nonce : EncryptedRecord → Text)
  | write (i : ℕ)
  /-- The run fails, or the app is closed. -/
  | stop (i : ℕ)

section Runs

variable (C : Ciphers Text)

inductive RekeyStep (s : RekeyState) : RekeyAct → RekeyState → Prop
  | device (op : DeviceOp) (db : LocalDb) (hcalled : op.InOrder s) (h : op.run s.db = .ok db) :
    RekeyStep s (.device op) { s with db := db }
  | read (i : ℕ) (h : s.rekeys i = .idle) :
    RekeyStep s (.read i) (s.setRekey i (.loaded (readPending s.db)))
  | fill (i : ℕ) (store : SecretsStore) (nonce : EncryptedRecord → Text) (rows : List ReadVersion)
      (h : s.rekeys i = .loaded rows) :
    RekeyStep s (.fill i store nonce) (s.setRekey i
      (.writing (fillBatch C store nonce rows rekeyBatchSize).1
        (fillBatch C store nonce rows rekeyBatchSize).2))
  | write (i : ℕ) (batch : List (ReadVersion × Ciphertext)) (rest : List ReadVersion)
      (h : s.rekeys i = .writing batch rest) :
    RekeyStep s (.write i)
      ({ s with db := replacePendingCiphertexts (reencryptedBatch batch) s.db }.setRekey i
        (if batch.length = rekeyBatchSize then .loaded rest else .idle))
  | stop (i : ℕ) : RekeyStep s (.stop i) (s.setRekey i .idle)

/-- A step, whatever happens. -/
def AnyRekeyStep (s t : RekeyState) : Prop := ∃ act, RekeyStep C s act t

/-- The row the update of `replacePendingCiphertexts` finds. -/
def Finds (read : ReadVersion) (row : LocalRow) : Prop :=
  row.key = (read.row.recordId, read.row.version) ∧ row.isPending = true ∧
    row.record.content.keyVersion = read.row.content.keyVersion

instance (read : ReadVersion) (row : LocalRow) : Decidable (Finds read row) :=
  inferInstanceAs (Decidable (_ ∧ _))

/-- Whatever a batch finds is of the change that was read: no other version of its record is in its
place. -/
def SlotsKept (db : LocalDb) (batch : List (ReadVersion × Ciphertext)) : Prop :=
  ∀ item ∈ batch, ∀ row ∈ db.records, Finds item.1 row →
    ∃ entry ∈ db.outbox, entry.key = row.key ∧ item.1.changeId = some entry.changeId

instance (db : LocalDb) (batch : List (ReadVersion × Ciphertext)) :
    Decidable (SlotsKept db batch) :=
  inferInstanceAs (Decidable (∀ _ ∈ _, _))

/-- A version that has content, whose content is its own under another key: with the same keys it
opens to the same text. -/
structure Rekeyed (row row' : LocalRow) : Prop where
  pending : row.isPending = true
  live : row.record.deletedAt = none
  own : ∃ store nonce content, reencrypt C store nonce row.record = .content content ∧
    row' = { row with record := { row.record with content := content } } ∧
    ∀ keys : SecretsStore, (∀ keyVersion, keys.vaultKeys (vaultKeyId row.record.vaultId keyVersion) =
        store.vaultKeys (vaultKeyId row.record.vaultId keyVersion)) →
      keys.decryptRecord C row'.record = keys.decryptRecord C row.record

/-- Every version after a write is as before it, or re-encrypted. -/
def ReplacedOwn (db db' : LocalDb) : Prop :=
  List.Forall₂ (fun row row' => row' = row ∨ Rekeyed C row row') db.records db'.records

end Runs

/-- No run is under way. -/
structure RekeyState.Start (s : RekeyState) : Prop where
  outbox : OutboxInvariant s.db
  idle : ∀ i, s.rekeys i = .idle

end Passmgr
