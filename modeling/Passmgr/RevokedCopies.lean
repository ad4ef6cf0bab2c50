/-
# Copying what was kept of a lost vault

`packages/client/src/vaults/revoked.ts` over `packages/store`: what a device kept of the vaults its
user lost is shown, copied into another vault, or discarded.  A copy reads the kept versions, opens
them with the cached wrap of their vault, and in a later transaction writes the copies and drops
what is kept of the vault then.

A kept version is a row of `revokedRecords`; one that is kept for a vault lost again replaces the
one of the same record.

Main definitions:

* `SecretsStore.decryptWithWrap`, `openRevoked` — opening what was kept;
* `CopyRun`, `CopyRun.changes` — the copies `copyRevokedRecords` writes;
* `RevokedState`, `RevokedStep` — a device with its copies under way; which versions were kept and
  which were dealt with is recorded for the statements only;
* `RevokedOp.Meets` — the condition on a step.

Main results:

* `copied_of_write` — a copy writes every version that opened;
* `kept_until_dealt` — in runs whose steps meet the condition a version stays until it is dealt
  with;
* `kept_overwritten` — a second loss overwrites a version.
-/

import Passmgr.RecordPayload
import Passmgr.RowByRow
import Passmgr.VaultLoss

set_option relaxedAutoImplicit false
set_option autoImplicit false

namespace Passmgr

open IdealCipher (Ciphers)

/-! ### Opening what was kept -/

section Functions

variable (C : Ciphers Text) (J : MetaJson) (T : JsonText)

/-- The keys `decryptWithWrap` opens: the vault's own, and those of the links below it. -/
def SecretsStore.keysOfWrap (store : SecretsStore) (vault : MemberVault) :
    Except SecretsError (Text × (Text → Option Text)) := do
  let accountKey ← SecretsStore.unlocked store.accountKey
  let key ← SecretsStore.opened (unwrapVaultKey C accountKey vault.keyWrap)
  return (key, loadPreviousKeys C vault key
    (Function.update (fun _ => none) (vaultKeyId vault.vaultId vault.keyVersion) (some key)))

/-- A kept row with the key of its version. -/
def RevokedRecord.decrypt (keys : Text → Option Text) (row : RevokedRecord) : Option Text :=
  (keys (vaultKeyId row.vaultId row.content.keyVersion)).bind fun key =>
    decryptRecordData C key ⟨row.recordId, row.vaultId, row.content.cryptoVersion⟩
      row.content.encryptedData row.content.encryptionNonce

/-- `decryptWithWrap`: the metadata and the rows of a vault whose key isn't loaded, with its cached
wrap and chain.  What doesn't open is `none`; a wrap that doesn't open is an error. -/
def SecretsStore.decryptWithWrap (store : SecretsStore) (vault : MemberVault)
    (rows : List RevokedRecord) : Except SecretsError (Option VaultMeta × List (Option Text)) := do
  let (key, keys) ← store.keysOfWrap C vault
  let parsed := (Passmgr.decryptVaultMeta C key vault.vaultId
    ⟨vault.encryptedMeta, vault.metaEncryptionNonce⟩).bind J.parse
  return (parsed, rows.map (·.decrypt C keys))

/-- `getRevokedVaults` of the store: the lost vaults with what was kept of each. -/
def getRevokedVaults (db : LocalDb) : List (RevokedVault × List RevokedRecord) :=
  db.revokedVaults.map fun revoked =>
    (revoked, db.revokedRecords.filter (·.vaultId = revoked.vault.vaultId))

/-- `RevokedVaultInfo`: a lost vault as it is shown. -/
structure RevokedVaultInfo where
  vaultId : VaultId
  name : Option Text
  revokedAt : Time
  records : List (RecordId × JsObject)
  unreadable : ℕ

/-- `open`: a lost vault with the payloads of the rows that open. -/
def openRevoked (store : SecretsStore) (revoked : RevokedVault) (records : List RevokedRecord) :
    Except SecretsError RevokedVaultInfo := do
  let (vaultMeta, rows) ← store.decryptWithWrap C J revoked.vault records
  return {
    vaultId := revoked.vault.vaultId
    name := vaultMeta.map (·.name)
    revokedAt := revoked.revokedAt
    records := (records.zip rows).filterMap fun row =>
      (openPayload T row.2).map fun payload => (row.1.recordId, payload)
    unreadable := (rows.filter fun bytes => (openPayload T bytes).isNone).length }

/-! ### Copying -/

/-- A run of `copyRevokedRecords` that has read what was kept: the keys in memory then, the vault
with its kept rows, the vault the copies go to, and the random values it draws. -/
structure CopyRun where
  store : SecretsStore
  revoked : RevokedVault
  records : List RevokedRecord
  target : VaultId
  newId : ℕ → RecordId
  nonce : ℕ → Text
  changeId : ℕ → ChangeId
  now : Time

/-- The changes `copyRevokedRecords` writes: a new record in the target for every payload. -/
def CopyRun.changes (run : CopyRun) :
    Except EncryptError (List (LocalRecordChange × ChangeId)) :=
  match openRevoked C J T run.store run.revoked run.records with
  | .error e => .error (.secrets e)
  | .ok info => info.records.zipIdx.mapM fun copy => do
    let content ← encryptRecord C T run.store (run.nonce copy.2) (run.newId copy.2) run.target
      copy.1.2
    return (.create ⟨run.newId copy.2, run.target, content, run.now⟩, run.changeId copy.2)

/-- The payload a kept version opens to in a run. -/
def CopyRun.payload (run : CopyRun) (row : RevokedRecord) : Option JsObject :=
  match run.store.keysOfWrap C run.revoked.vault with
  | .error _ => none
  | .ok keys => openPayload T (row.decrypt C keys.2)

/-- A copy of a payload in a vault: a pending version that opens to its text. -/
structure IsCopy (store : SecretsStore) (target : VaultId) (payload : JsObject) (row : LocalRow) :
    Prop where
  vault : row.record.vaultId = target
  pending : row.isPending = true
  live : row.record.deletedAt = none
  opens : store.decryptRecord C row.record = .ok (recordPayloadJson T payload)

/-- A kept version has been copied: there is a copy of what it opens to in the target vault. -/
def CopyRun.Copied (run : CopyRun) (db : LocalDb) (row : RevokedRecord) : Prop :=
  ∃ payload, run.payload C T row = some payload ∧
    ∃ copy ∈ db.records, IsCopy C T run.store run.target payload copy

end Functions

/-! ### A device -/

/-- What `keepRevokedChanges` keeps of a version. -/
def LocalRow.revoked (row : LocalRow) : RevokedRecord where
  recordId := row.record.recordId
  vaultId := row.record.vaultId
  content := row.record.content
  version := row.record.version
  clientUpdatedAt := row.record.clientUpdatedAt

/-- A kept version is shown: it is in the revoked tables, with the row of its vault. -/
def Shown (db : LocalDb) (row : RevokedRecord) : Prop :=
  row ∈ db.revokedRecords ∧ row.vaultId ∈ db.revokedVaults.map (·.vault.vaultId)

/-- The vaults whose unsent edits an operation keeps: a pull those it does not list any more,
leaving a vault that one. -/
def DeviceOp.keeps (db : LocalDb) : DeviceOp → List MemberVault
  | .removeVault vaultId true _ => (db.vaults.find? (·.vaultId = vaultId)).toList
  | .applySync batch _ _ _ => lostVaults db.vaults batch.vaults
  | _ => []

/-- An operation keeps a version: it is what is unsent in one of the vaults. -/
def DeviceOp.KeepsVersion (op : DeviceOp) (db : LocalDb) (row : RevokedRecord) : Prop :=
  ∃ edit, UnsentEdit (op.keeps db) db edit ∧ row = edit.2.revoked

/-- A copy under way: the target has been checked, or the kept rows have been read. -/
inductive Copying
  | picked (vaultId target : VaultId)
  | read (run : CopyRun)

/-- A device with its copies under way, the versions that were kept and those of them that were
dealt with. -/
structure RevokedState where
  db : LocalDb
  copies : ℕ → Option Copying
  kept : RevokedRecord → Prop
  dealt : RevokedRecord → Prop

/-- A device in any state, with what is in its revoked tables as kept. -/
def RevokedState.start (db : LocalDb) (copies : ℕ → Option Copying) : RevokedState where
  db := db
  copies := copies
  kept := Shown db
  dealt _ := False

/-- What happens on a device: any operation on its database, a discard, or the next step of a
copy. -/
inductive RevokedOp
  | device (op : DeviceOp)
  | discard (vaultId : VaultId)
  | pick (flow : ℕ) (vaultId target : VaultId)
  | read (flow : ℕ) (run : CopyRun)
  | write (flow : ℕ)
  | stop (flow : ℕ)

section Steps

variable (C : Ciphers Text) (J : MetaJson) (T : JsonText)

/-- A step that succeeds; one that fails changes nothing. -/
inductive RevokedStep (s : RevokedState) : RevokedOp → RevokedState → Prop
  | device (op : DeviceOp) (db : LocalDb) (h : op.run s.db = .ok db) :
    RevokedStep s (.device op) { s with
      db := db
      kept := fun row => s.kept row ∨ op.KeepsVersion s.db row
      dealt := fun row => s.dealt row ∧ ¬ op.KeepsVersion s.db row }
  /-- `discardRevokedVault`. -/
  | discard (vaultId : VaultId) :
    RevokedStep s (.discard vaultId) { s with
      db := deleteRevokedVault vaultId s.db
      dealt := fun row => s.dealt row ∨ Shown s.db row ∧ row.vaultId = vaultId }
  /-- The target is a vault the user can write to. -/
  | pick {flow : ℕ} {vaultId target : VaultId} (vault : MemberVault)
    (hfind : s.db.vaults.find? (·.vaultId = target) = some vault)
    (hwrite : canWriteVault vault.role = true) :
    RevokedStep s (.pick flow vaultId target)
      { s with copies := Function.update s.copies flow (some (.picked vaultId target)) }
  /-- What is kept of the vault is read and opened with the keys in memory. -/
  | read {flow : ℕ} {run : CopyRun}
    (hflow : s.copies flow = some (.picked run.revoked.vault.vaultId run.target))
    (hread : (getRevokedVaults s.db).find? (·.1.vault.vaultId = run.revoked.vault.vaultId) =
      some (run.revoked, run.records)) :
    RevokedStep s (.read flow run)
      { s with copies := Function.update s.copies flow (some (.read run)) }
  /-- The copies are written and what is kept of the vault is dropped. -/
  | write {flow : ℕ} {run : CopyRun} {changes : List (LocalRecordChange × ChangeId)} {db : LocalDb}
    (hflow : s.copies flow = some (.read run)) (hchanges : run.changes C J T = .ok changes)
    (h : rescueRevokedVault run.revoked.vault.vaultId run.now s.db changes = .ok db) :
    RevokedStep s (.write flow) { s with
      db := db
      copies := Function.update s.copies flow none
      dealt := fun row => s.dealt row ∨ Shown s.db row ∧ run.Copied C T db row }
  /-- A copy is broken off. -/
  | stop (flow : ℕ) :
    RevokedStep s (.stop flow) { s with copies := Function.update s.copies flow none }

/-- What an operation keeps replaces no other version that is kept, and when a copy drops what is
kept of its vault, it had read all of it and all of it opened. -/
def RevokedOp.Meets (s : RevokedState) : RevokedOp → Prop
  | .device op => ∀ row ∈ unsentVersions ((op.keeps s.db).map (·.vaultId)) s.db,
      ∀ kept ∈ s.db.revokedRecords, kept.recordId = row.record.recordId → kept = row.revoked
  | .write flow => ∀ run, s.copies flow = some (.read run) → ∀ kept ∈ s.db.revokedRecords,
      kept.vaultId = run.revoked.vault.vaultId →
        kept ∈ run.records ∧ (run.payload C T kept).isSome = true
  | _ => True

/-- A step of any kind. -/
def AnyRevokedStep (s s' : RevokedState) : Prop := ∃ op, RevokedStep C J T s op s'

/-- A step that meets the condition. -/
def CarefulStep (s s' : RevokedState) : Prop :=
  ∃ op : RevokedOp, op.Meets C T s ∧ RevokedStep C J T s op s'

end Steps

/-! ### The revoked tables -/

/-- The revoked tables are those of another database. -/
structure SameRevoked (db db' : LocalDb) : Prop where
  vaults : db'.revokedVaults = db.revokedVaults
  records : db'.revokedRecords = db.revokedRecords

namespace SameRevoked

variable {db db' db'' : LocalDb}

theorem refl (db : LocalDb) : SameRevoked db db := ⟨rfl, rfl⟩

theorem trans (h : SameRevoked db db') (h' : SameRevoked db' db'') : SameRevoked db db'' :=
  ⟨h'.vaults.trans h.vaults, h'.records.trans h.records⟩

theorem shown (h : SameRevoked db db') {row : RevokedRecord} (hrow : Shown db row) :
    Shown db' row := by
  unfold Shown at hrow ⊢
  rwa [h.vaults, h.records]

theorem foldl {α : Type} {f : LocalDb → α → LocalDb} (hf : ∀ db a, SameRevoked db (f db a))
    (xs : List α) (db : LocalDb) : SameRevoked db (xs.foldl f db) :=
  xs.foldlRecOn f (refl db) fun db' h a _ => h.trans (hf db' a)

theorem foldlM {α : Type} {f : LocalDb → α → Except LocalError LocalDb}
    (hf : ∀ db a db', f db a = .ok db' → SameRevoked db db') {xs : List α} {db db' : LocalDb}
    (h : xs.foldlM f db = .ok db') : SameRevoked db db' :=
  Run.of_foldlM (fun db₁ db₂ a _ hsame ha => hsame.trans (hf db₁ a db₂ ha)) (refl db) h

theorem insertPending {row written : EncryptedRecord} {now : Time} {changeId : ChangeId}
    (h : Passmgr.insertPending row now changeId db = .ok (db', written)) : SameRevoked db db' := by
  unfold Passmgr.insertPending at h
  dsimp only at h
  split at h
  · cases h
  split at h
  · cases h
  obtain ⟨rfl, -⟩ := Prod.mk.inj (Except.ok.inj h)
  exact ⟨rfl, rfl⟩

theorem writeLocalChange {change : LocalRecordChange} {written : EncryptedRecord} {now : Time}
    {changeId : ChangeId}
    (h : Passmgr.writeLocalChange change now changeId db = .ok (db', written)) :
    SameRevoked db db' := by
  obtain ⟨row, -, -, hinsert⟩ := of_writeLocalChange h
  exact insertPending hinsert

theorem writeLocalChanges {now : Time} {changes : List (LocalRecordChange × ChangeId)}
    (h : Passmgr.writeLocalChanges now db changes = .ok db') : SameRevoked db db' := by
  refine foldlM (fun db change db' h => ?_) h
  obtain ⟨out, hwrite, h⟩ := bind_eq_ok.mp h
  obtain rfl : out.1 = db' := Except.ok.inj h
  exact writeLocalChange hwrite

theorem writeReencryptedVersions {now : Time} {versions : List (RecordCiphertext × ℕ × ChangeId)}
    (h : Passmgr.writeReencryptedVersions now db versions = .ok db') : SameRevoked db db' := by
  refine foldlM (fun db version db' h => ?_) h
  split at h
  · obtain rfl := Except.ok.inj h
    exact refl db
  · split at h
    · obtain rfl := Except.ok.inj h
      exact refl db
    · obtain ⟨out, hwrite, h⟩ := bind_eq_ok.mp h
      obtain rfl : out.1 = db' := Except.ok.inj h
      exact writeLocalChange hwrite

theorem purgeRecord {recordId : RecordId} {clientUpdatedAt now : Time} {changeId : ChangeId}
    (h : Passmgr.purgeRecord recordId clientUpdatedAt now changeId db = .ok db') :
    SameRevoked db db' := by
  unfold Passmgr.purgeRecord at h
  split at h
  · obtain rfl := Except.ok.inj h
    exact refl db
  split at h
  · obtain rfl := Except.ok.inj h
    exact refl db
  dsimp only at h
  split at h
  · obtain rfl := Except.ok.inj h
    exact ⟨rfl, rfl⟩
  · obtain ⟨out, hinsert, h⟩ := bind_eq_ok.mp h
    obtain rfl : out.1 = db' := Except.ok.inj h
    have hsame := insertPending hinsert
    exact ⟨hsame.vaults, hsame.records⟩

theorem purgeRecords {now : Time} {records : List (RecordId × ChangeId)}
    (h : Passmgr.purgeRecords now db records = .ok db') : SameRevoked db db' := by
  refine foldlM (fun db record db' h => ?_) h
  split at h
  · cases h
  · exact purgeRecord h

theorem ackPendingChange (changeId : ChangeId) (serverRow : Option EncryptedRecord)
    (db : LocalDb) : SameRevoked db (Passmgr.ackPendingChange changeId serverRow db) := by
  unfold Passmgr.ackPendingChange
  split
  · exact refl db
  · cases serverRow <;> exact ⟨rfl, rfl⟩

theorem rebasePendingVersions {incoming : List EncryptedRecord} {resolve : Option ConflictResolver}
    {receivedAt now : Time} {newChangeId : RecordId → ChangeId}
    (h : Passmgr.rebasePendingVersions incoming resolve receivedAt now newChangeId db = .ok db') :
    SameRevoked db db' := by
  refine foldlM (fun db chain db' h => ?_) h
  rcases of_rebaseChain h with ⟨-, rfl⟩ | ⟨serverHead, db₁, -, hshift, hmerge⟩
  · exact refl _
  · have hmoved : SameRevoked db db₁ := foldlM (fun db version db' h => by
      unfold shiftVersion at h
      split at h
      · cases h
      · obtain rfl := Except.ok.inj h
        exact ⟨rfl, rfl⟩) hshift
    rcases hmerge with rfl | ⟨_, _, _, _, -, -, -, -, -, -, hwrite⟩
    · exact hmoved
    · exact hmoved.trans (writeLocalChange hwrite)

theorem dropDeletesOfPurged (incoming : List EncryptedRecord) (db : LocalDb) :
    SameRevoked db (Passmgr.dropDeletesOfPurged incoming db) := by
  refine foldl (fun db row => ?_) incoming db
  unfold dropDeletesOf
  repeat' split
  all_goals exact ⟨rfl, rfl⟩

theorem dropPurgedHistory (recordIds : List RecordId) (db : LocalDb) :
    SameRevoked db (db.dropPurgedHistory recordIds) := by
  refine foldl (fun db recordId => ?_) _ db
  unfold dropPurgedHistoryOf
  split <;> exact ⟨rfl, rfl⟩

/-- A pull leaves the revoked tables as the part that drops the lost vaults leaves them. -/
theorem applySync {batch : SyncBatch} {resolve : Option ConflictResolver} {now : Time}
    {newChangeId : RecordId → ChangeId} {vaultsChanged : Bool}
    (h : Passmgr.applySync batch resolve now newChangeId db = .ok (db', vaultsChanged)) :
    SameRevoked (Passmgr.keepRevokedChanges (lostVaults db.vaults batch.vaults) now db) db' := by
  obtain ⟨db₁, hrebase, rfl⟩ := of_applySync h
  have hvaults : SameRevoked (Passmgr.keepRevokedChanges (lostVaults db.vaults batch.vaults) now db)
      (applyVaults batch now db) := by
    unfold applyVaults
    dsimp only
    split <;> exact ⟨rfl, rfl⟩
  have hstart := hvaults.trans (dropDeletesOfPurged batch.pulled _)
  have hrows := (hstart.trans (rebasePendingVersions hrebase)).trans
    (foldl (f := upsertRecord) (fun _ _ => ⟨rfl, rfl⟩) batch.pulled db₁)
  exact (hrows.trans (dropPurgedHistory (batch.pulled.map (·.recordId)) _)).trans ⟨rfl, rfl⟩

end SameRevoked

/-! ### What an operation keeps -/

section Keeps

variable {db db' : LocalDb}

/-- Nothing is unsent in no vaults. -/
theorem unsentVersions_nil (db : LocalDb) : unsentVersions [] db = [] := by
  refine List.filter_eq_nil_iff.2 fun row _ h => ?_
  rw [Bool.and_eq_true, Bool.and_eq_true] at h
  have hnone :
      db.records.filter (fun row => decide (row.record.vaultId ∈ ([] : List VaultId))) = [] :=
    List.filter_eq_nil_iff.2 fun row _ h => List.not_mem_nil (of_decide_eq_true h)
  have hmax := of_decide_eq_true h.1.1
  rw [hnone] at hmax
  cases hmax

theorem sameRevoked_keepRevokedChanges_nil (now : Time) (db : LocalDb) :
    SameRevoked (keepRevokedChanges [] now db) db := by
  unfold keepRevokedChanges
  rw [List.map_nil, unsentVersions_nil]
  constructor <;> simp

/-- An operation leaves the revoked tables as `keepRevokedChanges` of the vaults it keeps does. -/
theorem sameRevoked_run {op : DeviceOp} (h : op.run db = .ok db') :
    ∃ now, SameRevoked (keepRevokedChanges (op.keeps db) now db) db' := by
  have hnil : SameRevoked db db' → ∃ now, SameRevoked (keepRevokedChanges [] now db) db' :=
    fun hsame => ⟨0, (sameRevoked_keepRevokedChanges_nil 0 db).trans hsame⟩
  cases op with
  | write now changes => exact hnil (.writeLocalChanges h)
  | purge now records => exact hnil (.purgeRecords h)
  | ack changeId serverRow =>
      obtain rfl := Except.ok.inj h
      exact hnil (.ackPendingChange changeId serverRow db)
  | fail changeId error count =>
      obtain rfl := Except.ok.inj h
      exact hnil ⟨rfl, rfl⟩
  | park changeId error now =>
      obtain rfl := Except.ok.inj h
      exact hnil ⟨rfl, rfl⟩
  | retryParked =>
      obtain rfl := Except.ok.inj h
      exact hnil ⟨rfl, rfl⟩
  | replaceCiphertexts versions =>
      obtain rfl := Except.ok.inj h
      refine hnil ?_
      unfold replacePendingCiphertexts
      refine .foldl (fun _ _ => ?_) versions db
      exact ⟨rfl, rfl⟩
  | writeReencrypted now versions => exact hnil (.writeReencryptedVersions h)
  | saveVault vault =>
      obtain rfl := Except.ok.inj h
      refine hnil ?_
      unfold upsertVault
      split <;> exact ⟨rfl, rfl⟩
  | setMeta vaultId encryptedMeta nonce =>
      obtain rfl := Except.ok.inj h
      exact hnil ⟨rfl, rfl⟩
  | saveAccount vaults profile =>
      obtain rfl := Except.ok.inj h
      exact hnil ⟨rfl, rfl⟩
  | removeVault vaultId keepUnsent now =>
      have hrun : removeVault vaultId keepUnsent now db = .ok db' := h
      unfold removeVault at hrun
      dsimp only at hrun
      split at hrun
      · cases hrun
      · obtain rfl := Except.ok.inj hrun
        cases keepUnsent with
        | false => exact hnil ⟨rfl, rfl⟩
        | true => exact ⟨now, rfl, rfl⟩
  | applySync batch resolve now newChangeId =>
      have hrun : (applySync batch resolve now newChangeId db).map (·.1) = .ok db' := h
      cases hsync : applySync batch resolve now newChangeId db with
      | error e =>
          rw [hsync] at hrun
          cases hrun
      | ok out =>
          rw [hsync] at hrun
          obtain rfl : out.1 = db' := Except.ok.inj hrun
          exact ⟨now, .applySync hsync⟩

/-- What is kept of some vaults is shown. -/
theorem shown_of_unsentEdit {lost : List MemberVault} (now : Time) {edit : MemberVault × LocalRow}
    (h : UnsentEdit lost db edit) : Shown (keepRevokedChanges lost now db) edit.2.revoked := by
  obtain ⟨⟨revoked, hrevoked, hvault⟩, record, hrecord, heq⟩ := kept_keepRevokedChanges now h
  constructor
  · rw [heq, ← h.vault] at hrecord
    exact hrecord
  · refine List.mem_map.2 ⟨revoked, hrevoked, ?_⟩
    rw [hvault]
    exact h.vault.symm

/-- A version that is shown stays so while others are kept, unless one of its record replaces it. -/
theorem Shown.keepRevokedChanges {lost : List MemberVault} (now : Time) {row : RevokedRecord}
    (h : Shown db row)
    (hmeets : ∀ unsent ∈ unsentVersions (lost.map (·.vaultId)) db,
      row.recordId = unsent.record.recordId → row = unsent.revoked) :
    Shown (Passmgr.keepRevokedChanges lost now db) row := by
  obtain ⟨hrow, hvault⟩ := h
  constructor
  · by_cases hsame : row.recordId ∈
        (unsentVersions (lost.map (·.vaultId)) db).map (·.record.recordId)
    · obtain ⟨unsent, hunsent, hid⟩ := List.mem_map.1 hsame
      rw [hmeets unsent hunsent hid.symm]
      exact List.mem_append_right _ (List.mem_map_of_mem hunsent)
    · exact List.mem_append_left _ (List.mem_filter.2 ⟨hrow, decide_eq_true hsame⟩)
  · obtain ⟨revoked, hrevoked, hid⟩ := List.mem_map.1 hvault
    unfold Passmgr.keepRevokedChanges
    dsimp only
    rw [List.map_append, List.mem_append]
    -- the row of the vault is replaced by one of the same vault
    by_cases hkept : row.vaultId ∈ (lost.filter (·.vaultId ∈
        (unsentVersions (lost.map (·.vaultId)) db).map (·.record.vaultId))).map (·.vaultId)
    · refine Or.inr ?_
      rw [List.map_map]
      exact hkept
    · refine Or.inl (List.mem_map.2 ⟨revoked, List.mem_filter.2 ⟨hrevoked, ?_⟩, hid⟩)
      exact decide_eq_true (hid ▸ hkept)

end Keeps

/-! ### What a copy writes -/

section Copies

variable {C : Ciphers Text} {J : MetaJson} {T : JsonText} {db db' : LocalDb}

/-- A write adds rows. -/
theorem records_subset_of_writeLocalChanges {now : Time}
    {changes : List (LocalRecordChange × ChangeId)}
    (h : writeLocalChanges now db changes = .ok db') : db.records ⊆ db'.records := by
  have hkeep : ∀ db₁ db₂ : LocalDb, ∀ change ∈ changes, db.records ⊆ db₁.records →
      (writeLocalChange change.1 now change.2 db₁ >>= fun out => pure out.1 :
        Except LocalError LocalDb) = .ok db₂ → db.records ⊆ db₂.records := by
    intro db₁ db₂ change _ hsub hstep
    obtain ⟨out, hwrite, hstep⟩ := bind_eq_ok.mp hstep
    obtain rfl : out.1 = db₂ := Except.ok.inj hstep
    obtain ⟨row, -, -, hinsert⟩ := of_writeLocalChange hwrite
    refine List.Subset.trans hsub ?_
    rw [(of_insertPending hinsert).2.2.1]
    exact List.subset_append_left _ _
  exact Run.of_foldlM hkeep (List.Subset.refl db.records) h

/-- Every new record that is written is there as a pending version. -/
theorem exists_row_of_create {now : Time} {changes : List (LocalRecordChange × ChangeId)}
    (h : writeLocalChanges now db changes = .ok db') {ciphertext : RecordCiphertext}
    {changeId : ChangeId} (hmem : (.create ciphertext, changeId) ∈ changes) :
    ∃ row ∈ db'.records, row.isPending = true ∧ row.record.deletedAt = none ∧
      row.record.recordId = ciphertext.recordId ∧ row.record.vaultId = ciphertext.vaultId ∧
      row.record.content = ciphertext.content := by
  induction changes generalizing db with
  | nil => cases hmem
  | cons change changes ih =>
      unfold writeLocalChanges at h
      rw [List.foldlM_cons] at h
      obtain ⟨db₁, hfirst, h⟩ := bind_eq_ok.mp h
      rcases List.mem_cons.1 hmem with rfl | hmem
      · obtain ⟨out, hwrite, hfirst⟩ := bind_eq_ok.mp hfirst
        obtain rfl : out.1 = db₁ := Except.ok.inj hfirst
        cases hhead : getHead ciphertext.recordId db with
        | some head =>
            simp only [writeLocalChange, LocalRecordChange.recordId, hhead] at hwrite
            cases hwrite
        | none =>
            simp only [writeLocalChange, LocalRecordChange.recordId, hhead] at hwrite
            obtain ⟨hwritten, -, hrecords, -⟩ := of_insertPending hwrite
            have hsub := records_subset_of_writeLocalChanges h
            refine ⟨⟨out.2, .pending⟩, hsub ?_, rfl, ?_⟩
            · rw [hrecords]
              exact List.mem_append_right _ (List.mem_singleton_self _)
            · rw [hwritten]
              exact ⟨rfl, rfl, rfl, rfl⟩
      · exact ih h hmem

/-- What a run read opens to is among the records it shows. -/
theorem mem_of_openRevoked {run : CopyRun} {info : RevokedVaultInfo}
    (h : openRevoked C J T run.store run.revoked run.records = .ok info) {row : RevokedRecord}
    (hrow : row ∈ run.records) {payload : JsObject}
    (hpayload : run.payload C T row = some payload) :
    (row.recordId, payload) ∈ info.records := by
  obtain ⟨⟨vaultMeta, rows⟩, hrows, h⟩ := bind_eq_ok.mp h
  obtain rfl := Except.ok.inj h
  obtain ⟨⟨key, keys⟩, hkeys, hrows⟩ := bind_eq_ok.mp hrows
  obtain ⟨-, rfl⟩ := Prod.mk.inj (Except.ok.inj hrows)
  unfold CopyRun.payload at hpayload
  rw [hkeys] at hpayload
  have hopens : openPayload T (row.decrypt C keys) = some payload := hpayload
  refine List.mem_filterMap.2 ⟨(row, row.decrypt C keys), ?_, ?_⟩
  · rw [← List.map_prod_left_eq_zip]
    exact List.mem_map_of_mem hrow
  · dsimp only
    rw [hopens]
    rfl

/-- **A copy writes every version that opened**: a new pending record in the target, which opens to
the payload. -/
theorem copied_of_write (hC : C.Correct) {run : CopyRun}
    {changes : List (LocalRecordChange × ChangeId)} (hchanges : run.changes C J T = .ok changes)
    (h : rescueRevokedVault run.revoked.vault.vaultId run.now db changes = .ok db')
    {row : RevokedRecord} (hrow : row ∈ run.records)
    (hopens : (run.payload C T row).isSome = true) : run.Copied C T db' row := by
  obtain ⟨payload, hpayload⟩ := Option.isSome_iff_exists.1 hopens
  refine ⟨payload, hpayload, ?_⟩
  unfold CopyRun.changes at hchanges
  cases hinfo : openRevoked C J T run.store run.revoked run.records with
  | error e =>
      rw [hinfo] at hchanges
      cases hchanges
  | ok info =>
      rw [hinfo] at hchanges
      have hshown := mem_of_openRevoked hinfo hrow hpayload
      obtain ⟨i, hi⟩ := List.getElem?_of_mem hshown
      have hcopy : ((row.recordId, payload), i) ∈ info.records.zipIdx :=
        List.mk_mem_zipIdx_iff_getElem?.2 hi
      obtain ⟨change, hchange, hmade⟩ := RowByRow.exists_right (RowByRow.of_mapM hchanges) hcopy
      obtain ⟨content, hcontent, hmade⟩ := bind_eq_ok.mp hmade
      obtain rfl := Except.ok.inj hmade
      unfold rescueRevokedVault at h
      cases hwrite : writeLocalChanges run.now db changes with
      | error e =>
          rw [hwrite] at h
          cases h
      | ok written =>
          rw [hwrite] at h
          obtain rfl := Except.ok.inj h
          obtain ⟨copy, hmem, hpending, hlive, hid, hvault, hcopied⟩ :=
            exists_row_of_create hwrite hchange
          exact ⟨copy, hmem, hvault, hpending, hlive,
            (of_encryptRecord_payload hC hcontent hid hvault hcopied).2⟩

end Copies

/-! ### Runs -/

section Runs

variable {C : Ciphers Text} {J : MetaJson} {T : JsonText}

/-- Every version that was kept is shown, or dealt with. -/
def RevokedState.KeepsAll (s : RevokedState) : Prop :=
  ∀ row, s.kept row → Shown s.db row ∨ s.dealt row

/-- A version that is shown stays so when what is kept of another vault is dropped. -/
theorem Shown.deleteRevokedVault {db : LocalDb} {row : RevokedRecord} (h : Shown db row)
    {vaultId : VaultId} (hother : row.vaultId ≠ vaultId) :
    Shown (Passmgr.deleteRevokedVault vaultId db) row := by
  obtain ⟨hrow, hvault⟩ := h
  obtain ⟨revoked, hrevoked, hid⟩ := List.mem_map.1 hvault
  exact ⟨List.mem_filter.2 ⟨hrow, decide_eq_true hother⟩,
    List.mem_map.2 ⟨revoked, List.mem_filter.2 ⟨hrevoked, decide_eq_true (hid ▸ hother)⟩, hid⟩⟩

theorem RevokedState.KeepsAll.step (hC : C.Correct) {s s' : RevokedState} (h : s.KeepsAll)
    (hstep : CarefulStep C J T s s') : s'.KeepsAll := by
  obtain ⟨op, hmeets, hstep⟩ := hstep
  intro row hkept
  cases hstep with
  | device op db hrun =>
      obtain ⟨now, hsame⟩ := sameRevoked_run hrun
      by_cases hnew : op.KeepsVersion s.db row
      · obtain ⟨edit, hedit, rfl⟩ := hnew
        exact Or.inl (hsame.shown (shown_of_unsentEdit now hedit))
      · rcases h row (hkept.resolve_right hnew) with hshown | hdealt
        · exact Or.inl (hsame.shown (hshown.keepRevokedChanges now fun unsent hunsent hid =>
            hmeets unsent hunsent row hshown.1 hid))
        · exact Or.inr ⟨hdealt, hnew⟩
  | discard vaultId =>
      rcases h row hkept with hshown | hdealt
      · by_cases hvault : row.vaultId = vaultId
        · exact Or.inr (Or.inr ⟨hshown, hvault⟩)
        · exact Or.inl (hshown.deleteRevokedVault hvault)
      · exact Or.inr (Or.inl hdealt)
  | pick vault hfind hwrite => exact h row hkept
  | read hflow hread => exact h row hkept
  | @write flow run changes db hflow hchanges hrescue =>
      rcases h row hkept with hshown | hdealt
      · by_cases hvault : row.vaultId = run.revoked.vault.vaultId
        · obtain ⟨hread, hopens⟩ := hmeets run hflow row hshown.1 hvault
          exact Or.inr (Or.inr ⟨hshown, copied_of_write hC hchanges hrescue hread hopens⟩)
        · refine Or.inl ?_
          unfold rescueRevokedVault at hrescue
          cases hwrite : writeLocalChanges run.now s.db changes with
          | error e =>
              rw [hwrite] at hrescue
              cases hrescue
          | ok written =>
              rw [hwrite] at hrescue
              obtain rfl := Except.ok.inj hrescue
              exact ((SameRevoked.writeLocalChanges hwrite).shown hshown).deleteRevokedVault hvault
      · exact Or.inr (Or.inl hdealt)
  | stop flow => exact h row hkept

/-- **Kept versions stay until they are dealt with**, from any state of a device and of its copies,
in runs whose losses replace no kept version and whose copies drop what they read and opened: a
version that was kept is in the revoked tables with its vault, or it was discarded or copied. -/
theorem kept_until_dealt (hC : C.Correct) {db : LocalDb} {copies : ℕ → Option Copying}
    {s : RevokedState} (h : Run.Reaches (CarefulStep C J T) (RevokedState.start db copies) s) :
    ∀ row, s.kept row → Shown s.db row ∨ s.dealt row :=
  @Run.invariant _ _ RevokedState.KeepsAll (fun _ _ hs hst => hs.step hC hst) _ _ h
    fun _ hkept => Or.inl hkept

end Runs

/-! ### A note of a lost vault that is copied -/

open IdealCipher (wordCiphers wordCiphers_ideal)

/-- The JSON of flat objects of texts without quotes or escapes and of natural numbers; what is
parsed is the text of one note. -/
def flatJson (note : JsObject) : JsonText where
  stringify
    | .object fields => "\x7b".toList ++ [','].intercalate (fields.map fun field =>
        '"' :: field.1.toList ++ "\":".toList ++
          match field.2 with
          | .string text => '"' :: text ++ ['"']
          | .number (.fin value) => Nat.toDigits 10 value.num.toNat
          | _ => []) ++ "\x7d".toList
    | _ => []
  parse text :=
    if text = "\x7b\"type\":\"note\",\"title\":\"a\",\"schemaVersion\":1\x7d".toList then
      some (.object note)
    else none

/-- A note. -/
def noteFields : JsObject :=
  [("type", .string "note".toList), ("title", .string ['a']),
    ("schemaVersion", .number currentSchemaVersion)]

/-- A vault of a user with the account key `a`. -/
def wrappedVault (vaultId : VaultId) (kind : VaultKind) (key : Text) : MemberVault where
  vaultId := vaultId
  keyVersion := 1
  wrap := (wrapVaultKey wordCiphers ['w'] ['a'] key vaultId 1).wrap
  role := .owner
  kind := kind
  encryptedMeta := []
  metaEncryptionNonce := []
  previousKeys := []

/-- The keys of the personal vault in memory. -/
def personalStore : SecretsStore :=
  { SecretsStore.empty with
    accountKey := some ['a']
    vaultKeys := fun id => if id = vaultKeyId 1 1 then some ['p'] else none
    currentKeyVersions := fun vaultId => if vaultId = 1 then some 1 else none }

/-- An unsent note in the shared vault. -/
def unsentNote : LocalRow where
  record := {
    recordId := 7
    vaultId := 2
    content := ⟨(encryptRecordData wordCiphers ['n'] ['s'] ⟨7, 2, 1⟩
      (recordPayloadJson (flatJson noteFields) noteFields)).1, ['n'], 1, 1⟩
    version := 1
    clientUpdatedAt := 5
    createdAt := some 5
    updatedAt := some 5
    deletedAt := none
    tombstoneKind := none }
  syncState := .pending

/-- The device before the shared vault is lost. -/
def noteDb : LocalDb :=
  { LocalDb.empty with
    vaults := [wrappedVault 1 .personal ['p'], wrappedVault 2 .shared ['s']]
    records := [unsentNote]
    outbox := [⟨1, 40, 7, 1, 0, none, none, 5⟩] }

/-- A pull that lists the personal vault only. -/
def loseShared : DeviceOp :=
  .applySync ⟨[], [wrappedVault 1 .personal ['p']], [], 6⟩ none 6 id

/-- The copy of the note into the personal vault. -/
def noteCopy : CopyRun where
  store := personalStore
  revoked := ⟨wrappedVault 2 .shared ['s'], 6⟩
  records := [unsentNote.revoked]
  target := 1
  newId _ := 8
  nonce _ := ['m']
  changeId _ := 41
  now := 9

/-- What the copy writes. -/
def noteChanges : List (LocalRecordChange × ChangeId) :=
  [(.create ⟨8, 1, ⟨(encryptRecordData wordCiphers ['m'] ['p'] ⟨8, 1, 1⟩
    (recordPayloadJson (flatJson noteFields) noteFields)).1, ['m'], 1, 1⟩, 9⟩, 41)]

/-- The note is kept when the vault is lost, and can be copied. -/
theorem copies_noteCopy :
    noteCopy.changes wordCiphers nameJson (flatJson noteFields) = .ok noteChanges ∧
      wrappedVault 2 .shared ['s'] ∈ loseShared.keeps noteDb ∧
      (loseShared.after noteDb).revokedRecords = [unsentNote.revoked] ∧
      (noteCopy.payload wordCiphers (flatJson noteFields) unsentNote.revoked).isSome = true := by
  decide +kernel

theorem unsentEdit_noteDb : UnsentEdit (loseShared.keeps noteDb) noteDb
    (wrappedVault 2 .shared ['s'], unsentNote) := by
  refine ⟨copies_noteCopy.2.1, List.mem_singleton_self _, rfl, rfl, rfl, fun row hrow _ _ => ?_⟩
  rw [List.mem_singleton.1 hrow]

/-- The vault is lost, its note is kept, and it is copied into the personal vault. -/
theorem kept_until_dealt_copy : ∃ s, Run.Reaches
    (CarefulStep wordCiphers nameJson (flatJson noteFields))
    (RevokedState.start noteDb fun _ => none) s ∧ s.kept unsentNote.revoked ∧
    (Shown s.db unsentNote.revoked ∨ s.dealt unsentNote.revoked) := by
  have hnothing : RevokedOp.Meets wordCiphers (flatJson noteFields)
      (RevokedState.start noteDb fun _ => none) (.device loseShared) := by
    intro row _ kept hkept
    cases hkept
  have h := Relation.ReflTransGen.single (r := CarefulStep wordCiphers nameJson
    (flatJson noteFields)) ⟨.device loseShared, hnothing,
      .device loseShared (loseShared.after noteDb) (by decide +kernel)⟩
  have h := h.tail ⟨.pick 0 2 1, trivial, .pick (wrappedVault 1 .personal ['p'])
    (by decide +kernel) rfl⟩
  have h := h.tail ⟨.read 0 noteCopy, trivial, .read (by rfl) (by decide +kernel)⟩
  have hwhole : ∀ run, some (Copying.read noteCopy) = some (.read run) →
      ∀ kept ∈ (loseShared.after noteDb).revokedRecords, kept.vaultId = run.revoked.vault.vaultId →
        kept ∈ run.records ∧
          (run.payload wordCiphers (flatJson noteFields) kept).isSome = true := by
    intro run hrun kept hkept _
    obtain rfl : noteCopy = run := Copying.read.inj (Option.some.inj hrun)
    rw [copies_noteCopy.2.2.1, List.mem_singleton] at hkept
    subst hkept
    exact ⟨List.mem_singleton_self _, copies_noteCopy.2.2.2⟩
  have h := h.tail ⟨.write 0, hwhole, .write (by rfl) copies_noteCopy.1 (by rfl)⟩
  exact ⟨_, h, Or.inr ⟨_, unsentEdit_noteDb, rfl⟩,
    kept_until_dealt wordCiphers_ideal.toCorrect h _ (Or.inr ⟨_, unsentEdit_noteDb, rfl⟩)⟩

/-! ### A vault that is lost twice -/

/-- A record of the shared vault, as the server has it. -/
def serverRow : EncryptedRecord where
  recordId := 7
  vaultId := 2
  content := ⟨['x'], ['n'], 1, 1⟩
  version := 1
  clientUpdatedAt := 5
  createdAt := some 5
  updatedAt := some 5
  deletedAt := none
  tombstoneKind := none

/-- An edit of it that is not pushed. -/
def editShared (text : Char) (changeId : ChangeId) : DeviceOp :=
  .write 6 [(.update ⟨7, 2, ⟨[text], ['n'], 1, 1⟩, 6⟩, changeId)]

def dropShared : DeviceOp := .applySync ⟨[], [cachedVault 1 .personal], [], 7⟩ none 7 id

/-- The user is in the shared vault again. -/
def regainShared : DeviceOp := .applySync ⟨[serverRow], twoVaults, [], 8⟩ none 8 id

def twoVaultsDb : LocalDb :=
  { LocalDb.empty with
    vaults := twoVaults
    records := [⟨serverRow, .synced⟩] }

def editedOnce : LocalDb := (editShared 'y' 40).after twoVaultsDb

def editedTwice : LocalDb :=
  (editShared 'z' 41).after (regainShared.after (dropShared.after editedOnce))

/-- The edit that is kept first. -/
def firstEdit : LocalRow where
  record := {
    recordId := 7
    vaultId := 2
    content := ⟨['y'], ['n'], 1, 1⟩
    version := 2
    clientUpdatedAt := 6
    createdAt := some 6
    updatedAt := some 6
    deletedAt := none
    tombstoneKind := none }
  syncState := .pending

/-- The edit is the newest one when it is kept, and not kept any more after the second loss. -/
theorem keeps_firstEdit : cachedVault 2 .shared ∈ dropShared.keeps editedOnce ∧
    firstEdit ∈ editedOnce.records ∧
    (∀ row ∈ editedOnce.records, row.record.recordId = firstEdit.record.recordId →
      row.record.vaultId ∈ (dropShared.keeps editedOnce).map (·.vaultId) →
        row.record.version ≤ firstEdit.record.version) ∧
    firstEdit.revoked ∉ (dropShared.after editedTwice).revokedRecords := by
  decide +kernel

theorem unsentEdit_firstEdit :
    UnsentEdit (dropShared.keeps editedOnce) editedOnce (cachedVault 2 .shared, firstEdit) :=
  ⟨keeps_firstEdit.1, keeps_firstEdit.2.1, rfl, rfl, rfl, keeps_firstEdit.2.2.1⟩

/-- An edit is kept when the vault is lost; the user is invited again, edits the record again and
loses the vault again: the first edit is gone, with nothing discarded and nothing copied. -/
theorem kept_overwritten : ∃ s, Run.Reaches
    (AnyRevokedStep wordCiphers nameJson (flatJson noteFields))
    (RevokedState.start twoVaultsDb fun _ => none) s ∧
    ∃ row, s.kept row ∧ ¬ Shown s.db row ∧ ¬ s.dealt row := by
  have hedit : RevokedStep wordCiphers nameJson (flatJson noteFields)
      (RevokedState.start twoVaultsDb fun _ => none) (.device (editShared 'y' 40)) _ :=
    .device _ editedOnce (by decide +kernel)
  have h := Relation.ReflTransGen.single (r := AnyRevokedStep wordCiphers nameJson
    (flatJson noteFields)) ⟨_, hedit⟩
  have h := h.tail ⟨_, .device dropShared (dropShared.after editedOnce) (by decide +kernel)⟩
  have h := h.tail ⟨_, .device regainShared (regainShared.after (dropShared.after editedOnce))
    (by decide +kernel)⟩
  have h := h.tail ⟨_, .device (editShared 'z' 41) editedTwice (by decide +kernel)⟩
  have h := h.tail ⟨_, .device dropShared (dropShared.after editedTwice) (by decide +kernel)⟩
  refine ⟨_, h, firstEdit.revoked, ?_, fun hshown => keeps_firstEdit.2.2.2 hshown.1, ?_⟩
  · exact Or.inl (Or.inl (Or.inl (Or.inr ⟨_, unsentEdit_firstEdit, rfl⟩)))
  · exact fun hdealt => hdealt.1.1.1.1.1

end Passmgr
