/-
# Losing a vault

What a device does with a vault that is gone from its vault list.  A pull that no longer lists the
vault drops it with everything in it and keeps its unsent edits for rescue (`applySync`), and so
does leaving it (`removeVault` with `keepUnsent`).  A connect replaces the list as well
(`setAccountKeyMaterial`) and does neither: the next pull compares with the replaced list and finds
nothing lost.

Main definitions:

* `Listed` — every row, outbox entry and cursor is of a vault in a list;
* `DeviceOp` — the operations of a device on its database;
* `Device`, `DeviceStep` — the database, with the unsent edits lost since the last pull;
* `Kept` — an edit is in the revoked tables, with the row of its vault.

Main results:

* `kept_keepRevokedChanges` — what is kept of the vaults that are dropped;
* `Device.Keeps.run` — what any operation leaves;
* `unsent_kept` — the unsent edits of lost vaults are kept, in runs whose connects drop no vault.
-/

import Passmgr.OutboxRebase
import Passmgr.Run

set_option relaxedAutoImplicit false
set_option autoImplicit false

namespace Passmgr

/-! ### Rows of listed vaults -/

/-- The vault list and the revoked tables are those of another database. -/
structure SameLists (ref db : LocalDb) : Prop where
  vaults : db.vaults = ref.vaults
  revokedVaults : db.revokedVaults = ref.revokedVaults
  revokedRecords : db.revokedRecords = ref.revokedRecords

/-- A database whose lists were not touched. -/
theorem SameLists.same {ref db db' : LocalDb} (h : SameLists ref db)
    (hvaults : db'.vaults = db.vaults)
    (hrevoked : db'.revokedVaults = db.revokedVaults)
    (hrecords : db'.revokedRecords = db.revokedRecords) : SameLists ref db' :=
  ⟨hvaults.trans h.vaults, hrevoked.trans h.revokedVaults, hrecords.trans h.revokedRecords⟩

/-- Every row and cursor is of a vault in a list, and every outbox entry of a record with rows;
vault list and revoked tables are those of `ref`. -/
structure Listed (V : VaultId → Prop) (ref db : LocalDb) : Prop where
  lists : SameLists ref db
  rows : ∀ row ∈ db.records, V row.record.vaultId
  entries : ∀ entry ∈ db.outbox, ∃ row ∈ db.records, row.record.recordId = entry.recordId
  cursors : ∀ cursor ∈ db.syncCursors, V cursor.1

namespace Listed

variable {V : VaultId → Prop} {ref db db' : LocalDb}

theorem mono {W : VaultId → Prop} (h : Listed V ref db) (hVW : ∀ v, V v → W v) : Listed W ref db :=
  ⟨h.lists, fun row hrow => hVW _ (h.rows row hrow), h.entries,
    fun cursor hcursor => hVW _ (h.cursors cursor hcursor)⟩

/-- The lists are those of the database itself. -/
theorem self (h : Listed V ref db) : Listed V db db :=
  ⟨⟨rfl, rfl, rfl⟩, h.rows, h.entries, h.cursors⟩

/-- Rows and entries that are changed in place, their record and vault aside. -/
theorem map (h : Listed V ref db) {f : LocalRow → LocalRow} {g : OutboxEntry → OutboxEntry}
    (hf : ∀ row, (f row).record.vaultId = row.record.vaultId ∧
      (f row).record.recordId = row.record.recordId)
    (hg : ∀ entry, (g entry).recordId = entry.recordId) :
    Listed V ref { db with records := db.records.map f, outbox := db.outbox.map g } := by
  refine ⟨h.lists.same rfl rfl rfl, fun row hrow => ?_, fun entry hentry => ?_, h.cursors⟩
  · obtain ⟨row', hrow', rfl⟩ := List.mem_map.1 hrow
    rw [(hf row').1]
    exact h.rows row' hrow'
  · obtain ⟨entry', hentry', rfl⟩ := List.mem_map.1 hentry
    obtain ⟨row, hrow, hid⟩ := h.entries entry' hentry'
    exact ⟨f row, List.mem_map_of_mem hrow, by rw [(hf row).2, hg, hid]⟩

/-- Rows that go, those of records without entries left or with rows left. -/
theorem filter (h : Listed V ref db) {p : LocalRow → Bool} {q : OutboxEntry → Bool}
    (hpq : ∀ entry ∈ db.outbox, q entry = true → ∀ row ∈ db.records,
      row.record.recordId = entry.recordId →
        ∃ row' ∈ db.records, p row' = true ∧ row'.record.recordId = entry.recordId) :
    Listed V ref { db with records := db.records.filter p, outbox := db.outbox.filter q } := by
  refine ⟨h.lists.same rfl rfl rfl, fun row hrow => h.rows row (List.mem_filter.1 hrow).1,
    fun entry hentry => ?_, h.cursors⟩
  obtain ⟨hentry, hq⟩ := List.mem_filter.1 hentry
  obtain ⟨row, hrow, hid⟩ := h.entries entry hentry
  obtain ⟨row', hrow', hp, hid'⟩ := hpq entry hentry hq row hrow hid
  exact ⟨row', List.mem_filter.2 ⟨hrow', hp⟩, hid'⟩

theorem foldlM {α : Type} {f : LocalDb → α → Except LocalError LocalDb} {xs : List α}
    (hf : ∀ db a db', a ∈ xs → Listed V ref db → f db a = .ok db' → Listed V ref db')
    (h : Listed V ref db) (hok : xs.foldlM f db = .ok db') : Listed V ref db' :=
  Run.of_foldlM (fun db₁ db₂ a ha => hf db₁ a db₂ ha) h hok

theorem foldl {α : Type} {f : LocalDb → α → LocalDb} {xs : List α}
    (hf : ∀ db a, a ∈ xs → Listed V ref db → Listed V ref (f db a)) (h : Listed V ref db) :
    Listed V ref (xs.foldl f db) :=
  xs.foldlRecOn f h fun db' hdb' a ha => hf db' a ha hdb'

/-! ### Local writes -/

theorem insertPending {row written : EncryptedRecord} {now : Time} {changeId : ChangeId}
    (h : Listed V ref db) (hrow : V row.vaultId)
    (hok : Passmgr.insertPending row now changeId db = .ok (db', written)) : Listed V ref db' := by
  unfold Passmgr.insertPending at hok
  dsimp only at hok
  split at hok
  · cases hok
  split at hok
  · cases hok
  obtain ⟨rfl, rfl⟩ := Prod.mk.inj (Except.ok.inj hok)
  refine ⟨h.lists.same rfl rfl rfl, fun r hr => ?_, fun entry hentry => ?_, h.cursors⟩
  · rcases List.mem_append.1 hr with hr | hr
    · exact h.rows r hr
    · rw [List.mem_singleton.1 hr]
      exact hrow
  · rcases List.mem_append.1 hentry with hentry | hentry
    · obtain ⟨r, hr, hid⟩ := h.entries entry hentry
      exact ⟨r, List.mem_append_left _ hr, hid⟩
    · rw [List.mem_singleton.1 hentry]
      exact ⟨_, List.mem_append_right _ (List.mem_singleton_self _), rfl⟩

/-- A new record goes to a vault in the list. -/
def WritesInto (V : VaultId → Prop) : LocalRecordChange → Prop
  | .create ciphertext => V ciphertext.vaultId
  | _ => True

theorem mem_of_getHead {recordId : RecordId} {head : LocalRow}
    (h : getHead recordId db = some head) : head ∈ db.records :=
  (List.mem_filter.1 (List.argmax_mem h)).1

theorem writeLocalChange {change : LocalRecordChange} {written : EncryptedRecord} {now : Time}
    {changeId : ChangeId} (h : Listed V ref db) (hinto : WritesInto V change)
    (hok : Passmgr.writeLocalChange change now changeId db = .ok (db', written)) :
    Listed V ref db' := by
  unfold Passmgr.writeLocalChange at hok
  split at hok
  · cases hok
  · refine h.insertPending ?_ hok
    exact hinto
  · cases hok
  · next head hhead =>
      split at hok
      · cases hok
      · next hvault =>
          refine h.insertPending ?_ hok
          rw [not_not] at hvault
          have hrow := h.rows head (mem_of_getHead hhead)
          rw [hvault] at hrow
          exact hrow
  · next head hhead =>
      split at hok
      · cases hok
      · refine h.insertPending ?_ hok
        exact h.rows head (mem_of_getHead hhead)

theorem writeLocalChanges {now : Time} {changes : List (LocalRecordChange × ChangeId)}
    (h : Listed V ref db) (hinto : ∀ change ∈ changes, WritesInto V change.1)
    (hok : Passmgr.writeLocalChanges now db changes = .ok db') : Listed V ref db' := by
  refine foldlM (fun db change db' hmem h hok => ?_) h hok
  cases hwrite : Passmgr.writeLocalChange change.1 now change.2 db with
  | error e =>
      rw [hwrite] at hok
      cases hok
  | ok out =>
      rw [hwrite] at hok
      obtain rfl : out.1 = db' := Except.ok.inj hok
      exact h.writeLocalChange (hinto change hmem) hwrite

theorem writeReencryptedVersions {now : Time}
    {versions : List (RecordCiphertext × ℕ × ChangeId)} (h : Listed V ref db)
    (hok : Passmgr.writeReencryptedVersions now db versions = .ok db') : Listed V ref db' := by
  refine foldlM (fun db version db' _ h hok => ?_) h hok
  split at hok
  · obtain rfl := Except.ok.inj hok
    exact h
  · split at hok
    · obtain rfl := Except.ok.inj hok
      exact h
    · cases hwrite : Passmgr.writeLocalChange (.update version.1) now version.2.2 db with
      | error e =>
          rw [hwrite] at hok
          cases hok
      | ok out =>
          rw [hwrite] at hok
          obtain rfl : out.1 = db' := Except.ok.inj hok
          refine h.writeLocalChange ?_ hwrite
          exact trivial

/-- The rows and entries of a record go. -/
theorem without (h : Listed V ref db) (recordId : RecordId) : Listed V ref { db with
    outbox := db.outbox.filter (·.recordId ≠ recordId)
    records := db.records.filter (·.record.recordId ≠ recordId) } :=
  h.filter fun entry _ hq row hrow hid =>
    ⟨row, hrow, by rw [hid]; exact hq, hid⟩

theorem purgeRecord {recordId : RecordId} {clientUpdatedAt now : Time} {changeId : ChangeId}
    (h : Listed V ref db)
    (hok : Passmgr.purgeRecord recordId clientUpdatedAt now changeId db = .ok db') :
    Listed V ref db' := by
  unfold Passmgr.purgeRecord at hok
  split at hok
  · obtain rfl := Except.ok.inj hok
    exact h
  · next head hhead =>
      split at hok
      · obtain rfl := Except.ok.inj hok
        exact h
      · dsimp only at hok
        split at hok
        · obtain rfl := Except.ok.inj hok
          exact h.without recordId
        · simp only [bind, Except.bind] at hok
          split at hok
          · cases hok
          · next out hinsert =>
              obtain rfl : out.1 = db' := Except.ok.inj hok
              refine (h.without recordId).insertPending ?_ hinsert
              exact h.rows head (mem_of_getHead hhead)

theorem purgeRecords {now : Time} {records : List (RecordId × ChangeId)} (h : Listed V ref db)
    (hok : Passmgr.purgeRecords now db records = .ok db') : Listed V ref db' := by
  refine foldlM (fun db record db' _ h hok => ?_) h hok
  split at hok
  · cases hok
  · exact h.purgeRecord hok

theorem replacePendingCiphertexts (h : Listed V ref db) (versions : List ReencryptedVersion) :
    Listed V ref (Passmgr.replacePendingCiphertexts versions db) := by
  refine foldl (fun db v _ h => ?_) h
  have hmap := h.map (f := fun row =>
    if row.key = (v.recordId, v.version) ∧ row.isPending ∧
        row.record.content.keyVersion = v.fromKeyVersion then
      { row with record := { row.record with content := v.content } }
    else row) (g := id) (fun row => by split <;> exact ⟨rfl, rfl⟩) (fun _ => rfl)
  rwa [List.map_id] at hmap

theorem updateEntry (h : Listed V ref db) (changeId : ChangeId) {f : OutboxEntry → OutboxEntry}
    (hf : ∀ entry, (f entry).recordId = entry.recordId) :
    Listed V ref (Passmgr.updateEntry changeId f db) := by
  have hmap := h.map (f := id) (g := fun entry => if entry.changeId = changeId then f entry
    else entry) (fun _ => ⟨rfl, rfl⟩) (fun entry => by split <;> [exact hf entry; rfl])
  rwa [List.map_id] at hmap

theorem retryParkedChanges (h : Listed V ref db) :
    Listed V ref (Passmgr.retryParkedChanges db) := by
  have hmap := h.map (f := id) (g := fun entry => if entry.parkedAt.isSome then
    { entry with attempts := 0, parkedAt := none } else entry) (fun _ => ⟨rfl, rfl⟩)
    (fun entry => by split <;> rfl)
  rwa [List.map_id] at hmap

/-! ### Rows of the server -/

theorem upsertRecord (h : Listed V ref db) {row : EncryptedRecord} (hrow : V row.vaultId) :
    Listed V ref (Passmgr.upsertRecord db row) := by
  refine ⟨h.lists.same rfl rfl rfl, fun r hr => ?_, fun entry hentry => ?_, h.cursors⟩
  · rcases List.mem_append.1 hr with hr | hr
    · exact h.rows r (List.mem_filter.1 hr).1
    · rw [List.mem_singleton.1 hr]
      exact hrow
  · obtain ⟨r, hr, hid⟩ := h.entries entry hentry
    by_cases hkey : r.key = (row.recordId, row.version)
    · refine ⟨_, List.mem_append_right _ (List.mem_singleton_self _), ?_⟩
      rw [← hid]
      exact (Prod.mk.inj hkey).1.symm
    · exact ⟨r, List.mem_append_left _ (List.mem_filter.2 ⟨hr, decide_eq_true hkey⟩), hid⟩

theorem upsertRecords (h : Listed V ref db) {rows : List EncryptedRecord}
    (hrows : ∀ row ∈ rows, V row.vaultId) : Listed V ref (Passmgr.upsertRecords rows db) :=
  foldl (fun _ row hmem h => h.upsertRecord (hrows row hmem)) h

/-- The answered row of a change is of the change's record. -/
theorem ackPendingChange (h : Listed V ref db) (changeId : ChangeId)
    {serverRow : Option EncryptedRecord}
    (hserver : ∀ row ∈ serverRow, V row.vaultId ∧
      ∀ entry, db.entry? changeId = some entry → row.recordId = entry.recordId) :
    Listed V ref (Passmgr.ackPendingChange changeId serverRow db) := by
  unfold Passmgr.ackPendingChange
  split
  · exact h
  · next entry hentry =>
      cases serverRow with
      | none =>
          have hmap := h.map (f := fun row => if row.key = entry.key then
            { row with syncState := .synced } else row) (g := id)
            (fun row => by split <;> exact ⟨rfl, rfl⟩) (fun _ => rfl)
          rw [List.map_id] at hmap
          exact ⟨h.lists.same rfl rfl rfl, hmap.rows,
            fun e he => hmap.entries e (List.mem_filter.1 he).1, h.cursors⟩
      | some row =>
          obtain ⟨hvault, hid⟩ := hserver row rfl
          refine ⟨h.lists.same rfl rfl rfl, fun r hr => ?_, fun e he => ?_, h.cursors⟩
          · rcases List.mem_append.1 hr with hr | hr
            · exact h.rows r (List.mem_filter.1 (List.mem_filter.1 hr).1).1
            · rw [List.mem_singleton.1 hr]
              exact hvault
          · obtain ⟨r, hr, hre⟩ := h.entries e (List.mem_filter.1 he).1
            by_cases hsame : e.recordId = row.recordId
            · exact ⟨_, List.mem_append_right _ (List.mem_singleton_self _), hsame.symm⟩
            · have hother : r.record.recordId ≠ row.recordId := hre ▸ hsame
              refine ⟨r, List.mem_append_left _ (List.mem_filter.2 ⟨List.mem_filter.2 ⟨hr, ?_⟩,
                ?_⟩), hre⟩
              · refine decide_eq_true fun hkey => hother ?_
                rw [hid entry hentry]
                exact (Prod.mk.inj hkey).1
              · exact decide_eq_true fun hkey => hother (Prod.mk.inj hkey).1

/-! ### Pulls -/

theorem dropDeletesOfPurged (h : Listed V ref db) (incoming : List EncryptedRecord) :
    Listed V ref (Passmgr.dropDeletesOfPurged incoming db) := by
  refine foldl (fun db row _ h => ?_) h
  unfold dropDeletesOf
  split
  · exact h
  split
  · exact h
  split
  · exact h
  split
  · exact h
  refine h.filter fun entry _ hq r hr hid => ⟨r, hr, ?_, hid⟩
  have hne : r.record.recordId ≠ row.recordId := hid ▸ of_decide_eq_true hq
  simp [hne]

theorem shiftVersion {recordId : RecordId} {shift version : ℕ} (h : Listed V ref db)
    (hok : Passmgr.shiftVersion recordId shift db version = .ok db') : Listed V ref db' := by
  unfold Passmgr.shiftVersion at hok
  split at hok
  · cases hok
  · obtain rfl := Except.ok.inj hok
    exact h.map (fun row => by split <;> exact ⟨rfl, rfl⟩) (fun entry => by split <;> rfl)

theorem rebasePendingVersions {incoming : List EncryptedRecord}
    {resolve : Option ConflictResolver} {receivedAt now : Time}
    {newChangeId : RecordId → ChangeId} (h : Listed V ref db)
    (hok : Passmgr.rebasePendingVersions incoming resolve receivedAt now newChangeId db =
      .ok db') : Listed V ref db' := by
  refine foldlM (fun db chain db' _ h hok => ?_) h hok
  rcases of_rebaseChain hok with ⟨-, rfl⟩ | ⟨serverHead, db₁, -, hshift, hmerge⟩
  · exact h
  · have hmoved : Listed V ref db₁ := foldlM (fun _ _ _ _ h hok => h.shiftVersion hok) h hshift
    rcases hmerge with rfl | ⟨_, _, _, _, -, -, -, -, -, -, hwrite⟩
    · exact hmoved
    · refine hmoved.writeLocalChange ?_ hwrite
      exact trivial

theorem dropPurgedHistory (h : Listed V ref db) (recordIds : List RecordId) :
    Listed V ref (db.dropPurgedHistory recordIds) := by
  refine foldl (fun db recordId _ h => ?_) h
  unfold dropPurgedHistoryOf
  split
  · exact h
  · next version hversion =>
      have hfilter := h.filter (p := fun row => !(row.record.recordId = recordId && row.isSynced &&
        row.record.version < version)) (q := fun _ => true) fun entry _ _ row hrow hid => ?_
      · rwa [List.filter_true] at hfilter
      · -- the purge itself stays
        by_cases hrecord : row.record.recordId = recordId
        · obtain ⟨purge, hpurge, hv⟩ := List.mem_map.1 (List.max?_mem hversion)
          obtain ⟨hpurge, -⟩ := List.mem_filter.1 hpurge
          obtain ⟨hpurge, hpid⟩ := List.mem_filter.1 hpurge
          refine ⟨purge, hpurge, ?_, ?_⟩
          · simp [hv]
          · rw [← hid, hrecord]
            exact of_decide_eq_true hpid
        · exact ⟨row, hrow, by simp [hrecord], hid⟩

/-! ### Vaults -/

/-- Of the vaults that are dropped nothing is left. -/
theorem dropVaults (h : Listed V ref db) (vaultIds : List VaultId) :
    Listed (fun v => V v ∧ v ∉ vaultIds) ref (Passmgr.dropVaults vaultIds db) := by
  refine ⟨h.lists.same rfl rfl rfl, fun row hrow => ?_, fun entry hentry => ?_, fun cursor hcursor => ?_⟩
  · obtain ⟨hrow, hvault⟩ := List.mem_filter.1 hrow
    exact ⟨h.rows row hrow, of_decide_eq_true hvault⟩
  · obtain ⟨hentry, hnot⟩ := List.mem_filter.1 hentry
    obtain ⟨row, hrow, hid⟩ := h.entries entry hentry
    refine ⟨row, List.mem_filter.2 ⟨hrow, decide_eq_true fun hvault => ?_⟩, hid⟩
    refine of_decide_eq_true hnot ?_
    rw [← hid]
    exact List.mem_map_of_mem (List.mem_filter.2 ⟨hrow, decide_eq_true hvault⟩)
  · obtain ⟨hcursor, hvault⟩ := List.mem_filter.1 hcursor
    exact ⟨h.cursors cursor hcursor, of_decide_eq_true hvault⟩

theorem setSyncCursors (h : Listed V ref db) {cursors : List (VaultId × ℕ)}
    (hcursors : ∀ cursor ∈ cursors, V cursor.1) :
    Listed V ref (Passmgr.setSyncCursors cursors db) := by
  refine ⟨h.lists.same rfl rfl rfl, h.rows, h.entries, fun cursor hcursor => ?_⟩
  rcases List.mem_append.1 hcursor with hcursor | hcursor
  · exact h.cursors cursor (List.mem_filter.1 hcursor).1
  · exact hcursors cursor hcursor

theorem keepRevokedChanges (h : Listed V ref db) (vaults : List MemberVault) (now : Time) :
    Listed V (Passmgr.keepRevokedChanges vaults now db)
      (Passmgr.keepRevokedChanges vaults now db) :=
  ⟨⟨rfl, rfl, rfl⟩, h.rows, h.entries, h.cursors⟩

end Listed

/-! ### What is kept of lost vaults -/

/-- An unsent edit of vaults that go, with the vault it is in: the newest version of a record in
them, pending and not a delete. -/
structure UnsentEdit (lost : List MemberVault) (db : LocalDb) (edit : MemberVault × LocalRow) :
    Prop where
  gone : edit.1 ∈ lost
  row : edit.2 ∈ db.records
  vault : edit.2.record.vaultId = edit.1.vaultId
  pending : edit.2.isPending = true
  live : edit.2.record.deletedAt = none
  newest : ∀ row ∈ db.records, row.record.recordId = edit.2.record.recordId →
    row.record.vaultId ∈ lost.map (·.vaultId) → row.record.version ≤ edit.2.record.version

theorem UnsentEdit.mem_unsentVersions {lost : List MemberVault} {db : LocalDb}
    {edit : MemberVault × LocalRow} (h : UnsentEdit lost db edit) :
    edit.2 ∈ unsentVersions (lost.map (·.vaultId)) db := by
  refine List.mem_filter.2 ⟨h.row, ?_⟩
  have hvault : edit.2.record.vaultId ∈ lost.map (·.vaultId) :=
    h.vault ▸ List.mem_map_of_mem h.gone
  have hmax : (((db.records.filter (·.record.vaultId ∈ lost.map (·.vaultId))).filter
      (·.record.recordId = edit.2.record.recordId)).map (·.record.version)).max? =
        some edit.2.record.version := by
    rw [List.max?_eq_some_iff]
    constructor
    · exact List.mem_map_of_mem (List.mem_filter.2
        ⟨List.mem_filter.2 ⟨h.row, decide_eq_true hvault⟩, decide_eq_true rfl⟩)
    · intro version hversion
      obtain ⟨row, hrow, rfl⟩ := List.mem_map.1 hversion
      obtain ⟨hrow, hid⟩ := List.mem_filter.1 hrow
      obtain ⟨hrow, hin⟩ := List.mem_filter.1 hrow
      exact h.newest row hrow (of_decide_eq_true hid) (of_decide_eq_true hin)
  rw [Bool.and_eq_true, Bool.and_eq_true, h.live]
  exact ⟨⟨decide_eq_true hmax, h.pending⟩, rfl⟩

/-- The head of a record is an unsent edit when it is pending, not a delete and in a vault that
goes. -/
theorem unsentEdit_of_head {lost : List MemberVault} {db : LocalDb} {vault : MemberVault}
    {recordId : RecordId} {head : LocalRow} (hhead : getHead recordId db = some head)
    (hlost : vault ∈ lost) (hvault : head.record.vaultId = vault.vaultId)
    (hpending : head.isPending = true) (hlive : head.record.deletedAt = none) :
    UnsentEdit lost db (vault, head) := by
  have hmem := List.argmax_mem hhead
  have hid : head.record.recordId = recordId := of_decide_eq_true (List.mem_filter.1 hmem).2
  refine ⟨hlost, (List.mem_filter.1 hmem).1, hvault, hpending, hlive, fun row hrow hsame _ => ?_⟩
  have hrow' : row ∈ db.rowsOf recordId :=
    List.mem_filter.2 ⟨hrow, decide_eq_true (hsame.trans hid)⟩
  exact List.le_of_mem_argmax (f := fun r : LocalRow => r.record.version) hrow' hhead

/-- An edit is in the revoked tables, with the row of its vault. -/
def Kept (db : LocalDb) (edit : MemberVault × LocalRow) : Prop :=
  (∃ revoked ∈ db.revokedVaults, revoked.vault = edit.1) ∧
  ∃ revoked ∈ db.revokedRecords, revoked = {
    recordId := edit.2.record.recordId
    vaultId := edit.1.vaultId
    content := edit.2.record.content
    version := edit.2.record.version
    clientUpdatedAt := edit.2.record.clientUpdatedAt }

theorem Kept.congr {a b : LocalDb} {edit : MemberVault × LocalRow} (h : Kept a edit)
    (hvaults : b.revokedVaults = a.revokedVaults) (hrecords : b.revokedRecords = a.revokedRecords) :
    Kept b edit := by
  unfold Kept at h ⊢
  rwa [hvaults, hrecords]

/-- The unsent edits of the vaults are kept. -/
theorem kept_keepRevokedChanges {lost : List MemberVault} {db : LocalDb} (now : Time)
    {edit : MemberVault × LocalRow} (h : UnsentEdit lost db edit) :
    Kept (keepRevokedChanges lost now db) edit := by
  have hrow := h.mem_unsentVersions
  constructor
  · refine ⟨_, List.mem_append_right _ (List.mem_map_of_mem (List.mem_filter.2 ⟨h.gone, ?_⟩)), rfl⟩
    exact decide_eq_true (List.mem_map.2 ⟨edit.2, hrow, h.vault⟩)
  · refine ⟨_, List.mem_append_right _ (List.mem_map_of_mem hrow), ?_⟩
    rw [h.vault]

/-- What is unsent in some vaults is of other vaults and records than an edit. -/
def Apart (lost : List MemberVault) (db : LocalDb) (edit : MemberVault × LocalRow) : Prop :=
  ∀ row ∈ unsentVersions (lost.map (·.vaultId)) db,
    row.record.recordId ≠ edit.2.record.recordId ∧ row.record.vaultId ≠ edit.1.vaultId

/-- An edit that is kept stays kept while others are. -/
theorem Kept.keepRevokedChanges {lost : List MemberVault} {db : LocalDb} (now : Time)
    {edit : MemberVault × LocalRow} (h : Kept db edit) (hapart : Apart lost db edit) :
    Kept (keepRevokedChanges lost now db) edit := by
  obtain ⟨⟨revoked, hrevoked, hvault⟩, record, hrecord, heq⟩ := h
  constructor
  · refine ⟨revoked, List.mem_append_left _ (List.mem_filter.2 ⟨hrevoked, ?_⟩), hvault⟩
    refine decide_eq_true fun hmem => ?_
    obtain ⟨other, hother, hid⟩ := List.mem_map.1 hmem
    obtain ⟨row, hrow, hrowid⟩ := List.mem_map.1 (of_decide_eq_true (List.mem_filter.1 hother).2)
    refine (hapart row hrow).2 ?_
    rw [hrowid, hid, hvault]
  · refine ⟨record, List.mem_append_left _ (List.mem_filter.2 ⟨hrecord, ?_⟩), heq⟩
    refine decide_eq_true fun hmem => ?_
    obtain ⟨row, hrow, hid⟩ := List.mem_map.1 hmem
    refine (hapart row hrow).1 ?_
    rw [hid, heq]

/-! ### The operations of a device -/

/-- `upsertVault`. -/
def upsertVault (vault : MemberVault) (db : LocalDb) : LocalDb :=
  if vault.vaultId ∈ db.vaults.map (·.vaultId) then
    { db with vaults := db.vaults.map fun v => if v.vaultId = vault.vaultId then vault else v }
  else { db with vaults := db.vaults ++ [vault] }

/-- `setVaultMeta`. -/
def setVaultMeta (vaultId : VaultId) (encryptedMeta metaEncryptionNonce : Text) (db : LocalDb) :
    LocalDb :=
  { db with
    vaults := db.vaults.map fun v =>
      if v.vaultId = vaultId then
        { v with encryptedMeta := encryptedMeta, metaEncryptionNonce := metaEncryptionNonce }
      else v }

/-- `setAccountKeyMaterial`, as far as it changes vaults and profile: the server's vault list
replaces the cached one. -/
def setAccountKeyMaterial (vaults : List MemberVault) (profile : Option ProfileMode)
    (db : LocalDb) : LocalDb :=
  replaceVaults vaults { db with profile := profile.or db.profile }

/-- What a device does to its database. -/
inductive DeviceOp
  | write (now : Time) (changes : List (LocalRecordChange × ChangeId))
  | purge (now : Time) (records : List (RecordId × ChangeId))
  | ack (changeId : ChangeId) (serverRow : Option EncryptedRecord)
  | fail (changeId : ChangeId) (error : Text) (count : Bool)
  | park (changeId : ChangeId) (error : Text) (now : Time)
  | retryParked
  | replaceCiphertexts (versions : List ReencryptedVersion)
  | writeReencrypted (now : Time) (versions : List (RecordCiphertext × ℕ × ChangeId))
  | saveVault (vault : MemberVault)
  | setMeta (vaultId : VaultId) (encryptedMeta metaEncryptionNonce : Text)
  | saveAccount (vaults : List MemberVault) (profile : Option ProfileMode)
  | removeVault (vaultId : VaultId) (keepUnsent : Bool) (now : Time)
  | applySync (batch : SyncBatch) (resolve : Option ConflictResolver) (now : Time)
      (newChangeId : RecordId → ChangeId)

/-- The database after an operation. -/
def DeviceOp.run : DeviceOp → LocalDb → Except LocalError LocalDb
  | .write now changes, db => writeLocalChanges now db changes
  | .purge now records, db => purgeRecords now db records
  | .ack changeId serverRow, db => .ok (ackPendingChange changeId serverRow db)
  | .fail changeId error count, db => .ok (failPendingChange changeId error count db)
  | .park changeId error now, db => .ok (parkPendingChange changeId error now db)
  | .retryParked, db => .ok (retryParkedChanges db)
  | .replaceCiphertexts versions, db => .ok (replacePendingCiphertexts versions db)
  | .writeReencrypted now versions, db => writeReencryptedVersions now db versions
  | .saveVault vault, db => .ok (upsertVault vault db)
  | .setMeta vaultId encryptedMeta nonce, db => .ok (setVaultMeta vaultId encryptedMeta nonce db)
  | .saveAccount vaults profile, db => .ok (setAccountKeyMaterial vaults profile db)
  | .removeVault vaultId keepUnsent now, db => Passmgr.removeVault vaultId keepUnsent now db
  | .applySync batch resolve now newChangeId, db =>
    (Passmgr.applySync batch resolve now newChangeId db).map (·.1)

/-- The database after an operation. -/
def DeviceOp.after (op : DeviceOp) (db : LocalDb) : LocalDb :=
  match op.run db with
  | .ok db => db
  | .error _ => db

/-- A vault is in the list of a device. -/
def LocalDb.lists (db : LocalDb) (vaultId : VaultId) : Prop := vaultId ∈ db.vaults.map (·.vaultId)

/-- What the callers see to: a new record is encrypted under the key of a listed vault, the server
answers a change with a row of its record in a listed vault, and a vault list names a vault once. -/
def DeviceOp.WellCalled (db : LocalDb) : DeviceOp → Prop
  | .write _ changes => ∀ change ∈ changes, Listed.WritesInto db.lists change.1
  | .ack changeId serverRow => ∀ row ∈ serverRow, ∀ entry, db.entry? changeId = some entry →
      row.recordId = entry.recordId ∧ db.lists row.vaultId
  | .saveAccount vaults _ => (vaults.map (·.vaultId)).Nodup
  | .applySync batch _ _ _ => (batch.vaults.map (·.vaultId)).Nodup
  | _ => True

/-- The vaults an operation takes from the list because access was lost. -/
def DeviceOp.loses (db : LocalDb) : DeviceOp → List MemberVault
  | .saveAccount vaults _ => lostVaults db.vaults vaults
  | .removeVault vaultId true _ => (db.vaults.find? (·.vaultId = vaultId)).toList
  | .applySync batch _ _ _ => lostVaults db.vaults batch.vaults
  | _ => []

/-- A device, with the unsent edits lost since the last pull, kept for the statements only. -/
structure Device where
  db : LocalDb
  owed : MemberVault × LocalRow → Prop

/-- The unsent edits lost up to and with an operation. -/
def Device.owedWith (d : Device) (op : DeviceOp) (edit : MemberVault × LocalRow) : Prop :=
  d.owed edit ∨ UnsentEdit (op.loses d.db) d.db edit

def DeviceOp.isPull : DeviceOp → Bool
  | .applySync .. => true
  | _ => false

/-- An operation that succeeds; one that fails changes nothing. -/
inductive DeviceStep (d : Device) (op : DeviceOp) : Device → Prop
  | run (db : LocalDb) (hcalled : op.WellCalled d.db) (h : op.run d.db = .ok db) :
    DeviceStep d op ⟨db, if op.isPull then fun _ => False else d.owedWith op⟩

/-- A connect lists every vault that is cached, and what an operation keeps aside is of other
vaults and records than what was kept since the last pull. -/
def DeviceOp.Meets (d : Device) : DeviceOp → Prop
  | .saveAccount vaults _ => lostVaults d.db.vaults vaults = []
  | op => ∀ edit, d.owed edit → Apart (op.loses d.db) d.db edit

/-- A step of any operation. -/
def AnyDeviceStep (d d' : Device) : Prop := ∃ op, DeviceStep d op d'

/-- A step of an operation that meets the condition. -/
def KeepingStep (d d' : Device) : Prop := ∃ op : DeviceOp, op.Meets d ∧ DeviceStep d op d'

/-- A profile that holds vaults and nothing in them. -/
def Device.start (vaults : List MemberVault) : Device where
  db := { LocalDb.empty with vaults := vaults }
  owed := fun _ => False

/-! ### Every operation -/

/-- The lists of a device name a vault once, nothing is left of a vault that is not listed, and what
was lost since the last pull is kept. -/
structure Device.Keeps (d : Device) : Prop where
  once : (d.db.vaults.map (·.vaultId)).Nodup
  listed : Listed d.db.lists d.db d.db
  kept : ∀ edit, d.owed edit → Kept d.db edit

section Steps

variable {db db' : LocalDb}

/-- A page drops the vaults it does not list. -/
theorem listed_applyVaults (h : Listed db.lists db db) (batch : SyncBatch) (now : Time) :
    Listed (· ∈ batch.vaults.map (·.vaultId)) (applyVaults batch now db)
      (applyVaults batch now db) := by
  have hdropped := (h.keepRevokedChanges (lostVaults db.vaults batch.vaults) now).dropVaults
    ((lostVaults db.vaults batch.vaults).map (·.vaultId))
  have hlisted := hdropped.mono (W := (· ∈ batch.vaults.map (·.vaultId))) fun v hv => by
    obtain ⟨hcached, hnot⟩ := hv
    by_contra hgone
    obtain ⟨vault, hvault, rfl⟩ := List.mem_map.1 hcached
    exact hnot (List.mem_map_of_mem (List.mem_filter.2 ⟨hvault, decide_eq_true hgone⟩))
  unfold applyVaults
  dsimp only
  split
  · exact ⟨⟨rfl, rfl, rfl⟩, hlisted.rows, hlisted.entries, hlisted.cursors⟩
  · exact hlisted.self

/-- The list a page leaves has the vaults of the page. -/
theorem lists_applyVaults (hcached : (db.vaults.map (·.vaultId)).Nodup) {batch : SyncBatch}
    (hbatch : (batch.vaults.map (·.vaultId)).Nodup) (now : Time) :
    ((applyVaults batch now db).vaults.map (·.vaultId)).Nodup ∧
      ∀ v ∈ batch.vaults.map (·.vaultId), (applyVaults batch now db).lists v := by
  unfold LocalDb.lists applyVaults
  dsimp only
  split
  · exact ⟨hbatch, fun v hv => hv⟩
  · next hsame =>
      refine ⟨hcached, fun v hv => ?_⟩
      rw [Bool.not_eq_true', Bool.not_eq_false, sameVaults, Bool.and_eq_true] at hsame
      obtain ⟨vault, hvault, rfl⟩ := List.mem_map.1 hv
      have hfound := of_decide_eq_true (List.all_eq_true.1 hsame.2 vault hvault)
      exact List.mem_map_of_mem (List.mem_reverse.1 (List.mem_of_find?_eq_some hfound))

theorem kept_applyVaults (batch : SyncBatch) (now : Time) {edit : MemberVault × LocalRow}
    (h : Kept (keepRevokedChanges (lostVaults db.vaults batch.vaults) now db) edit) :
    Kept (applyVaults batch now db) edit := by
  unfold applyVaults
  dsimp only
  split <;> exact h

/-- A pull keeps the unsent edits of the vaults it drops and leaves nothing else of them. -/
theorem keeps_applySync {d : Device} (h : d.Keeps) {batch : SyncBatch}
    {resolve : Option ConflictResolver} {now : Time} {newChangeId : RecordId → ChangeId}
    (hbatch : (batch.vaults.map (·.vaultId)).Nodup)
    (hapart : ∀ edit, d.owed edit → Apart (lostVaults d.db.vaults batch.vaults) d.db edit)
    {vaultsChanged : Bool}
    (hok : applySync batch resolve now newChangeId d.db = .ok (db', vaultsChanged)) :
    (db'.vaults.map (·.vaultId)).Nodup ∧ Listed db'.lists db' db' ∧
      ∀ edit, d.owed edit ∨ UnsentEdit (lostVaults d.db.vaults batch.vaults) d.db edit →
        Kept db' edit := by
  obtain ⟨db₁, hrebase, rfl⟩ := of_applySync hok
  have hstart := (listed_applyVaults h.listed batch now).dropDeletesOfPurged batch.pulled
  have hrebased := hstart.rebasePendingVersions hrebase
  have hpulled : ∀ row ∈ batch.pulled, row.vaultId ∈ batch.vaults.map (·.vaultId) :=
    fun row hrow => of_decide_eq_true (List.mem_filter.1 hrow).2
  have hcursors : ∀ cursor ∈ batch.currentCursors, cursor.1 ∈ batch.vaults.map (·.vaultId) :=
    fun cursor hcursor => of_decide_eq_true (List.mem_filter.1 hcursor).2
  have hend := ((hrebased.upsertRecords hpulled).dropPurgedHistory
    (batch.pulled.map (·.recordId))).setSyncCursors hcursors
  obtain ⟨honce, hlists⟩ := lists_applyVaults h.once hbatch now
  refine ⟨?_, ?_, fun edit hedit => ?_⟩
  · rw [hend.lists.vaults]
    exact honce
  · refine (hend.mono fun v hv => ?_).self
    unfold LocalDb.lists
    rw [hend.lists.vaults]
    exact hlists v hv
  · refine Kept.congr (kept_applyVaults batch now ?_) hend.lists.revokedVaults
      hend.lists.revokedRecords
    rcases hedit with howed | hunsent
    · exact (h.kept edit howed).keepRevokedChanges now (hapart edit howed)
    · exact kept_keepRevokedChanges now hunsent

/-- Leaving a vault keeps its unsent edits when asked to, and leaves nothing else of it. -/
theorem keeps_removeVault {d : Device} (h : d.Keeps) {vaultId : VaultId} {keepUnsent : Bool}
    {now : Time}
    (hapart : ∀ edit, d.owed edit →
      Apart ((DeviceOp.removeVault vaultId keepUnsent now).loses d.db) d.db edit)
    (hok : removeVault vaultId keepUnsent now d.db = .ok db') :
    (db'.vaults.map (·.vaultId)).Nodup ∧ Listed db'.lists db' db' ∧
      ∀ edit, d.owedWith (.removeVault vaultId keepUnsent now) edit → Kept db' edit := by
  unfold removeVault at hok
  dsimp only at hok
  split at hok
  · cases hok
  obtain rfl := Except.ok.inj hok
  have hlists : ∀ v, d.db.lists v ∧ v ∉ [vaultId] →
      v ∈ (d.db.vaults.filter (·.vaultId ∉ [vaultId])).map (·.vaultId) := by
    rintro v ⟨hv, hne⟩
    obtain ⟨vault, hvault, rfl⟩ := List.mem_map.1 hv
    exact List.mem_map_of_mem (List.mem_filter.2 ⟨hvault, decide_eq_true hne⟩)
  have honce : ((d.db.vaults.filter (·.vaultId ∉ [vaultId])).map (·.vaultId)).Nodup :=
    h.once.sublist (List.filter_sublist.map _)
  cases keepUnsent with
  | false =>
      have hdropped := (h.listed.dropVaults [vaultId]).mono hlists
      refine ⟨honce, ⟨⟨rfl, rfl, rfl⟩, hdropped.rows, hdropped.entries, hdropped.cursors⟩, ?_⟩
      rintro edit (howed | hunsent)
      · exact (h.kept edit howed).congr rfl rfl
      · cases hunsent.gone
  | true =>
      have hdropped := ((h.listed.keepRevokedChanges
        (d.db.vaults.find? (·.vaultId = vaultId)).toList now).dropVaults [vaultId]).mono hlists
      refine ⟨honce, ⟨⟨rfl, rfl, rfl⟩, hdropped.rows, hdropped.entries, hdropped.cursors⟩, ?_⟩
      rintro edit (howed | hunsent)
      · exact ((h.kept edit howed).keepRevokedChanges now (hapart edit howed)).congr rfl rfl
      · exact (kept_keepRevokedChanges now hunsent).congr rfl rfl

/-- An operation that changes records and entries only. -/
theorem Device.Keeps.of_listed {d : Device} (h : d.Keeps) {op : DeviceOp}
    (hloses : op.loses d.db = []) (hlisted : Listed d.db.lists d.db db') :
    (db'.vaults.map (·.vaultId)).Nodup ∧ Listed db'.lists db' db' ∧
      ∀ edit, d.owedWith op edit → Kept db' edit := by
  refine ⟨?_, ?_, ?_⟩
  · rw [hlisted.lists.vaults]
    exact h.once
  · refine (hlisted.mono fun v hv => ?_).self
    unfold LocalDb.lists
    rw [hlisted.lists.vaults]
    exact hv
  · rintro edit (howed | hunsent)
    · exact (h.kept edit howed).congr hlisted.lists.revokedVaults hlisted.lists.revokedRecords
    · have hgone := hunsent.gone
      rw [hloses] at hgone
      cases hgone

/-- A vault list that has every vault of the one before. -/
theorem Device.Keeps.of_vaults {d : Device} (h : d.Keeps) {op : DeviceOp}
    (hloses : op.loses d.db = []) {vaults : List MemberVault} {profile : Option ProfileMode}
    (honce : (vaults.map (·.vaultId)).Nodup)
    (hlists : ∀ v, d.db.lists v → v ∈ vaults.map (·.vaultId))
    (hdb : db' = { d.db with vaults := vaults, profile := profile }) :
    (db'.vaults.map (·.vaultId)).Nodup ∧ Listed db'.lists db' db' ∧
      ∀ edit, d.owedWith op edit → Kept db' edit := by
  subst hdb
  have hmono := h.listed.mono hlists
  refine ⟨honce, ⟨⟨rfl, rfl, rfl⟩, hmono.rows, hmono.entries, hmono.cursors⟩, ?_⟩
  rintro edit (howed | hunsent)
  · exact (h.kept edit howed).congr rfl rfl
  · have hgone := hunsent.gone
    rw [hloses] at hgone
    cases hgone

theorem map_vaultId_map (vaults : List MemberVault) {f : MemberVault → MemberVault}
    (hf : ∀ v, (f v).vaultId = v.vaultId) :
    (vaults.map f).map (·.vaultId) = vaults.map (·.vaultId) := by
  rw [List.map_map]
  exact List.map_congr_left fun v _ => hf v

/-- **What an operation leaves**: it keeps what it loses and what was lost before. -/
theorem Device.Keeps.run {d : Device} (h : d.Keeps) {op : DeviceOp} (hcalled : op.WellCalled d.db)
    (hmeets : op.Meets d) (hok : op.run d.db = .ok db') :
    (db'.vaults.map (·.vaultId)).Nodup ∧ Listed db'.lists db' db' ∧
      ∀ edit, d.owedWith op edit → Kept db' edit := by
  cases op with
  | write now changes => exact h.of_listed rfl (h.listed.writeLocalChanges hcalled hok)
  | purge now records => exact h.of_listed rfl (h.listed.purgeRecords hok)
  | ack changeId serverRow =>
      obtain rfl := Except.ok.inj hok
      refine h.of_listed rfl ?_
      by_cases hentry : ∃ entry, d.db.entry? changeId = some entry
      · obtain ⟨entry, hentry⟩ := hentry
        exact h.listed.ackPendingChange changeId fun row hrow =>
          ⟨(hcalled row hrow entry hentry).2, fun e he => (hcalled row hrow e he).1⟩
      · have hnone : d.db.entry? changeId = none :=
          Option.eq_none_iff_forall_not_mem.2 fun entry he => hentry ⟨entry, he⟩
        unfold ackPendingChange
        rw [hnone]
        exact h.listed
  | fail changeId error count =>
      obtain rfl := Except.ok.inj hok
      exact h.of_listed rfl (h.listed.updateEntry changeId fun _ => rfl)
  | park changeId error now =>
      obtain rfl := Except.ok.inj hok
      exact h.of_listed rfl (h.listed.updateEntry changeId fun _ => rfl)
  | retryParked =>
      obtain rfl := Except.ok.inj hok
      exact h.of_listed rfl h.listed.retryParkedChanges
  | replaceCiphertexts versions =>
      obtain rfl := Except.ok.inj hok
      exact h.of_listed rfl (h.listed.replacePendingCiphertexts versions)
  | writeReencrypted now versions =>
      exact h.of_listed rfl (h.listed.writeReencryptedVersions hok)
  | saveVault vault =>
      obtain rfl := Except.ok.inj hok
      unfold upsertVault
      split
      · next hmem =>
          have hids := map_vaultId_map d.db.vaults
            (f := fun v => if v.vaultId = vault.vaultId then vault else v)
            fun v => by split <;> [exact (by assumption : v.vaultId = vault.vaultId).symm; rfl]
          refine h.of_vaults rfl (by rw [hids]; exact h.once) (fun v hv => ?_) rfl
          rw [hids]
          exact hv
      · next hmem =>
          refine h.of_vaults rfl ?_ (fun v hv => ?_) rfl
          · rw [List.map_append, List.nodup_append]
            refine ⟨h.once, List.nodup_singleton _, fun v hv v' hv' heq => hmem ?_⟩
            rw [List.map_singleton, List.mem_singleton] at hv'
            rw [← hv', ← heq]
            exact hv
          · rw [List.map_append]
            exact List.mem_append_left _ hv
  | setMeta vaultId encryptedMeta nonce =>
      obtain rfl := Except.ok.inj hok
      have hids := map_vaultId_map d.db.vaults
        (f := fun v => if v.vaultId = vaultId then
          { v with encryptedMeta := encryptedMeta, metaEncryptionNonce := nonce } else v)
        fun v => by split <;> rfl
      refine h.of_vaults rfl (by rw [hids]; exact h.once) (fun v hv => ?_) rfl
      rw [hids]
      exact hv
  | saveAccount vaults profile =>
      obtain rfl := Except.ok.inj hok
      refine h.of_vaults hmeets hcalled (fun v hv => ?_) rfl
      obtain ⟨vault, hvault, rfl⟩ := List.mem_map.1 hv
      by_contra hgone
      have hlost : vault ∈ lostVaults d.db.vaults vaults :=
        List.mem_filter.2 ⟨hvault, decide_eq_true hgone⟩
      have hnone : lostVaults d.db.vaults vaults = [] := hmeets
      rw [hnone] at hlost
      cases hlost
  | removeVault vaultId keepUnsent now => exact keeps_removeVault h hmeets hok
  | applySync batch resolve now newChangeId =>
      have hrun : (applySync batch resolve now newChangeId d.db).map (·.1) = .ok db' := hok
      cases hsync : applySync batch resolve now newChangeId d.db with
      | error e =>
          rw [hsync] at hrun
          cases hrun
      | ok out =>
          rw [hsync] at hrun
          obtain rfl : out.1 = db' := Except.ok.inj hrun
          exact keeps_applySync h hcalled hmeets hsync

end Steps

theorem Device.Keeps.step {d d' : Device} (h : d.Keeps) (hstep : KeepingStep d d') : d'.Keeps := by
  obtain ⟨op, hmeets, hstep⟩ := hstep
  cases hstep with
  | run db hcalled hok =>
      obtain ⟨honce, hlisted, hkept⟩ := h.run hcalled hmeets hok
      refine ⟨honce, hlisted, fun edit howed => ?_⟩
      dsimp only at howed
      split at howed
      · exact howed.elim
      · exact hkept edit howed

theorem keeps_of_run {vaults : List MemberVault} (honce : (vaults.map (·.vaultId)).Nodup)
    {d : Device} (h : Run.Reaches KeepingStep (Device.start vaults) d) : d.Keeps := by
  refine Run.invariant (fun _ _ hs hst => hs.step hst) h ⟨honce, ⟨⟨rfl, rfl, rfl⟩, ?_, ?_, ?_⟩, ?_⟩
  · intro row hrow; cases hrow
  · intro entry hentry; cases hentry
  · intro cursor hcursor; cases hcursor
  · intro edit howed; exact howed.elim

/-- **Unsent edits survive the loss of a vault** in runs whose connects drop no cached vault: once
an operation is done, a pull among them, every unsent edit of a vault lost by it or since the pull
before is in the revoked tables with the row of its vault, and nothing is left of a vault that is
not listed. -/
theorem unsent_kept {vaults : List MemberVault} (honce : (vaults.map (·.vaultId)).Nodup)
    {d d' : Device} (h : Run.Reaches KeepingStep (Device.start vaults) d) {op : DeviceOp}
    (hmeets : op.Meets d) (hstep : DeviceStep d op d') :
    (∀ edit, d.owedWith op edit → Kept d'.db edit) ∧ Listed d'.db.lists d'.db d'.db := by
  cases hstep with
  | run db hcalled hok =>
      obtain ⟨-, hlisted, hkept⟩ := (keeps_of_run honce h).run hcalled hmeets hok
      exact ⟨hkept, hlisted⟩

/-! ### A connect that drops a vault -/

/-- A vault of a device, at its first key. -/
def cachedVault (vaultId : VaultId) (kind : VaultKind) : MemberVault where
  vaultId := vaultId
  keyVersion := 1
  wrap := ⟨[], []⟩
  role := .owner
  kind := kind
  encryptedMeta := []
  metaEncryptionNonce := []
  previousKeys := []

/-- A personal vault and a shared one. -/
def twoVaults : List MemberVault := [cachedVault 1 .personal, cachedVault 2 .shared]

/-- A new record in the shared vault. -/
def writeShared : DeviceOp :=
  .write 5 [(.create ⟨7, 2, ⟨['x'], ['n'], 1, 1⟩, 5⟩, 40)]

/-- A pull that lists the personal vault only. -/
def pullPersonal : DeviceOp := .applySync ⟨[], [cachedVault 1 .personal], [], 6⟩ none 6 id

/-- A connect that lists the personal vault only. -/
def connectPersonal : DeviceOp := .saveAccount [cachedVault 1 .personal] none

/-- The row `writeShared` writes. -/
def sharedRow : LocalRow where
  record := {
    recordId := 7
    vaultId := 2
    content := ⟨['x'], ['n'], 1, 1⟩
    version := 1
    clientUpdatedAt := 5
    createdAt := some 5
    updatedAt := some 5
    deletedAt := none
    tombstoneKind := none }
  syncState := .pending

/-- The device once the record is written. -/
def sharedWritten : Device where
  db := { LocalDb.empty with
    vaults := twoVaults
    records := [sharedRow]
    outbox := [⟨1, 40, 7, 1, 0, none, none, 5⟩] }
  owed := (Device.start twoVaults).owedWith writeShared

theorem sharedWritten_step : DeviceStep (Device.start twoVaults) writeShared sharedWritten := by
  refine .run _ (fun change hchange => ?_) (by rfl)
  obtain rfl := List.mem_singleton.1 hchange
  exact (by decide : 2 ∈ twoVaults.map (·.vaultId))

theorem not_owed_sharedWritten (edit : MemberVault × LocalRow) : ¬ sharedWritten.owed edit := by
  rintro (howed | hunsent)
  · exact howed
  · cases hunsent.gone

/-- The pull drops the shared vault and keeps what was written there. -/
theorem unsent_kept_pull : ∃ d', DeviceStep sharedWritten pullPersonal d' ∧
    Kept d'.db (cachedVault 2 .shared, sharedRow) := by
  have hstep : DeviceStep sharedWritten pullPersonal _ :=
    .run _ (by simp [DeviceOp.WellCalled, pullPersonal]) rfl
  have hwrite : KeepingStep (Device.start twoVaults) sharedWritten :=
    ⟨writeShared, fun edit howed => howed.elim, sharedWritten_step⟩
  have hmeets : pullPersonal.Meets sharedWritten := by
    intro edit howed
    exact absurd howed (not_owed_sharedWritten edit)
  have honce : (twoVaults.map (·.vaultId)).Nodup := by decide
  refine ⟨_, hstep, (unsent_kept honce (.single hwrite) hmeets hstep).1 _ (Or.inr ?_)⟩
  refine ⟨by decide, by decide, rfl, rfl, rfl, fun row hrow _ _ => ?_⟩
  obtain rfl := List.mem_singleton.1 hrow
  exact Nat.le_refl _

/-- The device once the connect replaced its vault list. -/
def sharedDropped : Device where
  db := { sharedWritten.db with vaults := [cachedVault 1 .personal] }
  owed := sharedWritten.owedWith connectPersonal

theorem sharedDropped_step : DeviceStep sharedWritten connectPersonal sharedDropped :=
  .run _ (by simp [DeviceOp.WellCalled, connectPersonal]) (by rfl)

/-- The connect drops it from the list, and the pull after it keeps nothing and leaves the row. -/
theorem connect_loses_unsent : ∃ d d', Run.Reaches AnyDeviceStep (Device.start twoVaults) d ∧
    DeviceStep d pullPersonal d' ∧
    (∃ edit, d.owedWith pullPersonal edit ∧ ¬ Kept d'.db edit) ∧
    ∃ row ∈ d'.db.records, ¬ d'.db.lists row.record.vaultId := by
  have hpull : DeviceStep sharedDropped pullPersonal _ :=
    .run _ (by simp [DeviceOp.WellCalled, pullPersonal]) rfl
  refine ⟨_, _, .tail (.single ⟨_, sharedWritten_step⟩) ⟨_, sharedDropped_step⟩, hpull,
    ⟨(cachedVault 2 .shared, sharedRow), Or.inl (Or.inr ?_), ?_⟩, sharedRow, ?_, ?_⟩
  · refine ⟨by decide, by decide, rfl, rfl, rfl, fun row hrow _ _ => ?_⟩
    obtain rfl := List.mem_singleton.1 hrow
    exact Nat.le_refl _
  · rintro ⟨⟨revoked, hrevoked, -⟩, -⟩
    cases hrevoked
  · exact List.mem_singleton_self _
  · show 2 ∉ [1]
    decide

end Passmgr
