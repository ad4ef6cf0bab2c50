/-
# Local transactions and the versions on a device

What the operations of a device do to the versions it has: which may be synced, in which vault a
version is, and which synced versions stay.  A version is in the vault its record was made in; a
synced version came from the server, or is a tombstone the server had nothing to store for; and only
a purge, or the loss of its vault, takes a synced version away.

Main definitions:

* `RowsHold` — where the versions on a device are, and what is known of the synced ones;
* `KeepsSynced`, `HasPurge` — synced versions of a record stay, or it is purged.

Main results:

* `RowsHold.writeLocalChanges`, `RowsHold.applySync`, … — what each operation keeps;
* `keepsSynced_applySync` — a page keeps what the device has, but for the vaults it drops.
-/

import Passmgr.RebaseKeeps

set_option relaxedAutoImplicit false
set_option autoImplicit false

namespace Passmgr

/-! ### Where the versions are and where they came from -/

/-- Every version is in the vault of its record, and of the synced ones something is known. -/
structure RowsHold (vaultOf : RecordId → VaultId) (known : EncryptedRecord → Prop) (db : LocalDb) :
    Prop where
  vault : ∀ row ∈ db.records, row.record.vaultId = vaultOf row.record.recordId
  synced : ∀ row ∈ db.records, row.isSynced = true → known row.record

section RowsHold

variable {vaultOf : RecordId → VaultId} {known : EncryptedRecord → Prop} {db db' : LocalDb}

namespace RowsHold

theorem of_subset (h : RowsHold vaultOf known db) (hsub : ∀ row ∈ db'.records, row ∈ db.records) :
    RowsHold vaultOf known db' :=
  ⟨fun row hrow => h.vault row (hsub row hrow), fun row hrow => h.synced row (hsub row hrow)⟩

theorem mono {known' : EncryptedRecord → Prop} (h : RowsHold vaultOf known db)
    (hknown : ∀ record, known record → known' record) : RowsHold vaultOf known' db :=
  ⟨h.vault, fun row hrow hs => hknown _ (h.synced row hrow hs)⟩

/-- One version more. -/
theorem append (h : RowsHold vaultOf known db) {row : LocalRow}
    (hrecords : db'.records = db.records ++ [row])
    (hvault : row.record.vaultId = vaultOf row.record.recordId)
    (hknown : row.isSynced = true → known row.record) : RowsHold vaultOf known db' := by
  refine ⟨fun r hr => ?_, fun r hr hs => ?_⟩
  · rw [hrecords] at hr
    rcases List.mem_append.1 hr with hr | hr
    · exact h.vault r hr
    · obtain rfl := List.mem_singleton.1 hr
      exact hvault
  · rw [hrecords] at hr
    rcases List.mem_append.1 hr with hr | hr
    · exact h.synced r hr hs
    · obtain rfl := List.mem_singleton.1 hr
      exact hknown hs

/-- Versions that change in place stay in their vaults, and no other one becomes synced. -/
theorem map (h : RowsHold vaultOf known db) {f : LocalRow → LocalRow}
    (hrecords : db'.records = db.records.map f)
    (hf : ∀ row ∈ db.records, (f row).record.vaultId = row.record.vaultId ∧
      (f row).record.recordId = row.record.recordId)
    (hknown : ∀ row ∈ db.records, (f row).isSynced = true → known (f row).record) :
    RowsHold vaultOf known db' := by
  refine ⟨fun r hr => ?_, fun r hr hs => ?_⟩
  · rw [hrecords] at hr
    obtain ⟨row, hrow, rfl⟩ := List.mem_map.1 hr
    rw [(hf row hrow).1, (hf row hrow).2]
    exact h.vault row hrow
  · rw [hrecords] at hr
    obtain ⟨row, hrow, rfl⟩ := List.mem_map.1 hr
    exact hknown row hrow hs

/-- What a loop over a list keeps. -/
theorem foldlM {α : Type} {f : LocalDb → α → Except LocalError LocalDb} {xs : List α}
    (hf : ∀ db db', ∀ x ∈ xs, RowsHold vaultOf known db → f db x = .ok db' →
      RowsHold vaultOf known db')
    (h : RowsHold vaultOf known db) (hok : xs.foldlM f db = .ok db') :
    RowsHold vaultOf known db' :=
  Run.of_foldlM (fun db₁ db₂ x hx hdone hstep => hf db₁ db₂ x hx hdone hstep) h hok

/-! ### Writes -/

theorem insertPending (h : RowsHold vaultOf known db) {row written : EncryptedRecord} {now : Time}
    {changeId : ChangeId} (hvault : row.vaultId = vaultOf row.recordId)
    (hok : Passmgr.insertPending row now changeId db = .ok (db', written)) :
    RowsHold vaultOf known db' := by
  obtain ⟨rfl, -, hrecords, -⟩ := of_insertPending hok
  exact h.append hrecords hvault fun hs => by cases hs

/-- The newest version of a record is one of its versions. -/
theorem of_getHead (h : RowsHold vaultOf known db) {recordId : RecordId} {head : LocalRow}
    (hhead : getHead recordId db = some head) :
    head.record.recordId = recordId ∧ head.record.vaultId = vaultOf recordId := by
  obtain ⟨hmem, hid⟩ := List.mem_filter.1 (List.argmax_mem hhead)
  have hrid : head.record.recordId = recordId := of_decide_eq_true hid
  exact ⟨hrid, hrid ▸ h.vault head hmem⟩

/-- A record is made in its vault, and every other version follows one that is there. -/
theorem writeLocalChange (h : RowsHold vaultOf known db) {change : LocalRecordChange}
    {written : EncryptedRecord} {now : Time} {changeId : ChangeId}
    (hmade : ∀ ciphertext, change = .create ciphertext →
      ciphertext.vaultId = vaultOf ciphertext.recordId)
    (hok : Passmgr.writeLocalChange change now changeId db = .ok (db', written)) :
    RowsHold vaultOf known db' := by
  obtain ⟨row, hid, htop, hinsert⟩ := of_writeLocalChange hok
  refine h.insertPending ?_ hinsert
  cases hhead : getHead change.recordId db with
  | some head =>
      rw [htop.vault head hhead, hid]
      exact (h.of_getHead hhead).2
  | none =>
      -- Only a new record has no version yet.
      cases change with
      | create ciphertext =>
          obtain ⟨hrid, hvault, -, -⟩ := of_write_ciphertext (Or.inl rfl) hok
          obtain ⟨rfl, -, -, -⟩ := of_insertPending hinsert
          dsimp only at hrid hvault
          rw [hvault, hrid]
          exact hmade ciphertext rfl
      | update ciphertext => simp [Passmgr.writeLocalChange, hhead] at hok
      | delete recordId clientUpdatedAt moved => simp [Passmgr.writeLocalChange, hhead] at hok

theorem writeLocalChanges (h : RowsHold vaultOf known db) {now : Time}
    {changes : List (LocalRecordChange × ChangeId)}
    (hmade : ∀ change ∈ changes, ∀ ciphertext, change.1 = .create ciphertext →
      ciphertext.vaultId = vaultOf ciphertext.recordId)
    (hok : Passmgr.writeLocalChanges now db changes = .ok db') : RowsHold vaultOf known db' := by
  refine foldlM (fun db₁ db₂ change hchange h₁ hstep => ?_) h hok
  cases hwrite : Passmgr.writeLocalChange change.1 now change.2 db₁ with
  | error e =>
      rw [hwrite] at hstep
      cases hstep
  | ok result =>
      rw [hwrite] at hstep
      obtain rfl := Except.ok.inj hstep
      exact h₁.writeLocalChange (hmade change hchange) hwrite

theorem purgeRecord (h : RowsHold vaultOf known db) {recordId : RecordId}
    {clientUpdatedAt now : Time} {changeId : ChangeId}
    (hok : Passmgr.purgeRecord recordId clientUpdatedAt now changeId db = .ok db') :
    RowsHold vaultOf known db' := by
  unfold Passmgr.purgeRecord at hok
  split at hok
  · obtain rfl := Except.ok.inj hok
    exact h
  next head hhead =>
  split at hok
  · obtain rfl := Except.ok.inj hok
    exact h
  have hwithout : RowsHold vaultOf known (db.without recordId) :=
    h.of_subset fun row hrow => (List.mem_filter.1 hrow).1
  dsimp only at hok
  split at hok
  · obtain rfl := Except.ok.inj hok
    exact hwithout
  · simp only [bind, Except.bind] at hok
    split at hok
    · cases hok
    · next written hinsert =>
        obtain ⟨db₂, written⟩ := written
        obtain rfl := Except.ok.inj hok
        exact hwithout.insertPending (h.of_getHead hhead).2 hinsert

theorem purgeRecords (h : RowsHold vaultOf known db) {now : Time}
    {records : List (RecordId × ChangeId)} (hok : Passmgr.purgeRecords now db records = .ok db') :
    RowsHold vaultOf known db' := by
  refine foldlM (fun db₁ db₂ record _ h₁ hstep => ?_) h hok
  split at hstep
  · cases hstep
  · exact h₁.purgeRecord hstep

theorem writeReencryptedVersions (h : RowsHold vaultOf known db) {now : Time}
    {versions : List (RecordCiphertext × ℕ × ChangeId)}
    (hok : Passmgr.writeReencryptedVersions now db versions = .ok db') :
    RowsHold vaultOf known db' := by
  refine foldlM (fun db₁ db₂ version _ h₁ hstep => ?_) h hok
  split at hstep
  · obtain rfl := Except.ok.inj hstep
    exact h₁
  split at hstep
  · obtain rfl := Except.ok.inj hstep
    exact h₁
  · simp only [bind, Except.bind] at hstep
    split at hstep
    · cases hstep
    · next written hwrite =>
        obtain ⟨db₃, written⟩ := written
        obtain rfl := Except.ok.inj hstep
        exact h₁.writeLocalChange (fun ciphertext hc => by cases hc) hwrite

theorem replacePendingCiphertexts (h : RowsHold vaultOf known db)
    (versions : List ReencryptedVersion) :
    RowsHold vaultOf known (Passmgr.replacePendingCiphertexts versions db) := by
  unfold Passmgr.replacePendingCiphertexts
  induction versions generalizing db with
  | nil => exact h
  | cons version versions ih =>
      refine ih (h.map rfl (fun row _ => ?_) fun row hrow hs => ?_)
      · split <;> exact ⟨rfl, rfl⟩
      · split at hs
        · next hmatch =>
            have hp : row.isPending = true := hmatch.2.1
            have hpending : LocalRow.isSynced { row with
                record := { row.record with content := version.content } } = !row.isPending :=
              isSynced_eq_not row
            rw [hpending, hp] at hs
            cases hs
        · next hno =>
            rw [if_neg hno]
            exact h.synced row hrow hs

theorem removeVault (h : RowsHold vaultOf known db) {vaultId : VaultId} {keepUnsent : Bool}
    {now : Time} (hok : Passmgr.removeVault vaultId keepUnsent now db = .ok db') :
    RowsHold vaultOf known db' := by
  refine h.of_subset fun row hrow => ?_
  unfold Passmgr.removeVault at hok
  dsimp only at hok
  split at hok
  · cases hok
  · obtain rfl := Except.ok.inj hok
    have hmem := (List.mem_filter.1 hrow).1
    cases keepUnsent <;> exact hmem

/-! ### Answers -/

/-- The answer to a change: the row the server stored, or what the device has as it is. -/
theorem ackPendingChange (h : RowsHold vaultOf known db) {changeId : ChangeId}
    {serverRow : Option EncryptedRecord}
    (hrow : ∀ row ∈ serverRow, row.vaultId = vaultOf row.recordId ∧ known row)
    (hnone : serverRow = none → ∀ entry, db.entry? changeId = some entry →
      ∀ row ∈ db.records, row.key = entry.key → known row.record) :
    RowsHold vaultOf known (Passmgr.ackPendingChange changeId serverRow db) := by
  unfold Passmgr.ackPendingChange
  split
  · exact h
  next entry hentry =>
  cases serverRow with
  | none =>
      refine h.map rfl (fun row _ => ?_) fun row hrow hs => ?_
      · split <;> exact ⟨rfl, rfl⟩
      · split
        · next hkey => exact hnone rfl entry hentry row hrow hkey
        · next hkey =>
            rw [if_neg hkey] at hs
            exact h.synced row hrow hs
  | some row =>
      obtain ⟨hvault, hknown⟩ := hrow row rfl
      have hkept : RowsHold vaultOf known { db with
          outbox := db.outbox.filter (·.changeId ≠ changeId)
          records := (db.records.filter (·.key ≠ entry.key)).filter fun r =>
            r.key ≠ (row.recordId, row.version) } :=
        h.of_subset fun r hr => (List.mem_filter.1 (List.mem_filter.1 hr).1).1
      exact hkept.append rfl hvault fun _ => hknown

/-! ### Pulled pages -/

/-- What a loop over a list keeps. -/
theorem foldl {α : Type} {f : LocalDb → α → LocalDb}
    (hf : ∀ db x, RowsHold vaultOf known db → RowsHold vaultOf known (f db x)) (xs : List α)
    (h : RowsHold vaultOf known db) : RowsHold vaultOf known (xs.foldl f db) := by
  induction xs generalizing db with
  | nil => exact h
  | cons x xs ih => exact ih (hf db x h)

theorem dropDeletesOfPurged (h : RowsHold vaultOf known db) (incoming : List EncryptedRecord) :
    RowsHold vaultOf known (Passmgr.dropDeletesOfPurged incoming db) := by
  refine foldl (fun db row h => h.of_subset fun r hr => ?_) incoming h
  unfold dropDeletesOf at hr
  split at hr
  · exact hr
  split at hr
  · exact hr
  split at hr
  · exact hr
  split at hr
  · exact hr
  exact (List.mem_filter.1 hr).1

theorem dropPurgedHistory (h : RowsHold vaultOf known db) (recordIds : List RecordId) :
    RowsHold vaultOf known (db.dropPurgedHistory recordIds) := by
  refine foldl (fun db recordId h => h.of_subset fun r hr => ?_) _ h
  unfold dropPurgedHistoryOf at hr
  split at hr
  · exact hr
  · exact (List.mem_filter.1 hr).1

theorem applyVaults (h : RowsHold vaultOf known db) (batch : SyncBatch) (now : Time) :
    RowsHold vaultOf known (Passmgr.applyVaults batch now db) := by
  refine h.of_subset fun row hrow => ?_
  unfold Passmgr.applyVaults at hrow
  dsimp only at hrow
  split at hrow
  · exact (List.mem_filter.1 hrow).1
  · exact (List.mem_filter.1 hrow).1

theorem upsertRecords (h : RowsHold vaultOf known db) {rows : List EncryptedRecord}
    (hrows : ∀ row ∈ rows, row.vaultId = vaultOf row.recordId ∧ known row) :
    RowsHold vaultOf known (Passmgr.upsertRecords rows db) := by
  unfold Passmgr.upsertRecords
  induction rows generalizing db with
  | nil => exact h
  | cons row rows ih =>
      obtain ⟨hvault, hknown⟩ := hrows row List.mem_cons_self
      have hkept : RowsHold vaultOf known { db with
          records := db.records.filter fun r => r.key ≠ (row.recordId, row.version) } :=
        h.of_subset fun r hr => (List.mem_filter.1 hr).1
      have hstep : RowsHold vaultOf known (upsertRecord db row) :=
        hkept.append rfl hvault fun _ => hknown
      exact ih hstep fun r hr => hrows r (List.mem_cons_of_mem _ hr)

end RowsHold

/-- A rebase touches no synced version. -/
theorem RebasedView.mem_synced {incoming : List EncryptedRecord} {recordId : RecordId}
    {changeId : ChangeId} {v v' : RecordView} (h : RebasedView incoming recordId changeId v v')
    {row : LocalRow} (hs : row.isSynced = true) : row ∈ v'.rows ↔ row ∈ v.rows := by
  have hnot : ¬row.isPending = true := by
    rw [isSynced_eq_not] at hs
    simpa using hs
  have hshift : ∀ n, row ∈ (v.shift n).rows ↔ row ∈ v.rows := by
    intro n
    constructor
    · intro hrow
      obtain ⟨r, hr, heq⟩ := List.mem_map.1 hrow
      split at heq
      · next hp =>
          rw [← heq] at hnot
          exact absurd hp hnot
      · exact heq ▸ hr
    · intro hrow
      exact List.mem_map.2 ⟨row, hrow, if_neg hnot⟩
  cases h with
  | kept _ same => rw [same]
  | moved _ n up => rw [up, hshift]
  | merged _ n entry merge pending _ up =>
      rw [up]
      unfold RecordView.append
      rw [List.mem_append, hshift, List.mem_singleton]
      refine or_iff_left fun heq => hnot ?_
      rw [heq]
      exact pending

theorem mem_view {row : LocalRow} :
    row ∈ db.records ↔ row ∈ (db.view row.record.recordId).rows := by
  unfold LocalDb.view LocalDb.rowsOf
  rw [List.mem_filter, and_iff_left (decide_eq_true rfl)]

/-- A rebase leaves every version in its vault, and the synced ones as they are. -/
theorem RowsHold.rebasePendingVersions (h : RowsHold vaultOf known db) (ho : OutboxInvariant db)
    {incoming : List EncryptedRecord} {resolve : Option ConflictResolver} {receivedAt now : Time}
    {newChangeId : RecordId → ChangeId} (hresolve : MergesItsRecord resolve)
    (hok : Passmgr.rebasePendingVersions incoming resolve receivedAt now newChangeId db =
      .ok db') : RowsHold vaultOf known db' := by
  have hvault : RowsHold vaultOf (fun _ => True) db' := by
    refine RowsHold.foldlM (fun db₁ db₂ chain _ h₁ hstep => ?_) (h.mono fun _ _ => trivial) hok
    rcases of_rebaseChain hstep with ⟨-, rfl⟩ | ⟨serverHead, db₃, -, hshift, hmerge⟩
    · exact h₁
    · have hmoved : RowsHold vaultOf (fun _ => True) db₃ := by
        refine RowsHold.foldlM (fun db₁ db₂ version _ h₁ hstep => ?_) h₁ hshift
        unfold shiftVersion at hstep
        split at hstep
        · cases hstep
        · obtain rfl := Except.ok.inj hstep
          refine h₁.map rfl (fun row _ => ?_) fun _ _ _ => trivial
          split <;> exact ⟨rfl, rfl⟩
      rcases hmerge with rfl | ⟨_, _, _, _, -, -, -, -, -, -, hwrite⟩
      · exact hmoved
      · exact hmoved.writeLocalChange (fun ciphertext hc => by cases hc) hwrite
  refine ⟨hvault.vault, fun row hrow hs => ?_⟩
  have hview := ((view_rebasePendingVersions ho hresolve hok).2 row.record.recordId).2
  rw [mem_view, hview.mem_synced hs, ← mem_view] at hrow
  exact h.synced row hrow hs

/-- Vaults whose records are in them drop records whole. -/
theorem RowsHold.dropsWhole (h : RowsHold vaultOf known db) (vaultIds : List VaultId) :
    DropsWhole db vaultIds := by
  rintro row hrow - ⟨other, hother, hid, hv⟩
  rw [h.vault row hrow, ← hid, ← h.vault other hother]
  exact hv

theorem outboxInvariant_applyVaults (h : RowsHold vaultOf known db) (ho : OutboxInvariant db)
    (batch : SyncBatch) (now : Time) : OutboxInvariant (applyVaults batch now db) := by
  have hdropped : Transacts (fun _ => True) True db (applyVaults batch now db) := by
    refine transacts_congr (transacts_dropVaults ho
      (h.dropsWhole ((lostVaults db.vaults batch.vaults).map (·.vaultId)))) ?_ ?_
    · unfold applyVaults
      dsimp only
      split <;> rfl
    · unfold applyVaults
      dsimp only
      split <;> rfl
  exact hdropped.outbox

/-- **A page** brings versions in the vaults of their records. -/
theorem RowsHold.applySync (h : RowsHold vaultOf known db) (ho : OutboxInvariant db)
    {batch : SyncBatch} {resolve : Option ConflictResolver} {now : Time}
    {newChangeId : RecordId → ChangeId} {vaultsChanged : Bool}
    (hresolve : MergesItsRecord resolve)
    (hpulled : ∀ row ∈ batch.pulled, row.vaultId = vaultOf row.recordId ∧ known row)
    (hok : Passmgr.applySync batch resolve now newChangeId db = .ok (db', vaultsChanged)) :
    RowsHold vaultOf known db' := by
  obtain ⟨db₁, hrebase, rfl⟩ := of_applySync hok
  have hdeletes : Transacts (fun _ => True) True _ (Passmgr.dropDeletesOfPurged batch.pulled _) :=
    transacts_dropDeletesOfPurged (outboxInvariant_applyVaults h ho batch now) batch.pulled
  have hrebased := ((h.applyVaults batch now).dropDeletesOfPurged
    batch.pulled).rebasePendingVersions hdeletes.outbox hresolve hrebase
  have hpage := (hrebased.upsertRecords hpulled).dropPurgedHistory (batch.pulled.map (·.recordId))
  exact hpage.of_subset fun _ hrow => hrow

end RowsHold

/-! ### The synced versions a device keeps -/

/-- The synced versions of a record stay. -/
def KeepsSynced (recordId : RecordId) (db db' : LocalDb) : Prop :=
  ∀ row ∈ db.rowsOf recordId, row.isSynced = true → row ∈ db'.rowsOf recordId

/-- A device has a purge of a record, its own or a pulled one. -/
def HasPurge (recordId : RecordId) (db : LocalDb) : Prop :=
  ∃ row ∈ db.rowsOf recordId, row.record.tombstoneKind = some .purged

section KeepsSynced

variable {recordId : RecordId} {db db' db'' : LocalDb}

theorem mem_rowsOf {row : LocalRow} :
    row ∈ db.rowsOf recordId ↔ row ∈ db.records ∧ row.record.recordId = recordId := by
  unfold LocalDb.rowsOf
  rw [List.mem_filter, decide_eq_true_eq]

namespace KeepsSynced

theorem of_eq (h : db'.rowsOf recordId = db.rowsOf recordId) : KeepsSynced recordId db db' :=
  fun _ hrow _ => h ▸ hrow

theorem trans (h : KeepsSynced recordId db db') (h' : KeepsSynced recordId db' db'') :
    KeepsSynced recordId db db'' :=
  fun row hrow hs => h' row (h row hrow hs) hs

theorem of_records (h : ∀ row ∈ db.records, row.isSynced = true → row ∈ db'.records) :
    KeepsSynced recordId db db' := by
  intro row hrow hs
  obtain ⟨hmem, hid⟩ := mem_rowsOf.1 hrow
  exact mem_rowsOf.2 ⟨h row hmem hs, hid⟩

theorem foldlM {α : Type} {f : LocalDb → α → Except LocalError LocalDb} {xs : List α}
    (hf : ∀ db db', ∀ x ∈ xs, f db x = .ok db' → KeepsSynced recordId db db')
    (hok : xs.foldlM f db = .ok db') : KeepsSynced recordId db db' :=
  Run.of_foldlM (fun db₁ db₂ x hx hdone hstep => hdone.trans (hf db₁ db₂ x hx hstep))
    (of_eq rfl) hok

theorem foldl {α : Type} {f : LocalDb → α → LocalDb}
    (hf : ∀ db x, KeepsSynced recordId db (f db x)) (xs : List α) :
    KeepsSynced recordId db (xs.foldl f db) := by
  induction xs generalizing db with
  | nil => exact of_eq rfl
  | cons x xs ih => exact (hf db x).trans ih

theorem insertPending {row written : EncryptedRecord} {now : Time} {changeId : ChangeId}
    (hok : Passmgr.insertPending row now changeId db = .ok (db', written)) :
    KeepsSynced recordId db db' := by
  obtain ⟨-, -, hrecords, -⟩ := of_insertPending hok
  refine of_records fun r hr _ => ?_
  rw [hrecords]
  exact List.mem_append_left _ hr

theorem writeLocalChange {change : LocalRecordChange} {written : EncryptedRecord} {now : Time}
    {changeId : ChangeId}
    (hok : Passmgr.writeLocalChange change now changeId db = .ok (db', written)) :
    KeepsSynced recordId db db' := by
  obtain ⟨row, -, -, hinsert⟩ := of_writeLocalChange hok
  exact insertPending hinsert

theorem writeLocalChanges {now : Time} {changes : List (LocalRecordChange × ChangeId)}
    (hok : Passmgr.writeLocalChanges now db changes = .ok db') : KeepsSynced recordId db db' := by
  refine foldlM (fun db₁ db₂ change _ hstep => ?_) hok
  cases hwrite : Passmgr.writeLocalChange change.1 now change.2 db₁ with
  | error e =>
      rw [hwrite] at hstep
      cases hstep
  | ok result =>
      rw [hwrite] at hstep
      obtain rfl := Except.ok.inj hstep
      exact writeLocalChange hwrite

theorem writeReencryptedVersions {now : Time} {versions : List (RecordCiphertext × ℕ × ChangeId)}
    (hok : Passmgr.writeReencryptedVersions now db versions = .ok db') :
    KeepsSynced recordId db db' := by
  refine foldlM (fun db₁ db₂ version _ hstep => ?_) hok
  split at hstep
  · obtain rfl := Except.ok.inj hstep
    exact of_eq rfl
  split at hstep
  · obtain rfl := Except.ok.inj hstep
    exact of_eq rfl
  · simp only [bind, Except.bind] at hstep
    split at hstep
    · cases hstep
    · next written hwrite =>
        obtain ⟨db₃, written⟩ := written
        obtain rfl := Except.ok.inj hstep
        exact writeLocalChange hwrite

theorem replacePendingCiphertexts (versions : List ReencryptedVersion) :
    KeepsSynced recordId db (Passmgr.replacePendingCiphertexts versions db) := by
  refine foldl (fun db version => of_records fun row hrow hs => ?_) versions
  refine List.mem_map.2 ⟨row, hrow, if_neg fun hmatch => ?_⟩
  rw [isSynced_eq_not, hmatch.2.1] at hs
  cases hs

theorem dropDeletesOfPurged (incoming : List EncryptedRecord) :
    KeepsSynced recordId db (Passmgr.dropDeletesOfPurged incoming db) := by
  refine foldl (fun db row => ?_) incoming
  unfold dropDeletesOf
  split
  · exact of_eq rfl
  split
  · exact of_eq rfl
  split
  · exact of_eq rfl
  split
  · exact of_eq rfl
  refine of_records fun r hr hs => List.mem_filter.2 ⟨hr, ?_⟩
  rw [isSynced_eq_not, Bool.not_eq_true'] at hs
  simp [hs]

theorem rebasePendingVersions (ho : OutboxInvariant db) {incoming : List EncryptedRecord}
    {resolve : Option ConflictResolver} {receivedAt now : Time}
    {newChangeId : RecordId → ChangeId} (hresolve : MergesItsRecord resolve)
    (hok : Passmgr.rebasePendingVersions incoming resolve receivedAt now newChangeId db =
      .ok db') : KeepsSynced recordId db db' := by
  intro row hrow hs
  have hview := ((view_rebasePendingVersions ho hresolve hok).2 recordId).2
  exact (hview.mem_synced hs).2 hrow

/-- An answer replaces a pending version, and a synced one by itself. -/
theorem ackPendingChange (ho : OutboxInvariant db) {changeId : ChangeId}
    {serverRow : Option EncryptedRecord}
    (hagree : ∀ record ∈ serverRow, ∀ row ∈ db.rowsOf recordId, row.isSynced = true →
      row.key = (record.recordId, record.version) → row.record = record) :
    KeepsSynced recordId db (Passmgr.ackPendingChange changeId serverRow db) := by
  intro row hrow hs
  obtain ⟨hmem, hid⟩ := mem_rowsOf.1 hrow
  refine mem_rowsOf.2 ⟨?_, hid⟩
  unfold Passmgr.ackPendingChange
  split
  · exact hmem
  next entry hentry =>
  cases serverRow with
  | none =>
      refine List.mem_map.2 ⟨row, hmem, ?_⟩
      obtain ⟨record, state⟩ := row
      obtain rfl : state = .synced := by simpa [LocalRow.isSynced] using hs
      split <;> rfl
  | some record =>
      by_cases hkey : row.key = (record.recordId, record.version)
      · obtain rfl := hagree record rfl row hrow hs hkey
        obtain ⟨record, state⟩ := row
        obtain rfl : state = .synced := by simpa [LocalRow.isSynced] using hs
        exact List.mem_append_right _ List.mem_cons_self
      · refine List.mem_append_left _ (List.mem_filter.2
          ⟨List.mem_filter.2 ⟨hmem, decide_eq_true fun heq => ?_⟩, decide_eq_true hkey⟩)
        -- The version that is answered is pending, above the synced ones.
        obtain ⟨hrid, hversion⟩ := Prod.mk.inj heq
        have hqueued : entry ∈ (db.view entry.recordId).entries :=
          mem_entries_view.1 (List.mem_of_find?_eq_some hentry)
        obtain ⟨first, hfirst⟩ := ho.chains entry.recordId
        have hlt := hfirst.synced row (hrid ▸ mem_view.1 hmem) hs (List.ne_nil_of_mem hqueued)
        have hle : entry.version ∈ List.range' first (db.view entry.recordId).entries.length :=
          hfirst.entries ▸ List.mem_map_of_mem hqueued
        rw [List.mem_range'_1] at hle
        omega

/-- A vault the record is not in is dropped. -/
theorem dropVaults {vaultOf : RecordId → VaultId} {known : EncryptedRecord → Prop}
    (h : RowsHold vaultOf known db) {vaultIds : List VaultId}
    (hvault : vaultOf recordId ∉ vaultIds) :
    KeepsSynced recordId db (Passmgr.dropVaults vaultIds db) := by
  intro row hrow _
  obtain ⟨hmem, rfl⟩ := mem_rowsOf.1 hrow
  refine mem_rowsOf.2 ⟨List.mem_filter.2 ⟨hmem, decide_eq_true ?_⟩, rfl⟩
  rw [h.vault row hmem]
  exact hvault

end KeepsSynced

/-! ### Purges on a device -/

/-- A record without its versions. -/
theorem rowsOf_without (db : LocalDb) (purged recordId : RecordId) :
    (db.without purged).rowsOf recordId =
      if recordId = purged then [] else db.rowsOf recordId := by
  have hview := view_without db purged recordId
  split at hview
  · next hid =>
      rw [if_pos hid]
      exact congrArg RecordView.rows hview
  · next hid =>
      rw [if_neg hid]
      exact congrArg RecordView.rows hview

/-- The newest version of a record is a purge. -/
def PurgedHead (recordId : RecordId) (db : LocalDb) : Prop :=
  ∃ head, getHead recordId db = some head ∧ head.record.tombstoneKind = some .purged

theorem PurgedHead.hasPurge (h : PurgedHead recordId db) : HasPurge recordId db := by
  obtain ⟨head, hhead, hp⟩ := h
  exact ⟨head, List.argmax_mem hhead, hp⟩

/-- A purge takes the versions of its record away, and is the newest one then. -/
theorem keeps_or_purged_purgeRecord {purged : RecordId} {clientUpdatedAt now : Time}
    {changeId : ChangeId} {start : LocalDb}
    (h : KeepsSynced recordId start db ∨ PurgedHead recordId db)
    (hok : purgeRecord purged clientUpdatedAt now changeId db = .ok db') :
    KeepsSynced recordId start db' ∨ PurgedHead recordId db' := by
  unfold purgeRecord at hok
  split at hok
  · obtain rfl := Except.ok.inj hok
    exact h
  next head hhead =>
  split at hok
  · obtain rfl := Except.ok.inj hok
    exact h
  next hnot =>
  dsimp only at hok
  by_cases hid : recordId = purged
  · subst hid
    -- The newest version was none, so the device kept what it had.
    have hkeeps : KeepsSynced recordId start db := by
      refine h.resolve_right ?_
      rintro ⟨head', hhead', hp⟩
      rw [hhead] at hhead'
      obtain rfl := Option.some.inj hhead'
      exact hnot hp
    split at hok
    · next hnone =>
        obtain rfl := Except.ok.inj hok
        refine Or.inl fun row hrow hs => ?_
        have hsynced : db.newestSynced recordId = none := Option.isNone_iff_eq_none.1 hnone.1
        unfold LocalDb.newestSynced at hsynced
        rw [List.argmax_eq_none, List.filter_eq_nil_iff] at hsynced
        exact absurd hs (hsynced row (hkeeps row hrow hs))
    · right
      simp only [bind, Except.bind] at hok
      split at hok
      · cases hok
      · next written hinsert =>
          obtain ⟨db₂, written⟩ := written
          obtain rfl := Except.ok.inj hok
          have hnone := rowsOf_without db recordId recordId
          rw [if_pos rfl] at hnone
          have hnew := getHead_insertPending hinsert (fun r hr => by
            have hmem : r ∈ (db.without recordId).rowsOf recordId := hr
            rw [hnone] at hmem
            cases hmem) recordId
          rw [if_pos rfl] at hnew
          obtain ⟨rfl, -, -, -⟩ := of_insertPending hinsert
          exact ⟨_, hnew, rfl⟩
  · -- Another record is purged.
    have hrows : db'.rowsOf recordId = db.rowsOf recordId := by
      have hwithout := rowsOf_without db purged recordId
      rw [if_neg hid] at hwithout
      split at hok
      · obtain rfl := Except.ok.inj hok
        exact hwithout
      · simp only [bind, Except.bind] at hok
        split at hok
        · cases hok
        · next written hinsert =>
            obtain ⟨db₂, written⟩ := written
            obtain rfl := Except.ok.inj hok
            obtain ⟨rfl, -, hrecords, -⟩ := of_insertPending hinsert
            unfold LocalDb.rowsOf at hwithout ⊢
            rw [hrecords, List.filter_append, List.filter_cons_of_neg
              (by simpa using Ne.symm hid), List.filter_nil, List.append_nil]
            exact hwithout
    refine h.imp (fun hkeeps => hkeeps.trans (.of_eq hrows)) fun hpurged => ?_
    unfold PurgedHead getHead at hpurged ⊢
    rwa [hrows]

theorem keeps_or_purged_purgeRecords {now : Time} {records : List (RecordId × ChangeId)}
    (hok : purgeRecords now db records = .ok db') :
    KeepsSynced recordId db db' ∨ PurgedHead recordId db' := by
  unfold purgeRecords at hok
  refine @Run.of_foldlM _ _ _ _ (fun db' => KeepsSynced recordId db db' ∨ PurgedHead recordId db') _
    (fun db₁ db₂ record _ hdone hstep => ?_) _ _ (Or.inl (KeepsSynced.of_eq rfl)) hok
  split at hstep
  · cases hstep
  · exact keeps_or_purged_purgeRecord hdone hstep

/-! ### Pages -/

/-- Dropping what is below a purge leaves the purge. -/
theorem HasPurge.dropPurgedHistoryOf (h : HasPurge recordId db) (other : RecordId) :
    HasPurge recordId (Passmgr.dropPurgedHistoryOf db other) := by
  unfold Passmgr.dropPurgedHistoryOf
  split
  · exact h
  · next version hnewest =>
      obtain ⟨row, hrow, hp⟩ := h
      obtain ⟨hmem, hid⟩ := mem_rowsOf.1 hrow
      by_cases hother : recordId = other
      · -- The newest purge stays.
        subst hother
        obtain ⟨purge, hpurge, hversion⟩ := List.mem_map.1 (List.max?_mem hnewest)
        obtain ⟨hmine, hkind⟩ := List.mem_filter.1 hpurge
        obtain ⟨hstored, hpid⟩ := mem_rowsOf.1 hmine
        refine ⟨purge, mem_rowsOf.2 ⟨List.mem_filter.2 ⟨hstored, ?_⟩, hpid⟩, by simpa using hkind⟩
        simp [hversion]
      · refine ⟨row, mem_rowsOf.2 ⟨List.mem_filter.2 ⟨hmem, ?_⟩, hid⟩, hp⟩
        simp [hid, hother]

theorem keeps_or_hasPurge_dropPurgedHistory (recordIds : List RecordId) :
    KeepsSynced recordId db (db.dropPurgedHistory recordIds) ∨
      HasPurge recordId (db.dropPurgedHistory recordIds) := by
  unfold LocalDb.dropPurgedHistory
  generalize recordIds.eraseDups = ids
  have hloop : ∀ start, KeepsSynced recordId db start ∨ HasPurge recordId start →
      KeepsSynced recordId db (ids.foldl dropPurgedHistoryOf start) ∨
        HasPurge recordId (ids.foldl dropPurgedHistoryOf start) := by
    induction ids with
    | nil => exact fun _ h => h
    | cons id ids ih =>
        refine fun start h => ih _ ?_
        rcases h with hkeeps | hpurge
        · by_cases hid : recordId = id
          · subst hid
            cases hnewest : newestPurge start recordId with
            | none =>
                left
                unfold dropPurgedHistoryOf
                rw [hnewest]
                exact hkeeps
            | some version =>
                obtain ⟨purge, hpurge, -⟩ := List.mem_map.1 (List.max?_mem hnewest)
                obtain ⟨hmine, hkind⟩ := List.mem_filter.1 hpurge
                have hhas : HasPurge recordId start := ⟨purge, hmine, by simpa using hkind⟩
                exact Or.inr (hhas.dropPurgedHistoryOf recordId)
          · left
            refine hkeeps.trans ?_
            unfold dropPurgedHistoryOf
            split
            · exact .of_eq rfl
            · intro row hrow _
              obtain ⟨hmem, hrid⟩ := mem_rowsOf.1 hrow
              refine mem_rowsOf.2 ⟨List.mem_filter.2 ⟨hmem, ?_⟩, hrid⟩
              simp [hrid, hid]
        · exact Or.inr (hpurge.dropPurgedHistoryOf id)
  exact hloop db (Or.inl (.of_eq rfl))

/-- Rows that agree with what is there are stored beside it. -/
theorem mem_upsertRecords {rows : List EncryptedRecord} {record : EncryptedRecord}
    (h : { record := record, syncState := .synced } ∈ db.records ∨ record ∈ rows)
    (hagree : ∀ row ∈ rows, (row.recordId, row.version) = (record.recordId, record.version) →
      row = record) :
    { record := record, syncState := .synced } ∈ (upsertRecords rows db).records := by
  unfold upsertRecords
  induction rows generalizing db with
  | nil => exact h.resolve_right List.not_mem_nil
  | cons row rows ih =>
      refine ih ?_ fun r hr => hagree r (List.mem_cons_of_mem _ hr)
      by_cases hkey : (row.recordId, row.version) = (record.recordId, record.version)
      · obtain rfl := hagree row List.mem_cons_self hkey
        exact Or.inl (List.mem_append_right _ List.mem_cons_self)
      · refine h.imp (fun hmem => List.mem_append_left _ (List.mem_filter.2 ⟨hmem, ?_⟩))
          fun hmem => (List.mem_cons.1 hmem).resolve_left ?_
        · exact decide_eq_true fun heq => hkey heq.symm
        · rintro rfl
          exact hkey rfl

/-- **A page keeps what a device has** of a record whose vault it does not lose, and brings its
rows, when they agree with each other and with what is there and nothing is purged. -/
theorem keepsSynced_applySync {vaultOf : RecordId → VaultId} {known : EncryptedRecord → Prop}
    (h : RowsHold vaultOf known db) (ho : OutboxInvariant db)
    {batch : SyncBatch} {resolve : Option ConflictResolver} {now : Time}
    {newChangeId : RecordId → ChangeId} {vaultsChanged : Bool}
    (hresolve : MergesItsRecord resolve)
    (hok : applySync batch resolve now newChangeId db = .ok (db', vaultsChanged))
    (hagree : ∀ row ∈ batch.pulled, row.recordId = recordId → ∀ record : EncryptedRecord,
      (({ record := record, syncState := .synced } : LocalRow) ∈ db.rowsOf recordId ∨
        record ∈ batch.pulled) → record.recordId = recordId → row.version = record.version →
        row = record)
    (hpurge : ¬HasPurge recordId db') :
    (vaultOf recordId ∉ (lostVaults db.vaults batch.vaults).map (·.vaultId) →
        KeepsSynced recordId db db') ∧
      ∀ row ∈ batch.pulled, row.recordId = recordId →
        { record := row, syncState := .synced } ∈ db'.rowsOf recordId := by
  obtain ⟨db₁, hrebase, rfl⟩ := of_applySync hok
  have ho' := outboxInvariant_applyVaults h ho batch now
  have hdeletes : Transacts (fun _ => True) True _ (dropDeletesOfPurged batch.pulled _) :=
    transacts_dropDeletesOfPurged ho' batch.pulled
  -- What is there once the pulled rows are stored stays.
  have hstored : ∀ record : EncryptedRecord, record.recordId = recordId →
      (({ record := record, syncState := .synced } : LocalRow) ∈ db.rowsOf recordId ∨
        record ∈ batch.pulled) →
      (({ record := record, syncState := .synced } : LocalRow) ∈ db₁.records ∨
        record ∈ batch.pulled) →
      ({ record := record, syncState := .synced } : LocalRow) ∈
        ((upsertRecords batch.pulled db₁).dropPurgedHistory
          (batch.pulled.map (·.recordId))).rowsOf recordId := by
    intro record hid hthere hmem
    have hupsert : ({ record := record, syncState := .synced } : LocalRow) ∈
        (upsertRecords batch.pulled db₁).records := by
      refine mem_upsertRecords hmem fun row hrow hkey => ?_
      obtain ⟨hrid, hversion⟩ := Prod.mk.inj hkey
      exact hagree row hrow (hrid.trans hid) record hthere hid hversion
    rcases keeps_or_hasPurge_dropPurgedHistory (batch.pulled.map (·.recordId)) with hkeeps | hhas
    · exact hkeeps _ (mem_rowsOf.2 ⟨hupsert, hid⟩) rfl
    · exact absurd hhas hpurge
  refine ⟨fun hvault row hrow hs => ?_, fun row hrow hid => hstored row hid (Or.inr hrow)
    (Or.inr hrow)⟩
  have hvaults : KeepsSynced recordId db (applyVaults batch now db) := by
    have hdropped : KeepsSynced recordId db (dropVaults _ db) := .dropVaults h hvault
    refine hdropped.trans (.of_eq ?_)
    unfold applyVaults
    dsimp only
    split <;> rfl
  obtain ⟨record, state⟩ := row
  obtain rfl : state = .synced := by simpa [LocalRow.isSynced] using hs
  have hrebased := KeepsSynced.rebasePendingVersions hdeletes.outbox hresolve hrebase _
    (KeepsSynced.dropDeletesOfPurged batch.pulled _ (hvaults _ hrow hs) hs) hs
  exact hstored record (mem_rowsOf.1 hrow).2 (Or.inl hrow) (Or.inl (mem_rowsOf.1 hrebased).1)

end KeepsSynced

end Passmgr
