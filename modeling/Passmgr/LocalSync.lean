/-
# Applying a pull on a device

`applySync` of `packages/store/src/vault.ts` with what it calls of `outbox-schema.ts`: rows another
device wrote take their slots, the pending versions they collide with move up and are merged, and
the history below a purge goes.

The conflict resolver is a parameter: it may return a merge, nothing to append, or throw.

Main definitions:

* `dropDeletesOfPurged`, `dropPurgedHistory` — what a pulled purge takes along;
* `rebasePendingVersions` — pending versions make room for pulled ones;
* `SyncBatch`, `applySync` — one pulled page, applied in one transaction.
-/

import Passmgr.GroupBy
import Passmgr.LocalWrites
import Passmgr.Run

set_option relaxedAutoImplicit false
set_option autoImplicit false

namespace Passmgr

/-! ### Pulled purges -/

/-- The newest version of a record among some rows. -/
def newestOf (rows : List EncryptedRecord) (recordId : RecordId) : ℕ :=
  ((rows.filter (·.recordId = recordId)).map (·.version)).foldr max 0

/-- One turn of `dropDeletesOfPurged`. -/
def dropDeletesOf (incoming : List EncryptedRecord) (db : LocalDb) (row : EncryptedRecord) :
    LocalDb :=
  if row.tombstoneKind ≠ some .purged ∨ newestOf incoming row.recordId ≠ row.version then db
  else
    match getHead row.recordId db with
    | none => db
    | some head =>
      if !head.isPending ∨ head.record.deletedAt.isNone then db
      else if ((db.newestSynced row.recordId).map (·.record.version)).getD 0 > row.version then db
      else { db with
        outbox := db.outbox.filter (·.recordId ≠ row.recordId)
        records := db.records.filter fun r =>
          !(r.record.recordId = row.recordId && r.isPending) }

/-- `dropDeletesOfPurged`: a pending chain that ends in a delete goes with a pulled purge, it wanted
the same. -/
def dropDeletesOfPurged (incoming : List EncryptedRecord) (db : LocalDb) : LocalDb :=
  incoming.foldl (dropDeletesOf incoming) db

/-- The number of a record's newest purged tombstone, pulled or pending. -/
def newestPurge (db : LocalDb) (recordId : RecordId) : Option ℕ :=
  (((db.rowsOf recordId).filter fun row => row.record.tombstoneKind = some .purged).map
    (·.record.version)).max?

/-- `dropPurgedHistory` of one record: drop the synced versions below its newest purge. -/
def dropPurgedHistoryOf (db : LocalDb) (recordId : RecordId) : LocalDb :=
  match newestPurge db recordId with
  | none => db
  | some version =>
    { db with
      records := db.records.filter fun row =>
        !(row.record.recordId = recordId && row.isSynced && row.record.version < version) }

namespace LocalDb

/-- `dropPurgedHistory`. -/
def dropPurgedHistory (recordIds : List RecordId) (db : LocalDb) : LocalDb :=
  recordIds.eraseDups.foldl dropPurgedHistoryOf db

end LocalDb

/-! ### Colliding versions -/

/-- A record edited here and on the server since this device last synced it, oldest first. -/
structure RecordConflict where
  base : EncryptedRecord
  «local» : List EncryptedRecord
  remote : List EncryptedRecord
  receivedAt : Time
  deriving DecidableEq, Repr

/-- What a `ConflictResolver` does: throw, or answer the merged version to append, if any. -/
inductive Resolution
  | throws
  | merged (ciphertext : Option RecordCiphertext)
  deriving DecidableEq, Repr

abbrev ConflictResolver := RecordConflict → Resolution

/-- Renumber a local version and its outbox entry. -/
def shiftVersion (recordId : RecordId) (shift : ℕ) (db : LocalDb) (version : ℕ) :
    Except LocalError LocalDb :=
  if (db.row? recordId version).isSome ∧ shift ≠ 0 ∧
      (db.row? recordId (version + shift)).isSome then .error .constraint
  else .ok { db with
    records := db.records.map fun row =>
      if row.key = (recordId, version) then
        { row with record := { row.record with version := version + shift } }
      else row
    outbox := db.outbox.map fun entry =>
      if entry.key = (recordId, version) then { entry with version := version + shift }
      else entry }

/-- The pulled rows of a record from the number of its first pending version on, in order. -/
def collidingRows (incoming : List EncryptedRecord) (recordId : RecordId) (first : ℕ) :
    List EncryptedRecord :=
  ((GroupBy.group (·.recordId) recordId incoming).filter (first ≤ ·.version)).insertionSort
    fun a b => a.version ≤ b.version

/-- The version below the first pending one, here or among the pulled rows. -/
def baseOf (incoming : List EncryptedRecord) (db : LocalDb) (recordId : RecordId) (first : ℕ) :
    Option EncryptedRecord :=
  ((db.rowsOf recordId).find? (·.record.version + 1 = first)).map (·.record) |>.or
    ((GroupBy.group (·.recordId) recordId incoming).find? (·.version + 1 = first))

/-- `rebasePendingVersions` of one pending chain. -/
def rebaseChain (incoming : List EncryptedRecord) (resolve : Option ConflictResolver)
    (receivedAt now : Time) (newChangeId : RecordId → ChangeId) (db : LocalDb)
    (chain : RecordId × List EncryptedRecord) : Except LocalError LocalDb :=
  let first := (chain.2.head?.map (·.version)).getD 0
  let remote := collidingRows incoming chain.1 first
  -- Pending versions always sit above the synced ones, so only pulled rows can collide.
  match remote.getLast? with
  | none => .ok db
  | some serverHead => do
    let base := baseOf incoming db chain.1 first
    let shift := serverHead.version + 1 - first
    -- Highest first: each row moves into a slot already vacated.
    let db ← (chain.2.reverse.map (·.version)).foldlM (shiftVersion chain.1 shift) db
    -- A purge has nothing to merge: whichever side came last stays on top.
    let purged := (chain.2 ++ remote).any (·.tombstoneKind = some .purged)
    match resolve, base, purged with
    | some resolve, some base, false =>
      match resolve {
          base := base
          «local» := chain.2.map fun row => { row with version := row.version + shift }
          remote := remote
          receivedAt := receivedAt } with
      | .throws => pure db
      | .merged none => pure db
      | .merged (some ciphertext) =>
        let (db, _) ← writeLocalChange (.update ciphertext) now (newChangeId chain.1) db
        pure db
    | _, _, _ => pure db

/-- The conflict a pending chain is resolved as, if it is merged at all: its versions as they stand
once moved up. -/
def conflictOf (incoming : List EncryptedRecord) (receivedAt : Time) (db : LocalDb)
    (chain : RecordId × List EncryptedRecord) : Option RecordConflict :=
  let first := (chain.2.head?.map (·.version)).getD 0
  let remote := collidingRows incoming chain.1 first
  match remote.getLast?, baseOf incoming db chain.1 first,
    (chain.2 ++ remote).any (·.tombstoneKind = some .purged) with
  | some serverHead, some base, false =>
    some {
      base := base
      «local» := chain.2.map fun row =>
        { row with version := row.version + (serverHead.version + 1 - first) }
      remote := remote
      receivedAt := receivedAt }
  | _, _, _ => none

/-- `rebasePendingVersions`: make room for server versions that collide with local pending ones. -/
def rebasePendingVersions (incoming : List EncryptedRecord) (resolve : Option ConflictResolver)
    (receivedAt now : Time) (newChangeId : RecordId → ChangeId) (db : LocalDb) :
    Except LocalError LocalDb :=
  (GroupBy.groupBy (·.recordId) db.pendingRows).foldlM
    (rebaseChain incoming resolve receivedAt now newChangeId) db

/-! ### A page -/

/-- One pull from the server: changed records plus the full list of the user's vaults. -/
structure SyncBatch where
  records : List EncryptedRecord
  vaults : List MemberVault
  cursors : List (VaultId × ℕ)
  serverTimestamp : Time
  deriving DecidableEq, Repr

/-- The cached vaults that are not in a list of the user's vaults any more. -/
def lostVaults (cached vaults : List MemberVault) : List MemberVault :=
  cached.filter fun v => v.vaultId ∉ vaults.map (·.vaultId)

/-- The pulled rows of a page are those of its vaults. -/
def SyncBatch.pulled (batch : SyncBatch) : List EncryptedRecord :=
  batch.records.filter (·.vaultId ∈ batch.vaults.map (·.vaultId))

/-- The cursors of a page are those of its vaults. -/
def SyncBatch.currentCursors (batch : SyncBatch) : List (VaultId × ℕ) :=
  batch.cursors.filter (·.1 ∈ batch.vaults.map (·.vaultId))

/-- The first part of `applySync`: vaults the user lost access to are dropped, their unsent edits
kept for rescue, and the vault list is replaced. -/
def applyVaults (batch : SyncBatch) (now : Time) (db : LocalDb) : LocalDb :=
  let lost := lostVaults db.vaults batch.vaults
  let vaultsChanged := !sameVaults db.vaults batch.vaults
  let db := dropVaults (lost.map (·.vaultId)) (keepRevokedChanges lost now db)
  if vaultsChanged then replaceVaults batch.vaults db else db

/-- `applySync`: apply one pull atomically.  Resolves whether the vault list changed. -/
def applySync (batch : SyncBatch) (resolve : Option ConflictResolver) (now : Time)
    (newChangeId : RecordId → ChangeId) (db : LocalDb) : Except LocalError (LocalDb × Bool) := do
  let vaultsChanged := !sameVaults db.vaults batch.vaults
  let db := dropDeletesOfPurged batch.pulled (applyVaults batch now db)
  let db ← rebasePendingVersions batch.pulled resolve batch.serverTimestamp now newChangeId db
  let db := upsertRecords batch.pulled db
  let db := db.dropPurgedHistory (batch.pulled.map (·.recordId))
  pure (setSyncCursors batch.currentCursors db, vaultsChanged)

/-! ### What a page leaves alone -/

/-- Only record versions and outbox entries differ. -/
structure SameOutside (a b : LocalDb) : Prop where
  vaults : b.vaults = a.vaults
  syncCursors : b.syncCursors = a.syncCursors
  profile : b.profile = a.profile

namespace SameOutside

theorem refl (a : LocalDb) : SameOutside a a := ⟨rfl, rfl, rfl⟩

theorem trans {a b c : LocalDb} (hab : SameOutside a b) (hbc : SameOutside b c) :
    SameOutside a c :=
  ⟨hbc.vaults.trans hab.vaults, hbc.syncCursors.trans hab.syncCursors,
    hbc.profile.trans hab.profile⟩

end SameOutside

section Frame

variable {db db' : LocalDb}

/-- A loop leaves alone what each of its turns does. -/
theorem sameOutside_foldl {α : Type} {f : LocalDb → α → LocalDb}
    (hf : ∀ db a, SameOutside db (f db a)) (xs : List α) (db : LocalDb) :
    SameOutside db (xs.foldl f db) :=
  xs.foldlRecOn f (SameOutside.refl db) fun db' h a _ => h.trans (hf db' a)

theorem sameOutside_foldlM {α : Type} {f : LocalDb → α → Except LocalError LocalDb}
    (hf : ∀ db a db', f db a = .ok db' → SameOutside db db') (xs : List α)
    (h : xs.foldlM f db = .ok db') : SameOutside db db' :=
  Run.of_foldlM (fun db₁ db₂ a _ hsame ha => hsame.trans (hf db₁ a db₂ ha)) (SameOutside.refl db) h

theorem sameOutside_insertPending {row written : EncryptedRecord} {now : Time}
    {changeId : ChangeId} (h : insertPending row now changeId db = .ok (db', written)) :
    SameOutside db db' := by
  unfold insertPending at h
  dsimp only at h
  split at h
  · cases h
  split at h
  · cases h
  obtain ⟨rfl, -⟩ := Prod.mk.inj (Except.ok.inj h)
  exact ⟨rfl, rfl, rfl⟩

theorem sameOutside_writeLocalChange {change : LocalRecordChange} {written : EncryptedRecord}
    {now : Time} {changeId : ChangeId}
    (h : writeLocalChange change now changeId db = .ok (db', written)) : SameOutside db db' := by
  unfold writeLocalChange at h
  split at h
  · cases h
  · exact sameOutside_insertPending h
  · cases h
  · split at h
    · cases h
    · exact sameOutside_insertPending h
  · split at h
    · cases h
    · exact sameOutside_insertPending h

theorem sameOutside_shiftVersion {recordId : RecordId} {shift version : ℕ}
    (h : shiftVersion recordId shift db version = .ok db') : SameOutside db db' := by
  unfold shiftVersion at h
  split at h
  · cases h
  · obtain rfl := Except.ok.inj h
    exact ⟨rfl, rfl, rfl⟩

/-- What became of a pending chain: no pulled row collided with it, or it moved up, and the merge
of its conflict may have been appended. -/
theorem of_rebaseChain {incoming : List EncryptedRecord} {resolve : Option ConflictResolver}
    {receivedAt now : Time} {newChangeId : RecordId → ChangeId}
    {chain : RecordId × List EncryptedRecord}
    (h : rebaseChain incoming resolve receivedAt now newChangeId db chain = .ok db') :
    let first := (chain.2.head?.map (·.version)).getD 0
    let remote := collidingRows incoming chain.1 first
    (remote = [] ∧ db' = db) ∨
      ∃ serverHead db₁, remote.getLast? = some serverHead ∧
        (chain.2.reverse.map (·.version)).foldlM
          (shiftVersion chain.1 (serverHead.version + 1 - first)) db = .ok db₁ ∧
        (db' = db₁ ∨ ∃ f conflict ciphertext written, resolve = some f ∧
          baseOf incoming db chain.1 first = some conflict.base ∧ conflict.remote = remote ∧
          conflict.local = chain.2.map (fun row =>
            { row with version := row.version + (serverHead.version + 1 - first) }) ∧
          (∀ row ∈ chain.2 ++ remote, row.tombstoneKind ≠ some .purged) ∧
          f conflict = .merged (some ciphertext) ∧
          writeLocalChange (.update ciphertext) now (newChangeId chain.1) db₁ =
            .ok (db', written)) := by
  unfold rebaseChain at h
  dsimp only at h ⊢
  split at h
  · next hnone => exact Or.inl ⟨List.getLast?_eq_none_iff.1 hnone, (Except.ok.inj h).symm⟩
  · next serverHead hlast =>
      refine Or.inr ⟨serverHead, ?_⟩
      cases hshift : (chain.2.reverse.map (·.version)).foldlM
          (shiftVersion chain.1 (serverHead.version + 1 -
            (chain.2.head?.map (·.version)).getD 0)) db with
      | error e =>
          rw [hshift] at h
          cases h
      | ok db₁ =>
          rw [hshift] at h
          refine ⟨db₁, hlast, rfl, ?_⟩
          simp only [bind, Except.bind] at h
          split at h
          · next f base hbase hpurged =>
              split at h
              · exact Or.inl (Except.ok.inj h).symm
              · exact Or.inl (Except.ok.inj h).symm
              · next ciphertext hmerged =>
                  refine Or.inr ?_
                  split at h
                  · cases h
                  · next written hwrite =>
                      obtain ⟨db₂, written⟩ := written
                      obtain rfl := Except.ok.inj h
                      refine ⟨f, _, ciphertext, written, rfl, hbase, rfl, rfl, ?_, hmerged, hwrite⟩
                      intro row hrow
                      simpa using List.any_eq_false.1 hpurged row hrow
          · exact Or.inl (Except.ok.inj h).symm

/-- A resolver that throws leaves the plain move, as no resolver does. -/
theorem rebaseChain_of_throws {incoming : List EncryptedRecord} {resolve : ConflictResolver}
    {receivedAt : Time} {chain : RecordId × List EncryptedRecord}
    (h : ∀ conflict ∈ conflictOf incoming receivedAt db chain, resolve conflict = .throws)
    (now : Time) (newChangeId : RecordId → ChangeId) :
    rebaseChain incoming (some resolve) receivedAt now newChangeId db chain =
      rebaseChain incoming none receivedAt now newChangeId db chain := by
  unfold conflictOf at h
  unfold rebaseChain
  dsimp only at h ⊢
  cases hlast : (collidingRows incoming chain.1
      ((chain.2.head?.map (·.version)).getD 0)).getLast? with
  | none => rfl
  | some serverHead =>
      dsimp only
      congr 1
      funext moved
      split
      · next f base hresolve hbase hpurged =>
          obtain rfl := Option.some.inj hresolve
          rw [h _ (by rw [hlast, hbase, hpurged]; rfl)]
      · rfl

theorem sameOutside_rebasePendingVersions {incoming : List EncryptedRecord}
    {resolve : Option ConflictResolver} {receivedAt now : Time}
    {newChangeId : RecordId → ChangeId}
    (h : rebasePendingVersions incoming resolve receivedAt now newChangeId db = .ok db') :
    SameOutside db db' := by
  refine sameOutside_foldlM (fun db chain db' h => ?_) _ h
  rcases of_rebaseChain h with ⟨-, rfl⟩ | ⟨serverHead, db₁, -, hshift, hmerge⟩
  · exact SameOutside.refl _
  · have hmoved := sameOutside_foldlM (fun _ _ _ h => sameOutside_shiftVersion h) _ hshift
    rcases hmerge with rfl | ⟨_, _, _, _, -, -, -, -, -, -, hwrite⟩
    · exact hmoved
    · exact hmoved.trans (sameOutside_writeLocalChange hwrite)

theorem sameOutside_dropDeletesOfPurged (incoming : List EncryptedRecord) (db : LocalDb) :
    SameOutside db (dropDeletesOfPurged incoming db) := by
  refine sameOutside_foldl (fun db row => ?_) incoming db
  unfold dropDeletesOf
  split
  · exact SameOutside.refl db
  split
  · exact SameOutside.refl db
  split
  · exact SameOutside.refl db
  split
  · exact SameOutside.refl db
  exact ⟨rfl, rfl, rfl⟩

theorem sameOutside_upsertRecords (rows : List EncryptedRecord) (db : LocalDb) :
    SameOutside db (upsertRecords rows db) :=
  sameOutside_foldl (f := upsertRecord) (fun _ _ => ⟨rfl, rfl, rfl⟩) rows db

theorem sameOutside_dropPurgedHistory (recordIds : List RecordId) (db : LocalDb) :
    SameOutside db (db.dropPurgedHistory recordIds) := by
  refine sameOutside_foldl (fun db recordId => ?_) _ db
  unfold dropPurgedHistoryOf
  split
  · exact SameOutside.refl db
  · exact ⟨rfl, rfl, rfl⟩

/-- A page that is applied, in the order of its statements. -/
theorem of_applySync {batch : SyncBatch} {resolve : Option ConflictResolver} {now : Time}
    {newChangeId : RecordId → ChangeId} {vaultsChanged : Bool}
    (h : applySync batch resolve now newChangeId db = .ok (db', vaultsChanged)) :
    ∃ db₁, rebasePendingVersions batch.pulled resolve batch.serverTimestamp now newChangeId
        (dropDeletesOfPurged batch.pulled (applyVaults batch now db)) = .ok db₁ ∧
      db' = setSyncCursors batch.currentCursors
        ((upsertRecords batch.pulled db₁).dropPurgedHistory (batch.pulled.map (·.recordId))) := by
  unfold applySync at h
  simp only [bind, Except.bind] at h
  split at h
  · cases h
  · next db₁ hrebase =>
      obtain ⟨rfl, -⟩ := Prod.mk.inj (Except.ok.inj h)
      exact ⟨db₁, hrebase, rfl⟩

/-- The cursors once a page is applied: those of the lost vaults are gone, those of the page are
set. -/
theorem syncCursors_of_applySync {batch : SyncBatch} {resolve : Option ConflictResolver}
    {now : Time} {newChangeId : RecordId → ChangeId} {vaultsChanged : Bool}
    (h : applySync batch resolve now newChangeId db = .ok (db', vaultsChanged)) :
    db'.syncCursors = (db.syncCursors.filter
        (·.1 ∉ (lostVaults db.vaults batch.vaults).map (·.vaultId))).filter
          (fun entry => entry.1 ∉ batch.currentCursors.map (·.1)) ++ batch.currentCursors := by
  obtain ⟨db₁, hrebase, rfl⟩ := of_applySync h
  have hcursors : (applyVaults batch now db).syncCursors = db.syncCursors.filter
      (·.1 ∉ (lostVaults db.vaults batch.vaults).map (·.vaultId)) := by
    unfold applyVaults
    dsimp only
    split <;> rfl
  have hsame := (sameOutside_dropDeletesOfPurged batch.pulled (applyVaults batch now db)).trans
    ((sameOutside_rebasePendingVersions hrebase).trans
      ((sameOutside_upsertRecords batch.pulled db₁).trans
        (sameOutside_dropPurgedHistory (batch.pulled.map (·.recordId)) _)))
  rw [← hcursors, ← hsame.syncCursors]
  rfl

end Frame

end Passmgr
