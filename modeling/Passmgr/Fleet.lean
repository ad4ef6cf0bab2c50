/-
# Devices and the server

Any number of devices of any users and one server, one step at a time: a device writes to its
database, pushes its outbox and takes the answers one by one, or pulls page by page; between two
steps of a device the others take theirs, and whatever is no push may happen on the server.  An
answer may get lost, and a device may stop anywhere.

Ids are random, so no two devices draw the same id for a change, and no id is drawn twice; and the
id of a record says which vault it was made in.

Main definitions:

* `RandomIds`, `Device` — what the random ids say, and a device with what it is doing;
* `LocalWrite` — the transactions of a device outside a round;
* `DeviceStep`, `DeviceStart` — the steps of a device, and a device before its first step;
* `FleetStep`, `start` — the whole system, as an interleaving of its devices;
* `SteadyPull` — no vault is removed from a device that waits for a page.
-/

import Passmgr.Interleaving
import Passmgr.PushOutbox
import Passmgr.RebaseKeeps
import Passmgr.SyncPage

set_option relaxedAutoImplicit false
set_option autoImplicit false

namespace Passmgr.Fleet

/-- What random ids say: the device that drew the id of a change, and the vault a record was made
in. -/
structure RandomIds where
  drawnBy : ChangeId → ℕ
  vaultOf : RecordId → VaultId

/-- The round of a device. -/
inductive Phase
  | idle
  /-- These changes are still to be pushed; some records had one that wasn't applied. -/
  | pushing (todo : List PendingChange) (failed : List RecordId)
  /-- The server has processed a batch; the answers to these changes of it are still to be taken. -/
  | taking (batch : List PendingChange) (results : List PushResult) (todo : List PendingChange)
      (failed : List RecordId)
  | pulling (pull : PullPhase)

/-- A device of a user.  `received` are the rows of the pages it applied, of the vaults it did not
lose since. -/
structure Device where
  userId : UserId
  db : LocalDb
  received : List RecordRow
  phase : Phase

/-- The loop of `pullAll`, where a device is in it. -/
def Device.pull (d : Device) : PullPhase :=
  match d.phase with
  | .pulling pull => pull
  | _ => .idle

/-- The changes of a push under way. -/
def Device.todo (d : Device) : List PendingChange :=
  match d.phase with
  | .pushing todo _ => todo
  | .taking _ _ todo _ => todo
  | _ => []

/-! ### Writes on a device -/

/-- New records are made in their vaults. -/
def MadeIn (ids : RandomIds) (changes : List (LocalRecordChange × ChangeId)) : Prop :=
  ∀ change ∈ changes, ∀ ciphertext, change.1 = .create ciphertext →
    ciphertext.vaultId = ids.vaultOf ciphertext.recordId

/-- What a device writes outside a round, each in one transaction. -/
inductive LocalWrite (ids : RandomIds) (fresh : ChangeId → Prop) (db : LocalDb) : LocalDb → Prop
  | writes (now : Time) (changes : List (LocalRecordChange × ChangeId)) (db' : LocalDb)
      (hfresh : ∀ change ∈ changes, fresh change.2) (hmade : MadeIn ids changes)
      (h : writeLocalChanges now db changes = .ok db') : LocalWrite ids fresh db db'
  | purges (now : Time) (records : List (RecordId × ChangeId)) (db' : LocalDb)
      (hfresh : ∀ record ∈ records, fresh record.2)
      (h : purgeRecords now db records = .ok db') : LocalWrite ids fresh db db'
  /-- New versions of records under the current keys of their vaults. -/
  | reencrypts (now : Time) (versions : List (RecordCiphertext × ℕ × ChangeId)) (db' : LocalDb)
      (hfresh : ∀ version ∈ versions, fresh version.2.2)
      (h : writeReencryptedVersions now db versions = .ok db') : LocalWrite ids fresh db db'
  /-- The pending versions under other keys, in place. -/
  | replaces (versions : List ReencryptedVersion) :
      LocalWrite ids fresh db (replacePendingCiphertexts versions db)
  | retries : LocalWrite ids fresh db (retryParkedChanges db)
  /-- Copies of what a lost vault kept, into another one. -/
  | rescues (vaultId : VaultId) (now : Time) (changes : List (LocalRecordChange × ChangeId))
      (db' : LocalDb) (hfresh : ∀ change ∈ changes, fresh change.2) (hmade : MadeIn ids changes)
      (h : rescueRevokedVault vaultId now db changes = .ok db') : LocalWrite ids fresh db db'

/-! ### The steps of a device -/

/-- What `pushBatch` may send: of each record the next changes, and none of a record with a change
that wasn't applied. -/
structure Sendable (todo : List PendingChange) (failed : List RecordId)
    (batch : List PendingChange) : Prop where
  next : ∀ recordId, changesOf recordId batch <+: changesOf recordId todo
  ok : ∀ change ∈ batch, change.recordId ∉ failed

/-- A push whose run stands at some records that had a change that wasn't applied. -/
def pushRunOf (db : LocalDb) (failed : List RecordId) : PushRun Unit where
  db := db
  server := ()
  failed := failed
  storageFull := false
  log := []

/-- An id of device `i` that neither the server nor a push under way knows. -/
def Unused (ids : RandomIds) (i : ℕ) (store : Store) (d : Device) (changeId : ChangeId) : Prop :=
  ids.drawnBy changeId = i ∧ changeId ∉ store.written.map (·.clientChangeId) ∧
    changeId ∉ d.todo.map (·.changeId)

/-- The steps of device `i`. -/
inductive DeviceStep (ids : RandomIds) (quotaBytes : ℕ) (i : ℕ) (store : Store) (d : Device) :
    Store → Device → Prop
  | write (db : LocalDb) (h : LocalWrite ids (Unused ids i store d) d.db db) :
      DeviceStep ids quotaBytes i store d store { d with db := db }
  /-- A vault is removed from the device, its unsent changes kept aside or not; a round that is under
  way goes on. -/
  | removeVault (vaultId : VaultId) (keepUnsent : Bool) (now : Time) (db : LocalDb)
      (h : removeVault vaultId keepUnsent now d.db = .ok db) :
      DeviceStep ids quotaBytes i store d store
        { d with db := db, received := d.received.filter (·.vaultId ≠ vaultId) }
  /-- `pushOutbox` reads the outbox. -/
  | startPush (hphase : d.phase = .idle) :
      DeviceStep ids quotaBytes i store d store
        { d with phase := .pushing (unheldChanges (getPendingChanges d.db)) [] }
  /-- The server processes a batch. -/
  | send (todo : List PendingChange) (failed : List RecordId) (batch : List PendingChange)
      (now : Time) (pushed : Pushed) (hphase : d.phase = .pushing todo failed)
      (hbatch : Sendable todo failed batch)
      (h : pushChanges quotaBytes store.db d.userId now (batch.map toPushChange) = .ok pushed) :
      DeviceStep ids quotaBytes i store d
        { db := pushed.db, written := store.written ++ pushed.written }
        { d with phase := .taking batch (pushed.results.filterMap id) todo failed }
  /-- The answer to a change is taken. -/
  | take (change : PendingChange) (batch : List PendingChange) (results : List PushResult)
      (todo : List PendingChange) (failed : List RecordId) (now : Time)
      (hphase : d.phase = .taking (change :: batch) results todo failed) (run : PushRun Unit)
      (hrun : run = takeResult now results (pushRunOf d.db failed) change) :
      DeviceStep ids quotaBytes i store d store
        { d with
          db := run.db
          phase := .taking batch results (todo.filter (·.changeId ≠ change.changeId)) run.failed }
  /-- All answers to a batch are taken, or they got lost and the push goes on without them. -/
  | taken (batch : List PendingChange) (results : List PushResult) (todo : List PendingChange)
      (failed : List RecordId) (hphase : d.phase = .taking batch results todo failed) :
      DeviceStep ids quotaBytes i store d store { d with phase := .pushing todo failed }
  /-- The changes of one record count as failed: nothing came back for them. -/
  | giveUp (todo : List PendingChange) (failed : List RecordId) (batch : List PendingChange)
      (recordId : RecordId) (message : Text) (now : Time)
      (hphase : d.phase = .pushing todo failed)
      (hbatch : ∀ change ∈ batch, change.recordId = recordId) :
      DeviceStep ids quotaBytes i store d store
        { d with
          db := (batch.foldl (failChange now message) (pushRunOf d.db failed)).db
          phase := .pushing todo (failed ++ [recordId]) }
  /-- `pullAll` asks for a page. -/
  | ask (limit : ℕ) (hphase : d.phase = .idle) (hlimit : SyncLimit limit) :
      DeviceStep ids quotaBytes i store d store
        { d with phase := .pulling (.asked d.db.syncCursors limit) }
  /-- The server reads the page. -/
  | read (pull : PullPhase) (s : Pull) (hphase : d.phase = .pulling pull)
      (hreads : ∀ cursors page, pull ≠ .answered cursors page)
      (h : LoopStep d.userId ⟨store, d.db, d.received, pull⟩ s) :
      DeviceStep ids quotaBytes i store d store { d with phase := .pulling s.phase }
  /-- The device applies the page, merging with the client's resolver or another one that answers
  for the record it is asked about. -/
  | apply (cursors : List (VaultId × ℕ)) (page : SyncPage) (resolve : Option ConflictResolver)
      (now : Time) (newChangeId : RecordId → ChangeId) (limit : ℕ) (db : LocalDb)
      (vaultsChanged : Bool) (hphase : d.phase = .pulling (.answered cursors page))
      (hlimit : SyncLimit limit) (hrecord : MergesItsRecord resolve)
      (hvault : MergesInVault resolve)
      (hfresh : ∀ recordId, Unused ids i store d (newChangeId recordId))
      (h : applySync page.batch resolve now newChangeId d.db = .ok (db, vaultsChanged)) :
      DeviceStep ids quotaBytes i store d store
        { d with
          db := db
          received := receivedAfter d.db d.received page
          phase := .pulling
            (if page.hasMore && advanced cursors db.syncCursors then .asked db.syncCursors limit
            else .idle) }
  /-- The round ends, or it fails, or the app is closed. -/
  | stop : DeviceStep ids quotaBytes i store d store { d with phase := .idle }

/-- A device before its first step: it has neither records nor pulled anything. -/
structure DeviceStart (d : Device) : Prop where
  records : d.db.records = []
  outbox : d.db.outbox = []
  cursors : d.db.syncCursors = []
  received : d.received = []
  phase : d.phase = .idle

/-! ### The whole system -/

/-- A step of a device, as a command of an interleaving. -/
def deviceCommand (ids : RandomIds) (quotaBytes : ℕ) : Interleaving.Command Store Device :=
  fun i store d store' rest => ∃ d', rest = some d' ∧ DeviceStep ids quotaBytes i store d store' d'

/-- What else happens on the server: memberships, roles, keys and accounts change, but no record. -/
def ServerChange (store store' : Store) : Prop :=
  KeepsRecords store.db store'.db ∧ store'.written = store.written

/-- A new device, a step of a device, or a change on the server. -/
abbrev FleetStep (ids : RandomIds) (quotaBytes : ℕ) :
    Interleaving.State Store Device → Interleaving.State Store Device → Prop :=
  Interleaving.Step DeviceStart (deviceCommand ids quotaBytes) ServerChange

/-- A device that goes on waiting for a page still has the cursors it asked with, and all it
received: no vault is removed from it meanwhile. -/
def SteadyPull (d d' : Device) : Prop :=
  d.pull ≠ .idle → d'.pull = d.pull →
    d'.db.syncCursors = d.db.syncCursors ∧ d'.received = d.received

/-- All devices that wait for a page do so. -/
def SteadyPulls (s t : Interleaving.State Store Device) : Prop :=
  ∀ i d d', s.calls i = some d → t.calls i = some d' → SteadyPull d d'

/-- No device yet, and a store without records. -/
def start (db : Db) : Interleaving.State Store Device :=
  Interleaving.State.idle { db := db, written := [] }

end Passmgr.Fleet
