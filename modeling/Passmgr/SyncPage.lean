/-
# The pages of a pull

`record.sync` of `apps/server/src/record/router.ts`, statement by statement, and the loop of
`packages/client/src/sync-manager.ts` that pulls and applies its pages.  The server reads the
user's vaults first and then the rows of one vault after the other, each in a statement of its own,
so pushes commit in between.

Main definitions:

* `SyncPage`, `Scan` — a page, and a page being read;
* `startPage`, `readVault`, `finishPage` — the statements of `record.sync`;
* `advanced` — whether a cursor moved;
* `Pull`, `PullStep`, `LoopStep` — the pull of one device, among everything else that happens.
-/

import Passmgr.LocalSync
import Passmgr.PushStore

set_option relaxedAutoImplicit false
set_option autoImplicit false

namespace Passmgr

/-! ### The server -/

/-- `MIN_SYNC_RECORDS`. -/
def minSyncRecords : ℕ := 50

/-- `MAX_SYNC_RECORDS`. -/
def maxSyncRecords : ℕ := 500

/-- `syncInputSchema`: what a device may ask for. -/
def SyncLimit (limit : ℕ) : Prop := minSyncRecords ≤ limit ∧ limit ≤ maxSyncRecords

/-- The answer of `record.sync`, with its rows as the server reads them. -/
structure SyncPage where
  rows : List RecordRow
  vaults : List MemberVault
  cursors : List (VaultId × ℕ)
  hasMore : Bool
  serverTimestamp : Time
  deriving DecidableEq, Repr

/-- The answer as the device applies it. -/
def SyncPage.batch (page : SyncPage) : SyncBatch where
  records := page.rows.map serializeRecord
  vaults := page.vaults
  cursors := page.cursors
  serverTimestamp := page.serverTimestamp

/-- A page being read: the vaults that are still to read, and the rows so far. -/
structure Scan where
  limit : ℕ
  vaults : List MemberVault
  cursors : List (VaultId × ℕ)
  rest : List VaultId
  rows : List RecordRow
  serverTimestamp : Time
  deriving DecidableEq, Repr

/-- A vault's next cursor is the highest seq pulled from it. -/
def nextCursors (cursors : List (VaultId × ℕ)) (rows : List RecordRow) : List (VaultId × ℕ) :=
  rows.foldl (fun cursors row =>
    cursors.map fun entry =>
      if entry.1 = row.vaultId then (entry.1, max entry.2 row.seq) else entry) cursors

/-- The page of what was read. -/
def finishPage (scan : Scan) (hasMore : Bool) : SyncPage where
  rows := scan.rows
  vaults := scan.vaults
  cursors := nextCursors scan.cursors scan.rows
  hasMore := hasMore
  serverTimestamp := scan.serverTimestamp

/-- The rows of a vault past a cursor, in the order of their seqs: at most `limit` of them. -/
def rowsPast (db : Db) (vaultId : VaultId) (cursor limit : ℕ) : List RecordRow :=
  (((db.rowsIn vaultId).filter (cursor < ·.seq)).insertionSort fun a b => a.seq ≤ b.seq).take limit

/-- The first statement: the user's vaults, each from its own cursor, in the order they are read. -/
def startPage (db : Db) (userId : UserId) (cursors : List (VaultId × ℕ)) (limit : ℕ) (now : Time) :
    Scan where
  limit := limit
  vaults := db.memberVaults userId
  cursors := (db.memberVaults userId).map fun v => (v.vaultId, cursorOf cursors v.vaultId)
  rest := ((db.memberVaults userId).map (·.vaultId)).insertionSort (· ≤ ·)
  rows := []
  serverTimestamp := now

/-- The statement that reads the rows of a vault.  One row past the page tells whether more wait. -/
def readVault (db : Db) (vaultId : VaultId) (rest : List VaultId) (scan : Scan) : Scan × Bool :=
  let room := scan.limit - scan.rows.length
  let rows := rowsPast db vaultId (cursorOf scan.cursors vaultId) (room + 1)
  ({ scan with rest := rest, rows := scan.rows ++ rows.take room }, room < rows.length)

/-! ### The device -/

/-- Whether some vault's cursor moved forward; a vault without one is at 0. -/
def advanced (before after : List (VaultId × ℕ)) : Bool :=
  after.any fun entry => cursorOf before entry.1 < entry.2

/-- Where the loop of `pullAll` is. -/
inductive PullPhase
  | idle
  /-- A page was asked for, past these cursors. -/
  | asked (cursors : List (VaultId × ℕ)) (limit : ℕ)
  /-- The server is reading it. -/
  | reading (cursors : List (VaultId × ℕ)) (scan : Scan)
  /-- Its answer is on the way. -/
  | answered (cursors : List (VaultId × ℕ)) (page : SyncPage)

/-- The server, one device and its pull.  `received` are the rows of the pages the device applied, of
the vaults it did not lose since. -/
structure Pull where
  store : Store
  device : LocalDb
  received : List RecordRow
  phase : PullPhase

/-- What a device has received once it applied a page. -/
def receivedAfter (device : LocalDb) (received : List RecordRow) (page : SyncPage) :
    List RecordRow :=
  received.filter (·.vaultId ∉ (lostVaults device.vaults page.vaults).map (·.vaultId)) ++
    page.rows.filter (·.vaultId ∈ page.vaults.map (·.vaultId))

/-- The steps of the loop itself. -/
inductive LoopStep (userId : UserId) (s : Pull) : Pull → Prop
  /-- The server reads the vaults. -/
  | start (cursors : List (VaultId × ℕ)) (limit : ℕ) (now : Time)
      (hphase : s.phase = .asked cursors limit) :
      LoopStep userId s { s with
        phase := .reading cursors (startPage s.store.db userId cursors limit now) }
  /-- The server reads the rows of the next vault. -/
  | read (cursors : List (VaultId × ℕ)) (scan : Scan) (vaultId : VaultId) (rest : List VaultId)
      (hphase : s.phase = .reading cursors scan) (hrest : scan.rest = vaultId :: rest) :
      LoopStep userId s { s with
        phase :=
          match readVault s.store.db vaultId rest scan with
          | (scan, true) => .answered cursors (finishPage scan true)
          | (scan, false) => .reading cursors scan }
  /-- The server read all vaults. -/
  | finish (cursors : List (VaultId × ℕ)) (scan : Scan) (hphase : s.phase = .reading cursors scan)
      (hrest : scan.rest = []) :
      LoopStep userId s { s with phase := .answered cursors (finishPage scan false) }
  /-- The device applies the page, and asks for the next one when there is more and a cursor
  moved. -/
  | apply (cursors : List (VaultId × ℕ)) (page : SyncPage) (resolve : Option ConflictResolver)
      (now : Time) (newChangeId : RecordId → ChangeId) (limit : ℕ) (device : LocalDb)
      (vaultsChanged : Bool) (hphase : s.phase = .answered cursors page) (hlimit : SyncLimit limit)
      (happly : applySync page.batch resolve now newChangeId s.device =
        .ok (device, vaultsChanged)) :
      LoopStep userId s {
        store := s.store
        device := device
        received := receivedAfter s.device s.received page
        phase :=
          if page.hasMore && advanced cursors device.syncCursors then
            .asked device.syncCursors limit
          else .idle }

/-- What happens: pushes and other changes on the server, local writes, the steps of the loop, its
start, and failures that end it. -/
inductive PullStep (quotaBytes : ℕ) (userId : UserId) (s : Pull) : Pull → Prop
  | server (store : Store) (h : StoreStep quotaBytes s.store store) :
      PullStep quotaBytes userId s { s with store := store }
  | write (device : LocalDb) (hvaults : device.vaults = s.device.vaults)
      (hcursors : device.syncCursors = s.device.syncCursors) :
      PullStep quotaBytes userId s { s with device := device }
  | ask (limit : ℕ) (hphase : s.phase = .idle) (hlimit : SyncLimit limit) :
      PullStep quotaBytes userId s { s with phase := .asked s.device.syncCursors limit }
  | loop (t : Pull) (h : LoopStep userId s t) : PullStep quotaBytes userId s t
  | fail : PullStep quotaBytes userId s { s with phase := .idle }

end Passmgr
