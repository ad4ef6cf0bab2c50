/-
# `record.push`: applying a batch of changes

`apps/server/src/record/push.ts`.  The changes of a batch are grouped by record into chains.  Pass
one decides every chain against the newest stored version of its record, plans its new versions
and charges them to the storage budget of the vault's owner.  Then the source half of a move is
taken back when the batch had a chain over quota, and what is left is written with one seq bump per
vault; a purge among it drops the history below.

The whole of it runs in one transaction under the row locks of the vaults written to, so it is a
function of the tables it finds.

Main definitions:

* `decideChange`, `decideChain` — what pass one decides for a change and for a chain;
* `nextVersion`, `carryOut` — the planned versions of a chain and the answers given at once;
* `passOne` — all chains, with the budgets and the quota flag;
* `insertVersions`, `dropPurgedHistory` — writing;
* `pushChanges` — the transaction.
-/

import Mathlib.Data.List.MinMax
import Passmgr.GroupBy
import Passmgr.ServerTables

set_option relaxedAutoImplicit false
set_option autoImplicit false

namespace Passmgr

/-! ### Decisions -/

inductive Failure
  | stale (headVersion : ℕ)
  | rejected (reason : Rejection)
  deriving DecidableEq, Repr

/-- The answer a failure becomes. -/
def Failure.result (clientChangeId : ChangeId) : Failure → PushResult
  | .stale headVersion => .stale clientChangeId headVersion
  | .rejected reason => .rejected clientChangeId reason

/-- What pass one decided for a change. -/
inductive Outcome
  /-- A retry: the server has it already. -/
  | stored (row : RecordRow)
  /-- The record's next version. -/
  | append
  | failed (failure : Failure)
  deriving DecidableEq, Repr

/-- The record as pass one has it after the changes before. -/
structure SimulatedHead where
  version : ℕ
  vaultId : VaultId
  deriving DecidableEq, Repr

/-- What a new version needs from the one below it. -/
structure HeadContent where
  version : ℕ
  content : Ciphertext
  tombstoneKind : Option TombstoneKind
  deriving DecidableEq, Repr

/-- A version before it has its seq. -/
structure NewVersion where
  recordId : RecordId
  vaultId : VaultId
  userId : UserId
  content : Ciphertext
  version : ℕ
  clientUpdatedAt : Time
  clientChangeId : ChangeId
  tombstoneKind : Option TombstoneKind
  deletedAt : Option Time
  deriving DecidableEq, Repr

/-- What pass one checks a change against: write access and each vault's current key version. -/
structure VaultState where
  access : VaultId → Option (Option Rejection)
  keyVersions : VaultId → Option ℕ

structure Indexed where
  index : ℕ
  change : PushChange
  deriving DecidableEq, Repr

/-- A planned version and the index of the change it is for. -/
structure Planned where
  index : ℕ
  version : NewVersion
  deriving DecidableEq, Repr

abbrev Appended := List Planned

/-- `vaultAccess`: null when the user may write to the vault, else why not. -/
def vaultAccess (db : Db) (userId : UserId) (vaultIds : List VaultId) (vaultId : VaultId) :
    Option (Option Rejection) :=
  if vaultId ∈ vaultIds then
    match db.requireVaultRole userId vaultId vaultWriteRoles with
    | .ok _ => some none
    | .error .forbidden => some (some .forbidden)
    | .error .notFound => some (some .notFound)
  else none

/-- `decide`: one change against the record's simulated head.  A put on a tombstone restores the
record; a delete of a tombstone appends another one, so the numbering stays the client's. -/
def decideOnHead (change : PushChange) (head : Option SimulatedHead) (dbHeadVersion : ℕ) :
    Outcome :=
  match head with
  | none =>
    -- A version of a record the server doesn't have can never apply.
    if !change.op.isPut || change.baseVersion ≠ 0 then .failed (.rejected .notFound) else .append
  | some head =>
    -- A record never changes vaults; an id from another vault isn't probed.
    if head.vaultId ≠ change.vaultId then .failed (.rejected .notFound)
    else if change.baseVersion ≠ head.version then .failed (.stale dbHeadVersion)
    else .append

/-- Whether a put is not encrypted under the current key of its vault. -/
def underOldKey (keyVersions : VaultId → Option ℕ) (change : PushChange) : Bool :=
  match change.op with
  | .put content => some content.keyVersion ≠ keyVersions change.vaultId
  | .delete _ => false

/-- One change of a chain: access, then a retry, then the key, then compare-and-swap. -/
def decideChange (vaults : VaultState) (stored : PushChange → Option RecordRow)
    (dbHeadVersion : ℕ) (head : Option SimulatedHead) (change : PushChange) : Outcome :=
  match (vaults.access change.vaultId).getD (some .notFound) with
  | some denied => .failed (.rejected denied)
  | none =>
    match stored change with
    | some row =>
      -- Never hand out a version from a vault other than the one checked above.
      if row.vaultId = change.vaultId then .stored row else .failed (.rejected .notFound)
    | none =>
      if underOldKey vaults.keyVersions change then .failed (.rejected .keyVersion)
      else decideOnHead change head dbHeadVersion

/-- The head after a change: only a change that appends moves it. -/
def headAfter (change : PushChange) (head : Option SimulatedHead) : Outcome →
    Option SimulatedHead
  | .append =>
    some { version := (head.elim 0 (·.version)) + 1, vaultId := change.vaultId }
  | _ => head

/-- The loop of `decideChain`: each change against the head the changes before it would leave. -/
def decideEach (vaults : VaultState) (stored : PushChange → Option RecordRow)
    (dbHeadVersion : ℕ) : Option SimulatedHead → List Indexed → List Outcome
  | _, [] => []
  | head, x :: chain =>
    let outcome := decideChange vaults stored dbHeadVersion head x.change
    outcome :: decideEach vaults stored dbHeadVersion (headAfter x.change head outcome) chain

/-- The failure of an outcome. -/
def Outcome.failure? : Outcome → Option Failure
  | .failed failure => some failure
  | _ => none

/-- What becomes of an outcome when a change of its chain can't apply. -/
def Outcome.failWith (failure : Failure) : Outcome → Outcome
  | .stored row => .stored row
  | _ => .failed failure

/-- Pass one for one record's chain.  When one change can't apply, none of the chain's new versions
are written, and those changes all get the first failure.  Changes the server already stored still
answer as applied. -/
def decideChain (vaults : VaultState) (stored : PushChange → Option RecordRow)
    (dbHead : Option RecordRow) (chain : List Indexed) : List Outcome :=
  let outcomes := decideEach vaults stored (dbHead.elim 0 (·.version))
    (dbHead.map fun row => { version := row.version, vaultId := row.vaultId }) chain
  match outcomes.findSome? Outcome.failure? with
  | none => outcomes
  | some first => outcomes.map (Outcome.failWith first)

/-! ### Planning the new versions of a chain -/

def isMoveSource (change : PushChange) : Bool :=
  change.op = .delete (some .moved)

/-- How a push fails as a whole: nothing it did is kept. -/
inductive PushError
  /-- SERVICE_UNAVAILABLE: a row raced into the same id elsewhere; the client retries later. -/
  | unavailable
  | notFound
  | internal
  deriving DecidableEq, Repr

/-- The kind of the tombstone a delete puts on `head`: a purged record stays purged, a moved one
moved, whatever tombstone comes on top of it. -/
def nextTombstoneKind (requested : Option TombstoneKind) (head : HeadContent) :
    Option TombstoneKind :=
  if head.tombstoneKind = some .purged then some .purged else requested.or head.tombstoneKind

/-- The version a put is on top of `head`. -/
def putVersion (userId : UserId) (change : PushChange) (content : Ciphertext)
    (head : Option HeadContent) : NewVersion where
  recordId := change.recordId
  vaultId := change.vaultId
  userId := userId
  content := content
  version := head.elim 0 (·.version) + 1
  clientUpdatedAt := change.clientUpdatedAt
  clientChangeId := change.clientChangeId
  tombstoneKind := none
  deletedAt := none

/-- The tombstone a delete is on top of `head`.  It keeps the head's ciphertext and its key, so the
history still opens; a purged one keeps no content. -/
def tombstoneVersion (userId : UserId) (now : Time) (change : PushChange)
    (requested : Option TombstoneKind) (head : HeadContent) : NewVersion where
  recordId := change.recordId
  vaultId := change.vaultId
  userId := userId
  content :=
    if nextTombstoneKind requested head = some .purged then head.content.purged else head.content
  version := head.version + 1
  clientUpdatedAt := change.clientUpdatedAt
  clientChangeId := change.clientChangeId
  tombstoneKind := nextTombstoneKind requested head
  deletedAt := some now

/-- `nextVersion`: a change as the version on top of `head`, without its seq yet. -/
def nextVersion (userId : UserId) (now : Time) (change : PushChange) (head : Option HeadContent) :
    Except PushError NewVersion :=
  match change.op, head with
  | .put content, head => .ok (putVersion userId change content head)
  | .delete _, none => .error .internal
  | .delete requested, some head => .ok (tombstoneVersion userId now change requested head)

/-- The answers given so far, by index. -/
abbrev Results := ℕ → Option PushResult

/-- `results[index] = result`. -/
def Results.set (results : Results) (index : ℕ) (result : PushResult) : Results :=
  fun i => if i = index then some result else results i

def NewVersion.head (version : NewVersion) : HeadContent where
  version := version.version
  content := version.content
  tombstoneKind := version.tombstoneKind

def RecordRow.head (row : RecordRow) : HeadContent where
  version := row.version
  content := row.content
  tombstoneKind := row.tombstoneKind

/-- The loop over a chain and its outcomes: failures and retries are answered, the rest is planned
on top of `head`. -/
def carryOut (userId : UserId) (now : Time) : Option HeadContent → List (Indexed × Outcome) →
    Results → Except PushError (Results × Appended)
  | _, [], results => .ok (results, [])
  | head, (x, .failed failure) :: rest, results =>
    carryOut userId now head rest
      (results.set x.index (failure.result x.change.clientChangeId))
  | head, (x, .stored row) :: rest, results =>
    carryOut userId now head rest
      (results.set x.index (.applied x.change.clientChangeId (serializeRecord row)))
  | head, (x, .append) :: rest, results => do
    let version ← nextVersion userId now x.change head
    let (results, appended) ← carryOut userId now (some version.head) rest results
    return (results, { index := x.index, version := version } :: appended)

/-- The bytes of planned versions. -/
def appendedBytes (appended : Appended) : ℕ :=
  (appended.map fun p => pushChangeBytes p.version.content).sum

/-- `withinQuota`: whether a chain's new versions fit its vault owner's budget, which they then
take from; `none` when they don't.  Only a chain with a put can be over it. -/
def withinQuota (chain : List Indexed) (appended : Appended) (budgets : StorageBudgets) :
    Option StorageBudgets :=
  match appended with
  | [] => some budgets
  | first :: _ =>
    match budgets.get first.version.vaultId with
    | none => some budgets
    | some remaining =>
      if (appendedBytes appended : ℤ) > remaining && chain.any (·.change.op.isPut) then none
      else some (budgets.take first.version.vaultId (appendedBytes appended))

/-- Whether the record's head is still under a key of its vault that was rotated out. -/
def rewritesOldKey (vaults : VaultState) (dbHead : Option RecordRow) : Bool :=
  dbHead.any fun row => row.content.keyVersion < (vaults.keyVersions row.vaultId).getD 0

/-- `rejectForQuota`. -/
def rejectForQuota (results : Results) (appended : Appended) : Results :=
  appended.foldl
    (fun results p => results.set p.index (.rejected p.version.clientChangeId .quota)) results

/-- A chain that may be written, and its planned versions. -/
structure Accepted where
  chain : List Indexed
  appended : Appended
  deriving DecidableEq, Repr

/-- What pass one leaves behind. -/
structure PassOne where
  results : Results
  accepted : List Accepted
  overQuota : Bool
  budgets : StorageBudgets

/-- One chain of pass one. -/
def passOneChain (userId : UserId) (now : Time) (vaults : VaultState)
    (heads : RecordId → Option RecordRow) (stored : PushChange → Option RecordRow)
    (s : PassOne) (recordChain : RecordId × List Indexed) : Except PushError PassOne := do
  let (recordId, chain) := recordChain
  let dbHead := heads recordId
  let outcomes := decideChain vaults stored dbHead chain
  let (results, appended) ←
    carryOut userId now (dbHead.map (·.head)) (chain.zip outcomes) s.results
  let accept (budgets : StorageBudgets) : PassOne :=
    { s with
      results := results
      accepted := s.accepted ++ [{ chain := chain, appended := appended }]
      budgets := budgets }
  if rewritesOldKey vaults dbHead then return accept s.budgets
  match withinQuota chain appended s.budgets with
  | some budgets => return accept budgets
  | none => return { s with results := rejectForQuota results appended, overQuota := true }

/-- Pass one over all chains of the batch. -/
def passOne (userId : UserId) (now : Time) (vaults : VaultState)
    (heads : RecordId → Option RecordRow) (stored : PushChange → Option RecordRow)
    (budgets : StorageBudgets) (chains : List (RecordId × List Indexed)) :
    Except PushError PassOne :=
  chains.foldlM (passOneChain userId now vaults heads stored)
    { results := fun _ => none, accepted := [], overQuota := false, budgets := budgets }

/-- What is written: every accepted chain, but the source of a move when the batch had a chain over
quota, which may be the move's target: the record must not leave its vault without arriving in the
other. -/
def planVersions (overQuota : Bool) : List Accepted → Results → Results × Appended
  | [], results => (results, [])
  | a :: rest, results =>
    if overQuota && a.chain.any (fun x => isMoveSource x.change) then
      planVersions overQuota rest (rejectForQuota results a.appended)
    else
      let (results, planned) := planVersions overQuota rest results
      (results, a.appended ++ planned)

/-! ### Writing -/

/-- A planned version with its seq. -/
def NewVersion.toRow (version : NewVersion) (seq : ℕ) (now : Time) : RecordRow where
  recordId := version.recordId
  vaultId := version.vaultId
  userId := some version.userId
  content := version.content
  version := version.version
  clientUpdatedAt := version.clientUpdatedAt
  seq := seq
  clientChangeId := version.clientChangeId
  tombstoneKind := version.tombstoneKind
  createdAt := now
  updatedAt := now
  deletedAt := version.deletedAt

section ToRow

variable (version : NewVersion) (seq : ℕ) (now : Time)

@[simp] theorem toRow_recordId : (version.toRow seq now).recordId = version.recordId := rfl
@[simp] theorem toRow_vaultId : (version.toRow seq now).vaultId = version.vaultId := rfl
@[simp] theorem toRow_content : (version.toRow seq now).content = version.content := rfl
@[simp] theorem toRow_version : (version.toRow seq now).version = version.version := rfl
@[simp] theorem toRow_seq : (version.toRow seq now).seq = seq := rfl
@[simp] theorem toRow_clientChangeId :
    (version.toRow seq now).clientChangeId = version.clientChangeId := rfl
@[simp] theorem toRow_tombstoneKind :
    (version.toRow seq now).tombstoneKind = version.tombstoneKind := rfl
@[simp] theorem toRow_deletedAt : (version.toRow seq now).deletedAt = version.deletedAt := rfl

end ToRow

/-- The seqs of all vaults written to: one bump per vault, in id order, as locked. -/
def takeAllSeqs : List (VaultId × List NewVersion) → List VaultRow →
    Except PushError (List VaultRow × (VaultId → ℕ))
  | [], vaults => .ok (vaults, fun _ => 0)
  | (vaultId, versions) :: rest, vaults =>
    match takeVaultSeqs vaults vaultId versions.length
        (versions.map fun v => pushChangeBytes v.content).sum with
    | none => .error .notFound
    | some (vaults, first) => do
      let (vaults, nextSeq) ← takeAllSeqs rest vaults
      return (vaults, fun id => if id = vaultId then first else nextSeq id)

/-- Each vault's seqs follow the versions' order. -/
def numberRows (now : Time) : (VaultId → ℕ) → List NewVersion → List RecordRow
  | _, [] => []
  | nextSeq, version :: rest =>
    let seq := nextSeq version.vaultId
    version.toRow seq now ::
      numberRows now (fun id => if id = version.vaultId then seq + 1 else nextSeq id) rest

/-- The unique indexes of the records table. -/
def UniqueRecords (records : List RecordRow) : Prop :=
  (records.map fun row => (row.recordId, row.version)).Nodup ∧
    (records.map fun row => (row.vaultId, row.seq)).Nodup ∧
    (records.map fun row => (row.recordId, row.clientChangeId)).Nodup

instance (records : List RecordRow) : Decidable (UniqueRecords records) :=
  inferInstanceAs (Decidable (_ ∧ _ ∧ _))

/-- `insertVersions`: write new versions with one insert and one seq bump per vault. -/
def insertVersions (db : Db) (now : Time) (versions : List NewVersion) :
    Except PushError (Db × List RecordRow) := do
  let added := (GroupBy.groupBy (·.vaultId) versions).insertionSort fun a b => a.1 ≤ b.1
  let (vaults, nextSeq) ← takeAllSeqs added db.vaults
  let written := numberRows now nextSeq versions
  if UniqueRecords (db.records ++ written) then
    return ({ db with vaults := vaults, records := db.records ++ written }, written)
  else
    throw .unavailable

/-- A version below a purged tombstone of its record. -/
def RecordRow.isBelow (purged row : RecordRow) : Bool :=
  row.recordId = purged.recordId && row.version < purged.version

/-- Drop every version below a purged tombstone: its history is gone for good, and its bytes are
free again. -/
def dropBelow (db : Db) (purged : RecordRow) : Db :=
  let freed : ℕ := ((db.records.filter purged.isBelow).map (·.bytes)).sum
  { db with
    records := db.records.filter (!purged.isBelow ·)
    vaults := updateVault purged.vaultId (fun v => { v with usedBytes := v.usedBytes - freed })
      db.vaults }

/-- `dropPurgedHistory`: drop every version below each purged tombstone just written. -/
def dropPurgedHistory (db : Db) (written : List RecordRow) : Db :=
  written.foldl (fun db row => if row.isPurged then dropBelow db row else db) db

/-! ### The transaction -/

/-- `latestVersions`: the newest version of each record, deleted or not. -/
def latestVersion (db : Db) (recordId : RecordId) : Option RecordRow :=
  (db.rowsOf recordId).argmax (·.version)

/-- `storedChanges`: the version this change wrote before. -/
def storedChange (db : Db) (change : PushChange) : Option RecordRow :=
  db.records.find? fun row =>
    row.recordId = change.recordId && row.clientChangeId = change.clientChangeId

/-- The changes with their indexes. -/
def indexed (changes : List PushChange) : List Indexed :=
  changes.zipIdx.map fun (change, index) => { index := index, change := change }

/-- Changes grouped by record, each group in batch order. -/
def groupByRecord (changes : List PushChange) : List (RecordId × List Indexed) :=
  GroupBy.groupBy (fun x => x.change.recordId) (indexed changes)

/-- What a push leaves behind and answers. -/
structure Pushed where
  db : Db
  /-- The versions it inserted, those a purge of the same batch dropped again included. -/
  written : List RecordRow
  results : List (Option PushResult)
  writtenVaultIds : List VaultId
  deriving DecidableEq, Repr

/-- The vaults of the batch the user may write to. -/
def writableVaults (db : Db) (userId : UserId) (vaultIds : List VaultId) : List VaultId :=
  vaultIds.filter fun vaultId => vaultAccess db userId vaultIds vaultId = some none

/-- What a push of the user finds under the locks. -/
def vaultState (db : Db) (userId : UserId) (changes : List PushChange) : VaultState where
  access := vaultAccess db userId (changes.map (·.vaultId)).eraseDups
  keyVersions := db.vaultKeyVersions (writableVaults db userId (changes.map (·.vaultId)).eraseDups)

/-- The answers to planned versions that were written. -/
def answerWritten : Results → List (Planned × RecordRow) → Results
  | results, [] => results
  | results, (p, row) :: rest =>
    answerWritten (results.set p.index (.applied row.clientChangeId (serializeRecord row))) rest

/-- `pushChanges`: apply a batch of changes in one transaction, answering each on its own.  An
error leaves the tables as they were. -/
def pushChanges (quotaBytes : ℕ) (db : Db) (userId : UserId) (now : Time)
    (changes : List PushChange) : Except PushError Pushed := do
  let vaults := vaultState db userId changes
  let budgets := storageBudgets db quotaBytes
    (writableVaults db userId (changes.map (·.vaultId)).eraseDups)
  let pass ← passOne userId now vaults (latestVersion db) (storedChange db) budgets
    (groupByRecord changes)
  let (results, planned) := planVersions pass.overQuota pass.accepted pass.results
  let (db, written) ← insertVersions db now (planned.map (·.version))
  let results := answerWritten results (planned.zip written)
  return {
    db := dropPurgedHistory db written
    written := written
    results := (List.range changes.length).map results
    writtenVaultIds := (written.map (·.vaultId)).eraseDups }

end Passmgr
