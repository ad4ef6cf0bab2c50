/-
# The devices converge

A record nobody purges: what a device has received of it stays synced there, whatever the device
and the others do meanwhile.  So a device whose cursor is past everything the server has of the
record holds exactly the server's versions, and with nothing pending its newest version is the
server's.

A purge is left out for a reason: one that was stored under a lost answer is renumbered by the next
pull like any other pending change, and takes away the versions of others below its new number.  So
is a vault that is removed while a page is on its way: the page lists it again, and stores its
cursor without the rows below it.

Main definitions:

* `Unpurged` — no device has a purge of a record;
* `HoldsReceived`, `NothingPurged` — what holds of a device and of the server then.

Main results:

* `HoldsReceived.step` — a step of a device keeps what it received;
* `pullInvariant_step` — a step of a device keeps what its cursors promise;
* `devices_converge` — what a device that is up to date has of the record.
-/

import Passmgr.FleetRuns

set_option relaxedAutoImplicit false
set_option autoImplicit false

namespace Passmgr.Fleet

/-- No device has a purge of a record. -/
def Unpurged (recordId : RecordId) (s : Interleaving.State Store Device) : Prop :=
  ∀ i d, s.calls i = some d → ¬HasPurge recordId d.db

/-- A step of a device that leaves it without a purge of a record. -/
def unpurgedCommand (ids : RandomIds) (quotaBytes : ℕ) (recordId : RecordId) :
    Interleaving.Command Store Device :=
  fun i store d store' rest => ∃ d', rest = some d' ∧ DeviceStep ids quotaBytes i store d store' d' ∧
    SteadyPull d d' ∧ ¬HasPurge recordId d'.db

/-- A step of the fleet after which no device has a purge of a record, and which removes no vault
from a device that waits for a page. -/
def UnpurgedStep (ids : RandomIds) (quotaBytes : ℕ) (recordId : RecordId)
    (s t : Interleaving.State Store Device) : Prop :=
  FleetStep ids quotaBytes s t ∧ Unpurged recordId t ∧ SteadyPulls s t

/-- The server has no purge of a record. -/
def NothingPurged (recordId : RecordId) (store : Store) : Prop :=
  ∀ row ∈ store.written, row.recordId = recordId → row.isPurged = false

/-- What holds of a device where nobody purges a record. -/
structure HoldsReceived (recordId : RecordId) (d : Device) : Prop where
  rows : ¬HasPurge recordId d.db
  todo : ∀ change ∈ d.todo, change.recordId = recordId → change.mark.isPurge = false
  received : ∀ row ∈ d.received, row.recordId = recordId →
    { record := serializeRecord row, syncState := .synced } ∈ d.db.rowsOf recordId

section Steps

variable {ids : RandomIds} {quotaBytes : ℕ} {recordId : RecordId} {i : ℕ} {store store' : Store}
  {d d' : Device} {db : LocalDb}

/-! ### The synced versions of a device -/

/-- A synced version of a device is the server's. -/
theorem exists_written (h : DeviceInvariant ids i store d) (hr : ¬HasPurge recordId d.db)
    {row : LocalRow} (hrow : row ∈ d.db.rowsOf recordId) (hs : row.isSynced = true) :
    ∃ w ∈ store.written, row.record = serializeRecord w := by
  obtain ⟨hmem, -⟩ := mem_rowsOf.1 hrow
  exact (h.rows.synced row hmem hs).resolve_right fun hp => hr ⟨row, hrow, hp⟩

/-- A synced version with the number of a written one is that one. -/
theorem eq_serializeRecord (hs : ServerInvariant ids store) (h : DeviceInvariant ids i store d)
    (hr : ¬HasPurge recordId d.db) {row : LocalRow} (hrow : row ∈ d.db.rowsOf recordId)
    (hsynced : row.isSynced = true) {w : RecordRow} (hw : w ∈ store.written)
    (hkey : row.key = (w.recordId, w.version)) : row.record = serializeRecord w := by
  obtain ⟨w', hw', heq⟩ := exists_written h hr hrow hsynced
  obtain ⟨hid, hversion⟩ := Prod.mk.inj hkey
  rw [heq] at hid hversion ⊢
  rw [hs.log.eq_of_version hw' hw hid hversion]

/-- A write outside a round keeps what is synced of a record it does not purge. -/
theorem keepsSynced_localWrite {fresh : ChangeId → Prop} {db' : LocalDb}
    (h : LocalWrite ids fresh db db') (hr : ¬HasPurge recordId db') :
    KeepsSynced recordId db db' := by
  cases h with
  | writes now changes _ hfresh hmade h => exact .writeLocalChanges h
  | purges now records _ hfresh h =>
      exact (keeps_or_purged_purgeRecords h).resolve_right fun hp => hr hp.hasPurge
  | reencrypts now versions _ hfresh h => exact .writeReencryptedVersions h
  | replaces versions => exact .replacePendingCiphertexts versions
  | retries => exact .of_eq rfl
  | rescues vaultId now changes _ hfresh hmade h =>
      unfold rescueRevokedVault at h
      cases hwrite : writeLocalChanges now db changes with
      | error e =>
          rw [hwrite] at h
          cases h
      | ok written =>
          rw [hwrite] at h
          obtain rfl := Except.ok.inj h
          have hwritten : KeepsSynced recordId db written := .writeLocalChanges hwrite
          exact hwritten.trans (.of_eq rfl)

/-- Another vault is removed. -/
theorem keepsSynced_removeVault {vaultId : VaultId} {keepUnsent : Bool} {now : Time}
    {known : EncryptedRecord → Prop} (h : RowsHold ids.vaultOf known d.db)
    (hvault : ids.vaultOf recordId ≠ vaultId)
    (hok : removeVault vaultId keepUnsent now d.db = .ok db) : KeepsSynced recordId d.db db := by
  unfold removeVault at hok
  dsimp only at hok
  split at hok
  · cases hok
  · obtain rfl := Except.ok.inj hok
    intro row hrow _
    obtain ⟨hmem, rfl⟩ := mem_rowsOf.1 hrow
    refine mem_rowsOf.2 ⟨List.mem_filter.2 ⟨?_, decide_eq_true ?_⟩, rfl⟩
    · cases keepUnsent <;> exact hmem
    · rw [h.vault row hmem, List.mem_singleton]
      exact hvault

/-! ### What a push brings to the server -/

/-- Versions that are written for changes that purge nothing are no purges. -/
theorem not_purged_of_steps {head : Option HeadContent} {changes : List PushChange}
    {versions : List HeadContent} (h : PurgeSteps head changes versions)
    (hhead : ∀ v ∈ head, v.tombstoneKind ≠ some .purged)
    (hchanges : ∀ change ∈ changes, change.op ≠ .delete (some .purged)) :
    ∀ v ∈ versions, v.tombstoneKind ≠ some .purged := by
  induction changes generalizing head versions with
  | nil =>
      cases versions with
      | nil => exact fun v hv => absurd hv List.not_mem_nil
      | cons v versions => exact h.elim
  | cons change changes ih =>
      cases versions with
      | nil => exact h.elim
      | cons version versions =>
          have hversion : version.tombstoneKind ≠ some .purged := by
            intro hp
            rcases (h.1 hp).2 with hasked | hon
            · exact hchanges change List.mem_cons_self hasked
            · cases head with
              | none => cases hon
              | some v => exact hhead v rfl (of_decide_eq_true hon)
          intro v hv
          rcases List.mem_cons.1 hv with rfl | hv
          · exact hversion
          · refine ih h.2 (fun w hw => ?_) (fun c hc => hchanges c (List.mem_cons_of_mem _ hc)) v hv
            obtain rfl := Option.some.inj hw
            exact hversion

/-- A push that sends no purge of a record brings none. -/
theorem NothingPurged.push (h : NothingPurged recordId store) (hs : ServerInvariant ids store)
    {userId : UserId} {now : Time} {batch : List PendingChange} {pushed : Pushed}
    (hbatch : ∀ change ∈ batch, change.recordId = recordId → change.mark.isPurge = false)
    (hd : pushChanges quotaBytes store.db userId now (batch.map toPushChange) = .ok pushed) :
    NothingPurged recordId { db := pushed.db, written := store.written ++ pushed.written } := by
  have hhead : ∀ v ∈ (latestVersion store.db recordId).map (·.head),
      v.tombstoneKind ≠ some .purged := by
    intro v hv hp
    obtain ⟨row, hrow, rfl⟩ := Option.map_eq_some_iff.1 hv
    obtain ⟨hmem, hid⟩ := Db.mem_rowsOf.1 (List.argmax_mem hrow)
    have hnot := h row (hs.log.mem_written hmem) hid
    rw [RecordRow.isPurged, decide_eq_false_iff_not] at hnot
    exact hnot hp
  have hsent : ∀ change ∈ unstoredOf store.db (batch.map toPushChange) recordId,
      change.op ≠ .delete (some .purged) := by
    intro change hchange
    rw [unstoredOf_map] at hchange
    obtain ⟨pending, hpending, rfl⟩ := List.mem_map.1 hchange
    obtain ⟨hmem, hid⟩ := mem_changesOf.1 (List.mem_filter.1 hpending).1
    have hnot := hbatch pending hmem hid
    rw [PendingChange.mark, decide_eq_false_iff_not] at hnot
    unfold toPushChange
    dsimp only
    split
    · exact fun hop => hnot (PushOp.delete.inj hop)
    · exact fun hop => by cases hop
  intro row hrow hid
  rcases List.mem_append.1 hrow with hrow | hrow
  · exact h row hrow hid
  · have hmem := mem_writtenOf.2 ⟨hrow, hid⟩
    have hsteps := (purgeSteps_written hd recordId).resolve_left (List.ne_nil_of_mem hmem)
    exact decide_eq_false
      (not_purged_of_steps hsteps hhead hsent row.head (List.mem_map_of_mem hmem))

/-! ### What a device received -/

namespace HoldsReceived

/-- A device writes, and keeps what it received. -/
theorem write (h : HoldsReceived recordId d) (hr : ¬HasPurge recordId db)
    (hkeeps : KeepsSynced recordId d.db db) : HoldsReceived recordId { d with db := db } where
  rows := hr
  todo := h.todo
  received row hrow hid := hkeeps _ (h.received row hrow hid) rfl

/-- A device goes on with something else. -/
theorem goOn (h : HoldsReceived recordId d) {phase : Phase}
    (htodo : ∀ change ∈ { d with phase := phase }.todo, change.recordId = recordId →
      change.mark.isPurge = false) : HoldsReceived recordId { d with phase := phase } where
  rows := h.rows
  todo := htodo
  received := h.received

/-- A page is applied: what it brings is received, and what was stays. -/
theorem apply (hs : ServerInvariant ids store) (hi : DeviceInvariant ids i store d)
    (h : HoldsReceived recordId d) {cursors : List (VaultId × ℕ)} {page : SyncPage}
    {resolve : Option ConflictResolver} {now : Time} {newChangeId : RecordId → ChangeId}
    {phase : PullPhase} {vaultsChanged : Bool}
    (hphase : d.phase = .pulling (.answered cursors page)) (hrecord : MergesItsRecord resolve)
    (hok : applySync page.batch resolve now newChangeId d.db = .ok (db, vaultsChanged))
    (hr : ¬HasPurge recordId db) :
    HoldsReceived recordId { d with
      db := db
      received := receivedAfter d.db d.received page
      phase := .pulling phase } := by
  have hpage : ∀ row ∈ page.rows, row ∈ store.written := by
    intro row hrow
    refine hi.pulled row (List.mem_append_right _ ?_)
    unfold Device.pull
    rw [hphase]
    exact hrow
  have hpulled : ∀ record ∈ page.batch.pulled, ∃ w ∈ store.written, record = serializeRecord w := by
    intro record hrecord
    obtain ⟨w, hw, rfl⟩ := List.mem_map.1 (List.mem_filter.1 hrecord).1
    exact ⟨w, hpage w hw, rfl⟩
  -- Rows of one number are the same version, synced or pulled.
  have hagree : ∀ row ∈ page.batch.pulled, row.recordId = recordId → ∀ record : EncryptedRecord,
      (({ record := record, syncState := .synced } : LocalRow) ∈ d.db.rowsOf recordId ∨
        record ∈ page.batch.pulled) → record.recordId = recordId → row.version = record.version →
        row = record := by
    intro row hrow hid record hthere hrid hversion
    obtain ⟨w, hw, rfl⟩ := hpulled row hrow
    have hwritten : ∃ w ∈ store.written, record = serializeRecord w := by
      rcases hthere with hmem | hmem
      · exact exists_written hi h.rows hmem rfl
      · exact hpulled record hmem
    obtain ⟨w', hw', rfl⟩ := hwritten
    rw [hs.log.eq_of_version hw hw' (hid.trans hrid.symm) hversion]
  obtain ⟨hkeeps, hbrings⟩ := keepsSynced_applySync hi.rows hi.outbox hrecord hok hagree hr
  refine ⟨hr, fun change hchange => absurd hchange List.not_mem_nil, fun row hrow hid => ?_⟩
  rcases List.mem_append.1 hrow with hrow | hrow
  · obtain ⟨hmem, hlost⟩ := List.mem_filter.1 hrow
    refine hkeeps ?_ _ (h.received row hmem hid) rfl
    rw [← hid, ← hs.vault row (hi.pulled row (List.mem_append_left _ hmem))]
    exact of_decide_eq_true hlost
  · obtain ⟨hmem, hvault⟩ := List.mem_filter.1 hrow
    exact hbrings _ (List.mem_filter.2 ⟨List.mem_map_of_mem hmem, hvault⟩) hid

/-- The changes of a push under way. -/
theorem todo_of_pushing (h : HoldsReceived recordId d) {todo : List PendingChange}
    {failed : List RecordId} (hphase : d.phase = .pushing todo failed) :
    ∀ change ∈ todo, change.recordId = recordId → change.mark.isPurge = false := by
  have htodo := h.todo
  unfold Device.todo at htodo
  rwa [hphase] at htodo

/-- **A step of a device** that leaves it without a purge of a record keeps what it received of the
record, and brings no purge of it to the server. -/
theorem step (hs : ServerInvariant ids store) (hn : NothingPurged recordId store)
    (hi : DeviceInvariant ids i store d) (h : HoldsReceived recordId d)
    (hstep : DeviceStep ids quotaBytes i store d store' d') (hr : ¬HasPurge recordId d'.db) :
    NothingPurged recordId store' ∧ HoldsReceived recordId d' := by
  cases hstep with
  | write db hwrite => exact ⟨hn, h.write hr (keepsSynced_localWrite hwrite hr)⟩
  | removeVault vaultId keepUnsent now db hok =>
      refine ⟨hn, hr, h.todo, fun row hrow hid => ?_⟩
      obtain ⟨hmem, hvault⟩ := List.mem_filter.1 hrow
      refine keepsSynced_removeVault hi.rows ?_ hok _ (h.received row hmem hid) rfl
      rw [← hid, ← hs.vault row (hi.pulled row (List.mem_append_left _ hmem))]
      exact of_decide_eq_true hvault
  | startPush hphase =>
      refine ⟨hn, h.goOn fun change hchange hid => ?_⟩
      have hmem := (List.mem_filter.1 hchange).1
      rw [getPendingChanges_eq hi.outbox] at hmem
      obtain ⟨entry, -, hrow⟩ := List.mem_filterMap.1 hmem
      obtain ⟨row, hfound, rfl⟩ := Option.map_eq_some_iff.1 hrow
      refine decide_eq_false fun hp => h.rows ⟨row, ?_, hp⟩
      exact mem_rowsOf.2 ⟨List.mem_of_find?_eq_some hfound, hid⟩
  | send todo failed batch now pushed hphase hbatch hd =>
      have htodo := h.todo_of_pushing hphase
      exact ⟨hn.push hs (fun change hchange => htodo change (hbatch.subset hchange)) hd,
        h.goOn htodo⟩
  | take change batch results todo failed now hphase run hrun =>
      subst hrun
      refine ⟨hn, hr, fun c hc => ?_, fun row hrow hid => ?_⟩
      · have htodo := h.todo
        unfold Device.todo at htodo
        rw [hphase] at htodo
        exact htodo c (List.mem_filter.1 hc).1
      · refine (hi.took now hphase).keeps recordId (fun row hrow hsynced w hw hkey => ?_) _
          (h.received row hrow hid) rfl
        exact eq_serializeRecord hs hi h.rows hrow hsynced hw hkey
  | taken batch results todo failed hphase =>
      have htodo := h.todo
      unfold Device.todo at htodo
      rw [hphase] at htodo
      exact ⟨hn, h.goOn htodo⟩
  | giveUp todo failed batch recordId' message now hphase hbatch =>
      have hnoted := noted_failChanges now message batch (pushRunOf d.db failed)
      refine ⟨hn, hr, h.todo_of_pushing hphase, fun row hrow hid => ?_⟩
      obtain ⟨hmem, hrid⟩ := mem_rowsOf.1 (h.received row hrow hid)
      exact mem_rowsOf.2 ⟨hnoted.records ▸ hmem, hrid⟩
  | ask limit hphase hlimit =>
      exact ⟨hn, h.goOn fun change hchange => absurd hchange List.not_mem_nil⟩
  | read pull s hphase hreads hloop =>
      exact ⟨hn, h.goOn fun change hchange => absurd hchange List.not_mem_nil⟩
  | apply cursors page resolve now newChangeId limit db vaultsChanged hphase hlimit hrecord hvault
      hfresh hok => exact ⟨hn, h.apply hs hi hphase hrecord hok hr⟩
  | stop => exact ⟨hn, h.goOn fun change hchange => absurd hchange List.not_mem_nil⟩

end HoldsReceived

/-! ### What the cursors promise -/

/-- What a removed vault leaves of the cursors. -/
theorem cursors_of_removeVault {vaultId : VaultId} {keepUnsent : Bool} {now : Time} {db' : LocalDb}
    (hok : removeVault vaultId keepUnsent now db = .ok db') :
    ∀ entry ∈ db'.syncCursors, entry ∈ db.syncCursors ∧ entry.1 ≠ vaultId := by
  unfold removeVault at hok
  dsimp only at hok
  split at hok
  · cases hok
  · obtain rfl := Except.ok.inj hok
    intro entry hentry
    have hmem : entry ∈ db.syncCursors.filter (·.1 ∉ [vaultId]) := by
      cases keepUnsent <;> exact hentry
    obtain ⟨hmem, hne⟩ := List.mem_filter.1 hmem
    exact ⟨hmem, by simpa using hne⟩

/-- The pull of a device, with the server. -/
def Device.asPull (store : Store) (d : Device) : Pull :=
  ⟨store, d.db, d.received, d.pull⟩

/-- A device that pulls nothing keeps what its cursors promise. -/
theorem pullInvariant_idle (h : PullInvariant (d.asPull store)) (hpull : d'.pull = .idle)
    (hcursors : d'.db.syncCursors = d.db.syncCursors) (hreceived : d'.received = d.received) :
    PullInvariant (d'.asPull store) := by
  refine ⟨h.store, fun entry hentry => ?_, ?_⟩
  · change CompleteUpTo store entry.1 entry.2 d'.received
    rw [hreceived]
    exact h.cursors entry (hcursors ▸ hentry)
  · change PhaseInvariant _ d'.pull
    rw [hpull]
    trivial

/-- A vault is removed from a device that does not wait for a page. -/
theorem pullInvariant_removeVault (h : PullInvariant (d.asPull store)) {vaultId : VaultId}
    {keepUnsent : Bool} {now : Time} (hok : removeVault vaultId keepUnsent now d.db = .ok db)
    (hsteady : SteadyPull d
      { d with db := db, received := d.received.filter (·.vaultId ≠ vaultId) }) :
    PullInvariant (Device.asPull store
      { d with db := db, received := d.received.filter (·.vaultId ≠ vaultId) }) := by
  by_cases hidle : d.pull = .idle
  · refine ⟨h.store, fun entry hentry => ?_, ?_⟩
    · obtain ⟨hmem, hne⟩ := cursors_of_removeVault hok entry hentry
      refine (h.cursors entry hmem).mono fun row hrow hv => List.mem_filter.2 ⟨hrow, ?_⟩
      exact decide_eq_true (hv ▸ hne)
    · change PhaseInvariant _ d.pull
      rw [hidle]
      trivial
  · obtain ⟨hcursors, hreceived⟩ := hsteady hidle rfl
    have hreceived : d.received.filter (·.vaultId ≠ vaultId) = d.received := hreceived
    unfold Device.asPull
    dsimp only
    rw [hreceived]
    exact h.write hcursors

/-- **A step of a device** keeps what its cursors promise, where no vault is removed from a device
that waits for a page. -/
theorem pullInvariant_step (hi : DeviceInvariant ids i store d)
    (h : PullInvariant (d.asPull store)) (hstep : DeviceStep ids quotaBytes i store d store' d')
    (hsteady : SteadyPull d d') : PullInvariant (d'.asPull store') := by
  cases hstep with
  | write db hwrite =>
      obtain ⟨-, -, hsame⟩ := of_localWrite hi.outbox hi.rows hwrite
      exact h.write hsame.syncCursors
  | removeVault vaultId keepUnsent now db hok => exact pullInvariant_removeVault h hok hsteady
  | startPush hphase => exact pullInvariant_idle h rfl rfl rfl
  | send todo failed batch now pushed hphase hbatch hd =>
      have hserver : PullInvariant (d.asPull
          { db := pushed.db, written := store.written ++ pushed.written }) :=
        h.server (.push d.userId now (batch.map toPushChange) pushed hd)
      exact pullInvariant_idle hserver rfl rfl rfl
  | take change batch results todo failed now hphase run hrun =>
      subst hrun
      exact pullInvariant_idle h rfl (hi.took now hphase).syncCursors rfl
  | taken batch results todo failed hphase => exact pullInvariant_idle h rfl rfl rfl
  | giveUp todo failed batch recordId message now hphase hbatch =>
      have hnoted := noted_failChanges now message batch (pushRunOf d.db failed)
      exact pullInvariant_idle h rfl hnoted.syncCursors rfl
  | ask limit hphase hlimit => exact ⟨h.store, h.cursors, rfl, hlimit⟩
  | read pull s hphase hreads hloop =>
      obtain rfl : pull = d.pull := by
        unfold Device.pull
        rw [hphase]
      have hkept := h.loop hloop
      cases hloop with
      | start cursors limit now hp => exact hkept
      | read cursors scan vaultId rest hp hrest => exact hkept
      | finish cursors scan hp hrest => exact hkept
      | apply cursors page resolve now newChangeId limit device vaultsChanged hp =>
          exact absurd hp (hreads cursors page)
  | apply cursors page resolve now newChangeId limit db vaultsChanged hphase hlimit hrecord hvault
      hfresh hok =>
      have hpull : (d.asPull store).phase = .answered cursors page := by
        unfold Device.asPull Device.pull
        rw [hphase]
      have hloop : LoopStep d.userId (d.asPull store) _ :=
        .apply cursors page resolve now newChangeId limit db vaultsChanged hpull hlimit hok
      exact h.loop hloop
  | stop => exact pullInvariant_idle h rfl rfl rfl

/-- The other devices keep what theirs promise. -/
theorem pullInvariant_frame {other : Device} (h : PullInvariant (other.asPull store))
    (hstep : DeviceStep ids quotaBytes i store d store' d') :
    PullInvariant (other.asPull store') := by
  cases hstep with
  | send todo failed batch now pushed hphase hbatch hd =>
      exact h.server (.push d.userId now (batch.map toPushChange) pushed hd)
  | _ => exact h

/-- What the steps of the fleet keep where nobody purges a record, and no vault is removed from a
device that waits for a page. -/
theorem keeps_unpurged (ids : RandomIds) (quotaBytes : ℕ) (recordId : RecordId) :
    Interleaving.Keeps DeviceStart (unpurgedCommand ids quotaBytes recordId) ServerChange
      (fun _ store => ServerInvariant ids store ∧ NothingPurged recordId store)
      (fun i store d => DeviceInvariant ids i store d ∧ PullInvariant (d.asPull store) ∧
        HoldsReceived recordId d) where
  begin i store d hstart hs := by
    refine ⟨hs, deviceInvariant_of_start hstart, ⟨hs.1.log, ?_, ?_⟩, ?_, ?_, ?_⟩
    · intro entry hentry
      have hentry : entry ∈ d.db.syncCursors := hentry
      rw [hstart.cursors] at hentry
      cases hentry
    · unfold Device.asPull Device.pull
      rw [hstart.phase]
      trivial
    · rintro ⟨row, hrow, -⟩
      obtain ⟨hmem, -⟩ := mem_rowsOf.1 hrow
      rw [hstart.records] at hmem
      cases hmem
    · unfold Device.todo
      rw [hstart.phase]
      exact fun change hchange => absurd hchange List.not_mem_nil
    · rw [hstart.received]
      exact fun row hrow => absurd hrow List.not_mem_nil
  run n i store d store' rest hi hs h hcmd := by
    obtain ⟨d', rfl, hstep, hsteady, hr⟩ := hcmd
    obtain ⟨hserver, hdevice⟩ := h.1.step hs.1 hstep
    obtain ⟨hnothing, hreceived⟩ := h.2.2.step hs.1 hs.2 h.1 hstep hr
    refine ⟨⟨hserver, hnothing⟩, fun e he => ?_⟩
    obtain rfl := Option.some.inj he
    exact ⟨hdevice, pullInvariant_step h.1 h.2.1 hstep hsteady, hreceived⟩
  frame n i store d store' rest hs h hcmd j other hj hother := by
    obtain ⟨d', rfl, hstep, -, -⟩ := hcmd
    exact ⟨h.1.frame hs.1 hstep hj hother.1, pullInvariant_frame hother.2.1 hstep, hother.2.2⟩
  other n store store' hs hchange := by
    obtain ⟨hserver, hdevices⟩ := (keeps ids quotaBytes).other n store store' hs.1 hchange
    obtain ⟨hkeeps, hwritten⟩ := hchange
    obtain ⟨db, written⟩ := store'
    obtain rfl : written = store.written := hwritten
    refine ⟨⟨hserver, hs.2⟩, fun j other hother => ⟨hdevices j other hother.1, ?_, hother.2.2⟩⟩
    exact hother.2.1.server (.other db hkeeps : StoreStep quotaBytes store _)

/-- A step after which no device has a purge of a record. -/
theorem unpurgedStep {s t : Interleaving.State Store Device} (h : FleetStep ids quotaBytes s t)
    (hunpurged : Unpurged recordId t) (hsteady : SteadyPulls s t) :
    Interleaving.Step DeviceStart (unpurgedCommand ids quotaBytes recordId) ServerChange s t := by
  cases h with
  | begin d hstart => exact .begin d hstart
  | run i d store rest hd hcmd =>
      obtain ⟨d', rfl, hstep⟩ := hcmd
      have hmoved : (Function.update s.calls i (some d')) i = some d' := Function.update_self i _ _
      exact .run i d store (some d') hd
        ⟨d', rfl, hstep, hsteady i d d' hd hmoved, hunpurged i d' hmoved⟩
  | other store hchange => exact .other store hchange

/-- A run where no device ever has a purge of a record. -/
theorem unpurged_of_reaches {s t : Interleaving.State Store Device}
    (h : Run.Reaches (UnpurgedStep ids quotaBytes recordId) s t) :
    Run.Reaches (Interleaving.Step DeviceStart (unpurgedCommand ids quotaBytes recordId)
      ServerChange) s t := by
  induction h with
  | refl => exact .refl
  | tail _ hst ih => exact ih.tail (unpurgedStep hst.1 hst.2.1 hst.2.2)

/-! ### Devices that are up to date -/

/-- What a device has synced of a record nobody purges is stored on the server. -/
theorem stored_of_synced (hs : ServerInvariant ids store) (hn : NothingPurged recordId store)
    (hi : DeviceInvariant ids i store d) (h : HoldsReceived recordId d) {row : LocalRow}
    (hrow : row ∈ d.db.rowsOf recordId) (hsynced : row.isSynced = true) :
    ∃ w ∈ store.db.rowsOf recordId, row.record = serializeRecord w := by
  obtain ⟨w, hw, heq⟩ := exists_written hi h.rows hrow hsynced
  have hid : w.recordId = recordId := by
    have hrid := (mem_rowsOf.1 hrow).2
    rw [heq] at hrid
    exact hrid
  refine ⟨w, Db.mem_rowsOf.2 ⟨?_, hid⟩, heq⟩
  by_contra hdropped
  obtain ⟨purge, hpurge, hpid, -, hp, -⟩ := hs.log.exists_purge_of_dropped hw hdropped
  rw [hn purge (hs.log.mem_written hpurge) (hpid.trans hid)] at hp
  cases hp

/-- What the server has of a record up to the cursor of its vault is synced. -/
theorem synced_of_stored (hs : ServerInvariant ids store) (hp : PullInvariant (d.asPull store))
    (h : HoldsReceived recordId d) {cursor : ℕ}
    (hcursor : (ids.vaultOf recordId, cursor) ∈ d.db.syncCursors) {row : RecordRow}
    (hrow : row ∈ store.db.rowsOf recordId) (hseq : row.seq ≤ cursor) :
    { record := serializeRecord row, syncState := .synced } ∈ d.db.rowsOf recordId := by
  obtain ⟨hmem, hid⟩ := Db.mem_rowsOf.1 hrow
  have hvault : row.vaultId = ids.vaultOf recordId := by
    rw [hs.vault row (hs.log.mem_written hmem), hid]
  exact h.received row ((hp.cursors _ hcursor).stored row hmem hvault hseq) hid

/-- Two lists of versions that are the same but for how they are stored have the same newest one. -/
theorem head_of_same {rows : List LocalRow} {stored : List RecordRow}
    (hsame : ∀ row : LocalRow, row ∈ rows ↔
      ∃ w ∈ stored, row = { record := serializeRecord w, syncState := .synced })
    (hversions : ∀ a ∈ stored, ∀ b ∈ stored, a.version = b.version → a = b) :
    (rows.argmax (·.record.version)).map (·.record) =
      (stored.argmax (·.version)).map serializeRecord := by
  cases hnewest : stored.argmax (·.version) with
  | none =>
      rw [List.argmax_eq_none] at hnewest
      have hnone : rows = [] := by
        refine List.eq_nil_iff_forall_not_mem.2 fun row hrow => ?_
        obtain ⟨w, hw, -⟩ := (hsame row).1 hrow
        rw [hnewest] at hw
        cases hw
      rw [hnone]
      rfl
  | some newest =>
      have hmem := (hsame _).2 ⟨newest, List.argmax_mem hnewest, rfl⟩
      cases hhead : rows.argmax (·.record.version) with
      | none =>
          rw [List.argmax_eq_none] at hhead
          rw [hhead] at hmem
          cases hmem
      | some head =>
          obtain ⟨w, hw, rfl⟩ := (hsame head).1 (List.argmax_mem hhead)
          have hle : newest.version ≤ w.version :=
            List.le_of_mem_argmax (f := fun row : LocalRow => row.record.version) hmem hhead
          have hge : w.version ≤ newest.version :=
            List.le_of_mem_argmax (f := fun row : RecordRow => row.version) hw hnewest
          rw [hversions w hw newest (List.argmax_mem hnewest) (le_antisymm hge hle)]
          rfl

/-- **The devices converge.**  In every state of every run where no device had a purge of a record
and no vault was removed from a device that waited for a page, a device whose cursor is past what the server has of the record has exactly the server's versions
synced, and with nothing of the record pending its newest version is the server's. -/
theorem devices_converge {db : Db} (hempty : EmptyStore { db := db, written := [] })
    {s : Interleaving.State Store Device}
    (h : Run.Reaches (UnpurgedStep ids quotaBytes recordId) (start db) s)
    (hd : s.calls i = some d) {cursor : ℕ}
    (hcursor : (ids.vaultOf recordId, cursor) ∈ d.db.syncCursors)
    (hcaught : ∀ row ∈ s.shared.db.rowsOf recordId, row.seq ≤ cursor) :
    (∀ row : LocalRow, row.isSynced = true → (row ∈ d.db.rowsOf recordId ↔
      ∃ w ∈ s.shared.db.rowsOf recordId, row.record = serializeRecord w)) ∧
    (d.db.entriesOf recordId = [] → (getHead recordId d.db).map (·.record) =
      (latestVersion s.shared.db recordId).map serializeRecord) := by
  have hall := Interleaving.holds_of_reaches (keeps_unpurged ids quotaBytes recordId)
    (unpurged_of_reaches h)
    (Interleaving.holds_idle ⟨⟨storeInvariant_of_empty hempty,
      fun _ hrow => absurd hrow List.not_mem_nil⟩, fun _ hrow => absurd hrow List.not_mem_nil⟩)
  obtain ⟨hs, hn⟩ := hall.inv
  obtain ⟨hi, hpull, hreceived⟩ := hall.calls i d hd
  have hsynced : ∀ w ∈ s.shared.db.rowsOf recordId,
      { record := serializeRecord w, syncState := .synced } ∈ d.db.rowsOf recordId :=
    fun w hw => synced_of_stored hs hpull hreceived hcursor hw (hcaught w hw)
  have hsame : ∀ row : LocalRow, row.isSynced = true → (row ∈ d.db.rowsOf recordId ↔
      ∃ w ∈ s.shared.db.rowsOf recordId, row.record = serializeRecord w) := by
    intro row hrow
    refine ⟨fun hmem => stored_of_synced hs hn hi hreceived hmem hrow, ?_⟩
    rintro ⟨w, hw, heq⟩
    obtain ⟨record, state⟩ := row
    obtain rfl : state = .synced := by simpa [LocalRow.isSynced] using hrow
    obtain rfl : record = serializeRecord w := heq
    exact hsynced w hw
  refine ⟨hsame, fun hnone => head_of_same (fun row => ?_) fun a ha b hb hversion => ?_⟩
  · -- With nothing pending all versions are synced ones.
    have hrows : ∀ row ∈ d.db.rowsOf recordId, row.isSynced = true := by
      intro row hrow
      obtain ⟨first, hfirst⟩ := hi.outbox.chains recordId
      refine (isPending_or_isSynced row).resolve_left fun hp => ?_
      have hpending : row.record.version ∈
          (d.db.view recordId).pending.map (·.record.version) :=
        List.mem_map_of_mem (List.mem_filter.2 ⟨hrow, hp⟩)
      rw [hfirst.pending, show (d.db.view recordId).entries = [] from hnone] at hpending
      cases hpending
    constructor
    · intro hrow
      obtain ⟨w, hw, heq⟩ := (hsame row (hrows row hrow)).1 hrow
      have hstate := hrows row hrow
      obtain ⟨record, state⟩ := row
      obtain rfl : state = .synced := by simpa [LocalRow.isSynced] using hstate
      obtain rfl : record = serializeRecord w := heq
      exact ⟨w, hw, rfl⟩
    · rintro ⟨w, hw, rfl⟩
      exact hsynced w hw
  · obtain ⟨hamem, haid⟩ := Db.mem_rowsOf.1 ha
    obtain ⟨hbmem, hbid⟩ := Db.mem_rowsOf.1 hb
    exact hs.log.eq_of_version (hs.log.mem_written hamem) (hs.log.mem_written hbmem)
      (haid.trans hbid.symm) hversion

end Steps

/-- Device 1 is up to date once it pulled the record. -/
theorem sampleCaught_facts : (1, 1) ∈ appliedDb.syncCursors ∧
    (∀ row ∈ pushedStore.db.rowsOf 5, row.seq ≤ 1) ∧ appliedDb.entriesOf 5 = [] ∧
    (latestVersion pushedStore.db 5).map (·.version) = some 1 := by
  decide +kernel

/-- It has the version device 0 pushed. -/
theorem devices_converge_sample : ∃ w ∈ pushedStore.db.rowsOf 5, w.version = 1 ∧
    (getHead 5 appliedDb).map (·.record) = some (serializeRecord w) := by
  obtain ⟨a, b, hrun, -, hb⟩ := exists_sampleRun
  obtain ⟨hcursor, hcaught, hnone, hversion⟩ := sampleCaught_facts
  have hunpurged : ∀ s t, SampleStep s t → UnpurgedStep sampleIds 1000000 5 s t := by
    refine fun s t hst => ⟨hst.1, fun i d hd => ?_, hst.2.1⟩
    rintro ⟨row, hrow, hp⟩
    rw [hst.2.2 i d hd row (mem_rowsOf.1 hrow).1] at hp
    cases hp
  obtain ⟨-, hhead⟩ := @devices_converge sampleIds 1000000 5 1 b _ emptyStore_sample _
    (hrun.lift id hunpurged) rfl 1 (hb ▸ hcursor) hcaught
  obtain ⟨w, hw, hone⟩ := Option.map_eq_some_iff.1 hversion
  refine ⟨w, List.argmax_mem hw, hone, ?_⟩
  rw [← hb, hhead (hb ▸ hnone)]
  exact congrArg (Option.map serializeRecord) hw

end Passmgr.Fleet
