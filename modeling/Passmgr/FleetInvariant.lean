/-
# What holds of every device

The invariant of a device among others: its outbox is in order, its versions are in their vaults,
what it has synced came from the server, and of each of its chains the server has the first changes
only.

Main definitions:

* `DeviceInvariant`, `ServerInvariant` — what holds of a device and of the server.

Main results:

* `of_localWrite`, `DeviceInvariant.transact` — what a transaction of the device keeps;
* `DeviceInvariant.server` — what the server does, seen from a device;
* `stored_of_send`, `stored_of_other` — a batch, for the device that sent it and for the others;
* `todoHolds_pending` — what a push reads at its start.
-/

import Passmgr.FleetOutbox

set_option relaxedAutoImplicit false
set_option autoImplicit false

namespace Passmgr.Fleet

/-- The records with a change that was not applied, of a push under way. -/
def Device.failed (d : Device) : List RecordId :=
  match d.phase with
  | .pushing _ failed => failed
  | .taking _ _ _ failed => failed
  | _ => []

/-- The rows of a page that is being read or on its way. -/
def pulledRows : PullPhase → List RecordRow
  | .idle => []
  | .asked _ _ => []
  | .reading _ scan => scan.rows
  | .answered _ page => page.rows

/-- What holds of the server: every version is in the vault its record was made in. -/
structure ServerInvariant (ids : RandomIds) (store : Store) : Prop where
  log : StoreInvariant store
  vault : ∀ row ∈ store.written, row.vaultId = ids.vaultOf row.recordId

/-- What holds of device `i`. -/
structure DeviceInvariant (ids : RandomIds) (i : ℕ) (store : Store) (d : Device) : Prop where
  outbox : OutboxInvariant d.db
  drawn : ∀ recordId, ∀ m ∈ (d.db.view recordId).marks, ids.drawnBy m.changeId = i
  rows : RowsHold ids.vaultOf (Known store.written) d.db
  /-- Of every chain the server has the first changes. -/
  stored : ∀ recordId, StoredFirst (store.db.rowsOf recordId) (d.db.view recordId).marks
  todo : TodoHolds ids i d.db d.todo d.failed
  batch : ∀ batch results todo failed, d.phase = .taking batch results todo failed →
    BatchHolds store.written d.db batch results todo failed
  pulled : ∀ row ∈ d.received ++ pulledRows d.pull, row ∈ store.written

section Invariant

variable {ids : RandomIds} {quotaBytes : ℕ} {i : ℕ} {store store' : Store} {d d' : Device}
  {db db' : LocalDb}

/-! ### Transactions of a device -/

theorem sameOutside_writeLocalChanges {now : Time}
    {changes : List (LocalRecordChange × ChangeId)}
    (h : writeLocalChanges now db changes = .ok db') : SameOutside db db' := by
  refine sameOutside_foldlM (fun db₁ change db₂ hstep => ?_) _ h
  cases hwrite : writeLocalChange change.1 now change.2 db₁ with
  | error e =>
      rw [hwrite] at hstep
      cases hstep
  | ok result =>
      rw [hwrite] at hstep
      obtain rfl := Except.ok.inj hstep
      exact sameOutside_writeLocalChange hwrite

theorem sameOutside_purgeRecord {recordId : RecordId} {clientUpdatedAt now : Time}
    {changeId : ChangeId} (h : purgeRecord recordId clientUpdatedAt now changeId db = .ok db') :
    SameOutside db db' := by
  unfold purgeRecord at h
  split at h
  · obtain rfl := Except.ok.inj h
    exact SameOutside.refl db
  split at h
  · obtain rfl := Except.ok.inj h
    exact SameOutside.refl db
  dsimp only at h
  split at h
  · obtain rfl := Except.ok.inj h
    exact ⟨rfl, rfl, rfl⟩
  · simp only [bind, Except.bind] at h
    split at h
    · cases h
    · next written hinsert =>
        obtain ⟨db₂, written⟩ := written
        obtain rfl := Except.ok.inj h
        have hsame := sameOutside_insertPending hinsert
        exact ⟨hsame.vaults, hsame.syncCursors, hsame.profile⟩

theorem sameOutside_purgeRecords {now : Time} {records : List (RecordId × ChangeId)}
    (h : purgeRecords now db records = .ok db') : SameOutside db db' := by
  refine sameOutside_foldlM (fun db₁ record db₂ hstep => ?_) _ h
  split at hstep
  · cases hstep
  · exact sameOutside_purgeRecord hstep

theorem sameOutside_writeReencryptedVersions {now : Time}
    {versions : List (RecordCiphertext × ℕ × ChangeId)}
    (h : writeReencryptedVersions now db versions = .ok db') : SameOutside db db' := by
  refine sameOutside_foldlM (fun db₁ version db₂ hstep => ?_) _ h
  split at hstep
  · obtain rfl := Except.ok.inj hstep
    exact SameOutside.refl _
  split at hstep
  · obtain rfl := Except.ok.inj hstep
    exact SameOutside.refl _
  · simp only [bind, Except.bind] at hstep
    split at hstep
    · cases hstep
    · next written hwrite =>
        obtain ⟨db₃, written⟩ := written
        obtain rfl := Except.ok.inj hstep
        exact sameOutside_writeLocalChange hwrite

theorem sameOutside_replacePendingCiphertexts (versions : List ReencryptedVersion) :
    SameOutside db (replacePendingCiphertexts versions db) := by
  unfold replacePendingCiphertexts
  refine sameOutside_foldl (fun db version => ?_) versions db
  exact ⟨rfl, rfl, rfl⟩

/-- A write of a device is a transaction on its outbox, keeps its versions in their vaults, and
leaves its cursors alone. -/
theorem of_localWrite {fresh : ChangeId → Prop} {known : EncryptedRecord → Prop}
    (ho : OutboxInvariant db) (hrows : RowsHold ids.vaultOf known db)
    (h : LocalWrite ids fresh db db') :
    Transacts fresh False db db' ∧ RowsHold ids.vaultOf known db' ∧ SameOutside db db' := by
  cases h with
  | writes now changes _ hfresh hmade h =>
      exact ⟨transacts_writeLocalChanges ho h hfresh, hrows.writeLocalChanges hmade h,
        sameOutside_writeLocalChanges h⟩
  | purges now records _ hfresh h =>
      exact ⟨transacts_purgeRecords ho h hfresh, hrows.purgeRecords h, sameOutside_purgeRecords h⟩
  | reencrypts now versions _ hfresh h =>
      exact ⟨transacts_writeReencryptedVersions ho h hfresh, hrows.writeReencryptedVersions h,
        sameOutside_writeReencryptedVersions h⟩
  | replaces versions =>
      exact ⟨transacts_replacePendingCiphertexts ho versions,
        hrows.replacePendingCiphertexts versions, sameOutside_replacePendingCiphertexts versions⟩
  | retries =>
      exact ⟨transacts_retryParkedChanges ho, hrows.of_subset fun _ hrow => hrow, ⟨rfl, rfl, rfl⟩⟩
  | rescues vaultId now changes _ hfresh hmade h =>
      have htransacts : Transacts fresh False db db' := transacts_rescueRevokedVault ho h hfresh
      unfold rescueRevokedVault at h
      cases hwrite : writeLocalChanges now db changes with
      | error e =>
          rw [hwrite] at h
          cases h
      | ok written =>
          rw [hwrite] at h
          obtain rfl := Except.ok.inj h
          have hwritten := hrows.writeLocalChanges hmade hwrite
          have hsame := sameOutside_writeLocalChanges hwrite
          exact ⟨htransacts, hwritten.of_subset fun _ hrow => hrow,
            ⟨hsame.vaults, hsame.syncCursors, hsame.profile⟩⟩

/-- An id that is new to a device and to the server. -/
theorem notMem_of_unused (hs : ServerInvariant ids store) {changeId : ChangeId}
    (hunused : Unused ids i store d changeId) (recordId : RecordId) :
    changeId ∉ (store.db.rowsOf recordId).map (·.clientChangeId) := by
  intro hmem
  obtain ⟨row, hrow, hid⟩ := List.mem_map.1 hmem
  exact hunused.2.1 (List.mem_map.2
    ⟨row, hs.log.mem_written (Db.mem_rowsOf.1 hrow).1, hid⟩)

/-- The chains after a transaction. -/
theorem DeviceInvariant.chains (hs : ServerInvariant ids store)
    (h : DeviceInvariant ids i store d) {up : Prop}
    (ht : Transacts (Unused ids i store d) up d.db db') :
    (∀ recordId, ∀ m ∈ (db'.view recordId).marks, ids.drawnBy m.changeId = i) ∧
      ∀ recordId, StoredFirst (store.db.rowsOf recordId) (db'.view recordId).marks := by
  refine ⟨fun recordId m hm => ?_, fun recordId => (h.stored recordId).moved (ht.moved recordId)
    fun changeId hunused => notMem_of_unused hs hunused recordId⟩
  rcases ht.moved recordId with ⟨n, new, hmarks, -, hnew⟩ | hall
  · rw [hmarks] at hm
    rcases List.mem_append.1 hm with hm | hm
    · obtain ⟨m₀, hm₀, rfl⟩ := List.mem_map.1 hm
      exact h.drawn recordId m₀ hm₀
    · exact (hnew m hm).1
  · exact (hall m hm).1

/-- The answers still to be taken after a transaction. -/
theorem DeviceInvariant.batch_moved (h : DeviceInvariant ids i store d)
    (hmoved : ∀ recordId, Moved (Unused ids i store d) False (d.db.view recordId)
      (db'.view recordId)) {batch : List PendingChange} {results : List PushResult}
    {todo : List PendingChange} {failed : List RecordId}
    (hphase : d.phase = .taking batch results todo failed) :
    BatchHolds store.written db' batch results todo failed := by
  refine (h.batch batch results todo failed hphase).moved hmoved fun changeId hunused => ?_
  have htodo := hunused.2.2
  unfold Device.todo at htodo
  rwa [hphase] at htodo

/-- A transaction outside a page keeps what holds of the device. -/
theorem DeviceInvariant.transact (hs : ServerInvariant ids store)
    (h : DeviceInvariant ids i store d) (ht : Transacts (Unused ids i store d) False d.db db')
    (hrows : RowsHold ids.vaultOf (Known store.written) db') :
    DeviceInvariant ids i store { d with db := db' } where
  outbox := ht.outbox
  drawn := (h.chains hs ht).1
  rows := hrows
  stored := (h.chains hs ht).2
  todo := h.todo.moved ht.moved fun _ hunused => hunused.2.2
  batch _ _ _ _ hphase := h.batch_moved ht.moved hphase
  pulled := h.pulled

/-! ### A batch is processed -/

/-- What the server does, seen from a device. -/
theorem DeviceInvariant.server (h : DeviceInvariant ids i store d) {new : List RecordRow}
    (hwritten : store'.written = store.written ++ new)
    (hstored : ∀ recordId, StoredFirst (store'.db.rowsOf recordId) (d.db.view recordId).marks) :
    DeviceInvariant ids i store' d where
  outbox := h.outbox
  drawn := h.drawn
  rows := h.rows.mono fun record hk => hwritten ▸ hk.mono
  stored := hstored
  todo := h.todo
  batch batch results todo failed hphase :=
    hwritten ▸ (h.batch batch results todo failed hphase).mono new
  pulled row hrow := by
    rw [hwritten]
    exact List.mem_append_left _ (h.pulled row hrow)

section Send

variable {todo batch : List PendingChange} {failed : List RecordId} {userId : UserId} {now : Time}
  {pushed : Pushed}

/-- What is sent is still to be pushed. -/
theorem Sendable.subset (hbatch : Sendable todo failed batch) {change : PendingChange}
    (hchange : change ∈ batch) : change ∈ todo :=
  (mem_changesOf.1 ((hbatch.next change.recordId).subset
    (mem_changesOf.2 ⟨hchange, rfl⟩))).1

/-- What is sent is sent once. -/
theorem Sendable.nodup (hbatch : Sendable todo failed batch)
    (htodo : (todo.map (·.changeId)).Nodup) : (batch.map (·.changeId)).Nodup := by
  have hnodup : batch.Nodup := by
    rw [List.nodup_iff_count_le_one]
    intro change
    have hcount : ∀ changes : List PendingChange,
        (changesOf change.recordId changes).count change = changes.count change := by
      intro changes
      unfold changesOf GroupBy.group
      exact List.count_filter (decide_eq_true rfl)
    rw [← hcount batch]
    refine ((hbatch.next change.recordId).sublist.count_le change).trans ?_
    rw [hcount todo]
    exact List.nodup_iff_count_le_one.1 (List.Nodup.of_map _ htodo) change
  exact hnodup.map_on fun a ha b hb heq =>
    List.inj_on_of_nodup_map htodo (hbatch.subset ha) (hbatch.subset hb) heq

/-- Every row of a push is of a change that was sent. -/
theorem change_of_pushed
    (hd : pushChanges quotaBytes store.db userId now (batch.map toPushChange) = .ok pushed)
    {row : RecordRow} (hrow : row ∈ pushed.written) : ∃ change ∈ batch,
      change.recordId = row.recordId ∧ IsRowOf userId now (toPushChange change) row := by
  obtain ⟨change, hchange, hof, -⟩ := change_of_written hd (mem_writtenOf.2 ⟨hrow, rfl⟩)
  obtain ⟨hmem, hid⟩ := mem_changesOf.1 hchange
  exact ⟨change, hmem, hid, hof⟩

/-- The rows of a push are in the vaults of their records. -/
theorem ServerInvariant.push (hs : ServerInvariant ids store)
    (htodo : TodoHolds ids i db todo failed) (hbatch : Sendable todo failed batch)
    (hd : pushChanges quotaBytes store.db userId now (batch.map toPushChange) = .ok pushed) :
    ServerInvariant ids { db := pushed.db, written := store.written ++ pushed.written } where
  log := hs.log.push hd
  vault row hrow := by
    rcases List.mem_append.1 hrow with hrow | hrow
    · exact hs.vault row hrow
    · obtain ⟨change, hchange, hid, hof⟩ := change_of_pushed hd hrow
      rw [hof.vaultId, ← hid]
      exact htodo.vault change (hbatch.subset hchange)

/-- **Another device** finds nothing of its chains written. -/
theorem stored_of_other (hs : ServerInvariant ids store)
    (htodo : TodoHolds ids i db todo failed) (hbatch : Sendable todo failed batch)
    (hd : pushChanges quotaBytes store.db userId now (batch.map toPushChange) = .ok pushed)
    {j : ℕ} (hj : j ≠ i) {recordId : RecordId} {marks : List PendingMark}
    (hdrawn : ∀ m ∈ marks, ids.drawnBy m.changeId = j)
    (h : StoredFirst (store.db.rowsOf recordId) marks) :
    StoredFirst (pushed.db.rowsOf recordId) marks := by
  refine h.push_other hs.log hd fun m hm hmem => hj ?_
  obtain ⟨row, hrow, hid⟩ := List.mem_map.1 hmem
  obtain ⟨change, hchange, -, hof⟩ := change_of_pushed hd (mem_writtenOf.1 hrow).1
  rw [← hdrawn m hm, ← hid, hof.clientChangeId]
  exact htodo.drawn change (hbatch.subset hchange)

/-- **The device that pushed** finds the first changes of its chains written, and the answers in
their order. -/
theorem stored_of_send (hs : ServerInvariant ids store) (ho : OutboxInvariant db)
    (htodo : TodoHolds ids i db todo failed) (hbatch : Sendable todo failed batch)
    (hd : pushChanges quotaBytes store.db userId now (batch.map toPushChange) = .ok pushed)
    {recordId : RecordId}
    (h : StoredFirst (store.db.rowsOf recordId) (db.view recordId).marks) :
    StoredFirst (pushed.db.rowsOf recordId) (db.view recordId).marks ∧
      Takes (store.written ++ pushed.written) (pushed.results.filterMap id) (recordId ∈ failed)
        (changesOf recordId batch) (changesOf recordId todo) (db.view recordId).marks := by
  have hother : (∀ change ∈ changesOf recordId batch,
      change.changeId ∉ (db.view recordId).marks.map (·.changeId)) →
      StoredFirst (pushed.db.rowsOf recordId) (db.view recordId).marks := by
    intro hgone
    refine h.push_other hs.log hd fun m hm hmem => ?_
    obtain ⟨row, hrow, hid⟩ := List.mem_map.1 hmem
    obtain ⟨change, hchange, hof, -⟩ := change_of_written hd hrow
    exact hgone change hchange (List.mem_map.2 ⟨m, hm, hid.symm.trans hof.clientChangeId⟩)
  by_cases hfailed : recordId ∈ failed
  · -- Nothing of the record was sent.
    have hnone : ∀ change ∈ changesOf recordId batch,
        change.changeId ∉ (db.view recordId).marks.map (·.changeId) := by
      intro change hchange
      obtain ⟨hmem, hid⟩ := mem_changesOf.1 hchange
      exact absurd (hid ▸ hfailed) (hbatch.ok change hmem)
    exact ⟨hother hnone, Or.inl hnone⟩
  rcases htodo.leads recordId hfailed with ⟨rest, hmarks⟩ | hgone
  · obtain ⟨after, hnext⟩ := hbatch.next recordId
    obtain ⟨first, hfirst⟩ := ho.chains recordId
    have hsplit : (db.view recordId).marks = (changesOf recordId batch).map PendingChange.mark ++
        (after.map PendingChange.mark ++ rest) := by
      rw [hmarks, ← hnext, List.map_append, List.append_assoc]
    have hfollows : ((changesOf recordId batch).map PendingChange.mark).IsChain
        PendingMark.Follows := by
      have hchain := hfirst.marks
      rw [hsplit] at hchain
      exact hchain.left_of_append
    have hids : ((db.view recordId).marks.map (·.changeId)).Nodup := by
      rw [hfirst.map_changeId_marks]
      exact ho.changeIds.sublist (List.filter_sublist.map _)
    have hversions : ∀ change ∈ changesOf recordId batch, 1 ≤ change.record.version :=
      fun change hchange => htodo.version change (hbatch.subset (mem_changesOf.1 hchange).1)
    have hbatchIds := hbatch.nodup htodo.nodup
    rw [hsplit] at h hids
    have hrows : ∀ row ∈ store.written ++ pushed.written, row.recordId = recordId →
        row.vaultId = ids.vaultOf recordId := by
      intro row hrow hid
      rw [(hs.push htodo hbatch hd).vault row hrow, hid]
    have hvaults : ∀ change ∈ changesOf recordId batch,
        change.record.vaultId = ids.vaultOf recordId := by
      intro change hchange
      obtain ⟨hmem, hid⟩ := mem_changesOf.1 hchange
      rw [htodo.vault change (hbatch.subset hmem), hid]
    refine ⟨?_, Or.inr ⟨fun _ => ⟨⟨after, hnext⟩, rest, hmarks⟩,
      settled_first hs.log hbatchIds hd h hfollows hvaults hrows,
      fun hr => absurd hr hfailed, fun change hchange changeId record hresult => ?_⟩⟩
    · rw [hsplit]
      exact h.push hs.log hd hfollows hids hversions
    · obtain ⟨hmem, hid⟩ := mem_changesOf.1 hchange
      obtain ⟨row, hrow, hrecord, hrid, hle⟩ := applied_row hs.log hbatchIds hd hmem hresult
      refine ⟨row, hrow, hrecord, hrid, hle (hversions change hchange) ?_⟩
      rw [hid]
      exact h
  · have hnone : ∀ change ∈ changesOf recordId batch,
        change.changeId ∉ (db.view recordId).marks.map (·.changeId) :=
      fun change hchange => hgone change ((hbatch.next recordId).subset hchange)
    exact ⟨hother hnone, Or.inl hnone⟩

end Send

/-! ### A push begins -/

/-- A pending change is one of the chain of its record. -/
theorem mark_of_pending (ho : OutboxInvariant db) {change : PendingChange}
    (hchange : change ∈ getPendingChanges db) :
    change.mark ∈ (db.view change.recordId).marks := by
  rw [← marks_pendingChanges ho]
  exact List.mem_map_of_mem (mem_changesOf.2 ⟨hchange, rfl⟩)

/-- A change belongs to one record. -/
theorem record_of_changeId (ho : OutboxInvariant db) {changeId : ChangeId} {a b : RecordId}
    (ha : changeId ∈ (db.view a).marks.map (·.changeId))
    (hb : changeId ∈ (db.view b).marks.map (·.changeId)) : a = b := by
  have hentry : ∀ {recordId}, changeId ∈ (db.view recordId).marks.map (·.changeId) →
      ∃ entry ∈ db.outbox, entry.changeId = changeId ∧ entry.recordId = recordId := by
    intro recordId hmem
    obtain ⟨first, hfirst⟩ := ho.chains recordId
    rw [hfirst.map_changeId_marks] at hmem
    obtain ⟨entry, hmem, hid⟩ := List.mem_map.1 hmem
    obtain ⟨hqueued, hrid⟩ := List.mem_filter.1 hmem
    exact ⟨entry, hqueued, hid, of_decide_eq_true hrid⟩
  obtain ⟨e, he, heid, rfl⟩ := hentry ha
  obtain ⟨e', he', heid', rfl⟩ := hentry hb
  rw [List.inj_on_of_nodup_map ho.changeIds he he' (heid.trans heid'.symm)]

/-- The ids of the pending changes are those of the outbox. -/
theorem nodup_pendingChanges (ho : OutboxInvariant db) :
    ((getPendingChanges db).map (·.changeId)).Nodup := by
  rw [getPendingChanges_eq ho, List.Nodup, List.pairwise_map, List.pairwise_filterMap]
  refine (List.pairwise_map.1 ho.changeIds).imp fun {a b} hab change hchange change' hchange' => ?_
  obtain ⟨row, -, rfl⟩ := Option.map_eq_some_iff.1 hchange
  obtain ⟨row', -, rfl⟩ := Option.map_eq_some_iff.1 hchange'
  exact hab

/-- Of a record all pending changes are pushed, or none. -/
theorem changesOf_unheld (changes : List PendingChange) (recordId : RecordId) :
    changesOf recordId (unheldChanges changes) =
      if recordId ∈ heldRecords changes then [] else changesOf recordId changes := by
  unfold unheldChanges changesOf GroupBy.group
  rw [List.filter_comm]
  split
  · next hheld =>
      refine List.filter_eq_nil_iff.2 fun change hchange => ?_
      have hid : change.recordId = recordId := of_decide_eq_true (List.mem_filter.1 hchange).2
      simpa [hid] using hheld
  · next hheld =>
      refine List.filter_eq_self.2 fun change hchange => ?_
      have hid : change.recordId = recordId := of_decide_eq_true (List.mem_filter.1 hchange).2
      simpa [hid] using hheld

/-- What is read at the start of a push. -/
theorem todoHolds_pending (h : DeviceInvariant ids i store d) :
    TodoHolds ids i d.db (unheldChanges (getPendingChanges d.db)) [] where
  nodup := (nodup_pendingChanges h.outbox).sublist (List.filter_sublist.map _)
  drawn change hchange :=
    h.drawn _ _ (mark_of_pending h.outbox (List.mem_filter.1 hchange).1)
  vault change hchange := by
    have hmem := (List.mem_filter.1 hchange).1
    rw [getPendingChanges_eq h.outbox] at hmem
    obtain ⟨entry, -, hrow⟩ := List.mem_filterMap.1 hmem
    obtain ⟨row, hfound, rfl⟩ := Option.map_eq_some_iff.1 hrow
    exact h.rows.vault row (List.mem_of_find?_eq_some hfound)
  version change hchange := by
    have hmark := mark_of_pending h.outbox (List.mem_filter.1 hchange).1
    obtain ⟨first, hfirst⟩ := h.outbox.chains change.recordId
    have hversion : change.mark.version ∈ (d.db.view change.recordId).marks.map (·.version) :=
      List.mem_map_of_mem hmark
    rw [hfirst.map_version_marks, List.mem_range'_1] at hversion
    exact hfirst.pos.trans hversion.1
  own change hchange recordId hmem :=
    record_of_changeId h.outbox
      (List.mem_map_of_mem (mark_of_pending h.outbox (List.mem_filter.1 hchange).1)) hmem
  leads recordId _ := by
    rw [changesOf_unheld]
    split
    · exact Or.inl ⟨_, rfl⟩
    · exact Or.inl ⟨[], by rw [marks_pendingChanges h.outbox, List.append_nil]⟩

/-! ### Steps that change the phase -/

/-- A device goes on with something else. -/
theorem DeviceInvariant.goOn (h : DeviceInvariant ids i store d) {phase : Phase}
    (htodo : TodoHolds ids i d.db { d with phase := phase }.todo
      { d with phase := phase }.failed)
    (hbatch : ∀ batch results todo failed, phase = .taking batch results todo failed →
      BatchHolds store.written d.db batch results todo failed)
    (hpulled : ∀ row ∈ pulledRows { d with phase := phase }.pull, row ∈ store.written) :
    DeviceInvariant ids i store { d with phase := phase } where
  outbox := h.outbox
  drawn := h.drawn
  rows := h.rows
  stored := h.stored
  todo := htodo
  batch := hbatch
  pulled row hrow := by
    rcases List.mem_append.1 hrow with hrow | hrow
    · exact h.pulled row (List.mem_append_left _ hrow)
    · exact hpulled row hrow

/-- The rows the server reads were written. -/
theorem pulledRows_of_loopStep {userId : UserId} {s t : Pull} (hs : StoreInvariant s.store)
    (h : LoopStep userId s t) (hrows : ∀ row ∈ pulledRows s.phase, row ∈ s.store.written) :
    ∀ row ∈ pulledRows t.phase, row ∈ s.store.written := by
  cases h with
  | start cursors limit now hphase => exact fun row hrow => absurd hrow List.not_mem_nil
  | read cursors scan vaultId rest hphase hrest =>
      rw [hphase] at hrows
      have hread : ∀ row ∈ (readVault s.store.db vaultId rest scan).1.rows,
          row ∈ s.store.written := by
        intro row hrow
        unfold readVault at hrow
        rcases List.mem_append.1 hrow with hrow | hrow
        · exact hrows row hrow
        · exact hs.mem_written (mem_of_mem_rowsPast (List.mem_of_mem_take hrow)).1
      dsimp only
      split
      · next scan' heq =>
          rw [heq] at hread
          exact hread
      · next scan' heq =>
          rw [heq] at hread
          exact hread
  | finish cursors scan hphase hrest =>
      rw [hphase] at hrows
      exact hrows
  | apply cursors page resolve now newChangeId limit device vaultsChanged hphase hlimit happly =>
      dsimp only
      split
      · exact fun row hrow => absurd hrow List.not_mem_nil
      · exact fun row hrow => absurd hrow List.not_mem_nil

end Invariant

end Passmgr.Fleet
