/-
# Runs of the fleet

Every step of a device keeps what holds of it and of the server, and leaves what holds of the other
devices alone; so all of it holds in every state of every run, however the devices' transactions,
pushes and pulls interleave and whatever answers get lost.

Main results:

* `DeviceInvariant.step`, `DeviceInvariant.frame` — a step of a device, for it and for the others;
* `holds_of_reaches` — every device and the server are in order in every state of every run;
* `devices_in_order` — the outboxes, and what the server has of them;
* `devices_agree` — what the devices have synced.
-/

import Passmgr.FleetInvariant

set_option relaxedAutoImplicit false
set_option autoImplicit false

namespace Passmgr.Fleet

section Steps

variable {ids : RandomIds} {quotaBytes : ℕ} {i : ℕ} {store store' : Store} {d d' : Device}

/-- A vault is removed from a device: of a chain that is gone no answer finds a change. -/
theorem DeviceInvariant.removeVault (hs : ServerInvariant ids store)
    (h : DeviceInvariant ids i store d) {vaultId : VaultId} {keepUnsent : Bool} {now : Time}
    {db : LocalDb} (hok : Passmgr.removeVault vaultId keepUnsent now d.db = .ok db) :
    DeviceInvariant ids i store
      { d with db := db, received := d.received.filter (·.vaultId ≠ vaultId) } := by
  have ht : Transacts (Unused ids i store d) False d.db db :=
    transacts_removeVault h.outbox hok (h.rows.dropsWhole [vaultId])
  refine ⟨ht.outbox, (h.chains hs ht).1, h.rows.removeVault hok, (h.chains hs ht).2,
    h.todo.moved ht.moved fun changeId hunused => hunused.2.2,
    fun batch results todo failed hp => h.batch_moved ht.moved hp, fun row hrow => ?_⟩
  rcases List.mem_append.1 hrow with hrow | hrow
  · exact h.pulled row (List.mem_append_left _ (List.mem_filter.1 hrow).1)
  · exact h.pulled row (List.mem_append_right _ hrow)

/-- What taking an answer keeps of a device. -/
theorem DeviceInvariant.took (h : DeviceInvariant ids i store d) {change : PendingChange}
    {batch : List PendingChange} {results : List PushResult} {todo : List PendingChange}
    {failed : List RecordId} (now : Time)
    (hphase : d.phase = .taking (change :: batch) results todo failed) :
    Took ids i store.written results batch (todo.filter (·.changeId ≠ change.changeId)) d.db
      (takeResult now results (pushRunOf d.db failed) change).db
      (takeResult now results (pushRunOf d.db failed) change).failed := by
  have htodo : TodoHolds ids i d.db todo failed := by
    have htodo := h.todo
    unfold Device.todo Device.failed at htodo
    rwa [hphase] at htodo
  have hbatch := h.batch _ _ _ _ hphase
  cases hsettles : settles results change with
  | false =>
      obtain ⟨hnoted, hfailed⟩ :=
        takeResult_unsettled now (pushRunOf d.db failed) hsettles
      rw [hfailed]
      exact took_unsettled h.outbox htodo hbatch hsettles hnoted
  | true =>
      obtain ⟨hfailed, ⟨changeId, record, hresult, hdb⟩ | ⟨hpurge, hdb⟩⟩ :=
        takeResult_settled now (pushRunOf d.db failed) hsettles
      · rw [hfailed, hdb]
        refine took_settled h.outbox htodo hbatch hsettles (fun row hrow => ?_)
          fun hnone => by cases hnone
        obtain rfl := Option.some.inj hrow
        exact ⟨changeId, hresult⟩
      · rw [hfailed, hdb]
        exact took_settled h.outbox htodo hbatch hsettles (fun row hrow => by cases hrow)
          fun _ => hpurge

/-- The answer to a change is taken. -/
theorem DeviceInvariant.take (hs : ServerInvariant ids store) (h : DeviceInvariant ids i store d)
    {change : PendingChange} {batch : List PendingChange} {results : List PushResult}
    {todo : List PendingChange} {failed : List RecordId} (now : Time)
    (hphase : d.phase = .taking (change :: batch) results todo failed) :
    DeviceInvariant ids i store { d with
      db := (takeResult now results (pushRunOf d.db failed) change).db
      phase := .taking batch results (todo.filter (·.changeId ≠ change.changeId))
        (takeResult now results (pushRunOf d.db failed) change).failed } := by
  have htook := h.took now hphase
  refine ⟨htook.outbox, fun recordId m hm => ?_, htook.rows ids.vaultOf hs.vault h.rows,
    fun recordId => ?_, htook.holds, fun batch' results' todo' failed' hp => ?_,
    fun row hrow => ?_⟩
  · rcases htook.chains recordId with hmarks | hmarks
    · exact h.drawn recordId m (hmarks ▸ hm)
    · exact h.drawn recordId m (List.mem_of_mem_tail (hmarks ▸ hm))
  · dsimp only
    rcases htook.chains recordId with hmarks | hmarks
    · rw [hmarks]
      exact h.stored recordId
    · rw [hmarks]
      exact (h.stored recordId).tail
  · obtain ⟨rfl, rfl, rfl, rfl⟩ := Phase.taking.inj hp
    exact htook.answers
  · rcases List.mem_append.1 hrow with hrow | hrow
    · exact h.pulled row (List.mem_append_left _ hrow)
    · cases hrow

/-- A page is applied. -/
theorem DeviceInvariant.apply (hs : ServerInvariant ids store)
    (h : DeviceInvariant ids i store d) {cursors : List (VaultId × ℕ)} {page : SyncPage}
    {resolve : Option ConflictResolver} {now : Time} {newChangeId : RecordId → ChangeId}
    {limit : ℕ} {db : LocalDb} {vaultsChanged : Bool}
    (hphase : d.phase = .pulling (.answered cursors page))
    (hrecord : MergesItsRecord resolve)
    (hfresh : ∀ recordId, Unused ids i store d (newChangeId recordId))
    (hok : applySync page.batch resolve now newChangeId d.db = .ok (db, vaultsChanged)) :
    DeviceInvariant ids i store { d with
      db := db
      received := receivedAfter d.db d.received page
      phase := .pulling
        (if page.hasMore && advanced cursors db.syncCursors then .asked db.syncCursors limit
        else .idle) } := by
  have ht : Transacts (Unused ids i store d) True d.db db :=
    transacts_applySync h.outbox hrecord hfresh (h.rows.dropsWhole _) hok
  have hpull : d.pull = .answered cursors page := by
    unfold Device.pull
    rw [hphase]
  have hpage : ∀ row ∈ page.rows, row ∈ store.written := fun row hrow =>
    h.pulled row (List.mem_append_right _ (by rw [hpull]; exact hrow))
  have hpulled : ∀ row ∈ page.batch.pulled, row.vaultId = ids.vaultOf row.recordId ∧
      Known store.written row := by
    intro row hrow
    obtain ⟨w, hw, rfl⟩ := List.mem_map.1 (List.mem_filter.1 hrow).1
    exact ⟨hs.vault w (hpage w hw), Or.inl ⟨w, hpage w hw, rfl⟩⟩
  refine ⟨ht.outbox, (h.chains hs ht).1, h.rows.applySync h.outbox hrecord hpulled hok,
    (h.chains hs ht).2, TodoHolds.nil ids i db _, fun _ _ _ _ hp => ?_, fun row hrow => ?_⟩
  · cases hp
  rcases List.mem_append.1 hrow with hrow | hrow
  · rcases List.mem_append.1 hrow with hrow | hrow
    · exact h.pulled row (List.mem_append_left _ (List.mem_filter.1 hrow).1)
    · exact hpage row (List.mem_filter.1 hrow).1
  · unfold Device.pull at hrow
    dsimp only at hrow
    split at hrow
    · cases hrow
    · cases hrow

/-- The changes of a push under way. -/
theorem DeviceInvariant.todo_of_pushing (h : DeviceInvariant ids i store d)
    {todo : List PendingChange} {failed : List RecordId} (hphase : d.phase = .pushing todo failed) :
    TodoHolds ids i d.db todo failed := by
  have htodo := h.todo
  unfold Device.todo Device.failed at htodo
  rwa [hphase] at htodo

/-- A batch is processed. -/
theorem DeviceInvariant.send (hs : ServerInvariant ids store) (h : DeviceInvariant ids i store d)
    {todo batch : List PendingChange} {failed : List RecordId} {now : Time} {pushed : Pushed}
    (hphase : d.phase = .pushing todo failed) (hbatch : Sendable todo failed batch)
    (hd : pushChanges quotaBytes store.db d.userId now (batch.map toPushChange) = .ok pushed) :
    DeviceInvariant ids i { db := pushed.db, written := store.written ++ pushed.written }
      { d with phase := .taking batch (pushed.results.filterMap id) todo failed } := by
  have htodo := h.todo_of_pushing hphase
  have hsent : ∀ recordId, _ := fun recordId =>
    stored_of_send hs h.outbox htodo hbatch hd (h.stored recordId)
  have hserver : DeviceInvariant ids i
      { db := pushed.db, written := store.written ++ pushed.written } d :=
    h.server rfl fun recordId => (hsent recordId).1
  refine hserver.goOn htodo (fun batch' results todo' failed' hp => ?_)
    fun row hrow => by cases hrow
  obtain ⟨rfl, rfl, rfl, rfl⟩ := Phase.taking.inj hp
  exact ⟨hbatch.nodup htodo.nodup, fun change hchange => hbatch.subset hchange,
    fun recordId => (hsent recordId).2⟩

/-- **A step of a device** keeps what holds of it and of the server. -/
theorem DeviceInvariant.step (hs : ServerInvariant ids store) (h : DeviceInvariant ids i store d)
    (hstep : DeviceStep ids quotaBytes i store d store' d') :
    ServerInvariant ids store' ∧ DeviceInvariant ids i store' d' := by
  cases hstep with
  | write db hwrite =>
      obtain ⟨ht, hrows, -⟩ := of_localWrite h.outbox h.rows hwrite
      exact ⟨hs, h.transact hs ht hrows⟩
  | removeVault vaultId keepUnsent now db hok => exact ⟨hs, h.removeVault hs hok⟩
  | startPush hphase =>
      exact ⟨hs, h.goOn (todoHolds_pending h) (fun _ _ _ _ hp => by cases hp)
        fun row hrow => by cases hrow⟩
  | send todo failed batch now pushed hphase hbatch hd =>
      exact ⟨hs.push (h.todo_of_pushing hphase) hbatch hd, h.send hs hphase hbatch hd⟩
  | take change batch results todo failed now hphase run hrun =>
      subst hrun
      exact ⟨hs, h.take hs now hphase⟩
  | taken batch results todo failed hphase =>
      have htodo := h.todo
      unfold Device.todo Device.failed at htodo
      rw [hphase] at htodo
      exact ⟨hs, h.goOn htodo (fun _ _ _ _ hp => by cases hp) fun row hrow => by cases hrow⟩
  | giveUp todo failed batch recordId message now hphase hbatch =>
      have hnoted := noted_failChanges now message batch (pushRunOf d.db failed)
      have ht : Transacts (Unused ids i store d) False d.db
          (batch.foldl (failChange now message) (pushRunOf d.db failed)).db :=
        ⟨hnoted.outbox h.outbox, fun recordId => moved_of_marks_eq (hnoted.marks recordId)⟩
      have hwritten := h.transact hs ht
        (h.rows.of_subset fun row hrow => hnoted.records ▸ hrow)
      have htodo := (h.todo_of_pushing hphase).moved ht.moved
        fun changeId hunused => (by
          have hnot := hunused.2.2
          unfold Device.todo at hnot
          rwa [hphase] at hnot)
      exact ⟨hs, hwritten.goOn (htodo.fail [recordId]) (fun _ _ _ _ hp => by cases hp)
        fun row hrow => by cases hrow⟩
  | ask limit hphase hlimit =>
      exact ⟨hs, h.goOn (TodoHolds.nil ids i d.db _) (fun _ _ _ _ hp => by cases hp)
        fun row hrow => by cases hrow⟩
  | read pull s hphase hreads hloop =>
      obtain rfl : pull = d.pull := by
        unfold Device.pull
        rw [hphase]
      have hrows := pulledRows_of_loopStep hs.log hloop fun row hrow =>
        h.pulled row (List.mem_append_right _ hrow)
      exact ⟨hs, h.goOn (TodoHolds.nil ids i d.db _) (fun _ _ _ _ hp => by cases hp) hrows⟩
  | apply cursors page resolve now newChangeId limit db vaultsChanged hphase hlimit hrecord hvault
      hfresh hok =>
      exact ⟨hs, h.apply hs hphase hrecord hfresh hok⟩
  | stop =>
      exact ⟨hs, h.goOn (TodoHolds.nil ids i d.db _) (fun _ _ _ _ hp => by cases hp)
        fun row hrow => by cases hrow⟩

/-- **The other devices** stay in order. -/
theorem DeviceInvariant.frame (hs : ServerInvariant ids store) (h : DeviceInvariant ids i store d)
    (hstep : DeviceStep ids quotaBytes i store d store' d') {j : ℕ} (hj : j ≠ i) {other : Device}
    (hother : DeviceInvariant ids j store other) : DeviceInvariant ids j store' other := by
  cases hstep with
  | send todo failed batch now pushed hphase hbatch hd =>
      refine hother.server rfl fun recordId => ?_
      exact stored_of_other hs (h.todo_of_pushing hphase) hbatch hd hj (hother.drawn recordId)
        (hother.stored recordId)
  | _ => exact hother

/-- A device before its first step. -/
theorem deviceInvariant_of_start (h : DeviceStart d) :
    DeviceInvariant ids i store d := by
  have hview : ∀ recordId, d.db.view recordId = ⟨[], []⟩ := by
    intro recordId
    unfold LocalDb.view LocalDb.rowsOf LocalDb.entriesOf
    rw [h.records, h.outbox]
    rfl
  have hmarks : ∀ recordId, (d.db.view recordId).marks = [] := fun recordId => by
    rw [hview]
    rfl
  refine ⟨⟨?_, ?_, fun recordId => ⟨1, ?_⟩⟩, fun recordId m hm => ?_, ⟨?_, ?_⟩,
    fun recordId => ?_, ?_, fun batch results todo failed hp => ?_, fun row hrow => ?_⟩
  · rw [h.outbox]
    exact .nil
  · rw [h.outbox]
    exact .nil
  · rw [hview]
    exact chained_of_synced rfl rfl
  · rw [hmarks] at hm
    cases hm
  · rw [h.records]
    exact fun row hrow => absurd hrow List.not_mem_nil
  · rw [h.records]
    exact fun row hrow => absurd hrow List.not_mem_nil
  · rw [hmarks]
    exact StoredFirst.nil _
  · unfold Device.todo
    rw [h.phase]
    exact TodoHolds.nil ids i d.db _
  · rw [h.phase] at hp
    cases hp
  · unfold Device.pull at hrow
    rw [h.received, h.phase] at hrow
    cases hrow

/-! ### Every run -/

/-- What the steps of the fleet keep. -/
theorem keeps (ids : RandomIds) (quotaBytes : ℕ) :
    Interleaving.Keeps DeviceStart (deviceCommand ids quotaBytes) ServerChange
      (fun _ => ServerInvariant ids) (DeviceInvariant ids) where
  begin i store d hstart hs := ⟨hs, deviceInvariant_of_start hstart⟩
  run n i store d store' rest _ hs h hcmd := by
    obtain ⟨d', rfl, hstep⟩ := hcmd
    obtain ⟨hs', h'⟩ := h.step hs hstep
    refine ⟨hs', fun e he => ?_⟩
    obtain rfl := Option.some.inj he
    exact h'
  frame n i store d store' rest hs h hcmd j other hj hother := by
    obtain ⟨d', rfl, hstep⟩ := hcmd
    exact h.frame hs hstep hj hother
  other n store store' hs hchange := by
    obtain ⟨hkeeps, hwritten⟩ := hchange
    obtain ⟨db, written⟩ := store'
    obtain rfl : written = store.written := hwritten
    refine ⟨⟨hs.log.keepsRecords hkeeps, hs.vault⟩, fun j other hother => ?_⟩
    refine hother.server (List.append_nil _).symm fun recordId => ?_
    have hrows : db.rowsOf recordId = store.db.rowsOf recordId := by
      unfold Db.rowsOf
      rw [hkeeps.records]
    dsimp only
    rw [hrows]
    exact hother.stored recordId

/-- **In every state of every run** the server and all devices are in order. -/
theorem holds_of_reaches {db : Db} (hempty : EmptyStore { db := db, written := [] })
    {s : Interleaving.State Store Device}
    (h : Run.Reaches (FleetStep ids quotaBytes) (start db) s) :
    Interleaving.Holds (fun _ => ServerInvariant ids) (DeviceInvariant ids) s :=
  Interleaving.holds_of_reaches (keeps ids quotaBytes) h
    (Interleaving.holds_idle ⟨storeInvariant_of_empty hempty,
      fun _ hrow => absurd hrow List.not_mem_nil⟩)

/-- **Every outbox is in order**, in every state of every run of any number of devices, whatever
answers got lost: the pending versions of a record are numbered one after the other above the
synced ones, each with its change, and of these changes the server has the first ones, at no higher
numbers; and every version is in the vault its record was made in. -/
theorem devices_in_order {db : Db} (hempty : EmptyStore { db := db, written := [] })
    {s : Interleaving.State Store Device}
    (h : Run.Reaches (FleetStep ids quotaBytes) (start db) s) {d : Device}
    (hd : s.calls i = some d) :
    OutboxInvariant d.db ∧
      (∀ recordId, StoredFirst (s.shared.db.rowsOf recordId) (d.db.view recordId).marks) ∧
      ∀ row ∈ d.db.records, row.record.vaultId = ids.vaultOf row.record.recordId := by
  have hall := (holds_of_reaches hempty h).calls i d hd
  exact ⟨hall.outbox, hall.stored, hall.rows.vault⟩

/-- **The devices agree**, in every state of every run: what a device has synced is a version the
server wrote, or the tombstone of a purge; so two devices never hold different synced versions of a
record under one number, but for a purge the server had nothing to store for. -/
theorem devices_agree {db : Db} (hempty : EmptyStore { db := db, written := [] })
    {s : Interleaving.State Store Device}
    (h : Run.Reaches (FleetStep ids quotaBytes) (start db) s) {j : ℕ} {d e : Device}
    (hd : s.calls i = some d) (he : s.calls j = some e) {a b : LocalRow} (ha : a ∈ d.db.records)
    (hb : b ∈ e.db.records) (has : a.isSynced = true) (hbs : b.isSynced = true)
    (hap : a.record.tombstoneKind ≠ some .purged) :
    (∃ row ∈ s.shared.written, a.record = serializeRecord row) ∧
      (b.record.tombstoneKind ≠ some .purged → a.record.recordId = b.record.recordId →
        a.record.version = b.record.version → a.record = b.record) := by
  have hall := holds_of_reaches hempty h
  have hwritten : ∀ {k : ℕ} {f : Device}, s.calls k = some f → ∀ row ∈ f.db.records,
      row.isSynced = true → row.record.tombstoneKind ≠ some .purged →
      ∃ w ∈ s.shared.written, row.record = serializeRecord w := by
    intro k f hf row hrow hs hp
    exact ((hall.calls k f hf).rows.synced row hrow hs).resolve_right hp
  obtain ⟨w, hw, haw⟩ := hwritten hd a ha has hap
  refine ⟨⟨w, hw, haw⟩, fun hbp hid hversion => ?_⟩
  obtain ⟨w', hw', hbw⟩ := hwritten he b hb hbs hbp
  rw [haw, hbw] at hid hversion ⊢
  rw [hall.inv.log.eq_of_version hw hw' hid hversion]

end Steps

/-! ### A run of two devices -/

section Sample

variable {ids : RandomIds} {quotaBytes : ℕ}

/-- The devices in the order they came. -/
def fleetOf (store : Store) (devices : List Device) : Interleaving.State Store Device where
  shared := store
  calls := fun i => devices[i]?
  begun := devices.length

theorem step_begin {store : Store} {devices : List Device} {d : Device} (h : DeviceStart d) :
    FleetStep ids quotaBytes (fleetOf store devices) (fleetOf store (devices ++ [d])) := by
  have hstep : FleetStep ids quotaBytes (fleetOf store devices) _ := .begin d h
  convert hstep using 1
  unfold fleetOf
  congr 1
  · funext k
    dsimp only
    by_cases hk : k = devices.length
    · subst hk
      rw [Function.update_self, List.getElem?_concat_length]
    · rw [Function.update_of_ne hk]
      rcases Nat.lt_or_gt_of_ne hk with hlt | hgt
      · exact List.getElem?_append_left hlt
      · rw [List.getElem?_eq_none (Nat.le_of_lt hgt), List.getElem?_eq_none]
        rw [List.length_append]
        exact hgt
  · rw [List.length_append]
    rfl

theorem step_device {store store' : Store} {devices : List Device} {i : ℕ} {d d' : Device}
    (hd : devices[i]? = some d) (h : DeviceStep ids quotaBytes i store d store' d') :
    FleetStep ids quotaBytes (fleetOf store devices) (fleetOf store' (devices.set i d')) := by
  have hstep : FleetStep ids quotaBytes (fleetOf store devices) _ :=
    .run i d store' (some d') hd ⟨d', rfl, h⟩
  convert hstep using 1
  unfold fleetOf
  congr 1
  · funext k
    dsimp only
    by_cases hk : k = i
    · subst hk
      obtain ⟨hlt, -⟩ := List.getElem?_eq_some_iff.1 hd
      rw [Function.update_self, List.getElem?_set_self hlt]
    · rw [Function.update_of_ne hk, List.getElem?_set_ne (Ne.symm hk)]
  · rw [List.length_set]

/-- Device 0 draws even ids, device 1 odd ones; all records are made in one vault. -/
def sampleIds : RandomIds where
  drawnBy := fun changeId => changeId % 2
  vaultOf := fun _ => 1

/-- A device of a freshly registered user. -/
def newDevice (phase : Phase) (db : LocalDb) : Device where
  userId := 7
  db := db
  received := []
  phase := phase

def sampleStore : Store where
  db := registeredDb 7 1
  written := []

/-- A record that is made on device 0. -/
def sampleWrite : LocalRecordChange × ChangeId :=
  (.create {
    recordId := 5
    vaultId := 1
    content := { encryptedData := ['a'], encryptionNonce := [], cryptoVersion := 1, keyVersion := 1 }
    clientUpdatedAt := 3 }, 10)

/-- Device 0 once it wrote the record. -/
def writtenDb : LocalDb :=
  match writeLocalChanges 2 freshDevice [sampleWrite] with
  | .ok db => db
  | .error _ => freshDevice

/-- Device 0 once it edited the record too. -/
def sampleEdit : LocalRecordChange × ChangeId :=
  (.update {
    recordId := 5
    vaultId := 1
    content := { encryptedData := ['b'], encryptionNonce := [], cryptoVersion := 1, keyVersion := 1 }
    clientUpdatedAt := 6 }, 12)

def editedDb : LocalDb :=
  match writeLocalChanges 6 writtenDb [sampleEdit] with
  | .ok db => db
  | .error _ => writtenDb

/-- What it pushes. -/
def sampleSent : List PendingChange := unheldChanges (getPendingChanges writtenDb)

/-- The push. -/
def samplePushed : Pushed :=
  match pushChanges 1000000 sampleStore.db 7 4 (sampleSent.map toPushChange) with
  | .ok pushed => pushed
  | .error _ => ⟨sampleStore.db, [], [], []⟩

def pushedStore : Store where
  db := samplePushed.db
  written := samplePushed.written

/-- Device 0 once it took the answer. -/
def ackedDb : LocalDb :=
  (sampleSent.foldl (takeResult 5 (samplePushed.results.filterMap id))
    (pushRunOf writtenDb [])).db

/-- The page device 1 reads. -/
def samplePage : SyncPage :=
  finishPage (readVault pushedStore.db 1 [] (startPage pushedStore.db 7 [] 50 0)).1 false

/-- Device 1 once it applied the page. -/
def appliedDb : LocalDb :=
  match applySync samplePage.batch none 0 (fun recordId => 2 * recordId + 1) freshDevice with
  | .ok (db, _) => db
  | .error _ => freshDevice

theorem sampleRun_facts :
    (writeLocalChanges 2 freshDevice [sampleWrite]).isOk = true ∧
      (pushChanges 1000000 sampleStore.db 7 4 (sampleSent.map toPushChange)).isOk = true ∧
      (startPage pushedStore.db 7 [] 50 0).rest = [1] ∧
      (readVault pushedStore.db 1 [] (startPage pushedStore.db 7 [] 50 0)).2 = false ∧
      (applySync samplePage.batch none 0 (fun recordId => 2 * recordId + 1) freshDevice).isOk =
        true ∧
      samplePushed.written.map (·.clientChangeId) = [10] ∧ sampleSent.length = 1 ∧
      ackedDb.records = appliedDb.records ∧ ackedDb.records.length = 1 ∧
      (∀ row ∈ ackedDb.records, row.isSynced = true ∧ row.record.tombstoneKind = none) ∧
      ackedDb.outbox = [] ∧ appliedDb.syncCursors = [(1, 1)] ∧
      (∀ row ∈ writtenDb.records, row.record.tombstoneKind = none) ∧
      (writeLocalChanges 6 writtenDb [sampleEdit]).isOk = true ∧
      (editedDb.view 5).marks.map (·.changeId) = [10, 12] ∧
      (pushedStore.db.rowsOf 5).map (·.clientChangeId) = [10] ∧
      sampleSent.map (·.changeId) = [10] := by
  decide +kernel

/-- What a computation that ends well gives. -/
theorem ok_of_isOk {ε α : Type} {x : Except ε α} (h : x.isOk = true) : ∃ a, x = .ok a := by
  cases x with
  | ok a => exact ⟨a, rfl⟩
  | error e => cases h

/-- No version of a device is a tombstone. -/
def Undeleted (d : Device) : Prop :=
  ∀ row ∈ d.db.records, row.record.tombstoneKind = none

/-- A step that removes no vault from a device that waits for a page, and after which no device has
a tombstone. -/
def SampleStep (s t : Interleaving.State Store Device) : Prop :=
  FleetStep sampleIds 1000000 s t ∧ SteadyPulls s t ∧ ∀ i d, t.calls i = some d → Undeleted d

theorem fleetStep_of_sample {s t : Interleaving.State Store Device}
    (h : Run.Reaches SampleStep s t) : Run.Reaches (FleetStep sampleIds 1000000) s t := by
  induction h with
  | refl => exact .refl
  | tail _ hst ih => exact ih.tail hst.1

/-- Devices that keep their place keep what they wait for. -/
theorem steadyPulls_begin (store : Store) (devices : List Device) (d : Device) :
    SteadyPulls (fleetOf store devices) (fleetOf store (devices ++ [d])) := by
  intro i e e' he he' _ _
  obtain ⟨hlt, -⟩ := List.getElem?_eq_some_iff.1 he
  have hsame : (devices ++ [d])[i]? = devices[i]? := List.getElem?_append_left hlt
  obtain rfl : e = e' := Option.some.inj (he.symm.trans (hsame.symm.trans he'))
  exact ⟨rfl, rfl⟩

theorem steadyPulls_device {store store' : Store} {devices : List Device} {i : ℕ} {d d' : Device}
    (hd : devices[i]? = some d) (h : SteadyPull d d') :
    SteadyPulls (fleetOf store devices) (fleetOf store' (devices.set i d')) := by
  intro j e e' he he'
  have he : devices[j]? = some e := he
  have he' : (devices.set i d')[j]? = some e' := he'
  by_cases hj : i = j
  · subst hj
    obtain ⟨hlt, -⟩ := List.getElem?_eq_some_iff.1 hd
    rw [List.getElem?_set_self hlt] at he'
    obtain rfl := Option.some.inj he'
    obtain rfl := Option.some.inj (hd.symm.trans he)
    exact h
  · rw [List.getElem?_set_ne hj, he] at he'
    obtain rfl := Option.some.inj he'
    exact fun _ _ => ⟨rfl, rfl⟩

/-- A step of the first of two devices. -/
theorem sampleStep_first {store store' : Store} {a a' b : Device}
    (h : DeviceStep sampleIds 1000000 0 store a store' a') (hsteady : SteadyPull a a')
    (ha : Undeleted a') (hb : Undeleted b) :
    SampleStep (fleetOf store [a, b]) (fleetOf store' [a', b]) := by
  have hfirst : [a, b][0]? = some a := rfl
  refine ⟨step_device hfirst h, steadyPulls_device hfirst hsteady, fun i d hd => ?_⟩
  rcases List.mem_cons.1 (List.mem_of_getElem? hd) with rfl | hmem
  · exact ha
  · obtain rfl := List.mem_singleton.1 hmem
    exact hb

/-- A step of the second. -/
theorem sampleStep_second {store store' : Store} {a b b' : Device}
    (h : DeviceStep sampleIds 1000000 1 store b store' b') (hsteady : SteadyPull b b')
    (ha : Undeleted a) (hb : Undeleted b') :
    SampleStep (fleetOf store [a, b]) (fleetOf store' [a, b']) := by
  have hsecond : [a, b][1]? = some b := rfl
  refine ⟨step_device hsecond h, steadyPulls_device hsecond hsteady, fun i d hd => ?_⟩
  rcases List.mem_cons.1 (List.mem_of_getElem? hd) with rfl | hmem
  · exact ha
  · obtain rfl := List.mem_singleton.1 hmem
    exact hb

/-- What a computation that ended well has left. -/
theorem writtenDb_eq : writeLocalChanges 2 freshDevice [sampleWrite] = .ok writtenDb := by
  obtain ⟨db, hdb⟩ := ok_of_isOk sampleRun_facts.1
  unfold writtenDb
  rw [hdb]

theorem editedDb_eq : writeLocalChanges 6 writtenDb [sampleEdit] = .ok editedDb := by
  obtain ⟨-, -, -, -, -, -, -, -, -, -, -, -, -, hedits, -⟩ := sampleRun_facts
  obtain ⟨db, hdb⟩ := ok_of_isOk hedits
  unfold editedDb
  rw [hdb]

theorem samplePushed_eq :
    pushChanges 1000000 sampleStore.db 7 4 (sampleSent.map toPushChange) = .ok samplePushed := by
  obtain ⟨pushed, hpushed⟩ := ok_of_isOk sampleRun_facts.2.1
  unfold samplePushed
  rw [hpushed]

/-- The versions of the run. -/
theorem undeleted_sample (userId : UserId) (received : List RecordRow) (phase : Phase) :
    Undeleted ⟨userId, freshDevice, received, phase⟩ ∧
      Undeleted ⟨userId, writtenDb, received, phase⟩ ∧
      Undeleted ⟨userId, ackedDb, received, phase⟩ ∧
      Undeleted ⟨userId, appliedDb, received, phase⟩ := by
  obtain ⟨-, -, -, -, -, -, -, hsame, -, hacked, -, -, hmade, -⟩ := sampleRun_facts
  exact ⟨fun row hrow => absurd hrow List.not_mem_nil, hmade, fun row hrow => (hacked row hrow).2,
    fun row hrow => (hacked row (hsame ▸ hrow)).2⟩

/-- The answers to the push. -/
def sampleResults : List PushResult := samplePushed.results.filterMap id

/-- Device 0 makes a record and sends it; its answer is on the way. -/
theorem sampleRun_sent : Run.Reaches SampleStep (start sampleStore.db)
    (fleetOf pushedStore [newDevice (.taking sampleSent sampleResults sampleSent []) writtenDb,
      newDevice .idle freshDevice]) := by
  have hstart : DeviceStart (newDevice .idle freshDevice) := ⟨rfl, rfl, rfl, rfl, rfl⟩
  have hnew : Undeleted (newDevice .idle freshDevice) := (undeleted_sample _ _ _).1
  have hmade : ∀ phase, Undeleted (newDevice phase writtenDb) :=
    fun phase => (undeleted_sample _ _ phase).2.1
  have hbegin : Run.Reaches SampleStep (start sampleStore.db)
      (fleetOf sampleStore [newDevice .idle freshDevice, newDevice .idle freshDevice]) := by
    refine .tail (.single ⟨@step_begin sampleIds 1000000 sampleStore [] _ hstart,
      steadyPulls_begin sampleStore [] _, fun i d hd => ?_⟩)
      ⟨@step_begin sampleIds 1000000 sampleStore [newDevice .idle freshDevice] _ hstart,
        steadyPulls_begin sampleStore [newDevice .idle freshDevice] _, fun i d hd => ?_⟩
    · obtain rfl := List.mem_singleton.1 (List.mem_of_getElem? hd)
      exact hnew
    · obtain rfl : d = newDevice .idle freshDevice := by
        simpa using List.mem_of_getElem? hd
      exact hnew
  have hwrite : DeviceStep sampleIds 1000000 0 sampleStore (newDevice .idle freshDevice)
      sampleStore (newDevice .idle writtenDb) := by
    refine .write writtenDb (.writes 2 [sampleWrite] writtenDb (fun change hchange => ?_)
      (fun change hchange ciphertext hcreate => ?_) writtenDb_eq)
    · obtain rfl := List.mem_singleton.1 hchange
      exact ⟨rfl, List.not_mem_nil, List.not_mem_nil⟩
    · obtain rfl := List.mem_singleton.1 hchange
      obtain rfl := LocalRecordChange.create.inj hcreate
      rfl
  have hread : DeviceStep sampleIds 1000000 0 sampleStore (newDevice .idle writtenDb)
      sampleStore (newDevice (.pushing sampleSent []) writtenDb) := .startPush rfl
  have hsend : DeviceStep sampleIds 1000000 0 sampleStore
      (newDevice (.pushing sampleSent []) writtenDb) pushedStore
      (newDevice (.taking sampleSent sampleResults sampleSent []) writtenDb) :=
    .send sampleSent [] sampleSent 4 samplePushed rfl
      ⟨fun _ => List.prefix_rfl, fun _ _ => List.not_mem_nil⟩ samplePushed_eq
  exact ((hbegin.tail (sampleStep_first hwrite (fun h => absurd rfl h) (hmade _) hnew)).tail
    (sampleStep_first hread (fun h => absurd rfl h) (hmade _) hnew)).tail
    (sampleStep_first hsend (fun h => absurd rfl h) (hmade _) hnew)

/-- It takes the answer, and its round ends. -/
theorem sampleRun_acked : Run.Reaches SampleStep (start sampleStore.db)
    (fleetOf pushedStore [newDevice .idle ackedDb, newDevice .idle freshDevice]) := by
  obtain ⟨-, -, -, -, -, -, hone, -⟩ := sampleRun_facts
  obtain ⟨change, hsent⟩ := List.length_eq_one_iff.1 hone
  have htake : DeviceStep sampleIds 1000000 0 pushedStore
      (newDevice (.taking sampleSent sampleResults sampleSent []) writtenDb) pushedStore
      (newDevice (.taking [] sampleResults (sampleSent.filter (·.changeId ≠ change.changeId))
        (takeResult 5 sampleResults (pushRunOf writtenDb []) change).failed) ackedDb) := by
    unfold ackedDb
    rw [hsent]
    exact .take change [] sampleResults [change] [] 5 rfl _ rfl
  have hstop : ∀ phase, DeviceStep sampleIds 1000000 0 pushedStore (newDevice phase ackedDb)
      pushedStore (newDevice .idle ackedDb) := fun phase => .stop
  have hacked : ∀ phase, Undeleted (newDevice phase ackedDb) :=
    fun phase => (undeleted_sample _ _ phase).2.2.1
  have hnew : Undeleted (newDevice .idle freshDevice) := (undeleted_sample _ _ _).1
  exact (sampleRun_sent.tail (sampleStep_first htake (fun h => absurd rfl h) (hacked _) hnew)).tail
    (sampleStep_first (hstop _) (fun h => absurd rfl h) (hacked _) hnew)

/-- Device 1 pulls it. -/
theorem exists_sampleRun : ∃ a b : Device,
    Run.Reaches SampleStep (start sampleStore.db) (fleetOf pushedStore [a, b]) ∧
      a.db = ackedDb ∧ b.db = appliedDb := by
  obtain ⟨-, -, hrest, hlast, happlies, hids, -⟩ := sampleRun_facts
  obtain ⟨changed, happly⟩ : ∃ changed, applySync samplePage.batch none 0
      (fun recordId => 2 * recordId + 1) freshDevice = .ok (appliedDb, changed) := by
    obtain ⟨result, hresult⟩ := ok_of_isOk happlies
    unfold appliedDb
    rw [hresult]
    exact ⟨result.2, rfl⟩
  have hlimit : SyncLimit 50 := by
    unfold SyncLimit minSyncRecords maxSyncRecords
    omega
  have hacked : Undeleted (newDevice .idle ackedDb) := (undeleted_sample _ _ _).2.2.1
  have hnew : ∀ phase, Undeleted (newDevice phase freshDevice) :=
    fun phase => (undeleted_sample _ _ phase).1
  have hask : DeviceStep sampleIds 1000000 1 pushedStore (newDevice .idle freshDevice)
      pushedStore (newDevice (.pulling (.asked [] 50)) freshDevice) := .ask 50 rfl hlimit
  have hvaults : DeviceStep sampleIds 1000000 1 pushedStore
      (newDevice (.pulling (.asked [] 50)) freshDevice) pushedStore
      (newDevice (.pulling (.reading [] (startPage pushedStore.db 7 [] 50 0))) freshDevice) :=
    .read _ _ rfl (fun _ _ h => by cases h) (.start [] 50 0 rfl)
  have hrows : DeviceStep sampleIds 1000000 1 pushedStore
      (newDevice (.pulling (.reading [] (startPage pushedStore.db 7 [] 50 0))) freshDevice)
      pushedStore (newDevice (.pulling (.reading []
        (readVault pushedStore.db 1 [] (startPage pushedStore.db 7 [] 50 0)).1)) freshDevice) := by
    have hstep := @DeviceStep.read sampleIds 1000000 1 pushedStore
      (newDevice (.pulling (.reading [] (startPage pushedStore.db 7 [] 50 0))) freshDevice) _ _ rfl
      (fun _ _ h => by cases h) (.read [] _ 1 [] rfl hrest)
    dsimp only at hstep
    rw [show readVault pushedStore.db 1 [] (startPage pushedStore.db 7 [] 50 0) =
      ((readVault pushedStore.db 1 [] (startPage pushedStore.db 7 [] 50 0)).1, false) from
        Prod.ext rfl hlast] at hstep
    exact hstep
  have hanswer : DeviceStep sampleIds 1000000 1 pushedStore (newDevice (.pulling (.reading []
        (readVault pushedStore.db 1 [] (startPage pushedStore.db 7 [] 50 0)).1)) freshDevice)
      pushedStore (newDevice (.pulling (.answered [] samplePage)) freshDevice) :=
    .read _ _ rfl (fun _ _ h => by cases h) (.finish [] _ rfl rfl)
  have happlied := @DeviceStep.apply sampleIds 1000000 1 pushedStore
    (newDevice (.pulling (.answered [] samplePage)) freshDevice) [] samplePage none 0
    (fun recordId => 2 * recordId + 1) 50 appliedDb changed rfl hlimit (fun _ h => by cases h)
    (fun _ h => by cases h) (fun recordId => ?_) happly
  · have hpulls := (((sampleRun_acked.tail
      (sampleStep_second hask (fun h => absurd rfl h) hacked (hnew _))).tail
      (sampleStep_second hvaults (fun _ _ => ⟨rfl, rfl⟩) hacked (hnew _))).tail
      (sampleStep_second hrows (fun _ _ => ⟨rfl, rfl⟩) hacked (hnew _))).tail
      (sampleStep_second hanswer (fun _ _ => ⟨rfl, rfl⟩) hacked (hnew _))
    refine ⟨_, _, hpulls.tail (sampleStep_second happlied (fun _ hpull => ?_) hacked
      (undeleted_sample _ _ _).2.2.2), rfl, rfl⟩
    cases hpull
  · refine ⟨?_, fun hmem => ?_, List.not_mem_nil⟩
    · exact Nat.mul_add_mod 2 recordId 1
    · rw [show pushedStore.written = samplePushed.written from rfl, hids] at hmem
      have hodd : (2 * recordId + 1 : ℕ) % 2 = 10 % 2 :=
        congrArg (fun n : ℕ => n % 2) (List.mem_singleton.1 hmem)
      rw [Nat.mul_add_mod] at hodd
      cases hodd

/-- The user has registered, and nothing is pushed yet. -/
theorem emptyStore_sample : EmptyStore { db := sampleStore.db, written := [] } :=
  ⟨rfl, rfl, by decide, by decide⟩

/-- Device 0 edits the record while the answer to its push is on the way: of its two pending changes
the server has the first. -/
theorem devices_in_order_sample :
    Run.Reaches (FleetStep sampleIds 1000000) (start sampleStore.db) (fleetOf pushedStore
      [newDevice (.taking sampleSent sampleResults sampleSent []) editedDb,
        newDevice .idle freshDevice]) ∧
      OutboxInvariant editedDb ∧
      StoredFirst (pushedStore.db.rowsOf 5) (editedDb.view 5).marks ∧
      (editedDb.view 5).marks.map (·.changeId) = [10, 12] ∧
      (pushedStore.db.rowsOf 5).map (·.clientChangeId) = [10] := by
  obtain ⟨-, -, -, -, -, hids, -, -, -, -, -, -, -, -, hmarks, hstored, hsent⟩ := sampleRun_facts
  have hedit : DeviceStep sampleIds 1000000 0 pushedStore
      (newDevice (.taking sampleSent sampleResults sampleSent []) writtenDb) pushedStore
      (newDevice (.taking sampleSent sampleResults sampleSent []) editedDb) := by
    refine .write editedDb (.writes 6 [sampleEdit] editedDb (fun change hchange => ?_)
      (fun change hchange ciphertext hcreate => ?_) editedDb_eq)
    · obtain rfl := List.mem_singleton.1 hchange
      refine ⟨rfl, fun hmem => ?_, fun hmem => ?_⟩
      · rw [show pushedStore.written = samplePushed.written from rfl, hids] at hmem
        cases List.mem_singleton.1 hmem
      · have hmem : 12 ∈ sampleSent.map (·.changeId) := hmem
        rw [hsent] at hmem
        cases List.mem_singleton.1 hmem
    · obtain rfl := List.mem_singleton.1 hchange
      cases hcreate
  have hfirst : [newDevice (.taking sampleSent sampleResults sampleSent []) writtenDb,
      newDevice .idle freshDevice][0]? = some _ := rfl
  have hrun := (fleetStep_of_sample sampleRun_sent).tail (step_device hfirst hedit)
  obtain ⟨ho, hs, -⟩ := @devices_in_order sampleIds 1000000 0 _ emptyStore_sample _ hrun
    (newDevice (.taking sampleSent sampleResults sampleSent []) editedDb) rfl
  exact ⟨hrun, ho, hs 5, hmarks, hstored⟩

/-- They hold the record under its first number, and the same one. -/
theorem devices_agree_sample : ∃ a ∈ ackedDb.records, ∃ b ∈ appliedDb.records,
    (∃ row ∈ pushedStore.written, a.record = serializeRecord row) ∧ a.record = b.record := by
  obtain ⟨d, e, hrun, hd, he⟩ := exists_sampleRun
  have hrun := fleetStep_of_sample hrun
  obtain ⟨-, -, -, -, -, -, -, hsame, hone, hsynced, -⟩ := sampleRun_facts
  obtain ⟨row, hrow⟩ := List.length_eq_one_iff.1 hone
  have hmem : row ∈ ackedDb.records := by
    rw [hrow]
    exact List.mem_cons_self
  obtain ⟨hs, hkind⟩ := hsynced row hmem
  have hnot : row.record.tombstoneKind ≠ some .purged := by
    rw [hkind]
    exact fun h => by cases h
  obtain ⟨hwritten, hequal⟩ := @devices_agree sampleIds 1000000 0 _ emptyStore_sample _ hrun 1 d e
    rfl rfl row row (hd ▸ hmem) (he ▸ hsame ▸ hmem) hs hs hnot
  exact ⟨row, hmem, row, hsame ▸ hmem, hwritten, hequal hnot rfl rfl⟩

end Sample

end Passmgr.Fleet
