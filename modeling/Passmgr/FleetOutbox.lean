/-
# The outbox of a device among others

A push under way knows how its changes stand to the chains of the outbox: a chain begins with the
changes still to be pushed, or the device has given them up meanwhile; and the answers to a batch
settle the first changes of a chain.

Main definitions:

* `Known` — what a synced version is;
* `Leads`, `TodoHolds` — the changes of a push and the chains;
* `Takes`, `BatchHolds` — the answers to a batch and the chains.
-/

import Passmgr.Fleet
import Passmgr.LocalRows
import Passmgr.PendingChains
import Passmgr.PullLoop
import Passmgr.PushAnswers

set_option relaxedAutoImplicit false
set_option autoImplicit false

namespace Passmgr.Fleet

variable {ids : RandomIds} {i : ℕ} {store : Store} {d : Device} {db db' : LocalDb}
  {written : List RecordRow} {todo batch : List PendingChange} {failed : List RecordId}
  {results : List PushResult} {marks marks' : List PendingMark}

/-- A version the server wrote, or the tombstone of a purge it had nothing to store for. -/
def Known (written : List RecordRow) (record : EncryptedRecord) : Prop :=
  (∃ row ∈ written, record = serializeRecord row) ∨ record.tombstoneKind = some .purged

theorem Known.mono {record : EncryptedRecord} {new : List RecordRow} (h : Known written record) :
    Known (written ++ new) record := by
  rcases h with ⟨row, hrow, rfl⟩ | hp
  · exact Or.inl ⟨row, List.mem_append_left _ hrow, rfl⟩
  · exact Or.inr hp

/-! ### The changes of a push -/

/-- A chain begins with the changes of a record that are still to be pushed, or the device has none
of them any more. -/
def Leads (chain : List PendingChange) (marks : List PendingMark) : Prop :=
  (∃ rest, marks = chain.map PendingChange.mark ++ rest) ∨
    ∀ change ∈ chain, change.changeId ∉ marks.map (·.changeId)

/-- What a transaction that does not move a chain up does to its ids. -/
theorem ids_of_moved {fresh : ChangeId → Prop} {v v' : RecordView} (h : Moved fresh False v v') :
    (∃ new, v'.marks = v.marks ++ new ∧ ∀ m ∈ new, fresh m.changeId) ∨
      ∀ m ∈ v'.marks, fresh m.changeId := by
  refine h.imp_left ?_
  rintro ⟨n, new, hmarks, hn, hnew⟩
  obtain rfl := hn.resolve_right id
  refine ⟨new, ?_, hnew⟩
  rw [hmarks]
  congr 1
  exact List.map_id _

theorem Leads.moved {fresh : ChangeId → Prop} {v v' : RecordView} {chain : List PendingChange}
    (h : Leads chain v.marks) (hmoved : Moved fresh False v v')
    (hfresh : ∀ change ∈ chain, ¬fresh change.changeId) : Leads chain v'.marks := by
  rcases ids_of_moved hmoved with ⟨new, hmarks, hnew⟩ | hall
  · rw [hmarks]
    rcases h with ⟨rest, hrest⟩ | hgone
    · exact Or.inl ⟨rest ++ new, by rw [hrest, List.append_assoc]⟩
    · refine Or.inr fun change hchange hmem => ?_
      rw [List.map_append, List.mem_append] at hmem
      rcases hmem with hmem | hmem
      · exact hgone change hchange hmem
      · obtain ⟨m, hm, hid⟩ := List.mem_map.1 hmem
        exact hfresh change hchange (hid ▸ hnew m hm)
  · refine Or.inr fun change hchange hmem => ?_
    obtain ⟨m, hm, hid⟩ := List.mem_map.1 hmem
    exact hfresh change hchange (hid ▸ hall m hm)

/-- What holds of the changes of a push. -/
structure TodoHolds (ids : RandomIds) (i : ℕ) (db : LocalDb) (todo : List PendingChange)
    (failed : List RecordId) : Prop where
  nodup : (todo.map (·.changeId)).Nodup
  drawn : ∀ change ∈ todo, ids.drawnBy change.changeId = i
  vault : ∀ change ∈ todo, change.record.vaultId = ids.vaultOf change.recordId
  version : ∀ change ∈ todo, 1 ≤ change.record.version
  /-- A change that is still in the outbox is one of its record. -/
  own : ∀ change ∈ todo, ∀ recordId,
    change.changeId ∈ (db.view recordId).marks.map (·.changeId) → change.recordId = recordId
  leads : ∀ recordId, recordId ∉ failed →
    Leads (changesOf recordId todo) (db.view recordId).marks

namespace TodoHolds

theorem nil (ids : RandomIds) (i : ℕ) (db : LocalDb) (failed : List RecordId) :
    TodoHolds ids i db [] failed where
  nodup := .nil
  drawn _ hc := absurd hc List.not_mem_nil
  vault _ hc := absurd hc List.not_mem_nil
  version _ hc := absurd hc List.not_mem_nil
  own _ hc := absurd hc List.not_mem_nil
  leads _ _ := Or.inl ⟨_, rfl⟩

/-- A transaction of the device. -/
theorem moved {fresh : ChangeId → Prop} (h : TodoHolds ids i db todo failed)
    (hmoved : ∀ recordId, Moved fresh False (db.view recordId) (db'.view recordId))
    (hfresh : ∀ changeId, fresh changeId → changeId ∉ todo.map (·.changeId)) :
    TodoHolds ids i db' todo failed := by
  have hnot : ∀ change ∈ todo, ¬fresh change.changeId := fun change hchange hf =>
    hfresh _ hf (List.mem_map_of_mem hchange)
  refine { h with
    own := fun change hchange recordId hmem => ?_
    leads := fun recordId hr => (h.leads recordId hr).moved (hmoved recordId)
      fun change hchange => hnot change (mem_changesOf.1 hchange).1 }
  rcases ids_of_moved (hmoved recordId) with ⟨new, hmarks, hnew⟩ | hall
  · rw [hmarks, List.map_append, List.mem_append] at hmem
    refine h.own change hchange recordId (hmem.resolve_right fun hmem => ?_)
    obtain ⟨m, hm, hid⟩ := List.mem_map.1 hmem
    exact hnot change hchange (hid ▸ hnew m hm)
  · obtain ⟨m, hm, hid⟩ := List.mem_map.1 hmem
    exact absurd (hid ▸ hall m hm) (hnot change hchange)

/-- More records count as failed. -/
theorem fail (h : TodoHolds ids i db todo failed) (more : List RecordId) :
    TodoHolds ids i db todo (failed ++ more) :=
  { h with leads := fun recordId hr => h.leads recordId fun hmem => hr (List.mem_append_left _ hmem) }

end TodoHolds

/-! ### The changes of a record that are left -/

theorem changesOf_cons (change : PendingChange) (changes : List PendingChange)
    (recordId : RecordId) : changesOf recordId (change :: changes) =
      if recordId = change.recordId then change :: changesOf recordId changes
      else changesOf recordId changes := by
  unfold changesOf GroupBy.group
  rw [List.filter_cons]
  by_cases hid : recordId = change.recordId
  · rw [if_pos hid, if_pos (decide_eq_true hid.symm)]
  · rw [if_neg hid, if_neg (by simpa using Ne.symm hid)]

/-- A change that is taken off leaves the changes of the other records. -/
theorem changesOf_without_other {change : PendingChange} (hnodup : (todo.map (·.changeId)).Nodup)
    (hchange : change ∈ todo) {recordId : RecordId} (hid : recordId ≠ change.recordId) :
    changesOf recordId (todo.filter (·.changeId ≠ change.changeId)) = changesOf recordId todo := by
  unfold changesOf GroupBy.group
  rw [List.filter_comm, List.filter_eq_self]
  intro other hother
  obtain ⟨hmem, hrid⟩ := List.mem_filter.1 hother
  refine decide_eq_true fun heq => hid ?_
  rw [← List.inj_on_of_nodup_map hnodup hmem hchange heq]
  exact (of_decide_eq_true hrid).symm

/-- The first change of a record is taken off. -/
theorem changesOf_without_first {change : PendingChange} {chain : List PendingChange}
    (hnodup : (todo.map (·.changeId)).Nodup)
    (hchain : changesOf change.recordId todo = change :: chain) :
    changesOf change.recordId (todo.filter (·.changeId ≠ change.changeId)) = chain := by
  have hsublist : (change :: chain).Sublist todo := by
    rw [← hchain]
    exact List.filter_sublist
  have hids := hnodup.sublist (hsublist.map (·.changeId))
  rw [List.map_cons, List.nodup_cons] at hids
  unfold changesOf GroupBy.group at hchain ⊢
  rw [List.filter_comm, hchain, List.filter_cons_of_neg (by simp), List.filter_eq_self]
  intro other hother
  exact decide_eq_true fun heq => hids.1 (List.mem_map.2 ⟨other, hother, heq⟩)

/-! ### The answers to a batch -/

/-- The answers to the next changes of a chain: the settled ones come first, none is left to be
settled once one was not, and the rows are the server's. -/
structure TakesInOrder (written : List RecordRow) (results : List PushResult) (failed : Prop)
    (batch todo : List PendingChange) (marks : List PendingMark) : Prop where
  next : ¬failed → batch <+: todo ∧ ∃ rest, marks = todo.map PendingChange.mark ++ rest
  settled : batch.Pairwise fun a b => settles results b = true → settles results a = true
  unsettled : failed → ∀ change ∈ batch, settles results change = false
  row : ∀ change ∈ batch, ∀ changeId record,
    resultOf results change.changeId = some (.applied changeId record) →
      ∃ row ∈ written, record = serializeRecord row ∧ row.recordId = change.recordId ∧
        row.version ≤ change.record.version

/-- The answers to the changes of a record in a batch, unless the device has none of these changes
any more. -/
def Takes (written : List RecordRow) (results : List PushResult) (failed : Prop)
    (batch todo : List PendingChange) (marks : List PendingMark) : Prop :=
  (∀ change ∈ batch, change.changeId ∉ marks.map (·.changeId)) ∨
    TakesInOrder written results failed batch todo marks

/-- What holds of the answers to a batch that are still to be taken. -/
structure BatchHolds (written : List RecordRow) (db : LocalDb) (batch : List PendingChange)
    (results : List PushResult) (todo : List PendingChange) (failed : List RecordId) : Prop where
  nodup : (batch.map (·.changeId)).Nodup
  sub : ∀ change ∈ batch, change ∈ todo
  takes : ∀ recordId, Takes written results (recordId ∈ failed) (changesOf recordId batch)
    (changesOf recordId todo) (db.view recordId).marks

namespace BatchHolds

/-- The server writes more versions. -/
theorem mono (h : BatchHolds written db batch results todo failed) (new : List RecordRow) :
    BatchHolds (written ++ new) db batch results todo failed := by
  refine { h with takes := fun recordId => (h.takes recordId).imp_right fun hin => ?_ }
  refine { hin with row := fun change hchange changeId record hresult => ?_ }
  obtain ⟨row, hrow, hrest⟩ := hin.row change hchange changeId record hresult
  exact ⟨row, List.mem_append_left _ hrow, hrest⟩

/-- A transaction of the device. -/
theorem moved {fresh : ChangeId → Prop} (h : BatchHolds written db batch results todo failed)
    (hmoved : ∀ recordId, Moved fresh False (db.view recordId) (db'.view recordId))
    (hfresh : ∀ changeId, fresh changeId → changeId ∉ todo.map (·.changeId)) :
    BatchHolds written db' batch results todo failed := by
  refine { h with takes := fun recordId => ?_ }
  have hnot : ∀ change ∈ changesOf recordId batch, ¬fresh change.changeId :=
    fun change hchange hf =>
      hfresh _ hf (List.mem_map_of_mem (h.sub change (mem_changesOf.1 hchange).1))
  rcases ids_of_moved (hmoved recordId) with ⟨new, hmarks, hnew⟩ | hall
  · rw [hmarks]
    rcases h.takes recordId with hgone | hin
    · refine Or.inl fun change hchange hmem => ?_
      rw [List.map_append, List.mem_append] at hmem
      refine hgone change hchange (hmem.resolve_right fun hmem => ?_)
      obtain ⟨m, hm, hid⟩ := List.mem_map.1 hmem
      exact hnot change hchange (hid ▸ hnew m hm)
    · refine Or.inr { hin with next := fun hok => ?_ }
      obtain ⟨hcovers, rest, hrest⟩ := hin.next hok
      exact ⟨hcovers, rest ++ new, by rw [hrest, List.append_assoc]⟩
  · refine Or.inl fun change hchange hmem => ?_
    obtain ⟨m, hm, hid⟩ := List.mem_map.1 hmem
    exact hnot change hchange (hid ▸ hall m hm)

end BatchHolds

/-! ### Taking an answer -/

/-- A failure is noted at an entry, and nothing else changes. -/
structure Noted (db db' : LocalDb) : Prop where
  outbox : OutboxInvariant db → OutboxInvariant db'
  marks : ∀ recordId, (db'.view recordId).marks = (db.view recordId).marks
  records : db'.records = db.records
  syncCursors : db'.syncCursors = db.syncCursors

theorem Noted.refl (db : LocalDb) : Noted db db := ⟨id, fun _ => rfl, rfl, rfl⟩

theorem Noted.trans {db'' : LocalDb} (h : Noted db db') (h' : Noted db' db'') : Noted db db'' :=
  ⟨fun ho => h'.outbox (h.outbox ho), fun recordId => (h'.marks recordId).trans (h.marks recordId),
    h'.records.trans h.records, h'.syncCursors.trans h.syncCursors⟩

theorem marks_updateEntry {changeId : ChangeId} {f : OutboxEntry → OutboxEntry}
    (hf : ∀ entry, (f entry).changeId = entry.changeId ∧ (f entry).recordId = entry.recordId)
    (recordId : RecordId) :
    ((updateEntry changeId f db).view recordId).marks = (db.view recordId).marks := by
  have hentries : ((updateEntry changeId f db).view recordId).entries =
      (db.view recordId).entries.map fun entry =>
        if entry.changeId = changeId then f entry else entry := by
    unfold updateEntry LocalDb.view LocalDb.entriesOf
    dsimp only
    rw [List.filter_map]
    congr 1
    refine List.filter_congr fun entry _ => ?_
    dsimp only [Function.comp_apply]
    split
    · rw [(hf entry).2]
    · rfl
  have hpending : ((updateEntry changeId f db).view recordId).pending =
      (db.view recordId).pending := rfl
  unfold RecordView.marks
  rw [hentries, hpending, List.zipWith_map_left]
  congr 1
  funext entry row
  unfold pendingMark
  split
  · rw [(hf entry).1]
  · rfl

theorem noted_failChange (now : Time) (message : Text) (run : PushRun Unit)
    (change : PendingChange) : Noted run.db (failChange now message run change).db := by
  unfold failChange
  split
  · refine ⟨fun ho => ?_, marks_updateEntry fun _ => ⟨rfl, rfl⟩, rfl, rfl⟩
    have hparked : Transacts (fun _ => True) True _ _ :=
      transacts_parkPendingChange ho change.changeId message now
    exact hparked.outbox
  · refine ⟨fun ho => ?_, marks_updateEntry fun _ => ⟨rfl, rfl⟩, rfl, rfl⟩
    have hfailed : Transacts (fun _ => True) True _ _ :=
      transacts_failPendingChange ho change.changeId message true
    exact hfailed.outbox

theorem noted_failChanges (now : Time) (message : Text) (batch : List PendingChange)
    (run : PushRun Unit) : Noted run.db (batch.foldl (failChange now message) run).db := by
  induction batch generalizing run with
  | nil => exact Noted.refl _
  | cons change batch ih => exact (noted_failChange now message run change).trans (ih _)

/-- An answer that does not settle a change is noted, and its record counts as failed. -/
theorem takeResult_unsettled (now : Time) (run : PushRun Unit) {change : PendingChange}
    (h : settles results change = false) :
    Noted run.db (takeResult now results run change).db ∧
      (takeResult now results run change).failed = run.failed ++ [change.recordId] := by
  unfold settles at h
  unfold takeResult
  dsimp only
  split at h
  · cases h
  · next changeId reason hresult =>
      rw [hresult]
      rw [if_neg fun hpurge => by simp [hpurge.1, hpurge.2] at h]
      split
      · refine ⟨noted_failChange now _ (run.addFailed change.recordId) change, ?_⟩
        unfold failChange
        split <;> rfl
      · refine ⟨⟨fun ho => ?_, marks_updateEntry fun _ => ⟨rfl, rfl⟩, rfl, rfl⟩, rfl⟩
        have hparked : Transacts (fun _ => True) True _ _ :=
          transacts_parkPendingChange ho change.changeId
            (failureMessage (some (.rejected changeId reason))) now
        exact hparked.outbox
  · next changeId headVersion hresult =>
      rw [hresult]
      refine ⟨⟨fun ho => ?_, marks_updateEntry fun _ => ⟨rfl, rfl⟩, rfl, rfl⟩, rfl⟩
      have hfailed : Transacts (fun _ => True) True _ _ :=
        transacts_failPendingChange ho change.changeId
          (failureMessage (some (.stale changeId headVersion))) false
      exact hfailed.outbox
  · next hresult =>
      rw [hresult]
      refine ⟨noted_failChange now _ (run.addFailed change.recordId) change, ?_⟩
      unfold failChange
      split <;> rfl

/-- An answer that settles a change acknowledges it: with the row that was applied, or as a purge
the server has nothing to take away for. -/
theorem takeResult_settled (now : Time) (run : PushRun Unit) {change : PendingChange}
    (h : settles results change = true) :
    (takeResult now results run change).failed = run.failed ∧
      ((∃ changeId record, resultOf results change.changeId = some (.applied changeId record) ∧
          (takeResult now results run change).db =
            ackPendingChange change.changeId (some record) run.db) ∨
        (change.mark.isPurge = true ∧
          (takeResult now results run change).db =
            ackPendingChange change.changeId none run.db)) := by
  unfold settles at h
  unfold takeResult
  dsimp only
  split at h
  · next changeId record hresult =>
      rw [hresult]
      exact ⟨rfl, Or.inl ⟨changeId, record, rfl, rfl⟩⟩
  · next changeId reason hresult =>
      rw [hresult]
      rw [Bool.and_eq_true, decide_eq_true_eq, decide_eq_true_eq] at h
      rw [if_pos h]
      exact ⟨rfl, Or.inr ⟨decide_eq_true h.2, rfl⟩⟩
  · cases h
  · cases h

theorem syncCursors_ackPendingChange (changeId : ChangeId) (serverRow : Option EncryptedRecord)
    (db : LocalDb) : (ackPendingChange changeId serverRow db).syncCursors = db.syncCursors := by
  unfold ackPendingChange
  split
  · rfl
  · cases serverRow <;> rfl

/-- What taking an answer keeps. -/
structure Took (ids : RandomIds) (i : ℕ) (written : List RecordRow) (results : List PushResult)
    (batch todo : List PendingChange) (db db' : LocalDb) (failed' : List RecordId) : Prop where
  outbox : OutboxInvariant db'
  chains : ∀ recordId, (db'.view recordId).marks = (db.view recordId).marks ∨
    (db'.view recordId).marks = (db.view recordId).marks.tail
  holds : TodoHolds ids i db' todo failed'
  answers : BatchHolds written db' batch results todo failed'
  rows : ∀ vaultOf : RecordId → VaultId, (∀ row ∈ written, row.vaultId = vaultOf row.recordId) →
    RowsHold vaultOf (Known written) db → RowsHold vaultOf (Known written) db'
  /-- What is synced stays, where it is what the server wrote. -/
  keeps : ∀ recordId, (∀ row ∈ db.rowsOf recordId, row.isSynced = true → ∀ w ∈ written,
    row.key = (w.recordId, w.version) → row.record = serializeRecord w) →
      KeepsSynced recordId db db'
  syncCursors : db'.syncCursors = db.syncCursors

/-- Nothing is left of a change that is taken. -/
theorem sub_without {change : PendingChange}
    (hb : BatchHolds written db (change :: batch) results todo failed) :
    (batch.map (·.changeId)).Nodup ∧
      ∀ other ∈ batch, other ∈ todo.filter (·.changeId ≠ change.changeId) := by
  have hnodup := hb.nodup
  rw [List.map_cons, List.nodup_cons] at hnodup
  refine ⟨hnodup.2, fun other hother => List.mem_filter.2
    ⟨hb.sub other (List.mem_cons_of_mem _ hother), decide_eq_true fun heq => ?_⟩⟩
  exact hnodup.1 (List.mem_map.2 ⟨other, hother, heq⟩)

/-- The changes of a push without one of them. -/
theorem TodoHolds.without (h : TodoHolds ids i db todo failed) {change : PendingChange}
    {failed' : List RecordId}
    (hmarks : ∀ recordId, ∀ changeId ∈ (db'.view recordId).marks.map (·.changeId),
      changeId ∈ (db.view recordId).marks.map (·.changeId))
    (hleads : ∀ recordId, recordId ∉ failed' →
      Leads (changesOf recordId (todo.filter (·.changeId ≠ change.changeId)))
        (db'.view recordId).marks) :
    TodoHolds ids i db' (todo.filter (·.changeId ≠ change.changeId)) failed' where
  nodup := h.nodup.sublist (List.filter_sublist.map _)
  drawn c hc := h.drawn c (List.mem_filter.1 hc).1
  vault c hc := h.vault c (List.mem_filter.1 hc).1
  version c hc := h.version c (List.mem_filter.1 hc).1
  own c hc recordId hmem := h.own c (List.mem_filter.1 hc).1 recordId (hmarks recordId _ hmem)
  leads := hleads

/-- Taking an answer that does not settle its change. -/
theorem took_unsettled (ho : OutboxInvariant db) (h : TodoHolds ids i db todo failed)
    {change : PendingChange}
    (hb : BatchHolds written db (change :: batch) results todo failed)
    (hsettles : settles results change = false) (hnoted : Noted db db') :
    Took ids i written results batch (todo.filter (·.changeId ≠ change.changeId)) db db'
      (failed ++ [change.recordId]) := by
  have hmem : change ∈ todo := hb.sub change List.mem_cons_self
  obtain ⟨hnodup, hsub⟩ := sub_without hb
  refine ⟨hnoted.outbox ho, fun recordId => Or.inl (hnoted.marks recordId),
    h.without (fun recordId changeId hc => hnoted.marks recordId ▸ hc) fun recordId hr => ?_,
    ⟨hnodup, hsub, fun recordId => ?_⟩,
    fun vaultOf _ hrows => hrows.of_subset fun row hrow => hnoted.records ▸ hrow,
    fun recordId _ => .of_records fun row hrow _ => hnoted.records ▸ hrow, hnoted.syncCursors⟩
  · rw [List.mem_append, List.mem_singleton, not_or] at hr
    rw [changesOf_without_other h.nodup hmem hr.2, hnoted.marks]
    exact h.leads recordId hr.1
  · have htakes := hb.takes recordId
    rw [changesOf_cons] at htakes
    rw [hnoted.marks]
    by_cases hid : recordId = change.recordId
    · rw [if_pos hid] at htakes
      refine htakes.imp (fun hgone c hc => hgone c (List.mem_cons_of_mem _ hc)) fun hin => ?_
      obtain ⟨hfirst, hrest⟩ := List.pairwise_cons.1 hin.settled
      refine ⟨fun hnot => absurd (List.mem_append_right _ (List.mem_singleton.2 hid)) hnot, hrest,
        fun _ c hc => ?_, fun c hc => hin.row c (List.mem_cons_of_mem _ hc)⟩
      -- What comes after a change that is not settled is not settled either.
      rw [← Bool.not_eq_true]
      intro hc'
      rw [hfirst c hc hc'] at hsettles
      cases hsettles
    · rw [if_neg hid] at htakes
      rw [changesOf_without_other h.nodup hmem hid]
      have hiff : recordId ∈ failed ++ [change.recordId] ↔ recordId ∈ failed := by
        rw [List.mem_append, List.mem_singleton, or_iff_left hid]
      rw [hiff]
      exact htakes

/-- An answer is taken: of the other records nothing changes, and what holds of its own is given. -/
theorem holds_of_own (h : TodoHolds ids i db todo failed) {change : PendingChange}
    (hb : BatchHolds written db (change :: batch) results todo failed)
    (hsame : ∀ recordId, recordId ≠ change.recordId →
      (db'.view recordId).marks = (db.view recordId).marks)
    (hids : ∀ changeId ∈ (db'.view change.recordId).marks.map (·.changeId),
      changeId ∈ (db.view change.recordId).marks.map (·.changeId))
    (hleads : change.recordId ∉ failed →
      Leads (changesOf change.recordId (todo.filter (·.changeId ≠ change.changeId)))
        (db'.view change.recordId).marks)
    (htakes : Takes written results (change.recordId ∈ failed) (changesOf change.recordId batch)
      (changesOf change.recordId (todo.filter (·.changeId ≠ change.changeId)))
      (db'.view change.recordId).marks) :
    TodoHolds ids i db' (todo.filter (·.changeId ≠ change.changeId)) failed ∧
      BatchHolds written db' batch results (todo.filter (·.changeId ≠ change.changeId)) failed := by
  have hmem : change ∈ todo := hb.sub change List.mem_cons_self
  obtain ⟨hnodup, hsub⟩ := sub_without hb
  refine ⟨h.without (fun recordId changeId hc => ?_) fun recordId hr => ?_,
    hnodup, hsub, fun recordId => ?_⟩
  · by_cases hid : recordId = change.recordId
    · subst hid
      exact hids changeId hc
    · exact hsame recordId hid ▸ hc
  · by_cases hid : recordId = change.recordId
    · subst hid
      exact hleads hr
    · rw [changesOf_without_other h.nodup hmem hid, hsame recordId hid]
      exact h.leads recordId hr
  · by_cases hid : recordId = change.recordId
    · subst hid
      exact htakes
    · have htakes := hb.takes recordId
      rw [changesOf_cons, if_neg hid] at htakes
      rw [changesOf_without_other h.nodup hmem hid, hsame recordId hid]
      exact htakes

/-- A settled answer leaves nothing to do where the device has none of these changes any more. -/
theorem took_gone (ho : OutboxInvariant db) (h : TodoHolds ids i db todo failed)
    {change : PendingChange}
    (hb : BatchHolds written db (change :: batch) results todo failed)
    (serverRow : Option EncryptedRecord)
    (hgone : ∀ c ∈ change :: changesOf change.recordId batch,
      c.changeId ∉ (db.view change.recordId).marks.map (·.changeId)) :
    Took ids i written results batch (todo.filter (·.changeId ≠ change.changeId)) db
      (ackPendingChange change.changeId serverRow db) failed := by
  have hmem : change ∈ todo := hb.sub change List.mem_cons_self
  have hnone : ∀ entry, db.entry? change.changeId ≠ some entry := by
    intro entry hentry
    have hid := mem_marks_of_entry ho hentry
    rw [← h.own change hmem entry.recordId hid] at hid
    exact hgone change List.mem_cons_self hid
  rw [ackPendingChange_of_notMem hnone]
  have hleads : change.recordId ∉ failed →
      Leads (changesOf change.recordId (todo.filter (·.changeId ≠ change.changeId)))
        (db.view change.recordId).marks := by
    intro hr
    right
    rcases h.leads change.recordId hr with ⟨rest, hrest⟩ | hall
    · exfalso
      refine hgone change List.mem_cons_self ?_
      rw [hrest, List.map_append, List.map_map]
      exact List.mem_append_left _
        (List.mem_map.2 ⟨change, mem_changesOf.2 ⟨hmem, rfl⟩, rfl⟩)
    · intro c hc
      obtain ⟨hc, hid⟩ := mem_changesOf.1 hc
      exact hall c (mem_changesOf.2 ⟨(List.mem_filter.1 hc).1, hid⟩)
  obtain ⟨hholds, hanswers⟩ := holds_of_own h hb (fun _ _ => rfl) (fun _ hc => hc) hleads
    (Or.inl fun c hc => hgone c (List.mem_cons_of_mem _ hc))
  exact ⟨ho, fun _ => Or.inl rfl, hholds, hanswers, fun _ _ hrows => hrows,
    fun _ _ => .of_eq rfl, rfl⟩

/-- Taking an answer that settles its change. -/
theorem took_settled (ho : OutboxInvariant db) (h : TodoHolds ids i db todo failed)
    {change : PendingChange}
    (hb : BatchHolds written db (change :: batch) results todo failed)
    (hsettles : settles results change = true) {serverRow : Option EncryptedRecord}
    (hrow : ∀ row ∈ serverRow, ∃ changeId,
      resultOf results change.changeId = some (.applied changeId row))
    (hnone : serverRow = none → change.mark.isPurge = true) :
    Took ids i written results batch (todo.filter (·.changeId ≠ change.changeId)) db
      (ackPendingChange change.changeId serverRow db) failed := by
  have hself := hb.takes change.recordId
  rw [changesOf_cons, if_pos rfl] at hself
  rcases hself with hgone | hin
  · exact took_gone ho h hb serverRow hgone
  · have hok : change.recordId ∉ failed := by
      intro hr
      rw [hin.unsettled hr change List.mem_cons_self] at hsettles
      cases hsettles
    obtain ⟨⟨after, hchain⟩, rest, hmarks⟩ := hin.next hok
    rw [List.cons_append] at hchain
    have hleft := changesOf_without_first h.nodup hchain.symm
    rw [← hchain, List.map_cons, List.cons_append] at hmarks
    have hanswer : ∀ row ∈ serverRow, row.recordId = change.recordId ∧
        row.version ≤ change.mark.version := by
      intro row hserver
      obtain ⟨changeId, hresult⟩ := hrow row hserver
      obtain ⟨w, -, rfl, hid, hle⟩ := hin.row change List.mem_cons_self changeId row hresult
      exact ⟨hid, hle⟩
    obtain ⟨houtbox, hview⟩ := marks_ackPendingChange ho hmarks hanswer
    have hview' : ∀ recordId, recordId ≠ change.recordId →
        ((ackPendingChange change.changeId serverRow db).view recordId).marks =
          (db.view recordId).marks := fun recordId hid => (hview recordId).trans (if_neg hid)
    have hself : ((ackPendingChange change.changeId serverRow db).view change.recordId).marks = _ :=
      (hview change.recordId).trans (if_pos rfl)
    obtain ⟨-, hrest⟩ := List.pairwise_cons.1 hin.settled
    obtain ⟨hholds, hanswers⟩ := holds_of_own h hb hview' (fun changeId hc => by
        rw [hself] at hc
        rw [hmarks, List.map_cons]
        exact List.mem_cons_of_mem _ hc)
      (fun _ => Or.inl ⟨rest, by rw [hself, hleft]⟩)
      (Or.inr ⟨fun _ => ⟨⟨after, hleft.symm⟩, rest, by rw [hself, hleft]⟩, hrest,
        fun hr => absurd hr hok, fun c hc => hin.row c (List.mem_cons_of_mem _ hc)⟩)
    refine ⟨houtbox, fun recordId => ?_, hholds, hanswers, fun vaultOf hvault hrows => ?_,
      fun recordId hagree => .ackPendingChange ho fun record hserver row hr hs hkey => ?_,
      syncCursors_ackPendingChange change.changeId serverRow db⟩
    · by_cases hid : recordId = change.recordId
      · subst hid
        rw [hself, hmarks]
        exact Or.inr rfl
      · exact Or.inl (hview' recordId hid)
    · refine hrows.ackPendingChange (fun row hserver => ?_) fun hserver entry hentry row hr hkey => ?_
      · obtain ⟨changeId, hresult⟩ := hrow row hserver
        obtain ⟨w, hw, rfl, -, -⟩ := hin.row change List.mem_cons_self changeId row hresult
        exact ⟨hvault w hw, Or.inl ⟨w, hw, rfl⟩⟩
      · -- The version that stays is the purge.
        obtain ⟨hid, hversion, -⟩ := entry_of_first ho hmarks hentry
        obtain ⟨hrid, hrv⟩ := Prod.mk.inj hkey
        have hpurge := row_of_first ho hmarks (hrid.trans hid ▸ mem_view.1 hr)
          (hrv.trans hversion)
        rw [hnone hserver] at hpurge
        exact Or.inr (of_decide_eq_true hpurge.symm)
    · obtain ⟨changeId, hresult⟩ := hrow record hserver
      obtain ⟨w, hw, rfl, -, -⟩ := hin.row change List.mem_cons_self changeId record hresult
      exact hagree row hr hs w hw hkey

end Passmgr.Fleet
