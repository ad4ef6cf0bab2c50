/-
# Chains as a push reads and answers them

What `getPendingChanges` reads of a record is its pending chain, in order; and the answer to the
first change of a chain takes that change off it, whichever row the server answered.

Main results:

* `marks_pendingChanges` — the pending changes of a record are its chain;
* `marks_ackPendingChange` — the chains once the first change of one is answered;
* `entry_of_first` — the entry of a chain's first change.
-/

import Passmgr.RekeyKeeps
import Passmgr.StoredChanges

set_option relaxedAutoImplicit false
set_option autoImplicit false

namespace Passmgr

section Chains

variable {db : LocalDb}

/-! ### Reading the outbox -/

/-- The change an entry and its row are read as. -/
def pendingChange (entry : OutboxEntry) (row : LocalRow) : PendingChange where
  changeId := entry.changeId
  attempts := entry.attempts
  lastError := entry.lastError
  parkedAt := entry.parkedAt
  record := row.record

theorem recordId_of_row? {recordId : RecordId} {version : ℕ} {row : LocalRow}
    (h : db.row? recordId version = some row) : row.record.recordId = recordId := by
  unfold LocalDb.row? at h
  have hkey : row.key = (recordId, version) := by simpa using List.find?_some h
  exact congrArg Prod.fst hkey

/-- The outbox is read in the order of its entries. -/
theorem getPendingChanges_eq (h : OutboxInvariant db) :
    getPendingChanges db = db.outbox.filterMap fun entry =>
      (db.row? entry.recordId entry.version).map (pendingChange entry) := by
  unfold getPendingChanges
  have hsorted : db.outbox.Pairwise fun a b => a.seq ≤ b.seq :=
    (List.pairwise_map.1 h.seqs).imp le_of_lt
  rw [hsorted.insertionSort_eq]
  rfl

/-- The changes of a record are read off its entries. -/
theorem changesOf_pendingChanges (h : OutboxInvariant db) (recordId : RecordId) :
    changesOf recordId (getPendingChanges db) =
      (db.view recordId).entries.filterMap fun entry =>
        (db.row? recordId entry.version).map (pendingChange entry) := by
  rw [getPendingChanges_eq h]
  unfold changesOf GroupBy.group LocalDb.view LocalDb.entriesOf
  dsimp only
  rw [List.filter_filterMap, List.filterMap_filter]
  refine List.filterMap_congr fun entry _ => ?_
  by_cases hid : entry.recordId = recordId
  · subst hid
    rw [if_pos (decide_eq_true rfl)]
    cases hrow : db.row? entry.recordId entry.version with
    | none => rfl
    | some row =>
        have hrid := recordId_of_row? hrow
        simp [pendingChange, hrid, PendingChange.recordId]
  · rw [if_neg (by simpa using hid)]
    cases hrow : db.row? entry.recordId entry.version with
    | none => rfl
    | some row =>
        have hrid := recordId_of_row? hrow
        simp [pendingChange, hrid, hid, PendingChange.recordId]

/-- Entries and the rows they point at, one after the other. -/
theorem filterMap_pendingChange {recordId : RecordId} {entries : List OutboxEntry}
    {rows : List LocalRow} (hversions : entries.map (·.version) = rows.map (·.record.version))
    (hrows : ∀ row ∈ rows, db.row? recordId row.record.version = some row) :
    (entries.filterMap fun entry =>
        (db.row? recordId entry.version).map (pendingChange entry)).map PendingChange.mark =
      List.zipWith pendingMark entries rows := by
  induction entries generalizing rows with
  | nil => rfl
  | cons entry entries ih =>
      cases rows with
      | nil => cases hversions
      | cons row rows =>
          rw [List.map_cons, List.map_cons, List.cons.injEq] at hversions
          have hfound : db.row? recordId entry.version = some row := by
            rw [hversions.1]
            exact hrows row List.mem_cons_self
          rw [List.filterMap_cons_some (by rw [hfound]; rfl), List.map_cons,
            List.zipWith_cons_cons, ih hversions.2 fun r hr => hrows r (List.mem_cons_of_mem _ hr)]
          rfl

/-- **The pending changes of a record are its chain.** -/
theorem marks_pendingChanges (h : OutboxInvariant db) (recordId : RecordId) :
    (changesOf recordId (getPendingChanges db)).map PendingChange.mark =
      (db.view recordId).marks := by
  obtain ⟨first, hfirst⟩ := h.chains recordId
  rw [changesOf_pendingChanges h]
  unfold RecordView.marks
  refine filterMap_pendingChange (hfirst.entries.trans hfirst.pending.symm) fun row hrow => ?_
  rw [row?_eq_find?]
  exact find?_pending hfirst hrow

/-! ### The first change of a chain is answered -/

/-- The entry of a chain's first change. -/
theorem entry_of_first (h : OutboxInvariant db) {recordId : RecordId} {m : PendingMark}
    {marks : List PendingMark} (hmarks : (db.view recordId).marks = m :: marks)
    {entry : OutboxEntry} (hentry : db.entry? m.changeId = some entry) :
    entry.recordId = recordId ∧ entry.version = m.version ∧
      ∀ other ∈ db.entriesOf recordId, entry.version ≤ other.version := by
  obtain ⟨first, hfirst⟩ := h.chains recordId
  have hids := hfirst.map_changeId_marks
  have hversions := hfirst.map_version_marks
  rw [hmarks, List.map_cons] at hids hversions
  cases hentries : (db.view recordId).entries with
  | nil =>
      rw [hentries] at hids
      cases hids
  | cons e entries =>
      rw [hentries, List.map_cons, List.cons.injEq] at hids
      rw [hentries, List.length_cons, List.range'_succ, List.cons.injEq] at hversions
      have hview : e ∈ (db.view recordId).entries := by
        rw [hentries]
        exact List.mem_cons_self
      obtain ⟨hqueued, heid⟩ := List.mem_filter.1 hview
      have hid : entry.changeId = m.changeId := by
        unfold LocalDb.entry? at hentry
        simpa using List.find?_some hentry
      obtain rfl : entry = e := List.inj_on_of_nodup_map h.changeIds
        (List.mem_of_find?_eq_some hentry) hqueued (hid.trans hids.1)
      have hnumbers := hfirst.entries
      rw [hentries, List.map_cons, List.length_cons, List.range'_succ, List.cons.injEq] at hnumbers
      refine ⟨of_decide_eq_true heid, hnumbers.1.trans hversions.1.symm, fun other hother => ?_⟩
      have hmem : other.version ∈ (db.view recordId).entries.map (·.version) :=
        List.mem_map_of_mem hother
      rw [hfirst.entries, List.mem_range'_1] at hmem
      rw [hnumbers.1]
      exact hmem.1

/-- The version of a chain's first change is what its mark says. -/
theorem row_of_first (h : OutboxInvariant db) {recordId : RecordId} {m : PendingMark}
    {marks : List PendingMark} (hmarks : (db.view recordId).marks = m :: marks) {row : LocalRow}
    (hrow : row ∈ (db.view recordId).rows) (hversion : row.record.version = m.version) :
    m.isPurge = decide (row.record.tombstoneKind = some .purged) := by
  obtain ⟨first, hfirst⟩ := h.chains recordId
  have hversions := hfirst.map_version_marks
  have hlength := hfirst.length_marks
  rw [hmarks, List.length_cons] at hlength
  rw [hmarks, List.map_cons, ← hlength, List.range'_succ, List.cons.injEq] at hversions
  have hne : (db.view recordId).entries ≠ [] := by
    intro hnil
    rw [hnil] at hlength
    cases hlength
  -- A synced version is numbered below the chain.
  have hpending : row.isPending = true := by
    rcases isPending_or_isSynced row with hp | hs
    · exact hp
    · have hlt := hfirst.synced row hrow hs hne
      omega
  have hmem : row ∈ (db.view recordId).pending := List.mem_filter.2 ⟨hrow, hpending⟩
  have hnodup : ((db.view recordId).pending.map (·.record.version)).Nodup := by
    rw [hfirst.pending]
    exact List.nodup_range'
  unfold RecordView.marks at hmarks
  cases hentries : (db.view recordId).entries with
  | nil => exact absurd hentries hne
  | cons entry entries =>
      cases hrows : (db.view recordId).pending with
      | nil =>
          rw [hrows] at hmem
          cases hmem
      | cons head rows =>
          rw [hentries, hrows, List.zipWith_cons_cons, List.cons.injEq] at hmarks
          have hhead : head ∈ (db.view recordId).pending := by
            rw [hrows]
            exact List.mem_cons_self
          obtain rfl : row = head := by
            refine List.inj_on_of_nodup_map hnodup hmem hhead ?_
            rw [hversion, ← hmarks.1]
            rfl
          rw [← hmarks.1]
          rfl

/-- The first change of a chain has its entry. -/
theorem exists_entry_of_first (h : OutboxInvariant db) {recordId : RecordId} {m : PendingMark}
    {marks : List PendingMark} (hmarks : (db.view recordId).marks = m :: marks) :
    ∃ entry, db.entry? m.changeId = some entry := by
  obtain ⟨first, hfirst⟩ := h.chains recordId
  have hmem : m.changeId ∈ (db.view recordId).entries.map (·.changeId) := by
    rw [← hfirst.map_changeId_marks, hmarks]
    exact List.mem_cons_self
  obtain ⟨entry, hentry, hid⟩ := List.mem_map.1 hmem
  unfold LocalDb.entry?
  cases hfind : db.outbox.find? (·.changeId = m.changeId) with
  | none =>
      exact absurd (decide_eq_true hid)
        (List.find?_eq_none.1 hfind entry (List.mem_filter.1 hentry).1)
  | some found => exact ⟨found, rfl⟩

/-- **The answer to the first change of a chain** takes it off the chain, and the outbox stays in
order. -/
theorem marks_ackPendingChange (h : OutboxInvariant db) {recordId : RecordId} {m : PendingMark}
    {marks : List PendingMark} (hmarks : (db.view recordId).marks = m :: marks)
    {serverRow : Option EncryptedRecord}
    (hrow : ∀ row ∈ serverRow, row.recordId = recordId ∧ row.version ≤ m.version) :
    OutboxInvariant (ackPendingChange m.changeId serverRow db) ∧ ∀ other,
      ((ackPendingChange m.changeId serverRow db).view other).marks =
        if other = recordId then marks else (db.view other).marks := by
  obtain ⟨entry, hentry⟩ := exists_entry_of_first h hmarks
  obtain ⟨hid, hversion, hmin⟩ := entry_of_first h hmarks hentry
  have hchangeId : entry.changeId = m.changeId := by
    unfold LocalDb.entry? at hentry
    simpa using List.find?_some hentry
  have hqueued : entry ∈ db.outbox := List.mem_of_find?_eq_some hentry
  refine ⟨outboxInvariant_ackPendingChange h fun e he => ?_, fun other => ?_⟩
  · obtain rfl := Option.some.inj (hentry.symm.trans he)
    rw [hid, hversion]
    exact ⟨fun o ho => hversion ▸ hmin o ho, hrow⟩
  rw [← hchangeId] at hentry ⊢
  have houtbox : (ackPendingChange entry.changeId serverRow db).outbox =
      db.outbox.filter (·.changeId ≠ entry.changeId) := by
    unfold ackPendingChange
    rw [hentry]
    cases serverRow <;> rfl
  have hentries := entriesOf_without h hqueued houtbox other
  obtain ⟨first, hfirst⟩ := h.chains recordId
  have hmem : entry ∈ (db.view recordId).entries := hid ▸ mem_entries_view.1 hqueued
  have hne := List.ne_nil_of_mem hmem
  obtain ⟨hfirstVersion, htail⟩ := entries_without_first hfirst
    (h.changeIds.sublist (List.filter_sublist.map _)) hmem hmin
  have htailMarks : (db.view recordId).marks.tail = marks := by rw [hmarks, List.tail_cons]
  cases serverRow with
  | none =>
      have hrows := @rowsOf_map_key db (ackPendingChange entry.changeId none db) entry
        (by unfold ackPendingChange; rw [hentry]) other
      by_cases hother : other = recordId
      · subst hother
        rw [if_pos hid.symm, htail] at hentries
        rw [if_pos hid.symm, hfirstVersion] at hrows
        have hacked := (hfirst.ackNull hne).2
        rw [← hrows, ← hentries] at hacked
        rw [if_pos rfl, ← htailMarks]
        exact hacked
      · rw [hid, if_neg hother] at hentries hrows
        rw [if_neg hother]
        exact congrArg RecordView.marks (congrArg₂ RecordView.mk hrows hentries)
  | some row =>
      obtain ⟨hrowId, hle⟩ := hrow row rfl
      have hack : ackPendingChange entry.changeId (some row) db = upsertRecord { db with
          outbox := db.outbox.filter (·.changeId ≠ entry.changeId)
          records := db.records.filter (·.key ≠ entry.key) } row := by
        unfold ackPendingChange
        rw [hentry]
      rw [hack, view_upsertRecord]
      have hentries := @entriesOf_without db { db with
          outbox := db.outbox.filter (·.changeId ≠ entry.changeId)
          records := db.records.filter (·.key ≠ entry.key) } h entry hqueued rfl other
      have hrows := @rowsOf_filter_key db { db with
          outbox := db.outbox.filter (·.changeId ≠ entry.changeId)
          records := db.records.filter (·.key ≠ entry.key) } entry rfl other
      by_cases hother : other = recordId
      · subst hother
        rw [if_pos hid.symm, htail] at hentries
        rw [if_pos hid.symm, hfirstVersion] at hrows
        have hacked := (hfirst.ack hne (hfirstVersion ▸ hversion ▸ hle)).2
        rw [← hrows, ← hentries] at hacked
        rw [if_pos hrowId, if_pos rfl, ← htailMarks]
        exact hacked
      · rw [hid, if_neg hother] at hentries hrows
        rw [if_neg fun heq => hother (heq.symm.trans hrowId), if_neg hother]
        exact congrArg RecordView.marks (congrArg₂ RecordView.mk hrows hentries)

/-- An answer to a change that is not in the outbox any more does nothing. -/
theorem ackPendingChange_of_notMem {changeId : ChangeId} {serverRow : Option EncryptedRecord}
    (h : ∀ entry, db.entry? changeId ≠ some entry) :
    ackPendingChange changeId serverRow db = db := by
  unfold ackPendingChange
  split
  · rfl
  · next entry hentry => exact absurd hentry (h entry)

/-- The id of an entry is one of the chain of its record. -/
theorem mem_marks_of_entry (h : OutboxInvariant db) {changeId : ChangeId} {entry : OutboxEntry}
    (hentry : db.entry? changeId = some entry) :
    changeId ∈ (db.view entry.recordId).marks.map (·.changeId) := by
  obtain ⟨first, hfirst⟩ := h.chains entry.recordId
  have hid : entry.changeId = changeId := by
    unfold LocalDb.entry? at hentry
    simpa using List.find?_some hentry
  rw [hfirst.map_changeId_marks, ← hid]
  exact List.mem_map_of_mem (mem_entries_view.1 (List.mem_of_find?_eq_some hentry))

end Chains

end Passmgr
