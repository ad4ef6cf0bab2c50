/-
# Re-encrypting the outbox changes no content

A change keeps its ciphertext through every operation of a device: only a write of a batch replaces
it, and only by one under a newer key.  So a version found under the key it was read under still has
the content that was read, if it is of the same change.

Main definitions:

* `PointsAt`, `CarriesOver` — the changes of a device, and that an operation keeps them;
* `ReadHolds`, `RekeyInvariant` — what is known of a version while it is being re-encrypted.

Main results:

* `carries_run` — every operation keeps the changes it does not make;
* `replaced_own` — a batch that finds what was read changes no content;
* `tombstone_refilled` — a purge in between is found instead.
-/

import Passmgr.PendingRekey
import Passmgr.RebaseKeeps

set_option relaxedAutoImplicit false
set_option autoImplicit false

namespace Passmgr

open IdealCipher (Ciphers wordCiphers wordCiphers_ideal)

/-! ### Changes that are carried over -/

section Carries

variable {fresh : ChangeId → Prop} {db db' db'' : LocalDb}

/-- An entry points at its pending version. -/
structure PointsAt (db : LocalDb) (entry : OutboxEntry) (row : LocalRow) : Prop where
  queued : entry ∈ db.outbox
  stored : row ∈ db.records
  key : row.key = entry.key
  pending : row.isPending = true

/-- The same version, but for its number. -/
def SameVersion (a b : EncryptedRecord) : Prop := b = { a with version := b.version }

theorem SameVersion.trans {a b c : EncryptedRecord} (h : SameVersion a b) (h' : SameVersion b c) :
    SameVersion a c := by
  unfold SameVersion at h h' ⊢
  rw [h', h]

/-- Every change is one there was before, with its version, or a new one. -/
structure Carries (fresh : ChangeId → Prop) (db db' : LocalDb) : Prop where
  outbox : OutboxInvariant db'
  points : ∀ entry' row', PointsAt db' entry' row' → fresh entry'.changeId ∨
    ∃ entry row, PointsAt db entry row ∧ entry.changeId = entry'.changeId ∧
      SameVersion row.record row'.record

theorem Carries.refl (h : OutboxInvariant db) : Carries fresh db db :=
  ⟨h, fun entry row hpoints => Or.inr ⟨entry, row, hpoints, rfl, rfl⟩⟩

theorem Carries.trans (h : Carries fresh db db') (h' : Carries fresh db' db'') :
    Carries fresh db db'' := by
  refine ⟨h'.outbox, fun entry'' row'' hpoints => ?_⟩
  rcases h'.points entry'' row'' hpoints with hnew | ⟨entry', row', hpoints', hid', hsame'⟩
  · exact Or.inl hnew
  rcases h.points entry' row' hpoints' with hnew | ⟨entry, row, hpoints, hid, hsame⟩
  · exact Or.inl (hid' ▸ hnew)
  · exact Or.inr ⟨entry, row, hpoints, hid.trans hid', hsame.trans hsame'⟩

theorem carries_foldlM {α : Type} {f : LocalDb → α → Except LocalError LocalDb} {xs : List α}
    (hf : ∀ db db', ∀ x ∈ xs, OutboxInvariant db → f db x = .ok db' → Carries fresh db db')
    (h : OutboxInvariant db) (hok : xs.foldlM f db = .ok db') : Carries fresh db db' :=
  Run.of_foldlM (fun db₁ db₂ x hx hdone hstep =>
    hdone.trans (hf db₁ db₂ x hx hdone.outbox hstep)) (Carries.refl h) hok

/-- An operation that takes changes away, or notes something at them. -/
theorem carries_of_subset (h' : OutboxInvariant db')
    (houtbox : ∀ entry' ∈ db'.outbox, ∃ entry ∈ db.outbox,
      entry.changeId = entry'.changeId ∧ entry.key = entry'.key)
    (hrecords : ∀ row ∈ db'.records, row.isPending = true → row ∈ db.records) :
    Carries fresh db db' := by
  refine ⟨h', fun entry' row' hpoints => ?_⟩
  obtain ⟨entry, hentry, hid, hkey⟩ := houtbox entry' hpoints.queued
  exact Or.inr ⟨entry, row', ⟨hentry, hrecords row' hpoints.stored hpoints.pending,
    hpoints.key.trans hkey.symm, hpoints.pending⟩, hid, rfl⟩

theorem carries_of_sublist (h' : OutboxInvariant db') (houtbox : db'.outbox.Sublist db.outbox)
    (hrecords : ∀ row ∈ db'.records, row.isPending = true → row ∈ db.records) :
    Carries fresh db db' :=
  carries_of_subset h' (fun entry hentry => ⟨entry, houtbox.subset hentry, rfl, rfl⟩) hrecords

/-- Every entry has its pending version. -/
theorem exists_pointsAt (h : OutboxInvariant db) {entry : OutboxEntry} (hentry : entry ∈ db.outbox) :
    ∃ row, PointsAt db entry row := by
  obtain ⟨first, hfirst⟩ := h.chains entry.recordId
  obtain ⟨row, hrow, hversion⟩ := exists_pending_of_entry hfirst (mem_entries_view.1 hentry)
  obtain ⟨hmem, hp⟩ := List.mem_filter.1 hrow
  obtain ⟨hstored, hid⟩ := List.mem_filter.1 hmem
  exact ⟨row, hentry, hstored, Prod.ext (of_decide_eq_true hid) hversion, hp⟩

/-- A record has one pending version of a number. -/
theorem pending_unique (h : OutboxInvariant db) {a b : LocalRow} (ha : a ∈ db.records)
    (hb : b ∈ db.records) (hpa : a.isPending = true) (hpb : b.isPending = true)
    (hkey : a.key = b.key) : a = b := by
  obtain ⟨first, hfirst⟩ := h.chains a.record.recordId
  obtain ⟨hid, hversion⟩ := Prod.mk.inj hkey
  have hmem : ∀ row ∈ db.records, row.isPending = true → row.record.recordId = a.record.recordId →
      row ∈ (db.view a.record.recordId).pending := fun row hrow hp hrid =>
    List.mem_filter.2 ⟨List.mem_filter.2 ⟨hrow, decide_eq_true hrid⟩, hp⟩
  have hnodup : ((db.view a.record.recordId).pending.map (·.record.version)).Nodup := by
    rw [hfirst.pending]
    exact List.nodup_range'
  exact List.inj_on_of_nodup_map hnodup (hmem a ha hpa rfl) (hmem b hb hpb hid.symm) hversion

/-- What a view's entries are found at, a pending version there is the entry's. -/
theorem mem_rows_view {row : LocalRow} :
    row ∈ db.records ↔ row ∈ (db.view row.record.recordId).rows := by
  unfold LocalDb.view LocalDb.rowsOf
  rw [List.mem_filter, and_iff_left (decide_eq_true rfl)]

/-! ### New versions -/

theorem carries_insertPending (h : OutboxInvariant db) (h' : OutboxInvariant db')
    {row written : EncryptedRecord} {now : Time} {changeId : ChangeId}
    (hok : insertPending row now changeId db = .ok (db', written)) (hfresh : fresh changeId) :
    Carries fresh db db' := by
  obtain ⟨-, -, hrecords, houtbox⟩ := of_insertPending hok
  refine ⟨h', fun entry' row' hpoints => ?_⟩
  have hqueued := hpoints.queued
  rw [houtbox] at hqueued
  rcases List.mem_append.1 hqueued with hold | hnew
  · -- the slot of an old entry is taken by its own version
    obtain ⟨row, hpoints₀⟩ := exists_pointsAt h hold
    have hmem : row ∈ db'.records := by
      rw [hrecords]
      exact List.mem_append_left _ hpoints₀.stored
    obtain rfl : row' = row := pending_unique h' hpoints.stored hmem hpoints.pending
      hpoints₀.pending (hpoints.key.trans hpoints₀.key.symm)
    exact Or.inr ⟨entry', row', hpoints₀, rfl, rfl⟩
  · obtain rfl := List.mem_singleton.1 hnew
    exact Or.inl hfresh

theorem carries_writeLocalChange (h : OutboxInvariant db) {change : LocalRecordChange}
    {written : EncryptedRecord} {now : Time} {changeId : ChangeId}
    (hok : writeLocalChange change now changeId db = .ok (db', written)) (hfresh : fresh changeId) :
    Carries fresh db db' := by
  have h' : Transacts fresh True db db' := transacts_writeLocalChange h hok hfresh
  obtain ⟨row, -, -, hinsert⟩ := of_writeLocalChange hok
  exact carries_insertPending h h'.outbox hinsert hfresh

theorem carries_writeLocalChanges (h : OutboxInvariant db) {now : Time}
    {changes : List (LocalRecordChange × ChangeId)}
    (hok : writeLocalChanges now db changes = .ok db') (hfresh : ∀ c ∈ changes, fresh c.2) :
    Carries fresh db db' := by
  refine carries_foldlM (fun db db' change hchange h hok => ?_) h hok
  simp only [bind, Except.bind] at hok
  split at hok
  · cases hok
  · next result hwrite =>
      obtain rfl := Except.ok.inj hok
      exact carries_writeLocalChange h hwrite (hfresh change hchange)

theorem carries_writeReencryptedVersions (h : OutboxInvariant db) {now : Time}
    {versions : List (RecordCiphertext × ℕ × ChangeId)}
    (hok : writeReencryptedVersions now db versions = .ok db')
    (hfresh : ∀ v ∈ versions, fresh v.2.2) : Carries fresh db db' := by
  refine carries_foldlM (fun db db' version hversion h hok => ?_) h hok
  split at hok
  · obtain rfl := Except.ok.inj hok
    exact Carries.refl h
  split at hok
  · obtain rfl := Except.ok.inj hok
    exact Carries.refl h
  simp only [bind, Except.bind] at hok
  split at hok
  · cases hok
  · next result hwrite =>
      obtain rfl := Except.ok.inj hok
      exact carries_writeLocalChange h hwrite (hfresh version hversion)

theorem carries_purgeRecord (h : OutboxInvariant db) {recordId : RecordId}
    {clientUpdatedAt now : Time} {changeId : ChangeId}
    (hok : purgeRecord recordId clientUpdatedAt now changeId db = .ok db')
    (hfresh : fresh changeId) : Carries fresh db db' := by
  have h' : Transacts fresh True db db' := transacts_purgeRecord h hok hfresh
  have hcleared : Transacts fresh True db (db.without recordId) := transacts_without h recordId
  have hwithout : Carries fresh db (db.without recordId) :=
    carries_of_sublist hcleared.outbox List.filter_sublist
      fun row hrow _ => (List.mem_filter.1 hrow).1
  unfold purgeRecord at hok
  split at hok
  · obtain rfl := Except.ok.inj hok
    exact Carries.refl h
  split at hok
  · obtain rfl := Except.ok.inj hok
    exact Carries.refl h
  dsimp only at hok
  split at hok
  · obtain rfl := Except.ok.inj hok
    exact hwithout
  · simp only [bind, Except.bind] at hok
    split at hok
    · cases hok
    · next written hinsert =>
        obtain ⟨db₂, written⟩ := written
        obtain rfl := Except.ok.inj hok
        exact hwithout.trans (carries_insertPending hwithout.outbox h'.outbox hinsert hfresh)

theorem carries_purgeRecords (h : OutboxInvariant db) {now : Time}
    {records : List (RecordId × ChangeId)} (hok : purgeRecords now db records = .ok db')
    (hfresh : ∀ r ∈ records, fresh r.2) : Carries fresh db db' := by
  refine carries_foldlM (fun db db' record hrecord h hok => ?_) h hok
  split at hok
  · cases hok
  · exact carries_purgeRecord h hok (hfresh record hrecord)

/-! ### Answers -/

theorem updateEntry_outbox {changeId : ChangeId} {f : OutboxEntry → OutboxEntry}
    (hf : ∀ entry, (f entry).changeId = entry.changeId ∧ (f entry).key = entry.key) :
    ∀ entry' ∈ (updateEntry changeId f db).outbox, ∃ entry ∈ db.outbox,
      entry.changeId = entry'.changeId ∧ entry.key = entry'.key := by
  intro entry' hentry
  obtain ⟨entry, hmem, rfl⟩ := List.mem_map.1 hentry
  refine ⟨entry, hmem, ?_⟩
  split
  · exact ⟨(hf entry).1.symm, (hf entry).2.symm⟩
  · exact ⟨rfl, rfl⟩

/-- The entry of a chain's first change, and the entries without it. -/
theorem entries_without_first {v : RecordView} {first : ℕ} (h : v.Chained first)
    (hids : (v.entries.map (·.changeId)).Nodup) {entry : OutboxEntry} (hentry : entry ∈ v.entries)
    (hmin : ∀ other ∈ v.entries, entry.version ≤ other.version) :
    entry.version = first ∧
      v.entries.filter (fun e => e.changeId ≠ entry.changeId) = v.entries.tail := by
  have hversion : entry.version = first := by
    have hmem : entry.version ∈ v.entries.map (·.version) := List.mem_map_of_mem hentry
    have hfirst : first ∈ v.entries.map (·.version) := by
      rw [h.entries, List.mem_range'_1] at hmem ⊢
      omega
    rw [h.entries, List.mem_range'_1] at hmem
    obtain ⟨other, hother, hv⟩ := List.mem_map.1 hfirst
    have := hmin other hother
    omega
  refine ⟨hversion, ?_⟩
  rw [← RecordView.filter_ne_first h.entries]
  refine List.filter_congr fun e he => decide_eq_decide.2 (not_congr ?_)
  have hnodup : (v.entries.map (·.version)).Nodup := by
    rw [h.entries]
    exact List.nodup_range'
  constructor
  · intro hid
    rw [List.inj_on_of_nodup_map hids he hentry hid, hversion]
  · intro hv
    rw [List.inj_on_of_nodup_map hnodup he hentry (hv.trans hversion.symm)]

/-- The entries once a change is answered. -/
theorem entriesOf_without (h : OutboxInvariant db) {entry : OutboxEntry}
    (hqueued : entry ∈ db.outbox) (hdb : db'.outbox = db.outbox.filter (·.changeId ≠ entry.changeId))
    (recordId : RecordId) :
    (db'.view recordId).entries = if recordId = entry.recordId then
      (db.view recordId).entries.filter (fun e => e.changeId ≠ entry.changeId)
      else (db.view recordId).entries := by
  unfold LocalDb.view LocalDb.entriesOf
  dsimp only
  rw [hdb, List.filter_comm]
  split
  · rfl
  · next hne =>
      rw [List.filter_eq_self]
      intro e he
      obtain ⟨hmem, hid⟩ := List.mem_filter.1 he
      rw [decide_eq_true_eq]
      intro heq
      obtain rfl := List.inj_on_of_nodup_map h.changeIds hmem hqueued heq
      exact hne (of_decide_eq_true hid).symm

/-- The rows of a record, when those of one key change. -/
theorem rowsOf_filter_key {entry : OutboxEntry}
    (hdb : db'.records = db.records.filter (·.key ≠ entry.key)) (recordId : RecordId) :
    (db'.view recordId).rows = if recordId = entry.recordId then
      (db.view recordId).rows.filter (fun row => row.record.version ≠ entry.version)
      else (db.view recordId).rows := by
  unfold LocalDb.view LocalDb.rowsOf
  dsimp only
  rw [hdb, List.filter_comm]
  split
  · next hid =>
      refine List.filter_congr fun row hrow => decide_eq_decide.2 (not_congr ?_)
      have hrid : row.record.recordId = recordId := of_decide_eq_true (List.mem_filter.1 hrow).2
      simp [LocalRow.key, OutboxEntry.key, hrid, hid]
  · next hne =>
      rw [List.filter_eq_self]
      intro row hrow
      have hrid : row.record.recordId = recordId := of_decide_eq_true (List.mem_filter.1 hrow).2
      simp [LocalRow.key, OutboxEntry.key, hrid, hne]

theorem rowsOf_map_key {entry : OutboxEntry} (hdb : db'.records = db.records.map fun row =>
      if row.key = entry.key then { row with syncState := .synced } else row) (recordId : RecordId) :
    (db'.view recordId).rows = if recordId = entry.recordId then
      (db.view recordId).rows.map (fun row => if row.record.version = entry.version then
        { row with syncState := .synced } else row)
      else (db.view recordId).rows := by
  have hkeeps : ∀ row : LocalRow, (if row.key = entry.key then
      { row with syncState := .synced } else row).record = row.record := by
    intro row
    split <;> rfl
  have hrows : (db'.view recordId).rows = (db.view recordId).rows.map fun row =>
      if row.key = entry.key then { row with syncState := .synced } else row := by
    unfold LocalDb.view LocalDb.rowsOf
    dsimp only
    rw [hdb, List.filter_map]
    congr 1
    refine List.filter_congr fun row _ => ?_
    simp only [Function.comp_apply, hkeeps]
  rw [hrows]
  split
  · next hid =>
      refine List.map_congr_left fun row hrow => ?_
      have hrid : row.record.recordId = recordId := of_decide_eq_true (List.mem_filter.1 hrow).2
      simp [LocalRow.key, OutboxEntry.key, hrid, hid]
  · next hne =>
      rw [List.map_congr_left (g := id), List.map_id]
      intro row hrow
      have hrid : row.record.recordId = recordId := of_decide_eq_true (List.mem_filter.1 hrow).2
      simp [LocalRow.key, OutboxEntry.key, hrid, hne]

/-- An answer to the first change of a record keeps the outbox in order. -/
theorem outboxInvariant_ackPendingChange (h : OutboxInvariant db) {changeId : ChangeId}
    {serverRow : Option EncryptedRecord}
    (horder : ∀ entry, db.entry? changeId = some entry →
      (∀ other ∈ db.entriesOf entry.recordId, entry.version ≤ other.version) ∧
        ∀ row ∈ serverRow, row.recordId = entry.recordId ∧ row.version ≤ entry.version) :
    OutboxInvariant (ackPendingChange changeId serverRow db) := by
  cases hfind : db.entry? changeId with
  | none =>
      unfold ackPendingChange
      rw [hfind]
      exact h
  | some entry =>
      obtain ⟨hmin, hrow⟩ := horder entry hfind
      have hqueued : entry ∈ db.outbox := List.mem_of_find?_eq_some hfind
      have hid : entry.changeId = changeId := by
        unfold LocalDb.entry? at hfind
        simpa using List.find?_some hfind
      subst hid
      have houtbox : (ackPendingChange entry.changeId serverRow db).outbox =
          db.outbox.filter (·.changeId ≠ entry.changeId) := by
        unfold ackPendingChange
        rw [hfind]
        cases serverRow <;> rfl
      refine ⟨?_, ?_, fun recordId => ?_⟩
      · rw [houtbox]
        exact h.seqs.sublist (List.filter_sublist.map _)
      · rw [houtbox]
        exact h.changeIds.sublist (List.filter_sublist.map _)
      obtain ⟨first, hfirst⟩ := h.chains recordId
      -- the first change of its own record goes, and no other record changes
      have hself : recordId = entry.recordId → (db.view recordId).entries ≠ [] ∧
          entry.version = first ∧ (db.view recordId).entries.filter
            (fun e => e.changeId ≠ entry.changeId) = (db.view recordId).entries.tail := by
        rintro rfl
        have hmem : entry ∈ (db.view entry.recordId).entries := mem_entries_view.1 hqueued
        have hids : ((db.view entry.recordId).entries.map (·.changeId)).Nodup :=
          h.changeIds.sublist (List.filter_sublist.map _)
        exact ⟨List.ne_nil_of_mem hmem, entries_without_first hfirst hids hmem hmin⟩
      cases serverRow with
      | none =>
          have hentries := entriesOf_without h hqueued houtbox recordId
          have hrows := @rowsOf_map_key db (ackPendingChange entry.changeId none db) entry
            (by unfold ackPendingChange; rw [hfind]) recordId
          by_cases hrid : recordId = entry.recordId
          · obtain ⟨hne, hversion, htail⟩ := hself hrid
            rw [if_pos hrid, htail] at hentries
            rw [if_pos hrid, hversion] at hrows
            have hacked := (hfirst.ackNull hne).1
            rw [← hrows, ← hentries] at hacked
            exact ⟨first + 1, hacked⟩
          · rw [if_neg hrid] at hentries hrows
            have hsame := congrArg₂ RecordView.mk hrows hentries
            exact ⟨first, by rwa [← show _ = db.view recordId from hsame] at hfirst⟩
      | some row =>
          obtain ⟨hrowid, hle⟩ := hrow row rfl
          have hack : ackPendingChange entry.changeId (some row) db = upsertRecord { db with
              outbox := db.outbox.filter (·.changeId ≠ entry.changeId)
              records := db.records.filter (·.key ≠ entry.key) } row := by
            unfold ackPendingChange
            rw [hfind]
          rw [hack, view_upsertRecord]
          have hentries := @entriesOf_without db { db with
              outbox := db.outbox.filter (·.changeId ≠ entry.changeId)
              records := db.records.filter (·.key ≠ entry.key) } h entry hqueued rfl recordId
          have hrows := @rowsOf_filter_key db { db with
              outbox := db.outbox.filter (·.changeId ≠ entry.changeId)
              records := db.records.filter (·.key ≠ entry.key) } entry rfl recordId
          by_cases hrid : recordId = entry.recordId
          · obtain ⟨hne, hversion, htail⟩ := hself hrid
            rw [if_pos hrid, htail] at hentries
            rw [if_pos hrid, hversion] at hrows
            have hacked := (hfirst.ack hne (hversion ▸ hle)).1
            rw [← hrows, ← hentries] at hacked
            rw [if_pos (hrowid.trans hrid.symm)]
            exact ⟨first + 1, hacked⟩
          · rw [if_neg hrid] at hentries hrows
            rw [if_neg fun heq => hrid (heq.symm.trans hrowid)]
            have hsame := congrArg₂ RecordView.mk hrows hentries
            exact ⟨first, by rwa [← show _ = db.view recordId from hsame] at hfirst⟩

theorem carries_ackPendingChange (h : OutboxInvariant db) {changeId : ChangeId}
    {serverRow : Option EncryptedRecord}
    (horder : ∀ entry, db.entry? changeId = some entry →
      (∀ other ∈ db.entriesOf entry.recordId, entry.version ≤ other.version) ∧
        ∀ row ∈ serverRow, row.recordId = entry.recordId ∧ row.version ≤ entry.version) :
    Carries fresh db (ackPendingChange changeId serverRow db) := by
  have h' := outboxInvariant_ackPendingChange h horder
  unfold ackPendingChange at h' ⊢
  split at h'
  · exact Carries.refl h
  · next entry hfind =>
      dsimp only at h' ⊢
      cases serverRow with
      | none =>
          refine carries_of_sublist h' List.filter_sublist fun row hrow hp => ?_
          obtain ⟨r, hr, rfl⟩ := List.mem_map.1 hrow
          by_cases hkey : r.key = entry.key
          · rw [if_pos hkey] at hp
            cases hp
          · rw [if_neg hkey]
            exact hr
      | some serverRow =>
          refine carries_of_sublist h' List.filter_sublist fun row hrow hp => ?_
          rcases List.mem_append.1 hrow with hrow | hrow
          · exact (List.mem_filter.1 (List.mem_filter.1 hrow).1).1
          · obtain rfl := List.mem_singleton.1 hrow
            cases hp

/-! ### Pulled pages -/

/-- The entries of a rebased record are its own, moved up with their versions, and the merge's. -/
theorem RebasedView.entry {incoming : List EncryptedRecord} {recordId : RecordId}
    {changeId : ChangeId} {v v' : RecordView} (h : RebasedView incoming recordId changeId v v')
    {entry' : OutboxEntry} (hentry : entry' ∈ v'.entries) :
    entry'.changeId = changeId ∨ ∃ entry ∈ v.entries, ∃ n, entry' = entry.raise n ∧
      ∀ row ∈ v.rows, row.isPending = true → row.raise n ∈ v'.rows := by
  have hshift : ∀ n, ∀ entry' ∈ (v.shift n).entries, ∃ entry ∈ v.entries,
      entry' = entry.raise n := by
    intro n entry' hentry
    obtain ⟨entry, hmem, rfl⟩ := List.mem_map.1 hentry
    exact ⟨entry, hmem, rfl⟩
  have hrows : ∀ n, ∀ row ∈ v.rows, row.isPending = true → row.raise n ∈ (v.shift n).rows :=
    fun n row hrow hp => List.mem_map.2 ⟨row, hrow, if_pos hp⟩
  cases h with
  | kept _ same =>
      rw [same] at hentry ⊢
      exact Or.inr ⟨entry', hentry, 0, rfl, fun row hrow _ => hrow⟩
  | moved _ n up =>
      rw [up] at hentry ⊢
      obtain ⟨entry, hmem, rfl⟩ := hshift n entry' hentry
      exact Or.inr ⟨entry, hmem, n, rfl, hrows n⟩
  | merged _ n merge row _ own up =>
      rw [up] at hentry ⊢
      rcases List.mem_append.1 hentry with hentry | hentry
      · obtain ⟨entry, hmem, rfl⟩ := hshift n entry' hentry
        exact Or.inr ⟨entry, hmem, n, rfl, fun row hrow hp =>
          List.mem_append_left _ (hrows n row hrow hp)⟩
      · obtain rfl := List.mem_singleton.1 hentry
        exact Or.inl own

theorem carries_rebasePendingVersions (h : OutboxInvariant db) {incoming : List EncryptedRecord}
    {resolve : Option ConflictResolver} {receivedAt now : Time}
    {newChangeId : RecordId → ChangeId} (hresolve : MergesItsRecord resolve)
    (hfresh : ∀ recordId, fresh (newChangeId recordId))
    (hok : rebasePendingVersions incoming resolve receivedAt now newChangeId db = .ok db') :
    Carries fresh db db' := by
  obtain ⟨h', hviews⟩ := view_rebasePendingVersions h hresolve hok
  refine ⟨h', fun entry' row' hpoints => ?_⟩
  rcases (hviews entry'.recordId).2.entry (mem_entries_view.1 hpoints.queued) with
    hid | ⟨entry, hentry, n, rfl, hrows⟩
  · exact Or.inl (hid ▸ hfresh _)
  · have hentry' : entry ∈ db.outbox := (List.mem_filter.1 hentry).1
    obtain ⟨row, hpoints₀⟩ := exists_pointsAt h hentry'
    have hrid : row.record.recordId = entry.recordId := congrArg Prod.fst hpoints₀.key
    have hmem : row ∈ (db.view entry.recordId).rows := by
      rw [← hrid]
      exact mem_rows_view.1 hpoints₀.stored
    have hraised : row.raise n ∈ db'.records :=
      (List.mem_filter.1 (hrows row hmem hpoints₀.pending)).1
    have hkey : (row.raise n).key = (entry.raise n).key :=
      congrArg (fun key => (key.1, key.2 + n)) hpoints₀.key
    obtain rfl : row' = row.raise n := pending_unique h' hpoints.stored hraised hpoints.pending
      hpoints₀.pending (hpoints.key.trans hkey.symm)
    exact Or.inr ⟨entry, row, hpoints₀, rfl, rfl⟩

theorem outbox_upsertRecords (rows : List EncryptedRecord) (db : LocalDb) :
    (upsertRecords rows db).outbox = db.outbox := by
  unfold upsertRecords
  induction rows generalizing db with
  | nil => rfl
  | cons row rows ih => exact ih (upsertRecord db row)

theorem pending_of_upsertRecords {rows : List EncryptedRecord} {row : LocalRow}
    (hrow : row ∈ (upsertRecords rows db).records) (hp : row.isPending = true) :
    row ∈ db.records := by
  unfold upsertRecords at hrow
  induction rows generalizing db with
  | nil => exact hrow
  | cons r rows ih =>
      rcases List.mem_append.1 (ih hrow) with hold | hnew
      · exact (List.mem_filter.1 hold).1
      · obtain rfl := List.mem_singleton.1 hnew
        cases hp

/-- A loop that only takes rows and entries away. -/
theorem sublist_foldl {α : Type} {f : LocalDb → α → LocalDb}
    (hf : ∀ db a, (f db a).outbox.Sublist db.outbox ∧ (f db a).records.Sublist db.records)
    (xs : List α) (db : LocalDb) :
    (xs.foldl f db).outbox.Sublist db.outbox ∧ (xs.foldl f db).records.Sublist db.records := by
  induction xs generalizing db with
  | nil => exact ⟨List.Sublist.refl _, List.Sublist.refl _⟩
  | cons x xs ih =>
      obtain ⟨houtbox, hrecords⟩ := ih (f db x)
      exact ⟨houtbox.trans (hf db x).1, hrecords.trans (hf db x).2⟩

theorem sublist_dropDeletesOfPurged (incoming : List EncryptedRecord) (db : LocalDb) :
    (dropDeletesOfPurged incoming db).outbox.Sublist db.outbox ∧
      (dropDeletesOfPurged incoming db).records.Sublist db.records := by
  refine sublist_foldl (fun db row => ?_) incoming db
  unfold dropDeletesOf
  split
  · exact ⟨List.Sublist.refl _, List.Sublist.refl _⟩
  split
  · exact ⟨List.Sublist.refl _, List.Sublist.refl _⟩
  split
  · exact ⟨List.Sublist.refl _, List.Sublist.refl _⟩
  split
  · exact ⟨List.Sublist.refl _, List.Sublist.refl _⟩
  · exact ⟨List.filter_sublist, List.filter_sublist⟩

theorem sublist_dropPurgedHistory (recordIds : List RecordId) (db : LocalDb) :
    (db.dropPurgedHistory recordIds).outbox.Sublist db.outbox ∧
      (db.dropPurgedHistory recordIds).records.Sublist db.records := by
  refine sublist_foldl (fun db recordId => ?_) _ db
  unfold dropPurgedHistoryOf
  split
  · exact ⟨List.Sublist.refl _, List.Sublist.refl _⟩
  · exact ⟨List.Sublist.refl _, List.filter_sublist⟩

theorem sublist_dropVaults (vaultIds : List VaultId) (db : LocalDb) :
    (dropVaults vaultIds db).outbox.Sublist db.outbox ∧
      (dropVaults vaultIds db).records.Sublist db.records :=
  ⟨List.filter_sublist, List.filter_sublist⟩

theorem sublist_applyVaults (batch : SyncBatch) (now : Time) (db : LocalDb) :
    (applyVaults batch now db).outbox.Sublist db.outbox ∧
      (applyVaults batch now db).records.Sublist db.records := by
  unfold applyVaults
  dsimp only
  split
  · exact sublist_dropVaults _ (keepRevokedChanges _ now db)
  · exact sublist_dropVaults _ (keepRevokedChanges _ now db)

theorem carries_of_transacts (h : Transacts fresh True db db')
    (hsub : db'.outbox.Sublist db.outbox ∧ db'.records.Sublist db.records) :
    Carries fresh db db' :=
  carries_of_sublist h.outbox hsub.1 fun _ hrow _ => hsub.2.subset hrow

theorem carries_applySync (h : OutboxInvariant db) {batch : SyncBatch}
    {resolve : Option ConflictResolver} {now : Time} {newChangeId : RecordId → ChangeId}
    {vaultsChanged : Bool} (hresolve : MergesItsRecord resolve)
    (hfresh : ∀ recordId, fresh (newChangeId recordId))
    (hwhole : DropsWhole db ((lostVaults db.vaults batch.vaults).map (·.vaultId)))
    (hok : applySync batch resolve now newChangeId db = .ok (db', vaultsChanged)) :
    Carries fresh db db' := by
  obtain ⟨db₁, hrebase, rfl⟩ := of_applySync hok
  have hvaults : Carries fresh db (applyVaults batch now db) := by
    refine carries_of_transacts (transacts_congr (transacts_dropVaults h hwhole) ?_ ?_)
      (sublist_applyVaults batch now db)
    · unfold applyVaults
      dsimp only
      split <;> rfl
    · unfold applyVaults
      dsimp only
      split <;> rfl
  have hdeletes : Carries fresh (applyVaults batch now db)
      (dropDeletesOfPurged batch.pulled (applyVaults batch now db)) :=
    carries_of_transacts (transacts_dropDeletesOfPurged hvaults.outbox batch.pulled)
      (sublist_dropDeletesOfPurged batch.pulled _)
  have hrebased : Carries fresh _ db₁ :=
    carries_rebasePendingVersions hdeletes.outbox hresolve hfresh hrebase
  have hbelow := (view_rebasePendingVersions hdeletes.outbox hresolve hrebase).2
  have hrows : Carries fresh db₁ (upsertRecords batch.pulled db₁) := by
    have hkept : Transacts fresh True db₁ (upsertRecords batch.pulled db₁) :=
      transacts_upsertRecords hrebased.outbox fun recordId => (hbelow recordId).1
    refine carries_of_sublist hkept.outbox ?_ fun row hrow hp => pending_of_upsertRecords hrow hp
    rw [outbox_upsertRecords]
  have hhistory : Carries fresh (upsertRecords batch.pulled db₁)
      (setSyncCursors batch.currentCursors
        ((upsertRecords batch.pulled db₁).dropPurgedHistory (batch.pulled.map (·.recordId)))) :=
    carries_of_transacts
      (transacts_congr (transacts_dropPurgedHistory hrows.outbox _) rfl rfl)
      (sublist_dropPurgedHistory _ _)
  exact hvaults.trans (hdeletes.trans (hrebased.trans (hrows.trans hhistory)))

theorem carries_removeVault (h : OutboxInvariant db) {vaultId : VaultId} {keepUnsent : Bool}
    {now : Time} (hok : removeVault vaultId keepUnsent now db = .ok db')
    (hwhole : DropsWhole db [vaultId]) : Carries fresh db db' := by
  refine carries_of_transacts (transacts_removeVault h hok hwhole) ?_
  unfold removeVault at hok
  dsimp only at hok
  split at hok
  · cases hok
  · obtain rfl := Except.ok.inj hok
    cases keepUnsent
    · exact sublist_dropVaults [vaultId] db
    · exact sublist_dropVaults [vaultId] (keepRevokedChanges _ now db)

/-- Only the rows and the outbox count. -/
theorem carries_of_eq (h : OutboxInvariant db) (hrecords : db'.records = db.records)
    (houtbox : db'.outbox = db.outbox) : Carries fresh db db' := by
  have hsame : Transacts fresh True db db' :=
    transacts_congr (Transacts.refl h) hrecords houtbox
  exact carries_of_transacts hsame
    ⟨houtbox ▸ List.Sublist.refl _, hrecords ▸ List.Sublist.refl _⟩

end Carries

/-! ### Every operation -/

section Ops

variable {s : RekeyState} {db' : LocalDb}

/-- A change that no run is re-encrypting. -/
def NotRead (s : RekeyState) (changeId : ChangeId) : Prop := ¬s.reads changeId

/-- **What an operation leaves**: the outbox in order, and every change that is being re-encrypted
with its version. -/
theorem carries_run (h : OutboxInvariant s.db) {op : DeviceOp} (hcalled : op.InOrder s)
    (hok : op.run s.db = .ok db') : Carries (NotRead s) s.db db' := by
  cases op with
  | write now changes => exact carries_writeLocalChanges h hok hcalled
  | purge now records => exact carries_purgeRecords h hok hcalled
  | ack changeId serverRow =>
      obtain rfl := Except.ok.inj hok
      exact carries_ackPendingChange h hcalled
  | fail changeId error count =>
      obtain rfl := Except.ok.inj hok
      have hsame : Transacts (NotRead s) True _ _ := transacts_failPendingChange h changeId error count
      exact carries_of_subset hsame.outbox (updateEntry_outbox fun _ => ⟨rfl, rfl⟩)
        fun row hrow _ => hrow
  | park changeId error now =>
      obtain rfl := Except.ok.inj hok
      have hsame : Transacts (NotRead s) True _ _ := transacts_parkPendingChange h changeId error now
      exact carries_of_subset hsame.outbox (updateEntry_outbox fun _ => ⟨rfl, rfl⟩)
        fun row hrow _ => hrow
  | retryParked =>
      obtain rfl := Except.ok.inj hok
      have hsame : Transacts (NotRead s) True _ _ := transacts_retryParkedChanges h
      refine carries_of_subset hsame.outbox (fun entry' hentry => ?_) fun row hrow _ => hrow
      obtain ⟨entry, hmem, rfl⟩ := List.mem_map.1 hentry
      refine ⟨entry, hmem, ?_⟩
      split <;> exact ⟨rfl, rfl⟩
  | replaceCiphertexts versions => exact absurd hcalled id
  | writeReencrypted now versions => exact carries_writeReencryptedVersions h hok hcalled
  | saveVault vault =>
      obtain rfl := Except.ok.inj hok
      unfold upsertVault
      split
      · exact carries_of_eq h rfl rfl
      · exact carries_of_eq h rfl rfl
  | setMeta vaultId encryptedMeta nonce =>
      obtain rfl := Except.ok.inj hok
      exact carries_of_eq h rfl rfl
  | saveAccount vaults profile =>
      obtain rfl := Except.ok.inj hok
      exact carries_of_eq h rfl rfl
  | removeVault vaultId keepUnsent now => exact carries_removeVault h hok hcalled
  | applySync batch resolve now newChangeId =>
      obtain ⟨hresolve, hwhole, hfresh⟩ := hcalled
      change (applySync batch resolve now newChangeId s.db).map (·.1) = _ at hok
      cases happly : applySync batch resolve now newChangeId s.db with
      | error e =>
          rw [happly] at hok
          cases hok
      | ok result =>
          rw [happly] at hok
          obtain rfl := Except.ok.inj hok
          exact carries_applySync h hresolve hfresh hwhole happly

end Ops

/-! ### Versions under way -/

/-- What a version has become: its content is the one it had, or is under a newer key. -/
structure Descends (a b : EncryptedRecord) : Prop where
  recordId : b.recordId = a.recordId
  vaultId : b.vaultId = a.vaultId
  deletedAt : b.deletedAt = a.deletedAt
  newer : a.content.keyVersion ≤ b.content.keyVersion
  content : b.content.keyVersion = a.content.keyVersion → b.content = a.content

theorem Descends.refl (a : EncryptedRecord) : Descends a a :=
  ⟨rfl, rfl, rfl, le_rfl, fun _ => rfl⟩

theorem Descends.sameVersion {a b c : EncryptedRecord} (h : Descends a b) (hsame : SameVersion b c) :
    Descends a c := by
  rw [hsame]
  exact ⟨h.recordId, h.vaultId, h.deletedAt, h.newer, h.content⟩

/-- What is known of a version that was read. -/
structure ReadHolds (db : LocalDb) (read : ReadVersion) : Prop where
  live : read.row.deletedAt = none
  same : ∀ entry row, PointsAt db entry row → read.changeId = some entry.changeId →
    Descends read.row row.record

/-- An operation keeps what is known of a version that was read. -/
theorem ReadHolds.carries {s : RekeyState} {db' : LocalDb} (h : Carries (NotRead s) s.db db') {i : ℕ}
    {read : ReadVersion} (hread : read ∈ (s.rekeys i).reads) (hholds : ReadHolds s.db read) :
    ReadHolds db' read := by
  refine ⟨hholds.live, fun entry' row' hpoints hid => ?_⟩
  rcases h.points entry' row' hpoints with hnew | ⟨entry, row, hpoints₀, hid₀, hsame⟩
  · exact absurd ⟨i, read, hread, hid⟩ hnew
  · exact (hholds.same entry row hpoints₀ (by rw [hid, hid₀])).sameVersion hsame

/-! ### Reading -/

theorem mem_pendingRows {db : LocalDb} {row : EncryptedRecord} (h : row ∈ db.pendingRows) :
    ∃ r ∈ db.records, r.isPending = true ∧ r.record = row := by
  unfold LocalDb.pendingRows at h
  rw [List.mem_insertionSort] at h
  obtain ⟨r, hr, rfl⟩ := List.mem_map.1 h
  obtain ⟨hmem, hp⟩ := List.mem_filter.1 hr
  exact ⟨r, hmem, hp, rfl⟩

/-- A version that is read is of the change that is noted. -/
theorem readHolds_of_readPending {db : LocalDb} (h : OutboxInvariant db) {read : ReadVersion}
    (hread : read ∈ readPending db) : ReadHolds db read := by
  obtain ⟨row, hrow, rfl⟩ := List.mem_map.1 hread
  obtain ⟨hpending, hold⟩ := List.mem_filter.1 hrow
  obtain ⟨r, hr, hp, rfl⟩ := mem_pendingRows hpending
  refine ⟨?_, fun entry row' hpoints hid => ?_⟩
  · exact Option.isNone_iff_eq_none.1 (Bool.and_eq_true_iff.1 hold).1
  · obtain ⟨found, hfound, hfid⟩ := Option.map_eq_some_iff.1 hid
    have hqueued : found ∈ db.outbox := List.mem_of_find?_eq_some hfound
    have hkey : found.key = r.key := by
      simpa [LocalRow.key] using List.find?_some hfound
    obtain rfl := List.inj_on_of_nodup_map h.changeIds hqueued hpoints.queued hfid
    obtain rfl : row' = r := pending_unique h hpoints.stored hr hpoints.pending hp
      (hpoints.key.trans hkey)
    exact Descends.refl _

/-- The versions that are read have different numbers. -/
theorem nodup_readPending {db : LocalDb} (h : OutboxInvariant db) :
    ((readPending db).map fun read => (read.row.recordId, read.row.version)).Nodup := by
  have hall : (db.pendingRows.map fun row => (row.recordId, row.version)).Nodup := by
    refine GroupBy.nodup_map_pair (fun row : EncryptedRecord => row.recordId) fun recordId => ?_
    rw [versions_of_group h recordId]
    obtain ⟨first, hfirst⟩ := h.chains recordId
    rw [hfirst.pending]
    exact List.nodup_range'
  unfold readPending getPendingUnderOldKeys
  rw [List.map_map]
  exact hall.sublist (List.filter_sublist.map _)

/-! ### Re-encrypting -/

section Reencrypt

variable {C : Ciphers Text} {store : SecretsStore} {nonce : Text} {row : EncryptedRecord}
  {content : Ciphertext}

/-- What a re-encryption says: the version opened, and its text is under the current key now. -/
theorem of_reencrypt (h : reencrypt C store nonce row = .content content) :
    row.content.keyVersion < content.keyVersion ∧ ∃ plaintext,
      store.decryptRecord C row = .ok plaintext ∧
        store.encryptRecord C nonce row.recordId row.vaultId plaintext = .ok content := by
  unfold reencrypt at h
  split at h
  · cases h
  next current hcurrent =>
  split at h
  · cases h
  next hlt =>
  split at h
  · cases h
  next plaintext hdecrypt =>
  split at h
  · cases h
  next ciphertext hencrypt =>
  obtain rfl := Reencrypted.content.inj h
  refine ⟨?_, plaintext, hdecrypt, hencrypt⟩
  unfold SecretsStore.encryptRecord at hencrypt
  rw [hcurrent] at hencrypt
  simp only [bind, Except.bind] at hencrypt
  split at hencrypt
  · cases hencrypt
  · obtain rfl := Except.ok.inj hencrypt
    exact Nat.lt_of_not_le hlt

/-- A re-encryption looks at nothing but the content and where it belongs. -/
theorem reencrypt_congr {row' : EncryptedRecord} (hrecordId : row'.recordId = row.recordId)
    (hvaultId : row'.vaultId = row.vaultId) (hcontent : row'.content = row.content) :
    reencrypt C store nonce row' = reencrypt C store nonce row := by
  unfold reencrypt SecretsStore.decryptRecord SecretsStore.recordContext
  rw [hrecordId, hvaultId, hcontent]

/-- With the keys it was made with, a re-encryption opens to the text of the version. -/
theorem decryptRecord_reencrypted (hC : C.Correct)
    (h : reencrypt C store nonce row = .content content) {keys : SecretsStore}
    (hkeys : ∀ keyVersion, keys.vaultKeys (vaultKeyId row.vaultId keyVersion) =
      store.vaultKeys (vaultKeyId row.vaultId keyVersion)) :
    keys.decryptRecord C { row with content := content } = keys.decryptRecord C row := by
  obtain ⟨-, plaintext, hdecrypt, hencrypt⟩ := of_reencrypt h
  have hold : keys.decryptRecord C row = .ok plaintext := by
    rw [← hdecrypt]
    unfold SecretsStore.decryptRecord SecretsStore.vaultKey
    rw [hkeys]
  rw [hold]
  unfold SecretsStore.encryptRecord at hencrypt
  simp only [bind, Except.bind] at hencrypt
  split at hencrypt
  · cases hencrypt
  split at hencrypt
  · cases hencrypt
  next current _ key hkey =>
  obtain rfl := Except.ok.inj hencrypt
  unfold SecretsStore.vaultKey at hkey
  rw [← hkeys] at hkey
  unfold SecretsStore.decryptRecord SecretsStore.vaultKey
  dsimp only
  rw [hkey]
  simp only [bind, Except.bind, SecretsStore.recordContext]
  rw [decryptRecordData_encryptRecordData hC]
  rfl

variable (C store)

/-- What a batch is filled with, and what is left. -/
theorem fillBatch_spec (nonces : EncryptedRecord → Text) (rows : List ReadVersion) (room : ℕ) :
    ((fillBatch C store nonces rows room).1.map (·.1) ++
        (fillBatch C store nonces rows room).2).Sublist rows ∧
      ∀ item ∈ (fillBatch C store nonces rows room).1,
        reencrypt C store (nonces item.1.row) item.1.row = .content item.2 := by
  induction rows generalizing room with
  | nil => cases room <;> exact ⟨List.Sublist.refl _, fun item hitem => by cases hitem⟩
  | cons read rows ih =>
      cases room with
      | zero => exact ⟨List.Sublist.refl _, fun item hitem => by cases hitem⟩
      | succ room =>
          rw [fillBatch]
          split
          · next ciphertext hcontent =>
              obtain ⟨hsub, hitems⟩ := ih room
              refine ⟨hsub.cons_cons read, fun item hitem => ?_⟩
              rcases List.mem_cons.1 hitem with rfl | hitem
              · exact hcontent
              · exact hitems item hitem
          · obtain ⟨hsub, hitems⟩ := ih (room + 1)
            exact ⟨hsub.cons read, hitems⟩

end Reencrypt

/-! ### Writing -/

/-- One turn of `replacePendingCiphertexts` at a row. -/
def replaceContent (row : LocalRow) (v : ReencryptedVersion) : LocalRow :=
  if row.key = (v.recordId, v.version) ∧ row.isPending ∧
      row.record.content.keyVersion = v.fromKeyVersion then
    { row with record := { row.record with content := v.content } }
  else row

theorem replaceContent_of_finds {read : ReadVersion} {row : LocalRow} (h : Finds read row)
    (content : Ciphertext) : replaceContent row (read.reencrypted content) =
      { row with record := { row.record with content := content } } :=
  if_pos h

theorem replaceContent_of_not_finds {read : ReadVersion} {row : LocalRow} (h : ¬Finds read row)
    (content : Ciphertext) : replaceContent row (read.reencrypted content) = row :=
  if_neg h

theorem records_replacePendingCiphertexts (versions : List ReencryptedVersion) (db : LocalDb) :
    (replacePendingCiphertexts versions db).records =
      db.records.map fun row => versions.foldl replaceContent row := by
  unfold replacePendingCiphertexts
  induction versions generalizing db with
  | nil => exact (List.map_id _).symm
  | cons v versions ih =>
      rw [List.foldl_cons, ih, List.map_map]
      rfl

theorem outbox_replacePendingCiphertexts (versions : List ReencryptedVersion) (db : LocalDb) :
    (replacePendingCiphertexts versions db).outbox = db.outbox := by
  unfold replacePendingCiphertexts
  induction versions generalizing db with
  | nil => rfl
  | cons v versions ih => exact ih _

/-- A row of another key is left alone. -/
theorem foldl_replaceContent_of_notMem {versions : List ReencryptedVersion} {row : LocalRow}
    (h : row.key ∉ versions.map fun v => (v.recordId, v.version)) :
    versions.foldl replaceContent row = row := by
  induction versions with
  | nil => rfl
  | cons v versions ih =>
      rw [List.map_cons, List.mem_cons, not_or] at h
      rw [List.foldl_cons, replaceContent, if_neg fun hfinds => h.1 hfinds.1]
      exact ih h.2

/-- A row is replaced once, by the version of the batch that finds it. -/
theorem foldl_replaceContent {batch : List (ReadVersion × Ciphertext)}
    (hnodup : (batch.map fun item => (item.1.row.recordId, item.1.row.version)).Nodup)
    (row : LocalRow) :
    (reencryptedBatch batch).foldl replaceContent row = row ∨
      ∃ item ∈ batch, Finds item.1 row ∧ (reencryptedBatch batch).foldl replaceContent row =
        { row with record := { row.record with content := item.2 } } := by
  unfold reencryptedBatch
  induction batch with
  | nil => exact Or.inl rfl
  | cons item batch ih =>
      rw [List.map_cons, List.nodup_cons] at hnodup
      rw [List.map_cons, List.foldl_cons]
      by_cases hfinds : Finds item.1 row
      · refine Or.inr ⟨item, List.mem_cons_self, hfinds, ?_⟩
        rw [replaceContent_of_finds hfinds]
        refine foldl_replaceContent_of_notMem ?_
        rw [List.map_map]
        intro hmem
        refine hnodup.1 ?_
        rw [← hfinds.1]
        exact hmem
      · rw [replaceContent_of_not_finds hfinds]
        rcases ih hnodup.2 with hsame | ⟨other, hmem, hother, hreplaced⟩
        · exact Or.inl hsame
        · exact Or.inr ⟨other, List.mem_cons_of_mem _ hmem, hother, hreplaced⟩

section Writing

variable {C : Ciphers Text} {db : LocalDb} {batch : List (ReadVersion × Ciphertext)}

/-- A batch makes contents newer, whatever it finds. -/
theorem descends_of_write
    (hnodup : (batch.map fun item => (item.1.row.recordId, item.1.row.version)).Nodup)
    (hitems : ∀ item ∈ batch, ∃ store nonce, reencrypt C store nonce item.1.row = .content item.2)
    {a : EncryptedRecord} {row : LocalRow} (h : Descends a row.record) :
    Descends a ((reencryptedBatch batch).foldl replaceContent row).record := by
  rcases foldl_replaceContent hnodup row with hsame | ⟨item, hitem, hfinds, hreplaced⟩
  · rw [hsame]
    exact h
  · obtain ⟨store, nonce, hcontent⟩ := hitems item hitem
    have hlt := (of_reencrypt hcontent).1
    have hfrom := hfinds.2.2
    have hnewer := h.newer
    rw [hreplaced]
    refine ⟨h.recordId, h.vaultId, h.deletedAt, ?_, fun heq => ?_⟩
    · dsimp only
      omega
    · dsimp only at heq
      omega

/-- A batch leaves each version where it is. -/
theorem pointsAt_of_write
    (hnodup : (batch.map fun item => (item.1.row.recordId, item.1.row.version)).Nodup)
    {entry : OutboxEntry} {row' : LocalRow}
    (h : PointsAt (replacePendingCiphertexts (reencryptedBatch batch) db) entry row') :
    ∃ row, PointsAt db entry row ∧ row' = (reencryptedBatch batch).foldl replaceContent row := by
  have hstored := h.stored
  rw [records_replacePendingCiphertexts] at hstored
  obtain ⟨row, hrow, rfl⟩ := List.mem_map.1 hstored
  have hqueued := h.queued
  rw [outbox_replacePendingCiphertexts] at hqueued
  have hkey := h.key
  have hpending := h.pending
  rcases foldl_replaceContent hnodup row with hsame | ⟨item, -, -, hreplaced⟩
  · rw [hsame] at hkey hpending
    exact ⟨row, ⟨hqueued, hrow, hkey, hpending⟩, rfl⟩
  · rw [hreplaced] at hkey hpending
    exact ⟨row, ⟨hqueued, hrow, hkey, hpending⟩, rfl⟩

theorem ReadHolds.write
    (hnodup : (batch.map fun item => (item.1.row.recordId, item.1.row.version)).Nodup)
    (hitems : ∀ item ∈ batch, ∃ store nonce, reencrypt C store nonce item.1.row = .content item.2)
    {read : ReadVersion} (h : ReadHolds db read) :
    ReadHolds (replacePendingCiphertexts (reencryptedBatch batch) db) read := by
  refine ⟨h.live, fun entry row' hpoints hid => ?_⟩
  obtain ⟨row, hpoints₀, rfl⟩ := pointsAt_of_write hnodup hpoints
  exact descends_of_write hnodup hitems (h.same entry row hpoints₀ hid)

/-- A batch that finds what was read replaces each version by its own content. -/
theorem replacedOwn_of_write (hC : C.Correct)
    (hnodup : (batch.map fun item => (item.1.row.recordId, item.1.row.version)).Nodup)
    (hitems : ∀ item ∈ batch, ∃ store nonce, reencrypt C store nonce item.1.row = .content item.2)
    (hreads : ∀ item ∈ batch, ReadHolds db item.1) (hslots : SlotsKept db batch) :
    ReplacedOwn C db (replacePendingCiphertexts (reencryptedBatch batch) db) := by
  unfold ReplacedOwn
  rw [records_replacePendingCiphertexts, List.forall₂_map_right_iff, List.forall₂_same]
  intro row hrow
  rcases foldl_replaceContent hnodup row with hsame | ⟨item, hitem, hfinds, hreplaced⟩
  · exact Or.inl hsame
  · refine Or.inr ?_
    obtain ⟨entry, hqueued, hkey, hid⟩ := hslots item hitem row hrow hfinds
    have hdescends := (hreads item hitem).same entry row
      ⟨hqueued, hrow, hkey.symm, hfinds.2.1⟩ hid
    obtain ⟨store, nonce, hcontent⟩ := hitems item hitem
    have hown : reencrypt C store nonce row.record = .content item.2 := by
      rw [reencrypt_congr hdescends.recordId hdescends.vaultId (hdescends.content hfinds.2.2)]
      exact hcontent
    rw [hreplaced]
    exact ⟨hfinds.2.1, hdescends.deletedAt.trans (hreads item hitem).live, store, nonce, item.2,
      hown, rfl, fun keys hkeys => decryptRecord_reencrypted hC hown hkeys⟩

end Writing

/-! ### Runs -/

section Runs

variable {C : Ciphers Text} {s t : RekeyState}

/-- The outbox is in order, and what runs hold is known. -/
structure RekeyInvariant (C : Ciphers Text) (s : RekeyState) : Prop where
  outbox : OutboxInvariant s.db
  once : ∀ i, ((s.rekeys i).reads.map fun read => (read.row.recordId, read.row.version)).Nodup
  holds : ∀ i, ∀ read ∈ (s.rekeys i).reads, ReadHolds s.db read
  batches : ∀ i batch rest, s.rekeys i = .writing batch rest →
    ∀ item ∈ batch, ∃ store nonce, reencrypt C store nonce item.1.row = .content item.2

theorem RekeyState.Start.invariant (h : s.Start) : RekeyInvariant C s where
  outbox := h.outbox
  once i := by
    rw [h.idle i]
    exact List.nodup_nil
  holds i read hread := by
    rw [h.idle i] at hread
    cases hread
  batches i batch rest hwriting := by
    rw [h.idle i] at hwriting
    cases hwriting

/-- A run that goes on. -/
theorem RekeyInvariant.setRekey (h : RekeyInvariant C s) (i : ℕ) {rekey : Rekey}
    (honce : (rekey.reads.map fun read => (read.row.recordId, read.row.version)).Nodup)
    (hholds : ∀ read ∈ rekey.reads, ReadHolds s.db read)
    (hbatches : ∀ batch rest, rekey = .writing batch rest →
      ∀ item ∈ batch, ∃ store nonce, reencrypt C store nonce item.1.row = .content item.2) :
    RekeyInvariant C (s.setRekey i rekey) := by
  refine ⟨h.outbox, fun j => ?_, fun j read hread => ?_, fun j batch rest hwriting => ?_⟩
  · by_cases hj : j = i
    · subst hj
      rw [setRekey_self]
      exact honce
    · rw [setRekey_of_ne s hj]
      exact h.once j
  · by_cases hj : j = i
    · subst hj
      rw [setRekey_self] at hread
      exact hholds read hread
    · rw [setRekey_of_ne s hj] at hread
      exact h.holds j read hread
  · by_cases hj : j = i
    · subst hj
      rw [setRekey_self] at hwriting
      exact hbatches batch rest hwriting
    · rw [setRekey_of_ne s hj] at hwriting
      exact h.batches j batch rest hwriting

/-- **What a step keeps.** -/
theorem RekeyInvariant.step (h : RekeyInvariant C s) {act : RekeyAct} (hstep : RekeyStep C s act t) :
    RekeyInvariant C t := by
  cases hstep with
  | device op db hcalled hok =>
      have hcarries := carries_run h.outbox hcalled hok
      exact ⟨hcarries.outbox, h.once, fun i read hread =>
        ReadHolds.carries hcarries hread (h.holds i read hread), h.batches⟩
  | read i hidle =>
      refine h.setRekey i (nodup_readPending h.outbox) (fun read hread => ?_) fun _ _ heq => ?_
      · exact readHolds_of_readPending h.outbox hread
      · cases heq
  | fill i store nonce rows hloaded =>
      obtain ⟨hsub, hitems⟩ := fillBatch_spec C store nonce rows rekeyBatchSize
      have hrows : (s.rekeys i).reads = rows := by
        rw [hloaded]
        rfl
      refine h.setRekey i ?_ (fun read hread => ?_) fun batch rest heq item hitem => ?_
      · exact (hrows ▸ h.once i).sublist (hsub.map _)
      · exact h.holds i read (hrows.symm ▸ hsub.subset hread)
      · obtain ⟨rfl, rfl⟩ := Rekey.writing.inj heq
        exact ⟨store, _, hitems item hitem⟩
  | write i batch rest hwriting =>
      have hreads : (s.rekeys i).reads = batch.map (·.1) ++ rest := by
        rw [hwriting]
        rfl
      have honce := h.once i
      rw [hreads, List.map_append, List.nodup_append] at honce
      have hnodup : (batch.map fun item =>
          (item.1.row.recordId, item.1.row.version)).Nodup := by
        have := honce.1
        rwa [List.map_map] at this
      have hitems := h.batches i batch rest hwriting
      have hreplaced : Transacts (fun _ => True) True s.db
          (replacePendingCiphertexts (reencryptedBatch batch) s.db) :=
        transacts_replacePendingCiphertexts h.outbox _
      have hwritten : RekeyInvariant C
          { s with db := replacePendingCiphertexts (reencryptedBatch batch) s.db } :=
        ⟨hreplaced.outbox, h.once, fun j read hread => (h.holds j read hread).write hnodup hitems,
          h.batches⟩
      split
      · refine hwritten.setRekey i honce.2.1 (fun read hread => ?_) fun _ _ heq => ?_
        · refine hwritten.holds i read ?_
          change read ∈ (s.rekeys i).reads
          rw [hreads]
          exact List.mem_append_right _ hread
        · cases heq
      · exact hwritten.setRekey i List.nodup_nil (fun read hread => by cases hread)
          fun _ _ heq => by cases heq
  | stop i =>
      exact h.setRekey i List.nodup_nil (fun read hread => by cases hread)
        fun _ _ heq => by cases heq

theorem RekeyInvariant.of_reaches (hs : s.Start) (hrun : Run.Reaches (AnyRekeyStep C) s t) :
    RekeyInvariant C t :=
  Run.invariant (fun _ _ h ⟨_, hstep⟩ => h.step hstep) hrun hs.invariant

/-- **Re-encrypting the outbox changes no content**, when what a batch finds is of the changes that
were read: whatever happened since, each pending version is as before or holds its own content under
the new key, and no tombstone gets any. -/
theorem replaced_own (hC : C.Correct) (hs : s.Start) (hrun : Run.Reaches (AnyRekeyStep C) s t)
    {i : ℕ} {batch : List (ReadVersion × Ciphertext)} {rest : List ReadVersion}
    (hwriting : t.rekeys i = .writing batch rest) (hslots : SlotsKept t.db batch) :
    ReplacedOwn C t.db (replacePendingCiphertexts (reencryptedBatch batch) t.db) := by
  have h := RekeyInvariant.of_reaches hs hrun
  have hreads : (t.rekeys i).reads = batch.map (·.1) ++ rest := by
    rw [hwriting]
    rfl
  have honce := h.once i
  rw [hreads, List.map_append, List.nodup_append] at honce
  have hnodup := honce.1
  rw [List.map_map] at hnodup
  refine replacedOwn_of_write hC hnodup (h.batches i batch rest hwriting) (fun item hitem => ?_)
    hslots
  refine h.holds i item.1 ?_
  rw [hreads]
  exact List.mem_append_left _ (List.mem_map_of_mem hitem)

end Runs

/-! ### A purge in between -/

/-- A device that holds the keys of both versions of vault 1. -/
def rotatedStore : SecretsStore :=
  { SecretsStore.empty with
    vaultKeys := fun id =>
      if id = vaultKeyId 1 1 then some ['p'] else if id = vaultKeyId 1 2 then some ['q'] else none
    currentKeyVersions := fun vaultId => if vaultId = 1 then some 2 else none }

/-- A version of record 7 under the first key of vault 1. -/
def underFirstKey (version : ℕ) (text : Text) (deletedAt : Option Time) : EncryptedRecord where
  recordId := 7
  vaultId := 1
  content := ⟨(encryptRecordData wordCiphers ['n'] ['p'] ⟨7, 1, 1⟩ text).1, ['n'], 1, 1⟩
  version := version
  clientUpdatedAt := 5
  createdAt := some 5
  updatedAt := some 5
  deletedAt := deletedAt
  tombstoneKind := none

/-- The record was edited and then deleted offline; its vault is at key version 2 since. -/
def deletedOffline : LocalDb :=
  { LocalDb.empty with
    records := [⟨underFirstKey 1 ['a'] none, .synced⟩, ⟨underFirstKey 2 ['b'] none, .pending⟩,
      ⟨underFirstKey 3 ['b'] (some 6), .pending⟩]
    outbox := [⟨1, 101, 7, 2, 0, none, none, 5⟩, ⟨2, 102, 7, 3, 0, none, none, 6⟩]
    vaults := [⟨1, 2, ⟨[], []⟩, .owner, .personal, [], [], []⟩] }

theorem outboxInvariant_deletedOffline : OutboxInvariant deletedOffline where
  seqs := by decide
  changeIds := by decide
  chains recordId := by
    by_cases hid : recordId = 7
    · subst hid
      refine ⟨2, by decide, by decide, by decide, by decide, ?_⟩
      exact .cons_cons ⟨rfl, rfl, fun _ => rfl⟩ (.singleton _)
    · have hne : (7 : ℕ) ≠ recordId := fun h => hid h.symm
      refine ⟨1, chained_of_synced ?_ ?_⟩
      · exact List.filter_eq_nil_iff.2 (by simp [deletedOffline, hne])
      · simp [RecordView.pending, LocalDb.view, LocalDb.rowsOf, deletedOffline, underFirstKey, hne]

/-- The edit is read, before or after the record is purged. -/
def readState (db : LocalDb) : RekeyState where
  db := db
  rekeys := Function.update (fun _ => .idle) 0 (.loaded (readPending deletedOffline))

/-- The batch with the edit re-encrypted. -/
def editBatch : List (ReadVersion × Ciphertext) × List ReadVersion :=
  fillBatch wordCiphers rotatedStore (fun _ => ['m']) (readPending deletedOffline) rekeyBatchSize

def writingState (db : LocalDb) : RekeyState :=
  (readState db).setRekey 0 (.writing editBatch.1 editBatch.2)

/-- The record is purged. -/
def purgedMeanwhile : LocalDb :=
  ((purgeRecords 9 deletedOffline [(7, 201)]).toOption).getD deletedOffline

theorem start_deletedOffline : RekeyState.Start ⟨deletedOffline, fun _ => .idle⟩ :=
  ⟨outboxInvariant_deletedOffline, fun _ => rfl⟩

theorem reaches_readState : AnyRekeyStep wordCiphers ⟨deletedOffline, fun _ => .idle⟩
    (readState deletedOffline) :=
  ⟨.read 0, .read 0 rfl⟩

theorem reaches_writingState (db : LocalDb) :
    AnyRekeyStep wordCiphers (readState db) (writingState db) :=
  ⟨.fill 0 rotatedStore fun _ => ['m'], .fill 0 rotatedStore (fun _ => ['m']) _ rfl⟩

theorem writingState_db (db : LocalDb) : (writingState db).db = db := rfl

theorem writingState_rekeys (db : LocalDb) :
    (writingState db).rekeys 0 = .writing editBatch.1 editBatch.2 := setRekey_self _ _ _

theorem exists_written {C : Ciphers Text} {s : RekeyState} {i : ℕ}
    {batch : List (ReadVersion × Ciphertext)} {rest : List ReadVersion}
    (h : s.rekeys i = .writing batch rest) : ∃ u, RekeyStep C s (.write i) u ∧
      u.db = replacePendingCiphertexts (reencryptedBatch batch) s.db :=
  ⟨_, .write i batch rest h, setRekey_db _ _ _⟩

/-- What waits as a version of record 7. -/
def waiting (db : LocalDb) (version : ℕ) : Option (Option TombstoneKind × Text) :=
  (db.row? 7 version).map fun row => (row.record.tombstoneKind, row.record.content.encryptedData)

theorem waiting_congr {db db' : LocalDb} (h : db'.records = db.records) (version : ℕ) :
    waiting db' version = waiting db version := by
  unfold waiting LocalDb.row?
  rw [h]

/-- Where every version is a tombstone, no content is replaced. -/
theorem ReplacedOwn.records_eq {C : Ciphers Text} {db db' : LocalDb} (h : ReplacedOwn C db db')
    (hdeleted : ∀ row ∈ db.records, row.record.deletedAt ≠ none) : db'.records = db.records := by
  unfold ReplacedOwn at h
  generalize db.records = rows at h hdeleted
  generalize db'.records = rows' at h
  induction h with
  | nil => rfl
  | @cons row row' rows rows' hrow _ ih =>
      rw [ih fun r hr => hdeleted r (List.mem_cons_of_mem _ hr)]
      rcases hrow with rfl | hrekeyed
      · rfl
      · exact absurd hrekeyed.live (hdeleted row List.mem_cons_self)

/-- Nobody re-encrypts the purge. -/
theorem purge_inOrder :
    DeviceOp.InOrder (readState deletedOffline) (.purge 9 [(7, 201)]) := by
  intro record hrecord
  obtain rfl := List.mem_singleton.1 hrecord
  rintro ⟨i, read, hread, hid⟩
  by_cases hi : i = 0
  · subst hi
    have hnone : ∀ read ∈ readPending deletedOffline, read.changeId ≠ some 201 := by
      decide +kernel
    exact hnone read hread hid
  · unfold readState at hread
    dsimp only at hread
    rw [Function.update_of_ne hi] at hread
    cases hread

/-- **A purged tombstone gets the content that was read**, when the purge comes between the read and
the write. -/
theorem tombstone_refilled : ∃ s t u : RekeyState, s.Start ∧
    Run.Reaches (AnyRekeyStep wordCiphers) s t ∧ RekeyStep wordCiphers t (.write 0) u ∧
      waiting t.db 2 = some (some .purged, []) ∧
      (∃ text, text ≠ [] ∧ waiting u.db 2 = some (some .purged, text)) ∧
      ¬ReplacedOwn wordCiphers t.db u.db := by
  have hpurge : AnyRekeyStep wordCiphers (readState deletedOffline) (readState purgedMeanwhile) :=
    ⟨.device (.purge 9 [(7, 201)]),
      .device _ purgedMeanwhile purge_inOrder (by decide +kernel)⟩
  have hrun := ((Relation.ReflTransGen.single reaches_readState).tail hpurge).tail
    (reaches_writingState purgedMeanwhile)
  have htombstone : waiting purgedMeanwhile 2 = some (some .purged, []) := by decide +kernel
  have hrefilled : waiting (replacePendingCiphertexts (reencryptedBatch editBatch.1)
      purgedMeanwhile) 2 = some (some .purged, (editBatch.1.map (·.2.encryptedData)).flatten) := by
    decide +kernel
  have htext : (editBatch.1.map (·.2.encryptedData)).flatten ≠ [] := by decide +kernel
  obtain ⟨u, hwrite, hdb⟩ := exists_written (writingState_rekeys purgedMeanwhile)
  rw [writingState_db] at hdb
  refine ⟨_, writingState purgedMeanwhile, u, start_deletedOffline, hrun, hwrite, ?_, ?_, ?_⟩
  · rw [writingState_db]
    exact htombstone
  · rw [hdb]
    exact ⟨_, htext, hrefilled⟩
  · rw [writingState_db, hdb]
    intro hown
    have hdeleted : ∀ row ∈ purgedMeanwhile.records, row.record.deletedAt ≠ none := by
      decide +kernel
    have hsame := waiting_congr (hown.records_eq hdeleted) 2
    rw [hrefilled, htombstone] at hsame
    exact htext (Prod.mk.inj (Option.some.inj hsame)).2

/-- Without a purge the edit is re-encrypted. -/
theorem replaced_own_edit :
    ReplacedOwn wordCiphers deletedOffline
        (replacePendingCiphertexts (reencryptedBatch editBatch.1) deletedOffline) ∧
      editBatch.1 ≠ [] := by
  have hslots : SlotsKept (writingState deletedOffline).db editBatch.1 := by
    rw [writingState_db]
    decide +kernel
  have hrun := (Relation.ReflTransGen.single reaches_readState).tail
    (reaches_writingState deletedOffline)
  have hown := replaced_own wordCiphers_ideal.toCorrect start_deletedOffline hrun
    (writingState_rekeys deletedOffline) hslots
  rw [writingState_db] at hown
  exact ⟨hown, by decide +kernel⟩

end Passmgr
