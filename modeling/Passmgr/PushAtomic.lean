/-
# A push is atomic per record and answers every change

For every batch and every state of the tables: of each record either all changes the server did not
have are appended, in batch order on top of the head, or none is; every change gets one answer, at
its index; and no answer carries a row of a vault the user may not write to.

Main definitions:

* `unstoredOf` — the changes of a record the server does not have;
* `AtomicPush`, `Answered` — what a push did for a record, and what it answered to a change.

Main results:

* `pushChanges_total` — a push of distinct changes never fails on a store that pushes made;
* `push_atomic` — the two guarantees, for every batch.
-/

import Passmgr.PushStore

set_option relaxedAutoImplicit false
set_option autoImplicit false

namespace Passmgr

section

variable {quotaBytes : ℕ} {db : Db} {userId : UserId} {now : Time} {changes : List PushChange}

/-! ### A push does not fail -/

theorem nodup_changeIds (hids : (changes.map (·.clientChangeId)).Nodup) :
    ((indexed changes).map (·.change.clientChangeId)).Nodup := by
  have h : (indexed changes).map (·.change.clientChangeId) =
      ((indexed changes).map (·.change)).map (·.clientChangeId) := by
    rw [List.map_map]
    rfl
  rwa [h, map_change_indexed]

/-- The change ids of the rows a push writes for a record are those of changes of its chain. -/
theorem changeIds_writtenRows (recordId : RecordId) :
    ((writtenOf (writtenRows quotaBytes db userId now changes) recordId).map
      (·.clientChangeId)).Sublist ((chainOf changes recordId).map (·.change.clientChangeId)) := by
  by_cases hr : ∃ x ∈ indexed changes, x.change.recordId = recordId
  · obtain ⟨x, hx, rfl⟩ := hr
    obtain ⟨j, hj, hjc⟩ := exists_judged quotaBytes db userId now hx
    have hjr : j.1.1 = x.change.recordId := by rw [hjc]
    have hchain : chainOf changes x.change.recordId = j.1.2 := by rw [hjc]
    have hf := forall₂_written hj
    rw [hjr] at hf
    have hids : (writtenOf (writtenRows quotaBytes db userId now changes)
        x.change.recordId).map (·.clientChangeId) =
        (if isWritten quotaBytes db userId now changes j then
          appends (pushDecided db userId changes j.1) else []).map (·.change.clientChangeId) := by
      exact RowByRow.map_eq (fun x row hrow => hrow.clientChangeId) hf
    rw [hids, hchain]
    refine List.Sublist.map _ ?_
    split
    · exact appends_sublist db userId changes j.1
    · exact List.nil_sublist _
  · have hnone : writtenOf (writtenRows quotaBytes db userId now changes) recordId = [] :=
      written_of_notMem fun x hx hxr => hr ⟨x, hx, hxr⟩
    rw [hnone]
    exact List.nil_sublist _

/-- No row a push writes is of a change the server has. -/
theorem not_stored_of_mem_writtenRows {row : RecordRow}
    (hrow : row ∈ writtenRows quotaBytes db userId now changes) :
    ∀ old ∈ db.records, old.recordId = row.recordId →
      old.clientChangeId ≠ row.clientChangeId := by
  obtain ⟨j, hj, -, x, hx, hxr, -⟩ := exists_change_of_mem_writtenRows hrow
  have hnone := (decideChain_append hx).not_stored
  rw [storedChange, List.find?_eq_none] at hnone
  intro old hold hr hc
  refine hnone old hold ?_
  rw [hr, hc, hxr.recordId, hxr.clientChangeId]
  simp

variable {written : List RecordRow}

/-- The rows a push plans break no unique index of a store that pushes made. -/
theorem unique_writtenRows (hs : StoreInvariant { db := db, written := written })
    (hids : (changes.map (·.clientChangeId)).Nodup) :
    UniqueRecords (db.records ++ writtenRows quotaBytes db userId now changes) := by
  set rows := writtenRows quotaBytes db userId now changes with hrows
  have hchained : ∀ recordId, Extends none ((writtenOf (written ++ rows) recordId).map (·.state)) :=
    hs.chained_writtenRows quotaBytes userId now changes
  refine ⟨?_, ?_, ?_⟩
  · have hlog := numbers_of_chained hchained
    rw [List.map_append, List.nodup_append] at hlog ⊢
    refine ⟨hs.unique.1, hlog.2.1, fun a ha b hb => hlog.2.2 a ?_ b hb⟩
    obtain ⟨row, hrow, rfl⟩ := List.mem_map.1 ha
    exact List.mem_map_of_mem (hs.mem_written hrow)
  · have hlog : ((written ++ rows).map fun row => (row.vaultId, row.seq)).Nodup := by
      refine GroupBy.nodup_map_pair (fun row : RecordRow => row.vaultId) fun vaultId => ?_
      by_cases hv : ∃ v ∈ db.vaults, v.vaultId = vaultId
      · obtain ⟨v, hv, rfl⟩ := hv
        have hold := hs.seqs v hv
        have hnew := hs.seqs_writtenRows quotaBytes userId now changes hv
        rw [← hrows] at hnew
        rw [GroupBy.group, List.filter_append, List.map_append]
        rw [writtenIn] at hold hnew
        rw [hold, hnew, Nat.add_comm v.lastSeq 1, List.range'_append_1]
        exact List.nodup_range'
      · have hnone : GroupBy.group (fun row : RecordRow => row.vaultId) vaultId
            (written ++ rows) = [] := by
          rw [GroupBy.group, List.filter_eq_nil_iff]
          intro row hrow hrv
          rcases List.mem_append.1 hrow with hrow | hrow
          · obtain ⟨v, hvm, hid⟩ := hs.has_vault row hrow
            exact hv ⟨v, hvm, hid.trans (of_decide_eq_true hrv)⟩
          · obtain ⟨v, hvm, hid⟩ := exists_vault_of_mem_writtenRows hrow
            exact hv ⟨v, hvm, hid.trans (of_decide_eq_true hrv)⟩
        rw [hnone]
        exact List.nodup_nil
    rw [List.map_append, List.nodup_append] at hlog ⊢
    refine ⟨hs.unique.2.1, hlog.2.1, fun a ha b hb => hlog.2.2 a ?_ b hb⟩
    obtain ⟨row, hrow, rfl⟩ := List.mem_map.1 ha
    exact List.mem_map_of_mem (hs.mem_written hrow)
  · rw [List.map_append, List.nodup_append]
    refine ⟨hs.unique.2.2, ?_, ?_⟩
    · refine GroupBy.nodup_map_pair (fun row : RecordRow => row.recordId) fun recordId => ?_
      have hchain : ((chainOf changes recordId).map (·.change.clientChangeId)).Nodup := by
        exact (nodup_changeIds hids).sublist (List.filter_sublist.map _)
      exact hchain.sublist (changeIds_writtenRows recordId)
    · intro a ha b hb hab
      obtain ⟨old, hold, rfl⟩ := List.mem_map.1 ha
      obtain ⟨row, hrow, rfl⟩ := List.mem_map.1 hb
      obtain ⟨hr, hc⟩ := Prod.mk.inj hab
      exact not_stored_of_mem_writtenRows hrow old hold hr hc

/-- A push of distinct changes never fails as a whole on a store that pushes made. -/
theorem pushChanges_total (hs : StoreInvariant { db := db, written := written })
    (hids : (changes.map (·.clientChangeId)).Nodup) :
    ∃ d, pushChanges quotaBytes db userId now changes = .ok d := by
  rw [pushChanges_eq, if_pos (unique_writtenRows hs hids)]
  exact ⟨_, rfl⟩

/-! ### All of a record's changes, or none -/

variable (db changes) in
/-- The changes of a record the server does not have, in batch order. -/
def unstoredOf (recordId : RecordId) : List PushChange :=
  (changes.filter (·.recordId = recordId)).filter fun change => (storedChange db change).isNone

/-- The outcomes of a chain that passes: retries where the server has the change. -/
theorem appends_of_passes {vaults : VaultState} {stored : PushChange → Option RecordRow}
    {sim : Option SimulatedHead} {pairs : List (Indexed × Outcome)}
    (h : Passes vaults stored sim pairs) :
    appends pairs = (pairs.map Prod.fst).filter fun x => (stored x.change).isNone := by
  induction pairs generalizing sim with
  | nil => rfl
  | cons p pairs ih =>
      obtain ⟨x, o⟩ := p
      obtain ⟨hx, hrest⟩ := h
      rcases hx with ⟨row, rfl, hretry⟩ | ⟨rfl, hfresh, -⟩
      · rw [appends_cons, if_neg (by simp), ih hrest, List.map_cons,
          List.filter_cons_of_neg (by simp [hretry.stored])]
      · rw [appends_cons, if_pos rfl, ih hrest, List.map_cons,
          List.filter_cons_of_pos (by simp [hfresh.not_stored])]

theorem map_change_unstored (recordId : RecordId) :
    (((chainOf changes recordId).filter fun x => (storedChange db x.change).isNone).map
      (·.change)) = unstoredOf db changes recordId := by
  rw [unstoredOf, chainOf, List.filter_filter, List.filter_filter]
  conv_rhs => rw [← map_change_indexed changes]
  rw [List.filter_map]
  rfl

/-- What a push did for a record: it appended all changes the server did not have, in batch order
and without gaps on top of the head, or nothing. -/
def AtomicPush (db : Db) (userId : UserId) (now : Time) (changes : List PushChange) (d : Pushed)
    (recordId : RecordId) : Prop :=
  (List.Forall₂ (IsRowOf userId now) (unstoredOf db changes recordId)
        (writtenOf d.written recordId) ∧
      (writtenOf d.written recordId).map (·.version) =
        List.range' ((latestVersion db recordId).elim 0 (·.version) + 1)
          (unstoredOf db changes recordId).length) ∨
    writtenOf d.written recordId = []

theorem atomicPush {d : Pushed} (hd : pushChanges quotaBytes db userId now changes = .ok d)
    (recordId : RecordId) : AtomicPush db userId now changes d recordId := by
  obtain ⟨-, hw, -⟩ := of_pushChanges_ok hd
  rw [AtomicPush, hw]
  by_cases hr : ∃ x ∈ indexed changes, x.change.recordId = recordId
  · obtain ⟨x, hx, rfl⟩ := hr
    obtain ⟨j, hj, hjc⟩ := exists_judged quotaBytes db userId now hx
    have hjr : j.1.1 = x.change.recordId := by rw [hjc]
    have hchain : j.1.2 = chainOf changes x.change.recordId := by rw [hjc]
    have hf := forall₂_written hj
    rw [hjr] at hf
    split at hf
    · rcases pushDecided_cases db userId changes j.1 with hpass | hno
      · rw [appends_of_passes hpass, map_fst_pushDecided, hchain] at hf
        have hrows : List.Forall₂ (IsRowOf userId now)
            (unstoredOf db changes x.change.recordId)
            (writtenOf (writtenRows quotaBytes db userId now changes) x.change.recordId) := by
          rw [← map_change_unstored, List.forall₂_map_left_iff]
          exact hf
        refine Or.inl ⟨hrows, ?_⟩
        have hrange := map_version_of_extends
          (extends_writtenRows quotaBytes db userId now changes x.change.recordId)
        rw [List.map_map, List.length_map, ← hrows.length_eq] at hrange
        have hhead : ((latestVersion db x.change.recordId).map (·.head)).elim 0 (·.version) =
            (latestVersion db x.change.recordId).elim 0 (·.version) := by
          cases latestVersion db x.change.recordId <;> rfl
        rw [hhead] at hrange
        exact hrange
      · rw [appends_of_noAppend hno, List.forall₂_nil_left_iff] at hf
        exact Or.inr hf
    · rw [List.forall₂_nil_left_iff] at hf
      exact Or.inr hf
  · exact Or.inr (written_of_notMem fun x hx hxr => hr ⟨x, hx, hxr⟩)

/-! ### The answers -/

/-- What a push answered to a change: one result, with the change's id.  A row it carries is of the
vault the change names, where the user may write, and was stored before by this change or is
written now for it; and a change a row is written for is answered with it. -/
def Answered (db : Db) (userId : UserId) (now : Time) (d : Pushed) (index : ℕ)
    (change : PushChange) : Prop :=
  ∃ result, d.results[index]? = some (some result) ∧
    result.clientChangeId = change.clientChangeId ∧
    (∀ id record, result = .applied id record →
      record.vaultId = change.vaultId ∧
        (db.requireVaultRole userId change.vaultId vaultWriteRoles).isOk = true ∧
        ((∃ row, storedChange db change = some row ∧ record = serializeRecord row) ∨
          ∃ row ∈ d.written, IsRowOf userId now change row ∧ record = serializeRecord row)) ∧
    ((∃ row ∈ d.written, IsRowOf userId now change row) →
      ∃ record, result = .applied change.clientChangeId record)

theorem isOk_of_access {vaultId : VaultId}
    (h : (vaultState db userId changes).access vaultId = some none) :
    (db.requireVaultRole userId vaultId vaultWriteRoles).isOk = true := by
  simp only [vaultState, vaultAccess] at h
  split at h
  · cases hrole : db.requireVaultRole userId vaultId vaultWriteRoles with
    | ok role => rfl
    | error e => cases e <;> simp [hrole] at h
  · simp at h

theorem failure_clientChangeId (failure : Failure) (id : ChangeId) :
    (failure.result id).clientChangeId = id := by
  cases failure <;> rfl

theorem eq_of_clientChangeId (hids : (changes.map (·.clientChangeId)).Nodup) {x y : Indexed}
    (hx : x ∈ indexed changes) (hy : y ∈ indexed changes)
    (h : x.change.clientChangeId = y.change.clientChangeId) : x = y := by
  exact List.inj_on_of_nodup_map (nodup_changeIds hids) hx hy h

/-- The chain of a change a row is written for is written, and the change appended. -/
theorem append_of_written (hids : (changes.map (·.clientChangeId)).Nodup) {x : Indexed}
    (hx : x ∈ indexed changes) {j : (RecordId × List Indexed) × Bool}
    (hj : j ∈ pushJudged quotaBytes db userId now changes) {o : Outcome}
    (ho : (x, o) ∈ pushDecided db userId changes j.1) {row : RecordRow}
    (hrow : row ∈ writtenRows quotaBytes db userId now changes)
    (hrowOf : IsRowOf userId now x.change row) :
    o = .append ∧ isWritten quotaBytes db userId now changes j = true := by
  obtain ⟨j', hj', hw, y, hy, hyr, -⟩ := exists_change_of_mem_writtenRows hrow
  have hyi := (record_of_mem_decided (fst_mem_groupByRecord hj') hy).1
  obtain rfl : y = x :=
    eq_of_clientChangeId hids hyi hx (hyr.clientChangeId.symm.trans hrowOf.clientChangeId)
  obtain ⟨rfl, -, rfl⟩ := eq_of_index hj hj' ho hy rfl
  exact ⟨rfl, hw⟩

theorem answered (hids : (changes.map (·.clientChangeId)).Nodup) {d : Pushed}
    (hd : pushChanges quotaBytes db userId now changes = .ok d)
    {x : Indexed} (hx : x ∈ indexed changes) :
    Answered db userId now d x.index x.change := by
  obtain ⟨-, hw, -⟩ := of_pushChanges_ok hd
  obtain ⟨j, hj, -, o, ho⟩ := exists_outcome quotaBytes db userId now hx
  obtain ⟨result, hresult, hanswer⟩ := exists_answer hd hj ho
  have hback : ∀ row ∈ d.written, IsRowOf userId now x.change row →
      o = .append ∧ isWritten quotaBytes db userId now changes j = true := fun row hrow =>
    append_of_written hids hx hj ho (hw ▸ hrow)
  refine ⟨result, hresult, ?_⟩
  cases o with
  | failed failure =>
      obtain rfl := hanswer
      refine ⟨failure_clientChangeId failure _, fun id record h => ?_, ?_⟩
      · cases failure <;> simp [Failure.result] at h
      · rintro ⟨row, hrow, hrowOf⟩
        exact absurd (hback row hrow hrowOf).1 (by simp)
  | stored row =>
      obtain rfl := hanswer
      have hretry := (decideChain_stored ho row).1 rfl
      refine ⟨rfl, fun id record h => ?_, fun _ => ⟨_, rfl⟩⟩
      obtain ⟨-, rfl⟩ := PushResult.applied.inj h
      exact ⟨hretry.vault, isOk_of_access hretry.access, Or.inl ⟨row, hretry.stored, rfl⟩⟩
  | append =>
      have hfresh := decideChain_append ho
      rw [IsAnswer] at hanswer
      split at hanswer
      · obtain ⟨row, hrow, hrowOf, rfl⟩ := hanswer
        refine ⟨rfl, fun id record h => ?_, fun _ => ⟨_, rfl⟩⟩
        obtain ⟨-, rfl⟩ := PushResult.applied.inj h
        exact ⟨hrowOf.vaultId, isOk_of_access hfresh.access,
          Or.inr ⟨row, hw ▸ hrow, hrowOf, rfl⟩⟩
      · next hnot =>
          obtain rfl := hanswer
          refine ⟨rfl, fun id record h => by simp at h, ?_⟩
          rintro ⟨row, hrow, hrowOf⟩
          exact absurd (hback row hrow hrowOf).2 hnot

end

/-- **A push is atomic per record and answers every change.**  For every batch of distinct changes
and every state of the tables: when the push does not fail as a whole, of every record all changes
the server did not have are appended or none is, the rows are those there were and the appended
ones but for what a purge dropped, there are as many answers as changes, and each answer goes with
its change.  It does not fail as a whole on a store that pushes made. -/
theorem push_atomic (quotaBytes : ℕ) (db : Db) (userId : UserId) (now : Time)
    (changes : List PushChange) (hids : (changes.map (·.clientChangeId)).Nodup) :
    (∀ d, pushChanges quotaBytes db userId now changes = .ok d →
      (∀ recordId, AtomicPush db userId now changes d recordId) ∧
        (∀ row, row ∈ d.db.records ↔ (row ∈ db.records ∨ row ∈ d.written) ∧
          ∀ purged ∈ d.written, purged.isPurged = true → purged.isBelow row = false) ∧
        d.results.length = changes.length ∧
        ∀ index change, changes[index]? = some change →
          Answered db userId now d index change) ∧
      ∀ written, StoreInvariant { db := db, written := written } →
        ∃ d, pushChanges quotaBytes db userId now changes = .ok d := by
  constructor
  · intro d hd
    refine ⟨atomicPush hd, fun row => mem_records_push hd, ?_, ?_⟩
    · rw [pushChanges_eq] at hd
      split at hd
      · obtain rfl := Except.ok.inj hd
        rw [List.length_map, List.length_range]
      · simp at hd
    · intro index change hchange
      exact answered hids hd (x := { index := index, change := change }) (mem_indexed.2 hchange)
  · intro written hs
    exact pushChanges_total hs hids

/-- Two changes of one record and a foreign vault in one batch. -/
theorem push_atomic_registered :
    (∀ d, pushChanges 1000 (registeredDb 7 1) 7 0 [sampleCreate, samplePurge] = .ok d →
        AtomicPush (registeredDb 7 1) 7 0 [sampleCreate, samplePurge] d 5) ∧
      ∃ d, pushChanges 1000 (registeredDb 7 1) 7 0 [sampleCreate, samplePurge] = .ok d := by
  have h := push_atomic 1000 (registeredDb 7 1) 7 0 [sampleCreate, samplePurge] (by decide)
  refine ⟨fun d hd => (h.1 d hd).1 5, h.2 [] (storeInvariant_of_empty ?_)⟩
  exact ⟨rfl, rfl, by decide, by decide⟩

end Passmgr
