/-
# A backup and its restore

An export of an unlocked profile, read back and restored into a new local vault: by any number of
runs that stop after some batches, and one that does not.

A record comes back unchanged, the date of an undated password aside, exactly when its title is a
text, it has no field of a name a file needs for itself, no number of it is out of the range of
JSON, and it is not too large with the date.  Any other one keeps the file from being written or
read, or the restore from coming to an end, or it comes back changed.

Main definitions:

* `UnlockedProfile`, `RestoreTarget` — what is backed up, and what it is restored into;
* `RestoreStep`, `IsRestored` — a run that may stop, and a record that has come back;
* `BackupRestores`, `Restorable` — a backup restores everything, and the condition.

Main results:

* `importRecordData_reread` — what a restore writes of a record;
* `RestoreInv.step`, `of_importExportData` — every run writes some of the records, a complete one
  the rest;
* `backup_restores_iff` — when a backup restores everything.
-/

import Passmgr.Run
import Passmgr.SameContent

set_option relaxedAutoImplicit false
set_option autoImplicit false

namespace Passmgr

open IdealCipher (Ciphers)

/-! ### What is backed up and restored -/

/-- A payload with the date of its record for an undated password. -/
def dated (payload : JsObject) (created : Option Text) : JsObject :=
  match givenDate created with
  | some created =>
    if undatedPassword payload then JsObject.set payload "passwordChangedAt" (.string created)
    else payload
  | none => payload

/-- What a restore writes of a payload: its content, read back and dated. -/
def restoredData (payload : JsObject) (created : Option Text) : JsObject :=
  dated (Json.rereadFields (JsObject.without payload placeKeys)) created

section Property

variable (C : Ciphers Text) (J : MetaJson) (E : ExportEnv)

/-- An unlocked profile whose live records all open; a record version is in its table once. -/
structure UnlockedProfile where
  db : LocalDb
  store : SecretsStore
  keys : (db.records.map (·.key)).Nodup
  opens : ∀ latest ∈ getAllLatest db, (decryptPayload C E store latest.row).isSome = true

variable {C} in
/-- The payload of a live record. -/
def UnlockedProfile.payload (p : UnlockedProfile C E) (latest : LatestRecord) : JsObject :=
  (decryptPayload C E p.store latest.row).getD []

/-- A new local vault: empty, with its key in memory. -/
structure RestoreTarget where
  db : LocalDb
  store : SecretsStore
  vaultId : VaultId
  records : db.records = []
  outbox : db.outbox = []
  holds : HoldsVault store vaultId

/-- The change ids a run draws are new ones. -/
structure ImportRun.Fresh (run : ImportRun) (db : LocalDb) : Prop where
  injective : Function.Injective run.changeId
  new : ∀ i, run.changeId i ∉ db.outbox.map (·.changeId)

/-- A run of a restore that stops after some batches, or because one of them fails. -/
def RestoreStep (target : RestoreTarget) (data : ExportData) (db db' : LocalDb) : Prop :=
  ∃ (run : ImportRun) (count : ℕ), run.Fresh db ∧
    let batches := importBatchesOf C E target.store run (restoreOptions target.vaultId) data db
    db' = (importBatches C E target.store run batches.flatten.length 0 (batches.take count) db).1

/-- A record has come back: it is there once, live, and opens to the payload with its date. -/
def IsRestored (target : RestoreTarget) (db : LocalDb) (recordId : RecordId) (payload : JsObject) :
    Prop :=
  ∃ row, db.rowsOf recordId = [row] ∧ row.record.deletedAt = none ∧
    row.record.vaultId = target.vaultId ∧
    ∃ restored, decryptPayload C E target.store row.record = some restored ∧
      ∀ key, JsObject.get? restored key = JsObject.get? payload key

/-- **A backup restores everything**: the file is written and read, and a restore that is run to its
end, after any number of runs that stopped, has every record and nothing else. -/
def BackupRestores (p : UnlockedProfile C E) (now : Text) (format : ExportFormat)
    (password : Text) : Prop :=
  ∃ collected file data, collectExportData C J E p.store now p.db = .ok collected ∧
    collected.skipped = 0 ∧ exportFile C E collected.data format password = .ok file ∧
    openExportFile C E file password = .ok data ∧
    ∀ (target : RestoreTarget) (db : LocalDb),
      Run.Reaches (RestoreStep C E target data) target.db db →
      ∀ run : ImportRun, run.Fresh db → ∃ result db',
        importExportData C E target.store run (restoreOptions target.vaultId) data db =
          (db', .ok result) ∧
        (∀ latest ∈ getAllLatest p.db, IsRestored C E target db' latest.row.recordId
          (dated (p.payload E latest) (latest.createdText E))) ∧
        ∀ row ∈ db'.records, ∃ latest ∈ getAllLatest p.db,
          row.record.recordId = latest.row.recordId

/-- A record that comes back: its title is a text, it has no field a file needs for itself, its
numbers are in the range of JSON, and it is not too large with its date. -/
structure Restorable (payload : JsObject) (created : Option Text) : Prop where
  title : (JsObject.text? payload "title").isSome = true
  own : ∀ key ∈ ["id", "vaultId", "createdAt", "updatedAt"], JsObject.get? payload key = none
  finite : ∀ key value, JsObject.get? (dated payload created) key = some value →
    value.reread = value
  fits : recordPayloadBytes (recordPayloadJson E.toJsonText (restoredData payload created)) ≤
    maxRecordPayloadBytes

/-- The values whose texts a backup and its restore write. -/
inductive Written (p : UnlockedProfile C E) (now : Text) (format : ExportFormat) (password : Text) :
    Json → Prop
  | document {collected : CollectedExport}
    (h : collectExportData C J E p.store now p.db = .ok collected) :
    Written p now format password collected.data.toJson
  | envelope {collected : CollectedExport} {envelope : ExportEnvelope}
    (h : collectExportData C J E p.store now p.db = .ok collected)
    (henvelope : envelope ∈ format.envelope C E collected.data password) :
    Written p now format password envelope.toJson
  | payload {latest : LatestRecord} (h : latest ∈ getAllLatest p.db) :
    Written p now format password (.object (JsObject.set
      (restoredData (p.payload E latest) (latest.createdText E)) "schemaVersion"
      (.number currentSchemaVersion)))

end Property

/-! ### The content of a record -/

section Content

variable {E : ExportEnv}

/-- **What a restore writes of a record**: the data of its payload, read back and dated. -/
theorem importRecordData_reread (latest : LatestRecord) (payload : JsObject) :
    importRecordData (exportRecord E latest payload).reread =
      restoredData payload (latest.createdText E) := by
  have hfields : JsObject.without (exportRecord E latest payload).reread.fields placeKeys =
      Json.rereadFields (JsObject.without payload placeKeys) := by
    show JsObject.without (Json.rereadFields (exportRecord E latest payload).fields) placeKeys = _
    rw [without_rereadFields]
    unfold exportRecord
    dsimp only
    rw [JsObject.without_set _ (by decide), JsObject.without_set _ (by decide), JsObject.without_set _ (by decide),
      JsObject.without_set _ (by decide), without_without]
    congr 1
    unfold JsObject.without
    exact List.filter_congr fun field _ => by simp [placeKeys]
  unfold importRecordData restoredData dated
  rw [hfields]
  rfl

theorem undatedPassword_congr {object object' : JsObject}
    (htype : JsObject.text? object' "type" = JsObject.text? object "type")
    (hpassword : (JsObject.get? object' "password").map Json.truthy =
      (JsObject.get? object "password").map Json.truthy)
    (hdate : (JsObject.get? object' "passwordChangedAt").map Json.truthy =
      (JsObject.get? object "passwordChangedAt").map Json.truthy) :
    undatedPassword object' = undatedPassword object := by
  have hsome : ∀ {a b : Option Json}, a.map Json.truthy = b.map Json.truthy →
      (a.filter (·.truthy)).isSome = (b.filter (·.truthy)).isSome := by
    intro a b h
    cases a <;> cases b <;> simp_all [Option.filter]
    split <;> simp_all
  have hany : ∀ {a b : Option Json}, a.map Json.truthy = b.map Json.truthy →
      a.any (·.truthy) = b.any (·.truthy) := by
    intro a b h
    cases a <;> cases b <;> simp_all
  unfold undatedPassword monitoredPassword
  rw [htype, hany hdate]
  split
  · rw [hsome hpassword]
  · rfl

/-- A falsy value is read back as one. -/
theorem truthy_reread_of_falsy {value : Json} (h : value.truthy = false) :
    value.reread.truthy = false := by
  cases value with
  | number value =>
      cases value with
      | nan => rfl
      | inf negative => cases h
      | fin value => exact h
  | array items => cases h
  | object fields => cases h
  | _ => exact h

theorem get?_dated_of_ne (payload : JsObject) (created : Option Text) {key : String}
    (h : key ≠ "passwordChangedAt") :
    JsObject.get? (dated payload created) key = JsObject.get? payload key := by
  unfold dated
  split
  · split
    · rw [JsObject.get?_set, if_neg h]
    · rfl
  · rfl

section Restorable

variable {payload : JsObject} {created : Option Text}

theorem map_reread {value? : Option Json}
    (h : ∀ value, value? = some value → value.reread = value) : value?.map Json.reread = value? := by
  cases value? with
  | none => rfl
  | some value => rw [Option.map_some, h value rfl]

/-- A field that is kept is read back as it is. -/
theorem reread_of_finite
    (hfinite : ∀ key value, JsObject.get? (dated payload created) key = some value →
      value.reread = value) {key : String} (hkey : key ≠ "passwordChangedAt") :
    (JsObject.get? payload key).map Json.reread = JsObject.get? payload key :=
  map_reread fun value hvalue =>
    hfinite key value ((get?_dated_of_ne payload created hkey).trans hvalue)

/-- A payload and what is read back of it have an undated password or not. -/
theorem undatedPassword_reread
    (hfinite : ∀ key value, JsObject.get? (dated payload created) key = some value →
      value.reread = value) :
    undatedPassword (Json.rereadFields (JsObject.without payload placeKeys)) =
      undatedPassword payload := by
  have hget : ∀ key, key ∉ placeKeys →
      JsObject.get? (Json.rereadFields (JsObject.without payload placeKeys)) key =
        (JsObject.get? payload key).map Json.reread := by
    intro key hkey
    rw [get?_rereadFields, JsObject.get?_without, if_neg hkey]
  refine undatedPassword_congr ?_ ?_ ?_
  · unfold JsObject.text?
    rw [hget _ (by decide), reread_of_finite hfinite (by decide)]
  · rw [hget _ (by decide), reread_of_finite hfinite (by decide)]
  · rw [hget _ (by decide)]
    cases hvalue : JsObject.get? payload "passwordChangedAt" with
    | none => rfl
    | some value =>
        cases htruthy : value.truthy with
        | false => simp [htruthy, truthy_reread_of_falsy htruthy]
        | true =>
            -- a date that is set is not replaced
            have hdated : dated payload created = payload := by
              unfold dated undatedPassword
              rw [hvalue]
              split <;> simp [htruthy]
            have hsame := hfinite _ value (by rw [hdated]; exact hvalue)
            rw [Option.map_some, hsame]

/-- What is written of a field, the schema version aside. -/
theorem get?_restoredData
    (hown : ∀ key ∈ ["id", "vaultId", "createdAt", "updatedAt"], JsObject.get? payload key = none)
    (hfinite : ∀ key value, JsObject.get? (dated payload created) key = some value →
      value.reread = value) {key : String} (hkey : key ≠ "schemaVersion") :
    JsObject.get? (restoredData payload created) key =
      (JsObject.get? (dated payload created) key).map Json.reread := by
  have hbase : JsObject.get? (Json.rereadFields (JsObject.without payload placeKeys)) key =
      (JsObject.get? payload key).map Json.reread := by
    rw [get?_rereadFields, JsObject.get?_without]
    split
    · next hmem =>
        have hplace : key ∈ ["id", "vaultId", "createdAt", "updatedAt"] ++ ["schemaVersion"] := hmem
        rcases List.mem_append.1 hplace with hplace | hplace
        · rw [hown key hplace, Option.map_none]
        · exact absurd (List.mem_singleton.1 hplace) hkey
    · rfl
  unfold restoredData
  by_cases hdate : key = "passwordChangedAt"
  · unfold dated
    rw [undatedPassword_reread hfinite]
    split
    · split
      · rw [JsObject.get?_set, JsObject.get?_set, if_pos hdate, if_pos hdate, Option.map_some,
          Json.reread]
      · exact hbase
    · exact hbase
  · rw [get?_dated_of_ne _ _ hdate, get?_dated_of_ne _ _ hdate, hbase]

/-- **A restored record is its payload with its date**, field by field. -/
theorem get?_restored
    (hversion : isCurrentVersion (JsObject.get? payload "schemaVersion") = true)
    (hown : ∀ key ∈ ["id", "vaultId", "createdAt", "updatedAt"], JsObject.get? payload key = none)
    (hfinite : ∀ key value, JsObject.get? (dated payload created) key = some value →
      value.reread = value) (key : String) :
    JsObject.get? (Json.rereadFields (JsObject.set (restoredData payload created) "schemaVersion"
      (.number currentSchemaVersion))) key = JsObject.get? (dated payload created) key := by
  rw [get?_rereadFields, JsObject.get?_set]
  by_cases hkey : key = "schemaVersion"
  · subst hkey
    rw [if_pos rfl, get?_dated_of_ne _ _ (by decide)]
    cases hvalue : JsObject.get? payload "schemaVersion" with
    | none =>
        rw [hvalue] at hversion
        cases hversion
    | some value =>
        rw [hvalue] at hversion
        cases value with
        | number value =>
            rw [of_decide_eq_true hversion]
            rfl
        | _ => cases hversion
  · rw [if_neg hkey, get?_restoredData hown hfinite hkey, map_reread (hfinite key),
      map_reread (hfinite key)]

end Restorable

end Content

/-! ### Runs of a restore -/

section Restore

variable {C : Ciphers Text} {E : ExportEnv} {target : RestoreTarget} {data : ExportData}
  {db : LocalDb} {run : ImportRun}

/-- What every run of a restore leaves: each record is there once at most, as the file has it. -/
structure RestoreInv (C : Ciphers Text) (E : ExportEnv) (target : RestoreTarget) (data : ExportData)
    (db : LocalDb) : Prop where
  once : (db.records.map (·.record.recordId)).Nodup
  stored : ∀ row ∈ db.records, ∃ record ∈ data.records,
    StoredAs C E target.store (restoreEntry target.vaultId record) row

/-- The records of a file that are not there yet. -/
def missingRecords (data : ExportData) (db : LocalDb) : List ExportRecord :=
  data.records.filter fun record => (getRecordHeads db record.id).isNone

theorem rowsOf_of_missing {recordId : RecordId} (h : (getRecordHeads db recordId).isNone = true) :
    db.rowsOf recordId = [] := by
  unfold getRecordHeads getHead at h
  rw [Option.isNone_iff_eq_none, Option.map_eq_none_iff] at h
  exact List.argmax_eq_none.1 h

/-- The entries of a run of a restore. -/
theorem importEntries_restore (hids : (data.records.map (·.id)).Nodup)
    (h : RestoreInv C E target data db) :
    importEntries C E target.store run (restoreOptions target.vaultId) data db =
      (missingRecords data db).map (restoreEntry target.vaultId) := by
  have hplan := @planImport_restore target.vaultId data run.newId (getRecordHeads db) hids
    fun record _ head hhead => by
      obtain ⟨row, hrow, rfl⟩ := Option.map_eq_some_iff.1 hhead
      obtain ⟨stored, -, hstored⟩ := h.stored row (List.mem_filter.1 (List.argmax_mem hrow)).1
      exact hstored.vault
  unfold importEntries
  rw [hplan]
  refine List.filter_eq_self.2 fun entry hentry => ?_
  obtain ⟨record, -, rfl⟩ := List.mem_map.1 hentry
  rfl

theorem flatten_importBatchesOf (hids : (data.records.map (·.id)).Nodup)
    (h : RestoreInv C E target data db) :
    (importBatchesOf C E target.store run (restoreOptions target.vaultId) data db).flatten =
      ((missingRecords data db).map (restoreEntry target.vaultId)).zipIdx := by
  unfold importBatchesOf
  rw [importEntries_restore hids h]
  exact flatten_batchesOf (by decide) (Nat.le_refl _)

/-- **Some batches of a restore** keep the invariant, and write their entries unless they stop. -/
theorem RestoreInv.importBatches (hC : C.Correct) (hids : (data.records.map (·.id)).Nodup)
    (h : RestoreInv C E target data db) {total written : ℕ}
    {batches : List (List (ImportEntry × ℕ))}
    (hbatches : batches.flatten <+:
      ((missingRecords data db).map (restoreEntry target.vaultId)).zipIdx) :
    RestoreInv C E target data (importBatches C E target.store run total written batches db).1 ∧
      db.records ⊆ (importBatches C E target.store run total written batches db).1.records ∧
      ((importBatches C E target.store run total written batches db).2 = .ok () →
        ∀ entry ∈ batches.flatten, ∃ row ∈
          (importBatches C E target.store run total written batches db).1.records,
            row.record.recordId = entry.1.recordId) := by
  have hentries : ∀ entry ∈ batches.flatten, ∃ record ∈ missingRecords data db,
      restoreEntry target.vaultId record = entry.1 := by
    intro entry hentry
    have hmem := List.mem_map_of_mem (f := Prod.fst) (hbatches.subset hentry)
    rw [List.zipIdx_map_fst] at hmem
    exact List.mem_map.1 hmem
  obtain ⟨done, rows, hdone, hrows, hstored, -, hall⟩ := @of_importBatches C E target.store run db
    hC total written batches fun entry hentry => by
      obtain ⟨record, -, heq⟩ := hentries entry hentry
      rw [← heq]
      rfl
  have hrowIds : rows.map (·.record.recordId) = done.map (·.1.recordId) :=
    RowByRow.map_eq (fun _ _ hrow => hrow.recordId) hstored
  have hdoneIds : (done.map (·.1.recordId)).Nodup := by
    have hsub := ((hdone.trans hbatches).map Prod.fst).map ImportEntry.recordId
    rw [List.zipIdx_map_fst, List.map_map, List.map_map] at hsub
    have hmissing : ((missingRecords data db).map (·.id)).Nodup :=
      hids.sublist (List.filter_sublist.map _)
    exact hmissing.sublist hsub.sublist
  refine ⟨⟨?_, ?_⟩, ?_, fun hok entry hentry => ?_⟩
  · rw [hrows, List.map_append, List.nodup_append]
    refine ⟨h.once, hrowIds ▸ hdoneIds, fun a ha b hb heq => ?_⟩
    rw [hrowIds] at hb
    obtain ⟨entry, hentry, rfl⟩ := List.mem_map.1 hb
    obtain ⟨record, hrecord, hrestore⟩ := hentries entry (hdone.subset hentry)
    obtain ⟨row, hrow, rfl⟩ := List.mem_map.1 ha
    have hnone := rowsOf_of_missing (List.mem_filter.1 hrecord).2
    have hof : row ∈ db.rowsOf record.id := by
      refine List.mem_filter.2 ⟨hrow, decide_eq_true (heq.trans ?_)⟩
      rw [← hrestore]
      rfl
    rw [hnone] at hof
    cases hof
  · intro row hrow
    rw [hrows] at hrow
    rcases List.mem_append.1 hrow with hrow | hrow
    · exact h.stored row hrow
    · obtain ⟨entry, hentry, hrowStored⟩ := RowByRow.exists_left hstored hrow
      obtain ⟨record, hrecord, hrestore⟩ := hentries entry (hdone.subset hentry)
      exact ⟨record, (List.mem_filter.1 hrecord).1, hrestore ▸ hrowStored⟩
  · rw [hrows]
    exact List.subset_append_left _ _
  · rw [← hall hok] at hentry
    obtain ⟨row, hrow, hrowStored⟩ := RowByRow.exists_right hstored hentry
    refine ⟨row, ?_, hrowStored.recordId⟩
    rw [hrows]
    exact List.mem_append_right _ hrow

theorem RestoreInv.start : RestoreInv C E target data target.db := by
  refine ⟨?_, ?_⟩
  · rw [target.records]
    exact List.nodup_nil
  · rw [target.records]
    intro row hrow
    cases hrow

theorem RestoreInv.step (hC : C.Correct) (hids : (data.records.map (·.id)).Nodup) {db' : LocalDb}
    (h : RestoreInv C E target data db) (hstep : RestoreStep C E target data db db') :
    RestoreInv C E target data db' := by
  obtain ⟨run, count, -, rfl⟩ := hstep
  refine (h.importBatches hC hids ?_).1
  rw [← @flatten_importBatchesOf C E target data db run hids h]
  exact (List.take_prefix count _).flatten

/-- What a restore needs to come to its end. -/
theorem writable_restore (hids : (data.records.map (·.id)).Nodup) (hfresh : run.Fresh db)
    (hfits : ∀ record ∈ data.records, recordPayloadBytes (recordPayloadJson E.toJsonText
      (importRecordData record)) ≤ maxRecordPayloadBytes) :
    Writable E target.store run db
      ((missingRecords data db).map (restoreEntry target.vaultId)).zipIdx := by
  have hentries : ∀ entry ∈ ((missingRecords data db).map (restoreEntry target.vaultId)).zipIdx,
      ∃ record ∈ missingRecords data db, restoreEntry target.vaultId record = entry.1 := by
    intro entry hentry
    have hmem := List.mem_map_of_mem (f := Prod.fst) hentry
    rw [List.zipIdx_map_fst] at hmem
    exact List.mem_map.1 hmem
  refine ⟨?_, ?_, ?_, ?_, ?_, ?_, fun entry _ => hfresh.new entry.2⟩
  · intro entry hentry
    obtain ⟨record, -, heq⟩ := hentries entry hentry
    rw [← heq]
    rfl
  · intro entry hentry
    obtain ⟨record, -, heq⟩ := hentries entry hentry
    rw [← heq]
    exact target.holds
  · intro entry hentry
    obtain ⟨record, hrecord, heq⟩ := hentries entry hentry
    rw [← heq]
    exact hfits record (List.mem_filter.1 hrecord).1
  · have hall : ((missingRecords data db).map (restoreEntry target.vaultId)).zipIdx.map
        (·.1.recordId) = (missingRecords data db).map (·.id) := by
      have hfst := congrArg (List.map ImportEntry.recordId) (List.zipIdx_map_fst 0
        ((missingRecords data db).map (restoreEntry target.vaultId)))
      rw [List.map_map, List.map_map] at hfst
      exact hfst
    rw [hall]
    exact hids.sublist (List.filter_sublist.map _)
  · intro entry hentry
    obtain ⟨record, hrecord, heq⟩ := hentries entry hentry
    rw [← heq]
    exact rowsOf_of_missing (List.mem_filter.1 hrecord).2
  · have hdraws : ((missingRecords data db).map (restoreEntry target.vaultId)).zipIdx.map
        (fun entry => run.changeId entry.2) =
          (List.range' 0 ((missingRecords data db).map (restoreEntry target.vaultId)).length).map
            run.changeId := by
      rw [← List.zipIdx_map_snd, List.map_map]
      rfl
    rw [hdraws]
    exact List.Nodup.map hfresh.injective List.nodup_range'

/-- **A run of a restore that comes to its end** leaves every record of the file. -/
theorem of_importExportData (hC : C.Correct) (hids : (data.records.map (·.id)).Nodup)
    (h : RestoreInv C E target data db) {db' : LocalDb} {result : ImportResult}
    (hrun : importExportData C E target.store run (restoreOptions target.vaultId) data db =
      (db', .ok result)) :
    RestoreInv C E target data db' ∧
      ∀ record ∈ data.records, ∃ row ∈ db'.records, row.record.recordId = record.id := by
  unfold importExportData at hrun
  dsimp only at hrun
  obtain ⟨rfl, hresult⟩ := Prod.mk.inj hrun
  have hflatten := @flatten_importBatchesOf C E target data db run hids h
  have hbatches : (importBatchesOf C E target.store run (restoreOptions target.vaultId) data
      db).flatten <+: ((missingRecords data db).map (restoreEntry target.vaultId)).zipIdx := by
    rw [hflatten]
  obtain ⟨hinv, hsub, hall⟩ := h.importBatches hC hids hbatches
  refine ⟨hinv, fun record hrecord => ?_⟩
  by_cases hmissing : (getRecordHeads db record.id).isNone = true
  · have hentry : restoreEntry target.vaultId record ∈
        (missingRecords data db).map (restoreEntry target.vaultId) :=
      List.mem_map_of_mem (List.mem_filter.2 ⟨hrecord, hmissing⟩)
    obtain ⟨i, hi⟩ := List.getElem?_of_mem hentry
    have hzip : (restoreEntry target.vaultId record, i) ∈
        ((missingRecords data db).map (restoreEntry target.vaultId)).zipIdx :=
      List.mk_mem_zipIdx_iff_getElem?.2 hi
    rw [← hflatten] at hzip
    refine hall ?_ _ hzip
    cases houtcome : (importBatches C E target.store run _ 0 _ db).2 with
    | ok _ => rfl
    | error e =>
        rw [houtcome] at hresult
        cases hresult
  · obtain ⟨head, hhead⟩ := Option.ne_none_iff_exists'.1
      fun hnone => hmissing (Option.isNone_iff_eq_none.2 hnone)
    obtain ⟨row, hrow, -⟩ := Option.map_eq_some_iff.1 hhead
    have hmem := List.mem_filter.1 (List.argmax_mem hrow)
    exact ⟨row, hsub hmem.1, of_decide_eq_true hmem.2⟩

/-- A run of a restore comes to its end when no record is too large. -/
theorem importExportData_ok (hC : C.Correct) (hids : (data.records.map (·.id)).Nodup)
    (h : RestoreInv C E target data db) (hfresh : run.Fresh db)
    (hfits : ∀ record ∈ data.records, recordPayloadBytes (recordPayloadJson E.toJsonText
      (importRecordData record)) ≤ maxRecordPayloadBytes) :
    ∃ result db', importExportData C E target.store run (restoreOptions target.vaultId) data db =
      (db', .ok result) := by
  have hwritable := @writable_restore E target data db run hids hfresh hfits
  rw [← @flatten_importBatchesOf C E target data db run hids h] at hwritable
  unfold importExportData
  dsimp only
  rw [importBatches_ok hC hwritable]
  exact ⟨_, _, rfl⟩

theorem filter_eq_singleton {α β : Type} [DecidableEq β] {f : α → β} {xs : List α} {x : α}
    (h : (xs.map f).Nodup) (hx : x ∈ xs) : xs.filter (fun a => f a = f x) = [x] := by
  induction xs with
  | nil => cases hx
  | cons a as ih =>
      rw [List.map_cons, List.nodup_cons] at h
      rw [List.filter_cons]
      rcases List.mem_cons.1 hx with rfl | hx
      · rw [if_pos (decide_eq_true rfl)]
        refine congrArg (x :: ·) (List.filter_eq_nil_iff.2 fun b hb heq => h.1 ?_)
        rw [← of_decide_eq_true heq]
        exact List.mem_map_of_mem hb
      · have hne : f a ≠ f x := fun heq => h.1 (heq ▸ List.mem_map_of_mem hx)
        rw [if_neg (by simpa using hne), ih h.2 hx]

/-- A record that is there is stored as the file has it. -/
theorem RestoreInv.stored_of_id (hids : (data.records.map (·.id)).Nodup)
    (h : RestoreInv C E target data db) {record : ExportRecord} (hrecord : record ∈ data.records)
    {row : LocalRow} (hrow : row ∈ db.records) (hid : row.record.recordId = record.id) :
    StoredAs C E target.store (restoreEntry target.vaultId record) row := by
  obtain ⟨other, hother, hstored⟩ := h.stored row hrow
  have hsame : other.id = record.id := hstored.recordId.symm.trans hid
  obtain rfl := List.inj_on_of_nodup_map hids hother hrecord hsame
  exact hstored

end Restore

/-! ### The records of a backup -/

section Backup

variable {C : Ciphers Text} {J : MetaJson} {E : ExportEnv} {p : UnlockedProfile C E}

theorem payload_of_live {latest : LatestRecord} (h : latest ∈ getAllLatest p.db) :
    decryptPayload C E p.store latest.row = some (p.payload E latest) := by
  obtain ⟨payload, hpayload⟩ := Option.isSome_iff_exists.1 (p.opens latest h)
  unfold UnlockedProfile.payload
  rw [hpayload]
  rfl

theorem checked_of_live {latest : LatestRecord} (h : latest ∈ getAllLatest p.db) :
    isCurrentVersion (JsObject.get? (p.payload E latest) "schemaVersion") = true ∧
      isRecordType (JsObject.get? (p.payload E latest) "type") = true := by
  have hopens := payload_of_live h
  obtain ⟨json, -, hupgrade⟩ := Option.bind_eq_some_iff.1 hopens
  cases hresult : upgradeRecordPayload json with
  | error e =>
      rw [hresult] at hupgrade
      cases hupgrade
  | ok payload =>
      rw [hresult] at hupgrade
      obtain rfl := Option.some.inj hupgrade
      exact (of_upgradeRecordPayload hresult).2

/-- The records a backup collects, before they are sorted: every live one. -/
theorem records_of_live (p : UnlockedProfile C E) :
    ((getAllLatest p.db).filterMap fun latest =>
      (decryptPayload C E p.store latest.row).map (exportRecord E latest)) =
        (getAllLatest p.db).map fun latest => exportRecord E latest (p.payload E latest) := by
  rw [← List.filterMap_eq_map']
  refine List.filterMap_congr fun latest hlatest => ?_
  rw [payload_of_live hlatest]
  rfl

/-- What a backup collects: every live record. -/
theorem of_collectExportData {now : Text} {collected : CollectedExport}
    (h : collectExportData C J E p.store now p.db = .ok collected) :
    collected.data.records.Perm ((getAllLatest p.db).map fun latest =>
      exportRecord E latest (p.payload E latest)) ∧ collected.skipped = 0 := by
  obtain ⟨sorted, hsorted, h⟩ := bind_eq_ok.mp h
  obtain rfl := Except.ok.inj h
  have hperm := perm_of_sortByTitle hsorted
  rw [records_of_live] at hperm
  refine ⟨hperm, ?_⟩
  dsimp only
  rw [hperm.length_eq, List.length_map, Nat.sub_self]

theorem mem_collected {now : Text} {collected : CollectedExport}
    (h : collectExportData C J E p.store now p.db = .ok collected) {record : ExportRecord} :
    record ∈ collected.data.records ↔
      ∃ latest ∈ getAllLatest p.db, exportRecord E latest (p.payload E latest) = record := by
  rw [(of_collectExportData h).1.mem_iff, List.mem_map]

/-- The records of a file have different ids. -/
theorem nodup_collected {now : Text} {collected : CollectedExport}
    (h : collectExportData C J E p.store now p.db = .ok collected) :
    (collected.data.reread.records.map (·.id)).Nodup := by
  have hperm := (of_collectExportData h).1.map (·.id)
  have hreread : collected.data.reread.records.map (·.id) = collected.data.records.map (·.id) := by
    unfold ExportData.reread
    rw [List.map_map]
    rfl
  rw [hreread, hperm.nodup_iff, List.map_map]
  exact nodup_getAllLatest p.keys

/-- A field of the content of an exported record. -/
theorem get?_exportRecord (latest : LatestRecord) (payload : JsObject) {key : String}
    (h : key ∉ placeKeys) :
    JsObject.get? (exportRecord E latest payload).fields key = JsObject.get? payload key := by
  unfold placeKeys at h
  simp only [List.mem_cons, List.not_mem_nil, or_false, not_or] at h
  obtain ⟨hid, hvaultId, hcreatedAt, hupdatedAt, hversion⟩ := h
  simp [exportRecord, JsObject.get?_set, JsObject.get?_without, hid, hvaultId, hcreatedAt,
    hupdatedAt, hversion]

/-- Reading accepts an exported record when its title is a text. -/
theorem readable_exportRecord {latest : LatestRecord} (h : latest ∈ getAllLatest p.db) :
    (exportRecord E latest (p.payload E latest)).Readable ↔
      (JsObject.text? (p.payload E latest) "title").isSome = true := by
  unfold ExportRecord.Readable JsObject.text?
  rw [get?_exportRecord _ _ (by decide), get?_exportRecord _ _ (by decide)]
  exact and_iff_right (checked_of_live h).2

/-- A file whose records have titles is written. -/
theorem collectExportData_ok {now : Text}
    (h : ∀ latest ∈ getAllLatest p.db,
      (JsObject.text? (p.payload E latest) "title").isSome = true) :
    ∃ collected, collectExportData C J E p.store now p.db = .ok collected := by
  have hreadable : ∀ record ∈ (getAllLatest p.db).map (fun latest =>
      exportRecord E latest (p.payload E latest)), record.Readable := by
    intro record hrecord
    obtain ⟨latest, hlatest, rfl⟩ := List.mem_map.1 hrecord
    exact (readable_exportRecord hlatest).2 (h latest hlatest)
  obtain ⟨sorted, hsorted⟩ := @sortByTitle_ok E _ hreadable
  rw [← records_of_live] at hsorted
  exact ⟨_, bind_eq_ok.mpr ⟨sorted, hsorted, rfl⟩⟩

theorem exportFile_ok {data : ExportData} {format : ExportFormat} {password : Text}
    (h : format.Usable password) : ∃ file, exportFile C E data format password = .ok file := by
  cases format with
  | json => exact ⟨_, rfl⟩
  | encrypted nonce kdf =>
      refine ⟨encryptExport C E nonce kdf data password, ?_⟩
      unfold exportFile
      dsimp only
      rw [if_neg h.1]

/-- **A row a live record was restored as opens to its payload**, read back and dated. -/
theorem opens_of_stored {store : SecretsStore} {vaultId : VaultId} {row : LocalRow}
    {latest : LatestRecord} (h : latest ∈ getAllLatest p.db)
    (hreads : E.Rereads (.object (JsObject.set
      (restoredData (p.payload E latest) (latest.createdText E)) "schemaVersion"
      (.number currentSchemaVersion))))
    (hstored : StoredAs C E store
      (restoreEntry vaultId (exportRecord E latest (p.payload E latest)).reread) row) :
    decryptPayload C E store row.record = some (Json.rereadFields (JsObject.set
      (restoredData (p.payload E latest) (latest.createdText E)) "schemaVersion"
      (.number currentSchemaVersion))) := by
  have hopens := hstored.opens
  unfold restoreEntry recordPayloadJson at hopens
  rw [importRecordData_reread] at hopens
  have htype : isRecordType (JsObject.get? (Json.rereadFields (JsObject.set
      (restoredData (p.payload E latest) (latest.createdText E)) "schemaVersion"
      (.number currentSchemaVersion))) "type") = true := by
    have hkept : JsObject.get? (restoredData (p.payload E latest) (latest.createdText E)) "type" =
        JsObject.get? (Json.rereadFields (JsObject.without (p.payload E latest) placeKeys))
          "type" :=
      get?_dated_of_ne _ _ (by decide)
    rw [isRecordType_rereadFields, JsObject.get?_set, if_neg (by decide), hkept,
      isRecordType_rereadFields, JsObject.get?_without, if_neg (by decide)]
    exact (checked_of_live h).2
  have hversion : isCurrentVersion (JsObject.get? (Json.rereadFields (JsObject.set
      (restoredData (p.payload E latest) (latest.createdText E)) "schemaVersion"
      (.number currentSchemaVersion))) "schemaVersion") = true := by
    rw [get?_rereadFields, JsObject.get?_set, if_pos rfl]
    rfl
  have hread := hreads.compact
  rw [Json.reread] at hread
  unfold decryptPayload openPayload
  rw [hopens]
  show (E.parse _).bind _ = _
  rw [hread]
  simp [upgradeRecordPayload, hversion, htype, Except.toOption]

/-! ### When a backup restores everything -/

/-- A record of the file as it is read back. -/
theorem mem_reread {now : Text} {collected : CollectedExport}
    (h : collectExportData C J E p.store now p.db = .ok collected) {record : ExportRecord} :
    record ∈ collected.data.reread.records ↔
      ∃ latest ∈ getAllLatest p.db,
        (exportRecord E latest (p.payload E latest)).reread = record := by
  unfold ExportData.reread
  rw [List.mem_map]
  constructor
  · rintro ⟨written, hwritten, rfl⟩
    obtain ⟨latest, hlatest, rfl⟩ := (mem_collected h).1 hwritten
    exact ⟨latest, hlatest, rfl⟩
  · rintro ⟨latest, hlatest, rfl⟩
    exact ⟨_, (mem_collected h).2 ⟨latest, hlatest, rfl⟩, rfl⟩

/-- **A live record that a complete restore wrote has come back.** -/
theorem isRestored_of_stored {target : RestoreTarget} {data : ExportData} {db : LocalDb}
    (hinv : RestoreInv C E target data db) {row : LocalRow} (hrow : row ∈ db.records)
    {latest : LatestRecord} (h : latest ∈ getAllLatest p.db)
    (hreads : E.Rereads (.object (JsObject.set
      (restoredData (p.payload E latest) (latest.createdText E)) "schemaVersion"
      (.number currentSchemaVersion))))
    (hrestorable : Restorable E (p.payload E latest) (latest.createdText E))
    (hstored : StoredAs C E target.store
      (restoreEntry target.vaultId (exportRecord E latest (p.payload E latest)).reread) row) :
    IsRestored C E target db latest.row.recordId
      (dated (p.payload E latest) (latest.createdText E)) := by
  refine ⟨row, ?_, hstored.live, hstored.vault, _, opens_of_stored h hreads hstored, ?_⟩
  · have hid : row.record.recordId = latest.row.recordId := hstored.recordId
    unfold LocalDb.rowsOf
    rw [← hid]
    exact filter_eq_singleton (f := fun row : LocalRow => row.record.recordId) hinv.once hrow
  · exact get?_restored (checked_of_live h).1 hrestorable.own hrestorable.finite

/-- **A record that has come back is one that can**: its fields, and the size it was written in. -/
theorem restorable_of_stored {store : SecretsStore} {vaultId : VaultId} {row : LocalRow}
    {latest : LatestRecord} (h : latest ∈ getAllLatest p.db)
    (htitle : (JsObject.text? (p.payload E latest) "title").isSome = true)
    (hreads : E.Rereads (.object (JsObject.set
      (restoredData (p.payload E latest) (latest.createdText E)) "schemaVersion"
      (.number currentSchemaVersion))))
    (hstored : StoredAs C E store
      (restoreEntry vaultId (exportRecord E latest (p.payload E latest)).reread) row)
    {restored : JsObject} (hopens : decryptPayload C E store row.record = some restored)
    (hsame : ∀ key, JsObject.get? restored key =
      JsObject.get? (dated (p.payload E latest) (latest.createdText E)) key) :
    Restorable E (p.payload E latest) (latest.createdText E) := by
  rw [opens_of_stored h hreads hstored] at hopens
  obtain rfl := Option.some.inj hopens
  refine ⟨htitle, fun key hkey => ?_, fun key value hvalue => ?_, ?_⟩
  · -- a field of that name is dropped when the record is read
    have hne : key ≠ "passwordChangedAt" ∧ key ≠ "schemaVersion" ∧ key ∈ placeKeys := by
      revert key
      decide
    rw [← get?_dated_of_ne _ (latest.createdText E) hne.1, ← hsame, get?_rereadFields,
      JsObject.get?_set, if_neg hne.2.1]
    unfold restoredData
    rw [get?_dated_of_ne _ _ hne.1, get?_rereadFields, JsObject.get?_without, if_pos hne.2.2]
    rfl
  · -- what comes back was read back, and would be again
    rw [← hsame, get?_rereadFields] at hvalue
    obtain ⟨written, -, rfl⟩ := Option.map_eq_some_iff.1 hvalue
    exact reread_reread written
  · have hfits := hstored.fits
    unfold restoreEntry at hfits
    rwa [importRecordData_reread] at hfits

/-- A new local vault, whose key is in memory. -/
def newLocalVault : RestoreTarget where
  db := ⟨[], [], [], [], [], [], none⟩
  store :=
    { SecretsStore.empty with
      vaultKeys := fun _ => some []
      currentKeyVersions := fun _ => some 1 }
  vaultId := 1
  records := rfl
  outbox := rfl
  holds := ⟨1, [], rfl, rfl⟩

/-- A run of which every draw is new. -/
def countingRun : ImportRun where
  now := 0
  newId i := i
  nonce _ := []
  changeId i := i

theorem countingRun_fresh : countingRun.Fresh newLocalVault.db :=
  ⟨fun _ _ h => h, fun _ h => by cases h⟩

/-- The file of a backup is read as the document it was written from. -/
theorem openExportFile_collected (hC : C.Correct) {now : Text} {format : ExportFormat}
    {password : Text} (husable : format.Usable password)
    (hE : ∀ value, Written C J E p now format password value → E.Rereads value)
    {collected : CollectedExport}
    (hcollected : collectExportData C J E p.store now p.db = .ok collected) {file : Text}
    (hfile : exportFile C E collected.data format password = .ok file) :
    openExportFile C E file password = parseExportData collected.data.toJson.reread :=
  openExportFile_exportFile hC husable (hE _ (.document hcollected))
    (fun _ henvelope => hE _ (.envelope hcollected henvelope)) hfile

/-- **A backup that restores everything** is one of records that can come back. -/
theorem restorable_of_backupRestores (hC : C.Correct) {now : Text} {format : ExportFormat}
    {password : Text} (husable : format.Usable password)
    (hE : ∀ value, Written C J E p now format password value → E.Rereads value)
    (h : BackupRestores C J E p now format password) {latest : LatestRecord}
    (hlatest : latest ∈ getAllLatest p.db) :
    Restorable E (p.payload E latest) (latest.createdText E) := by
  obtain ⟨collected, file, data, hcollected, -, hfile, hopen, hrestores⟩ := h
  rw [openExportFile_collected hC husable hE hcollected hfile] at hopen
  unfold parseExportData at hopen
  cases hread : exportDataSchema collected.data.toJson.reread with
  | none =>
      rw [hread] at hopen
      cases hopen
  | some read =>
      have hreadable := readable_of_exportDataSchema hread
      have hdata : data = collected.data.reread := by
        rw [exportDataSchema_toJson hreadable] at hopen
        exact (Except.ok.inj hopen).symm
      subst hdata
      -- one run into a new vault has the record come back
      obtain ⟨result, db', hrun, hall, -⟩ := hrestores newLocalVault _ .refl countingRun
        countingRun_fresh
      obtain ⟨row, hrow, -, -, restored, hopens, hsame⟩ := hall latest hlatest
      have hids := nodup_collected hcollected
      obtain ⟨hinv, -⟩ := of_importExportData hC hids .start hrun
      have hmem : row ∈ db'.rowsOf latest.row.recordId := hrow ▸ List.mem_singleton_self row
      obtain ⟨hrowMem, hid⟩ := List.mem_filter.1 hmem
      have hstored := hinv.stored_of_id hids
        ((mem_reread hcollected).2 ⟨latest, hlatest, rfl⟩) hrowMem (of_decide_eq_true hid)
      exact restorable_of_stored hlatest
        ((readable_exportRecord hlatest).1
          (hreadable _ ((mem_collected hcollected).2 ⟨latest, hlatest, rfl⟩)))
        (hE _ (.payload hlatest)) hstored hopens hsame

/-- **A backup of records that can come back** restores everything, over any number of runs. -/
theorem backupRestores_of_restorable (hC : C.Correct) {now : Text} {format : ExportFormat}
    {password : Text} (husable : format.Usable password)
    (hE : ∀ value, Written C J E p now format password value → E.Rereads value)
    (hrestorable : ∀ latest ∈ getAllLatest p.db,
      Restorable E (p.payload E latest) (latest.createdText E)) :
    BackupRestores C J E p now format password := by
  obtain ⟨collected, hcollected⟩ := @collectExportData_ok C J E p now
    fun latest hlatest => (hrestorable latest hlatest).title
  obtain ⟨file, hfile⟩ := @exportFile_ok C E collected.data format password husable
  have hids := nodup_collected hcollected
  have hreadable : ∀ record ∈ collected.data.records, record.Readable := by
    intro record hrecord
    obtain ⟨latest, hlatest, rfl⟩ := (mem_collected hcollected).1 hrecord
    exact (readable_exportRecord hlatest).2 (hrestorable latest hlatest).title
  have hfits : ∀ record ∈ collected.data.reread.records, recordPayloadBytes
      (recordPayloadJson E.toJsonText (importRecordData record)) ≤ maxRecordPayloadBytes := by
    intro record hrecord
    obtain ⟨latest, hlatest, rfl⟩ := (mem_reread hcollected).1 hrecord
    rw [importRecordData_reread]
    exact (hrestorable latest hlatest).fits
  have hopen : openExportFile C E file password = .ok collected.data.reread := by
    rw [openExportFile_collected hC husable hE hcollected hfile]
    unfold parseExportData
    rw [exportDataSchema_toJson hreadable]
  refine ⟨collected, file, collected.data.reread, hcollected, (of_collectExportData hcollected).2,
    hfile, hopen, fun target db hreach run hfresh => ?_⟩
  have hbefore : RestoreInv C E target collected.data.reread db :=
    Run.invariant (fun _ _ hinv hstep => hinv.step hC hids hstep) hreach .start
  obtain ⟨result, db', hrun⟩ := importExportData_ok hC hids hbefore hfresh hfits
  obtain ⟨hinv, hall⟩ := of_importExportData hC hids hbefore hrun
  refine ⟨result, db', hrun, fun latest hlatest => ?_, fun row hrow => ?_⟩
  · have hrecord := (mem_reread hcollected).2 ⟨latest, hlatest, rfl⟩
    obtain ⟨row, hrow, hid⟩ := hall _ hrecord
    exact isRestored_of_stored hinv hrow hlatest (hE _ (.payload hlatest))
      (hrestorable latest hlatest) (hinv.stored_of_id hids hrecord hrow hid)
  · obtain ⟨record, hrecord, hstored⟩ := hinv.stored row hrow
    obtain ⟨latest, hlatest, rfl⟩ := (mem_reread hcollected).1 hrecord
    exact ⟨latest, hlatest, hstored.recordId⟩

end Backup

/-- **When a backup restores everything**: every live record has a title that is a text, no field of
a name the file needs for itself and no number out of the range of JSON, and is not too large with
its date. -/
theorem backup_restores_iff {C : Ciphers Text} {J : MetaJson} {E : ExportEnv} (hC : C.Correct)
    (p : UnlockedProfile C E) (now : Text) (format : ExportFormat) (password : Text)
    (husable : format.Usable password)
    (hE : ∀ value, Written C J E p now format password value → E.Rereads value) :
    BackupRestores C J E p now format password ↔
      ∀ latest ∈ getAllLatest p.db,
        Restorable E (p.payload E latest) (latest.createdText E) :=
  ⟨fun h _ hlatest => restorable_of_backupRestores hC husable hE h hlatest,
    backupRestores_of_restorable hC husable hE⟩

/-! ### A backup of one note, and one of untitled records -/

open IdealCipher (wordCiphers wordCiphers_ideal)

/-- A line break of a text that is indented. -/
def jsonBreak (indent : Bool) (depth : ℕ) : Text :=
  if indent then '\n' :: List.replicate (2 * depth) ' ' else []

/-- A string of a JSON text; the texts here need no escapes. -/
def quoted (text : Text) : Text := '"' :: text ++ ['"']

mutual

/-- The JSON text of a value, compact or indented; its numbers are natural ones. -/
def jsonText (indent : Bool) (depth : ℕ) : Json → Text
  | .null => "null".toList
  | .bool value => (if value then "true" else "false").toList
  | .number (.fin value) => Nat.toDigits 10 value.num.toNat
  | .number _ => "null".toList
  | .string text => quoted text
  | .array [] => "[]".toList
  | .array (item :: items) => '[' :: jsonBreak indent (depth + 1) ++
      jsonText indent (depth + 1) item ++ itemsText indent (depth + 1) items ++
      jsonBreak indent depth ++ [']']
  | .object [] => "\x7b\x7d".toList
  | .object ((key, value) :: fields) => "\x7b".toList ++ jsonBreak indent (depth + 1) ++
      quoted key.toList ++ (if indent then ": " else ":").toList ++
      jsonText indent (depth + 1) value ++ fieldsText indent (depth + 1) fields ++
      jsonBreak indent depth ++ "\x7d".toList

def itemsText (indent : Bool) (depth : ℕ) : List Json → Text
  | [] => []
  | item :: items => ',' :: jsonBreak indent depth ++ jsonText indent depth item ++
      itemsText indent depth items

def fieldsText (indent : Bool) (depth : ℕ) : List (String × Json) → Text
  | [] => []
  | (key, value) :: fields => ',' :: jsonBreak indent depth ++ quoted key.toList ++
      (if indent then ": " else ":").toList ++ jsonText indent depth value ++
      fieldsText indent depth fields

end

/-- The payload of a note. -/
def exportedNote : JsObject :=
  [("type", .string "note".toList), ("title", .string ['a']),
    ("schemaVersion", .number currentSchemaVersion)]

/-- The payload of a note without a title. -/
def untitledNote : JsObject :=
  [("type", .string "note".toList), ("schemaVersion", .number currentSchemaVersion)]

/-- The document a backup of the note is. -/
def noteDocument : Json :=
  .object [("format", .string exportFormat), ("version", .number exportFormatVersion),
    ("exportedAt", .string ['9']), ("recordSchemaVersion", .number currentSchemaVersion),
    ("vaults", .array [.object [("id", .string (uuidText 1)), ("name", .string "Personal".toList),
      ("kind", .string VaultKind.personal.text)]]),
    ("records", .array [.object [("type", .string "note".toList), ("title", .string ['a']),
      ("id", .string (uuidText 7)), ("vaultId", .string (uuidText 1)),
      ("createdAt", .string ['5']), ("updatedAt", .string ['5'])]])]

/-- The environment of a backup of the notes: their texts and that of the document are parsed. -/
def noteEnv : ExportEnv where
  stringify := jsonText false 0
  stringifyIndented := jsonText true 0
  parse text :=
    [.object exportedNote, .object untitledNote, noteDocument].find? fun value =>
      text = jsonText false 0 value || text = jsonText true 0 value
  localeCompare a b := if a = b then 0 else if a < b then -1 else 1
  toText
    | none => some "undefined".toList
    | some value => value.text?
  timeText time := Nat.toDigits 10 time
  derive password kdf := kdf.salt ++ password

theorem rereads_note : noteEnv.Rereads (.object exportedNote) := ⟨by rfl, by rfl⟩

theorem rereads_document : noteEnv.Rereads noteDocument := by
  have hread : ∀ text, text = jsonText false 0 noteDocument ∨ text = jsonText true 0 noteDocument →
      noteEnv.parse text = some noteDocument.reread := by
    intro text htext
    unfold noteEnv
    dsimp only
    rw [List.find?_cons_of_neg, List.find?_cons_of_neg, List.find?_cons_of_pos]
    · rfl
    · rcases htext with rfl | rfl <;> simp
    · rcases htext with rfl | rfl <;> decide +kernel
    · rcases htext with rfl | rfl <;> decide +kernel
  exact ⟨hread _ (Or.inl rfl), hread _ (Or.inr rfl)⟩

/-- The personal vault. -/
def personalVault : MemberVault where
  vaultId := 1
  keyVersion := 1
  wrap := (wrapVaultKey wordCiphers ['w'] ['a'] ['p'] 1 1).wrap
  role := .owner
  kind := .personal
  encryptedMeta := []
  metaEncryptionNonce := []
  previousKeys := []

/-- A record of the personal vault. -/
def personalRow (recordId : RecordId) (payload : JsObject) : LocalRow where
  record := {
    recordId := recordId
    vaultId := 1
    content := ⟨(encryptRecordData wordCiphers ['n'] ['p'] ⟨recordId, 1, 1⟩
      (noteEnv.stringify (.object payload))).1, ['n'], 1, 1⟩
    version := 1
    clientUpdatedAt := 5
    createdAt := some 5
    updatedAt := some 5
    deletedAt := none
    tombstoneKind := none }
  syncState := .synced

/-- A profile with some records in its personal vault. -/
def exportedDb (rows : List LocalRow) : LocalDb where
  records := rows
  outbox := []
  vaults := [personalVault]
  syncCursors := []
  revokedVaults := []
  revokedRecords := []
  profile := none

/-- The unlocked keys of the profile. -/
def exportedStore : SecretsStore :=
  { SecretsStore.empty with
    accountKey := some ['a']
    vaultKeys := fun id => if id = vaultKeyId 1 1 then some ['p'] else none
    currentKeyVersions := fun vaultId => if vaultId = 1 then some 1 else none }

theorem payload_personalRow (recordId : RecordId) {payload : JsObject}
    (hparse : noteEnv.parse (noteEnv.stringify (.object payload)) = some (.object payload))
    (hupgrade : upgradeRecordPayload (.object payload) = .ok payload) :
    decryptPayload wordCiphers noteEnv exportedStore (personalRow recordId payload).record =
      some payload := by
  have hopens : exportedStore.decryptRecord wordCiphers (personalRow recordId payload).record =
      .ok (noteEnv.stringify (.object payload)) := by
    have hkey : exportedStore.vaultKey 1 1 = .ok ['p'] := by decide +kernel
    refine bind_eq_ok.mpr ⟨['p'], hkey, ?_⟩
    rw [SecretsStore.opened_eq_ok]
    exact decryptRecordData_encryptRecordData wordCiphers_ideal.toCorrect ['n'] ['p']
      ⟨recordId, 1, 1⟩ _
  unfold decryptPayload openPayload
  rw [hopens]
  show (noteEnv.parse _).bind _ = _
  rw [hparse]
  simp [hupgrade, Except.toOption]
theorem live_note : getAllLatest (exportedDb [personalRow 7 exportedNote]) =
    [⟨(personalRow 7 exportedNote).record, some 5⟩] := by
  decide +kernel

theorem payload_exportedNote : decryptPayload wordCiphers noteEnv exportedStore
    (personalRow 7 exportedNote).record = some exportedNote :=
  payload_personalRow 7 rereads_note.compact rfl

/-- An unlocked profile with one note. -/
def noteProfile : UnlockedProfile wordCiphers noteEnv where
  db := exportedDb [personalRow 7 exportedNote]
  store := exportedStore
  keys := by decide +kernel
  opens := by
    rw [live_note]
    intro latest hlatest
    rw [List.mem_singleton.1 hlatest, payload_exportedNote]
    rfl


/-- The note as it is backed up. -/
def latestNote : LatestRecord := ⟨(personalRow 7 exportedNote).record, some 5⟩

theorem payload_latestNote : noteProfile.payload noteEnv latestNote = exportedNote := by
  unfold UnlockedProfile.payload
  exact congrArg (·.getD []) payload_exportedNote

theorem restorable_note : Restorable noteEnv exportedNote (latestNote.createdText noteEnv) where
  title := rfl
  own := by decide
  finite key value hvalue := by
    have hdated : dated exportedNote (latestNote.createdText noteEnv) = exportedNote := by rfl
    rw [hdated] at hvalue
    have hreread := get?_rereadFields exportedNote key
    have hsame : Json.rereadFields exportedNote = exportedNote := by rfl
    rw [hsame, hvalue] at hreread
    exact (Option.some.inj hreread).symm
  fits := by decide +kernel

theorem document_noteProfile {collected : CollectedExport}
    (h : collectExportData wordCiphers nameJson noteEnv noteProfile.store ['9'] noteProfile.db =
      .ok collected) : collected.data.toJson = noteDocument := by
  have hrecords := (of_collectExportData h).1
  have hlive : getAllLatest noteProfile.db = [latestNote] := live_note
  rw [hlive, List.map_singleton, payload_latestNote, List.perm_singleton] at hrecords
  have hvault : exportVault wordCiphers nameJson exportedStore personalVault =
      ⟨1, "Personal".toList, .personal⟩ := by decide +kernel
  obtain ⟨sorted, -, h⟩ := bind_eq_ok.mp h
  obtain rfl := Except.ok.inj h
  dsimp only [buildExportData] at hrecords ⊢
  rw [hrecords]
  unfold ExportData.toJson
  show Json.object _ = Json.object _
  have hvaults : noteProfile.db.vaults = [personalVault] := rfl
  have hstore : noteProfile.store = exportedStore := rfl
  dsimp only
  rw [hvaults, hstore, List.map_singleton, hvault]
  rfl

/-- A backup of the note restores everything. -/
theorem backup_restores_note :
    BackupRestores wordCiphers nameJson noteEnv noteProfile ['9'] .json [] := by
  refine (backup_restores_iff wordCiphers_ideal.toCorrect noteProfile ['9'] .json [] trivial
    fun value hvalue => ?_).2 fun latest hlatest => ?_
  · cases hvalue with
    | document h => exact document_noteProfile h ▸ rereads_document
    | envelope h henvelope => cases henvelope
    | payload hlatest =>
        rw [show getAllLatest noteProfile.db = [latestNote] from live_note] at hlatest
        obtain rfl := List.mem_singleton.1 hlatest
        rw [payload_latestNote]
        exact rereads_note
  · rw [show getAllLatest noteProfile.db = [latestNote] from live_note] at hlatest
    obtain rfl := List.mem_singleton.1 hlatest
    rw [payload_latestNote]
    exact restorable_note

/-- The rows of two notes without titles and of one with a title. -/
def untitledRows : List LocalRow :=
  [personalRow 5 untitledNote, personalRow 6 untitledNote, personalRow 7 exportedNote]

theorem live_untitled : getAllLatest (exportedDb untitledRows) =
    untitledRows.map fun row => ⟨row.record, some 5⟩ := by
  decide +kernel

theorem payload_untitledNote (recordId : RecordId) :
    decryptPayload wordCiphers noteEnv exportedStore (personalRow recordId untitledNote).record =
      some untitledNote :=
  payload_personalRow recordId (by rfl) rfl

/-- An unlocked profile with two notes without titles. -/
def untitledProfile : UnlockedProfile wordCiphers noteEnv where
  db := exportedDb untitledRows
  store := exportedStore
  keys := by decide +kernel
  opens := by
    rw [live_untitled]
    simp [untitledRows, payload_untitledNote, payload_exportedNote]

/-- **Notes without titles keep the others from being backed up**: the titles of the records are
compared, and none of the file is written. -/
theorem untitled_not_backed_up :
    ¬ BackupRestores wordCiphers nameJson noteEnv untitledProfile ['9'] .json [] := by
  rintro ⟨collected, -, -, hcollected, -⟩
  have hrecords : ((getAllLatest untitledProfile.db).filterMap fun latest =>
      (decryptPayload wordCiphers noteEnv untitledProfile.store latest.row).map
        (exportRecord noteEnv latest)) =
      [exportRecord noteEnv ⟨(personalRow 5 untitledNote).record, some 5⟩ untitledNote,
        exportRecord noteEnv ⟨(personalRow 6 untitledNote).record, some 5⟩ untitledNote,
        exportRecord noteEnv ⟨(personalRow 7 exportedNote).record, some 5⟩ exportedNote] := by
    show (getAllLatest (exportedDb untitledRows)).filterMap (fun latest =>
      (decryptPayload wordCiphers noteEnv exportedStore latest.row).map
        (exportRecord noteEnv latest)) = _
    rw [live_untitled]
    simp [untitledRows, payload_untitledNote, payload_exportedNote]
  obtain ⟨sorted, hsorted, -⟩ := bind_eq_ok.mp hcollected
  rw [hrecords] at hsorted
  cases hsorted

end Passmgr
