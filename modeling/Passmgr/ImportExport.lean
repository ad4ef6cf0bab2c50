/-
# Reading an export back

`packages/client/src/export/import-export.ts`, with the writes of `RecordRepository`: every record of
a file becomes a new record, or the next version of one on the device, or is skipped; what is to be
written is encrypted under the key of its vault and written in batches, each in one transaction.

Main definitions:

* `importRecordData`, `planImport` — what each record of a file becomes;
* `writeImport`, `importExportData` — a batch, and a run over all of them;
* `restoreOptions` — a restore into a new vault: ids are kept, what is there is skipped.

Main results:

* `planImport_restore` — what a restore writes: the records that are not there yet;
* `of_writeImport`, `writeImport_ok` — the rows of a batch of new records, and when there are any;
* `flatten_batchesOf` — the batches are the entries.
-/

import Passmgr.ExportFile
import Passmgr.OutboxOps
import Passmgr.RowByRow

set_option relaxedAutoImplicit false
set_option autoImplicit false

namespace Passmgr

open IdealCipher (Ciphers)

/-! ### The data of a record -/

/-- Whether a value is truthy. -/
def Json.truthy : Json → Bool
  | .null => false
  | .bool value => value
  | .number .nan => false
  | .number (.inf _) => true
  | .number (.fin value) => value ≠ 0
  | .string value => value ≠ []
  | .array _ => true
  | .object _ => true

/-- `monitoredPassword`: a login's or a Wi-Fi network's password, if set. -/
def monitoredPassword (data : JsObject) : Option Json :=
  if JsObject.text? data "type" = some "login".toList ∨
      JsObject.text? data "type" = some "wifi".toList then
    (JsObject.get? data "password").filter (·.truthy)
  else none

/-- A password without a date. -/
def undatedPassword (data : JsObject) : Bool :=
  (monitoredPassword data).isSome && !(JsObject.get? data "passwordChangedAt").any (·.truthy)

/-- A date that is set. -/
def givenDate (createdAt : Option Text) : Option Text := createdAt.filter (· ≠ [])

/-- The keys of a file's record that are no content. -/
def placeKeys : List String := ["id", "vaultId", "createdAt", "updatedAt", "schemaVersion"]

/-- `importRecordData`: the record's content, without where it lived in the file.  A password the
file doesn't date is as old as the record. -/
def importRecordData (record : ExportRecord) : JsObject :=
  let data := JsObject.without record.fields placeKeys
  match givenDate record.createdAt with
  | some createdAt =>
    if undatedPassword data then JsObject.set data "passwordChangedAt" (.string createdAt) else data
  | none => data

/-! ### The plan -/

/-- `DuplicateStrategy`: what a record becomes whose id is already in the target vault. -/
inductive DuplicateStrategy
  | skip
  | overwrite
  | keepBoth
  deriving DecidableEq, Repr

/-- `ImportOptions`. -/
structure ImportOptions where
  vaultMap : VaultId → Option VaultId
  fallbackVaultId : VaultId
  duplicates : DuplicateStrategy
  keepIds : Bool

/-- The kind of a write of an import. -/
inductive ImportKind
  | create
  | update
  deriving DecidableEq, Repr

/-- `ImportEntry`: one record to write. -/
structure ImportEntry where
  kind : ImportKind
  recordId : RecordId
  vaultId : VaultId
  data : JsObject

/-- What the device holds under a record id. -/
structure LocalHead where
  vaultId : VaultId
  deleted : Bool
  deriving DecidableEq, Repr

/-- The plan so far, with what the device will hold. -/
structure ImportPlan where
  heads : RecordId → Option LocalHead
  entries : List ImportEntry
  skipped : ℕ

/-- An entry of the plan: a file holding the same id twice has a duplicate of the first. -/
def ImportPlan.add (plan : ImportPlan) (entry : ImportEntry) : ImportPlan where
  heads := Function.update plan.heads entry.recordId (some ⟨entry.vaultId, false⟩)
  entries := plan.entries ++ [entry]
  skipped := plan.skipped

/-- One turn of `planImport`, with the id a new record gets. -/
def planRecord (options : ImportOptions) (plan : ImportPlan) (record : ExportRecord × RecordId) :
    ImportPlan :=
  let vaultId := (options.vaultMap record.1.vaultId).getD options.fallbackVaultId
  let data := importRecordData record.1
  let head := plan.heads record.1.id
  let inVault := head.any (·.vaultId = vaultId)
  if inVault ∧ options.duplicates = .overwrite then plan.add ⟨.update, record.1.id, vaultId, data⟩
  else if inVault ∧ options.duplicates = .skip then { plan with skipped := plan.skipped + 1 }
  else
    let keepId := head.isNone && (options.keepIds || vaultId = record.1.vaultId)
    plan.add ⟨.create, if keepId then record.1.id else record.2, vaultId, data⟩

/-- `planImport`: what each record of the file becomes. -/
def planImport (data : ExportData) (existing : RecordId → Option LocalHead)
    (options : ImportOptions) (newId : ℕ → RecordId) : ImportPlan :=
  (data.records.zipIdx.map fun record => (record.1, newId record.2)).foldl (planRecord options)
    ⟨existing, [], 0⟩

/-- `getRecordHeads`: where every record lives and whether its latest version is a tombstone. -/
def getRecordHeads (db : LocalDb) (recordId : RecordId) : Option LocalHead :=
  (getHead recordId db).map fun head => ⟨head.record.vaultId, head.record.deletedAt.isSome⟩

/-! ### Unchanged content -/

mutual

/-- `sameContent`: the same JSON value, object keys in any order. -/
def sameContent : Json → Json → Bool
  | .null, .null => true
  | .bool a, .bool b => a = b
  | .number a, .number b => a ≠ .nan && a = b
  | .string a, .string b => a = b
  | .array a, .array b => a.length = b.length && sameItems a b
  | .object a, .object b => a.length = b.length && sameFields a b
  | _, _ => false

def sameItems : List Json → List Json → Bool
  | a :: as, b :: bs => sameContent a b && sameItems as bs
  | _, _ => true

def sameFields : List (String × Json) → JsObject → Bool
  | [], _ => true
  | (key, a) :: fields, object =>
    (match JsObject.get? object key with
    | some b => sameContent a b
    | none => false) && sameFields fields object

end

section Functions

variable (C : Ciphers Text) (E : ExportEnv)

/-- `holdsSameContent`: a live record already holds the data; one that doesn't open counts as
changed. -/
def holdsSameContent (store : SecretsStore) (db : LocalDb) (entry : ImportEntry) : Bool :=
  match getHead entry.recordId db with
  | none => false
  | some head =>
    head.record.deletedAt.isNone &&
      match decryptPayload C E store head.record with
      | none => false
      | some current =>
        sameContent (.object (JsObject.without current ["schemaVersion", "passwordChangedAt"]))
          (.object (JsObject.without entry.data ["passwordChangedAt"]))

/-! ### Dates of passwords -/

/-- `withPasswordChangedAt`. -/
def withPasswordChangedAt (data : JsObject) (changedAt : Option Json) : JsObject :=
  let rest := JsObject.without data ["passwordChangedAt"]
  match changedAt.filter (·.truthy) with
  | some changedAt => JsObject.set rest "passwordChangedAt" changedAt
  | none => rest

/-- `!==` of two passwords: objects are never the same one. -/
def samePassword : Json → Json → Bool
  | .bool a, .bool b => a = b
  | .number a, .number b => a ≠ .nan && a = b
  | .string a, .string b => a = b
  | _, _ => false

/-- A field that is neither missing nor `null`. -/
def givenField (data : JsObject) (key : String) : Option Json :=
  match JsObject.get? data key with
  | some .null => none
  | value => value

/-- `stampChangedPassword`: the next version keeps the stored date while the password stays. -/
def stampChangedPassword (data : JsObject) (previous : Option JsObject) (changedAt : Option Json) :
    JsObject :=
  match monitoredPassword data with
  | none => withPasswordChangedAt data none
  | some password =>
    match previous with
    | none => withPasswordChangedAt data changedAt
    | some previous =>
      if (monitoredPassword previous).any (samePassword password) then
        withPasswordChangedAt data
          ((givenField previous "passwordChangedAt").or (JsObject.get? data "passwordChangedAt"))
      else withPasswordChangedAt data changedAt

/-! ### Writing -/

/-- The time of a run and the random values it draws for the records of the file and for the
entries it writes. -/
structure ImportRun where
  now : Time
  newId : ℕ → RecordId
  nonce : ℕ → Text
  changeId : ℕ → ChangeId

/-- Why a batch is not written. -/
inductive ImportError
  | encrypt (error : EncryptError)
  | write (error : LocalError)
  deriving DecidableEq, Repr

/-- The data that is written for an entry: the next version of a record keeps the date of its
password. -/
def stampedData (store : SecretsStore) (db : LocalDb) (entry : ImportEntry) : JsObject :=
  match entry.kind, getHead entry.recordId db with
  | .update, some head =>
    stampChangedPassword entry.data (decryptPayload C E store head.record)
      (JsObject.get? entry.data "passwordChangedAt")
  | _, _ => entry.data

/-- The change of an entry, encrypted. -/
def importChange (store : SecretsStore) (run : ImportRun) (db : LocalDb) (entry : ImportEntry × ℕ) :
    Except EncryptError (LocalRecordChange × ChangeId) := do
  let content ← encryptRecord C E.toJsonText store (run.nonce entry.2) entry.1.recordId
    entry.1.vaultId (stampedData C E store db entry.1)
  let ciphertext := ⟨entry.1.recordId, entry.1.vaultId, content, run.now⟩
  match entry.1.kind with
  | .create => return (.create ciphertext, run.changeId entry.2)
  | .update => return (.update ciphertext, run.changeId entry.2)

/-- `writeImport`: a batch, encrypted and written in one transaction. -/
def writeImport (store : SecretsStore) (run : ImportRun) (entries : List (ImportEntry × ℕ))
    (db : LocalDb) : Except ImportError LocalDb :=
  match entries.mapM (importChange C E store run db) with
  | .error e => .error (.encrypt e)
  | .ok changes =>
    match writeLocalChanges run.now db changes with
    | .error e => .error (.write e)
    | .ok db => .ok db

/-- `IMPORT_BATCH_SIZE`. -/
def importBatchSize : ℕ := 100

/-- The slices of a list, in order; the first argument bounds their number. -/
def batchesOf {α : Type} (size : ℕ) : ℕ → List α → List (List α)
  | 0, _ => []
  | _ + 1, [] => []
  | count + 1, xs => xs.take size :: batchesOf size count (xs.drop size)

/-- `ImportStoppedError`: a batch failed, those before it stay written. -/
structure ImportStopped where
  written : ℕ
  total : ℕ
  cause : ImportError
  deriving DecidableEq, Repr

/-- The loop of `importExportData`, of which so many entries are written: the batches that are
written, and what stopped it. -/
def importBatches (store : SecretsStore) (run : ImportRun) (total : ℕ) :
    ℕ → List (List (ImportEntry × ℕ)) → LocalDb → LocalDb × Except ImportStopped Unit
  | _, [], db => (db, .ok ())
  | written, batch :: batches, db =>
    match writeImport C E store run batch db with
    | .error e => (db, .error ⟨written, total, e⟩)
    | .ok db => importBatches store run total (written + batch.length) batches db

/-- `ImportResult`. -/
structure ImportResult where
  created : ℕ
  updated : ℕ
  skipped : ℕ
  deriving DecidableEq, Repr

/-- The entries of a run: those of the plan, less the overwrites that change nothing. -/
def importEntries (store : SecretsStore) (run : ImportRun) (options : ImportOptions)
    (data : ExportData) (db : LocalDb) : List ImportEntry :=
  (planImport data (getRecordHeads db) options run.newId).entries.filter fun entry =>
    !(entry.kind = .update && (getRecordHeads db entry.recordId).any (!·.deleted) &&
      holdsSameContent C E store db entry)

/-- The batches of a run. -/
def importBatchesOf (store : SecretsStore) (run : ImportRun) (options : ImportOptions)
    (data : ExportData) (db : LocalDb) : List (List (ImportEntry × ℕ)) :=
  let entries := (importEntries C E store run options data db).zipIdx
  batchesOf importBatchSize entries.length entries

/-- `importExportData`: a run over all batches.  The database is what was written when it stops. -/
def importExportData (store : SecretsStore) (run : ImportRun) (options : ImportOptions)
    (data : ExportData) (db : LocalDb) : LocalDb × Except ImportStopped ImportResult :=
  let plan := planImport data (getRecordHeads db) options run.newId
  let entries := importEntries C E store run options data db
  let (db, outcome) :=
    importBatches C E store run entries.length 0 (importBatchesOf C E store run options data db) db
  let created := (entries.filter (·.kind = .create)).length
  (db, outcome.map fun _ => {
    created := created
    updated := entries.length - created
    skipped := plan.skipped + (plan.entries.length - entries.length) })

end Functions

/-- The options of a restore: every record goes into the new vault and keeps its id, one that is
there is skipped. -/
def restoreOptions (vaultId : VaultId) : ImportOptions where
  vaultMap _ := none
  fallbackVaultId := vaultId
  duplicates := .skip
  keepIds := true

/-! ### The plan of a restore -/

/-- The new record a restore makes of a record of the file. -/
def restoreEntry (vaultId : VaultId) (record : ExportRecord) : ImportEntry where
  kind := .create
  recordId := record.id
  vaultId := vaultId
  data := importRecordData record

/-- One turn of a restore: a record that is in the vault is skipped, any other keeps its id. -/
theorem planRecord_restore {vaultId : VaultId} {plan : ImportPlan}
    (record : ExportRecord × RecordId)
    (h : ∀ head ∈ plan.heads record.1.id, head.vaultId = vaultId) :
    planRecord (restoreOptions vaultId) plan record =
      if (plan.heads record.1.id).isSome then { plan with skipped := plan.skipped + 1 }
      else plan.add (restoreEntry vaultId record.1) := by
  unfold planRecord restoreOptions
  cases hhead : plan.heads record.1.id with
  | none => simp [restoreEntry, ImportPlan.add]
  | some head => simp [h head hhead]

theorem entries_foldl_restore {vaultId : VaultId} {records : List (ExportRecord × RecordId)}
    (hids : (records.map (·.1.id)).Nodup) {plan : ImportPlan}
    (h : ∀ record ∈ records, ∀ head ∈ plan.heads record.1.id, head.vaultId = vaultId) :
    (records.foldl (planRecord (restoreOptions vaultId)) plan).entries = plan.entries ++
      ((records.map (·.1)).filter fun record => (plan.heads record.id).isNone).map
        (restoreEntry vaultId) := by
  induction records generalizing plan with
  | nil => simp
  | cons record records ih =>
      rw [List.map_cons, List.nodup_cons] at hids
      have hrest : ∀ r ∈ records, ∀ head ∈ plan.heads r.1.id, head.vaultId = vaultId :=
        fun r hr => h r (List.mem_cons_of_mem _ hr)
      rw [List.foldl_cons, planRecord_restore record (h record (List.mem_cons_self ..)),
        List.map_cons, List.filter_cons]
      cases hhead : plan.heads record.1.id with
      | some head =>
          simp only [Option.isSome_some, if_true, Option.isNone_some, Bool.false_eq_true, if_false]
          exact ih hids.2 hrest
      | none =>
          -- the heads of the records that follow are those before
          have hother : ∀ r ∈ records,
              (plan.add (restoreEntry vaultId record.1)).heads r.1.id = plan.heads r.1.id := by
            intro r hr
            refine Function.update_of_ne (fun heq => hids.1 ?_) _ _
            have hid : r.1.id = record.1.id := heq
            rw [← hid]
            exact List.mem_map_of_mem hr
          have hfilter : (records.map (·.1)).filter (fun r =>
              ((plan.add (restoreEntry vaultId record.1)).heads r.id).isNone) =
                (records.map (·.1)).filter fun r => (plan.heads r.id).isNone := by
            refine List.filter_congr fun r hr => ?_
            obtain ⟨r', hr', rfl⟩ := List.mem_map.1 hr
            rw [hother r' hr']
          simp only [Option.isSome_none, Bool.false_eq_true, if_false, Option.isNone_none, if_true]
          rw [ih hids.2 fun r hr head hmem => hrest r hr head (hother r hr ▸ hmem), hfilter]
          simp [ImportPlan.add]

/-- **What a restore writes**: the records of the file that are not there yet, with their ids. -/
theorem planImport_restore {vaultId : VaultId} {data : ExportData} {newId : ℕ → RecordId}
    {existing : RecordId → Option LocalHead} (hids : (data.records.map (·.id)).Nodup)
    (h : ∀ record ∈ data.records, ∀ head ∈ existing record.id, head.vaultId = vaultId) :
    (planImport data existing (restoreOptions vaultId) newId).entries =
      (data.records.filter fun record => (existing record.id).isNone).map
        (restoreEntry vaultId) := by
  have hrecords : (data.records.zipIdx.map fun record => (record.1, newId record.2)).map (·.1) =
      data.records := by
    rw [List.map_map]
    exact List.zipIdx_map_fst 0 data.records
  unfold planImport
  rw [entries_foldl_restore, hrecords, List.nil_append]
  · have hall : (data.records.zipIdx.map fun record => (record.1, newId record.2)).map (·.1.id) =
        data.records.map (·.id) := by
      conv_rhs => rw [← hrecords, List.map_map]
      rfl
    rw [hall]
    exact hids
  · intro record hrecord
    refine h record.1 ?_
    rw [← hrecords]
    exact List.mem_map_of_mem hrecord

/-! ### The batches -/

theorem flatten_batchesOf {α : Type} {size : ℕ} (hsize : 0 < size) {count : ℕ} {xs : List α}
    (h : xs.length ≤ count) : (batchesOf size count xs).flatten = xs := by
  induction count generalizing xs with
  | zero =>
      rw [List.eq_nil_of_length_eq_zero (Nat.le_zero.1 h)]
      rfl
  | succ count ih =>
      cases xs with
      | nil => rfl
      | cons x xs =>
          have hrest : ((x :: xs).drop size).length ≤ count := by
            rw [List.length_drop]
            simp only [List.length_cons] at h ⊢
            omega
          rw [batchesOf, List.flatten_cons, ih hrest, List.take_append_drop]
          exact List.cons_ne_nil x xs

/-! ### The rows of a batch -/

section Writes

variable {C : Ciphers Text} {E : ExportEnv} {store : SecretsStore} {run : ImportRun}
  {db db' : LocalDb}

/-- A row that a new record was written as. -/
structure StoredAs (C : Ciphers Text) (E : ExportEnv) (store : SecretsStore) (entry : ImportEntry)
    (row : LocalRow) : Prop where
  recordId : row.record.recordId = entry.recordId
  vault : row.record.vaultId = entry.vaultId
  live : row.record.deletedAt = none
  opens : store.decryptRecord C row.record = .ok (recordPayloadJson E.toJsonText entry.data)
  fits : recordPayloadBytes (recordPayloadJson E.toJsonText entry.data) ≤ maxRecordPayloadBytes

/-- The change of a new record. -/
theorem of_importChange {entry : ImportEntry × ℕ} {change : LocalRecordChange × ChangeId}
    (hcreate : entry.1.kind = .create) (h : importChange C E store run db entry = .ok change) :
    ∃ content, change = (.create ⟨entry.1.recordId, entry.1.vaultId, content, run.now⟩,
        run.changeId entry.2) ∧
      encryptRecord C E.toJsonText store (run.nonce entry.2) entry.1.recordId entry.1.vaultId
        entry.1.data = .ok content := by
  obtain ⟨content, hcontent, h⟩ := bind_eq_ok.mp h
  unfold stampedData at hcontent
  rw [hcreate] at h hcontent
  exact ⟨content, (Except.ok.inj h).symm, hcontent⟩

theorem outbox_of_insertPending {row written : EncryptedRecord} {now : Time} {changeId : ChangeId}
    (h : insertPending row now changeId db = .ok (db', written)) :
    db'.outbox.map (·.changeId) = db.outbox.map (·.changeId) ++ [changeId] := by
  rw [(of_insertPending h).2.2.2, List.map_append]
  rfl

/-- A new record that is written: its row, and its entry in the outbox. -/
theorem of_write_create {ciphertext : RecordCiphertext} {now : Time} {changeId : ChangeId}
    {written : EncryptedRecord}
    (h : writeLocalChange (.create ciphertext) now changeId db = .ok (db', written)) :
    ∃ row : LocalRow, db'.records = db.records ++ [row] ∧
      db'.outbox.map (·.changeId) = db.outbox.map (·.changeId) ++ [changeId] ∧
      row.record.recordId = ciphertext.recordId ∧ row.record.vaultId = ciphertext.vaultId ∧
      row.record.content = ciphertext.content ∧ row.record.deletedAt = none := by
  cases hhead : getHead ciphertext.recordId db with
  | some head =>
      simp only [writeLocalChange, LocalRecordChange.recordId, hhead] at h
      cases h
  | none =>
      simp only [writeLocalChange, LocalRecordChange.recordId, hhead] at h
      obtain ⟨hwritten, -, hrecords, -⟩ := of_insertPending h
      refine ⟨_, hrecords, outbox_of_insertPending h, ?_⟩
      rw [hwritten]
      exact ⟨rfl, rfl, rfl, rfl⟩

/-- What is written of the changes of some new records. -/
theorem of_write_creates (hC : C.Correct) {entries : List (ImportEntry × ℕ)}
    {changes : List (LocalRecordChange × ChangeId)}
    (hcreate : ∀ entry ∈ entries, entry.1.kind = .create) {start : LocalDb}
    (hchanges : List.Forall₂ (fun entry change => importChange C E store run start entry = .ok change)
      entries changes) (h : writeLocalChanges run.now db changes = .ok db') :
    ∃ rows, db'.records = db.records ++ rows ∧
      List.Forall₂ (fun entry row => StoredAs C E store entry.1 row) entries rows ∧
      db'.outbox.map (·.changeId) =
        db.outbox.map (·.changeId) ++ entries.map fun entry => run.changeId entry.2 := by
  induction hchanges generalizing db with
  | nil =>
      obtain rfl : db = db' := Except.ok.inj h
      exact ⟨[], by simp, .nil, by simp⟩
  | @cons entry change entries changes hchange hrest ih =>
      obtain ⟨content, rfl, hcontent⟩ :=
        of_importChange (hcreate entry (List.mem_cons_self ..)) hchange
      unfold writeLocalChanges at h
      rw [List.foldlM_cons] at h
      obtain ⟨db₁, hfirst, hlast⟩ := bind_eq_ok.mp h
      obtain ⟨out, hwrite, hfirst⟩ := bind_eq_ok.mp hfirst
      obtain rfl : out.1 = db₁ := Except.ok.inj hfirst
      obtain ⟨row, hrecords, houtbox, hid, hvault, hrowContent, hlive⟩ := of_write_create hwrite
      obtain ⟨rows, hrows, hstored, hids⟩ :=
        ih (fun e he => hcreate e (List.mem_cons_of_mem _ he)) hlast
      obtain ⟨hfits, hopens⟩ := of_encryptRecord_payload hC hcontent hid hvault hrowContent
      refine ⟨row :: rows, ?_, .cons ⟨hid, hvault, hlive, hopens, hfits⟩ hstored, ?_⟩
      · rw [hrows, hrecords, List.append_assoc]
        rfl
      · rw [hids, houtbox, List.append_assoc]
        rfl

/-- **The rows of a batch of new records**: one for every entry, which opens to its data. -/
theorem of_writeImport (hC : C.Correct) {entries : List (ImportEntry × ℕ)}
    (hcreate : ∀ entry ∈ entries, entry.1.kind = .create)
    (h : writeImport C E store run entries db = .ok db') :
    ∃ rows, db'.records = db.records ++ rows ∧
      List.Forall₂ (fun entry row => StoredAs C E store entry.1 row) entries rows ∧
      db'.outbox.map (·.changeId) =
        db.outbox.map (·.changeId) ++ entries.map fun entry => run.changeId entry.2 := by
  unfold writeImport at h
  cases hchanges : entries.mapM (importChange C E store run db) with
  | error e =>
      rw [hchanges] at h
      cases h
  | ok changes =>
      rw [hchanges] at h
      dsimp only at h
      cases hwrite : writeLocalChanges run.now db changes with
      | error e =>
          rw [hwrite] at h
          cases h
      | ok written =>
          rw [hwrite] at h
          obtain rfl := Except.ok.inj h
          exact of_write_creates hC hcreate (RowByRow.of_mapM hchanges) hwrite

/-- The current key of a vault is loaded. -/
def HoldsVault (store : SecretsStore) (vaultId : VaultId) : Prop :=
  ∃ keyVersion key, store.currentKeyVersion vaultId = .ok keyVersion ∧
    store.vaultKey vaultId keyVersion = .ok key

theorem encryptRecord_ok {T : JsonText} {vaultId : VaultId} (hstore : HoldsVault store vaultId)
    (nonce : Text) (recordId : RecordId) {data : JsObject}
    (hfits : recordPayloadBytes (recordPayloadJson T data) ≤ maxRecordPayloadBytes) :
    ∃ content, encryptRecord C T store nonce recordId vaultId data = .ok content := by
  obtain ⟨keyVersion, key, hversion, hkey⟩ := hstore
  have hencrypt : ∃ content, store.encryptRecord C nonce recordId vaultId
      (recordPayloadJson T data) = .ok content :=
    ⟨_, bind_eq_ok.mpr ⟨keyVersion, hversion, bind_eq_ok.mpr ⟨key, hkey, rfl⟩⟩⟩
  obtain ⟨content, hcontent⟩ := hencrypt
  refine ⟨content, ?_⟩
  unfold encryptRecord
  dsimp only
  rw [if_neg (Nat.not_lt.2 hfits), hcontent]

/-- A new record is written when there is none of its id and its change id is fresh. -/
theorem write_create_ok {ciphertext : RecordCiphertext} {now : Time} {changeId : ChangeId}
    (hrows : db.rowsOf ciphertext.recordId = [])
    (hfresh : changeId ∉ db.outbox.map (·.changeId)) :
    ∃ out, writeLocalChange (.create ciphertext) now changeId db = .ok out := by
  have hhead : getHead ciphertext.recordId db = none := by
    unfold getHead
    rw [hrows]
    rfl
  have hrow : db.row? ciphertext.recordId 1 = none := by
    refine List.find?_eq_none.2 fun row hmem hkey => ?_
    have hid : row.record.recordId = ciphertext.recordId :=
      (Prod.mk.inj (of_decide_eq_true hkey)).1
    have hof : row ∈ db.rowsOf ciphertext.recordId :=
      List.mem_filter.2 ⟨hmem, decide_eq_true hid⟩
    rw [hrows] at hof
    cases hof
  simp only [writeLocalChange, LocalRecordChange.recordId, hhead, insertPending,
    RecordCiphertext.toRecord, hrow, Option.isSome_none, Bool.false_eq_true, if_false,
    if_neg hfresh]
  exact ⟨_, rfl⟩

theorem rowsOf_append {records : List LocalRow} {row : LocalRow} {recordId : RecordId}
    (hrecords : db'.records = records ++ [row]) (hne : row.record.recordId ≠ recordId) :
    db'.rowsOf recordId = records.filter (·.record.recordId = recordId) := by
  unfold LocalDb.rowsOf
  rw [hrecords, List.filter_append, List.filter_singleton, decide_eq_false hne]
  simp

/-- Some new records are written when there is none of their ids and their change ids are fresh. -/
theorem write_creates_ok {entries : List (ImportEntry × ℕ)}
    {changes : List (LocalRecordChange × ChangeId)}
    (hcreate : ∀ entry ∈ entries, entry.1.kind = .create) {start : LocalDb}
    (hchanges : List.Forall₂ (fun entry change => importChange C E store run start entry = .ok change)
      entries changes) (hids : (entries.map (·.1.recordId)).Nodup)
    (hrows : ∀ entry ∈ entries, db.rowsOf entry.1.recordId = [])
    (hdraws : (entries.map fun entry => run.changeId entry.2).Nodup)
    (hfresh : ∀ entry ∈ entries, run.changeId entry.2 ∉ db.outbox.map (·.changeId)) :
    ∃ db', writeLocalChanges run.now db changes = .ok db' := by
  induction hchanges generalizing db with
  | nil => exact ⟨db, rfl⟩
  | @cons entry change entries changes hchange hrest ih =>
      obtain ⟨content, rfl, -⟩ := of_importChange (hcreate entry (List.mem_cons_self ..)) hchange
      rw [List.map_cons, List.nodup_cons] at hids hdraws
      obtain ⟨⟨db₁, written⟩, hwrite⟩ := @write_create_ok db
        ⟨entry.1.recordId, entry.1.vaultId, content, run.now⟩ run.now (run.changeId entry.2)
        (hrows entry (List.mem_cons_self ..)) (hfresh entry (List.mem_cons_self ..))
      obtain ⟨row, hrecords, houtbox, hid, -⟩ := of_write_create hwrite
      obtain ⟨db', hlast⟩ := @ih db₁ (fun e he => hcreate e (List.mem_cons_of_mem _ he)) hids.2
        (fun e he => by
          have hne : row.record.recordId ≠ e.1.recordId := fun heq => hids.1 (by
            have hsame : entry.1.recordId = e.1.recordId := hid.symm.trans heq
            rw [hsame]
            exact List.mem_map_of_mem (f := fun entry => entry.1.recordId) he)
          rw [rowsOf_append hrecords hne]
          exact hrows e (List.mem_cons_of_mem _ he)) hdraws.2
        (fun e he hmem => by
          rw [houtbox] at hmem
          rcases List.mem_append.1 hmem with hmem | hmem
          · exact hfresh e (List.mem_cons_of_mem _ he) hmem
          · refine hdraws.1 ?_
            rw [← List.mem_singleton.1 hmem]
            exact List.mem_map_of_mem (f := fun entry => run.changeId entry.2) he)
      refine ⟨db', ?_⟩
      unfold writeLocalChanges at hlast ⊢
      rw [List.foldlM_cons]
      exact bind_eq_ok.mpr ⟨db₁, bind_eq_ok.mpr ⟨_, hwrite, rfl⟩, hlast⟩

/-- What a batch of new records needs: they fit, the key of their vault is loaded, their ids and
change ids are fresh. -/
structure Writable (E : ExportEnv) (store : SecretsStore) (run : ImportRun) (db : LocalDb)
    (entries : List (ImportEntry × ℕ)) : Prop where
  create : ∀ entry ∈ entries, entry.1.kind = .create
  vault : ∀ entry ∈ entries, HoldsVault store entry.1.vaultId
  fits : ∀ entry ∈ entries,
    recordPayloadBytes (recordPayloadJson E.toJsonText entry.1.data) ≤ maxRecordPayloadBytes
  ids : (entries.map (·.1.recordId)).Nodup
  rows : ∀ entry ∈ entries, db.rowsOf entry.1.recordId = []
  draws : (entries.map fun entry => run.changeId entry.2).Nodup
  fresh : ∀ entry ∈ entries, run.changeId entry.2 ∉ db.outbox.map (·.changeId)

theorem writeImport_ok {entries : List (ImportEntry × ℕ)} (h : Writable E store run db entries) :
    ∃ db', writeImport C E store run entries db = .ok db' := by
  have hencrypted : ∀ entry ∈ entries, ∃ change, importChange C E store run db entry = .ok change := by
    intro entry hentry
    obtain ⟨content, hcontent⟩ := @encryptRecord_ok C store E.toJsonText _ (h.vault entry hentry)
      (run.nonce entry.2) entry.1.recordId entry.1.data (h.fits entry hentry)
    have hdata : stampedData C E store db entry.1 = entry.1.data := by
      unfold stampedData
      rw [h.create entry hentry]
    refine ⟨(.create ⟨entry.1.recordId, entry.1.vaultId, content, run.now⟩, run.changeId entry.2),
      bind_eq_ok.mpr ⟨content, by rw [hdata]; exact hcontent, ?_⟩⟩
    rw [h.create entry hentry]
    rfl
  obtain ⟨changes, hchanges⟩ := RowByRow.mapM_ok hencrypted
  obtain ⟨db', hwrite⟩ := write_creates_ok h.create (RowByRow.of_mapM hchanges) h.ids h.rows h.draws
    h.fresh
  refine ⟨db', ?_⟩
  unfold writeImport
  rw [hchanges]
  dsimp only
  rw [hwrite]

/-- **What some batches of new records leave**: the rows of the entries up to where the run
stopped, of all of them when it didn't. -/
theorem of_importBatches (hC : C.Correct) {total written : ℕ}
    {batches : List (List (ImportEntry × ℕ))}
    (hcreate : ∀ entry ∈ batches.flatten, entry.1.kind = .create) :
    ∃ done rows, done <+: batches.flatten ∧
      (importBatches C E store run total written batches db).1.records = db.records ++ rows ∧
      List.Forall₂ (fun entry row => StoredAs C E store entry.1 row) done rows ∧
      (importBatches C E store run total written batches db).1.outbox.map (·.changeId) =
        db.outbox.map (·.changeId) ++ done.map (fun entry => run.changeId entry.2) ∧
      ((importBatches C E store run total written batches db).2 = .ok () →
        done = batches.flatten) := by
  induction batches generalizing db written with
  | nil => exact ⟨[], [], List.nil_prefix, by simp [importBatches], .nil, by simp [importBatches],
      fun _ => rfl⟩
  | cons batch batches ih =>
      unfold importBatches
      cases hwrite : writeImport C E store run batch db with
      | error e =>
          refine ⟨[], [], List.nil_prefix, by simp, .nil, by simp, fun h => ?_⟩
          cases h
      | ok db₁ =>
          rw [List.flatten_cons] at hcreate ⊢
          obtain ⟨first, hfirst, hstored, hout⟩ := of_writeImport hC
            (fun e he => hcreate e (List.mem_append_left _ he)) hwrite
          obtain ⟨done, rows, hdone, hrows, hrest, hlast, hall⟩ := @ih db₁ (written + batch.length)
            fun e he => hcreate e (List.mem_append_right _ he)
          refine ⟨batch ++ done, first ++ rows, (List.prefix_append_right_inj batch).2 hdone, ?_,
            List.rel_append hstored hrest, ?_, fun h => ?_⟩
          · dsimp only
            rw [hrows, hfirst, List.append_assoc]
          · dsimp only
            rw [hlast, hout, List.map_append, List.append_assoc]
          · rw [hall h]

/-- A batch of what some batches need to be written. -/
theorem Writable.head {batch rest : List (ImportEntry × ℕ)}
    (h : Writable E store run db (batch ++ rest)) : Writable E store run db batch where
  create entry hentry := h.create entry (List.mem_append_left _ hentry)
  vault entry hentry := h.vault entry (List.mem_append_left _ hentry)
  fits entry hentry := h.fits entry (List.mem_append_left _ hentry)
  ids := by
    have hids := h.ids
    rw [List.map_append] at hids
    exact (List.nodup_append.1 hids).1
  rows entry hentry := h.rows entry (List.mem_append_left _ hentry)
  draws := by
    have hdraws := h.draws
    rw [List.map_append] at hdraws
    exact (List.nodup_append.1 hdraws).1
  fresh entry hentry := h.fresh entry (List.mem_append_left _ hentry)

/-- What follows a batch that was written can be written. -/
theorem Writable.tail (hC : C.Correct) {batch rest : List (ImportEntry × ℕ)}
    (h : Writable E store run db (batch ++ rest))
    (hwrite : writeImport C E store run batch db = .ok db') : Writable E store run db' rest := by
  obtain ⟨first, hfirst, hstored, hout⟩ := of_writeImport hC h.head.create hwrite
  have hids := h.ids
  have hdraws := h.draws
  rw [List.map_append, List.nodup_append] at hids hdraws
  refine ⟨fun e he => h.create e (List.mem_append_right _ he),
    fun e he => h.vault e (List.mem_append_right _ he),
    fun e he => h.fits e (List.mem_append_right _ he), hids.2.1, fun e he => ?_, hdraws.2.1,
    fun e he hmem => ?_⟩
  · unfold LocalDb.rowsOf
    rw [hfirst, List.filter_append]
    refine List.append_eq_nil_iff.2 ⟨h.rows e (List.mem_append_right _ he), ?_⟩
    refine List.filter_eq_nil_iff.2 fun row hrow hid => ?_
    obtain ⟨entry, hentry, hrowStored⟩ := RowByRow.exists_left hstored hrow
    refine hids.2.2 entry.1.recordId (List.mem_map_of_mem (f := fun e => e.1.recordId) hentry)
      e.1.recordId (List.mem_map_of_mem (f := fun e => e.1.recordId) he) ?_
    rw [← hrowStored.recordId]
    exact of_decide_eq_true hid
  · rw [hout] at hmem
    rcases List.mem_append.1 hmem with hmem | hmem
    · exact h.fresh e (List.mem_append_right _ he) hmem
    · exact hdraws.2.2 _ hmem _ (List.mem_map_of_mem (f := fun e => run.changeId e.2) he) rfl

/-- Batches of new records are all written when they can be. -/
theorem importBatches_ok (hC : C.Correct) {total written : ℕ}
    {batches : List (List (ImportEntry × ℕ))} (h : Writable E store run db batches.flatten) :
    (importBatches C E store run total written batches db).2 = .ok () := by
  induction batches generalizing db written with
  | nil => rfl
  | cons batch batches ih =>
      rw [List.flatten_cons] at h
      obtain ⟨db', hwrite⟩ := @writeImport_ok C _ _ _ _ _ h.head
      unfold importBatches
      rw [hwrite]
      exact ih (h.tail hC hwrite)

end Writes

end Passmgr
