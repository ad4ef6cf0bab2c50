/-
# The plan of an import

`planImport` as a recursion over the records of a file: what each becomes depends on where its id
lives on the device and on what the records before it became.  When the ids of new records are new,
the entries of a plan apply one after the other, also those that are left of it once the overwrites
that change nothing are taken out.

Main definitions:

* `plannedEntry`, `plannedEntries` — what one record becomes, and what the records of a file become;
* `NewIds` — the ids of new records are not on the device and not in the file;
* `importBySize` — an import whose batches have some size.

Main results:

* `applies_plannedEntries` — the entries of a plan apply;
* `importBySize_error` — no import stops with a `RecordWriteError`, whatever its batches;
* `importBySize_counts` — every record is created, updated or skipped;
* `held_importBySize` — what an import leaves is what its entries make of it.
-/

import Passmgr.ImportHeads

set_option relaxedAutoImplicit false
set_option autoImplicit false

namespace Passmgr

open IdealCipher (Ciphers)

/-! ### What the records become -/

/-- The vault a record of a file goes into. -/
def targetVault (options : ImportOptions) (record : ExportRecord) : VaultId :=
  (options.vaultMap record.vaultId).getD options.fallbackVaultId

/-- What a record becomes next to what the device holds, with the id it gets when it is new; a
record that is skipped has none. -/
def plannedEntry (options : ImportOptions) (heads : RecordId → Option LocalHead)
    (record : ExportRecord × RecordId) : Option ImportEntry :=
  let vaultId := targetVault options record.1
  let data := importRecordData record.1
  let head := heads record.1.id
  let inVault := head.any (·.vaultId = vaultId)
  if inVault ∧ options.duplicates = .overwrite then some ⟨.update, record.1.id, vaultId, data⟩
  else if inVault ∧ options.duplicates = .skip then none
  else
    let keepId := head.isNone && (options.keepIds || vaultId = record.1.vaultId)
    some ⟨.create, if keepId then record.1.id else record.2, vaultId, data⟩

theorem planRecord_eq (options : ImportOptions) (plan : ImportPlan)
    (record : ExportRecord × RecordId) : planRecord options plan record =
      match plannedEntry options plan.heads record with
      | some entry => plan.add entry
      | none => { plan with skipped := plan.skipped + 1 } := by
  unfold planRecord plannedEntry targetVault
  dsimp only
  split
  · rfl
  · split <;> rfl

/-- What the records of a file become, in their order. -/
def plannedEntries (options : ImportOptions) :
    (RecordId → Option LocalHead) → List (ExportRecord × RecordId) → List ImportEntry
  | _, [] => []
  | heads, record :: records =>
    match plannedEntry options heads record with
    | some entry => entry :: plannedEntries options (headsAfter heads entry) records
    | none => plannedEntries options heads records

theorem foldl_planRecord (options : ImportOptions) (records : List (ExportRecord × RecordId))
    (plan : ImportPlan) : (records.foldl (planRecord options) plan).entries =
        plan.entries ++ plannedEntries options plan.heads records ∧
      (records.foldl (planRecord options) plan).skipped +
        (plannedEntries options plan.heads records).length = plan.skipped + records.length := by
  induction records generalizing plan with
  | nil => exact ⟨(List.append_nil _).symm, rfl⟩
  | cons record records ih =>
      rw [List.foldl_cons, planRecord_eq]
      unfold plannedEntries
      cases hentry : plannedEntry options plan.heads record with
      | none =>
          obtain ⟨hentries, hskipped⟩ := ih { plan with skipped := plan.skipped + 1 }
          dsimp only at hentries hskipped ⊢
          refine ⟨hentries, ?_⟩
          rw [hskipped, List.length_cons]
          omega
      | some entry =>
          obtain ⟨hentries, hskipped⟩ := ih (plan.add entry)
          dsimp only [ImportPlan.add] at hentries hskipped ⊢
          refine ⟨hentries.trans (List.append_assoc ..), ?_⟩
          rw [List.length_cons, List.length_cons]
          unfold headsAfter
          omega

/-- The records of a file with the ids they get when they are new. -/
def withNewIds (newId : ℕ → RecordId) (records : List ExportRecord) :
    List (ExportRecord × RecordId) :=
  records.zipIdx.map fun record => (record.1, newId record.2)

theorem planImport_entries (data : ExportData) (existing : RecordId → Option LocalHead)
    (options : ImportOptions) (newId : ℕ → RecordId) :
    (planImport data existing options newId).entries =
      plannedEntries options existing (withNewIds newId data.records) :=
  (foldl_planRecord options (withNewIds newId data.records) ⟨existing, [], 0⟩).1

theorem planImport_skipped (data : ExportData) (existing : RecordId → Option LocalHead)
    (options : ImportOptions) (newId : ℕ → RecordId) :
    (planImport data existing options newId).skipped +
      (planImport data existing options newId).entries.length = data.records.length := by
  have hcount := (foldl_planRecord options (withNewIds newId data.records) ⟨existing, [], 0⟩).2
  rw [planImport_entries]
  refine hcount.trans ?_
  simp [withNewIds]

/-! ### Entries that apply -/

/-- The ids of new records: they differ, the device holds none of them, the file names none. -/
structure NewIds (heads : RecordId → Option LocalHead) (records : List (ExportRecord × RecordId)) :
    Prop where
  nodup : (records.map (·.2)).Nodup
  unused : ∀ record ∈ records, heads record.2 = none
  unnamed : ∀ record ∈ records, ∀ other ∈ records, other.1.id ≠ record.2

variable {options : ImportOptions} {heads : RecordId → Option LocalHead}
  {record : ExportRecord × RecordId} {records : List (ExportRecord × RecordId)}
  {entry : ImportEntry}

/-- An entry of a plan is for the id of its record or for the new one. -/
theorem of_plannedEntry (h : plannedEntry options heads record = some entry) :
    (entry.recordId = record.1.id ∨ entry.recordId = record.2) ∧
      entry.vaultId = targetVault options record.1 ∧ entry.data = importRecordData record.1 := by
  unfold plannedEntry at h
  dsimp only at h
  split at h
  · obtain rfl := Option.some.inj h
    exact ⟨.inl rfl, rfl, rfl⟩
  · split at h
    · cases h
    · obtain rfl := Option.some.inj h
      refine ⟨?_, rfl, rfl⟩
      dsimp only
      split
      · exact .inl rfl
      · exact .inr rfl

/-- An entry of a plan applies when the id of a new record is new. -/
theorem entryApplies_plannedEntry (hnew : heads record.2 = none)
    (h : plannedEntry options heads record = some entry) : EntryApplies heads entry := by
  unfold plannedEntry at h
  dsimp only at h
  split at h
  · next hvault =>
      obtain rfl := Option.some.inj h
      cases hhead : heads record.1.id with
      | none =>
          rw [hhead] at hvault
          exact absurd hvault.1 Bool.false_ne_true
      | some head =>
          rw [hhead] at hvault
          exact ⟨head, hhead, of_decide_eq_true hvault.1⟩
  · split at h
    · cases h
    · obtain rfl := Option.some.inj h
      change heads _ = none
      dsimp only
      split
      · next hkeep => exact Option.isNone_iff_eq_none.1 (Bool.and_eq_true _ _ ▸ hkeep).1
      · exact hnew

/-- The ids of the records after one that is planned are still new. -/
theorem NewIds.tail (h : NewIds heads (record :: records))
    (hentry : plannedEntry options heads record = some entry) :
    NewIds (headsAfter heads entry) records where
  nodup := (List.nodup_cons.1 h.nodup).2
  unused other hother := by
    have hne : other.2 ≠ entry.recordId := by
      rcases (of_plannedEntry hentry).1 with hid | hid
      · rw [hid]
        exact (h.unnamed other (List.mem_cons_of_mem _ hother) record (List.mem_cons_self ..)).symm
      · rw [hid]
        refine fun heq => (List.nodup_cons.1 h.nodup).1 ?_
        exact List.mem_map.2 ⟨other, hother, heq⟩
    unfold headsAfter
    rw [Function.update_of_ne hne]
    exact h.unused other (List.mem_cons_of_mem _ hother)
  unnamed other hother named hnamed :=
    h.unnamed other (List.mem_cons_of_mem _ hother) named (List.mem_cons_of_mem _ hnamed)

/-- The ids of the records after one that is skipped. -/
theorem NewIds.skip (h : NewIds heads (record :: records)) : NewIds heads records where
  nodup := (List.nodup_cons.1 h.nodup).2
  unused other hother := h.unused other (List.mem_cons_of_mem _ hother)
  unnamed other hother named hnamed :=
    h.unnamed other (List.mem_cons_of_mem _ hother) named (List.mem_cons_of_mem _ hnamed)

/-- **The entries of a plan apply**, one after the other. -/
theorem applies_plannedEntries (h : NewIds heads records) :
    Applies heads (plannedEntries options heads records) := by
  induction records generalizing heads with
  | nil => trivial
  | cons record records ih =>
      unfold plannedEntries
      cases hentry : plannedEntry options heads record with
      | none => exact ih h.skip
      | some entry =>
          exact ⟨entryApplies_plannedEntry (h.unused record (List.mem_cons_self ..)) hentry,
            ih (h.tail hentry)⟩

/-- The vaults the records live in. -/
def headVaults (heads : RecordId → Option LocalHead) (recordId : RecordId) : Option VaultId :=
  (heads recordId).map (·.vaultId)

/-- Whether an entry applies only depends on the vaults. -/
theorem entryApplies_iff (heads : RecordId → Option LocalHead) (entry : ImportEntry) :
    EntryApplies heads entry ↔ headVaults heads entry.recordId =
      match entry.kind with
      | .create => none
      | .update => some entry.vaultId := by
  unfold EntryApplies headVaults
  cases entry.kind with
  | create => exact Option.map_eq_none_iff.symm
  | update => exact Option.map_eq_some_iff.symm

theorem headVaults_headsAfter (heads : RecordId → Option LocalHead) (entry : ImportEntry) :
    headVaults (headsAfter heads entry) =
      Function.update (headVaults heads) entry.recordId (some entry.vaultId) := by
  funext recordId
  unfold headVaults headsAfter
  by_cases hid : recordId = entry.recordId
  · subst hid
    rw [Function.update_self, Function.update_self]
    rfl
  · rw [Function.update_of_ne hid, Function.update_of_ne hid]

/-- Entries still apply when overwrites are taken out: these leave the vaults as they are. -/
theorem applies_filter {keep : ImportEntry → Bool} {entries : List ImportEntry}
    (hcreate : ∀ entry ∈ entries, entry.kind = .create → keep entry = true)
    {heads' : RecordId → Option LocalHead} (hvaults : headVaults heads = headVaults heads')
    (h : Applies heads entries) : Applies heads' (entries.filter keep) := by
  induction entries generalizing heads heads' with
  | nil => trivial
  | cons entry entries ih =>
      obtain ⟨hfirst, hrest⟩ := h
      have hcreate' : ∀ e ∈ entries, e.kind = .create → keep e = true :=
        fun e he => hcreate e (List.mem_cons_of_mem _ he)
      cases hkeep : keep entry with
      | true =>
          rw [List.filter_cons_of_pos hkeep]
          refine ⟨?_, ih hcreate' ?_ hrest⟩
          · rw [entryApplies_iff] at hfirst ⊢
            rw [← hvaults]
            exact hfirst
          · rw [headVaults_headsAfter, headVaults_headsAfter, hvaults]
      | false =>
          rw [List.filter_cons_of_neg (by simp [hkeep])]
          refine ih hcreate' ?_ hrest
          have hkind : entry.kind = .update := by
            cases hkind : entry.kind with
            | create =>
                have htrue := hcreate entry (List.mem_cons_self ..) hkind
                rw [hkeep] at htrue
                cases htrue
            | update => rfl
          have hsame : headVaults heads entry.recordId = some entry.vaultId := by
            rw [entryApplies_iff, hkind] at hfirst
            exact hfirst
          rw [headVaults_headsAfter, ← hsame, Function.update_eq_self, hvaults]

/-! ### Batches of any size -/

section Store

variable (C : Ciphers Text) (E : ExportEnv)

/-- `importExportData`, with batches of some size. -/
def importBySize (size : ℕ) (store : SecretsStore) (run : ImportRun) (options : ImportOptions)
    (data : ExportData) (db : LocalDb) : LocalDb × Except ImportStopped ImportResult :=
  let plan := planImport data (getRecordHeads db) options run.newId
  let entries := importEntries C E store run options data db
  let (db, outcome) := importBatches C E store run entries.length 0
    (batchesOf size entries.zipIdx.length entries.zipIdx) db
  let created := (entries.filter (·.kind = .create)).length
  (db, outcome.map fun _ => {
    created := created
    updated := entries.length - created
    skipped := plan.skipped + (plan.entries.length - entries.length) })

theorem importBySize_importBatchSize :
    importBySize C E importBatchSize = importExportData C E := rfl

variable {C E} {store : SecretsStore} {run : ImportRun} {data : ExportData} {db : LocalDb}
  {size : ℕ}

/-- The entries of an import: those of its plan, less the overwrites that change nothing. -/
theorem importEntries_eq : importEntries C E store run options data db =
    (plannedEntries options (getRecordHeads db) (withNewIds run.newId data.records)).filter
      fun entry => !unchangedEntry (heldRecord C E store db) entry := by
  unfold importEntries
  rw [planImport_entries]
  exact List.filter_congr fun entry _ => by rw [unchangedEntry_heldRecord]

/-- The entries of an import apply. -/
theorem applies_importEntries
    (hnew : NewIds (getRecordHeads db) (withNewIds run.newId data.records)) :
    Applies (getRecordHeads db) (importEntries C E store run options data db) := by
  rw [importEntries_eq]
  refine applies_filter (fun entry _ hkind => ?_) rfl (applies_plannedEntries hnew)
  unfold unchangedEntry
  rw [hkind]
  rfl

/-- What an import does with its entries. -/
theorem of_importBySize (hsize : 0 < size) : ∃ batches : List (List (ImportEntry × ℕ)),
    batches.flatten.map (·.1) = importEntries C E store run options data db ∧
      importBySize C E size store run options data db =
        let entries := importEntries C E store run options data db
        let out := importBatches C E store run entries.length 0 batches db
        (out.1, out.2.map fun _ => {
          created := (entries.filter (·.kind = .create)).length
          updated := entries.length - (entries.filter (·.kind = .create)).length
          skipped := data.records.length - entries.length }) := by
  refine ⟨batchesOf size (importEntries C E store run options data db).zipIdx.length
    (importEntries C E store run options data db).zipIdx, ?_, ?_⟩
  · rw [flatten_batchesOf hsize le_rfl, List.zipIdx_map_fst]
  · have hcount := planImport_skipped data (getRecordHeads db) options run.newId
    have hle : (importEntries C E store run options data db).length ≤
        (planImport data (getRecordHeads db) options run.newId).entries.length :=
      List.length_filter_le ..
    have hskipped : (planImport data (getRecordHeads db) options run.newId).skipped +
        ((planImport data (getRecordHeads db) options run.newId).entries.length -
          (importEntries C E store run options data db).length) =
        data.records.length - (importEntries C E store run options data db).length := by
      omega
    unfold importBySize
    dsimp only
    rw [hskipped]

/-- **An import never stops with a `RecordWriteError`.** -/
theorem importBySize_error (hnew : NewIds (getRecordHeads db) (withNewIds run.newId data.records))
    (hsize : 0 < size) {stopped : ImportStopped}
    (h : (importBySize C E size store run options data db).2 = .error stopped)
    (recordId : RecordId) (reason : String) :
    stopped.cause ≠ .write (.recordWrite recordId reason) := by
  obtain ⟨batches, hbatches, hout⟩ :=
    @of_importBySize options C E store run data db size hsize
  rw [hout] at h
  dsimp only at h
  cases hwritten : (importBatches C E store run
    (importEntries C E store run options data db).length 0 batches db).2 with
  | ok _ =>
      rw [hwritten] at h
      cases h
  | error e =>
      rw [hwritten] at h
      obtain rfl := Except.error.inj h
      refine importBatches_error ?_ hwritten recordId reason
      rw [hbatches]
      exact applies_importEntries hnew

/-- The batches of an import that succeeds were all written. -/
theorem importBySize_ok (hsize : 0 < size) {result : ImportResult}
    (h : (importBySize C E size store run options data db).2 = .ok result) :
    ∃ batches : List (List (ImportEntry × ℕ)),
      batches.flatten.map (·.1) = importEntries C E store run options data db ∧
      (importBatches C E store run (importEntries C E store run options data db).length 0 batches
        db).2 = .ok () ∧
      (importBySize C E size store run options data db).1 = (importBatches C E store run
        (importEntries C E store run options data db).length 0 batches db).1 ∧
      result.created + result.updated =
        (importEntries C E store run options data db).length ∧
      result.skipped = data.records.length -
        (importEntries C E store run options data db).length := by
  obtain ⟨batches, hbatches, hout⟩ :=
    @of_importBySize options C E store run data db size hsize
  rw [hout] at h ⊢
  dsimp only at h ⊢
  cases hwritten : (importBatches C E store run
    (importEntries C E store run options data db).length 0 batches db).2 with
  | error e =>
      rw [hwritten] at h
      cases h
  | ok _ =>
      rw [hwritten] at h
      obtain rfl := Except.ok.inj h
      refine ⟨batches, hbatches, hwritten, rfl, ?_, rfl⟩
      exact Nat.add_sub_cancel' (List.length_filter_le ..)

/-- **Every record of the file is created, updated or skipped.** -/
theorem importBySize_counts (hsize : 0 < size) {result : ImportResult}
    (h : (importBySize C E size store run options data db).2 = .ok result) :
    result.created + result.updated + result.skipped = data.records.length := by
  obtain ⟨-, -, -, -, hwritten, hskipped⟩ := importBySize_ok hsize h
  have hcount := planImport_skipped data (getRecordHeads db) options run.newId
  have hle : (importEntries C E store run options data db).length ≤
      (planImport data (getRecordHeads db) options run.newId).entries.length :=
    List.length_filter_le ..
  omega

/-- The data of an entry is that of a record of the file. -/
theorem exists_of_mem_plannedEntries {heads : RecordId → Option LocalHead}
    {records : List (ExportRecord × RecordId)} (h : entry ∈ plannedEntries options heads records) :
    ∃ record ∈ records, entry.data = importRecordData record.1 := by
  induction records generalizing heads with
  | nil => cases h
  | cons record records ih =>
      unfold plannedEntries at h
      cases hentry : plannedEntry options heads record with
      | none =>
          rw [hentry] at h
          obtain ⟨other, hother, hdata⟩ := ih h
          exact ⟨other, List.mem_cons_of_mem _ hother, hdata⟩
      | some first =>
          rw [hentry] at h
          rcases List.mem_cons.1 h with rfl | h
          · exact ⟨record, List.mem_cons_self .., (of_plannedEntry hentry).2.2⟩
          · obtain ⟨other, hother, hdata⟩ := ih h
            exact ⟨other, List.mem_cons_of_mem _ hother, hdata⟩

theorem mem_of_mem_withNewIds {newId : ℕ → RecordId} {records : List ExportRecord}
    {record : ExportRecord × RecordId} (h : record ∈ withNewIds newId records) :
    record.1 ∈ records := by
  obtain ⟨numbered, hnumbered, rfl⟩ := List.mem_map.1 h
  have hmem := List.fst_mem_of_mem_zipIdx hnumbered
  exact hmem

/-- **What an import leaves** is what its entries make of it. -/
theorem held_importBySize (hC : C.Correct) (hsize : 0 < size)
    (hstorable : ∀ record ∈ data.records, Storable E (importRecordData record))
    {result : ImportResult} (h : (importBySize C E size store run options data db).2 = .ok result) :
    heldRecord C E store (importBySize C E size store run options data db).1 =
      (importEntries C E store run options data db).foldl Held.write
        (heldRecord C E store db) := by
  obtain ⟨batches, hbatches, hwritten, hdb, -⟩ := importBySize_ok hsize h
  rw [hdb, held_importBatches hC (fun numbered hnumbered => ?_) hwritten, hbatches]
  have hentry : numbered.1 ∈ importEntries C E store run options data db := by
    rw [← hbatches]
    exact List.mem_map_of_mem (f := fun entry => entry.1) hnumbered
  rw [importEntries_eq] at hentry
  obtain ⟨record, hrecord, hdata⟩ := exists_of_mem_plannedEntries (List.mem_filter.1 hentry).1
  rw [hdata]
  exact hstorable record.1 (mem_of_mem_withNewIds hrecord)

end Store

end Passmgr
