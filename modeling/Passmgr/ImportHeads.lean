/-
# What an import leaves under a record id

The writes of an import, seen as what a device holds under each record id: where the record lives,
whether it is a tombstone, and what it opens to.  A password's date is not part of it, as in
`withoutPasswordDate`.

Main definitions:

* `HeldRecord`, `heldRecord` — what is held;
* `ImportEntry.written`, `Held.write` — what an entry makes of it;
* `unchangedEntry` — the overwrites that are left out;
* `Applies` — every create finds no record, every update finds one of its vault.

Main results:

* `held_importBatches` — batches that apply leave what their entries make of it, one by one;
* `importBatches_error` — and never stop with a `RecordWriteError`.
-/

import Passmgr.SameContent

set_option relaxedAutoImplicit false
set_option autoImplicit false

namespace Passmgr

open IdealCipher (Ciphers)

/-! ### What is held -/

/-- What a device holds under a record id, with the content it opens to. -/
structure HeldRecord where
  vaultId : VaultId
  deleted : Bool
  content : Option JsObject

abbrev Held := RecordId → Option HeldRecord

/-- Where the records live. -/
def Held.heads (held : Held) (recordId : RecordId) : Option LocalHead :=
  (held recordId).map fun record => ⟨record.vaultId, record.deleted⟩

/-- The content of an entry: its data without the date of its password. -/
def ImportEntry.content (entry : ImportEntry) : JsObject :=
  JsObject.without entry.data ["passwordChangedAt"]

/-- What is held once an entry is written. -/
def ImportEntry.written (entry : ImportEntry) : HeldRecord where
  vaultId := entry.vaultId
  deleted := false
  content := some (Json.rereadFields entry.content)

def Held.write (held : Held) (entry : ImportEntry) : Held :=
  Function.update held entry.recordId (some entry.written)

/-- An overwrite of a live record that already holds its content. -/
def unchangedEntry (held : Held) (entry : ImportEntry) : Bool :=
  entry.kind = .update && (held entry.recordId).any fun record =>
    !record.deleted && record.content.any fun content =>
      sameContent (.object content) (.object entry.content)

/-- A create finds no record of its id, an update finds one in its vault. -/
def EntryApplies (heads : RecordId → Option LocalHead) (entry : ImportEntry) : Prop :=
  match entry.kind with
  | .create => heads entry.recordId = none
  | .update => ∃ head, heads entry.recordId = some head ∧ head.vaultId = entry.vaultId

/-- The heads once an entry is written. -/
def headsAfter (heads : RecordId → Option LocalHead) (entry : ImportEntry) :
    RecordId → Option LocalHead :=
  Function.update heads entry.recordId (some ⟨entry.vaultId, false⟩)

/-- Every entry applies to what those before it leave. -/
def Applies : (RecordId → Option LocalHead) → List ImportEntry → Prop
  | _, [] => True
  | heads, entry :: entries =>
    EntryApplies heads entry ∧ Applies (headsAfter heads entry) entries

theorem heads_write (held : Held) (entry : ImportEntry) :
    (held.write entry).heads = headsAfter held.heads entry := by
  funext recordId
  unfold Held.heads Held.write headsAfter
  by_cases hid : recordId = entry.recordId
  · subst hid
    rw [Function.update_self, Function.update_self]
    rfl
  · rw [Function.update_of_ne hid, Function.update_of_ne hid]

section Store

variable (C : Ciphers Text) (E : ExportEnv) (store : SecretsStore)

/-- What a device holds; a record that doesn't open has no content. -/
def heldRecord (db : LocalDb) : Held := fun recordId =>
  (getHead recordId db).map fun head => {
    vaultId := head.record.vaultId
    deleted := head.record.deletedAt.isSome
    content := (decryptPayload C E store head.record).map fun payload =>
      JsObject.without payload ["schemaVersion", "passwordChangedAt"] }

theorem heads_heldRecord (db : LocalDb) :
    (heldRecord C E store db).heads = getRecordHeads db := by
  funext recordId
  unfold Held.heads heldRecord getRecordHeads
  rw [Option.map_map]
  rfl

/-- The overwrites an import leaves out. -/
theorem unchangedEntry_heldRecord (db : LocalDb) (entry : ImportEntry) :
    unchangedEntry (heldRecord C E store db) entry =
      (decide (entry.kind = .update) && (getRecordHeads db entry.recordId).any (!·.deleted) &&
        holdsSameContent C E store db entry) := by
  unfold unchangedEntry heldRecord getRecordHeads holdsSameContent ImportEntry.content
  cases getHead entry.recordId db with
  | none => simp
  | some head =>
      cases hpayload : decryptPayload C E store head.record with
      | none => simp [hpayload]
      | some payload =>
          cases hdeleted : head.record.deletedAt <;> simp [hpayload, hdeleted]

end Store

/-! ### What is written of an entry -/

/-- What `stampChangedPassword` can make of data, or leave of it. -/
def Restamped (data data' : JsObject) : Prop :=
  data' = data ∨ ∃ previous changedAt, data' = stampChangedPassword data previous changedAt

/-- Data of a known type that reads back once it is written, with whichever date. -/
structure Storable (E : ExportEnv) (data : JsObject) : Prop where
  keyed : (Json.object data).Keyed
  type : isRecordType (JsObject.get? data "type") = true
  noVersion : JsObject.get? data "schemaVersion" = none
  reads : ∀ data', Restamped data data' →
    E.parse (recordPayloadJson E.toJsonText data') = some
      (Json.object (JsObject.set data' "schemaVersion" (.number currentSchemaVersion))).reread

theorem without_withPasswordChangedAt (data : JsObject) (changedAt : Option Json) :
    JsObject.without (withPasswordChangedAt data changedAt) ["passwordChangedAt"] =
      JsObject.without data ["passwordChangedAt"] := by
  unfold withPasswordChangedAt
  dsimp only
  split
  · rw [JsObject.without_set _ (by decide), without_without]
    unfold JsObject.without
    exact List.filter_congr fun field _ => by simp
  · rw [without_without]
    unfold JsObject.without
    exact List.filter_congr fun field _ => by simp

/-- A date is no content. -/
theorem without_restamped {data data' : JsObject} (h : Restamped data data') :
    JsObject.without data' ["passwordChangedAt"] = JsObject.without data ["passwordChangedAt"] := by
  rcases h with rfl | ⟨previous, changedAt, rfl⟩
  · rfl
  · unfold stampChangedPassword
    split
    · exact without_withPasswordChangedAt data _
    · split
      · exact without_withPasswordChangedAt data _
      · split <;> exact without_withPasswordChangedAt data _

theorem get?_restamped {data data' : JsObject} (h : Restamped data data') {key : String}
    (hkey : key ≠ "passwordChangedAt") : JsObject.get? data' key = JsObject.get? data key := by
  have hboth := congrArg (fun object => JsObject.get? object key) (without_restamped h)
  simpa [JsObject.get?_without, hkey] using hboth

section Store

variable {C : Ciphers Text} {E : ExportEnv} {store : SecretsStore} {run : ImportRun}
  {db db' : LocalDb}

theorem restamped_stampedData (entry : ImportEntry) :
    Restamped entry.data (stampedData C E store db entry) := by
  unfold stampedData
  split
  · exact .inr ⟨_, _, rfl⟩
  · exact .inl rfl

/-- A row that was encrypted with the data of an entry opens to its content. -/
theorem content_of_encrypted (hC : C.Correct) {entry : ImportEntry}
    (hstorable : Storable E entry.data) {data' : JsObject} (hstamp : Restamped entry.data data')
    {nonce : Text} {content : Ciphertext}
    (hencrypt : encryptRecord C E.toJsonText store nonce entry.recordId entry.vaultId data' =
      .ok content) {row : EncryptedRecord} (hid : row.recordId = entry.recordId)
    (hvault : row.vaultId = entry.vaultId) (hcontent : row.content = content) :
    (decryptPayload C E store row).map (fun payload =>
      JsObject.without payload ["schemaVersion", "passwordChangedAt"]) =
        some (Json.rereadFields entry.content) := by
  obtain ⟨-, hopens⟩ := of_encryptRecord_payload hC hencrypt hid hvault hcontent
  have hversion : isCurrentVersion (JsObject.get? (Json.rereadFields
      (JsObject.set data' "schemaVersion" (.number currentSchemaVersion))) "schemaVersion") =
        true := by
    rw [get?_rereadFields, JsObject.get?_set, if_pos rfl]
    rfl
  have htype : isRecordType (JsObject.get? (Json.rereadFields
      (JsObject.set data' "schemaVersion" (.number currentSchemaVersion))) "type") = true := by
    rw [isRecordType_rereadFields, JsObject.get?_set, if_neg (by decide),
      get?_restamped hstamp (by decide)]
    exact hstorable.type
  have hpayload : decryptPayload C E store row = some (Json.rereadFields
      (JsObject.set data' "schemaVersion" (.number currentSchemaVersion))) := by
    unfold decryptPayload openPayload
    rw [hopens]
    change (E.parse _).bind _ = _
    rw [hstorable.reads data' hstamp, Json.reread, Option.bind_some, upgradeRecordPayload, hversion,
      htype]
    rfl
  have hkeep : JsObject.without data' ["schemaVersion", "passwordChangedAt"] = entry.content := by
    have hnone : ∀ key ∈ ["schemaVersion"],
        JsObject.get? (JsObject.without data' ["passwordChangedAt"]) key = none := by
      intro key hkey
      rw [List.mem_singleton.1 hkey, without_restamped hstamp, JsObject.get?_without,
        if_neg (by decide)]
      exact hstorable.noVersion
    have hsplit : JsObject.without data' ["schemaVersion", "passwordChangedAt"] =
        JsObject.without (JsObject.without data' ["passwordChangedAt"]) ["schemaVersion"] := by
      rw [without_without]
      unfold JsObject.without
      exact List.filter_congr fun field _ => by simp [and_comm]
    rw [hsplit, JsObject.without_of_get? _ hnone, without_restamped hstamp, ImportEntry.content]
  rw [hpayload, Option.map_some, without_rereadFields, JsObject.without_set _ (by decide), hkeep]

/-! ### Entries that are written -/

/-- The change of an entry is its data encrypted, as a create or an update. -/
theorem of_importChange_entry {start : LocalDb} {entry : ImportEntry × ℕ}
    {change : LocalRecordChange × ChangeId}
    (h : importChange C E store run start entry = .ok change) : ∃ content,
      encryptRecord C E.toJsonText store (run.nonce entry.2) entry.1.recordId entry.1.vaultId
        (stampedData C E store start entry.1) = .ok content ∧
      change.1 = match entry.1.kind with
        | .create => .create ⟨entry.1.recordId, entry.1.vaultId, content, run.now⟩
        | .update => .update ⟨entry.1.recordId, entry.1.vaultId, content, run.now⟩ := by
  obtain ⟨content, hcontent, h⟩ := bind_eq_ok.mp h
  refine ⟨content, hcontent, ?_⟩
  cases hkind : entry.1.kind <;>
    · rw [hkind] at h
      obtain rfl := Except.ok.inj h
      rfl

/-- A written entry is the newest version of its record. -/
theorem of_writeEntry {start : LocalDb} {entry : ImportEntry × ℕ}
    {change : LocalRecordChange × ChangeId}
    (hchange : importChange C E store run start entry = .ok change) {written : EncryptedRecord}
    (hwrite : writeLocalChange change.1 run.now change.2 db = .ok (db', written)) :
    ∃ content, encryptRecord C E.toJsonText store (run.nonce entry.2) entry.1.recordId
        entry.1.vaultId (stampedData C E store start entry.1) = .ok content ∧
      written.recordId = entry.1.recordId ∧ written.vaultId = entry.1.vaultId ∧
      written.content = content ∧ written.deletedAt = none ∧
      ∀ recordId, getHead recordId db' =
        if recordId = entry.1.recordId then some ⟨written, .pending⟩ else getHead recordId db := by
  obtain ⟨content, hencrypt, hform⟩ := of_importChange_entry hchange
  have hkind : change.1 = .create ⟨entry.1.recordId, entry.1.vaultId, content, run.now⟩ ∨
      change.1 = .update ⟨entry.1.recordId, entry.1.vaultId, content, run.now⟩ := by
    cases hkind : entry.1.kind <;> rw [hkind] at hform
    · exact .inl hform
    · exact .inr hform
  have hid : change.1.recordId = entry.1.recordId := by
    rcases hkind with hkind | hkind <;> rw [hkind] <;> rfl
  obtain ⟨hwid, hvault, hcontent, hlive⟩ := of_write_ciphertext hkind hwrite
  refine ⟨content, hencrypt, hwid, hvault, hcontent, hlive, fun recordId => ?_⟩
  rw [getHead_writeLocalChange hwrite recordId, hid]

theorem getRecordHeads_writeEntry {start : LocalDb} {entry : ImportEntry × ℕ}
    {change : LocalRecordChange × ChangeId}
    (hchange : importChange C E store run start entry = .ok change) {written : EncryptedRecord}
    (hwrite : writeLocalChange change.1 run.now change.2 db = .ok (db', written)) :
    getRecordHeads db' = headsAfter (getRecordHeads db) entry.1 := by
  obtain ⟨_, -, -, hvault, -, hlive, hhead⟩ := of_writeEntry hchange hwrite
  funext recordId
  unfold getRecordHeads headsAfter
  rw [hhead recordId]
  by_cases hid : recordId = entry.1.recordId
  · subst hid
    rw [Function.update_self, if_pos rfl, Option.map_some, hvault, hlive]
    rfl
  · rw [Function.update_of_ne hid, if_neg hid]

/-- **What is held once an entry is written.** -/
theorem held_writeEntry (hC : C.Correct) {start : LocalDb} {entry : ImportEntry × ℕ}
    (hstorable : Storable E entry.1.data) {change : LocalRecordChange × ChangeId}
    (hchange : importChange C E store run start entry = .ok change)
    {written : EncryptedRecord}
    (hwrite : writeLocalChange change.1 run.now change.2 db = .ok (db', written)) :
    heldRecord C E store db' = (heldRecord C E store db).write entry.1 := by
  obtain ⟨content, hencrypt, hwid, hvault, hcontent, hlive, hhead⟩ := of_writeEntry hchange hwrite
  funext recordId
  unfold heldRecord Held.write
  rw [hhead recordId]
  by_cases hid : recordId = entry.1.recordId
  · subst hid
    rw [Function.update_self, if_pos rfl, Option.map_some]
    dsimp only
    rw [content_of_encrypted hC hstorable (restamped_stampedData entry.1) hencrypt hwid hvault
      hcontent, hvault, hlive]
    rfl
  · rw [Function.update_of_ne hid, if_neg hid]

/-- An entry that applies is written, unless a row or a change of the outbox is in its way. -/
theorem writeEntry_error {start : LocalDb} {entry : ImportEntry × ℕ}
    (happlies : EntryApplies (getRecordHeads db) entry.1) {change : LocalRecordChange × ChangeId}
    (hchange : importChange C E store run start entry = .ok change) {e : LocalError}
    (hwrite : writeLocalChange change.1 run.now change.2 db = .error e) :
    e = .constraint := by
  obtain ⟨content, -, hform⟩ := of_importChange_entry hchange
  have hinsert : ∀ {row : EncryptedRecord} {changeId : ChangeId},
      insertPending row run.now changeId db = .error e → e = .constraint := by
    intro row changeId h
    unfold insertPending at h
    dsimp only at h
    split at h
    · exact (Except.error.inj h).symm
    · split at h
      · exact (Except.error.inj h).symm
      · cases h
  unfold EntryApplies getRecordHeads at happlies
  rw [hform] at hwrite
  cases hkind : entry.1.kind with
  | create =>
      rw [hkind] at happlies hwrite
      have hhead : getHead entry.1.recordId db = none := Option.map_eq_none_iff.1 happlies
      simp only [writeLocalChange, LocalRecordChange.recordId, hhead] at hwrite
      exact hinsert hwrite
  | update =>
      rw [hkind] at happlies hwrite
      obtain ⟨lives, hlives, hvault⟩ := happlies
      obtain ⟨head, hhead, rfl⟩ := Option.map_eq_some_iff.1 hlives
      simp only [writeLocalChange, LocalRecordChange.recordId, hhead] at hwrite
      rw [if_neg (not_not.2 hvault)] at hwrite
      exact hinsert hwrite

/-! ### Batches -/

theorem held_writeEntries (hC : C.Correct) {start : LocalDb} {entries : List (ImportEntry × ℕ)}
    (hstorable : ∀ entry ∈ entries, Storable E entry.1.data)
    {changes : List (LocalRecordChange × ChangeId)}
    (hchanges : List.Forall₂
      (fun entry change => importChange C E store run start entry = .ok change) entries changes)
    (h : writeLocalChanges run.now db changes = .ok db') :
    heldRecord C E store db' = (entries.map (·.1)).foldl Held.write (heldRecord C E store db) := by
  induction hchanges generalizing db with
  | nil =>
      obtain rfl : db = db' := Except.ok.inj h
      rfl
  | @cons entry change entries changes hchange hrest ih =>
      rw [writeLocalChanges_cons] at h
      cases hwrite : writeLocalChange change.1 run.now change.2 db with
      | error e =>
          rw [hwrite] at h
          cases h
      | ok result =>
          rw [hwrite] at h
          rw [ih (fun e he => hstorable e (List.mem_cons_of_mem _ he)) h,
            held_writeEntry hC (hstorable entry (List.mem_cons_self ..)) hchange hwrite,
            List.map_cons, List.foldl_cons]

theorem getRecordHeads_writeEntries {start : LocalDb} {entries : List (ImportEntry × ℕ)}
    {changes : List (LocalRecordChange × ChangeId)}
    (hchanges : List.Forall₂
      (fun entry change => importChange C E store run start entry = .ok change) entries changes)
    (h : writeLocalChanges run.now db changes = .ok db') :
    getRecordHeads db' = (entries.map (·.1)).foldl headsAfter (getRecordHeads db) := by
  induction hchanges generalizing db with
  | nil =>
      obtain rfl : db = db' := Except.ok.inj h
      rfl
  | @cons entry change entries changes hchange hrest ih =>
      rw [writeLocalChanges_cons] at h
      cases hwrite : writeLocalChange change.1 run.now change.2 db with
      | error e =>
          rw [hwrite] at h
          cases h
      | ok result =>
          rw [hwrite] at h
          rw [ih h, getRecordHeads_writeEntry hchange hwrite, List.map_cons, List.foldl_cons]

theorem writeEntries_error {start : LocalDb} {entries : List (ImportEntry × ℕ)}
    {changes : List (LocalRecordChange × ChangeId)}
    (hchanges : List.Forall₂
      (fun entry change => importChange C E store run start entry = .ok change) entries changes)
    (happlies : Applies (getRecordHeads db) (entries.map (·.1))) {e : LocalError}
    (h : writeLocalChanges run.now db changes = .error e) : e = .constraint := by
  induction hchanges generalizing db with
  | nil => cases h
  | @cons entry change entries changes hchange hrest ih =>
      obtain ⟨hfirst, hlast⟩ := happlies
      rw [writeLocalChanges_cons] at h
      cases hwrite : writeLocalChange change.1 run.now change.2 db with
      | error e' =>
          rw [hwrite] at h
          obtain rfl := Except.error.inj h
          exact writeEntry_error hfirst hchange hwrite
      | ok result =>
          rw [hwrite] at h
          rw [← getRecordHeads_writeEntry hchange hwrite] at hlast
          exact ih hlast h

/-- A batch that is written, entry by entry. -/
theorem changes_of_writeImport {entries : List (ImportEntry × ℕ)}
    (h : writeImport C E store run entries db = .ok db') : ∃ changes,
      List.Forall₂ (fun entry change => importChange C E store run db entry = .ok change)
        entries changes ∧ writeLocalChanges run.now db changes = .ok db' := by
  unfold writeImport at h
  cases hchanges : entries.mapM (importChange C E store run db) with
  | error e =>
      rw [hchanges] at h
      cases h
  | ok changes =>
      rw [hchanges] at h
      dsimp only at h
      cases hwrite : writeLocalChanges run.now db changes with
      | error e =>
          rw [hwrite] at h
          cases h
      | ok written =>
          rw [hwrite] at h
          obtain rfl := Except.ok.inj h
          exact ⟨changes, RowByRow.of_mapM hchanges, hwrite⟩

theorem writeImport_error {entries : List (ImportEntry × ℕ)}
    (happlies : Applies (getRecordHeads db) (entries.map (·.1))) {e : ImportError}
    (h : writeImport C E store run entries db = .error e) (recordId : RecordId) (reason : String) :
    e ≠ .write (.recordWrite recordId reason) := by
  unfold writeImport at h
  cases hchanges : entries.mapM (importChange C E store run db) with
  | error e' =>
      rw [hchanges] at h
      obtain rfl := Except.error.inj h
      exact fun heq => nomatch heq
  | ok changes =>
      rw [hchanges] at h
      dsimp only at h
      cases hwrite : writeLocalChanges run.now db changes with
      | error e' =>
          rw [hwrite] at h
          obtain rfl := Except.error.inj h
          rw [writeEntries_error (RowByRow.of_mapM hchanges) happlies hwrite]
          exact fun heq => nomatch heq
      | ok written =>
          rw [hwrite] at h
          cases h

theorem applies_append {heads : RecordId → Option LocalHead} {first rest : List ImportEntry} :
    Applies heads (first ++ rest) ↔
      Applies heads first ∧ Applies (first.foldl headsAfter heads) rest := by
  induction first generalizing heads with
  | nil => simp [Applies]
  | cons entry first ih =>
      rw [List.cons_append, List.foldl_cons]
      simp only [Applies, ih, and_assoc]

/-- **What batches leave when none fails**: what their entries make of it, one by one. -/
theorem held_importBatches (hC : C.Correct) {total written : ℕ}
    {batches : List (List (ImportEntry × ℕ))}
    (hstorable : ∀ entry ∈ batches.flatten, Storable E entry.1.data)
    (hok : (importBatches C E store run total written batches db).2 = .ok ()) :
    heldRecord C E store (importBatches C E store run total written batches db).1 =
      (batches.flatten.map (·.1)).foldl Held.write (heldRecord C E store db) := by
  induction batches generalizing db written with
  | nil => rfl
  | cons batch batches ih =>
      unfold importBatches at hok ⊢
      cases hwrite : writeImport C E store run batch db with
      | error e =>
          rw [hwrite] at hok
          cases hok
      | ok db₁ =>
          rw [hwrite] at hok
          rw [List.flatten_cons] at hstorable ⊢
          obtain ⟨changes, hchanges, hwritten⟩ := changes_of_writeImport hwrite
          dsimp only at hok ⊢
          rw [ih (fun e he => hstorable e (List.mem_append_right _ he)) hok,
            held_writeEntries hC (fun e he => hstorable e (List.mem_append_left _ he)) hchanges
              hwritten, List.map_append, List.foldl_append]

/-- **Entries that apply never stop an import with a `RecordWriteError`**, in whichever batches. -/
theorem importBatches_error {total written : ℕ} {batches : List (List (ImportEntry × ℕ))}
    (happlies : Applies (getRecordHeads db) (batches.flatten.map (·.1))) {stopped : ImportStopped}
    (h : (importBatches C E store run total written batches db).2 = .error stopped)
    (recordId : RecordId) (reason : String) :
    stopped.cause ≠ .write (.recordWrite recordId reason) := by
  induction batches generalizing db written with
  | nil => cases h
  | cons batch batches ih =>
      rw [List.flatten_cons, List.map_append, applies_append] at happlies
      unfold importBatches at h
      cases hwrite : writeImport C E store run batch db with
      | error e =>
          rw [hwrite] at h
          obtain rfl := Except.error.inj h
          exact writeImport_error happlies.1 hwrite recordId reason
      | ok db₁ =>
          rw [hwrite] at h
          obtain ⟨changes, hchanges, hwritten⟩ := changes_of_writeImport hwrite
          rw [← getRecordHeads_writeEntries hchanges hwritten] at happlies
          exact ih happlies.2 h

end Store

end Passmgr
