/-
# What a derived update writes over

Along every run of a device the versions that its updates have made hold what was read, but for the
part each update is about.  So a write changes nothing but that part exactly when it finds what its
update has read; when a write or a pull came in between, it puts older content on top of it.

Main definitions:

* `UpdateHolds`, `DerivedInvariant` — what an update under way holds;

Main results:

* `DerivedInvariant.of_reaches` — along every run whose versions are made well;
* `derived_writes_keep_rest` — **a write keeps the rest of its records exactly when it finds what
  its update has read**.
-/

import Passmgr.DerivedUpdates
import Passmgr.ImportOneByOne
import Passmgr.RekeyKeeps
import Passmgr.Run

set_option relaxedAutoImplicit false
set_option autoImplicit false

namespace Passmgr

open IdealCipher (Ciphers)

/-! ### The same content, but for some parts -/

theorem SameApart.symm {parts : List String} {payload other : JsObject}
    (h : SameApart parts payload other) : SameApart parts other payload :=
  fun key hkey => (h key hkey).symm

theorem SameApart.trans {parts : List String} {a b c : JsObject} (hab : SameApart parts a b)
    (hbc : SameApart parts b c) : SameApart parts a c :=
  fun key hkey => (hab key hkey).trans (hbc key hkey)

theorem SameApart.mono {parts parts' : List String} {payload other : JsObject}
    (h : SameApart parts payload other) (hsub : parts ⊆ parts') :
    SameApart parts' payload other :=
  fun key hkey => h key fun hmem => hkey (hsub hmem)

/-- What is put on top may be replaced by what is the same but for the parts. -/
theorem keepsRest_congr {parts : List String} {before : Option JsObject} {payload other : JsObject}
    (h : SameApart parts payload other) :
    KeepsRest parts before (some payload) ↔ KeepsRest parts before (some other) := by
  constructor
  · rintro ⟨old, new, hold, hnew, hsame⟩
    obtain rfl := Option.some.inj hnew
    exact ⟨old, other, hold, rfl, h.symm.trans hsame⟩
  · rintro ⟨old, new, hold, hnew, hsame⟩
    obtain rfl := Option.some.inj hnew
    exact ⟨old, payload, hold, rfl, h.trans hsame⟩

/-! ### Dates of passwords -/

theorem monitoredPassword_congr {payload other : JsObject}
    (htype : JsObject.get? payload "type" = JsObject.get? other "type")
    (hpassword : JsObject.get? payload "password" = JsObject.get? other "password") :
    monitoredPassword payload = monitoredPassword other := by
  unfold monitoredPassword JsObject.text?
  rw [htype, hpassword]

theorem SameApart.monitoredPassword {parts : List String} {payload other : JsObject}
    (h : SameApart parts payload other) (htype : "type" ∉ parts) (hpassword : "password" ∉ parts) :
    monitoredPassword payload = monitoredPassword other :=
  monitoredPassword_congr (h _ htype) (h _ hpassword)

theorem get?_withPasswordChangedAt (data : JsObject) (changedAt : Option Json) (key : String) :
    JsObject.get? (withPasswordChangedAt data changedAt) key =
      if key = "passwordChangedAt" then changedAt.filter (·.truthy)
      else JsObject.get? data key := by
  unfold withPasswordChangedAt
  dsimp only
  by_cases hkey : key = "passwordChangedAt"
  · subst hkey
    rw [if_pos rfl]
    cases changedAt.filter (·.truthy) with
    | none => exact (JsObject.get?_without ..).trans (if_pos (by decide))
    | some date => exact (JsObject.get?_set ..).trans (if_pos rfl)
  · have hnotin : key ∉ ["passwordChangedAt"] := fun hmem => hkey (List.mem_singleton.1 hmem)
    rw [if_neg hkey]
    cases changedAt.filter (·.truthy) with
    | none => exact (JsObject.get?_without ..).trans (if_neg hnotin)
    | some date =>
        dsimp only
        rw [JsObject.get?_set, if_neg hkey, JsObject.get?_without, if_neg hnotin]

/-- Data with the date of a payload is the payload. -/
theorem sameApart_withPasswordChangedAt {parts : List String} {data payload : JsObject}
    {changedAt : Option Json} (hdata : SameApart parts data payload)
    (hdate : changedAt.filter (·.truthy) = JsObject.get? payload "passwordChangedAt") :
    SameApart parts (withPasswordChangedAt data changedAt) payload := by
  intro key hkey
  rw [get?_withPasswordChangedAt]
  by_cases hdateKey : key = "passwordChangedAt"
  · rw [if_pos hdateKey, hdate, hdateKey]
  · rw [if_neg hdateKey]
    exact hdata key hkey

/-- A date that is set is a given field. -/
theorem givenField_of_truthy {payload : JsObject} {date : Json}
    (hdate : JsObject.get? payload "passwordChangedAt" = some date) (htruthy : date.truthy = true) :
    givenField payload "passwordChangedAt" = some date := by
  unfold givenField
  rw [hdate]
  cases date <;> first | rfl | cases htruthy

/-- **The stamp of `updateMany` keeps a date that stands**, when the head has the password and the
date that were read. -/
theorem sameApart_stampChangedPassword {parts : List String} {data payload previous : JsObject}
    (hdata : SameApart parts data payload) (hprevious : SameApart parts previous payload)
    (h : DateStands payload)
    (hparts : ∀ key ∈ ["type", "password", "passwordChangedAt"], key ∉ parts)
    (changedAt : Option Json) :
    SameApart parts (stampChangedPassword data (some previous) changedAt) payload := by
  have htype : "type" ∉ parts := hparts _ (by decide)
  have hpassword : "password" ∉ parts := hparts _ (by decide)
  have hdate : "passwordChangedAt" ∉ parts := hparts _ (by decide)
  have hown := hdata.monitoredPassword htype hpassword
  unfold stampChangedPassword
  dsimp only
  rw [hown, hprevious.monitoredPassword htype hpassword]
  cases hmonitored : monitoredPassword payload with
  | none =>
      refine sameApart_withPasswordChangedAt hdata ?_
      cases hstored : JsObject.get? payload "passwordChangedAt" with
      | none => rfl
      | some date =>
          have hbeside := (h.date date hstored).2
          rw [hmonitored] at hbeside
          cases hbeside
  | some password =>
      dsimp only
      rw [Option.any_some, h.text password hmonitored, if_pos rfl]
      refine sameApart_withPasswordChangedAt hdata ?_
      cases hstored : JsObject.get? payload "passwordChangedAt" with
      | none =>
          have hgiven : givenField previous "passwordChangedAt" = none := by
            unfold givenField
            rw [hprevious _ hdate, hstored]
          rw [hgiven, hdata _ hdate, hstored]
          rfl
      | some date =>
          have htruthy := (h.date date hstored).1
          rw [givenField_of_truthy ((hprevious _ hdate).trans hstored) htruthy, Option.some_or]
          exact Option.filter_some_pos htruthy

/-- **The stamp of a moved record keeps a date that stands**, when there is one with the password. -/
theorem sameApart_stampNewPassword {parts : List String} {data payload : JsObject}
    (hdata : SameApart parts data payload) (h : DateStands payload)
    (hdated : (monitoredPassword payload).isSome = true →
      (JsObject.get? payload "passwordChangedAt").isSome = true)
    (hparts : ∀ key ∈ ["type", "password", "passwordChangedAt"], key ∉ parts) (now : Json) :
    SameApart parts (stampNewPassword data now) payload := by
  have hdate : "passwordChangedAt" ∉ parts := hparts _ (by decide)
  unfold stampNewPassword
  rw [hdata.monitoredPassword (hparts _ (by decide)) (hparts _ (by decide))]
  cases hstored : JsObject.get? payload "passwordChangedAt" with
  | none =>
      cases hmonitored : monitoredPassword payload with
      | none => exact sameApart_withPasswordChangedAt hdata hstored.symm
      | some password =>
          rw [hmonitored, hstored] at hdated
          cases hdated rfl
  | some date =>
      obtain ⟨htruthy, hbeside⟩ := h.date date hstored
      obtain ⟨password, hmonitored⟩ := Option.isSome_iff_exists.1 hbeside
      rw [hmonitored]
      dsimp only
      refine sameApart_withPasswordChangedAt hdata ?_
      rw [givenField_of_truthy ((hdata _ hdate).trans hstored) htruthy, Option.some_or, hstored]
      exact Option.filter_some_pos htruthy

/-! ### The data of an update -/

theorem sameApart_recordDataOf {payload : JsObject} (h : Placeless payload) :
    SameApart ["schemaVersion"] (recordDataOf payload) payload := by
  intro key hkey
  unfold recordDataOf
  rw [JsObject.get?_without]
  by_cases hplace : key ∈ placeFields
  · rw [if_pos hplace, h key hplace fun heq => hkey (heq ▸ List.mem_singleton_self _)]
  · rw [if_neg hplace]

theorem sameApart_withTags (data : JsObject) (tags : List Text) :
    SameApart ["tags"] (withTags data tags) data := by
  intro key hkey
  have hne : key ≠ "tags" := fun heq => hkey (heq ▸ List.mem_singleton_self _)
  unfold withTags
  dsimp only
  split
  · rw [JsObject.get?_without, if_neg hkey]
  · rw [JsObject.get?_set, if_neg hne, JsObject.get?_without, if_neg hkey]

theorem sameApart_toggledFavorite {payload : JsObject} (h : Placeless payload) :
    SameApart ["favorite", "schemaVersion"] (toggledFavorite payload) payload := by
  intro key hkey
  have hne : key ≠ "favorite" := fun heq => hkey (heq ▸ List.mem_cons_self ..)
  have hversion : key ∉ ["schemaVersion"] := fun hmem => hkey (List.mem_cons_of_mem _ hmem)
  have hdata := sameApart_recordDataOf h key hversion
  unfold toggledFavorite
  dsimp only
  split
  · rw [JsObject.get?_without, if_neg (by simpa using hne), hdata]
  · rw [JsObject.get?_set, if_neg hne, JsObject.get?_without, if_neg (by simpa using hne), hdata]

/-- **An update changes its part of what it has read.** -/
theorem sameApart_data {lowerCase : Text → Text} {edit : DerivedEdit} {payload data : JsObject}
    (hplace : edit = .favorite → Placeless payload) (h : edit.data lowerCase payload = some data) :
    SameApart [edit.part, "schemaVersion"] data payload := by
  cases edit with
  | tags tagEdit =>
      obtain ⟨tags, -, rfl⟩ := Option.map_eq_some_iff.1 h
      refine ((sameApart_withTags _ _).mono ?_).trans fun key hkey => ?_
      · exact fun key hkey => List.mem_singleton.1 hkey ▸ List.mem_cons_self ..
      · rw [JsObject.get?_without, if_neg fun hmem => hkey (List.mem_cons_of_mem _ hmem)]
  | favorite =>
      obtain rfl := Option.some.inj h
      exact sameApart_toggledFavorite (hplace rfl)

/-! ### What a row says -/

section Rows

variable {C : Ciphers Text} {E : ExportEnv} {store keys : SecretsStore}

theorem SecretsStore.Within.decryptRecord (h : store.Within keys) {row : EncryptedRecord}
    {text : Text} (hopens : store.decryptRecord C row = .ok text) :
    keys.decryptRecord C row = .ok text := by
  obtain ⟨key, hkey, hopened⟩ := bind_eq_ok.mp hopens
  refine bind_eq_ok.mpr ⟨key, ?_, hopened⟩
  unfold SecretsStore.vaultKey at hkey ⊢
  cases hstored : store.vaultKeys (vaultKeyId row.vaultId row.content.keyVersion) with
  | none =>
      rw [hstored] at hkey
      cases hkey
  | some stored =>
      rw [hstored] at hkey
      rw [h _ _ hstored]
      exact hkey

/-- What opens with some of the keys opens with all of them. -/
theorem SecretsStore.Within.decryptPayload (h : store.Within keys) {row : EncryptedRecord}
    {payload : JsObject} (hopens : decryptPayload C E store row = some payload) :
    decryptPayload C E keys row = some payload := by
  unfold Passmgr.decryptPayload openPayload at hopens ⊢
  cases hdecrypt : store.decryptRecord C row with
  | error e =>
      rw [hdecrypt] at hopens
      cases hopens
  | ok text =>
      rw [hdecrypt] at hopens
      rw [h.decryptRecord hdecrypt]
      exact hopens

/-- The payload of a row is that of its ciphertext. -/
theorem decryptPayload_congr {row other : EncryptedRecord} (hid : row.recordId = other.recordId)
    (hvault : row.vaultId = other.vaultId) (hcontent : row.content = other.content) :
    decryptPayload C E keys row = decryptPayload C E keys other := by
  unfold decryptPayload SecretsStore.decryptRecord SecretsStore.recordContext
  rw [hid, hvault, hcontent]

/-- A payload of the current format. -/
theorem of_decryptPayload {row : EncryptedRecord} {payload : JsObject}
    (h : decryptPayload C E keys row = some payload) :
    JsObject.get? payload "schemaVersion" = some (.number currentSchemaVersion) ∧
      isRecordType (JsObject.get? payload "type") = true := by
  obtain ⟨json, -, hjson⟩ := Option.bind_eq_some_iff.1 h
  cases hupgrade : upgradeRecordPayload json with
  | error e =>
      rw [hupgrade] at hjson
      cases hjson
  | ok fields =>
      rw [hupgrade] at hjson
      obtain rfl := Option.some.inj hjson
      obtain ⟨-, hversion, htype⟩ := of_upgradeRecordPayload hupgrade
      refine ⟨?_, htype⟩
      unfold isCurrentVersion at hversion
      split at hversion
      · next version heq => rw [heq, of_decide_eq_true hversion]
      · cases hversion

/-- A row that was encrypted with data opens to it. -/
theorem payload_of_encrypted (hC : C.Correct) (hkeys : store.Within keys) {nonce : Text}
    {recordId : RecordId} {vaultId : VaultId} {data : JsObject} {content : Ciphertext}
    (hencrypt : encryptRecord C E.toJsonText store nonce recordId vaultId data = .ok content)
    (hreads : TextReadsBack E data) (htype : isRecordType (JsObject.get? data "type") = true)
    {row : EncryptedRecord} (hid : row.recordId = recordId) (hvault : row.vaultId = vaultId)
    (hcontent : row.content = content) : decryptPayload C E keys row =
      some (JsObject.set data "schemaVersion" (.number currentSchemaVersion)) := by
  obtain ⟨-, hopens⟩ := of_encryptRecord_payload hC hencrypt hid hvault hcontent
  refine hkeys.decryptPayload ?_
  have hversion : isCurrentVersion (JsObject.get?
      (JsObject.set data "schemaVersion" (.number currentSchemaVersion)) "schemaVersion") =
        true := by
    rw [JsObject.get?_set, if_pos rfl]
    rfl
  have htype' : isRecordType (JsObject.get?
      (JsObject.set data "schemaVersion" (.number currentSchemaVersion)) "type") = true := by
    rw [JsObject.get?_set, if_neg (by decide)]
    exact htype
  unfold decryptPayload openPayload
  rw [hopens]
  change (E.parse _).bind _ = _
  rw [hreads, Option.bind_some, upgradeRecordPayload, hversion, htype']
  rfl

/-- The data of a payload, with the version of its format again. -/
theorem sameApart_set {parts : List String} {data payload : JsObject}
    (h : SameApart (parts ++ ["schemaVersion"]) data payload)
    (hversion : JsObject.get? payload "schemaVersion" = some (.number currentSchemaVersion)) :
    SameApart parts (JsObject.set data "schemaVersion" (.number currentSchemaVersion)) payload := by
  intro key hkey
  rw [JsObject.get?_set]
  by_cases hown : key = "schemaVersion"
  · rw [if_pos hown, hown, hversion]
  · rw [if_neg hown]
    refine h key fun hmem => ?_
    rcases List.mem_append.1 hmem with hmem | hmem
    · exact hkey hmem
    · exact hown (List.mem_singleton.1 hmem)

end Rows

/-! ### The heads after a write -/

section Writes

variable {db db' : LocalDb} {now : Time}

/-- A write leaves the heads of other records. -/
theorem getHead_writeLocalChanges {changes : List (LocalRecordChange × ChangeId)}
    (h : writeLocalChanges now db changes = .ok db') {recordId : RecordId}
    (hid : recordId ∉ changes.map (·.1.recordId)) : getHead recordId db' = getHead recordId db := by
  induction changes generalizing db with
  | nil =>
      obtain rfl : db = db' := Except.ok.inj h
      rfl
  | cons change changes ih =>
      rw [List.map_cons, List.mem_cons, not_or] at hid
      rw [writeLocalChanges_cons] at h
      cases hwrite : writeLocalChange change.1 now change.2 db with
      | error e =>
          rw [hwrite] at h
          cases h
      | ok result =>
          rw [hwrite] at h
          rw [ih h hid.2, getHead_writeLocalChange hwrite, if_neg hid.1]

/-- The head of a record whose next version was written. -/
theorem head_of_written {changes : List (LocalRecordChange × ChangeId)}
    (h : writeLocalChanges now db changes = .ok db')
    (hids : (changes.map (·.1.recordId)).Nodup) {change : LocalRecordChange × ChangeId}
    (hchange : change ∈ changes) {ciphertext : RecordCiphertext}
    (hform : change.1 = .create ciphertext ∨ change.1 = .update ciphertext) :
    ∃ head, getHead ciphertext.recordId db' = some head ∧
      head.record.recordId = ciphertext.recordId ∧ head.record.vaultId = ciphertext.vaultId ∧
      head.record.content = ciphertext.content := by
  induction changes generalizing db with
  | nil => cases hchange
  | cons first changes ih =>
      rw [List.map_cons, List.nodup_cons] at hids
      rw [writeLocalChanges_cons] at h
      cases hwrite : writeLocalChange first.1 now first.2 db with
      | error e =>
          rw [hwrite] at h
          cases h
      | ok result =>
          rw [hwrite] at h
          rcases List.mem_cons.1 hchange with rfl | hchange
          · have hid : change.1.recordId = ciphertext.recordId := by
              rcases hform with hform | hform <;> rw [hform] <;> rfl
            obtain ⟨hwid, hvault, hcontent, -⟩ := of_write_ciphertext hform hwrite
            refine ⟨⟨result.2, .pending⟩, ?_, hwid, hvault, hcontent⟩
            rw [getHead_writeLocalChanges h (hid ▸ hids.1), getHead_writeLocalChange hwrite,
              if_pos hid.symm]
          · exact ih h hids.2 hchange

/-- One turn of `writeReencryptedVersions`. -/
theorem writeReencryptedVersions_cons {version : RecordCiphertext × ℕ × ChangeId}
    {versions : List (RecordCiphertext × ℕ × ChangeId)}
    (h : writeReencryptedVersions now db (version :: versions) = .ok db') :
    ∃ db₁, writeReencryptedVersions now db₁ versions = .ok db' ∧
      (((getHead version.1.recordId db).filter fun head =>
          head.record.version = version.2.1 && head.record.deletedAt.isNone).isSome = false ∧
          db₁ = db ∨
        ∃ written, writeLocalChange (.update version.1) now version.2.2 db = .ok (db₁, written)) := by
  unfold writeReencryptedVersions at h
  rw [List.foldlM_cons] at h
  obtain ⟨db₁, hfirst, hrest⟩ := bind_eq_ok.mp h
  refine ⟨db₁, hrest, ?_⟩
  cases hhead : getHead version.1.recordId db with
  | none =>
      rw [hhead] at hfirst
      obtain rfl := Except.ok.inj hfirst
      exact .inl ⟨rfl, rfl⟩
  | some head =>
      rw [hhead] at hfirst
      dsimp only at hfirst
      split at hfirst
      · next hskip =>
          obtain rfl := Except.ok.inj hfirst
          refine .inl ⟨?_, rfl⟩
          rw [Option.filter_some_neg, Option.isSome_none]
          rcases hskip with hnumber | hdeleted
          · simp [hnumber]
          · cases hdeletedAt : head.record.deletedAt with
            | none =>
                rw [hdeletedAt] at hdeleted
                cases hdeleted
            | some deleted => simp
      · obtain ⟨out, hwrite, hout⟩ := bind_eq_ok.mp hfirst
        obtain rfl : out.1 = db₁ := Except.ok.inj hout
        exact .inr ⟨out.2, hwrite⟩

theorem getHead_writeReencryptedVersions {versions : List (RecordCiphertext × ℕ × ChangeId)}
    (h : writeReencryptedVersions now db versions = .ok db') {recordId : RecordId}
    (hid : recordId ∉ versions.map (·.1.recordId)) :
    getHead recordId db' = getHead recordId db := by
  induction versions generalizing db with
  | nil =>
      obtain rfl : db = db' := Except.ok.inj h
      rfl
  | cons version versions ih =>
      rw [List.map_cons, List.mem_cons, not_or] at hid
      obtain ⟨db₁, hrest, hfirst⟩ := writeReencryptedVersions_cons h
      rw [ih hrest hid.2]
      rcases hfirst with ⟨-, rfl⟩ | ⟨written, hwrite⟩
      · rfl
      · rw [getHead_writeLocalChange hwrite]
        exact if_neg hid.1

/-- The head of a record whose re-encrypted version was written. -/
theorem head_of_reencrypted {versions : List (RecordCiphertext × ℕ × ChangeId)}
    (h : writeReencryptedVersions now db versions = .ok db')
    (hids : (versions.map (·.1.recordId)).Nodup) {version : RecordCiphertext × ℕ × ChangeId}
    (hversion : version ∈ versions)
    (hhead : ((getHead version.1.recordId db).filter fun head =>
      head.record.version = version.2.1 && head.record.deletedAt.isNone).isSome = true) :
    ∃ head, getHead version.1.recordId db' = some head ∧
      head.record.recordId = version.1.recordId ∧ head.record.vaultId = version.1.vaultId ∧
      head.record.content = version.1.content := by
  induction versions generalizing db with
  | nil => cases hversion
  | cons first versions ih =>
      rw [List.map_cons, List.nodup_cons] at hids
      obtain ⟨db₁, hrest, hfirst⟩ := writeReencryptedVersions_cons h
      rcases List.mem_cons.1 hversion with rfl | hversion
      · rcases hfirst with ⟨hnone, -⟩ | ⟨written, hwrite⟩
        · rw [hnone] at hhead
          cases hhead
        · obtain ⟨hwid, hvault, hcontent, -⟩ := of_write_ciphertext (.inr rfl) hwrite
          refine ⟨⟨written, .pending⟩, ?_, hwid, hvault, hcontent⟩
          rw [getHead_writeReencryptedVersions hrest hids.1, getHead_writeLocalChange hwrite]
          exact if_pos rfl
      · have hne : version.1.recordId ≠ first.1.recordId := fun heq =>
          hids.1 (heq ▸ List.mem_map_of_mem (f := fun v => v.1.recordId) hversion)
        refine ih hrest hids.2 hversion ?_
        rcases hfirst with ⟨-, rfl⟩ | ⟨written, hwrite⟩
        · exact hhead
        · have hother : ¬ version.1.recordId = (LocalRecordChange.update first.1).recordId := hne
          rw [getHead_writeLocalChange hwrite, if_neg hother]
          exact hhead

end Writes

/-! ### What the updates under way hold -/

section Invariant

variable (C : Ciphers Text) (E : ExportEnv) (keys : SecretsStore)

/-- A payload that was read: of the current format and a known type. -/
structure StoredCopy.Opened (copy : StoredCopy) : Prop where
  version : JsObject.get? copy.payload "schemaVersion" = some (.number currentSchemaVersion)
  type : isRecordType (JsObject.get? copy.payload "type") = true

/-- A ciphertext says what was read, but for some parts. -/
def CiphertextSays (parts : List String) (copy : StoredCopy) (ciphertext : RecordCiphertext) :
    Prop :=
  ∃ payload, decryptPayload C E keys (ciphertext.toRecord 1) = some payload ∧
    SameApart parts payload copy.payload

/-- What an update under way holds: each record once, copies that opened, and versions that say what
was read but for its part. -/
def UpdateHolds : Derived → Prop
  | .idle => True
  | .reading _ todo copies =>
    (copies.map (·.recordId) ++ todo).Nodup ∧ ∀ copy ∈ copies, copy.Opened
  | .making edit copies made =>
    (made.map (·.1.recordId) ++ copies.map (·.recordId)).Nodup ∧ (∀ copy ∈ copies, copy.Opened) ∧
      ∀ version ∈ made, version.2.recordId = version.1.recordId ∧
        CiphertextSays C E keys [edit.part] version.1 version.2
  | .moving copy _ => copy.Opened
  | .moved copy ciphertext => CiphertextSays C E keys [] copy ciphertext
  | .rekeying changes =>
    (changes.map (·.1.recordId)).Nodup ∧ ∀ change ∈ changes,
      decryptPayload C E keys { change.1 with content := change.2 } =
        decryptPayload C E keys change.1

def DerivedInvariant (s : DerivedState) : Prop := ∀ i, UpdateHolds C E keys (s.updates i)

variable {C E keys} {lowerCase : Text → Text} {store : SecretsStore} {s t : DerivedState}

theorem DerivedInvariant.setUpdate (h : DerivedInvariant C E keys s) {i : ℕ} {update : Derived}
    (hupdate : UpdateHolds C E keys update) : DerivedInvariant C E keys (s.setUpdate i update) := by
  intro j
  by_cases hj : j = i
  · subst hj
    rw [setUpdate_self]
    exact hupdate
  · rw [setUpdate_of_ne s hj]
    exact h j

theorem of_storedRecord {db : LocalDb} {recordId : RecordId} {copy : StoredCopy}
    (h : storedRecord C E store db recordId = some copy) :
    copy.recordId = recordId ∧ copy.Opened := by
  obtain ⟨head, -, hcopy⟩ := Option.bind_eq_some_iff.1 h
  obtain ⟨payload, hpayload, rfl⟩ := Option.map_eq_some_iff.1 hcopy
  exact ⟨rfl, (of_decryptPayload hpayload).1, (of_decryptPayload hpayload).2⟩

/-- A turn of a tag edit reads the record, or passes it over. -/
theorem of_readTagged {db : LocalDb} {tag : Text} {recordId : RecordId}
    {copies copies' : List StoredCopy}
    (h : readTagged C E lowerCase store db tag recordId copies = some copies') :
    copies' = copies ∨
      ∃ copy, storedRecord C E store db recordId = some copy ∧ copies' = copies ++ [copy] := by
  unfold readTagged at h
  split at h
  · exact .inl (Option.some.inj h).symm
  · obtain ⟨copy, hcopy, h⟩ := Option.bind_eq_some_iff.1 h
    obtain ⟨tags, -, rfl⟩ := Option.map_eq_some_iff.1 h
    split
    · exact .inr ⟨copy, hcopy, rfl⟩
    · exact .inl rfl

/-- A version that is made well says what was read, but for the part of its update. -/
theorem ciphertextSays_made (hC : C.Correct) (hkeys : store.Within keys) {db : LocalDb}
    {edit : DerivedEdit} {copy : StoredCopy} (hopened : copy.Opened)
    (hstands : DateStands copy.payload) (hplace : edit = .favorite → Placeless copy.payload)
    (hhead : KeepsRest [edit.part] (headPayload C E store db copy.recordId) (some copy.payload))
    {now : Time} {data : JsObject}
    (hdata : stampedVersion C E lowerCase store db now edit copy = some data)
    (hreads : TextReadsBack E data) {nonce : Text} {content : Ciphertext}
    (hencrypt : encryptRecord C E.toJsonText store nonce copy.recordId copy.vaultId data =
      .ok content) :
    CiphertextSays C E keys [edit.part] copy ⟨copy.recordId, copy.vaultId, content, now⟩ := by
  obtain ⟨previous, other, hprevious, hother, hsame⟩ := hhead
  obtain rfl := Option.some.inj hother
  obtain ⟨edited, hedited, rfl⟩ := Option.map_eq_some_iff.1 hdata
  change (getHead copy.recordId db).bind _ = some previous at hprevious
  rw [hprevious] at hreads hencrypt
  have hparts : ∀ key ∈ ["type", "password", "passwordChangedAt"],
      key ∉ [edit.part, "schemaVersion"] := by
    cases edit <;> simp [DerivedEdit.part]
  have hstamped : SameApart [edit.part, "schemaVersion"] (stampChangedPassword edited
      (some previous) (some (.string (E.timeText now)))) copy.payload := by
    refine sameApart_stampChangedPassword (sameApart_data hplace hedited) (hsame.symm.mono ?_)
      hstands hparts _
    exact fun key hkey => List.mem_singleton.1 hkey ▸ List.mem_cons_self ..
  have htype : isRecordType (JsObject.get? (stampChangedPassword edited (some previous)
      (some (.string (E.timeText now)))) "type") = true := by
    rw [hstamped _ (hparts _ (by decide))]
    exact hopened.type
  exact ⟨_, payload_of_encrypted hC hkeys hencrypt hreads htype rfl rfl rfl,
    sameApart_set hstamped hopened.version⟩

/-- A moved record that is made well says what was read. -/
theorem ciphertextSays_moved (hC : C.Correct) (hkeys : store.Within keys) {copy : StoredCopy}
    (hopened : copy.Opened) (hstands : DateStands copy.payload)
    (hdated : (monitoredPassword copy.payload).isSome = true →
      (JsObject.get? copy.payload "passwordChangedAt").isSome = true)
    (hplace : Placeless copy.payload) {now : Time} (hreads : TextReadsBack E (movedData E now copy))
    {nonce : Text} {newId : RecordId} {target : VaultId} {content : Ciphertext}
    (hencrypt : encryptRecord C E.toJsonText store nonce newId target (movedData E now copy) =
      .ok content) : CiphertextSays C E keys [] copy ⟨newId, target, content, now⟩ := by
  have hstamped : SameApart ["schemaVersion"] (movedData E now copy) copy.payload :=
    sameApart_stampNewPassword (sameApart_recordDataOf hplace) hstands hdated (by decide) _
  have htype : isRecordType (JsObject.get? (movedData E now copy) "type") = true := by
    rw [hstamped _ (by decide)]
    exact hopened.type
  exact ⟨_, payload_of_encrypted hC hkeys hencrypt hreads htype rfl rfl rfl,
    sameApart_set hstamped hopened.version⟩

/-- A re-encrypted version says what it said. -/
theorem payload_of_reencrypt (hC : C.Correct) (hkeys : store.Within keys) {nonce : Text}
    {row : EncryptedRecord} {content : Ciphertext}
    (h : reencrypt C store nonce row = .content content) :
    decryptPayload C E keys { row with content := content } = decryptPayload C E keys row := by
  obtain ⟨-, plaintext, hopens, -⟩ := of_reencrypt h
  have hagain : store.decryptRecord C { row with content := content } = .ok plaintext :=
    (decryptRecord_reencrypted hC h fun _ => rfl).trans hopens
  unfold decryptPayload
  rw [hkeys.decryptRecord hopens, hkeys.decryptRecord hagain]

/-- The rows that are re-encrypted, in their order. -/
theorem rekeyChanges_rows (nonce : EncryptedRecord → Text) (rows : List EncryptedRecord) :
    ((rekeyChanges C store nonce rows).map (·.1)).Sublist rows ∧
      ∀ change ∈ rekeyChanges C store nonce rows,
        reencrypt C store (nonce change.1) change.1 = .content change.2 := by
  induction rows with
  | nil => exact ⟨List.Sublist.refl _, fun change hchange => nomatch hchange⟩
  | cons row rows ih =>
      obtain ⟨hsub, hchanges⟩ := ih
      unfold rekeyChanges at hsub hchanges ⊢
      rw [List.filterMap_cons]
      cases hcontent : reencrypt C store (nonce row) row with
      | content ciphertext =>
          refine ⟨hsub.cons_cons row, fun change hchange => ?_⟩
          rcases List.mem_cons.1 hchange with rfl | hchange
          · exact hcontent
          · exact hchanges change hchange
      | later => exact ⟨hsub.cons row, hchanges⟩
      | unreadable => exact ⟨hsub.cons row, hchanges⟩

/-- **What the updates hold is kept by every step that makes its versions well.** -/
theorem DerivedInvariant.step (hC : C.Correct) (h : DerivedInvariant C E keys s)
    (hstep : MadeStep C E lowerCase keys s t) : DerivedInvariant C E keys t := by
  obtain ⟨act, hstep, hwell⟩ := hstep
  cases hstep with
  | device op db hop => exact h
  | startTags i edit recordIds hids hidle =>
      exact h.setUpdate ⟨hids, fun copy hcopy => nomatch hcopy⟩
  | readTags i store hkeys edit recordId todo copies copies' hupdate hread =>
      have hholds := h i
      rw [hupdate] at hholds
      obtain ⟨hids, hopened⟩ := hholds
      rcases of_readTagged hread with rfl | ⟨copy, hcopy, rfl⟩
      · refine h.setUpdate ⟨hids.sublist ?_, hopened⟩
        exact List.Sublist.append_left (List.sublist_cons_self ..) _
      · obtain ⟨hid, hcopyOpened⟩ := of_storedRecord hcopy
        refine h.setUpdate ⟨?_, fun other hother => ?_⟩
        · rw [List.map_append, List.map_singleton, hid, List.append_assoc]
          exact hids
        · rcases List.mem_append.1 hother with hother | hother
          · exact hopened other hother
          · rw [List.mem_singleton.1 hother]
            exact hcopyOpened
  | startMaking i edit copies hupdate =>
      have hholds := h i
      rw [hupdate] at hholds
      obtain ⟨hids, hopened⟩ := hholds
      rw [List.append_nil] at hids
      exact h.setUpdate ⟨hids, hopened, fun version hversion => nomatch hversion⟩
  | readFavorite i store hkeys recordId copy hidle hread =>
      refine h.setUpdate ⟨List.nodup_singleton _, fun other hother => ?_,
        fun version hversion => nomatch hversion⟩
      rw [List.mem_singleton.1 hother]
      exact (of_storedRecord hread).2
  | make i store hkeys nonce now edit copy copies made data content hupdate hdata hencrypt =>
      have hholds := h i
      rw [hupdate] at hholds
      obtain ⟨hids, hopened, hmade⟩ := hholds
      obtain ⟨hstands, hplace, hhead, hreads⟩ := hwell edit copy copies made hupdate
      have hmeans := ciphertextSays_made hC hkeys
        (hopened copy (List.mem_cons_self ..)) hstands hplace hhead hdata
        (hreads data hdata) hencrypt
      refine h.setUpdate ⟨?_, fun other hother => hopened other (List.mem_cons_of_mem _ hother),
        fun version hversion => ?_⟩
      · rw [List.map_append, List.map_singleton, List.append_assoc]
        exact hids
      · rcases List.mem_append.1 hversion with hversion | hversion
        · exact hmade version hversion
        · rw [List.mem_singleton.1 hversion]
          exact ⟨rfl, hmeans⟩
  | write i now changeIds edit made db hupdate hwrite =>
      exact DerivedInvariant.setUpdate (s := { s with db := db }) h trivial
  | readMove i store hkeys recordId target copy hidle hread htarget =>
      exact h.setUpdate (of_storedRecord hread).2
  | makeMove i store hkeys nonce now newId copy target content hupdate hencrypt =>
      have hholds := h i
      rw [hupdate] at hholds
      obtain ⟨hstands, hdated, hplace, hreads⟩ := hwell copy target hupdate
      exact h.setUpdate (ciphertextSays_moved hC hkeys hholds hstands hdated hplace hreads hencrypt)
  | writeMove i now createId deleteId copy ciphertext db hupdate hwrite =>
      exact DerivedInvariant.setUpdate (s := { s with db := db }) h trivial
  | readRekey i store hkeys nonce vaultId keyVersion hidle hprimary =>
      obtain ⟨hsub, hchanges⟩ := @rekeyChanges_rows C store nonce
        (staleRecords vaultId keyVersion s.db)
      refine h.setUpdate ⟨?_, fun change hchange =>
        payload_of_reencrypt hC hkeys (hchanges change hchange)⟩
      have hlive : ((staleRecords vaultId keyVersion s.db).map (·.recordId)).Nodup := by
        refine List.Nodup.sublist (List.filter_sublist.map _) ?_
        rw [List.map_map]
        exact nodup_getAllLatest hprimary
      have hids := hlive.sublist (hsub.map (·.recordId))
      rw [List.map_map] at hids
      exact hids
  | writeRekey i now changeIds changes db hupdate hwrite =>
      have hholds := h i
      rw [hupdate] at hholds
      obtain ⟨hids, hmeans⟩ := hholds
      refine DerivedInvariant.setUpdate (s := { s with db := db }) h ⟨?_, fun change hchange =>
        hmeans change (List.mem_of_mem_drop hchange)⟩
      exact hids.sublist ((List.drop_sublist _ _).map _)
  | stop i => exact h.setUpdate trivial

/-- **What the updates hold, along every run** whose versions are made well. -/
theorem DerivedInvariant.of_reaches (hC : C.Correct) (hs : ∀ i, s.updates i = .idle)
    (hrun : Run.Reaches (MadeStep C E lowerCase keys) s t) : DerivedInvariant C E keys t := by
  have hstart : DerivedInvariant C E keys s := fun i => by
    rw [hs i]
    trivial
  have hkeep : ∀ s t, DerivedInvariant C E keys s → MadeStep C E lowerCase keys s t →
      DerivedInvariant C E keys t :=
    fun _ _ h hstep => h.step hC hstep
  exact Run.invariant hkeep hrun hstart

/-! ### Writes -/

/-- The head of a record whose next version was written says what the ciphertext says. -/
theorem headPayload_of_written {parts : List String} {copy : StoredCopy}
    {ciphertext : RecordCiphertext} (hmeans : CiphertextSays C E keys parts copy ciphertext)
    {db : LocalDb} {head : LocalRow} (hhead : getHead ciphertext.recordId db = some head)
    (hid : head.record.recordId = ciphertext.recordId)
    (hvault : head.record.vaultId = ciphertext.vaultId)
    (hcontent : head.record.content = ciphertext.content) : ∃ payload,
      headPayload C E keys db ciphertext.recordId = some payload ∧
        SameApart parts payload copy.payload := by
  obtain ⟨payload, hopens, hsame⟩ := hmeans
  refine ⟨payload, ?_, hsame⟩
  unfold headPayload
  rw [hhead, Option.bind_some, ← hopens]
  exact decryptPayload_congr hid hvault hcontent

/-- The records an edit has written say what it has read, but for its part. -/
theorem payload_of_write {now : Time} {changeIds : RecordId → ChangeId} {edit : DerivedEdit}
    {made : List (StoredCopy × RecordCiphertext)}
    (hholds : UpdateHolds C E keys (.making edit [] made)) {db db' : LocalDb}
    (hwrite : writeLocalChanges now db (made.map fun version =>
      (.update version.2, changeIds version.1.recordId)) = .ok db')
    {version : StoredCopy × RecordCiphertext} (hversion : version ∈ made) : ∃ payload,
      headPayload C E keys db' version.1.recordId = some payload ∧
        SameApart [edit.part] payload version.1.payload := by
  obtain ⟨hids, -, hmade⟩ := hholds
  obtain ⟨hid, hmeans⟩ := hmade version hversion
  have hnodup : ((made.map fun version => ((LocalRecordChange.update version.2,
      changeIds version.1.recordId) : LocalRecordChange × ChangeId)).map (·.1.recordId)).Nodup := by
    have hsame : (made.map fun version => ((LocalRecordChange.update version.2,
        changeIds version.1.recordId) : LocalRecordChange × ChangeId)).map (·.1.recordId) =
          made.map (·.1.recordId) := by
      rw [List.map_map]
      exact List.map_congr_left fun version hversion => (hmade version hversion).1
    rw [hsame]
    rw [List.map_nil, List.append_nil] at hids
    exact hids
  obtain ⟨head, hhead, hwid, hvault, hcontent⟩ := head_of_written hwrite hnodup
    (List.mem_map_of_mem hversion) (.inr rfl)
  rw [← hid]
  exact headPayload_of_written hmeans hhead hwid hvault hcontent

/-- The record a move has written says what it has read, when another record was there to move. -/
theorem payload_of_writeMove {now : Time} {createId deleteId : ChangeId} {copy : StoredCopy}
    {ciphertext : RecordCiphertext} (hmeans : CiphertextSays C E keys [] copy ciphertext)
    {db db' : LocalDb} (hwrite : writeLocalChanges now db
      [(.create ciphertext, createId), (.delete copy.recordId now true, deleteId)] = .ok db') :
    headPayload C E keys db copy.recordId = none ∨ ∃ payload,
      headPayload C E keys db' ciphertext.recordId = some payload ∧
        SameApart [] payload copy.payload := by
  by_cases hid : ciphertext.recordId = copy.recordId
  · -- a create finds no head
    refine .inl ?_
    rw [writeLocalChanges_cons] at hwrite
    unfold headPayload
    rw [← hid]
    cases hhead : getHead ciphertext.recordId db with
    | none => rfl
    | some head =>
        simp only [writeLocalChange, LocalRecordChange.recordId, hhead] at hwrite
        cases hwrite
  · refine .inr ?_
    have hnodup : ([((LocalRecordChange.create ciphertext, createId) :
        LocalRecordChange × ChangeId), (.delete copy.recordId now true, deleteId)].map
          (·.1.recordId)).Nodup := by
      change [ciphertext.recordId, copy.recordId].Nodup
      simpa using hid
    obtain ⟨head, hhead, hwid, hvault, hcontent⟩ := head_of_written hwrite hnodup
      (List.mem_cons_self ..) (.inl rfl)
    exact headPayload_of_written hmeans hhead hwid hvault hcontent

/-- The records that were re-encrypted say what they said when they were read. -/
theorem payload_of_writeRekey {now : Time} {changeIds : RecordId → ChangeId}
    {changes : List (EncryptedRecord × Ciphertext)}
    (hholds : UpdateHolds C E keys (.rekeying changes)) {db db' : LocalDb}
    (hwrite : writeReencryptedVersions now db
      ((changes.take rekeyBatchSize).map (rekeyedVersion changeIds)) = .ok db')
    {change : EncryptedRecord × Ciphertext} (hchange : change ∈ changes.take rekeyBatchSize)
    (hhead : (rekeyedHead db change).isSome = true) :
    headPayload C E keys db' change.1.recordId = decryptPayload C E keys change.1 := by
  obtain ⟨hids, hmeans⟩ := hholds
  have hnodup : (((changes.take rekeyBatchSize).map (rekeyedVersion changeIds)).map
      (·.1.recordId)).Nodup := by
    rw [List.map_map]
    exact hids.sublist ((List.take_sublist _ _).map _)
  obtain ⟨head, hwritten, hwid, hvault, hcontent⟩ := head_of_reencrypted hwrite hnodup
    (List.mem_map_of_mem hchange) hhead
  rw [← hmeans change (List.mem_of_mem_take hchange)]
  unfold headPayload
  change getHead change.1.recordId db' = some head at hwritten
  rw [hwritten, Option.bind_some]
  exact decryptPayload_congr hwid hvault hcontent

/-- **Derived updates and what they write over.**  In every run of a device whose versions are made
well, from one without updates under way, a write changes nothing but the part its update is about
exactly when it finds what the update has read, but for that part. -/
theorem derived_writes_keep_rest (hC : C.Correct) (hs : ∀ i, s.updates i = .idle)
    (hrun : Run.Reaches (MadeStep C E lowerCase keys) s t) {act : DerivedAct} {u : DerivedState}
    (hstep : DerivedStep C E lowerCase keys t act u) :
    WritesPart C E keys t act u ↔ HeadsAgree C E keys t act := by
  have hholds := DerivedInvariant.of_reaches hC hs hrun
  cases hstep with
  | write i now changeIds edit made db hupdate hwrite =>
      have hown := hholds i
      rw [hupdate] at hown
      refine forall_congr' fun edit' => forall_congr' fun made' => forall_congr' fun hupdate' => ?_
      obtain ⟨rfl, -, rfl⟩ := Derived.making.inj (hupdate.symm.trans hupdate')
      refine forall_congr' fun version => forall_congr' fun hversion => ?_
      obtain ⟨payload, hpayload, hsame⟩ := payload_of_write hown hwrite hversion
      rw [setUpdate_db, hpayload]
      exact keepsRest_congr hsame
  | writeMove i now createId deleteId copy ciphertext db hupdate hwrite =>
      have hown := hholds i
      rw [hupdate] at hown
      refine forall_congr' fun copy' => forall_congr' fun ciphertext' =>
        forall_congr' fun hupdate' => ?_
      obtain ⟨rfl, rfl⟩ := Derived.moved.inj (hupdate.symm.trans hupdate')
      rcases payload_of_writeMove hown hwrite with hnone | ⟨payload, hpayload, hsame⟩
      · rw [hnone]
        constructor <;> rintro ⟨old, _, hold, -⟩ <;> cases hold
      · rw [setUpdate_db, hpayload]
        exact keepsRest_congr hsame
  | writeRekey i now changeIds changes db hupdate hwrite =>
      have hown := hholds i
      rw [hupdate] at hown
      refine forall_congr' fun changes' => forall_congr' fun hupdate' => ?_
      obtain rfl := Derived.rekeying.inj (hupdate.symm.trans hupdate')
      refine forall_congr' fun change => forall_congr' fun hchange => forall_congr' fun hhead => ?_
      rw [setUpdate_db, payload_of_writeRekey hown hwrite hchange hhead]
  | _ => exact Iff.rfl

end Invariant

/-! ### A note that is starred -/

open IdealCipher (wordCiphers wordCiphers_ideal)

/-- The payload of a starred note. -/
def starredNote (title : Char) : JsObject :=
  [("type", .string "note".toList), ("title", .string [title]), ("favorite", .bool true),
    ("schemaVersion", .number currentSchemaVersion)]

/-- An environment that parses the payloads of two notes, one of them starred. -/
def starsEnv : ExportEnv :=
  { noteEnv with
    parse := fun text =>
      [titledNote 'a', titledNote 'b', starredNote 'a'].findSome? fun note =>
        if text = jsonText false 0 (.object note) then some (.object note) else none }

/-- The note encrypted with a payload. -/
def noteCiphertext (payload : JsObject) : Ciphertext :=
  ((encryptRecord wordCiphers starsEnv.toJsonText exportedStore ['k'] 7 1
    (JsObject.without payload ["schemaVersion"])).toOption).getD ⟨[], [], 0, 0⟩

/-- The note as the list has it. -/
def listedNote : StoredCopy := ⟨7, 1, titledNote 'a'⟩

/-- The update of the note, before and after its version is made. -/
def starring : Derived := .making .favorite [listedNote] []

def starred : Derived :=
  .making .favorite [] [(listedNote, ⟨7, 1, noteCiphertext (starredNote 'a'), 9⟩)]

/-- The write of the starred note. -/
def writeStarred : DeviceOp :=
  .write 9 [(.update ⟨7, 1, noteCiphertext (starredNote 'a'), 9⟩, 301)]

/-- The title of the note is edited. -/
def editTitle : DeviceOp := .write 8 [(.update ⟨7, 1, noteCiphertext (titledNote 'b'), 8⟩, 300)]

def idleDevice : DerivedState := ⟨titlesDb, fun _ => .idle⟩

set_option maxRecDepth 4000 in
/-- The list reads the note. -/
theorem stored_note :
    storedRecord wordCiphers starsEnv exportedStore titlesDb 7 = some listedNote := by
  rfl

set_option maxRecDepth 4000 in
theorem payload_note : headPayload wordCiphers starsEnv exportedStore titlesDb 7 =
    some (titledNote 'a') := by
  rfl

theorem reads_note : DerivedStep wordCiphers starsEnv id exportedStore idleDevice
    (.readFavorite 0 exportedStore 7) (idleDevice.setUpdate 0 starring) :=
  .readFavorite 0 exportedStore (fun _ _ h => h) 7 listedNote rfl stored_note

theorem makes_starred {s : DerivedState} (hupdate : s.updates 0 = starring) :
    DerivedStep wordCiphers starsEnv id exportedStore s (.make 0 exportedStore ['k'] 9)
      (s.setUpdate 0 starred) :=
  .make 0 exportedStore (fun _ _ h => h) ['k'] 9 .favorite listedNote [] []
    (JsObject.without (starredNote 'a') ["schemaVersion"]) (noteCiphertext (starredNote 'a'))
    hupdate (by rfl) (by decide +kernel)

theorem writes_starred {s : DerivedState} (hupdate : s.updates 0 = starred)
    (hwrite : writeStarred.run s.db = .ok (writeStarred.after s.db)) :
    DerivedStep wordCiphers starsEnv id exportedStore s (.write 0 9 fun _ => 301)
      ({ s with db := writeStarred.after s.db }.setUpdate 0 .idle) :=
  .write 0 9 (fun _ => 301) .favorite _ _ hupdate hwrite

/-- Nothing happens between the list and the write. -/
def quietState : DerivedState := (idleDevice.setUpdate 0 starring).setUpdate 0 starred

theorem madeWell_note : MadeWell wordCiphers starsEnv id (idleDevice.setUpdate 0 starring)
    (.make 0 exportedStore ['k'] 9) := by
  intro edit copy copies made hupdate
  obtain ⟨rfl, hcopies, rfl⟩ := Derived.making.inj hupdate
  obtain ⟨rfl, rfl⟩ := List.cons.inj hcopies
  refine ⟨⟨fun date hdate => (nomatch hdate), fun password hpassword => ?_⟩,
    fun _ key hkey hne => ?_, ⟨titledNote 'a', titledNote 'a', payload_note, rfl, fun _ _ => rfl⟩,
    fun data hdata => ?_⟩
  · have hnone : monitoredPassword listedNote.payload = none := by rfl
    rw [hnone] at hpassword
    cases hpassword
  · simp only [placeFields, List.mem_cons, List.not_mem_nil, or_false] at hkey
    rcases hkey with rfl | rfl | rfl | rfl | rfl | rfl | rfl <;> first | rfl | exact absurd rfl hne
  · have hstamped : stampedVersion wordCiphers starsEnv id exportedStore titlesDb 9 .favorite
        listedNote = some (JsObject.without (starredNote 'a') ["schemaVersion"]) := by rfl
    obtain rfl := Option.some.inj (hstamped.symm.trans hdata)
    rfl

theorem reaches_quiet : Run.Reaches (MadeStep wordCiphers starsEnv id exportedStore) idleDevice
    quietState :=
  (Relation.ReflTransGen.single ⟨_, reads_note, trivial⟩).tail
    ⟨_, makes_starred (setUpdate_self ..), madeWell_note⟩

/-- A note that is starred while nothing else happens keeps its title. -/
theorem derived_writes_keep_rest_note :
    WritesPart wordCiphers starsEnv exportedStore quietState (.write 0 9 fun _ => 301)
      ({ quietState with db := writeStarred.after titlesDb }.setUpdate 0 .idle) := by
  refine (derived_writes_keep_rest wordCiphers_ideal.toCorrect (fun _ => rfl) reaches_quiet
    (writes_starred (setUpdate_self ..) (by decide +kernel))).2 ?_
  intro edit made hupdate version hversion
  obtain ⟨rfl, -, rfl⟩ := Derived.making.inj ((setUpdate_self ..).symm.trans hupdate)
  rw [List.mem_singleton.1 hversion]
  exact ⟨titledNote 'a', titledNote 'a', payload_note, rfl, fun _ _ => rfl⟩

/-- The title is edited between the list and the click. -/
def editedState : DerivedState :=
  ({ idleDevice.setUpdate 0 starring with db := editTitle.after titlesDb }).setUpdate 0 starred

/-- **A star writes an older title back**: the list's copy was read before an edit. -/
theorem star_writes_older_title :
    Run.Reaches (fun s t => ∃ act, DerivedStep wordCiphers starsEnv id exportedStore s act t)
      idleDevice editedState ∧
    DerivedStep wordCiphers starsEnv id exportedStore editedState (.write 0 9 fun _ => 301)
      ({ editedState with db := writeStarred.after editedState.db }.setUpdate 0 .idle) ∧
    ¬ WritesPart wordCiphers starsEnv exportedStore editedState (.write 0 9 fun _ => 301)
      ({ editedState with db := writeStarred.after editedState.db }.setUpdate 0 .idle) := by
  refine ⟨?_, writes_starred (setUpdate_self ..) (by decide +kernel), fun hpart => ?_⟩
  · refine ((Relation.ReflTransGen.single ⟨_, reads_note⟩).tail
      ⟨_, .device editTitle (editTitle.after titlesDb) (by decide +kernel)⟩).tail
        ⟨_, makes_starred (setUpdate_self idleDevice 0 starring)⟩
  · obtain ⟨old, new, hold, hnew, hsame⟩ := hpart .favorite _ (setUpdate_self ..) _
      (List.mem_singleton_self _)
    have hbefore : (headPayload wordCiphers starsEnv exportedStore editedState.db 7).all
        (fun payload => JsObject.text? payload "title" = some ['b']) = true := by
      decide +kernel
    have hafter : (headPayload wordCiphers starsEnv exportedStore
        (writeStarred.after editedState.db) 7).all
          (fun payload => JsObject.text? payload "title" = some ['a']) = true := by
      decide +kernel
    change headPayload wordCiphers starsEnv exportedStore editedState.db 7 = some old at hold
    change headPayload wordCiphers starsEnv exportedStore (writeStarred.after editedState.db) 7 =
      some new at hnew
    rw [hold, Option.all_some, decide_eq_true_eq] at hbefore
    rw [hnew, Option.all_some, decide_eq_true_eq] at hafter
    unfold JsObject.text? at hbefore hafter
    rw [hsame "title" (by decide)] at hafter
    rw [hafter] at hbefore
    cases hbefore

end Passmgr
