/-
# Updates that are derived from what was read

A tag is renamed or deleted on every record that has it (`use-tags.ts`), a record is starred
(`use-toggle-favorite.ts`), moved to another vault (`RecordRepository.move`), or re-encrypted after
a rotation (`rekey.ts`).  Each of them reads the content of a record, changes a part of it and writes
the next version, and between any two of these steps other writes and pulls may happen.

Main definitions:

* `TagEdit.edit`, `withTags`, `toggledFavorite` — what is changed;
* `stampNewPassword`, `stampedVersion`, `movedData` — what is written of it;
* `DerivedState`, `DerivedStep` — a device with any number of such updates under way;
* `WritesPart` — a write changes nothing but the part that its update is about;
* `HeadsAgree` — a write finds what its update has read;
* `MadeWell` — the data of a version that is made is what was read, but for that part.
-/

import Passmgr.ImportExport
import Passmgr.PendingRekey
import Passmgr.Tags

set_option relaxedAutoImplicit false
set_option autoImplicit false

namespace Passmgr

open IdealCipher (Ciphers)

/-! ### Tags and favourites -/

/-- What a decrypted record of the list has besides its content. -/
def placeFields : List String :=
  ["recordId", "vaultId", "version", "clientUpdatedAt", "created_at", "firstCreatedAt",
    "schemaVersion"]

/-- `recordDataOf`: a decrypted record's content, without where and when it was stored. -/
def recordDataOf (payload : JsObject) : JsObject := JsObject.without payload placeFields

/-- `toggleFavorite`: the content of a record of the list, starred or unstarred. -/
def toggledFavorite (payload : JsObject) : JsObject :=
  let data := JsObject.without (recordDataOf payload) ["favorite"]
  if (JsObject.get? payload "favorite").any (·.truthy) then data
  else JsObject.set data "favorite" (.bool true)

/-- `data.tags ?? []`; what goes over the tags throws when they are no texts. -/
def storedTags (payload : JsObject) : Option (List Text) :=
  match givenField payload "tags" with
  | none => some []
  | some (.array items) => items.mapM Json.text?
  | some _ => none

/-- `withTags`. -/
def withTags (data : JsObject) (tags : List Text) : JsObject :=
  let data := JsObject.without data ["tags"]
  if tags = [] then data else JsObject.set data "tags" (.array (tags.map .string))

/-- An edit of a tag. -/
inductive TagEdit
  | rename (tag newTag : Text)
  | delete (tag : Text)
  deriving DecidableEq, Repr

/-- The tag that is edited. -/
def TagEdit.tag : TagEdit → Text
  | .rename tag _ => tag
  | .delete tag => tag

/-- An update by `updateMany`. -/
inductive DerivedEdit
  | tags (edit : TagEdit)
  | favorite
  deriving DecidableEq, Repr

/-- The part of a record it is about. -/
def DerivedEdit.part : DerivedEdit → String
  | .tags _ => "tags"
  | .favorite => "favorite"

section Tags

variable (lowerCase : Text → Text)

/-- `hasTag`. -/
def hasTag (tags : List Text) (tag : Text) : Bool :=
  tags.any fun own => tagKey lowerCase own = tagKey lowerCase tag

/-- `renameTagIn` and `removeTagFrom`. -/
def TagEdit.edit (tags : List Text) : TagEdit → List Text
  | .rename tag newTag => normalizeTags lowerCase (tags.map fun own =>
      if tagKey lowerCase own = tagKey lowerCase tag then newTag else own)
  | .delete tag => normalizeTags lowerCase (tags.filter fun own =>
      tagKey lowerCase own ≠ tagKey lowerCase tag)

/-- The content an update writes, of a payload it has read. -/
def DerivedEdit.data (payload : JsObject) : DerivedEdit → Option JsObject
  | .tags edit => (storedTags payload).map fun tags =>
      withTags (JsObject.without payload ["schemaVersion"]) (edit.edit lowerCase tags)
  | .favorite => some (toggledFavorite payload)

end Tags

/-! ### What is written -/

/-- `stampNewPassword`: a new record, or a moved one, which brings its date along. -/
def stampNewPassword (data : JsObject) (now : Json) : JsObject :=
  match monitoredPassword data with
  | none => withPasswordChangedAt data none
  | some _ => withPasswordChangedAt data ((givenField data "passwordChangedAt").or (some now))

/-- A record as an update has read it. -/
structure StoredCopy where
  recordId : RecordId
  vaultId : VaultId
  payload : JsObject

/-- Where an update is. -/
inductive Derived
  | idle
  /-- The records whose tags are still to be read, and those that were. -/
  | reading (edit : TagEdit) (todo : List RecordId) (copies : List StoredCopy)
  /-- `updateMany`: the records whose next version is still to be made, and those of which it is. -/
  | making (edit : DerivedEdit) (copies : List StoredCopy)
      (made : List (StoredCopy × RecordCiphertext))
  /-- A record that is to be moved. -/
  | moving (copy : StoredCopy) (target : VaultId)
  /-- The record it becomes. -/
  | moved (copy : StoredCopy) (ciphertext : RecordCiphertext)
  /-- The records of a rotated vault that are still to be written. -/
  | rekeying (changes : List (EncryptedRecord × Ciphertext))

/-- A device, and its updates. -/
structure DerivedState where
  db : LocalDb
  updates : ℕ → Derived

def DerivedState.setUpdate (s : DerivedState) (i : ℕ) (update : Derived) : DerivedState :=
  { s with updates := Function.update s.updates i update }

@[simp] theorem setUpdate_db (s : DerivedState) (i : ℕ) (update : Derived) :
    (s.setUpdate i update).db = s.db := rfl

@[simp] theorem setUpdate_self (s : DerivedState) (i : ℕ) (update : Derived) :
    (s.setUpdate i update).updates i = update := Function.update_self ..

theorem setUpdate_of_ne (s : DerivedState) {i j : ℕ} (h : j ≠ i) (update : Derived) :
    (s.setUpdate i update).updates j = s.updates j := Function.update_of_ne h ..

section Functions

variable (C : Ciphers Text) (E : ExportEnv) (lowerCase : Text → Text)

/-- `storedRecord`, and what the list has of a record: a live head that opens. -/
def storedRecord (store : SecretsStore) (db : LocalDb) (recordId : RecordId) : Option StoredCopy :=
  ((getHead recordId db).filter (·.record.deletedAt.isNone)).bind fun head =>
    (decryptPayload C E store head.record).map fun payload =>
      ⟨recordId, head.record.vaultId, payload⟩

/-- One turn of a tag edit: a record that is gone or doesn't have the tag is passed over; it throws
when a head doesn't open or its tags are no texts. -/
def readTagged (store : SecretsStore) (db : LocalDb) (tag : Text) (recordId : RecordId)
    (copies : List StoredCopy) : Option (List StoredCopy) :=
  if ((getHead recordId db).filter (·.record.deletedAt.isNone)).isNone then some copies
  else
    (storedRecord C E store db recordId).bind fun copy =>
      (storedTags copy.payload).map fun tags =>
        if hasTag lowerCase tags tag then copies ++ [copy] else copies

/-- The data of the next version of a record, dated by its head. -/
def stampedVersion (store : SecretsStore) (db : LocalDb) (now : Time) (edit : DerivedEdit)
    (copy : StoredCopy) : Option JsObject :=
  (edit.data lowerCase copy.payload).map fun data =>
    stampChangedPassword data
      ((getHead copy.recordId db).bind fun head => decryptPayload C E store head.record)
      (some (.string (E.timeText now)))

/-- The data of a moved record. -/
def movedData (now : Time) (copy : StoredCopy) : JsObject :=
  stampNewPassword (recordDataOf copy.payload) (.string (E.timeText now))

/-- The live records of a vault under an older key than its current one. -/
def staleRecords (vaultId : VaultId) (keyVersion : ℕ) (db : LocalDb) : List EncryptedRecord :=
  ((getAllLatest db).map (·.row)).filter fun row =>
    row.vaultId = vaultId && row.content.keyVersion < keyVersion

/-- `reencryptRotatedVaults`: what is re-encrypted of them. -/
def rekeyChanges (store : SecretsStore) (nonce : EncryptedRecord → Text)
    (rows : List EncryptedRecord) : List (EncryptedRecord × Ciphertext) :=
  rows.filterMap fun row =>
    match reencrypt C store (nonce row) row with
    | .content ciphertext => some (row, ciphertext)
    | _ => none

end Functions

/-- One version of `writeReencryptedVersions`; the record keeps its edit time. -/
def rekeyedVersion (changeIds : RecordId → ChangeId) (change : EncryptedRecord × Ciphertext) :
    RecordCiphertext × ℕ × ChangeId :=
  (⟨change.1.recordId, change.1.vaultId, change.2, change.1.clientUpdatedAt⟩, change.1.version,
    changeIds change.1.recordId)

/-! ### Runs -/

/-- What happens on the device.  Each step of an update has the keys that are loaded then. -/
inductive DerivedAct
  /-- Any operation of its own: writes, pulls, and the rest. -/
  | device (op : DeviceOp)
  | startTags (i : ℕ) (edit : TagEdit) (recordIds : List RecordId)
  | readTags (i : ℕ) (store : SecretsStore)
  | startMaking (i : ℕ)
  | readFavorite (i : ℕ) (store : SecretsStore) (recordId : RecordId)
  | make (i : ℕ) (store : SecretsStore) (nonce : Text) (now : Time)
  | write (i : ℕ) (now : Time) (changeIds : RecordId → ChangeId)
  | readMove (i : ℕ) (store : SecretsStore) (recordId : RecordId) (target : VaultId)
  | makeMove (i : ℕ) (store : SecretsStore) (nonce : Text) (now : Time) (newId : RecordId)
  | writeMove (i : ℕ) (now : Time) (createId deleteId : ChangeId)
  | readRekey (i : ℕ) (store : SecretsStore) (nonce : EncryptedRecord → Text) (vaultId : VaultId)
      (keyVersion : ℕ)
  | writeRekey (i : ℕ) (now : Time) (changeIds : RecordId → ChangeId)
  /-- The update fails, or the app is closed. -/
  | stop (i : ℕ)

/-- The keys of a device are some of all the keys there are. -/
def SecretsStore.Within (store keys : SecretsStore) : Prop :=
  ∀ id key, store.vaultKeys id = some key → keys.vaultKeys id = some key

section Runs

variable (C : Ciphers Text) (E : ExportEnv) (lowerCase : Text → Text) (keys : SecretsStore)

inductive DerivedStep (s : DerivedState) : DerivedAct → DerivedState → Prop
  | device (op : DeviceOp) (db : LocalDb) (h : op.run s.db = .ok db) :
    DerivedStep s (.device op) { s with db := db }
  /-- The records of the list that have the tag, which may be any by now. -/
  | startTags (i : ℕ) (edit : TagEdit) (recordIds : List RecordId) (hids : recordIds.Nodup)
      (h : s.updates i = .idle) :
    DerivedStep s (.startTags i edit recordIds) (s.setUpdate i (.reading edit recordIds []))
  | readTags (i : ℕ) (store : SecretsStore) (hkeys : store.Within keys) (edit : TagEdit)
      (recordId : RecordId) (todo : List RecordId) (copies copies' : List StoredCopy)
      (h : s.updates i = .reading edit (recordId :: todo) copies)
      (hread : readTagged C E lowerCase store s.db edit.tag recordId copies = some copies') :
    DerivedStep s (.readTags i store) (s.setUpdate i (.reading edit todo copies'))
  | startMaking (i : ℕ) (edit : TagEdit) (copies : List StoredCopy)
      (h : s.updates i = .reading edit [] copies) :
    DerivedStep s (.startMaking i) (s.setUpdate i (.making (.tags edit) copies []))
  /-- The list reads a record; it is starred some time later. -/
  | readFavorite (i : ℕ) (store : SecretsStore) (hkeys : store.Within keys) (recordId : RecordId)
      (copy : StoredCopy) (h : s.updates i = .idle)
      (hread : storedRecord C E store s.db recordId = some copy) :
    DerivedStep s (.readFavorite i store recordId) (s.setUpdate i (.making .favorite [copy] []))
  | make (i : ℕ) (store : SecretsStore) (hkeys : store.Within keys) (nonce : Text) (now : Time)
      (edit : DerivedEdit) (copy : StoredCopy) (copies : List StoredCopy)
      (made : List (StoredCopy × RecordCiphertext)) (data : JsObject) (content : Ciphertext)
      (h : s.updates i = .making edit (copy :: copies) made)
      (hdata : stampedVersion C E lowerCase store s.db now edit copy = some data)
      (hencrypt : encryptRecord C E.toJsonText store nonce copy.recordId copy.vaultId data =
        .ok content) :
    DerivedStep s (.make i store nonce now) (s.setUpdate i
      (.making edit copies (made ++ [(copy, ⟨copy.recordId, copy.vaultId, content, now⟩)])))
  | write (i : ℕ) (now : Time) (changeIds : RecordId → ChangeId) (edit : DerivedEdit)
      (made : List (StoredCopy × RecordCiphertext)) (db : LocalDb)
      (h : s.updates i = .making edit [] made)
      (hwrite : writeLocalChanges now s.db (made.map fun version =>
        (.update version.2, changeIds version.1.recordId)) = .ok db) :
    DerivedStep s (.write i now changeIds) ({ s with db := db }.setUpdate i .idle)
  /-- The list reads a record; it is moved some time later. -/
  | readMove (i : ℕ) (store : SecretsStore) (hkeys : store.Within keys) (recordId : RecordId)
      (target : VaultId) (copy : StoredCopy) (h : s.updates i = .idle)
      (hread : storedRecord C E store s.db recordId = some copy) (htarget : target ≠ copy.vaultId) :
    DerivedStep s (.readMove i store recordId target) (s.setUpdate i (.moving copy target))
  | makeMove (i : ℕ) (store : SecretsStore) (hkeys : store.Within keys) (nonce : Text) (now : Time)
      (newId : RecordId) (copy : StoredCopy) (target : VaultId) (content : Ciphertext)
      (h : s.updates i = .moving copy target)
      (hencrypt : encryptRecord C E.toJsonText store nonce newId target (movedData E now copy) =
        .ok content) :
    DerivedStep s (.makeMove i store nonce now newId)
      (s.setUpdate i (.moved copy ⟨newId, target, content, now⟩))
  | writeMove (i : ℕ) (now : Time) (createId deleteId : ChangeId) (copy : StoredCopy)
      (ciphertext : RecordCiphertext) (db : LocalDb) (h : s.updates i = .moved copy ciphertext)
      (hwrite : writeLocalChanges now s.db
        [(.create ciphertext, createId), (.delete copy.recordId now true, deleteId)] = .ok db) :
    DerivedStep s (.writeMove i now createId deleteId) ({ s with db := db }.setUpdate i .idle)
  /-- A record version is in its table once. -/
  | readRekey (i : ℕ) (store : SecretsStore) (hkeys : store.Within keys)
      (nonce : EncryptedRecord → Text) (vaultId : VaultId) (keyVersion : ℕ)
      (h : s.updates i = .idle) (hprimary : (s.db.records.map (·.key)).Nodup) :
    DerivedStep s (.readRekey i store nonce vaultId keyVersion) (s.setUpdate i
      (.rekeying (rekeyChanges C store nonce (staleRecords vaultId keyVersion s.db))))
  | writeRekey (i : ℕ) (now : Time) (changeIds : RecordId → ChangeId)
      (changes : List (EncryptedRecord × Ciphertext)) (db : LocalDb)
      (h : s.updates i = .rekeying changes)
      (hwrite : writeReencryptedVersions now s.db
        ((changes.take rekeyBatchSize).map (rekeyedVersion changeIds)) = .ok db) :
    DerivedStep s (.writeRekey i now changeIds)
      ({ s with db := db }.setUpdate i (.rekeying (changes.drop rekeyBatchSize)))
  | stop (i : ℕ) : DerivedStep s (.stop i) (s.setUpdate i .idle)

/-! ### What is kept -/

/-- The same content, but for some parts. -/
def SameApart (parts : List String) (payload other : JsObject) : Prop :=
  ∀ key ∉ parts, JsObject.get? payload key = JsObject.get? other key

/-- The content of the head of a record, to whom has the keys. -/
def headPayload (db : LocalDb) (recordId : RecordId) : Option JsObject :=
  (getHead recordId db).bind fun head => decryptPayload C E keys head.record

/-- Two contents that both open and are the same but for some parts. -/
def KeepsRest (parts : List String) (before after : Option JsObject) : Prop :=
  ∃ payload other, before = some payload ∧ after = some other ∧ SameApart parts other payload

/-- The head a re-encrypted version is put on top of: the one that has the number that was read. -/
def rekeyedHead (db : LocalDb) (change : EncryptedRecord × Ciphertext) : Option LocalRow :=
  (getHead change.1.recordId db).filter fun head =>
    head.record.version = change.1.version && head.record.deletedAt.isNone

/-- **A write changes nothing but the part its update is about**: the new versions have the content
of the heads they are put on top of, a moved record that of the head it leaves behind. -/
def WritesPart (s : DerivedState) (act : DerivedAct) (t : DerivedState) : Prop :=
  match act with
  | .write i _ _ => ∀ edit made, s.updates i = .making edit [] made → ∀ version ∈ made,
      KeepsRest [edit.part] (headPayload C E keys s.db version.1.recordId)
        (headPayload C E keys t.db version.1.recordId)
  | .writeMove i _ _ _ => ∀ copy ciphertext, s.updates i = .moved copy ciphertext →
      KeepsRest [] (headPayload C E keys s.db copy.recordId)
        (headPayload C E keys t.db ciphertext.recordId)
  | .writeRekey i _ _ => ∀ changes, s.updates i = .rekeying changes →
      ∀ change ∈ changes.take rekeyBatchSize, (rekeyedHead s.db change).isSome = true →
        KeepsRest [] (headPayload C E keys s.db change.1.recordId)
          (headPayload C E keys t.db change.1.recordId)
  | _ => True

/-- A write finds what its update has read, but for the part it is about. -/
def HeadsAgree (s : DerivedState) (act : DerivedAct) : Prop :=
  match act with
  | .write i _ _ => ∀ edit made, s.updates i = .making edit [] made → ∀ version ∈ made,
      KeepsRest [edit.part] (headPayload C E keys s.db version.1.recordId)
        (some version.1.payload)
  | .writeMove i _ _ _ => ∀ copy ciphertext, s.updates i = .moved copy ciphertext →
      KeepsRest [] (headPayload C E keys s.db copy.recordId) (some copy.payload)
  | .writeRekey i _ _ => ∀ changes, s.updates i = .rekeying changes →
      ∀ change ∈ changes.take rekeyBatchSize, (rekeyedHead s.db change).isSome = true →
        KeepsRest [] (headPayload C E keys s.db change.1.recordId)
          (decryptPayload C E keys change.1)
  | _ => True

/-- A date stands beside a password, both are set, and the password is a text. -/
structure DateStands (payload : JsObject) : Prop where
  date : ∀ date ∈ JsObject.get? payload "passwordChangedAt",
    date.truthy = true ∧ (monitoredPassword payload).isSome = true
  text : ∀ password ∈ monitoredPassword payload, samePassword password password = true

/-- The content has none of the fields the list adds to it. -/
def Placeless (payload : JsObject) : Prop :=
  ∀ key ∈ placeFields, key ≠ "schemaVersion" → JsObject.get? payload key = none

/-- JSON gives data back as it was written. -/
def TextReadsBack (data : JsObject) : Prop :=
  E.parse (recordPayloadJson E.toJsonText data) =
    some (.object (JsObject.set data "schemaVersion" (.number currentSchemaVersion)))

/-- What a version needs to be made of what was read and of nothing else: JSON gives it back, the
list added no field to it that was its own, and the date of its password stands, for which
`updateMany` looks at the head once more. -/
def MadeWell (s : DerivedState) (act : DerivedAct) : Prop :=
  match act with
  | .make i store _ now => ∀ edit copy copies made,
      s.updates i = .making edit (copy :: copies) made →
        DateStands copy.payload ∧ (edit = .favorite → Placeless copy.payload) ∧
        KeepsRest [edit.part] (headPayload C E store s.db copy.recordId) (some copy.payload) ∧
        ∀ data ∈ stampedVersion C E lowerCase store s.db now edit copy, TextReadsBack E data
  | .makeMove i _ _ now _ => ∀ copy target, s.updates i = .moving copy target →
      DateStands copy.payload ∧
      ((monitoredPassword copy.payload).isSome = true →
        (JsObject.get? copy.payload "passwordChangedAt").isSome = true) ∧
      Placeless copy.payload ∧ TextReadsBack E (movedData E now copy)
  | _ => True

/-- A step that makes its versions well. -/
def MadeStep (s t : DerivedState) : Prop :=
  ∃ act, DerivedStep C E lowerCase keys s act t ∧ MadeWell C E lowerCase s act

end Runs

end Passmgr
