/-
# Export files

Everything an unlocked profile holds as one JSON document, saved as it is or sealed under a key from
a password, and such a file read back (`packages/schema/src/export-schema.ts`,
`packages/client/src/export/collect-export.ts` and `export-file.ts`).

Reading checks of every record where it belongs, its type and that its title is a text; the other
fields are kept as written.  The order of an object's keys is not part of it.  Base64 is left out,
and the CSV, which is not read back.

Main definitions:

* `ExportEnv` — what the language and its libraries do;
* `Json.reread` — what is left of a value that is written and parsed;
* `ExportRecord`, `collectExportData`, `exportFile` — writing a file;
* `exportDataSchema`, `readExportFile`, `openExportEnvelope` — reading one.

Main results:

* `perm_of_sortByTitle`, `sortByTitle_ok` — the records of a file are those that opened;
* `exportRecordSchema_toJson` — when a written record is accepted.
-/

import Passmgr.LocalTables
import Passmgr.RecordPayload

set_option relaxedAutoImplicit false
set_option autoImplicit false

namespace Passmgr

open IdealCipher (Ciphers)

/-! ### Values that are written and parsed -/

namespace Json

mutual

/-- What `JSON.parse` makes of the text of a value: a number that is not finite is written as
`null`. -/
def reread : Json → Json
  | .null => .null
  | .bool value => .bool value
  | .number (.fin value) => .number (.fin value)
  | .number _ => .null
  | .string value => .string value
  | .array items => .array (rereadItems items)
  | .object fields => .object (rereadFields fields)

def rereadItems : List Json → List Json
  | [] => []
  | item :: items => reread item :: rereadItems items

def rereadFields : List (String × Json) → List (String × Json)
  | [] => []
  | (key, value) :: fields => (key, reread value) :: rereadFields fields

end

theorem rereadItems_eq (items : List Json) : rereadItems items = items.map reread := by
  induction items with
  | nil => rfl
  | cons item items ih => rw [rereadItems, ih, List.map_cons]

theorem rereadFields_eq (fields : List (String × Json)) :
    rereadFields fields = fields.map fun field => (field.1, reread field.2) := by
  induction fields with
  | nil => rfl
  | cons field fields ih => rw [rereadFields, ih, List.map_cons]

/-- The text of a string value. -/
def text? : Json → Option Text
  | .string value => some value
  | _ => none

/-- `z.string().nullable()`. -/
def nullableText? : Json → Option (Option Text)
  | .null => some none
  | .string value => some (some value)
  | _ => none

/-- The items of an array. -/
def items? : Json → Option (List Json)
  | .array items => some items
  | _ => none

/-- `z.number().int().positive()`. -/
def positive? : Json → Option ℕ
  | .number (.fin value) => if value.den = 1 ∧ 0 < value then some value.num.toNat else none
  | _ => none

end Json

namespace JsObject

/-- The value under a key, as a text. -/
def text? (object : JsObject) (key : String) : Option Text := (get? object key).bind Json.text?

theorem get?_map (f : Json → Json) (object : JsObject) (key : String) :
    get? (object.map fun field => (field.1, f field.2)) key = (get? object key).map f := by
  induction object with
  | nil => rfl
  | cons field object ih =>
      rw [List.map_cons, get?_cons, get?_cons, ih]
      split <;> rfl

end JsObject

/-! ### Ids read back -/

/-- The value of a lower case hexadecimal digit. -/
def hexValue (c : Char) : ℕ := if '0' ≤ c ∧ c ≤ '9' then c.toNat - 48 else c.toNat - 87

/-- `z.uuid()`, of the lower case texts ids are written as: the id of a text. -/
def uuidOf? (text : Text) : Option ℕ :=
  let id := Nat.ofDigits 16 ((text.filter (· ≠ '-')).map hexValue).reverse
  if uuidText id = text then some id else none

theorem hexValue_hexDigit : ∀ d < 16, hexValue (hexDigit d) = d := by decide

theorem uuidOf?_eq_some {text : Text} {id : ℕ} : uuidOf? text = some id ↔ text = uuidText id := by
  unfold uuidOf?
  dsimp only
  constructor
  · intro h
    split at h
    · next heq =>
        obtain rfl := Option.some.inj h
        exact heq.symm
    · cases h
  · rintro rfl
    have hdigits : (uuidText id).filter (· ≠ '-') = (uuidDigits id).map hexDigit :=
      filter_dashed fun c hc => by
        obtain ⟨d, hd, rfl⟩ := List.mem_map.mp hc
        exact (hexDigit_ne d (uuidDigits_lt id d hd)).1
    have hvalues : ((uuidDigits id).map hexDigit).map hexValue = uuidDigits id := by
      rw [List.map_map]
      exact (List.map_congr_left fun d hd => hexValue_hexDigit d (uuidDigits_lt id d hd)).trans
        (List.map_id' _)
    have hid : Nat.ofDigits 16 (uuidDigits id).reverse = id := by
      simp [uuidDigits, Nat.ofDigits_append, Nat.ofDigits_replicate_zero, Nat.ofDigits_digits]
    rw [hdigits, hvalues, hid, if_pos rfl]

/-! ### The environment -/

/-- `exportKdfSchema`: the cost and the salt of the Argon2id of a file. -/
structure ExportKdf where
  salt : Text
  t : ℕ
  m : ℕ
  p : ℕ
  deriving DecidableEq, Repr

/-- What the language and its libraries do: JSON texts, also indented ones, the order of titles,
`String(value)`, which throws on some objects, the text a time is stored as, and Argon2id. -/
structure ExportEnv extends JsonText where
  stringifyIndented : Json → Text
  localeCompare : Text → Text → ℤ
  toText : Option Json → Option Text
  timeText : Time → Text
  derive : Text → ExportKdf → Text

/-! ### The document -/

/-- `exportVaultSchema`. -/
structure ExportVault where
  id : VaultId
  name : Text
  kind : VaultKind
  deriving DecidableEq, Repr

/-- A record as exported: its content plus where it lives and when. -/
structure ExportRecord where
  fields : JsObject
  id : RecordId
  vaultId : VaultId
  createdAt : Option Text
  updatedAt : Text
  hid : JsObject.text? fields "id" = some (uuidText id)
  hvaultId : JsObject.text? fields "vaultId" = some (uuidText vaultId)
  hcreatedAt : (JsObject.get? fields "createdAt").bind Json.nullableText? = some createdAt
  hupdatedAt : JsObject.text? fields "updatedAt" = some updatedAt

/-- `ExportData`; its format, version and record schema version are the current ones. -/
structure ExportData where
  exportedAt : Text
  vaults : List ExportVault
  records : List ExportRecord

/-- `EXPORT_FORMAT`. -/
def exportFormat : Text := "passmgr-export".toList

/-- `EXPORT_FORMAT_VERSION`. -/
def exportFormatVersion : JsNumber := .fin 1

/-- The text of a vault kind. -/
def VaultKind.text : VaultKind → Text
  | .personal => "personal".toList
  | .shared => "shared".toList

/-- `vaultKindSchema`. -/
def vaultKind? (text : Text) : Option VaultKind :=
  if text = VaultKind.personal.text then some .personal
  else if text = VaultKind.shared.text then some .shared
  else none

def ExportVault.toJson (vault : ExportVault) : Json :=
  .object [("id", .string (uuidText vault.id)), ("name", .string vault.name),
    ("kind", .string vault.kind.text)]

def ExportData.toJson (data : ExportData) : Json :=
  .object [("format", .string exportFormat), ("version", .number exportFormatVersion),
    ("exportedAt", .string data.exportedAt),
    ("recordSchemaVersion", .number currentSchemaVersion),
    ("vaults", .array (data.vaults.map (·.toJson))),
    ("records", .array (data.records.map fun record => .object record.fields))]

/-- Why a file is not written or not read. -/
inductive ExportError
  /-- A `TypeError`: a title that is no text is compared. -/
  | notAText
  /-- An encrypted export needs a password. -/
  | noPassword
  /-- `InvalidExportFileError`. -/
  | invalidExportFile
  /-- `WrongExportPasswordError`. -/
  | wrongExportPassword
  deriving DecidableEq, Repr

/-! ### Collecting -/

/-- A row of `getAllLatest`. -/
structure LatestRecord where
  row : EncryptedRecord
  firstCreatedAt : Option Time
  deriving DecidableEq, Repr

/-- `getAllLatest`: the latest version of every record that isn't deleted, with its first creation
date. -/
def getAllLatest (db : LocalDb) : List LatestRecord :=
  (db.records.filter fun row =>
    ((db.rowsOf row.record.recordId).map (·.record.version)).max? = some row.record.version &&
      row.record.deletedAt.isNone).map fun row => {
    row := row.record
    firstCreatedAt :=
      ((db.rowsOf row.record.recordId).filterMap (·.record.createdAt)).min? }

/-- The live records have different ids. -/
theorem nodup_getAllLatest {db : LocalDb} (hkeys : (db.records.map (·.key)).Nodup) :
    ((getAllLatest db).map (·.row.recordId)).Nodup := by
  have hrows : db.records.Nodup := List.Nodup.of_map _ hkeys
  unfold getAllLatest
  rw [List.map_map]
  refine List.Nodup.map_on (fun a ha b hb hid => ?_) (hrows.filter _)
  obtain ⟨ha, hamax⟩ := List.mem_filter.1 ha
  obtain ⟨hb, hbmax⟩ := List.mem_filter.1 hb
  rw [Bool.and_eq_true] at hamax hbmax
  have hsame : a.record.recordId = b.record.recordId := hid
  have hversion := of_decide_eq_true hamax.1
  rw [hsame, of_decide_eq_true hbmax.1] at hversion
  refine List.inj_on_of_nodup_map hkeys ha hb ?_
  unfold LocalRow.key
  rw [hsame, Option.some.inj hversion]

/-- `buildExportData`. -/
def buildExportData (vaults : List ExportVault) (records : List ExportRecord) (now : Text) :
    ExportData where
  exportedAt := now
  vaults := vaults
  records := records

/-- What was collected, and how many records didn't open. -/
structure CollectedExport where
  data : ExportData
  skipped : ℕ

section Functions

variable (C : Ciphers Text) (J : MetaJson) (E : ExportEnv)

/-- `exportVault`: a name that doesn't open is replaced. -/
def exportVault (store : SecretsStore) (vault : MemberVault) : ExportVault where
  id := vault.vaultId
  name :=
    match store.decryptVaultMeta C J vault.vaultId
      ⟨vault.encryptedMeta, vault.metaEncryptionNonce⟩ with
    | .ok vaultMeta => vaultMeta.name
    | .error _ => if vault.kind = .personal then "Personal".toList else "Vault".toList
  kind := vault.kind

/-- When a record was created, as it is exported. -/
def LatestRecord.createdText (latest : LatestRecord) : Option Text :=
  (latest.firstCreatedAt.or latest.row.createdAt).map E.timeText

/-- `exportRecord`: the payload without its schema version; where the record lives and when comes
last. -/
def exportRecord (latest : LatestRecord) (payload : JsObject) : ExportRecord :=
  let data := JsObject.without payload ["schemaVersion"]
  let createdAt := latest.createdText E
  { fields := JsObject.set (JsObject.set (JsObject.set (JsObject.set data
      "id" (.string (uuidText latest.row.recordId)))
      "vaultId" (.string (uuidText latest.row.vaultId)))
      "createdAt" (createdAt.elim .null fun text => .string text))
      "updatedAt" (.string (E.timeText latest.row.clientUpdatedAt))
    id := latest.row.recordId
    vaultId := latest.row.vaultId
    createdAt := createdAt
    updatedAt := E.timeText latest.row.clientUpdatedAt
    hid := by simp [JsObject.text?, JsObject.get?_set, Json.text?]
    hvaultId := by simp [JsObject.text?, JsObject.get?_set, Json.text?]
    hcreatedAt := by cases createdAt <;> simp [JsObject.get?_set, Json.nullableText?]
    hupdatedAt := by simp [JsObject.text?, JsObject.get?_set, Json.text?] }

/-- `a.title.localeCompare(b.title)`. -/
def compareTitles (a b : ExportRecord) : Except ExportError ℤ :=
  match JsObject.get? a.fields "title" with
  | some (.string title) =>
    match JsObject.get? b.fields "title" with
    | some (.string other) => .ok (E.localeCompare title other)
    | other =>
      match E.toText other with
      | some other => .ok (E.localeCompare title other)
      | none => .error .notAText
  | _ => .error .notAText

/-- A record put before the first sorted one it comes before; it is the first argument of every
comparison. -/
def insertByTitle (record : ExportRecord) :
    List ExportRecord → Except ExportError (List ExportRecord)
  | [] => .ok [record]
  | other :: others => do
    if (← compareTitles E record other) < 0 then return record :: other :: others
    else return other :: (← insertByTitle record others)

/-- `records.sort`, by title: each record is put among those before it, so the first one of the
list is never the first argument of a comparison. -/
def sortByTitle (records : List ExportRecord) : Except ExportError (List ExportRecord) :=
  records.foldlM (fun sorted record => insertByTitle E record sorted) []

/-- `decryptRecordWithWorker`; a record that is rejected is skipped. -/
def decryptPayload (store : SecretsStore) (row : EncryptedRecord) : Option JsObject :=
  openPayload E.toJsonText (store.decryptRecord C row).toOption

/-- `collectExportData`. -/
def collectExportData (store : SecretsStore) (now : Text) (db : LocalDb) :
    Except ExportError CollectedExport := do
  let live := getAllLatest db
  let records := live.filterMap fun latest =>
    (decryptPayload C E store latest.row).map (exportRecord E latest)
  let sorted ← sortByTitle E records
  return {
    data := buildExportData (db.vaults.map (exportVault C J store)) sorted now
    skipped := live.length - sorted.length }

/-! ### Files -/

/-- `exportEnvelopeSchema`: an export sealed under a key from a password. -/
structure ExportEnvelope where
  kdf : ExportKdf
  nonce : Text
  data : Text
  deriving DecidableEq, Repr

def ExportEnvelope.toJson (envelope : ExportEnvelope) : Json :=
  .object [("format", .string exportFormat), ("version", .number exportFormatVersion),
    ("encrypted", .bool true),
    ("kdf", .object [("algorithm", .string "argon2id".toList),
      ("salt", .string envelope.kdf.salt), ("t", .number (.fin envelope.kdf.t)),
      ("m", .number (.fin envelope.kdf.m)), ("p", .number (.fin envelope.kdf.p))]),
    ("cipher", .string "xchacha20poly1305".toList), ("nonce", .string envelope.nonce),
    ("data", .string envelope.data)]

/-- `EXPORT_AAD`. -/
def exportAad : Text := "passmgr/export/v1".toList

/-- `sealExport`. -/
def sealExport (nonce key : Text) (kdf : ExportKdf) (json : Text) : ExportEnvelope :=
  let (data, nonce) := encryptXChaChaWithAAD C nonce key json exportAad
  ⟨kdf, nonce, data⟩

/-- `openExport`: fails when the key is wrong or the file was changed. -/
def openExport (key : Text) (envelope : ExportEnvelope) : Option Text :=
  decryptXChaChaWithAAD C key envelope.data envelope.nonce exportAad

/-- `exportToJson`. -/
def exportToJson (data : ExportData) : Text := E.stringifyIndented data.toJson

/-- `encryptExport`, with the salt and the cost in `kdf`. -/
def encryptExport (nonce : Text) (kdf : ExportKdf) (data : ExportData) (password : Text) : Text :=
  let key := E.derive password kdf
  E.stringifyIndented (sealExport C nonce key kdf (E.stringify data.toJson)).toJson

/-- `ExportFormat`, less the CSV: an encrypted backup, with its random values and the device's
cost, or plain JSON. -/
inductive ExportFormat
  | encrypted (nonce : Text) (kdf : ExportKdf)
  | json
  deriving DecidableEq, Repr

/-- `exportFile`: the contents of the file. -/
def exportFile (data : ExportData) (format : ExportFormat) (password : Text) :
    Except ExportError Text :=
  match format with
  | .encrypted nonce kdf =>
    if password = [] then .error .noPassword else .ok (encryptExport C E nonce kdf data password)
  | .json => .ok (exportToJson E data)

/-! ### Reading -/

/-- `exportVaultSchema.safeParse`. -/
def exportVaultSchema : Json → Option ExportVault
  | .object fields => do
    let id ← (JsObject.text? fields "id").bind uuidOf?
    let name ← JsObject.text? fields "name"
    let kind ← (JsObject.text? fields "kind").bind vaultKind?
    return ⟨id, name, kind⟩
  | _ => none

/-- `exportRecordSchema.safeParse`: where a record belongs, its type and its title; every field is
kept as written. -/
def exportRecordSchema : Json → Option ExportRecord
  | .object fields => do
    let id ← (JsObject.text? fields "id").bind uuidOf?
    let vaultId ← (JsObject.text? fields "vaultId").bind uuidOf?
    let createdAt ← (JsObject.get? fields "createdAt").bind Json.nullableText?
    let updatedAt ← JsObject.text? fields "updatedAt"
    if h : JsObject.text? fields "id" = some (uuidText id) ∧
        JsObject.text? fields "vaultId" = some (uuidText vaultId) ∧
        (JsObject.get? fields "createdAt").bind Json.nullableText? = some createdAt ∧
        JsObject.text? fields "updatedAt" = some updatedAt ∧
        isRecordType (JsObject.get? fields "type") = true ∧
        (JsObject.text? fields "title").isSome = true then
      return ⟨fields, id, vaultId, createdAt, updatedAt, h.1, h.2.1, h.2.2.1, h.2.2.2.1⟩
    else none
  | _ => none

/-- The number 1, of a format. -/
def isOne : Option Json → Bool
  | some (.number value) => value = .fin 1
  | _ => false

/-- `exportDataSchema.safeParse`. -/
def exportDataSchema : Json → Option ExportData
  | .object fields => do
    if JsObject.text? fields "format" ≠ some exportFormat ∨
        !isOne (JsObject.get? fields "version") ∨
        !isOne (JsObject.get? fields "recordSchemaVersion") then none
    else
      let exportedAt ← JsObject.text? fields "exportedAt"
      let vaults ← (JsObject.get? fields "vaults").bind Json.items?
      let records ← (JsObject.get? fields "records").bind Json.items?
      return ⟨exportedAt, ← vaults.mapM exportVaultSchema, ← records.mapM exportRecordSchema⟩
  | _ => none

/-- `exportKdfSchema.safeParse`. -/
def exportKdfSchema : Json → Option ExportKdf
  | .object fields => do
    if JsObject.text? fields "algorithm" ≠ some "argon2id".toList then none
    else
      let salt ← JsObject.text? fields "salt"
      let t ← (JsObject.get? fields "t").bind Json.positive?
      let m ← (JsObject.get? fields "m").bind Json.positive?
      let p ← (JsObject.get? fields "p").bind Json.positive?
      return ⟨salt, t, m, p⟩
  | _ => none

/-- `z.literal(true)`. -/
def isTrue : Option Json → Bool
  | some (.bool value) => value
  | _ => false

/-- `exportEnvelopeSchema.safeParse`. -/
def exportEnvelopeSchema : Json → Option ExportEnvelope
  | .object fields => do
    if JsObject.text? fields "format" ≠ some exportFormat ∨
        !isOne (JsObject.get? fields "version") ∨
        !isTrue (JsObject.get? fields "encrypted") ∨
        JsObject.text? fields "cipher" ≠ some "xchacha20poly1305".toList then none
    else
      let kdf ← (JsObject.get? fields "kdf").bind exportKdfSchema
      let nonce ← JsObject.text? fields "nonce"
      let data ← JsObject.text? fields "data"
      return ⟨kdf, nonce, data⟩
  | _ => none

/-- `parseExportData`. -/
def parseExportData (json : Json) : Except ExportError ExportData :=
  match exportDataSchema json with
  | some data => .ok data
  | none => .error .invalidExportFile

/-- `ExportFileContents`: a sealed backup still needs its password. -/
inductive ExportFileContents
  | encrypted (envelope : ExportEnvelope)
  | plain (data : ExportData)

/-- `readExportFile`. -/
def readExportFile (file : Text) : Except ExportError ExportFileContents :=
  match E.parse file with
  | none => .error .invalidExportFile
  | some json =>
    match exportEnvelopeSchema json with
    | some envelope => .ok (.encrypted envelope)
    | none => (parseExportData json).map .plain

/-- `openExportEnvelope`. -/
def openExportEnvelope (envelope : ExportEnvelope) (password : Text) :
    Except ExportError ExportData :=
  match openExport C (E.derive password envelope.kdf) envelope with
  | none => .error .wrongExportPassword
  | some json =>
    match E.parse json with
    | none => .error .invalidExportFile
    | some parsed => parseExportData parsed

/-- A file opened for an import: read, and unsealed with the password. -/
def openExportFile (file password : Text) : Except ExportError ExportData := do
  match ← readExportFile E file with
  | .plain data => return data
  | .encrypted envelope => openExportEnvelope C E envelope password

end Functions

/-! ### Values that are written and parsed -/

section Reread

theorem text?_reread (value : Json) : value.reread.text? = value.text? := by
  cases value with
  | number value => cases value <;> rfl
  | _ => rfl

theorem JsObject.text?_rereadFields (fields : JsObject) (key : String) :
    JsObject.text? (Json.rereadFields fields) key = JsObject.text? fields key := by
  unfold JsObject.text?
  rw [Json.rereadFields_eq, JsObject.get?_map]
  cases JsObject.get? fields key with
  | none => rfl
  | some value => exact text?_reread value

theorem isRecordType_rereadFields (fields : JsObject) (key : String) :
    isRecordType (JsObject.get? (Json.rereadFields fields) key) =
      isRecordType (JsObject.get? fields key) := by
  rw [Json.rereadFields_eq, JsObject.get?_map]
  cases JsObject.get? fields key with
  | none => rfl
  | some value =>
      cases value with
      | number value => cases value <;> rfl
      | _ => rfl

theorem nullableText?_rereadFields {fields : JsObject} {key : String} {text : Option Text}
    (h : (JsObject.get? fields key).bind Json.nullableText? = some text) :
    (JsObject.get? (Json.rereadFields fields) key).bind Json.nullableText? = some text := by
  rw [Json.rereadFields_eq, JsObject.get?_map]
  cases hvalue : JsObject.get? fields key with
  | none =>
      rw [hvalue] at h
      cases h
  | some value =>
      rw [hvalue] at h
      cases value with
      | null => exact h
      | string value => exact h
      | _ => cases h

/-- A record as it is read back. -/
def ExportRecord.reread (record : ExportRecord) : ExportRecord :=
  { record with
    fields := Json.rereadFields record.fields
    hid := (JsObject.text?_rereadFields _ _).trans record.hid
    hvaultId := (JsObject.text?_rereadFields _ _).trans record.hvaultId
    hcreatedAt := nullableText?_rereadFields record.hcreatedAt
    hupdatedAt := (JsObject.text?_rereadFields _ _).trans record.hupdatedAt }

def ExportData.reread (data : ExportData) : ExportData :=
  { data with records := data.records.map (·.reread) }

/-- What reading checks of a record that is written: its type, and that its title is a text. -/
def ExportRecord.Readable (record : ExportRecord) : Prop :=
  isRecordType (JsObject.get? record.fields "type") = true ∧
    (JsObject.text? record.fields "title").isSome = true

theorem ExportRecord.readable_reread (record : ExportRecord) :
    record.reread.Readable ↔ record.Readable := by
  unfold ExportRecord.Readable ExportRecord.reread
  rw [isRecordType_rereadFields, JsObject.text?_rereadFields]

/-- A record that is written is read as it is, if it has a known type and a title. -/
theorem exportRecordSchema_toJson {record : ExportRecord} (h : record.Readable) :
    exportRecordSchema (.object record.fields) = some record := by
  have hid : uuidOf? (uuidText record.id) = some record.id := uuidOf?_eq_some.2 rfl
  have hvaultId : uuidOf? (uuidText record.vaultId) = some record.vaultId := uuidOf?_eq_some.2 rfl
  simp [exportRecordSchema, record.hid, record.hvaultId, record.hcreatedAt, record.hupdatedAt, hid,
    hvaultId, h.1, h.2]

theorem readable_of_exportRecordSchema {fields : JsObject} {record : ExportRecord}
    (h : exportRecordSchema (.object fields) = some record) :
    record.fields = fields ∧ record.Readable := by
  simp only [exportRecordSchema, bind, Option.bind_eq_some_iff] at h
  obtain ⟨id, -, vaultId, -, createdAt, -, updatedAt, -, h⟩ := h
  split at h
  · next hchecked =>
      obtain rfl := Option.some.inj h
      exact ⟨rfl, hchecked.2.2.2.2⟩
  · cases h

theorem exportVaultSchema_toJson (vault : ExportVault) :
    exportVaultSchema vault.toJson.reread = some vault := by
  have hid : uuidOf? (uuidText vault.id) = some vault.id := uuidOf?_eq_some.2 rfl
  have hkind : vaultKind? vault.kind.text = some vault.kind := by
    cases vault.kind <;> decide
  simp [ExportVault.toJson, Json.reread, Json.rereadFields, exportVaultSchema, JsObject.text?,
    JsObject.get?_cons, Json.text?, hid, hkind]

theorem mapM_vaults (vaults : List ExportVault) :
    (vaults.map fun vault => vault.toJson.reread).mapM exportVaultSchema = some vaults := by
  induction vaults with
  | nil => rfl
  | cons vault vaults ih =>
      rw [List.map_cons, List.mapM_cons, exportVaultSchema_toJson, ih]
      rfl

theorem mapM_records {records : List ExportRecord} (h : ∀ record ∈ records, record.Readable) :
    (records.map fun record => (Json.object record.fields).reread).mapM exportRecordSchema =
      some (records.map (·.reread)) := by
  induction records with
  | nil => rfl
  | cons record records ih =>
      have hfirst := exportRecordSchema_toJson
        (record.readable_reread.2 (h record (List.mem_cons_self ..)))
      have hrest := ih fun r hr => h r (List.mem_cons_of_mem _ hr)
      rw [List.map_cons, List.mapM_cons, hrest]
      have hobject : (Json.object record.fields).reread = .object record.reread.fields := rfl
      rw [hobject, hfirst]
      rfl

theorem readable_of_mapM {records : List ExportRecord} {read : List ExportRecord}
    (h : (records.map fun record => (Json.object record.fields).reread).mapM exportRecordSchema =
      some read) : ∀ record ∈ records, record.Readable := by
  induction records generalizing read with
  | nil =>
      intro record hrecord
      cases hrecord
  | cons first records ih =>
      rw [List.map_cons, List.mapM_cons] at h
      simp only [bind, Option.bind_eq_some_iff] at h
      obtain ⟨one, hone, rest, hrest, -⟩ := h
      intro record hrecord
      rcases List.mem_cons.1 hrecord with rfl | hrecord
      · obtain ⟨hfields, hreadable⟩ := @readable_of_exportRecordSchema
          (Json.rereadFields record.fields) _ hone
        rw [← ExportRecord.readable_reread]
        unfold ExportRecord.Readable at hreadable ⊢
        rwa [hfields] at hreadable
      · exact ih hrest record hrecord

/-- The document as it is parsed. -/
theorem ExportData.toJson_reread (data : ExportData) : data.toJson.reread =
    .object [("format", .string exportFormat), ("version", .number exportFormatVersion),
      ("exportedAt", .string data.exportedAt),
      ("recordSchemaVersion", .number currentSchemaVersion),
      ("vaults", .array (data.vaults.map fun vault => vault.toJson.reread)),
      ("records", .array (data.records.map fun record => (Json.object record.fields).reread))] := by
  simp [ExportData.toJson, Json.reread, Json.rereadFields, Json.rereadItems_eq, exportFormatVersion,
    currentSchemaVersion, Function.comp_def]

/-- **A document is read back as it was written** when its records have known types and titles. -/
theorem exportDataSchema_toJson {data : ExportData}
    (h : ∀ record ∈ data.records, record.Readable) :
    exportDataSchema data.toJson.reread = some data.reread := by
  rw [data.toJson_reread]
  simp [-List.mapM_map, exportDataSchema, JsObject.text?, JsObject.get?_cons, Json.text?,
    Json.items?, isOne, exportFormatVersion, currentSchemaVersion, mapM_vaults, mapM_records h,
    ExportData.reread]

/-- A document is refused when one of its records has none. -/
theorem readable_of_exportDataSchema {data read : ExportData}
    (h : exportDataSchema data.toJson.reread = some read) :
    ∀ record ∈ data.records, record.Readable := by
  rw [data.toJson_reread] at h
  simp [-List.mapM_map, exportDataSchema, JsObject.text?, JsObject.get?_cons, Json.text?,
    Json.items?, isOne, exportFormatVersion, currentSchemaVersion, mapM_vaults,
    Option.bind_eq_some_iff] at h
  obtain ⟨records, hrecords, -⟩ := h
  exact readable_of_mapM hrecords

/-- A document is no envelope. -/
theorem exportEnvelopeSchema_document (data : ExportData) :
    exportEnvelopeSchema data.toJson.reread = none := by
  rw [data.toJson_reread]
  simp [exportEnvelopeSchema, JsObject.get?_cons, isTrue]

/-- The cost of a file is positive. -/
def ExportKdf.Positive (kdf : ExportKdf) : Prop := 0 < kdf.t ∧ 0 < kdf.m ∧ 0 < kdf.p

theorem positive?_natCast {n : ℕ} (h : 0 < n) : Json.positive? (.number (.fin n)) = some n := by
  have hpos : (0 : ℚ) < n := Nat.cast_pos.2 h
  simp [Json.positive?, hpos]

theorem exportEnvelopeSchema_toJson {envelope : ExportEnvelope} (h : envelope.kdf.Positive) :
    exportEnvelopeSchema envelope.toJson.reread = some envelope := by
  simp [ExportEnvelope.toJson, Json.reread, Json.rereadFields, exportEnvelopeSchema,
    exportKdfSchema, JsObject.text?, JsObject.get?_cons, Json.text?, isOne, isTrue,
    exportFormatVersion, positive?_natCast h.1, positive?_natCast h.2.1, positive?_natCast h.2.2]

end Reread

/-! ### The records of a file -/

section Files

variable {C : Ciphers Text} {J : MetaJson} {E : ExportEnv}

theorem perm_of_insertByTitle {record : ExportRecord} {records sorted : List ExportRecord}
    (h : insertByTitle E record records = .ok sorted) : sorted.Perm (record :: records) := by
  induction records generalizing sorted with
  | nil =>
      obtain rfl := Except.ok.inj h
      exact List.Perm.refl _
  | cons other others ih =>
      obtain ⟨order, -, h⟩ := bind_eq_ok.mp h
      split at h
      · obtain rfl := Except.ok.inj h
        exact List.Perm.refl _
      · obtain ⟨rest, hrest, h⟩ := bind_eq_ok.mp h
        obtain rfl := Except.ok.inj h
        exact ((ih hrest).cons other).trans (List.Perm.swap record other others)

theorem perm_of_foldlM_insertByTitle {records before sorted : List ExportRecord}
    (h : records.foldlM (fun sorted record => insertByTitle E record sorted) before = .ok sorted) :
    sorted.Perm (before ++ records) := by
  induction records generalizing before with
  | nil =>
      obtain rfl := Except.ok.inj h
      rw [List.append_nil]
  | cons record records ih =>
      rw [List.foldlM_cons] at h
      obtain ⟨next, hnext, h⟩ := bind_eq_ok.mp h
      calc sorted.Perm (next ++ records) := ih h
        _ |>.Perm (record :: before ++ records) := (perm_of_insertByTitle hnext).append_right _
        _ |>.Perm (before ++ record :: records) := List.perm_middle.symm

/-- Sorting keeps the records. -/
theorem perm_of_sortByTitle {records sorted : List ExportRecord}
    (h : sortByTitle E records = .ok sorted) : sorted.Perm records :=
  perm_of_foldlM_insertByTitle h

theorem insertByTitle_ok {record : ExportRecord} {records : List ExportRecord}
    (hrecord : record.Readable) (h : ∀ other ∈ records, other.Readable) :
    ∃ sorted, insertByTitle E record records = .ok sorted := by
  induction records with
  | nil => exact ⟨_, rfl⟩
  | cons other others ih =>
      obtain ⟨rest, hrest⟩ := ih fun r hr => h r (List.mem_cons_of_mem _ hr)
      obtain ⟨order, horder⟩ : ∃ order, compareTitles E record other = .ok order := by
        have htitles := And.intro hrecord.2 (h other (List.mem_cons_self ..)).2
        unfold JsObject.text? at htitles
        unfold compareTitles
        cases htitle : JsObject.get? record.fields "title" with
        | none => simp [htitle] at htitles
        | some title =>
            cases hother : JsObject.get? other.fields "title" with
            | none => simp [hother] at htitles
            | some otherTitle =>
                cases title <;> cases otherTitle <;> simp_all [Json.text?]
      by_cases hbefore : order < 0
      · refine ⟨record :: other :: others, bind_eq_ok.mpr ⟨order, horder, ?_⟩⟩
        rw [if_pos hbefore]
        rfl
      · refine ⟨other :: rest, bind_eq_ok.mpr ⟨order, horder, ?_⟩⟩
        rw [if_neg hbefore]
        exact bind_eq_ok.mpr ⟨rest, hrest, rfl⟩

theorem foldlM_insertByTitle_ok {records before : List ExportRecord}
    (hbefore : ∀ record ∈ before, record.Readable) (h : ∀ record ∈ records, record.Readable) :
    ∃ sorted, records.foldlM (fun sorted record => insertByTitle E record sorted) before =
      .ok sorted := by
  induction records generalizing before with
  | nil => exact ⟨before, rfl⟩
  | cons record records ih =>
      have hrecord := h record (List.mem_cons_self ..)
      obtain ⟨next, hnext⟩ := @insertByTitle_ok E record before hrecord hbefore
      have hreadable : ∀ other ∈ next, other.Readable := by
        intro other hother
        rcases List.mem_cons.1 ((perm_of_insertByTitle hnext).mem_iff.1 hother) with rfl | hother
        · exact hrecord
        · exact hbefore other hother
      obtain ⟨sorted, hsorted⟩ := ih hreadable fun r hr => h r (List.mem_cons_of_mem _ hr)
      refine ⟨sorted, ?_⟩
      rw [List.foldlM_cons]
      exact bind_eq_ok.mpr ⟨next, hnext, hsorted⟩

/-- Sorting succeeds when every title is a text. -/
theorem sortByTitle_ok {records : List ExportRecord} (h : ∀ record ∈ records, record.Readable) :
    ∃ sorted, sortByTitle E records = .ok sorted :=
  foldlM_insertByTitle_ok (fun _ hrecord => absurd hrecord List.not_mem_nil) h

/-- `JSON.parse` reads a value back from both of its texts. -/
structure ExportEnv.Rereads (E : ExportEnv) (value : Json) : Prop where
  compact : E.parse (E.stringify value) = some value.reread
  indented : E.parse (E.stringifyIndented value) = some value.reread

/-- The envelope of a document. -/
def ExportFormat.envelope (C : Ciphers Text) (E : ExportEnv) (data : ExportData)
    (password : Text) : ExportFormat → Option ExportEnvelope
  | .encrypted nonce kdf =>
    some (sealExport C nonce (E.derive password kdf) kdf (E.stringify data.toJson))
  | .json => none

/-- What a format and a password have to be: an encrypted backup has a password and a cost. -/
def ExportFormat.Usable (password : Text) : ExportFormat → Prop
  | .encrypted _ kdf => password ≠ [] ∧ kdf.Positive
  | .json => True

theorem openExport_sealExport (hC : C.Correct) (nonce key : Text) (kdf : ExportKdf) (json : Text) :
    openExport C key (sealExport C nonce key kdf json) = some json :=
  hC.decrypt_encrypt key nonce exportAad json

/-- **A file is opened as it was written**, in either format, up to the check of the document. -/
theorem openExportFile_exportFile (hC : C.Correct) {data : ExportData} {format : ExportFormat}
    {password file : Text} (husable : format.Usable password) (hdata : E.Rereads data.toJson)
    (henvelope : ∀ envelope ∈ format.envelope C E data password, E.Rereads envelope.toJson)
    (h : exportFile C E data format password = .ok file) :
    openExportFile C E file password = parseExportData data.toJson.reread := by
  cases format with
  | json =>
      obtain rfl := Except.ok.inj h
      unfold openExportFile readExportFile exportToJson
      rw [hdata.indented]
      dsimp only
      rw [exportEnvelopeSchema_document]
      dsimp only
      cases parseExportData data.toJson.reread <;> rfl
  | encrypted nonce kdf =>
      obtain ⟨hpassword, hpositive⟩ := husable
      unfold exportFile at h
      dsimp only at h
      rw [if_neg hpassword] at h
      obtain rfl := Except.ok.inj h
      have hread := (henvelope _ rfl).indented
      unfold openExportFile readExportFile encryptExport
      dsimp only
      rw [hread]
      dsimp only
      rw [exportEnvelopeSchema_toJson hpositive]
      show openExportEnvelope C E _ password = _
      unfold openExportEnvelope
      rw [show (sealExport C nonce (E.derive password kdf) kdf (E.stringify data.toJson)).kdf = kdf
        from rfl, openExport_sealExport hC]
      dsimp only
      rw [hdata.compact]

end Files

end Passmgr
