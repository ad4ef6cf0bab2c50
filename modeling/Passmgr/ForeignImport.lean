/-
# Records of other password managers

`packages/client/src/import/foreign-import.ts`: what the parser of each source makes of an item is a
`ForeignRecord`; `finishRecord` makes the content of a record of it, or says why there is none, and
the builder keeps the records and the account of what did not come along.

Main definitions:

* `ForeignRecord` — a record as a source gives it;
* `finishRecord` — its content, or why it is skipped;
* `ForeignImportBuilder` — the records so far and the report.

Main results:

* `finishRecord_eq_ok` — what is imported is what was asked of the schema;
* `foldl_add` — every record is imported or reported, in order, and what is left behind is counted
  of the imported ones alone.
-/

import Passmgr.FieldSpecs
import Passmgr.PendingLogins
import Passmgr.Tags

set_option relaxedAutoImplicit false
set_option autoImplicit false

namespace Passmgr

open JsNumber (isStrWhiteSpace trim)
open RecordSchema (maxTitleLength maxFieldLength maxTags maxTagLength)

namespace Foreign

/-- What an import uses of the platform: `JSON.stringify`, `URL`, `toLowerCase`, and `isoDate` of
epoch milliseconds and of a text. -/
structure Platform where
  json : JsonText
  url : Websites.UrlParser
  lowerCase : Text → Text
  isoDate : ℤ → Option Text
  isoText : Text → Option Text
  /-- An ISO text begins with a date. -/
  dated : ∀ time text, isoDate time = some text → trim (text.takeWhile (· ≠ 'T')) ≠ []

/-! ### Records -/

/-- `SkipReason`. -/
inductive SkipReason
  | unsupportedType
  | invalid
  | tooLarge
  deriving DecidableEq, Repr

/-- The parts of an item that don't come along. -/
structure LeftBehind where
  passkeys : ℕ := 0
  attachments : ℕ := 0
  previousPasswords : ℕ := 0
  deriving DecidableEq, Repr

def LeftBehind.add (a b : LeftBehind) : LeftBehind where
  passkeys := a.passkeys + b.passkeys
  attachments := a.attachments + b.attachments
  previousPasswords := a.previousPasswords + b.previousPasswords

structure ForeignField where
  title : Text
  value : Text
  secret : Bool := false
  deriving DecidableEq, Repr

/-- Fields whose values are texts. -/
def textFields (fields : List (String × Option Text)) : List (String × Option Json) :=
  fields.map fun (key, value) => (key, value.map .string)

structure ForeignRecord where
  type : Text
  title : Option Text := none
  /-- The type's own fields; `none` is `undefined`. -/
  fields : List (String × Option Json) := []
  websites : List Text := []
  note : Option Text := none
  favorite : Bool := false
  tags : List Text := []
  customFields : List ForeignField := []
  createdAt : Option Text := none
  passwordChangedAt : Option Text := none
  leftBehind : LeftBehind := {}

/-- The order of ISO texts. -/
def textLe : Text → Text → Bool
  | [], _ => true
  | _ :: _, [] => false
  | a :: as, b :: bs => if a = b then textLe as bs else a.toNat < b.toNat

/-- The last of some dates, which are ISO texts. -/
def latestDate (dates : List (Option Text)) : Option Text :=
  ((dates.filterMap id).filter (· ≠ [])).foldl (fun latest date =>
    match latest with
    | none => some date
    | some known => if textLe known date then some date else some known) none

/-! ### Websites -/

/-- `[^\s:/?#@]`. -/
def isTypedHostChar (c : Char) : Bool := !isStrWhiteSpace c && c ∉ [':', '/', '?', '#', '@']

/-- `([/?#]\S*)?$`. -/
def isTypedRest : Text → Bool
  | [] => true
  | c :: rest => c ∈ ['/', '?', '#'] && rest.all (!isStrWhiteSpace ·)

/-- `TYPED_HOST`. -/
def isTypedHost (value : Text) : Bool :=
  let (host, rest) := value.span isTypedHostChar
  host ≠ [] &&
    match rest with
    | ':' :: rest =>
      let (port, rest) := rest.span Char.isDigit
      port ≠ [] && isTypedRest rest
    | rest => isTypedRest rest

/-- What a form saves: `https://` added to a typed host, anything else as typed. -/
def normalizeWebsite (raw : Text) : Text :=
  let value := trim raw
  if isTypedHost value then "https://".toList ++ value else value

/-! ### Tags -/

/-- `trimEnd`. -/
def trimEnd (text : Text) : Text := (text.reverse.dropWhile isStrWhiteSpace).reverse

def sanitizeTag (tag : Text) : Text :=
  trimEnd (sliceUnits maxTagLength (normalizeTag (tag.map fun c => if c = ',' then ' ' else c)))

/-! ### `finishRecord` -/

def customFieldJson (field : CustomField) : Json :=
  .object [("type", .string field.type.name), ("title", .string field.title),
    ("value", .string field.value)]

/-- `/^e-?mail(\s+address)?$/i`. -/
def isEmailTitle (title : Text) : Bool :=
  let lower := title.map Char.toLower
  let rest :=
    if "e-mail".toList.isPrefixOf lower then some (lower.drop 6)
    else if "email".toList.isPrefixOf lower then some (lower.drop 5)
    else none
  match rest with
  | none => false
  | some [] => true
  | some (c :: rest) => isStrWhiteSpace c && rest.dropWhile isStrWhiteSpace = "address".toList

/-- A value that is neither `undefined` nor empty. -/
def given : Option Json → Option Json
  | none => none
  | some (.string []) => none
  | some value => some value

/-- What a record comes to before it is put together. -/
structure Parts where
  fields : JsObject
  customFields : List CustomField
  websites : List Text

/-- The custom fields that are not blank. -/
def namedFields (fields : List ForeignField) : List CustomField :=
  (fields.filter fun field => trim field.value ≠ []).map fun field =>
    { type := if field.secret then .secret else .text
      title := orElse (trim field.title) "Field".toList
      value := field.value }

/-- What an email can be taken from. -/
def isEmailField (field : CustomField) : Bool :=
  field.type = .text && isEmailTitle field.title && utf16Length field.value ≤ maxFieldLength

section Finish

variable (P : Platform)

/-- A website that is none becomes a custom field. -/
def addWebsite (parts : Parts) (raw : Text) : Parts :=
  if trim raw = [] then parts
  else if isWebsite P.url raw then
    { parts with websites := parts.websites ++ [normalizeWebsite raw] }
  else
    { parts with
      customFields := parts.customFields ++ [⟨.text, "Website".toList, trim raw⟩] }

/-- The email of a login without one is taken out of its custom fields. -/
def takeEmail (type : Text) (parts : Parts) : Parts :=
  if type = "login".toList ∧ (JsObject.get? parts.fields "email").isNone then
    match parts.customFields.find? isEmailField with
    | none => parts
    | some field =>
      { parts with
        fields := parts.fields.set "email" (.string field.value)
        customFields := parts.customFields.eraseP isEmailField }
  else parts

def partsOf (record : ForeignRecord) : Parts :=
  let fields := record.fields.filterMap fun (key, value) => (given value).map (key, ·)
  takeEmail record.type
    (record.websites.foldl (addWebsite P) ⟨fields, namedFields record.customFields, []⟩)

/-- The title: given, the first host, the account, or none of them. -/
def titleOf (record : ForeignRecord) (parts : Parts) : Text :=
  let account := (JsObject.text? parts.fields "username").or (JsObject.text? parts.fields "email")
  sliceUnits maxTitleLength
    (orElse (trim (record.title.getD []))
      (orElse (((parts.websites.filterMap (Websites.websiteHost P.url)).find? (· ≠ [])).getD [])
        (orElse (account.getD []) "Imported item".toList)))

def tagsOf (record : ForeignRecord) : List Text :=
  (normalizeTags P.lowerCase (record.tags.map sanitizeTag)).take maxTags

/-- `{ ...object, ...fields }`. -/
def spread (object fields : JsObject) : JsObject :=
  fields.foldl (fun object field => object.set field.1 field.2) object

/-- `{ ...object, ...(condition ? { key: value } : {}) }`. -/
def setIf (condition : Bool) (key : String) (value : Json) (object : JsObject) : JsObject :=
  if condition then object.set key value else object

/-- What the schema is asked about. -/
def candidateOf (record : ForeignRecord) (parts : Parts) : JsObject :=
  let note := record.note.getD []
  let tags := tagsOf P record
  spread [("type", .string record.type), ("title", .string (titleOf P record parts))] parts.fields
    |> setIf (record.type = "login".toList && parts.websites ≠ []) "websites"
        (.array (parts.websites.eraseDups.map fun value => .object [("value", .string value)]))
    |> setIf ((JsObject.text? parts.fields "password").isSome &&
        record.passwordChangedAt.getD [] ≠ []) "passwordChangedAt"
        (.string (record.passwordChangedAt.getD []))
    |> setIf (trim note ≠ []) "note" (.string note)
    |> setIf record.favorite "favorite" (.bool true)
    |> setIf (tags ≠ []) "tags" (.array (tags.map .string))
    |> setIf (parts.customFields ≠ []) "customFields"
        (.array (parts.customFields.map customFieldJson))

/-! ### Why a record is refused -/

/-- A text over a limit. -/
def longer (max : ℕ) : Json → Bool
  | .string value => max < utf16Length value
  | _ => false

/-- A list over a limit, or with such an item. -/
def listLonger (max : ℕ) (item : Json → Bool) : Json → Bool
  | .array items => max < items.length || items.any item
  | _ => false

/-- A custom field with a text over a limit. -/
def customFieldLonger : Json → Bool
  | .object fields =>
    (JsObject.get? fields "title").any (longer maxTitleLength) ||
      (JsObject.get? fields "value").any (longer RecordSchema.maxLongTextLength)
  | _ => false

/-- The fields of each type that are texts with a limit. -/
def textLimits (type : Text) : List (String × ℕ) :=
  if type = "login".toList then
    [("username", maxFieldLength), ("email", maxFieldLength), ("password", maxFieldLength),
      ("totp", maxFieldLength)]
  else if type = "card".toList then
    [("cardholderName", maxFieldLength), ("number", maxFieldLength), ("expiry", maxFieldLength),
      ("securityCode", maxFieldLength), ("pin", maxFieldLength)]
  else if type = "identity".toList then
    [("firstName", maxFieldLength), ("lastName", maxFieldLength), ("email", maxFieldLength),
      ("phone", maxFieldLength), ("birthDate", maxFieldLength), ("street", maxFieldLength),
      ("postalCode", maxFieldLength), ("city", maxFieldLength), ("country", maxFieldLength)]
  else if type = "ssh_key".toList then
    [("privateKey", RecordSchema.maxLongTextLength), ("publicKey", RecordSchema.maxLongTextLength),
      ("passphrase", maxFieldLength)]
  else if type = "api_key".toList then
    [("keyId", maxFieldLength), ("secret", RecordSchema.maxLongTextLength), ("host", maxFieldLength)]
  else if type = "wifi".toList then [("ssid", maxFieldLength), ("password", maxFieldLength)]
  else []

/-- `issues.some((issue) => issue.code === "too_big")`.  A website that is too long is no `too_big`:
it is none of the union's. -/
def tooBig (type : Text) (data : JsObject) : Bool :=
  (textLimits type ++ [("title", maxTitleLength), ("note", RecordSchema.maxNoteLength)]).any
      (fun limit => (JsObject.get? data limit.1).any (longer limit.2)) ||
    (JsObject.get? data "customFields").any
      (listLonger RecordSchema.maxCustomFields customFieldLonger) ||
    (JsObject.get? data "tags").any (listLonger maxTags (longer maxTagLength)) ||
    (type = "login".toList && (JsObject.get? data "websites").any
      (listLonger RecordSchema.maxWebsites fun _ => false))

/-- The keys the schema knows: it drops the others. -/
def knownKeys (type : Text) : List String :=
  "type" :: (RecordSchema.baseRecordShape ++
    (RecordSchema.typeFields (isWebsite P.url) type).getD []).map (·.1)

/-- The record's payload, or why it can't be imported. -/
def finishRecord (record : ForeignRecord) : Except SkipReason JsObject :=
  let candidate := candidateOf P record (partsOf P record)
  if !recordDataSchema (isWebsite P.url) candidate then
    .error (if tooBig record.type candidate then .tooLarge else .invalid)
  else
    let data := candidate.filter (·.1 ∈ knownKeys P record.type)
    if recordPayloadBytes (recordPayloadJson P.json data) > maxRecordPayloadBytes then
      .error .tooLarge
    else .ok data

/-! ### The builder -/

/-- What `build` exports of a record, its ids and the time of the import aside. -/
structure ImportedRecord where
  data : JsObject
  createdAt : Option Text

/-- `ForeignImportReport`. -/
structure ForeignImportReport extends LeftBehind where
  skipped : List (Text × SkipReason) := []
  deriving DecidableEq, Repr

structure ForeignImportBuilder where
  records : List ImportedRecord := []
  report : ForeignImportReport := {}

def ForeignImportBuilder.skip (builder : ForeignImportBuilder) (title : Text)
    (reason : SkipReason) : ForeignImportBuilder :=
  { builder with
    report := { builder.report with skipped := builder.report.skipped ++ [(title, reason)] } }

def ForeignImportBuilder.add (builder : ForeignImportBuilder) (record : ForeignRecord) :
    ForeignImportBuilder :=
  match finishRecord P record with
  | .error reason => builder.skip (orElse (trim (record.title.getD [])) "Untitled".toList) reason
  | .ok data =>
    { records := builder.records ++ [⟨data, record.createdAt⟩]
      report :=
        { builder.report with
          toLeftBehind := builder.report.toLeftBehind.add record.leftBehind } }

end Finish

/-- What comes of an item: the title of one that has no type here, or a record. -/
def ForeignImportBuilder.addItem (P : Platform) (builder : ForeignImportBuilder) :
    Except Text ForeignRecord → ForeignImportBuilder
  | .error title => builder.skip title .unsupportedType
  | .ok record => builder.add P record

/-! ### Fields of the candidate -/

section Fields

theorem get?_setIf (condition : Bool) (key other : String) (value : Json) (object : JsObject) :
    JsObject.get? (setIf condition key value object) other =
      if condition = true ∧ other = key then some value else JsObject.get? object other := by
  unfold setIf
  cases condition with
  | false => simp
  | true => simp [JsObject.get?_set]

/-- Keys that are set once have their value, the others the one of the object. -/
theorem get?_spread {fields : JsObject} (hnodup : (fields.map (·.1)).Nodup) (object : JsObject)
    (key : String) :
    JsObject.get? (spread object fields) key =
      (JsObject.get? fields key).or (JsObject.get? object key) := by
  induction fields generalizing object with
  | nil => rfl
  | cons field fields ih =>
      rw [List.map_cons, List.nodup_cons] at hnodup
      have hrest : spread object (field :: fields) = spread (object.set field.1 field.2) fields := rfl
      rw [hrest, ih hnodup.2, JsObject.get?_set, JsObject.get?_cons]
      by_cases hkey : field.1 = key
      · subst hkey
        rw [if_pos rfl, if_pos rfl, (JsObject.get?_eq_none_iff fields _).2 hnodup.1]
        rfl
      · rw [if_neg hkey, if_neg (Ne.symm hkey)]

theorem get?_filter_known {keys : List String} {object : JsObject} {key : String}
    (hkey : key ∈ keys) :
    JsObject.get? (object.filter (·.1 ∈ keys)) key = JsObject.get? object key := by
  unfold JsObject.get?
  rw [List.find?_filter]
  congr 2
  funext field
  by_cases hfield : field.1 = key
  · simp [hfield, hkey]
  · simp [hfield]

end Fields

/-! ### What is imported -/

section Results

variable {P : Platform}

/-- What is imported is what the schema was asked about, without the keys it does not know. -/
theorem finishRecord_eq_ok {record : ForeignRecord} {data : JsObject}
    (h : finishRecord P record = .ok data) :
    recordDataSchema (isWebsite P.url) (candidateOf P record (partsOf P record)) = true ∧
      data = (candidateOf P record (partsOf P record)).filter (·.1 ∈ knownKeys P record.type) ∧
      recordPayloadBytes (recordPayloadJson P.json data) ≤ maxRecordPayloadBytes := by
  unfold finishRecord at h
  dsimp only at h
  split_ifs at h with hvalid hsize
  obtain rfl := Except.ok.inj h
  exact ⟨by simpa using hvalid, rfl, Nat.le_of_not_lt hsize⟩

/-- What the schema accepts is imported when it is not too large. -/
theorem finishRecord_of_valid {record : ForeignRecord}
    (hvalid : recordDataSchema (isWebsite P.url) (candidateOf P record (partsOf P record)) = true)
    (hsize : recordPayloadBytes (recordPayloadJson P.json
      ((candidateOf P record (partsOf P record)).filter (·.1 ∈ knownKeys P record.type))) ≤
        maxRecordPayloadBytes) :
    finishRecord P record = .ok
      ((candidateOf P record (partsOf P record)).filter (·.1 ∈ knownKeys P record.type)) := by
  unfold finishRecord
  dsimp only
  rw [hvalid, if_neg (by simp), if_neg (Nat.not_lt.2 hsize)]

/-- The title a record is reported under. -/
def reportTitle (record : ForeignRecord) : Text :=
  orElse (trim (record.title.getD [])) "Untitled".toList

/-- What is imported of a record. -/
def imported (P : Platform) (record : ForeignRecord) : Option ImportedRecord :=
  match finishRecord P record with
  | .ok data => some ⟨data, record.createdAt⟩
  | .error _ => none

/-- Why a record is not imported, with the title it is reported under. -/
def skipped (P : Platform) (record : ForeignRecord) : Option (Text × SkipReason) :=
  match finishRecord P record with
  | .ok _ => none
  | .error reason => some (reportTitle record, reason)

/-- What is left behind of the records that are imported. -/
def leftOf (P : Platform) (records : List ForeignRecord) : LeftBehind :=
  (records.filter fun record => (imported P record).isSome).foldl
    (fun left record => left.add record.leftBehind) {}

theorem LeftBehind.add_assoc (a b c : LeftBehind) : (a.add b).add c = a.add (b.add c) := by
  simp only [LeftBehind.add, Nat.add_assoc]

theorem LeftBehind.zero_add (a : LeftBehind) : LeftBehind.add {} a = a := by
  simp only [LeftBehind.add, Nat.zero_add]

theorem LeftBehind.foldl_add (records : List ForeignRecord) (start : LeftBehind) :
    records.foldl (fun left record => left.add record.leftBehind) start =
      start.add (records.foldl (fun left record => left.add record.leftBehind) {}) := by
  induction records generalizing start with
  | nil => rfl
  | cons record records ih =>
      rw [List.foldl_cons, List.foldl_cons, ih, ih (LeftBehind.add {} _), LeftBehind.zero_add,
        LeftBehind.add_assoc]

theorem leftOf_cons (record : ForeignRecord) (records : List ForeignRecord) :
    leftOf P (record :: records) =
      if (imported P record).isSome then record.leftBehind.add (leftOf P records)
      else leftOf P records := by
  unfold leftOf
  rw [List.filter_cons]
  split
  · rw [List.foldl_cons, LeftBehind.zero_add, LeftBehind.foldl_add]
  · rfl

/-- What the builder holds after some records: those imported and those reported, in order, and
what the imported ones left behind. -/
theorem foldl_add (records : List ForeignRecord) (builder : ForeignImportBuilder) :
    records.foldl (ForeignImportBuilder.add P) builder =
      { records := builder.records ++ records.filterMap (imported P)
        report :=
          { toLeftBehind := builder.report.toLeftBehind.add (leftOf P records)
            skipped := builder.report.skipped ++ records.filterMap (skipped P) } } := by
  induction records generalizing builder with
  | nil => simp [leftOf, LeftBehind.add]
  | cons record records ih =>
      rw [List.foldl_cons, ih, leftOf_cons, List.filterMap_cons, List.filterMap_cons]
      unfold ForeignImportBuilder.add imported skipped
      cases finishRecord P record with
      | error reason => simp [ForeignImportBuilder.skip, reportTitle]
      | ok data => simp [LeftBehind.add_assoc]

/-- What is imported of an item. -/
def importedItem (P : Platform) : Except Text ForeignRecord → Option ImportedRecord
  | .error _ => none
  | .ok record => imported P record

/-- Why an item is not imported, with the title it is reported under. -/
def skippedItem (P : Platform) : Except Text ForeignRecord → Option (Text × SkipReason)
  | .error title => some (title, .unsupportedType)
  | .ok record => skipped P record

theorem addItem_eq (builder : ForeignImportBuilder) (item : Except Text ForeignRecord) :
    builder.addItem P item =
      { records := builder.records ++ (importedItem P item).toList
        report :=
          { toLeftBehind := builder.report.toLeftBehind.add (leftOf P item.toOption.toList)
            skipped := builder.report.skipped ++ (skippedItem P item).toList } } := by
  cases item with
  | error title =>
      simp [ForeignImportBuilder.addItem, ForeignImportBuilder.skip, importedItem, skippedItem,
        Except.toOption, leftOf, LeftBehind.add]
  | ok record =>
      have hadd := @foldl_add P [record] builder
      simp only [List.foldl_cons, List.foldl_nil, List.filterMap_cons, List.filterMap_nil] at hadd
      rw [ForeignImportBuilder.addItem, hadd]
      simp only [importedItem, skippedItem, Except.toOption, Option.toList_some]
      cases imported P record <;> cases skipped P record <;> rfl

theorem leftOf_append (records records' : List ForeignRecord) :
    leftOf P (records ++ records') = (leftOf P records).add (leftOf P records') := by
  unfold leftOf
  rw [List.filter_append, List.foldl_append, LeftBehind.foldl_add]

/-- So it is of items some of which have no type here. -/
theorem foldl_addItem (items : List (Except Text ForeignRecord)) (builder : ForeignImportBuilder) :
    items.foldl (ForeignImportBuilder.addItem P) builder =
      { records := builder.records ++ items.filterMap (importedItem P)
        report :=
          { toLeftBehind := builder.report.toLeftBehind.add
              (leftOf P (items.filterMap Except.toOption))
            skipped := builder.report.skipped ++ items.filterMap (skippedItem P) } } := by
  have hcons : ∀ {α β : Type} (f : α → Option β) (a : α) (l : List α),
      (a :: l).filterMap f = (f a).toList ++ l.filterMap f := by
    intro α β f a l
    rw [List.filterMap_cons]
    cases f a <;> rfl
  induction items generalizing builder with
  | nil => simp [leftOf, LeftBehind.add]
  | cons item items ih =>
      rw [List.foldl_cons, ih, addItem_eq, hcons, hcons, hcons, leftOf_append]
      simp only [List.append_assoc, LeftBehind.add_assoc]

end Results

end Foreign

end Passmgr
