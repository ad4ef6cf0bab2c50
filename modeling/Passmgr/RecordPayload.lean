/-
# The payload of a record

What a record's ciphertext opens to (`packages/schema/src/record-payload.ts`,
`packages/client/src/util/encrypt-record.ts`): a JSON text, which is checked for its schema version
and its type and for nothing else.  Any member of a vault who may write can have written it.

The JSON coding itself is a parameter.  A value is what `JSON.parse` makes of a text; an object
keeps its keys in order, each once.

Main definitions:

* `Json`, `JsObject`, `JsonText` — values, the fields of an object, and their texts;
* `upgradeRecordPayload`, `recordPayloadJson` — the check when a payload is read, and its text;
* `encryptRecord` — a new ciphertext of a record, refused when the payload is too large.

Main results:

* `JsObject.get?_set`, `JsObject.get?_without` — looking fields up;
* `of_encryptRecord_payload` — what an encrypted payload opens to.
-/

import Passmgr.JsNumber
import Passmgr.SecretsStore

set_option relaxedAutoImplicit false
set_option autoImplicit false

namespace Passmgr

open IdealCipher (Ciphers)

/-! ### JSON values -/

/-- A value of `JSON.parse`. -/
inductive Json
  | null
  | bool (value : Bool)
  | number (value : JsNumber)
  | string (value : Text)
  | array (items : List Json)
  | object (fields : List (String × Json))

/-- The fields of an object, in the order of its keys. -/
abbrev JsObject := List (String × Json)

namespace JsObject

variable (object : JsObject)

/-- The value under a key; `none` is `undefined`. -/
def get? (key : String) : Option Json := (object.find? (·.1 = key)).map (·.2)

/-- The fields without those of some keys: what is left of a destructured object. -/
def without (keys : List String) : JsObject := object.filter (·.1 ∉ keys)

/-- `{ ...object, key: value }`: a key that is there keeps its place. -/
def set (key : String) (value : Json) : JsObject :=
  if key ∈ object.map (·.1) then
    object.map fun field => if field.1 = key then (key, value) else field
  else object ++ [(key, value)]

@[simp] theorem get?_nil (key : String) : get? [] key = none := rfl

theorem get?_cons (field : String × Json) (key : String) :
    get? (field :: object) key = if field.1 = key then some field.2 else get? object key := by
  unfold get?
  rw [List.find?_cons]
  split <;> simp_all

theorem get?_append (object' : JsObject) (key : String) :
    get? (object ++ object') key = (get? object key).or (get? object' key) := by
  unfold get?
  rw [List.find?_append]
  cases List.find? (·.1 = key) object <;> rfl

theorem get?_eq_none_iff (key : String) : get? object key = none ↔ key ∉ object.map (·.1) := by
  unfold get?
  rw [Option.map_eq_none_iff, List.find?_eq_none, List.mem_map]
  constructor
  · rintro h ⟨field, hfield, rfl⟩
    exact h field hfield (decide_eq_true rfl)
  · intro h field hfield hkey
    exact h ⟨field, hfield, of_decide_eq_true hkey⟩

theorem get?_without (keys : List String) (key : String) :
    get? (without object keys) key = if key ∈ keys then none else get? object key := by
  unfold without
  induction object with
  | nil => simp
  | cons field object ih =>
      rw [List.filter_cons]
      by_cases hfield : field.1 ∈ keys
      · rw [if_neg (by simpa using hfield), ih, get?_cons]
        grind
      · rw [if_pos (by simpa using hfield), get?_cons, get?_cons, ih]
        grind

theorem get?_map_of_mem {key : String} (value : Json) (h : key ∈ object.map (·.1)) :
    get? (object.map fun field => if field.1 = key then (key, value) else field) key =
      some value := by
  induction object with
  | nil => cases h
  | cons field object ih =>
      rw [List.map_cons, get?_cons]
      by_cases hfield : field.1 = key
      · rw [if_pos hfield, if_pos rfl]
      · rw [if_neg hfield, if_neg hfield]
        rw [List.map_cons] at h
        exact ih ((List.mem_cons.1 h).resolve_left fun heq => hfield heq.symm)

theorem get?_map_of_ne {key other : String} (value : Json) (h : other ≠ key) :
    get? (object.map fun field => if field.1 = key then (key, value) else field) other =
      get? object other := by
  induction object with
  | nil => rfl
  | cons field object ih =>
      rw [List.map_cons, get?_cons, get?_cons, ih]
      by_cases hfield : field.1 = key
      · rw [if_pos hfield, if_neg (Ne.symm h), if_neg (by rw [hfield]; exact Ne.symm h)]
      · rw [if_neg hfield]

theorem get?_set (key other : String) (value : Json) :
    get? (set object key value) other = if other = key then some value else get? object other := by
  unfold set
  by_cases hother : other = key
  · subst hother
    rw [if_pos rfl]
    split
    · next hmem => exact get?_map_of_mem object value hmem
    · next hmem =>
        rw [get?_append, (get?_eq_none_iff object other).2 hmem, Option.none_or, get?_cons,
          if_pos rfl]
  · rw [if_neg hother]
    split
    · exact get?_map_of_ne object value hother
    · rw [get?_append, get?_cons, if_neg (Ne.symm hother), get?_nil, Option.or_none]

theorem without_set {key : String} {keys : List String} (h : key ∈ keys)
    (value : Json) :
    without (set object key value) keys = without object keys := by
  unfold set without
  split
  · -- the changed field is dropped either way
    rw [List.filter_map]
    have hkeys : (fun field : String × Json => decide (field.1 ∉ keys)) ∘
        (fun field => if field.1 = key then (key, value) else field) =
          fun field => decide (field.1 ∉ keys) := by
      funext field
      simp only [Function.comp]
      split
      · next hfield => rw [hfield]
      · rfl
    rw [hkeys]
    refine (List.map_congr_left fun field hfield => ?_).trans (List.map_id' _)
    refine if_neg fun heq => ?_
    exact of_decide_eq_true (List.mem_filter.1 hfield).2 (heq ▸ h)
  · rw [List.filter_append]
    simp [h]

theorem without_of_get? {keys : List String} (h : ∀ key ∈ keys, get? object key = none) :
    without object keys = object := by
  refine List.filter_eq_self.2 fun field hfield => decide_eq_true fun hkey => ?_
  exact (get?_eq_none_iff object field.1).1 (h field.1 hkey) (List.mem_map_of_mem hfield)

end JsObject

/-- `JSON.parse`, which throws on a text that is none, and `JSON.stringify`. -/
structure JsonText where
  parse : Text → Option Json
  stringify : Json → Text

/-! ### Payloads -/

/-- `CURRENT_SCHEMA_VERSION`. -/
def currentSchemaVersion : JsNumber := .fin 1

/-- `RECORD_TYPES`. -/
def recordTypes : List Text :=
  ["login".toList, "card".toList, "identity".toList, "note".toList, "ssh_key".toList,
    "api_key".toList, "wifi".toList]

/-- Why a payload is rejected. -/
inductive PayloadError
  /-- `UnsupportedSchemaVersionError`. -/
  | schemaVersion (schemaVersion : Option Json)
  /-- `UnknownRecordTypeError`. -/
  | recordType (recordType : Option Json)

/-- `payload.schemaVersion === CURRENT_SCHEMA_VERSION`. -/
def isCurrentVersion : Option Json → Bool
  | some (.number version) => version = currentSchemaVersion
  | _ => false

/-- `RECORD_TYPES.includes(type)`. -/
def isRecordType : Option Json → Bool
  | some (.string type) => type ∈ recordTypes
  | _ => false

/-- `upgradeRecordPayload`: a payload of the current format and a known type; its other fields are
not looked at.  Only an object has a `schemaVersion`. -/
def upgradeRecordPayload : Json → Except PayloadError JsObject
  | .object fields =>
    if !isCurrentVersion (JsObject.get? fields "schemaVersion") then
      .error (.schemaVersion (JsObject.get? fields "schemaVersion"))
    else if !isRecordType (JsObject.get? fields "type") then
      .error (.recordType (JsObject.get? fields "type"))
    else .ok fields
  | _ => .error (.schemaVersion none)

theorem of_upgradeRecordPayload {payload : Json} {fields : JsObject}
    (h : upgradeRecordPayload payload = .ok fields) :
    payload = .object fields ∧
      isCurrentVersion (JsObject.get? fields "schemaVersion") = true ∧
      isRecordType (JsObject.get? fields "type") = true := by
  unfold upgradeRecordPayload at h
  split at h
  · split at h
    · cases h
    · next hversion =>
        split at h
        · cases h
        · next htype =>
            obtain rfl := Except.ok.inj h
            rw [Bool.not_eq_true, Bool.not_eq_false'] at hversion htype
            exact ⟨rfl, hversion, htype⟩
  · cases h

/-- `MAX_RECORD_PAYLOAD_BYTES`. -/
def maxRecordPayloadBytes : ℕ := 128 * 1024

/-- `recordPayloadBytes`: the length in UTF-8. -/
def recordPayloadBytes (json : Text) : ℕ := (json.map Char.utf8Size).sum

section Functions

variable (C : Ciphers Text) (T : JsonText)

/-- `recordPayloadJson`: the plaintext a record is encrypted as. -/
def recordPayloadJson (data : JsObject) : Text :=
  T.stringify (.object (data.set "schemaVersion" (.number currentSchemaVersion)))

/-- The payload of a row that opened, unless it is none of the current format. -/
def openPayload (bytes : Option Text) : Option JsObject :=
  (bytes.bind T.parse).bind fun json => (upgradeRecordPayload json).toOption

/-- Why a record is not encrypted. -/
inductive EncryptError
  /-- `RecordTooLargeError`. -/
  | tooLarge
  | secrets (error : SecretsError)
  deriving DecidableEq, Repr

/-- `encryptRecord`: a record under its vault's current key, in the current payload format. -/
def encryptRecord (store : SecretsStore) (nonce : Text) (recordId : RecordId) (vaultId : VaultId)
    (data : JsObject) : Except EncryptError Ciphertext :=
  let json := recordPayloadJson T data
  if recordPayloadBytes json > maxRecordPayloadBytes then .error .tooLarge
  else
    match store.encryptRecord C nonce recordId vaultId json with
    | .error e => .error (.secrets e)
    | .ok content => .ok content

end Functions

section Correct

variable {C : Ciphers Text} {T : JsonText} {store : SecretsStore}

/-- A row with an encrypted payload opens to the payload's text while the keys are loaded. -/
theorem of_encryptRecord_payload (hC : C.Correct) {nonce : Text} {recordId : RecordId}
    {vaultId : VaultId} {data : JsObject} {content : Ciphertext}
    (h : encryptRecord C T store nonce recordId vaultId data = .ok content)
    {row : EncryptedRecord} (hid : row.recordId = recordId) (hvault : row.vaultId = vaultId)
    (hcontent : row.content = content) :
    recordPayloadBytes (recordPayloadJson T data) ≤ maxRecordPayloadBytes ∧
      store.decryptRecord C row = .ok (recordPayloadJson T data) := by
  unfold encryptRecord at h
  dsimp only at h
  split at h
  · cases h
  · next hsize =>
      refine ⟨Nat.le_of_not_lt hsize, ?_⟩
      split at h
      · cases h
      · next encrypted hencrypted =>
          obtain rfl := Except.ok.inj h
          obtain ⟨keyVersion, vaultKey, hkey, rfl⟩ := of_encryptRecord hencrypted
          refine bind_eq_ok.mpr ⟨vaultKey, ?_, ?_⟩
          · rw [hvault, hcontent]
            exact hkey
          · rw [SecretsStore.opened_eq_ok]
            have hopens := decryptRecordData_encryptRecordData hC nonce vaultKey
              ⟨recordId, vaultId, currentCryptoVersion⟩ (recordPayloadJson T data)
            have hcontext : SecretsStore.recordContext row =
                ⟨recordId, vaultId, currentCryptoVersion⟩ := by
              unfold SecretsStore.recordContext
              rw [hid, hvault, hcontent]
            rw [hcontext, hcontent]
            exact hopens

end Correct

end Passmgr
