/-
# What a record may hold

`packages/schema/src/record-types.ts` with the limits of `record-limits.ts` and `tags.ts`: the schema
of a decrypted record, a check for each of its fields.  Fields the schema does not name are not
looked at.

Whether a text is a website is a parameter.

Main definitions:

* `FieldCheck` and its forms — what the schema library checks;
* `recordDataSchema` — whether an object is the data of a record.

Main results:

* `recordDataSchema_iff` — valid data is valid field by field;
* `recordDataSchema_tags` — its tags are a list of texts, or none.
-/

import Passmgr.ExportFile

set_option relaxedAutoImplicit false
set_option autoImplicit false

namespace Passmgr

open JsNumber (isStrWhiteSpace trim)

/-- The length of a text, in UTF-16 code units. -/
def utf16Length (text : Text) : ℕ :=
  (text.map fun c => if c.toNat < 0x10000 then 1 else 2).sum

theorem utf16Length_cons (c : Char) (cs : Text) :
    utf16Length (c :: cs) = (if c.toNat < 0x10000 then 1 else 2) + utf16Length cs := rfl

theorem utf16Length_append (text text' : Text) :
    utf16Length (text ++ text') = utf16Length text + utf16Length text' := by
  unfold utf16Length
  rw [List.map_append, List.sum_append]

theorem utf16Length_reverse (text : Text) : utf16Length text.reverse = utf16Length text := by
  unfold utf16Length
  rw [List.map_reverse, List.sum_reverse]

theorem utf16Length_suffix {text text' : Text} (h : text <:+ text') :
    utf16Length text ≤ utf16Length text' := by
  obtain ⟨front, rfl⟩ := h
  rw [utf16Length_append]
  exact Nat.le_add_left _ _

theorem utf16Length_trim (text : Text) : utf16Length (trim text) ≤ utf16Length text := by
  unfold trim
  rw [utf16Length_reverse]
  calc utf16Length ((text.dropWhile isStrWhiteSpace).reverse.dropWhile isStrWhiteSpace)
      ≤ utf16Length (text.dropWhile isStrWhiteSpace).reverse :=
        utf16Length_suffix (List.dropWhile_suffix _)
    _ = utf16Length (text.dropWhile isStrWhiteSpace) := utf16Length_reverse _
    _ ≤ utf16Length text := utf16Length_suffix (List.dropWhile_suffix _)

theorem utf16Length_pos {text : Text} (h : text ≠ []) : 1 ≤ utf16Length text := by
  cases text with
  | nil => exact absurd rfl h
  | cons c cs =>
      rw [utf16Length_cons]
      split <;> omega

theorem utf16Length_replicate (count : ℕ) (c : Char) :
    utf16Length (List.replicate count c) = count * (if c.toNat < 0x10000 then 1 else 2) := by
  unfold utf16Length
  rw [List.map_replicate, List.sum_replicate_nat]

namespace RecordSchema

/-! ### Checks -/

/-- A check of a field, which may be absent. -/
abbrev FieldCheck := Option Json → Bool

def required (check : Json → Bool) : FieldCheck := fun value => value.any check

/-- `optional()`. -/
def optional (check : Json → Bool) : FieldCheck := fun value => value.all check

/-- `z.string()` with its length. -/
def string (min max : ℕ) : Json → Bool
  | .string value => min ≤ utf16Length value && utf16Length value ≤ max
  | _ => false

/-- The check of a text, of which only the greatest length matters. -/
theorem string_zero {max : ℕ} {value : Text} :
    string 0 max (.string value) = true ↔ utf16Length value ≤ max := by
  simp [string]

/-- `z.string()` of any length. -/
def anyString : Json → Bool
  | .string _ => true
  | _ => false

/-- `z.boolean()`. -/
def boolean : Json → Bool
  | .bool _ => true
  | _ => false

/-- `z.enum`. -/
def enum (values : List Text) : Json → Bool
  | .string value => value ∈ values
  | _ => false

/-- `z.array` with the most items it may have. -/
def array (item : Json → Bool) (max : ℕ) : Json → Bool
  | .array items => items.length ≤ max && items.all item
  | _ => false

/-- `z.object`. -/
def object (shape : List (String × FieldCheck)) : Json → Bool
  | .object fields => shape.all fun field => field.2 (JsObject.get? fields field.1)
  | _ => false

/-! ### The fields of records -/

def maxTitleLength : ℕ := 256
def maxFieldLength : ℕ := 1024
def maxUrlLength : ℕ := 2048
def maxLongTextLength : ℕ := 16384
def maxNoteLength : ℕ := 32768
def maxWebsites : ℕ := 50
def maxCustomFields : ℕ := 100
def maxTagLength : ℕ := 64
def maxTags : ℕ := 32

def title : FieldCheck := required (string 1 maxTitleLength)

def text : FieldCheck := optional (string 0 maxFieldLength)

def longText : FieldCheck := optional (string 0 maxLongTextLength)

/-- `customFieldSchema`. -/
def customField : Json → Bool :=
  object [("type", required (enum ["text".toList, "secret".toList])), ("title", title),
    ("value", required (string 1 maxLongTextLength))]

def tag : Json → Bool := string 1 maxTagLength

/-- `baseRecordShape`: fields every record type shares. -/
def baseRecordShape : List (String × FieldCheck) :=
  [("title", title), ("note", optional (string 0 maxNoteLength)), ("favorite", optional boolean),
    ("tags", optional (array tag maxTags)),
    ("customFields", optional (array customField maxCustomFields)),
    -- reserves the key, holds nothing yet
    ("attachments", optional (array (fun _ => false) 0))]

variable (isWebsite : Text → Bool)

/-- The items of `websitesSchema`. -/
def website : Json → Bool :=
  object [("value", required fun value =>
    match value with
    | .string url => url = [] || utf16Length url ≤ maxUrlLength && isWebsite url
    | _ => false)]

def passwordChangedAt : FieldCheck := optional anyString

def loginFields : List (String × FieldCheck) :=
  [("username", text), ("email", text), ("password", text), ("passwordChangedAt", passwordChangedAt),
    ("websites", optional (array (website isWebsite) maxWebsites)), ("totp", text)]

def cardFields : List (String × FieldCheck) :=
  [("cardholderName", text), ("number", text), ("expiry", text), ("securityCode", text),
    ("pin", text)]

def identityFields : List (String × FieldCheck) :=
  [("firstName", text), ("lastName", text), ("email", text), ("phone", text), ("birthDate", text),
    ("street", text), ("postalCode", text), ("city", text), ("country", text)]

/-- A secure note is the base fields only. -/
def noteFields : List (String × FieldCheck) := []

def sshKeyFields : List (String × FieldCheck) :=
  [("privateKey", longText), ("publicKey", longText), ("passphrase", text)]

def apiKeyFields : List (String × FieldCheck) :=
  [("keyId", text), ("secret", longText), ("host", text)]

def wifiFields : List (String × FieldCheck) :=
  [("ssid", text), ("password", text), ("passwordChangedAt", passwordChangedAt),
    ("security", optional (enum ["none".toList, "wep".toList, "wpa".toList, "wpa2".toList,
      "wpa3".toList])),
    ("hidden", optional boolean)]

/-- The fields of a type besides those all share. -/
def typeFields (type : Text) : Option (List (String × FieldCheck)) :=
  if type = "login".toList then some (loginFields isWebsite)
  else if type = "card".toList then some cardFields
  else if type = "identity".toList then some identityFields
  else if type = "note".toList then some noteFields
  else if type = "ssh_key".toList then some sshKeyFields
  else if type = "api_key".toList then some apiKeyFields
  else if type = "wifi".toList then some wifiFields
  else none

end RecordSchema

open RecordSchema

/-- `recordDataSchema`: an object whose `type` says which fields are checked. -/
def recordDataSchema (isWebsite : Text → Bool) (data : JsObject) : Bool :=
  match (JsObject.text? data "type").bind (typeFields isWebsite) with
  | none => false
  | some fields => object (baseRecordShape ++ fields) (.object data)

section Valid

variable {isWebsite : Text → Bool} {data : JsObject}

/-- Valid data is valid field by field. -/
theorem recordDataSchema_iff :
    recordDataSchema isWebsite data = true ↔
      ∃ type fields, JsObject.text? data "type" = some type ∧
        typeFields isWebsite type = some fields ∧
        ∀ field ∈ baseRecordShape ++ fields, field.2 (JsObject.get? data field.1) = true := by
  unfold recordDataSchema
  constructor
  · intro h
    split at h
    · cases h
    · next fields hfields =>
        obtain ⟨type, htype, hfields⟩ := Option.bind_eq_some_iff.1 hfields
        exact ⟨type, fields, htype, hfields, List.all_eq_true.1 h⟩
  · rintro ⟨type, fields, htype, hfields, hvalid⟩
    rw [htype, Option.bind_some, hfields]
    exact List.all_eq_true.2 hvalid

/-- The type of valid data is a text. -/
theorem recordDataSchema_type (h : recordDataSchema isWebsite data = true) :
    ∃ type, JsObject.text? data "type" = some type ∧ (typeFields isWebsite type).isSome := by
  obtain ⟨type, fields, htype, hfields, -⟩ := recordDataSchema_iff.1 h
  exact ⟨type, htype, by rw [hfields]; rfl⟩

/-- The tags of valid data are a list of texts, or there are none. -/
theorem recordDataSchema_tags (h : recordDataSchema isWebsite data = true) :
    JsObject.get? data "tags" = none ∨
      ∃ tags : List Text, JsObject.get? data "tags" = some (.array (tags.map .string)) ∧
        tags.length ≤ maxTags ∧
        ∀ text ∈ tags, 1 ≤ utf16Length text ∧ utf16Length text ≤ maxTagLength := by
  obtain ⟨type, fields, -, -, hvalid⟩ := recordDataSchema_iff.1 h
  have htags : RecordSchema.optional (array tag maxTags) (JsObject.get? data "tags") = true :=
    hvalid ("tags", RecordSchema.optional (array tag maxTags)) (by simp [baseRecordShape])
  cases hvalue : JsObject.get? data "tags" with
  | none => exact Or.inl rfl
  | some value =>
      right
      rw [hvalue] at htags
      unfold RecordSchema.optional array at htags
      rw [Option.all_some] at htags
      split at htags
      · next items =>
          obtain ⟨hlength, hitems⟩ := Bool.and_eq_true_iff.1 htags
          have htexts : ∀ item ∈ items, ∃ text, item = Json.string text ∧
              1 ≤ utf16Length text ∧ utf16Length text ≤ maxTagLength := by
            intro item hitem
            have hcheck := List.all_eq_true.1 hitems item hitem
            unfold tag string at hcheck
            split at hcheck
            · next text => exact ⟨text, rfl, by simpa using hcheck⟩
            · cases hcheck
          obtain ⟨tags, htags⟩ : ∃ tags : List Text, items = tags.map Json.string := by
            clear htags hlength hitems hvalue
            induction items with
            | nil => exact ⟨[], rfl⟩
            | cons item items ih =>
                obtain ⟨text, rfl, -⟩ := htexts item List.mem_cons_self
                obtain ⟨tags, rfl⟩ := ih fun item hitem => htexts item (List.mem_cons_of_mem _ hitem)
                exact ⟨text :: tags, rfl⟩
          refine ⟨tags, by rw [htags], ?_, fun text htext => ?_⟩
          · rw [htags, List.length_map] at hlength
            simpa using hlength
          · obtain ⟨other, heq, hbounds⟩ := htexts (.string text)
              (htags ▸ List.mem_map_of_mem htext)
            obtain rfl := Json.string.inj heq
            exact hbounds
      · cases htags

end Valid

end Passmgr
