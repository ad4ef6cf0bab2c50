/-
# The fields of a record as data

`packages/client/src/records/record-field-specs.ts`, with what it takes from `card.ts`: a record is
a list of field specs in render order, which the record view, the version diff and the list of
previous secrets address one by one.

The fingerprint of a public key is a parameter.

Main definitions:

* `FieldSpec` — one field, with the key that names it in every revision;
* `RecordData` — a record's content, by type;
* `getRecordFieldSpecs` — the fields of a record in render order.

Main results:

* `nodup_keys` — a record has no key twice;
* `compare_of_secret` — what a secret field is compared by is its value, and for a custom field
  its type before it.
-/

import Mathlib.Data.List.Nodup
import Passmgr.CipherSlots
import Passmgr.JsNumber
import Passmgr.WifiQr

set_option relaxedAutoImplicit false
set_option autoImplicit false

namespace Passmgr

open JsNumber (isStrWhiteSpace)
open scoped List

/-! ### Specs -/

/-- `FIELD_GROUPS`: the visual groups, in render order. -/
inductive FieldGroup
  | title
  | fields
  | websites
  | note
  | custom
  deriving DecidableEq, Repr

/-- Which control renders a field. -/
inductive FieldKind
  | title
  | username
  | password
  | totp
  | websites
  | note
  | text
  | secret
  deriving DecidableEq, Repr

structure FieldSpec where
  key : Text
  group : FieldGroup
  compare : Text
  kind : FieldKind
  label : Text
  value : Option Text := none
  values : Option (List Text) := none
  copyValue : Option Text := none
  derived : Bool := false
  deriving DecidableEq, Repr

/-! ### Records -/

/-- The values of `type` in `customFieldSchema`. -/
inductive CustomFieldType
  | text
  | secret
  deriving DecidableEq, Repr

structure CustomField where
  type : CustomFieldType
  title : Text
  value : Text
  deriving DecidableEq, Repr

structure LoginRecord where
  username : Option Text := none
  email : Option Text := none
  password : Option Text := none
  websites : Option (List Text) := none
  totp : Option Text := none
  deriving DecidableEq, Repr

structure CardRecord where
  cardholderName : Option Text := none
  number : Option Text := none
  expiry : Option Text := none
  securityCode : Option Text := none
  pin : Option Text := none
  deriving DecidableEq, Repr

structure IdentityRecord where
  firstName : Option Text := none
  lastName : Option Text := none
  email : Option Text := none
  phone : Option Text := none
  birthDate : Option Text := none
  street : Option Text := none
  postalCode : Option Text := none
  city : Option Text := none
  country : Option Text := none
  deriving DecidableEq, Repr

structure SshKeyRecord where
  privateKey : Option Text := none
  publicKey : Option Text := none
  passphrase : Option Text := none
  deriving DecidableEq, Repr

structure ApiKeyRecord where
  keyId : Option Text := none
  secret : Option Text := none
  host : Option Text := none
  deriving DecidableEq, Repr

/-- The fields of a type besides those all share. -/
inductive TypeData
  | login (fields : LoginRecord)
  | card (fields : CardRecord)
  | identity (fields : IdentityRecord)
  | note
  | sshKey (fields : SshKeyRecord)
  | apiKey (fields : ApiKeyRecord)
  | wifi (fields : WifiRecord)
  deriving DecidableEq, Repr

inductive RecordType
  | login
  | card
  | identity
  | note
  | sshKey
  | apiKey
  | wifi
  deriving DecidableEq, Repr

def TypeData.type : TypeData → RecordType
  | login _ => .login
  | card _ => .card
  | identity _ => .identity
  | note => .note
  | sshKey _ => .sshKey
  | apiKey _ => .apiKey
  | wifi _ => .wifi

/-- A record's content, of what `getRecordFieldSpecs` reads. -/
structure RecordData where
  title : Text
  note : Option Text := none
  customFields : Option (List CustomField) := none
  data : TypeData
  deriving DecidableEq, Repr

/-- A decrypted record, of what is read of it here: its content, its id and its version. -/
structure DecryptedRecord extends RecordData where
  recordId : RecordId
  version : ℕ
  clientUpdatedAt : Text
  deriving DecidableEq, Repr

/-! ### Card numbers -/

namespace Card

/-- `CardBrand`: networks recognised from a card number's leading digits. -/
inductive CardBrand
  | visa
  | mastercard
  | amex
  | discover
  | diners
  | jcb
  | unionpay
  | maestro
  deriving DecidableEq, Repr

/-- `CARD_BRAND_LABELS`. -/
def CardBrand.label : CardBrand → Text
  | .visa => "Visa".toList
  | .mastercard => "Mastercard".toList
  | .amex => "American Express".toList
  | .discover => "Discover".toList
  | .diners => "Diners Club".toList
  | .jcb => "JCB".toList
  | .unionpay => "UnionPay".toList
  | .maestro => "Maestro".toList

/-- The digits of a card number, without the spaces or dashes it was typed with. -/
def cardDigits (number : Option Text) : Text := (number.getD []).filter Char.isDigit

/-- Digits, spaces and dashes only. -/
def isCardNumberLike (text : Option Text) : Bool :=
  (text.getD []).all fun c => c.isDigit || isStrWhiteSpace c || c = '-'

/-- `Number` of a text of digits. -/
def numberOf (digits : Text) : ℕ := digits.foldl (fun n c => 10 * n + (c.toNat - '0'.toNat)) 0

def prefixIn (digits : Text) (length low high : ℕ) : Bool :=
  length ≤ digits.length && low ≤ numberOf (digits.take length) &&
    numberOf (digits.take length) ≤ high

/-- The card network; the order matters where ranges nest. -/
def detectCardBrand (number : Option Text) : Option CardBrand :=
  let digits := cardDigits number
  let starts (text : String) : Bool := text.toList.isPrefixOf digits
  if starts "4" then some .visa
  else if prefixIn digits 2 34 34 || prefixIn digits 2 37 37 then some .amex
  else if prefixIn digits 2 51 55 || prefixIn digits 4 2221 2720 then some .mastercard
  else if starts "6011" || starts "65" || prefixIn digits 3 644 649 then some .discover
  else if prefixIn digits 4 3528 3589 then some .jcb
  else if starts "36" || prefixIn digits 3 300 305 || prefixIn digits 2 38 39 then some .diners
  else if starts "62" then some .unionpay
  else if starts "50" || prefixIn digits 2 56 58 || starts "6304" || starts "6759" ||
      starts "6767" then some .maestro
  else none

/-- Digit group sizes as printed on the card: 4-6-5 (Amex), 4-6-4 (Diners), else fours. -/
def groupSizes (brand : Option CardBrand) (length : ℕ) : List ℕ :=
  if brand = some .amex then [4, 6, 5]
  else if brand = some .diners ∧ length = 14 then [4, 6, 4]
  else [4, 4, 4, 4, 3]

/-- The digits in groups of these sizes; what is longer than the pattern is one more group. -/
def digitGroups : List ℕ → Text → List Text
  | [], digits => if digits = [] then [] else [digits]
  | size :: sizes, digits =>
    if digits = [] then [] else digits.take size :: digitGroups sizes (digits.drop size)

/-- A card number grouped as printed on the card; text that is none comes back unchanged. -/
def formatCardNumber (number : Text) : Text :=
  if !isCardNumberLike (some number) then number
  else
    let digits := cardDigits (some number)
    [' '].intercalate (digitGroups (groupSizes (detectCardBrand (some digits)) digits.length) digits)

end Card

open Card

/-! ### The fields of a type -/

/-- What a field of a type holds. -/
inductive RawValue
  | text (value : Text)
  | security (value : WifiSecurity)
  | boolean (value : Bool)
  deriving DecidableEq, Repr

/-- `WIFI_SECURITY_LABEL`. -/
def wifiSecurityLabel : WifiSecurity → Text
  | .none => "None".toList
  | .wep => "WEP".toList
  | .wpa => "WPA".toList
  | .wpa2 => "WPA2".toList
  | .wpa3 => "WPA3".toList

namespace RawValue

/-- `String(raw)` of a text, the only values without a `format`. -/
def string : RawValue → Option Text
  | text value => some value
  | _ => none

def cardNumber : RawValue → Option Text
  | text value => some (formatCardNumber value)
  | _ => none

/-- Payment forms take the digits; not all of them take the spaces. -/
def cardCopy : RawValue → Text
  | text value => if isCardNumberLike (some value) then cardDigits (some value) else value
  | _ => []

def securityLabel : RawValue → Option Text
  | security value => some (wifiSecurityLabel value)
  | _ => none

/-- Only a hidden network has a row. -/
def hiddenLabel : RawValue → Option Text
  | boolean true => some "Yes".toList
  | _ => none

end RawValue

/-- A scalar type-specific field, rendered in the `fields` group. -/
structure TypeField where
  key : String
  kind : FieldKind
  label : String
  always : Bool := false
  format : RawValue → Option Text := RawValue.string
  copy : Option (RawValue → Text) := none

/-- `TYPE_FIELDS`: the `fields` group of each type, in render order. -/
def typeFields : RecordType → List TypeField
  | .login =>
    [{ key := "username", kind := .username, label := "Username", always := true },
      { key := "email", kind := .text, label := "Email" },
      { key := "password", kind := .password, label := "Password", always := true },
      { key := "totp", kind := .totp, label := "2FA token (TOTP)" }]
  | .card =>
    [{ key := "cardholderName", kind := .text, label := "Cardholder name" },
      { key := "number", kind := .secret, label := "Card number",
        format := RawValue.cardNumber, copy := some RawValue.cardCopy },
      { key := "expiry", kind := .text, label := "Expiry date" },
      { key := "securityCode", kind := .secret, label := "Security code" },
      { key := "pin", kind := .secret, label := "PIN" }]
  | .identity =>
    [{ key := "firstName", kind := .text, label := "First name" },
      { key := "lastName", kind := .text, label := "Last name" },
      { key := "email", kind := .text, label := "Email" },
      { key := "phone", kind := .text, label := "Phone" },
      { key := "birthDate", kind := .text, label := "Date of birth" },
      { key := "street", kind := .text, label := "Street" },
      { key := "postalCode", kind := .text, label := "Postal code" },
      { key := "city", kind := .text, label := "City" },
      { key := "country", kind := .text, label := "Country" }]
  | .note => []
  | .sshKey =>
    [{ key := "publicKey", kind := .text, label := "Public key" },
      { key := "privateKey", kind := .secret, label := "Private key" },
      { key := "passphrase", kind := .secret, label := "Passphrase" }]
  | .apiKey =>
    [{ key := "keyId", kind := .text, label := "Key ID" },
      { key := "secret", kind := .secret, label := "Secret" },
      { key := "host", kind := .text, label := "Host" }]
  | .wifi =>
    [{ key := "ssid", kind := .text, label := "Network name (SSID)" },
      { key := "password", kind := .password, label := "Password" },
      { key := "security", kind := .text, label := "Security", format := RawValue.securityLabel },
      { key := "hidden", kind := .text, label := "Hidden network",
        format := RawValue.hiddenLabel }]

/-- The scalar fields of a record's type by name. -/
def TypeData.values : TypeData → List (String × Option RawValue)
  | login fields =>
    [("username", fields.username.map .text), ("email", fields.email.map .text),
      ("password", fields.password.map .text), ("totp", fields.totp.map .text)]
  | card fields =>
    [("cardholderName", fields.cardholderName.map .text), ("number", fields.number.map .text),
      ("expiry", fields.expiry.map .text), ("securityCode", fields.securityCode.map .text),
      ("pin", fields.pin.map .text)]
  | identity fields =>
    [("firstName", fields.firstName.map .text), ("lastName", fields.lastName.map .text),
      ("email", fields.email.map .text), ("phone", fields.phone.map .text),
      ("birthDate", fields.birthDate.map .text), ("street", fields.street.map .text),
      ("postalCode", fields.postalCode.map .text), ("city", fields.city.map .text),
      ("country", fields.country.map .text)]
  | note => []
  | sshKey fields =>
    [("privateKey", fields.privateKey.map .text), ("publicKey", fields.publicKey.map .text),
      ("passphrase", fields.passphrase.map .text)]
  | apiKey fields =>
    [("keyId", fields.keyId.map .text), ("secret", fields.secret.map .text),
      ("host", fields.host.map .text)]
  | wifi fields =>
    [("ssid", fields.ssid.map .text), ("password", fields.password.map .text),
      ("security", fields.security.map .security), ("hidden", fields.hidden.map .boolean)]

/-- `values[key]`. -/
def TypeData.value? (data : TypeData) (key : String) : Option RawValue :=
  (data.values.find? (·.1 = key)).bind (·.2)

/-- The spec of one field; `none` where it has no row. -/
def TypeField.spec (field : TypeField) (raw : Option RawValue) : Option FieldSpec :=
  match raw with
  | none | some (.text []) =>
    if field.always then
      some {
        key := field.key.toList
        group := .fields
        compare := []
        kind := field.kind
        label := field.label.toList }
    else none
  | some raw =>
    (field.format raw).map fun value =>
      { key := field.key.toList
        group := .fields
        compare := value
        kind := field.kind
        label := field.label.toList
        value := some value
        copyValue := field.copy.map (· raw) }

def typeFieldSpecs (record : RecordData) : List FieldSpec :=
  (typeFields record.data.type).filterMap fun field => field.spec (record.data.value? field.key)

/-! ### The other fields -/

/-- A row worked out from the stored fields. -/
def derivedSpec (key label : String) (value : Text) : FieldSpec where
  key := key.toList
  group := .fields
  compare := value
  kind := .text
  label := label.toList
  value := some value
  derived := true

/-- Rows worked out from the stored fields, appended to the `fields` group. -/
def derivedFieldSpecs (sshKeyFingerprint : Text → Option Text) (record : RecordData) :
    List FieldSpec :=
  match record.data with
  | .card fields =>
    ((detectCardBrand fields.number).map fun brand =>
      derivedSpec "brand" "Card type" brand.label).toList
  | .sshKey fields =>
    (((fields.publicKey.filter (· ≠ [])).bind sshKeyFingerprint).filter (· ≠ []) |>.map
      (derivedSpec "fingerprint" "Fingerprint")).toList
  | _ => []

/-- How a text is written as a JSON string: `stringify` of the platform. -/
abbrev Stringify := List Text → Text

/-- The spec of the websites of a login that has any. -/
def websiteSpecs (stringify : Stringify) (record : RecordData) : List FieldSpec :=
  match record.data with
  | .login { websites := some (value :: values), .. } =>
    [{ key := "websites".toList
       group := .websites
       compare := stringify (value :: values)
       kind := .websites
       label := "Websites".toList
       values := some (value :: values) }]
  | _ => []

def noteSpecs (record : RecordData) : List FieldSpec :=
  match record.note with
  | none | some [] => []
  | some note =>
    [{ key := "note".toList
       group := .note
       compare := note
       kind := .note
       label := "Notes".toList
       value := some note }]

def CustomFieldType.name : CustomFieldType → Text
  | .text => "text".toList
  | .secret => "secret".toList

def CustomFieldType.kind : CustomFieldType → FieldKind
  | .text => .text
  | .secret => .secret

/-- The key of a custom field: its title, and how often that came before. -/
def customKey (title : Text) (occurrence : ℕ) : Text :=
  "custom:".toList ++ title ++ ':' :: versionText occurrence

/-- The specs of custom fields, after those with the titles `before`. -/
def customFieldSpecs (before : List Text) : List CustomField → List FieldSpec
  | [] => []
  | field :: fields =>
    { key := customKey field.title (before.count field.title)
      group := .custom
      compare := field.type.name ++ ' ' :: field.value
      kind := field.type.kind
      label := field.title
      value := some field.value } :: customFieldSpecs (field.title :: before) fields

def titleSpec (record : RecordData) : FieldSpec where
  key := "title".toList
  group := .title
  compare := record.title
  kind := .title
  label := "Title".toList
  value := some record.title

/-- A record's fields in render order: title, type fields, websites, note, custom fields. -/
def getRecordFieldSpecs (sshKeyFingerprint : Text → Option Text) (stringify : Stringify)
    (record : RecordData) (includeTitle : Bool := false) (includeDerived : Bool := false) :
    List FieldSpec :=
  (if includeTitle then [titleSpec record] else []) ++ typeFieldSpecs record ++
    (if includeDerived then derivedFieldSpecs sshKeyFingerprint record else []) ++
    websiteSpecs stringify record ++ noteSpecs record ++
    customFieldSpecs [] (record.customFields.getD [])

/-! ### The keys -/

theorem customKey_inj {title title' : Text} {n n' : ℕ} (h : customKey title n = customKey title' n') :
    title = title' ∧ n = n' := by
  have hcolon : ∀ n, ':' ∉ versionText n := by
    intro n hmem
    exact absurd (Nat.isDigit_of_mem_toDigits (by decide) (by decide) hmem) (by decide)
  obtain ⟨htitle, hn⟩ := Separators.last_inj (hcolon n) (hcolon n') h
  exact ⟨List.append_cancel_left htitle, versionText_injective hn⟩

theorem custom_prefix_customKey (title : Text) (n : ℕ) :
    "custom:".toList <+: customKey title n := by
  unfold customKey
  simp only [List.append_assoc, List.prefix_append]

/-- Where a spec of a custom field comes from. -/
theorem mem_customFieldSpecs {before : List Text} {fields : List CustomField} {spec : FieldSpec}
    (h : spec ∈ customFieldSpecs before fields) :
    ∃ field ∈ fields, ∃ n, before.count field.title ≤ n ∧ spec.key = customKey field.title n ∧
      spec.compare = field.type.name ++ ' ' :: field.value ∧ spec.kind = field.type.kind ∧
      spec.value = some field.value := by
  induction fields generalizing before with
  | nil => simp [customFieldSpecs] at h
  | cons field fields ih =>
    obtain rfl | h := List.mem_cons.1 h
    · exact ⟨field, List.mem_cons_self, _, le_rfl, rfl, rfl, rfl, rfl⟩
    · obtain ⟨other, hother, n, hn, hspec⟩ := ih h
      refine ⟨other, List.mem_cons_of_mem _ hother, n, ?_, hspec⟩
      exact (List.count_le_count_cons).trans hn

theorem nodup_customFieldSpecs (before : List Text) (fields : List CustomField) :
    ((customFieldSpecs before fields).map (·.key)).Nodup := by
  induction fields generalizing before with
  | nil => simp [customFieldSpecs]
  | cons field fields ih =>
    refine List.nodup_cons.2 ⟨?_, ih _⟩
    intro h
    obtain ⟨spec, hspec, hkey⟩ := List.mem_map.1 h
    obtain ⟨other, -, n, hn, hother, -⟩ := mem_customFieldSpecs hspec
    obtain ⟨htitle, hcount⟩ := customKey_inj (hother.symm.trans hkey)
    rw [htitle, List.count_cons_self] at hn
    omega

theorem map_filterMap_sublist {α β γ : Type} {f : α → Option β} {g : β → γ} {k : α → γ}
    (h : ∀ a b, f a = some b → g b = k a) (l : List α) : (l.filterMap f).map g <+ l.map k := by
  induction l with
  | nil => simp
  | cons a l ih =>
    cases hf : f a with
    | none => simpa [List.filterMap_cons_none hf] using ih.cons _
    | some b => simpa [List.filterMap_cons_some hf, h a b hf] using ih.cons_cons (k a)

/-- What a row of a type's field says: its own key and kind, and its value is what it is compared
by. -/
theorem spec_eq_some {field : TypeField} {raw : Option RawValue} {spec : FieldSpec}
    (h : field.spec raw = some spec) :
    spec.key = field.key.toList ∧ spec.kind = field.kind ∧
      ∀ value ∈ spec.value, spec.compare = value := by
  unfold TypeField.spec at h
  split at h
  · split at h
    · obtain rfl := Option.some.inj h
      simp
    · cases h
  · split at h
    · obtain rfl := Option.some.inj h
      simp
    · cases h
  · obtain ⟨value, -, rfl⟩ := Option.map_eq_some_iff.1 h
    simp

/-- The keys besides those of custom fields, in render order. -/
def fixedKeys (type : RecordType) : List Text :=
  "title".toList :: (typeFields type).map (·.key.toList) ++
    ["brand".toList, "fingerprint".toList, "websites".toList, "note".toList]

theorem nodup_fixedKeys (type : RecordType) : (fixedKeys type).Nodup := by
  cases type <;> decide

theorem not_custom_of_mem_fixedKeys {type : RecordType} {key : Text} (h : key ∈ fixedKeys type) :
    ¬ "custom:".toList <+: key := by
  have hall : ∀ key ∈ fixedKeys type, ¬ "custom:".toList <+: key := by
    cases type <;> decide
  exact hall key h

section Keys

variable (sshKeyFingerprint : Text → Option Text) (stringify : Stringify) (record : RecordData)
  (includeTitle includeDerived : Bool)

theorem typeKeys_sublist :
    (typeFieldSpecs record).map (·.key) <+ (typeFields record.data.type).map (·.key.toList) :=
  map_filterMap_sublist (fun _ _ h => (spec_eq_some h).1) _

theorem derivedKeys_sublist :
    (derivedFieldSpecs sshKeyFingerprint record).map (·.key) <+
      ["brand".toList, "fingerprint".toList] := by
  unfold derivedFieldSpecs
  split
  · cases detectCardBrand _ with
    | none => simp
    | some brand => exact List.Sublist.cons_cons _ (List.nil_sublist _)
  · rename_i fields _
    cases ((fields.publicKey.filter (· ≠ [])).bind sshKeyFingerprint).filter (· ≠ []) with
    | none => simp
    | some fingerprint => exact List.Sublist.cons _ (List.Sublist.refl _)
  · simp

theorem websiteKeys_sublist :
    (websiteSpecs stringify record).map (·.key) <+ ["websites".toList] := by
  unfold websiteSpecs
  split
  · exact List.Sublist.refl _
  · exact List.nil_sublist _

theorem noteKeys_sublist : (noteSpecs record).map (·.key) <+ ["note".toList] := by
  unfold noteSpecs
  split
  · exact List.nil_sublist _
  · exact List.nil_sublist _
  · exact List.Sublist.refl _

/-- The specs before the custom fields. -/
def fixedSpecs : List FieldSpec :=
  (if includeTitle then [titleSpec record] else []) ++ typeFieldSpecs record ++
    (if includeDerived then derivedFieldSpecs sshKeyFingerprint record else []) ++
    websiteSpecs stringify record ++ noteSpecs record

theorem getRecordFieldSpecs_eq :
    getRecordFieldSpecs sshKeyFingerprint stringify record includeTitle includeDerived =
      fixedSpecs sshKeyFingerprint stringify record includeTitle includeDerived ++
        customFieldSpecs [] (record.customFields.getD []) := rfl

theorem fixedSpecs_sublist :
    (fixedSpecs sshKeyFingerprint stringify record includeTitle includeDerived).map (·.key) <+
      fixedKeys record.data.type := by
  have htitle : (if includeTitle then [titleSpec record] else []).map (·.key) <+
      ["title".toList] := by
    cases includeTitle with
    | false => exact List.nil_sublist _
    | true => exact List.Sublist.refl _
  have hderived : (if includeDerived then derivedFieldSpecs sshKeyFingerprint record else []).map
      (·.key) <+ ["brand".toList, "fingerprint".toList] := by
    cases includeDerived with
    | false => simp
    | true => exact derivedKeys_sublist sshKeyFingerprint record
  have h := (((htitle.append (typeKeys_sublist record)).append hderived).append
    (websiteKeys_sublist stringify record)).append (noteKeys_sublist record)
  simpa only [fixedSpecs, fixedKeys, List.map_append, List.append_assoc, List.cons_append,
    List.nil_append] using h

/-- A key is fixed or that of a custom field. -/
theorem key_of_mem {spec : FieldSpec}
    (h : spec ∈ getRecordFieldSpecs sshKeyFingerprint stringify record includeTitle
      includeDerived) :
    spec.key ∈ fixedKeys record.data.type ∨
      ∃ field ∈ record.customFields.getD [], ∃ n, spec.key = customKey field.title n := by
  rw [getRecordFieldSpecs_eq, List.mem_append] at h
  obtain h | h := h
  · exact .inl ((fixedSpecs_sublist _ _ _ _ _).subset (List.mem_map_of_mem h))
  · obtain ⟨field, hfield, n, -, hkey, -⟩ := mem_customFieldSpecs h
    exact .inr ⟨field, hfield, n, hkey⟩

/-- A record has no key twice. -/
theorem nodup_keys :
    ((getRecordFieldSpecs sshKeyFingerprint stringify record includeTitle includeDerived).map
      (·.key)).Nodup := by
  have hfixed := fixedSpecs_sublist sshKeyFingerprint stringify record includeTitle includeDerived
  rw [getRecordFieldSpecs_eq, List.map_append]
  refine List.Nodup.append ((nodup_fixedKeys _).sublist hfixed) (nodup_customFieldSpecs _ _) ?_
  intro key hkey hcustom
  obtain ⟨spec, hspec, heq⟩ := List.mem_map.1 hcustom
  obtain ⟨field, -, n, -, hcustomKey, -⟩ := mem_customFieldSpecs hspec
  refine not_custom_of_mem_fixedKeys (hfixed.subset hkey) ?_
  rw [← heq, hcustomKey]
  exact custom_prefix_customKey _ _

end Keys

/-! ### Secret fields -/

/-- `SECRET_KINDS`. -/
def secretKinds : List FieldKind := [.password, .secret]

/-- What a secret field is compared by: its value, and for a custom field its type before it. -/
def secretCompare (key value : Text) : Text :=
  if "custom:".toList <+: key then "secret ".toList ++ value else value

theorem secretCompare_inj {key value value' : Text} :
    secretCompare key value = secretCompare key value' ↔ value = value' := by
  unfold secretCompare
  split
  · exact List.append_right_inj _
  · rfl

/-- The fields of a record besides the custom ones are compared by their values. -/
theorem compare_of_fixed {sshKeyFingerprint : Text → Option Text} {stringify : Stringify}
    {record : RecordData} {includeTitle includeDerived : Bool} {spec : FieldSpec}
    (h : spec ∈ fixedSpecs sshKeyFingerprint stringify record includeTitle includeDerived) :
    ∀ value ∈ spec.value, spec.compare = value := by
  simp only [fixedSpecs, List.mem_append] at h
  obtain (((h | h) | h) | h) | h := h
  · cases includeTitle with
    | false => exact absurd h List.not_mem_nil
    | true =>
      obtain rfl := List.mem_singleton.1 h
      exact fun value hvalue => Option.some.inj hvalue
  · obtain ⟨field, -, hspec⟩ := List.mem_filterMap.1 h
    exact (spec_eq_some hspec).2.2
  · cases includeDerived with
    | false => exact absurd h List.not_mem_nil
    | true =>
      simp only [if_true, derivedFieldSpecs] at h
      split at h
      · obtain ⟨brand, -, rfl⟩ := Option.map_eq_some_iff.1 (Option.mem_toList.1 h)
        exact fun value hvalue => Option.some.inj hvalue
      · obtain ⟨fingerprint, -, rfl⟩ := Option.map_eq_some_iff.1 (Option.mem_toList.1 h)
        exact fun value hvalue => Option.some.inj hvalue
      · exact absurd h List.not_mem_nil
  · unfold websiteSpecs at h
    split at h
    · obtain rfl := List.mem_singleton.1 h
      exact fun value hvalue => nomatch hvalue
    · exact absurd h List.not_mem_nil
  · unfold noteSpecs at h
    split at h
    · exact absurd h List.not_mem_nil
    · exact absurd h List.not_mem_nil
    · obtain rfl := List.mem_singleton.1 h
      exact fun value hvalue => Option.some.inj hvalue

/-- What a secret field is compared by. -/
theorem compare_of_secret {sshKeyFingerprint : Text → Option Text} {stringify : Stringify}
    {record : RecordData} {includeTitle includeDerived : Bool} {spec : FieldSpec} {value : Text}
    (h : spec ∈ getRecordFieldSpecs sshKeyFingerprint stringify record includeTitle includeDerived)
    (hkind : spec.kind ∈ secretKinds) (hvalue : spec.value = some value) :
    spec.compare = secretCompare spec.key value := by
  rw [getRecordFieldSpecs_eq, List.mem_append] at h
  obtain h | h := h
  · have hfixed := (fixedSpecs_sublist _ _ _ _ _).subset (List.mem_map_of_mem h)
    rw [secretCompare, if_neg (not_custom_of_mem_fixedKeys hfixed)]
    exact compare_of_fixed h value hvalue
  · obtain ⟨field, -, n, -, hkey, hcompare, hfieldKind, hfieldValue⟩ := mem_customFieldSpecs h
    have hsecret : field.type = .secret := by
      rw [hfieldKind] at hkind
      cases htype : field.type with
      | text => simp [htype, CustomFieldType.kind, secretKinds] at hkind
      | secret => rfl
    obtain rfl := Option.some.inj (hvalue.symm.trans hfieldValue)
    rw [secretCompare, hkey, if_pos (custom_prefix_customKey _ _), hcompare, hsecret]
    rfl

end Passmgr
