/-
# Imports of 1Password exports

`packages/client/src/import/onepassword.ts`: an item has fields of its login, and sections of typed
fields.  Those of the sections are put into a pool as texts, the fields of the record are taken out
of it, and what is left becomes custom fields.  What the import does not read of an item: fields of
its login that are not used, a password next to one, kinds of a field's value after the first, and
what stands beside the part of a field that is used.  What it cuts short: months of other centuries,
days of years with more than four digits, and the security of an enterprise's network.

Main definitions:

* `FieldValue`, `OnePasswordItem`, `OnePasswordExport` — what is read of an export;
* `fieldText`, `sectionFields`, `take` — the pool of an item's fields;
* `typed`, `itemOf`, `importOnePassword` — the record of an item, and the import;
* `itemValues`, `readValues` — the values of an item, and those that are read.

Main results:

* `importOnePassword_eq` — every item is imported or reported, in order;
* `holdsAll_item_iff` — when a record holds every value of its item.
-/

import Passmgr.KeptValues

set_option relaxedAutoImplicit false
set_option autoImplicit false

namespace Passmgr

open JsNumber (trim)

namespace Foreign

namespace OnePassword

/-! ### Exports -/

structure Address where
  street : Option Text := none
  city : Option Text := none
  country : Option Text := none
  zip : Option Text := none
  state : Option Text := none
  deriving DecidableEq, Repr

/-- A private key alone, or with what belongs to it. -/
inductive SshKeyValue
  | text (privateKey : Text)
  | object (privateKey publicKey : Option Text)
  deriving DecidableEq, Repr

namespace SshKeyValue

def privateKey : SshKeyValue → Option Text
  | text privateKey => some privateKey
  | object privateKey _ => privateKey

def publicKey : SshKeyValue → Option Text
  | text _ => none
  | object _ publicKey => publicKey

end SshKeyValue

/-- The value of a field: one of these kinds, as a rule. -/
structure FieldValue where
  string : Option Text := none
  concealed : Option Text := none
  totp : Option Text := none
  url : Option Text := none
  /-- A text, or the address of an object. -/
  email : Option (Option Text) := none
  phone : Option Text := none
  date : Option ℤ := none
  monthYear : Option ℤ := none
  creditCardNumber : Option Text := none
  creditCardType : Option Text := none
  menu : Option Text := none
  gender : Option Text := none
  address : Option Address := none
  sshKey : Option SshKeyValue := none
  /-- There is one. -/
  file : Bool := false
  deriving DecidableEq, Repr

structure SectionField where
  title : Option Text := none
  id : Option Text := none
  value : FieldValue := {}
  deriving DecidableEq, Repr

structure LoginField where
  value : Option Text := none
  designation : Option Text := none
  deriving DecidableEq, Repr

/-- What is read of an item. -/
structure OnePasswordItem where
  categoryUuid : Option Text := none
  favIndex : ℤ := 0
  createdAt : Option ℤ := none
  state : Option Text := none
  loginFields : List LoginField := []
  notesPlain : Option Text := none
  password : Option Text := none
  /-- The fields of each section. -/
  sections : List (List SectionField) := []
  /-- The times of earlier passwords. -/
  passwordHistory : List (Option ℤ) := []
  documentAttributes : Bool := false
  passkey : Bool := false
  title : Option Text := none
  url : Option Text := none
  urls : List (Option Text) := []
  tags : List Text := []
  deriving DecidableEq, Repr

structure OnePasswordVault where
  name : Option Text := none
  items : List OnePasswordItem := []
  deriving DecidableEq, Repr

/-- The vaults of each account. -/
abbrev OnePasswordExport := List (List OnePasswordVault)

/-! ### Categories -/

/-- `CATEGORY`. -/
inductive Category
  | login
  | card
  | note
  | identity
  | password
  | document
  | wifi
  | apiKey
  | sshKey
  deriving DecidableEq, Repr

def categories : List (Text × Category) :=
  [("001".toList, .login), ("002".toList, .card), ("003".toList, .note), ("004".toList, .identity),
    ("005".toList, .password), ("006".toList, .document), ("109".toList, .wifi),
    ("112".toList, .apiKey), ("114".toList, .sshKey)]

def OnePasswordItem.category (item : OnePasswordItem) : Option Category :=
  item.categoryUuid.bind fun uuid => (categories.find? (·.1 = uuid)).map (·.2)

/-! ### Texts of fields -/

def seconds (P : Platform) (value : Option ℤ) : Option Text :=
  match value with
  | none => none
  | some n => if n = 0 then none else P.isoDate (n * 1000)

/-- "12/27" from 202712. -/
def monthYearText (n : ℤ) : Text :=
  ((intText n).drop 4).take 2 ++ '/' :: ((intText n).drop 2).take 2

-- a century is not written
example : monthYearText 199905 = monthYearText 209905 := by decide +kernel

/-- The lines of an address. -/
def addressText (a : Address) : Text :=
  ['\n'].intercalate
    ([a.street, some ([' '].intercalate ([a.zip, a.city].filterMap nonempty)), a.state,
      a.country].filterMap nonempty)

def fieldText (P : Platform) (value : FieldValue) : Option Text :=
  match value.string.or (value.concealed.or (value.totp.or value.url)) with
  | some text => some text
  | none =>
  match value.email with
  | some address => address
  | none =>
  match value.phone.or (value.creditCardNumber.or (value.creditCardType.or
    (value.menu.or value.gender))) with
  | some text => some text
  | none =>
  match value.date with
  | some date => (seconds P date).map (sliceUnits 10)
  | none =>
  match value.monthYear with
  | some n => some (monthYearText n)
  | none =>
  match value.address with
  | some a => some (addressText a)
  | none => value.sshKey.bind (·.privateKey)

/-! ### The pool -/

/-- A section field as text; `secret` for concealed ones. -/
structure Field where
  id : Text
  title : Text
  value : Text
  secret : Bool
  raw : FieldValue
  deriving DecidableEq, Repr

/-- A field with a text; files have none. -/
def fieldOf (P : Platform) (field : SectionField) : Option Field :=
  if field.value.file then none
  else
    (fieldText P field.value).map fun value =>
      { id := field.id.getD []
        title := orElse (field.title.getD []) (field.id.getD [])
        value := value
        secret := field.value.concealed.isSome
        raw := field.value }

def sectionFields (P : Platform) (item : OnePasswordItem) : List Field :=
  item.sections.flatten.filterMap (fieldOf P)

/-- How many fields are files. -/
def files (item : OnePasswordItem) : ℕ := item.sections.flatten.countP (·.value.file)

/-- Takes the first field that matches out of the pool. -/
def take (pool : List Field) (p : Field → Bool) : Option Field × List Field :=
  (pool.find? p, pool.eraseP p)

def hasId (ids : List Text) (field : Field) : Bool := field.id ∈ ids

/-- What is left of the pool becomes custom fields. -/
def rest (pool : List Field) : List ForeignField :=
  pool.map fun field => ⟨field.title, field.value, field.secret⟩

/-! ### The record of an item -/

/-- `WIFI_SECURITY`. -/
def wifiSecurity : List (Text × Text) :=
  [("none".toList, "none".toList), ("wep".toList, "wep".toList), ("wpa".toList, "wpa".toList),
    ("wpa2p".toList, "wpa2".toList), ("wpa2e".toList, "wpa2".toList),
    ("wpa3p".toList, "wpa3".toList), ("wpa3e".toList, "wpa3".toList)]

/-- What a plain object inherits. -/
def inheritedNames : List Text :=
  ["constructor".toList, "__defineGetter__".toList, "__defineSetter__".toList,
    "hasOwnProperty".toList, "__lookupGetter__".toList, "__lookupSetter__".toList,
    "isPrototypeOf".toList, "propertyIsEnumerable".toList, "toString".toList, "valueOf".toList,
    "__proto__".toList, "toLocaleString".toList]

/-- The meaning of a security. -/
def securityText (security : Text) : Option Text :=
  (wifiSecurity.find? (·.1 = security)).map (·.2)

/-- `WIFI_SECURITY[security]`; what is inherited is no text. -/
def mappedSecurity (security : Text) : Option Json :=
  match securityText security with
  | some text => some (.string text)
  | none => if security ∈ inheritedNames then some (.object []) else none

def loginField (item : OnePasswordItem) (designation : Text) : Option Text :=
  (item.loginFields.find? (·.designation = some designation)).bind (·.value)

def websites (item : OnePasswordItem) : List Text :=
  item.urls.map (·.getD []) ++ [item.url.getD []]

/-- The phone numbers of an identity. -/
def phoneIds : List Text :=
  ["defphone".toList, "cellphone".toList, "homephone".toList, "busphone".toList]

/-- The record of an item without what all have, and what is left of the pool. -/
def typed (item : OnePasswordItem) (pool : List Field) : ForeignRecord × List Field :=
  match item.category with
  | some .login | some .password =>
    let email := take pool (·.raw.email.isSome)
    let totp := take email.2 (·.raw.totp.isSome)
    ({ type := "login".toList
       fields := textFields [("username", loginField item "username".toList),
        ("email", email.1.map (·.value)),
        ("password", (loginField item "password".toList).or item.password),
        ("totp", totp.1.map (·.value))]
       websites := websites item }, totp.2)
  | some .card =>
    let cardholder := take pool (hasId ["cardholder".toList])
    let number := take cardholder.2 (hasId ["ccnum".toList])
    let expiry := take number.2 (hasId ["expiry".toList])
    let code := take expiry.2 (hasId ["cvv".toList])
    let pin := take code.2 (hasId ["pin".toList])
    ({ type := "card".toList
       fields := textFields [("cardholderName", cardholder.1.map (·.value)),
        ("number", number.1.map (·.value)), ("expiry", expiry.1.map (·.value)),
        ("securityCode", code.1.map (·.value)), ("pin", pin.1.map (·.value))] }, pin.2)
  | some .identity =>
    let field := take pool (hasId ["address".toList])
    let address := (field.1.bind (·.raw.address)).getD {}
    let first := take field.2 (hasId ["firstname".toList])
    let last := take first.2 (hasId ["lastname".toList])
    let birth := take last.2 (hasId ["birthdate".toList])
    let email := take birth.2 (hasId ["email".toList])
    let phone := take email.2 (hasId phoneIds)
    ({ type := "identity".toList
       fields := textFields [("firstName", first.1.map (·.value)),
        ("lastName", last.1.map (·.value)), ("birthDate", birth.1.map (·.value)),
        ("email", email.1.map (·.value)), ("phone", phone.1.map (·.value)),
        ("street", address.street), ("postalCode", address.zip), ("city", address.city),
        ("country", address.country)]
       customFields := (nonempty address.state).toList.map fun state =>
        ⟨"State".toList, state, false⟩ }, phone.2)
  | some .wifi =>
    let security := take pool (hasId ["wireless_security".toList])
    let given := (security.1.map (·.value)).bind fun value => nonempty (some value)
    let mapped := given.bind mappedSecurity
    let ssid := take security.2 (hasId ["network_name".toList])
    let password := take ssid.2 (hasId ["wireless_password".toList])
    ({ type := "wifi".toList
       fields := textFields [("ssid", ssid.1.map (·.value)),
        ("password", (password.1.map (·.value)).or item.password)] ++ [("security", mapped)]
       customFields := if mapped.isSome then [] else given.toList.map fun value =>
        ⟨"Security".toList, value, false⟩ }, password.2)
  | some .apiKey =>
    let keyId := take pool (hasId ["username".toList])
    let secret := take keyId.2 (hasId ["credential".toList])
    let host := take secret.2 (hasId ["hostname".toList])
    ({ type := "api_key".toList
       fields := textFields [("keyId", keyId.1.map (·.value)), ("secret", secret.1.map (·.value)),
        ("host", host.1.map (·.value))] }, host.2)
  | some .sshKey =>
    let field := take pool (·.raw.sshKey.isSome)
    let key := field.1.bind (·.raw.sshKey)
    ({ type := "ssh_key".toList
       fields := textFields [("privateKey", key.bind (·.privateKey)),
        ("publicKey", key.bind (·.publicKey))] }, field.2)
  -- a category with no type here: a note, its fields as custom fields
  | some .note | some .document | none => ({ type := "note".toList }, pool)

/-! ### The import -/

/-- What is added for an item of a vault. -/
def itemOf (P : Platform) (vaultTag : Option Text) (item : OnePasswordItem) :
    Except Text ForeignRecord :=
  let title := item.title.getD []
  if item.category = some .document ∨ item.documentAttributes = true then
    .error (orElse title "Untitled".toList)
  else
    let record := typed item (sectionFields P item)
    .ok { record.1 with
      title := some title
      note := item.notesPlain
      favorite := 0 < item.favIndex
      tags := (nonempty vaultTag).toList ++ item.tags ++
        if item.state = some "archived".toList then ["Archived".toList] else []
      customFields := record.1.customFields ++ rest record.2
      createdAt := seconds P item.createdAt
      passwordChangedAt := latestDate (item.passwordHistory.map (seconds P))
      leftBehind :=
        { previousPasswords := item.passwordHistory.length
          attachments := files item
          passkeys := if item.passkey then 1 else 0 } }

/-- The items of an export, each with the tag of its vault: vaults become tags when the export holds
more than one. -/
def itemsOf (file : OnePasswordExport) : List (Option Text × OnePasswordItem) :=
  file.flatten.flatMap fun vault =>
    vault.items.map fun item => (if 1 < file.flatten.length then vault.name else none, item)

/-- Documents are skipped, archived items are tagged. -/
def importOnePassword (P : Platform) (file : OnePasswordExport) : ForeignImportBuilder :=
  file.flatten.foldl
    (fun builder vault =>
      vault.items.foldl
        (fun builder item =>
          builder.addItem P
            (itemOf P (if 1 < file.flatten.length then vault.name else none) item))
        builder)
    {}

/-- **Every item is imported or reported**, in the order of the export. -/
theorem importOnePassword_eq (P : Platform) (file : OnePasswordExport) :
    importOnePassword P file =
      { records := ((itemsOf file).map fun item => itemOf P item.1 item.2).filterMap
          (importedItem P)
        report :=
          { toLeftBehind := leftOf P (((itemsOf file).map fun item =>
              itemOf P item.1 item.2).filterMap Except.toOption)
            skipped := ((itemsOf file).map fun item => itemOf P item.1 item.2).filterMap
              (skippedItem P) } } := by
  have hfold : ∀ (vaults : List OnePasswordVault) (count : ℕ) (builder : ForeignImportBuilder),
      vaults.foldl (fun builder vault => vault.items.foldl (fun builder item =>
          builder.addItem P (itemOf P (if 1 < count then vault.name else none) item)) builder)
        builder =
      ((vaults.flatMap fun vault => vault.items.map fun item =>
          ((if 1 < count then vault.name else none), item)).map fun item =>
        itemOf P item.1 item.2).foldl (ForeignImportBuilder.addItem P) builder := by
    intro vaults count builder
    induction vaults generalizing builder with
    | nil => rfl
    | cons vault vaults ih =>
        rw [List.foldl_cons, ih, List.flatMap_cons, List.map_append, List.foldl_append, List.map_map]
        congr 1
        rw [List.foldl_map]
        rfl
  unfold importOnePassword
  rw [hfold, foldl_addItem, List.nil_append, List.nil_append, LeftBehind.zero_add]
  rfl

/-! ### The values of an item -/

/-- The lines and words of an address. -/
def addressParts (a : Address) : List ItemValue :=
  ([a.street, a.zip, a.city, a.state, a.country].filterMap id).map .part

def sshKeyTexts (key : SshKeyValue) : List (Option Text) := [key.privateKey, key.publicKey]

/-- The values of a field: one for each of its kinds. -/
def kindValues (value : FieldValue) : List ItemValue :=
  textValues [value.string, value.concealed, value.totp, value.url, value.email.bind id, value.phone,
      value.creditCardNumber, value.creditCardType, value.menu, value.gender] ++
    value.date.toList.map .date ++ value.monthYear.toList.map .monthYear ++
    value.address.toList.flatMap addressParts ++
    textValues (value.sshKey.toList.flatMap sshKeyTexts)

/-- The text of a network's security is no text of its own. -/
def asSecurity : ItemValue → ItemValue
  | .text value => .security value
  | value => value

/-- The values of a section field of an item. -/
def fieldValues (item : OnePasswordItem) (field : SectionField) : List ItemValue :=
  if item.category = some .wifi ∧ field.id = some "wireless_security".toList then
    (kindValues field.value).map asSecurity
  else kindValues field.value

/-- The values of an item. -/
def itemValues (item : OnePasswordItem) : List ItemValue :=
  textValues (item.notesPlain :: item.password :: item.loginFields.map (·.value)) ++
    ((item.url :: item.urls).filterMap id).map .website ++
    item.sections.flatten.flatMap (fieldValues item)

/-! ### What is read of an item -/

/-- The values the text of a field stands for: those of its first kind. -/
def textKind (value : FieldValue) : List ItemValue :=
  match value.string.or (value.concealed.or (value.totp.or value.url)) with
  | some text => [.text text]
  | none =>
  match value.email with
  | some address => textValues [address]
  | none =>
  match value.phone.or (value.creditCardNumber.or (value.creditCardType.or
    (value.menu.or value.gender))) with
  | some text => [.text text]
  | none =>
  match value.date with
  | some date => [.date date]
  | none =>
  match value.monthYear with
  | some n => [.monthYear n]
  | none =>
  match value.address with
  | some a => addressParts a
  | none => textValues [value.sshKey.bind (·.privateKey)]

/-- The field of which a part is used. -/
def isSpecial (item : OnePasswordItem) (field : Field) : Bool :=
  match item.category with
  | some .identity => hasId ["address".toList] field
  | some .wifi => hasId ["wireless_security".toList] field
  | some .sshKey => field.raw.sshKey.isSome
  | _ => false

/-- The texts of that part. -/
def specialTexts (item : OnePasswordItem) (field : Field) : List (Option Text) :=
  match item.category with
  | some .identity =>
    let a := field.raw.address.getD {}
    [a.street, a.zip, a.city, a.state, a.country]
  | some .wifi =>
    [if field.value ∈ inheritedNames then none
      else some ((securityText field.value).getD field.value)]
  | some .sshKey => field.raw.sshKey.toList.flatMap sshKeyTexts
  | _ => []

/-- The values of that part. -/
def specialValues (item : OnePasswordItem) (field : Field) : List ItemValue :=
  match item.category with
  | some .identity => field.raw.address.toList.flatMap addressParts
  | some .wifi =>
    if field.value ∈ inheritedNames then []
    else if (securityText field.value).isSome then [.security field.value]
    else (textKind field.raw).map asSecurity
  | some .sshKey => textValues (field.raw.sshKey.toList.flatMap sshKeyTexts)
  | _ => []

/-- The texts that are read besides the notes and the sections. -/
def loginTexts (item : OnePasswordItem) (pool : List Field) : List (Option Text) :=
  match item.category with
  | some .login | some .password =>
    [loginField item "username".toList, (loginField item "password".toList).or item.password]
  | some .wifi =>
    if (pool.find? (hasId ["wireless_password".toList])).isSome then [] else [item.password]
  | _ => []

def isLogin (item : OnePasswordItem) : Bool :=
  item.category ∈ [some .login, some .password]

/-- What is read of an item. -/
def itemReads (P : Platform) (item : OnePasswordItem) : ItemReads where
  texts :=
    let pool := sectionFields P item
    (item.notesPlain :: loginTexts item pool ++
      (pool.find? (isSpecial item)).toList.flatMap (specialTexts item) ++
      (pool.eraseP (isSpecial item)).map fun field => some field.value).filterMap id
  urls := if isLogin item then (item.url :: item.urls).filterMap id else []

/-- The values of what is read. -/
def readValues (P : Platform) (item : OnePasswordItem) : List ItemValue :=
  let pool := sectionFields P item
  textValues (item.notesPlain :: loginTexts item pool) ++
    (if isLogin item then ((item.url :: item.urls).filterMap id).map .website else []) ++
    (pool.find? (isSpecial item)).toList.flatMap (specialValues item) ++
    (pool.eraseP (isSpecial item)).flatMap fun field =>
      textKind field.raw ++ (textKind field.raw).map asSecurity

/-- The values of an item that are not read. -/
def unreadValues (P : Platform) (item : OnePasswordItem) : List ItemValue :=
  (itemValues item).filter (· ∉ readValues P item)

/-! ### What is read is what the record is made of -/

section Made

variable {P : Platform} {item : OnePasswordItem} {pool : List Field} {text : Text}

/-- What is taken out of the pool was in it. -/
theorem mem_values_take (pool : List Field) (p : Field → Bool) :
    text ∈ pool.map (·.value) ↔
      (pool.find? p).map (·.value) = some text ∨ text ∈ (pool.eraseP p).map (·.value) := by
  cases hfind : pool.find? p with
  | none =>
      have hnone : ∀ field ∈ pool, ¬ p field = true := fun field hmem h =>
        absurd h (by simpa using List.find?_eq_none.1 hfind field hmem)
      rw [List.eraseP_of_forall_not hnone]
      simp
  | some found =>
      rw [((perm_eraseP hfind).map (·.value)).mem_iff, List.map_cons, List.mem_cons, Option.map_some,
        Option.some.injEq, eq_comm]

theorem map_value_rest (pool : List Field) : (rest pool).map (·.value) = pool.map (·.value) := by
  rw [rest, List.map_map]
  rfl

/-- Where no part is used, the pool is read as it is. -/
theorem no_special (h : ∀ field, isSpecial item field = false) :
    pool.find? (isSpecial item) = none ∧ pool.eraseP (isSpecial item) = pool := by
  refine ⟨List.find?_eq_none.2 fun field _ => by simp [h], ?_⟩
  exact List.eraseP_of_forall_not fun field _ => by simp [h]

/-- The record and the rest of the pool hold a text where it is one of those that are read. -/
def SameTexts (item : OnePasswordItem) (pool : List Field) (text : Text) : Prop :=
  text ∈ givenTexts (typed item pool).1.fields ∨
      text ∈ ((typed item pool).1.customFields ++ rest (typed item pool).2).map (·.value) ↔
    some text ∈ loginTexts item pool ∨
      some text ∈ (pool.find? (isSpecial item)).toList.flatMap (specialTexts item) ∨
      text ∈ (pool.eraseP (isSpecial item)).map (·.value)

theorem sameTexts_login (h : item.category = some .login ∨ item.category = some .password)
    (hne : text ≠ []) : SameTexts item pool text := by
  have hspecial : ∀ field, isSpecial item field = false := fun field => by
    rcases h with h | h <;> simp [isSpecial, h]
  obtain ⟨hfind, herase⟩ := @no_special item pool hspecial
  have htyped : typed item pool =
      let email := take pool (·.raw.email.isSome)
      let totp := take email.2 (·.raw.totp.isSome)
      ({ type := "login".toList
         fields := textFields [("username", loginField item "username".toList),
          ("email", email.1.map (·.value)),
          ("password", (loginField item "password".toList).or item.password),
          ("totp", totp.1.map (·.value))]
         websites := websites item }, totp.2) := by
    rcases h with h | h <;> simp only [typed, h]
  have hlogin : loginTexts item pool =
      [loginField item "username".toList, (loginField item "password".toList).or item.password] := by
    rcases h with h | h <;> simp only [loginTexts, h]
  unfold SameTexts
  rw [hfind, herase, htyped, hlogin, mem_values_take pool (·.raw.email.isSome),
    mem_values_take (pool.eraseP _) (·.raw.totp.isSome)]
  simp only [take, mem_givenTexts, map_value_rest, List.nil_append, List.map_cons, List.map_nil,
    List.mem_cons, List.not_mem_nil, or_false, Option.toList_none, List.flatMap_nil, false_or, ne_eq,
    hne, not_false_eq_true, true_and, eq_comm (a := some text), or_assoc, or_left_comm]

theorem sameTexts_card (h : item.category = some .card) (hne : text ≠ []) :
    SameTexts item pool text := by
  obtain ⟨hfind, herase⟩ := @no_special item pool fun field => by simp [isSpecial, h]
  unfold SameTexts
  rw [hfind, herase, mem_values_take pool (hasId ["cardholder".toList]),
    mem_values_take (pool.eraseP _) (hasId ["ccnum".toList]),
    mem_values_take ((pool.eraseP _).eraseP _) (hasId ["expiry".toList]),
    mem_values_take (((pool.eraseP _).eraseP _).eraseP _) (hasId ["cvv".toList]),
    mem_values_take ((((pool.eraseP _).eraseP _).eraseP _).eraseP _)
      (hasId ["pin".toList])]
  simp only [typed, h, loginTexts, take, mem_givenTexts, map_value_rest, List.nil_append,
    List.map_cons, List.map_nil, List.mem_cons, List.not_mem_nil, or_false, Option.toList_none,
    List.flatMap_nil, false_or, ne_eq, hne, not_false_eq_true, true_and, eq_comm (a := some text),
    or_assoc]

theorem sameTexts_apiKey (h : item.category = some .apiKey) (hne : text ≠ []) :
    SameTexts item pool text := by
  obtain ⟨hfind, herase⟩ := @no_special item pool fun field => by simp [isSpecial, h]
  unfold SameTexts
  rw [hfind, herase, mem_values_take pool (hasId ["username".toList]),
    mem_values_take (pool.eraseP _) (hasId ["credential".toList]),
    mem_values_take ((pool.eraseP _).eraseP _) (hasId ["hostname".toList])]
  simp only [typed, h, loginTexts, take, mem_givenTexts, map_value_rest, List.nil_append,
    List.map_cons, List.map_nil, List.mem_cons, List.not_mem_nil, or_false, Option.toList_none,
    List.flatMap_nil, false_or, ne_eq, hne, not_false_eq_true, true_and, eq_comm (a := some text),
    or_assoc]

theorem nonempty_eq_iff (hne : text ≠ []) (value : Option Text) :
    nonempty value = some text ↔ value = some text := by
  rw [nonempty, Option.filter_eq_some_iff]
  exact and_iff_left (decide_eq_true hne)

/-- The parts of the address, in front of the fields that are taken after it. -/
theorem address_first {first last birth email phone street zip city country state rest : Prop} :
    (first ∨ last ∨ birth ∨ email ∨ phone ∨ street ∨ zip ∨ city ∨ country) ∨ state ∨ rest ↔
      (street ∨ zip ∨ city ∨ state ∨ country) ∨ first ∨ last ∨ birth ∨ email ∨ phone ∨ rest := by
  tauto

theorem sameTexts_identity (h : item.category = some .identity) (hne : text ≠ []) :
    SameTexts item pool text := by
  have hspecial : isSpecial item = hasId ["address".toList] := by
    funext field
    simp only [isSpecial, h]
  have htexts : some text ∈ (pool.find? (hasId ["address".toList])).toList.flatMap
        (specialTexts item) ↔
      let address := ((pool.find? (hasId ["address".toList])).bind (·.raw.address)).getD {}
      some text ∈ [address.street, address.zip, address.city, address.state, address.country] := by
    cases pool.find? (hasId ["address".toList]) with
    | none => simp
    | some field => simp [specialTexts, h]
  have hstate : ∀ state : Option Text,
      text ∈ ((nonempty state).toList.map fun state =>
        (⟨"State".toList, state, false⟩ : ForeignField)).map (·.value) ↔ state = some text := by
    intro state
    rw [← nonempty_eq_iff hne state, List.map_map]
    cases nonempty state <;> simp [eq_comm]
  unfold SameTexts
  rw [hspecial, htexts, mem_values_take (pool.eraseP _) (hasId ["firstname".toList]),
    mem_values_take ((pool.eraseP _).eraseP _) (hasId ["lastname".toList]),
    mem_values_take (((pool.eraseP _).eraseP _).eraseP _) (hasId ["birthdate".toList]),
    mem_values_take ((((pool.eraseP _).eraseP _).eraseP _).eraseP _)
      (hasId ["email".toList]),
    mem_values_take (((((pool.eraseP _).eraseP _).eraseP _).eraseP _).eraseP _)
      (hasId phoneIds)]
  simp only [typed, h, loginTexts, take, mem_givenTexts, map_value_rest, List.map_append,
    List.mem_append, hstate, List.map_cons, List.map_nil, List.mem_cons, List.not_mem_nil, or_false,
    false_or, ne_eq, hne, not_false_eq_true, true_and, eq_comm (a := some text)]
  exact address_first

theorem sameTexts_sshKey (h : item.category = some .sshKey) (hne : text ≠ []) :
    SameTexts item pool text := by
  have hspecial : isSpecial item = fun field => field.raw.sshKey.isSome := by
    funext field
    simp only [isSpecial, h]
  have htexts : some text ∈ (pool.find? fun field => field.raw.sshKey.isSome).toList.flatMap
        (specialTexts item) ↔
      let key := (pool.find? fun field => field.raw.sshKey.isSome).bind (·.raw.sshKey)
      some text ∈ [key.bind (·.privateKey), key.bind (·.publicKey)] := by
    cases pool.find? fun field => field.raw.sshKey.isSome with
    | none => simp
    | some field => cases hkey : field.raw.sshKey <;> simp [specialTexts, h, hkey, sshKeyTexts]
  unfold SameTexts
  rw [hspecial, htexts]
  simp only [typed, h, loginTexts, take, mem_givenTexts, map_value_rest, List.nil_append,
    List.map_cons, List.map_nil, List.mem_cons, List.not_mem_nil, or_false, false_or, ne_eq, hne,
    not_false_eq_true, true_and, eq_comm (a := some text), or_assoc]

theorem sameTexts_note (h : item.category ≠ some .login ∧ item.category ≠ some .password ∧
    item.category ≠ some .card ∧ item.category ≠ some .identity ∧ item.category ≠ some .wifi ∧
    item.category ≠ some .apiKey ∧ item.category ≠ some .sshKey) : SameTexts item pool text := by
  have htyped : typed item pool = ({ type := "note".toList }, pool) ∧ loginTexts item pool = [] ∧
      ∀ field, isSpecial item field = false := by
    cases hcategory : item.category with
    | none => simp [typed, loginTexts, isSpecial, hcategory]
    | some category => cases category <;> simp_all [typed, loginTexts, isSpecial]
  obtain ⟨htyped, hlogin, hspecial⟩ := htyped
  obtain ⟨hfind, herase⟩ := @no_special item pool hspecial
  unfold SameTexts
  rw [hfind, herase, htyped, hlogin]
  simp [givenTexts, map_value_rest]

/-- The pool holds the password of a network after its security and its name are taken. -/
theorem find?_eraseP {p q : Field → Bool} (h : ∀ field, q field = true → p field = false) :
    (pool.eraseP q).find? p = pool.find? p := by
  induction pool with
  | nil => rfl
  | cons field pool ih =>
      cases hq : q field with
      | true => rw [List.eraseP_cons_of_pos hq, List.find?_cons, h field hq]
      | false => rw [List.eraseP_cons_of_neg (by simp [hq]), List.find?_cons, List.find?_cons, ih]

theorem hasId_ne {id id' : Text} (hne : id ≠ id') (field : Field) (h : hasId [id] field = true) :
    hasId [id'] field = false := by
  unfold hasId at h ⊢
  rw [decide_eq_true_eq, List.mem_singleton] at h
  simp [h, hne]

/-- The security of a network, or what it means: a text of the record unless it is inherited. -/
theorem mem_security (hne : text ≠ []) (value : Option Text) :
    (text ∈ givenTexts [("security", (value.bind fun value => nonempty (some value)).bind
          mappedSecurity)] ∨
        text ∈ (if ((value.bind fun value => nonempty (some value)).bind mappedSecurity).isSome then []
          else (value.bind fun value => nonempty (some value)).toList.map fun value =>
            (⟨"Security".toList, value, false⟩ : ForeignField)).map (·.value)) ↔
      ∃ security, value = some security ∧ security ∉ inheritedNames ∧
        (securityText security).getD security = text := by
  cases value with
  | none => simp [givenTexts, given]
  | some security =>
      by_cases hempty : security = []
      · subst hempty
        have hnil : nonempty (some []) = none := rfl
        have htext : securityText [] = none := by decide
        simp [hnil, htext, givenTexts, given, Ne.symm hne]
      · have hfull : nonempty (some security) = some security := by simp [nonempty, hempty]
        rw [Option.bind_some, hfull, Option.bind_some]
        unfold mappedSecurity
        cases htext : securityText security with
        | some meaning =>
            have hinherited : security ∉ inheritedNames := by
              have hall : ∀ entry ∈ wifiSecurity, entry.1 ∉ inheritedNames := by decide
              obtain ⟨entry, hfound, -⟩ := Option.map_eq_some_iff.1 htext
              have hkey : entry.1 = security := by simpa using List.find?_some hfound
              exact hkey ▸ hall entry (List.mem_of_find?_eq_some hfound)
            have hgiven : text ∈ givenTexts [("security", some (.string meaning))] ↔
                meaning = text := by
              have hfields : [("security", some (Json.string meaning))] =
                  textFields [("security", some meaning)] := rfl
              rw [hfields, mem_givenTexts]
              simp [hne, eq_comm]
            simp [hgiven, htext, hinherited]
        | none =>
            by_cases hinherited : security ∈ inheritedNames
            · simp [hinherited, givenTexts, given, Json.text?]
            · simp [hinherited, htext, givenTexts, given, eq_comm]

/-- The password that is used without one in the pool, and the security. -/
theorem security_first {ssid password fallback field custom rest : Prop} :
    ((ssid ∨ password ∨ fallback) ∨ field) ∨ custom ∨ rest ↔
      fallback ∨ (field ∨ custom) ∨ ssid ∨ password ∨ rest := by
  tauto

theorem sameTexts_wifi (h : item.category = some .wifi) (hne : text ≠ []) :
    SameTexts item pool text := by
  have hspecial : isSpecial item = hasId ["wireless_security".toList] := by
    funext field
    simp only [isSpecial, h]
  have htexts : some text ∈ (pool.find? (hasId ["wireless_security".toList])).toList.flatMap
        (specialTexts item) ↔
      ∃ security, (pool.find? (hasId ["wireless_security".toList])).map (·.value) = some security ∧
        security ∉ inheritedNames ∧ (securityText security).getD security = text := by
    cases pool.find? (hasId ["wireless_security".toList]) with
    | none => simp
    | some field =>
        by_cases hinherited : field.value ∈ inheritedNames
        · simp [specialTexts, h, hinherited]
        · simp [specialTexts, h, hinherited, eq_comm]
  have hpassword : ((pool.eraseP (hasId ["wireless_security".toList])).eraseP
      (hasId ["network_name".toList])).find? (hasId ["wireless_password".toList]) =
        pool.find? (hasId ["wireless_password".toList]) := by
    rw [find?_eraseP (hasId_ne (by decide)), find?_eraseP (hasId_ne (by decide))]
  unfold SameTexts
  rw [hspecial, htexts, ← mem_security hne,
    mem_values_take (pool.eraseP _) (hasId ["network_name".toList]),
    mem_values_take ((pool.eraseP _).eraseP _) (hasId ["wireless_password".toList]),
    hpassword]
  have hlogin : some text ∈ loginTexts item pool ↔
      pool.find? (hasId ["wireless_password".toList]) = none ∧ item.password = some text := by
    simp only [loginTexts, h]
    cases pool.find? (hasId ["wireless_password".toList]) with
    | none => rw [Option.isSome_none, if_neg Bool.false_ne_true, List.mem_singleton, eq_comm,
        and_iff_right rfl]
    | some field =>
        rw [Option.isSome_some, if_pos rfl]
        constructor
        · intro hmem
          cases hmem
        · rintro ⟨hnone, -⟩
          cases hnone
  have hgiven : text ∈ givenTexts (typed item pool).1.fields ↔
      ((((pool.eraseP (hasId ["wireless_security".toList])).find?
            (hasId ["network_name".toList])).map (·.value) = some text) ∨
        (pool.find? (hasId ["wireless_password".toList])).map (·.value) = some text ∨
        pool.find? (hasId ["wireless_password".toList]) = none ∧ item.password = some text) ∨
      text ∈ givenTexts [("security",
        (((pool.find? (hasId ["wireless_security".toList])).map (·.value)).bind fun value =>
          nonempty (some value)).bind mappedSecurity)] := by
    have happend : ∀ fields fields' : List (String × Option Json),
        givenTexts (fields ++ fields') = givenTexts fields ++ givenTexts fields' :=
      fun _ _ => List.filterMap_append
    simp only [typed, h, take]
    rw [happend, List.mem_append, mem_givenTexts, hpassword, and_iff_right hne]
    simp only [List.map_cons, List.map_nil, List.mem_cons, List.not_mem_nil, or_false,
      eq_comm (a := some text)]
    rw [Option.or_eq_some_iff, Option.map_eq_none_iff]
  have hcustom : (typed item pool).1.customFields =
      if ((((pool.find? (hasId ["wireless_security".toList])).map (·.value)).bind fun value =>
          nonempty (some value)).bind mappedSecurity).isSome then []
      else (((pool.find? (hasId ["wireless_security".toList])).map (·.value)).bind fun value =>
          nonempty (some value)).toList.map fun value => ⟨"Security".toList, value, false⟩ := by
    simp only [typed, h, take]
    rfl
  have hrest : (typed item pool).2 = (((pool.eraseP (hasId ["wireless_security".toList])).eraseP
      (hasId ["network_name".toList])).eraseP (hasId ["wireless_password".toList])) := by
    simp only [typed, h, take]
  rw [hgiven, hcustom, hrest, hlogin, List.map_append, List.mem_append, map_value_rest]
  exact security_first

theorem sameTexts (item : OnePasswordItem) (pool : List Field) (hne : text ≠ []) :
    SameTexts item pool text := by
  cases hcategory : item.category with
  | none => exact sameTexts_note (by simp [hcategory])
  | some category =>
      cases category with
      | login => exact sameTexts_login (.inl hcategory) hne
      | password => exact sameTexts_login (.inr hcategory) hne
      | card => exact sameTexts_card hcategory hne
      | identity => exact sameTexts_identity hcategory hne
      | wifi => exact sameTexts_wifi hcategory hne
      | apiKey => exact sameTexts_apiKey hcategory hne
      | sshKey => exact sameTexts_sshKey hcategory hne
      | note => exact sameTexts_note (by simp [hcategory])
      | document => exact sameTexts_note (by simp [hcategory])

variable {vaultTag : Option Text} {record : ForeignRecord}

theorem itemOf_eq_ok (h : itemOf P vaultTag item = .ok record) :
    record.type = (typed item (sectionFields P item)).1.type ∧
      record.fields = (typed item (sectionFields P item)).1.fields ∧
      record.websites = (typed item (sectionFields P item)).1.websites ∧
      record.customFields = (typed item (sectionFields P item)).1.customFields ++
        rest (typed item (sectionFields P item)).2 ∧
      record.note = item.notesPlain := by
  unfold itemOf at h
  dsimp only at h
  split at h
  · cases h
  · obtain rfl := Except.ok.inj h
    exact ⟨rfl, rfl, rfl, rfl, rfl⟩

/-- Only logins have websites. -/
theorem websites_typed (item : OnePasswordItem) (pool : List Field) :
    (typed item pool).1.websites = (if isLogin item then websites item else []) ∧
      (isLogin item = true → (typed item pool).1.type = "login".toList) := by
  have hother : isLogin item = false → (typed item pool).1.websites = [] →
      (typed item pool).1.websites = (if isLogin item then websites item else []) ∧
        (isLogin item = true → (typed item pool).1.type = "login".toList) := by
    intro hlogin hsites
    rw [hlogin]
    exact ⟨hsites, fun h => by cases h⟩
  cases hcategory : item.category with
  | none => exact hother (by simp [isLogin, hcategory]) (by simp only [typed, hcategory])
  | some category =>
      cases category
      case login | password =>
        have hlogin : isLogin item = true := by simp [isLogin, hcategory]
        rw [hlogin]
        simp only [typed, hcategory]
        exact ⟨(if_pos trivial).symm, fun _ => trivial⟩
      all_goals exact hother (by simp [isLogin, hcategory]) (by simp only [typed, hcategory])

/-- **A record is made of what is read of its item.** -/
theorem itemOf_madeOf (h : itemOf P vaultTag item = .ok record) :
    record.MadeOf (itemReads P item) := by
  obtain ⟨htype, hfields, hwebsites, hcustom, hnote⟩ := itemOf_eq_ok h
  obtain ⟨hsites, hlogin⟩ := websites_typed item (sectionFields P item)
  refine ⟨fun text htext => ?_, fun raw hraw => ?_, fun hne => ?_⟩
  · have hne : text ≠ [] := by
      rintro rfl
      exact htext rfl
    have hsame := sameTexts item (sectionFields P item) hne
    have hothers : some text ∈ ((sectionFields P item).eraseP (isSpecial item)).map
        (fun field => some field.value) ↔
        text ∈ ((sectionFields P item).eraseP (isSpecial item)).map (·.value) := by
      simp
    unfold SameTexts at hsame
    unfold itemReads
    dsimp only
    rw [mem_filterMap_id, List.cons_append, List.cons_append, List.mem_cons, List.mem_append,
      List.mem_append, hothers, or_assoc, ← hsame, hfields, hcustom, hnote, eq_comm (a := some text),
      or_left_comm]
  · have hne : raw ≠ [] := by
      rintro rfl
      exact hraw rfl
    rw [hwebsites, hsites]
    unfold itemReads
    dsimp only
    split_ifs with hcategory
    · rw [mem_filterMap_id, websites, List.mem_append, List.mem_map, List.mem_singleton,
        List.mem_cons, eq_comm (a := raw), eq_comm (a := some raw)]
      simp only [getD_eq_iff hne, exists_eq_right]
      exact or_comm
    · exact Iff.rfl
  · rw [htype]
    refine hlogin ?_
    by_contra hother
    rw [hwebsites, hsites, if_neg hother] at hne
    exact hne rfl

theorem typed_proper (item : OnePasswordItem) (pool : List Field) : (typed item pool).1.Proper := by
  cases hcategory : item.category with
  | none =>
      simp only [typed, hcategory]
      exact @proper_of_textFields [] _ [] rfl rfl List.nodup_nil (List.nil_subset _)
  | some category =>
      cases category <;> simp only [typed, hcategory]
      case login | password =>
        refine proper_of_textFields ["username", "email", "password", "totp"] rfl rfl
          (by simp) ?_
        change _ ⊆ ["username", "email", "password", "totp"]
        simp
      case card =>
        refine proper_of_textFields ["cardholderName", "number", "expiry", "securityCode", "pin"] rfl rfl
          (by simp) ?_
        change _ ⊆ ["cardholderName", "number", "expiry", "securityCode", "pin"]
        simp
      case identity =>
        refine proper_of_textFields ["firstName", "lastName", "birthDate", "email", "phone", "street",
          "postalCode", "city", "country"] rfl rfl
          (by simp) ?_
        change _ ⊆ ["firstName", "lastName", "email", "phone", "birthDate", "street", "postalCode",
          "city", "country"]
        simp
      case wifi =>
        refine ⟨?_, ?_⟩
        · change ["ssid", "password", "security"].Nodup
          simp
        · change ∀ key ∈ ["ssid", "password", "security"], key ∈ ["ssid", "password", "security"]
          exact fun _ hkey => hkey
      case apiKey =>
        refine proper_of_textFields ["keyId", "secret", "host"] rfl rfl
          (by simp) ?_
        change _ ⊆ ["keyId", "secret", "host"]
        simp
      case sshKey =>
        refine proper_of_textFields ["privateKey", "publicKey"] rfl rfl
          (by simp) ?_
        change _ ⊆ ["privateKey", "publicKey", "passphrase"]
        simp
      case note | document =>
        exact @proper_of_textFields [] _ [] rfl rfl List.nodup_nil (List.nil_subset _)

theorem itemOf_proper (h : itemOf P vaultTag item = .ok record) : record.Proper := by
  obtain ⟨htype, hfields, -⟩ := itemOf_eq_ok h
  have hproper := typed_proper item (sectionFields P item)
  exact ⟨hfields ▸ hproper.nodup, by rw [hfields, htype]; exact hproper.own⟩

end Made

/-! ### What is not read -/

section Values

variable {P : Platform} {item : OnePasswordItem} {reads : ItemReads}

/-- The parts of an address are in its lines. -/
theorem isPart_addressText {a : Address} {part : Text} (hne : part ≠ [])
    (h : some part ∈ [a.street, a.zip, a.city, a.state, a.country]) :
    IsPart part (addressText a) := by
  have hline : ∀ {value : Option Text}, some part = value → nonempty value = some part := by
    rintro _ rfl
    exact Option.filter_eq_some_iff.2 ⟨rfl, decide_eq_true hne⟩
  have hplain : ∀ {value : Option Text}, some part = value →
      value ∈ [a.street, some ([' '].intercalate ([a.zip, a.city].filterMap nonempty)), a.state,
        a.country] → IsPart part (addressText a) := fun hvalue hmem =>
    isPart_intercalate (by decide) (List.mem_filterMap.2 ⟨_, hmem, hline hvalue⟩)
  have hword : ∀ {value : Option Text}, some part = value → value ∈ [a.zip, a.city] →
      IsPart part (addressText a) := by
    intro value hvalue hmem
    have hwords : IsPart part ([' '].intercalate ([a.zip, a.city].filterMap nonempty)) :=
      isPart_intercalate (by decide) (List.mem_filterMap.2 ⟨value, hmem, hline hvalue⟩)
    have hfull : [' '].intercalate ([a.zip, a.city].filterMap nonempty) ≠ [] := by
      intro hnil
      rw [hnil] at hwords
      obtain ⟨before, after, heq, -⟩ := hwords
      simp [hne] at heq
    refine hwords.trans (isPart_intercalate (by decide) (List.mem_filterMap.2 ⟨_, ?_,
      Option.filter_eq_some_iff.2 ⟨rfl, decide_eq_true hfull⟩⟩))
    simp
  simp only [List.mem_cons, List.not_mem_nil, or_false] at h
  rcases h with h | h | h | h | h
  · exact hplain h (by simp)
  · exact hword h (by simp)
  · exact hword h (by simp)
  · exact hplain h (by simp)
  · exact hplain h (by simp)

/-- The digits of a number of six. -/
theorem toDigits_six {n : ℕ} (h : 100000 ≤ n) (h' : n < 1000000) :
    Nat.toDigits 10 n = [n / 100000, n / 10000 % 10, n / 1000 % 10, n / 100 % 10, n / 10 % 10,
      n % 10].map Nat.digitChar := by
  have hstep : ∀ {m : ℕ}, 10 ≤ m →
      Nat.toDigits 10 m = Nat.toDigits 10 (m / 10) ++ [Nat.digitChar (m % 10)] := fun hm =>
    Nat.toDigits_of_base_le (by decide) hm
  rw [hstep (by omega), hstep (by omega), hstep (by omega), hstep (by omega), hstep (by omega),
    Nat.toDigits_of_lt_base (by omega)]
  simp only [Nat.div_div_eq_div_mul, List.map_cons, List.map_nil, List.cons_append, List.nil_append,
    Nat.reduceMul]

theorem digitOf_digitChar {d : ℕ} (h : d < 10) : digitOf (Nat.digitChar d) = some d := by
  have hall : ∀ d < 10, digitOf (Nat.digitChar d) = some d := by decide
  exact hall d h

/-- A month of a year of this century is read back from its text. -/
theorem expiryOf_monthYearText {n : ℤ}
    (h : (ItemValue.monthYear n).isWhole P = true) :
    expiryOf (monthYearText n) = some n := by
  simp only [ItemValue.isWhole, Bool.and_eq_true, decide_eq_true_eq] at h
  obtain ⟨m, rfl⟩ := Int.eq_ofNat_of_zero_le (by omega : 0 ≤ n)
  have htext : monthYearText m = [Nat.digitChar (m / 10 % 10), Nat.digitChar (m % 10), '/',
      Nat.digitChar (m / 1000 % 10), Nat.digitChar (m / 100 % 10)] := by
    have hdigits : intText m = Nat.toDigits 10 m := by simp [intText]
    rw [monthYearText, hdigits, toDigits_six (by omega) (by omega)]
    rfl
  rw [htext, expiryOf]
  simp only [digitOf_digitChar (Nat.mod_lt _ (by decide : 10 > 0)), Option.bind_eq_bind,
    Option.bind_some]
  rw [if_pos (by omega)]
  congr 1
  omega

/-- The day of a date is what is left of its text. -/
theorem sliceUnits_day {iso : Text} (h : utf16Length (dayOf iso) = 10) :
    sliceUnits 10 iso = dayOf iso := by
  have happend : dayOf iso ++ iso.dropWhile (· ≠ 'T') = iso := List.takeWhile_append_dropWhile
  conv_lhs => rw [← happend, ← h]
  exact sliceUnits_append _ _

/-- The values of the first kind stand in the text of a field. -/
theorem stands_textKind {value : FieldValue} {text : Text} {v : ItemValue}
    (htext : fieldText P value = some text) (hread : text ∈ reads.texts)
    (hv : v ∈ textKind value) (hvalue : v.NonBlank) (hwhole : v.isWhole P = true) :
    Stands P reads v ∧ ∀ t, v = .text t → t = text := by
  have hplain : ∀ {t}, some t = some text → v ∈ [ItemValue.text t] →
      Stands P reads v ∧ ∀ t, v = .text t → t = text := by
    rintro t heq hmem
    obtain rfl := Option.some.inj heq
    obtain rfl := List.mem_singleton.1 hmem
    exact ⟨stands_text hread, fun t heq => (ItemValue.text.inj heq).symm⟩
  have hoption : ∀ {t}, t = some text → v ∈ textValues [t] →
      Stands P reads v ∧ ∀ t, v = .text t → t = text := by
    rintro t rfl hmem
    exact hplain rfl (by simpa [textValues] using hmem)
  unfold fieldText at htext
  unfold textKind at hv
  cases hfirst : value.string.or (value.concealed.or (value.totp.or value.url)) with
  | some t =>
      rw [hfirst] at htext hv
      exact hplain htext hv
  | none =>
  rw [hfirst] at htext hv
  cases hemail : value.email with
  | some address =>
      rw [hemail] at htext hv
      exact hoption htext hv
  | none =>
  rw [hemail] at htext hv
  cases hsecond : value.phone.or (value.creditCardNumber.or (value.creditCardType.or
    (value.menu.or value.gender))) with
  | some t =>
      rw [hsecond] at htext hv
      exact hplain htext hv
  | none =>
  rw [hsecond] at htext hv
  cases hdate : value.date with
  | some date =>
      rw [hdate] at htext hv
      obtain rfl := List.mem_singleton.1 hv
      obtain ⟨iso, hiso, rfl⟩ := Option.map_eq_some_iff.1 htext
      have hdate : P.isoDate (date * 1000) = some iso := by
        unfold seconds at hiso
        dsimp only at hiso
        split_ifs at hiso
        exact hiso
      rw [ItemValue.isWhole, hdate, Option.all_some, decide_eq_true_eq] at hwhole
      rw [sliceUnits_day hwhole] at hread
      exact ⟨⟨iso, hdate, .inl hread⟩, fun t heq => by cases heq⟩
  | none =>
  rw [hdate] at htext hv
  cases hmonth : value.monthYear with
  | some n =>
      rw [hmonth] at htext hv
      obtain rfl := List.mem_singleton.1 hv
      obtain rfl := Option.some.inj htext
      exact ⟨.inr ⟨_, .inl hread, expiryOf_monthYearText hwhole⟩, fun t heq => by cases heq⟩
  | none =>
  rw [hmonth] at htext hv
  cases haddress : value.address with
  | some a =>
      rw [haddress] at htext hv
      obtain rfl := Option.some.inj htext
      obtain ⟨part, hpart, rfl⟩ := List.mem_map.1 hv
      have hne : part ≠ [] := by
        rintro rfl
        exact hvalue rfl
      exact ⟨stands_part hread (isPart_addressText hne (mem_filterMap_id.1 hpart)),
        fun t heq => by cases heq⟩
  | none =>
      rw [haddress] at htext hv
      exact hoption htext hv

/-- So it is of the values of a network's security. -/
theorem stands_asSecurity {value : FieldValue} {text : Text} {v : ItemValue}
    (htext : fieldText P value = some text) (hread : text ∈ reads.texts)
    (hv : v ∈ (textKind value).map asSecurity) (hvalue : v.NonBlank)
    (hwhole : v.isWhole P = true) : Stands P reads v := by
  obtain ⟨v', hv', rfl⟩ := List.mem_map.1 hv
  have hblank : v'.NonBlank := by
    cases v' <;> exact hvalue
  have hwhole' : v'.isWhole P = true := by
    cases v' with
    | text t => rfl
    | _ => exact hwhole
  obtain ⟨hstands, hsame⟩ := stands_textKind htext hread hv' hblank hwhole'
  cases v' with
  | text t =>
      obtain rfl := hsame t rfl
      exact .inl (.inl hread)
  | _ => exact hstands

/-- A security that is no enterprise's is read back from what it means. -/
theorem security_of_meaning {security meaning : Text} (h : securityText security = some meaning)
    (hwhole : (ItemValue.security security).isWhole P = true) :
    security = meaning ∨ meaning ∈ personal ∧ security = meaning ++ ['p'] := by
  have hall : ∀ entry ∈ wifiSecurity, entry.1 ∉ personal.map (· ++ ['e']) →
      entry.1 = entry.2 ∨ entry.2 ∈ personal ∧ entry.1 = entry.2 ++ ['p'] := by decide
  obtain ⟨entry, hfound, rfl⟩ := Option.map_eq_some_iff.1 h
  have hkey : entry.1 = security := by simpa using List.find?_some hfound
  rw [← hkey] at hwhole ⊢
  exact hall entry (List.mem_of_find?_eq_some hfound) (of_decide_eq_true hwhole)

theorem fieldText_of_mem {field : Field} (h : field ∈ sectionFields P item) :
    fieldText P field.raw = some field.value := by
  obtain ⟨sectionField, -, hfield⟩ := List.mem_filterMap.1 h
  unfold fieldOf at hfield
  split_ifs at hfield
  obtain ⟨value, hvalue, rfl⟩ := Option.map_eq_some_iff.1 hfield
  exact hvalue

theorem stands_special {field : Field} {v : ItemValue} (h : field ∈ sectionFields P item)
    (hread : ∀ text, some text ∈ specialTexts item field → text ∈ reads.texts)
    (hv : v ∈ specialValues item field) (hvalue : v.NonBlank) (hwhole : v.isWhole P = true) :
    Stands P reads v := by
  have htexts : ∀ texts : List (Option Text), specialTexts item field = texts →
      v ∈ textValues texts → Stands P reads v := by
    rintro texts rfl hmem
    obtain ⟨text, htext, rfl⟩ := mem_textValues.1 hmem
    exact stands_text (hread text htext)
  unfold specialValues at hv
  split at hv
  · rename_i hcategory
    cases haddress : field.raw.address with
    | none =>
        rw [haddress] at hv
        cases hv
    | some a =>
        rw [haddress] at hv
        rw [Option.toList_some, List.flatMap_singleton] at hv
        obtain ⟨part, hpart, rfl⟩ := List.mem_map.1 hv
        refine stands_part (hread part ?_) (IsPart.refl part)
        simp only [specialTexts, hcategory, haddress, Option.getD_some]
        exact mem_filterMap_id.1 hpart
  · rename_i hcategory
    split_ifs at hv with hinherited hmeaning
    · cases hv
    · obtain rfl := List.mem_singleton.1 hv
      obtain ⟨meaning, hmeaning⟩ := Option.isSome_iff_exists.1 hmeaning
      have hmem : meaning ∈ reads.texts := by
        refine hread meaning ?_
        simp only [specialTexts, hcategory, if_neg hinherited, hmeaning, Option.getD_some,
          List.mem_singleton]
      rcases security_of_meaning hmeaning hwhole with hsame | ⟨hpersonal, hvariant⟩
      · exact .inl (.inl (hsame ▸ hmem))
      · exact .inr ⟨meaning, hpersonal, .inl hmem, hvariant⟩
    · refine stands_asSecurity (fieldText_of_mem h) (hread field.value ?_) hv hvalue hwhole
      have hnone : securityText field.value = none := by simpa using hmeaning
      simp only [specialTexts, hcategory, if_neg hinherited, hnone, Option.getD_none,
        List.mem_singleton]
  · rename_i hcategory
    exact htexts _ (by simp only [specialTexts, hcategory]) hv
  · cases hv

/-- **What is read stands there.** -/
theorem stands_of_read {v : ItemValue} (hv : v ∈ readValues P item) (hvalue : v.NonBlank)
    (hwhole : v.isWhole P = true) : Stands P (itemReads P item) v := by
  have htexts : ∀ text, text ∈ (itemReads P item).texts ↔
      some text ∈ item.notesPlain :: loginTexts item (sectionFields P item) ++
        ((sectionFields P item).find? (isSpecial item)).toList.flatMap (specialTexts item) ++
        ((sectionFields P item).eraseP (isSpecial item)).map fun field => some field.value :=
    fun _ => mem_filterMap_id
  unfold readValues at hv
  simp only [List.mem_append] at hv
  rcases hv with ((hv | hv) | hv) | hv
  · obtain ⟨text, htext, rfl⟩ := mem_textValues.1 hv
    exact stands_text ((htexts text).2 (List.mem_append_left _ (List.mem_append_left _ htext)))
  · split_ifs at hv with hlogin
    · obtain ⟨raw, hraw, rfl⟩ := List.mem_map.1 hv
      refine stands_website ?_ hvalue
      unfold itemReads
      rw [if_pos hlogin]
      exact hraw
    · cases hv
  · obtain ⟨field, hfield, hv⟩ := List.mem_flatMap.1 hv
    refine stands_special (List.mem_of_find?_eq_some (Option.mem_toList.1 hfield))
      (fun text htext => ?_) hv hvalue hwhole
    exact (htexts text).2 (List.mem_append_left _ (List.mem_append_right _
      (List.mem_flatMap.2 ⟨field, hfield, htext⟩)))
  · obtain ⟨field, hfield, hv⟩ := List.mem_flatMap.1 hv
    have hpool := fieldText_of_mem (List.mem_of_mem_eraseP hfield)
    have hread : field.value ∈ (itemReads P item).texts :=
      (htexts _).2 (List.mem_append_right _ (List.mem_map.2 ⟨field, hfield, rfl⟩))
    rcases List.mem_append.1 hv with hv | hv
    · exact (stands_textKind hpool hread hv hvalue hwhole).1
    · exact stands_asSecurity hpool hread hv hvalue hwhole

/-- **What an imported record loses of its item**: it holds every value of the item where the values
that are not read, and those that are cut short, stand in what is read. -/
theorem holdsAll_item_iff {vaultTag : Option Text} {record : ForeignRecord} {data : JsObject}
    (hitem : itemOf P vaultTag item = .ok record) (h : finishRecord P record = .ok data) :
    HoldsAll P data (itemValues item) ↔
      AllStand P (itemReads P item) (unreadValues P item ++ cutShort P (itemValues item)) := by
  refine holdsAll_iff (itemOf_proper hitem) h (itemOf_madeOf hitem)
    (fun _ hmem => (List.mem_filter.1 hmem).1) fun value hmem hvalue hwhole => ?_
  by_cases hread : value ∈ readValues P item
  · exact .inr (stands_of_read hread hvalue hwhole)
  · exact .inl (List.mem_filter.2 ⟨hmem, decide_eq_true hread⟩)

end Values

end OnePassword

end Foreign

end Passmgr
