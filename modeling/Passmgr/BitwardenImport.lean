/-
# Imports of Bitwarden exports

`packages/client/src/import/bitwarden.ts`: an item becomes a record of its type, its custom fields
and the values without a field of their own become custom fields, folders and collections become
tags.  What the import does not read of an item: linked fields, half of a card's expiry date, keys
of a card or an identity it does not know, and what an item holds of another type.  What it cuts
short: a card's year that is of another century.

Main definitions:

* `BitwardenItem`, `BitwardenExport` — what is read of an export;
* `typed`, `itemOf`, `importBitwarden` — the record of an item, and the import;
* `itemValues`, `unreadValues` — the values of an item, and those that are not read.

Main results:

* `importBitwarden_eq` — every item is imported or reported, in order;
* `holdsAll_item_iff` — when a record holds every value of its item.
-/

import Passmgr.KeptValues

set_option relaxedAutoImplicit false
set_option autoImplicit false

namespace Passmgr

open JsNumber (trim)

namespace Foreign

namespace Bitwarden

/-! ### Exports -/

/-- An object of texts: its keys whose value is neither `null` nor `undefined`. -/
structure TextRecord where
  entries : List (String × Text) := []
  nodup : (entries.map (·.1)).Nodup := by exact List.nodup_nil

def TextRecord.get (record : TextRecord) (key : String) : Option Text :=
  (record.entries.find? (·.1 = key)).map (·.2)

structure BitwardenField where
  name : Option Text := none
  value : Option Text := none
  type : Option ℕ := none
  deriving DecidableEq, Repr

structure BitwardenLogin where
  uris : List (Option Text) := []
  username : Option Text := none
  password : Option Text := none
  totp : Option Text := none
  passwordRevisionDate : Option Text := none
  /-- How many there are. -/
  fido2Credentials : ℕ := 0
  deriving DecidableEq, Repr

structure BitwardenSshKey where
  privateKey : Option Text := none
  publicKey : Option Text := none
  deriving DecidableEq, Repr

/-- What is read of an item; `null` and what is missing are the same. -/
structure BitwardenItem where
  type : ℕ
  name : Option Text := none
  notes : Option Text := none
  favorite : Bool := false
  folderId : Option Text := none
  collectionIds : List Text := []
  creationDate : Option Text := none
  fields : List BitwardenField := []
  /-- The dates of earlier passwords. -/
  passwordHistory : List (Option Text) := []
  login : BitwardenLogin := {}
  card : TextRecord := {}
  identity : TextRecord := {}
  sshKey : BitwardenSshKey := {}

/-- A folder or a collection. -/
structure Named where
  id : Text
  name : Text
  deriving DecidableEq, Repr

structure BitwardenExport where
  folders : List Named := []
  collections : List Named := []
  items : List BitwardenItem

/-- `new Map(named)`, of which the last one with an id is read. -/
def nameOf (named : List Named) (id : Text) : Option Text :=
  (named.reverse.find? (·.id = id)).map (·.name)

/-! ### The record of an item -/

def loginType : ℕ := 1
def secureNoteType : ℕ := 2
def cardType : ℕ := 3
def identityType : ℕ := 4
def sshKeyType : ℕ := 5

def hiddenField : ℕ := 1
def linkedField : ℕ := 3

def isLinked (field : BitwardenField) : Bool := field.type = some linkedField

def customFields (item : BitwardenItem) : List ForeignField :=
  (item.fields.filter (!isLinked ·)).map fun field =>
    { title := field.name.getD []
      value := field.value.getD []
      secret := field.type = some hiddenField }

/-- `padStart(count, fill)`. -/
def padStart (count : ℕ) (fill : Char) (text : Text) : Text :=
  List.replicate (count - utf16Length text) fill ++ text

/-- `slice(-count)`. -/
def lastUnits (count : ℕ) (text : Text) : Text := (sliceUnits count text.reverse).reverse

/-- "01/27" from month "1" / "01" and year "2027" / "27". -/
def cardExpiry (month year : Option Text) : Option Text :=
  match nonempty month, nonempty year with
  | some month, some year => some (padStart 2 '0' month ++ '/' :: lastUnits 2 year)
  | _, _ => none

/-- Identity fields with no field here, as custom fields. -/
def identityExtras : List (String × Text × Bool) :=
  [("title", "Title".toList, false), ("middleName", "Middle name".toList, false),
    ("company", "Company".toList, false), ("state", "State".toList, false),
    ("username", "Username".toList, false), ("ssn", "Social security number".toList, true),
    ("passportNumber", "Passport number".toList, true),
    ("licenseNumber", "License number".toList, true)]

/-- The lines of an address. -/
def addressKeys : List String := ["address1", "address2", "address3"]

def street (identity : TextRecord) : Text :=
  ['\n'].intercalate (addressKeys.filterMap fun key => nonempty (identity.get key))

/-- `isoDate` of a text. -/
def isoDateOf (P : Platform) (value : Option Text) : Option Text := (nonempty value).bind P.isoText

/-- What an item becomes; `none` for a type with no record here. -/
def typed (P : Platform) (item : BitwardenItem) : Option ForeignRecord :=
  let fields := customFields item
  if item.type = loginType then
    some {
      type := "login".toList
      fields := textFields [("username", item.login.username), ("password", item.login.password),
        ("totp", item.login.totp)]
      websites := item.login.uris.map (·.getD [])
      customFields := fields
      passwordChangedAt := latestDate
        (isoDateOf P item.login.passwordRevisionDate :: item.passwordHistory.map (isoDateOf P)) }
  else if item.type = secureNoteType then
    some {
      type := "note".toList
      customFields := fields }
  else if item.type = cardType then
    some {
      type := "card".toList
      fields := textFields [("cardholderName", item.card.get "cardholderName"),
        ("number", item.card.get "number"),
        ("expiry", cardExpiry (item.card.get "expMonth") (item.card.get "expYear")),
        ("securityCode", item.card.get "code")]
      customFields := ⟨"Brand".toList, (item.card.get "brand").getD [], false⟩ :: fields }
  else if item.type = identityType then
    some {
      type := "identity".toList
      fields := textFields [("firstName", item.identity.get "firstName"),
        ("lastName", item.identity.get "lastName"), ("email", item.identity.get "email"),
        ("phone", item.identity.get "phone"), ("street", some (street item.identity)),
        ("postalCode", item.identity.get "postalCode"), ("city", item.identity.get "city"),
        ("country", item.identity.get "country")]
      customFields := (identityExtras.map fun (key, title, secret) =>
        ⟨title, (item.identity.get key).getD [], secret⟩) ++ fields }
  else if item.type = sshKeyType then
    some {
      type := "ssh_key".toList
      fields := textFields [("privateKey", item.sshKey.privateKey),
        ("publicKey", item.sshKey.publicKey)]
      customFields := fields }
  else none

/-! ### The import -/

/-- The tags of an item: its folder and its collections. -/
def tagsOf (file : BitwardenExport) (item : BitwardenItem) : List Text :=
  (nonempty ((nonempty item.folderId).bind (nameOf file.folders))).toList ++
    item.collectionIds.filterMap (nameOf file.collections)

/-- What is added for an item. -/
def itemOf (P : Platform) (file : BitwardenExport) (item : BitwardenItem) :
    Except Text ForeignRecord :=
  match typed P item with
  | none => .error (item.name.getD "Untitled".toList)
  | some record =>
    .ok { record with
      title := item.name
      note := item.notes
      favorite := item.favorite
      tags := tagsOf file item
      createdAt := isoDateOf P item.creationDate
      leftBehind :=
        { previousPasswords := item.passwordHistory.length
          passkeys := if item.login.fido2Credentials = 0 then 0 else 1 } }

/-- Folders and collections become tags; earlier passwords and passkeys are left behind. -/
def importBitwarden (P : Platform) (file : BitwardenExport) : ForeignImportBuilder :=
  file.items.foldl (fun builder item => builder.addItem P (itemOf P file item)) {}

/-! ### The values of an item -/

def loginValues (login : BitwardenLogin) : List ItemValue :=
  textValues [login.username, login.password, login.totp] ++
    (login.uris.filterMap id).map .website

def cardValue (entry : String × Text) : ItemValue :=
  if entry.1 = "expMonth" then .expiryMonth entry.2
  else if entry.1 = "expYear" then .expiryYear entry.2
  else .text entry.2

def identityValue (entry : String × Text) : ItemValue :=
  if entry.1 ∈ addressKeys then .part entry.2 else .text entry.2

def sshKeyValues (key : BitwardenSshKey) : List ItemValue :=
  textValues [key.privateKey, key.publicKey]

/-- The values of an item. -/
def itemValues (item : BitwardenItem) : List ItemValue :=
  textValues (item.notes :: item.fields.map (·.value)) ++ loginValues item.login ++
    item.card.entries.map cardValue ++ item.identity.entries.map identityValue ++
    sshKeyValues item.sshKey

/-- The keys of a card that are read. -/
def isCardKey (card : TextRecord) (key : String) : Bool :=
  key ∈ ["cardholderName", "number", "code", "brand"] ||
    key ∈ ["expMonth", "expYear"] && (nonempty (card.get "expMonth")).isSome &&
      (nonempty (card.get "expYear")).isSome

/-- The keys of an identity that are read, those of the address aside. -/
def identityKeys : List String :=
  ["firstName", "lastName", "email", "phone", "postalCode", "city", "country"] ++
    identityExtras.map (·.1)

def isIdentityKey (key : String) : Bool := key ∈ addressKeys || key ∈ identityKeys

/-- The values of an item that are not read: of linked fields, of what is of another type, and of
keys that have no place. -/
def unreadValues (item : BitwardenItem) : List ItemValue :=
  textValues ((item.fields.filter isLinked).map (·.value)) ++
    (if item.type = loginType then [] else loginValues item.login) ++
    (item.card.entries.filter fun entry =>
      item.type ≠ cardType || !isCardKey item.card entry.1).map cardValue ++
    (item.identity.entries.filter fun entry =>
      item.type ≠ identityType || !isIdentityKey entry.1).map identityValue ++
    if item.type = sshKeyType then [] else sshKeyValues item.sshKey

/-- The texts an item of a type gives, its notes and its own fields aside. -/
def typedTexts (item : BitwardenItem) : List (Option Text) :=
  if item.type = loginType then [item.login.username, item.login.password, item.login.totp]
  else if item.type = cardType then
    cardExpiry (item.card.get "expMonth") (item.card.get "expYear") ::
      ["cardholderName", "number", "code", "brand"].map item.card.get
  else if item.type = identityType then
    some (street item.identity) :: identityKeys.map item.identity.get
  else if item.type = sshKeyType then [item.sshKey.privateKey, item.sshKey.publicKey]
  else []

/-- What is read of an item. -/
def itemReads (item : BitwardenItem) : ItemReads where
  texts := (item.notes :: (item.fields.filter (!isLinked ·)).map (·.value) ++
    typedTexts item).filterMap id
  urls := if item.type = loginType then item.login.uris.filterMap id else []

/-! ### What is read is what the record is made of -/

section Made

variable {P : Platform} {file : BitwardenExport} {item : BitwardenItem} {record : ForeignRecord}

theorem itemOf_eq_ok (h : itemOf P file item = .ok record) :
    ∃ typedRecord, typed P item = some typedRecord ∧ record.type = typedRecord.type ∧
      record.fields = typedRecord.fields ∧ record.websites = typedRecord.websites ∧
      record.customFields = typedRecord.customFields ∧ record.note = item.notes := by
  unfold itemOf at h
  split at h
  · cases h
  · rename_i typedRecord htyped
    obtain rfl := Except.ok.inj h
    exact ⟨typedRecord, htyped, rfl, rfl, rfl, rfl, rfl⟩

theorem mem_customFields {text : Text} (hne : text ≠ []) :
    text ∈ (customFields item).map (·.value) ↔
      some text ∈ (item.fields.filter (!isLinked ·)).map (·.value) := by
  unfold customFields
  rw [List.map_map, List.mem_map, List.mem_map]
  exact exists_congr fun field => and_congr_right fun _ => getD_eq_iff hne field.value

/-- The texts of a typed item: in its fields, or in custom fields in front of the item's own. -/
theorem typed_texts (h : typed P item = some record) :
    ∃ extra, record.customFields = extra ++ customFields item ∧ ∀ text, text ≠ [] →
      (text ∈ givenTexts record.fields ∨ text ∈ extra.map (·.value) ↔
        some text ∈ typedTexts item) := by
  unfold typed at h
  dsimp only at h
  split_ifs at h with hlogin hnote hcard hidentity hssh
  · obtain rfl := Option.some.inj h
    refine ⟨[], rfl, fun text hne => ?_⟩
    rw [mem_givenTexts, typedTexts, if_pos hlogin]
    simp [hne]
  · obtain rfl := Option.some.inj h
    refine ⟨[], rfl, fun text _ => ?_⟩
    have htexts : typedTexts item = [] := by
      rw [typedTexts, if_neg hlogin, if_neg, if_neg, if_neg] <;>
        rw [hnote] <;> decide
    rw [htexts]
    simp [givenTexts]
  · obtain rfl := Option.some.inj h
    refine ⟨[_], rfl, fun text hne => ?_⟩
    rw [mem_givenTexts, typedTexts, if_neg hlogin, if_pos hcard]
    simp only [List.map_cons, List.map_nil, List.mem_cons, List.not_mem_nil, or_false, ne_eq, hne,
      not_false_eq_true, true_and, eq_comm (a := text), getD_eq_iff hne, eq_comm (a := some text)]
    tauto
  · obtain rfl := Option.some.inj h
    refine ⟨_, rfl, fun text hne => ?_⟩
    rw [mem_givenTexts, typedTexts, if_neg hlogin, if_neg hcard, if_pos hidentity]
    have hextra : text ∈ (identityExtras.map fun (key, title, secret) =>
        (⟨title, (item.identity.get key).getD [], secret⟩ : ForeignField)).map (·.value) ↔
        some text ∈ (identityExtras.map (·.1)).map item.identity.get := by
      rw [List.map_map, List.map_map, List.mem_map, List.mem_map]
      exact exists_congr fun extra => and_congr_right fun _ => getD_eq_iff hne _
    rw [hextra, identityKeys, List.map_append, List.mem_cons, List.mem_append]
    simp only [List.map_cons, List.map_nil, List.mem_cons, List.not_mem_nil, or_false, ne_eq, hne,
      not_false_eq_true, true_and]
    tauto
  · obtain rfl := Option.some.inj h
    refine ⟨[], rfl, fun text hne => ?_⟩
    rw [mem_givenTexts, typedTexts, if_neg hlogin, if_neg hcard, if_neg hidentity, if_pos hssh]
    simp [hne]

/-- **A record is made of what is read of its item.** -/
theorem itemOf_madeOf (h : itemOf P file item = .ok record) : record.MadeOf (itemReads item) := by
  obtain ⟨typedRecord, htyped, htype, hfields, hwebsites, hcustom, hnote⟩ := itemOf_eq_ok h
  obtain ⟨extra, hextra, htexts⟩ := typed_texts htyped
  have hurls : typedRecord.websites =
      if item.type = loginType then item.login.uris.map (·.getD []) else [] := by
    unfold typed at htyped
    dsimp only at htyped
    split_ifs at htyped with hlogin <;> obtain rfl := Option.some.inj htyped <;> simp [hlogin]
  have hlogin : item.type = loginType → typedRecord.type = "login".toList := by
    intro htype
    unfold typed at htyped
    rw [if_pos htype] at htyped
    obtain rfl := Option.some.inj htyped
    rfl
  refine ⟨fun text htext => ?_, fun raw hraw => ?_, fun hne => ?_⟩
  · have hne : text ≠ [] := by
      rintro rfl
      exact htext rfl
    rw [hfields, hcustom, hextra, hnote, List.map_append, List.mem_append, mem_customFields hne,
      itemReads, mem_filterMap_id, List.cons_append, List.mem_cons, List.mem_append,
      ← htexts text hne, eq_comm (a := some text)]
    tauto
  · have hne : raw ≠ [] := by
      rintro rfl
      exact hraw rfl
    rw [hwebsites, hurls, itemReads]
    split_ifs with hlogin
    · rw [mem_filterMap_id, List.mem_map]
      simp only [getD_eq_iff hne, exists_eq_right]
    · exact Iff.rfl
  · rw [htype]
    refine hlogin ?_
    by_contra hother
    rw [hwebsites, hurls, if_neg hother] at hne
    exact hne rfl

theorem itemOf_proper (h : itemOf P file item = .ok record) : record.Proper := by
  obtain ⟨typedRecord, htyped, htype, hfields, -⟩ := itemOf_eq_ok h
  have hproper : typedRecord.Proper := by
    unfold typed at htyped
    dsimp only at htyped
    split_ifs at htyped <;> obtain rfl := Option.some.inj htyped
    · refine proper_of_textFields ["username", "password", "totp"] rfl rfl
        (by simp) ?_
      change _ ⊆ ["username", "email", "password", "totp"]
      simp
    · exact @proper_of_textFields [] _ [] rfl rfl List.nodup_nil (List.nil_subset _)
    · refine proper_of_textFields ["cardholderName", "number", "expiry", "securityCode"] rfl rfl
        (by simp) ?_
      change _ ⊆ ["cardholderName", "number", "expiry", "securityCode", "pin"]
      simp
    · refine proper_of_textFields ["firstName", "lastName", "email", "phone", "street", "postalCode",
        "city", "country"] rfl rfl
        (by simp) ?_
      change _ ⊆ ["firstName", "lastName", "email", "phone", "birthDate", "street", "postalCode",
        "city", "country"]
      simp
    · refine proper_of_textFields ["privateKey", "publicKey"] rfl rfl
        (by simp) ?_
      change _ ⊆ ["privateKey", "publicKey", "passphrase"]
      simp
  exact ⟨hfields ▸ hproper.nodup, by rw [hfields, htype]; exact hproper.own⟩

end Made

/-! ### What is not read -/

section Values

variable {P : Platform} {file : BitwardenExport} {item : BitwardenItem} {record : ForeignRecord}

theorem textValues_subset {texts texts' : List (Option Text)} (h : texts ⊆ texts') :
    textValues texts ⊆ textValues texts' := by
  intro value hmem
  obtain ⟨text, htext, rfl⟩ := mem_textValues.1 hmem
  exact mem_textValues.2 ⟨text, h htext, rfl⟩

theorem TextRecord.get_eq_some_iff {record : TextRecord} {key : String} {value : Text} :
    record.get key = some value ↔ (key, value) ∈ record.entries :=
  lookup_eq_some_iff record.nodup

theorem subset_append {values values' others others' : List ItemValue} (h : values ⊆ values')
    (h' : others ⊆ others') : values ++ others ⊆ values' ++ others' :=
  List.append_subset.2 ⟨List.Subset.trans h (List.subset_append_left _ _),
    List.Subset.trans h' (List.subset_append_right _ _)⟩

/-- What is not read is a value of the item. -/
theorem unreadValues_subset : unreadValues item ⊆ itemValues item := by
  unfold unreadValues itemValues
  refine subset_append (subset_append (subset_append (subset_append ?_ ?_) ?_) ?_) ?_
  · exact textValues_subset (List.Subset.trans (List.map_subset _ (List.filter_subset_self _))
      (List.subset_cons_self _ _))
  · split_ifs
    · exact List.nil_subset _
    · exact List.Subset.refl _
  · exact List.map_subset _ (List.filter_subset_self _)
  · exact List.map_subset _ (List.filter_subset_self _)
  · split_ifs
    · exact List.nil_subset _
    · exact List.Subset.refl _

theorem stands_of_typedTexts {text : Text} (h : some text ∈ typedTexts item) :
    Stands P (itemReads item) (.text text) :=
  stands_text (mem_filterMap_id.2 (List.mem_append_right _ h))

/-- A month of one digit has a zero in front. -/
theorem padStart_month {month : Text} (hne : month ≠ []) :
    padStart 2 '0' month = month ∨ utf16Length month = 1 ∧ padStart 2 '0' month = '0' :: month := by
  have hpos := utf16Length_pos hne
  unfold padStart
  rcases (by omega : utf16Length month = 1 ∨ 2 ≤ utf16Length month) with hone | htwo
  · exact .inr ⟨hone, by rw [hone]; rfl⟩
  · exact .inl (by rw [Nat.sub_eq_zero_of_le htwo, List.replicate_zero, List.nil_append])

/-- The last two digits say all of a year of this century. -/
theorem lastUnits_year {year : Text} (h : (ItemValue.expiryYear year).isWhole P = true) :
    lastUnits 2 year = year ∨
      ∃ rest, year = '2' :: '0' :: rest ∧ utf16Length rest = 2 ∧ lastUnits 2 year = rest := by
  unfold lastUnits
  simp only [ItemValue.isWhole, Bool.or_eq_true, Bool.and_eq_true, decide_eq_true_eq,
    List.isPrefixOf_iff_prefix] at h
  rcases h with hshort | ⟨⟨rest, rfl⟩, hfour⟩
  · rw [sliceUnits_of_le (by rwa [utf16Length_reverse]), List.reverse_reverse]
    exact .inl rfl
  · have htwo : utf16Length rest = 2 := by
      rw [utf16Length_append] at hfour
      exact Nat.add_left_cancel hfour
    refine .inr ⟨rest, rfl, htwo, ?_⟩
    rw [List.reverse_append, ← htwo, ← utf16Length_reverse, sliceUnits_append, List.reverse_reverse]

/-- The month and the year of a card can be read back from its expiry date. -/
theorem stands_expiry {month year : Text} (htype : item.type = cardType)
    (hmonth : nonempty (item.card.get "expMonth") = some month)
    (hyear : nonempty (item.card.get "expYear") = some year) :
    Stands P (itemReads item) (.expiryMonth month) ∧
      ((ItemValue.expiryYear year).isWhole P = true →
        Stands P (itemReads item) (.expiryYear year)) := by
  have hexpiry : cardExpiry (item.card.get "expMonth") (item.card.get "expYear") =
      some (padStart 2 '0' month ++ '/' :: lastUnits 2 year) := by
    rw [cardExpiry, hmonth, hyear]
  have hmem : padStart 2 '0' month ++ '/' :: lastUnits 2 year ∈ (itemReads item).texts := by
    refine mem_filterMap_id.2 (List.mem_append_right _ ?_)
    have hlogin : item.type ≠ loginType := by rw [htype]; decide
    rw [typedTexts, if_neg hlogin, if_pos htype, hexpiry]
    exact List.mem_cons_self
  have hstart : padStart 2 '0' month ++ ['/'] <+:
      padStart 2 '0' month ++ '/' :: lastUnits 2 year :=
    ⟨lastUnits 2 year, by rw [List.append_assoc, List.singleton_append]⟩
  refine ⟨⟨_, .inl hmem, ?_⟩, fun hwhole => ⟨_, .inl hmem, ?_⟩⟩
  · have hne : month ≠ [] := of_decide_eq_true (Option.filter_eq_some_iff.1 hmonth).2
    rcases padStart_month hne with hsame | ⟨hone, hpadded⟩
    · exact .inl (by rw [hsame] at hstart ⊢; exact hstart)
    · exact .inr ⟨hone, by rw [hpadded] at hstart ⊢; exact hstart⟩
  · have hend : '/' :: lastUnits 2 year <:+ padStart 2 '0' month ++ '/' :: lastUnits 2 year :=
      List.suffix_append _ _
    rcases lastUnits_year hwhole with hsame | ⟨rest, hyear', htwo, hlast⟩
    · exact .inl (by rw [hsame] at hend ⊢; exact hend)
    · exact .inr ⟨rest, hyear', htwo, by rw [hlast] at hend ⊢; exact hend⟩

/-- A value of a card that is read stands in what is. -/
theorem stands_card {entry : String × Text} (htype : item.type = cardType)
    (hmem : entry ∈ item.card.entries) (hkey : isCardKey item.card entry.1 = true)
    (hwhole : (cardValue entry).isWhole P = true) :
    Stands P (itemReads item) (cardValue entry) := by
  obtain ⟨key, text⟩ := entry
  have hget := TextRecord.get_eq_some_iff.2 hmem
  have hlogin : item.type ≠ loginType := by rw [htype]; decide
  unfold isCardKey at hkey
  rw [Bool.or_eq_true, Bool.and_eq_true, Bool.and_eq_true, decide_eq_true_eq,
    decide_eq_true_eq] at hkey
  rcases hkey with hplain | ⟨⟨hexpiry, hmonth⟩, hyear⟩
  · have hkind : cardValue (key, text) = .text text := by
      simp only [List.mem_cons, List.not_mem_nil, or_false] at hplain
      rcases hplain with rfl | rfl | rfl | rfl <;> rfl
    rw [hkind]
    refine stands_of_typedTexts ?_
    rw [typedTexts, if_neg hlogin, if_pos htype]
    exact List.mem_cons_of_mem _ (List.mem_map.2 ⟨key, hplain, hget⟩)
  · obtain ⟨month, hmonth⟩ := Option.isSome_iff_exists.1 hmonth
    obtain ⟨year, hyear⟩ := Option.isSome_iff_exists.1 hyear
    obtain ⟨hm, hy⟩ := @stands_expiry P item month year htype hmonth hyear
    simp only [List.mem_cons, List.not_mem_nil, or_false] at hexpiry
    rcases hexpiry with rfl | rfl
    · obtain rfl : text = month := by
        have hsome := (Option.filter_eq_some_iff.1 hmonth).1
        exact Option.some.inj (hget.symm.trans hsome)
      exact hm
    · obtain rfl : text = year := by
        have hsome := (Option.filter_eq_some_iff.1 hyear).1
        exact Option.some.inj (hget.symm.trans hsome)
      exact hy hwhole

/-- A value of an identity that is read stands in what is. -/
theorem stands_identity {entry : String × Text} (htype : item.type = identityType)
    (hmem : entry ∈ item.identity.entries) (hkey : isIdentityKey entry.1 = true)
    (hvalue : (identityValue entry).NonBlank) :
    Stands P (itemReads item) (identityValue entry) := by
  obtain ⟨key, text⟩ := entry
  have hget := TextRecord.get_eq_some_iff.2 hmem
  have hlogin : item.type ≠ loginType := by rw [htype]; decide
  have hcard : item.type ≠ cardType := by rw [htype]; decide
  unfold identityValue at hvalue ⊢
  unfold isIdentityKey at hkey
  rw [Bool.or_eq_true, decide_eq_true_eq, decide_eq_true_eq] at hkey
  split_ifs at hvalue ⊢ with haddress
  · have hne : text ≠ [] := by
      rintro rfl
      exact hvalue rfl
    have hline : nonempty (item.identity.get key) = some text :=
      Option.filter_eq_some_iff.2 ⟨hget, decide_eq_true hne⟩
    have hmiddle : IsPart text (street item.identity) := by
      unfold street
      exact isPart_intercalate (by decide) (List.mem_filterMap.2 ⟨key, haddress, hline⟩)
    refine stands_part (mem_filterMap_id.2 (List.mem_append_right _ ?_)) hmiddle
    rw [typedTexts, if_neg hlogin, if_neg hcard, if_pos htype]
    exact List.mem_cons_self
  · refine stands_of_typedTexts ?_
    rw [typedTexts, if_neg hlogin, if_neg hcard, if_pos htype]
    exact List.mem_cons_of_mem _ (List.mem_map.2 ⟨key, hkey.resolve_left haddress, hget⟩)

/-- A value of an item is not read, or stands in what is. -/
theorem unread_or_stands {value : ItemValue} (hmem : value ∈ itemValues item)
    (hvalue : value.NonBlank) (hwhole : value.isWhole P = true) :
    value ∈ unreadValues item ∨ Stands P (itemReads item) value := by
  unfold itemValues at hmem
  unfold unreadValues
  simp only [List.mem_append] at hmem ⊢
  rcases hmem with (((hmem | hmem) | hmem) | hmem) | hmem
  · obtain ⟨text, htext, rfl⟩ := mem_textValues.1 hmem
    rcases List.mem_cons.1 htext with hnote | hfield
    · exact .inr (stands_text (mem_filterMap_id.2 (List.mem_cons.2 (.inl hnote))))
    · obtain ⟨field, hfield, htext⟩ := List.mem_map.1 hfield
      cases hlinked : isLinked field with
      | true =>
          exact .inl (.inl (.inl (.inl (.inl (mem_textValues.2 ⟨text,
            List.mem_map.2 ⟨field, List.mem_filter.2 ⟨hfield, hlinked⟩, htext⟩, rfl⟩)))))
      | false =>
          refine .inr (stands_text (mem_filterMap_id.2 (List.mem_cons_of_mem _
            (List.mem_append_left _ (List.mem_map.2 ⟨field, List.mem_filter.2 ⟨hfield, ?_⟩, htext⟩)))))
          simp [hlinked]
  · by_cases htype : item.type = loginType
    · right
      unfold loginValues at hmem
      rcases List.mem_append.1 hmem with hmem | hmem
      · obtain ⟨text, htext, rfl⟩ := mem_textValues.1 hmem
        refine stands_of_typedTexts ?_
        rw [typedTexts, if_pos htype]
        exact htext
      · obtain ⟨raw, hraw, rfl⟩ := List.mem_map.1 hmem
        refine stands_website ?_ hvalue
        rw [itemReads, if_pos htype]
        exact hraw
    · exact .inl (.inl (.inl (.inl (.inr (by rw [if_neg htype]; exact hmem)))))
  · obtain ⟨entry, hentry, rfl⟩ := List.mem_map.1 hmem
    by_cases hread : item.type = cardType ∧ isCardKey item.card entry.1 = true
    · exact .inr (stands_card hread.1 hentry hread.2 hwhole)
    · refine .inl (.inl (.inl (.inr (List.mem_map.2 ⟨entry, List.mem_filter.2 ⟨hentry, ?_⟩, rfl⟩))))
      by_cases htype : item.type = cardType
      · simpa [htype] using hread
      · simp [htype]
  · obtain ⟨entry, hentry, rfl⟩ := List.mem_map.1 hmem
    by_cases hread : item.type = identityType ∧ isIdentityKey entry.1 = true
    · exact .inr (stands_identity hread.1 hentry hread.2 hvalue)
    · refine .inl (.inl (.inr (List.mem_map.2 ⟨entry, List.mem_filter.2 ⟨hentry, ?_⟩, rfl⟩)))
      by_cases htype : item.type = identityType
      · simpa [htype] using hread
      · simp [htype]
  · by_cases htype : item.type = sshKeyType
    · right
      obtain ⟨text, htext, rfl⟩ := mem_textValues.1 hmem
      refine stands_of_typedTexts ?_
      have hother : item.type ≠ loginType ∧ item.type ≠ cardType ∧ item.type ≠ identityType := by
        rw [htype]
        decide
      rw [typedTexts, if_neg hother.1, if_neg hother.2.1, if_neg hother.2.2, if_pos htype]
      exact htext
    · exact .inl (.inr (by rw [if_neg htype]; exact hmem))

/-- **What an imported record loses of its item**: it holds every value of the item where the values
that are not read, and the years that are cut short, stand in what is read. -/
theorem holdsAll_item_iff {data : JsObject} (hitem : itemOf P file item = .ok record)
    (h : finishRecord P record = .ok data) :
    HoldsAll P data (itemValues item) ↔
      AllStand P (itemReads item) (unreadValues item ++ cutShort P (itemValues item)) :=
  holdsAll_iff (itemOf_proper hitem) h (itemOf_madeOf hitem)
    (fun _ hmem => unreadValues_subset hmem) fun _ hmem hvalue hwhole =>
      unread_or_stands hmem hvalue hwhole

end Values

/-- **Every item is imported or reported**, in the order of the export. -/
theorem importBitwarden_eq (P : Platform) (file : BitwardenExport) :
    importBitwarden P file =
      { records := (file.items.map (itemOf P file)).filterMap (importedItem P)
        report :=
          { toLeftBehind := leftOf P ((file.items.map (itemOf P file)).filterMap Except.toOption)
            skipped := (file.items.map (itemOf P file)).filterMap (skippedItem P) } } := by
  unfold importBitwarden
  rw [← List.foldl_map, foldl_addItem, List.nil_append, List.nil_append, LeftBehind.zero_add]

end Bitwarden

end Foreign

end Passmgr
