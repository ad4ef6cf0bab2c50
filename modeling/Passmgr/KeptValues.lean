/-
# The values an imported record holds

What an imported record holds of the values it was made of, read off its fields: as one of its own
fields, in its note, as a custom field or as a website.

Main definitions:

* `HoldsText`, `HasWebsite` — the record holds a text, or a website;
* `ForeignRecord.texts`, `ForeignRecord.sites` — the texts and websites a record is made of;
* `ItemValue`, `Held` — a value of an item of another password manager, and that a record holds it,
  as it is or in a text it can be read back from;
* `cutShort` — the values whose short form does not say all of them.

Main results:

* `holdsText_iff`, `hasWebsite_iff` — an imported record holds these and no others;
* `held_iff_stands` — so it holds a value where this stands in what is read of the item;
* `holdsAll_iff` — and all of them where those that are not read, or cut short, stand in what is.
-/

import Mathlib.Data.List.TakeWhile
import Passmgr.ForeignImport

set_option relaxedAutoImplicit false
set_option autoImplicit false

namespace Passmgr

open JsNumber (isStrWhiteSpace trim)

namespace Foreign

/-! ### What a record holds -/

/-- The fields of the types that hold a text. -/
def textKeys : List String :=
  ["username", "email", "password", "totp", "cardholderName", "number", "expiry", "securityCode",
    "pin", "firstName", "lastName", "phone", "birthDate", "street", "postalCode", "city", "country",
    "privateKey", "publicKey", "passphrase", "keyId", "secret", "host", "ssid", "security", "note"]

/-- The value of a custom field. -/
def IsCustomValue (data : JsObject) (value : Text) : Prop :=
  ∃ items, JsObject.get? data "customFields" = some (.array items) ∧
    ∃ fields, .object fields ∈ items ∧ JsObject.get? fields "value" = some (.string value)

/-- The record holds a text, in a field of its own, in the note or in a custom field. -/
def HoldsText (data : JsObject) (value : Text) : Prop :=
  (∃ key ∈ textKeys, JsObject.get? data key = some (.string value)) ∨ IsCustomValue data value

/-- The record has a website. -/
def HasWebsite (data : JsObject) (website : Text) : Prop :=
  ∃ items, JsObject.get? data "websites" = some (.array items) ∧
    .object [("value", .string website)] ∈ items

/-! ### What a record is made of -/

/-- The fields of a type that hold a text, besides the note. -/
def ownKeys (type : Text) : List String :=
  (textLimits type).map (·.1) ++ if type = "wifi".toList then ["security"] else []

/-- The fields are of the type, each once. -/
structure ForeignRecord.Proper (record : ForeignRecord) : Prop where
  nodup : (record.fields.map (·.1)).Nodup
  own : ∀ key ∈ record.fields.map (·.1), key ∈ ownKeys record.type

/-- The texts of some fields that are given. -/
def givenTexts (fields : List (String × Option Json)) : List Text :=
  fields.filterMap fun (_, value) => (given value).bind Json.text?

section Made

variable (P : Platform)

/-- The texts a record is made of, blank ones aside. -/
def ForeignRecord.texts (record : ForeignRecord) : List Text :=
  givenTexts record.fields ++ (record.note.toList.filter fun note => trim note ≠ []) ++
    ((record.customFields.map (·.value)).filter fun value => trim value ≠ []) ++
    (record.websites.filter fun raw => trim raw ≠ [] && !isWebsite P.url raw).map trim

/-- The websites a login is made of. -/
def ForeignRecord.sites (record : ForeignRecord) : List Text :=
  (record.websites.filter fun raw => trim raw ≠ [] && isWebsite P.url raw).map normalizeWebsite

end Made

/-! ### Parts -/

section Parts

variable {P : Platform}

/-- The websites, one after the other. -/
theorem foldl_addWebsite (raws : List Text) (parts : Parts) :
    raws.foldl (addWebsite P) parts =
      { fields := parts.fields
        customFields := parts.customFields ++
          ((raws.filter fun raw => trim raw ≠ [] && !isWebsite P.url raw).map fun raw =>
            ⟨.text, "Website".toList, trim raw⟩)
        websites := parts.websites ++
          (raws.filter fun raw => trim raw ≠ [] && isWebsite P.url raw).map normalizeWebsite } := by
  induction raws generalizing parts with
  | nil => simp
  | cons raw raws ih =>
      rw [List.foldl_cons, ih]
      unfold addWebsite
      by_cases hblank : trim raw = []
      · simp [hblank]
      · cases hsite : isWebsite P.url raw <;> simp [hblank, hsite]

/-- The texts of the parts. -/
def Parts.texts (parts : Parts) : List Text :=
  parts.fields.filterMap (fun field => Json.text? field.2) ++ parts.customFields.map (·.value)

/-- Taking the first that is found leaves the others. -/
theorem perm_eraseP {α : Type} {p : α → Bool} {found : α} {l : List α} (h : l.find? p = some found) :
    l.Perm (found :: l.eraseP p) := by
  induction l with
  | nil => cases h
  | cons a l ih =>
      rw [List.find?_cons] at h
      cases ha : p a with
      | true =>
          rw [ha] at h
          obtain rfl := Option.some.inj h
          rw [List.eraseP_cons_of_pos ha]
      | false =>
          rw [ha] at h
          rw [List.eraseP_cons_of_neg (by simp [ha])]
          exact ((ih h).cons a).trans (.swap _ _ _)

/-- Taking the email out of the custom fields moves a text. -/
theorem mem_texts_takeEmail (type : Text) (parts : Parts) (value : Text) :
    value ∈ (takeEmail type parts).texts ↔ value ∈ parts.texts := by
  unfold takeEmail
  split
  · rename_i hlogin
    cases hfind : parts.customFields.find? isEmailField with
    | none => rfl
    | some field =>
        have hset : JsObject.set parts.fields "email" (.string field.value) =
            parts.fields ++ [("email", .string field.value)] := by
          have hnone := (JsObject.get?_eq_none_iff _ _).1 (Option.isNone_iff_eq_none.1 hlogin.2)
          rw [JsObject.set, if_neg hnone]
        have hmem := ((perm_eraseP hfind).map (·.value)).mem_iff (a := value)
        simp only [Parts.texts, hset, List.filterMap_append, List.mem_append, hmem, List.map_cons,
          List.mem_cons]
        have hone : value ∈ [("email", Json.string field.value)].filterMap
            (fun entry => Json.text? entry.2) ↔ value = field.value := by
          simp [Json.text?]
        rw [hone]
        tauto
  · rfl

/-! ### The keys of a candidate -/

/-- The keys a candidate has besides those of the type's own texts. -/
def candidateKeys : List String :=
  ["type", "title", "websites", "passwordChangedAt", "note", "favorite", "tags", "customFields"]

/-- The fields of a type are known to the schema, and none of them has another part in it. -/
theorem ownKeys_spec {type : Text} {key : String} (h : key ∈ ownKeys type) :
    key ∈ textKeys ∧ key ∉ candidateKeys ∧ key ∈ knownKeys P type := by
  -- what is known of a type
  have hknown : ∀ {fields : List (String × RecordSchema.FieldCheck)},
      RecordSchema.typeFields (isWebsite P.url) type = some fields →
        key ∈ fields.map (·.1) → key ∈ knownKeys P type := by
    intro fields hfields hkey
    rw [knownKeys, hfields, Option.getD_some, List.map_append]
    exact List.mem_cons_of_mem _ (List.mem_append_right _ hkey)
  have hsplit : ∀ (keys : List String) {fields : List (String × RecordSchema.FieldCheck)},
      RecordSchema.typeFields (isWebsite P.url) type = some fields → keys ⊆ textKeys →
      (∀ key ∈ keys, key ∉ candidateKeys) → keys ⊆ fields.map (·.1) → key ∈ keys →
        key ∈ textKeys ∧ key ∉ candidateKeys ∧ key ∈ knownKeys P type :=
    fun _ _ hfields htext hnot hsub hkey =>
      ⟨htext hkey, hnot key hkey, hknown hfields (hsub hkey)⟩
  by_cases hlogin : type = "login".toList
  · subst hlogin
    exact hsplit ["username", "email", "password", "totp"] rfl (by simp [textKeys])
      (by simp [candidateKeys]) (by simp [RecordSchema.loginFields]) h
  by_cases hcard : type = "card".toList
  · subst hcard
    exact hsplit ["cardholderName", "number", "expiry", "securityCode", "pin"] rfl (by simp [textKeys])
      (by simp [candidateKeys]) (by simp [RecordSchema.cardFields]) h
  by_cases hidentity : type = "identity".toList
  · subst hidentity
    exact hsplit ["firstName", "lastName", "email", "phone", "birthDate", "street", "postalCode",
        "city", "country"] rfl (by simp [textKeys])
      (by simp [candidateKeys]) (by simp [RecordSchema.identityFields]) h
  by_cases hssh : type = "ssh_key".toList
  · subst hssh
    exact hsplit ["privateKey", "publicKey", "passphrase"] rfl (by simp [textKeys])
      (by simp [candidateKeys]) (by simp [RecordSchema.sshKeyFields]) h
  by_cases hapi : type = "api_key".toList
  · subst hapi
    exact hsplit ["keyId", "secret", "host"] rfl (by simp [textKeys])
      (by simp [candidateKeys]) (by simp [RecordSchema.apiKeyFields]) h
  by_cases hwifi : type = "wifi".toList
  · subst hwifi
    exact hsplit ["ssid", "password", "security"] rfl (by simp [textKeys])
      (by simp [candidateKeys]) (by simp [RecordSchema.wifiFields]) h
  rw [ownKeys, textLimits, if_neg hlogin, if_neg hcard, if_neg hidentity, if_neg hssh, if_neg hapi,
    if_neg hwifi, if_neg hwifi] at h
  cases h

/-! ### The fields of the parts -/

/-- The fields of the parts are of the type, each once. -/
structure Parts.Proper (type : Text) (parts : Parts) : Prop where
  nodup : (parts.fields.map (·.1)).Nodup
  own : ∀ key ∈ parts.fields.map (·.1), key ∈ ownKeys type

theorem Parts.Proper.takeEmail {type : Text} {parts : Parts} (h : parts.Proper type) :
    (takeEmail type parts).Proper type := by
  unfold Foreign.takeEmail
  split
  · rename_i hlogin
    obtain ⟨rfl, hemail⟩ := hlogin
    have hnone := (JsObject.get?_eq_none_iff _ _).1 (Option.isNone_iff_eq_none.1 hemail)
    cases parts.customFields.find? isEmailField with
    | none => exact h
    | some field =>
        have hkeys : (JsObject.set parts.fields "email" (.string field.value)).map (·.1) =
            parts.fields.map (·.1) ++ ["email"] := by
          rw [JsObject.set, if_neg hnone, List.map_append]
          rfl
        refine ⟨?_, ?_⟩
        · dsimp only
          rw [hkeys]
          exact List.nodup_append.2 ⟨h.nodup, List.nodup_singleton _, fun a ha b hb heq =>
            hnone (List.mem_singleton.1 hb ▸ heq ▸ ha)⟩
        · dsimp only
          rw [hkeys]
          intro key hkey
          rcases List.mem_append.1 hkey with hkey | hkey
          · exact h.own key hkey
          · obtain rfl := List.mem_singleton.1 hkey
            decide
  · exact h

theorem map_fst_given (fields : List (String × Option Json)) :
    ((fields.filterMap fun (key, value) => (given value).map (key, ·)).map (·.1)).Sublist
      (fields.map (·.1)) := by
  induction fields with
  | nil => exact .slnil
  | cons field fields ih =>
      obtain ⟨key, value⟩ := field
      cases hgiven : given value with
      | none =>
          rw [List.filterMap_cons_none (by simp [hgiven])]
          exact ih.cons _
      | some value' =>
          rw [List.filterMap_cons_some (b := (key, value')) (by simp [hgiven])]
          exact ih.cons_cons _

theorem ForeignRecord.Proper.partsOf {record : ForeignRecord} (h : record.Proper) :
    (partsOf P record).Proper record.type := by
  unfold Foreign.partsOf
  dsimp only
  refine Parts.Proper.takeEmail ?_
  rw [foldl_addWebsite]
  have hsub := map_fst_given record.fields
  exact ⟨hsub.nodup h.nodup, fun key hkey => h.own key (hsub.subset hkey)⟩

/-- The texts of the parts are those the record is made of, the note aside. -/
theorem mem_texts_partsOf (record : ForeignRecord) (value : Text) :
    value ∈ (partsOf P record).texts ↔ value ∈ givenTexts record.fields ∨
      value ∈ ((record.customFields.map (·.value)).filter fun value => trim value ≠ []) ∨
      value ∈ (record.websites.filter fun raw => trim raw ≠ [] && !isWebsite P.url raw).map trim := by
  unfold partsOf
  dsimp only
  rw [mem_texts_takeEmail, foldl_addWebsite, Parts.texts]
  have hgiven : (record.fields.filterMap fun (key, value) => (given value).map (key, ·)).filterMap
      (fun field => Json.text? field.2) = givenTexts record.fields := by
    rw [givenTexts, List.filterMap_filterMap]
    refine List.filterMap_congr ?_
    rintro ⟨key, value⟩ -
    cases hgiven : given value <;> simp [hgiven]
  have hnamed : (namedFields record.customFields).map (·.value) =
      (record.customFields.map (·.value)).filter fun value => trim value ≠ [] := by
    rw [namedFields, List.map_map, List.filter_map]
    rfl
  have hsites : ((record.websites.filter fun raw => trim raw ≠ [] && !isWebsite P.url raw).map
      fun raw => (⟨.text, "Website".toList, trim raw⟩ : CustomField)).map (·.value) =
      (record.websites.filter fun raw => trim raw ≠ [] && !isWebsite P.url raw).map trim := by
    rw [List.map_map]
    rfl
  dsimp only
  rw [hgiven, List.map_append, hnamed, hsites, List.mem_append, List.mem_append]

/-! ### The fields of the data -/

/-- Of keys that are there once, each is found with its value. -/
theorem lookup_eq_some_iff {κ β : Type} [DecidableEq κ] {entries : List (κ × β)}
    (hnodup : (entries.map (·.1)).Nodup) {key : κ} {value : β} :
    (entries.find? (·.1 = key)).map (·.2) = some value ↔ (key, value) ∈ entries := by
  induction entries with
  | nil => simp
  | cons entry entries ih =>
      rw [List.map_cons, List.nodup_cons] at hnodup
      obtain ⟨key', value'⟩ := entry
      rw [List.find?_cons, List.mem_cons]
      by_cases hkey : key' = key
      · subst hkey
        have hnot : (key', value) ∉ entries := fun hmem =>
          hnodup.1 (List.mem_map_of_mem (f := (·.1)) hmem)
        simp [hnot, eq_comm]
      · have hne : (key, value) ≠ (key', value') := fun heq => hkey (congrArg Prod.fst heq).symm
        simp [hkey, ih hnodup.2, hne]

theorem get?_eq_some_iff_mem {fields : JsObject} (hnodup : (fields.map (·.1)).Nodup) {key : String}
    {value : Json} : JsObject.get? fields key = some value ↔ (key, value) ∈ fields :=
  lookup_eq_some_iff hnodup

/-- A key that is none of the other parts' is one of the fields. -/
theorem get?_candidate {record : ForeignRecord} {parts : Parts} (hparts : parts.Proper record.type)
    {key : String} (hkey : key ∉ candidateKeys) :
    JsObject.get? (candidateOf P record parts) key = JsObject.get? parts.fields key := by
  simp only [candidateKeys, List.mem_cons, List.not_mem_nil, or_false, not_or] at hkey
  obtain ⟨htype, htitle, hsites, hdate, hnote, hfavorite, htags, hcustom⟩ := hkey
  unfold candidateOf
  simp only [get?_setIf, hsites, hdate, hnote, hfavorite, htags, hcustom, and_false, if_false]
  rw [get?_spread hparts.nodup]
  simp [JsObject.get?_cons, Ne.symm htype, Ne.symm htitle]

/-- The part that is put in under a key of its own is not one of the fields. -/
theorem get?_fields_of_candidateKey (P : Platform) {record : ForeignRecord} {parts : Parts}
    (hparts : parts.Proper record.type) {key : String} (hkey : key ∈ candidateKeys) :
    JsObject.get? parts.fields key = none :=
  (JsObject.get?_eq_none_iff _ _).2 fun hmem =>
    (@ownKeys_spec P _ _ (hparts.own key hmem)).2.1 hkey

theorem get?_note {record : ForeignRecord} {parts : Parts} (hparts : parts.Proper record.type) :
    JsObject.get? (candidateOf P record parts) "note" =
      if trim (record.note.getD []) ≠ [] then some (.string (record.note.getD [])) else none := by
  have hfields := get?_fields_of_candidateKey P hparts (show "note" ∈ _ by simp [candidateKeys])
  unfold candidateOf
  simp [get?_setIf, get?_spread hparts.nodup, JsObject.get?_cons, hfields]

theorem get?_customFields {record : ForeignRecord} {parts : Parts}
    (hparts : parts.Proper record.type) :
    JsObject.get? (candidateOf P record parts) "customFields" =
      if parts.customFields ≠ [] then some (.array (parts.customFields.map customFieldJson))
      else none := by
  have hfields := get?_fields_of_candidateKey P hparts
    (show "customFields" ∈ _ by simp [candidateKeys])
  unfold candidateOf
  simp [get?_setIf, get?_spread hparts.nodup, JsObject.get?_cons, hfields]

theorem get?_websites {record : ForeignRecord} {parts : Parts}
    (hparts : parts.Proper record.type) :
    JsObject.get? (candidateOf P record parts) "websites" =
      if record.type = "login".toList ∧ parts.websites ≠ [] then
        some (.array (parts.websites.eraseDups.map fun value => .object [("value", .string value)]))
      else none := by
  have hfields := get?_fields_of_candidateKey P hparts
    (show "websites" ∈ _ by simp [candidateKeys])
  unfold candidateOf
  simp [get?_setIf, get?_spread hparts.nodup, JsObject.get?_cons, hfields]

end Parts

/-! ### What is held -/

section Held

variable {P : Platform} {record : ForeignRecord} {data : JsObject}

/-- A key that is known stays in the data, with what the candidate has there. -/
theorem get?_data (h : finishRecord P record = .ok data) {key : String}
    (hkey : key ∈ knownKeys P record.type) :
    JsObject.get? data key = JsObject.get? (candidateOf P record (partsOf P record)) key := by
  rw [(finishRecord_eq_ok h).2.1]
  exact get?_filter_known hkey

/-- Whatever the data has under a key, the candidate had. -/
theorem get?_candidate_of_data (h : finishRecord P record = .ok data) {key : String} {value : Json}
    (hvalue : JsObject.get? data key = some value) :
    JsObject.get? (candidateOf P record (partsOf P record)) key = some value := by
  by_cases hkey : key ∈ knownKeys P record.type
  · rw [← get?_data h hkey]
    exact hvalue
  · rw [(finishRecord_eq_ok h).2.1] at hvalue
    have hnone : JsObject.get? ((candidateOf P record (partsOf P record)).filter
        (·.1 ∈ knownKeys P record.type)) key = none := by
      refine (JsObject.get?_eq_none_iff _ _).2 fun hmem => ?_
      obtain ⟨field, hfield, rfl⟩ := List.mem_map.1 hmem
      exact hkey (of_decide_eq_true (List.mem_filter.1 hfield).2)
    rw [hnone] at hvalue
    cases hvalue

/-- The keys every record has are known. -/
theorem mem_knownKeys_of_base {key : String}
    (hkey : key ∈ RecordSchema.baseRecordShape.map (·.1)) : key ∈ knownKeys P record.type := by
  rw [knownKeys, List.map_append]
  exact List.mem_cons_of_mem _ (List.mem_append_left _ hkey)

theorem isCustomValue_iff (hp : record.Proper) (h : finishRecord P record = .ok data) (value : Text) :
    IsCustomValue data value ↔ value ∈ (partsOf P record).customFields.map (·.value) := by
  have hkey : "customFields" ∈ knownKeys P record.type :=
    mem_knownKeys_of_base (by simp [RecordSchema.baseRecordShape])
  unfold IsCustomValue
  rw [get?_data h hkey, get?_customFields hp.partsOf]
  constructor
  · rintro ⟨items, hitems, fields, hmem, hvalue⟩
    split_ifs at hitems
    obtain rfl := Json.array.inj (Option.some.inj hitems)
    obtain ⟨field, hfield, heq⟩ := List.mem_map.1 hmem
    obtain rfl := Json.object.inj heq
    refine List.mem_map.2 ⟨field, hfield, ?_⟩
    simpa [JsObject.get?_cons] using hvalue
  · intro hmem
    obtain ⟨field, hfield, rfl⟩ := List.mem_map.1 hmem
    refine ⟨_, if_pos (List.ne_nil_of_mem hfield), _, List.mem_map_of_mem hfield, ?_⟩
    simp [JsObject.get?_cons]

/-- The note aside, no key of a text has another part. -/
theorem not_candidateKey {key : String} (htext : key ∈ textKeys) (hnote : key ≠ "note") :
    key ∉ candidateKeys := by
  have hall : ∀ key ∈ candidateKeys, key ≠ "note" → key ∉ textKeys := by
    simp [candidateKeys, textKeys]
  exact fun hkey => hall key hkey hnote htext

/-- A text of the fields of the parts is one of the data's own. -/
theorem ownText_iff (hp : record.Proper) (h : finishRecord P record = .ok data) (value : Text) :
    (∃ key ∈ textKeys, JsObject.get? data key = some (.string value)) ↔
      value ∈ (partsOf P record).fields.filterMap (fun field => Json.text? field.2) ∨
        trim (record.note.getD []) ≠ [] ∧ record.note.getD [] = value := by
  have hparts := hp.partsOf (P := P)
  constructor
  · rintro ⟨key, htext, hvalue⟩
    have hcandidate := get?_candidate_of_data h hvalue
    by_cases hnote : key = "note"
    · subst hnote
      rw [get?_note hparts] at hcandidate
      split_ifs at hcandidate with hblank
      exact .inr ⟨hblank, Json.string.inj (Option.some.inj hcandidate)⟩
    · have hkey := not_candidateKey htext hnote
      rw [get?_candidate hparts hkey] at hcandidate
      exact .inl (List.mem_filterMap.2 ⟨_, (get?_eq_some_iff_mem hparts.nodup).1 hcandidate, rfl⟩)
  · rintro (hmem | ⟨hblank, rfl⟩)
    · obtain ⟨⟨key, json⟩, hmem, hjson⟩ := List.mem_filterMap.1 hmem
      have hjson : json = .string value := by
        cases json with
        | string text => exact congrArg Json.string (Option.some.inj hjson)
        | _ => cases hjson
      subst hjson
      have hspec := @ownKeys_spec P _ _ (hparts.own key (List.mem_map_of_mem hmem))
      refine ⟨key, hspec.1, ?_⟩
      rw [get?_data h hspec.2.2, get?_candidate hparts hspec.2.1]
      exact (get?_eq_some_iff_mem hparts.nodup).2 hmem
    · refine ⟨"note", by simp [textKeys], ?_⟩
      rw [get?_data h (mem_knownKeys_of_base (by simp [RecordSchema.baseRecordShape])),
        get?_note hparts, if_pos hblank]

/-- **An imported record holds the texts it is made of**, and no others. -/
theorem holdsText_iff (hp : record.Proper) (h : finishRecord P record = .ok data) (value : Text) :
    HoldsText data value ↔ value ∈ record.texts P := by
  unfold HoldsText
  rw [ownText_iff hp h, isCustomValue_iff hp h]
  have hparts := @mem_texts_partsOf P record value
  rw [Parts.texts, List.mem_append] at hparts
  have hnote : trim (record.note.getD []) ≠ [] ∧ record.note.getD [] = value ↔
      value ∈ record.note.toList.filter fun note => trim note ≠ [] := by
    cases record.note with
    | none =>
        have hnil : trim [] = [] := rfl
        simp [hnil]
    | some note =>
        simp only [Option.getD_some, Option.toList_some, List.mem_filter, List.mem_singleton,
          decide_eq_true_eq]
        constructor
        · rintro ⟨hblank, rfl⟩
          exact ⟨rfl, hblank⟩
        · rintro ⟨rfl, hblank⟩
          exact ⟨hblank, rfl⟩
  rw [hnote, ForeignRecord.texts]
  simp only [List.mem_append]
  tauto

theorem websites_partsOf (record : ForeignRecord) : (partsOf P record).websites = record.sites P := by
  unfold partsOf
  dsimp only
  rw [foldl_addWebsite]
  unfold takeEmail ForeignRecord.sites
  split
  · split <;> rfl
  · rfl

/-- **An imported login has the websites it is made of**, and no others; no other type has any. -/
theorem hasWebsite_iff (hp : record.Proper) (h : finishRecord P record = .ok data) (site : Text) :
    HasWebsite data site ↔ record.type = "login".toList ∧ site ∈ record.sites P := by
  have hcandidate := @get?_websites P _ _ (hp.partsOf (P := P))
  rw [websites_partsOf] at hcandidate
  unfold HasWebsite
  constructor
  · rintro ⟨items, hitems, hmem⟩
    have hvalue := get?_candidate_of_data h hitems
    rw [hcandidate] at hvalue
    split_ifs at hvalue with hlogin
    obtain rfl := Json.array.inj (Option.some.inj hvalue)
    obtain ⟨site', hsite', heq⟩ := List.mem_map.1 hmem
    obtain rfl : site' = site := by simpa using heq
    exact ⟨hlogin.1, List.mem_eraseDups.1 hsite'⟩
  · rintro ⟨htype, hsite⟩
    have hkey : "websites" ∈ knownKeys P record.type := by
      have hlogin : knownKeys P "login".toList = "type" :: (RecordSchema.baseRecordShape ++
        RecordSchema.loginFields (isWebsite P.url)).map (·.1) := rfl
      rw [htype, hlogin]
      simp [RecordSchema.baseRecordShape, RecordSchema.loginFields]
    refine ⟨(record.sites P).eraseDups.map fun value => .object [("value", .string value)], ?_,
      List.mem_map.2 ⟨site, List.mem_eraseDups.2 hsite, rfl⟩⟩
    rw [get?_data h hkey, hcandidate, if_pos ⟨htype, List.ne_nil_of_mem hsite⟩]

end Held

/-! ### Values of an item -/

/-- `trim` leaves nothing of white space alone. -/
theorem trim_ne_nil_iff (text : Text) : trim text ≠ [] ↔ ∃ c ∈ text, isStrWhiteSpace c = false := by
  constructor
  · intro h
    obtain ⟨c, hc⟩ := List.exists_mem_of_ne_nil _ h
    by_contra hall
    push Not at hall
    have hspace : ∀ c ∈ text, isStrWhiteSpace c = true := fun c hc => by simpa using hall c hc
    have hnil : text.dropWhile isStrWhiteSpace = [] := List.dropWhile_eq_nil_iff.2 hspace
    rw [trim, hnil] at hc
    cases hc
  · rintro ⟨c, hc, hspace⟩ hnil
    have hdrop : text.dropWhile isStrWhiteSpace = [] := by
      have hrev : (text.dropWhile isStrWhiteSpace).reverse.dropWhile isStrWhiteSpace = [] :=
        List.reverse_eq_nil_iff.1 hnil
      by_contra hne
      have hall := List.dropWhile_eq_nil_iff.1 hrev
      have hhead := List.head_dropWhile_not isStrWhiteSpace hne
      rw [hall _ (List.mem_reverse.2 (List.head_mem hne))] at hhead
      cases hhead
    rw [List.dropWhile_eq_nil_iff.1 hdrop c hc] at hspace
    cases hspace

/-- A value of an item, by the way a record can hold it. -/
inductive ItemValue
  | text (value : Text)
  | website (raw : Text)
  /-- A line, or a word, of a combined text. -/
  | part (value : Text)
  | expiryMonth (value : Text)
  | expiryYear (value : Text)
  /-- A day, in seconds. -/
  | date (seconds : ℤ)
  /-- A month of a year: 202712. -/
  | monthYear (n : ℤ)
  /-- The security of a network: `wpa2p`. -/
  | security (value : Text)
  deriving DecidableEq, Repr

def ItemValue.NonBlank : ItemValue → Prop
  | .text value => trim value ≠ []
  | .website raw => trim raw ≠ []
  | .part value => trim value ≠ []
  | .expiryMonth value => trim value ≠ []
  | .expiryYear value => trim value ≠ []
  | .date _ => True
  | .monthYear _ => True
  | .security value => trim value ≠ []

/-! ### Reading a value back -/

/-- A text stands in another one, between spaces and line ends. -/
def IsPart (value text : Text) : Prop :=
  ∃ before after, text = before ++ value ++ after ∧ (∀ c ∈ before.getLast?, c ∈ [' ', '\n']) ∧
    ∀ c ∈ after.head?, c ∈ [' ', '\n']

/-- An address a record has for a website: as it was typed, or with a scheme. -/
def IsSiteOf (raw site : Text) : Prop := site = trim raw ∨ site = "https://".toList ++ trim raw

/-- The digits of an integer. -/
def intText (n : ℤ) : Text :=
  (if n < 0 then ['-'] else []) ++ Nat.toDigits 10 n.natAbs

/-- A digit's value. -/
def digitOf (c : Char) : Option ℕ := if c.isDigit then some (c.toNat - '0'.toNat) else none

/-- The month and the year of an expiry date, as `cardExpiryStatus` reads them: "MM/YY", the year in
this century. -/
def expiryOf : Text → Option ℤ
  | [a, b, '/', c, d] => do
    let month := 10 * (← digitOf a) + (← digitOf b)
    let year := 2000 + 10 * (← digitOf c) + (← digitOf d)
    if 1 ≤ month ∧ month ≤ 12 then some (100 * year + month) else none
  | _ => none

/-- The day of an ISO text. -/
def dayOf (iso : Text) : Text := iso.takeWhile (· ≠ 'T')

/-- The securities whose variant for an enterprise a record does not tell from the one for a person. -/
def personal : List Text := ["wpa2".toList, "wpa3".toList]

section Values

variable (P : Platform)

/-- A value is held by what holds some texts and has some websites: as it is, or as a text it can be
read back from. -/
def ItemValue.HeldBy (holds hasSite : Text → Prop) : ItemValue → Prop
  | .text value => holds value
  | .website raw => (∃ site, hasSite site ∧ IsSiteOf raw site) ∨ holds (trim raw)
  | .part value => ∃ text, holds text ∧ IsPart value text
  | .expiryMonth value =>
    ∃ text, holds text ∧ (value ++ ['/'] <+: text ∨
      utf16Length value = 1 ∧ '0' :: value ++ ['/'] <+: text)
  | .expiryYear value =>
    ∃ text, holds text ∧ ('/' :: value <:+ text ∨
      ∃ rest, value = '2' :: '0' :: rest ∧ utf16Length rest = 2 ∧ '/' :: rest <:+ text)
  | .date seconds => ∃ iso, P.isoDate (seconds * 1000) = some iso ∧ holds (dayOf iso)
  | .monthYear n => holds (intText n) ∨ ∃ text, holds text ∧ expiryOf text = some n
  | .security value => holds value ∨ ∃ text ∈ personal, holds text ∧ value = text ++ ['p']

/-- The short form of a value says all of it: a year of this century, a day of four-digit years, a
security without its enterprise variant. -/
def ItemValue.isWhole : ItemValue → Bool
  | .expiryYear value =>
    utf16Length value ≤ 2 || "20".toList.isPrefixOf value && utf16Length value = 4
  | .date seconds => (P.isoDate (seconds * 1000)).all fun iso => utf16Length (dayOf iso) = 10
  | .monthYear n => 2000 ≤ n / 100 && n / 100 ≤ 2099 && 1 ≤ n % 100 && n % 100 ≤ 12
  | .security value => value ∉ personal.map (· ++ ['e'])
  | _ => true

/-- The values whose short form does not say all of them. -/
def cutShort (values : List ItemValue) : List ItemValue := values.filter (!·.isWhole P)

/-- A record holds a value. -/
def Held (data : JsObject) (value : ItemValue) : Prop :=
  value.HeldBy P (HoldsText data) (HasWebsite data)

/-- A text that is neither missing nor empty. -/
def nonempty (value : Option Text) : Option Text := value.filter (· ≠ [])

/-- Texts that are not missing. -/
def textValues (texts : List (Option Text)) : List ItemValue := (texts.filterMap id).map .text

/-- The texts and the urls an importer reads of an item. -/
structure ItemReads where
  texts : List Text
  urls : List Text

/-- A value is one of those that are read, or stands in one of them. -/
def Stands (reads : ItemReads) (value : ItemValue) : Prop :=
  value.HeldBy P
    (fun text => text ∈ reads.texts ∨
      ∃ raw, trim raw ≠ [] ∧ raw ∈ reads.urls ∧ isWebsite P.url raw = false ∧ trim raw = text)
    (fun site => ∃ raw, trim raw ≠ [] ∧ raw ∈ reads.urls ∧ isWebsite P.url raw = true ∧
      normalizeWebsite raw = site)

/-- A record holds all of some values that are not blank. -/
def HoldsAll (data : JsObject) (values : List ItemValue) : Prop :=
  ∀ value ∈ values, value.NonBlank → Held P data value

/-- All of some values that are not blank stand in what is read. -/
def AllStand (reads : ItemReads) (values : List ItemValue) : Prop :=
  ∀ value ∈ values, value.NonBlank → Stands P reads value

/-- The record is made of what is read, blank texts aside. -/
structure ForeignRecord.MadeOf (record : ForeignRecord) (reads : ItemReads) : Prop where
  texts : ∀ text, trim text ≠ [] → (text ∈ givenTexts record.fields ∨ record.note = some text ∨
    text ∈ record.customFields.map (·.value) ↔ text ∈ reads.texts)
  urls : ∀ raw, trim raw ≠ [] → (raw ∈ record.websites ↔ raw ∈ reads.urls)
  login : record.websites ≠ [] → record.type = "login".toList

end Values

section Stands

variable {P : Platform}

theorem trim_trim (text : Text) : trim (trim text) = trim text :=
  trim_of_trimmed (trimmed_trim text)

theorem normalizeWebsite_isSiteOf (raw : Text) : IsSiteOf raw (normalizeWebsite raw) := by
  unfold normalizeWebsite
  dsimp only
  split_ifs
  · exact .inr rfl
  · exact .inl rfl

theorem expiryOf_slash {text : Text} {n : ℤ} (h : expiryOf text = some n) : '/' ∈ text := by
  unfold expiryOf at h
  split at h
  · simp
  · cases h

theorem isStrWhiteSpace_of_isDigit {c : Char} (h : c.isDigit = true) :
    isStrWhiteSpace c = false := by
  have hdigit : 48 ≤ c.toNat ∧ c.toNat ≤ 57 := Char.isDigit_iff_toNat.1 h
  simp [isStrWhiteSpace]
  omega

theorem intText_ne_blank (n : ℤ) : trim (intText n) ≠ [] := by
  have hdigits : Nat.toDigits 10 n.natAbs ≠ [] := Nat.toDigits_ne_nil
  obtain ⟨c, hc⟩ := List.exists_mem_of_ne_nil _ hdigits
  have hdigit := Nat.isDigit_of_mem_toDigits (by decide) (by decide) hc
  refine (trim_ne_nil_iff _).2 ⟨c, List.mem_append_right _ hc, ?_⟩
  exact isStrWhiteSpace_of_isDigit hdigit

/-- Blank texts do not matter for a value that is none. -/
theorem ItemValue.heldBy_congr {holds holds' hasSite hasSite' : Text → Prop} {value : ItemValue}
    (hvalue : value.NonBlank) (hholds : ∀ text, trim text ≠ [] → (holds text ↔ holds' text))
    (hsite : ∀ site, hasSite site ↔ hasSite' site) :
    value.HeldBy P holds hasSite ↔ value.HeldBy P holds' hasSite' := by
  have hexists : ∀ {p : Text → Prop}, (∀ text, p text → trim text ≠ []) →
      ((∃ text, holds text ∧ p text) ↔ ∃ text, holds' text ∧ p text) := fun hp =>
    exists_congr fun text => and_congr_left fun h => hholds text (hp text h)
  have hslash : ∀ {text : Text}, '/' ∈ text → trim text ≠ [] := fun h =>
    (trim_ne_nil_iff _).2 ⟨'/', h, by decide⟩
  cases value with
  | text value => exact hholds value hvalue
  | website raw =>
      exact or_congr (exists_congr fun site => and_congr_left fun _ => hsite site)
        (hholds _ (by rwa [trim_trim]))
  | part value =>
      refine hexists fun text hpart => ?_
      obtain ⟨before, after, rfl, -⟩ := hpart
      obtain ⟨c, hc, hspace⟩ := (trim_ne_nil_iff value).1 hvalue
      exact (trim_ne_nil_iff _).2 ⟨c, by simp [hc], hspace⟩
  | expiryMonth value =>
      refine hexists fun text hstart => hslash ?_
      rcases hstart with hstart | ⟨-, hstart⟩ <;>
        exact hstart.subset (List.mem_append_right _ List.mem_cons_self)
  | expiryYear value =>
      refine hexists fun text hend => hslash ?_
      rcases hend with hend | ⟨rest, -, -, hend⟩ <;> exact hend.subset List.mem_cons_self
  | date seconds =>
      exact exists_congr fun iso => and_congr_right fun hiso => hholds _ (P.dated _ _ hiso)
  | monthYear n =>
      exact or_congr (hholds _ (intText_ne_blank n))
        (hexists fun text htext => hslash (expiryOf_slash htext))
  | security value =>
      have hall : ∀ text ∈ personal, trim text ≠ [] := by decide
      exact or_congr (hholds value hvalue) (exists_congr fun text => and_congr_right fun htext =>
        and_congr_left fun _ => hholds text (hall text htext))

theorem mem_sites_iff {record : ForeignRecord} {site : Text} :
    site ∈ record.sites P ↔ ∃ raw, trim raw ≠ [] ∧ raw ∈ record.websites ∧
      isWebsite P.url raw = true ∧ normalizeWebsite raw = site := by
  unfold ForeignRecord.sites
  rw [List.mem_map]
  refine exists_congr fun raw => ?_
  rw [List.mem_filter, Bool.and_eq_true, decide_eq_true_eq]
  tauto

theorem mem_texts_iff {record : ForeignRecord} {text : Text} (htext : trim text ≠ []) :
    text ∈ record.texts P ↔
      (text ∈ givenTexts record.fields ∨ record.note = some text ∨
        text ∈ record.customFields.map (·.value)) ∨
      ∃ raw, trim raw ≠ [] ∧ raw ∈ record.websites ∧ isWebsite P.url raw = false ∧
        trim raw = text := by
  have hnote : text ∈ (record.note.toList.filter fun note => trim note ≠ []) ↔
      record.note = some text := by
    rw [List.mem_filter, decide_eq_true_eq, Option.mem_toList]
    exact and_iff_left htext
  have hcustom : text ∈ ((record.customFields.map (·.value)).filter fun value => trim value ≠ []) ↔
      text ∈ record.customFields.map (·.value) := by
    rw [List.mem_filter, decide_eq_true_eq]
    exact and_iff_left htext
  have hsites : text ∈ (record.websites.filter fun raw =>
        trim raw ≠ [] && !isWebsite P.url raw).map trim ↔
      ∃ raw, trim raw ≠ [] ∧ raw ∈ record.websites ∧ isWebsite P.url raw = false ∧
        trim raw = text := by
    rw [List.mem_map]
    refine exists_congr fun raw => ?_
    rw [List.mem_filter, Bool.and_eq_true, decide_eq_true_eq, Bool.not_eq_true']
    tauto
  unfold ForeignRecord.texts
  rw [List.mem_append, List.mem_append, List.mem_append, hnote, hcustom, hsites, or_assoc, or_assoc,
    or_assoc, or_assoc]

/-- **An imported record holds what it is made of**: a value is held where it stands in what is
read of the item. -/
theorem held_iff_stands {record : ForeignRecord} {data : JsObject} {reads : ItemReads}
    {value : ItemValue} (hp : record.Proper) (h : finishRecord P record = .ok data)
    (hmade : record.MadeOf reads) (hvalue : value.NonBlank) :
    Held P data value ↔ Stands P reads value := by
  refine ItemValue.heldBy_congr hvalue (fun text htext => ?_) (fun site => ?_)
  · rw [holdsText_iff hp h, mem_texts_iff htext, hmade.texts text htext]
    refine or_congr_right (exists_congr fun raw => and_congr_right fun hraw => ?_)
    rw [hmade.urls raw hraw]
  · rw [hasWebsite_iff hp h, mem_sites_iff]
    constructor
    · rintro ⟨-, raw', hraw', hmem, hsite⟩
      exact ⟨raw', hraw', (hmade.urls raw' hraw').1 hmem, hsite⟩
    · rintro ⟨raw', hraw', hmem, hsite⟩
      have hrecord := (hmade.urls raw' hraw').2 hmem
      exact ⟨hmade.login (List.ne_nil_of_mem hrecord), raw', hraw', hrecord, hsite⟩

/-- Every value of an item is held where those that are not read, and those whose short form does
not say all, stand in what is read. -/
theorem holdsAll_iff {record : ForeignRecord} {data : JsObject} {reads : ItemReads}
    {values unread : List ItemValue} (hp : record.Proper) (h : finishRecord P record = .ok data)
    (hmade : record.MadeOf reads) (hunread : ∀ value ∈ unread, value ∈ values)
    (hread : ∀ value ∈ values, value.NonBlank → value.isWhole P = true →
      value ∈ unread ∨ Stands P reads value) :
    HoldsAll P data values ↔ AllStand P reads (unread ++ cutShort P values) := by
  constructor
  · intro hheld value hmem hvalue
    have hin : value ∈ values := (List.mem_append.1 hmem).elim (hunread value)
      fun hcut => (List.mem_filter.1 hcut).1
    exact (held_iff_stands hp h hmade hvalue).1 (hheld value hin hvalue)
  · intro hstands value hmem hvalue
    refine (held_iff_stands hp h hmade hvalue).2 ?_
    cases hwhole : value.isWhole P with
    | false =>
        exact hstands value (List.mem_append_right _ (List.mem_filter.2 ⟨hmem, by simp [hwhole]⟩))
          hvalue
    | true =>
        rcases hread value hmem hvalue hwhole with hun | hstand
        · exact hstands value (List.mem_append_left _ hun) hvalue
        · exact hstand

/-- The texts of fields that are not empty. -/
theorem mem_givenTexts {fields : List (String × Option Text)} {text : Text} :
    text ∈ givenTexts (textFields fields) ↔ text ≠ [] ∧ some text ∈ fields.map (·.2) := by
  have hgiven : ∀ value : Option Text, (given (value.map .string)).bind Json.text? =
      value.filter (· ≠ []) := by
    rintro (_ | _ | _) <;> rfl
  unfold givenTexts textFields
  rw [List.filterMap_map, List.mem_filterMap, List.mem_map]
  constructor
  · rintro ⟨⟨key, value⟩, hmem, hvalue⟩
    obtain ⟨rfl, hne⟩ := Option.filter_eq_some_iff.1 ((hgiven value).symm.trans hvalue)
    exact ⟨of_decide_eq_true hne, _, hmem, rfl⟩
  · rintro ⟨hne, ⟨key, value⟩, hmem, rfl⟩
    exact ⟨_, hmem, (hgiven _).trans (Option.filter_eq_some_iff.2 ⟨rfl, decide_eq_true hne⟩)⟩

/-- A text that is not empty is found where a missing one would be empty. -/
theorem getD_eq_iff {text : Text} (hne : text ≠ []) (value : Option Text) :
    value.getD [] = text ↔ value = some text := by
  cases value with
  | none => exact ⟨fun h => absurd h.symm hne, fun h => by cases h⟩
  | some value => exact ⟨fun h => congrArg some h, fun h => Option.some.inj h⟩

theorem mem_filterMap_id {texts : List (Option Text)} {text : Text} :
    text ∈ texts.filterMap id ↔ some text ∈ texts := by
  rw [List.mem_filterMap]
  simp

theorem mem_textValues {texts : List (Option Text)} {value : ItemValue} :
    value ∈ textValues texts ↔ ∃ text, some text ∈ texts ∧ .text text = value := by
  unfold textValues
  rw [List.mem_map]
  exact exists_congr fun text => and_congr_left fun _ => mem_filterMap_id

/-- A record has its fields of the type, each once, where their keys are so. -/
theorem proper_of_textFields (keys : List String) {record : ForeignRecord}
    {fields : List (String × Option Text)} (hfields : record.fields = textFields fields)
    (hkeys : fields.map (·.1) = keys) (hnodup : keys.Nodup) (hown : keys ⊆ ownKeys record.type) :
    record.Proper := by
  have hmap : record.fields.map (·.1) = keys := by
    rw [hfields, textFields, List.map_map, ← hkeys]
    rfl
  exact ⟨hmap ▸ hnodup, fun key hkey => hown (hmap ▸ hkey)⟩

theorem IsPart.refl (text : Text) : IsPart text text :=
  ⟨[], [], by simp, by simp, by simp⟩

theorem IsPart.trans {a b c : Text} (hab : IsPart a b) (hbc : IsPart b c) : IsPart a c := by
  obtain ⟨before, after, rfl, hbefore, hafter⟩ := hab
  obtain ⟨before', after', rfl, hbefore', hafter'⟩ := hbc
  refine ⟨before' ++ before, after ++ after', by simp, fun ch hch => ?_, fun ch hch => ?_⟩
  · rw [List.getLast?_append] at hch
    cases hlast : before.getLast? with
    | none => exact hbefore' ch (by simpa [hlast] using hch)
    | some last => exact hbefore ch (by simpa [hlast] using hch)
  · rw [List.head?_append] at hch
    cases hhead : after.head? with
    | none => exact hafter' ch (by simpa [hhead] using hch)
    | some head => exact hafter ch (by simpa [hhead] using hch)

/-- A part is in the text that joins it with others. -/
theorem isPart_intercalate {part : Text} {sep : Char} (hsep : sep ∈ [' ', '\n'])
    {parts : List Text} (h : part ∈ parts) : IsPart part ([sep].intercalate parts) := by
  induction parts with
  | nil => cases h
  | cons first parts ih =>
      cases parts with
      | nil =>
          obtain rfl := List.mem_singleton.1 h
          simpa using IsPart.refl part
      | cons second parts =>
          have hcons : [sep].intercalate (first :: second :: parts) =
              first ++ sep :: [sep].intercalate (second :: parts) := by
            simp [List.intercalate, List.intersperse]
          rw [hcons]
          rcases List.mem_cons.1 h with rfl | h
          · exact ⟨[], sep :: [sep].intercalate (second :: parts), by simp, by simp,
              by simpa using hsep⟩
          · refine (ih h).trans ⟨first ++ [sep], [], by simp, ?_, by simp⟩
            simpa using hsep

/-- What is read stands there. -/
theorem stands_text {reads : ItemReads} {text : Text} (h : text ∈ reads.texts) :
    Stands P reads (.text text) :=
  .inl h

theorem stands_part {reads : ItemReads} {text part : Text} (h : text ∈ reads.texts)
    (hpart : IsPart part text) : Stands P reads (.part part) :=
  ⟨text, .inl h, hpart⟩

theorem stands_website {reads : ItemReads} {raw : Text} (h : raw ∈ reads.urls)
    (hraw : trim raw ≠ []) : Stands P reads (.website raw) := by
  cases hsite : isWebsite P.url raw with
  | true => exact .inl ⟨_, ⟨raw, hraw, h, hsite, rfl⟩, normalizeWebsite_isSiteOf raw⟩
  | false => exact .inr (.inr ⟨raw, hraw, h, hsite, rfl⟩)

end Stands

end Foreign

end Passmgr
