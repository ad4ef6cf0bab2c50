/-
# What a merge of valid records may hold

A merge takes each field whole from one head, so it passes the checks of its fields where the heads
do.  Two limits are about more than one field's value and need not hold: the tags of both heads
together, and the size of the payload, which the resolver refuses.

Main results:

* `field_mergeFields` — a merge is valid field by field, tags aside;
* `mem_mergedTags`, `tag_normalizeTag` — its tags are valid one by one;
* `mergeRecord_closed` — a merge is valid unless it has too many tags, and the resolver answers unless
  its payload is too large.
-/

import Passmgr.ResolveConflict

set_option relaxedAutoImplicit false
set_option autoImplicit false

namespace Passmgr

open IdealCipher (Ciphers wordCiphers)
open JsNumber (isStrWhiteSpace trim)
open RecordSchema

/-! ### Normalized tags -/

section NormalizedTags

/-- A space is one unit, and no character is less. -/
theorem utf16Length_collapseSpaces (inSpace : Bool) (text : Text) :
    utf16Length (collapseSpaces inSpace text) ≤ utf16Length text := by
  induction text generalizing inSpace with
  | nil => exact le_rfl
  | cons c cs ih =>
      unfold collapseSpaces
      rw [utf16Length_cons c cs]
      split
      · split
        · have hrest := ih true
          split <;> omega
        · rw [utf16Length_cons, if_pos (by decide)]
          have hrest := ih true
          split <;> omega
      · rw [utf16Length_cons]
        have hrest := ih false
        omega

theorem utf16Length_normalizeTag (tag : Text) : utf16Length (normalizeTag tag) ≤ utf16Length tag :=
  (utf16Length_collapseSpaces false _).trans (utf16Length_trim tag)

variable {lowerCase : Text → Text}

theorem mem_normalizeTags {tags : List Text} {tag : Text} (h : tag ∈ normalizeTags lowerCase tags) :
    ∃ raw ∈ tags, tag = normalizeTag raw ∧ tag ≠ [] := by
  unfold normalizeTags at h
  induction tags using List.reverseRecOn with
  | nil => cases h
  | append_singleton tags raw ih =>
      rw [List.foldl_append, List.foldl_cons, List.foldl_nil] at h
      have hkept : tag ∈ tags.foldl (addTag lowerCase) [] →
          ∃ other ∈ tags ++ [raw], tag = normalizeTag other ∧ tag ≠ [] := by
        intro hmem
        obtain ⟨other, hother, hrest⟩ := ih hmem
        exact ⟨other, List.mem_append_left _ hother, hrest⟩
      unfold addTag at h
      dsimp only at h
      split at h
      · exact hkept h
      · next hadd =>
          rcases List.mem_append.1 h with h | h
          · exact hkept h
          · rw [List.mem_singleton.1 h]
            exact ⟨raw, by simp, rfl, (not_or.1 hadd).1⟩

/-- A merged tag is a head's, normalized. -/
theorem mem_mergedTags {R : JsRuntime} {base «local» remote : Option Json} {tag : Text}
    (h : tag ∈ mergedTags R base «local» remote) :
    ∃ raw ∈ asStrings «local» ++ asStrings remote, tag = normalizeTag raw ∧ tag ≠ [] := by
  unfold mergedTags at h
  obtain ⟨other, hother, rfl, hne⟩ := mem_normalizeTags (List.mem_filter.1 h).1
  rcases List.mem_append.1 hother with hother | hother
  · obtain ⟨raw, hraw, rfl, -⟩ := mem_normalizeTags hother
    exact ⟨raw, List.mem_append_left _ hraw, normalizeTag_idem raw, hne⟩
  · obtain ⟨raw, hraw, rfl, -⟩ := mem_normalizeTags hother
    exact ⟨raw, List.mem_append_right _ hraw, normalizeTag_idem raw, hne⟩

/-- A valid tag that is not blank stays valid. -/
theorem tag_normalizeTag {raw : Text} (hne : normalizeTag raw ≠ [])
    (hraw : utf16Length raw ≤ maxTagLength) : tag (.string (normalizeTag raw)) = true := by
  unfold tag RecordSchema.string
  rw [Bool.and_eq_true_iff]
  exact ⟨decide_eq_true (utf16Length_pos hne),
    decide_eq_true ((utf16Length_normalizeTag raw).trans hraw)⟩

end NormalizedTags

/-! ### The fields of a merge -/

section Closure

variable {R : JsRuntime} {isWebsite : Text → Bool} {base : JsObject}
  {«local» remote : List MergeVersion}

/-- What the schema names: no `type`, and the tags and the password's date with one check each. -/
structure NamesFields (shape : List (String × FieldCheck)) : Prop where
  notType : ∀ field ∈ shape, field.1 ≠ "type"
  notVersion : ∀ field ∈ shape, field.1 ≠ "schemaVersion"
  tags : ∀ field ∈ shape, field.1 = tagsField → field.2 = RecordSchema.optional (array tag maxTags)
  date : ∀ field ∈ shape, field.1 = passwordDateField → field.2 = passwordChangedAt

theorem NamesFields.append {shape shape' : List (String × FieldCheck)} (h : NamesFields shape)
    (h' : NamesFields shape') : NamesFields (shape ++ shape') where
  notType field hfield := (List.mem_append.1 hfield).elim (h.notType field) (h'.notType field)
  notVersion field hfield :=
    (List.mem_append.1 hfield).elim (h.notVersion field) (h'.notVersion field)
  tags field hfield := (List.mem_append.1 hfield).elim (h.tags field) (h'.tags field)
  date field hfield := (List.mem_append.1 hfield).elim (h.date field) (h'.date field)

theorem namesFields_base : NamesFields baseRecordShape := by
  constructor <;> simp [baseRecordShape, tagsField, passwordDateField]

theorem namesFields_type {type : Text} {fields : List (String × FieldCheck)}
    (h : typeFields isWebsite type = some fields) : NamesFields fields := by
  unfold typeFields at h
  split at h
  · obtain rfl := Option.some.inj h
    constructor <;> simp [loginFields, tagsField, passwordDateField]
  split at h
  · obtain rfl := Option.some.inj h
    constructor <;> simp [cardFields, tagsField, passwordDateField]
  split at h
  · obtain rfl := Option.some.inj h
    constructor <;> simp [identityFields, tagsField, passwordDateField]
  split at h
  · obtain rfl := Option.some.inj h
    constructor <;> simp [noteFields, tagsField, passwordDateField]
  split at h
  · obtain rfl := Option.some.inj h
    constructor <;> simp [sshKeyFields, tagsField, passwordDateField]
  split at h
  · obtain rfl := Option.some.inj h
    constructor <;> simp [apiKeyFields, tagsField, passwordDateField]
  split at h
  · obtain rfl := Option.some.inj h
    constructor <;> simp [wifiFields, tagsField, passwordDateField]
  cases h

/-- A field of a merge is a head's, so it is valid as theirs are. -/
theorem field_mergeFields {shape : List (String × FieldCheck)} (hshape : NamesFields shape)
    {localHead remoteHead : JsObject}
    (hlocal : ∀ field ∈ shape, field.2 (JsObject.get? localHead field.1) = true)
    (hremote : ∀ field ∈ shape, field.2 (JsObject.get? remoteHead field.1) = true)
    {field : String × FieldCheck} (hfield : field ∈ shape) (htags : field.1 ≠ tagsField) :
    field.2 (JsObject.get? (mergeFields R base «local» remote localHead remoteHead) field.1) =
      true := by
  by_cases hdate : field.1 = passwordDateField
  · rw [hshape.date field hfield hdate, hdate, get?_date_mergeFields]
    cases mergedPasswordDate R _ [base, localHead, remoteHead] <;> rfl
  · have hkey : PlainField field.1 :=
      ⟨hshape.notType field hfield, hshape.notVersion field hfield, htags, hdate⟩
    rw [get?_mergeFields_plain hkey]
    rcases ThreeWay.pick_eq_or (canonical R) _ (JsObject.get? base field.1)
      (JsObject.get? localHead field.1) (JsObject.get? remoteHead field.1) with hpick | hpick
    · rw [hpick]
      exact hlocal field hfield
    · rw [hpick]
      exact hremote field hfield

/-- Valid data, except that it may have more than `maxTags` tags. -/
def ValidUpToTags (isWebsite : Text → Bool) (data : JsObject) : Prop :=
  (∃ type fields, JsObject.text? data "type" = some type ∧
    typeFields isWebsite type = some fields ∧
    ∀ field ∈ baseRecordShape ++ fields, field.1 ≠ tagsField →
      field.2 (JsObject.get? data field.1) = true) ∧
  (∀ text ∈ asStrings (JsObject.get? data tagsField), tag (.string text) = true) ∧
  ((asStrings (JsObject.get? data tagsField)).length ≤ maxTags →
    recordDataSchema isWebsite data = true)

/-- The tags of valid data are valid one by one. -/
theorem tag_of_recordDataSchema {data : JsObject} (h : recordDataSchema isWebsite data = true) :
    ∀ text ∈ asStrings (JsObject.get? data tagsField), tag (.string text) = true := by
  intro text htext
  rcases recordDataSchema_tags h with hnone | ⟨tags, htags, -, hbounds⟩
  · rw [tagsField, hnone] at htext
    cases htext
  · rw [tagsField, htags, asStrings_map_string] at htext
    unfold tag RecordSchema.string
    rw [Bool.and_eq_true_iff]
    exact ⟨decide_eq_true (hbounds text htext).1, decide_eq_true (hbounds text htext).2⟩

theorem validUpToTags_of_valid {data : JsObject} (h : recordDataSchema isWebsite data = true) :
    ValidUpToTags isWebsite data := by
  obtain ⟨type, fields, htype, hfields, hvalid⟩ := recordDataSchema_iff.1 h
  exact ⟨⟨type, fields, htype, hfields, fun field hfield _ => hvalid field hfield⟩,
    tag_of_recordDataSchema h, fun _ => h⟩

/-- A field-level merge of valid heads is valid, up to the number of its tags. -/
theorem validUpToTags_mergeFields {localHead remoteHead : MergeVersion}
    (htype : SameType base localHead remoteHead)
    (hlocal : recordDataSchema isWebsite localHead.data = true)
    (hremote : recordDataSchema isWebsite remoteHead.data = true) :
    ValidUpToTags isWebsite
      (mergeFields R base «local» remote localHead.data remoteHead.data) := by
  obtain ⟨type, fields, hkind, hfields, hlocalFields⟩ := recordDataSchema_iff.1 hlocal
  obtain ⟨type', fields', hkind', hfields', hremoteFields⟩ := recordDataSchema_iff.1 hremote
  -- both heads have the base's type, so they are checked for the same fields
  have hbase : JsObject.text? base "type" = some type := htype.1.symm.trans hkind
  obtain rfl : type = type' := Option.some.inj ((hbase.symm.trans htype.2.symm).trans hkind')
  obtain rfl : fields = fields' := Option.some.inj (hfields.symm.trans hfields')
  have hmerged : JsObject.text? (mergeFields R base «local» remote localHead.data remoteHead.data)
      "type" = some type := by
    unfold JsObject.text?
    rw [get?_type_mergeFields]
    exact hbase
  have hnames := namesFields_base.append (namesFields_type hfields)
  have hrest : ∀ field ∈ baseRecordShape ++ fields, field.1 ≠ tagsField → field.2 (JsObject.get?
      (mergeFields R base «local» remote localHead.data remoteHead.data) field.1) = true :=
    fun field => field_mergeFields hnames hlocalFields hremoteFields
  have htags : ∀ text ∈ mergedTags R (JsObject.get? base tagsField)
      (JsObject.get? localHead.data tagsField) (JsObject.get? remoteHead.data tagsField),
        tag (.string text) = true := by
    intro text htext
    obtain ⟨raw, hraw, rfl, hne⟩ := mem_mergedTags htext
    have hvalid : tag (.string raw) = true :=
      (List.mem_append.1 hraw).elim (tag_of_recordDataSchema hlocal raw)
        (tag_of_recordDataSchema hremote raw)
    unfold tag RecordSchema.string at hvalid
    exact tag_normalizeTag hne (of_decide_eq_true (Bool.and_eq_true_iff.1 hvalid).2)
  refine ⟨⟨type, fields, hmerged, hfields, hrest⟩, ?_, fun hcount => ?_⟩
  · rw [get?_mergeFields_tags, asStrings_mergeTags]
    exact htags
  · refine recordDataSchema_iff.2 ⟨type, fields, hmerged, hfields, fun field hfield => ?_⟩
    by_cases hfieldTags : field.1 = tagsField
    · rw [get?_mergeFields_tags, asStrings_mergeTags] at hcount
      rw [hnames.tags field hfield hfieldTags, hfieldTags, get?_mergeFields_tags, mergeTags_eq]
      split
      · rfl
      · refine Bool.and_eq_true_iff.2 ⟨decide_eq_true ?_, List.all_eq_true.2 ?_⟩
        · rwa [List.length_map]
        · intro item hitem
          obtain ⟨text, htext, rfl⟩ := List.mem_map.1 hitem
          exact htags text htext
    · exact hrest field hfield hfieldTags

end Closure

/-! ### What the resolver answers -/

section Answers

variable {C : Ciphers Text} {R : JsRuntime} {timeText : Time → Text} {store : SecretsStore}
  {isWebsite : Text → Bool} {conflict : RecordConflict} {base : JsObject}
  {«local» remote : List MergeVersion} {localRow remoteRow : EncryptedRecord}
  {localHead remoteHead : MergeVersion}

/-- With the key of its vault a record is encrypted, unless its payload is too large. -/
theorem encryptRecord_or_tooLarge {vaultId : VaultId} (hstore : HoldsVault store vaultId)
    (nonce : Text) (recordId : RecordId) (data : JsObject) :
    (∃ content, encryptRecord C R.toJsonText store nonce recordId vaultId data = .ok content) ∨
      encryptRecord C R.toJsonText store nonce recordId vaultId data = .error .tooLarge ∧
        maxRecordPayloadBytes < recordPayloadBytes (recordPayloadJson R.toJsonText data) := by
  by_cases hsize : recordPayloadBytes (recordPayloadJson R.toJsonText data) > maxRecordPayloadBytes
  · right
    refine ⟨?_, hsize⟩
    unfold encryptRecord
    exact if_pos hsize
  · exact Or.inl (encryptRecord_ok hstore nonce recordId (Nat.le_of_not_lt hsize))

/-- Wherever this conflict comes up, the chain it is about is moved up as without a resolver. -/
def MovesPlainly (resolve : ConflictResolver) (conflict : RecordConflict) : Prop :=
  ∀ incoming receivedAt now newChangeId db chain,
    conflictOf incoming receivedAt db chain = some conflict →
      rebaseChain incoming (some resolve) receivedAt now newChangeId db chain =
        rebaseChain incoming none receivedAt now newChangeId db chain

theorem movesPlainly_of_error {nonce : Text} {error : ResolveError}
    (h : resolveRecordConflict C R timeText store nonce conflict = .error error) :
    MovesPlainly (mergeResolver C R timeText store nonce) conflict := by
  intro incoming receivedAt now newChangeId db chain hconflict
  refine rebaseChain_of_throws (fun other hother => ?_) now newChangeId
  obtain rfl := Option.some.inj (hconflict.symm.trans hother)
  unfold mergeResolver
  rw [h]

/-- **Merges of valid records**: the merge is valid up to the number of its tags, and all the way
where it takes one head whole; and the resolver answers unless the payload of the merge is too
large, where the local versions are moved up as without a resolver. -/
theorem mergeRecord_closed
    (hopens : Opens C R timeText store conflict base «local» remote localRow remoteRow localHead
      remoteHead)
    (hvalid : ∀ head ∈ [localHead, remoteHead], recordDataSchema isWebsite head.data = true)
    (hfits : ∀ head ∈ [localHead, remoteHead],
      recordPayloadBytes (recordPayloadJson R.toJsonText head.data) ≤ maxRecordPayloadBytes)
    (hvault : HoldsVault store conflict.base.vaultId) :
    ∃ merge, mergeRecord R base «local» remote = some merge ∧
      ValidUpToTags isWebsite merge.data ∧
      (¬SameType base localHead remoteHead → recordDataSchema isWebsite merge.data = true ∧
        recordPayloadBytes (recordPayloadJson R.toJsonText merge.data) ≤ maxRecordPayloadBytes) ∧
      ∀ nonce,
        (∃ answer, resolveRecordConflict C R timeText store nonce conflict = .ok answer) ∨
          resolveRecordConflict C R timeText store nonce conflict = .error (.encrypt .tooLarge) ∧
            maxRecordPayloadBytes <
              recordPayloadBytes (recordPayloadJson R.toJsonText merge.data) ∧
            MovesPlainly (mergeResolver C R timeText store nonce) conflict := by
  have hanswer : ∀ {merge : MergeResult}, mergeRecord R base «local» remote = some merge →
      ∀ nonce,
        (∃ answer, resolveRecordConflict C R timeText store nonce conflict = .ok answer) ∨
          resolveRecordConflict C R timeText store nonce conflict = .error (.encrypt .tooLarge) ∧
            maxRecordPayloadBytes <
              recordPayloadBytes (recordPayloadJson R.toJsonText merge.data) ∧
            MovesPlainly (mergeResolver C R timeText store nonce) conflict := by
    intro merge hmerge nonce
    have hresolve := resolveRecordConflict_of_opens hopens hmerge nonce
    split at hresolve
    · exact Or.inl ⟨_, hresolve⟩
    split at hresolve
    · exact Or.inl ⟨_, hresolve⟩
    rcases encryptRecord_or_tooLarge hvault nonce conflict.base.recordId merge.data with
      ⟨content, hcontent⟩ | ⟨herror, hsize⟩
    · rw [hcontent] at hresolve
      exact Or.inl ⟨_, hresolve⟩
    · rw [herror] at hresolve
      exact Or.inr ⟨hresolve, hsize, movesPlainly_of_error hresolve⟩
  by_cases htype : SameType base localHead remoteHead
  · have hmerge := mergeRecord_of_sameType (R := R) hopens.getLast?_local hopens.getLast?_remote htype
    exact ⟨_, hmerge, validUpToTags_mergeFields htype (hvalid localHead (by simp))
      (hvalid remoteHead (by simp)), fun h => absurd htype h, hanswer hmerge⟩
  · have hmerge := mergeRecord_of_newType (R := R) hopens.getLast?_local hopens.getLast?_remote htype
    have hwinner : ∀ {winner : MergeVersion}, winner = localHead ∨ winner = remoteHead →
        recordDataSchema isWebsite winner.data = true ∧
          recordPayloadBytes (recordPayloadJson R.toJsonText winner.data) ≤
            maxRecordPayloadBytes := by
      rintro winner (rfl | rfl)
      · exact ⟨hvalid winner (by simp), hfits winner (by simp)⟩
      · exact ⟨hvalid winner (by simp), hfits winner (by simp)⟩
    have hwhole := hwinner (ite_eq_or_eq (isLater R (some localHead.editedAt)
      (some remoteHead.editedAt) = true) localHead remoteHead)
    exact ⟨_, hmerge, validUpToTags_of_valid hwhole.1, fun _ => hwhole, hanswer hmerge⟩

end Answers

/-! ### Merges past a limit -/

theorem recordPayloadBytes_append (text text' : Text) :
    recordPayloadBytes (text ++ text') = recordPayloadBytes text + recordPayloadBytes text' := by
  unfold recordPayloadBytes
  rw [List.map_append, List.sum_append]

theorem recordPayloadBytes_cons (c : Char) (text : Text) :
    recordPayloadBytes (c :: text) = c.utf8Size + recordPayloadBytes text := rfl

theorem recordPayloadBytes_replicate (count : ℕ) (c : Char) :
    recordPayloadBytes (List.replicate count c) = count * c.utf8Size := by
  unfold recordPayloadBytes
  rw [List.map_replicate, List.sum_replicate_nat]

theorem recordPayloadBytes_string (text : Text) :
    recordPayloadBytes (plainJson (.string text)) = recordPayloadBytes text + 2 := by
  have hquote : Char.utf8Size '"' = 1 := by decide
  rw [plainJson, recordPayloadBytes_append, recordPayloadBytes_cons, recordPayloadBytes_cons, hquote]
  change 1 + recordPayloadBytes text + (1 + 0) = _
  omega

theorem recordPayloadBytes_field (key : String) (value : Json) (field : String × Json)
    (fields : JsObject) :
    recordPayloadBytes (plainFields ((key, value) :: field :: fields)) =
      recordPayloadBytes key.toList + recordPayloadBytes (plainJson value) +
        recordPayloadBytes (plainFields (field :: fields)) + 4 := by
  have hquote : Char.utf8Size '"' = 1 := by decide
  have hcolon : Char.utf8Size ':' = 1 := by decide
  have hcomma : Char.utf8Size ',' = 1 := by decide
  rw [plainFields]
  · simp only [recordPayloadBytes_append, recordPayloadBytes_cons, hquote, hcolon, hcomma]
    omega
  · intro h
    cases h

theorem recordPayloadBytes_object (fields : JsObject) :
    recordPayloadBytes (plainJson (.object fields)) = recordPayloadBytes (plainFields fields) + 2 := by
  have hopen : Char.utf8Size '\x7b' = 1 := by decide
  have hclose : Char.utf8Size '\x7d' = 1 := by decide
  rw [plainJson, recordPayloadBytes_append, recordPayloadBytes_cons, recordPayloadBytes_cons, hopen,
    hclose]
  change 1 + recordPayloadBytes (plainFields fields) + (1 + 0) = _
  omega

/-- A text of characters of three bytes. -/
def cjk (count : ℕ) : Text := List.replicate count '漢'

/-- An SSH key with one more text. -/
def sshWith (key : String) (text : Text) : JsObject :=
  [("type", .string "ssh_key".toList), ("title", .string ['a']), (key, .string text)]

/-- The payload of some fields after the type and the title. -/
theorem recordPayloadBytes_ssh (field : String × Json) (fields : JsObject) :
    recordPayloadBytes (plainJson (.object (("type", .string "ssh_key".toList) ::
        ("title", .string ['a']) :: field :: fields))) =
      recordPayloadBytes (plainFields (field :: fields)) + 31 := by
  have htype : recordPayloadBytes "type".toList = 4 := by decide
  have htitle : recordPayloadBytes "title".toList = 5 := by decide
  have hkind : recordPayloadBytes "ssh_key".toList = 7 := by decide
  have hname : recordPayloadBytes ['a'] = 1 := by decide
  rw [recordPayloadBytes_object, recordPayloadBytes_field, recordPayloadBytes_field,
    recordPayloadBytes_string, recordPayloadBytes_string, htype, htitle, hkind, hname]
  omega

theorem recordPayloadBytes_version :
    recordPayloadBytes (plainFields [("schemaVersion", .number currentSchemaVersion)]) = 17 := by
  decide

theorem recordPayloadBytes_sshWith {key : String} (text : Text) (hversion : key ≠ "schemaVersion") :
    recordPayloadBytes (recordPayloadJson loginRuntime.toJsonText (sshWith key text)) =
      recordPayloadBytes key.toList + recordPayloadBytes text + 54 := by
  have hpayload : recordPayloadJson loginRuntime.toJsonText (sshWith key text) =
      plainJson (.object (("type", .string "ssh_key".toList) :: ("title", .string ['a']) ::
        (key, .string text) :: [("schemaVersion", .number currentSchemaVersion)])) := by
    unfold recordPayloadJson sshWith JsObject.set
    rw [if_neg (by simpa using Ne.symm hversion)]
    rfl
  rw [hpayload, recordPayloadBytes_ssh, recordPayloadBytes_field, recordPayloadBytes_string,
    recordPayloadBytes_version]
  omega

theorem mergeFields_ssh {note privateKey : Text} (hnote : note ≠ []) (hkey : privateKey ≠ [])
    (time time' : Text) :
    mergeFields loginRuntime (titled "ssh_key" []) [⟨sshWith "note" note, time, false⟩]
        [⟨sshWith "privateKey" privateKey, time', false⟩] (sshWith "note" note)
          (sshWith "privateKey" privateKey) =
      [("type", .string "ssh_key".toList), ("title", .string ['a']), ("note", .string note),
        ("privateKey", .string privateKey)] := by
  obtain ⟨c, cs, rfl⟩ := List.exists_cons_of_ne_nil hnote
  obtain ⟨d, ds, rfl⟩ := List.exists_cons_of_ne_nil hkey
  rfl

theorem recordPayloadBytes_merge (note privateKey : Text) :
    recordPayloadBytes (recordPayloadJson loginRuntime.toJsonText
        [("type", .string "ssh_key".toList), ("title", .string ['a']), ("note", .string note),
          ("privateKey", .string privateKey)]) =
      recordPayloadBytes note + recordPayloadBytes privateKey + 74 := by
  have hnote : recordPayloadBytes "note".toList = 4 := by decide
  have hkey : recordPayloadBytes "privateKey".toList = 10 := by decide
  change recordPayloadBytes (plainJson (.object (("type", .string "ssh_key".toList) ::
    ("title", .string ['a']) :: ("note", .string note) :: ("privateKey", .string privateKey) ::
      [("schemaVersion", .number currentSchemaVersion)]))) = _
  rw [recordPayloadBytes_ssh, recordPayloadBytes_field, recordPayloadBytes_field,
    recordPayloadBytes_string, recordPayloadBytes_string, recordPayloadBytes_version, hnote, hkey]
  omega

theorem recordDataSchema_sshNote {note : Text} (h : utf16Length note ≤ maxNoteLength) :
    recordDataSchema (fun _ => false) (sshWith "note" note) = true := by
  refine recordDataSchema_iff.2 ⟨"ssh_key".toList, sshKeyFields, rfl, rfl, ?_⟩
  intro field hfield
  simp only [baseRecordShape, sshKeyFields, List.mem_append, List.mem_cons, List.not_mem_nil,
    or_false] at hfield
  rcases hfield with (rfl | rfl | rfl | rfl | rfl | rfl) | rfl | rfl | rfl
  · rfl
  · exact string_zero.2 h
  all_goals rfl

theorem recordDataSchema_sshKey {privateKey : Text} (h : utf16Length privateKey ≤ maxLongTextLength) :
    recordDataSchema (fun _ => false) (sshWith "privateKey" privateKey) = true := by
  refine recordDataSchema_iff.2 ⟨"ssh_key".toList, sshKeyFields, rfl, rfl, ?_⟩
  intro field hfield
  simp only [baseRecordShape, sshKeyFields, List.mem_append, List.mem_cons, List.not_mem_nil,
    or_false] at hfield
  rcases hfield with (rfl | rfl | rfl | rfl | rfl | rfl) | rfl | rfl | rfl
  all_goals first | rfl | exact string_zero.2 h

/-- Some tags of two letters. -/
def letterTags (first : Char) (count : ℕ) : List Text :=
  (List.range count).map fun i => [first, Char.ofNat ('a'.toNat + i)]

theorem bytes_cjk (count : ℕ) : recordPayloadBytes (cjk count) = count * 3 :=
  recordPayloadBytes_replicate count '漢'

theorem length_cjk (count : ℕ) : utf16Length (cjk count) = count := by
  unfold cjk
  rw [utf16Length_replicate, if_pos (by decide), Nat.mul_one]

/-- Valid heads of 17 tags each merge to more tags than a record may have, and a note and a private
key that each fit to a payload that is too large. -/
theorem mergeRecord_pastLimits :
    (∀ tags ∈ [[], letterTags 'l' 17, letterTags 'r' 17],
      recordDataSchema (fun _ => false) (titled "login" tags) = true) ∧
    (mergeRecord loginRuntime (titled "login" [])
        [⟨titled "login" (letterTags 'l' 17), isoText 2, false⟩]
        [⟨titled "login" (letterTags 'r' 17), isoText 3, false⟩]).map
      (fun merge => recordDataSchema (fun _ => false) merge.data) = some false ∧
    recordDataSchema (fun _ => false) (titled "ssh_key" []) = true ∧
    (∀ data ∈ [sshWith "note" (cjk 32768), sshWith "privateKey" (cjk 16384)],
      recordDataSchema (fun _ => false) data = true ∧
        recordPayloadBytes (recordPayloadJson loginRuntime.toJsonText data) ≤
          maxRecordPayloadBytes) ∧
    ∃ merge, mergeRecord loginRuntime (titled "ssh_key" [])
        [⟨sshWith "note" (cjk 32768), isoText 2, false⟩]
        [⟨sshWith "privateKey" (cjk 16384), isoText 3, false⟩] = some merge ∧
      maxRecordPayloadBytes <
        recordPayloadBytes (recordPayloadJson loginRuntime.toJsonText merge.data) := by
  refine ⟨by decide +kernel, by decide +kernel, by decide +kernel, ?_, ?_⟩
  · intro data hdata
    rcases List.mem_cons.1 hdata with rfl | hdata
    · refine ⟨recordDataSchema_sshNote (length_cjk 32768).le, ?_⟩
      have hkey : recordPayloadBytes "note".toList = 4 := by decide
      rw [recordPayloadBytes_sshWith _ (by decide), bytes_cjk, hkey]
      decide
    · obtain rfl := List.mem_singleton.1 hdata
      refine ⟨recordDataSchema_sshKey (length_cjk 16384).le, ?_⟩
      have hkey : recordPayloadBytes "privateKey".toList = 10 := by decide
      rw [recordPayloadBytes_sshWith _ (by decide), bytes_cjk, hkey]
      decide
  · have hmerge := @mergeRecord_of_sameType loginRuntime (titled "ssh_key" [])
      [⟨sshWith "note" (cjk 32768), isoText 2, false⟩]
      [⟨sshWith "privateKey" (cjk 16384), isoText 3, false⟩] _ _ rfl rfl ⟨rfl, rfl⟩
    refine ⟨_, hmerge, ?_⟩
    have hne : ∀ {count : ℕ}, count ≠ 0 → cjk count ≠ [] := fun hcount h =>
      hcount ((List.replicate_eq_nil_iff _).1 h)
    have hmerged := mergeFields_ssh (hne (show 32768 ≠ 0 by decide))
      (hne (show 16384 ≠ 0 by decide)) (isoText 2) (isoText 3)
    dsimp only [List.getLast_singleton]
    rw [hmerged, recordPayloadBytes_merge, bytes_cjk, bytes_cjk]
    decide

/-- The merge of a note and a login is valid, and so is the answer of the resolver. -/
theorem mergeRecord_closed_tag : ∃ merge,
    mergeRecord tagRuntime (titled "login" []) [⟨titled "note" [], isoText 2, false⟩]
        [⟨titled "login" [['A']], isoText 3, false⟩] = some merge ∧
      recordDataSchema (fun _ => false) merge.data = true ∧
      ∃ answer, resolveRecordConflict wordCiphers tagRuntime isoText vaultStore ['n']
        (typeConflict [['A']]) = .ok answer := by
  have hvalid : ∀ head ∈ [MergeVersion.mk (titled "note" []) (isoText 2) false,
      ⟨titled "login" [['A']], isoText 3, false⟩],
        recordDataSchema (fun _ => false) head.data = true := by decide +kernel
  have hfits : ∀ head ∈ [MergeVersion.mk (titled "note" []) (isoText 2) false,
      ⟨titled "login" [['A']], isoText 3, false⟩],
        recordPayloadBytes (recordPayloadJson tagRuntime.toJsonText head.data) ≤
          maxRecordPayloadBytes := by decide +kernel
  have hopens := opens_typeConflict [['A']] (by simp)
  obtain ⟨merge, hmerge, -, hwhole, hanswer⟩ := mergeRecord_closed hopens hvalid hfits
    ⟨1, ['p'], by decide +kernel, by decide +kernel⟩
  obtain ⟨hmerged, hsize⟩ := hwhole fun h => absurd h.1 (by decide +kernel)
  refine ⟨merge, hmerge, hmerged, (hanswer ['n']).resolve_right fun h => ?_⟩
  omega

end Passmgr
