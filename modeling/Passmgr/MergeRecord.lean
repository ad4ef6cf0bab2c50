/-
# Merging a record edited on two sides

`packages/client/src/records/merge-record.ts`: a three-way merge, field by field, of a record that
was edited here and on the server since the base both started from.  Each side is a chain of
versions, oldest first.

What the language does is a parameter: JSON texts, lowering the case, and reading a date.  The fields
of a record are whatever its payload holds.

Main definitions:

* `canonical`, `sameValue`, `isLater` — comparing values and times;
* `fieldEditTime`, `mergeTags`, `mergedValue`, `mergedPasswordDate` — the rules;
* `mergeRecord`, `sameRecordData` — the merge, and whether two records have the same content.

Main results:

* `get?_mergeFields` — the fields of a merge, one by one;
* `mergedValue_eq_pick`, `tagKeys_mergeTags` — a field is merged as a value, the tags as a set;
* `fieldEditTime_eq_some_iff` — when a chain last changed a field;
* `mergedPasswordDate_eq` — which date a merged password gets.
-/

import Passmgr.ImportExport
import Passmgr.Tags
import Passmgr.ThreeWay

set_option relaxedAutoImplicit false
set_option autoImplicit false

namespace Passmgr

/-- What the language does: JSON texts, of which none is empty, `toLocaleLowerCase`, and
`Date.parse`, where `none` is `NaN`. -/
structure JsRuntime extends JsonText where
  lowerCase : Text → Text
  dateParse : Text → Option ℤ
  stringify_ne_nil : ∀ value, stringify value ≠ []

/-! ### Comparing values -/

namespace Json

mutual

/-- A value with the keys of its objects in order.  Which order it is makes no difference to what
is compared. -/
def sortKeys : Json → Json
  | .array items => .array (sortItems items)
  | .object fields =>
    .object ((sortFields fields).insertionSort fun a b => a.1 ≤ b.1)
  | .null => .null
  | .bool value => .bool value
  | .number value => .number value
  | .string value => .string value

def sortItems : List Json → List Json
  | [] => []
  | item :: items => sortKeys item :: sortItems items

def sortFields : List (String × Json) → List (String × Json)
  | [] => []
  | (key, value) :: fields => (key, sortKeys value) :: sortFields fields

end

end Json

section Merge

variable (R : JsRuntime)

/-- `canonical`: `undefined`, `null`, `""` and `[]` all mean "not set". -/
def canonical : Option Json → Text
  | none => []
  | some .null => []
  | some (.string []) => []
  | some (.array []) => []
  | some value => R.stringify value.sortKeys

/-- `sameValue`: deep equality of two field values. -/
def sameValue (a b : Option Json) : Bool := canonical R a = canonical R b

/-- `isLater`: whether `a` is strictly later than `b`; an unknown time is never later. -/
def isLater : Option Text → Option Text → Bool
  | none, _ => false
  | some _, none => true
  | some a, some b =>
    match R.dateParse a, R.dateParse b with
    | some a, some b => b < a
    | _, _ => false

/-! ### Versions -/

/-- One version of a record on one side of a merge; `editedAt` is clamped against clock skew. -/
structure MergeVersion where
  data : JsObject
  editedAt : Text
  deleted : Bool

structure MergeResult where
  data : JsObject
  deleted : Bool

/-- The record type: a text in every payload that opens. -/
def recordType (data : JsObject) : Option Text := JsObject.text? data "type"

/-- `TAGS`. -/
def tagsField : String := "tags"

/-- `PASSWORD_DATE`: merged with the field it dates, never on its own. -/
def passwordDateField : String := "passwordChangedAt"

/-- `fieldKeys`: every payload key of the records, `type` and `schemaVersion` aside. -/
def fieldKeys (records : List JsObject) : List String :=
  (records.flatMap fun record => record.map (·.1)).eraseDups.filter
    (· ∉ ["type", "schemaVersion"])

/-- `fieldEditTimes` of one field: when the chain last changed it, walking from `previous`. -/
def fieldEditTime (key : String) (previous : JsObject) (time : Option Text) :
    List MergeVersion → Option Text
  | [] => time
  | version :: chain =>
    fieldEditTime key version.data
      (if key ∈ fieldKeys [previous, version.data] ∧
          ¬sameValue R (JsObject.get? previous key) (JsObject.get? version.data key) then
        some version.editedAt
      else time) chain

/-! ### Fields -/

/-- `asStrings`. -/
def asStrings : Option Json → List Text
  | some (.array items) => items.filterMap Json.text?
  | _ => []

/-- `mergeTags`: additions and removals of either side both apply. -/
def mergeTags (base «local» remote : Option Json) : Option Json :=
  let l := normalizeTags R.lowerCase (asStrings «local»)
  let r := normalizeTags R.lowerCase (asStrings remote)
  let localKeys := l.map (tagKey R.lowerCase)
  let remoteKeys := r.map (tagKey R.lowerCase)
  let removed := ((normalizeTags R.lowerCase (asStrings base)).map (tagKey R.lowerCase)).filter
    fun key => key ∉ localKeys ∨ key ∉ remoteKeys
  let merged := (normalizeTags R.lowerCase (l ++ r)).filter
    fun tag => tagKey R.lowerCase tag ∉ removed
  if 0 < merged.length then some (.array (merged.map .string)) else none

/-- The merged value of a field but the password's date. -/
def mergedValue (key : String) (localTime remoteTime : Option Text) (base «local» remote : JsObject) :
    Option Json :=
  let b := JsObject.get? base key
  let l := JsObject.get? «local» key
  let r := JsObject.get? remote key
  if key = tagsField then mergeTags R b l r
  else if sameValue R r b || sameValue R l r then l
  else if sameValue R l b then r
  else if isLater R localTime remoteTime then l
  else r

/-- `mergedPasswordDate`: the latest `passwordChangedAt` among the versions holding the merged
password. -/
def mergedPasswordDate (password : Option Json) (versions : List JsObject) : Option Text :=
  if !password.any (·.truthy) then none
  else
    versions.foldl (fun latest fields =>
      match JsObject.text? fields passwordDateField with
      | some date =>
        if sameValue R (JsObject.get? fields "password") password && isLater R (some date) latest then
          some date
        else latest
      | none => latest) none

/-- The field-level merge of two heads of the base's type. -/
def mergeFields (base : JsObject) («local» remote : List MergeVersion)
    (localHead remoteHead : JsObject) : JsObject :=
  let keys := (fieldKeys [localHead, remoteHead, base]).filter (· ≠ passwordDateField)
  let merged := ((JsObject.get? base "type").toList.map fun type => ("type", type)) ++
    keys.filterMap fun key =>
      (mergedValue R key (fieldEditTime R key base none «local»)
        (fieldEditTime R key base none remote) base localHead remoteHead).map fun value =>
          (key, value)
  let passwordDate :=
    mergedPasswordDate R (JsObject.get? merged "password") [base, localHead, remoteHead]
  merged ++ passwordDate.toList.map fun date => (passwordDateField, .string date)

/-- `mergeRecord`: three-way, field-level merge of a record edited on two sides.  It throws without
a version on both sides. -/
def mergeRecord (base : JsObject) («local» remote : List MergeVersion) : Option MergeResult :=
  match «local».getLast?, remote.getLast? with
  | some localHead, some remoteHead =>
    let deleted := localHead.deleted && remoteHead.deleted
    if recordType localHead.data ≠ recordType base ∨ recordType remoteHead.data ≠ recordType base then
      let winner :=
        if isLater R (some localHead.editedAt) (some remoteHead.editedAt) then localHead
        else remoteHead
      some ⟨winner.data, deleted⟩
    else some ⟨mergeFields R base «local» remote localHead.data remoteHead.data, deleted⟩
  | _, _ => none

/-- `sameRecordData`: whether two versions hold the same record content. -/
def sameRecordData (a b : JsObject) : Bool :=
  ((fieldKeys [a, b]).filter (· ≠ passwordDateField)).all fun key =>
    sameValue R (JsObject.get? a key) (JsObject.get? b key)

end Merge

/-! ### The fields of records -/

section Fields

variable {R : JsRuntime}

theorem sameValue_iff {a b : Option Json} :
    sameValue R a b = true ↔ canonical R a = canonical R b := by
  simp [sameValue]

theorem mem_fieldKeys {records : List JsObject} {key : String} :
    key ∈ fieldKeys records ↔
      (∃ record ∈ records, JsObject.get? record key ≠ none) ∧
        key ≠ "type" ∧ key ≠ "schemaVersion" := by
  unfold fieldKeys
  rw [List.mem_filter, List.mem_eraseDups, List.mem_flatMap]
  have hkeys : ∀ record : JsObject, key ∈ record.map (·.1) ↔ JsObject.get? record key ≠ none :=
    fun record => by rw [Ne, JsObject.get?_eq_none_iff, not_not]
  simp [hkeys]

/-- A key that no record has. -/
theorem get?_eq_none_of_notMem {records : List JsObject} {key : String}
    (h : key ∉ fieldKeys records) (htype : key ≠ "type") (hversion : key ≠ "schemaVersion")
    (record : JsObject) (hrecord : record ∈ records) : JsObject.get? record key = none := by
  by_contra hsome
  exact h (mem_fieldKeys.2 ⟨⟨record, hrecord, hsome⟩, htype, hversion⟩)

/-- Records have the same content when they have it field by field. -/
theorem sameRecordData_iff {a b : JsObject} :
    sameRecordData R a b = true ↔
      ∀ key, key ≠ "type" → key ≠ "schemaVersion" → key ≠ passwordDateField →
        canonical R (JsObject.get? a key) = canonical R (JsObject.get? b key) := by
  unfold sameRecordData
  rw [List.all_eq_true]
  constructor
  · intro h key htype hversion hdate
    by_cases hkey : key ∈ fieldKeys [a, b]
    · exact sameValue_iff.1 (h key (List.mem_filter.2 ⟨hkey, by simpa using hdate⟩))
    · rw [get?_eq_none_of_notMem hkey htype hversion a (by simp),
        get?_eq_none_of_notMem hkey htype hversion b (by simp)]
  · intro h key hkey
    obtain ⟨hkey, hdate⟩ := List.mem_filter.1 hkey
    obtain ⟨-, htype, hversion⟩ := mem_fieldKeys.1 hkey
    exact sameValue_iff.2 (h key htype hversion (by simpa using hdate))

/-- Looking up what was built from the keys. -/
theorem get?_filterMap (keys : List String) (f : String → Option Json) (key : String) :
    JsObject.get? (keys.filterMap fun key => (f key).map fun value => (key, value)) key =
      if key ∈ keys then f key else none := by
  induction keys with
  | nil => rfl
  | cons first keys ih =>
      rw [List.filterMap_cons]
      by_cases hkey : first = key
      · subst hkey
        rw [if_pos List.mem_cons_self]
        cases hvalue : f first with
        | none =>
            rw [Option.map_none]
            dsimp only
            rw [ih]
            split
            · exact hvalue
            · rfl
        | some value =>
            rw [Option.map_some]
            dsimp only
            rw [JsObject.get?_cons, if_pos rfl]
      · have hmem : key ∈ first :: keys ↔ key ∈ keys :=
          ⟨fun h => (List.mem_cons.1 h).resolve_left fun heq => hkey heq.symm,
            List.mem_cons_of_mem _⟩
        simp only [hmem]
        cases hvalue : f first with
        | none => exact ih
        | some value =>
            rw [Option.map_some]
            dsimp only
            rw [JsObject.get?_cons, if_neg hkey]
            exact ih

end Fields

/-! ### Tags -/

section TagFields

variable {R : JsRuntime}

theorem asStrings_map_string (tags : List Text) :
    asStrings (some (Json.array (tags.map Json.string))) = tags := by
  induction tags with
  | nil => rfl
  | cons tag tags ih => simpa [asStrings, Json.text?] using ih

/-- The tags of a field, as a set. -/
def tagsOf (R : JsRuntime) (value : Option Json) : Set Text :=
  tagKeys R.lowerCase (asStrings value)

/-- The tags a merge keeps. -/
def mergedTags (R : JsRuntime) (base «local» remote : Option Json) : List Text :=
  (normalizeTags R.lowerCase (normalizeTags R.lowerCase (asStrings «local») ++
      normalizeTags R.lowerCase (asStrings remote))).filter fun tag =>
    tagKey R.lowerCase tag ∉
      ((normalizeTags R.lowerCase (asStrings base)).map (tagKey R.lowerCase)).filter fun key =>
        key ∉ (normalizeTags R.lowerCase (asStrings «local»)).map (tagKey R.lowerCase) ∨
          key ∉ (normalizeTags R.lowerCase (asStrings remote)).map (tagKey R.lowerCase)

theorem mergeTags_eq (base «local» remote : Option Json) :
    mergeTags R base «local» remote =
      if mergedTags R base «local» remote = [] then none
      else some (Json.array ((mergedTags R base «local» remote).map Json.string)) := by
  change (if 0 < (mergedTags R base «local» remote).length then
    some (Json.array ((mergedTags R base «local» remote).map Json.string)) else none) = _
  by_cases hnil : mergedTags R base «local» remote = []
  · rw [if_pos hnil, hnil]
    rfl
  · rw [if_neg hnil, if_pos (List.length_pos_iff.2 hnil)]

theorem asStrings_mergeTags (base «local» remote : Option Json) :
    asStrings (mergeTags R base «local» remote) = mergedTags R base «local» remote := by
  rw [mergeTags_eq]
  split
  · next hnil => rw [hnil]; rfl
  · exact asStrings_map_string _

/-- A tag is dropped when it is a base tag that one side removed. -/
theorem mem_removed_iff {base «local» remote : Option Json} {key : Text} :
    key ∈ ((normalizeTags R.lowerCase (asStrings base)).map (tagKey R.lowerCase)).filter
        (fun key => key ∉ (normalizeTags R.lowerCase (asStrings «local»)).map
            (tagKey R.lowerCase) ∨
          key ∉ (normalizeTags R.lowerCase (asStrings remote)).map (tagKey R.lowerCase)) ↔
      key ∈ tagsOf R base ∧ (key ∉ tagsOf R «local» ∨ key ∉ tagsOf R remote) := by
  simp only [List.mem_filter, mem_map_normalizeTags, decide_eq_true_eq]
  rfl

theorem mergedTags_normal (base «local» remote : Option Json) :
    NormalTags R.lowerCase (mergedTags R base «local» remote) :=
  (normalizeTags_normal _).filter _

/-- **Tags merge as a set**: additions and removals of either side both apply. -/
theorem tagsOf_mergeTags (base «local» remote : Option Json) :
    tagsOf R (mergeTags R base «local» remote) =
      ThreeWay.sets (tagsOf R base) (tagsOf R «local») (tagsOf R remote) := by
  have hboth : ∀ key, key ∈ (normalizeTags R.lowerCase (normalizeTags R.lowerCase
      (asStrings «local») ++ normalizeTags R.lowerCase (asStrings remote))).map
        (tagKey R.lowerCase) ↔ key ∈ tagsOf R «local» ∨ key ∈ tagsOf R remote := by
    intro key
    rw [mem_map_normalizeTags, tagKeys_append, tagKeys_normalizeTags, tagKeys_normalizeTags]
    rfl
  ext key
  rw [ThreeWay.mem_sets, ← hboth key, ← mem_removed_iff]
  unfold tagsOf
  rw [asStrings_mergeTags, mem_tagKeys_of_normal (mergedTags_normal base «local» remote)]
  unfold mergedTags
  rw [List.mem_map, List.mem_map]
  constructor
  · rintro ⟨tag, htag, rfl⟩
    obtain ⟨hmem, hkept⟩ := List.mem_filter.1 htag
    exact ⟨⟨tag, hmem, rfl⟩, by simpa using hkept⟩
  · rintro ⟨⟨tag, hmem, rfl⟩, hkept⟩
    exact ⟨tag, List.mem_filter.2 ⟨hmem, by simpa using hkept⟩, rfl⟩

end TagFields

/-! ### One field of a merge -/

section Fields

variable {R : JsRuntime} {base localHead remoteHead : JsObject} {«local» remote : List MergeVersion}

/-- **A field is merged as a value**: the side that changed it wins, and of two the later one. -/
theorem mergedValue_eq_pick {key : String} (hkey : key ≠ tagsField)
    (localTime remoteTime : Option Text) :
    mergedValue R key localTime remoteTime base localHead remoteHead =
      ThreeWay.pick (canonical R) (isLater R localTime remoteTime) (JsObject.get? base key)
        (JsObject.get? localHead key) (JsObject.get? remoteHead key) := by
  simp [mergedValue, ThreeWay.pick, sameValue, hkey]

theorem mergedValue_tags (localTime remoteTime : Option Text) :
    mergedValue R tagsField localTime remoteTime base localHead remoteHead =
      mergeTags R (JsObject.get? base tagsField) (JsObject.get? localHead tagsField)
        (JsObject.get? remoteHead tagsField) := by
  unfold mergedValue
  exact if_pos rfl

/-- A field no record has is in no merge. -/
theorem mergedValue_eq_none {key : String} (hbase : JsObject.get? base key = none)
    (hlocal : JsObject.get? localHead key = none)
    (hremote : JsObject.get? remoteHead key = none) (localTime remoteTime : Option Text) :
    mergedValue R key localTime remoteTime base localHead remoteHead = none := by
  by_cases hkey : key = tagsField
  · subst hkey
    rw [mergedValue_tags, hbase, hlocal, hremote, mergeTags_eq]
    rfl
  · rw [mergedValue_eq_pick hkey, hbase, hlocal, hremote, ThreeWay.pick_of_agree rfl]

/-- The fields of a merge. -/
theorem get?_mergeFields {key : String} (htype : key ≠ "type") (hversion : key ≠ "schemaVersion")
    (hdate : key ≠ passwordDateField) :
    JsObject.get? (mergeFields R base «local» remote localHead remoteHead) key =
      mergedValue R key (fieldEditTime R key base none «local»)
        (fieldEditTime R key base none remote) base localHead remoteHead := by
  unfold mergeFields
  dsimp only
  rw [JsObject.get?_append, JsObject.get?_append, get?_filterMap]
  have hnotype : JsObject.get? ((JsObject.get? base "type").toList.map fun type =>
      ("type", type)) key = none := by
    cases JsObject.get? base "type" with
    | none => rfl
    | some type => simp [JsObject.get?_cons, htype.symm]
  have hnodate : ∀ date : Option Text, JsObject.get? (date.toList.map fun date =>
      (passwordDateField, Json.string date)) key = none := by
    intro date
    cases date with
    | none => rfl
    | some date => simp [JsObject.get?_cons, hdate.symm]
  rw [hnotype, hnodate, Option.none_or, Option.or_none]
  split
  · rfl
  · next hkey =>
      have hnone : key ∉ fieldKeys [localHead, remoteHead, base] := by
        intro hmem
        exact hkey (List.mem_filter.2 ⟨hmem, by simpa using hdate⟩)
      have hget : ∀ record ∈ [localHead, remoteHead, base], JsObject.get? record key = none :=
        fun record hrecord => get?_eq_none_of_notMem hnone htype hversion record hrecord
      rw [mergedValue_eq_none (hget base (by simp)) (hget localHead (by simp))
        (hget remoteHead (by simp))]

theorem notMem_keys {key : String} (h : key ∉ fieldKeys [localHead, remoteHead, base])
    (f : String → Option Json) :
    JsObject.get? (((fieldKeys [localHead, remoteHead, base]).filter
      (· ≠ passwordDateField)).filterMap fun key => (f key).map fun value => (key, value)) key =
        none := by
  rw [get?_filterMap, if_neg fun hmem => h (List.mem_filter.1 hmem).1]

/-- A merge has the type of the base. -/
theorem get?_type_mergeFields :
    JsObject.get? (mergeFields R base «local» remote localHead remoteHead) "type" =
      JsObject.get? base "type" := by
  unfold mergeFields
  dsimp only
  rw [JsObject.get?_append, JsObject.get?_append,
    notMem_keys fun h => (mem_fieldKeys.1 h).2.1 rfl]
  have hnodate : ∀ date : Option Text, JsObject.get? (date.toList.map fun date =>
      (passwordDateField, Json.string date)) "type" = none := by
    intro date
    cases date with
    | none => rfl
    | some date => simp [JsObject.get?_cons, passwordDateField]
  rw [hnodate, Option.or_none, Option.or_none]
  cases JsObject.get? base "type" with
  | none => rfl
  | some type => simp [JsObject.get?_cons]

/-- A merge holds no `schemaVersion`. -/
theorem get?_schemaVersion_mergeFields :
    JsObject.get? (mergeFields R base «local» remote localHead remoteHead) "schemaVersion" =
      none := by
  unfold mergeFields
  dsimp only
  rw [JsObject.get?_append, JsObject.get?_append,
    notMem_keys fun h => (mem_fieldKeys.1 h).2.2 rfl]
  have hnodate : ∀ date : Option Text, JsObject.get? (date.toList.map fun date =>
      (passwordDateField, Json.string date)) "schemaVersion" = none := by
    intro date
    cases date with
    | none => rfl
    | some date => simp [JsObject.get?_cons, passwordDateField]
  rw [hnodate, Option.or_none, Option.or_none]
  cases JsObject.get? base "type" with
  | none => rfl
  | some type => simp [JsObject.get?_cons]

/-- The date of the password in a merge follows the password that won. -/
theorem get?_date_mergeFields :
    JsObject.get? (mergeFields R base «local» remote localHead remoteHead) passwordDateField =
      (mergedPasswordDate R
        (JsObject.get? (mergeFields R base «local» remote localHead remoteHead) "password")
        [base, localHead, remoteHead]).map Json.string := by
  have hpassword : ∀ (merged : JsObject) (date : Option Text),
      JsObject.get? (merged ++ date.toList.map fun date => (passwordDateField, .string date))
        "password" = JsObject.get? merged "password" := by
    intro merged date
    rw [JsObject.get?_append]
    cases date with
    | none => exact Option.or_none
    | some date => simp [JsObject.get?_cons, passwordDateField]
  unfold mergeFields
  dsimp only
  rw [hpassword, JsObject.get?_append, JsObject.get?_append, get?_filterMap,
    if_neg fun hmem => by simpa using (List.mem_filter.1 hmem).2]
  have hnotype : JsObject.get? ((JsObject.get? base "type").toList.map fun type =>
      ("type", type)) passwordDateField = none := by
    cases JsObject.get? base "type" with
    | none => rfl
    | some type => simp [JsObject.get?_cons, passwordDateField]
  rw [hnotype, Option.none_or, Option.none_or]
  cases mergedPasswordDate R _ [base, localHead, remoteHead] with
  | none => rfl
  | some date => simp [JsObject.get?_cons]

end Fields

/-! ### When a chain changed a field -/

section Times

variable {R : JsRuntime} {key : String} {base : JsObject} {chain : List MergeVersion}

/-- What a chain made of a record, so far. -/
def chainHead (base : JsObject) (chain : List MergeVersion) : JsObject :=
  (chain.getLast?.map (·.data)).getD base

/-- The version that last changed a field: it differs there from the one before it, and all after it
hold its value. -/
def ChangedLast (R : JsRuntime) (key : String) (base : JsObject) (chain : List MergeVersion)
    (version : MergeVersion) : Prop :=
  ∃ before after, chain = before ++ version :: after ∧
    canonical R (JsObject.get? (chainHead base before) key) ≠
      canonical R (JsObject.get? version.data key) ∧
    ∀ later ∈ after, canonical R (JsObject.get? later.data key) =
      canonical R (JsObject.get? version.data key)

theorem chainHead_concat (base : JsObject) (chain : List MergeVersion) (version : MergeVersion) :
    chainHead base (chain ++ [version]) = version.data := by
  simp [chainHead]

theorem fieldEditTime_concat (key : String) (previous : JsObject) (time : Option Text)
    (chain : List MergeVersion) (version : MergeVersion) :
    fieldEditTime R key previous time (chain ++ [version]) =
      if key ∈ fieldKeys [chainHead previous chain, version.data] ∧
          ¬sameValue R (JsObject.get? (chainHead previous chain) key)
            (JsObject.get? version.data key) then
        some version.editedAt
      else fieldEditTime R key previous time chain := by
  induction chain generalizing previous time with
  | nil => rfl
  | cons first chain ih =>
      have hhead : chainHead previous (first :: chain) = chainHead first.data chain := by
        unfold chainHead
        cases chain using List.reverseRecOn with
        | nil => rfl
        | append_singleton chain last =>
            rw [← List.cons_append, List.getLast?_append, List.getLast?_append]
            rfl
      rw [List.cons_append, fieldEditTime, ih, hhead, fieldEditTime]

/-- The head of a chain holds the value of the version that last changed the field. -/
theorem chainHead_of_after {before after : List MergeVersion} {version : MergeVersion}
    (h : ∀ later ∈ after, canonical R (JsObject.get? later.data key) =
      canonical R (JsObject.get? version.data key)) :
    canonical R (JsObject.get? (chainHead base (before ++ version :: after)) key) =
      canonical R (JsObject.get? version.data key) := by
  cases after using List.reverseRecOn with
  | nil => rw [chainHead_concat]
  | append_singleton after final =>
      rw [← List.cons_append, ← List.append_assoc, chainHead_concat]
      exact h final (by simp)

/-- A version after which the field stays is the one that last changed it, also with that later
version. -/
theorem ChangedLast.concat {version last : MergeVersion} (h : ChangedLast R key base chain version)
    (hlast : canonical R (JsObject.get? (chainHead base chain) key) =
      canonical R (JsObject.get? last.data key)) :
    ChangedLast R key base (chain ++ [last]) version := by
  obtain ⟨before, after, rfl, hne, hafter⟩ := h
  refine ⟨before, after ++ [last], by simp, hne, fun later hlater => ?_⟩
  rcases List.mem_append.1 hlater with hlater | hlater
  · exact hafter later hlater
  · rw [List.mem_singleton.1 hlater, ← hlast, chainHead_of_after hafter]

/-- **When a chain last changed a field**, by the last version that did. -/
theorem fieldEditTime_eq_some_iff (htype : key ≠ "type") (hversion : key ≠ "schemaVersion")
    {time : Text} :
    fieldEditTime R key base none chain = some time ↔
      ∃ version, ChangedLast R key base chain version ∧ version.editedAt = time := by
  induction chain using List.reverseRecOn generalizing time with
  | nil =>
      refine ⟨(fun h => by cases h), ?_⟩
      rintro ⟨version, ⟨before, after, hchain, -⟩, -⟩
      simp at hchain
  | append_singleton chain last ih =>
      rw [fieldEditTime_concat]
      have hchanged : (key ∈ fieldKeys [chainHead base chain, last.data] ∧
          ¬sameValue R (JsObject.get? (chainHead base chain) key)
            (JsObject.get? last.data key) = true) ↔
          canonical R (JsObject.get? (chainHead base chain) key) ≠
            canonical R (JsObject.get? last.data key) := by
        rw [sameValue_iff]
        refine ⟨fun h => h.2, fun h => ⟨?_, h⟩⟩
        by_contra hkey
        refine h ?_
        rw [get?_eq_none_of_notMem hkey htype hversion (chainHead base chain) (by simp),
          get?_eq_none_of_notMem hkey htype hversion last.data (by simp)]
      by_cases hlast : canonical R (JsObject.get? (chainHead base chain) key) =
          canonical R (JsObject.get? last.data key)
      · -- the last version left the field alone
        rw [if_neg fun h => hchanged.1 h hlast, ih]
        refine exists_congr fun version => and_congr_left fun _ => ⟨fun h => h.concat hlast, ?_⟩
        · rintro ⟨before, after, hchain, hne, hafter⟩
          cases after using List.reverseRecOn with
          | nil =>
              obtain ⟨rfl, hversion⟩ := List.append_inj' hchain rfl
              obtain rfl := List.singleton_inj.1 hversion
              exact absurd hlast hne
          | append_singleton after final =>
              rw [← List.cons_append, ← List.append_assoc] at hchain
              obtain ⟨rfl, hversion⟩ := List.append_inj' hchain rfl
              exact ⟨before, after, rfl, hne, fun later hlater =>
                hafter later (List.mem_append_left _ hlater)⟩
      · rw [if_pos (hchanged.2 hlast)]
        constructor
        · intro htime
          exact ⟨last, ⟨chain, [], rfl, hlast, fun _ h => by cases h⟩, Option.some.inj htime⟩
        · rintro ⟨version, ⟨before, after, hchain, hne, hafter⟩, rfl⟩
          cases after using List.reverseRecOn with
          | nil =>
              obtain ⟨-, hversion⟩ := List.append_inj' hchain rfl
              rw [List.singleton_inj.1 hversion]
          | append_singleton after final =>
              -- the last version would hold the value of the one before it
              rw [← List.cons_append, ← List.append_assoc] at hchain
              obtain ⟨rfl, hversion⟩ := List.append_inj' hchain rfl
              obtain rfl := List.singleton_inj.1 hversion
              refine absurd ?_ hlast
              rw [hafter last (by simp), chainHead_of_after fun later hlater =>
                hafter later (List.mem_append_left _ hlater)]

/-- A chain whose head differs from the base has a version that last changed the field. -/
theorem exists_changedLast
    (h : canonical R (JsObject.get? (chainHead base chain) key) ≠
      canonical R (JsObject.get? base key)) : ∃ version, ChangedLast R key base chain version := by
  induction chain using List.reverseRecOn with
  | nil => exact absurd rfl h
  | append_singleton chain last ih =>
      rw [chainHead_concat] at h
      by_cases hlast : canonical R (JsObject.get? (chainHead base chain) key) =
          canonical R (JsObject.get? last.data key)
      · obtain ⟨version, hversion⟩ := ih (hlast ▸ h)
        exact ⟨version, hversion.concat hlast⟩
      · exact ⟨last, chain, [], rfl, hlast, fun _ h => by cases h⟩

end Times

/-! ### The date of a password -/

section PasswordDate

variable (R : JsRuntime)

/-- The date a record has for a password, if it holds that password. -/
def dateFor (password : Option Json) (fields : JsObject) : Option Text :=
  if sameValue R (JsObject.get? fields "password") password then
    JsObject.text? fields passwordDateField
  else none

/-- The dates some records have for a password. -/
def passwordDates (password : Option Json) (versions : List JsObject) : List Text :=
  versions.filterMap (dateFor R password)

/-- One turn of the loop over dates. -/
def laterDate (latest : Option Text) (date : Text) : Option Text :=
  if isLater R (some date) latest then some date else latest

/-- The loop over dates. -/
def latestDate (dates : List Text) : Option Text := dates.foldl (laterDate R) none

/-- The latest of some dates: one of them, and no other that is known is later. -/
def LatestOf (dates : List Text) : Option Text → Prop
  | none => dates = []
  | some date => date ∈ dates ∧ ∀ other ∈ dates, ∀ time, R.dateParse other = some time →
      ∃ latest, R.dateParse date = some latest ∧ time ≤ latest

/-- The first date is unknown and a later one is not. -/
def Misled (dates : List Text) : Prop :=
  ∃ date rest, dates = date :: rest ∧ R.dateParse date = none ∧
    ∃ other ∈ rest, R.dateParse other ≠ none

variable {R}

theorem mergedPasswordDate_eq (password : Option Json) (versions : List JsObject) :
    mergedPasswordDate R password versions =
      if !password.any (·.truthy) then none
      else latestDate R (passwordDates R password versions) := by
  unfold mergedPasswordDate latestDate passwordDates dateFor
  rw [List.foldl_filterMap]
  split
  · rfl
  · congr 1
    funext latest fields
    cases JsObject.text? fields passwordDateField with
    | none =>
        have hnone : (if sameValue R (JsObject.get? fields "password") password then none
            else none : Option Text) = none := ite_self none
        rw [hnone]
    | some date =>
        by_cases hsame : sameValue R (JsObject.get? fields "password") password = true
        · simp [hsame, laterDate]
        · simp [hsame]

theorem isLater_some {a b : Text} :
    isLater R (some a) (some b) = true ↔
      ∃ x y, R.dateParse a = some x ∧ R.dateParse b = some y ∧ y < x := by
  cases ha : R.dateParse a with
  | none => simp [isLater, ha]
  | some x =>
      cases hb : R.dateParse b with
      | none => simp [isLater, ha, hb]
      | some y => simp [isLater, ha, hb]

/-- Nothing is later than an unknown date. -/
theorem foldl_laterDate_unknown {date : Text} (h : R.dateParse date = none) (dates : List Text) :
    dates.foldl (laterDate R) (some date) = some date := by
  induction dates with
  | nil => rfl
  | cons other dates ih =>
      have hkept : laterDate R (some date) other = some date := by
        refine if_neg fun hlater => ?_
        obtain ⟨x, y, -, hdate, -⟩ := isLater_some.1 hlater
        rw [h] at hdate
        cases hdate
      rw [List.foldl_cons, hkept, ih]

/-- After a known date the loop ends with the latest. -/
theorem latestOf_foldl {date : Text} {time : ℤ} (h : R.dateParse date = some time)
    (dates : List Text) :
    ∃ latest, dates.foldl (laterDate R) (some date) = some latest ∧
      LatestOf R (date :: dates) (some latest) := by
  induction dates using List.reverseRecOn with
  | nil =>
      refine ⟨date, rfl, List.mem_singleton_self _, fun other hother t ht => ?_⟩
      obtain rfl := List.mem_singleton.1 hother
      exact ⟨t, ht, le_rfl⟩
  | append_singleton dates last ih =>
      obtain ⟨latest, hfold, hmem, hmax⟩ := ih
      obtain ⟨top, htop, -⟩ := hmax date List.mem_cons_self time h
      rw [List.foldl_append, hfold, List.foldl_cons, List.foldl_nil]
      unfold laterDate
      split
      · next hlater =>
          obtain ⟨x, y, hlast, hlatest, hlt⟩ := isLater_some.1 hlater
          refine ⟨last, rfl, by simp, fun other hother t ht => ⟨x, hlast, ?_⟩⟩
          rw [← List.cons_append, List.mem_append, List.mem_singleton] at hother
          rcases hother with hother | rfl
          · obtain ⟨y', hy', hle⟩ := hmax other hother t ht
            obtain rfl := Option.some.inj (hlatest.symm.trans hy')
            omega
          · exact (Option.some.inj (ht.symm.trans hlast)).le
      · next hlater =>
          refine ⟨latest, rfl, ?_, fun other hother t ht => ?_⟩
          · rw [← List.cons_append]
            exact List.mem_append_left _ hmem
          rw [← List.cons_append, List.mem_append, List.mem_singleton] at hother
          rcases hother with hother | rfl
          · exact hmax other hother t ht
          · refine ⟨top, htop, ?_⟩
            by_contra hlt
            exact hlater (isLater_some.2 ⟨t, top, ht, htop, by omega⟩)

/-- **The loop finds the latest date**, unless the first one is unknown and another is not: an
unknown date counts as later than none, and nothing as later than it. -/
theorem latestOf_latestDate_iff (dates : List Text) :
    LatestOf R dates (latestDate R dates) ↔ ¬Misled R dates := by
  cases dates with
  | nil => exact ⟨(fun _ ⟨_, _, h, _⟩ => by cases h), fun _ => rfl⟩
  | cons date dates =>
      have hfirst : latestDate R (date :: dates) = dates.foldl (laterDate R) (some date) := rfl
      rw [hfirst]
      cases hparse : R.dateParse date with
      | none =>
          rw [foldl_laterDate_unknown hparse]
          constructor
          · rintro ⟨-, hmax⟩ ⟨_, _, hcons, -, other, hother, hknown⟩
            obtain ⟨rfl, rfl⟩ := List.cons.inj hcons
            obtain ⟨t, ht⟩ := Option.ne_none_iff_exists'.1 hknown
            obtain ⟨top, htop, -⟩ := hmax other (List.mem_cons_of_mem _ hother) t ht
            rw [hparse] at htop
            cases htop
          · intro hmisled
            refine ⟨List.mem_cons_self, fun other hother t ht => ?_⟩
            rcases List.mem_cons.1 hother with rfl | hother
            · exact ⟨t, ht, le_rfl⟩
            · refine absurd ⟨date, dates, rfl, hparse, other, hother, ?_⟩ hmisled
              rw [ht]
              exact Option.some_ne_none t
      | some time =>
          obtain ⟨latest, hfold, hlatest⟩ := latestOf_foldl hparse dates
          rw [hfold]
          refine ⟨fun _ hmisled => ?_, fun _ => hlatest⟩
          obtain ⟨_, _, hcons, hnone, -⟩ := hmisled
          rw [(List.cons.inj hcons).1] at hparse
          rw [hparse] at hnone
          cases hnone

/-- The latest date tells when, however the dates are ordered. -/
theorem LatestOf.time {dates dates' : List Text} {date date' : Option Text}
    (h : LatestOf R dates date) (h' : LatestOf R dates' date') (hmem : ∀ d, d ∈ dates ↔ d ∈ dates') :
    date.map R.dateParse = date'.map R.dateParse := by
  cases date with
  | none =>
      cases date' with
      | none => rfl
      | some d' =>
          have hd' := (hmem d').2 h'.1
          rw [show dates = [] from h] at hd'
          cases hd'
  | some d =>
      cases date' with
      | none =>
          have hd := (hmem d).1 h.1
          rw [show dates' = [] from h'] at hd
          cases hd
      | some d' =>
          rw [Option.map_some, Option.map_some]
          congr 1
          cases hparse : R.dateParse d with
          | none =>
              by_contra hne
              obtain ⟨t, ht⟩ := Option.ne_none_iff_exists'.1 (Ne.symm hne)
              obtain ⟨latest, hlatest, -⟩ := h.2 d' ((hmem d').2 h'.1) t ht
              rw [hparse] at hlatest
              cases hlatest
          | some t =>
              obtain ⟨t', ht', hle'⟩ := h'.2 d ((hmem d).1 h.1) t hparse
              obtain ⟨t'', ht'', hle⟩ := h.2 d' ((hmem d').2 h'.1) t' ht'
              obtain rfl := Option.some.inj (hparse.symm.trans ht'')
              rw [ht', le_antisymm hle' hle]

end PasswordDate

end Passmgr
