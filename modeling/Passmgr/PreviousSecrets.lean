/-
# Previous secrets

`previousSecrets` of `packages/client/src/records/previous-secrets.ts`: the values the secret fields
of a record had in earlier versions, newest replacement first.  A value that one of the record's
fields holds now is left out, and one listed is not listed again.  What was listed is told apart by
a text made of the field's key, U+0000 and what the field is compared by.

How a date is written and what `getRecordFieldSpecs` takes are parameters.

Main definitions:

* `previousSecrets` — the list;
* `Former` — a field and a value it had, that no field of the record has now;
* `ListsFormer` — what the list is for: each of them once, dated by what followed its last
  appearance;
* `IdsApart` — no two of them give one text.

Main results:

* `walk_spec` — what is listed after any number of versions;
* `previousSecrets_iff` — the list is what it is for exactly where the texts are apart;
* `idsApart_of_titles` — which they are where no title of a custom field has the character.
-/

import Passmgr.FieldSpecs

set_option relaxedAutoImplicit false
set_option autoImplicit false

namespace Passmgr

open scoped List

/-! ### The code -/

/-- What `previousSecrets` takes of the platform. -/
structure SecretsRuntime where
  sshKeyFingerprint : Text → Option Text
  stringify : Stringify
  toLocalDateStr : Text → Text

/-- A former value of a secret field; `usedUntil` is the date it was replaced. -/
structure PreviousSecret extends FieldSpec where
  usedUntil : Text
  deriving DecidableEq, Repr

/-- `Map.set` of specs by their keys. -/
def setSpec (specs : List FieldSpec) (spec : FieldSpec) : List FieldSpec :=
  if spec.key ∈ specs.map (·.key) then specs.map fun s => if s.key = spec.key then spec else s
  else specs ++ [spec]

def isSecretSpec (spec : FieldSpec) : Bool :=
  spec.kind ∈ secretKinds && spec.value.any (· ≠ [])

variable (R : SecretsRuntime)

def secretSpecs (record : RecordData) : List FieldSpec :=
  ((getRecordFieldSpecs R.sshKeyFingerprint R.stringify record).filter isSecretSpec).foldl setSpec []

/-- `newerSpecs.get(key)?.compare`. -/
def compareOf (specs : List FieldSpec) (key : Text) : Option Text :=
  (specs.find? (·.key = key)).map (·.compare)

def usedUntilLabel (spec : FieldSpec) (date : Text) : Text :=
  if spec.kind = .password then "Used until ".toList ++ date
  else spec.label ++ " · used until ".toList ++ date

/-- `${key}\u0000${spec.compare}`. -/
def FieldSpec.id (spec : FieldSpec) : Text := spec.key ++ '\x00' :: spec.compare

/-- The row of a value of `version` that `newer` replaced. -/
def previousSecret (newer version : DecryptedRecord) (spec : FieldSpec) : PreviousSecret :=
  { spec with
    key := spec.key ++ '@' :: versionText version.version
    kind := .secret
    label := usedUntilLabel spec (R.toLocalDateStr newer.clientUpdatedAt)
    usedUntil := R.toLocalDateStr newer.clientUpdatedAt }

structure SecretsWalk where
  seen : List Text
  previous : List PreviousSecret
  newer : DecryptedRecord
  newerSpecs : List FieldSpec

/-- One secret field of a version. -/
def walkSpec (currentValues : List (Option Text)) (version : DecryptedRecord) (s : SecretsWalk)
    (spec : FieldSpec) : SecretsWalk :=
  if compareOf s.newerSpecs spec.key = some spec.compare then s
  else if spec.value ∈ currentValues then s
  else if spec.id ∈ s.seen then s
  else
    { s with
      seen := spec.id :: s.seen
      previous := s.previous ++ [previousSecret R s.newer version spec] }

/-- One version of the history. -/
def walkVersion (record : DecryptedRecord) (s : SecretsWalk) (version : DecryptedRecord) :
    SecretsWalk :=
  if record.version ≤ version.version then s
  else
    let older := secretSpecs R version.toRecordData
    let currentValues := (secretSpecs R record.toRecordData).map (·.value)
    { older.foldl (walkSpec R currentValues version) s with
      newer := version
      newerSpecs := older }

def previousSecrets (record : DecryptedRecord) (history : List DecryptedRecord) :
    List PreviousSecret :=
  (history.foldl (walkVersion R record)
    ⟨[], [], record, secretSpecs R record.toRecordData⟩).previous

/-! ### Secret fields of a version -/

theorem foldl_setSpec {specs before : List FieldSpec}
    (h : ((before ++ specs).map (·.key)).Nodup) : specs.foldl setSpec before = before ++ specs := by
  induction specs generalizing before with
  | nil => simp
  | cons spec specs ih =>
    have hnot : spec.key ∉ before.map (·.key) := by
      intro hmem
      rw [List.map_append, List.map_cons] at h
      exact (List.nodup_append.1 h).2.2 _ hmem _ List.mem_cons_self rfl
    rw [List.foldl_cons, setSpec, if_neg hnot, ih (by simpa using h), List.append_assoc]
    rfl

/-- The map of the secret fields is the list of them, for no key comes twice. -/
theorem secretSpecs_eq (record : RecordData) :
    secretSpecs R record =
      (getRecordFieldSpecs R.sshKeyFingerprint R.stringify record).filter isSecretSpec := by
  have hsub : ((getRecordFieldSpecs R.sshKeyFingerprint R.stringify record).filter
      isSecretSpec).map (·.key) <+
        (getRecordFieldSpecs R.sshKeyFingerprint R.stringify record).map (·.key) :=
    List.filter_sublist.map _
  exact @foldl_setSpec _ [] ((nodup_keys _ _ _ _ _).sublist hsub)

/-- What a secret field of a version has: a value, and what it is compared by. -/
theorem mem_secretSpecs {record : RecordData} {spec : FieldSpec}
    (h : spec ∈ secretSpecs R record) :
    ∃ value, spec.value = some value ∧ spec.compare = secretCompare spec.key value := by
  rw [secretSpecs_eq, List.mem_filter, isSecretSpec, Bool.and_eq_true, decide_eq_true_eq] at h
  obtain ⟨hmem, hkind, hvalue⟩ := h
  obtain ⟨value, hvalue, -⟩ := (Option.any_eq_true _ _).1 hvalue
  exact ⟨value, hvalue, compare_of_secret hmem hkind hvalue⟩

theorem compareOf_eq_some {specs : List FieldSpec} {key compare : Text}
    (h : compareOf specs key = some compare) :
    ∃ spec ∈ specs, spec.key = key ∧ spec.compare = compare := by
  obtain ⟨spec, hfind, hcompare⟩ := Option.map_eq_some_iff.1 h
  exact ⟨spec, List.mem_of_find?_eq_some hfind, by simpa using List.find?_some hfind, hcompare⟩

/-! ### What the list is for -/

/-- A secret field of a version has this value. -/
def Holds (record : RecordData) (key value : Text) : Prop :=
  ∃ spec ∈ secretSpecs R record, spec.key = key ∧ spec.value = some value

/-- The versions below the record's. -/
def olderVersions (record : DecryptedRecord) (history : List DecryptedRecord) :
    List DecryptedRecord :=
  history.filter (·.version < record.version)

/-- A field and a value it had in a version below the record's, that no field has now. -/
def Former (record : DecryptedRecord) (history : List DecryptedRecord) (key value : Text) : Prop :=
  (∃ version ∈ olderVersions record history, Holds R version.toRecordData key value) ∧
    ∀ key', ¬ Holds R record.toRecordData key' value

/-- A secret field of `version`, replaced in `newer`. -/
structure Replaced where
  spec : FieldSpec
  version : DecryptedRecord
  newer : DecryptedRecord

namespace Replaced

def key (f : Replaced) : Text := f.spec.key

def value (f : Replaced) : Text := f.spec.value.getD []

def row (f : Replaced) : PreviousSecret := previousSecret R f.newer f.version f.spec

/-- `version` is the last that held the value, and `newer` the one that followed it: the record,
where no version between them is known. -/
structure Last (record : DecryptedRecord) (history : List DecryptedRecord) (f : Replaced) :
    Prop where
  mem : f.spec ∈ secretSpecs R f.version.toRecordData
  follows : ∃ before after, record :: olderVersions record history =
    before ++ f.newer :: f.version :: after
  last : ∀ version ∈ olderVersions record history, f.version.version < version.version →
    ¬ Holds R version.toRecordData f.key f.value

end Replaced

/-- The list has each former value once, dated by the version that followed its last appearance,
the newest replacement first, and nothing else. -/
def ListsFormer (record : DecryptedRecord) (history : List DecryptedRecord) : Prop :=
  ∃ found : List Replaced, previousSecrets R record history = found.map (Replaced.row R) ∧
    (found.map fun f => (f.key, f.value)).Nodup ∧
    (∀ key value, (key, value) ∈ found.map (fun f => (f.key, f.value)) ↔
      Former R record history key value) ∧
    (∀ f ∈ found, f.Last R record history) ∧
    found.Pairwise fun f g => g.newer.version ≤ f.newer.version

/-- The text by which what was listed is known. -/
def secretId (key value : Text) : Text := key ++ '\x00' :: secretCompare key value

/-- No two former values give one text. -/
def IdsApart (record : DecryptedRecord) (history : List DecryptedRecord) : Prop :=
  ∀ key value key' value', Former R record history key value →
    Former R record history key' value' → secretId key value = secretId key' value' →
      key = key' ∧ value = value'

theorem id_eq_secretId {record : RecordData} {spec : FieldSpec} (h : spec ∈ secretSpecs R record)
    {value : Text} (hvalue : spec.value = some value) : spec.id = secretId spec.key value := by
  obtain ⟨value', hvalue', hcompare⟩ := mem_secretSpecs R h
  obtain rfl := Option.some.inj (hvalue.symm.trans hvalue')
  rw [FieldSpec.id, secretId, hcompare]

/-! ### The walk -/

/-- The values the record's secret fields have now. -/
def currentValues (record : RecordData) : List (Option Text) :=
  (secretSpecs R record).map (·.value)

theorem mem_currentValues {record : RecordData} {value : Text} :
    some value ∈ currentValues R record ↔ ∃ key, Holds R record key value := by
  constructor
  · intro h
    obtain ⟨spec, hspec, hvalue⟩ := List.mem_map.1 h
    exact ⟨spec.key, spec, hspec, rfl, hvalue⟩
  · rintro ⟨key, spec, hspec, -, hvalue⟩
    exact List.mem_map.2 ⟨spec, hspec, hvalue⟩

/-- What the walk has after the versions `done`, of which the last has been gone through up to some
field: `gone` are the versions whose fields all have been. -/
structure Walked (record : DecryptedRecord) (done : List DecryptedRecord) (s : SecretsWalk)
    (found : List Replaced) : Prop where
  previous : s.previous = found.map (Replaced.row R)
  seen : ∀ id, id ∈ s.seen ↔ id ∈ found.map (·.spec.id)
  nodup : (found.map (·.spec.id)).Nodup
  mem : ∀ f ∈ found, f.spec ∈ secretSpecs R f.version.toRecordData ∧
    f.spec.value ∉ currentValues R record.toRecordData
  place : ∀ f ∈ found, ∃ before after, done = before ++ f.version :: after ∧
    f.newer = before.getLastD record ∧ ∀ version ∈ before,
      ∀ spec ∈ secretSpecs R version.toRecordData,
        spec.value ∉ currentValues R record.toRecordData → spec.id ≠ f.spec.id
  order : found.Pairwise fun f g => g.newer.version ≤ f.newer.version
  newest : ∀ f ∈ found, s.newer.version ≤ f.newer.version

/-- Every former value of these fields is listed. -/
def Seen (record : DecryptedRecord) (s : SecretsWalk) (specs : List FieldSpec) : Prop :=
  ∀ spec ∈ specs, spec.value ∉ currentValues R record.toRecordData → spec.id ∈ s.seen

section Walk

variable {R} {record version : DecryptedRecord} {done : List DecryptedRecord} {s : SecretsWalk}
  {found : List Replaced}

/-- A field that the newer version has with the same value was seen there, or is current. -/
theorem seen_of_compareOf (hnewer : s.newer = done.getLastD record)
    (hspecs : s.newerSpecs = secretSpecs R s.newer.toRecordData)
    (hdone : ∀ v ∈ done, Seen R record s (secretSpecs R v.toRecordData)) {spec : FieldSpec}
    (hspec : spec ∈ secretSpecs R version.toRecordData)
    (hcompare : compareOf s.newerSpecs spec.key = some spec.compare)
    (hold : spec.value ∉ currentValues R record.toRecordData) : spec.id ∈ s.seen := by
  rw [hspecs] at hcompare
  obtain ⟨other, hother, hkey, heq⟩ := compareOf_eq_some hcompare
  have hid : other.id = spec.id := by rw [FieldSpec.id, FieldSpec.id, hkey, heq]
  have hvalue : other.value = spec.value := by
    obtain ⟨value, hvalue, hspecCompare⟩ := mem_secretSpecs R hspec
    obtain ⟨value', hvalue', hotherCompare⟩ := mem_secretSpecs R hother
    rw [hspecCompare, hotherCompare, hkey, secretCompare_inj] at heq
    rw [hvalue, hvalue', heq]
  rw [← hvalue] at hold
  rw [← hid]
  obtain rfl | ⟨before, last, rfl⟩ := List.eq_nil_or_concat done
  · rw [hnewer] at hother
    exact absurd (List.mem_map_of_mem hother) hold
  · rw [List.concat_eq_append, List.getLastD_concat] at hnewer
    rw [hnewer] at hother
    exact hdone last (by simp) other hother hold

/-- The step of the walk over the fields of one version. -/
theorem walkSpec_walked (h : Walked R record (done ++ [version]) s found)
    (hnewer : s.newer = done.getLastD record)
    (hspecs : s.newerSpecs = secretSpecs R s.newer.toRecordData)
    (hdone : ∀ v ∈ done, Seen R record s (secretSpecs R v.toRecordData)) {spec : FieldSpec}
    (hspec : spec ∈ secretSpecs R version.toRecordData) {t : SecretsWalk}
    (ht : t = walkSpec R (currentValues R record.toRecordData) version s spec) :
    (∃ found, Walked R record (done ++ [version]) t found) ∧ t.newer = s.newer ∧
      t.newerSpecs = s.newerSpecs ∧ s.seen ⊆ t.seen ∧ Seen R record t [spec] := by
  have hsingle : ∀ {u : SecretsWalk}, (spec.value ∉ currentValues R record.toRecordData →
      spec.id ∈ u.seen) → Seen R record u [spec] := by
    intro u hu other hother hold
    obtain rfl := List.mem_singleton.1 hother
    exact hu hold
  subst ht
  unfold walkSpec
  split
  · rename_i hcompare
    exact ⟨⟨found, h⟩, rfl, rfl, List.Subset.refl _,
      hsingle (seen_of_compareOf hnewer hspecs hdone hspec hcompare)⟩
  split
  · rename_i hcurrent
    exact ⟨⟨found, h⟩, rfl, rfl, List.Subset.refl _, hsingle fun hold => absurd hcurrent hold⟩
  split
  · rename_i hseen
    exact ⟨⟨found, h⟩, rfl, rfl, List.Subset.refl _, hsingle fun _ => hseen⟩
  -- the field is listed: its last version is this one, for its text was not seen before
  rename_i _ hold hnot
  refine ⟨⟨found ++ [⟨spec, version, s.newer⟩], ?_⟩, rfl, rfl, List.subset_cons_self _ _,
    hsingle fun _ => List.mem_cons_self⟩
  refine ⟨?_, ?_, ?_, ?_, ?_, ?_, ?_⟩
  · rw [List.map_append, ← h.previous]
    rfl
  · intro id
    rw [List.mem_cons, h.seen, List.map_append, List.mem_append, or_comm]
    exact or_congr_right List.mem_singleton.symm
  · rw [List.map_append]
    refine List.nodup_append.2 ⟨h.nodup, List.nodup_singleton _, ?_⟩
    rintro id hid id' hid' rfl
    obtain rfl : id = spec.id := List.mem_singleton.1 hid'
    exact hnot ((h.seen _).2 hid)
  · intro f hf
    obtain hf | hf := List.mem_append.1 hf
    · exact h.mem f hf
    · obtain rfl := List.mem_singleton.1 hf
      exact ⟨hspec, hold⟩
  · intro f hf
    obtain hf | hf := List.mem_append.1 hf
    · exact h.place f hf
    · obtain rfl := List.mem_singleton.1 hf
      refine ⟨done, [], rfl, hnewer, ?_⟩
      intro v hv other hother hold' heq
      exact hnot (heq ▸ hdone v hv other hother hold')
  · refine List.pairwise_append.2 ⟨h.order, List.pairwise_singleton _ _, ?_⟩
    intro f hf g hg
    obtain rfl := List.mem_singleton.1 hg
    exact h.newest f hf
  · intro f hf
    obtain hf | hf := List.mem_append.1 hf
    · exact h.newest f hf
    · obtain rfl := List.mem_singleton.1 hf
      exact le_rfl

/-- The walk over the fields of one version. -/
theorem foldl_walkSpec_walked {specs : List FieldSpec}
    (hsub : specs ⊆ secretSpecs R version.toRecordData)
    (h : Walked R record (done ++ [version]) s found) (hnewer : s.newer = done.getLastD record)
    (hspecs : s.newerSpecs = secretSpecs R s.newer.toRecordData)
    (hdone : ∀ v ∈ done, Seen R record s (secretSpecs R v.toRecordData)) {t : SecretsWalk}
    (ht : t = specs.foldl (walkSpec R (currentValues R record.toRecordData) version) s) :
    (∃ found, Walked R record (done ++ [version]) t found) ∧ t.newer = s.newer ∧
      s.seen ⊆ t.seen ∧ Seen R record t specs := by
  induction specs generalizing s found with
  | nil =>
    subst ht
    exact ⟨⟨found, h⟩, rfl, List.Subset.refl _, fun spec hspec => absurd hspec List.not_mem_nil⟩
  | cons spec specs ih =>
    obtain ⟨hspec, hrest⟩ := List.cons_subset.1 hsub
    obtain ⟨⟨found', hfound'⟩, hnewer', hspecs', hseen', hthis⟩ :=
      walkSpec_walked h hnewer hspecs hdone hspec rfl
    have hgrow : ∀ {u u' : SecretsWalk} {others : List FieldSpec}, u.seen ⊆ u'.seen →
        Seen R record u others → Seen R record u' others :=
      fun hsub hseen other hother hold => hsub (hseen other hother hold)
    obtain ⟨hexists, hnewer'', hseen'', hthese⟩ := ih hrest hfound' (hnewer'.trans hnewer)
      (by rw [hspecs', hnewer', hspecs]) (fun v hv => hgrow hseen' (hdone v hv)) ht
    refine ⟨hexists, hnewer''.trans hnewer', List.Subset.trans hseen' hseen'', ?_⟩
    intro other hother hold
    obtain rfl | hother := List.mem_cons.1 hother
    · exact hgrow hseen'' hthis other List.mem_cons_self hold
    · exact hthese other hother hold

/-- The walk between two versions. -/
structure AtVersion (R : SecretsRuntime) (record : DecryptedRecord) (done : List DecryptedRecord)
    (s : SecretsWalk) : Prop where
  walked : ∃ found, Walked R record done s found
  newer : s.newer = done.getLastD record
  newerSpecs : s.newerSpecs = secretSpecs R s.newer.toRecordData
  seen : ∀ v ∈ done, Seen R record s (secretSpecs R v.toRecordData)

theorem atVersion_nil :
    AtVersion R record [] ⟨[], [], record, secretSpecs R record.toRecordData⟩ := by
  refine ⟨⟨[], ?_⟩, rfl, rfl, fun v hv => absurd hv List.not_mem_nil⟩
  exact ⟨rfl, by simp, List.nodup_nil, by simp, by simp, List.Pairwise.nil, by simp⟩

/-- The step of the walk over the versions. -/
theorem walkVersion_walked (h : AtVersion R record done s)
    (hbelow : version.version < record.version)
    (hfalling : ∀ v ∈ done, version.version < v.version) :
    AtVersion R record (done ++ [version]) (walkVersion R record s version) := by
  obtain ⟨⟨found, hfound⟩, hnewer, hspecs, hdone⟩ := h
  have hle : version.version ≤ s.newer.version := by
    rw [hnewer]
    obtain heq | hmem := List.mem_cons.1 (List.getLastD_mem_cons (l := done) (a := record))
    · rw [heq]
      exact hbelow.le
    · exact (hfalling _ hmem).le
  have hstart : Walked R record (done ++ [version]) s found := by
    refine ⟨hfound.previous, hfound.seen, hfound.nodup, hfound.mem, ?_, hfound.order,
      hfound.newest⟩
    intro f hf
    obtain ⟨before, after, rfl, hplace⟩ := hfound.place f hf
    exact ⟨before, after ++ [version], by simp, hplace⟩
  obtain ⟨⟨found', hfound'⟩, hnewer', hseen', hthese⟩ :=
    foldl_walkSpec_walked (List.Subset.refl _) hstart hnewer hspecs hdone rfl
  unfold walkVersion
  rw [if_neg (Nat.not_le.2 hbelow)]
  refine ⟨⟨found', ⟨hfound'.previous, hfound'.seen, hfound'.nodup, hfound'.mem, hfound'.place,
    hfound'.order, ?_⟩⟩, List.getLastD_concat.symm, rfl, ?_⟩
  · intro f hf
    exact hle.trans (hnewer' ▸ hfound'.newest f hf)
  · intro v hv
    obtain hv | hv := List.mem_append.1 hv
    · exact fun other hother hold => hseen' (hdone v hv other hother hold)
    · obtain rfl := List.mem_singleton.1 hv
      exact hthese

/-- What is listed after all versions. -/
theorem walk_spec {history : List DecryptedRecord} (h : AtVersion R record done s)
    (hfalling : (done ++ history).Pairwise fun v w => w.version < v.version) :
    AtVersion R record (done ++ olderVersions record history)
      (history.foldl (walkVersion R record) s) := by
  induction history generalizing done s with
  | nil => simpa [olderVersions] using h
  | cons version history ih =>
    rw [List.foldl_cons]
    by_cases hbelow : version.version < record.version
    · have hlower : ∀ v ∈ done, version.version < v.version := fun v hv =>
        (List.pairwise_append.1 hfalling).2.2 v hv version List.mem_cons_self
      have hnext := ih (walkVersion_walked h hbelow hlower) (by simpa using hfalling)
      simpa [olderVersions, hbelow] using hnext
    · have hskip : walkVersion R record s version = s := by
        unfold walkVersion
        rw [if_pos (Nat.not_lt.1 hbelow)]
      have hrest : (done ++ history).Pairwise fun v w => w.version < v.version :=
        hfalling.sublist ((List.sublist_cons_self _ _).append_left _)
      rw [hskip]
      simpa [olderVersions, hbelow] using ih h hrest

end Walk

/-! ### The law -/

/-- Two equal rows are of one field and value. -/
theorem key_value_of_row {f g : Replaced} (h : f.row R = g.row R) :
    f.key = g.key ∧ f.value = g.value := by
  have hat : ∀ n, '@' ∉ versionText n := by
    intro n hmem
    exact absurd (Nat.isDigit_of_mem_toDigits (by decide) (by decide) hmem) (by decide)
  have hkey : f.spec.key ++ '@' :: versionText f.version.version =
      g.spec.key ++ '@' :: versionText g.version.version :=
    congrArg (fun row : PreviousSecret => row.key) h
  have hvalue : f.spec.value = g.spec.value := congrArg (fun row : PreviousSecret => row.value) h
  refine ⟨(Separators.last_inj (hat _) (hat _) hkey).1, ?_⟩
  rw [Replaced.value, Replaced.value, hvalue]

section Law

variable {R} {record : DecryptedRecord} {history : List DecryptedRecord}
  (hfalling : history.Pairwise fun v w => w.version < v.version)

include hfalling

/-- The list is that of the walk. -/
theorem previousSecrets_walked :
    ∃ found : List Replaced, previousSecrets R record history = found.map (Replaced.row R) ∧
      (found.map (·.spec.id)).Nodup ∧
      (∀ f ∈ found, f.Last R record history ∧ Former R record history f.key f.value ∧
        f.spec.id = secretId f.key f.value) ∧
      (∀ key value, Former R record history key value →
        secretId key value ∈ found.map (·.spec.id)) ∧
      found.Pairwise fun f g => g.newer.version ≤ f.newer.version := by
  have h := walk_spec (@atVersion_nil R record) hfalling
  rw [List.nil_append] at h
  obtain ⟨found, hfound⟩ := h.walked
  refine ⟨found, hfound.previous, hfound.nodup, ?_, ?_, hfound.order⟩
  · intro f hf
    obtain ⟨hspec, hold⟩ := hfound.mem f hf
    obtain ⟨before, after, hplace, hnewer, hbefore⟩ := hfound.place f hf
    obtain ⟨value, hvalue, -⟩ := mem_secretSpecs R hspec
    have hf' : f.value = value := by rw [Replaced.value, hvalue, Option.getD_some]
    have hid : f.spec.id = secretId f.key f.value := hf' ▸ id_eq_secretId R hspec hvalue
    refine ⟨⟨hspec, ?_, ?_⟩, ⟨⟨f.version, ?_, f.spec, hspec, rfl, hf' ▸ hvalue⟩, ?_⟩, hid⟩
    · -- what follows the version is the last of those before it, or the record
      rw [hplace, hnewer]
      obtain rfl | ⟨before, last, rfl⟩ := List.eq_nil_or_concat before
      · exact ⟨[], after, rfl⟩
      · refine ⟨record :: before, after, ?_⟩
        rw [List.concat_eq_append, List.getLastD_concat]
        simp
    · intro version hversion hnewerVersion
      rintro ⟨spec, hspec', hkey, hvalue'⟩
      have hbelow : version ∈ before := by
        have hpair : (olderVersions record history).Pairwise fun v w => w.version < v.version :=
          hfalling.filter _
        rw [hplace] at hversion hpair
        obtain hmem | hmem := List.mem_append.1 hversion
        · exact hmem
        · obtain rfl | hafter := List.mem_cons.1 hmem
          · omega
          · have hlt := (List.pairwise_cons.1 (List.pairwise_append.1 hpair).2.1).1 _ hafter
            omega
      refine hbefore version hbelow spec hspec' ?_ ?_
      · rw [hvalue', hf', ← hvalue]
        exact hold
      · rw [id_eq_secretId R hspec' hvalue', hkey, hid]
    · rw [hplace]
      exact List.mem_append_right _ List.mem_cons_self
    · intro key hholds
      rw [hf'] at hholds
      exact hold (hvalue ▸ (mem_currentValues R).2 ⟨key, hholds⟩)
  · rintro key value ⟨⟨version, hversion, spec, hspec, rfl, hvalue⟩, hnow⟩
    have hold : spec.value ∉ currentValues R record.toRecordData := by
      rw [hvalue, mem_currentValues]
      rintro ⟨key, hholds⟩
      exact hnow key hholds
    rw [← id_eq_secretId R hspec hvalue]
    exact (hfound.seen _).1 (h.seen version hversion spec hspec hold)

/-- **Previous secrets are complete and never repeated** exactly where no two former values give
one text. -/
theorem previousSecrets_iff : ListsFormer R record history ↔ IdsApart R record history := by
  obtain ⟨found, hrows, hnodup, hfound, hall, horder⟩ := previousSecrets_walked hfalling
  constructor
  · rintro ⟨listed, hlisted, -, hformer, -, -⟩ key value key' value' h h' hid
    -- each of the two has a row, made by the walk for the same text
    have hwalked : ∀ key value, Former R record history key value →
        ∃ f ∈ found, f.key = key ∧ f.value = value := by
      intro key value h
      obtain ⟨l, hl, hpair⟩ := List.mem_map.1 ((hformer key value).2 h)
      obtain ⟨rfl, rfl⟩ := Prod.mk.inj hpair
      have hrow : l.row R ∈ found.map (Replaced.row R) := by
        rw [← hrows, hlisted]
        exact List.mem_map_of_mem hl
      obtain ⟨f, hf, heq⟩ := List.mem_map.1 hrow
      exact ⟨f, hf, key_value_of_row R heq⟩
    obtain ⟨f, hf, rfl, rfl⟩ := hwalked key value h
    obtain ⟨g, hg, rfl, rfl⟩ := hwalked key' value' h'
    rw [← (hfound f hf).2.2, ← (hfound g hg).2.2] at hid
    obtain rfl := List.inj_on_of_nodup_map hnodup hf hg hid
    exact ⟨rfl, rfl⟩
  · intro hapart
    refine ⟨found, hrows, ?_, ?_, fun f hf => (hfound f hf).1, horder⟩
    · refine List.pairwise_map.2 ((List.pairwise_map.1 hnodup).imp_of_mem ?_)
      intro f g hf hg hne heq
      obtain ⟨hkey, hvalue⟩ := Prod.mk.inj heq
      rw [(hfound f hf).2.2, (hfound g hg).2.2, hkey, hvalue] at hne
      exact hne rfl
    · intro key value
      constructor
      · intro hmem
        obtain ⟨f, hf, hpair⟩ := List.mem_map.1 hmem
        obtain ⟨rfl, rfl⟩ := Prod.mk.inj hpair
        exact (hfound f hf).2.1
      · intro h
        obtain ⟨f, hf, hid⟩ := List.mem_map.1 (hall key value h)
        obtain ⟨rfl, rfl⟩ := hapart _ _ _ _ (hfound f hf).2.1 h ((hfound f hf).2.2.symm.trans hid)
        exact List.mem_map_of_mem hf

end Law

namespace SecretsExample

/-- The platform: only the dates are read. -/
def runtime : SecretsRuntime where
  sshKeyFingerprint _ := none
  stringify := List.flatten
  toLocalDateStr date := date

def note (version : ℕ) (customFields : List CustomField) : DecryptedRecord where
  title := "Codes".toList
  customFields := some customFields
  data := .note
  recordId := 1
  version := version
  clientUpdatedAt := versionText version

/-- A PIN that was changed, and one that was cleared. -/
def pins : List DecryptedRecord :=
  [note 2 [⟨.secret, "PIN".toList, "2222".toList⟩],
    note 1 [⟨.secret, "PIN".toList, "1111".toList⟩]]

/-- Two fields, of which the title of one goes on like the value of the other. -/
def clash : List DecryptedRecord :=
  [note 1 [⟨.secret, "A".toList, "B:0".toList ++ '\x00' :: "secret Y".toList⟩,
    ⟨.secret, "A:0".toList ++ '\x00' :: "secret B".toList, "Y".toList⟩]]

end SecretsExample

/-- The list of a changed and then cleared PIN. -/
theorem previousSecrets_iff_pins :
    (SecretsExample.pins.Pairwise fun v w => w.version < v.version) ∧
      (ListsFormer SecretsExample.runtime (SecretsExample.note 3 []) SecretsExample.pins ↔
        IdsApart SecretsExample.runtime (SecretsExample.note 3 []) SecretsExample.pins) := by
  have hfalling : SecretsExample.pins.Pairwise fun v w => w.version < v.version := by decide
  exact ⟨hfalling, previousSecrets_iff hfalling⟩

/-- A field and value that one listed before has the text of is not listed. -/
theorem clashing_secret_left_out :
    (SecretsExample.clash.Pairwise fun v w => w.version < v.version) ∧
      ¬ ListsFormer SecretsExample.runtime (SecretsExample.note 2 []) SecretsExample.clash := by
  refine ⟨by decide, ?_⟩
  rintro ⟨found, hrows, -, hformer, -⟩
  have hlen : (previousSecrets SecretsExample.runtime (SecretsExample.note 2 [])
      SecretsExample.clash).length = 1 := by decide
  rw [hrows, List.length_map] at hlen
  obtain ⟨f, rfl⟩ := List.length_eq_one_iff.1 hlen
  have hnow : ∀ value key', ¬ Holds SecretsExample.runtime
      (SecretsExample.note 2 []).toRecordData key' value := by
    rintro value key' ⟨spec, hspec, -⟩
    have hnil : secretSpecs SecretsExample.runtime (SecretsExample.note 2 []).toRecordData = [] := by
      decide
    rw [hnil] at hspec
    exact absurd hspec List.not_mem_nil
  have hheld : ∀ key value, (∃ version ∈ olderVersions (SecretsExample.note 2 [])
      SecretsExample.clash, Holds SecretsExample.runtime version.toRecordData key value) →
        f.key = key := by
    intro key value h
    have hmem := (hformer key value).2 ⟨h, hnow value⟩
    exact (Prod.mk.inj (List.mem_singleton.1 hmem)).1.symm
  have hfirst := hheld "custom:A:0".toList ("B:0".toList ++ '\x00' :: "secret Y".toList) (by
    unfold Holds
    decide)
  have hsecond := hheld ("custom:A:0".toList ++ '\x00' :: "secret B:0".toList) "Y".toList (by
    unfold Holds
    decide)
  exact absurd (hfirst.symm.trans hsecond) (by decide)

/-! ### Titles -/

theorem nul_notMem_key {record : RecordData} {spec : FieldSpec} (h : spec ∈ secretSpecs R record)
    (htitles : ∀ field ∈ record.customFields.getD [], '\x00' ∉ field.title) :
    '\x00' ∉ spec.key := by
  rw [secretSpecs_eq, List.mem_filter] at h
  obtain hfixed | ⟨field, hfield, n, hkey⟩ := key_of_mem _ _ _ _ _ h.1
  · have hall : ∀ key ∈ fixedKeys record.data.type, '\x00' ∉ key := by
      cases record.data.type <;> decide
    exact hall _ hfixed
  · rw [hkey]
    unfold customKey
    simp only [List.mem_append, List.mem_cons, not_or]
    refine ⟨⟨by decide, htitles field hfield⟩, by decide, ?_⟩
    intro hmem
    exact absurd (Nat.isDigit_of_mem_toDigits (by decide) (by decide) hmem) (by decide)

/-- The texts are apart where no title of a custom field has U+0000. -/
theorem idsApart_of_titles {record : DecryptedRecord} {history : List DecryptedRecord}
    (htitles : ∀ version ∈ history, ∀ field ∈ version.customFields.getD [],
      '\x00' ∉ field.title) : IdsApart R record history := by
  have hkey : ∀ {key value : Text}, Former R record history key value → '\x00' ∉ key := by
    rintro key value ⟨⟨version, hversion, spec, hspec, rfl, -⟩, -⟩
    exact nul_notMem_key R hspec (htitles version (List.mem_filter.1 hversion).1)
  intro key value key' value' h h' hid
  obtain ⟨rfl, hcompare⟩ := Separators.first_inj (hkey h) (hkey h') hid
  exact ⟨rfl, secretCompare_inj.1 hcompare⟩

end Passmgr
