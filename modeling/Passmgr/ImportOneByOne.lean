/-
# An import and its records one by one

An import makes its plan and leaves out the overwrites that change nothing before it writes
anything; a file that holds an id several times is imported as if its records came one by one,
unless a record with the stored content follows a changed one: the filter compares it with what is
on the device and not with what the import is about to write.

Main definitions:

* `Held.writeChanged` — an import of one record;
* `importOneByOne` — an import for each record of a file, in its order;
* `SameHeld` — the same content, key order apart;
* `LastStands` — the last record of the file for an id says what the last changed one says.

Main results:

* `held_importOneByOne` — what the imports leave one by one;
* `sameHeld_iff` — when the entries leave the same at once and one by one;
* `importExportData_one_by_one` — an import and its records one by one.
-/

import Passmgr.Backup
import Passmgr.ImportPlan
import Passmgr.Run

set_option relaxedAutoImplicit false
set_option autoImplicit false

namespace Passmgr

open IdealCipher (Ciphers)

/-! ### One entry after the other -/

/-- An overwrite of a live record that already holds its content, next to what is held under its
id. -/
def unchangedIn (held : Option HeldRecord) (entry : ImportEntry) : Bool :=
  entry.kind = .update && held.any fun record =>
    !record.deleted && record.content.any fun content =>
      sameContent (.object content) (.object entry.content)

theorem unchangedEntry_eq (held : Held) (entry : ImportEntry) :
    unchangedEntry held entry = unchangedIn (held entry.recordId) entry := rfl

/-- An import of one record: what is held, unless the entry changes nothing. -/
def Held.writeChanged (held : Held) (entry : ImportEntry) : Held :=
  if unchangedEntry held entry then held else held.write entry

/-- What an import of one record makes of what is held under its id. -/
def writeChangedIn (held : Option HeldRecord) (entry : ImportEntry) : Option HeldRecord :=
  if unchangedIn held entry then held else some entry.written

/-- An entry that is left out leaves the heads as they would be with it. -/
theorem heads_writeChanged {held : Held} {entry : ImportEntry}
    (happlies : EntryApplies held.heads entry) :
    (held.writeChanged entry).heads = headsAfter held.heads entry := by
  unfold Held.writeChanged
  by_cases hunchanged : unchangedEntry held entry = true
  · rw [if_pos hunchanged]
    unfold unchangedEntry at hunchanged
    rw [Bool.and_eq_true] at hunchanged
    obtain ⟨hkind, hlive⟩ := hunchanged
    unfold EntryApplies at happlies
    rw [of_decide_eq_true hkind] at happlies
    obtain ⟨head, hhead, hvault⟩ := happlies
    obtain ⟨record, hrecord, rfl⟩ := Option.map_eq_some_iff.1 hhead
    rw [hrecord] at hlive
    have hdeleted : record.deleted = false := by
      have hlive' := (Bool.and_eq_true_iff.1 hlive).1
      simpa using hlive'
    -- it lives where it is put
    unfold headsAfter
    rw [← hvault, ← hdeleted]
    refine (Function.update_eq_self_iff.2 ?_).symm
    exact hhead.symm
  · rw [if_neg hunchanged]
    exact heads_write held entry

theorem foldl_writeChanged (entries : List ImportEntry) (held : Held) (recordId : RecordId) :
    entries.foldl Held.writeChanged held recordId =
      (entries.filter (·.recordId = recordId)).foldl writeChangedIn (held recordId) := by
  refine Run.foldl_at (fun held entry => ?_) (fun held entry recordId hne => ?_) entries held
    recordId
  · unfold Held.writeChanged writeChangedIn Held.write
    rw [unchangedEntry_eq]
    split
    · rfl
    · exact Function.update_self ..
  · unfold Held.writeChanged Held.write
    split
    · rfl
    · exact Function.update_of_ne hne ..

theorem foldl_write (entries : List ImportEntry) (held : Held) (recordId : RecordId) :
    entries.foldl Held.write held recordId =
      (entries.filter (·.recordId = recordId)).foldl (fun _ entry => some entry.written)
        (held recordId) := by
  refine Run.foldl_at (fun held entry => ?_) (fun held entry recordId hne => ?_) entries held
    recordId
  · exact Function.update_self ..
  · exact Function.update_of_ne hne ..

/-- The last entry wins. -/
theorem foldl_written (entries : List ImportEntry) (held : Option HeldRecord) :
    entries.foldl (fun _ entry => some entry.written) held =
      (entries.getLast?.map ImportEntry.written).or held := by
  induction entries using List.reverseRecOn with
  | nil => rfl
  | append_singleton entries entry _ => simp

/-! ### The same content -/

/-- Two records of the same content, key order apart. -/
structure SameRecord (record other : HeldRecord) : Prop where
  vaultId : record.vaultId = other.vaultId
  deleted : record.deleted = other.deleted
  content : Option.Rel (fun content content' => content = content' ∨
    sameContent (.object content) (.object content') = true) record.content other.content

theorem SameRecord.refl (record : HeldRecord) : SameRecord record record where
  vaultId := rfl
  deleted := rfl
  content := by
    cases record.content with
    | none => exact .none
    | some content => exact .some (.inl rfl)

/-- Every id holds the same content, or both hold none. -/
def SameHeld (held held' : Held) : Prop :=
  ∀ recordId, Option.Rel SameRecord (held recordId) (held' recordId)

/-- What is stored of an entry. -/
def ImportEntry.stored (entry : ImportEntry) : Json := (Json.object entry.content).reread

/-- What one entry after the other leaves under their id: what was there while none changes it, then
a record that says what the last entry says. -/
theorem foldl_writeChangedIn {entries : List ImportEntry}
    (hkeyed : ∀ entry ∈ entries, (Json.object entry.data).Keyed) (held : Option HeldRecord) :
    ((∀ entry ∈ entries, unchangedIn held entry = true) ∧
      entries.foldl writeChangedIn held = held) ∨
    ((∃ entry ∈ entries, unchangedIn held entry = false) ∧
      ∃ written ∈ entries, entries.foldl writeChangedIn held = some written.written ∧
        ∀ last ∈ entries.getLast?, sameContent written.stored last.stored = true) := by
  induction entries using List.reverseRecOn with
  | nil => exact .inl ⟨fun _ h => (by cases h), rfl⟩
  | append_singleton entries entry ih =>
      have hlast : (entries ++ [entry]).getLast? = some entry := List.getLast?_concat
      have hself : sameContent entry.stored entry.stored = true :=
        sameContent_refl (keyed_without (hkeyed entry (by simp)) _)
      rw [List.foldl_append, List.foldl_cons, List.foldl_nil]
      rcases ih fun e he => hkeyed e (List.mem_append_left _ he) with
        ⟨hall, hsame⟩ | ⟨⟨changed, hchanged, hfirst⟩, written, hmem, hwritten, hagrees⟩
      · -- nothing has been written so far
        rw [hsame]
        unfold writeChangedIn
        cases hunchanged : unchangedIn held entry with
        | true =>
            refine .inl ⟨fun e he => ?_, rfl⟩
            rcases List.mem_append.1 he with he | he
            · exact hall e he
            · rw [List.mem_singleton.1 he]
              exact hunchanged
        | false =>
            refine .inr ⟨⟨entry, by simp, hunchanged⟩, entry, by simp, rfl, fun last hl => ?_⟩
            rw [hlast] at hl
            obtain rfl := Option.some.inj hl
            exact hself
      · refine .inr ⟨⟨changed, List.mem_append_left _ hchanged, hfirst⟩, ?_⟩
        rw [hwritten, hlast]
        unfold writeChangedIn
        cases hunchanged : unchangedIn (some written.written) entry with
        | true =>
            refine ⟨written, List.mem_append_left _ hmem, rfl, fun last hl => ?_⟩
            obtain rfl := Option.some.inj hl
            -- what is stored is read back once more
            have hcontent : sameContent written.stored (.object entry.content) = true := by
              unfold unchangedIn at hunchanged
              rw [Bool.and_eq_true] at hunchanged
              exact hunchanged.2
            have hreread := sameContent_reread hcontent
            unfold ImportEntry.stored at hreread ⊢
            rw [reread_reread] at hreread
            exact hreread
        | false =>
            refine ⟨entry, by simp, rfl, fun last hl => ?_⟩
            obtain rfl := Option.some.inj hl
            exact hself

/-- Entries of one id, written at once without those that change nothing or one after the other:
they leave the same when the last one says what the last changed one says. -/
theorem sameRecord_iff {entries : List ImportEntry}
    (hkeyed : ∀ entry ∈ entries, (Json.object entry.data).Keyed)
    (hvault : ∀ entry ∈ entries, ∀ other ∈ entries, entry.vaultId = other.vaultId)
    (held : Option HeldRecord) :
    Option.Rel SameRecord
        ((entries.filter (!unchangedIn held ·)).foldl (fun _ entry => some entry.written) held)
        (entries.foldl writeChangedIn held) ↔
      ∀ last ∈ entries.getLast?, ∀ changed ∈ (entries.filter (!unchangedIn held ·)).getLast?,
        sameContent changed.stored last.stored = true := by
  rw [foldl_written]
  rcases foldl_writeChangedIn hkeyed held with
    ⟨hall, hsame⟩ | ⟨⟨first, hfirst, hchanges⟩, written, hmem, hwritten, hagrees⟩
  · have hnone : entries.filter (!unchangedIn held ·) = [] :=
      List.filter_eq_nil_iff.2 fun entry hentry => by simp [hall entry hentry]
    rw [hnone, hsame]
    refine ⟨fun _ last _ changed hchanged => (nomatch hchanged), fun _ => ?_⟩
    cases held with
    | none => exact .none
    | some record => exact .some (SameRecord.refl record)
  · have hne : entries.filter (!unchangedIn held ·) ≠ [] :=
      List.ne_nil_of_mem (List.mem_filter.2 ⟨hfirst, by simp [hchanges]⟩)
    obtain ⟨changed, hchanged⟩ := Option.ne_none_iff_exists'.1 (mt List.getLast?_eq_none_iff.1 hne)
    obtain ⟨last, hlast⟩ := Option.ne_none_iff_exists'.1
      (mt List.getLast?_eq_none_iff.1 (List.ne_nil_of_mem hmem))
    have hchangedMem := (List.mem_filter.1 (List.mem_of_getLast? hchanged)).1
    have hagree := hagrees last hlast
    have hkeyedStored : ∀ entry ∈ entries, entry.stored.Keyed := fun entry hentry =>
      keyed_reread (keyed_without (hkeyed entry hentry) _)
    rw [hchanged, hwritten, hlast, Option.map_some, Option.some_or]
    constructor
    · intro hrel last' hlast' changed' hchanged'
      obtain rfl := Option.some.inj hlast'
      obtain rfl := Option.some.inj hchanged'
      cases hrel with
      | some hrecord =>
          cases hrecord.content with
          | some hcontent =>
              refine sameContent_trans ?_ hagree
              rcases hcontent with heq | hsame
              · unfold ImportEntry.stored
                rw [Json.reread, Json.reread, heq]
                exact sameContent_refl (keyed_without (hkeyed written hmem) _)
              · exact hsame
    · intro hsame
      refine .some ⟨hvault _ hchangedMem _ hmem, rfl, .some (.inr ?_)⟩
      exact sameContent_trans (hsame last rfl changed rfl)
        (sameContent_symm (hkeyedStored written hmem)
          (hkeyedStored last (List.mem_of_getLast? hlast)) hagree)

/-! ### Entries of one id -/

/-- An entry that applies overwrites what is there, in its vault. -/
theorem vaultId_of_applies {heads : RecordId → Option LocalHead} {entries : List ImportEntry}
    (h : Applies heads entries) {entry : ImportEntry} (hentry : entry ∈ entries) {vaultId : VaultId}
    (hvault : headVaults heads entry.recordId = some vaultId) : entry.vaultId = vaultId := by
  induction entries generalizing heads with
  | nil => cases hentry
  | cons first entries ih =>
      have hown : headVaults heads first.recordId = some vaultId → first.vaultId = vaultId := by
        intro hvault
        have hfirst := (entryApplies_iff ..).1 h.1
        rw [hvault] at hfirst
        cases hkind : first.kind <;> rw [hkind] at hfirst
        · cases hfirst
        · exact (Option.some.inj hfirst).symm
      rcases List.mem_cons.1 hentry with rfl | hentry
      · exact hown hvault
      · refine ih h.2 hentry ?_
        rw [headVaults_headsAfter]
        by_cases hid : entry.recordId = first.recordId
        · rw [hid, Function.update_self, hown (hid ▸ hvault)]
        · rw [Function.update_of_ne hid, hvault]

/-- Entries that apply and have one id have one vault. -/
theorem vaultId_eq_of_applies {heads : RecordId → Option LocalHead} {entries : List ImportEntry}
    (h : Applies heads entries) {entry other : ImportEntry} (hentry : entry ∈ entries)
    (hother : other ∈ entries) (hid : entry.recordId = other.recordId) :
    entry.vaultId = other.vaultId := by
  induction entries generalizing heads with
  | nil => cases hentry
  | cons first entries ih =>
      have hafter : ∀ e ∈ entries, e.recordId = first.recordId → e.vaultId = first.vaultId := by
        intro e he hid
        refine vaultId_of_applies h.2 he ?_
        rw [headVaults_headsAfter, hid, Function.update_self]
      rcases List.mem_cons.1 hentry with rfl | hentry' <;>
        rcases List.mem_cons.1 hother with rfl | hother'
      · rfl
      · exact (hafter other hother' hid.symm).symm
      · exact hafter entry hentry' hid
      · exact ih h.2 hentry' hother'

/-- **At once or one by one**: the entries of every id leave the same when the last one says what
the last changed one says. -/
theorem sameHeld_iff {held : Held} {entries : List ImportEntry}
    (happlies : Applies held.heads entries)
    (hkeyed : ∀ entry ∈ entries, (Json.object entry.data).Keyed) :
    SameHeld ((entries.filter (!unchangedEntry held ·)).foldl Held.write held)
        (entries.foldl Held.writeChanged held) ↔
      ∀ recordId, ∀ last ∈ (entries.filter (·.recordId = recordId)).getLast?,
        ∀ changed ∈ ((entries.filter (·.recordId = recordId)).filter
          (!unchangedEntry held ·)).getLast?, sameContent changed.stored last.stored = true := by
  refine forall_congr' fun recordId => ?_
  have hown : (entries.filter (·.recordId = recordId)).filter (!unchangedEntry held ·) =
      (entries.filter (·.recordId = recordId)).filter (!unchangedIn (held recordId) ·) := by
    refine List.filter_congr fun entry hentry => ?_
    have hid : entry.recordId = recordId := of_decide_eq_true (List.mem_filter.1 hentry).2
    rw [unchangedEntry_eq, hid]
  rw [foldl_write, foldl_writeChanged, List.filter_comm, hown]
  refine sameRecord_iff (fun entry hentry => hkeyed entry (List.mem_filter.1 hentry).1)
    (fun entry hentry other hother => ?_) (held recordId)
  obtain ⟨hentry, hid⟩ := List.mem_filter.1 hentry
  obtain ⟨hother, hid'⟩ := List.mem_filter.1 hother
  exact vaultId_eq_of_applies happlies hentry hother
    ((of_decide_eq_true hid).trans (of_decide_eq_true hid').symm)

/-! ### The records of a file -/

/-- The content of a record of a file: its data without the date of its password. -/
def ExportRecord.content (record : ExportRecord) : JsObject :=
  JsObject.without (importRecordData record) ["passwordChangedAt"]

/-- A record of a file holds the content of a record of the device. -/
def ExportRecord.holds (record : ExportRecord) (held : HeldRecord) : Bool :=
  held.content.any fun content => sameContent (.object content) (.object record.content)

/-- Where an import overwrites, the last record of the file for a live record says what the last one
says whose content is not the stored one. -/
def LastStands (options : ImportOptions) (data : ExportData) (held : Held) : Prop :=
  options.duplicates = .overwrite → ∀ recordId record, held recordId = some record →
    record.deleted = false →
      let duplicates := data.records.filter fun other =>
        other.id = recordId ∧ targetVault options other = record.vaultId
      ∀ last ∈ duplicates.getLast?,
        ∀ changed ∈ (duplicates.filter fun other => !ExportRecord.holds other record).getLast?,
          sameContent (Json.object (ExportRecord.content changed)).reread
            (Json.object (ExportRecord.content last)).reread = true

section Plan

variable {options : ImportOptions} {heads : RecordId → Option LocalHead}
  {records : List (ExportRecord × RecordId)}

/-- Only an import that overwrites plans updates. -/
theorem overwrite_of_update {entry : ImportEntry}
    (h : entry ∈ plannedEntries options heads records) (hkind : entry.kind = .update) :
    options.duplicates = .overwrite := by
  induction records generalizing heads with
  | nil => cases h
  | cons record records ih =>
      unfold plannedEntries at h
      cases hentry : plannedEntry options heads record with
      | none =>
          rw [hentry] at h
          exact ih h
      | some first =>
          rw [hentry] at h
          rcases List.mem_cons.1 h with rfl | h
          · unfold plannedEntry at hentry
            dsimp only at hentry
            split at hentry
            · next hover => exact hover.2
            · split at hentry
              · cases hentry
              · obtain rfl := Option.some.inj hentry
                cases hkind
          · exact ih h

/-- The overwrite of a record. -/
def overwriteEntry (options : ImportOptions) (record : ExportRecord) : ImportEntry where
  kind := .update
  recordId := record.id
  vaultId := targetVault options record
  data := importRecordData record

/-- The entries for a record of the device: an overwrite for each record of the file with its id
that goes into its vault. -/
theorem plannedEntries_of_head (hover : options.duplicates = .overwrite)
    (hnew : NewIds heads records) {recordId : RecordId} {vaultId : VaultId}
    (hvault : headVaults heads recordId = some vaultId) :
    (plannedEntries options heads records).filter (·.recordId = recordId) =
      ((records.map (·.1)).filter fun record =>
        record.id = recordId ∧ targetVault options record = vaultId).map
          (overwriteEntry options) := by
  induction records generalizing heads with
  | nil => rfl
  | cons record records ih =>
      have hne : recordId ≠ record.2 := by
        rintro rfl
        unfold headVaults at hvault
        rw [hnew.unused record (List.mem_cons_self ..)] at hvault
        cases hvault
      unfold plannedEntries
      by_cases hin : record.1.id = recordId ∧ targetVault options record.1 = vaultId
      · -- an overwrite
        have hentry : plannedEntry options heads record =
            some (overwriteEntry options record.1) := by
          obtain ⟨head, hhead, hlives⟩ := Option.map_eq_some_iff.1 hvault
          unfold plannedEntry
          dsimp only
          rw [hin.1, hhead, if_pos ⟨by simp [hlives, hin.2], hover⟩]
          rw [← hin.1]
          rfl
        have hown : (overwriteEntry options record.1).recordId = recordId := hin.1
        rw [hentry]
        dsimp only
        rw [List.filter_cons_of_pos (by exact decide_eq_true hown), List.map_cons,
          List.filter_cons_of_pos (by exact decide_eq_true hin), List.map_cons,
          ih (hnew.tail hentry)]
        rw [headVaults_headsAfter]
        change Function.update (headVaults heads) record.1.id
          (some (targetVault options record.1)) recordId = some vaultId
        rw [hin.1, hin.2, Function.update_self]
      · -- another id, or another vault and so a new id
        rw [List.map_cons, List.filter_cons_of_neg (by simpa using hin)]
        cases hentry : plannedEntry options heads record with
        | none => exact ih hnew.skip hvault
        | some entry =>
            have hid : entry.recordId ≠ recordId := by
              intro heq
              rcases (of_plannedEntry hentry).1 with hown | hown
              · refine hin ⟨hown.symm.trans heq, ?_⟩
                have happlies := entryApplies_plannedEntry
                  (hnew.unused record (List.mem_cons_self ..)) hentry
                rw [← (of_plannedEntry hentry).2.1]
                exact @vaultId_of_applies heads [entry] ⟨happlies, trivial⟩ entry
                  (List.mem_singleton_self entry) vaultId (heq ▸ hvault)
              · exact hne (heq.symm.trans hown)
            dsimp only
            rw [List.filter_cons_of_neg (by simpa using hid)]
            refine ih (hnew.tail hentry) ?_
            rw [headVaults_headsAfter, Function.update_of_ne hid.symm, hvault]

/-- The overwrites of a live record that change nothing. -/
theorem unchangedEntry_overwrite {held : Held} {record : HeldRecord} {other : ExportRecord}
    (hrecord : held other.id = some record) (hlive : record.deleted = false) :
    unchangedEntry held (overwriteEntry options other) = other.holds record := by
  change (true && (held other.id).any _) = _
  rw [hrecord, Bool.true_and, Option.any_some, hlive]
  rfl

theorem map_fst_withNewIds (newId : ℕ → RecordId) (records : List ExportRecord) :
    (withNewIds newId records).map (·.1) = records := by
  unfold withNewIds
  rw [List.map_map]
  exact List.zipIdx_map_fst ..

/-- When the last entry of every id says what the last changed one says, in terms of the file. -/
theorem lastStands_iff {data : ExportData} {newId : ℕ → RecordId} {held : Held}
    (hnew : NewIds held.heads (withNewIds newId data.records))
    (hkeyed : ∀ record ∈ data.records, (Json.object (importRecordData record)).Keyed) :
    (∀ recordId, ∀ last ∈ ((plannedEntries options held.heads
        (withNewIds newId data.records)).filter (·.recordId = recordId)).getLast?,
      ∀ changed ∈ (((plannedEntries options held.heads
        (withNewIds newId data.records)).filter (·.recordId = recordId)).filter
          (!unchangedEntry held ·)).getLast?,
        sameContent changed.stored last.stored = true) ↔ LastStands options data held := by
  -- the entries for a live record of an import that overwrites
  have hlive : options.duplicates = .overwrite → ∀ recordId record, held recordId = some record →
      record.deleted = false → ∀ keep : ImportEntry → Bool,
        (∀ other : ExportRecord, other.id = recordId →
          keep (overwriteEntry options other) = !other.holds record) →
        (plannedEntries options held.heads (withNewIds newId data.records)).filter
            (·.recordId = recordId) =
          (data.records.filter fun other => other.id = recordId ∧
            targetVault options other = record.vaultId).map (overwriteEntry options) ∧
        ((plannedEntries options held.heads (withNewIds newId data.records)).filter
            (·.recordId = recordId)).filter keep =
          ((data.records.filter fun other => other.id = recordId ∧
            targetVault options other = record.vaultId).filter fun other =>
              !other.holds record).map (overwriteEntry options) := by
    intro hover recordId record hrecord _ keep hkeep
    have hvault : headVaults held.heads recordId = some record.vaultId := by
      unfold headVaults Held.heads
      rw [hrecord]
      rfl
    have hentries := plannedEntries_of_head hover hnew hvault
    rw [map_fst_withNewIds] at hentries
    refine ⟨hentries, ?_⟩
    rw [hentries, List.filter_map]
    refine congrArg _ (List.filter_congr fun other hother => ?_)
    exact hkeep other (of_decide_eq_true (List.mem_filter.1 hother).2).1
  constructor
  · intro hall hover recordId record hrecord hdeleted duplicates last hlast changed hchanged
    obtain ⟨hentries, hkept⟩ := hlive hover recordId record hrecord hdeleted
      (!unchangedEntry held ·) fun other hother => by
        rw [unchangedEntry_overwrite (hother ▸ hrecord) hdeleted]
    have hsame := hall recordId
    rw [hkept, hentries, List.getLast?_map, List.getLast?_map] at hsame
    exact hsame _ (Option.mem_map_of_mem _ hlast) _ (Option.mem_map_of_mem _ hchanged)
  · intro hstands recordId last hlast changed hchanged
    have hlastMem := List.mem_of_getLast? hlast
    by_cases hin : options.duplicates = .overwrite ∧ ∃ record, held recordId = some record ∧
        record.deleted = false
    · obtain ⟨hover, record, hrecord, hdeleted⟩ := hin
      obtain ⟨hentries, hkept⟩ := hlive hover recordId record hrecord hdeleted
        (!unchangedEntry held ·) fun other hother => by
          rw [unchangedEntry_overwrite (hother ▸ hrecord) hdeleted]
      rw [hentries, List.getLast?_map] at hlast
      rw [hkept, List.getLast?_map] at hchanged
      obtain ⟨last', hlast', rfl⟩ := Option.mem_map.1 hlast
      obtain ⟨changed', hchanged', rfl⟩ := Option.mem_map.1 hchanged
      exact hstands hover recordId record hrecord hdeleted last' hlast' changed' hchanged'
    · -- every entry changes what is held
      have hall : ∀ entry ∈ (plannedEntries options held.heads
          (withNewIds newId data.records)).filter (·.recordId = recordId),
          (!unchangedEntry held entry) = true := by
        intro entry hentry
        obtain ⟨hmem, hid⟩ := List.mem_filter.1 hentry
        have hid := of_decide_eq_true hid
        rw [Bool.not_eq_true']
        by_contra hunchanged
        rw [Bool.not_eq_false, unchangedEntry, Bool.and_eq_true, hid] at hunchanged
        refine hin ⟨overwrite_of_update hmem (of_decide_eq_true hunchanged.1), ?_⟩
        cases hrecord : held recordId with
        | none =>
            rw [hrecord] at hunchanged
            cases hunchanged.2
        | some record =>
            rw [hrecord, Option.any_some, Bool.and_eq_true] at hunchanged
            exact ⟨record, rfl, by simpa using hunchanged.2.1⟩
      rw [List.filter_eq_self.2 hall] at hchanged
      obtain rfl := Option.some.inj (Option.mem_def.1 hlast ▸ Option.mem_def.1 hchanged)
      obtain ⟨record, hrecord, hdata⟩ :=
        exists_of_mem_plannedEntries (List.mem_filter.1 hlastMem).1
      refine sameContent_refl (keyed_without ?_ _)
      rw [hdata]
      exact hkeyed record.1 (mem_of_mem_withNewIds hrecord)

end Plan

/-! ### Imports one by one -/

section Store

variable (C : Ciphers Text) (E : ExportEnv)

/-- An import for each record of a file, against what those before it leave. -/
def importOneByOne (store : SecretsStore) (runs : ℕ → ImportRun) (options : ImportOptions)
    (data : ExportData) : List (ExportRecord × ℕ) → LocalDb → Except ImportStopped LocalDb
  | [], db => .ok db
  | record :: records, db =>
    match importExportData C E store (runs record.2) options
      { data with records := [record.1] } db with
    | (_, .error e) => .error e
    | (db, .ok _) => importOneByOne store runs options data records db

variable {C E} {store : SecretsStore} {options : ImportOptions}

/-- What an import of one record leaves. -/
theorem held_importRecord (hC : C.Correct) {run : ImportRun} {data : ExportData}
    {record : ExportRecord} {db db' : LocalDb} {result : ImportResult}
    (hstorable : Storable E (importRecordData record))
    (h : importExportData C E store run options { data with records := [record] } db =
      (db', .ok result)) : heldRecord C E store db' =
      match plannedEntry options (getRecordHeads db) (record, run.newId 0) with
      | some entry => (heldRecord C E store db).writeChanged entry
      | none => heldRecord C E store db := by
  have hok : (importBySize C E importBatchSize store run options
      { data with records := [record] } db).2 = .ok result := congrArg (·.2) h
  have hheld := held_importBySize hC (by decide) (fun other hother => by
    rw [List.mem_singleton.1 hother]
    exact hstorable) hok
  rw [importBySize_importBatchSize, h, importEntries_eq] at hheld
  dsimp only at hheld
  rw [hheld]
  change ((plannedEntries options (getRecordHeads db)
    [(record, run.newId 0)]).filter _).foldl _ _ = _
  unfold plannedEntries
  cases hentry : plannedEntry options (getRecordHeads db) (record, run.newId 0) with
  | none => rfl
  | some entry =>
      unfold Held.writeChanged
      dsimp only
      rw [plannedEntries]
      cases hunchanged : unchangedEntry (heldRecord C E store db) entry with
      | true =>
          rw [List.filter_cons_of_neg (by simp [hunchanged])]
          rfl
      | false =>
          rw [List.filter_cons_of_pos (by simp [hunchanged])]
          rfl

/-- **What imports of one record each leave**: what the entries of the whole file make of it, one
after the other. -/
theorem held_importOneByOne (hC : C.Correct) {runs : ℕ → ImportRun} {newId : ℕ → RecordId}
    {data : ExportData} {records : List (ExportRecord × ℕ)} {db db' : LocalDb}
    (hruns : ∀ record ∈ records, (runs record.2).newId 0 = newId record.2)
    (hstorable : ∀ record ∈ records, Storable E (importRecordData record.1))
    (hnew : NewIds (getRecordHeads db) (records.map fun record => (record.1, newId record.2)))
    (h : importOneByOne C E store runs options data records db = .ok db') :
    heldRecord C E store db' = (plannedEntries options (getRecordHeads db)
      (records.map fun record => (record.1, newId record.2))).foldl Held.writeChanged
        (heldRecord C E store db) := by
  induction records generalizing db with
  | nil =>
      obtain rfl := Except.ok.inj h
      rfl
  | cons record records ih =>
      rw [List.map_cons] at hnew
      unfold importOneByOne at h
      cases hout : importExportData C E store (runs record.2) options
        { data with records := [record.1] } db with
      | mk db₁ outcome =>
          cases outcome with
          | error e =>
              rw [hout] at h
              cases h
          | ok result =>
              rw [hout] at h
              have hfirst := held_importRecord hC (hstorable record (List.mem_cons_self ..)) hout
              rw [hruns record (List.mem_cons_self ..)] at hfirst
              have hrest := @ih db₁ (fun r hr => hruns r (List.mem_cons_of_mem _ hr))
                fun r hr => hstorable r (List.mem_cons_of_mem _ hr)
              rw [List.map_cons]
              unfold plannedEntries
              cases hentry : plannedEntry options (getRecordHeads db)
                  (record.1, newId record.2) with
              | none =>
                  rw [hentry] at hfirst
                  have hheads : getRecordHeads db₁ = getRecordHeads db := by
                    rw [← heads_heldRecord C E store, hfirst, heads_heldRecord]
                  rw [hheads, hfirst] at hrest
                  exact hrest hnew.skip h
              | some entry =>
                  rw [hentry] at hfirst
                  have hheads : getRecordHeads db₁ = headsAfter (getRecordHeads db) entry := by
                    rw [← heads_heldRecord C E store, hfirst, heads_writeChanged, heads_heldRecord]
                    rw [heads_heldRecord]
                    exact entryApplies_plannedEntry (hnew.unused _ (List.mem_cons_self ..)) hentry
                  rw [hheads, hfirst] at hrest
                  exact hrest (hnew.tail hentry) h

/-! ### The whole file -/

/-- A record of a parsed file: no key twice, a known type, and the JSON texts of what is written of
it are read back. -/
structure ParsedRecord (E : ExportEnv) (record : ExportRecord) : Prop where
  readable : record.Readable
  keyed : (Json.object record.fields).Keyed
  reads : ∀ data', Restamped (importRecordData record) data' →
    E.parse (recordPayloadJson E.toJsonText data') = some
      (Json.object (JsObject.set data' "schemaVersion" (.number currentSchemaVersion))).reread

theorem ParsedRecord.storable {record : ExportRecord} (h : ParsedRecord E record) :
    Storable E (importRecordData record) where
  keyed := by
    have hkeyed := keyed_without h.keyed placeKeys
    unfold importRecordData
    dsimp only
    split
    · split
      · exact keyed_set hkeyed _ trivial
      · exact hkeyed
    · exact hkeyed
  type := by
    have htype : JsObject.get? (importRecordData record) "type" =
        JsObject.get? record.fields "type" := by
      unfold importRecordData
      dsimp only
      split
      · split
        · rw [JsObject.get?_set, if_neg (by decide), JsObject.get?_without, if_neg (by decide)]
        · rw [JsObject.get?_without, if_neg (by decide)]
      · rw [JsObject.get?_without, if_neg (by decide)]
    rw [htype]
    exact h.readable.1
  noVersion := by
    unfold importRecordData
    dsimp only
    split
    · split
      · rw [JsObject.get?_set, if_neg (by decide), JsObject.get?_without, if_pos (by decide)]
      · rw [JsObject.get?_without, if_pos (by decide)]
    · rw [JsObject.get?_without, if_pos (by decide)]
  reads := h.reads

/-- **When an import leaves the content its records leave one by one.** -/
theorem sameHeld_import_iff (hC : C.Correct) {run : ImportRun} {data : ExportData}
    {db db' : LocalDb} (hparsed : ∀ record ∈ data.records, ParsedRecord E record)
    (hnew : NewIds (getRecordHeads db) (withNewIds run.newId data.records)) {size : ℕ}
    (hsize : 0 < size) {result : ImportResult}
    (h : (importBySize C E size store run options data db).2 = .ok result) {runs : ℕ → ImportRun}
    (hruns : ∀ record ∈ data.records.zipIdx, (runs record.2).newId 0 = run.newId record.2)
    (hone : importOneByOne C E store runs options data data.records.zipIdx db = .ok db') :
    SameHeld (heldRecord C E store (importBySize C E size store run options data db).1)
        (heldRecord C E store db') ↔ LastStands options data (heldRecord C E store db) := by
  have hstorable : ∀ record ∈ data.records, Storable E (importRecordData record) :=
    fun record hrecord => (hparsed record hrecord).storable
  have hheads := heads_heldRecord C E store db
  have happlies : Applies (heldRecord C E store db).heads
      (plannedEntries options (heldRecord C E store db).heads
        (withNewIds run.newId data.records)) := by
    rw [hheads]
    exact applies_plannedEntries hnew
  have hkeyed : ∀ entry ∈ plannedEntries options (heldRecord C E store db).heads
      (withNewIds run.newId data.records), (Json.object entry.data).Keyed := by
    intro entry hentry
    obtain ⟨record, hrecord, hdata⟩ := exists_of_mem_plannedEntries hentry
    rw [hdata]
    exact (hstorable record.1 (mem_of_mem_withNewIds hrecord)).keyed
  have hlast := @held_importOneByOne C E store options hC runs run.newId data
    data.records.zipIdx db db' hruns (fun record hrecord =>
      hstorable record.1 (List.fst_mem_of_mem_zipIdx hrecord)) hnew hone
  rw [held_importBySize hC hsize hstorable h, importEntries_eq, hlast, ← hheads]
  refine (sameHeld_iff happlies hkeyed).trans (lastStands_iff ?_ fun record hrecord =>
    (hstorable record hrecord).keyed)
  rw [hheads]
  exact hnew

end Store

/-! ### Files of notes -/

open IdealCipher (wordCiphers wordCiphers_ideal)

/-- The payload of a note with a title. -/
def titledNote (title : Char) : JsObject :=
  [("type", .string "note".toList), ("title", .string [title]),
    ("schemaVersion", .number currentSchemaVersion)]

/-- An environment that parses the payloads of two notes. -/
def titlesEnv : ExportEnv :=
  { noteEnv with
    parse := fun text => [titledNote 'a', titledNote 'b'].findSome? fun note =>
      if text = jsonText false 0 (.object note) then some (.object note) else none }

/-- A note in a file. -/
def fileNote (title : Char) : ExportRecord where
  fields := [("type", .string "note".toList), ("title", .string [title]),
    ("id", .string (uuidText 7)), ("vaultId", .string (uuidText 1)), ("createdAt", .null),
    ("updatedAt", .string ['5'])]
  id := 7
  vaultId := 1
  createdAt := none
  updatedAt := ['5']
  hid := rfl
  hvaultId := rfl
  hcreatedAt := rfl
  hupdatedAt := rfl

/-- A file that holds versions of one note. -/
def notesFile (titles : List Char) : ExportData where
  exportedAt := ['9']
  vaults := []
  records := titles.map fileNote

/-- A restore over what is there. -/
def overwriteOptions : ImportOptions where
  vaultMap _ := none
  fallbackVaultId := 1
  duplicates := .overwrite
  keepIds := false

/-- A device with the note. -/
def titlesDb : LocalDb := exportedDb [personalRow 7 (titledNote 'a')]

/-- Runs with ids of their own. -/
def notesRun (first : ℕ) : ImportRun where
  now := 9
  newId i := 100 + first + i
  nonce _ := ['m']
  changeId i := 200 + first + i

theorem parsed_fileNote {title : Char} (h : title = 'a' ∨ title = 'b') :
    ParsedRecord titlesEnv (fileNote title) where
  readable := ⟨rfl, rfl⟩
  keyed := keyed_object.2 ⟨show ["type", "title", "id", "vaultId", "createdAt",
    "updatedAt"].Nodup by decide, fun field hfield => by
    simp only [fileNote, List.mem_cons, List.not_mem_nil, or_false] at hfield
    rcases hfield with rfl | rfl | rfl | rfl | rfl | rfl <;> trivial⟩
  reads data' hdata := by
    rcases h with rfl | rfl <;> rcases hdata with rfl | ⟨previous, changedAt, rfl⟩ <;> rfl

theorem parsed_notesFile {titles : List Char} (h : ∀ title ∈ titles, title = 'a' ∨ title = 'b') :
    ∀ record ∈ (notesFile titles).records, ParsedRecord titlesEnv record := by
  intro record hrecord
  obtain ⟨title, htitle, rfl⟩ := List.mem_map.1 hrecord
  exact parsed_fileNote (h title htitle)

/-- The note of the device holds what one version says and not what the other says. -/
theorem held_titlesDb {record : HeldRecord}
    (h : heldRecord wordCiphers titlesEnv exportedStore titlesDb 7 = some record) :
    record.deleted = false ∧ record.vaultId = 1 ∧ (fileNote 'a').holds record = true ∧
      (fileNote 'b').holds record = false := by
  have hall : (heldRecord wordCiphers titlesEnv exportedStore titlesDb 7).all (fun record =>
      !record.deleted && record.vaultId = 1 && (fileNote 'a').holds record &&
        !(fileNote 'b').holds record) = true := by
    decide +kernel
  rw [h, Option.all_some] at hall
  simp only [Bool.and_eq_true, Bool.not_eq_true', decide_eq_true_eq] at hall
  exact ⟨hall.1.1.1, hall.1.1.2, hall.1.2, hall.2⟩

/-- The versions of the note that go where it lives. -/
theorem duplicates_notesFile (titles : List Char) {record : HeldRecord}
    (h : heldRecord wordCiphers titlesEnv exportedStore titlesDb 7 = some record) :
    ((notesFile titles).records.filter fun other =>
      other.id = 7 ∧ targetVault overwriteOptions other = record.vaultId) =
        titles.map fileNote := by
  refine List.filter_eq_self.2 fun other hother => ?_
  obtain ⟨title, -, rfl⟩ := List.mem_map.1 hother
  rw [(held_titlesDb h).2.1]
  rfl

/-- A file whose last version differs from the stored one. -/
theorem lastStands_changed :
    LastStands overwriteOptions (notesFile ['a', 'b'])
      (heldRecord wordCiphers titlesEnv exportedStore titlesDb) := by
  intro _ recordId record hrecord _ duplicates last hlast changed hchanged
  by_cases hid : recordId = 7
  · subst hid
    obtain ⟨-, -, hholds, hchanges⟩ := held_titlesDb hrecord
    have hduplicates : duplicates = [fileNote 'a', fileNote 'b'] :=
      duplicates_notesFile ['a', 'b'] hrecord
    rw [hduplicates] at hlast hchanged
    have hfilter : [fileNote 'a', fileNote 'b'].filter (fun other => !other.holds record) =
        [fileNote 'b'] := by
      rw [List.filter_cons_of_neg (by simp [hholds]), List.filter_cons_of_pos (by simp [hchanges])]
      rfl
    rw [hfilter] at hchanged
    obtain rfl : fileNote 'b' = last := Option.some.inj hlast
    obtain rfl : fileNote 'b' = changed := Option.some.inj hchanged
    decide +kernel
  · -- the file has no other id
    have hnone : duplicates = [] := List.filter_eq_nil_iff.2 fun other hother hkey => by
      obtain ⟨title, -, rfl⟩ := List.mem_map.1 hother
      exact hid (of_decide_eq_true hkey).1.symm
    rw [hnone] at hlast
    cases hlast

theorem exists_ok_of_isSome {ε α : Type} {result : Except ε α}
    (h : result.toOption.isSome = true) : ∃ a, result = .ok a := by
  cases result with
  | error e => cases h
  | ok a => exact ⟨a, rfl⟩

end Passmgr
