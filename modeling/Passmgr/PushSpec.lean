/-
# What a push does

The specification of `pushChanges`: for each record of the batch either all changes the server did
not have are appended on top of its head, in batch order, or none is, and every change gets the
answer that goes with it.

Main definitions:

* `IsRowOf` — what a stored version takes from the change that wrote it;
* `pushJudged`, `isWritten` — the chains of a batch, and whether they are written;
* `IsAnswer` — the answer a change gets for its outcome;

Main results:

* `pushChanges_eq` — the push in closed form;
* `forall₂_written` — the rows a push writes for a record;
* `exists_answer` — every change is answered, at its index.
-/

import Passmgr.PushWrite
import Passmgr.RowByRow

set_option relaxedAutoImplicit false
set_option autoImplicit false

namespace Passmgr

/-! ### The chains of a batch -/

theorem map_index_indexed (changes : List PushChange) :
    (indexed changes).map (·.index) = List.range changes.length := by
  rw [indexed, List.map_map]
  have : ((fun x : Indexed => x.index) ∘ fun p : PushChange × ℕ =>
      ({ index := p.2, change := p.1 } : Indexed)) = Prod.snd := rfl
  rw [this, List.zipIdx_map_snd, List.range_eq_range']

theorem map_change_indexed (changes : List PushChange) :
    (indexed changes).map (·.change) = changes := by
  rw [indexed, List.map_map]
  have : ((fun x : Indexed => x.change) ∘ fun p : PushChange × ℕ =>
      ({ index := p.2, change := p.1 } : Indexed)) = Prod.fst := rfl
  rw [this, List.zipIdx_map_fst]

theorem nodup_indexed (changes : List PushChange) : (indexed changes).Nodup := by
  have h : ((indexed changes).map (·.index)).Nodup := by
    rw [map_index_indexed]
    exact List.nodup_range
  exact h.of_map

theorem mem_indexed {changes : List PushChange} {x : Indexed} :
    x ∈ indexed changes ↔ changes[x.index]? = some x.change := by
  rw [indexed, List.mem_map]
  constructor
  · rintro ⟨⟨change, i⟩, hmem, rfl⟩
    exact List.mem_zipIdx_iff_getElem?.1 hmem
  · intro h
    exact ⟨(x.change, x.index), List.mem_zipIdx_iff_getElem?.2 h, rfl⟩

theorem eq_of_mem_indexed {changes : List PushChange} {x y : Indexed}
    (hx : x ∈ indexed changes) (hy : y ∈ indexed changes) (h : x.index = y.index) : x = y := by
  rw [mem_indexed] at hx hy
  rw [h, hy] at hx
  cases x
  cases y
  simp_all

/-- The chain of a record. -/
def chainOf (changes : List PushChange) (recordId : RecordId) : List Indexed :=
  (indexed changes).filter (·.change.recordId = recordId)

theorem mem_groupByRecord {changes : List PushChange} {c : RecordId × List Indexed} :
    c ∈ groupByRecord changes ↔ c.2 = chainOf changes c.1 ∧ c.2 ≠ [] :=
  GroupBy.mem_groupBy fun x : Indexed => x.change.recordId

theorem nodup_groupByRecord (changes : List PushChange) :
    ((groupByRecord changes).map Prod.fst).Nodup :=
  GroupBy.nodup_keys (fun x : Indexed => x.change.recordId) (indexed changes)

theorem chainOf_mem_groupByRecord {changes : List PushChange} {x : Indexed}
    (hx : x ∈ indexed changes) :
    (x.change.recordId, chainOf changes x.change.recordId) ∈ groupByRecord changes := by
  refine mem_groupByRecord.2 ⟨rfl, List.ne_nil_of_mem (a := x) ?_⟩
  exact List.mem_filter.2 ⟨hx, by simp⟩

theorem nodup_chainOf (changes : List PushChange) (recordId : RecordId) :
    (chainOf changes recordId).Nodup := (nodup_indexed changes).filter _

/-! ### The push in closed form -/

/-- What a stored version takes from the change that wrote it. -/
structure IsRowOf (userId : UserId) (now : Time) (change : PushChange) (row : RecordRow) :
    Prop where
  recordId : row.recordId = change.recordId
  vaultId : row.vaultId = change.vaultId
  userId : row.userId = some userId
  clientChangeId : row.clientChangeId = change.clientChangeId
  clientUpdatedAt : row.clientUpdatedAt = change.clientUpdatedAt
  version : row.version = change.baseVersion + 1
  put : ∀ content, change.op = .put content →
    row.content = content ∧ row.tombstoneKind = none ∧ row.deletedAt = none
  delete : ∀ kind, change.op = .delete kind →
    row.deletedAt = some now ∧ (kind = some .purged → row.tombstoneKind = kind)

theorem IsVersionOf.isRowOf {userId : UserId} {now : Time} {x : Indexed} {p : Planned}
    (h : IsVersionOf userId now x p) (seq : ℕ) :
    IsRowOf userId now x.change (p.version.toRow seq now) where
  recordId := h.recordId
  vaultId := h.vaultId
  userId := congrArg some h.userId
  clientChangeId := h.clientChangeId
  clientUpdatedAt := h.clientUpdatedAt
  version := h.version
  put := h.put
  delete := h.delete

section Push

variable (quotaBytes : ℕ) (db : Db) (userId : UserId) (now : Time) (changes : List PushChange)

/-- The vaults of the batch. -/
def batchVaults : List VaultId := (changes.map (·.vaultId)).eraseDups

/-- The outcomes of a chain of the batch. -/
def pushDecided (c : RecordId × List Indexed) : List (Indexed × Outcome) :=
  decided (vaultState db userId changes) (latestVersion db) (storedChange db) c

/-- The versions planned for a chain of the batch. -/
def pushPlanned (c : RecordId × List Indexed) : Appended :=
  planned userId now (vaultState db userId changes) (latestVersion db) (storedChange db) c

/-- The chains of a batch with the verdict of the storage budget. -/
def pushJudged : List ((RecordId × List Indexed) × Bool) :=
  judged userId now (vaultState db userId changes) (latestVersion db) (storedChange db)
    (storageBudgets db quotaBytes (writableVaults db userId (batchVaults changes)))
    (groupByRecord changes)

/-- Whether the batch has a chain over quota. -/
def pushOverQuota : Bool := (pushJudged quotaBytes db userId now changes).any (!·.2)

/-- Whether the planned versions of a chain are written. -/
def isWritten (j : (RecordId × List Indexed) × Bool) : Bool :=
  j.2 && !(pushOverQuota quotaBytes db userId now changes &&
    j.1.2.any fun x => isMoveSource x.change)

/-- The planned versions that are written. -/
def writtenPlan : Appended :=
  ((pushJudged quotaBytes db userId now changes).filter
    (isWritten quotaBytes db userId now changes)).flatMap fun j =>
      pushPlanned db userId now changes j.1

/-- The rows a push writes. -/
def writtenRows : List RecordRow :=
  numberRows now (firstSeq db.vaults)
    ((writtenPlan quotaBytes db userId now changes).map (·.version))

/-- What pass one accepts. -/
def pushAccepted : List Accepted :=
  ((pushJudged quotaBytes db userId now changes).filter (·.2)).map
    (judgedAccepted userId now (vaultState db userId changes) (latestVersion db)
      (storedChange db))

/-- The answers given before anything is written. -/
def pushAnswersPlanned : List (ℕ × PushResult) :=
  (pushJudged quotaBytes db userId now changes).flatMap
      (judgedAnswers userId now (vaultState db userId changes) (latestVersion db)
        (storedChange db)) ++
    (((pushJudged quotaBytes db userId now changes).filter (·.2)).filter
        (!isWritten quotaBytes db userId now changes ·)).flatMap
      (fun j => quotaAnswers (pushPlanned db userId now changes j.1))

/-- All answers of a push, in the order they are given. -/
def pushAnswers : List (ℕ × PushResult) :=
  pushAnswersPlanned quotaBytes db userId now changes ++
    writtenAnswers ((writtenPlan quotaBytes db userId now changes).zip
      (writtenRows quotaBytes db userId now changes))

variable {quotaBytes db userId now changes}

theorem vault_of_access {vaultId : VaultId} (h : (vaultState db userId changes).access vaultId =
    some none) : ∃ v ∈ db.vaults, v.vaultId = vaultId := by
  simp only [vaultState, vaultAccess, Db.requireVaultRole] at h
  split at h
  · cases hm : db.vaultMembers.find? fun m =>
        m.vaultId = vaultId && db.activeMembership userId m with
    | none => simp [hm] at h
    | some m =>
        have hp := List.find?_some hm
        simp only [Bool.and_eq_true, decide_eq_true_eq, Db.activeMembership, Db.isLive,
          List.any_eq_true] at hp
        obtain ⟨hmv, -, v, hv, hvm, -⟩ := hp
        exact ⟨v, hv, hvm.trans hmv⟩
  · simp at h

theorem fst_mem_groupByRecord {j : (RecordId × List Indexed) × Bool}
    (hj : j ∈ pushJudged quotaBytes db userId now changes) : j.1 ∈ groupByRecord changes := by
  have := List.mem_map_of_mem (f := Prod.fst) hj
  rwa [pushJudged, map_fst_judged] at this

variable (quotaBytes db userId now) in
/-- The chain of a change is judged. -/
theorem exists_judged {x : Indexed} (hx : x ∈ indexed changes) :
    ∃ j ∈ pushJudged quotaBytes db userId now changes,
      j.1 = (x.change.recordId, chainOf changes x.change.recordId) := by
  have hc := chainOf_mem_groupByRecord hx
  rw [← map_fst_judged userId now (vaultState db userId changes) (latestVersion db)
    (storedChange db)
    (storageBudgets db quotaBytes (writableVaults db userId (batchVaults changes)))
    (groupByRecord changes)] at hc
  exact List.mem_map.1 hc

theorem map_fst_pushDecided (db : Db) (userId : UserId) (changes : List PushChange)
    (c : RecordId × List Indexed) : (pushDecided db userId changes c).map Prod.fst = c.2 := by
  rw [pushDecided, decided, List.map_fst_zip]
  rw [length_decideChain]

theorem appends_sublist (db : Db) (userId : UserId) (changes : List PushChange)
    (c : RecordId × List Indexed) :
    (appends (pushDecided db userId changes c)).Sublist c.2 := by
  have h : (appends (pushDecided db userId changes c)).Sublist
      ((pushDecided db userId changes c).map Prod.fst) := List.filter_sublist.map _
  rwa [map_fst_pushDecided] at h

variable (quotaBytes db userId now) in
/-- Every change of the batch has an outcome in its record's chain. -/
theorem exists_outcome {x : Indexed} (hx : x ∈ indexed changes) :
    ∃ j ∈ pushJudged quotaBytes db userId now changes,
      j.1 = (x.change.recordId, chainOf changes x.change.recordId) ∧
        ∃ o, (x, o) ∈ pushDecided db userId changes j.1 := by
  obtain ⟨j, hj, hjc⟩ := exists_judged quotaBytes db userId now hx
  have hmem : x ∈ (pushDecided db userId changes j.1).map Prod.fst := by
    rw [map_fst_pushDecided, hjc]
    exact List.mem_filter.2 ⟨hx, by simp⟩
  obtain ⟨⟨y, o⟩, hp, rfl⟩ := List.mem_map.1 hmem
  exact ⟨j, hj, hjc, o, hp⟩

/-- A chain of the batch passes as a whole or plans nothing. -/
theorem pushDecided_cases (db : Db) (userId : UserId) (changes : List PushChange)
    (c : RecordId × List Indexed) :
    Passes (vaultState db userId changes) (storedChange db)
        (simulatedHead (latestVersion db c.1)) (pushDecided db userId changes c) ∨
      ∀ p ∈ pushDecided db userId changes c, p.2 ≠ .append := by
  rcases decideChain_cases (vaultState db userId changes) (storedChange db)
    (latestVersion db c.1) c.2 with h | h
  · exact Or.inl h
  · exact Or.inr fun p hp => h p.2 (List.of_mem_zip hp).2

variable (db userId now changes) in
/-- The planned versions of a chain, when it has any, are those of its changes to append. -/
theorem forall₂_pushPlanned (c : RecordId × List Indexed) :
    List.Forall₂ (IsVersionOf userId now) (appends (pushDecided db userId changes c))
      (pushPlanned db userId now changes c) := by
  rcases pushDecided_cases db userId changes c with h | hno
  · refine forall₂_plannedFrom userId now ?_ h
    cases latestVersion db c.1 <;> rfl
  · have hnil : pushPlanned db userId now changes c = [] :=
      plannedFrom_of_noAppend userId now hno
    rw [appends_of_noAppend hno, hnil]
    exact List.Forall₂.nil

theorem mem_pushPlanned {c : RecordId × List Indexed} {p : Planned}
    (hp : p ∈ pushPlanned db userId now changes c) :
    ∃ x, (x, Outcome.append) ∈ pushDecided db userId changes c ∧ IsVersionOf userId now x p := by
  obtain ⟨i, hi, hpi⟩ := List.getElem_of_mem hp
  have hf := forall₂_pushPlanned db userId now changes c
  have hi' : i < (appends (pushDecided db userId changes c)).length := hf.length_eq ▸ hi
  exact ⟨_, mem_appends.1 (List.getElem_mem hi'), by simpa [hpi] using hf.get hi' hi⟩

/-- The tables after the insert, before a purge drops anything. -/
def insertedDb (quotaBytes : ℕ) (db : Db) (userId : UserId) (now : Time)
    (changes : List PushChange) : Db :=
  { db with
    vaults := db.vaults.map fun v =>
      v.add (((writtenPlan quotaBytes db userId now changes).map (·.version)).filter
        (·.vaultId = v.vaultId))
    records := db.records ++ writtenRows quotaBytes db userId now changes }

theorem mem_writtenPlan {p : Planned} (hp : p ∈ writtenPlan quotaBytes db userId now changes) :
    ∃ j ∈ pushJudged quotaBytes db userId now changes,
      isWritten quotaBytes db userId now changes j = true ∧
        p ∈ pushPlanned db userId now changes j.1 := by
  obtain ⟨j, hj, hpj⟩ := List.mem_flatMap.1 hp
  obtain ⟨hj, hw⟩ := List.mem_filter.1 hj
  exact ⟨j, hj, hw, hpj⟩

theorem exists_vault_of_mem_writtenPlan {p : Planned}
    (hp : p ∈ writtenPlan quotaBytes db userId now changes) :
    ∃ v ∈ db.vaults, v.vaultId = p.version.vaultId := by
  obtain ⟨j, -, -, hpj⟩ := mem_writtenPlan hp
  obtain ⟨x, hx, hxp⟩ := mem_pushPlanned hpj
  rw [hxp.vaultId]
  exact vault_of_access (decideChain_append hx).access

/-- **The push in closed form.**  It only fails when a row it inserts would break a unique
index. -/
theorem pushChanges_eq :
    pushChanges quotaBytes db userId now changes =
      if UniqueRecords (db.records ++ writtenRows quotaBytes db userId now changes) then
        .ok {
          db := dropPurgedHistory (insertedDb quotaBytes db userId now changes)
            (writtenRows quotaBytes db userId now changes)
          written := writtenRows quotaBytes db userId now changes
          results := (List.range changes.length).map
            (Results.setAll (fun _ => none) (pushAnswers quotaBytes db userId now changes))
          writtenVaultIds :=
            ((writtenRows quotaBytes db userId now changes).map (·.vaultId)).eraseDups }
      else .error .unavailable := by
  -- pass one, and what of it is kept
  have hpass := passOne_eq userId now (vaultState db userId changes) (latestVersion db)
    (storedChange db)
    (storageBudgets db quotaBytes (writableVaults db userId (batchVaults changes)))
    (groupByRecord changes)
  have hkept : (pushAccepted quotaBytes db userId now changes).filter
        (isKept (pushOverQuota quotaBytes db userId now changes)) =
      ((pushJudged quotaBytes db userId now changes).filter
        (isWritten quotaBytes db userId now changes)).map
          (judgedAccepted userId now (vaultState db userId changes) (latestVersion db)
            (storedChange db)) := by
    rw [pushAccepted, List.filter_map, List.filter_filter]
    congr 1
    refine List.filter_congr fun j _ => ?_
    rw [isWritten, Bool.and_comm]
    rfl
  have hdropped : (pushAccepted quotaBytes db userId now changes).filter
        (!isKept (pushOverQuota quotaBytes db userId now changes) ·) =
      (((pushJudged quotaBytes db userId now changes).filter (·.2)).filter
        (!isWritten quotaBytes db userId now changes ·)).map
          (judgedAccepted userId now (vaultState db userId changes) (latestVersion db)
            (storedChange db)) := by
    rw [pushAccepted, List.filter_map]
    congr 1
    refine List.filter_congr fun j hj => ?_
    have hj2 : j.2 = true := by simpa using (List.mem_filter.1 hj).2
    simp only [Function.comp, isWritten, isKept, hj2, Bool.true_and]
    rfl
  have hplan : planVersions (pushOverQuota quotaBytes db userId now changes)
      (pushAccepted quotaBytes db userId now changes)
      (Results.setAll (fun _ => none) ((pushJudged quotaBytes db userId now changes).flatMap
        (judgedAnswers userId now (vaultState db userId changes) (latestVersion db)
          (storedChange db)))) =
      (Results.setAll (fun _ => none) (pushAnswersPlanned quotaBytes db userId now changes),
        writtenPlan quotaBytes db userId now changes) := by
    rw [planVersions_eq, hkept, hdropped, List.flatMap_map, List.flatMap_map,
      ← Results.setAll_append]
    rfl
  -- the insert
  have hins : insertVersions db now
        ((writtenPlan quotaBytes db userId now changes).map (·.version)) =
      if UniqueRecords (db.records ++ writtenRows quotaBytes db userId now changes) then
        .ok (insertedDb quotaBytes db userId now changes,
          writtenRows quotaBytes db userId now changes)
      else .error .unavailable := by
    refine insertVersions_eq fun version hversion => ?_
    obtain ⟨p, hp, rfl⟩ := List.mem_map.1 hversion
    exact exists_vault_of_mem_writtenPlan hp
  simp only [batchVaults] at hpass
  simp only [pushChanges, hpass, bind, Except.bind]
  simp only [pushOverQuota, pushAccepted, pushJudged, batchVaults] at hplan
  rw [hplan, hins]
  by_cases hu : UniqueRecords (db.records ++ writtenRows quotaBytes db userId now changes)
  · simp only [if_pos hu, pure, Except.pure, answerWritten_eq, ← Results.setAll_append]
    rfl
  · simp only [if_neg hu]

theorem of_pushChanges_ok {d : Pushed} (h : pushChanges quotaBytes db userId now changes = .ok d) :
    UniqueRecords (db.records ++ writtenRows quotaBytes db userId now changes) ∧
      d.written = writtenRows quotaBytes db userId now changes ∧
      d.db = dropPurgedHistory (insertedDb quotaBytes db userId now changes) d.written := by
  rw [pushChanges_eq] at h
  split at h
  · next hu =>
      obtain rfl := Except.ok.inj h
      exact ⟨hu, rfl, rfl⟩
  · simp at h

/-- The rows after a push: those there were and those it wrote, without those below a purge it
wrote. -/
theorem mem_records_push {d : Pushed} (h : pushChanges quotaBytes db userId now changes = .ok d)
    {row : RecordRow} :
    row ∈ d.db.records ↔ (row ∈ db.records ∨ row ∈ d.written) ∧
      ∀ purged ∈ d.written, purged.isPurged = true → purged.isBelow row = false := by
  obtain ⟨-, hw, hdb⟩ := of_pushChanges_ok h
  rw [hdb, records_dropPurgedHistory, List.mem_filter, insertedDb, List.mem_append, hw,
    Bool.not_eq_true', List.any_eq_false]
  simp

/-! ### The rows of a record -/

theorem record_of_mem_decided {c : RecordId × List Indexed} (hc : c ∈ groupByRecord changes)
    {x : Indexed} {o : Outcome} (h : (x, o) ∈ pushDecided db userId changes c) :
    x ∈ indexed changes ∧ x.change.recordId = c.1 := by
  have hx : x ∈ c.2 := (List.of_mem_zip h).1
  rw [(mem_groupByRecord.1 hc).1, chainOf, List.mem_filter] at hx
  exact ⟨hx.1, by simpa using hx.2⟩

theorem recordId_of_mem_pushPlanned {c : RecordId × List Indexed}
    (hc : c ∈ groupByRecord changes) {p : Planned}
    (hp : p ∈ pushPlanned db userId now changes c) : p.version.recordId = c.1 := by
  obtain ⟨x, hx, hxp⟩ := mem_pushPlanned hp
  rw [hxp.recordId]
  exact (record_of_mem_decided hc hx).2

theorem nodup_pushJudged :
    ((pushJudged quotaBytes db userId now changes).map (·.1.1)).Nodup := by
  have h : (pushJudged quotaBytes db userId now changes).map (·.1.1) =
      (groupByRecord changes).map Prod.fst := by
    rw [← map_fst_judged userId now (vaultState db userId changes) (latestVersion db)
      (storedChange db)
      (storageBudgets db quotaBytes (writableVaults db userId (batchVaults changes)))
      (groupByRecord changes), List.map_map]
    rfl
  rw [h]
  exact nodup_groupByRecord changes

/-- The planned versions that are written for a record: those of its chain, or none. -/
theorem filter_writtenPlan {j : (RecordId × List Indexed) × Bool}
    (hj : j ∈ pushJudged quotaBytes db userId now changes) :
    (writtenPlan quotaBytes db userId now changes).filter (·.version.recordId = j.1.1) =
      if isWritten quotaBytes db userId now changes j then pushPlanned db userId now changes j.1
      else [] := by
  have hn : (((pushJudged quotaBytes db userId now changes).filter
      (isWritten quotaBytes db userId now changes)).map (·.1.1)).Nodup :=
    nodup_pushJudged.sublist (List.filter_sublist.map _)
  have hkey : ∀ i ∈ (pushJudged quotaBytes db userId now changes).filter
        (isWritten quotaBytes db userId now changes),
      ∀ p ∈ pushPlanned db userId now changes i.1, p.version.recordId = i.1.1 := fun i hi p hp =>
    recordId_of_mem_pushPlanned (fst_mem_groupByRecord (List.mem_filter.1 hi).1) hp
  split
  · next hw =>
      exact GroupBy.filter_flatMap (fun p : Planned => p.version.recordId) hn hkey
        (List.mem_filter.2 ⟨hj, hw⟩)
  · next hw =>
      refine GroupBy.filter_flatMap_of_notMem (fun p : Planned => p.version.recordId) hkey ?_
      intro hmem
      obtain ⟨i, hi, hij⟩ := List.mem_map.1 hmem
      obtain ⟨hi, hwi⟩ := List.mem_filter.1 hi
      have : i = j := List.inj_on_of_nodup_map nodup_pushJudged hi hj hij
      exact hw (this ▸ hwi)

/-- A record without a chain gets no versions. -/
theorem filter_writtenPlan_of_notMem {recordId : RecordId}
    (h : ∀ x ∈ indexed changes, x.change.recordId ≠ recordId) :
    (writtenPlan quotaBytes db userId now changes).filter (·.version.recordId = recordId) = [] := by
  rw [List.filter_eq_nil_iff]
  intro p hp hpr
  obtain ⟨j, hj, -, hpj⟩ := mem_writtenPlan hp
  obtain ⟨x, hx, hxp⟩ := mem_pushPlanned hpj
  have hxi := record_of_mem_decided (fst_mem_groupByRecord hj) hx
  refine h x hxi.1 ?_
  rw [← hxp.recordId]
  simpa using hpr

variable (quotaBytes db userId now changes) in
theorem forall₂_plan_rows :
    List.Forall₂ (fun p row => ∃ seq, row = p.version.toRow seq now)
      (writtenPlan quotaBytes db userId now changes)
      (writtenRows quotaBytes db userId now changes) := by
  have h := forall₂_numberRows now (firstSeq db.vaults)
    ((writtenPlan quotaBytes db userId now changes).map (·.version))
  rwa [List.forall₂_map_left_iff] at h

variable (quotaBytes db userId now changes) in
theorem forall₂_plan_rows_of_record (recordId : RecordId) :
    List.Forall₂ (fun p row => ∃ seq, row = p.version.toRow seq now)
      ((writtenPlan quotaBytes db userId now changes).filter (·.version.recordId = recordId))
      ((writtenRows quotaBytes db userId now changes).filter (·.recordId = recordId)) := by
  refine List.rel_filter ?_ (forall₂_plan_rows quotaBytes db userId now changes)
  rintro p row ⟨seq, rfl⟩
  exact Iff.rfl

/-- **The rows a push writes for a record**: one for each of its changes to append, in batch order,
or none. -/
theorem forall₂_written {j : (RecordId × List Indexed) × Bool}
    (hj : j ∈ pushJudged quotaBytes db userId now changes) :
    List.Forall₂ (fun x row => IsRowOf userId now x.change row)
      (if isWritten quotaBytes db userId now changes j then
        appends (pushDecided db userId changes j.1) else [])
      ((writtenRows quotaBytes db userId now changes).filter (·.recordId = j.1.1)) := by
  have hrows := forall₂_plan_rows_of_record quotaBytes db userId now changes j.1.1
  rw [filter_writtenPlan hj] at hrows
  split
  · next hw =>
      rw [if_pos hw] at hrows
      refine RowByRow.trans ?_ (forall₂_pushPlanned db userId now changes j.1) hrows
      rintro x p row hxp ⟨seq, rfl⟩
      exact hxp.isRowOf seq
  · next hw =>
      rw [if_neg hw, List.forall₂_nil_left_iff] at hrows
      rw [hrows]
      exact List.Forall₂.nil

theorem written_of_notMem {recordId : RecordId}
    (h : ∀ x ∈ indexed changes, x.change.recordId ≠ recordId) :
    (writtenRows quotaBytes db userId now changes).filter (·.recordId = recordId) = [] := by
  have hrows := forall₂_plan_rows_of_record quotaBytes db userId now changes recordId
  rwa [filter_writtenPlan_of_notMem h, List.forall₂_nil_left_iff] at hrows

/-! ### The answers -/

section Answers

variable (quotaBytes db userId now changes)

/-- The answer a change of a chain gets for its outcome. -/
def IsAnswer (j : (RecordId × List Indexed) × Bool) (x : Indexed) (result : PushResult) :
    Outcome → Prop
  | .failed failure => result = failure.result x.change.clientChangeId
  | .stored row => result = .applied x.change.clientChangeId (serializeRecord row)
  | .append =>
    if isWritten quotaBytes db userId now changes j then
      ∃ row ∈ writtenRows quotaBytes db userId now changes,
        IsRowOf userId now x.change row ∧
          result = .applied x.change.clientChangeId (serializeRecord row)
    else result = .rejected x.change.clientChangeId .quota

variable {quotaBytes db userId now changes}

theorem mem_answersAtOnce {pairs : List (Indexed × Outcome)} {a : ℕ × PushResult} :
    a ∈ answersAtOnce pairs ↔
      ∃ p ∈ pairs, (∃ failure, p.2 = .failed failure ∧
          a = (p.1.index, failure.result p.1.change.clientChangeId)) ∨
        ∃ row, p.2 = .stored row ∧
          a = (p.1.index, .applied p.1.change.clientChangeId (serializeRecord row)) := by
  induction pairs with
  | nil => simp [answersAtOnce]
  | cons p pairs ih =>
      obtain ⟨x, o⟩ := p
      cases o <;> simp [answersAtOnce, ih]

theorem eq_of_mem_zip {α β : Type} {as : List α} (hn : as.Nodup) {bs : List β} {a : α} {b c : β}
    (hb : (a, b) ∈ as.zip bs) (hc : (a, c) ∈ as.zip bs) : b = c := by
  induction as generalizing bs with
  | nil => simp at hb
  | cons a' as ih =>
      cases bs with
      | nil => simp at hb
      | cons b' bs =>
          rw [List.nodup_cons] at hn
          rw [List.zip_cons_cons, List.mem_cons, Prod.mk.injEq] at hb hc
          rcases hb with ⟨rfl, rfl⟩ | hb
          · rcases hc with ⟨-, rfl⟩ | hc
            · rfl
            · exact absurd (List.of_mem_zip hc).1 hn.1
          · rcases hc with ⟨rfl, -⟩ | hc
            · exact absurd (List.of_mem_zip hb).1 hn.1
            · exact ih hn.2 hb hc

/-- An index belongs to one change of one chain, with one outcome. -/
theorem eq_of_index {j j' : (RecordId × List Indexed) × Bool}
    (hj : j ∈ pushJudged quotaBytes db userId now changes)
    (hj' : j' ∈ pushJudged quotaBytes db userId now changes) {x x' : Indexed} {o o' : Outcome}
    (h : (x, o) ∈ pushDecided db userId changes j.1)
    (h' : (x', o') ∈ pushDecided db userId changes j'.1) (hi : x'.index = x.index) :
    j' = j ∧ x' = x ∧ o' = o := by
  have hc := fst_mem_groupByRecord hj
  obtain ⟨hx, hxr⟩ := record_of_mem_decided hc h
  obtain ⟨hx', hxr'⟩ := record_of_mem_decided (fst_mem_groupByRecord hj') h'
  obtain rfl : x' = x := eq_of_mem_indexed hx' hx hi
  obtain rfl : j' = j :=
    List.inj_on_of_nodup_map nodup_pushJudged hj' hj (hxr'.symm.trans hxr)
  have hn : j'.1.2.Nodup := by
    rw [(mem_groupByRecord.1 hc).1]
    exact nodup_chainOf changes _
  exact ⟨rfl, rfl, eq_of_mem_zip hn h' h⟩

/-- Whatever is answered at the index of a change goes with its outcome. -/
theorem isAnswer_of_mem {j : (RecordId × List Indexed) × Bool}
    (hj : j ∈ pushJudged quotaBytes db userId now changes) {x : Indexed} {o : Outcome}
    (h : (x, o) ∈ pushDecided db userId changes j.1) {result : PushResult}
    (hr : (x.index, result) ∈ pushAnswers quotaBytes db userId now changes) :
    IsAnswer quotaBytes db userId now changes j x result o := by
  rw [pushAnswers, List.mem_append, pushAnswersPlanned, List.mem_append] at hr
  rcases hr with (hr | hr) | hr
  · -- answered in pass one
    obtain ⟨j', hj', hr⟩ := List.mem_flatMap.1 hr
    rw [judgedAnswers, List.mem_append] at hr
    rcases hr with hr | hr
    · obtain ⟨⟨y, o'⟩, hp, ⟨failure, ho, ha⟩ | ⟨row, ho, ha⟩⟩ := mem_answersAtOnce.1 hr
      · obtain ⟨hi, rfl⟩ := Prod.mk.inj ha
        obtain ⟨-, rfl, rfl⟩ := eq_of_index hj hj' h hp hi.symm
        obtain rfl : o' = .failed failure := ho
        rfl
      · obtain ⟨hi, rfl⟩ := Prod.mk.inj ha
        obtain ⟨-, rfl, rfl⟩ := eq_of_index hj hj' h hp hi.symm
        obtain rfl : o' = .stored row := ho
        rfl
    · split at hr
      · simp at hr
      · next hq =>
          obtain ⟨p, hp, ha⟩ := List.mem_map.1 hr
          obtain ⟨hi, rfl⟩ := Prod.mk.inj ha
          obtain ⟨y, hy, hyp⟩ := mem_pushPlanned hp
          obtain ⟨rfl, rfl, rfl⟩ := eq_of_index hj hj' h hy (hyp.index.symm.trans hi)
          rw [IsAnswer, if_neg (by simp [isWritten, hq]), hyp.clientChangeId]
  · -- the source of a move, in a batch over quota
    obtain ⟨j', hj', hr⟩ := List.mem_flatMap.1 hr
    obtain ⟨hj', hw⟩ := List.mem_filter.1 hj'
    have hj' := (List.mem_filter.1 hj').1
    obtain ⟨p, hp, ha⟩ := List.mem_map.1 hr
    obtain ⟨hi, rfl⟩ := Prod.mk.inj ha
    obtain ⟨y, hy, hyp⟩ := mem_pushPlanned hp
    obtain ⟨rfl, rfl, rfl⟩ := eq_of_index hj hj' h hy (hyp.index.symm.trans hi)
    rw [IsAnswer, if_neg (by simpa using hw), hyp.clientChangeId]
  · -- written
    obtain ⟨⟨p, row⟩, hp, ha⟩ := List.mem_map.1 hr
    obtain ⟨hi, rfl⟩ := Prod.mk.inj ha
    obtain ⟨hpm, hrow⟩ := List.of_mem_zip hp
    obtain ⟨j', hj', hw, hpj⟩ := mem_writtenPlan hpm
    obtain ⟨y, hy, hyp⟩ := mem_pushPlanned hpj
    obtain ⟨rfl, rfl, rfl⟩ := eq_of_index hj hj' h hy (hyp.index.symm.trans hi)
    obtain ⟨seq, rfl⟩ :=
      (List.forall₂_iff_zip.1 (forall₂_plan_rows quotaBytes db userId now changes)).2 hp
    rw [IsAnswer, if_pos hw]
    refine ⟨_, hrow, hyp.isRowOf seq, ?_⟩
    rw [toRow_clientChangeId, hyp.clientChangeId]

/-- Every change is answered. -/
theorem index_mem_pushAnswers {j : (RecordId × List Indexed) × Bool}
    (hj : j ∈ pushJudged quotaBytes db userId now changes) {x : Indexed} {o : Outcome}
    (h : (x, o) ∈ pushDecided db userId changes j.1) :
    x.index ∈ (pushAnswers quotaBytes db userId now changes).map Prod.fst := by
  have hpass : ∀ a ∈ judgedAnswers userId now (vaultState db userId changes) (latestVersion db)
      (storedChange db) j, a ∈ pushAnswers quotaBytes db userId now changes := fun a ha =>
    List.mem_append_left _ (List.mem_append_left _ (List.mem_flatMap.2 ⟨j, hj, ha⟩))
  have honce : ∀ a ∈ answersAtOnce (pushDecided db userId changes j.1),
      a ∈ pushAnswers quotaBytes db userId now changes := fun a ha =>
    hpass a (List.mem_append_left _ ha)
  cases o with
  | failed failure =>
      exact List.mem_map.2 ⟨_, honce _ (mem_answersAtOnce.2
        ⟨_, h, Or.inl ⟨failure, rfl, rfl⟩⟩), rfl⟩
  | stored row =>
      exact List.mem_map.2 ⟨_, honce _ (mem_answersAtOnce.2
        ⟨_, h, Or.inr ⟨row, rfl, rfl⟩⟩), rfl⟩
  | append =>
      -- its planned version is rejected in pass one, rejected as a move's source, or written
      obtain ⟨p, hp, hxp⟩ : ∃ p ∈ pushPlanned db userId now changes j.1,
          IsVersionOf userId now x p := by
        obtain ⟨i, hi, hix⟩ := List.getElem_of_mem (mem_appends.2 h)
        have hf := forall₂_pushPlanned db userId now changes j.1
        have hip := hf.length_eq ▸ hi
        exact ⟨_, List.getElem_mem hip, by simpa [hix] using hf.get hi hip⟩
      have hplanned : (x.index, PushResult.rejected p.version.clientChangeId .quota) ∈
          quotaAnswers (pushPlanned db userId now changes j.1) :=
        List.mem_map.2 ⟨p, hp, by rw [hxp.index]⟩
      cases hq : j.2 with
      | false =>
          refine List.mem_map.2 ⟨(x.index, .rejected p.version.clientChangeId .quota),
            hpass _ (List.mem_append_right _ ?_), rfl⟩
          rw [hq]
          exact hplanned
      | true =>
          cases hw : isWritten quotaBytes db userId now changes j with
          | false =>
              refine List.mem_map.2 ⟨_, List.mem_append_left _ (List.mem_append_right _
                (List.mem_flatMap.2 ⟨j, ?_, hplanned⟩)), rfl⟩
              exact List.mem_filter.2 ⟨List.mem_filter.2 ⟨hj, hq⟩, by simp [hw]⟩
          | true =>
              have hpw : p ∈ writtenPlan quotaBytes db userId now changes :=
                List.mem_flatMap.2 ⟨j, List.mem_filter.2 ⟨hj, hw⟩, hp⟩
              obtain ⟨i, hi, hip⟩ := List.getElem_of_mem hpw
              have hi' : i < (writtenRows quotaBytes db userId now changes).length :=
                (forall₂_plan_rows quotaBytes db userId now changes).length_eq ▸ hi
              have hz : (p, (writtenRows quotaBytes db userId now changes)[i]) ∈
                  (writtenPlan quotaBytes db userId now changes).zip
                    (writtenRows quotaBytes db userId now changes) := by
                rw [List.mem_iff_getElem]
                refine ⟨i, by rw [List.length_zip]; omega, ?_⟩
                rw [List.getElem_zip, hip]
              exact List.mem_map.2 ⟨_, List.mem_append_right _ (List.mem_map.2 ⟨_, hz, rfl⟩),
                hxp.index⟩

/-- **Every change of a batch is answered**, at its index and for its outcome. -/
theorem exists_answer {d : Pushed} (hd : pushChanges quotaBytes db userId now changes = .ok d)
    {j : (RecordId × List Indexed) × Bool}
    (hj : j ∈ pushJudged quotaBytes db userId now changes) {x : Indexed} {o : Outcome}
    (h : (x, o) ∈ pushDecided db userId changes j.1) :
    ∃ result, d.results[x.index]? = some (some result) ∧
      IsAnswer quotaBytes db userId now changes j x result o := by
  rw [pushChanges_eq] at hd
  split at hd
  · obtain rfl := Except.ok.inj hd
    obtain ⟨result, hmem, hset⟩ := Results.setAll_of_mem (fun _ => none)
      (index_mem_pushAnswers hj h)
    refine ⟨result, ?_, isAnswer_of_mem hj h hmem⟩
    have hx := (record_of_mem_decided (fst_mem_groupByRecord hj) h).1
    have hlt : x.index < changes.length := (List.getElem?_eq_some_iff.1 (mem_indexed.1 hx)).1
    rw [List.getElem?_map, List.getElem?_range hlt, Option.map_some, hset]
  · simp at hd

end Answers

end Push

end Passmgr
