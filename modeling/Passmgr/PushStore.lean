/-
# The record store

What holds of the record store after any pushes of any users: it is, for every record, the log of
all versions ever written for it, cut at the last purge.

Main definitions:

* `Store`, `StoreStep` — the tables with the log of all versions ever written, and the pushes;
* `StoreInvariant` — the store against the log;

Main results:

* `StoreInvariant.push` — a push preserves it;
* `storeInvariant_of_reaches` — it holds in every state of a run;
* `store_invariant` — what it says about the rows of the store alone.
-/

import Passmgr.CutLog
import Passmgr.PushSpec
import Passmgr.Run

set_option relaxedAutoImplicit false
set_option autoImplicit false

namespace Passmgr

/-! ### Runs of pushes -/

/-- The tables, and the log of every version ever written, in the order they were inserted. -/
structure Store where
  db : Db
  written : List RecordRow

/-- Whatever else happens to the tables: memberships, roles, keys and accounts may change and
vaults may come, but no record and no counter of a vault is touched. -/
structure KeepsRecords (db db' : Db) : Prop where
  records : db'.records = db.records
  nodup : (db'.vaults.map (·.vaultId)).Nodup
  kept : ∀ v ∈ db.vaults, ∃ v' ∈ db'.vaults, v'.vaultId = v.vaultId
  counters : ∀ v' ∈ db'.vaults,
    (∃ v ∈ db.vaults, v'.vaultId = v.vaultId ∧ v'.lastSeq = v.lastSeq ∧
        v'.usedBytes = v.usedBytes) ∨
      (v'.vaultId ∉ db.vaults.map (·.vaultId) ∧ v'.lastSeq = 0 ∧ v'.usedBytes = 0)

/-- One step of the store: a push that does not fail, or something that keeps the records. -/
inductive StoreStep (quotaBytes : ℕ) (s : Store) : Store → Prop
  | push (userId : UserId) (now : Time) (changes : List PushChange) (d : Pushed)
      (h : pushChanges quotaBytes s.db userId now changes = .ok d) :
      StoreStep quotaBytes s { db := d.db, written := s.written ++ d.written }
  | other (db : Db) (h : KeepsRecords s.db db) :
      StoreStep quotaBytes s { db := db, written := s.written }

/-- The store before the first push. -/
structure EmptyStore (s : Store) : Prop where
  records : s.db.records = []
  written : s.written = []
  vaults : (s.db.vaults.map (·.vaultId)).Nodup
  counters : ∀ v ∈ s.db.vaults, v.lastSeq = 0 ∧ v.usedBytes = 0

/-! ### The bytes of a vault -/

/-- The bytes of the rows of a vault. -/
def rowsBytes (records : List RecordRow) (vaultId : VaultId) : ℕ :=
  ((records.filter (·.vaultId = vaultId)).map (·.bytes)).sum

theorem rowsBytes_append (as bs : List RecordRow) (vaultId : VaultId) :
    rowsBytes (as ++ bs) vaultId = rowsBytes as vaultId + rowsBytes bs vaultId := by
  simp [rowsBytes]

/-- A part of the rows and the rest weigh what all of them do. -/
theorem rowsBytes_filter (records : List RecordRow) (p : RecordRow → Bool) (vaultId : VaultId) :
    rowsBytes (records.filter p) vaultId + rowsBytes (records.filter (!p ·)) vaultId =
      rowsBytes records vaultId := by
  induction records with
  | nil => rfl
  | cons row records ih =>
      have hrow : ∀ rest, rowsBytes (row :: rest) vaultId =
          (if row.vaultId = vaultId then row.bytes else 0) + rowsBytes rest vaultId := by
        intro rest
        by_cases hv : row.vaultId = vaultId <;> simp [rowsBytes, hv]
      cases hp : p row with
      | true =>
          rw [List.filter_cons_of_pos hp, List.filter_cons_of_neg (by simp [hp]), hrow, hrow]
          omega
      | false =>
          rw [List.filter_cons_of_neg (by simp [hp]), List.filter_cons_of_pos (by simp [hp]), hrow,
            hrow]
          omega

/-- Every vault's counter is the bytes of its rows. -/
def CountsBytes (db : Db) : Prop :=
  ∀ v ∈ db.vaults, v.usedBytes = (rowsBytes db.records v.vaultId : ℕ)

theorem countsBytes_dropBelow {db : Db} {purged : RecordRow} (h : CountsBytes db)
    (hv : ∀ row ∈ db.records, row.recordId = purged.recordId → row.vaultId = purged.vaultId) :
    CountsBytes (dropBelow db purged) := by
  intro v' hv'
  obtain ⟨v, hvm, rfl⟩ := List.mem_map.1 hv'
  have hcount := h v hvm
  have hsplit := rowsBytes_filter db.records purged.isBelow v.vaultId
  have hbelow : ∀ row ∈ db.records.filter purged.isBelow, row.vaultId = purged.vaultId := by
    intro row hrow
    obtain ⟨hrow, hb⟩ := List.mem_filter.1 hrow
    rw [RecordRow.isBelow, Bool.and_eq_true, decide_eq_true_eq] at hb
    exact hv row hrow hb.1
  by_cases hvid : v.vaultId = purged.vaultId
  · -- all rows that are dropped are in this vault
    have hfreed : rowsBytes (db.records.filter purged.isBelow) v.vaultId =
        ((db.records.filter purged.isBelow).map (·.bytes)).sum := by
      rw [rowsBytes, List.filter_eq_self.2]
      intro row hrow
      simpa [hvid] using hbelow row hrow
    simp only [hvid, if_true, dropBelow]
    rw [← hvid, hcount, ← hsplit, hfreed]
    omega
  · -- nothing of this vault is dropped
    have hnone : rowsBytes (db.records.filter purged.isBelow) v.vaultId = 0 := by
      rw [rowsBytes, List.filter_eq_nil_iff.2]
      · rfl
      · intro row hrow hrv
        exact hvid ((of_decide_eq_true hrv).symm.trans (hbelow row hrow))
    simp only [hvid, if_false, dropBelow]
    rw [hcount, ← hsplit, hnone, Nat.zero_add]

theorem countsBytes_dropPurgedHistory {db : Db} {written : List RecordRow} (h : CountsBytes db)
    (hv : ∀ purged ∈ written, ∀ row ∈ db.records, row.recordId = purged.recordId →
      row.vaultId = purged.vaultId) : CountsBytes (dropPurgedHistory db written) := by
  induction written generalizing db with
  | nil => exact h
  | cons p written ih =>
      have hstep : dropPurgedHistory db (p :: written) =
          dropPurgedHistory (if p.isPurged then dropBelow db p else db) written := rfl
      rw [hstep]
      have hv' := fun q hq => hv q (List.mem_cons_of_mem p hq)
      split
      · refine ih (countsBytes_dropBelow h (hv p List.mem_cons_self)) fun q hq row hrow => ?_
        exact hv' q hq row (List.mem_filter.1 hrow).1
      · exact ih h hv'

/-! ### The invariant -/

/-- The versions ever written for a record. -/
def writtenOf (written : List RecordRow) (recordId : RecordId) : List RecordRow :=
  written.filter (·.recordId = recordId)

/-- The versions ever written into a vault. -/
def writtenIn (written : List RecordRow) (vaultId : VaultId) : List RecordRow :=
  written.filter (·.vaultId = vaultId)

@[simp] theorem writtenOf_append (as bs : List RecordRow) (recordId : RecordId) :
    writtenOf (as ++ bs) recordId = writtenOf as recordId ++ writtenOf bs recordId :=
  List.filter_append _ _

@[simp] theorem writtenIn_append (as bs : List RecordRow) (vaultId : VaultId) :
    writtenIn (as ++ bs) vaultId = writtenIn as vaultId ++ writtenIn bs vaultId :=
  List.filter_append _ _

theorem mem_writtenOf {written : List RecordRow} {recordId : RecordId} {row : RecordRow} :
    row ∈ writtenOf written recordId ↔ row ∈ written ∧ row.recordId = recordId := by
  simp [writtenOf]

theorem mem_writtenIn {written : List RecordRow} {vaultId : VaultId} {row : RecordRow} :
    row ∈ writtenIn written vaultId ↔ row ∈ written ∧ row.vaultId = vaultId := by
  simp [writtenIn]

theorem Db.mem_rowsOf {db : Db} {recordId : RecordId} {row : RecordRow} :
    row ∈ db.rowsOf recordId ↔ row ∈ db.records ∧ row.recordId = recordId := by
  simp [Db.rowsOf]

theorem Db.mem_rowsIn {db : Db} {vaultId : VaultId} {row : RecordRow} :
    row ∈ db.rowsIn vaultId ↔ row ∈ db.records ∧ row.vaultId = vaultId := by
  simp [Db.rowsIn]

/-- The record store against the log of all versions ever written. -/
structure StoreInvariant (s : Store) : Prop where
  vaults : (s.db.vaults.map (·.vaultId)).Nodup
  /-- Of every record the versions from the last purge on are stored, all when there is none. -/
  stored : ∀ recordId, s.db.rowsOf recordId =
    CutLog.cut RecordRow.isPurged (writtenOf s.written recordId)
  /-- The versions of a record were written on top of each other. -/
  chained : ∀ recordId, Extends none ((writtenOf s.written recordId).map (·.state))
  one_vault : ∀ recordId, ∀ a ∈ writtenOf s.written recordId,
    ∀ b ∈ writtenOf s.written recordId, a.vaultId = b.vaultId
  has_vault : ∀ row ∈ s.written, ∃ v ∈ s.db.vaults, v.vaultId = row.vaultId
  /-- The seqs of a vault were handed out one after the other, up to its `lastSeq`. -/
  seqs : ∀ v ∈ s.db.vaults,
    (writtenIn s.written v.vaultId).map (·.seq) = List.range' 1 v.lastSeq
  usedBytes : CountsBytes s.db
  unique : UniqueRecords s.db.records

/-! ### Logs of versions on top of each other -/

theorem extends_append {head : Option HeadContent} {as bs : List (HeadContent × Bool)} :
    Extends head (as ++ bs) ↔
      Extends head as ∧ Extends ((as.getLast?.map Prod.fst).or head) bs := by
  induction as generalizing head with
  | nil => simp [Extends]
  | cons a as ih =>
      obtain ⟨v, isTombstone⟩ := a
      simp only [List.cons_append, Extends, ih, and_assoc]
      have hlast : ((((v, isTombstone) :: as).getLast?).map Prod.fst).or head =
          (as.getLast?.map Prod.fst).or (some v) := by
        cases as with
        | nil => simp
        | cons b as =>
            rw [List.getLast?_cons_cons]
            cases h : (b :: as).getLast? with
            | none => simp at h
            | some c => simp
      rw [hlast]

section Log

variable {rows : List RecordRow} (h : Extends none (rows.map (·.state)))

include h

theorem map_version_of_chained : rows.map (·.version) = List.range' 1 rows.length := by
  have := map_version_of_extends h
  rw [List.map_map, List.length_map] at this
  exact this

theorem pairwise_version_of_chained : rows.Pairwise fun a b => a.version < b.version := by
  have hp : (rows.map (·.version)).Pairwise (· < ·) := by
    rw [map_version_of_chained h]
    exact List.pairwise_lt_range'
  rwa [List.pairwise_map] at hp

theorem purged_content_of_chained {row : RecordRow} (hrow : row ∈ rows) (hp : row.isPurged) :
    row.content.encryptedData = [] ∧ row.content.encryptionNonce = [] := by
  obtain ⟨as, bs, rfl⟩ := List.append_of_mem hrow
  rw [List.map_append, List.map_cons, extends_append] at h
  exact h.2.1.purged_content (of_decide_eq_true hp)

end Log

/-- The newest version, found by its number, is the last of a log in ascending order. -/
theorem argmax_eq_getLast? {rows : List RecordRow}
    (h : rows.Pairwise fun a b => a.version < b.version) :
    rows.argmax (·.version) = rows.getLast? := by
  induction rows using List.reverseRecOn with
  | nil => rfl
  | append_singleton rows row ih =>
      obtain ⟨hrows, -, hlt⟩ := List.pairwise_append.1 h
      rw [List.argmax_concat, ih hrows, List.getLast?_append]
      cases hl : rows.getLast? with
      | none => rfl
      | some last =>
          have : last.version < row.version :=
            hlt last (List.mem_of_getLast? hl) row List.mem_cons_self
          simp [this]

/-! ### What a push adds to the log -/

section Push

variable {quotaBytes : ℕ} {db : Db} {userId : UserId} {now : Time} {changes : List PushChange}

variable (quotaBytes db userId now changes) in
/-- The rows a push writes for a record, as versions on top of each other. -/
theorem extends_writtenRows (recordId : RecordId) :
    Extends ((latestVersion db recordId).map (·.head))
      ((writtenOf (writtenRows quotaBytes db userId now changes) recordId).map (·.state)) := by
  have hstate : (writtenOf (writtenRows quotaBytes db userId now changes) recordId).map
        (·.state) =
      ((writtenPlan quotaBytes db userId now changes).filter
        (·.version.recordId = recordId)).map (·.version.state) := by
    rw [writtenOf, writtenRows,
      map_filter_numberRows now (q := fun v => v.recordId = recordId) (g := NewVersion.state)
        (fun _ _ => rfl) (fun _ _ => rfl), List.filter_map, List.map_map]
    rfl
  rw [hstate]
  by_cases hr : ∃ x ∈ indexed changes, x.change.recordId = recordId
  · obtain ⟨x, hx, rfl⟩ := hr
    obtain ⟨j, hj, hjc⟩ := exists_judged quotaBytes db userId now hx
    have hjr : j.1.1 = x.change.recordId := by rw [hjc]
    rw [← hjr, filter_writtenPlan hj]
    split
    · rcases pushDecided_cases db userId changes j.1 with h | hno
      · refine extends_plannedFrom userId now ?_ h
        cases latestVersion db j.1.1 <;> rfl
      · have hnil : pushPlanned db userId now changes j.1 = [] :=
          plannedFrom_of_noAppend userId now hno
        rw [hnil]
        trivial
    · trivial
  · rw [filter_writtenPlan_of_notMem fun x hx hxr => hr ⟨x, hx, hxr⟩]
    trivial

/-- A row a push writes comes from a change to append of its record's chain. -/
theorem exists_change_of_mem_writtenRows {row : RecordRow}
    (hrow : row ∈ writtenRows quotaBytes db userId now changes) :
    ∃ j ∈ pushJudged quotaBytes db userId now changes,
      isWritten quotaBytes db userId now changes j = true ∧ ∃ x,
        (x, Outcome.append) ∈ pushDecided db userId changes j.1 ∧
          IsRowOf userId now x.change row ∧ row.recordId = j.1.1 := by
  obtain ⟨i, hi, rfl⟩ := List.getElem_of_mem hrow
  have hf := forall₂_plan_rows quotaBytes db userId now changes
  have hip : i < (writtenPlan quotaBytes db userId now changes).length := hf.length_eq ▸ hi
  obtain ⟨seq, hseq⟩ := hf.get hip hi
  obtain ⟨j, hj, hwritten, hp⟩ := mem_writtenPlan (List.getElem_mem hip)
  obtain ⟨x, hx, hxp⟩ := mem_pushPlanned hp
  simp only [List.get_eq_getElem] at hseq
  rw [hseq]
  exact ⟨j, hj, hwritten, x, hx, hxp.isRowOf seq, recordId_of_mem_pushPlanned (fst_mem_groupByRecord hj) hp⟩

/-- New versions of a stored record go into its vault. -/
theorem vaultId_of_mem_writtenRows {row head : RecordRow}
    (hrow : row ∈ writtenRows quotaBytes db userId now changes)
    (hhead : latestVersion db row.recordId = some head) : row.vaultId = head.vaultId := by
  obtain ⟨j, hj, -, x, hx, hxr, hr⟩ := exists_change_of_mem_writtenRows hrow
  rw [hr] at hhead
  rcases pushDecided_cases db userId changes j.1 with h | hno
  · rw [hhead] at h
    rw [hxr.vaultId]
    exact vaultId_of_passes h x (mem_appends.2 hx)
  · exact absurd rfl (hno _ hx)

/-- The versions of a new record go into one vault. -/
theorem vaultId_eq_of_mem_writtenRows {a b : RecordRow}
    (ha : a ∈ writtenRows quotaBytes db userId now changes)
    (hb : b ∈ writtenRows quotaBytes db userId now changes) (hab : a.recordId = b.recordId) :
    a.vaultId = b.vaultId := by
  cases hhead : latestVersion db a.recordId with
  | some head =>
      rw [vaultId_of_mem_writtenRows ha hhead, vaultId_of_mem_writtenRows hb (hab ▸ hhead)]
  | none =>
      obtain ⟨j, hj, -, x, hx, hxa, har⟩ := exists_change_of_mem_writtenRows ha
      obtain ⟨j', hj', -, y, hy, hyb, hbr⟩ := exists_change_of_mem_writtenRows hb
      obtain rfl : j' = j :=
        List.inj_on_of_nodup_map nodup_pushJudged hj' hj (by rw [← hbr, ← hab, har])
      rcases pushDecided_cases db userId changes j'.1 with h | hno
      · rw [← har, hhead] at h
        rw [hxa.vaultId, hyb.vaultId]
        exact vaultId_of_passes_none h x (mem_appends.2 hx) y (mem_appends.2 hy)
      · exact absurd rfl (hno _ hx)

theorem exists_vault_of_mem_writtenRows {row : RecordRow}
    (hrow : row ∈ writtenRows quotaBytes db userId now changes) :
    ∃ v ∈ db.vaults, v.vaultId = row.vaultId := by
  obtain ⟨j, hj, -, x, hx, hxr, -⟩ := exists_change_of_mem_writtenRows hrow
  rw [hxr.vaultId]
  exact vault_of_access (decideChain_append hx).access

end Push

/-! ### The invariant along a run -/

section Preserved

variable {quotaBytes : ℕ} {s : Store}

theorem find?_vault_of_mem {vaults : List VaultRow} (hn : (vaults.map (·.vaultId)).Nodup)
    {v : VaultRow} (hv : v ∈ vaults) : vaults.find? (·.vaultId = v.vaultId) = some v := by
  induction vaults with
  | nil => simp at hv
  | cons w vaults ih =>
      rw [List.map_cons, List.nodup_cons] at hn
      rcases List.mem_cons.1 hv with rfl | hv
      · simp
      · have hne : ¬w.vaultId = v.vaultId := fun h => hn.1 (h ▸ List.mem_map_of_mem hv)
        rw [List.find?_cons_of_neg (by simpa using hne)]
        exact ih hn.2 hv

/-- The newest stored version of a record is the last ever written. -/
theorem StoreInvariant.latestVersion_eq (hs : StoreInvariant s) (recordId : RecordId) :
    latestVersion s.db recordId = (writtenOf s.written recordId).getLast? := by
  have hasc := (pairwise_version_of_chained (hs.chained recordId)).sublist
    (CutLog.cut_suffix RecordRow.isPurged _).sublist
  rw [latestVersion, hs.stored, argmax_eq_getLast? hasc, CutLog.getLast?_cut]

theorem StoreInvariant.mem_written (hs : StoreInvariant s) {row : RecordRow}
    (h : row ∈ s.db.records) : row ∈ s.written := by
  have hrow : row ∈ s.db.rowsOf row.recordId := Db.mem_rowsOf.2 ⟨h, rfl⟩
  rw [hs.stored] at hrow
  exact (mem_writtenOf.1 (CutLog.mem_of_mem_cut _ hrow)).1

section Push

variable {userId : UserId} {now : Time} {changes : List PushChange}

variable (quotaBytes userId now changes) in
/-- The rows a push plans are on top of the versions written before. -/
theorem StoreInvariant.chained_writtenRows (hs : StoreInvariant s) (recordId : RecordId) :
    Extends none ((writtenOf (s.written ++ writtenRows quotaBytes s.db userId now changes)
      recordId).map (·.state)) := by
  have hnew := extends_writtenRows quotaBytes s.db userId now changes recordId
  rw [hs.latestVersion_eq] at hnew
  rw [writtenOf_append, List.map_append, extends_append]
  refine ⟨hs.chained recordId, ?_⟩
  rw [List.getLast?_map, Option.map_map, Option.or_none]
  exact hnew

theorem StoreInvariant.chained_push (hs : StoreInvariant s) {d : Pushed}
    (h : pushChanges quotaBytes s.db userId now changes = .ok d) (recordId : RecordId) :
    Extends none ((writtenOf (s.written ++ d.written) recordId).map (·.state)) := by
  rw [(of_pushChanges_ok h).2.1]
  exact hs.chained_writtenRows quotaBytes userId now changes recordId

theorem StoreInvariant.rowsOf_push (hs : StoreInvariant s) {d : Pushed}
    (h : pushChanges quotaBytes s.db userId now changes = .ok d) (recordId : RecordId) :
    d.db.rowsOf recordId =
      CutLog.cut RecordRow.isPurged (writtenOf (s.written ++ d.written) recordId) := by
  obtain ⟨-, hw, hdb⟩ := of_pushChanges_ok h
  have hall : Extends none ((writtenOf (s.written ++ d.written) recordId).map (·.state)) :=
    hs.chained_push h recordId
  rw [writtenOf_append] at hall ⊢
  have hasc : (CutLog.cut RecordRow.isPurged (writtenOf s.written recordId) ++
      writtenOf d.written recordId).Pairwise fun a b => a.version < b.version :=
    (pairwise_version_of_chained hall).sublist
      ((CutLog.cut_suffix _ _).sublist.append_right _)
  rw [← CutLog.filter_append_eq_cut RecordRow.isPurged (·.version) hasc, ← hs.stored, hdb,
    Db.rowsOf, records_dropPurgedHistory, insertedDb, List.filter_comm, List.filter_append, ← hw]
  refine List.filter_congr fun row hrow => ?_
  have hr : row.recordId = recordId := by
    rcases List.mem_append.1 hrow with hrow | hrow <;>
      exact of_decide_eq_true (List.mem_filter.1 hrow).2
  rw [writtenOf, List.any_filter]
  congr 2
  funext p
  rw [RecordRow.isBelow, hr]
  cases p.isPurged <;> simp [eq_comm, Bool.and_comm]

/-- Old and new versions of a record are in one vault. -/
theorem StoreInvariant.one_vault_push (hs : StoreInvariant s) {d : Pushed}
    (h : pushChanges quotaBytes s.db userId now changes = .ok d) {a b : RecordRow}
    (ha : a ∈ s.written ++ d.written) (hb : b ∈ s.written ++ d.written)
    (hab : a.recordId = b.recordId) : a.vaultId = b.vaultId := by
  obtain ⟨-, hw, -⟩ := of_pushChanges_ok h
  have hcross : ∀ old ∈ s.written, ∀ new ∈ d.written, old.recordId = new.recordId →
      old.vaultId = new.vaultId := by
    intro old hold new hnew hr
    have holdOf : old ∈ writtenOf s.written new.recordId := mem_writtenOf.2 ⟨hold, hr⟩
    cases hlast : latestVersion s.db new.recordId with
    | none =>
        rw [hs.latestVersion_eq, List.getLast?_eq_none_iff] at hlast
        rw [hlast] at holdOf
        simp at holdOf
    | some head =>
        rw [hw] at hnew
        rw [vaultId_of_mem_writtenRows hnew hlast]
        rw [hs.latestVersion_eq] at hlast
        exact hs.one_vault _ old holdOf head (List.mem_of_getLast? hlast)
  rcases List.mem_append.1 ha with ha | ha <;> rcases List.mem_append.1 hb with hb | hb
  · exact hs.one_vault b.recordId a (mem_writtenOf.2 ⟨ha, hab⟩) b (mem_writtenOf.2 ⟨hb, rfl⟩)
  · exact hcross a ha b hb hab
  · exact (hcross b hb a ha hab.symm).symm
  · rw [hw] at ha hb
    exact vaultId_eq_of_mem_writtenRows ha hb hab

variable (quotaBytes userId now changes) in
/-- In every vault the new rows have the seqs after `lastSeq`. -/
theorem StoreInvariant.seqs_writtenRows (hs : StoreInvariant s) {v : VaultRow}
    (hv : v ∈ s.db.vaults) :
    (writtenIn (writtenRows quotaBytes s.db userId now changes) v.vaultId).map (·.seq) =
      List.range' (v.lastSeq + 1)
        (((writtenPlan quotaBytes s.db userId now changes).map (·.version)).filter
          (·.vaultId = v.vaultId)).length := by
  rw [writtenIn, writtenRows, map_seq_numberRows, firstSeq, find?_vault_of_mem hs.vaults hv,
    Option.elim_some]

/-- The vaults after a push: the counters, and nothing else, moved. -/
theorem vaults_push {d : Pushed}
    (h : pushChanges quotaBytes s.db userId now changes = .ok d) {β : Type}
    {f : VaultRow → β} (hf : ∀ v n, f { v with usedBytes := n } = f v) :
    d.db.vaults.map f = s.db.vaults.map fun v =>
      f (v.add (((writtenPlan quotaBytes s.db userId now changes).map (·.version)).filter
        (·.vaultId = v.vaultId))) := by
  obtain ⟨-, -, hdb⟩ := of_pushChanges_ok h
  rw [hdb, vaults_dropPurgedHistory _ _ hf, insertedDb, List.map_map]
  rfl

theorem vaultIds_push {d : Pushed}
    (h : pushChanges quotaBytes s.db userId now changes = .ok d) :
    d.db.vaults.map (·.vaultId) = s.db.vaults.map (·.vaultId) :=
  vaults_push h fun _ _ => rfl

theorem StoreInvariant.seqs_push (hs : StoreInvariant s) {d : Pushed}
    (h : pushChanges quotaBytes s.db userId now changes = .ok d) {v' : VaultRow}
    (hv' : v' ∈ d.db.vaults) :
    (writtenIn (s.written ++ d.written) v'.vaultId).map (·.seq) =
      List.range' 1 v'.lastSeq := by
  obtain ⟨-, hw, -⟩ := of_pushChanges_ok h
  have hmem := List.mem_map_of_mem (f := fun v : VaultRow => (v.vaultId, v.lastSeq)) hv'
  rw [vaults_push h fun _ _ => rfl] at hmem
  obtain ⟨v, hv, heq⟩ := List.mem_map.1 hmem
  obtain ⟨hid, hlast⟩ := Prod.mk.inj heq
  rw [VaultRow.add_vaultId] at hid
  rw [VaultRow.add_lastSeq] at hlast
  rw [← hid, ← hlast, writtenIn_append, List.map_append, hs.seqs v hv, hw,
    hs.seqs_writtenRows quotaBytes userId now changes hv, Nat.add_comm v.lastSeq 1, List.range'_append_1]

theorem StoreInvariant.usedBytes_push (hs : StoreInvariant s) {d : Pushed}
    (h : pushChanges quotaBytes s.db userId now changes = .ok d) : CountsBytes d.db := by
  obtain ⟨-, hw, hdb⟩ := of_pushChanges_ok h
  rw [hdb]
  refine countsBytes_dropPurgedHistory ?_ ?_
  · -- the insert adds the bytes of the new rows
    intro v' hv'
    obtain ⟨v, hv, rfl⟩ := List.mem_map.1 hv'
    have hnew : rowsBytes (writtenRows quotaBytes s.db userId now changes) v.vaultId =
        versionsBytes (((writtenPlan quotaBytes s.db userId now changes).map (·.version)).filter
          (·.vaultId = v.vaultId)) := by
      rw [rowsBytes, versionsBytes, writtenRows]
      rw [map_filter_numberRows now (q := fun w => w.vaultId = v.vaultId)
        (g := fun w => pushChangeBytes w.content) (fun _ _ => rfl) (fun _ _ => rfl)]
    rw [VaultRow.add_usedBytes, VaultRow.add_vaultId, hs.usedBytes v hv, insertedDb,
      rowsBytes_append, hnew]
    push_cast
    rfl
  · intro purged hp row hrow hr
    rw [insertedDb, ← hw] at hrow
    refine hs.one_vault_push h ?_ (List.mem_append_right _ hp) hr
    rcases List.mem_append.1 hrow with hrow | hrow
    · exact List.mem_append_left _ (hs.mem_written hrow)
    · exact List.mem_append_right _ hrow

theorem unique_push {d : Pushed} (h : pushChanges quotaBytes s.db userId now changes = .ok d) :
    UniqueRecords d.db.records := by
  obtain ⟨⟨h₁, h₂, h₃⟩, hw, hdb⟩ := of_pushChanges_ok h
  have hsub : d.db.records.Sublist
      (s.db.records ++ writtenRows quotaBytes s.db userId now changes) := by
    rw [hdb, records_dropPurgedHistory]
    exact List.filter_sublist
  exact ⟨h₁.sublist (hsub.map _), h₂.sublist (hsub.map _), h₃.sublist (hsub.map _)⟩

/-- **A push preserves the invariant of the record store.** -/
theorem StoreInvariant.push (hs : StoreInvariant s) {d : Pushed}
    (h : pushChanges quotaBytes s.db userId now changes = .ok d) :
    StoreInvariant { db := d.db, written := s.written ++ d.written } where
  vaults := by rw [vaultIds_push h]; exact hs.vaults
  stored := hs.rowsOf_push h
  chained := hs.chained_push h
  one_vault recordId a ha b hb :=
    hs.one_vault_push h (mem_writtenOf.1 ha).1 (mem_writtenOf.1 hb).1
      ((mem_writtenOf.1 ha).2.trans (mem_writtenOf.1 hb).2.symm)
  has_vault row hrow := by
    have hex : ∃ v ∈ s.db.vaults, v.vaultId = row.vaultId := by
      rcases List.mem_append.1 hrow with hrow | hrow
      · exact hs.has_vault row hrow
      · rw [(of_pushChanges_ok h).2.1] at hrow
        exact exists_vault_of_mem_writtenRows hrow
    obtain ⟨v, hv, hid⟩ := hex
    have hmem : row.vaultId ∈ d.db.vaults.map (·.vaultId) := by
      rw [vaultIds_push h]
      exact List.mem_map.2 ⟨v, hv, hid⟩
    obtain ⟨v', hv', hid'⟩ := List.mem_map.1 hmem
    exact ⟨v', hv', hid'⟩
  seqs _ hv' := hs.seqs_push h hv'
  usedBytes := hs.usedBytes_push h
  unique := unique_push h

end Push

/-- What keeps the records preserves the invariant of the record store. -/
theorem StoreInvariant.keepsRecords (hs : StoreInvariant s) {db : Db}
    (h : KeepsRecords s.db db) : StoreInvariant { db := db, written := s.written } where
  vaults := h.nodup
  stored recordId := by
    have := hs.stored recordId
    rw [Db.rowsOf] at this ⊢
    rwa [h.records]
  chained := hs.chained
  one_vault := hs.one_vault
  has_vault row hrow := by
    obtain ⟨v, hv, hid⟩ := hs.has_vault row hrow
    obtain ⟨v', hv', hid'⟩ := h.kept v hv
    exact ⟨v', hv', hid'.trans hid⟩
  seqs v' hv' := by
    rcases h.counters v' hv' with ⟨v, hv, hid, hlast, -⟩ | ⟨hnew, hlast, -⟩
    · rw [hid, hlast]
      exact hs.seqs v hv
    · -- nothing was ever written into a new vault
      have hnone : writtenIn s.written v'.vaultId = [] := by
        rw [writtenIn, List.filter_eq_nil_iff]
        intro row hrow hrv
        obtain ⟨v, hv, hid⟩ := hs.has_vault row hrow
        exact hnew (List.mem_map.2 ⟨v, hv, hid.trans (of_decide_eq_true hrv)⟩)
      rw [hnone, hlast]
      rfl
  usedBytes v' hv' := by
    simp only [h.records]
    rcases h.counters v' hv' with ⟨v, hv, hid, -, hused⟩ | ⟨hnew, -, hused⟩
    · rw [hid, hused]
      exact hs.usedBytes v hv
    · have hnone : s.db.records.filter (·.vaultId = v'.vaultId) = [] := by
        rw [List.filter_eq_nil_iff]
        intro row hrow hrv
        obtain ⟨v, hv, hid⟩ := hs.has_vault row (hs.mem_written hrow)
        exact hnew (List.mem_map.2 ⟨v, hv, hid.trans (of_decide_eq_true hrv)⟩)
      rw [hused, rowsBytes, hnone]
      rfl
  unique := by
    simp only [h.records]
    exact hs.unique

theorem storeInvariant_of_empty (h : EmptyStore s) : StoreInvariant s where
  vaults := h.vaults
  stored recordId := by simp [Db.rowsOf, h.records, h.written, writtenOf]
  chained recordId := by
    rw [h.written]
    trivial
  one_vault recordId a ha := by simp [h.written, writtenOf] at ha
  has_vault row hrow := by simp [h.written] at hrow
  seqs v hv := by
    rw [h.written, (h.counters v hv).1]
    rfl
  usedBytes v hv := by
    rw [h.records, (h.counters v hv).2]
    rfl
  unique := by
    rw [h.records]
    exact ⟨List.nodup_nil, List.nodup_nil, List.nodup_nil⟩

theorem StoreInvariant.step {t : Store} (hs : StoreInvariant s)
    (h : StoreStep quotaBytes s t) : StoreInvariant t := by
  cases h with
  | push userId now changes d h => exact hs.push h
  | other db h => exact hs.keepsRecords h

/-- **The invariant of the record store** holds in every state of a run from the empty store. -/
theorem storeInvariant_of_reaches {t : Store} (h : EmptyStore s)
    (hr : Run.Reaches (StoreStep quotaBytes) s t) : StoreInvariant t :=
  Run.invariant (fun _ _ hs hst => hs.step hst) hr (storeInvariant_of_empty h)

end Preserved

/-! ### The rows of the store -/

/-- What the rows of the record store are, whoever pushed what. -/
structure WellFormedRecords (s : Store) : Prop where
  /-- The stored versions of a record are a contiguous range, from 1 or from its last purge
  tombstone, up to the last version ever written, … -/
  contiguous : ∀ recordId, ∃ first,
    (s.db.rowsOf recordId).map (·.version) =
        List.range' first (s.db.rowsOf recordId).length ∧
      (first = 1 ∨ ∃ row rest, s.db.rowsOf recordId = row :: rest ∧ row.isPurged = true) ∧
      (∀ row ∈ (s.db.rowsOf recordId).tail, row.isPurged = false) ∧
      (s.db.rowsOf recordId).getLast? = (writtenOf s.written recordId).getLast?
  /-- … all in one vault. -/
  one_vault : ∀ a ∈ s.db.records, ∀ b ∈ s.db.records, a.recordId = b.recordId →
    a.vaultId = b.vaultId
  /-- Every stored version is one that was written, and no number was written twice. -/
  written : ∀ row ∈ s.db.records, row ∈ s.written
  numbers : (s.written.map fun row => (row.recordId, row.version)).Nodup
  /-- Nothing below a purge tombstone is stored. -/
  above_purged : ∀ purged ∈ s.written, purged.isPurged = true →
    ∀ row ∈ s.db.records, row.recordId = purged.recordId → purged.version ≤ row.version
  /-- A purged row has no content. -/
  purged_content : ∀ row ∈ s.db.records, row.isPurged = true →
    row.content.encryptedData = [] ∧ row.content.encryptionNonce = []
  /-- A delete on a purged head is purged. -/
  stays_purged : ∀ recordId, List.IsChain
    (fun head row => head.isPurged = true → row.deletedAt.isSome = true → row.isPurged = true)
    (writtenOf s.written recordId)
  /-- Seqs are distinct in a vault, and follow the versions of a record. -/
  seqs : ∀ vaultId, ((s.db.rowsIn vaultId).map (·.seq)).Nodup
  seqs_follow : ∀ a ∈ s.db.records, ∀ b ∈ s.db.records, a.recordId = b.recordId →
    a.version < b.version → a.seq < b.seq
  /-- `lastSeq` is the greatest seq ever taken in the vault. -/
  lastSeq : ∀ v ∈ s.db.vaults, (∀ row ∈ writtenIn s.written v.vaultId, row.seq ≤ v.lastSeq) ∧
    (v.lastSeq = 0 ∨ ∃ row ∈ writtenIn s.written v.vaultId, row.seq = v.lastSeq)
  /-- `usedBytes` is what the rows of the vault weigh. -/
  usedBytes : ∀ v ∈ s.db.vaults,
    v.usedBytes = (((s.db.rowsIn v.vaultId).map fun row => pushChangeBytes row.content).sum : ℕ)

section WellFormed

variable {s : Store}

theorem isChain_stays_purged {head : Option HeadContent} {rows : List RecordRow}
    (h : Extends head (rows.map (·.state))) :
    List.IsChain (fun below row : RecordRow =>
      below.isPurged = true → row.deletedAt.isSome = true → row.isPurged = true) rows := by
  induction rows generalizing head with
  | nil => exact List.IsChain.nil
  | cons row rows ih =>
      obtain ⟨-, hrest⟩ := h
      cases rows with
      | nil => exact List.IsChain.singleton row
      | cons next rows =>
          refine List.IsChain.cons_cons (fun hp hd => ?_) (ih hrest)
          have hfollows : FollowsHead (some row.head) next.head next.deletedAt.isSome := hrest.1
          have hk := hfollows.stays_purged
            (by simpa [RecordRow.isPurged, RecordRow.head] using hp) hd
          exact decide_eq_true hk

theorem StoreInvariant.pairwise_seq (hs : StoreInvariant s) (vaultId : VaultId) :
    (writtenIn s.written vaultId).Pairwise fun a b => a.seq < b.seq := by
  by_cases hv : ∃ v ∈ s.db.vaults, v.vaultId = vaultId
  · obtain ⟨v, hv, rfl⟩ := hv
    have hp : ((writtenIn s.written v.vaultId).map (·.seq)).Pairwise (· < ·) := by
      rw [hs.seqs v hv]
      exact List.pairwise_lt_range'
    rwa [List.pairwise_map] at hp
  · have hnone : writtenIn s.written vaultId = [] := by
      rw [writtenIn, List.filter_eq_nil_iff]
      intro row hrow hrv
      obtain ⟨v, hvm, hid⟩ := hs.has_vault row hrow
      exact hv ⟨v, hvm, hid.trans (of_decide_eq_true hrv)⟩
    rw [hnone]
    exact List.Pairwise.nil

/-- The versions of a record were written in the order of their seqs. -/
theorem StoreInvariant.pairwise_seq_of_record (hs : StoreInvariant s) (recordId : RecordId) :
    (writtenOf s.written recordId).Pairwise fun a b => a.seq < b.seq := by
  cases hw : writtenOf s.written recordId with
  | nil => exact List.Pairwise.nil
  | cons first rest =>
      rw [← hw]
      have hsub : (writtenOf s.written recordId).Sublist (writtenIn s.written first.vaultId) := by
        have hfirst : first ∈ writtenOf s.written recordId := by
          rw [hw]
          exact List.mem_cons_self
        have hself : writtenOf s.written recordId =
            (writtenOf s.written recordId).filter (·.vaultId = first.vaultId) := by
          rw [eq_comm, List.filter_eq_self]
          intro row hrow
          exact decide_eq_true (hs.one_vault recordId row hrow first hfirst)
        rw [hself]
        exact List.filter_sublist.filter _
      exact (hs.pairwise_seq first.vaultId).sublist hsub

theorem StoreInvariant.stored_of_mem (hs : StoreInvariant s) {row : RecordRow}
    (h : row ∈ s.db.records) :
    row ∈ CutLog.cut RecordRow.isPurged (writtenOf s.written row.recordId) := by
  rw [← hs.stored]
  exact Db.mem_rowsOf.2 ⟨h, rfl⟩

theorem StoreInvariant.eq_of_version (hs : StoreInvariant s) {a b : RecordRow}
    (ha : a ∈ s.written) (hb : b ∈ s.written) (hr : a.recordId = b.recordId)
    (hv : a.version = b.version) : a = b := by
  have hn : ((writtenOf s.written b.recordId).map (·.version)).Nodup := by
    rw [map_version_of_chained (hs.chained _)]
    exact List.nodup_range'
  exact List.inj_on_of_nodup_map hn (mem_writtenOf.2 ⟨ha, hr⟩) (mem_writtenOf.2 ⟨hb, rfl⟩) hv

/-- A log of versions on top of each other has no number twice. -/
theorem numbers_of_chained {log : List RecordRow}
    (h : ∀ recordId, Extends none ((writtenOf log recordId).map (·.state))) :
    (log.map fun row => (row.recordId, row.version)).Nodup := by
  refine GroupBy.nodup_map_pair (fun row : RecordRow => row.recordId) fun recordId => ?_
  have hrange := map_version_of_chained (h recordId)
  rw [writtenOf] at hrange
  rw [GroupBy.group, hrange]
  exact List.nodup_range'

/-- Nothing below a purge tombstone is stored. -/
theorem StoreInvariant.above_purged (hs : StoreInvariant s) {purged row : RecordRow}
    (hp : purged ∈ s.written) (hpp : purged.isPurged = true) (hrow : row ∈ s.db.records)
    (hr : row.recordId = purged.recordId) : purged.version ≤ row.version := by
  have hasc := pairwise_version_of_chained (hs.chained row.recordId)
  have hmem := hs.stored_of_mem hrow
  rw [← CutLog.filter_eq_cut RecordRow.isPurged (·.version) hasc, List.mem_filter,
    List.all_eq_true] at hmem
  have hcut := hmem.2 purged (mem_writtenOf.2 ⟨hp, hr.symm⟩)
  simpa [hpp] using hcut

theorem StoreInvariant.wellFormedRecords (hs : StoreInvariant s) : WellFormedRecords s where
  contiguous recordId := by
    have hrange := map_version_of_chained (hs.chained recordId)
    obtain ⟨first, n, hcut, -, -⟩ :=
      CutLog.map_cut_eq_range' RecordRow.isPurged (·.version) hrange
    have hn : n = (s.db.rowsOf recordId).length := by
      have := congrArg List.length hcut
      rw [List.length_map, List.length_range', ← hs.stored] at this
      exact this.symm
    by_cases hwhole : CutLog.cut RecordRow.isPurged (writtenOf s.written recordId) =
        writtenOf s.written recordId
    · refine ⟨1, ?_, Or.inl rfl, ?_, ?_⟩
      · rw [hs.stored, hwhole, hrange]
      · intro row hrow
        rw [hs.stored] at hrow
        simpa using List.any_eq_false.1 (CutLog.any_tail_cut _ _) row hrow
      · rw [hs.stored, CutLog.getLast?_cut]
    · refine ⟨first, ?_, Or.inr ?_, ?_, ?_⟩
      · rw [hs.stored, hcut, hn, hs.stored]
      · obtain ⟨row, rest, hcons, hp⟩ := CutLog.head_cut _ hwhole
        exact ⟨row, rest, by rw [hs.stored, hcons], hp⟩
      · intro row hrow
        rw [hs.stored] at hrow
        simpa using List.any_eq_false.1 (CutLog.any_tail_cut _ _) row hrow
      · rw [hs.stored, CutLog.getLast?_cut]
  one_vault a ha b hb hab :=
    hs.one_vault b.recordId a (mem_writtenOf.2 ⟨hs.mem_written ha, hab⟩) b
      (mem_writtenOf.2 ⟨hs.mem_written hb, rfl⟩)
  written _ := hs.mem_written
  numbers := numbers_of_chained hs.chained
  above_purged _ hp hpp _ hrow hr := hs.above_purged hp hpp hrow hr
  purged_content row hrow hp :=
    purged_content_of_chained (hs.chained row.recordId)
      (mem_writtenOf.2 ⟨hs.mem_written hrow, rfl⟩) hp
  stays_purged recordId := isChain_stays_purged (hs.chained recordId)
  seqs vaultId := by
    have hn := hs.unique.2.1.sublist (List.filter_sublist (p := fun row : RecordRow =>
      decide (row.vaultId = vaultId)) |>.map _)
    rw [List.Nodup, List.pairwise_map] at hn ⊢
    refine hn.imp_of_mem fun {a b} ha hb hne heq => hne ?_
    have hav := of_decide_eq_true (List.mem_filter.1 ha).2
    have hbv := of_decide_eq_true (List.mem_filter.1 hb).2
    rw [hav, hbv, heq]
  seqs_follow a ha b hb hr hlt := by
    exact CutLog.lt_of_pairwise (·.version)
      (pairwise_version_of_chained (hs.chained b.recordId))
      (hs.pairwise_seq_of_record b.recordId) (mem_writtenOf.2 ⟨hs.mem_written ha, hr⟩)
      (mem_writtenOf.2 ⟨hs.mem_written hb, rfl⟩) hlt
  lastSeq v hv := by
    have hrange := hs.seqs v hv
    constructor
    · intro row hrow
      have hmem := List.mem_map_of_mem (f := (·.seq)) hrow
      rw [hrange, List.mem_range'_1] at hmem
      omega
    · rcases Nat.eq_zero_or_pos v.lastSeq with hz | hpos
      · exact Or.inl hz
      · have hmem : v.lastSeq ∈ (writtenIn s.written v.vaultId).map (·.seq) := by
          rw [hrange, List.mem_range'_1]
          omega
        obtain ⟨row, hrow, hseq⟩ := List.mem_map.1 hmem
        exact Or.inr ⟨row, hrow, hseq⟩
  usedBytes v hv := hs.usedBytes v hv

end WellFormed

/-- The log of written versions only grows. -/
theorem written_grows {quotaBytes : ℕ} {s t : Store}
    (h : Run.Reaches (StoreStep quotaBytes) s t) : s.written <+: t.written := by
  induction h with
  | refl => exact List.prefix_rfl
  | tail _ hst ih =>
      cases hst with
      | push userId now changes d h => exact ih.trans (List.prefix_append _ _)
      | other db h => exact ih

/-- **The record store.**  In every state of a run from the empty store the rows are well formed;
a number that was written for a record stands for that version ever after, and below a purge
tombstone nothing is stored again. -/
theorem record_store {quotaBytes : ℕ} {s t u : Store} (hs : EmptyStore s)
    (ht : Run.Reaches (StoreStep quotaBytes) s t) (hu : Run.Reaches (StoreStep quotaBytes) t u) :
    WellFormedRecords t ∧
      (∀ a ∈ t.written, ∀ b ∈ u.written, a.recordId = b.recordId → a.version = b.version →
        a = b) ∧
      ∀ purged ∈ t.written, purged.isPurged = true → ∀ row ∈ u.db.records,
        row.recordId = purged.recordId → purged.version ≤ row.version := by
  have hInvT := storeInvariant_of_reaches hs ht
  have hInvU := storeInvariant_of_reaches hs (ht.trans hu)
  have hsub := (written_grows hu).subset
  refine ⟨hInvT.wellFormedRecords, ?_, ?_⟩
  · intro a ha b hb hr hv
    exact hInvU.eq_of_version (hsub ha) hb hr hv
  · intro purged hp hpp row hrow hr
    exact hInvU.above_purged (hsub hp) hpp hrow hr

/-- A first version of a record. -/
def sampleCreate : PushChange where
  clientChangeId := 11
  recordId := 5
  vaultId := 1
  baseVersion := 0
  clientUpdatedAt := 3
  op := .put { encryptedData := ['a'], encryptionNonce := [], cryptoVersion := 1, keyVersion := 1 }

/-- A purge of that version. -/
def samplePurge : PushChange where
  clientChangeId := 12
  recordId := 5
  vaultId := 1
  baseVersion := 1
  clientUpdatedAt := 4
  op := .delete (some .purged)

/-- A create and then a purge of a freshly registered user. -/
theorem record_store_registered :
    ∃ d e, pushChanges 1000 (registeredDb 7 1) 7 0 [sampleCreate] = .ok d ∧
      pushChanges 1000 d.db 7 1 [samplePurge] = .ok e ∧
      WellFormedRecords { db := d.db, written := [] ++ d.written } ∧
      ∀ purged ∈ [] ++ d.written, purged.isPurged = true → ∀ row ∈ e.db.records,
        row.recordId = purged.recordId → purged.version ≤ row.version := by
  obtain ⟨d, hd, e, he⟩ : ∃ d, pushChanges 1000 (registeredDb 7 1) 7 0 [sampleCreate] = .ok d ∧
      ∃ e, pushChanges 1000 d.db 7 1 [samplePurge] = .ok e := ⟨_, rfl, _, rfl⟩
  have h := record_store (s := { db := registeredDb 7 1, written := [] })
    ⟨rfl, rfl, by decide, by decide⟩ (.single (.push 7 0 [sampleCreate] d hd))
    (.single (.push 7 1 [samplePurge] e he))
  exact ⟨d, e, hd, he, h.1, h.2.2⟩

end Passmgr
