/-
# A pulled page keeps the outbox in order

`applySync` takes rows of other devices in.  Where one of them has the number of a pending version,
the whole chain of its record moves above the newest of them first; then every pulled row is below
the chain, and storing it touches no pending version.

Main results:

* `foldlM_shiftVersion` — renumbering a chain, highest number first;
* `rebase_chain` — what `rebasePendingVersions` does to one chain;
* `transacts_applySync` — a page, whatever its rows, keeps the outbox in order.
-/

import Passmgr.OutboxOps

set_option relaxedAutoImplicit false
set_option autoImplicit false

namespace Passmgr

/-- A resolver merges the two sides of a conflict into a version of its record. -/
def MergesItsRecord (resolve : Option ConflictResolver) : Prop :=
  ∀ f, resolve = some f → ∀ conflict ciphertext,
    f conflict = .merged (some ciphertext) → ciphertext.recordId = conflict.base.recordId

section Rebase

variable {fresh : ChangeId → Prop} {db db' : LocalDb}

/-! ### Renumbering -/

/-- Highest first, every number moves once. -/
theorem foldlM_shiftVersion {recordId : RecordId} {shift : ℕ} {versions : List ℕ}
    (hdesc : versions.Pairwise (· > ·))
    (h : versions.foldlM (shiftVersion recordId shift) db = .ok db') :
    db'.records = db.records.map (fun row =>
        if row.record.recordId = recordId ∧ row.record.version ∈ versions then row.raise shift
        else row) ∧
      db'.outbox = db.outbox.map (fun entry =>
        if entry.recordId = recordId ∧ entry.version ∈ versions then entry.raise shift
        else entry) := by
  induction versions generalizing db with
  | nil =>
      obtain rfl := Except.ok.inj h
      simp
  | cons version versions ih =>
      rw [List.foldlM_cons] at h
      obtain ⟨hlt, hrest⟩ := List.pairwise_cons.1 hdesc
      have hnot : version + shift ∉ versions := fun hmem => by
        have := hlt _ hmem
        omega
      cases hstep : shiftVersion recordId shift db version with
      | error e =>
          rw [hstep] at h
          cases h
      | ok db₁ =>
          rw [hstep] at h
          obtain ⟨hrecords, houtbox⟩ := ih hrest h
          unfold shiftVersion at hstep
          split at hstep
          · cases hstep
          obtain rfl := Except.ok.inj hstep
          rw [hrecords, houtbox]
          simp only [List.map_map]
          constructor
          · refine List.map_congr_left fun row _ => ?_
            simp only [Function.comp_apply, LocalRow.key, Prod.mk.injEq, List.mem_cons]
            by_cases hid : row.record.recordId = recordId
            · by_cases hv : row.record.version = version
              · simp [hid, hv, hnot, LocalRow.raise]
              · simp [hid, hv]
            · simp [hid]
          · refine List.map_congr_left fun entry _ => ?_
            simp only [Function.comp_apply, OutboxEntry.key, Prod.mk.injEq, List.mem_cons]
            by_cases hid : entry.recordId = recordId
            · by_cases hv : entry.version = version
              · simp [hid, hv, hnot, OutboxEntry.raise]
              · simp [hid, hv]
            · simp [hid]

/-- The views once the numbers of a chain were moved. -/
theorem view_shift {recordId : RecordId} {first shift : ℕ} {versions : List ℕ}
    (hfirst : (db.view recordId).Chained first)
    (hversions : versions = (List.range' first (db.view recordId).entries.length).reverse)
    (h : versions.foldlM (shiftVersion recordId shift) db = .ok db') (other : RecordId) :
    db'.view other =
      if other = recordId then (db.view recordId).shift shift else db.view other := by
  have hdesc : versions.Pairwise (· > ·) := by
    rw [hversions, List.pairwise_reverse]
    exact List.pairwise_lt_range'
  obtain ⟨hrecords, houtbox⟩ := foldlM_shiftVersion hdesc h
  have hrid : ∀ row : LocalRow, (if row.record.recordId = recordId ∧
      row.record.version ∈ versions then row.raise shift else row).record.recordId =
        row.record.recordId := by
    intro row
    split <;> rfl
  have heid : ∀ entry : OutboxEntry, (if entry.recordId = recordId ∧
      entry.version ∈ versions then entry.raise shift else entry).recordId = entry.recordId := by
    intro entry
    split <;> rfl
  unfold LocalDb.view LocalDb.rowsOf LocalDb.entriesOf
  rw [hrecords, houtbox, List.filter_map, List.filter_map]
  have hrows : (db.records.filter ((fun row : LocalRow => decide (row.record.recordId = other)) ∘
      fun row => if row.record.recordId = recordId ∧ row.record.version ∈ versions then
        row.raise shift else row)) = db.rowsOf other := by
    refine List.filter_congr fun row _ => ?_
    simp only [Function.comp_apply, hrid]
  have hentries : (db.outbox.filter ((fun entry : OutboxEntry => decide (entry.recordId = other)) ∘
      fun entry => if entry.recordId = recordId ∧ entry.version ∈ versions then
        entry.raise shift else entry)) = db.entriesOf other := by
    refine List.filter_congr fun entry _ => ?_
    simp only [Function.comp_apply, heid]
  rw [hrows, hentries]
  split
  · next heq =>
      subst heq
      unfold RecordView.shift
      congr 1
      · refine List.map_congr_left fun row hrow => ?_
        have hid : row.record.recordId = other := of_decide_eq_true (List.mem_filter.1 hrow).2
        -- the numbers that move are those of the pending versions
        have hiff : row.record.version ∈ versions ↔ row.isPending = true := by
          rw [hversions, List.mem_reverse, List.mem_range'_1]
          constructor
          · intro hmem
            rcases isPending_or_isSynced row with hp | hs
            · exact hp
            · have hne : (db.view other).entries ≠ [] := by
                intro hnil
                rw [hnil] at hmem
                simp only [List.length_nil] at hmem
                omega
              have := hfirst.synced row hrow hs hne
              omega
          · exact hfirst.version_mem hrow
        simp only [hid, hiff, true_and]
      · refine List.map_congr_left fun entry hentry => ?_
        have hid : entry.recordId = other := of_decide_eq_true (List.mem_filter.1 hentry).2
        have hmem : entry.version ∈ versions := by
          rw [hversions, List.mem_reverse, ← hfirst.entries]
          exact List.mem_map_of_mem hentry
        simp [hid, hmem]
  · next hne =>
      congr 1
      · rw [List.map_congr_left (g := id), List.map_id]
        · rfl
        · intro row hrow
          have hid : row.record.recordId = _ := of_decide_eq_true (List.mem_filter.1 hrow).2
          simp [hid, hne]
      · rw [List.map_congr_left (g := id), List.map_id]
        · rfl
        · intro entry hentry
          have hid : entry.recordId = _ := of_decide_eq_true (List.mem_filter.1 hentry).2
          simp [hid, hne]

/-! ### The chains of a rebase -/

/-- The pending versions of a record as they are grouped: those of its view, in order. -/
theorem versions_of_group (h : OutboxInvariant db) (recordId : RecordId) :
    (GroupBy.group (·.recordId) recordId db.pendingRows).map (·.version) =
      (db.view recordId).pending.map (·.record.version) := by
  let le : EncryptedRecord → EncryptedRecord → Prop := fun a b =>
    a.recordId < b.recordId ∨ a.recordId = b.recordId ∧ a.version ≤ b.version
  have htotal : Std.Total le := ⟨fun a b => by
    rcases lt_trichotomy a.recordId b.recordId with hlt | heq | hlt
    · exact Or.inl (Or.inl hlt)
    · rcases le_total a.version b.version with hle | hle
      · exact Or.inl (Or.inr ⟨heq, hle⟩)
      · exact Or.inr (Or.inr ⟨heq.symm, hle⟩)
    · exact Or.inr (Or.inl hlt)⟩
  have htrans : IsTrans EncryptedRecord le := ⟨fun a b c hab hbc => by
    rcases hab with hab | ⟨hab, hv⟩
    · rcases hbc with hbc | ⟨hbc, -⟩
      · exact Or.inl (hab.trans hbc)
      · exact Or.inl (hbc ▸ hab)
    · rcases hbc with hbc | ⟨hbc, hv'⟩
      · exact Or.inl (hab ▸ hbc)
      · exact Or.inr ⟨hab.trans hbc, hv.trans hv'⟩⟩
  obtain ⟨first, hfirst⟩ := h.chains recordId
  have hsorted : ((GroupBy.group (·.recordId) recordId db.pendingRows).map (·.version)).Pairwise
      (· ≤ ·) := by
    rw [List.pairwise_map]
    refine ((List.pairwise_insertionSort le _).sublist List.filter_sublist).imp_of_mem ?_
    intro a b ha hb hab
    have hida : a.recordId = recordId := ((GroupBy.mem_group _).1 ha).2
    have hidb : b.recordId = recordId := ((GroupBy.mem_group _).1 hb).2
    rcases hab with hlt | ⟨-, hle⟩
    · rw [hida, hidb] at hlt
      exact absurd hlt (lt_irrefl _)
    · exact hle
  have hperm : ((GroupBy.group (·.recordId) recordId db.pendingRows).map (·.version)).Perm
      ((db.view recordId).pending.map (·.record.version)) := by
    have hrows : ((db.records.filter (·.isPending)).map (·.record)).filter
        (·.recordId = recordId) = (db.view recordId).pending.map (·.record) := by
      unfold RecordView.pending LocalDb.view LocalDb.rowsOf
      rw [List.filter_map, List.filter_filter, List.filter_filter]
      congr 1
      refine List.filter_congr fun row _ => ?_
      rw [Bool.and_comm]
      rfl
    have hmap : (db.view recordId).pending.map (·.record.version) =
        ((db.view recordId).pending.map (·.record)).map (·.version) := by
      rw [List.map_map]
      rfl
    rw [hmap, ← hrows]
    exact ((List.perm_insertionSort le _).filter _).map _
  refine hperm.eq_of_pairwise (fun a b _ _ => le_antisymm) hsorted ?_
  rw [hfirst.pending]
  exact List.Pairwise.imp le_of_lt List.pairwise_lt_range'

/-- Every pulled version of a record is below its chain. -/
def Below (incoming : List EncryptedRecord) (recordId : RecordId) (v : RecordView) : Prop :=
  ∀ row ∈ incoming, row.recordId = recordId → ∀ m ∈ v.marks, row.version < m.version

/-- The numbers of a chain are at least its first. -/
theorem first_le_marks {v : RecordView} {first : ℕ} (h : v.Chained first) {m : PendingMark}
    (hm : m ∈ v.marks) : first ≤ m.version := by
  have hmem : m.version ∈ v.marks.map (·.version) := List.mem_map_of_mem hm
  rw [h.map_version_marks, List.mem_range'_1] at hmem
  exact hmem.1

/-- The first mark has the first number. -/
theorem exists_first_mark {v : RecordView} {first : ℕ} (h : v.Chained first)
    (hne : v.entries ≠ []) : ∃ m ∈ v.marks, m.version = first := by
  have hmem : first ∈ v.marks.map (·.version) := by
    rw [h.map_version_marks, List.mem_range'_1]
    have := List.length_pos_iff.2 hne
    omega
  exact List.mem_map.1 hmem

/-- A mark is one of a pending version. -/
theorem exists_row_of_mark {recordId : RecordId} {first : ℕ}
    (h : (db.view recordId).Chained first) {m : PendingMark}
    (hm : m ∈ (db.view recordId).marks) :
    ∃ row ∈ db.rowsOf recordId, row.record.version = m.version := by
  have hmem : m.version ∈ (db.view recordId).marks.map (·.version) := List.mem_map_of_mem hm
  rw [h.map_version_marks, ← h.pending] at hmem
  obtain ⟨row, hrow, hv⟩ := List.mem_map.1 hmem
  exact ⟨row, (List.mem_filter.1 hrow).1, hv⟩

/-- The newest colliding row is the last one. -/
theorem le_getLast_collidingRows {incoming : List EncryptedRecord} {recordId : RecordId}
    {first : ℕ} {last row : EncryptedRecord}
    (hlast : (collidingRows incoming recordId first).getLast? = some last)
    (hrow : row ∈ incoming) (hid : row.recordId = recordId) (hle : first ≤ row.version) :
    row.version ≤ last.version := by
  have hmem : row ∈ collidingRows incoming recordId first := by
    unfold collidingRows
    rw [List.mem_insertionSort, List.mem_filter, GroupBy.mem_group]
    exact ⟨⟨hrow, hid⟩, by simpa using hle⟩
  have hsorted := List.pairwise_insertionSort (fun a b : EncryptedRecord => a.version ≤ b.version)
    ((GroupBy.group (·.recordId) recordId incoming).filter (first ≤ ·.version))
  obtain ⟨init, hinit⟩ := List.getLast?_eq_some_iff.1 hlast
  change (collidingRows incoming recordId first).Pairwise _ at hsorted
  rw [hinit] at hsorted hmem
  rcases List.mem_append.1 hmem with hmem | hmem
  · exact (List.pairwise_append.1 hsorted).2.2 row hmem last (by simp)
  · obtain rfl := List.mem_singleton.1 hmem
    exact le_rfl

theorem first_le_of_mem_collidingRows {incoming : List EncryptedRecord} {recordId : RecordId}
    {first : ℕ} {row : EncryptedRecord} (h : row ∈ collidingRows incoming recordId first) :
    row ∈ incoming ∧ row.recordId = recordId ∧ first ≤ row.version := by
  unfold collidingRows at h
  rw [List.mem_insertionSort, List.mem_filter, GroupBy.mem_group] at h
  exact ⟨h.1.1, h.1.2, by simpa using h.2⟩

/-- A pulled row collides with a chain, unless all are below it. -/
theorem collidingRows_eq_nil_iff {incoming : List EncryptedRecord} {recordId : RecordId}
    {first : ℕ} (hfirst : (db.view recordId).Chained first) (hne : (db.view recordId).entries ≠ []) :
    collidingRows incoming recordId first = [] ↔ Below incoming recordId (db.view recordId) := by
  constructor
  · intro hnil row hrow hid m hm
    have hm' := first_le_marks hfirst hm
    by_contra hle
    have hmem : row ∈ collidingRows incoming recordId first := by
      unfold collidingRows
      rw [List.mem_insertionSort, List.mem_filter, GroupBy.mem_group]
      exact ⟨⟨hrow, hid⟩, by rw [decide_eq_true_eq]; omega⟩
    rw [hnil] at hmem
    cases hmem
  · intro hbelow
    by_contra hnil
    obtain ⟨row, hrow⟩ := List.exists_mem_of_ne_nil _ hnil
    obtain ⟨hmem, hid, hle⟩ := first_le_of_mem_collidingRows hrow
    obtain ⟨m, hm, hmv⟩ := exists_first_mark hfirst hne
    have := hbelow row hmem hid m hm
    omega

/-- The number a chain starts with. -/
theorem first_of_chain {first : ℕ} {chain : RecordId × List EncryptedRecord}
    (hfirst : (db.view chain.1).Chained first) (hne : chain.2 ≠ [])
    (hversions : chain.2.map (·.version) = (db.view chain.1).pending.map (·.record.version)) :
    (chain.2.head?.map (·.version)).getD 0 = first ∧
      chain.2.reverse.map (·.version) =
        (List.range' first (db.view chain.1).entries.length).reverse ∧
      (db.view chain.1).entries ≠ [] := by
  rw [hfirst.pending] at hversions
  have hentries : (db.view chain.1).entries ≠ [] := by
    intro hnil
    rw [hnil] at hversions
    exact hne (List.map_eq_nil_iff.1 hversions)
  refine ⟨?_, by rw [List.map_reverse, hversions], hentries⟩
  rw [← List.head?_map, hversions]
  obtain ⟨entry, entries, heq⟩ := List.exists_cons_of_ne_nil hentries
  rw [heq]
  rfl

theorem recordId_of_baseOf {incoming : List EncryptedRecord} {recordId : RecordId} {first : ℕ}
    {base : EncryptedRecord} (h : baseOf incoming db recordId first = some base) :
    base.recordId = recordId := by
  unfold baseOf at h
  rcases Option.or_eq_some_iff.1 h with h | ⟨-, h⟩
  · obtain ⟨row, hrow, rfl⟩ := Option.map_eq_some_iff.1 h
    exact of_decide_eq_true (List.mem_filter.1 (List.mem_of_find?_eq_some hrow)).2
  · exact ((GroupBy.mem_group _).1 (List.mem_of_find?_eq_some h)).2

/-- Writing a version of a record leaves the other records alone. -/
theorem view_writeLocalChange {change : LocalRecordChange} {written : EncryptedRecord}
    {now : Time} {changeId : ChangeId}
    (hok : writeLocalChange change now changeId db = .ok (db', written)) {recordId : RecordId}
    (hne : recordId ≠ change.recordId) : db'.view recordId = db.view recordId := by
  obtain ⟨row, hid, -, hinsert⟩ := of_writeLocalChange hok
  rw [view_insertPending hinsert, if_neg]
  rw [hid]
  exact hne.symm

/-- What becomes of a record when its chain is rebased. -/
structure Rebased (fresh : ChangeId → Prop) (incoming : List EncryptedRecord)
    (recordId : RecordId) (db db' : LocalDb) : Prop where
  transacts : Transacts fresh True db db'
  below : Below incoming recordId (db'.view recordId)
  others : ∀ other, other ≠ recordId → db'.view other = db.view other

/-- The chain of a conflict moves above the pulled rows. -/
theorem rebased_shift (h : OutboxInvariant db) {incoming : List EncryptedRecord}
    {recordId : RecordId} {first : ℕ} {serverHead : EncryptedRecord}
    (hfirst : (db.view recordId).Chained first)
    (hlast : (collidingRows incoming recordId first).getLast? = some serverHead)
    (hok : (List.range' first (db.view recordId).entries.length).reverse.foldlM
      (shiftVersion recordId (serverHead.version + 1 - first)) db = .ok db') :
    Rebased fresh incoming recordId db db' := by
  have hview := view_shift hfirst rfl hok
  have hself : db'.view recordId =
      (db.view recordId).shift (serverHead.version + 1 - first) := by
    rw [hview, if_pos rfl]
  have hothers : ∀ other, other ≠ recordId → db'.view other = db.view other := fun other hne => by
    rw [hview, if_neg hne]
  have hdesc : (List.range' first (db.view recordId).entries.length).reverse.Pairwise
      (· > ·) := by
    rw [List.pairwise_reverse]
    exact List.pairwise_lt_range'
  obtain ⟨-, houtbox⟩ := foldlM_shiftVersion hdesc hok
  refine ⟨⟨⟨?_, ?_, fun other => ?_⟩, fun other => ?_⟩, ?_, hothers⟩
  · rw [houtbox, List.map_map]
    convert h.seqs using 1
    refine List.map_congr_left fun entry _ => ?_
    simp only [Function.comp_apply]
    split <;> rfl
  · rw [houtbox, List.map_map]
    convert h.changeIds using 1
    refine List.map_congr_left fun entry _ => ?_
    simp only [Function.comp_apply]
    split <;> rfl
  · by_cases hid : other = recordId
    · subst hid
      rw [hself]
      exact ⟨_, hfirst.shift _⟩
    · rw [hothers other hid]
      exact h.chains other
  · by_cases hid : other = recordId
    · subst hid
      rw [hself]
      refine Or.inl ⟨serverHead.version + 1 - first, [], ?_, Or.inr trivial,
        fun m hm => by cases hm⟩
      rw [RecordView.marks_shift, List.append_nil]
    · rw [hothers other hid]
      exact moved_of_marks_eq rfl
  · intro row hrow hid m hm
    rw [hself] at hm
    have hm' := first_le_marks (hfirst.shift _) hm
    obtain ⟨-, -, hfirstle⟩ := first_le_of_mem_collidingRows
      (List.mem_of_getLast? hlast)
    by_cases hle : first ≤ row.version
    · have := le_getLast_collidingRows hlast hrow hid hle
      omega
    · omega

/-- **One chain of a rebase**: it is below no pulled row any more, and no other record changed. -/
theorem rebase_chain (h : OutboxInvariant db) {incoming : List EncryptedRecord}
    {resolve : Option ConflictResolver} {receivedAt now : Time}
    {newChangeId : RecordId → ChangeId} {chain : RecordId × List EncryptedRecord}
    (hne : chain.2 ≠ [])
    (hversions : chain.2.map (·.version) = (db.view chain.1).pending.map (·.record.version))
    (hresolve : MergesItsRecord resolve) (hfresh : ∀ recordId, fresh (newChangeId recordId))
    (hok : rebaseChain incoming resolve receivedAt now newChangeId db chain = .ok db') :
    Rebased fresh incoming chain.1 db db' := by
  obtain ⟨first, hfirst⟩ := h.chains chain.1
  obtain ⟨hhead, hreverse, hentries⟩ := first_of_chain hfirst hne hversions
  have hcases := of_rebaseChain hok
  rw [hhead, hreverse] at hcases
  rcases hcases with ⟨hnone, rfl⟩ | ⟨serverHead, db₁, hlast, hshift, hmerge⟩
  · -- no pulled row has the number of a pending version
    exact ⟨Transacts.refl h, (collidingRows_eq_nil_iff hfirst hentries).1 hnone, fun _ _ => rfl⟩
  · have hrebased : Rebased fresh incoming chain.1 db db₁ := rebased_shift h hfirst hlast hshift
    rcases hmerge with rfl | ⟨f, conflict, ciphertext, written, hf, hbase, -, -, -, hmerged, hwrite⟩
    · exact hrebased
    · have hid : ciphertext.recordId = chain.1 :=
        (hresolve f hf conflict ciphertext hmerged).trans (recordId_of_baseOf hbase)
      have hwritten : Transacts fresh True db₁ db' :=
        transacts_writeLocalChange hrebased.transacts.outbox hwrite (hfresh chain.1)
      refine ⟨hrebased.transacts.trans hwritten, fun row hrow hrid m hm => ?_, fun other hother => ?_⟩
      · -- the merge is above the chain
        obtain ⟨row', hrow', htop, hinsert⟩ := of_writeLocalChange hwrite
        have hrow'' : row'.recordId = chain.1 := hrow'.trans hid
        obtain ⟨first₁, hfirst₁⟩ := hrebased.transacts.outbox.chains chain.1
        rw [view_insertPending hinsert, if_pos hrow'',
          RecordView.marks_append hfirst₁ _ rfl] at hm
        rcases List.mem_append.1 hm with hm | hm
        · exact hrebased.below row hrow hrid m hm
        · obtain rfl := List.mem_singleton.1 hm
          -- some pending version is left, and the merge is on top of it
          obtain ⟨m₀, hm₀⟩ : ∃ m₀, m₀ ∈ (db₁.view chain.1).marks := by
            rw [view_shift hfirst rfl hshift, if_pos rfl, RecordView.marks_shift]
            refine List.exists_mem_of_ne_nil _ fun hnil => hentries ?_
            exact hfirst.marks_eq_nil.1 (List.map_eq_nil_iff.1 hnil)
          obtain ⟨r, hr, hrv⟩ := exists_row_of_mark hfirst₁ hm₀
          rw [← hid] at hr
          have habove := htop.above r hr
          have hbelow := hrebased.below row hrow hrid m₀ hm₀
          obtain ⟨hwritten', -⟩ := of_insertPending hinsert
          rw [hwritten']
          change row.version < row'.version
          omega
      · rw [view_writeLocalChange hwrite (by rw [show (LocalRecordChange.update ciphertext).recordId =
          ciphertext.recordId from rfl, hid]; exact hother), hrebased.others other hother]

/-- All chains of a rebase, one after the other. -/
theorem rebase_chains {incoming : List EncryptedRecord} {resolve : Option ConflictResolver}
    {receivedAt now : Time} {newChangeId : RecordId → ChangeId}
    {chains : List (RecordId × List EncryptedRecord)} (h : OutboxInvariant db)
    (hnodup : (chains.map Prod.fst).Nodup)
    (hchains : ∀ chain ∈ chains, chain.2 ≠ [] ∧
      chain.2.map (·.version) = (db.view chain.1).pending.map (·.record.version))
    (hresolve : MergesItsRecord resolve) (hfresh : ∀ recordId, fresh (newChangeId recordId))
    (hok : chains.foldlM (rebaseChain incoming resolve receivedAt now newChangeId) db = .ok db') :
    Transacts fresh True db db' ∧
      (∀ recordId ∈ chains.map Prod.fst, Below incoming recordId (db'.view recordId)) ∧
      ∀ recordId, recordId ∉ chains.map Prod.fst → db'.view recordId = db.view recordId := by
  induction chains generalizing db with
  | nil =>
      obtain rfl : db = db' := Except.ok.inj hok
      exact ⟨Transacts.refl h, fun _ hmem => (by cases hmem), fun _ _ => rfl⟩
  | cons chain chains ih =>
      rw [List.foldlM_cons] at hok
      rw [List.map_cons, List.nodup_cons] at hnodup
      cases hchain : rebaseChain incoming resolve receivedAt now newChangeId db chain with
      | error e =>
          rw [hchain] at hok
          cases hok
      | ok db₁ =>
          rw [hchain] at hok
          obtain ⟨hne, hversions⟩ := hchains chain List.mem_cons_self
          have hfirst : Rebased fresh incoming chain.1 db db₁ :=
            rebase_chain h hne hversions hresolve hfresh hchain
          obtain ⟨hrest, hbelow, hothers⟩ := ih hfirst.transacts.outbox hnodup.2 (by
            intro c hc
            have hcid : c.1 ≠ chain.1 := by
              rintro heq
              exact hnodup.1 (heq ▸ List.mem_map_of_mem hc)
            rw [hfirst.others c.1 hcid]
            exact hchains c (List.mem_cons_of_mem _ hc)) hok
          refine ⟨hfirst.transacts.trans hrest, fun recordId hmem => ?_, fun recordId hnot => ?_⟩
          · rw [List.map_cons, List.mem_cons] at hmem
            rcases hmem with rfl | hmem
            · rw [hothers _ hnodup.1]
              exact hfirst.below
            · exact hbelow recordId hmem
          · rw [List.map_cons, List.mem_cons, not_or] at hnot
            rw [hothers recordId hnot.2, hfirst.others recordId hnot.1]

/-- A rebase leaves every pulled row below the chain of its record. -/
theorem transacts_rebasePendingVersions {incoming : List EncryptedRecord}
    {resolve : Option ConflictResolver} {receivedAt now : Time}
    {newChangeId : RecordId → ChangeId} (h : OutboxInvariant db)
    (hresolve : MergesItsRecord resolve) (hfresh : ∀ recordId, fresh (newChangeId recordId))
    (hok : rebasePendingVersions incoming resolve receivedAt now newChangeId db = .ok db') :
    Transacts fresh True db db' ∧
      ∀ recordId, Below incoming recordId (db'.view recordId) := by
  obtain ⟨htransacts, hbelow, hothers⟩ := rebase_chains h
    (GroupBy.nodup_keys (fun row : EncryptedRecord => row.recordId) db.pendingRows)
    (fun chain hchain => by
      obtain ⟨hgroup, hne⟩ := (GroupBy.mem_groupBy _).1 hchain
      exact ⟨hne, hgroup ▸ versions_of_group h chain.1⟩) hresolve hfresh hok
  refine ⟨htransacts, fun recordId => ?_⟩
  by_cases hmem : recordId ∈
      (GroupBy.groupBy (fun row : EncryptedRecord => row.recordId) db.pendingRows).map Prod.fst
  · exact hbelow recordId hmem
  · -- the record has no pending version
    obtain ⟨first, hfirst⟩ := h.chains recordId
    rw [hothers recordId hmem]
    have hnil : (db.view recordId).marks = [] := by
      rw [hfirst.marks_eq_nil, ← List.length_eq_zero_iff, ← hfirst.length_pending,
        List.length_eq_zero_iff, ← List.map_eq_nil_iff (f := fun r : LocalRow => r.record.version),
        ← versions_of_group h recordId, List.map_eq_nil_iff]
      by_contra hgroup
      exact hmem (List.mem_map.2 ⟨(recordId, _), (GroupBy.mem_groupBy _).2 ⟨rfl, hgroup⟩, rfl⟩)
    intro row _ _ m hm
    rw [hnil] at hm
    cases hm

/-! ### Pulled purges and pulled rows -/

theorem transacts_dropDeletesOfPurged {up : Prop} (h : OutboxInvariant db)
    (incoming : List EncryptedRecord) :
    Transacts fresh up db (dropDeletesOfPurged incoming db) := by
  have hstep : ∀ db row, OutboxInvariant db →
      Transacts fresh up db (dropDeletesOf incoming db row) := by
    intro db row h
    unfold dropDeletesOf
    split
    · exact Transacts.refl h
    split
    · exact Transacts.refl h
    split
    · exact Transacts.refl h
    split
    · exact Transacts.refl h
    refine transacts_of_sublist h List.filter_sublist fun recordId => ?_
    by_cases hid : recordId = row.recordId
    · refine Or.inr ⟨List.filter_eq_nil_iff.2 fun entry hentry heq => ?_,
        List.filter_eq_nil_iff.2 fun r hr hp => ?_⟩
      · exact of_decide_eq_true (List.mem_filter.1 hentry).2 ((of_decide_eq_true heq).trans hid)
      · obtain ⟨hkept, hrid⟩ := List.mem_filter.1 hr
        have hnot := (List.mem_filter.1 hkept).2
        have hrow : r.record.recordId = row.recordId := (of_decide_eq_true hrid).trans hid
        simp [hrow, hp] at hnot
    · refine Or.inl ⟨fun r => !(r.record.recordId = row.recordId && r.isPending),
        fun r hr _ => ?_, ?_⟩
      · have hrid : r.record.recordId = recordId := of_decide_eq_true (List.mem_filter.1 hr).2
        simp [hrid, hid]
      · unfold LocalDb.view LocalDb.rowsOf LocalDb.entriesOf
        dsimp only
        rw [List.filter_filter, List.filter_filter, List.filter_filter]
        congr 1
        · refine List.filter_congr fun r _ => ?_
          rw [Bool.and_comm]
        · refine List.filter_congr fun entry _ => ?_
          by_cases hr : entry.recordId = recordId <;> simp [hr, hid]
  have hloop : ∀ rows : List EncryptedRecord, ∀ db, OutboxInvariant db →
      Transacts fresh up db (rows.foldl (dropDeletesOf incoming) db) := by
    intro rows
    induction rows with
    | nil => exact fun db h => Transacts.refl h
    | cons row rows ih =>
        intro db h
        exact (hstep db row h).trans (ih _ (hstep db row h).outbox)
  exact hloop incoming db h

theorem view_upsertRecord (db : LocalDb) (row : EncryptedRecord) (recordId : RecordId) :
    (upsertRecord db row).view recordId =
      if row.recordId = recordId then (db.view recordId).store row else db.view recordId := by
  unfold upsertRecord LocalDb.view LocalDb.rowsOf LocalDb.entriesOf RecordView.store
  dsimp only
  rw [List.filter_append, List.filter_filter]
  split
  · next hid =>
      rw [List.filter_cons_of_pos (by simpa using hid), List.filter_filter]
      congr 2
      refine List.filter_congr fun r _ => ?_
      by_cases hr : r.record.recordId = recordId <;> simp [LocalRow.key, hr, hid]
  · next hid =>
      rw [List.filter_cons_of_neg (by simpa using hid), List.filter_nil, List.append_nil]
      congr 1
      refine List.filter_congr fun r _ => ?_
      by_cases hr : r.record.recordId = recordId
      · simp [LocalRow.key, hr, Ne.symm hid]
      · simp [hr]

/-- Storing pulled rows below the chains. -/
theorem transacts_upsertRecords {up : Prop} (h : OutboxInvariant db)
    {rows : List EncryptedRecord} (hbelow : ∀ recordId, Below rows recordId (db.view recordId)) :
    Transacts fresh up db (upsertRecords rows db) := by
  unfold upsertRecords
  induction rows generalizing db with
  | nil => exact Transacts.refl h
  | cons row rows ih =>
      have hmarks : ∀ recordId, ∃ first, ((upsertRecord db row).view recordId).Chained first ∧
          ((upsertRecord db row).view recordId).marks = (db.view recordId).marks := by
        intro recordId
        obtain ⟨first, hfirst⟩ := h.chains recordId
        rw [view_upsertRecord]
        split
        · next hid =>
            refine ⟨first, hfirst.store fun hne => ?_⟩
            obtain ⟨m, hm, hmv⟩ := exists_first_mark hfirst hne
            have := hbelow recordId row List.mem_cons_self hid m hm
            omega
        · exact ⟨first, hfirst, rfl⟩
      have hstep : Transacts fresh up db (upsertRecord db row) :=
        ⟨⟨h.seqs, h.changeIds, fun recordId => (hmarks recordId).imp fun _ h => h.1⟩,
          fun recordId => moved_of_marks_eq (hmarks recordId).choose_spec.2⟩
      refine hstep.trans (ih hstep.outbox fun recordId r hr hid m hm => ?_)
      rw [(hmarks recordId).choose_spec.2] at hm
      exact hbelow recordId r (List.mem_cons_of_mem _ hr) hid m hm

theorem transacts_dropPurgedHistory {up : Prop} (h : OutboxInvariant db)
    (recordIds : List RecordId) : Transacts fresh up db (db.dropPurgedHistory recordIds) := by
  unfold LocalDb.dropPurgedHistory
  generalize recordIds.eraseDups = ids
  induction ids generalizing db with
  | nil => exact Transacts.refl h
  | cons recordId ids ih =>
      have hstep : Transacts fresh up db (dropPurgedHistoryOf db recordId) := by
        unfold dropPurgedHistoryOf
        split
        · exact Transacts.refl h
        · next version _ =>
            refine transacts_of_sublist h (List.Sublist.refl _) fun other => Or.inl
              ⟨fun row => !(row.record.recordId = recordId && row.isSynced &&
                row.record.version < version), fun row _ hp => ?_, ?_⟩
            · simp [isSynced_eq_not, hp]
            · unfold LocalDb.view LocalDb.rowsOf LocalDb.entriesOf
              dsimp only
              rw [List.filter_filter, List.filter_filter]
              congr 1
              refine List.filter_congr fun row _ => ?_
              rw [Bool.and_comm]
      exact hstep.trans (ih hstep.outbox)

/-- **A pulled page keeps the outbox in order**, whatever its rows, when the vaults it drops hold no
record with pending versions in another vault. -/
theorem transacts_applySync (h : OutboxInvariant db) {batch : SyncBatch}
    {resolve : Option ConflictResolver} {now : Time} {newChangeId : RecordId → ChangeId}
    {vaultsChanged : Bool} (hresolve : MergesItsRecord resolve)
    (hfresh : ∀ recordId, fresh (newChangeId recordId))
    (hwhole : DropsWhole db ((lostVaults db.vaults batch.vaults).map (·.vaultId)))
    (hok : applySync batch resolve now newChangeId db = .ok (db', vaultsChanged)) :
    Transacts fresh True db db' := by
  obtain ⟨db₁, hrebase, rfl⟩ := of_applySync hok
  have hvaults : Transacts fresh True db (applyVaults batch now db) := by
    refine transacts_congr (transacts_dropVaults h hwhole) ?_ ?_
    · unfold applyVaults
      dsimp only
      split <;> rfl
    · unfold applyVaults
      dsimp only
      split <;> rfl
  have hdeletes : Transacts fresh True _ (dropDeletesOfPurged batch.pulled _) :=
    transacts_dropDeletesOfPurged hvaults.outbox batch.pulled
  obtain ⟨hrebased, hbelow⟩ :=
    transacts_rebasePendingVersions hdeletes.outbox hresolve hfresh hrebase
  have hrows : Transacts fresh True db₁ (upsertRecords batch.pulled db₁) :=
    transacts_upsertRecords hrebased.outbox hbelow
  have hhistory : Transacts fresh True _ ((upsertRecords batch.pulled db₁).dropPurgedHistory
      (batch.pulled.map (·.recordId))) :=
    transacts_dropPurgedHistory hrows.outbox _
  exact hvaults.trans (hdeletes.trans (hrebased.trans
    (hrows.trans (transacts_congr hhistory rfl rfl))))

end Rebase

end Passmgr
