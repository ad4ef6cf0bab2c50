/-
# What the answers to a batch say

A device sends the first changes of each of its chains, and takes the answers one by one.  Where the
server has the first changes of a chain only, an answer that settles a change comes with answers
that settle those before it: the device never finds a change settled whose predecessor is not.

Main results:

* `resultOf_push` — the one answer to a change;
* `settled_first` — the changes of a chain that are settled are its first ones;
* `applied_row` — the row of an answer is a version the server wrote, numbered no higher than the
  change.
-/

import Passmgr.PushOutbox
import Passmgr.PushRetry
import Passmgr.StoredChanges

set_option relaxedAutoImplicit false
set_option autoImplicit false

namespace Passmgr

section Answers

variable {quotaBytes : ℕ} {s : Store} {userId : UserId} {now : Time} {batch : List PendingChange}
  {d : Pushed} {recordId : RecordId} {rest : List PendingMark}

/-- The row the server has for a change, or writes for it now. -/
def IsStoredFor (db : Db) (userId : UserId) (now : Time) (d : Pushed) (change : PendingChange)
    (row : RecordRow) : Prop :=
  (row ∈ db.rowsOf change.recordId ∧ row.clientChangeId = change.changeId) ∨
    (row ∈ writtenOf d.written change.recordId ∧ IsRowOf userId now (toPushChange change) row)

theorem length_results {changes : List PushChange} {db : Db}
    (hd : pushChanges quotaBytes db userId now changes = .ok d) :
    d.results.length = changes.length := by
  rw [pushChanges_eq] at hd
  split at hd
  · obtain rfl := Except.ok.inj hd
    rw [List.length_map, List.length_range]
  · simp at hd

/-- One answer has the id of a change. -/
theorem resultOf_eq (hids : (batch.map (·.changeId)).Nodup)
    (hd : pushChanges quotaBytes s.db userId now (batch.map toPushChange) = .ok d) {index : ℕ}
    {change : PendingChange} (hchange : batch[index]? = some change) {result : PushResult}
    (hresult : d.results[index]? = some (some result))
    (hid : result.clientChangeId = change.changeId) :
    resultOf (d.results.filterMap id) change.changeId = some result := by
  have hids' : ((batch.map toPushChange).map (·.clientChangeId)).Nodup := by
    rw [List.map_map]
    exact hids
  have hindexed : ∀ {k c}, batch[k]? = some c →
      ({ index := k, change := toPushChange c } : Indexed) ∈
        indexed (batch.map toPushChange) := by
    intro k c hc
    refine mem_indexed.2 ?_
    rw [List.getElem?_map, hc]
    rfl
  have hunique : ∀ other ∈ d.results.filterMap id, other.clientChangeId = change.changeId →
      other = result := by
    intro other hother heq
    obtain ⟨answer, hmem, rfl⟩ : ∃ answer ∈ d.results, answer = some other := by
      simpa using hother
    obtain ⟨k, hk⟩ := List.getElem?_of_mem hmem
    have hlt : k < batch.length := by
      have hlength := length_results hd
      rw [List.length_map] at hlength
      rw [← hlength]
      exact (List.getElem?_eq_some_iff.1 hk).1
    obtain ⟨found, hfound, hfid, -, -⟩ :=
      answered hids' hd (hindexed (List.getElem?_eq_getElem hlt))
    obtain rfl : other = found := Option.some.inj (Option.some.inj (hk.symm.trans hfound))
    have hsame := eq_of_clientChangeId hids' (hindexed (List.getElem?_eq_getElem hlt))
      (hindexed hchange) (hfid.symm.trans heq)
    obtain rfl : k = index := congrArg Indexed.index hsame
    exact Option.some.inj (Option.some.inj (hk.symm.trans hresult))
  unfold resultOf
  have hmem : result ∈ (d.results.filterMap id).reverse :=
    List.mem_reverse.2 (List.mem_filterMap.2 ⟨_, List.mem_of_getElem? hresult, rfl⟩)
  cases hfind : (d.results.filterMap id).reverse.find? (·.clientChangeId = change.changeId) with
  | none => exact absurd (decide_eq_true hid) (List.find?_eq_none.1 hfind result hmem)
  | some other =>
      have hother := List.mem_reverse.1 (List.mem_of_find?_eq_some hfind)
      rw [hunique other hother (by simpa using List.find?_some hfind)]

/-- **The answer to a change**: it is applied only where the user may write, with the row the server
has for it, and it is applied wherever the server has or writes one. -/
theorem resultOf_push (hs : StoreInvariant s) (hids : (batch.map (·.changeId)).Nodup)
    (hd : pushChanges quotaBytes s.db userId now (batch.map toPushChange) = .ok d)
    {change : PendingChange} (hchange : change ∈ batch) :
    ∃ result, resultOf (d.results.filterMap id) change.changeId = some result ∧
      (∀ changeId record, result = .applied changeId record →
        (s.db.requireVaultRole userId change.record.vaultId vaultWriteRoles).isOk = true ∧
          ∃ row, IsStoredFor s.db userId now d change row ∧ record = serializeRecord row) ∧
      ((s.db.requireVaultRole userId change.record.vaultId vaultWriteRoles).isOk = true →
        ∀ row, IsStoredFor s.db userId now d change row → row.vaultId = change.record.vaultId →
          ∃ changeId record, result = .applied changeId record) := by
  obtain ⟨index, hindex⟩ := List.getElem?_of_mem hchange
  have hids' : ((batch.map toPushChange).map (·.clientChangeId)).Nodup := by
    rw [List.map_map]
    exact hids
  have hpushed : (batch.map toPushChange)[index]? = some (toPushChange change) := by
    rw [List.getElem?_map, hindex]
    rfl
  have hx : ({ index := index, change := toPushChange change } : Indexed) ∈
      indexed (batch.map toPushChange) := mem_indexed.2 hpushed
  obtain ⟨result, hresult, hid, happlied, hwritten⟩ := answered hids' hd hx
  refine ⟨result, resultOf_eq hids hd hindex hresult hid, fun changeId record heq => ?_,
    fun haccess row hrow hvault => ?_⟩
  · obtain ⟨-, haccess, ⟨row, hstored, rfl⟩ | ⟨row, hrow, hof, rfl⟩⟩ := happlied _ _ heq
    · refine ⟨haccess, row, Or.inl ?_, rfl⟩
      have hp := List.find?_some hstored
      rw [Bool.and_eq_true, decide_eq_true_eq, decide_eq_true_eq] at hp
      exact ⟨Db.mem_rowsOf.2 ⟨List.mem_of_find?_eq_some hstored, hp.1⟩, hp.2⟩
    · exact ⟨haccess, row, Or.inr ⟨mem_writtenOf.2 ⟨hrow, hof.recordId⟩, hof⟩, rfl⟩
  · rcases hrow with ⟨hrow, hcid⟩ | ⟨hrow, hof⟩
    · obtain ⟨hmem, hrid⟩ := Db.mem_rowsOf.1 hrow
      have hresend : IsResend row (toPushChange change) := ⟨hrid.symm, hcid.symm, hvault.symm⟩
      have hstored := results_of_stored hd hs.unique hmem hpushed hresend haccess
      rw [hresult] at hstored
      exact ⟨_, _, Option.some.inj (Option.some.inj hstored)⟩
    · obtain ⟨record, heq⟩ := hwritten ⟨row, (mem_writtenOf.1 hrow).1, hof⟩
      exact ⟨_, record, heq⟩

/-! ### The answers to a chain -/

/-- The changes of a chain after its first are no purges. -/
theorem pairwise_isPurge {marks : List PendingMark} (h : marks.IsChain PendingMark.Follows) :
    marks.Pairwise fun _ b => b.isPurge = false := by
  let later : PendingMark → PendingMark → Prop := fun _ b => b.isPurge = false
  have htrans : Trans later later later := ⟨fun _ h => h⟩
  have hchain : marks.IsChain later := h.imp fun _ _ hab => hab.purge
  exact hchain.pairwise

/-- A change settles with an answer that applies it, or as a purge the server has nothing to take
away for. -/
theorem settles_cases {results : List PushResult} {change : PendingChange}
    (h : settles results change = true) :
    (∃ changeId record, resultOf results change.changeId = some (.applied changeId record)) ∨
      change.mark.isPurge = true := by
  unfold settles at h
  split at h
  · next changeId record hresult => exact Or.inl ⟨changeId, record, hresult⟩
  · right
    rw [Bool.and_eq_true] at h
    exact h.2
  · cases h
  · cases h

/-- **The changes of a chain that are settled are its first ones.** -/
theorem settled_first (hs : StoreInvariant s) (hids : (batch.map (·.changeId)).Nodup)
    (hd : pushChanges quotaBytes s.db userId now (batch.map toPushChange) = .ok d)
    (h : StoredFirst (s.db.rowsOf recordId)
      ((changesOf recordId batch).map PendingChange.mark ++ rest))
    (hfollows : ((changesOf recordId batch).map PendingChange.mark).IsChain PendingMark.Follows)
    {vaultId : VaultId} (hvaults : ∀ change ∈ changesOf recordId batch,
      change.record.vaultId = vaultId)
    (hrows : ∀ row ∈ s.written ++ d.written, row.recordId = recordId → row.vaultId = vaultId) :
    (changesOf recordId batch).Pairwise fun a b =>
      settles (d.results.filterMap id) b = true → settles (d.results.filterMap id) a = true := by
  have hbefore := List.pairwise_map.1 (List.pairwise_append.1 h.before).1
  have hpurges := List.pairwise_map.1 (pairwise_isPurge hfollows)
  refine (hbefore.and hpurges).imp_of_mem fun {a b} ha hb hab hsettled => ?_
  obtain ⟨hab, hpurge⟩ := hab
  obtain ⟨ha', har⟩ := mem_changesOf.1 ha
  obtain ⟨hb', hbr⟩ := mem_changesOf.1 hb
  obtain ⟨changeId, record, hresult⟩ := (settles_cases hsettled).resolve_right (by simp [hpurge])
  obtain ⟨result, hb₁, hb₂, -⟩ := resultOf_push hs hids hd hb'
  obtain ⟨haccess, row, hrow, -⟩ := hb₂ changeId record
    (Option.some.inj (hb₁.symm.trans hresult))
  obtain ⟨answer, ha₁, -, ha₃⟩ := resultOf_push hs hids hd ha'
  rw [hvaults b hb] at haccess
  -- The server has the change before it, or writes it as well.
  have hstored : ∃ row, IsStoredFor s.db userId now d a row ∧ row.vaultId = vaultId := by
    have hold : a.changeId ∈ (s.db.rowsOf recordId).map (·.clientChangeId) →
        ∃ row, IsStoredFor s.db userId now d a row ∧ row.vaultId = vaultId := by
      intro hmem
      obtain ⟨w, hw, hwid⟩ := List.mem_map.1 hmem
      obtain ⟨hstored, hwr⟩ := Db.mem_rowsOf.1 hw
      exact ⟨w, Or.inl ⟨har ▸ hw, hwid⟩,
        hrows w (List.mem_append_left _ (hs.mem_written hstored)) hwr⟩
    rcases hrow with ⟨hrow, hid⟩ | ⟨hrow, -⟩
    · exact hold (hab (List.mem_map.2 ⟨row, hbr ▸ hrow, hid⟩))
    · rw [hbr] at hrow
      rcases stored_or_written hd (List.ne_nil_of_mem hrow) ha with hmem | hmem
      · exact hold hmem
      · obtain ⟨w, hw, hwid⟩ := List.mem_map.1 hmem
        obtain ⟨c, hc, hof, -⟩ := change_of_written hd hw
        obtain rfl : c = a := List.inj_on_of_nodup_map hids (mem_changesOf.1 hc).1 ha'
          (hof.clientChangeId.symm.trans hwid)
        obtain ⟨hwritten, hwr⟩ := mem_writtenOf.1 hw
        exact ⟨w, Or.inr ⟨har ▸ hw, hof⟩, hrows w (List.mem_append_right _ hwritten) hwr⟩
  obtain ⟨w, hw, hwv⟩ := hstored
  obtain ⟨id', record', happlied⟩ := ha₃ ((hvaults a ha).symm ▸ haccess) w hw
    (hwv.trans (hvaults a ha).symm)
  unfold settles
  rw [ha₁, happlied]

/-- **The row of an answer** is a version the server wrote, numbered no higher than the change. -/
theorem applied_row (hs : StoreInvariant s) (hids : (batch.map (·.changeId)).Nodup)
    (hd : pushChanges quotaBytes s.db userId now (batch.map toPushChange) = .ok d)
    {change : PendingChange} (hchange : change ∈ batch) {changeId : ChangeId}
    {record : EncryptedRecord}
    (hresult : resultOf (d.results.filterMap id) change.changeId =
      some (.applied changeId record)) :
    ∃ row ∈ s.written ++ d.written, record = serializeRecord row ∧
      row.recordId = change.recordId ∧
      (1 ≤ change.record.version → StoredFirst (s.db.rowsOf change.recordId)
        ((changesOf change.recordId batch).map PendingChange.mark ++ rest) →
        row.version ≤ change.record.version) := by
  obtain ⟨result, hb₁, hb₂, -⟩ := resultOf_push hs hids hd hchange
  obtain ⟨-, row, hrow, rfl⟩ := hb₂ changeId record (Option.some.inj (hb₁.symm.trans hresult))
  rcases hrow with ⟨hrow, hid⟩ | ⟨hrow, hof⟩
  · obtain ⟨hmem, hrid⟩ := Db.mem_rowsOf.1 hrow
    refine ⟨row, List.mem_append_left _ (hs.mem_written hmem), rfl, hrid, fun _ h => ?_⟩
    exact (h.version change.mark (List.mem_append_left _
      (List.mem_map_of_mem (mem_changesOf.2 ⟨hchange, rfl⟩))) row hrow hid).1
  · obtain ⟨hmem, hrid⟩ := mem_writtenOf.1 hrow
    refine ⟨row, List.mem_append_right _ hmem, rfl, hrid, fun hpos _ => ?_⟩
    rw [hof.version]
    exact (Nat.sub_add_cancel hpos).le

end Answers

end Passmgr
