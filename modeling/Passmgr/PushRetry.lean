/-
# A change that is sent again

A device sends a change again when the answer was lost.  The server finds the version the change
wrote by its `clientChangeId` and answers with it: whatever else is in the batch, whatever base the
change names by then, and whatever happened to the head, the key or the quota.

Main definitions:

* `IsResend` — a change sent again: the same record, vault and id, anything else may differ;

Main results:

* `results_of_stored` — a push answers a stored change with its version;
* `idempotent_retry` — along every run a change has at most one stored version, and every resend is
  answered with it.
-/

import Passmgr.PushAtomic

set_option relaxedAutoImplicit false
set_option autoImplicit false

namespace Passmgr

/-- A stored version and a change that is (again) the one that wrote it.  The base and the content
are not compared. -/
structure IsResend (row : RecordRow) (change : PushChange) : Prop where
  recordId : change.recordId = row.recordId
  clientChangeId : change.clientChangeId = row.clientChangeId
  vaultId : change.vaultId = row.vaultId

section

variable {quotaBytes : ℕ} {db : Db} {userId : UserId} {now : Time} {changes : List PushChange}

/-- The version a change wrote is found by the change's id. -/
theorem storedChange_of_isResend (hu : UniqueRecords db.records) {row : RecordRow}
    (hrow : row ∈ db.records) {change : PushChange} (h : IsResend row change) :
    storedChange db change = some row := by
  have hex : (storedChange db change).isSome := by
    rw [storedChange, List.find?_isSome]
    exact ⟨row, hrow, by simp [h.recordId, h.clientChangeId]⟩
  obtain ⟨found, hfound⟩ := Option.isSome_iff_exists.1 hex
  have hp := List.find?_some hfound
  rw [Bool.and_eq_true, decide_eq_true_eq, decide_eq_true_eq] at hp
  have hmem : found ∈ db.records := List.mem_of_find?_eq_some hfound
  rw [hfound]
  refine congrArg some (List.inj_on_of_nodup_map hu.2.2 hmem hrow ?_)
  rw [hp.1, hp.2, h.recordId, h.clientChangeId]

/-- The access check lets a user with a role that may write through. -/
theorem access_of_isOk {change : PushChange} (hc : change ∈ changes)
    (h : (db.requireVaultRole userId change.vaultId vaultWriteRoles).isOk = true) :
    (vaultState db userId changes).access change.vaultId = some none := by
  have hmem : change.vaultId ∈ (changes.map (·.vaultId)).eraseDups :=
    List.mem_eraseDups.2 (List.mem_map_of_mem hc)
  simp only [vaultState, vaultAccess, if_pos hmem]
  cases hrole : db.requireVaultRole userId change.vaultId vaultWriteRoles with
  | ok role => rfl
  | error e => simp [hrole, Except.isOk, Except.toBool] at h

/-- **A push answers a stored change with its version**, whatever the rest of its chain decides. -/
theorem results_of_stored {d : Pushed}
    (hd : pushChanges quotaBytes db userId now changes = .ok d) (hu : UniqueRecords db.records)
    {row : RecordRow} (hrow : row ∈ db.records) {index : ℕ} {change : PushChange}
    (hchange : changes[index]? = some change) (h : IsResend row change)
    (haccess : (db.requireVaultRole userId change.vaultId vaultWriteRoles).isOk = true) :
    d.results[index]? = some (some (.applied change.clientChangeId (serializeRecord row))) := by
  have hx : ({ index := index, change := change } : Indexed) ∈ indexed changes :=
    mem_indexed.2 hchange
  have hretry : Retried (vaultState db userId changes) (storedChange db) change row :=
    ⟨access_of_isOk (List.mem_of_getElem? hchange) haccess, storedChange_of_isResend hu hrow h,
      h.vaultId.symm⟩
  obtain ⟨j, hj, -, o, ho⟩ := exists_outcome quotaBytes db userId now hx
  obtain rfl : o = .stored row := (decideChain_stored ho row).2 hretry
  obtain ⟨result, hresult, hanswer⟩ := exists_answer hd hj ho
  rw [hresult, hanswer]

/-- A push writes nothing for a stored change. -/
theorem not_written_of_stored {d : Pushed}
    (hd : pushChanges quotaBytes db userId now changes = .ok d) {row : RecordRow}
    (hrow : row ∈ db.records) {new : RecordRow} (hnew : new ∈ d.written)
    (hr : new.recordId = row.recordId) : new.clientChangeId ≠ row.clientChangeId := by
  rw [(of_pushChanges_ok hd).2.1] at hnew
  exact (not_stored_of_mem_writtenRows hnew row hrow hr.symm).symm

end

/-- **A retry is idempotent.**  In every state of a run from the empty store: a change has at most
one stored version; while it has one, no push writes another for it; and every push of distinct
changes by a user who may write to its vault that sends it again succeeds and answers it `applied`
with that version. -/
theorem idempotent_retry {quotaBytes : ℕ} {s t : Store} (hs : EmptyStore s)
    (ht : Run.Reaches (StoreStep quotaBytes) s t) :
    (∀ a ∈ t.db.records, ∀ b ∈ t.db.records, a.recordId = b.recordId →
        a.clientChangeId = b.clientChangeId → a = b) ∧
      ∀ row ∈ t.db.records, ∀ (quota : ℕ) (userId : UserId) (now : Time)
        (changes : List PushChange),
        (∀ d, pushChanges quota t.db userId now changes = .ok d →
          ∀ new ∈ d.written, new.recordId = row.recordId →
            new.clientChangeId ≠ row.clientChangeId) ∧
          ∀ (index : ℕ) (change : PushChange), (changes.map (·.clientChangeId)).Nodup →
            changes[index]? = some change → IsResend row change →
            (t.db.requireVaultRole userId change.vaultId vaultWriteRoles).isOk = true →
            ∃ d, pushChanges quota t.db userId now changes = .ok d ∧
              d.results[index]? =
                some (some (.applied change.clientChangeId (serializeRecord row))) := by
  have hInv := storeInvariant_of_reaches hs ht
  constructor
  · intro a ha b hb hr hc
    exact List.inj_on_of_nodup_map hInv.unique.2.2 ha hb (by rw [hr, hc])
  · intro row hrow quota userId now changes
    refine ⟨fun d hd new hnew hr => not_written_of_stored hd hrow hnew hr, ?_⟩
    intro index change hids hchange hresend haccess
    have htotal : ∃ d, pushChanges quota t.db userId now changes = .ok d :=
      pushChanges_total hInv hids
    obtain ⟨d, hd⟩ := htotal
    exact ⟨d, hd, results_of_stored hd hInv.unique hrow hchange hresend haccess⟩

/-- The create of `sampleCreate`, sent again under another base when the quota is used up. -/
theorem idempotent_retry_registered :
    ∃ d e, pushChanges 1000 (registeredDb 7 1) 7 0 [sampleCreate] = .ok d ∧
      pushChanges 0 d.db 7 1 [{ sampleCreate with baseVersion := 9 }] = .ok e ∧
      ∃ row ∈ d.db.records, e.results[0]? = some (some (.applied 11 (serializeRecord row))) := by
  obtain ⟨d, row, hd, hrow, hr, hc, hv, haccess⟩ : ∃ d row,
      pushChanges 1000 (registeredDb 7 1) 7 0 [sampleCreate] = .ok d ∧ row ∈ d.db.records ∧
        row.recordId = 5 ∧ row.clientChangeId = 11 ∧ row.vaultId = 1 ∧
        (d.db.requireVaultRole 7 1 vaultWriteRoles).isOk = true :=
    ⟨_, _, rfl, List.mem_cons_self, rfl, rfl, rfl, rfl⟩
  have h := (idempotent_retry (s := { db := registeredDb 7 1, written := [] })
    ⟨rfl, rfl, by decide, by decide⟩ (.single (.push 7 0 [sampleCreate] d hd))).2 row hrow 0 7 1
    [{ sampleCreate with baseVersion := 9 }]
  obtain ⟨e, he, hresult⟩ := h.2 0 { sampleCreate with baseVersion := 9 } (by decide) rfl
    ⟨hr.symm, hc.symm, hv.symm⟩ haccess
  exact ⟨d, e, hd, he, row, hrow, hresult⟩

end Passmgr
