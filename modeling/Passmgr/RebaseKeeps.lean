/-
# A rebase loses nothing

Pulled rows take the numbers they have on the server, and the pending versions in their way move up.
They move one by one, highest first, in a table where a number is taken once: each goes to a slot
that is free, whatever the distance and however long the chain.  What a device has not sent yet stays
as it is, each change with its ciphertext, and at most one merged version is put on top.

Main definitions:

* `Vacant` — some numbers of a record are free;
* `RebasedView` — what becomes of one record;
* `LosesNothing`, `KeepsPending` — what a rebase, and then storing the pulled rows, promise.

Main results:

* `foldlM_shiftVersion_ok` — no version moves into a slot that is taken;
* `rebasePendingVersions_losesNothing` — a rebase loses nothing, and where the versions of a record
  are in one vault it succeeds.
-/

import Passmgr.OutboxRebase
import Passmgr.ResolveConflict

set_option relaxedAutoImplicit false
set_option autoImplicit false

namespace Passmgr

/-! ### Free slots -/

section Slots

variable {db db' : LocalDb} {recordId : RecordId}

theorem row?_eq_find? (db : LocalDb) (recordId : RecordId) (version : ℕ) :
    db.row? recordId version =
      (db.view recordId).rows.find? (·.record.version = version) := by
  unfold LocalDb.row? LocalDb.view LocalDb.rowsOf
  rw [List.find?_filter]
  congr 1
  funext row
  by_cases hid : row.record.recordId = recordId <;> simp [LocalRow.key, hid]

/-- No version of a record has one of the `n` numbers from `first` on. -/
def Vacant (db : LocalDb) (recordId : RecordId) (first n : ℕ) : Prop :=
  ∀ row ∈ db.rowsOf recordId, row.record.version < first ∨ first + n ≤ row.record.version

/-- A version moves into the last of the free slots above it, and leaves its own free. -/
theorem shiftVersion_ok {shift version : ℕ} (hpos : 1 ≤ shift)
    (hvacant : Vacant db recordId (version + 1) shift) :
    ∃ db', shiftVersion recordId shift db version = .ok db' ∧
      Vacant db' recordId version shift := by
  have hfree : db.row? recordId (version + shift) = none := by
    rw [row?_eq_find?, List.find?_eq_none]
    intro row hrow heq
    have hversion : row.record.version = version + shift := of_decide_eq_true heq
    rcases hvacant row hrow with hlt | hle
    · omega
    · omega
  unfold shiftVersion
  rw [hfree, if_neg (fun h => by cases h.2.2)]
  refine ⟨_, rfl, fun row hrow => ?_⟩
  obtain ⟨hmem, hid⟩ := List.mem_filter.1 hrow
  obtain ⟨r, hr, rfl⟩ := List.mem_map.1 hmem
  by_cases hkey : r.key = (recordId, version)
  · rw [if_pos hkey]
    exact Or.inr le_rfl
  · rw [if_neg hkey] at hid ⊢
    have hrid : r.record.recordId = recordId := of_decide_eq_true hid
    have hne : r.record.version ≠ version := fun heq => hkey (by rw [← hrid, ← heq]; rfl)
    rcases hvacant r (List.mem_filter.2 ⟨hr, hid⟩) with hlt | hle
    · exact Or.inl (by omega)
    · exact Or.inr (by omega)

/-- Highest first, a chain moves up by any distance: the slots above it are free, and each move
leaves as many free above the next version. -/
theorem foldlM_shiftVersion_ok {first shift len : ℕ} (hpos : 1 ≤ shift)
    (hvacant : Vacant db recordId (first + len) shift) :
    ∃ db', (List.range' first len).reverse.foldlM (shiftVersion recordId shift) db = .ok db' := by
  induction len generalizing db with
  | zero => exact ⟨db, rfl⟩
  | succ len ih =>
      have htop : Vacant db recordId (first + len + 1) shift := hvacant
      obtain ⟨db₁, hstep, hvacant₁⟩ := shiftVersion_ok hpos htop
      obtain ⟨db₂, hrest⟩ := ih hvacant₁
      refine ⟨db₂, ?_⟩
      rw [List.range'_1_concat, List.reverse_concat, List.foldlM_cons, hstep]
      exact hrest

/-- Above a chain every slot is free. -/
theorem vacant_of_chained {first : ℕ} (h : (db.view recordId).Chained first)
    (hne : (db.view recordId).entries ≠ []) (n : ℕ) :
    Vacant db recordId (first + (db.view recordId).entries.length) n := fun _ hrow =>
  Or.inl (h.version_lt hne hrow)

/-- A chain that moves keeps its changes. -/
theorem changeIds_of_foldlM_shiftVersion {shift : ℕ} {versions : List ℕ}
    (h : versions.foldlM (shiftVersion recordId shift) db = .ok db') :
    db'.outbox.map (·.changeId) = db.outbox.map (·.changeId) := by
  induction versions generalizing db with
  | nil =>
      obtain rfl := Except.ok.inj h
      rfl
  | cons version versions ih =>
      rw [List.foldlM_cons] at h
      cases hstep : shiftVersion recordId shift db version with
      | error e =>
          rw [hstep] at h
          cases h
      | ok db₁ =>
          rw [hstep] at h
          rw [ih h]
          unfold shiftVersion at hstep
          split at hstep
          · cases hstep
          obtain rfl := Except.ok.inj hstep
          rw [List.map_map]
          refine List.map_congr_left fun entry _ => ?_
          rw [Function.comp_apply]
          split <;> rfl

end Slots

/-- A record without versions has no unsent changes. -/
theorem RecordView.Chained.entries_of_rows {v : RecordView} {first : ℕ} (h : v.Chained first)
    (hrows : v.rows = []) : v.entries = [] := by
  rw [← List.length_eq_zero_iff, ← h.length_pending, List.length_eq_zero_iff]
  unfold RecordView.pending
  rw [hrows, List.filter_nil]

/-! ### One chain -/

/-- The versions of a record, here and among the pulled rows, are all of one vault. -/
def OneVault (incoming : List EncryptedRecord) (recordId : RecordId) (v : RecordView) : Prop :=
  ∀ a ∈ v.rows.map (·.record) ++ GroupBy.group (·.recordId) recordId incoming,
    ∀ b ∈ v.rows.map (·.record) ++ GroupBy.group (·.recordId) recordId incoming,
      a.vaultId = b.vaultId

/-- A resolver answers with a version in the vault of the record it is asked about. -/
def MergesInVault (resolve : Option ConflictResolver) : Prop :=
  ∀ f, resolve = some f → ∀ conflict ciphertext, f conflict = .merged (some ciphertext) →
    ciphertext.vaultId = conflict.base.vaultId

/-- The resolver of the client answers for the record and the vault it is asked about. -/
theorem of_mergeResolver {C : IdealCipher.Ciphers Text} {R : JsRuntime} {timeText : Time → Text}
    {store : SecretsStore} {nonce : Text} {conflict : RecordConflict} {ciphertext : RecordCiphertext}
    (hmerged : mergeResolver C R timeText store nonce conflict = .merged (some ciphertext)) :
    ciphertext.recordId = conflict.base.recordId ∧ ciphertext.vaultId = conflict.base.vaultId := by
  unfold mergeResolver at hmerged
  split at hmerged
  · cases hmerged
  next merged hmerge =>
  obtain rfl : merged = some ciphertext := Resolution.merged.inj hmerged
  unfold resolveRecordConflict at hmerge
  dsimp only at hmerge
  split at hmerge
  · split at hmerge
    · split at hmerge
      · cases hmerge
      split at hmerge
      · cases hmerge
      split at hmerge
      · cases hmerge
      · obtain rfl := Option.some.inj (Except.ok.inj hmerge)
        exact ⟨rfl, rfl⟩
    · cases hmerge
  · cases hmerge

theorem mergesItsRecord_mergeResolver (C : IdealCipher.Ciphers Text) (R : JsRuntime)
    (timeText : Time → Text) (store : SecretsStore) (nonce : Text) :
    MergesItsRecord (some (mergeResolver C R timeText store nonce)) := by
  intro f hf conflict ciphertext hmerged
  obtain rfl := Option.some.inj hf
  exact (of_mergeResolver hmerged).1

theorem mergesInVault_mergeResolver (C : IdealCipher.Ciphers Text) (R : JsRuntime)
    (timeText : Time → Text) (store : SecretsStore) (nonce : Text) :
    MergesInVault (some (mergeResolver C R timeText store nonce)) := by
  intro f hf conflict ciphertext hmerged
  obtain rfl := Option.some.inj hf
  exact (of_mergeResolver hmerged).2

/-- What becomes of a record in a rebase: nothing, when every pulled row is below its pending
versions; else they move up as they are, and one merged version may follow. -/
inductive RebasedView (incoming : List EncryptedRecord) (recordId : RecordId)
    (changeId : ChangeId) (v v' : RecordView) : Prop
  | kept (below : Below incoming recordId v) (same : v' = v)
  | moved (hit : ¬Below incoming recordId v) (n : ℕ) (up : v' = v.shift n)
  | merged (hit : ¬Below incoming recordId v) (n : ℕ) (entry : OutboxEntry) (row : LocalRow)
      (pending : row.isPending = true) (own : entry.changeId = changeId)
      (up : v' = (v.shift n).append entry row)

section Chain

variable {db db' : LocalDb} {incoming : List EncryptedRecord} {resolve : Option ConflictResolver}
  {receivedAt now : Time} {newChangeId : RecordId → ChangeId}
  {chain : RecordId × List EncryptedRecord}

/-- What a rebase makes of one chain. -/
theorem view_rebaseChain (h : OutboxInvariant db) (hne : chain.2 ≠ [])
    (hversions : chain.2.map (·.version) = (db.view chain.1).pending.map (·.record.version))
    (hresolve : MergesItsRecord resolve)
    (hok : rebaseChain incoming resolve receivedAt now newChangeId db chain = .ok db') :
    RebasedView incoming chain.1 (newChangeId chain.1) (db.view chain.1) (db'.view chain.1) := by
  obtain ⟨first, hfirst⟩ := h.chains chain.1
  obtain ⟨hhead, hreverse, hentries⟩ := first_of_chain hfirst hne hversions
  have hcases := of_rebaseChain hok
  rw [hhead, hreverse] at hcases
  rcases hcases with ⟨hnone, rfl⟩ | ⟨serverHead, db₁, hlast, hshift, hmerge⟩
  · exact .kept ((collidingRows_eq_nil_iff hfirst hentries).1 hnone) rfl
  · have hhit : ¬Below incoming chain.1 (db.view chain.1) := by
      rw [← collidingRows_eq_nil_iff hfirst hentries]
      intro hnil
      rw [hnil] at hlast
      cases hlast
    have hmoved : db₁.view chain.1 =
        (db.view chain.1).shift (serverHead.version + 1 - first) := by
      rw [view_shift hfirst rfl hshift, if_pos rfl]
    rcases hmerge with rfl | ⟨f, conflict, ciphertext, written, hf, hbase, -, -, -, hmerged, hwrite⟩
    · exact .moved hhit _ hmoved
    · obtain ⟨row, hrid, -, hinsert⟩ := of_writeLocalChange hwrite
      have hid : row.recordId = chain.1 :=
        hrid.trans ((hresolve f hf conflict ciphertext hmerged).trans
          (recordId_of_baseOf hbase))
      refine .merged hhit (serverHead.version + 1 - first) (newEntry db₁ row now _)
        { record := written, syncState := .pending } rfl rfl ?_
      rw [view_insertPending hinsert, if_pos hid, hmoved]

/-- The versions of a record once its chain moved are in the vaults they were in. -/
theorem vaultId_of_shift {v : RecordView} {n : ℕ} {row : LocalRow} (hrow : row ∈ (v.shift n).rows) :
    ∃ r ∈ v.rows, r.record.vaultId = row.record.vaultId := by
  obtain ⟨r, hr, rfl⟩ := List.mem_map.1 hrow
  refine ⟨r, hr, ?_⟩
  split <;> rfl

/-- Where the merge has its base from. -/
theorem baseOf_mem {recordId : RecordId} {first : ℕ} {base : EncryptedRecord}
    (h : baseOf incoming db recordId first = some base) :
    base ∈ (db.view recordId).rows.map (·.record) ++
      GroupBy.group (·.recordId) recordId incoming := by
  unfold baseOf at h
  rcases Option.or_eq_some_iff.1 h with h | ⟨-, h⟩
  · obtain ⟨row, hrow, rfl⟩ := Option.map_eq_some_iff.1 h
    exact List.mem_append_left _ (List.mem_map_of_mem (List.mem_of_find?_eq_some hrow))
  · exact List.mem_append_right _ (List.mem_of_find?_eq_some h)

theorem insertPending_ok {row : EncryptedRecord} {changeId : ChangeId}
    (hfree : db.row? row.recordId row.version = none)
    (hfresh : changeId ∉ db.outbox.map (·.changeId)) :
    ∃ written, insertPending row now changeId db = .ok written := by
  unfold insertPending
  dsimp only
  rw [if_neg (by simp [hfree]), if_neg hfresh]
  exact ⟨_, rfl⟩

/-- A merged version is written on top, unless it is of another vault than the head. -/
theorem writeLocalChange_update {ciphertext : RecordCiphertext} {changeId : ChangeId}
    (hrows : db.rowsOf ciphertext.recordId ≠ []) (hfresh : changeId ∉ db.outbox.map (·.changeId)) :
    (∃ written, writeLocalChange (.update ciphertext) now changeId db = .ok written) ∨
      (∃ head ∈ db.rowsOf ciphertext.recordId, head.record.vaultId ≠ ciphertext.vaultId) ∧
        writeLocalChange (.update ciphertext) now changeId db =
          .error (.recordWrite ciphertext.recordId "it lives in another vault") := by
  cases hhead : getHead ciphertext.recordId db with
  | none => exact absurd (List.argmax_eq_none.1 hhead) hrows
  | some head =>
      have hmem : head ∈ db.rowsOf ciphertext.recordId := List.argmax_mem hhead
      unfold writeLocalChange
      rw [show (LocalRecordChange.update ciphertext).recordId = ciphertext.recordId from rfl, hhead]
      dsimp only
      by_cases hvault : head.record.vaultId = ciphertext.vaultId
      · -- the slot above the head is free
        have hfree : db.row? ciphertext.recordId (head.record.version + 1) = none := by
          rw [row?_eq_find?, List.find?_eq_none]
          intro row hrow heq
          have hversion : row.record.version = head.record.version + 1 := of_decide_eq_true heq
          have hle : row.record.version ≤ head.record.version :=
            List.le_of_mem_argmax (f := fun r : LocalRow => r.record.version) hrow hhead
          omega
        refine Or.inl ?_
        rw [if_neg (not_not.2 hvault)]
        exact insertPending_ok hfree hfresh
      · exact Or.inr ⟨⟨head, hmem, hvault⟩, if_pos hvault⟩

/-- **One chain of a rebase never moves into a slot that is taken**: it fails only where the merge is
of another vault than the pending versions. -/
theorem rebaseChain_ok (h : OutboxInvariant db) (hne : chain.2 ≠ [])
    (hversions : chain.2.map (·.version) = (db.view chain.1).pending.map (·.record.version))
    (hresolve : MergesItsRecord resolve)
    (hfresh : newChangeId chain.1 ∉ db.outbox.map (·.changeId)) :
    (∃ db', rebaseChain incoming resolve receivedAt now newChangeId db chain = .ok db') ∨
      (MergesInVault resolve → ¬OneVault incoming chain.1 (db.view chain.1)) ∧
        rebaseChain incoming resolve receivedAt now newChangeId db chain =
          .error (.recordWrite chain.1 "it lives in another vault") := by
  obtain ⟨first, hfirst⟩ := h.chains chain.1
  obtain ⟨hhead, hreverse, hentries⟩ := first_of_chain hfirst hne hversions
  unfold rebaseChain
  dsimp only
  rw [hhead, hreverse]
  cases hlast : (collidingRows incoming chain.1 first).getLast? with
  | none => exact Or.inl ⟨db, rfl⟩
  | some serverHead =>
      obtain ⟨-, -, hle⟩ := first_le_of_mem_collidingRows (List.mem_of_getLast? hlast)
      obtain ⟨db₁, hshift⟩ := foldlM_shiftVersion_ok
        (show 1 ≤ serverHead.version + 1 - first by omega)
        (vacant_of_chained hfirst hentries (serverHead.version + 1 - first))
      have hmoved : db₁.view chain.1 =
          (db.view chain.1).shift (serverHead.version + 1 - first) := by
        rw [view_shift hfirst rfl hshift, if_pos rfl]
      dsimp only
      rw [hshift]
      dsimp only [bind, Except.bind]
      split
      · next f base hbase _ =>
          split
          · exact Or.inl ⟨db₁, rfl⟩
          · exact Or.inl ⟨db₁, rfl⟩
          next ciphertext hmerged =>
          have hid : ciphertext.recordId = chain.1 :=
            (hresolve f rfl _ ciphertext hmerged).trans (recordId_of_baseOf hbase)
          have hrows : db₁.rowsOf ciphertext.recordId ≠ [] := by
            rw [hid]
            change (db₁.view chain.1).rows ≠ []
            rw [hmoved]
            exact fun hnil => hentries (hfirst.entries_of_rows (List.map_eq_nil_iff.1 hnil))
          have hfresh₁ : newChangeId chain.1 ∉ db₁.outbox.map (·.changeId) := by
            rwa [changeIds_of_foldlM_shiftVersion hshift]
          rcases @writeLocalChange_update db₁ now ciphertext _ hrows hfresh₁ with
            ⟨written, hwrite⟩ | ⟨⟨head, hheadmem, hother⟩, hwrite⟩
          · rw [hwrite]
            exact Or.inl ⟨_, rfl⟩
          · rw [hwrite]
            refine Or.inr ⟨fun hinvault hone => hother ?_, by rw [hid]⟩
            rw [hid] at hheadmem
            change head ∈ (db₁.view chain.1).rows at hheadmem
            rw [hmoved] at hheadmem
            obtain ⟨r, hr, hrv⟩ := vaultId_of_shift hheadmem
            rw [← hrv, hinvault f rfl _ ciphertext hmerged]
            exact hone _ (List.mem_append_left _ (List.mem_map_of_mem hr)) _ (baseOf_mem hbase)
      · exact Or.inl ⟨db₁, rfl⟩

end Chain

/-! ### All chains -/

section Chains

variable {db db' : LocalDb} {incoming : List EncryptedRecord} {resolve : Option ConflictResolver}
  {receivedAt now : Time} {newChangeId : RecordId → ChangeId}

/-- The changes of a rebased record: its own, and the merge's. -/
theorem RebasedView.changeId {recordId : RecordId} {changeId : ChangeId} {v v' : RecordView}
    (h : RebasedView incoming recordId changeId v v') {entry : OutboxEntry}
    (hentry : entry ∈ v'.entries) :
    entry.changeId ∈ v.entries.map (·.changeId) ∨ entry.changeId = changeId := by
  have hshift : ∀ n, ∀ entry ∈ (v.shift n).entries,
      entry.changeId ∈ v.entries.map (·.changeId) := by
    intro n entry hentry
    obtain ⟨e, he, rfl⟩ := List.mem_map.1 hentry
    exact List.mem_map.2 ⟨e, he, rfl⟩
  cases h with
  | kept _ same =>
      rw [same] at hentry
      exact Or.inl (List.mem_map_of_mem hentry)
  | moved _ n up =>
      rw [up] at hentry
      exact Or.inl (hshift n entry hentry)
  | merged _ n merge row _ own up =>
      rw [up] at hentry
      rcases List.mem_append.1 hentry with hentry | hentry
      · exact Or.inl (hshift n entry hentry)
      · obtain rfl := List.mem_singleton.1 hentry
        exact Or.inr own

/-- The entries of the outbox are those of the records. -/
theorem mem_entries_view {entry : OutboxEntry} :
    entry ∈ db.outbox ↔ entry ∈ (db.view entry.recordId).entries := by
  unfold LocalDb.view LocalDb.entriesOf
  rw [List.mem_filter, and_iff_left (decide_eq_true rfl)]

/-- A chain that is rebased leaves the ids of the later merges unused. -/
theorem changeId_notMem_of_rebased {recordId other : RecordId} (hne : other ≠ recordId)
    (hnew : Function.Injective newChangeId)
    (hview : RebasedView incoming recordId (newChangeId recordId) (db.view recordId)
      (db'.view recordId))
    (hothers : ∀ other, other ≠ recordId → db'.view other = db.view other)
    (hfresh : newChangeId other ∉ db.outbox.map (·.changeId)) :
    newChangeId other ∉ db'.outbox.map (·.changeId) := by
  intro hmem
  obtain ⟨entry, hentry, hid⟩ := List.mem_map.1 hmem
  rw [mem_entries_view] at hentry
  refine hfresh ?_
  by_cases hrid : entry.recordId = recordId
  · rw [hrid] at hentry
    rcases hview.changeId hentry with hold | hown
    · rw [← hid]
      obtain ⟨e, he, heq⟩ := List.mem_map.1 hold
      exact List.mem_map.2 ⟨e, (List.mem_filter.1 he).1, heq⟩
    · exact absurd (hnew (hid.symm.trans hown)) hne
  · rw [hothers _ hrid, ← mem_entries_view] at hentry
    exact List.mem_map.2 ⟨entry, hentry, hid⟩

/-- What a rebase makes of its chains. -/
theorem view_rebaseChains {chains : List (RecordId × List EncryptedRecord)} (h : OutboxInvariant db)
    (hnodup : (chains.map Prod.fst).Nodup)
    (hchains : ∀ chain ∈ chains, chain.2 ≠ [] ∧
      chain.2.map (·.version) = (db.view chain.1).pending.map (·.record.version))
    (hresolve : MergesItsRecord resolve)
    (hok : chains.foldlM (rebaseChain incoming resolve receivedAt now newChangeId) db = .ok db') :
    ∀ recordId ∈ chains.map Prod.fst, RebasedView incoming recordId (newChangeId recordId)
      (db.view recordId) (db'.view recordId) := by
  induction chains generalizing db with
  | nil => exact fun recordId hmem => by cases hmem
  | cons chain chains ih =>
      rw [List.map_cons, List.nodup_cons] at hnodup
      rw [List.foldlM_cons] at hok
      cases hchain : rebaseChain incoming resolve receivedAt now newChangeId db chain with
      | error e =>
          rw [hchain] at hok
          cases hok
      | ok db₁ =>
          rw [hchain] at hok
          obtain ⟨hne, hversions⟩ := hchains chain List.mem_cons_self
          have hview := view_rebaseChain h hne hversions hresolve hchain
          have hrebased : Rebased (fun _ => True) incoming chain.1 db db₁ :=
            rebase_chain h hne hversions hresolve (fun _ => trivial) hchain
          have hchains₁ : ∀ c ∈ chains, c.2 ≠ [] ∧
              c.2.map (·.version) = (db₁.view c.1).pending.map (·.record.version) := by
            intro c hc
            rw [hrebased.others c.1 fun heq => hnodup.1 (heq ▸ List.mem_map_of_mem hc)]
            exact hchains c (List.mem_cons_of_mem _ hc)
          intro recordId hmem
          rw [List.map_cons, List.mem_cons] at hmem
          rcases hmem with rfl | hmem
          · have hlater : Transacts (fun _ => True) True db₁ db' ∧ _ :=
              rebase_chains hrebased.transacts.outbox hnodup.2 hchains₁ hresolve
                (fun _ => trivial) hok
            rw [hlater.2.2 chain.1 hnodup.1]
            exact hview
          · rw [← hrebased.others recordId fun heq => hnodup.1 (heq ▸ hmem)]
            exact ih hrebased.transacts.outbox hnodup.2 hchains₁ hok recordId hmem

/-- The chains of a rebase, one after the other: none moves into a slot that is taken. -/
theorem rebaseChains_ok {chains : List (RecordId × List EncryptedRecord)} (h : OutboxInvariant db)
    (hnodup : (chains.map Prod.fst).Nodup)
    (hchains : ∀ chain ∈ chains, chain.2 ≠ [] ∧
      chain.2.map (·.version) = (db.view chain.1).pending.map (·.record.version))
    (hresolve : MergesItsRecord resolve) (hnew : Function.Injective newChangeId)
    (hfresh : ∀ chain ∈ chains, newChangeId chain.1 ∉ db.outbox.map (·.changeId)) :
    (∃ db', chains.foldlM (rebaseChain incoming resolve receivedAt now newChangeId) db =
        .ok db') ∨
      ∃ chain ∈ chains, (MergesInVault resolve → ¬OneVault incoming chain.1 (db.view chain.1)) ∧
        chains.foldlM (rebaseChain incoming resolve receivedAt now newChangeId) db =
          .error (.recordWrite chain.1 "it lives in another vault") := by
  induction chains generalizing db with
  | nil => exact Or.inl ⟨db, rfl⟩
  | cons chain chains ih =>
      rw [List.map_cons, List.nodup_cons] at hnodup
      rw [List.foldlM_cons]
      obtain ⟨hne, hversions⟩ := hchains chain List.mem_cons_self
      rcases @rebaseChain_ok db incoming resolve receivedAt now newChangeId chain h hne hversions
        hresolve (hfresh chain List.mem_cons_self) with ⟨db₁, hchain⟩ | ⟨hvault, hchain⟩
      · have hview := view_rebaseChain h hne hversions hresolve hchain
        have hrebased : Rebased (fun _ => True) incoming chain.1 db db₁ :=
          rebase_chain h hne hversions hresolve (fun _ => trivial) hchain
        have hother : ∀ c ∈ chains, c.1 ≠ chain.1 := fun c hc heq =>
          hnodup.1 (heq ▸ List.mem_map_of_mem hc)
        have hchains₁ : ∀ c ∈ chains, c.2 ≠ [] ∧
            c.2.map (·.version) = (db₁.view c.1).pending.map (·.record.version) := by
          intro c hc
          rw [hrebased.others c.1 (hother c hc)]
          exact hchains c (List.mem_cons_of_mem _ hc)
        have hfresh₁ : ∀ c ∈ chains, newChangeId c.1 ∉ db₁.outbox.map (·.changeId) := fun c hc =>
          changeId_notMem_of_rebased (hother c hc) hnew hview hrebased.others
            (hfresh c (List.mem_cons_of_mem _ hc))
        rw [hchain]
        rcases ih hrebased.transacts.outbox hnodup.2 hchains₁ hfresh₁ with
          ⟨db₂, hrest⟩ | ⟨c, hc, hvault, hrest⟩
        · exact Or.inl ⟨db₂, hrest⟩
        · rw [hrebased.others c.1 (hother c hc)] at hvault
          exact Or.inr ⟨c, List.mem_cons_of_mem _ hc, hvault, hrest⟩
      · rw [hchain]
        exact Or.inr ⟨chain, List.mem_cons_self, hvault, rfl⟩

/-- The pending versions as a rebase groups them. -/
theorem chains_of_groupBy (h : OutboxInvariant db) {chain : RecordId × List EncryptedRecord}
    (hchain : chain ∈ GroupBy.groupBy (fun row : EncryptedRecord => row.recordId)
      db.pendingRows) :
    chain.2 ≠ [] ∧ chain.2.map (·.version) =
      (db.view chain.1).pending.map (·.record.version) := by
  obtain ⟨hgroup, hne⟩ := (GroupBy.mem_groupBy _).1 hchain
  exact ⟨hne, hgroup ▸ versions_of_group h chain.1⟩

/-- **What a rebase makes of each record.** -/
theorem view_rebasePendingVersions (h : OutboxInvariant db) (hresolve : MergesItsRecord resolve)
    (hok : rebasePendingVersions incoming resolve receivedAt now newChangeId db = .ok db') :
    OutboxInvariant db' ∧ ∀ recordId, Below incoming recordId (db'.view recordId) ∧
      RebasedView incoming recordId (newChangeId recordId) (db.view recordId)
        (db'.view recordId) := by
  have hnodup := GroupBy.nodup_keys (fun row : EncryptedRecord => row.recordId) db.pendingRows
  have hall : Transacts (fun _ => True) True db db' ∧ _ :=
    rebase_chains h hnodup (fun _ hchain => chains_of_groupBy h hchain) hresolve
      (fun _ => trivial) hok
  have hbelow : Transacts (fun _ => True) True db db' ∧ _ :=
    transacts_rebasePendingVersions h hresolve (fun _ => trivial) hok
  refine ⟨hall.1.outbox, fun recordId => ⟨hbelow.2 recordId, ?_⟩⟩
  by_cases hmem : recordId ∈ (GroupBy.groupBy (fun row : EncryptedRecord => row.recordId)
      db.pendingRows).map Prod.fst
  · exact view_rebaseChains h hnodup (fun _ hchain => chains_of_groupBy h hchain) hresolve hok
      recordId hmem
  · have hsame := hall.2.2 recordId hmem
    exact .kept (hsame ▸ hbelow.2 recordId) hsame

end Chains

/-! ### Ciphertexts -/

section Contents

variable {db db' : LocalDb}

/-- The ciphertext a change points at. -/
def LocalDb.contentOf (db : LocalDb) (changeId : ChangeId) : Option Ciphertext :=
  (db.entry? changeId).bind fun entry =>
    (db.row? entry.recordId entry.version).map (·.record.content)

/-- The pending version of an entry. -/
theorem exists_pending_of_entry {v : RecordView} {first : ℕ} (h : v.Chained first)
    {entry : OutboxEntry} (hentry : entry ∈ v.entries) :
    ∃ row ∈ v.pending, row.record.version = entry.version := by
  have hmem : entry.version ∈ v.pending.map (·.record.version) := by
    rw [h.pending, ← h.entries]
    exact List.mem_map_of_mem hentry
  exact List.mem_map.1 hmem

/-- The pending versions are found by their numbers. -/
theorem find?_pending {v : RecordView} {first : ℕ} (h : v.Chained first) {row : LocalRow}
    (hrow : row ∈ v.pending) :
    v.rows.find? (·.record.version = row.record.version) = some row := by
  obtain ⟨hmem, hp⟩ := List.mem_filter.1 hrow
  cases hfind : v.rows.find? (·.record.version = row.record.version) with
  | none => exact absurd (decide_eq_true rfl) (List.find?_eq_none.1 hfind row hmem)
  | some other =>
      have hother : other ∈ v.rows := List.mem_of_find?_eq_some hfind
      have hversion : other.record.version = row.record.version := by
        simpa using List.find?_some hfind
      have hfirst := (h.version_mem hmem hp).1
      have hlen := (h.version_mem hmem hp).2
      -- a synced version has a number below the chain's
      have hop : other.isPending = true := by
        rcases isPending_or_isSynced other with hop | hos
        · exact hop
        · have hne : v.entries ≠ [] := by
            intro hnil
            rw [hnil, List.length_nil] at hlen
            omega
          have := h.synced other hother hos hne
          omega
      have hnodup : (v.pending.map (·.record.version)).Nodup := by
        rw [h.pending]
        exact List.nodup_range'
      exact congrArg some
        (List.inj_on_of_nodup_map hnodup (List.mem_filter.2 ⟨hother, hop⟩) hrow hversion)

/-- What a change points at: its pending version. -/
theorem contentOf_eq (h : OutboxInvariant db) {entry : OutboxEntry} (hentry : entry ∈ db.outbox)
    {row : LocalRow} (hrow : row ∈ (db.view entry.recordId).pending)
    (hversion : row.record.version = entry.version) :
    db.contentOf entry.changeId = some row.record.content := by
  have hfind : db.entry? entry.changeId = some entry := by
    unfold LocalDb.entry?
    cases hfind : db.outbox.find? (·.changeId = entry.changeId) with
    | none => exact absurd (decide_eq_true rfl) (List.find?_eq_none.1 hfind entry hentry)
    | some other =>
        have hid : other.changeId = entry.changeId := by simpa using List.find?_some hfind
        exact congrArg some (List.inj_on_of_nodup_map h.changeIds
          (List.mem_of_find?_eq_some hfind) hentry hid)
  obtain ⟨first, hfirst⟩ := h.chains entry.recordId
  unfold LocalDb.contentOf
  rw [hfind, Option.bind_some, row?_eq_find?, ← hversion, find?_pending hfirst hrow]
  rfl

end Contents

/-! ### Nothing is lost -/

/-- What a rebase promises: each chain keeps its ciphertexts and its changes in order, and at most
one version follows, with a change of its own; every change points at its ciphertext; the chains are
above the pulled rows; and a record no pulled row collides with is as it was. -/
structure LosesNothing (incoming : List EncryptedRecord) (newChangeId : RecordId → ChangeId)
    (db db' : LocalDb) : Prop where
  outbox : OutboxInvariant db'
  chains : ∀ recordId, ∃ merged : List Ciphertext, merged.length ≤ 1 ∧
    (db'.view recordId).pending.map (·.record.content) =
      (db.view recordId).pending.map (·.record.content) ++ merged ∧
    (db'.view recordId).entries.map (·.changeId) =
      (db.view recordId).entries.map (·.changeId) ++ merged.map fun _ => newChangeId recordId
  contents : ∀ entry ∈ db.outbox, ∃ content, db.contentOf entry.changeId = some content ∧
    db'.contentOf entry.changeId = some content
  above : ∀ row ∈ incoming, ∀ pending ∈ (db'.view row.recordId).pending,
    row.version < pending.record.version
  untouched : ∀ recordId, (∀ row ∈ incoming, row.recordId = recordId →
    ∀ pending ∈ (db.view recordId).pending, row.version < pending.record.version) →
      db'.view recordId = db.view recordId

/-- What storing rows promises: no pending version and no entry changes, and each row is in its own
slot, when no two rows have the same one. -/
structure KeepsPending (incoming : List EncryptedRecord) (db db' : LocalDb) : Prop where
  pending : ∀ recordId, (db'.view recordId).pending = (db.view recordId).pending
  outbox : db'.outbox = db.outbox
  stored : (incoming.map fun row => (row.recordId, row.version)).Nodup → ∀ row ∈ incoming,
    db'.row? row.recordId row.version = some { record := row, syncState := .synced }

section Keeps

variable {db db' : LocalDb} {incoming : List EncryptedRecord} {resolve : Option ConflictResolver}
  {receivedAt now : Time} {newChangeId : RecordId → ChangeId}

/-- To be below a chain is to be below its pending versions. -/
theorem below_iff {recordId : RecordId} {first : ℕ} (h : (db.view recordId).Chained first) :
    Below incoming recordId (db.view recordId) ↔
      ∀ row ∈ incoming, row.recordId = recordId →
        ∀ pending ∈ (db.view recordId).pending, row.version < pending.record.version := by
  have hversions : (db.view recordId).marks.map (·.version) =
      (db.view recordId).pending.map (·.record.version) := by
    rw [h.map_version_marks, h.pending]
  refine forall₂_congr fun row _ => forall_congr' fun _ => ?_
  constructor
  · intro hmarks pending hp
    have hmem : pending.record.version ∈ (db.view recordId).marks.map (·.version) := by
      rw [hversions]
      exact List.mem_map_of_mem hp
    obtain ⟨m, hm, hv⟩ := List.mem_map.1 hmem
    rw [← hv]
    exact hmarks m hm
  · intro hpending m hm
    have hmem : m.version ∈ (db.view recordId).pending.map (·.record.version) := by
      rw [← hversions]
      exact List.mem_map_of_mem hm
    obtain ⟨pending, hp, hv⟩ := List.mem_map.1 hmem
    rw [← hv]
    exact hpending pending hp

theorem content_raise (n : ℕ) (rows : List LocalRow) :
    (rows.map (·.raise n)).map (·.record.content) = rows.map (·.record.content) := by
  rw [List.map_map]
  rfl

theorem changeId_raise (n : ℕ) (entries : List OutboxEntry) :
    (entries.map (·.raise n)).map (·.changeId) = entries.map (·.changeId) := by
  rw [List.map_map]
  rfl

/-- What a rebased chain keeps. -/
theorem RebasedView.chain {recordId : RecordId} {changeId : ChangeId} {v v' : RecordView}
    (h : RebasedView incoming recordId changeId v v') :
    ∃ merged : List Ciphertext, merged.length ≤ 1 ∧
      v'.pending.map (·.record.content) = v.pending.map (·.record.content) ++ merged ∧
      v'.entries.map (·.changeId) =
        v.entries.map (·.changeId) ++ merged.map fun _ => changeId := by
  cases h with
  | kept _ same =>
      refine ⟨[], Nat.zero_le _, ?_, ?_⟩
      · rw [same, List.append_nil]
      · rw [same, List.map_nil, List.append_nil]
  | moved _ n up =>
      refine ⟨[], Nat.zero_le _, ?_, ?_⟩
      · rw [up, RecordView.pending_shift, content_raise, List.append_nil]
      · rw [up, List.map_nil, List.append_nil]
        exact changeId_raise n v.entries
  | merged _ n entry row pending own up =>
      refine ⟨[row.record.content], le_rfl, ?_, ?_⟩
      · rw [up, RecordView.pending_append _ _ pending, List.map_append, RecordView.pending_shift,
          content_raise]
        rfl
      · rw [up]
        unfold RecordView.append
        rw [List.map_append, ← own]
        exact congrArg (· ++ _) (changeId_raise n v.entries)

/-- A rebased chain keeps the pending version of each of its entries. -/
theorem RebasedView.pending_of_entry {recordId : RecordId} {changeId : ChangeId} {v v' : RecordView}
    (h : RebasedView incoming recordId changeId v v') {entry : OutboxEntry}
    (hentry : entry ∈ v.entries) {row : LocalRow} (hrow : row ∈ v.pending)
    (hversion : row.record.version = entry.version) :
    ∃ entry' ∈ v'.entries, entry'.changeId = entry.changeId ∧ entry'.recordId = entry.recordId ∧
      ∃ row' ∈ v'.pending, row'.record.version = entry'.version ∧
        row'.record.content = row.record.content := by
  have hshift : ∀ n, entry.raise n ∈ (v.shift n).entries ∧ row.raise n ∈ (v.shift n).pending := by
    intro n
    refine ⟨List.mem_map_of_mem hentry, ?_⟩
    rw [RecordView.pending_shift]
    exact List.mem_map_of_mem hrow
  have hraise : ∀ n, (row.raise n).record.version = (entry.raise n).version := fun n =>
    congrArg (· + n) hversion
  cases h with
  | kept _ same =>
      rw [same]
      exact ⟨entry, hentry, rfl, rfl, row, hrow, hversion, rfl⟩
  | moved _ n up =>
      rw [up]
      exact ⟨_, (hshift n).1, rfl, rfl, _, (hshift n).2, hraise n, rfl⟩
  | merged _ n merge merged pending _ up =>
      rw [up, RecordView.pending_append _ _ pending]
      exact ⟨_, List.mem_append_left _ (hshift n).1, rfl, rfl, _,
        List.mem_append_left _ (hshift n).2, hraise n, rfl⟩

theorem losesNothing_of_views (h : OutboxInvariant db) (h' : OutboxInvariant db')
    (hviews : ∀ recordId, Below incoming recordId (db'.view recordId) ∧
      RebasedView incoming recordId (newChangeId recordId) (db.view recordId)
        (db'.view recordId)) : LosesNothing incoming newChangeId db db' where
  outbox := h'
  chains recordId := (hviews recordId).2.chain
  contents entry hentry := by
    obtain ⟨first, hfirst⟩ := h.chains entry.recordId
    have hmem : entry ∈ (db.view entry.recordId).entries := mem_entries_view.1 hentry
    obtain ⟨row, hrow, hversion⟩ := exists_pending_of_entry hfirst hmem
    obtain ⟨entry', hmem', hid, hrid, row', hrow', hversion', hcontent⟩ :=
      (hviews entry.recordId).2.pending_of_entry hmem hrow hversion
    refine ⟨row.record.content, contentOf_eq h hentry hrow hversion, ?_⟩
    rw [← hrid] at hmem' hrow'
    rw [← hid, ← hcontent]
    exact contentOf_eq h' (mem_entries_view.2 hmem') hrow' hversion'
  above row hrow pending hp := by
    obtain ⟨first, hfirst⟩ := h'.chains row.recordId
    exact (below_iff hfirst).1 (hviews row.recordId).1 row hrow rfl pending hp
  untouched recordId hbelow := by
    obtain ⟨first, hfirst⟩ := h.chains recordId
    rw [← below_iff hfirst] at hbelow
    cases (hviews recordId).2 with
    | kept _ same => exact same
    | moved hit => exact absurd hbelow hit
    | merged hit => exact absurd hbelow hit

/-- A row below the pending versions is stored beside them. -/
theorem pending_store {v : RecordView} {record : EncryptedRecord}
    (hbelow : ∀ pending ∈ v.pending, record.version < pending.record.version) :
    (v.store record).pending = v.pending := by
  unfold RecordView.store RecordView.pending
  rw [List.filter_append, List.filter_filter]
  refine (List.append_nil _).trans (List.filter_congr fun row hrow => ?_)
  cases hp : row.isPending with
  | false => rfl
  | true =>
      have := hbelow row (List.mem_filter.2 ⟨hrow, hp⟩)
      rw [Bool.true_and, decide_eq_true_eq]
      omega

theorem row?_upsertRecord (db : LocalDb) (row : EncryptedRecord) (recordId : RecordId)
    (version : ℕ) :
    (upsertRecord db row).row? recordId version =
      if (row.recordId, row.version) = (recordId, version) then
        some { record := row, syncState := .synced }
      else db.row? recordId version := by
  unfold upsertRecord LocalDb.row?
  rw [List.find?_append, List.find?_filter]
  split
  · next heq =>
      rw [heq, List.find?_eq_none.2, Option.none_or]
      · exact List.find?_cons_of_pos (decide_eq_true heq)
      · intro r _
        by_cases hr : r.key = (recordId, version) <;> simp [hr]
  · next hne =>
      rw [List.find?_cons_of_neg (by simpa [LocalRow.key] using hne), List.find?_nil,
        Option.or_none]
      congr 1
      funext r
      by_cases hr : r.key = (recordId, version)
      · simp [hr, Ne.symm hne]
      · simp [hr]

/-- A slot none of the rows has is left alone. -/
theorem row?_upsertRecords {rows : List EncryptedRecord} {recordId : RecordId} {version : ℕ}
    (hnot : (recordId, version) ∉ rows.map fun row => (row.recordId, row.version)) :
    (rows.foldl upsertRecord db).row? recordId version = db.row? recordId version := by
  induction rows generalizing db with
  | nil => rfl
  | cons row rows ih =>
      rw [List.map_cons, List.mem_cons, not_or] at hnot
      rw [List.foldl_cons, ih hnot.2, row?_upsertRecord, if_neg (Ne.symm hnot.1)]

/-- Pulled rows below the pending versions are stored beside them. -/
theorem keepsPending_upsertRecords
    (hbelow : ∀ row ∈ incoming, ∀ pending ∈ (db.view row.recordId).pending,
      row.version < pending.record.version) :
    KeepsPending incoming db (upsertRecords incoming db) := by
  unfold upsertRecords
  induction incoming generalizing db with
  | nil => exact ⟨fun _ => rfl, rfl, fun _ _ hrow => by cases hrow⟩
  | cons row rows ih =>
      have hpending : ∀ recordId,
          ((upsertRecord db row).view recordId).pending = (db.view recordId).pending := by
        intro recordId
        rw [view_upsertRecord]
        split
        · next hid =>
            subst hid
            exact pending_store (hbelow row List.mem_cons_self)
        · rfl
      have hrest := @ih (upsertRecord db row) (by
        intro r hr
        rw [hpending]
        exact hbelow r (List.mem_cons_of_mem _ hr))
      refine ⟨fun recordId => (hrest.pending recordId).trans (hpending recordId), hrest.outbox,
        fun hnodup r hr => ?_⟩
      rw [List.map_cons, List.nodup_cons] at hnodup
      rw [List.foldl_cons]
      rcases List.mem_cons.1 hr with rfl | hr
      · rw [row?_upsertRecords hnodup.1, row?_upsertRecord, if_pos rfl]
      · exact hrest.stored hnodup.2 r hr

/-- **A rebase loses nothing.**  Whatever rows are pulled, in any order, it never moves a version into
a slot that is taken: it fails only where the merge of a record is in another vault than its newest
version, and then nothing is written. -/
theorem rebasePendingVersions_losesNothing (h : OutboxInvariant db)
    (hresolve : MergesItsRecord resolve) (hnew : Function.Injective newChangeId)
    (hfresh : ∀ recordId, newChangeId recordId ∉ db.outbox.map (·.changeId)) :
    (∃ db', rebasePendingVersions incoming resolve receivedAt now newChangeId db = .ok db' ∧
        LosesNothing incoming newChangeId db db' ∧
        KeepsPending incoming db' (upsertRecords incoming db')) ∨
      ∃ recordId, (MergesInVault resolve → ¬OneVault incoming recordId (db.view recordId)) ∧
        rebasePendingVersions incoming resolve receivedAt now newChangeId db =
          .error (.recordWrite recordId "it lives in another vault") := by
  have hnodup := GroupBy.nodup_keys (fun row : EncryptedRecord => row.recordId) db.pendingRows
  rcases rebaseChains_ok h hnodup (fun _ hchain => chains_of_groupBy h hchain) hresolve hnew
    (fun chain _ => hfresh chain.1) with ⟨db', hok⟩ | ⟨chain, -, hvault, herror⟩
  · obtain ⟨houtbox, hviews⟩ := view_rebasePendingVersions h hresolve hok
    have hkeeps : LosesNothing incoming newChangeId db db' := losesNothing_of_views h houtbox hviews
    exact Or.inl ⟨db', hok, hkeeps, keepsPending_upsertRecords hkeeps.above⟩
  · exact Or.inr ⟨chain.1, hvault, herror⟩

/-- A row of record 7, a note encrypted as a text. -/
def textRow (version : ℕ) (text : Text) : EncryptedRecord :=
  (RecordCiphertext.toRecord ⟨7, 1, ⟨text, ['n'], 1, 1⟩, 5⟩ version)

/-- Two edits wait on top of the version a device last saw. -/
def twoEdits : LocalDb :=
  { LocalDb.empty with
    records := [⟨textRow 1 ['a'], .synced⟩, ⟨textRow 2 ['b'], .pending⟩, ⟨textRow 3 ['c'], .pending⟩]
    outbox := [⟨1, 101, 7, 2, 0, none, none, 5⟩, ⟨2, 102, 7, 3, 0, none, none, 5⟩] }

theorem outboxInvariant_twoEdits : OutboxInvariant twoEdits where
  seqs := by decide
  changeIds := by decide
  chains recordId := by
    by_cases hid : recordId = 7
    · subst hid
      refine ⟨2, by decide, by decide, by decide, by decide, ?_⟩
      exact .cons_cons ⟨rfl, rfl, fun h => by cases h⟩ (.singleton _)
    · have hne : (7 : ℕ) ≠ recordId := fun h => hid h.symm
      refine ⟨1, chained_of_synced ?_ ?_⟩
      · exact List.filter_eq_nil_iff.2 (by simp [twoEdits, hne])
      · simp [RecordView.pending, LocalDb.view, LocalDb.rowsOf, twoEdits, textRow,
          RecordCiphertext.toRecord, hne]

/-- A resolver that has an answer to everything. -/
def answerAll : Option ConflictResolver :=
  some fun conflict => .merged (some {
    recordId := conflict.base.recordId
    vaultId := conflict.base.vaultId
    content := ⟨['m'], ['n'], 1, 1⟩
    clientUpdatedAt := 9 })

/-- Another device wrote two versions: the edits move to 4 and 5, and the merge is 6. -/
theorem rebasePendingVersions_losesNothing_twice :
    ∃ db', rebasePendingVersions [textRow 3 ['y'], textRow 2 ['x']] answerAll 8 9
        (fun recordId => recordId + 200) twoEdits = .ok db' ∧
      LosesNothing [textRow 3 ['y'], textRow 2 ['x']] (fun recordId => recordId + 200)
        twoEdits db' ∧
      (db'.view 7).pending.map (·.record.version) = [4, 5, 6] := by
  have hrun : (rebasePendingVersions [textRow 3 ['y'], textRow 2 ['x']] answerAll 8 9
      (fun recordId => recordId + 200) twoEdits).toOption.map
        (fun db => (db.view 7).pending.map (·.record.version)) = some [4, 5, 6] := by
    decide +kernel
  have hresolve : MergesItsRecord answerAll := by
    intro f hf conflict ciphertext hmerged
    obtain rfl := Option.some.inj hf
    obtain rfl := Option.some.inj (Resolution.merged.inj hmerged)
    rfl
  have hfresh : ∀ recordId, recordId + 200 ∉ twoEdits.outbox.map (·.changeId) := by
    have habove : ∀ n : ℕ, n + 200 ∉ [101, 102] := fun n => by
      simp
    exact habove
  rcases rebasePendingVersions_losesNothing outboxInvariant_twoEdits hresolve
    (add_left_injective 200) hfresh with ⟨db', hok, hkeeps, -⟩ | ⟨recordId, -, herror⟩
  · rw [hok] at hrun
    exact ⟨db', hok, hkeeps, Option.some.inj hrun⟩
  · rw [herror] at hrun
    cases hrun

end Keeps

end Passmgr
