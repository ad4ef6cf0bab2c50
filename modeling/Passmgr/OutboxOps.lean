/-
# Local transactions keep the outbox in order

What the operations of a device that write, purge, re-encrypt, retry, drop or pull do to the chains
of pending versions: a chain grows at its end, moves up as a whole, or is replaced.

Main definitions:

* `Moved`, `Transacts` — what a transaction does to a chain, and to all of them;

Main results:

* `transacts_writeLocalChanges`, `transacts_purgeRecords`, … — one for each operation.
-/

import Passmgr.LocalViews

set_option relaxedAutoImplicit false
set_option autoImplicit false

namespace Passmgr

/-- What a transaction may do to a chain: it moves up and new changes follow, or only new changes
are left.  `up` says whether it may move. -/
def Moved (fresh : ChangeId → Prop) (up : Prop) (v v' : RecordView) : Prop :=
  (∃ n new, v'.marks = v.marks.map (·.raise n) ++ new ∧ (n = 0 ∨ up) ∧
      ∀ m ∈ new, fresh m.changeId) ∨
    ∀ m ∈ v'.marks, fresh m.changeId

/-- What a transaction does to the outbox, given the ids of its own changes. -/
structure Transacts (fresh : ChangeId → Prop) (up : Prop) (db db' : LocalDb) : Prop where
  outbox : OutboxInvariant db'
  moved : ∀ recordId, Moved fresh up (db.view recordId) (db'.view recordId)

section Transacts

variable {fresh : ChangeId → Prop} {up : Prop} {db db' db'' : LocalDb}

theorem moved_of_marks_eq {v v' : RecordView} (h : v'.marks = v.marks) : Moved fresh up v v' :=
  Or.inl ⟨0, [], by rw [h, List.append_nil]; exact (List.map_id _).symm, Or.inl rfl,
    fun m hm => by cases hm⟩

theorem Moved.trans {v v' v'' : RecordView} (h : Moved fresh up v v') (h' : Moved fresh up v' v'') :
    Moved fresh up v v'' := by
  rcases h' with ⟨k, new', hmarks', hk, hfresh'⟩ | hall
  · rcases h with ⟨n, new, hmarks, hn, hfresh⟩ | hall
    · refine Or.inl ⟨n + k, new.map (·.raise k) ++ new', ?_, ?_, ?_⟩
      · rw [hmarks', hmarks, List.map_append, List.map_map, List.append_assoc]
        congr 1
        exact List.map_congr_left fun m _ => raise_raise n k m
      · rcases hn with rfl | hup
        · rcases hk with rfl | hup
          · exact Or.inl rfl
          · exact Or.inr hup
        · exact Or.inr hup
      · intro m hm
        rcases List.mem_append.1 hm with hm | hm
        · obtain ⟨m₀, hm₀, rfl⟩ := List.mem_map.1 hm
          exact hfresh m₀ hm₀
        · exact hfresh' m hm
    · refine Or.inr fun m hm => ?_
      rw [hmarks'] at hm
      rcases List.mem_append.1 hm with hm | hm
      · obtain ⟨m₀, hm₀, rfl⟩ := List.mem_map.1 hm
        exact hall m₀ hm₀
      · exact hfresh' m hm
  · exact Or.inr hall

theorem Transacts.refl (h : OutboxInvariant db) : Transacts fresh up db db :=
  ⟨h, fun _ => moved_of_marks_eq rfl⟩

theorem Transacts.trans (h : Transacts fresh up db db') (h' : Transacts fresh up db' db'') :
    Transacts fresh up db db'' :=
  ⟨h'.outbox, fun recordId => (h.moved recordId).trans (h'.moved recordId)⟩

/-- Where every turn of a loop is a transaction, the loop is one. -/
theorem transacts_foldlM {α : Type} {f : LocalDb → α → Except LocalError LocalDb} {xs : List α}
    (hf : ∀ db db', ∀ x ∈ xs, OutboxInvariant db → f db x = .ok db' → Transacts fresh up db db')
    (h : OutboxInvariant db) (hok : xs.foldlM f db = .ok db') : Transacts fresh up db db' :=
  Run.of_foldlM (fun db₁ db₂ x hx hdone hstep =>
    hdone.trans (hf db₁ db₂ x hx hdone.outbox hstep)) (Transacts.refl h) hok

/-! ### Rows and entries that go -/

/-- A transaction that only takes away: of each record synced versions, or the whole chain. -/
theorem transacts_of_sublist (h : OutboxInvariant db) (hsub : db'.outbox.Sublist db.outbox)
    (hviews : ∀ recordId,
      (∃ p : LocalRow → Bool, (∀ row ∈ db.rowsOf recordId, row.isPending = true → p row = true) ∧
        db'.view recordId = { db.view recordId with rows := (db.rowsOf recordId).filter p }) ∨
      ((db'.view recordId).entries = [] ∧ (db'.view recordId).pending = [])) :
    Transacts fresh up db db' := by
  refine ⟨⟨h.seqs.sublist (hsub.map _), h.changeIds.sublist (hsub.map _), fun recordId => ?_⟩,
    fun recordId => ?_⟩
  · obtain ⟨first, hfirst⟩ := h.chains recordId
    rcases hviews recordId with ⟨p, hp, hview⟩ | ⟨hentries, hpending⟩
    · rw [hview]
      exact ⟨first, (hfirst.filter hp).1⟩
    · exact ⟨1, chained_of_synced hentries hpending⟩
  · obtain ⟨first, hfirst⟩ := h.chains recordId
    rcases hviews recordId with ⟨p, hp, hview⟩ | ⟨hentries, hpending⟩
    · rw [hview]
      exact moved_of_marks_eq (hfirst.filter hp).2
    · refine Or.inr fun m hm => ?_
      rw [(chained_of_synced hentries hpending).marks_eq_nil.2 hentries] at hm
      cases hm

/-- A view that is not touched. -/
theorem filter_true_view (db : LocalDb) (recordId : RecordId) :
    ∃ p : LocalRow → Bool, (∀ row ∈ db.rowsOf recordId, row.isPending = true → p row = true) ∧
      db.view recordId = { db.view recordId with rows := (db.rowsOf recordId).filter p } := by
  refine ⟨fun _ => true, fun _ _ _ => rfl, ?_⟩
  rw [List.filter_true]
  rfl

/-! ### Rows and entries that change in place -/

/-- A transaction that changes neither keys nor what decides about a change. -/
theorem transacts_of_map (h : OutboxInvariant db) {f : OutboxEntry → OutboxEntry}
    {g : LocalRow → LocalRow} (houtbox : db'.outbox = db.outbox.map f)
    (hrecords : db'.records = db.records.map g)
    (hf : ∀ entry, (f entry).seq = entry.seq ∧ (f entry).changeId = entry.changeId ∧
      (f entry).recordId = entry.recordId ∧ (f entry).version = entry.version)
    (hg : ∀ row, (g row).syncState = row.syncState ∧
      (g row).record.recordId = row.record.recordId ∧
      (g row).record.version = row.record.version ∧
      (g row).record.vaultId = row.record.vaultId ∧
      (g row).record.deletedAt = row.record.deletedAt ∧
      (g row).record.tombstoneKind = row.record.tombstoneKind) :
    Transacts fresh up db db' := by
  have hentries : ∀ recordId, (db'.view recordId).entries =
      (db.view recordId).entries.map f := by
    intro recordId
    unfold LocalDb.view LocalDb.entriesOf
    dsimp only
    rw [houtbox, List.filter_map]
    congr 1
    refine List.filter_congr fun entry _ => ?_
    simp only [Function.comp_apply, (hf entry).2.2.1]
  have hrows : ∀ recordId, (db'.view recordId).rows = (db.view recordId).rows.map g := by
    intro recordId
    unfold LocalDb.view LocalDb.rowsOf
    dsimp only
    rw [hrecords, List.filter_map]
    congr 1
    refine List.filter_congr fun row _ => ?_
    simp only [Function.comp_apply, (hg row).2.1]
  have hpending : ∀ recordId, (db'.view recordId).pending =
      (db.view recordId).pending.map g := by
    intro recordId
    unfold RecordView.pending
    rw [hrows, List.filter_map]
    congr 1
    refine List.filter_congr fun row _ => ?_
    simp only [Function.comp_apply, LocalRow.isPending, (hg row).1]
  have hmarks : ∀ recordId, (db'.view recordId).marks = (db.view recordId).marks := by
    intro recordId
    unfold RecordView.marks
    rw [hentries, hpending, List.zipWith_map]
    congr 1
    funext entry row
    unfold pendingMark
    rw [(hf entry).2.1, (hg row).2.2.1, (hg row).2.2.2.1, (hg row).2.2.2.2.1,
      (hg row).2.2.2.2.2]
  refine ⟨⟨?_, ?_, fun recordId => ?_⟩, fun recordId => moved_of_marks_eq (hmarks recordId)⟩
  · rw [houtbox, List.map_map]
    convert h.seqs using 1
    exact List.map_congr_left fun entry _ => (hf entry).1
  · rw [houtbox, List.map_map]
    convert h.changeIds using 1
    exact List.map_congr_left fun entry _ => (hf entry).2.1
  · obtain ⟨first, hfirst⟩ := h.chains recordId
    refine ⟨first, hfirst.pos, ?_, ?_, ?_, ?_⟩
    · rw [hentries, List.map_map, List.length_map, ← hfirst.entries]
      exact List.map_congr_left fun entry _ => (hf entry).2.2.2
    · rw [hpending, hentries, List.map_map, List.length_map, ← hfirst.pending]
      exact List.map_congr_left fun row _ => (hg row).2.2.1
    · intro row hrow hs hne
      rw [hrows] at hrow
      rw [hentries] at hne
      obtain ⟨r, hr, rfl⟩ := List.mem_map.1 hrow
      rw [(hg r).2.2.1]
      refine hfirst.synced r hr ?_ fun hnil => hne (by rw [hnil]; rfl)
      unfold LocalRow.isSynced at hs ⊢
      rwa [(hg r).1] at hs
    · rw [hmarks]
      exact hfirst.marks

end Transacts

/-! ### New versions -/

section Writes

variable {fresh : ChangeId → Prop} {up : Prop} {db db' : LocalDb}

/-- The newest version of a record with a chain is the last of the chain. -/
theorem head_of_chained {recordId : RecordId} {first : ℕ} {head : LocalRow}
    (h : (db.view recordId).Chained first) (hhead : getHead recordId db = some head) :
    (∀ row ∈ db.rowsOf recordId, row.record.version ≤ head.record.version) ∧
      ((db.view recordId).entries ≠ [] →
        head.record.version + 1 = first + (db.view recordId).entries.length) ∧
      ∀ m ∈ (db.view recordId).marks.getLast?,
        m.vaultId = head.record.vaultId ∧ m.isDelete = head.record.deletedAt.isSome := by
  have hmem : head ∈ db.rowsOf recordId := List.argmax_mem hhead
  have hmax : ∀ row ∈ db.rowsOf recordId, row.record.version ≤ head.record.version := by
    intro row hrow
    exact List.le_of_mem_argmax (f := fun r : LocalRow => r.record.version) hrow hhead
  refine ⟨hmax, ?_⟩
  cases hentries : (db.view recordId).entries using List.reverseRecOn with
  | nil =>
      refine ⟨fun hne => absurd rfl hne, fun m hm => ?_⟩
      rw [h.marks_eq_nil.2 hentries] at hm
      cases hm
  | append_singleton entries entry =>
      have hne : (db.view recordId).entries ≠ [] := by
        rw [hentries]
        simp
      have hlength := h.length_pending
      cases hpending : (db.view recordId).pending using List.reverseRecOn with
      | nil =>
          rw [hpending, hentries] at hlength
          simp at hlength
      | append_singleton rows last =>
          have hlast : last ∈ (db.view recordId).pending := by
            rw [hpending]
            simp
          have hlastrow := List.mem_filter.1 hlast
          -- the last pending version has the greatest number
          have hversions := h.pending
          have hlen : rows.length = entries.length := by
            rw [hpending, hentries] at hlength
            simpa using hlength
          rw [hpending, hentries, List.map_append, List.length_append,
            ← List.range'_append_1] at hversions
          have hversion : last.record.version = first + entries.length := by
            have := (List.append_inj hversions (by simp [hlen])).2
            simpa using this
          have hle := hmax last hlastrow.1
          have hlt := h.version_lt hne hmem
          rw [hentries, List.length_append, List.length_singleton] at hlt
          have hsame : head.record.version = last.record.version := by omega
          have hp : head.isPending = true := by
            rcases isPending_or_isSynced head with hp | hs
            · exact hp
            · have := h.synced head hmem hs hne
              omega
          have hnodup : ((db.view recordId).pending.map (·.record.version)).Nodup := by
            rw [h.pending]
            exact List.nodup_range'
          obtain rfl : head = last :=
            List.inj_on_of_nodup_map hnodup (List.mem_filter.2 ⟨hmem, hp⟩) hlast hsame
          refine ⟨fun _ => ?_, fun m hm => ?_⟩
          · rw [List.length_append, List.length_singleton]
            omega
          · have hmarks : (db.view recordId).marks =
                List.zipWith pendingMark entries rows ++ [pendingMark entry head] := by
              unfold RecordView.marks
              rw [hentries, hpending, List.zipWith_append hlen.symm]
              rfl
            rw [hmarks, List.getLast?_append] at hm
            obtain rfl : pendingMark entry head = m := by simpa using hm
            exact ⟨rfl, rfl⟩

/-- The entry of a new pending version. -/
def newEntry (db : LocalDb) (row : EncryptedRecord) (now : Time) (changeId : ChangeId) :
    OutboxEntry where
  seq := nextOutboxSeq db
  changeId := changeId
  recordId := row.recordId
  version := row.version
  attempts := 0
  lastError := none
  parkedAt := none
  createdAt := now

theorem of_insertPending {row written : EncryptedRecord} {now : Time} {changeId : ChangeId}
    (h : insertPending row now changeId db = .ok (db', written)) :
    written = { row with createdAt := some now, updatedAt := some now } ∧
      changeId ∉ db.outbox.map (·.changeId) ∧
      db'.records = db.records ++ [{ record := written, syncState := .pending }] ∧
      db'.outbox = db.outbox ++ [newEntry db row now changeId] := by
  unfold insertPending at h
  dsimp only at h
  split at h
  · cases h
  split at h
  · cases h
  · next hid =>
      obtain ⟨rfl, rfl⟩ := Prod.mk.inj (Except.ok.inj h)
      exact ⟨rfl, hid, rfl, rfl⟩

theorem view_insertPending {row written : EncryptedRecord} {now : Time} {changeId : ChangeId}
    (h : insertPending row now changeId db = .ok (db', written)) (recordId : RecordId) :
    db'.view recordId =
      if row.recordId = recordId then
        (db.view recordId).append (newEntry db row now changeId)
          { record := written, syncState := .pending }
      else db.view recordId := by
  obtain ⟨rfl, -, hrecords, houtbox⟩ := of_insertPending h
  unfold LocalDb.view LocalDb.rowsOf LocalDb.entriesOf RecordView.append
  rw [hrecords, houtbox, List.filter_append, List.filter_append]
  split
  · next hid => simp [newEntry, hid]
  · next hid => simp [newEntry, hid]

theorem le_foldr_max {xs : List ℕ} {x : ℕ} (h : x ∈ xs) : x ≤ xs.foldr max 0 := by
  induction xs with
  | nil => cases h
  | cons y ys ih =>
      rw [List.foldr_cons]
      rcases List.mem_cons.1 h with rfl | h
      · exact le_max_left _ _
      · exact (ih h).trans (le_max_right _ _)

/-- A new pending version on top of all versions of its record. -/
theorem transacts_insertPending (h : OutboxInvariant db) {row written : EncryptedRecord}
    {now : Time} {changeId : ChangeId}
    (hok : insertPending row now changeId db = .ok (db', written)) (hfresh : fresh changeId)
    (hpos : 1 ≤ row.version)
    (habove : ∀ r ∈ db.rowsOf row.recordId, r.record.version < row.version)
    (hnext : ∀ first, (db.view row.recordId).Chained first →
      (db.view row.recordId).entries ≠ [] →
        row.version = first + (db.view row.recordId).entries.length)
    (hfollows : ∀ m ∈ (db.view row.recordId).marks.getLast?,
      row.vaultId = m.vaultId ∧ row.tombstoneKind ≠ some .purged ∧
        (row.deletedAt.isSome = true → m.isDelete = false)) :
    Transacts fresh up db db' := by
  obtain ⟨hwritten, hid, -, houtbox⟩ := of_insertPending hok
  have hview := view_insertPending hok
  have hpending : LocalRow.isPending { record := written, syncState := .pending } = true := rfl
  refine ⟨⟨?_, ?_, fun recordId => ?_⟩, fun recordId => ?_⟩
  · rw [houtbox, List.map_append, List.pairwise_append]
    refine ⟨h.seqs, List.pairwise_singleton _ _, fun a ha b hb => ?_⟩
    obtain rfl : b = nextOutboxSeq db := by simpa [newEntry] using hb
    exact Nat.lt_succ_of_le (le_foldr_max ha)
  · rw [houtbox, List.map_append, List.nodup_append]
    refine ⟨h.changeIds, by simp, fun a ha b hb => ?_⟩
    obtain rfl : b = changeId := by simpa [newEntry] using hb
    rintro rfl
    exact hid ha
  · obtain ⟨first, hfirst⟩ := h.chains recordId
    rw [hview]
    split
    · next heq =>
        subst heq hwritten
        refine hfirst.append hpending rfl habove (hnext first hfirst) hpos fun m hm => ?_
        obtain ⟨hvault, hpurge, hdelete⟩ := hfollows m hm
        exact ⟨hvault, decide_eq_false hpurge, hdelete⟩
    · exact ⟨first, hfirst⟩
  · obtain ⟨first, hfirst⟩ := h.chains recordId
    rw [hview]
    split
    · refine Or.inl ⟨0, [pendingMark (newEntry db row now changeId)
        { record := written, syncState := .pending }], ?_, Or.inl rfl, ?_⟩
      · rw [RecordView.marks_append hfirst _ hpending]
        congr 1
        exact (List.map_id _).symm
      · intro m hm
        obtain rfl := List.mem_singleton.1 hm
        exact hfresh
    · exact moved_of_marks_eq rfl

/-- Without versions there are no entries either. -/
theorem entries_of_no_head (h : OutboxInvariant db) {recordId : RecordId}
    (hhead : getHead recordId db = none) :
    db.rowsOf recordId = [] ∧ (db.view recordId).entries = [] := by
  have hrows : db.rowsOf recordId = [] := List.argmax_eq_none.1 hhead
  obtain ⟨first, hfirst⟩ := h.chains recordId
  refine ⟨hrows, ?_⟩
  rw [← List.length_eq_zero_iff, ← hfirst.length_pending]
  unfold RecordView.pending LocalDb.view
  rw [hrows]
  rfl

/-- A version that is written on top of the newest one of its record. -/
structure OnTop (head : Option LocalRow) (row : EncryptedRecord) : Prop where
  version : row.version = head.elim 0 (·.record.version) + 1
  vault : ∀ h ∈ head, row.vaultId = h.record.vaultId
  purge : row.tombstoneKind ≠ some .purged
  delete : row.deletedAt.isSome = true → ∀ h ∈ head, h.record.deletedAt.isSome = false

/-- A local write puts one version on top of its record. -/
theorem of_writeLocalChange {change : LocalRecordChange} {written : EncryptedRecord}
    {now : Time} {changeId : ChangeId}
    (hok : writeLocalChange change now changeId db = .ok (db', written)) :
    ∃ row, row.recordId = change.recordId ∧ OnTop (getHead change.recordId db) row ∧
      insertPending row now changeId db = .ok (db', written) := by
  unfold writeLocalChange at hok
  split at hok
  · cases hok
  · next ciphertext hhead =>
      refine ⟨_, rfl, ?_, hok⟩
      rw [hhead]
      exact ⟨rfl, fun h hh => (by cases hh), (by simp [RecordCiphertext.toRecord]),
        fun _ h hh => (by cases hh)⟩
  · cases hok
  · next ciphertext head hhead =>
      split at hok
      · cases hok
      · next hvault =>
          refine ⟨_, rfl, ?_, hok⟩
          rw [hhead]
          refine ⟨rfl, fun h hh => ?_, by simp [RecordCiphertext.toRecord],
            by simp [RecordCiphertext.toRecord]⟩
          obtain rfl := Option.some.inj hh
          exact (not_not.1 hvault).symm
  · next recordId clientUpdatedAt moved head hhead =>
      split at hok
      · cases hok
      · next hlive =>
          have hid : head.record.recordId = recordId :=
            of_decide_eq_true (List.mem_filter.1 (List.argmax_mem hhead)).2
          refine ⟨{ head.record with
            clientUpdatedAt := clientUpdatedAt
            version := head.record.version + 1
            deletedAt := some now
            tombstoneKind := if moved then some .moved else none }, hid, ?_, hok⟩
          rw [hhead]
          refine ⟨rfl, fun h hh => ?_, by cases moved <;> simp, fun _ h hh => ?_⟩
          · obtain rfl := Option.some.inj hh
            rfl
          · obtain rfl := Option.some.inj hh
            simpa using hlive

/-- The versions of a record are below one that is written on top of it. -/
theorem OnTop.above {recordId : RecordId} {row : EncryptedRecord}
    (h : OnTop (getHead recordId db) row) :
    ∀ r ∈ db.rowsOf recordId, r.record.version < row.version := by
  intro r hr
  rw [h.version]
  cases hhead : getHead recordId db with
  | none =>
      rw [List.argmax_eq_none.1 hhead] at hr
      cases hr
  | some head =>
      exact Nat.lt_succ_of_le
        (List.le_of_mem_argmax (f := fun r : LocalRow => r.record.version) hr hhead)

/-- A version above the others of its record is its newest one. -/
theorem getHead_insertPending {row written : EncryptedRecord} {now : Time} {changeId : ChangeId}
    (h : insertPending row now changeId db = .ok (db', written))
    (habove : ∀ r ∈ db.rowsOf row.recordId, r.record.version < row.version)
    (recordId : RecordId) : getHead recordId db' =
      if recordId = row.recordId then some ⟨written, .pending⟩ else getHead recordId db := by
  obtain ⟨rfl, -, hrecords, -⟩ := of_insertPending h
  unfold getHead LocalDb.rowsOf
  rw [hrecords, List.filter_append, List.filter_singleton]
  by_cases hid : recordId = row.recordId
  · subst hid
    rw [if_pos rfl]
    simp only [decide_true, cond_true]
    rw [List.argmax_concat]
    cases hhead : List.argmax (fun r : LocalRow => r.record.version)
        (db.records.filter (·.record.recordId = row.recordId)) with
    | none => rfl
    | some head =>
        have hlt := habove head (List.argmax_mem hhead)
        exact if_pos hlt
  · have hother : ¬ row.recordId = recordId := fun heq => hid heq.symm
    rw [if_neg hid]
    simp [hother]

/-- A local write is the newest version of its record. -/
theorem getHead_writeLocalChange {change : LocalRecordChange} {written : EncryptedRecord}
    {now : Time} {changeId : ChangeId}
    (hok : writeLocalChange change now changeId db = .ok (db', written)) (recordId : RecordId) :
    getHead recordId db' =
      if recordId = change.recordId then some ⟨written, .pending⟩ else getHead recordId db := by
  obtain ⟨row, hid, htop, hinsert⟩ := of_writeLocalChange hok
  rw [← hid] at htop ⊢
  exact getHead_insertPending hinsert htop.above recordId

/-- What is written of a ciphertext. -/
theorem of_write_ciphertext {change : LocalRecordChange} {ciphertext : RecordCiphertext}
    (hchange : change = .create ciphertext ∨ change = .update ciphertext)
    {written : EncryptedRecord} {now : Time} {changeId : ChangeId}
    (hok : writeLocalChange change now changeId db = .ok (db', written)) :
    written.recordId = ciphertext.recordId ∧ written.vaultId = ciphertext.vaultId ∧
      written.content = ciphertext.content ∧ written.deletedAt = none := by
  have hform : ∃ version, insertPending (ciphertext.toRecord version) now changeId db =
      .ok (db', written) := by
    rcases hchange with rfl | rfl <;> cases hhead : getHead ciphertext.recordId db <;>
      simp only [writeLocalChange, LocalRecordChange.recordId, hhead] at hok
    · exact ⟨1, hok⟩
    · cases hok
    · cases hok
    · split at hok
      · cases hok
      · exact ⟨_, hok⟩
  obtain ⟨version, hinsert⟩ := hform
  rw [(of_insertPending hinsert).1]
  exact ⟨rfl, rfl, rfl, rfl⟩

/-- One turn of `writeLocalChanges`. -/
theorem writeLocalChanges_cons {now : Time} {change : LocalRecordChange × ChangeId}
    {changes : List (LocalRecordChange × ChangeId)} :
    writeLocalChanges now db (change :: changes) =
      match writeLocalChange change.1 now change.2 db with
      | .error e => .error e
      | .ok result => writeLocalChanges now result.1 changes := by
  unfold writeLocalChanges
  rw [List.foldlM_cons]
  cases writeLocalChange change.1 now change.2 db <;> rfl

theorem transacts_writeLocalChange (h : OutboxInvariant db) {change : LocalRecordChange}
    {written : EncryptedRecord} {now : Time} {changeId : ChangeId}
    (hok : writeLocalChange change now changeId db = .ok (db', written))
    (hfresh : fresh changeId) : Transacts fresh up db db' := by
  obtain ⟨row, hid, htop, hinsert⟩ := of_writeLocalChange hok
  rw [← hid] at htop
  refine transacts_insertPending h hinsert hfresh ?_ htop.above ?_ fun m hm => ?_
  · rw [htop.version]
    exact Nat.le_add_left 1 _
  · intro first hfirst hne
    cases hhead : getHead row.recordId db with
    | none => exact absurd (entries_of_no_head h hhead).2 hne
    | some head =>
        rw [htop.version, hhead]
        exact (head_of_chained hfirst hhead).2.1 hne
  · obtain ⟨first, hfirst⟩ := h.chains row.recordId
    cases hhead : getHead row.recordId db with
    | none =>
        rw [hfirst.marks_eq_nil.2 (entries_of_no_head h hhead).2] at hm
        cases hm
    | some head =>
        obtain ⟨hvault, hdelete⟩ := (head_of_chained hfirst hhead).2.2 m hm
        rw [hhead] at htop
        exact ⟨(htop.vault head rfl).trans hvault.symm, htop.purge,
          fun hd => hdelete.trans (htop.delete hd head rfl)⟩

theorem transacts_writeLocalChanges (h : OutboxInvariant db) {now : Time}
    {changes : List (LocalRecordChange × ChangeId)}
    (hok : writeLocalChanges now db changes = .ok db') (hfresh : ∀ c ∈ changes, fresh c.2) :
    Transacts fresh up db db' := by
  refine transacts_foldlM (fun db db' change hchange h hok => ?_) h hok
  cases hwrite : writeLocalChange change.1 now change.2 db with
  | error e =>
      rw [hwrite] at hok
      cases hok
  | ok result =>
      rw [hwrite] at hok
      obtain rfl := Except.ok.inj hok
      exact transacts_writeLocalChange h hwrite (hfresh change hchange)

theorem transacts_writeReencryptedVersions (h : OutboxInvariant db) {now : Time}
    {versions : List (RecordCiphertext × ℕ × ChangeId)}
    (hok : writeReencryptedVersions now db versions = .ok db')
    (hfresh : ∀ v ∈ versions, fresh v.2.2) : Transacts fresh up db db' := by
  refine transacts_foldlM (fun db db' version hversion h hok => ?_) h hok
  split at hok
  · obtain rfl := Except.ok.inj hok
    exact Transacts.refl h
  split at hok
  · obtain rfl := Except.ok.inj hok
    exact Transacts.refl h
  cases hwrite : writeLocalChange (.update version.1) now version.2.2 db with
  | error e =>
      rw [hwrite] at hok
      cases hok
  | ok result =>
      rw [hwrite] at hok
      obtain rfl := Except.ok.inj hok
      exact transacts_writeLocalChange h hwrite (hfresh version hversion)

/-! ### Purges -/

/-- The tables without a record. -/
def LocalDb.without (db : LocalDb) (recordId : RecordId) : LocalDb :=
  { db with
    outbox := db.outbox.filter (·.recordId ≠ recordId)
    records := db.records.filter (·.record.recordId ≠ recordId) }

theorem view_without (db : LocalDb) (recordId id : RecordId) :
    (db.without recordId).view id =
      if id = recordId then { rows := [], entries := [] } else db.view id := by
  unfold LocalDb.view LocalDb.rowsOf LocalDb.entriesOf LocalDb.without
  dsimp only
  rw [List.filter_filter, List.filter_filter]
  split
  · next heq =>
      subst heq
      rw [List.filter_eq_nil_iff.2, List.filter_eq_nil_iff.2]
      · simp
      · simp
  · next hne =>
      congr 1
      · refine List.filter_congr fun row _ => ?_
        by_cases hr : row.record.recordId = id <;> simp [hr, hne]
      · refine List.filter_congr fun entry _ => ?_
        by_cases hr : entry.recordId = id <;> simp [hr, hne]

theorem transacts_without (h : OutboxInvariant db) (recordId : RecordId) :
    Transacts fresh up db (db.without recordId) := by
  refine transacts_of_sublist h List.filter_sublist fun id => ?_
  rw [view_without]
  split
  · exact Or.inr ⟨rfl, rfl⟩
  · exact Or.inl (filter_true_view db id)

theorem transacts_purgeRecord (h : OutboxInvariant db) {recordId : RecordId}
    {clientUpdatedAt now : Time} {changeId : ChangeId}
    (hok : purgeRecord recordId clientUpdatedAt now changeId db = .ok db')
    (hfresh : fresh changeId) : Transacts fresh up db db' := by
  unfold purgeRecord at hok
  split at hok
  · obtain rfl := Except.ok.inj hok
    exact Transacts.refl h
  split at hok
  · obtain rfl := Except.ok.inj hok
    exact Transacts.refl h
  have hwithout : Transacts fresh up db (db.without recordId) := transacts_without h recordId
  dsimp only at hok
  split at hok
  · obtain rfl := Except.ok.inj hok
    exact hwithout
  · next head _ _ _ =>
      simp only [bind, Except.bind] at hok
      split at hok
      · cases hok
      · next written hinsert =>
          obtain ⟨db₂, written⟩ := written
          obtain rfl := Except.ok.inj hok
          have hview := view_without db recordId recordId
          rw [if_pos rfl] at hview
          refine hwithout.trans (transacts_insertPending hwithout.outbox hinsert hfresh
            (Nat.le_add_left 1 _) ?_ ?_ ?_)
          · intro r hr
            change r ∈ ((db.without recordId).view recordId).rows at hr
            rw [hview] at hr
            cases hr
          · intro _ _ hne
            rw [hview] at hne
            exact absurd rfl hne
          · intro m hm
            rw [hview] at hm
            cases hm

theorem transacts_purgeRecords (h : OutboxInvariant db) {now : Time}
    {records : List (RecordId × ChangeId)} (hok : purgeRecords now db records = .ok db')
    (hfresh : ∀ r ∈ records, fresh r.2) : Transacts fresh up db db' := by
  refine transacts_foldlM (fun db db' record hrecord h hok => ?_) h hok
  split at hok
  · cases hok
  · exact transacts_purgeRecord h hok (hfresh record hrecord)

/-! ### Entries and ciphertexts in place -/

theorem transacts_replacePendingCiphertexts (h : OutboxInvariant db)
    (versions : List ReencryptedVersion) :
    Transacts fresh up db (replacePendingCiphertexts versions db) := by
  unfold replacePendingCiphertexts
  induction versions generalizing db with
  | nil => exact Transacts.refl h
  | cons version versions ih =>
      have hstep : Transacts fresh up db { db with
          records := db.records.map fun row =>
            if row.key = (version.recordId, version.version) ∧ row.isPending ∧
                row.record.content.keyVersion = version.fromKeyVersion then
              { row with record := { row.record with content := version.content } }
            else row } := by
        refine transacts_of_map h (List.map_id _).symm rfl (fun _ => ⟨rfl, rfl, rfl, rfl⟩)
          fun row => ?_
        split <;> exact ⟨rfl, rfl, rfl, rfl, rfl, rfl⟩
      exact hstep.trans (ih hstep.outbox)

/-- What is noted at an entry changes neither its place nor its number. -/
theorem transacts_of_outbox (h : OutboxInvariant db) {f : OutboxEntry → OutboxEntry}
    (hf : ∀ entry, (f entry).seq = entry.seq ∧ (f entry).changeId = entry.changeId ∧
      (f entry).recordId = entry.recordId ∧ (f entry).version = entry.version) :
    Transacts fresh up db { db with outbox := db.outbox.map f } :=
  transacts_of_map h rfl (List.map_id _).symm hf fun _ => ⟨rfl, rfl, rfl, rfl, rfl, rfl⟩

theorem transacts_failPendingChange (h : OutboxInvariant db) (changeId : ChangeId) (error : Text)
    (count : Bool) : Transacts fresh up db (failPendingChange changeId error count db) := by
  refine transacts_of_outbox h fun entry => ?_
  dsimp only
  split <;> exact ⟨rfl, rfl, rfl, rfl⟩

theorem transacts_parkPendingChange (h : OutboxInvariant db) (changeId : ChangeId) (error : Text)
    (now : Time) : Transacts fresh up db (parkPendingChange changeId error now db) := by
  refine transacts_of_outbox h fun entry => ?_
  dsimp only
  split <;> exact ⟨rfl, rfl, rfl, rfl⟩

theorem transacts_retryParkedChanges (h : OutboxInvariant db) :
    Transacts fresh up db (retryParkedChanges db) := by
  refine transacts_of_outbox h fun entry => ?_
  split <;> exact ⟨rfl, rfl, rfl, rfl⟩

/-! ### Vaults that go -/

/-- No record with a version in one of the vaults has a pending version in another one. -/
def DropsWhole (db : LocalDb) (vaultIds : List VaultId) : Prop :=
  ∀ row ∈ db.records, row.isPending = true →
    (∃ other ∈ db.records, other.record.recordId = row.record.recordId ∧
      other.record.vaultId ∈ vaultIds) → row.record.vaultId ∈ vaultIds

instance (db : LocalDb) (vaultIds : List VaultId) : Decidable (DropsWhole db vaultIds) :=
  inferInstanceAs (Decidable (∀ _ ∈ _, _))

theorem transacts_dropVaults (h : OutboxInvariant db) {vaultIds : List VaultId}
    (hwhole : DropsWhole db vaultIds) : Transacts fresh up db (dropVaults vaultIds db) := by
  refine transacts_of_sublist h List.filter_sublist fun recordId => ?_
  by_cases hin : ∃ other ∈ db.records, other.record.recordId = recordId ∧
      other.record.vaultId ∈ vaultIds
  · -- the record goes with its vault
    obtain ⟨other, hother, hid, hv⟩ := hin
    refine Or.inr ⟨List.filter_eq_nil_iff.2 fun entry hentry heq => ?_,
      List.filter_eq_nil_iff.2 fun row hrow hp => ?_⟩
    · have hnot := of_decide_eq_true (List.mem_filter.1 hentry).2
      refine hnot (List.mem_map.2 ⟨other, List.mem_filter.2 ⟨hother, by simpa using hv⟩, ?_⟩)
      rw [hid]
      exact (of_decide_eq_true heq).symm
    · obtain ⟨hkept, hrid⟩ := List.mem_filter.1 hrow
      obtain ⟨hmem, hnot⟩ := List.mem_filter.1 hkept
      refine of_decide_eq_true hnot (hwhole row hmem hp ⟨other, hother, ?_, hv⟩)
      rw [hid]
      exact (of_decide_eq_true hrid).symm
  · refine Or.inl ?_
    have hview : (dropVaults vaultIds db).view recordId = db.view recordId := by
      unfold dropVaults deleteSyncCursors deleteVaultRecords deleteVaultChanges LocalDb.view
        LocalDb.rowsOf LocalDb.entriesOf
      dsimp only
      rw [List.filter_filter, List.filter_filter]
      congr 1
      · refine List.filter_congr fun row hrow => ?_
        by_cases hr : row.record.recordId = recordId
        · have hv : row.record.vaultId ∉ vaultIds := fun hv => hin ⟨row, hrow, hr, hv⟩
          simp [hr, hv]
        · simp [hr]
      · refine List.filter_congr fun entry _ => ?_
        by_cases hr : entry.recordId = recordId
        · have hnot : recordId ∉ (db.records.filter (·.record.vaultId ∈ vaultIds)).map
              (·.record.recordId) := by
            intro hmem
            obtain ⟨row, hrow, hid⟩ := List.mem_map.1 hmem
            obtain ⟨hrow, hv⟩ := List.mem_filter.1 hrow
            exact hin ⟨row, hrow, hid, by simpa using hv⟩
          simp only [hr, hnot, decide_true, not_false_eq_true, Bool.and_self]
        · simp [hr]
    rw [hview]
    exact filter_true_view db recordId

/-- Only the rows and the outbox count. -/
theorem transacts_congr {a b : LocalDb} (h : Transacts fresh up db a)
    (hrecords : b.records = a.records) (houtbox : b.outbox = a.outbox) :
    Transacts fresh up db b := by
  have hview : ∀ recordId, b.view recordId = a.view recordId := by
    intro recordId
    unfold LocalDb.view LocalDb.rowsOf LocalDb.entriesOf
    rw [hrecords, houtbox]
  refine ⟨⟨houtbox ▸ h.outbox.seqs, houtbox ▸ h.outbox.changeIds, fun recordId => ?_⟩,
    fun recordId => ?_⟩
  · rw [hview]
    exact h.outbox.chains recordId
  · rw [hview]
    exact h.moved recordId

theorem transacts_removeVault (h : OutboxInvariant db) {vaultId : VaultId} {keepUnsent : Bool}
    {now : Time} (hok : removeVault vaultId keepUnsent now db = .ok db')
    (hwhole : DropsWhole db [vaultId]) : Transacts fresh up db db' := by
  unfold removeVault at hok
  dsimp only at hok
  split at hok
  · cases hok
  · obtain rfl := Except.ok.inj hok
    refine transacts_congr (transacts_dropVaults h hwhole) ?_ ?_
    · cases keepUnsent <;> rfl
    · cases keepUnsent <;> rfl

theorem transacts_rescueRevokedVault (h : OutboxInvariant db) {vaultId : VaultId} {now : Time}
    {changes : List (LocalRecordChange × ChangeId)}
    (hok : rescueRevokedVault vaultId now db changes = .ok db')
    (hfresh : ∀ c ∈ changes, fresh c.2) : Transacts fresh up db db' := by
  unfold rescueRevokedVault at hok
  cases hwrite : writeLocalChanges now db changes with
  | error e =>
      rw [hwrite] at hok
      cases hok
  | ok written =>
      rw [hwrite] at hok
      obtain rfl := Except.ok.inj hok
      exact transacts_congr (transacts_writeLocalChanges h hwrite hfresh) rfl rfl

end Writes

end Passmgr
