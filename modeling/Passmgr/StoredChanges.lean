/-
# What the server has of a chain

A device pushes the pending changes of a record in order, and may have to push some again when the
answers got lost.  Of a chain the server has the changes up to some point: it writes a change only
on top of those before it, and a purge takes all of them away at once.

Main definitions:

* `HasChange`, `StoredFirst` — the changes of a chain the server has are its first ones;
* `PurgeSteps` — which versions of a push are purges.

Main results:

* `rowsOf_push_cases` — the rows of a record after a push;
* `StoredFirst.push`, `StoredFirst.push_other` — what a push of the chain, or of another device,
  keeps.
-/

import Passmgr.OutboxOps
import Passmgr.PushAtomic
import Passmgr.PushBatches

set_option relaxedAutoImplicit false
set_option autoImplicit false

namespace Passmgr

/-! ### The purges of a push -/

section Purges

variable (userId : UserId) (now : Time)

/-- Which of some versions, on top of each other and written for some changes, are purges: what a
purge asks for, and a delete of a purged head. -/
def PurgeSteps : Option HeadContent → List PushChange → List HeadContent → Prop
  | _, [], [] => True
  | head, change :: changes, version :: versions =>
    (version.tombstoneKind = some .purged → change.op.isPut = false ∧
        (change.op = .delete (some .purged) ∨
          head.any (fun h => h.tombstoneKind = some .purged) = true)) ∧
      PurgeSteps (some version) changes versions
  | _, _, _ => False

theorem purged_of_nextVersion {change : PushChange} {head : Option HeadContent}
    {version : NewVersion} (h : nextVersion userId now change head = .ok version)
    (hpurged : version.tombstoneKind = some .purged) : change.op.isPut = false ∧
      (change.op = .delete (some .purged) ∨
        head.any (fun h => h.tombstoneKind = some .purged) = true) := by
  cases hop : change.op with
  | put content =>
      obtain rfl : putVersion userId change content head = version := by
        simpa [nextVersion, hop] using h
      simp [putVersion] at hpurged
  | delete kind =>
      cases head with
      | none => simp [nextVersion, hop] at h
      | some head =>
          obtain rfl : tombstoneVersion userId now change kind head = version := by
            simpa [nextVersion, hop] using h
          refine ⟨rfl, ?_⟩
          by_cases hhead : head.tombstoneKind = some .purged
          · exact Or.inr (by simp [hhead])
          · -- The head's kind is only taken over where none is asked for.
            left
            simp only [tombstoneVersion, nextTombstoneKind, if_neg hhead] at hpurged
            cases kind with
            | none => exact absurd hpurged hhead
            | some kind =>
                rw [Option.some_or] at hpurged
                rw [hpurged]

theorem purgeSteps_plannedFrom {vaults : VaultState} {stored : PushChange → Option RecordRow}
    {head : Option HeadContent} {sim : Option SimulatedHead} {pairs : List (Indexed × Outcome)}
    (hm : HeadContent.Matches head sim) (h : Passes vaults stored sim pairs) :
    PurgeSteps head ((appends pairs).map (·.change))
      ((plannedFrom userId now head pairs).map (·.version.head)) := by
  induction pairs generalizing head sim with
  | nil => trivial
  | cons p pairs ih =>
      obtain ⟨x, o⟩ := p
      obtain ⟨hx, hrest⟩ := h
      rcases hx with ⟨row, rfl, -⟩ | ⟨rfl, -, hon⟩
      · rw [appends_cons, if_neg (by simp)]
        exact ih hm hrest
      · obtain ⟨version, hok, hv⟩ := nextVersion_ok userId now hm hon
        rw [appends_cons, if_pos rfl, plannedFrom, hok]
        exact ⟨purged_of_nextVersion userId now hok, ih (matches_headAfter hm hv) hrest⟩

/-- A later change asks for no purge, and deletes nothing that is deleted. -/
def PushChange.Follows (a b : PushChange) : Prop :=
  b.op ≠ .delete (some .purged) ∧ (b.op.isPut = false → a.op.isPut = true)

/-- Only the first version of a chain can be a purge. -/
theorem not_purged_of_follows {head : Option HeadContent} {change : PushChange}
    {changes : List PushChange} {version : HeadContent} {versions : List HeadContent}
    (h : PurgeSteps head (change :: changes) (version :: versions))
    (hchain : (change :: changes).IsChain PushChange.Follows) :
    ∀ v ∈ versions, v.tombstoneKind ≠ some .purged := by
  induction changes generalizing head change version versions with
  | nil =>
      cases versions with
      | nil => exact fun v hv => absurd hv List.not_mem_nil
      | cons v versions => exact h.2.elim
  | cons next changes ih =>
      cases versions with
      | nil => exact h.2.elim
      | cons v versions =>
          obtain ⟨hfollows, hrest⟩ := List.isChain_cons_cons.1 hchain
          have hv : v.tombstoneKind ≠ some .purged := by
            intro hpurged
            obtain ⟨hdelete, hasked | hhead⟩ := h.2.1 hpurged
            · exact hfollows.1 hasked
            · -- A delete follows a put, and what a put writes is no tombstone.
              have hput := hfollows.2 hdelete
              have hkind : version.tombstoneKind = some .purged := by simpa using hhead
              rw [(h.1 hkind).1] at hput
              cases hput
          intro w hw
          rcases List.mem_cons.1 hw with rfl | hw
          · exact hv
          · exact ih h.2 hrest w hw

end Purges

/-! ### The rows of a record after a push -/

section Push

variable {quotaBytes : ℕ} {s : Store} {userId : UserId} {now : Time} {changes : List PushChange}
  {d : Pushed}

/-- The rows a push writes for a record and the changes they are for. -/
theorem purgeSteps_written (hd : pushChanges quotaBytes s.db userId now changes = .ok d)
    (recordId : RecordId) : writtenOf d.written recordId = [] ∨
      PurgeSteps ((latestVersion s.db recordId).map (·.head)) (unstoredOf s.db changes recordId)
        ((writtenOf d.written recordId).map (·.head)) := by
  obtain ⟨-, hw, -⟩ := of_pushChanges_ok hd
  rw [hw]
  have hstate : (writtenOf (writtenRows quotaBytes s.db userId now changes) recordId).map
        (·.head) =
      ((writtenPlan quotaBytes s.db userId now changes).filter
        (·.version.recordId = recordId)).map (·.version.head) := by
    rw [writtenOf, writtenRows,
      map_filter_numberRows now (q := fun v => v.recordId = recordId) (g := NewVersion.head)
        (fun _ _ => rfl) (fun _ _ => rfl), List.filter_map, List.map_map]
    rfl
  by_cases hr : ∃ x ∈ indexed changes, x.change.recordId = recordId
  · obtain ⟨x, hx, rfl⟩ := hr
    obtain ⟨j, hj, hjc⟩ := exists_judged quotaBytes s.db userId now hx
    have hjr : j.1.1 = x.change.recordId := by rw [hjc]
    have hchain : j.1.2 = chainOf changes j.1.1 := by rw [hjc]
    rw [← hjr, filter_writtenPlan hj] at hstate
    split at hstate
    · rcases pushDecided_cases s.db userId changes j.1 with hpass | hno
      · right
        rw [← hjr, hstate, ← map_change_unstored, ← hchain,
          ← map_fst_pushDecided s.db userId changes, ← appends_of_passes hpass]
        refine purgeSteps_plannedFrom userId now ?_ hpass
        cases latestVersion s.db j.1.1 <;> rfl
      · left
        have hnil : pushPlanned s.db userId now changes j.1 = [] :=
          plannedFrom_of_noAppend userId now hno
        rw [hnil] at hstate
        rw [← hjr]
        exact List.map_eq_nil_iff.1 hstate
    · left
      rw [← hjr]
      exact List.map_eq_nil_iff.1 hstate
  · exact Or.inl (written_of_notMem fun x hx hxr => hr ⟨x, hx, hxr⟩)

/-- The rows of a record after a push: the new ones follow, or a purge among them takes the others
away. -/
theorem rowsOf_push_cases (hs : StoreInvariant s)
    (hd : pushChanges quotaBytes s.db userId now changes = .ok d) (recordId : RecordId) :
    ((writtenOf d.written recordId).any RecordRow.isPurged = false ∧
        d.db.rowsOf recordId = s.db.rowsOf recordId ++ writtenOf d.written recordId) ∨
      ((writtenOf d.written recordId).any RecordRow.isPurged = true ∧
        d.db.rowsOf recordId = CutLog.cut RecordRow.isPurged (writtenOf d.written recordId)) := by
  have hrows := hs.rowsOf_push hd recordId
  rw [writtenOf_append] at hrows
  cases hany : (writtenOf d.written recordId).any RecordRow.isPurged with
  | false =>
      refine Or.inl ⟨rfl, ?_⟩
      rw [hrows, CutLog.cut_append_of_none _ _ hany, hs.stored]
  | true =>
      refine Or.inr ⟨rfl, ?_⟩
      rw [hrows, CutLog.cut_append_of_any _ _ hany]

end Push

/-! ### Chains as they are pushed -/

/-- What of a pending change decides how the server takes it. -/
def PendingChange.mark (change : PendingChange) : PendingMark where
  changeId := change.changeId
  version := change.record.version
  vaultId := change.record.vaultId
  isDelete := change.record.deletedAt.isSome
  isPurge := change.record.tombstoneKind = some .purged

theorem isPut_toPushChange (change : PendingChange) :
    (toPushChange change).op.isPut = !change.mark.isDelete := by
  unfold toPushChange PendingChange.mark
  dsimp only
  cases change.record.deletedAt <;> rfl

theorem follows_toPushChange {a b : PendingChange} (h : a.mark.Follows b.mark) :
    (toPushChange a).Follows (toPushChange b) := by
  refine ⟨fun hop => ?_, fun hput => ?_⟩
  · have hpurge := h.purge
    unfold toPushChange at hop
    dsimp only at hop
    split at hop
    · rw [PushOp.delete.injEq] at hop
      simp [PendingChange.mark, hop] at hpurge
    · cases hop
  · rw [isPut_toPushChange, Bool.not_eq_false'] at hput
    rw [isPut_toPushChange, h.delete hput]
    rfl

/-- Where what a predicate leaves out comes first, the rest is the end of the list. -/
theorem filter_suffix {α : Type} {p : α → Bool} {xs : List α}
    (h : xs.Pairwise fun a b => p a = true → p b = true) : xs.filter p <:+ xs := by
  induction xs with
  | nil => exact List.suffix_rfl
  | cons x xs ih =>
      obtain ⟨hx, hxs⟩ := List.pairwise_cons.1 h
      by_cases hp : p x = true
      · rw [List.filter_eq_self.2 fun a ha => ?_]
        rcases List.mem_cons.1 ha with rfl | ha
        · exact hp
        · exact hx a ha hp
      · rw [List.filter_cons_of_neg hp]
        exact (ih hxs).trans (List.suffix_cons x xs)

/-- The changes of a chain the server has, by the rows of the record: they are its first ones, none
is numbered higher there, and only the first can have become a purge. -/
structure StoredFirst (rows : List RecordRow) (marks : List PendingMark) : Prop where
  version : ∀ m ∈ marks, ∀ row ∈ rows, row.clientChangeId = m.changeId →
    row.version ≤ m.version ∧ (row.isPurged = true → m.isDelete = true)
  before : marks.Pairwise fun a b => b.changeId ∈ rows.map (·.clientChangeId) →
    a.changeId ∈ rows.map (·.clientChangeId)
  purge : marks.Pairwise fun _ b => ∀ row ∈ rows, row.clientChangeId = b.changeId →
    row.isPurged = false

namespace StoredFirst

variable {rows : List RecordRow} {marks : List PendingMark}

theorem nil (rows : List RecordRow) : StoredFirst rows [] :=
  ⟨fun _ hm => absurd hm List.not_mem_nil, .nil, .nil⟩

theorem tail (h : StoredFirst rows marks) : StoredFirst rows marks.tail where
  version m hm := h.version m (List.mem_of_mem_tail hm)
  before := h.before.sublist (List.tail_sublist marks)
  purge := h.purge.sublist (List.tail_sublist marks)

/-- None of the changes has been pushed. -/
theorem of_notMem (h : ∀ m ∈ marks, m.changeId ∉ rows.map (·.clientChangeId)) :
    StoredFirst rows marks where
  version m hm row hrow hid := absurd (List.mem_map.2 ⟨row, hrow, hid⟩) (h m hm)
  before := List.pairwise_of_forall_mem_list fun _ _ b hb hmem => absurd hmem (h b hb)
  purge := List.pairwise_of_forall_mem_list fun _ _ b hb row hrow hid =>
    absurd (List.mem_map.2 ⟨row, hrow, hid⟩) (h b hb)

/-- The chain moves up, and changes follow that have not been pushed. -/
theorem append (h : StoredFirst rows marks) (n : ℕ) {new : List PendingMark}
    (hnew : ∀ m ∈ new, m.changeId ∉ rows.map (·.clientChangeId)) :
    StoredFirst rows (marks.map (·.raise n) ++ new) := by
  have hrest := of_notMem hnew
  refine ⟨fun m hm => ?_, List.pairwise_append.2 ⟨?_, hrest.before, fun a _ b hb hmem => ?_⟩,
    List.pairwise_append.2 ⟨?_, hrest.purge, fun a _ b hb row hrow hid => ?_⟩⟩
  · rcases List.mem_append.1 hm with hm | hm
    · obtain ⟨m₀, hm₀, rfl⟩ := List.mem_map.1 hm
      intro row hrow hid
      obtain ⟨hle, hdelete⟩ := h.version m₀ hm₀ row hrow hid
      exact ⟨hle.trans (Nat.le_add_right _ _), hdelete⟩
    · exact hrest.version m hm
  · exact List.pairwise_map.2 h.before
  · exact absurd hmem (hnew b hb)
  · exact List.pairwise_map.2 h.purge
  · exact absurd (List.mem_map.2 ⟨row, hrow, hid⟩) (hnew b hb)

/-- What a transaction does to a chain keeps it, when its own ids have not been pushed. -/
theorem moved {fresh : ChangeId → Prop} {up : Prop} {v v' : RecordView}
    (h : StoredFirst rows v.marks) (hmoved : Moved fresh up v v')
    (hfresh : ∀ changeId, fresh changeId → changeId ∉ rows.map (·.clientChangeId)) :
    StoredFirst rows v'.marks := by
  rcases hmoved with ⟨n, new, hmarks, -, hnew⟩ | hall
  · rw [hmarks]
    exact h.append n fun m hm => hfresh _ (hnew m hm)
  · exact of_notMem fun m hm => hfresh _ (hall m hm)

end StoredFirst

/-! ### A push of a chain -/

section PushChain

variable {quotaBytes : ℕ} {s : Store} {userId : UserId} {now : Time} {batch : List PendingChange}
  {d : Pushed} {recordId : RecordId} {rest : List PendingMark}

/-- The changes of a record in a batch, as they are pushed. -/
theorem unstoredOf_map (db : Db) (batch : List PendingChange) (recordId : RecordId) :
    unstoredOf db (batch.map toPushChange) recordId =
      ((changesOf recordId batch).filter fun change =>
        (storedChange db (toPushChange change)).isNone).map toPushChange := by
  unfold unstoredOf changesOf GroupBy.group
  rw [List.filter_map, List.filter_map]
  rfl

/-- The server has a change when a row of its record is of it. -/
theorem storedChange_isNone {db : Db} {change : PendingChange} :
    (storedChange db (toPushChange change)).isNone = true ↔
      change.changeId ∉ (db.rowsOf change.recordId).map (·.clientChangeId) := by
  unfold storedChange
  rw [Option.isNone_iff_eq_none, List.find?_eq_none]
  constructor
  · intro h hmem
    obtain ⟨row, hrow, hid⟩ := List.mem_map.1 hmem
    obtain ⟨hrow, hr⟩ := Db.mem_rowsOf.1 hrow
    refine h row hrow ?_
    rw [Bool.and_eq_true, decide_eq_true_eq, decide_eq_true_eq]
    exact ⟨hr, hid⟩
  · intro h row hrow hp
    rw [Bool.and_eq_true, decide_eq_true_eq, decide_eq_true_eq] at hp
    exact h (List.mem_map.2 ⟨row, Db.mem_rowsOf.2 ⟨hrow, hp.1⟩, hp.2⟩)

/-- What the server does not have of a chain that it has the first changes of. -/
theorem unstored_suffix (h : StoredFirst (s.db.rowsOf recordId)
      ((changesOf recordId batch).map PendingChange.mark ++ rest)) :
    ((changesOf recordId batch).filter fun change =>
      (storedChange s.db (toPushChange change)).isNone) <:+ changesOf recordId batch := by
  refine filter_suffix ?_
  have hbefore := List.pairwise_map.1 (List.pairwise_append.1 h.before).1
  refine hbefore.imp_of_mem fun {a b} ha hb hab => ?_
  rw [storedChange_isNone, storedChange_isNone, (mem_changesOf.1 ha).2, (mem_changesOf.1 hb).2]
  exact mt hab

/-- What a predicate leaves out of a list whose end it is. -/
theorem filter_of_suffix {α : Type} {p : α → Bool} {xs ys : List α}
    (h : ys ++ xs.filter p = xs) : ys.filter p = [] := by
  have hfilter := congrArg (List.filter p) h
  rw [List.filter_append, List.filter_filter] at hfilter
  simpa using hfilter

/-- On a purged head only that head is stored. -/
theorem isPurged_of_head (hs : StoreInvariant s)
    (hhead : ((latestVersion s.db recordId).map (·.head)).any
      (fun h => h.tombstoneKind = some .purged) = true)
    {row : RecordRow} (hrow : row ∈ s.db.rowsOf recordId) : row.isPurged = true := by
  cases hlatest : latestVersion s.db recordId with
  | none =>
      rw [hlatest] at hhead
      cases hhead
  | some purge =>
      rw [hlatest] at hhead
      have hpp : purge.isPurged = true := by
        simpa [RecordRow.isPurged, RecordRow.head] using hhead
      have hmem : purge ∈ s.db.rowsOf recordId := List.argmax_mem hlatest
      obtain ⟨hpurge, hpid⟩ := Db.mem_rowsOf.1 hmem
      obtain ⟨hstored, hid⟩ := Db.mem_rowsOf.1 hrow
      have hle := hs.above_purged (hs.mem_written hpurge) hpp hstored (hid.trans hpid.symm)
      have hge : row.version ≤ purge.version := List.le_of_mem_argmax hrow hlatest
      obtain rfl := hs.eq_of_version (hs.mem_written hstored) (hs.mem_written hpurge)
        (hid.trans hpid.symm) (le_antisymm hge hle)
      exact hpp

/-- The change that a purge of the batch follows is not stored: on a purged head the server has only
a delete that purged, and a purge asked for follows no such delete. -/
theorem unstored_of_purged_next (hs : StoreInvariant s)
    (h : StoredFirst (s.db.rowsOf recordId)
      ((changesOf recordId batch).map PendingChange.mark ++ rest))
    {last change : PendingChange} (hlast : last ∈ changesOf recordId batch)
    (hlink : last.mark.Follows change.mark) (hput : change.mark.isDelete = true)
    (hasked : (toPushChange change).op = .delete (some .purged) ∨
      ((latestVersion s.db recordId).map (·.head)).any
        (fun h => h.tombstoneKind = some .purged) = true) :
    last.changeId ∉ (s.db.rowsOf recordId).map (·.clientChangeId) := by
  intro hstored
  rcases hasked with hasked | hhead
  · exact (follows_toPushChange hlink).1 hasked
  · obtain ⟨w, hw, hwid⟩ := List.mem_map.1 hstored
    have hwp : w.isPurged = true := isPurged_of_head hs hhead hw
    have hdelete := (h.version last.mark (List.mem_append_left _
      (List.mem_map_of_mem hlast)) w hw hwid).2 hwp
    rw [hlink.delete hput] at hdelete
    cases hdelete

/-- **Only the first change of a chain becomes a purge**, and then the server had none of the
chain. -/
theorem purged_first (hs : StoreInvariant s)
    (hd : pushChanges quotaBytes s.db userId now (batch.map toPushChange) = .ok d)
    (h : StoredFirst (s.db.rowsOf recordId)
      ((changesOf recordId batch).map PendingChange.mark ++ rest))
    (hfollows : ((changesOf recordId batch).map PendingChange.mark).IsChain PendingMark.Follows)
    {row : RecordRow} (hrow : row ∈ writtenOf d.written recordId) (hpurged : row.isPurged = true) :
    ∃ change changes, changesOf recordId batch = change :: changes ∧
      change.mark.isDelete = true ∧ row.clientChangeId = change.changeId ∧
      (∀ c ∈ changesOf recordId batch,
        c.changeId ∉ (s.db.rowsOf recordId).map (·.clientChangeId)) ∧
      (writtenOf d.written recordId).tail.any RecordRow.isPurged = false := by
  obtain ⟨before, hsuffix⟩ := unstored_suffix h
  have hrows := ((atomicPush hd recordId).resolve_right (List.ne_nil_of_mem hrow)).1
  have hsteps := (purgeSteps_written hd recordId).resolve_left (List.ne_nil_of_mem hrow)
  rw [unstoredOf_map] at hrows hsteps
  set unstored := (changesOf recordId batch).filter fun change =>
    (storedChange s.db (toPushChange change)).isNone with hunstored
  cases hlist : unstored with
  | nil =>
      rw [hlist, List.map_nil, List.forall₂_nil_left_iff] at hrows
      rw [hrows] at hrow
      cases hrow
  | cons change changes =>
      rw [hlist, List.map_cons] at hrows hsteps
      cases hwritten : writtenOf d.written recordId with
      | nil =>
          rw [hwritten] at hrow
          cases hrow
      | cons first others =>
          rw [hwritten] at hrows hsteps hrow
          rw [List.map_cons] at hsteps
          obtain ⟨hfirst, hothers⟩ := List.forall₂_cons.1 hrows
          have hchain : (toPushChange change :: changes.map toPushChange).IsChain
              PushChange.Follows := by
            have hall := List.isChain_map PendingChange.mark |>.1 hfollows
            rw [← hsuffix, hlist] at hall
            have hend := hall.suffix (List.suffix_append before (change :: changes))
            rw [← List.map_cons, List.isChain_map]
            exact hend.imp fun _ _ => follows_toPushChange
          have hlater : ∀ other ∈ others, other.isPurged = false := by
            intro other hmem
            have hnot := not_purged_of_follows hsteps hchain other.head (List.mem_map_of_mem hmem)
            exact decide_eq_false hnot
          -- The purge is the first version that was written,
          obtain rfl : row = first := by
            rcases List.mem_cons.1 hrow with rfl | hmem
            · rfl
            · rw [hlater row hmem] at hpurged
              cases hpurged
          obtain ⟨hput, hasked⟩ := hsteps.1 (by
            simpa [RecordRow.isPurged, RecordRow.head] using hpurged)
          rw [isPut_toPushChange, Bool.not_eq_false'] at hput
          have hmem : change ∈ changesOf recordId batch := by
            rw [← hsuffix, hlist]
            exact List.mem_append_right _ List.mem_cons_self
          -- and the server has no change before it.
          have hbefore : before = [] := by
            by_contra hne
            have hlast := List.dropLast_append_getLast hne
            set last := before.getLast hne with hlastdef
            have hlastmem : last ∈ changesOf recordId batch := by
              rw [← hsuffix]
              exact List.mem_append_left _ (List.getLast_mem hne)
            have hlink : last.mark.Follows change.mark := by
              rw [← hsuffix, hlist, ← hlast, List.map_append, List.isChain_append] at hfollows
              refine hfollows.2.2 last.mark ?_ change.mark rfl
              rw [List.map_append, List.map_singleton, List.getLast?_concat]
              rfl
            refine unstored_of_purged_next hs h hlastmem hlink hput hasked ?_
            have hnone := filter_of_suffix hsuffix
            have hnot := List.filter_eq_nil_iff.1 hnone last (List.getLast_mem hne)
            rw [storedChange_isNone, not_not, (mem_changesOf.1 hlastmem).2] at hnot
            exact hnot
          have hall : changesOf recordId batch = change :: changes := by
            rw [← hsuffix, hbefore, hlist]
            rfl
          refine ⟨change, changes, hall, hput, hfirst.clientChangeId, fun c hc => ?_, by
            simpa using hlater⟩
          have hcu : c ∈ unstored := by
            rw [hlist, ← hall]
            exact hc
          have hnone := (List.mem_filter.1 hcu).2
          rw [storedChange_isNone, (mem_changesOf.1 hc).2] at hnone
          exact hnone

/-- The rows a push writes for a record are of changes in the batch the server did not have. -/
theorem change_of_written (hd : pushChanges quotaBytes s.db userId now (batch.map toPushChange) =
    .ok d) {row : RecordRow} (hrow : row ∈ writtenOf d.written recordId) :
    ∃ change ∈ changesOf recordId batch, IsRowOf userId now (toPushChange change) row ∧
      change.changeId ∉ (s.db.rowsOf recordId).map (·.clientChangeId) := by
  rcases atomicPush hd recordId with ⟨hrows, -⟩ | hnil
  · rw [unstoredOf_map, List.forall₂_map_left_iff] at hrows
    obtain ⟨change, hchange, hof⟩ := RowByRow.exists_left hrows hrow
    obtain ⟨hmem, hnone⟩ := List.mem_filter.1 hchange
    rw [storedChange_isNone, (mem_changesOf.1 hmem).2] at hnone
    exact ⟨change, hmem, hof, hnone⟩
  · rw [hnil] at hrow
    cases hrow

/-- A push that writes something for a record leaves the server with all changes of its chain. -/
theorem stored_or_written (hd : pushChanges quotaBytes s.db userId now (batch.map toPushChange) =
    .ok d) (hne : writtenOf d.written recordId ≠ []) {change : PendingChange}
    (hchange : change ∈ changesOf recordId batch) :
    change.changeId ∈ (s.db.rowsOf recordId).map (·.clientChangeId) ∨
      change.changeId ∈ (writtenOf d.written recordId).map (·.clientChangeId) := by
  by_cases hstored : change.changeId ∈ (s.db.rowsOf recordId).map (·.clientChangeId)
  · exact Or.inl hstored
  · right
    rcases atomicPush hd recordId with ⟨hrows, -⟩ | hnil
    · rw [unstoredOf_map, List.forall₂_map_left_iff] at hrows
      have hmem : change ∈ (changesOf recordId batch).filter fun change =>
          (storedChange s.db (toPushChange change)).isNone := by
        rw [List.mem_filter, storedChange_isNone, (mem_changesOf.1 hchange).2]
        exact ⟨hchange, hstored⟩
      obtain ⟨row, hrow, hof⟩ := RowByRow.exists_right hrows hmem
      exact List.mem_map.2 ⟨row, hrow, hof.clientChangeId⟩
    · exact absurd hnil hne

/-- A log that has no cut past its first entry. -/
theorem cut_eq_self {α : Type} {p : α → Bool} {xs : List α} (h : xs.tail.any p = false) :
    CutLog.cut p xs = xs := by
  by_contra hne
  obtain ⟨x, ys, hcut, hx⟩ := CutLog.head_cut p hne
  obtain ⟨before, hsuffix⟩ := CutLog.cut_suffix p xs
  cases before with
  | nil => exact hne hsuffix
  | cons b before =>
      rw [← hsuffix, hcut, List.cons_append, List.tail_cons, List.any_append, List.any_cons, hx]
        at h
      simp at h

/-- **A push of the first changes of a chain**: the server has the first changes of it. -/
theorem StoredFirst.push (hs : StoreInvariant s)
    (hd : pushChanges quotaBytes s.db userId now (batch.map toPushChange) = .ok d)
    (h : StoredFirst (s.db.rowsOf recordId)
      ((changesOf recordId batch).map PendingChange.mark ++ rest))
    (hfollows : ((changesOf recordId batch).map PendingChange.mark).IsChain PendingMark.Follows)
    (hids : (((changesOf recordId batch).map PendingChange.mark ++ rest).map
      (·.changeId)).Nodup)
    (hversions : ∀ change ∈ changesOf recordId batch, 1 ≤ change.record.version) :
    StoredFirst (d.db.rowsOf recordId)
      ((changesOf recordId batch).map PendingChange.mark ++ rest) := by
  have heq := List.inj_on_of_nodup_map hids
  -- What was written is numbered as its change is.
  have hwritten : ∀ row ∈ writtenOf d.written recordId,
      ∀ m ∈ (changesOf recordId batch).map PendingChange.mark ++ rest,
        row.clientChangeId = m.changeId → ∃ change ∈ changesOf recordId batch,
          m = change.mark ∧ row.version = m.version := by
    intro row hrow m hm hid
    obtain ⟨change, hchange, hof, -⟩ := change_of_written hd hrow
    have hmark : m = change.mark :=
      heq hm (List.mem_append_left _ (List.mem_map_of_mem hchange))
        (hid.symm.trans hof.clientChangeId)
    refine ⟨change, hchange, hmark, ?_⟩
    rw [hof.version, hmark]
    exact Nat.sub_add_cancel (hversions change hchange)
  -- Nothing was written for the changes that were not sent.
  have hrest : ∀ m ∈ rest, m.changeId ∉ (writtenOf d.written recordId).map (·.clientChangeId) := by
    intro m hm hmem
    obtain ⟨row, hrow, hid⟩ := List.mem_map.1 hmem
    obtain ⟨change, hchange, rfl, -⟩ := hwritten row hrow m (List.mem_append_right _ hm) hid
    rw [List.map_append] at hids
    exact (List.nodup_append.1 hids).2.2 _
      (List.mem_map_of_mem (List.mem_map_of_mem hchange)) _ (List.mem_map_of_mem hm) rfl
  rcases rowsOf_push_cases hs hd recordId with ⟨hnone, hrows⟩ | ⟨hany, hrows⟩
  · rw [hrows]
    have hkept : ∀ row ∈ writtenOf d.written recordId, row.isPurged = false := by
      simpa using hnone
    refine ⟨fun m hm row hrow hid => ?_, List.pairwise_append.2 ⟨?_, ?_, fun a ha b hb hmem => ?_⟩,
      h.purge.imp fun {_ b} hb row hrow hid => ?_⟩
    · rcases List.mem_append.1 hrow with hrow | hrow
      · exact h.version m hm row hrow hid
      · obtain ⟨-, -, -, hversion⟩ := hwritten row hrow m hm hid
        exact ⟨hversion.le, fun hp => by simp [hkept row hrow] at hp⟩
    · by_cases hnil : writtenOf d.written recordId = []
      · rw [hnil, List.append_nil]
        exact (List.pairwise_append.1 h.before).1
      · refine List.pairwise_of_forall_mem_list fun a ha _ _ _ => ?_
        obtain ⟨change, hchange, rfl⟩ := List.mem_map.1 ha
        rw [List.map_append]
        exact List.mem_append.2 (stored_or_written hd hnil hchange)
    · refine (List.pairwise_append.1 h.before).2.1.imp_of_mem fun {a b} _ hb hab hmem => ?_
      rw [List.map_append] at hmem ⊢
      exact List.mem_append_left _ (hab ((List.mem_append.1 hmem).resolve_right (hrest b hb)))
    · rw [List.map_append] at hmem ⊢
      exact List.mem_append_left _ ((List.pairwise_append.1 h.before).2.2 a ha b hb
        ((List.mem_append.1 hmem).resolve_right (hrest b hb)))
    · rcases List.mem_append.1 hrow with hrow | hrow
      · exact hb row hrow hid
      · exact hkept row hrow
  · -- A purge is the first change, and no other of the chain was stored.
    obtain ⟨purge, hpurge, hpurged⟩ := List.any_eq_true.1 hany
    obtain ⟨change, changes, hbatch, hdelete, hid, hunstored, htail⟩ :=
      purged_first hs hd h hfollows hpurge hpurged
    rw [cut_eq_self htail] at hrows
    rw [hrows]
    have hfirst : ∀ row ∈ writtenOf d.written recordId, row.isPurged = true →
        row.clientChangeId = change.changeId := by
      intro row hrow hp
      obtain ⟨c, cs, hc, -, hrowid, -, -⟩ := purged_first hs hd h hfollows hrow hp
      rw [hrowid, (List.cons_eq_cons.1 (hbatch.symm.trans hc)).1]
    have hmem : change.mark ∈ (changesOf recordId batch).map PendingChange.mark ++ rest := by
      rw [hbatch]
      exact List.mem_append_left _ List.mem_cons_self
    refine ⟨fun m hm row hrow hrowid => ?_, List.pairwise_append.2
      ⟨List.pairwise_of_forall_mem_list fun a ha _ _ _ => ?_,
        List.pairwise_of_forall_mem_list fun _ _ b hb hmem => absurd hmem (hrest b hb),
        fun _ _ b hb hmem => absurd hmem (hrest b hb)⟩, ?_⟩
    · obtain ⟨-, -, -, hversion⟩ := hwritten row hrow m hm hrowid
      refine ⟨hversion.le, fun hp => ?_⟩
      rw [heq hm hmem (hrowid.symm.trans (hfirst row hrow hp))]
      exact hdelete
    · obtain ⟨c, hc, rfl⟩ := List.mem_map.1 ha
      exact (stored_or_written hd (List.ne_nil_of_mem hpurge) hc).resolve_left (hunstored c hc)
    · have hlater : ∀ b ∈ changes.map PendingChange.mark ++ rest,
          b.changeId ≠ change.changeId := by
        rw [hbatch, List.map_cons, List.cons_append, List.map_cons, List.nodup_cons] at hids
        intro b hb hsame
        exact hids.1 (List.mem_map.2 ⟨b, hb, hsame⟩)
      have hkept : ∀ b ∈ changes.map PendingChange.mark ++ rest,
          ∀ row ∈ writtenOf d.written recordId, row.clientChangeId = b.changeId →
            row.isPurged = false := by
        intro b hb row hrow hrowid
        by_contra hp
        exact hlater b hb (hrowid.symm.trans (hfirst row hrow (by simpa using hp)))
      rw [hbatch, List.map_cons, List.cons_append]
      exact List.pairwise_cons.2 ⟨hkept, List.pairwise_of_forall_mem_list fun _ _ b hb => hkept b hb⟩

/-- **A push without changes of a chain**: of what the server had of the chain it has all or
nothing. -/
theorem StoredFirst.push_other (hs : StoreInvariant s) {changes : List PushChange}
    {marks : List PendingMark}
    (hd : pushChanges quotaBytes s.db userId now changes = .ok d)
    (h : StoredFirst (s.db.rowsOf recordId) marks)
    (hnew : ∀ m ∈ marks, m.changeId ∉ (writtenOf d.written recordId).map (·.clientChangeId)) :
    StoredFirst (d.db.rowsOf recordId) marks := by
  rcases rowsOf_push_cases hs hd recordId with ⟨-, hrows⟩ | ⟨-, hrows⟩
  · rw [hrows]
    refine ⟨fun m hm row hrow hid => ?_, h.before.imp_of_mem fun {a b} _ hb hab hmem => ?_,
      h.purge.imp_of_mem fun {a b} _ hb hab row hrow hid => ?_⟩
    · rcases List.mem_append.1 hrow with hrow | hrow
      · exact h.version m hm row hrow hid
      · exact absurd (List.mem_map.2 ⟨row, hrow, hid⟩) (hnew m hm)
    · rw [List.map_append] at hmem ⊢
      exact List.mem_append_left _ (hab ((List.mem_append.1 hmem).resolve_right (hnew b hb)))
    · rcases List.mem_append.1 hrow with hrow | hrow
      · exact hab row hrow hid
      · exact absurd (List.mem_map.2 ⟨row, hrow, hid⟩) (hnew b hb)
  · rw [hrows]
    refine of_notMem fun m hm hmem => hnew m hm ?_
    obtain ⟨row, hrow, hid⟩ := List.mem_map.1 hmem
    exact List.mem_map.2 ⟨row, CutLog.mem_of_mem_cut _ hrow, hid⟩

end PushChain

end Passmgr
