/-
# The two halves of a move

A move is a put that creates the record in the target vault and a `moved` tombstone on the source
record.  They are changes of two records, so of two chains.  A push ties them together in one place
only: when a chain of the batch is over quota, no chain with a `moved` tombstone is written.

Main definitions:

* `Move`, `Applied` — the two halves of a move, and a half that was ever written;
* `PassesChecks` — access, key and base let a change through, and every change of its chain;
* `TiedMove` — the condition under which a push keeps the halves together;

Main results:

* `move_loses_record` — a batch that tombstones the source and rejects the target;
* `move_keeps_record` — a push keeps the halves together exactly when they are tied, and then every
  run does.
-/

import Passmgr.PushAtomic

set_option relaxedAutoImplicit false
set_option autoImplicit false

namespace Passmgr

/-- What stays the same of a change when it is sent again: its record and its id. -/
structure ChangeKey where
  recordId : RecordId
  clientChangeId : ChangeId
  deriving DecidableEq, Repr

def PushChange.key (change : PushChange) : ChangeKey where
  recordId := change.recordId
  clientChangeId := change.clientChangeId

def RecordRow.key (row : RecordRow) : ChangeKey where
  recordId := row.recordId
  clientChangeId := row.clientChangeId

/-- A move: the put in the target vault and the tombstone on the source record. -/
structure Move where
  target : ChangeKey
  source : ChangeKey
  deriving DecidableEq, Repr

/-- A batch holds the source of a move only as a `moved` tombstone. -/
def IsMoveOf (move : Move) (changes : List PushChange) : Prop :=
  ∀ change ∈ changes, change.key = move.source → isMoveSource change = true

instance (move : Move) (changes : List PushChange) : Decidable (IsMoveOf move changes) :=
  inferInstanceAs (Decidable (∀ change ∈ changes, _ → _))

/-- A version was ever written for the change. -/
def Applied (written : List RecordRow) (key : ChangeKey) : Prop := ∃ row ∈ written, row.key = key

theorem applied_append {as bs : List RecordRow} {key : ChangeKey} :
    Applied (as ++ bs) key ↔ Applied as key ∨ Applied bs key := by
  simp [Applied, or_and_right, exists_or]

section

variable {quotaBytes : ℕ} {db : Db} {userId : UserId} {now : Time} {changes : List PushChange}

variable (db userId changes) in
/-- The batch holds the change, the server does not have it, and every change of its record's
chain is a retry or passes the access check, is under the current key of its vault and is based on
the version the changes before it leave. -/
def PassesChecks (key : ChangeKey) : Prop :=
  ∃ x ∈ indexed changes, x.change.key = key ∧ storedChange db x.change = none ∧
    Passes (vaultState db userId changes) (storedChange db)
      (simulatedHead (latestVersion db key.recordId))
      (pushDecided db userId changes (key.recordId, chainOf changes key.recordId))

/-- In a chain that passes, a change the server does not have is to be appended. -/
theorem append_of_passes {vaults : VaultState} {stored : PushChange → Option RecordRow}
    {sim : Option SimulatedHead} {pairs : List (Indexed × Outcome)}
    (h : Passes vaults stored sim pairs) {x : Indexed} (hx : x ∈ pairs.map Prod.fst)
    (hnone : stored x.change = none) : (x, Outcome.append) ∈ pairs := by
  have hmem : x ∈ appends pairs := by
    rw [appends_of_passes h, List.mem_filter]
    exact ⟨hx, by simp [hnone]⟩
  exact mem_appends.1 hmem

theorem passesChecks_iff {key : ChangeKey} :
    PassesChecks db userId changes key ↔
      ∃ x, x.change.key = key ∧ (x, Outcome.append) ∈
        pushDecided db userId changes (key.recordId, chainOf changes key.recordId) := by
  constructor
  · rintro ⟨x, hx, hkey, hnone, hpass⟩
    refine ⟨x, hkey, append_of_passes hpass ?_ hnone⟩
    have hrec : x.change.recordId = key.recordId := congrArg ChangeKey.recordId hkey
    rw [map_fst_pushDecided]
    exact List.mem_filter.2 ⟨hx, by simpa using hrec⟩
  · rintro ⟨x, hkey, hx⟩
    have hmem : x ∈ chainOf changes key.recordId := (List.of_mem_zip hx).1
    refine ⟨x, (List.mem_filter.1 hmem).1, hkey, (decideChain_append hx).not_stored, ?_⟩
    rcases pushDecided_cases db userId changes (key.recordId, chainOf changes key.recordId) with
      hpass | hno
    · exact hpass
    · exact absurd rfl (hno _ hx)

/-- Which changes a push writes a version for. -/
theorem applied_writtenRows {key : ChangeKey} :
    Applied (writtenRows quotaBytes db userId now changes) key ↔
      PassesChecks db userId changes key ∧
        ∃ j ∈ pushJudged quotaBytes db userId now changes,
          j.1 = (key.recordId, chainOf changes key.recordId) ∧
            isWritten quotaBytes db userId now changes j = true := by
  rw [passesChecks_iff]
  constructor
  · rintro ⟨row, hrow, rfl⟩
    obtain ⟨j, hj, hw, x, hx, hxr, hr⟩ := exists_change_of_mem_writtenRows hrow
    have hc : j.1 = (row.key.recordId, chainOf changes row.key.recordId) := by
      have hchain := (mem_groupByRecord.1 (fst_mem_groupByRecord hj)).1
      exact Prod.ext hr.symm (hchain.trans (by rw [← hr]; rfl))
    refine ⟨⟨x, ?_, hc ▸ hx⟩, j, hj, hc, hw⟩
    simp only [PushChange.key, RecordRow.key, hxr.recordId, hxr.clientChangeId]
  · rintro ⟨⟨x, hkey, hx⟩, j, hj, hjc, hw⟩
    rw [← hjc] at hx
    have hf := forall₂_written hj
    rw [if_pos hw] at hf
    obtain ⟨i, hi, hix⟩ := List.getElem_of_mem (mem_appends.2 hx)
    have hi' := hf.length_eq ▸ hi
    have hrow := hf.get hi hi'
    simp only [List.get_eq_getElem, hix] at hrow
    refine ⟨_, (List.mem_filter.1 (List.getElem_mem hi')).1, ?_⟩
    rw [← hkey]
    simp only [PushChange.key, RecordRow.key, hrow.recordId, hrow.clientChangeId]

/-- The source of a move is written exactly when its chain passes and no chain is over quota. -/
theorem applied_source {move : Move} (hmove : IsMoveOf move changes) :
    Applied (writtenRows quotaBytes db userId now changes) move.source ↔
      PassesChecks db userId changes move.source ∧
        pushOverQuota quotaBytes db userId now changes = false := by
  rw [applied_writtenRows]
  refine and_congr_right fun hpass => ?_
  obtain ⟨x, hx, hkey, -⟩ := hpass
  have hrec : x.change.recordId = move.source.recordId := congrArg ChangeKey.recordId hkey
  obtain ⟨j, hj, hjc⟩ := exists_judged quotaBytes db userId now hx
  rw [hrec] at hjc
  have hsource : (j.1.2.any fun x => isMoveSource x.change) = true := by
    rw [List.any_eq_true]
    refine ⟨x, ?_, hmove x.change (List.mem_of_getElem? (mem_indexed.1 hx)) hkey⟩
    rw [hjc]
    exact List.mem_filter.2 ⟨hx, by simpa using hrec⟩
  constructor
  · rintro ⟨j', hj', hjc', hw⟩
    obtain rfl : j' = j :=
      List.inj_on_of_nodup_map nodup_pushJudged hj' hj (by rw [hjc', hjc])
    rw [isWritten, hsource, Bool.and_true, Bool.and_eq_true, Bool.not_eq_true'] at hw
    exact hw.2
  · intro hquota
    refine ⟨j, hj, hjc, ?_⟩
    rw [isWritten, hquota, Bool.false_and, Bool.not_false, Bool.and_true]
    -- no chain is over quota, so this one is not
    rw [pushOverQuota, List.any_eq_false] at hquota
    simpa using hquota j hj

/-- In a batch that is not over quota a change is written exactly when its chain passes. -/
theorem applied_of_not_overQuota
    (hquota : pushOverQuota quotaBytes db userId now changes = false) {key : ChangeKey} :
    Applied (writtenRows quotaBytes db userId now changes) key ↔
      PassesChecks db userId changes key := by
  rw [applied_writtenRows]
  refine and_iff_left_of_imp fun ⟨x, hx, hkey, _⟩ => ?_
  have hrec : x.change.recordId = key.recordId := congrArg ChangeKey.recordId hkey
  obtain ⟨j, hj, hjc⟩ := exists_judged quotaBytes db userId now hx
  refine ⟨j, hj, by rw [hjc, hrec], ?_⟩
  rw [isWritten, hquota, Bool.false_and, Bool.not_false, Bool.and_true]
  rw [pushOverQuota, List.any_eq_false] at hquota
  simpa using hquota j hj

end

/-! ### When a push keeps the halves together -/

/-- When the source's chain passes the checks and no chain is over quota, the target was written
before, or the batch holds it and its chain passes the checks too. -/
def TiedMove (quotaBytes : ℕ) (s : Store) (userId : UserId) (now : Time)
    (changes : List PushChange) (move : Move) : Prop :=
  PassesChecks s.db userId changes move.source →
    pushOverQuota quotaBytes s.db userId now changes = false →
    Applied s.written move.target ∨ PassesChecks s.db userId changes move.target

/-- Pushes that keep the halves of a move together, and whatever keeps the records. -/
inductive TiedStep (quotaBytes : ℕ) (move : Move) (s : Store) : Store → Prop
  | push (userId : UserId) (now : Time) (changes : List PushChange) (d : Pushed)
      (hmove : IsMoveOf move changes)
      (htied : TiedMove quotaBytes s userId now changes move)
      (h : pushChanges quotaBytes s.db userId now changes = .ok d) :
      TiedStep quotaBytes move s { db := d.db, written := s.written ++ d.written }
  | other (db : Db) (h : KeepsRecords s.db db) :
      TiedStep quotaBytes move s { db := db, written := s.written }

/-- The record has not left its vault without arriving in the other. -/
def HasArrived (written : List RecordRow) (move : Move) : Prop :=
  Applied written move.source → Applied written move.target

theorem hasArrived_push {quotaBytes : ℕ} {s : Store} {userId : UserId} {now : Time}
    {changes : List PushChange} {d : Pushed} {move : Move} (hmove : IsMoveOf move changes)
    (hd : pushChanges quotaBytes s.db userId now changes = .ok d) :
    (Applied d.written move.source → Applied (s.written ++ d.written) move.target) ↔
      TiedMove quotaBytes s userId now changes move := by
  rw [(of_pushChanges_ok hd).2.1, applied_source hmove, applied_append, TiedMove, and_imp]
  refine imp_congr_right fun _ => imp_congr_right fun hquota => or_congr_right ?_
  exact applied_of_not_overQuota hquota

/-- **When a move keeps its record.**  A push that tombstones the source of a move
leaves it with an applied target exactly when the halves are tied; and along every run whose
pushes tie them, the record never leaves its vault without having arrived in the other. -/
theorem move_keeps_record (quotaBytes : ℕ) (move : Move) :
    (∀ (s : Store) (userId : UserId) (now : Time) (changes : List PushChange) (d : Pushed),
        IsMoveOf move changes → pushChanges quotaBytes s.db userId now changes = .ok d →
        ((Applied d.written move.source → Applied (s.written ++ d.written) move.target) ↔
          TiedMove quotaBytes s userId now changes move)) ∧
      ∀ s t, EmptyStore s → Run.Reaches (TiedStep quotaBytes move) s t →
        HasArrived t.written move := by
  constructor
  · intro s userId now changes d hmove hd
    exact hasArrived_push hmove hd
  · intro s t hs hr
    have hstep : ∀ s t : Store, HasArrived s.written move → TiedStep quotaBytes move s t →
        HasArrived t.written move := by
      intro s t hs hst
      cases hst with
      | push userId now changes d hmove htied h =>
          intro hsource
          rcases applied_append.1 hsource with hold | hnew
          · exact applied_append.2 (Or.inl (hs hold))
          · exact (hasArrived_push hmove h).2 htied hnew
      | other db h => exact hs
    refine Run.invariant hstep hr ?_
    rintro ⟨row, hrow, -⟩
    rw [hs.written] at hrow
    simp at hrow

/-! ### A move that loses its record -/

/-- A user with a vault of their own, and a role in a vault of someone else. -/
def moverDb (role : VaultRole) : Db :=
  { registeredDb 7 1 with
    vaults := [newVault 1 7 .personal [] [], newVault 2 8 .shared [] []]
    vaultMembers := [
      ownerMembership 1 7 1 { encryptedVaultKey := [], vaultKeyEncryptionNonce := [] },
      ownerMembership 2 8 1 { encryptedVaultKey := [], vaultKeyEncryptionNonce := [] },
      { ownerMembership 2 7 1 { encryptedVaultKey := [], vaultKeyEncryptionNonce := [] } with
        role := role }] }

/-- The put of a move into the other vault. -/
def sampleMoveTarget : PushChange :=
  { sampleCreate with clientChangeId := 21, recordId := 6, vaultId := 2 }

/-- The tombstone the move leaves behind. -/
def sampleMoveSource : PushChange :=
  { samplePurge with clientChangeId := 22, op := .delete (some .moved) }

/-- A move by a user who may write to the target vault keeps its record. -/
theorem move_keeps_record_writer :
    ∃ c d, pushChanges 100000 (moverDb .write) 7 0 [sampleCreate] = .ok c ∧
      pushChanges 100000 c.db 7 1 [sampleMoveTarget, sampleMoveSource] = .ok d ∧
      Applied d.written sampleMoveSource.key ∧
      HasArrived ([] ++ c.written ++ d.written)
        { target := sampleMoveTarget.key, source := sampleMoveSource.key } := by
  obtain ⟨c, hc, d, hd, hold, hsource, htarget⟩ : ∃ c,
      pushChanges 100000 (moverDb .write) 7 0 [sampleCreate] = .ok c ∧ ∃ d,
        pushChanges 100000 c.db 7 1 [sampleMoveTarget, sampleMoveSource] = .ok d ∧
          (∀ row ∈ c.written, row.key ≠ sampleMoveSource.key) ∧
          (∃ row ∈ d.written, row.key = sampleMoveSource.key) ∧
          ∃ row ∈ d.written, row.key = sampleMoveTarget.key :=
    ⟨_, rfl, _, rfl, by decide, by decide, by decide⟩
  obtain ⟨hiff, hrun⟩ := move_keeps_record 100000
    { target := sampleMoveTarget.key, source := sampleMoveSource.key }
  have hcreate : IsMoveOf { target := sampleMoveTarget.key, source := sampleMoveSource.key }
      [sampleCreate] := by decide
  have hmove : IsMoveOf { target := sampleMoveTarget.key, source := sampleMoveSource.key }
      [sampleMoveTarget, sampleMoveSource] := by decide
  have htied₁ := (hiff { db := moverDb .write, written := [] } 7 0 [sampleCreate] c hcreate hc).1
    fun ⟨row, hrow, hkey⟩ => absurd hkey (hold row hrow)
  have htied₂ := (hiff { db := c.db, written := [] ++ c.written } 7 1
    [sampleMoveTarget, sampleMoveSource] d hmove hd).1 fun _ => applied_append.2 (Or.inr htarget)
  refine ⟨c, d, hc, hd, hsource, ?_⟩
  exact hrun { db := moverDb .write, written := [] } _ ⟨rfl, rfl, by decide, by decide⟩
    ((Relation.ReflTransGen.single (.push 7 0 [sampleCreate] c hcreate htied₁ hc)).tail
      (.push 7 1 [sampleMoveTarget, sampleMoveSource] d hmove htied₂ hd))

/-- **A move can lose its record.**  The record is stored in its vault; the target's put is then
rejected `forbidden`, and the source's `moved` tombstone of the same batch is applied. -/
theorem move_loses_record : ∃ c d,
    EmptyStore { db := moverDb .read, written := [] } ∧
      pushChanges 100000 (moverDb .read) 7 0 [sampleCreate] = .ok c ∧
      ([sampleMoveTarget, sampleMoveSource].map (·.clientChangeId)).Nodup ∧
      sampleMoveTarget.op.isPut = true ∧ isMoveSource sampleMoveSource = true ∧
      pushChanges 100000 c.db 7 1 [sampleMoveTarget, sampleMoveSource] = .ok d ∧
      Applied d.written sampleMoveSource.key ∧
      ¬Applied (c.written ++ d.written) sampleMoveTarget.key := by
  obtain ⟨c, hc, d, hd, hsource, htarget⟩ : ∃ c,
      pushChanges 100000 (moverDb .read) 7 0 [sampleCreate] = .ok c ∧ ∃ d,
        pushChanges 100000 c.db 7 1 [sampleMoveTarget, sampleMoveSource] = .ok d ∧
          (∃ row ∈ d.written, row.key = sampleMoveSource.key) ∧
          ∀ row ∈ c.written ++ d.written, row.key ≠ sampleMoveTarget.key :=
    ⟨_, rfl, _, rfl, by decide, by decide⟩
  refine ⟨c, d, ⟨rfl, rfl, by decide, by decide⟩, hc, by decide, rfl, rfl, hd, hsource, ?_⟩
  rintro ⟨row, hrow, hkey⟩
  exact htarget row hrow hkey

end Passmgr
