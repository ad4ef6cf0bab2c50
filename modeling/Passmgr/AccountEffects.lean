/-
# What the deletion of an account does on its own

`deleteAccount` of `VaultOps.lean`, run with nothing in between: the vaults that stay lose the rows
of the user and the invites they sent, and are marked for a rotation where the user was active.

Main definitions:

* `Db.withoutAccount` — the tables after the deletion;
* `clearSender`, `SentInvite` — what becomes of the seals and the invites the user sent.

Main results:

* `of_deleteAccount` — the tables a deletion that commits leaves;
* `withoutAccount_stays` — the row, the members and the links of a vault that stays.
-/

import Passmgr.AccountDeletion
import Passmgr.VaultEffects

set_option relaxedAutoImplicit false
set_option autoImplicit false

namespace Passmgr

open ReadCommitted (Prog)
open ReadCommitted.Prog (exec_stmt)

/-! ### The statements -/

section Statements

variable {db : Db} {userId : UserId} {v : VaultId} {u : UserId}

theorem Db.setVault_setVault {f g : VaultRow → VaultRow} (hid : ∀ row, (f row).vaultId = row.vaultId) :
    (db.setVault v f).setVault v g = db.setVault v fun row => g (f row) := by
  simp only [Db.setVault, updateVault, List.map_map]
  congr 1
  refine List.map_congr_left fun row _ => ?_
  simp only [Function.comp_apply]
  by_cases hrow : row.vaultId = v
  · rw [if_pos hrow, if_pos ((hid row).trans hrow), if_pos hrow]
  · rw [if_neg hrow, if_neg hrow, if_neg hrow]

theorem Db.setVault_id : (db.setVault v fun row => row) = db := by
  simp [Db.setVault, updateVault]

/-- The row of a vault after the loop over the shared vaults came to `vault`. -/
def leftVault (userId : UserId) (members : List VaultMember) (vault row : VaultRow) : VaultRow :=
  match otherOwner members userId vault.vaultId with
  | none => row
  | some other => { row with
      ownerId := if vault.ownerId = userId then other.userId else row.ownerId
      keyRotationNeeded := row.keyRotationNeeded ||
        members.any fun m => m.vaultId = vault.vaultId && m.userId = userId }

@[simp] theorem leftVault_vaultId (members : List VaultMember) (vault row : VaultRow) :
    (leftVault userId members vault row).vaultId = row.vaultId := by
  unfold leftVault
  split <;> rfl

/-- The loop over the shared vaults. -/
def Db.leaveVaults (userId : UserId) (members : List VaultMember) (shared : List VaultRow)
    (db : Db) : Db :=
  shared.foldl (fun db vault => db.setVault vault.vaultId (leftVault userId members vault)) db

theorem exec_leaveAll (members : List VaultMember) (shared : List VaultRow) (next : Txn) :
    (leaveAll userId members shared next).exec db
      = next.exec (db.leaveVaults userId members shared) := by
  induction shared generalizing db with
  | nil => rfl
  | cons vault rest ih =>
    have hleave : db.leaveVaults userId members (vault :: rest) =
        (db.setVault vault.vaultId (leftVault userId members vault)).leaveVaults userId members
          rest := rfl
    unfold leaveAll
    split
    · next hother =>
      have hleft : leftVault userId members vault = fun row => row := by
        funext row
        simp only [leftVault, hother]
      rw [ih, hleave, hleft, Db.setVault_id]
    · next other hother =>
      dsimp only
      have hleft : leftVault userId members vault = fun row => { row with
          ownerId := if vault.ownerId = userId then other.userId else row.ownerId
          keyRotationNeeded := row.keyRotationNeeded ||
            members.any fun m => m.vaultId = vault.vaultId && m.userId = userId } := by
        funext row
        simp only [leftVault, hother]
      rw [hleave, hleft]
      by_cases hmember : (members.any fun m => m.vaultId = vault.vaultId && m.userId = userId) = true
      · by_cases howner : vault.ownerId = userId
        · rw [if_pos howner, exec_updateVault, if_pos hmember, exec_requireRotation, ih,
            Db.markRotation,
            Db.setVault_setVault (f := fun row => { row with ownerId := other.userId }) fun _ => rfl]
          simp only [howner, hmember, if_true, Bool.or_true]
        · rw [if_neg howner, if_pos hmember, exec_requireRotation, ih, Db.markRotation]
          simp only [howner, hmember, if_false, Bool.or_true]
      · by_cases howner : vault.ownerId = userId
        · rw [if_pos howner, exec_updateVault, if_neg hmember, ih]
          rw [Bool.not_eq_true] at hmember
          simp only [howner, hmember, if_true, Bool.or_false]
        · rw [if_neg howner, if_neg hmember, ih]
          rw [Bool.not_eq_true] at hmember
          simp only [howner, hmember, if_false, Bool.or_false, Db.setVault_id]

theorem exec_deleteMembersWhere (p : VaultMember → Bool) (next : Txn) :
    (deleteMembersWhere p next).exec db
      = next.exec (db.deleteMemberKeys (db.memberKeysWhere p)) := by
  have hfound : (db.memberKeysWhere fun m => p m && (m.vaultId, m.userId) ∈ db.memberKeysWhere p)
      = db.memberKeysWhere p := by
    unfold Db.memberKeysWhere
    congr 1
    refine List.filter_congr fun m hm => ?_
    cases hp : p m with
    | false => rfl
    | true => simpa using ⟨m, ⟨hm, hp⟩, rfl, rfl⟩
  unfold deleteMembersWhere
  rw [Prog.exec_read, Prog.exec_write, hfound]

theorem exec_deleteVaultRows (vaultIds : List VaultId) (next : Txn) :
    (deleteVaultRows vaultIds next).exec db = next.exec (db.deleteVaults vaultIds) :=
  Prog.exec_write _ _ _ _

theorem exec_deleteUserRow (candidates : List VaultId) (next : Txn) :
    (deleteUserRow userId candidates next).exec db = next.exec
      (db.deleteUser userId (db.vaultsOwnedBy userId) (db.memberKeysWhere (·.userId = userId))) :=
  exec_stmt _ _ _ _ _

theorem exec_lockVaults (vaultIds : List VaultId) (next : Txn) :
    (lockVaults vaultIds next).exec db = next.exec db := by
  unfold lockVaults
  induction (vaultIds.eraseDups.insertionSort (· ≤ ·)) with
  | nil => rfl
  | cons vaultId rest ih => rw [List.foldr_cons, exec_lockVault, ih]

/-- An invite the user sent that nobody accepted. -/
def SentInvite (userId : UserId) (m : VaultMember) : Bool :=
  (m.sealedKey.bind (·.sealedByUserId)) = some userId && m.status = .pending

/-- The vaults the deletion of an account goes through, and their active members. -/
def Db.sharedWith (userId : UserId) (db : Db) : List VaultRow :=
  sharedVaults db userId (candidateVaults db userId)
    ((db.vaultMembers.filter fun m => m.userId = userId && m.status = .active).map (·.vaultId))

/-- The tables without an account. -/
def Db.withoutAccount (userId : UserId) (db : Db) : Db :=
  let shared := db.sharedWith userId
  let members := activeMembers db shared
  let left := db.leaveVaults userId members shared
  let uninvited := left.deleteMemberKeys (left.memberKeysWhere (SentInvite userId))
  let emptied := uninvited.deleteVaults (deletedVaults shared members userId)
  emptied.deleteUser userId (emptied.vaultsOwnedBy userId)
    (emptied.memberKeysWhere (·.userId = userId))

/-- A deletion that commits: no vault was left without an owner. -/
theorem of_deleteAccount {db' : Db} (h : (deleteAccount userId).exec db = some db') :
    soleOwned (db.sharedWith userId) (activeMembers db (db.sharedWith userId)) userId = [] ∧
      db' = db.withoutAccount userId := by
  unfold deleteAccount at h
  rw [exec_stmt] at h
  split at h
  · cases h
  rw [Prog.exec_read] at h
  dsimp only at h
  rw [exec_lockVaults, exec_stmt, Prog.exec_read, Prog.exec_read] at h
  split at h
  · cases h
  next hsole =>
  rw [exec_leaveAll, exec_deleteMembersWhere, exec_deleteVaultRows, exec_deleteUserRow] at h
  rw [Bool.not_eq_true', Bool.not_eq_false] at hsole
  exact ⟨List.isEmpty_iff.mp hsole, (Option.some.inj h).symm⟩

end Statements

/-! ### What the tables hold afterwards -/

section Lookups

variable {db : Db} {userId : UserId} {v : VaultId} {u : UserId}

theorem Db.member?_deleteMemberKeys (keys : List (VaultId × UserId)) :
    (db.deleteMemberKeys keys).member? v u = if (v, u) ∈ keys then none else db.member? v u := by
  have hkeys := find?_filter_key (fun v u => decide ((v, u) ∈ keys)) db.vaultMembers v u
  simp only [decide_eq_true_eq] at hkeys
  exact hkeys

theorem Db.member?_deleteVaults (gone : List VaultId) :
    (db.deleteVaults gone).member? v u = if v ∈ gone then none else db.member? v u := by
  have hkeys := find?_filter_key (fun v _ => decide (v ∈ gone)) db.vaultMembers v u
  simp only [decide_eq_true_eq, ← decide_not] at hkeys
  exact hkeys

theorem Db.vault?_deleteVaults (gone : List VaultId) :
    (db.deleteVaults gone).vault? v = if v ∈ gone then none else db.vault? v := by
  unfold Db.vault? Db.deleteVaults
  rw [List.find?_filter]
  split
  · next hgone =>
    rw [List.find?_eq_none]
    rintro row - hrow
    simp only [decide_eq_true_eq] at hrow
    exact hrow.1 (hrow.2 ▸ hgone)
  · next hgone =>
    congr 1
    funext row
    by_cases hrow : row.vaultId = v
    · simp [hrow, hgone]
    · simp [hrow]

/-- A membership whose seal, if the user made it, has no sender any more. -/
def clearSender (userId : UserId) (m : VaultMember) : VaultMember :=
  { m with
    sealedKey := m.sealedKey.map fun s =>
      if s.sealedByUserId = some userId then { s with sealedByUserId := none } else s }

theorem Db.member?_deleteUser (owned : List VaultId) (keys : List (VaultId × UserId)) :
    (db.deleteUser userId owned keys).member? v u =
      if v ∈ owned ∨ (v, u) ∈ keys then none else (db.member? v u).map (clearSender userId) := by
  have hmap : (db.deleteUser userId owned keys).member? v u =
      (((db.deleteVaults owned).deleteMemberKeys keys).member? v u).map (clearSender userId) := by
    unfold Db.member? Db.deleteUser
    dsimp only
    rw [List.find?_map]
    rfl
  rw [hmap, Db.member?_deleteMemberKeys, Db.member?_deleteVaults]
  by_cases hkey : (v, u) ∈ keys
  · simp [hkey]
  · by_cases hgone : v ∈ owned
    · simp [hgone]
    · simp [hkey, hgone]

/-- Rows deleted where a condition holds of them. -/
theorem Db.member?_deleteMembersWhere (hdb : TablesOk db) (p : VaultMember → Bool) :
    (db.deleteMemberKeys (db.memberKeysWhere p)).member? v u
      = (db.member? v u).filter fun m => !p m := by
  rw [Db.member?_deleteMemberKeys]
  split
  · next hkey =>
    obtain ⟨m, hm, hp⟩ := (mem_memberKeysWhere hdb).mp hkey
    simp [hm, hp, Option.filter]
  · next hkey =>
    cases hm : db.member? v u with
    | none => rfl
    | some m =>
      have hp : p m = false := by
        by_contra hp
        exact hkey ((mem_memberKeysWhere hdb).mpr ⟨m, hm, Bool.not_eq_false _ ▸ hp⟩)
      simp [hp, Option.filter]

/-- The rows of a user go with the user. -/
theorem Db.member?_deleteUser_own (hdb : TablesOk db) (owned : List VaultId) :
    (db.deleteUser userId owned (db.memberKeysWhere (·.userId = userId))).member? v u =
      if v ∈ owned ∨ u = userId then none else (db.member? v u).map (clearSender userId) := by
  rw [Db.member?_deleteUser]
  cases hm : db.member? v u with
  | none => simp
  | some m =>
    have hkey : (v, u) ∈ db.memberKeysWhere (·.userId = userId) ↔ u = userId := by
      rw [mem_memberKeysWhere hdb, hm, ← (Db.member?_mem hm).2.2]
      simp
    simp only [hkey]

/-! ### The loop over the shared vaults -/

theorem Db.member?_leaveVaults (members : List VaultMember) (shared : List VaultRow) :
    (db.leaveVaults userId members shared).member? v u = db.member? v u := by
  induction shared generalizing db with
  | nil => rfl
  | cons vault rest ih => exact ih

theorem Db.vaultKeyLinks_leaveVaults (members : List VaultMember) (shared : List VaultRow) :
    (db.leaveVaults userId members shared).vaultKeyLinks = db.vaultKeyLinks := by
  induction shared generalizing db with
  | nil => rfl
  | cons vault rest ih => exact ih

/-- The loop leaves the other vaults alone, -/
theorem Db.vault?_leaveVaults_of_not_mem (members : List VaultMember) (shared : List VaultRow)
    (h : v ∉ shared.map (·.vaultId)) :
    (db.leaveVaults userId members shared).vault? v = db.vault? v := by
  induction shared generalizing db with
  | nil => rfl
  | cons vault rest ih =>
    simp only [List.map_cons, List.mem_cons, not_or] at h
    refine (ih h.2).trans ?_
    rw [Db.vault?_setVault fun row => leftVault_vaultId members vault row, if_neg h.1]

/-- and changes each of its own once. -/
theorem Db.vault?_leaveVaults_of_mem (members : List VaultMember) {shared : List VaultRow}
    (hnodup : (shared.map (·.vaultId)).Nodup) {vault : VaultRow} (h : vault ∈ shared) :
    (db.leaveVaults userId members shared).vault? vault.vaultId =
      (db.vault? vault.vaultId).map (leftVault userId members vault) := by
  induction shared generalizing db with
  | nil => cases h
  | cons head rest ih =>
    rw [List.map_cons, List.nodup_cons] at hnodup
    obtain rfl | h := List.mem_cons.mp h
    · refine (Db.vault?_leaveVaults_of_not_mem members rest hnodup.1).trans ?_
      rw [Db.vault?_setVault fun row => leftVault_vaultId members vault row, if_pos rfl]
    · refine (ih hnodup.2 h).trans ?_
      have hne : vault.vaultId ≠ head.vaultId := fun heq =>
        hnodup.1 (heq ▸ List.mem_map_of_mem h)
      rw [Db.vault?_setVault fun row => leftVault_vaultId members head row, if_neg hne]

/-- The loop only touches vaults that are nobody's personal one. -/
theorem removed_leaveVaults (members : List VaultMember) (shared : List VaultRow)
    (hshared : ∀ vault ∈ shared, ∀ o, db.personalOf vault.vaultId ≠ some (some o)) :
    Removed [] [] db (db.leaveVaults userId members shared) := by
  induction shared generalizing db with
  | nil => exact .refl db
  | cons vault rest ih =>
    have hhead : Removed [] [] db (db.setVault vault.vaultId (leftVault userId members vault)) := by
      refine removed_setVault (fun row => leftVault_vaultId members vault row) (fun row => ?_)
        (fun row hrow => ?_) fun o ho => absurd ho (hshared vault List.mem_cons_self o)
      · unfold leftVault
        split <;> rfl
      · unfold leftVault at hrow
        split at hrow <;> exact hrow
    refine hhead.trans (ih fun vault' hvault' o ho => ?_)
    rw [hhead.kind] at ho
    exact hshared vault' (List.mem_cons_of_mem _ hvault') o (by simpa using ho)

/-! ### The vaults that stay -/

/-- The vaults that go with an account: those nobody else is active in, and those it owns. -/
def Db.goneWith (userId : UserId) (db : Db) : List VaultId :=
  let shared := db.sharedWith userId
  let members := activeMembers db shared
  let left := db.leaveVaults userId members shared
  let uninvited := left.deleteMemberKeys (left.memberKeysWhere (SentInvite userId))
  let gone := deletedVaults shared members userId
  gone ++ (uninvited.deleteVaults gone).vaultsOwnedBy userId

theorem mem_sharedWith {vault : VaultRow} (h : vault ∈ db.sharedWith userId) :
    vault ∈ db.vaults ∧ vault.kind = .shared := by
  simp only [Db.sharedWith, sharedVaults, List.mem_filter, Bool.and_eq_true, decide_eq_true_eq] at h
  exact ⟨h.1, h.2.1.1.1⟩

theorem sharedWith_not_personal (hdb : TablesOk db) :
    ∀ vault ∈ db.sharedWith userId, ∀ o, db.personalOf vault.vaultId ≠ some (some o) := by
  intro vault hvault o ho
  obtain ⟨hmem, hkind⟩ := mem_sharedWith hvault
  simp [Db.personalOf, hdb.vault?_eq hmem, hkind] at ho

theorem TablesOk.leaveVaults (hdb : TablesOk db) (members : List VaultMember) :
    TablesOk (db.leaveVaults userId members (db.sharedWith userId)) :=
  (removed_leaveVaults members _ (sharedWith_not_personal hdb)).tables hdb

/-- The tables stay well formed. -/
theorem TablesOk.withoutAccount (hdb : TablesOk db) : TablesOk (db.withoutAccount userId) :=
  (removed_deleteUser userId _ _).tables ((removed_deleteVaults _).tables
    ((removed_deleteMemberKeys _).tables (hdb.leaveVaults _)))

/-- The members of a vault that stays: the user and the invites they sent are gone, and so is the
sender of the seals they made. -/
theorem member?_withoutAccount (hdb : TablesOk db) (hstays : v ∉ db.goneWith userId) :
    (db.withoutAccount userId).member? v u =
      if u = userId then none
      else ((db.member? v u).filter fun m => !SentInvite userId m).map (clearSender userId) := by
  unfold Db.goneWith at hstays
  dsimp only at hstays
  rw [List.mem_append, not_or] at hstays
  have hleft := @TablesOk.leaveVaults db userId hdb (activeMembers db (db.sharedWith userId))
  have huninvited := (removed_deleteMemberKeys
    ((db.leaveVaults userId (activeMembers db (db.sharedWith userId))
      (db.sharedWith userId)).memberKeysWhere (SentInvite userId))).tables hleft
  have hemptied := (removed_deleteVaults (deletedVaults (db.sharedWith userId)
    (activeMembers db (db.sharedWith userId)) userId)).tables huninvited
  unfold Db.withoutAccount
  dsimp only
  rw [Db.member?_deleteUser_own hemptied, Db.member?_deleteVaults, if_neg hstays.1,
    Db.member?_deleteMembersWhere hleft, Db.member?_leaveVaults]
  simp only [hstays.2, false_or]

/-- The row of a vault that stays. -/
theorem vault?_withoutAccount :
    (db.withoutAccount userId).vault? v = if v ∈ db.goneWith userId then none
      else (db.leaveVaults userId (activeMembers db (db.sharedWith userId))
        (db.sharedWith userId)).vault? v := by
  unfold Db.withoutAccount Db.goneWith
  dsimp only
  have hvaults : ∀ (db : Db) (owned : List VaultId) (keys : List (VaultId × UserId)),
      (db.deleteUser userId owned keys).vault? v = (db.deleteVaults owned).vault? v :=
    fun _ _ _ => rfl
  rw [hvaults, Db.vault?_deleteVaults, Db.vault?_deleteVaults]
  simp only [List.mem_append]
  split
  · next hgone => rw [if_pos (Or.inr hgone)]
  · next howned =>
    split
    · next hgone => rw [if_pos (Or.inl hgone)]
    · next hgone =>
      rw [if_neg (not_or.mpr ⟨hgone, howned⟩)]
      rfl

/-- The links of a vault that stays. -/
theorem vaultKeyLinks_withoutAccount (hstays : v ∉ db.goneWith userId) :
    (db.withoutAccount userId).vaultKeyLinks.filter (·.vaultId = v)
      = db.vaultKeyLinks.filter (·.vaultId = v) := by
  unfold Db.goneWith at hstays
  dsimp only at hstays
  rw [List.mem_append, not_or] at hstays
  have hkeep : ∀ (gone : List VaultId) (links : List VaultKeyLink), v ∉ gone →
      (links.filter (·.vaultId ∉ gone)).filter (·.vaultId = v) = links.filter (·.vaultId = v) := by
    intro gone links hv
    rw [List.filter_filter]
    refine List.filter_congr fun link _ => ?_
    by_cases hlink : link.vaultId = v
    · simp [hlink, hv]
    · simp [hlink]
  refine (hkeep _ _ hstays.2).trans ((hkeep _ _ hstays.1).trans ?_)
  exact congrArg (List.filter _) (Db.vaultKeyLinks_leaveVaults _ _)

theorem Db.isSome_vault?_leaveVaults (members : List VaultMember) (shared : List VaultRow) :
    ((db.leaveVaults userId members shared).vault? v).isSome = (db.vault? v).isSome := by
  induction shared generalizing db with
  | nil => rfl
  | cons vault rest ih =>
    refine ih.trans ?_
    rw [Db.vault?_setVault fun row => leftVault_vaultId members vault row]
    split
    · next heq => rw [Option.isSome_map, heq]
    · rfl

/-- A link that is left is of a vault that stays. -/
theorem mem_links_withoutAccount {link : VaultKeyLink}
    (h : link ∈ (db.withoutAccount userId).vaultKeyLinks) :
    link ∈ db.vaultKeyLinks ∧ link.vaultId ∉ db.goneWith userId := by
  obtain ⟨hmem, howned⟩ := List.mem_filter.mp h
  obtain ⟨hmem, hgone⟩ := List.mem_filter.mp hmem
  refine ⟨?_, fun hin => ?_⟩
  · rw [← Db.vaultKeyLinks_leaveVaults (activeMembers db (db.sharedWith userId))]
    exact hmem
  · obtain hin | hin := List.mem_append.mp hin
    · exact of_decide_eq_true hgone hin
    · exact of_decide_eq_true howned hin

/-- A user is an active member of a vault. -/
def Db.ActiveIn (db : Db) (v : VaultId) (u : UserId) : Prop :=
  ∃ m, db.member? v u = some m ∧ m.status = .active

/-- Another owner is an active member. -/
theorem of_otherOwner {shared : List VaultRow} {other : VaultMember}
    (h : otherOwner (activeMembers db shared) userId v = some other) :
    other ∈ db.vaultMembers ∧ other.vaultId = v ∧ other.status = .active ∧
      other.userId ≠ userId ∧ other.role = .owner := by
  have hmem := List.mem_filter.mp (List.mem_of_find?_eq_some h)
  have howner := List.find?_some h
  simp only [Bool.and_eq_true, decide_eq_true_eq] at hmem howner
  have hactive := List.mem_filter.mp hmem.1
  simp only [Bool.and_eq_true, decide_eq_true_eq] at hactive
  exact ⟨hactive.1, hmem.2, hactive.2.2, howner.1, howner.2⟩

/-- A vault that stays: its row, marked where the user was active, is the same but for the owner. -/
theorem withoutAccount_stays (hdb : TablesOk db) {row' : VaultRow}
    (h : (db.withoutAccount userId).vault? v = some row') :
    v ∉ db.goneWith userId ∧ ∃ row, db.vault? v = some row ∧
      row' = { row with
        ownerId := row'.ownerId
        keyRotationNeeded := row'.keyRotationNeeded } ∧
      (row.keyRotationNeeded = true → row'.keyRotationNeeded = true) ∧
      (row.deletedAt = none →
        (row'.keyRotationNeeded = true ↔ row.keyRotationNeeded = true ∨ db.ActiveIn v userId) ∧
        (db.ActiveIn v userId → ∃ other, other ≠ userId ∧ db.IsActiveOwner v other)) := by
  rw [vault?_withoutAccount] at h
  split at h
  · cases h
  next hstays =>
  refine ⟨hstays, ?_⟩
  unfold Db.goneWith at hstays
  dsimp only at hstays
  rw [List.mem_append, not_or] at hstays
  have hnodup : ((db.sharedWith userId).map (·.vaultId)).Nodup :=
    hdb.vaults.sublist (List.filter_sublist.map _)
  by_cases hshared : v ∈ (db.sharedWith userId).map (·.vaultId)
  · obtain ⟨vault, hvault, rfl⟩ := List.mem_map.mp hshared
    rw [Db.vault?_leaveVaults_of_mem _ hnodup hvault, hdb.vault?_eq (mem_sharedWith hvault).1] at h
    have hrow' := Option.some.inj h
    refine ⟨vault, hdb.vault?_eq (mem_sharedWith hvault).1, ?_⟩
    -- It stays, so another owner took over.
    cases hother : otherOwner (activeMembers db (db.sharedWith userId)) userId vault.vaultId with
    | none =>
      refine absurd ?_ hstays.1
      exact List.mem_map.mpr ⟨vault, List.mem_filter.mpr ⟨hvault, by rw [hother]; rfl⟩, rfl⟩
    | some other =>
      simp only [leftVault, hother] at hrow'
      have hany : ((activeMembers db (db.sharedWith userId)).any
          fun m => m.vaultId = vault.vaultId && m.userId = userId) = true
          ↔ db.ActiveIn vault.vaultId userId := by
        simp only [activeMembers, List.any_eq_true, List.mem_filter, Bool.and_eq_true,
          decide_eq_true_eq]
        constructor
        · rintro ⟨m, ⟨hm, -, hactive⟩, hid, rfl⟩
          exact ⟨m, hid ▸ hdb.member?_eq hm, hactive⟩
        · rintro ⟨m, hm, hactive⟩
          obtain ⟨hmem, hid, huser⟩ := Db.member?_mem hm
          exact ⟨m, ⟨hmem, hid ▸ hshared, hactive⟩, hid, huser⟩
      rw [← hrow']
      refine ⟨rfl, fun hmark => by simp [hmark], fun _ => ⟨by rw [← hany, Bool.or_eq_true],
        fun _ => ?_⟩⟩
      obtain ⟨hmem, hid, hactive, hne, howner⟩ := of_otherOwner hother
      exact ⟨other.userId, hne, other, hid ▸ hdb.member?_eq hmem, howner, hactive⟩
  · rw [Db.vault?_leaveVaults_of_not_mem _ _ hshared] at h
    -- A vault the user was active in is shared, or it goes with them.
    have hnot : row'.deletedAt = none → ¬ db.ActiveIn v userId := ?_
    · exact ⟨row', h, rfl, id, fun hlive => ⟨⟨Or.inl, fun hmark =>
        hmark.resolve_right (hnot hlive)⟩, fun hactive => absurd hactive (hnot hlive)⟩⟩
    rintro hlive ⟨m, hm, hactive⟩
    obtain ⟨hmem, hid, huser⟩ := Db.member?_mem hm
    have hrow : row' ∈ db.vaults := List.mem_of_find?_eq_some h
    have hrowId : row'.vaultId = v := by simpa using List.find?_some h
    cases hkind : row'.kind with
    | shared =>
      refine hshared (List.mem_map.mpr ⟨row', List.mem_filter.mpr ⟨hrow, ?_⟩, hrowId⟩)
      simp only [hkind, hlive, Option.isNone_none, decide_true, Bool.true_and, Bool.and_eq_true,
        decide_eq_true_eq, Bool.or_eq_true]
      refine ⟨?_, Or.inr (List.mem_map.mpr ⟨m, ?_, hid.trans hrowId.symm⟩)⟩
      · refine List.mem_map.mpr ⟨row', List.mem_filter.mpr ⟨hrow, ?_⟩, rfl⟩
        simp [hrowId, hm]
      · simpa using ⟨hmem, huser, hactive⟩
    | personal =>
      have hpersonal : db.personalOf v = some (some row'.ownerId) := by
        simp [Db.personalOf, h, hkind]
      obtain ⟨kind, hkind', hown⟩ := hdb.vault_of_member v userId (by simp [Db.roleStatus, hm])
      have huserId := hown row'.ownerId (by rw [hpersonal] at hkind'; exact Option.some.inj hkind'.symm)
      refine hstays.2 (mem_vaultsOwnedBy ?_)
      unfold Db.personalOf
      rw [Db.vault?_deleteVaults, if_neg hstays.1]
      have hleft := @Db.vault?_leaveVaults_of_not_mem db userId v
        (activeMembers db (db.sharedWith userId)) (db.sharedWith userId) hshared
      change ((db.leaveVaults userId _ _).vault? v).map _ = _
      rw [hleft, h]
      simp [hkind, huserId]

/-- The shared vaults the deletion goes through: the live ones the user owns or is active in. -/
theorem mem_sharedWith_iff (hdb : TablesOk db) {vault : VaultRow} :
    vault ∈ db.sharedWith userId ↔ vault ∈ db.vaults ∧ vault.kind = .shared ∧
      vault.deletedAt = none ∧ (vault.ownerId = userId ∨ db.ActiveIn vault.vaultId userId) := by
  have hactive : vault.vaultId ∈ (db.vaultMembers.filter fun m =>
      m.userId = userId && m.status = .active).map (·.vaultId) ↔
        db.ActiveIn vault.vaultId userId := by
    simp only [List.mem_map, List.mem_filter, Bool.and_eq_true, decide_eq_true_eq]
    constructor
    · rintro ⟨m, ⟨hm, rfl, hstatus⟩, hid⟩
      exact ⟨m, hid ▸ hdb.member?_eq hm, hstatus⟩
    · rintro ⟨m, hm, hstatus⟩
      obtain ⟨hmem, hid, huser⟩ := Db.member?_mem hm
      exact ⟨m, ⟨hmem, huser, hstatus⟩, hid⟩
  simp only [Db.sharedWith, sharedVaults, List.mem_filter, Bool.and_eq_true, Bool.or_eq_true,
    decide_eq_true_eq, Option.isNone_iff_eq_none, hactive]
  constructor
  · rintro ⟨hmem, ⟨⟨hkind, hlive⟩, -⟩, hown⟩
    exact ⟨hmem, hkind, hlive, hown⟩
  · rintro ⟨hmem, hkind, hlive, hown⟩
    refine ⟨hmem, ⟨⟨hkind, hlive⟩, List.mem_map.mpr ⟨vault, List.mem_filter.mpr ⟨hmem, ?_⟩, rfl⟩⟩,
      hown⟩
    obtain hown | ⟨m, hm, -⟩ := hown
    · simp [hown]
    · simp [hm]

/-- A vault that goes with its only owner has no other active member. -/
theorem pending_of_deletedVaults
    (hsole : soleOwned (db.sharedWith userId) (activeMembers db (db.sharedWith userId)) userId = [])
    {row : VaultRow} (hrow : row ∈ db.sharedWith userId)
    (hnone : otherOwner (activeMembers db (db.sharedWith userId)) userId row.vaultId = none)
    {m : VaultMember} (hm : db.member? row.vaultId u = some m) (hu : u ≠ userId) :
    m.status = .pending := by
  cases hstatus : m.status with
  | pending => rfl
  | active =>
    obtain ⟨hmem, hid, rfl⟩ := Db.member?_mem hm
    have hothers : m ∈ (activeMembers db (db.sharedWith userId)).filter fun m =>
        m.vaultId = row.vaultId && m.userId ≠ userId := by
      refine List.mem_filter.mpr ⟨List.mem_filter.mpr ⟨hmem, ?_⟩, ?_⟩
      · simpa [hstatus, hid] using ⟨row, hrow, rfl⟩
      · simpa [hid] using hu
    -- Others are active in it, so one of them is an owner.
    refine absurd (List.filter_eq_nil_iff.mp hsole row hrow) ?_
    rw [not_not, Bool.and_eq_true, Bool.not_eq_true', Bool.not_eq_true', List.isEmpty_eq_false_iff,
      List.any_eq_false]
    refine ⟨List.ne_nil_of_mem hothers, fun other hother howner => ?_⟩
    obtain ⟨hother, hkey⟩ := List.mem_filter.mp hother
    rw [Bool.and_eq_true] at hkey
    refine List.find?_eq_none.mp hnone other (List.mem_filter.mpr ⟨hother, hkey.1⟩) ?_
    rw [Bool.and_eq_true]
    exact ⟨hkey.2, howner⟩

/-- A vault that goes: the user owns it or is active in it, and nobody else is active in it where it
is a live shared one. -/
theorem withoutAccount_gone (hdb : TablesOk db)
    (hsole : soleOwned (db.sharedWith userId) (activeMembers db (db.sharedWith userId)) userId = [])
    {row : VaultRow} (hrow : db.vault? v = some row)
    (h : (db.withoutAccount userId).vault? v = none) :
    (row.ownerId = userId ∨ db.ActiveIn v userId) ∧
      (row.kind = .shared → row.deletedAt = none → ∀ u m, u ≠ userId → db.member? v u = some m →
        m.status = .pending) := by
  have hmem : row ∈ db.vaults := List.mem_of_find?_eq_some hrow
  have hid : row.vaultId = v := by simpa using List.find?_some hrow
  subst hid
  have hgone : row.vaultId ∈ db.goneWith userId := by
    by_contra hstays
    rw [vault?_withoutAccount, if_neg hstays] at h
    have hsome := @Db.isSome_vault?_leaveVaults db userId row.vaultId
      (activeMembers db (db.sharedWith userId)) (db.sharedWith userId)
    rw [h, hrow] at hsome
    cases hsome
  have hnodup : ((db.sharedWith userId).map (·.vaultId)).Nodup :=
    hdb.vaults.sublist (List.filter_sublist.map _)
  unfold Db.goneWith at hgone
  dsimp only at hgone
  by_cases hdeleted : row.vaultId ∈
      deletedVaults (db.sharedWith userId) (activeMembers db (db.sharedWith userId)) userId
  · obtain ⟨vault, hvault, hid⟩ := List.mem_map.mp hdeleted
    obtain ⟨hshared, hnone⟩ := List.mem_filter.mp hvault
    obtain ⟨hin, -, -, hown⟩ := (mem_sharedWith_iff hdb).mp hshared
    obtain rfl : vault = row := List.inj_on_of_nodup_map hdb.vaults hin hmem hid
    exact ⟨hown, fun _ _ u m hu hm =>
      pending_of_deletedVaults hsole hshared (Option.isNone_iff_eq_none.mp hnone) hm hu⟩
  · -- The user is recorded as its owner after the loop over the shared vaults.
    obtain ⟨left, hleft, hid⟩ := List.mem_map.mp ((List.mem_append.mp hgone).resolve_left hdeleted)
    obtain ⟨hleft, howner⟩ := List.mem_filter.mp hleft
    have hleft := (List.mem_filter.mp hleft).1
    have hfound : (db.leaveVaults userId (activeMembers db (db.sharedWith userId))
        (db.sharedWith userId)).vault? row.vaultId = some left :=
      hid ▸ (hdb.leaveVaults _).vault?_eq hleft
    have hnot : row.vaultId ∉ (db.sharedWith userId).map (·.vaultId) := by
      intro hin
      obtain ⟨vault, hvault, hsame⟩ := List.mem_map.mp hin
      obtain rfl : vault = row :=
        List.inj_on_of_nodup_map hdb.vaults ((mem_sharedWith_iff hdb).mp hvault).1 hmem hsame
      rw [Db.vault?_leaveVaults_of_mem _ hnodup hvault, hrow] at hfound
      obtain rfl := Option.some.inj hfound
      unfold leftVault at howner
      split at howner
      · next hnone =>
        exact hdeleted (List.mem_map.mpr ⟨vault, List.mem_filter.mpr ⟨hvault, by rw [hnone]; rfl⟩, rfl⟩)
      · next other hother =>
        have hne := (of_otherOwner hother).2.2.2.1
        dsimp only at howner
        split at howner
        · exact hne (of_decide_eq_true howner)
        · next hnotOwner => exact hnotOwner (of_decide_eq_true howner)
    rw [Db.vault?_leaveVaults_of_not_mem _ _ hnot, hrow] at hfound
    obtain rfl := Option.some.inj hfound
    refine ⟨Or.inl (of_decide_eq_true howner), fun hkind hlive => absurd ?_ hnot⟩
    exact List.mem_map.mpr ⟨row, (mem_sharedWith_iff hdb).mpr
      ⟨hmem, hkind, hlive, Or.inl (of_decide_eq_true howner)⟩, rfl⟩

end Lookups

end Passmgr
