/-
# What each vault operation does on its own

The operations of `VaultOps.lean`, run with nothing in between: what a call that commits found, and
the tables it leaves.  Each operation has one lemma, from which everything about sequences of
operations follows.

Main definitions:

* `Db.markRotation` — a vault marked as needing a rotation;
* `resealed`, `rotated` — the members and the tables after a rotation.

Main results:

* `of_invite`, `of_acceptKey`, `of_declineInvite`, `of_setMemberRole`, `of_removeMember`,
  `of_leave`, `of_transferOwnership`, `of_rotateKey`, `of_deleteVault` — the checks a committed
  operation passed, and its effect.
-/

import Passmgr.VaultViews

set_option relaxedAutoImplicit false
set_option autoImplicit false

namespace Passmgr

open ReadCommitted (Prog)
open ReadCommitted.Prog (exec_stmt)

/-! ### Statements -/

section Statements

variable {db : Db} {v : VaultId} {u : UserId}

/-- A vault that isn't there isn't changed. -/
theorem Db.setVault_of_none (f : VaultRow → VaultRow) (h : db.vault? v = none) :
    db.setVault v f = db := by
  have hrows : updateVault v f db.vaults = db.vaults := by
    refine (List.map_congr_left fun row hrow => if_neg fun hid => ?_).trans (List.map_id _)
    exact absurd (decide_eq_true hid) (List.find?_eq_none.mp h row hrow)
  simp [Db.setVault, hrows]

/-- A member that isn't there isn't changed. -/
theorem Db.setMember_of_none (f : VaultMember → VaultMember) (h : db.member? v u = none) :
    db.setMember v u f = db := by
  have hrows : (db.vaultMembers.map fun m => if m.vaultId = v ∧ m.userId = u then f m else m)
      = db.vaultMembers := by
    refine (List.map_congr_left fun m hm => if_neg fun hkey => ?_).trans (List.map_id _)
    exact absurd (by simp [hkey.1, hkey.2]) (List.find?_eq_none.mp h m hm)
  simp [Db.setMember, hrows]

/-- A member that isn't there isn't deleted. -/
theorem Db.deleteMembers_of_none (h : db.member? v u = none) :
    (db.deleteMembers fun m => m.vaultId = v && m.userId = u) = db := by
  have hrows : (db.vaultMembers.filter fun m => !(m.vaultId = v && m.userId = u : Bool))
      = db.vaultMembers :=
    List.filter_eq_self.mpr fun m hm => by
      have hkey := List.find?_eq_none.mp h m hm
      simp only [Bool.and_eq_true, decide_eq_true_eq] at hkey
      simp only [Bool.not_eq_true', Bool.and_eq_false_iff, decide_eq_false_iff_not]
      exact not_and_or.mp hkey
  simp only [Db.deleteMembers, hrows]

/-- A vault is marked as needing a rotation. -/
def Db.markRotation (v : VaultId) (db : Db) : Db :=
  db.setVault v fun row => { row with keyRotationNeeded := true }

theorem exec_updateVaultWhere (p : VaultRow → Bool) (f : VaultRow → VaultRow) (next : Bool → Txn) :
    (updateVaultWhere v p f next).exec db = (next ((db.vault? v).any p)).exec
      (if (db.vault? v).any p then db.setVault v f else db) := by
  unfold updateVaultWhere
  rw [exec_stmt]
  congr 1
  split <;> rfl

/-- A membership row is changed where `p` holds of it. -/
def Db.updateMember (v : VaultId) (u : UserId) (p : VaultMember → Bool)
    (f : VaultMember → VaultMember) (db : Db) : Db :=
  if (db.member? v u).any p then db.setMember v u f else db

theorem Db.member?_updateMember {p : VaultMember → Bool} {f : VaultMember → VaultMember}
    (hkey : ∀ m, (f m).vaultId = m.vaultId ∧ (f m).userId = m.userId) (vaultId : VaultId)
    (userId : UserId) :
    (db.updateMember v u p f).member? vaultId userId =
      if vaultId = v ∧ userId = u then (db.member? v u).map fun m => if p m then f m else m
      else db.member? vaultId userId := by
  unfold Db.updateMember
  split
  · next hp =>
    rw [Db.member?_setMember hkey]
    obtain ⟨m, hm, hpm⟩ := (Option.any_eq_true _ _).mp hp
    split
    · simp [hm, hpm]
    · rfl
  · next hp =>
    split
    · next heq =>
      obtain ⟨rfl, rfl⟩ := heq
      cases hm : db.member? vaultId userId with
      | none => rfl
      | some m =>
        rw [hm, Option.any_some] at hp
        simp [hp]
    · rfl

theorem exec_updateMemberWhere (p : VaultMember → Bool) (f : VaultMember → VaultMember)
    (next : Bool → Txn) :
    (updateMemberWhere v u p f next).exec db
      = (next ((db.member? v u).any p)).exec (db.updateMember v u p f) := by
  unfold updateMemberWhere Db.updateMember
  rw [exec_stmt]
  congr 1
  split <;> rfl

/-- An update of a membership row whatever it is. -/
theorem exec_updateMember (f : VaultMember → VaultMember) (next : Txn) :
    (updateMemberWhere v u (fun _ => true) f fun _ => next).exec db
      = next.exec (db.setMember v u f) := by
  rw [exec_updateMemberWhere, Db.updateMember]
  cases h : db.member? v u with
  | none => simp [Db.setMember_of_none f h]
  | some m => simp

theorem exec_updateVault (f : VaultRow → VaultRow) (next : Txn) :
    (updateVaultWhere v (fun _ => true) f fun _ => next).exec db = next.exec (db.setVault v f) := by
  rw [exec_updateVaultWhere]
  cases h : db.vault? v with
  | none => simp [Db.setVault_of_none f h]
  | some row => simp

theorem exec_requireRotation (next : Txn) :
    (requireRotation v next).exec db = next.exec (db.markRotation v) :=
  exec_updateVault _ next

theorem exec_lockVault (next : Txn) : (lockVault v next).exec db = next.exec db :=
  Prog.exec_lock _ _ _

theorem exec_deleteMemberRow (expects : Db → Prop) (next : Txn) :
    (deleteMemberRow expects v u next).exec db
      = next.exec (db.deleteMembers fun m => m.vaultId = v && m.userId = u) := by
  unfold deleteMemberRow
  rw [exec_stmt]
  cases h : db.member? v u with
  | none => simp [Db.deleteMembers_of_none h]
  | some m => simp

theorem exec_insertMemberRow (member : VaultMember) (next : Txn) :
    (insertMemberRow member next).exec db
      = if (db.member? member.vaultId member.userId).isSome then none
        else next.exec { db with vaultMembers := db.vaultMembers ++ [member] } := by
  unfold insertMemberRow
  rw [exec_stmt]
  cases h : db.member? member.vaultId member.userId with
  | none => simp [Db.insertMember, h]
  | some m => simp

end Statements

/-! ### Sharing -/

section Sharing

variable {db db' : Db} {actorId userId : UserId} {vaultId : VaultId}

/-- `ownMembership` finds a row of a vault that is not deleted. -/
theorem ownMembership_eq_some {own : Db.OwnMembership}
    (h : db.ownMembership userId vaultId = some own) :
    ∃ m row, db.member? vaultId userId = some m ∧ db.vault? vaultId = some row ∧
      row.deletedAt = none ∧ own.role = m.role ∧ own.status = m.status ∧ own.kind = row.kind := by
  unfold Db.ownMembership at h
  split at h
  case h_1 m row hm hrow =>
    split at h
    · next hlive =>
      obtain rfl := Option.some.inj h
      exact ⟨m, row, hm, hrow, Option.isNone_iff_eq_none.mp hlive, rfl, rfl, rfl⟩
    · cases h
  case h_2 => cases h

/-- What an invite checked, and the row it inserted. -/
theorem of_invite {input : InviteInput} (h : (invite userId input).exec db = some db') :
    ∃ m row invitee, db.member? input.vaultId userId = some m ∧ m.status = .active ∧
      canAssignRole m.role .manage = true ∧ canAssignRole m.role input.role = true ∧
      db.vault? input.vaultId = some row ∧ row.deletedAt = none ∧ row.kind = .shared ∧
      row.keyVersion = input.keyVersion ∧ invitee ∈ db.users ∧
      invitee.emailHash = input.emailHash ∧ invitee.userId ≠ userId ∧
      db.currentKeyPairVersion invitee.userId = some input.recipientKeyVersion ∧
      db.currentKeyPairVersion userId = some input.senderKeyVersion ∧
      db.member? input.vaultId invitee.userId = none ∧
      db' = { db with
        vaultMembers := db.vaultMembers ++ [invitedMember userId invitee.userId input] } := by
  unfold invite at h
  rw [Prog.exec_read] at h
  split at h
  · cases h
  next own hown =>
  obtain ⟨m, row, hm, hrow, hlive, hrole, hstatus, hkind⟩ := ownMembership_eq_some hown
  split at h
  · cases h
  next hactive =>
  split at h
  · cases h
  next hassign =>
  split at h
  · cases h
  next hshared =>
  rw [exec_lockVault, Prog.exec_read] at h
  split at h
  · cases h
  next hversion =>
  rw [Prog.exec_read] at h
  split at h
  · cases h
  next invitee hinvitee =>
  split at h
  · cases h
  next hself =>
  rw [Prog.exec_read] at h
  split at h
  · cases h
  next hpairs =>
  rw [Prog.exec_read] at h
  split at h
  · cases h
  rw [exec_insertMemberRow] at h
  split at h
  · cases h
  next hnew =>
  simp only [Bool.or_eq_true, Bool.not_eq_true', not_or, Bool.not_eq_false] at hassign
  simp only [not_or, not_not] at hpairs
  have hemail := List.find?_some hinvitee
  simp only [Bool.and_eq_true, decide_eq_true_eq] at hemail
  refine ⟨m, row, invitee, hm, hstatus ▸ not_not.mp hactive, hrole ▸ hassign.1, hrole ▸ hassign.2,
    hrow, hlive, hkind ▸ not_not.mp hshared, ?_, List.mem_of_find?_eq_some hinvitee, hemail.1.1,
    hself, hpairs.1, hpairs.2, Option.not_isSome_iff_eq_none.mp hnew, (Option.some.inj h).symm⟩
  rw [hrow] at hversion
  simpa using hversion

/-- What an acceptance found sealed, and the row it leaves. -/
theorem of_acceptKey {keyVersion : ℕ} {wrap : WrappedKey}
    (h : (acceptKey userId vaultId keyVersion wrap).exec db = some db') :
    ∃ m row sealed, db.member? vaultId userId = some m ∧ db.vault? vaultId = some row ∧
      row.deletedAt = none ∧ m.sealedKey = some sealed ∧ sealed.sealedKeyVersion = keyVersion ∧
      db' = db.setMember vaultId userId (acceptedMember keyVersion wrap) := by
  unfold acceptKey at h
  rw [Prog.exec_read] at h
  split at h
  · cases h
  next own hown =>
  obtain ⟨m, row, hm, hrow, hlive, -⟩ := ownMembership_eq_some hown
  rw [exec_updateMemberWhere, Db.updateMember, hm, Option.any_some] at h
  split at h
  · next haccepted =>
    obtain ⟨sealed, hsealed, hversion⟩ := Option.map_eq_some_iff.mp (of_decide_eq_true haccepted)
    exact ⟨m, row, sealed, hm, hrow, hlive, hsealed, hversion, (Option.some.inj h).symm⟩
  · cases h

/-- A declined invite is gone, and the vault marked. -/
theorem of_declineInvite (h : (declineInvite userId vaultId).exec db = some db') :
    ∃ m row, db.member? vaultId userId = some m ∧ m.status = .pending ∧
      db.vault? vaultId = some row ∧ row.deletedAt = none ∧
      db' = (db.deleteMembers fun m => m.vaultId = vaultId && m.userId = userId).markRotation
        vaultId := by
  unfold declineInvite at h
  rw [Prog.exec_read] at h
  split at h
  · cases h
  next own hown =>
  obtain ⟨m, row, hm, hrow, hlive, -, hstatus, -⟩ := ownMembership_eq_some hown
  split at h
  · cases h
  next hpending =>
  rw [exec_deleteMemberRow, exec_requireRotation] at h
  exact ⟨m, row, hm, hstatus ▸ not_not.mp hpending, hrow, hlive, (Option.some.inj h).symm⟩

/-- A role that was required is that of an active member of a live vault. -/
theorem requireVaultRole_eq_ok (hdb : TablesOk db) {allowed : List VaultRole} {role : VaultRole}
    (h : db.requireVaultRole userId vaultId allowed = .ok role) :
    ∃ m row, db.member? vaultId userId = some m ∧ m.status = .active ∧ m.role = role ∧
      role ∈ allowed ∧ db.vault? vaultId = some row ∧ row.deletedAt = none := by
  unfold Db.requireVaultRole at h
  split at h
  · cases h
  next m hm =>
  split at h
  case isFalse => cases h
  next hallowed =>
  obtain rfl := Except.ok.inj h
  have hfound := List.find?_some hm
  simp only [Db.activeMembership, Bool.and_eq_true, decide_eq_true_eq, Db.isLive,
    List.any_eq_true] at hfound
  obtain ⟨rfl, ⟨rfl, hactive⟩, row, hrow, hid, hlive⟩ := hfound
  exact ⟨m, row, hdb.member?_eq (List.mem_of_find?_eq_some hm), hactive, rfl, hallowed,
    hid ▸ hdb.vault?_eq hrow, Option.isNone_iff_eq_none.mp hlive⟩

/-- Who changed a role, whose, and that another owner is left. -/
theorem of_setMemberRole (hdb : TablesOk db) {role : VaultRole}
    (h : (setMemberRole actorId vaultId userId role).exec db = some db') :
    ∃ actor target row, db.member? vaultId actorId = some actor ∧ actor.status = .active ∧
      actor.role ∈ vaultManageRoles ∧ db.vault? vaultId = some row ∧ row.deletedAt = none ∧
      db.member? vaultId userId = some target ∧ canAssignRole actor.role target.role = true ∧
      canAssignRole actor.role role = true ∧
      (target.role = .owner → target.status = .active → role ≠ .owner →
        1 < db.activeOwners vaultId) ∧
      db' = db.setMember vaultId userId fun m => { m with role := role } := by
  unfold setMemberRole at h
  rw [Prog.exec_read] at h
  split at h
  · cases h
  next actorRole hactor =>
  obtain ⟨actor, row, hm, hactive, rfl, hmanage, hrow, hlive⟩ := requireVaultRole_eq_ok hdb hactor
  rw [exec_lockVault, Prog.exec_read] at h
  split at h
  · cases h
  next target htarget =>
  split at h
  · cases h
  next hassign =>
  simp only [Bool.or_eq_true, Bool.not_eq_true', not_or, Bool.not_eq_false] at hassign
  split at h
  · rw [Prog.exec_read] at h
    split at h
    · cases h
    next howners =>
    rw [exec_updateMember] at h
    exact ⟨actor, target, row, hm, hactive, hmanage, hrow, hlive, htarget, hassign.1, hassign.2,
      fun _ _ _ => not_le.mp howners, (Option.some.inj h).symm⟩
  · next hkeeps =>
    rw [exec_updateMember] at h
    exact ⟨actor, target, row, hm, hactive, hmanage, hrow, hlive, htarget, hassign.1, hassign.2,
      fun howner hstatus hrole => absurd ⟨howner, hstatus, hrole⟩ hkeeps,
      (Option.some.inj h).symm⟩

/-- Who removed a member, whom, and the mark. -/
theorem of_removeMember (hdb : TablesOk db)
    (h : (removeMember actorId vaultId userId).exec db = some db') :
    ∃ actor target row, userId ≠ actorId ∧ db.member? vaultId actorId = some actor ∧
      actor.status = .active ∧ actor.role ∈ vaultManageRoles ∧ db.vault? vaultId = some row ∧
      row.deletedAt = none ∧ db.member? vaultId userId = some target ∧
      canAssignRole actor.role target.role = true ∧
      db' = (db.deleteMembers fun m => m.vaultId = vaultId && m.userId = userId).markRotation
        vaultId := by
  unfold removeMember at h
  split at h
  · cases h
  next hother =>
  rw [Prog.exec_read] at h
  split at h
  · cases h
  next actorRole hactor =>
  obtain ⟨actor, row, hm, hactive, rfl, hmanage, hrow, hlive⟩ := requireVaultRole_eq_ok hdb hactor
  rw [exec_lockVault, Prog.exec_read] at h
  split at h
  · cases h
  next target htarget =>
  split at h
  · cases h
  next hassign =>
  rw [exec_deleteMemberRow, exec_requireRotation] at h
  exact ⟨actor, target, row, hother, hm, hactive, hmanage, hrow, hlive, htarget,
    by simpa using hassign, (Option.some.inj h).symm⟩

/-- Who left, and the mark. -/
theorem of_leave (h : (leave userId vaultId).exec db = some db') :
    ∃ m row, db.member? vaultId userId = some m ∧ m.status = .active ∧
      db.vault? vaultId = some row ∧ row.deletedAt = none ∧ row.kind = .shared ∧
      (m.role = .owner → 1 < db.activeOwners vaultId) ∧
      db' = (db.deleteMembers fun m => m.vaultId = vaultId && m.userId = userId).markRotation
        vaultId := by
  unfold leave at h
  rw [Prog.exec_read] at h
  split at h
  · cases h
  next own hown =>
  obtain ⟨m, row, hm, hrow, hlive, hrole, hstatus, hkind⟩ := ownMembership_eq_some hown
  split at h
  · cases h
  next hactive =>
  split at h
  · cases h
  next hshared =>
  rw [exec_lockVault] at h
  split at h
  · rw [Prog.exec_read] at h
    split at h
    · cases h
    next howners =>
    rw [exec_deleteMemberRow, exec_requireRotation] at h
    exact ⟨m, row, hm, hstatus ▸ not_not.mp hactive, hrow, hlive, hkind ▸ not_not.mp hshared,
      fun _ => not_le.mp howners, (Option.some.inj h).symm⟩
  · next howner =>
    rw [exec_deleteMemberRow, exec_requireRotation] at h
    exact ⟨m, row, hm, hstatus ▸ not_not.mp hactive, hrow, hlive, hkind ▸ not_not.mp hshared,
      fun h => absurd (hrole.trans h) howner, (Option.some.inj h).symm⟩

/-- Whom an owner handed the vault to: both stay, the owner as a manager. -/
theorem of_transferOwnership (h : (transferOwnership actorId vaultId userId).exec db = some db') :
    ∃ actor target row, userId ≠ actorId ∧ db.member? vaultId actorId = some actor ∧
      actor.status = .active ∧ actor.role = .owner ∧ db.vault? vaultId = some row ∧
      row.deletedAt = none ∧ row.kind = .shared ∧ db.member? vaultId userId = some target ∧
      target.status = .active ∧
      db' = ((db.setMember vaultId userId fun m => { m with role := .owner }).setMember vaultId
        actorId fun m => { m with role := .manage }).setVault vaultId
          fun row => { row with ownerId := userId } := by
  unfold transferOwnership at h
  split at h
  · cases h
  next hother =>
  rw [Prog.exec_read] at h
  split at h
  · cases h
  next own hown =>
  obtain ⟨actor, row, hm, hrow, hlive, hrole, hstatus, hkind⟩ := ownMembership_eq_some hown
  split at h
  · cases h
  next hactive =>
  split at h
  · cases h
  next howner =>
  rw [not_or, not_not, not_not] at howner
  rw [exec_lockVault, Prog.exec_read] at h
  split at h
  · cases h
  next target htarget =>
  split at h
  · cases h
  next htargetActive =>
  have hshared : row.kind = .shared := hkind ▸ howner.2
  have hvault : ∀ f g : VaultMember → VaultMember,
      (((db.setMember vaultId userId f).setMember vaultId actorId g).vault? vaultId).any
        (fun v => v.kind ≠ .personal) = true := by
    intro f g
    rw [show ((db.setMember vaultId userId f).setMember vaultId actorId g).vault? vaultId
      = db.vault? vaultId from rfl, hrow]
    simp [hshared]
  rw [exec_updateMember, exec_updateMember, exec_updateVaultWhere, if_pos (hvault _ _)] at h
  exact ⟨actor, target, row, hother, hm, hstatus ▸ not_not.mp hactive, hrole ▸ howner.1, hrow,
    hlive, hshared, htarget, not_not.mp htargetActive, (Option.some.inj h).symm⟩

end Sharing

/-! ### Keys and deletion -/

section Keys

variable {db db' : Db} {userId : UserId} {vaultId : VaultId}

/-- The key a rotation seals to a member. -/
def RotateKeyInput.sealed (input : RotateKeyInput) (senderId : UserId) (seal_ : MemberKeySeal) :
    SealedKey where
  sealedVaultKey := seal_.sealedVaultKey
  sealedKeyVersion := input.keyVersion
  sealedToKeyVersion := seal_.recipientKeyVersion
  sealedByUserId := some senderId
  sealedByKeyVersion := input.senderKeyVersion

/-- A member a rotation seals its key to. -/
def resealedMember (senderId : UserId) (input : RotateKeyInput) (seal_ : MemberKeySeal)
    (m : VaultMember) : VaultMember :=
  { m with
    sealedKey := some (input.sealed senderId seal_)
    keyVersion := if m.status = .pending then input.keyVersion else m.keyVersion }

/-- One seal of a rotation: the update of an active row, then that of a pending one. -/
def Db.reseal (senderId : UserId) (input : RotateKeyInput) (seal_ : MemberKeySeal) (db : Db) : Db :=
  (db.updateMember input.vaultId seal_.userId (·.status = .active) fun m =>
    { m with sealedKey := some (input.sealed senderId seal_) }).updateMember
      input.vaultId seal_.userId (·.status = .pending) fun m =>
        { m with sealedKey := some (input.sealed senderId seal_), keyVersion := input.keyVersion }

theorem exec_resealAll (senderId : UserId) (input : RotateKeyInput) (seals : List MemberKeySeal) :
    (resealAll senderId input seals).exec db
      = some (seals.foldl (fun db seal_ => db.reseal senderId input seal_) db) := by
  induction seals generalizing db with
  | nil => rfl
  | cons seal_ rest ih =>
    unfold resealAll
    dsimp only
    rw [exec_updateMemberWhere, exec_updateMemberWhere, ih]
    rfl

/-- The row of a vault at its next key. -/
def RotateKeyInput.rekey (input : RotateKeyInput) (v : VaultRow) : VaultRow :=
  { v with
    keyVersion := input.keyVersion
    keyRotationNeeded := false
    encryptedMeta := input.encryptedMeta
    metaEncryptionNonce := input.metaEncryptionNonce }

/-- The membership of whoever rotates, with their wrap of the next key. -/
def RotateKeyInput.rewrap (input : RotateKeyInput) (m : VaultMember) : VaultMember :=
  { m with keyVersion := input.keyVersion, wrap := some input.wrap }

/-- The link a rotation stores. -/
def RotateKeyInput.link (input : RotateKeyInput) : VaultKeyLink :=
  { input.previousKey with vaultId := input.vaultId }

/-- A vault at its next key, with the link to the one before. -/
def Db.rekeyed (input : RotateKeyInput) (db : Db) : Db :=
  { db.setVault input.vaultId input.rekey with
    vaultKeyLinks := db.vaultKeyLinks ++ [input.link] }

/-- The tables after a rotation, but for the seals. -/
def Db.rotated (senderId : UserId) (input : RotateKeyInput) (db : Db) : Db :=
  (db.rekeyed input).setMember input.vaultId senderId input.rewrap

/-- What a rotation checked, and the tables it leaves. -/
theorem of_rotateKey (hdb : TablesOk db) {input : RotateKeyInput}
    (h : (rotateKey userId input).exec db = some db') :
    ∃ m row, db.member? input.vaultId userId = some m ∧ m.status = .active ∧
      m.role ∈ vaultManageRoles ∧ m.keyVersion = input.keyVersion - 1 ∧
      db.vault? input.vaultId = some row ∧ row.deletedAt = none ∧
      row.keyVersion = input.keyVersion - 1 ∧
      sealsMembers db userId (((db.vaultMembers.filter (·.vaultId = input.vaultId)).filter
        (·.userId ≠ userId)).map (·.userId)) input = true ∧
      db' = input.memberKeys.foldl (fun db seal_ => db.reseal userId input seal_)
        (db.rotated userId input) := by
  unfold rotateKey at h
  rw [Prog.exec_read] at h
  split at h
  · cases h
  next actorRole hactor =>
  obtain ⟨m, row, hm, hactive, rfl, hmanage, hrow, hlive⟩ := requireVaultRole_eq_ok hdb hactor
  rw [exec_lockVault, Prog.exec_read] at h
  dsimp only at h
  split at h
  · cases h
  next hheld =>
  rw [Prog.exec_read] at h
  split at h
  · cases h
  next hseals =>
  rw [exec_updateVaultWhere, hrow, Option.any_some] at h
  split at h
  · cases h
  next hversion =>
  rw [Bool.not_eq_true', Bool.not_eq_false] at hversion
  rw [if_pos hversion, Prog.exec_write, exec_updateMember, exec_resealAll] at h
  simp only [Bool.and_eq_true, decide_eq_true_eq] at hversion
  refine ⟨m, row, hm, hactive, hmanage, ?_, hrow, hlive, hversion.1, by simpa using hseals,
    (Option.some.inj h).symm⟩
  -- The row among the vault's members is the user's.
  simp only [List.find?_filter, Bool.decide_and, Bool.decide_eq_true] at hheld
  rw [show List.find? _ db.vaultMembers = some m from hm] at hheld
  simpa using hheld

/-- Who deleted a vault. -/
theorem of_deleteVault (hdb : TablesOk db) {now : Time}
    (h : (deleteVault userId vaultId now).exec db = some db') :
    ∃ m row, db.member? vaultId userId = some m ∧ m.status = .active ∧ m.role = .owner ∧
      db.vault? vaultId = some row ∧ row.deletedAt = none ∧ row.kind = .shared ∧
      db' = db.setVault vaultId fun row => { row with deletedAt := some now } := by
  unfold deleteVault at h
  rw [Prog.exec_read] at h
  split at h
  · cases h
  next actorRole hactor =>
  obtain ⟨m, row, hm, hactive, rfl, howner, hrow, hlive⟩ := requireVaultRole_eq_ok hdb hactor
  rw [exec_updateVaultWhere, hrow, Option.any_some] at h
  split at h
  case isFalse => cases h
  next hshared =>
  exact ⟨m, row, hm, hactive, by simpa using howner, hrow, hlive, by simpa using hshared,
    (Option.some.inj h).symm⟩

end Keys

end Passmgr
