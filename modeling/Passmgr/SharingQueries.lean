/-
# What the server tells a member about keys

The queries behind a pull and a rotation: `keyUpdates`, `rotationsDue` and `currentPublicKeys` of
`apps/server/src/vault/access.ts`, and `members` of `apps/server/src/vault/sharing.ts`.  A join with
a table whose key it names finds at most one row.

Main definitions:

* `Db.keyLinks` — the links of a vault, oldest first;
* `Db.keyUpdates` — the newer keys sealed to a user, each with the links up to it;
* `Db.rotationsDue` — the vaults a user is to rotate;
* `Db.members` — the members of a vault, each with their current public key.

Main results:

* `mem_keyUpdates` — a user is handed one update for each of their active memberships with a seal
  whose sender has a key pair.
-/

import Passmgr.SharingTasks
import Passmgr.VaultViews

set_option relaxedAutoImplicit false
set_option autoImplicit false

namespace Passmgr

namespace Db

variable (db : Db)

/-! ### The queries -/

/-- The links of a vault, oldest first. -/
def keyLinks (vaultId : VaultId) : List VaultKeyLink :=
  (db.vaultKeyLinks.filter (·.vaultId = vaultId)).insertionSort fun a b => a.keyVersion ≤ b.keyVersion

/-- The key pair a seal was made from. -/
def sealedBy (sealed : SealedKey) : Option UserKeyPair :=
  db.userKeyPairs.find? fun pair =>
    some pair.userId = sealed.sealedByUserId && pair.keyVersion = sealed.sealedByKeyVersion

/-- The update a member is handed: the key sealed to them, its sender, and the links from the
member's key version up. -/
def keyUpdate (member : VaultMember) (sealed : SealedKey) (pair : UserKeyPair) : VaultKeyUpdate where
  vaultId := member.vaultId
  keyVersion := sealed.sealedKeyVersion
  sealedVaultKey := sealed.sealedVaultKey
  recipientKeyVersion := sealed.sealedToKeyVersion
  sender := ⟨pair.userId, ⟨pair.keyVersion, pair.publicKey⟩⟩
  links := (db.keyLinks member.vaultId).filter fun link =>
    member.keyVersion ≤ link.keyVersion && link.keyVersion < sealed.sealedKeyVersion

/-- `keyUpdates`: the newer keys sealed to the user after someone else rotated one of their vaults.
A seal whose sender's keypair is gone is left out: it can't be opened. -/
def keyUpdates (userId : UserId) : List VaultKeyUpdate :=
  (db.vaultMembers.filter (db.activeMembership userId)).filterMap fun member =>
    match member.sealedKey with
    | none => none
    | some sealed => (db.sealedBy sealed).map (db.keyUpdate member sealed)

/-- `rotationsDue`: the vaults waiting for a key rotation that this user can rotate: they manage it
and hold its current key. -/
def rotationsDue (userId : UserId) : List VaultId :=
  (db.vaultMembers.filter (db.activeMembership userId)).filterMap fun member =>
    match db.vault? member.vaultId with
    | none => none
    | some row =>
      if row.keyRotationNeeded && member.role ∈ vaultManageRoles && member.keyVersion = row.keyVersion
      then some row.vaultId
      else none

/-- `currentPublicKeys`, for one user: their public key of the highest version. -/
def currentPublicKey (userId : UserId) : Option UserPublicKey :=
  ((db.userKeyPairs.filter (·.userId = userId)).insertionSort
    fun a b => b.keyVersion ≤ a.keyVersion).head?.map fun pair => ⟨pair.keyVersion, pair.publicKey⟩

/-- `members`: the vault's members and invitees with their current public keys; a user without one
is left out. -/
def members (callerId : UserId) (vaultId : VaultId) : Except AccessError (List ListedMember) :=
  match db.requireVaultRole callerId vaultId anyRole with
  | .error e => .error e
  | .ok _ =>
    .ok <| (db.vaultMembers.filter fun m =>
        m.vaultId = vaultId && db.users.any (·.userId = m.userId)).filterMap fun m =>
      (db.currentPublicKey m.userId).map fun publicKey => ⟨m.userId, m.role, m.status, publicKey⟩

end Db

/-! ### What is handed out -/

theorem mem_keyUpdates {db : Db} {userId : UserId} {update : VaultKeyUpdate} :
    update ∈ db.keyUpdates userId ↔
      ∃ m ∈ db.vaultMembers, db.activeMembership userId m = true ∧
        ∃ sealed, m.sealedKey = some sealed ∧
          ∃ pair, db.sealedBy sealed = some pair ∧ db.keyUpdate m sealed pair = update := by
  unfold Db.keyUpdates
  rw [List.mem_filterMap]
  constructor
  · rintro ⟨m, hm, hupdate⟩
    obtain ⟨hmem, hactive⟩ := List.mem_filter.mp hm
    split at hupdate
    · cases hupdate
    next sealed hsealed =>
    obtain ⟨pair, hpair, hupdate⟩ := Option.map_eq_some_iff.mp hupdate
    exact ⟨m, hmem, hactive, sealed, hsealed, pair, hpair, hupdate⟩
  · rintro ⟨m, hmem, hactive, sealed, hsealed, pair, hpair, hupdate⟩
    refine ⟨m, List.mem_filter.mpr ⟨hmem, hactive⟩, ?_⟩
    rw [hsealed]
    dsimp only
    rw [hpair, Option.map_some, hupdate]

/-- The key pair of a seal is its sender's. -/
theorem userId_of_sealedBy {db : Db} {sealed : SealedKey} {pair : UserKeyPair}
    (h : db.sealedBy sealed = some pair) :
    pair ∈ db.userKeyPairs ∧ sealed.sealedByUserId = some pair.userId ∧
      sealed.sealedByKeyVersion = pair.keyVersion := by
  have hfound := List.find?_some h
  rw [Bool.and_eq_true, decide_eq_true_eq, decide_eq_true_eq] at hfound
  exact ⟨List.mem_of_find?_eq_some h, hfound.1.symm, hfound.2.symm⟩

/-! ### Memberships of live vaults -/

section Members

variable {db : Db} {v : VaultId} {userId : UserId} {row : VaultRow} {m : VaultMember}

theorem isLive_of_vault? (hrow : db.vault? v = some row) (hlive : row.deletedAt = none) :
    db.isLive v = true := by
  have hid := List.find?_some hrow
  refine List.any_eq_true.mpr ⟨row, List.mem_of_find?_eq_some hrow, ?_⟩
  simpa [hlive] using hid

theorem activeMembership_of_member? (hrow : db.vault? v = some row) (hlive : row.deletedAt = none)
    (hm : db.member? v userId = some m) (hactive : m.status = .active) :
    db.activeMembership userId m = true := by
  obtain ⟨-, rfl, rfl⟩ := Db.member?_mem hm
  simp [Db.activeMembership, hactive, isLive_of_vault? hrow hlive]

/-- Whoever manages a vault that waits for a rotation, and holds its key, is told to rotate it. -/
theorem mem_rotationsDue (hrow : db.vault? v = some row) (hlive : row.deletedAt = none)
    (hneeded : row.keyRotationNeeded = true) (hm : db.member? v userId = some m)
    (hactive : m.status = .active) (hmanage : m.role ∈ vaultManageRoles)
    (hheld : m.keyVersion = row.keyVersion) : v ∈ db.rotationsDue userId := by
  obtain ⟨hmem, rfl, -⟩ := Db.member?_mem hm
  have hid : row.vaultId = m.vaultId := by simpa using List.find?_some hrow
  refine List.mem_filterMap.2 ⟨m, List.mem_filter.2
    ⟨hmem, activeMembership_of_member? hrow hlive hm hactive⟩, ?_⟩
  rw [hrow]
  simp only [hneeded, hmanage, hheld, hid, decide_true, Bool.and_self, if_true]

end Members

end Passmgr
