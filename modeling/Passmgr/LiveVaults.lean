/-
# Every live vault keeps an active owner

The operations on vaults and the deletions of accounts, interleaved statement by statement.

`removeMember` reads the role of whoever removes before it locks the vault, and does not look at it
again: two owners who remove each other at the same time both succeed, and the vault is left without
one.  `leave` reads the role the same way, `declineInvite` the status, and `deleteAccount` the
vaults it locks.  Where what they read still holds when they delete a membership, every live vault
keeps an active owner.

Main results:

* `live_vaults_owned` — in every committed state, when what was read still holds at the deletes;
* `owners_remove_each_other` — without that, a live vault can lose its last owner.
-/

import Passmgr.AccountDeletion

set_option relaxedAutoImplicit false
set_option autoImplicit false

namespace Passmgr

open ReadCommitted (State Step Tx)

/-- Every operation is sound on its own. -/
theorem sound_of_vaultOp {prog : Txn} {db : Db} (h : VaultOp prog) : Sound prog id [] db := by
  cases h with
  | invite userId input => exact sound_invite userId input
  | acceptKey userId vaultId keyVersion wrap =>
      exact sound_acceptKey userId vaultId keyVersion wrap
  | declineInvite userId vaultId => exact sound_declineInvite userId vaultId
  | setMemberRole actorId vaultId userId role =>
      exact sound_setMemberRole actorId vaultId userId role
  | removeMember actorId vaultId userId => exact sound_removeMember actorId vaultId userId
  | leave userId vaultId => exact sound_leave userId vaultId
  | transferOwnership actorId vaultId userId =>
      exact sound_transferOwnership actorId vaultId userId
  | rotateKey userId input => exact sound_rotateKey userId input
  | deleteVault userId vaultId now => exact sound_deleteVault userId vaultId now
  | deleteAccount userId => exact sound_deleteAccount userId

/-- **Every live vault keeps an active owner**, in every committed state of every interleaving of
the operations in which a membership is only deleted while what was read of it before the locks
still holds. -/
theorem live_vaults_owned {db : Db} (hdb : VaultsOk db) {t : State Db RowLock}
    (h : Run.Reaches (Step VaultOp True) (State.quiet db) t) : Owned t.committed :=
  (ReadCommitted.invariant_of_ok vaultRely (fun _ _ hop _ => sound_of_vaultOp hop) hdb h).owned

/-! ### Two owners -/

/-- The rows of tables that are in order. -/
theorem vaultsOk_of_rows {db : Db}
    (hmembers : (db.vaultMembers.map fun m => (m.vaultId, m.userId)).Nodup)
    (hvaults : (db.vaults.map (·.vaultId)).Nodup)
    (hrows : ∀ m ∈ db.vaultMembers, ∃ vault ∈ db.vaults, vault.vaultId = m.vaultId ∧
      (vault.kind = .personal → m.userId = vault.ownerId))
    (howned : ∀ vault ∈ db.vaults, vault.deletedAt = none → ∃ m ∈ db.vaultMembers,
      m.vaultId = vault.vaultId ∧ m.role = .owner ∧ m.status = .active) : VaultsOk db := by
  have htables : TablesOk db := by
    refine ⟨hmembers, hvaults, fun v u hu => ?_⟩
    obtain ⟨m, hm⟩ := roleStatus_ne_none.1 hu
    obtain ⟨hmem, hv, huser⟩ := Db.member?_mem hm
    obtain ⟨vault, hvault, hid, hpersonal⟩ := hrows m hmem
    have hfound : db.vault? v = some vault := by
      cases hfind : db.vault? v with
      | none =>
          rw [Db.vault?, List.find?_eq_none] at hfind
          exact absurd (hid.trans hv) (by simpa using hfind vault hvault)
      | some vault' =>
          have hid' : vault'.vaultId = v := by simpa using List.find?_some hfind
          rw [List.inj_on_of_nodup_map hvaults (List.mem_of_find?_eq_some hfind) hvault
            (by rw [hid', hid, hv])]
    refine ⟨_, by rw [Db.personalOf, hfound, Option.map_some], fun owner howner => ?_⟩
    split at howner
    · next hkind => rw [← huser, hpersonal hkind, Option.some.inj howner]
    · cases howner
  refine ⟨htables, fun v hlive => ?_⟩
  simp only [Db.isLive, List.any_eq_true, Bool.and_eq_true, decide_eq_true_eq,
    Option.isNone_iff_eq_none] at hlive
  obtain ⟨vault, hvault, hid, hdel⟩ := hlive
  obtain ⟨m, hm, hmv, hrole, hstatus⟩ := howned vault hvault hdel
  exact ⟨m.userId, m, by rw [← hid, ← hmv]; exact htables.member?_eq hm, hrole, hstatus⟩

/-- A shared vault with two owners. -/
def twoOwners : Db :=
  { registeredDb 7 2 with
    vaults := [newVault 1 7 .shared [] []]
    vaultMembers := [
      ownerMembership 1 7 1 { encryptedVaultKey := [], vaultKeyEncryptionNonce := [] },
      ownerMembership 1 8 1 { encryptedVaultKey := [], vaultKeyEncryptionNonce := [] }] }

theorem vaultsOk_twoOwners : VaultsOk twoOwners :=
  vaultsOk_of_rows (by decide) (by decide) (by decide) (by decide)

/-- An owner who removes the other one keeps the vault. -/
theorem live_vaults_owned_removeMember :
    ∃ t, Run.Reaches (Step VaultOp True) (State.quiet twoOwners) t ∧
      t.committed.vaultMembers.map (·.userId) = [7] ∧ Owned t.committed := by
  have hexpects : (removeMember 7 1 8).AsExpected id twoOwners :=
    And.intro trivial <| And.intro trivial <| And.intro trivial <|
      And.intro (fun _ => ⟨_, rfl, rfl, rfl⟩) <| And.intro trivial trivial
  obtain ⟨db, hdb, hmembers⟩ : ∃ db, (removeMember 7 1 8).alone id twoOwners = some db ∧
      db.vaultMembers.map (·.userId) = [7] := ⟨_, rfl, by decide⟩
  have hrun : Run.Reaches (Step VaultOp True) (State.quiet twoOwners) _ :=
    ReadCommitted.reaches_start_alone 0 rfl (.removeMember 7 1 8) (fun _ _ h => by cases h)
      (fun _ => hexpects) hdb
  exact ⟨_, hrun, hmembers, live_vaults_owned vaultsOk_twoOwners hrun⟩

/-- **Two owners who remove each other** leave the vault without a member: each of them read their
own role before the other one removed them. -/
theorem owners_remove_each_other : VaultsOk twoOwners ∧
    ∃ t, Run.Reaches (Step VaultOp False) (State.quiet twoOwners) t ∧
      t.committed.vaultMembers = [] ∧ t.committed.isLive 1 = true ∧ ¬Owned t.committed := by
  obtain ⟨next, db₁, db₂, hread, hdb₁, hdb₂, hmembers, hlive⟩ :
      ∃ next db₁ db₂, removeMember 8 1 7 = .read next ∧
        (removeMember 7 1 8).alone id twoOwners = some db₁ ∧
        (next twoOwners).alone id db₁ = some db₂ ∧ db₂.vaultMembers = [] ∧
        db₂.isLive 1 = true := ⟨_, _, _, rfl, rfl, rfl, rfl, rfl⟩
  -- the second owner reads their role, the first removes them, the second goes on
  let waiting : State Db RowLock := (State.quiet twoOwners).set 1
    (some { prog := next twoOwners, pending := id, held := [] })
  have hstart : Step VaultOp False (State.quiet twoOwners)
      ((State.quiet twoOwners).set 1 (some (Tx.new (removeMember 8 1 7)))) :=
    .start 1 _ rfl (.removeMember 8 1 7)
  have hexec : Step VaultOp False
      ((State.quiet twoOwners).set 1 (some (Tx.new (removeMember 8 1 7)))) waiting := by
    have hstep : Step VaultOp False _ _ := .exec 1 (Tx.new (removeMember 8 1 7)) _ _ _ next
      ((State.quiet twoOwners).txs_set_self 1 _) hread (fun _ _ _ _ l hl => by cases hl) False.elim
    rw [State.set_set] at hstep
    exact hstep
  have hheld : ∀ j tx, waiting.txs j = some tx → tx.held = [] := by
    intro j tx hj
    by_cases h1 : j = 1
    · subst h1
      rw [State.txs_set_self] at hj
      rw [← Option.some.inj hj]
    · simp only [waiting, State.set, Function.update_of_ne h1, State.quiet] at hj
      cases hj
  have hfirst : Run.Reaches (Step VaultOp False) waiting { waiting with committed := db₁ } :=
    ReadCommitted.reaches_start_alone 0 rfl (.removeMember 7 1 8) hheld False.elim hdb₁
  have hsecond : Run.Reaches (Step VaultOp False) { waiting with committed := db₁ } _ :=
    ReadCommitted.reaches_alone (i := 1) ((State.quiet twoOwners).txs_set_self 1
      (some { prog := next twoOwners, pending := id, held := [] }))
      (fun j tx _ => hheld j tx) False.elim hdb₂
  refine ⟨vaultsOk_twoOwners, _, (Relation.ReflTransGen.head hstart (.head hexec hfirst)).trans
    hsecond, hmembers, hlive, fun howned => ?_⟩
  obtain ⟨u, m, hm, -⟩ := howned 1 hlive
  rw [Db.member?, hmembers] at hm
  cases hm

end Passmgr
