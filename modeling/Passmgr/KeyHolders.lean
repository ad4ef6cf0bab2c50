/-
# Whoever can rotate a vault

A vault can be rotated by an active manager who holds its current key.  Whoever rotates holds the
next key while everybody else waits for it; a seal is only accepted while its sender manages the
vault.  So a vault stays rotatable as long as no operation takes the last manager who holds its key.

Main definitions:

* `Db.CanMoveOn` — a member who holds the current key, or can accept it, and manages the vault;
* `VaultView.Holds` — who manages a vault and holds its current key;
* `HolderStays` — no operation takes the last one of them;
* `Operation.Honest` — what honest devices send.

Main results:

* `VaultView.Held.step` — what a change of a vault keeps of it;
* `rotatable` — a live vault can be rotated after every run without such an operation;
* `exists_rotationDue` — and where it waits for one, somebody is told to;
* `rotatable_fails` — and not after one.
-/

import Passmgr.HandedKeys
import Passmgr.SharingQueries

set_option relaxedAutoImplicit false
set_option autoImplicit false

namespace Passmgr

/-! ### Who can move on -/

/-- The user's device is handed the key of the vault, sealed to it by somebody the server lists as
one who may hand it out. -/
def Db.CanAccept (db : Db) (v : VaultId) (userId : UserId) (keyVersion : ℕ) : Prop :=
  ∃ update ∈ db.keyUpdates userId, update.vaultId = v ∧ update.keyVersion = keyVersion ∧
    ∃ listed, db.members userId v = .ok listed ∧ listedAsManager update.sender listed = true

/-- An active member who manages the vault, and holds its current key or can accept it. -/
def Db.CanMoveOn (db : Db) (v : VaultId) (userId : UserId) : Prop :=
  ∃ row m, db.vault? v = some row ∧ db.member? v userId = some m ∧ m.status = .active ∧
    m.role ∈ vaultManageRoles ∧
    (m.wrap.isSome ∧ m.keyVersion = row.keyVersion ∨ db.CanAccept v userId row.keyVersion)

/-- Every vault that is not deleted has a member who can move on. -/
def Rotatable (db : Db) : Prop :=
  ∀ v row, db.vault? v = some row → row.deletedAt = none → ∃ userId, db.CanMoveOn v userId

/-- An active manager who holds the current key. -/
def VaultView.Holds (w : VaultView) (userId : UserId) : Prop :=
  ∃ row m, w.row = some row ∧ w.member userId = some m ∧ m.status = .active ∧
    m.role ∈ vaultManageRoles ∧ m.keyVersion = row.keyVersion

/-- One besides a user. -/
def VaultView.OtherHolder (w : VaultView) (userId : UserId) : Prop :=
  ∃ u, u ≠ userId ∧ w.Holds u

/-- An active member besides a user. -/
def VaultView.OtherActive (w : VaultView) (userId : UserId) : Prop :=
  ∃ u m, u ≠ userId ∧ w.member u = some m ∧ m.status = .active

/-- The operation doesn't take the last active manager who holds the current key: not their role,
not their membership, and not their account while somebody else is active in the vault. -/
def HolderStays (op : Operation) (db : Db) : Prop :=
  match op with
  | .setMemberRole _ v userId role => role ∉ vaultManageRoles → (db.view v).Holds userId →
      (db.view v).OtherHolder userId
  | .removeMember _ v userId => (db.view v).Holds userId → (db.view v).OtherHolder userId
  | .leave userId v => (db.view v).Holds userId → (db.view v).OtherHolder userId
  | .deleteAccount userId => ∀ v, (db.view v).OtherActive userId → (db.view v).Holds userId →
      (db.view v).OtherHolder userId
  | _ => True

/-- What honest devices send: an invite seals the key its sender holds, and an active member accepts
only a key that was sealed by somebody who may hand it out. -/
def Operation.Honest (op : Operation) (db : Db) : Prop :=
  match op with
  | .invite userId input => ∀ m, db.member? input.vaultId userId = some m →
      m.keyVersion = input.keyVersion
  | .acceptKey userId v keyVersion _ => ∀ m, db.member? v userId = some m → m.status = .active →
      db.CanAccept v userId keyVersion
  | _ => True

/-! ### One vault -/

/-- Somebody manages the vault and holds its current key, unless it is deleted. -/
def VaultView.Held (w : VaultView) : Prop :=
  ∀ row, w.row = some row → row.deletedAt = none → ∃ u, w.Holds u

theorem owner_manages : VaultRole.owner ∈ vaultManageRoles := by decide

theorem manage_manages : VaultRole.manage ∈ vaultManageRoles := by decide

namespace VaultView

variable {v : VaultId} {op : Operation} {w w' : VaultView}

/-- Whoever holds the key still does when neither the key nor their membership changes. -/
theorem Holds.of_same {u : UserId} (h : w.Holds u) {row row' : VaultRow} (hrow : w.row = some row)
    (hrow' : w'.row = some row') (hversion : row'.keyVersion = row.keyVersion)
    (hmember : ∀ m, w.member u = some m → m.status = .active → m.role ∈ vaultManageRoles →
      ∃ m', w'.member u = some m' ∧ m'.status = .active ∧ m'.role ∈ vaultManageRoles ∧
        m'.keyVersion = m.keyVersion) : w'.Holds u := by
  obtain ⟨row₀, m, hrow₀, hm, hactive, hmanage, hheld⟩ := h
  obtain rfl := Option.some.inj (hrow.symm.trans hrow₀)
  obtain ⟨m', hm', hactive', hmanage', hheld'⟩ := hmember m hm hactive hmanage
  exact ⟨row', m', hrow', hm', hactive', hmanage', by rw [hheld', hheld, hversion]⟩

/-- The other members of a vault hold what they held. -/
theorem Holds.setMember_of_ne {u userId : UserId} {m : Option VaultMember} (h : w.Holds u)
    (hne : u ≠ userId) : (w.setMember userId m).Holds u := by
  obtain ⟨row, m', hrow, hm', hholds⟩ := h
  exact ⟨row, m', hrow, by rw [member_setMember, if_neg hne, hm'], hholds⟩

/-- Whoever holds the key takes the one that is sealed to them, or isn't the one who does. -/
theorem Holds.accepted {u userId : UserId} (h : w.Holds u) (hkeys : w.KeysOk) {m : VaultMember}
    {row : VaultRow} {sealed : SealedKey} (hrow : w.row = some row)
    (hm : w.member userId = some m) (hsealed : m.sealedKey = some sealed) (wrap : WrappedKey) :
    (w.setMember userId (some (acceptedMember sealed.sealedKeyVersion wrap m))).Holds u := by
  by_cases hu : u = userId
  · subst hu
    obtain ⟨row₀, m₀, hrow₀, hm₀, -, hmanage, -⟩ := h
    obtain rfl := Option.some.inj (hrow.symm.trans hrow₀)
    obtain rfl := Option.some.inj (hm.symm.trans hm₀)
    refine ⟨row, acceptedMember sealed.sealedKeyVersion wrap m, hrow,
      by rw [member_setMember, if_pos rfl], rfl, hmanage, ?_⟩
    exact (hkeys.members row u m hrow hm).hasSealed hsealed
  · exact h.setMember_of_ne hu

/-- A vault that is handed on is managed and held as before: the two whose roles change are active,
and manage it after. -/
theorem Holds.transferred {u actorId userId : UserId} (h : w.Holds u) {actor target : VaultMember}
    {row : VaultRow} (hrow : w.row = some row) (hactor : w.member actorId = some actor)
    (hactive : actor.status = .active) (htarget : w.member userId = some target)
    (htargetActive : target.status = .active) :
    (((w.setMember userId (some { target with role := .owner })).setMember actorId
      (some { actor with role := .manage })).setRow { row with ownerId := userId }).Holds u := by
  refine h.of_same hrow rfl rfl fun m hm hactive' hmanage => ?_
  rw [member_setRow, member_setMember, member_setMember]
  split
  · next heq =>
    subst heq
    obtain rfl := Option.some.inj (hactor.symm.trans hm)
    exact ⟨_, rfl, hactive, manage_manages, rfl⟩
  split
  · next heq =>
    subst heq
    obtain rfl := Option.some.inj (htarget.symm.trans hm)
    exact ⟨_, rfl, htargetActive, owner_manages, rfl⟩
  · exact ⟨m, hm, hactive', hmanage, rfl⟩

/-- Whoever is active in a vault stays when another account is deleted. -/
theorem Holds.accountDeleted {u userId : UserId} (h : w.Holds u) (hne : u ≠ userId)
    {row row' : VaultRow} (hrow : w.row = some row) (hrow' : w'.row = some row')
    (hversion : row'.keyVersion = row.keyVersion)
    (hmembers : ∀ u, w'.member u = if u = userId then none
      else ((w.member u).filter fun m => !SentInvite userId m).map (clearSender userId)) :
    w'.Holds u := by
  refine h.of_same hrow hrow' hversion fun m hm hactive hmanage => ?_
  have hnotSent : SentInvite userId m = false := by
    rw [SentInvite, Bool.and_eq_false_iff]
    right
    simp [hactive]
  refine ⟨clearSender userId m, ?_, hactive, hmanage, rfl⟩
  rw [hmembers, if_neg hne, hm]
  simp [Option.filter, hnotSent]

/-- Somebody else holds the key of a live vault, unless one user is the last who does. -/
theorem Held.otherHolder (h : w.Held) {row : VaultRow} (hrow : w.row = some row)
    (hlive : row.deletedAt = none) {userId : UserId}
    (hlast : w.Holds userId → w.OtherHolder userId) : w.OtherHolder userId := by
  obtain ⟨u, hholds⟩ := h row hrow hlive
  by_cases hu : u = userId
  · exact hlast (hu ▸ hholds)
  · exact ⟨u, hu, hholds⟩

/-- **A change of a vault leaves somebody who manages it and holds its key**, unless it takes the
last of them. -/
theorem Held.step (h : w.Held) (hkeys : w.KeysOk) (hstep : VaultStep v op w w')
    (hrole : ∀ actorId userId role, op = .setMemberRole actorId v userId role →
      role ∉ vaultManageRoles → w.Holds userId → w.OtherHolder userId)
    (hremoved : ∀ userId, op.Removes v userId → w.Holds userId → w.OtherHolder userId)
    (haccount : ∀ userId, op = .deleteAccount userId → w.OtherActive userId → w.Holds userId →
      w.OtherHolder userId) : w'.Held := by
  intro row' hrow' hlive'
  cases hstep with
  | same => exact h row' hrow' hlive'
  | gone _ hgone =>
    rw [hgone] at hrow'
    cases hrow'
  | deleted row now hrow =>
    obtain rfl := Option.some.inj hrow'
    cases hlive'
  | created row userId wrap links hnew hlive hmark hchain =>
    obtain rfl := Option.some.inj hrow'
    exact ⟨userId, row, ownerMembership v userId row.keyVersion wrap, rfl,
      Function.update_self userId _ fun _ => none, rfl, owner_manages, rfl⟩
  | invited userId m row invitee input hm hactive hmanage hrow hlive hversion hother hnew =>
    obtain ⟨u, hholds⟩ := h row hrow hlive
    refine ⟨u, hholds.setMember_of_ne fun heq => ?_⟩
    obtain ⟨_, m', _, hm', -⟩ := hholds
    rw [heq, hnew] at hm'
    cases hm'
  | accepted userId m row sealed wrap hm hrow hlive hsealed =>
    obtain ⟨u, hholds⟩ := h row hrow hlive
    exact ⟨u, hholds.accepted hkeys hrow hm hsealed wrap⟩
  | roleSet actorId actor row userId m role hactor hactive hmanage hrow hlive hm hassign howners
      hop =>
    obtain ⟨u, hholds⟩ := h row hrow hlive
    by_cases hu : u = userId
    · subst hu
      by_cases hmanages : role ∈ vaultManageRoles
      · refine ⟨u, hholds.of_same hrow hrow rfl fun m' hm' hactive' _ => ?_⟩
        obtain rfl := Option.some.inj (hm.symm.trans hm')
        exact ⟨{ m with role := role }, by rw [member_setMember, if_pos rfl], hactive', hmanages,
          rfl⟩
      · obtain ⟨u', hne, hholds'⟩ := hrole actorId u role hop hmanages hholds
        exact ⟨u', hholds'.setMember_of_ne hne⟩
    · exact ⟨u, hholds.setMember_of_ne hu⟩
  | removed userId m row hm hrow hlive howners hop =>
    obtain ⟨u, hne, hholds⟩ := h.otherHolder hrow hlive (hremoved userId hop)
    refine ⟨u, hholds.of_same hrow rfl rfl fun m' hm' hactive hmanage => ?_⟩
    exact ⟨m', by rw [member_setRow, member_setMember, if_neg hne, hm'], hactive, hmanage, rfl⟩
  | transferred actorId actor userId target row hactor hactive howner hother htarget htargetActive
      hrow hlive =>
    obtain ⟨u, hholds⟩ := h row hrow hlive
    exact ⟨u, hholds.transferred hrow hactor hactive htarget htargetActive⟩
  | rotated _ userId m row input hvalid hid hm hactive hmanage hheld hrow hlive hversion hrow₁ hlinks
      hown hnone hothers =>
    -- Whoever rotates holds the key they made.
    exact ⟨userId, _, _, hrow₁, hown, hactive, hmanage, rfl⟩
  | accountDeleted _ userId row row₁ hrow hrow₁ hsame hmarked hmark howners hmembers hlinks hop =>
    obtain rfl := Option.some.inj (hrow₁.symm.trans hrow')
    have hlive : row.deletedAt = none := by
      rw [hsame] at hlive'
      exact hlive'
    have hlast : w.Holds userId → w.OtherHolder userId := by
      intro hholds
      refine haccount userId hop ?_ hholds
      obtain ⟨_, m, -, hm, hactive, -⟩ := hholds
      obtain ⟨u', m', hne, hm', -, hactive'⟩ := howners hlive m hm hactive
      exact ⟨u', m', hne, hm', hactive'⟩
    obtain ⟨u, hne, hholds⟩ := h.otherHolder hrow hlive hlast
    exact ⟨u, hholds.accountDeleted hne hrow hrow₁ (by rw [hsame]) hmembers⟩

end VaultView

/-! ### Runs -/

/-- An invitee who declines isn't active. -/
theorem not_holds_of_removes {db db' : Db} {op : Operation} {v : VaultId} {userId : UserId}
    (hallowed : HolderStays op db) (hrun : op.run db = some db') (hop : op.Removes v userId)
    (hholds : (db.view v).Holds userId) : (db.view v).OtherHolder userId := by
  cases op with
  | declineInvite u v' =>
    obtain ⟨rfl, rfl⟩ := hop
    obtain ⟨m, row, hm, hpending, -⟩ := of_declineInvite hrun
    obtain ⟨_, m', -, hm', hactive, -⟩ := hholds
    obtain rfl := Option.some.inj (hm.symm.trans hm')
    rw [hpending] at hactive
    cases hactive
  | removeMember actorId v' u =>
    obtain ⟨rfl, rfl⟩ := hop
    exact hallowed hholds
  | leave u v' =>
    obtain ⟨rfl, rfl⟩ := hop
    exact hallowed hholds
  | _ => exact hop.elim

/-- Every live vault has an active manager who holds its key, after every sequence of operations
that don't take the last one. -/
theorem held_of_reachable {db : Db} (h : Reachable HolderStays db) (v : VaultId) :
    (db.view v).KeysOk ∧ (db.view v).Held := by
  have hheld : LinkedOk db ∧ ∀ v, (db.view v).KeysOk ∧ (db.view v).Held := by
    refine @Run.invariant _ _ (fun db => LinkedOk db ∧ ∀ v, (db.view v).KeysOk ∧ (db.view v).Held)
      (fun db db' hinv hstep => ?_) _ _ h ⟨linkedOk_emptyDb, fun v =>
        ⟨@keysOk_of_reachable HolderStays emptyDb .refl v, fun row hrow => by cases hrow⟩⟩
    obtain ⟨op, hallowed, hrun⟩ := hstep
    obtain ⟨htables, hsteps⟩ := refines_of_run hinv.1 hrun
    refine ⟨htables, fun v => ⟨(hinv.2 v).1.step (hsteps v), ?_⟩⟩
    refine (hinv.2 v).2.step (hinv.2 v).1 (hsteps v) (fun actorId userId role hop => ?_)
      (fun userId hop => not_holds_of_removes hallowed hrun hop) fun userId hop => ?_
    · subst hop
      exact hallowed
    · subst hop
      exact hallowed v
  exact hheld.2 v

/-- **A live vault can always be rotated**, after every sequence of operations that don't take the
last manager who holds its key. -/
theorem rotatable {db : Db} (h : Reachable HolderStays db) : Rotatable db := by
  intro v row hrow hlive
  obtain ⟨hkeys, hheld⟩ := held_of_reachable h v
  obtain ⟨u, row', m, hrow', hm, hactive, hmanage, hversion⟩ := hheld row hrow hlive
  have hwrap := ((hkeys.members row' u m hrow' hm).active hactive).1
  exact ⟨u, row', m, hrow', hm, hactive, hmanage, .inl ⟨hwrap, hversion⟩⟩

/-- And somebody is told to, where it waits for a rotation. -/
theorem exists_rotationDue {db : Db} (h : Reachable HolderStays db) {v : VaultId} {row : VaultRow}
    (hrow : db.vault? v = some row) (hlive : row.deletedAt = none)
    (hneeded : row.keyRotationNeeded = true) : ∃ userId, v ∈ db.rotationsDue userId := by
  obtain ⟨u, row', m, hrow', hm, hactive, hmanage, hversion⟩ := (held_of_reachable h v).2 row hrow hlive
  obtain rfl := Option.some.inj (hrow.symm.trans hrow')
  exact ⟨u, mem_rotationsDue hrow hlive hneeded hm hactive hmanage hversion⟩

/-! ### A manager who rotates and leaves -/

/-- User 8 is a manager of vault 3 and holds its key. -/
def managedDb : Db :=
  (invitedDb.setMember 3 8 (acceptedMember 1 ⟨[], []⟩)).setMember 3 8
    fun m => { m with role := .manage }

/-- User 8 makes key 2 and seals it to user 7. -/
def nextKey : RotateKeyInput where
  vaultId := 3
  keyVersion := 2
  wrap := ⟨[], []⟩
  previousKey := ⟨3, 1, ⟨[], []⟩⟩
  encryptedMeta := []
  metaEncryptionNonce := []
  senderKeyVersion := 1
  memberKeys := [⟨7, 1, []⟩]

theorem nextKey_valid : nextKey.Valid where
  min := by decide
  max := by decide
  previous := rfl
  seals := by decide

/-- User 7 holds key 1, user 8 is invited, takes the key and gets the role. -/
theorem managedDb_facts :
    (sharedDb.member? 3 7).map (·.keyVersion) = some 1 ∧
      (invitedDb.member? 3 8).map (·.status) = some .pending ∧
      (Operation.acceptKey 8 3 1 ⟨[], []⟩).run invitedDb =
        some (invitedDb.setMember 3 8 (acceptedMember 1 ⟨[], []⟩)) ∧
      (Operation.setMemberRole 7 3 8 .manage).run
        (invitedDb.setMember 3 8 (acceptedMember 1 ⟨[], []⟩)) = some managedDb := by
  decide +kernel

theorem reachable_managedDb {allowed : Operation → Db → Prop}
    (hallowed : ∀ op db, op.Honest db → HolderStays op db → allowed op db) :
    Reachable allowed managedDb := by
  obtain ⟨hfirst, hsecond, hcreate, hinvite⟩ := invitedDb_runs
  obtain ⟨hheld, hpending, haccept, hmanage⟩ := managedDb_facts
  have hshared : Reachable allowed sharedDb :=
    ((Relation.ReflTransGen.single (b := accountDb)
      ⟨.finishRegistration (registration 7 1 'a'), hallowed _ _ trivial trivial, hfirst⟩).tail
      (c := accountsDb)
      ⟨.finishRegistration (registration 8 2 'b'), hallowed _ _ trivial trivial, hsecond⟩).tail
      ⟨.create 7 sharedVault, hallowed _ _ trivial trivial, hcreate⟩
  have hinvited : Reachable allowed invitedDb := by
    refine hshared.tail ⟨.invite 7 sharedInvite, hallowed _ _ (fun m hm => ?_) trivial, hinvite⟩
    rw [show sharedDb.member? 3 7 = some m from hm] at hheld
    exact Option.some.inj hheld
  have haccepted : Reachable allowed (invitedDb.setMember 3 8 (acceptedMember 1 ⟨[], []⟩)) := by
    refine hinvited.tail ⟨.acceptKey 8 3 1 ⟨[], []⟩, hallowed _ _ (fun m hm hactive => ?_) trivial,
      haccept⟩
    rw [hm, Option.map_some, hactive] at hpending
    cases hpending
  exact haccepted.tail ⟨.setMemberRole 7 3 8 .manage,
    hallowed _ _ trivial fun hrole => absurd manage_manages hrole, hmanage⟩

/-- User 8 rotates, -/
theorem rotateKey_managedDb :
    (Operation.rotateKey 8 nextKey nextKey_valid).run managedDb =
        some ((managedDb.rotated 8 nextKey).reseal 8 nextKey ⟨7, 1, []⟩) ∧
      ((managedDb.rotated 8 nextKey).reseal 8 nextKey ⟨7, 1, []⟩).vault? 3 =
        some (nextKey.rekey (newVault 3 7 .shared [] [])) := by
  decide +kernel

/-- and user 7 has the new key sealed to them. -/
theorem reachable_rotatedDb {allowed : Operation → Db → Prop}
    (hallowed : ∀ op db, op.Honest db → HolderStays op db → allowed op db) :
    Reachable allowed ((managedDb.rotated 8 nextKey).reseal 8 nextKey ⟨7, 1, []⟩) :=
  (reachable_managedDb hallowed).tail
    ⟨.rotateKey 8 nextKey nextKey_valid, hallowed _ _ trivial trivial, rotateKey_managedDb.1⟩

theorem rotatable_rotated :
    ∃ u, ((managedDb.rotated 8 nextKey).reseal 8 nextKey ⟨7, 1, []⟩).CanMoveOn 3 u := by
  refine rotatable (reachable_rotatedDb fun _ _ _ hstays => hstays) 3 (nextKey.rekey
    (newVault 3 7 .shared [] [])) rotateKey_managedDb.2 rfl

/-- User 8 has left, and user 7 still has what they sealed. -/
def strandedDb : Db :=
  (((managedDb.rotated 8 nextKey).reseal 8 nextKey ⟨7, 1, []⟩).deleteMembers fun m =>
    m.vaultId = 3 && m.userId = 8).markRotation 3

/-- User 7 is the only one left, at key 1, with a key that user 8 sealed. -/
theorem strandedDb_facts :
    (Operation.leave 8 3).run ((managedDb.rotated 8 nextKey).reseal 8 nextKey ⟨7, 1, []⟩) =
        some strandedDb ∧
      strandedDb.vault? 3 =
        some { nextKey.rekey (newVault 3 7 .shared [] []) with keyRotationNeeded := true } ∧
      (∀ m ∈ strandedDb.vaultMembers, m.vaultId = 3 → m.userId = 7 ∧ m.keyVersion = 1) ∧
      ∀ update ∈ strandedDb.keyUpdates 7, update.sender.userId = 8 := by
  decide +kernel

/-- **A manager rotates and leaves before anybody accepts**: nobody in the vault holds its key, and
nobody's device accepts the one that was sealed to them. -/
theorem rotatable_fails : Reachable Operation.Honest strandedDb ∧
    strandedDb.vault? 3 =
      some { nextKey.rekey (newVault 3 7 .shared [] []) with keyRotationNeeded := true } ∧
    (∀ u, ¬strandedDb.CanMoveOn 3 u) ∧ ¬Rotatable strandedDb := by
  obtain ⟨hleave, hrow, honly, hsender⟩ := strandedDb_facts
  have hleft : Reachable Operation.Honest strandedDb :=
    (reachable_rotatedDb fun _ _ hhonest _ => hhonest).tail ⟨.leave 8 3, trivial, hleave⟩
  suffices hnobody : ∀ u, ¬strandedDb.CanMoveOn 3 u by
    refine ⟨hleft, hrow, hnobody, fun h => ?_⟩
    obtain ⟨u, hu⟩ := h 3 _ hrow rfl
    exact hnobody u hu
  rintro u ⟨row, m, hrow', hm, -, -, hholds⟩
  obtain rfl := Option.some.inj (hrow.symm.trans hrow')
  obtain ⟨hmem, hvault, rfl⟩ := Db.member?_mem hm
  obtain ⟨huser, hversion⟩ := honly m hmem hvault
  obtain ⟨-, hheld⟩ | ⟨update, hupdate, hvault', -, listed, hlisted, htrusted⟩ := hholds
  · rw [hversion] at hheld
    cases hheld
  · rw [huser] at hupdate hlisted
    have hmembers : strandedDb.members 7 3 = .ok [⟨7, .owner, .active, ⟨1, []⟩⟩] := by rfl
    obtain rfl := Except.ok.inj (hmembers.symm.trans hlisted)
    rw [listedAsManager, hsender update hupdate] at htrusted
    cases htrusted

end Passmgr
