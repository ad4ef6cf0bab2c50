/-
# The history of a vault's keys

A vault over any number of rotations, each made by an honest device: it holds the vault's key,
seals the next one to the key pairs the server lists, and stores the link between the two.  A
member may miss any number of them.

Main definitions:

* `PairsOk` — every user has one key pair, the first;
* `HonestRotation` — what an honest device sends to `rotateKey`;
* `HistoryState`, `HistoryStep` — the tables with the key of every version of the vault;
* `MemberDevice` — a device of a member that holds the key in the member's row.

Main results:

* `HistoryState.Ok.step` — links and seals stay those honest devices made;
* `key_history` — a member who is behind is handed an update exactly while the account of whoever
  made the last rotation is there; it opens down to the key they hold, and once it is accepted every
  key of the vault's history is back;
* `rotator_gone` — the last rotator deleted their account: nobody gets the key any more.
-/

import Passmgr.HandedKeys
import Passmgr.KeyChain
import Passmgr.RowByRow

set_option relaxedAutoImplicit false
set_option autoImplicit false

namespace Passmgr

open IdealCipher (Ciphers)
open ReadCommitted (Prog)
open SecretsStore (KeyRecipient RotatedVault)

/-! ### Key pairs -/

/-- Every user has one key pair, the first. -/
structure PairsOk (db : Db) : Prop where
  first : ∀ pair ∈ db.userKeyPairs, pair.keyVersion = 1
  unique : ∀ pair ∈ db.userKeyPairs, ∀ pair' ∈ db.userKeyPairs, pair.userId = pair'.userId →
    pair = pair'

section Pairs

variable {db db' : Db} {op : Operation}

theorem userKeyPairs_resealed (senderId : UserId) (input : RotateKeyInput)
    (seals : List MemberKeySeal) :
    (seals.foldl (fun db seal_ => db.reseal senderId input seal_) db).userKeyPairs
      = db.userKeyPairs := by
  induction seals generalizing db with
  | nil => rfl
  | cons seal_ rest ih =>
    rw [List.foldl_cons, ih]
    unfold Db.reseal Db.updateMember
    split <;> split <;> rfl

theorem userKeyPairs_leaveVaults (userId : UserId) (members : List VaultMember)
    (shared : List VaultRow) :
    (db.leaveVaults userId members shared).userKeyPairs = db.userKeyPairs := by
  induction shared generalizing db with
  | nil => rfl
  | cons vault rest ih => exact ih

theorem userKeyPairs_withoutAccount (userId : UserId) :
    (db.withoutAccount userId).userKeyPairs = db.userKeyPairs.filter (·.userId ≠ userId) := by
  have h := @userKeyPairs_leaveVaults db userId (activeMembers db (db.sharedWith userId))
    (db.sharedWith userId)
  exact congrArg (List.filter _) h

/-- A key pair is there from the registration of its user to the end of the account. -/
theorem userKeyPairs_of_run (hdb : TablesOk db) (h : op.run db = some db') :
    db'.userKeyPairs = db.userKeyPairs ∨
      (∃ userId publicKey, (∀ pair ∈ db.userKeyPairs, (pair.userId, pair.keyVersion) ≠ (userId, 1)) ∧
        db'.userKeyPairs = db.userKeyPairs ++ [⟨userId, 1, publicKey⟩]) ∨
      ∃ userId, op = .deleteAccount userId ∧
        db'.userKeyPairs = db.userKeyPairs.filter (·.userId ≠ userId) := by
  cases op with
  | finishRegistration input =>
    obtain rfl | ⟨-, -, hfresh, rfl⟩ := of_finishRegistration h
    · exact .inl rfl
    · exact .inr (.inl ⟨input.userId, input.publicKey, hfresh, rfl⟩)
  | create userId input =>
    obtain ⟨-, rfl⟩ := of_create h
    exact .inl rfl
  | deleteAccount userId =>
    obtain ⟨-, rfl⟩ := of_deleteAccount h
    exact .inr (.inr ⟨userId, rfl, userKeyPairs_withoutAccount userId⟩)
  | rotateKey userId input valid =>
    obtain ⟨_, _, -, -, -, -, -, -, -, -, rfl⟩ := of_rotateKey hdb h
    exact .inl (userKeyPairs_resealed userId input input.memberKeys)
  | invite userId input =>
    obtain ⟨_, _, _, -, -, -, -, -, -, -, -, -, -, -, -, -, -, rfl⟩ := of_invite h
    exact .inl rfl
  | acceptKey userId vaultId keyVersion wrap =>
    obtain ⟨_, _, _, -, -, -, -, -, rfl⟩ := of_acceptKey h
    exact .inl rfl
  | declineInvite userId vaultId =>
    obtain ⟨_, _, -, -, -, -, rfl⟩ := of_declineInvite h
    exact .inl rfl
  | setMemberRole actorId vaultId userId role =>
    obtain ⟨_, _, _, -, -, -, -, -, -, -, -, -, rfl⟩ := of_setMemberRole hdb h
    exact .inl rfl
  | removeMember actorId vaultId userId =>
    obtain ⟨_, _, _, -, -, -, -, -, -, -, -, rfl⟩ := of_removeMember hdb h
    exact .inl rfl
  | leave userId vaultId =>
    obtain ⟨_, _, -, -, -, -, -, -, rfl⟩ := of_leave h
    exact .inl rfl
  | transferOwnership actorId vaultId userId =>
    obtain ⟨_, _, _, -, -, -, -, -, -, -, -, -, rfl⟩ := of_transferOwnership h
    exact .inl rfl
  | deleteVault userId vaultId now =>
    obtain ⟨_, _, -, -, -, -, -, -, rfl⟩ := of_deleteVault hdb h
    exact .inl rfl

theorem PairsOk.run (hdb : TablesOk db) (hpairs : PairsOk db) (h : op.run db = some db') :
    PairsOk db' := by
  obtain hsame | ⟨userId, publicKey, hfresh, hadded⟩ | ⟨userId, -, hremoved⟩ :=
    userKeyPairs_of_run hdb h
  · refine ⟨?_, ?_⟩
    · rw [hsame]
      exact hpairs.first
    · rw [hsame]
      exact hpairs.unique
  · -- Nobody else has a pair under the id.
    have hnew : ∀ pair ∈ db.userKeyPairs, pair.userId ≠ userId := by
      intro pair hpair huser
      exact hfresh pair hpair (by rw [huser, hpairs.first pair hpair])
    refine ⟨fun pair hpair => ?_, fun pair hpair pair' hpair' heq => ?_⟩
    · rw [hadded, List.mem_append, List.mem_singleton] at hpair
      obtain hpair | rfl := hpair
      · exact hpairs.first pair hpair
      · rfl
    · rw [hadded, List.mem_append, List.mem_singleton] at hpair hpair'
      obtain hpair | rfl := hpair
      · obtain hpair' | rfl := hpair'
        · exact hpairs.unique pair hpair pair' hpair' heq
        · exact absurd heq (hnew pair hpair)
      · obtain hpair' | rfl := hpair'
        · exact absurd heq.symm (hnew pair' hpair')
        · rfl
  · have hsub : db'.userKeyPairs ⊆ db.userKeyPairs := by
      rw [hremoved]
      exact fun pair hpair => (List.mem_filter.mp hpair).1
    exact ⟨fun pair hpair => hpairs.first pair (hsub hpair), fun pair hpair pair' hpair' =>
      hpairs.unique pair (hsub hpair) pair' (hsub hpair')⟩

/-- A key pair stays as long as the account. -/
theorem mem_userKeyPairs_of_run (hdb : TablesOk db) (h : op.run db = some db') {pair : UserKeyPair}
    (hpair : pair ∈ db.userKeyPairs) (hstays : op ≠ .deleteAccount pair.userId) :
    pair ∈ db'.userKeyPairs := by
  obtain hsame | ⟨userId, publicKey, -, hadded⟩ | ⟨userId, hop, hremoved⟩ :=
    userKeyPairs_of_run hdb h
  · rwa [hsame]
  · rw [hadded]
    exact List.mem_append_left _ hpair
  · rw [hremoved]
    refine List.mem_filter.mpr ⟨hpair, decide_eq_true fun heq => hstays ?_⟩
    rw [hop, heq]

end Pairs

/-! ### Honest histories -/

/-- The tables, the key of every version of a vault, and who made the last rotation of it, while their
account lasts. -/
structure HistoryState where
  db : Db
  keys : ℕ → Text
  rotator : Option UserId

/-- Who made the last rotation of a vault, after one more operation. -/
def Operation.rotatorAfter (v : VaultId) (rotator : Option UserId) : Operation → Option UserId
  | .rotateKey userId input _ => if input.vaultId = v then some userId else rotator
  | .deleteAccount userId => if rotator = some userId then none else rotator
  | _ => rotator

/-- What the client sends to `vault.rotateKey`. -/
def rotateKeyInput (rotated : RotatedVault) (senderKeyVersion : ℕ) : RotateKeyInput where
  vaultId := rotated.rotated.wrap.vaultId
  keyVersion := rotated.rotated.wrap.keyVersion
  wrap := rotated.rotated.wrap.wrap
  previousKey := rotated.previousKey
  encryptedMeta := rotated.rotated.encrypted.encryptedMeta
  metaEncryptionNonce := rotated.rotated.encrypted.metaEncryptionNonce
  senderKeyVersion := senderKeyVersion
  memberKeys := rotated.memberKeys

section History

variable (C : Ciphers Text) (J : MetaJson) (v : VaultId)

/-- The device has the key of the vault it takes for the current one, and its user's key pair. -/
structure HoldsKey (db : Db) (keys : ℕ → Text) (userId : UserId) (keyVersion : ℕ)
    (privateKey : Text) (store : SecretsStore) : Prop where
  current : store.currentKeyVersions v = some keyVersion
  key : store.vaultKeys (vaultKeyId v keyVersion) = some (keys keyVersion)
  unlocked : store.userPrivateKey = some privateKey
  pair : ∃ pairVersion, store.userKeyPairVersion = some pairVersion ∧
    ⟨userId, pairVersion, C.publicKey privateKey⟩ ∈ db.userKeyPairs

/-- A rotation by an honest device: it makes the next key from the one it holds, and seals it to key
pairs of the server's.  `keys'` has the new key too. -/
def HonestRotation (db : Db) (keys : ℕ → Text) (userId : UserId) (input : RotateKeyInput)
    (keys' : ℕ → Text) : Prop :=
  ∃ (store : SecretsStore) (keyVersion pairVersion : ℕ) (privateKey : Text) (random : KeyRandom)
    (boxes : ℕ → BoxRandom) (encrypted : EncryptedVaultMeta) (members : List KeyRecipient)
    (rotated : RotatedVault),
    HoldsKey C v db keys userId keyVersion privateKey store ∧
    store.userKeyPairVersion = some pairVersion ∧
    (∀ member ∈ members,
      ⟨member.userId, member.publicKey.keyVersion, member.publicKey.publicKey⟩ ∈ db.userKeyPairs) ∧
    store.rotateVaultKey C J random boxes v encrypted members = .ok rotated ∧
    input = rotateKeyInput rotated pairVersion ∧
    keys' = Function.update keys (keyVersion + 1) random.vaultKey

/-- The keys of the vault change with its rotations only.  Whoever makes it, at any version, brings
the links between its keys. -/
structure HonestStep (op : Operation) (s s' : HistoryState) : Prop where
  made : s.db.vault? v = none → ∀ link ∈ (s'.db.view v).links, HonestLink C v s'.keys link
  kept : (s.db.vault? v).isSome →
    (∀ userId input valid, op = .rotateKey userId input valid → input.vaultId ≠ v) →
    s'.keys = s.keys
  rotated : ∀ userId input valid, op = .rotateKey userId input valid → input.vaultId = v →
    HonestRotation C J v s.db s.keys userId input s'.keys

/-- An operation that commits, with the keys it leaves. -/
def HistoryStep (s s' : HistoryState) : Prop :=
  ∃ op, Operation.run op s.db = some s'.db ∧ HonestStep C J v op s s' ∧
    s'.rotator = op.rotatorAfter v s.rotator

/-- The seal was made by its sender for the user, of the vault's key. -/
def HonestSeal (db : Db) (keys : ℕ → Text) (keyVersion : ℕ) (userId sender : UserId)
    (sealed : SealedKey) : Prop :=
  ∃ random privateKey recipientKey,
    ⟨sender, sealed.sealedByKeyVersion, C.publicKey privateKey⟩ ∈ db.userKeyPairs ∧
    ⟨userId, sealed.sealedToKeyVersion, recipientKey⟩ ∈ db.userKeyPairs ∧
    sealVaultKey C random privateKey recipientKey (keys keyVersion) v keyVersion
      = some sealed.sealedVaultKey

/-- What every state of an honest history satisfies. -/
structure HistoryState.Ok (s : HistoryState) : Prop where
  tables : LinkedOk s.db
  keysOk : (s.db.view v).KeysOk
  pairs : PairsOk s.db
  links : (s.db.vault? v).isSome → ∀ link ∈ (s.db.view v).links, HonestLink C v s.keys link
  seals : ∀ row u m sealed sender, s.db.vault? v = some row → s.db.member? v u = some m →
    m.status = .active → m.sealedKey = some sealed → sealed.sealedByUserId = some sender →
    HonestSeal C v s.db s.keys row.keyVersion u sender sealed
  /-- Whoever made the last rotation sealed its key to all members that don't hold it. -/
  senders : ∀ row u m sealed, s.db.vault? v = some row → s.db.member? v u = some m →
    m.status = .active → m.sealedKey = some sealed → sealed.sealedByUserId = s.rotator

end History

/-! ### One step of a history -/

section Steps

variable {C : Ciphers Text} {J : MetaJson} {v : VaultId}

/-- What an honest rotation sends. -/
theorem of_honestRotation (hC : C.Correct) {db : Db} {keys keys' : ℕ → Text} {userId : UserId}
    {input : RotateKeyInput} (h : HonestRotation C J v db keys userId input keys') :
    ∃ n privateKey, input.keyVersion = n + 1 ∧ (∀ i, i ≠ n + 1 → keys' i = keys i) ∧
      HonestLink C v keys' input.link ∧ input.link.keyVersion = n ∧
      ⟨userId, input.senderKeyVersion, C.publicKey privateKey⟩ ∈ db.userKeyPairs ∧
      ∀ seal_ ∈ input.memberKeys, ∃ random recipientKey,
        ⟨seal_.userId, seal_.recipientKeyVersion, recipientKey⟩ ∈ db.userKeyPairs ∧
        sealVaultKey C random privateKey recipientKey (keys' (n + 1)) v (n + 1)
          = some seal_.sealedVaultKey := by
  obtain ⟨store, n, pairVersion, privateKey, random, boxes, encrypted, members, rotated, hdevice,
    hversion, hmembers, hrotate, rfl, rfl⟩ := h
  have hcurrent : store.currentKeyVersion v = .ok n :=
    SecretsStore.unlocked_eq_ok.mpr hdevice.current
  have hkey : store.vaultKey v n = .ok (keys n) := SecretsStore.unlocked_eq_ok.mpr hdevice.key
  -- The store is unlocked, and the metadata opened.
  obtain ⟨accountKey, haccount, hrest⟩ := bind_eq_ok.mp hrotate
  obtain ⟨_, -, hrest⟩ := bind_eq_ok.mp hrest
  obtain ⟨_, -, hrest⟩ := bind_eq_ok.mp hrest
  obtain ⟨vaultMeta, hmeta, -⟩ := bind_eq_ok.mp hrest
  obtain ⟨hrotated, hseals⟩ := of_rotateVaultKey hC (SecretsStore.unlocked_eq_ok.mp haccount)
    hcurrent hkey hmeta hrotate
  obtain ⟨hnew, hlink⟩ := Prod.mk.inj hrotated
  have hnewKey : Function.update keys (n + 1) random.vaultKey (n + 1) = random.vaultKey :=
    Function.update_self _ _ _
  have holdKey : Function.update keys (n + 1) random.vaultKey n = keys n :=
    Function.update_of_ne (by omega) _ _
  refine ⟨n, privateKey, ?_, fun i hi => Function.update_of_ne hi _ _, ?_, ?_, ?_, ?_⟩
  · rw [rotateKeyInput, hnew]
    rfl
  · refine ⟨random.linkNonce, ?_⟩
    have hversion' : (rotateKeyInput rotated pairVersion).link.keyVersion = n := by
      rw [rotateKeyInput, RotateKeyInput.link, hlink]
      rfl
    rw [hversion', hnewKey, holdKey, rotateKeyInput, RotateKeyInput.link, hlink]
  · rw [rotateKeyInput, RotateKeyInput.link, hlink]
    rfl
  · obtain ⟨version, hversion', hpair⟩ := hdevice.pair
    obtain rfl := Option.some.inj (hversion.symm.trans hversion')
    exact hpair
  · intro seal_ hseal
    obtain ⟨member, hmember, huser, hrecipient, box, hbox⟩ := RowByRow.exists_left hseals hseal
    obtain ⟨privateKey', hprivate, hsealed⟩ := of_sealKey hbox
    obtain rfl := Option.some.inj (hdevice.unlocked.symm.trans hprivate)
    refine ⟨box, member.publicKey.publicKey, ?_, ?_⟩
    · rw [huser, hrecipient]
      exact hmembers member hmember
    · rw [hnewKey]
      exact hsealed

/-- The links of a vault stay, and a rotation adds its own. -/
theorem mem_links_of_step {op : Operation} {w w' : VaultView} (hstep : VaultStep v op w w')
    {row : VaultRow} (hrow : w.row = some row) (hstays : w'.row.isSome) {link : VaultKeyLink}
    (hlink : link ∈ w'.links) :
    link ∈ w.links ∨ ∃ userId input valid, op = .rotateKey userId input valid ∧ input.vaultId = v ∧
      link = input.link := by
  cases hstep with
  | gone _ hgone =>
    rw [hgone] at hstays
    cases hstays
  | created row' userId wrap links hnew =>
    rw [hnew] at hrow
    cases hrow
  | rotated _ userId m row' input hvalid hid hm hactive hmanage hheld hrow' hlive hversion hrow₁
      hlinks hown hnone hothers hop =>
    rw [hlinks, List.mem_append, List.mem_singleton] at hlink
    obtain hlink | rfl := hlink
    · exact .inl hlink
    · exact .inr ⟨userId, input, hvalid, hop, hid, rfl⟩
  | accountDeleted _ userId row' row₁ hrow' hrow₁ hsame hmarked hmark howners hmembers hlinks =>
    rw [hlinks] at hlink
    exact .inl hlink
  | _ => exact .inl hlink

theorem rotatorAfter_of_spares {op : Operation} {w : VaultView} (h : op.Spares v w)
    (hrow : w.row ≠ none) (rotator : Option UserId) : op.rotatorAfter v rotator = rotator := by
  cases op with
  | rotateKey userId input valid => exact if_neg h
  | deleteAccount userId => exact absurd h hrow
  | _ => rfl

theorem rotatorAfter_of_removes {op : Operation} {u : UserId} (h : op.Removes v u)
    (rotator : Option UserId) : op.rotatorAfter v rotator = rotator := by
  cases op with
  | rotateKey => cases h
  | deleteAccount => cases h
  | _ => rfl

/-- The seal an active member waits with was there before the operation, but for a sender whose
account is gone. -/
def VaultView.SealedBefore (v : VaultId) (op : Operation) (w : VaultView) (u : UserId)
    (keyVersion : ℕ) (sealed : SealedKey) : Prop :=
  ∃ row m before, w.row = some row ∧ row.keyVersion = keyVersion ∧ w.member u = some m ∧
    m.status = .active ∧ m.sealedKey = some before ∧
    sealed.sealedByUserId = op.rotatorAfter v before.sealedByUserId ∧
    (sealed.sealedByUserId ≠ none → sealed = before)

/-- The seal is of the operation, a rotation of the vault. -/
def SealedNow (v : VaultId) (op : Operation) (u : UserId) (keyVersion : ℕ) (sealed : SealedKey) :
    Prop :=
  ∃ sender input valid seal_, op = .rotateKey sender input valid ∧ input.vaultId = v ∧
    keyVersion = input.keyVersion ∧ seal_ ∈ input.memberKeys ∧ seal_.userId = u ∧
    sealed = input.sealed sender seal_

theorem VaultView.SealedBefore.of_same {op : Operation} {w : VaultView} {row : VaultRow} {u : UserId}
    {m : VaultMember} {keyVersion : ℕ} {sealed : SealedKey} (hrow : w.row = some row)
    (hversion : row.keyVersion = keyVersion) (hm : w.member u = some m) (hactive : m.status = .active)
    (hsealed : m.sealedKey = some sealed)
    (hop : ∀ rotator, op.rotatorAfter v rotator = rotator) :
    w.SealedBefore v op u keyVersion sealed :=
  ⟨row, m, sealed, hrow, hversion, hm, hactive, hsealed, (hop _).symm, fun _ => rfl⟩

/-- A rotation seals the key to everybody else: whoever rotates held the key before, and waits for
nothing. -/
theorem exists_seal_of_rotated {w w' : VaultView} (hkeys : w.KeysOk) {userId u : UserId}
    {m m' : VaultMember} {row : VaultRow} {input : RotateKeyInput} {sealed : SealedKey}
    (hm : w.member userId = some m) (hactive : m.status = .active)
    (hheld : m.keyVersion + 1 = input.keyVersion) (hrow : w.row = some row)
    (hversion : row.keyVersion + 1 = input.keyVersion)
    (hown : w'.member userId = some (input.rewrap m))
    (hnone : ∀ u, w.member u = none → w'.member u = none)
    (hothers : ∀ u m, u ≠ userId → w.member u = some m → ∃ seal_ ∈ input.memberKeys,
      seal_.userId = u ∧ w'.member u = some (resealedMember userId input seal_ m))
    (hm' : w'.member u = some m') (hsealed : m'.sealedKey = some sealed) :
    ∃ seal_ ∈ input.memberKeys, seal_.userId = u ∧ sealed = input.sealed userId seal_ := by
  by_cases hu : u = userId
  · subst hu
    obtain rfl := Option.some.inj (hown.symm.trans hm')
    obtain ⟨-, ⟨-, hnothing⟩ | ⟨hlt, -⟩⟩ := (hkeys.members row u m hrow hm).active hactive
    · rw [show (input.rewrap m).sealedKey = m.sealedKey from rfl, hnothing] at hsealed
      cases hsealed
    · omega
  · cases hbefore : w.member u with
    | none =>
      rw [hnone u hbefore] at hm'
      cases hm'
    | some other =>
      obtain ⟨seal_, hmem, huser, hresealed⟩ := hothers u other hu hbefore
      obtain rfl := Option.some.inj (hresealed.symm.trans hm')
      exact ⟨seal_, hmem, huser, (Option.some.inj hsealed).symm⟩

/-- Where an account is deleted the seals stay, without the account's name as their sender. -/
theorem sealedBefore_of_accountDeleted {w w' : VaultView} {userId u : UserId} {row : VaultRow}
    {m' : VaultMember} {sealed : SealedKey} {keyVersion : ℕ} (hrow : w.row = some row)
    (hversion : row.keyVersion = keyVersion)
    (hmembers : ∀ u, w'.member u = if u = userId then none
      else ((w.member u).filter fun m => !SentInvite userId m).map (clearSender userId))
    (hm' : w'.member u = some m') (hactive' : m'.status = .active)
    (hsealed : m'.sealedKey = some sealed) :
    w.SealedBefore v (.deleteAccount userId) u keyVersion sealed := by
  rw [hmembers] at hm'
  split at hm'
  · cases hm'
  obtain ⟨m, hm, rfl⟩ := Option.map_eq_some_iff.mp hm'
  obtain ⟨hm, -⟩ := Option.filter_eq_some_iff.mp hm
  obtain ⟨before, hbefore, rfl⟩ := Option.map_eq_some_iff.mp hsealed
  refine ⟨row, m, before, hrow, hversion, hm, hactive', hbefore, ?_, fun hsender => ?_⟩
  · rw [Operation.rotatorAfter]
    split <;> rfl
  · -- A seal that still names its sender is as it was.
    split at hsender
    · exact absurd rfl hsender
    · next hne => rw [if_neg hne]

/-- A vault that is handed on keeps the seals of its members. -/
theorem sealedBefore_of_transferred {w : VaultView} {actorId userId u : UserId}
    {actor target m' : VaultMember} {row : VaultRow} {sealed : SealedKey}
    (hactor : w.member actorId = some actor) (hactive : actor.status = .active)
    (htarget : w.member userId = some target) (htargetActive : target.status = .active)
    (hrow : w.row = some row)
    (hm' : (((w.setMember userId (some { target with role := .owner })).setMember actorId
      (some { actor with role := .manage })).setRow { row with ownerId := userId }).member u = some m')
    (hactive' : m'.status = .active) (hsealed : m'.sealedKey = some sealed) :
    w.SealedBefore v (.transferOwnership actorId v userId) u row.keyVersion sealed := by
  rw [VaultView.member_setRow, VaultView.member_setMember, VaultView.member_setMember] at hm'
  split at hm'
  · next heq =>
    obtain rfl := Option.some.inj hm'
    exact .of_same hrow rfl (heq ▸ hactor) hactive hsealed fun _ => rfl
  split at hm'
  · next heq =>
    obtain rfl := Option.some.inj hm'
    exact .of_same hrow rfl (heq ▸ htarget) htargetActive hsealed fun _ => rfl
  · exact .of_same hrow rfl hm' hactive' hsealed fun _ => rfl

/-- The seal an active member waits with was there before, or it is of the rotation. -/
theorem sealed_of_step {op : Operation} {w w' : VaultView} (hkeys : w.KeysOk)
    (hstep : VaultStep v op w w') {row' : VaultRow} {u : UserId} {m' : VaultMember}
    {sealed : SealedKey} (hrow' : w'.row = some row') (hm' : w'.member u = some m')
    (hactive' : m'.status = .active) (hsealed : m'.sealedKey = some sealed) :
    w.SealedBefore v op u row'.keyVersion sealed ∨ SealedNow v op u row'.keyVersion sealed := by
  cases hstep with
  | same hspares =>
    exact .inl (.of_same hrow' rfl hm' hactive' hsealed
      (rotatorAfter_of_spares hspares (by rw [hrow']; exact Option.some_ne_none row')))
  | gone _ hgone =>
    rw [hgone] at hrow'
    cases hrow'
  | deleted row now hrow userId m hm hactive howner hlive hshared hop =>
    obtain rfl := Option.some.inj hrow'
    exact .inl (.of_same hrow rfl hm' hactive' hsealed (hop ▸ fun _ => rfl))
  | created row userId wrap links hnew =>
    dsimp only at hm'
    rw [Function.update_apply] at hm'
    split at hm'
    · obtain rfl := Option.some.inj hm'
      cases hsealed
    · cases hm'
  | invited userId m row invitee input hm hactive hmanage hrow hlive hversion hother hnew hassign
      hshared hid hop =>
    rw [VaultView.member_setMember] at hm'
    split at hm'
    · obtain rfl := Option.some.inj hm'
      cases hactive'
    · exact .inl (.of_same hrow' rfl hm' hactive' hsealed (hop ▸ fun _ => rfl))
  | accepted userId m row sealed₁ wrap hm hrow hlive hsealed₁ hop =>
    rw [VaultView.member_setMember] at hm'
    split at hm'
    · obtain rfl := Option.some.inj hm'
      cases hsealed
    · exact .inl (.of_same hrow' rfl hm' hactive' hsealed (hop ▸ fun _ => rfl))
  | roleSet actorId actor row userId m role hactor hactive hmanage hrow hlive hm hassign howners
      hop =>
    rw [VaultView.member_setMember] at hm'
    split at hm'
    · next heq =>
      obtain rfl := Option.some.inj hm'
      exact .inl ⟨row', m, sealed, hrow', rfl, heq ▸ hm, hactive', hsealed, by rw [hop]; rfl,
        fun _ => rfl⟩
    · exact .inl (.of_same hrow' rfl hm' hactive' hsealed (hop ▸ fun _ => rfl))
  | removed userId m row hm hrow hlive howners hop =>
    obtain rfl := Option.some.inj hrow'
    rw [VaultView.member_setRow, VaultView.member_setMember] at hm'
    split at hm'
    · cases hm'
    · exact .inl (.of_same hrow rfl hm' hactive' hsealed (rotatorAfter_of_removes hop))
  | transferred actorId actor userId target row hactor hactive howner hother htarget htargetActive
      hrow hlive hshared hop =>
    obtain rfl := Option.some.inj hrow'
    obtain rfl := hop
    have hbefore : w.SealedBefore v (.transferOwnership actorId v userId) u row.keyVersion sealed :=
      sealedBefore_of_transferred hactor hactive htarget htargetActive hrow hm' hactive' hsealed
    exact .inl hbefore
  | rotated _ userId m row input hvalid hid hm hactive hmanage hheld hrow hlive hversion hrow₁ hlinks
      hown hnone hothers hop =>
    obtain rfl := Option.some.inj (hrow₁.symm.trans hrow')
    obtain ⟨seal_, hmem, huser, hseal⟩ := exists_seal_of_rotated hkeys hm hactive hheld hrow
      hversion hown hnone hothers hm' hsealed
    exact .inr ⟨userId, input, hvalid, seal_, hop, hid, rfl, hmem, huser, hseal⟩
  | accountDeleted _ userId row row₁ hrow hrow₁ hsame hmarked hmark howners hmembers hlinks hop =>
    obtain rfl := Option.some.inj (hrow₁.symm.trans hrow')
    obtain rfl := hop
    exact .inl (sealedBefore_of_accountDeleted hrow (by rw [hsame]) hmembers hm' hactive' hsealed)

/-- The keys up to the vault's version stay. -/
theorem HonestStep.keys_eq (hC : C.Correct) {op : Operation} {s s' : HistoryState}
    (h : HonestStep C J v op s s') (hdb : TablesOk s.db) (hrun : op.run s.db = some s'.db)
    {row : VaultRow} (hrow : s.db.vault? v = some row) {n : ℕ} (hn : n ≤ row.keyVersion) :
    s'.keys n = s.keys n := by
  by_cases hrotates : ∃ userId input valid, op = .rotateKey userId input valid ∧ input.vaultId = v
  · obtain ⟨userId, input, hvalid, rfl, rfl⟩ := hrotates
    obtain ⟨m, row', -, -, -, -, hrow', -, hversion, -⟩ := of_rotateKey hdb hrun
    obtain rfl := Option.some.inj (hrow.symm.trans hrow')
    obtain ⟨k, -, hk, hothers, -⟩ := of_honestRotation hC (h.rotated userId input hvalid rfl rfl)
    exact hothers n (by omega)
  · rw [h.kept (hrow ▸ rfl) fun userId input valid hop hid =>
      hrotates ⟨userId, input, valid, hop, hid⟩]

/-- Nobody is in a vault with an account that is gone, and no seal names it. -/
theorem not_deleted_of_sealed {op : Operation} {db db' : Db} (hdb : TablesOk db)
    (hrun : op.run db = some db') {row' : VaultRow} {u sender : UserId} {m' : VaultMember}
    {sealed : SealedKey} (hrow' : db'.vault? v = some row') (hm' : db'.member? v u = some m')
    (hsealed : m'.sealedKey = some sealed) (hsender : sealed.sealedByUserId = some sender) :
    op ≠ .deleteAccount u ∧ op ≠ .deleteAccount sender := by
  suffices hnot : ∀ userId, op = .deleteAccount userId → userId ≠ u ∧ userId ≠ sender from
    ⟨fun hop => (hnot u hop).1 rfl, fun hop => (hnot sender hop).2 rfl⟩
  rintro userId rfl
  obtain ⟨-, rfl⟩ := of_deleteAccount hrun
  obtain ⟨hstays, -⟩ := withoutAccount_stays hdb hrow'
  rw [member?_withoutAccount hdb hstays] at hm'
  split at hm'
  · cases hm'
  next hne =>
  obtain ⟨m, -, rfl⟩ := Option.map_eq_some_iff.mp hm'
  obtain ⟨before, -, rfl⟩ := Option.map_eq_some_iff.mp hsealed
  refine ⟨Ne.symm hne, fun heq => ?_⟩
  split at hsender
  · cases hsender
  · next hsentBy => exact hsentBy (by rw [hsender, heq])

/-- **An honest step keeps the links and the seals honest.** -/
theorem HistoryState.Ok.step (hC : C.Correct) {s s' : HistoryState} (h : s.Ok C v)
    (hstep : HistoryStep C J v s s') : s'.Ok C v := by
  obtain ⟨op, hrun, hhonest, hrotator⟩ := hstep
  obtain ⟨htables, hsteps⟩ := refines_of_run h.tables hrun
  have hdb := h.tables.toTablesOk
  refine ⟨htables, h.keysOk.step (hsteps v), h.pairs.run hdb hrun, fun hstays link hlink => ?_,
    fun row' u m' sealed sender hrow' hm' hactive' hsealed hsender => ?_,
    fun row' u m' sealed hrow' hm' hactive' hsealed => ?_⟩
  · cases hrow : s.db.vault? v with
    | none => exact hhonest.made hrow link hlink
    | some row =>
      obtain hbefore | ⟨userId, input, valid, hop, hid, rfl⟩ :=
        mem_links_of_step (hsteps v) hrow hstays hlink
      · -- An earlier link is of a version below the vault's own.
        have hchain := isCompleteKeyChain_iff.mp (h.keysOk.links row hrow)
        have hversion : link.keyVersion ∈ List.range' 1 (row.keyVersion - 1) :=
          hchain.2 ▸ List.mem_map_of_mem hbefore
        rw [List.mem_range'_1] at hversion
        exact (h.links (hrow ▸ rfl) link hbefore).congr
          (hhonest.keys_eq hC hdb hrun hrow (by omega)) (hhonest.keys_eq hC hdb hrun hrow (by omega))
      · obtain ⟨n, privateKey, -, -, hlink, -⟩ :=
          of_honestRotation hC (hhonest.rotated userId input valid hop hid)
        exact hlink
  · obtain ⟨hmember, hsenderStays⟩ := not_deleted_of_sealed hdb hrun hrow' hm' hsealed hsender
    obtain ⟨row, m, before, hrow, hversion, hm, hactive, hbefore, -, hsame⟩ |
        ⟨sender', input, valid, seal_, hop, hid, hversion, hseal, rfl, rfl⟩ :=
      sealed_of_step h.keysOk (hsteps v) hrow' hm' hactive' hsealed
    · obtain rfl := hsame (by rw [hsender]; exact Option.some_ne_none sender)
      obtain ⟨random, privateKey, recipientKey, hpair, hpair', hmade⟩ :=
        h.seals row u m sealed sender hrow hm hactive hbefore hsender
      refine ⟨random, privateKey, recipientKey, mem_userKeyPairs_of_run hdb hrun hpair hsenderStays,
        mem_userKeyPairs_of_run hdb hrun hpair' hmember, ?_⟩
      rw [← hversion, hhonest.keys_eq hC hdb hrun hrow le_rfl]
      exact hmade
    · obtain rfl := Option.some.inj hsender
      obtain ⟨n, privateKey, hn, -, -, -, hpair, hseals⟩ :=
        of_honestRotation hC (hhonest.rotated sender' input valid hop hid)
      obtain ⟨random, recipientKey, hpair', hmade⟩ := hseals seal_ hseal
      refine ⟨random, privateKey, recipientKey, mem_userKeyPairs_of_run hdb hrun hpair hsenderStays,
        mem_userKeyPairs_of_run hdb hrun hpair' hmember, ?_⟩
      rw [hversion, hn]
      exact hmade
  · rw [hrotator]
    obtain ⟨row, m, before, hrow, -, hm, hactive, hbefore, hsender, -⟩ |
        ⟨sender, input, valid, seal_, hop, hid, -, -, -, rfl⟩ :=
      sealed_of_step h.keysOk (hsteps v) hrow' hm' hactive' hsealed
    · rw [hsender, h.senders row u m before hrow hm hactive hbefore]
    · rw [hop, Operation.rotatorAfter, if_pos hid]
      rfl

/-- No vaults, no keys, and no rotation. -/
def HistoryState.start : HistoryState := ⟨emptyDb, fun _ => [], none⟩

theorem HistoryState.ok_of_reaches (hC : C.Correct) {s : HistoryState}
    (h : Run.Reaches (HistoryStep C J v) HistoryState.start s) : s.Ok C v := by
  refine Run.invariant (fun _ _ hok hstep => hok.step hC hstep) h ?_
  refine ⟨linkedOk_emptyDb, @keysOk_of_reachable (fun _ _ => True) emptyDb .refl v, ⟨?_, ?_⟩, ?_, ?_, ?_⟩
  · exact fun _ hpair => absurd hpair List.not_mem_nil
  · exact fun _ hpair => absurd hpair List.not_mem_nil
  · exact fun hstays => by cases hstays
  · exact fun _ _ _ _ _ hrow => by cases hrow
  · exact fun _ _ _ _ hrow => by cases hrow

end Steps

/-! ### What a member is handed -/

section Handed

variable {C : Ciphers Text} {J : MetaJson} {v : VaultId} {db : Db} {keys : ℕ → Text}
  {userId : UserId} {m : VaultMember} {row : VaultRow}

/-- The versions `k`, …, `n - 1` of `1`, …, `top - 1`. -/
theorem filter_range' {k n top : ℕ} (hk : 1 ≤ k) (hn : n ≤ top) :
    (List.range' 1 (top - 1)).filter (fun i => k ≤ i && i < n) = List.range' k (n - k) := by
  by_cases hkn : k ≤ n
  · have hsplit : List.range' 1 (top - 1) =
        List.range' 1 (k - 1) ++ (List.range' k (n - k) ++ List.range' n (top - n)) := by
      have hupper := @List.range'_append_1 k (n - k) (top - n)
      have hlower := @List.range'_append_1 1 (k - 1) ((n - k) + (top - n))
      rw [show k + (n - k) = n by omega] at hupper
      rw [show 1 + (k - 1) = k by omega, ← hupper,
        show k - 1 + (n - k + (top - n)) = top - 1 by omega] at hlower
      exact hlower.symm
    have hbelow : (List.range' 1 (k - 1)).filter (fun i => k ≤ i && i < n) = [] := by
      refine List.filter_eq_nil_iff.mpr fun i hi => ?_
      rw [List.mem_range'_1] at hi
      simp only [Bool.and_eq_true, decide_eq_true_eq]
      omega
    have habove : (List.range' n (top - n)).filter (fun i => k ≤ i && i < n) = [] := by
      refine List.filter_eq_nil_iff.mpr fun i hi => ?_
      rw [List.mem_range'_1] at hi
      simp only [Bool.and_eq_true, decide_eq_true_eq]
      omega
    have hwithin : (List.range' k (n - k)).filter (fun i => k ≤ i && i < n)
        = List.range' k (n - k) := by
      refine List.filter_eq_self.mpr fun i hi => ?_
      rw [List.mem_range'_1] at hi
      simp only [Bool.and_eq_true, decide_eq_true_eq]
      omega
    rw [hsplit, List.filter_append, List.filter_append, hbelow, habove, hwithin, List.nil_append,
      List.append_nil]
  · rw [show n - k = 0 by omega, List.range'_zero]
    refine List.filter_eq_nil_iff.mpr fun i _ => ?_
    simp only [Bool.and_eq_true, decide_eq_true_eq]
    omega

/-- The links of a vault are stored oldest first. -/
theorem keyLinks_eq (hkeys : (db.view v).KeysOk) (hrow : db.vault? v = some row) :
    db.keyLinks v = (db.view v).links := by
  have hchain := isCompleteKeyChain_iff.mp (hkeys.links row hrow)
  refine List.Pairwise.insertionSort_eq ?_
  have hsorted : ((db.view v).links.map (·.keyVersion)).Pairwise (· ≤ ·) := by
    rw [hchain.2]
    exact (List.pairwise_lt_range' 1).imp Nat.le_of_lt
  exact List.pairwise_map.mp hsorted

/-- The links between two versions are those of every version between them. -/
theorem map_keyVersion_keyLinks (hkeys : (db.view v).KeysOk) (hrow : db.vault? v = some row)
    {k n : ℕ} (hk : 1 ≤ k) (hn : n ≤ row.keyVersion) :
    ((db.keyLinks v).filter fun link => k ≤ link.keyVersion && link.keyVersion < n).map
      (·.keyVersion) = List.range' k (n - k) := by
  have hchain := isCompleteKeyChain_iff.mp (hkeys.links row hrow)
  rw [keyLinks_eq hkeys hrow, ← filter_range' hk hn, ← hchain.2, List.filter_map]
  rfl

/-- The vault of a member in the list their devices get. -/
theorem exists_memberVault (hrow : db.vault? v = some row) (hlive : row.deletedAt = none)
    (hm : db.member? v userId = some m) (hactive : m.status = .active) {wrap : WrappedKey}
    (hwrap : m.wrap = some wrap) :
    ∃ vault ∈ db.memberVaults userId, vault.vaultId = v ∧ vault.keyVersion = m.keyVersion ∧
      vault.wrap = wrap ∧
      vault.previousKeys = (db.keyLinks v).filter (·.keyVersion < m.keyVersion) := by
  have hmembership := activeMembership_of_member? hrow hlive hm hactive
  obtain ⟨hmem, rfl, -⟩ := Db.member?_mem hm
  refine ⟨{
    vaultId := m.vaultId
    keyVersion := m.keyVersion
    wrap := wrap
    role := m.role
    kind := row.kind
    encryptedMeta := row.encryptedMeta
    metaEncryptionNonce := row.metaEncryptionNonce
    previousKeys := (db.keyLinks m.vaultId).filter (·.keyVersion < m.keyVersion) },
    List.mem_filterMap.mpr ⟨m, List.mem_filter.mpr ⟨hmem, hmembership⟩, ?_⟩, rfl, rfl, rfl, rfl⟩
  rw [hrow, hwrap]
  rfl

/-- Honest links below a member's version lead to every earlier key. -/
theorem chainOpens_of_memberVault (hC : C.Correct) (hkeys : (db.view v).KeysOk)
    (hhonest : ∀ link ∈ (db.view v).links, HonestLink C v keys link)
    (hrow : db.vault? v = some row) (hm : db.member? v userId = some m) {vault : MemberVault}
    (hid : vault.vaultId = v) (hversion : vault.keyVersion = m.keyVersion)
    (hlinks : vault.previousKeys = (db.keyLinks v).filter (·.keyVersion < m.keyVersion)) :
    vault.ChainOpens C keys := by
  have hok := hkeys.members row userId m hrow hm
  refine ⟨hversion ▸ hok.pos, fun n hpos hn => ?_⟩
  have hmember : n ∈ vault.previousKeys.map (·.keyVersion) := by
    have hbetween := map_keyVersion_keyLinks hkeys hrow le_rfl hok.held_le
    have hn' : n ∈ List.range' 1 (m.keyVersion - 1) := by
      rw [List.mem_range'_1]
      omega
    rw [← hbetween] at hn'
    obtain ⟨link, hlink, rfl⟩ := List.mem_map.mp hn'
    obtain ⟨hmem, -⟩ := List.mem_filter.mp hlink
    rw [hlinks]
    exact List.mem_map_of_mem (List.mem_filter.mpr ⟨hmem, decide_eq_true (hversion ▸ hn)⟩)
  rw [hid]
  refine linkOpens_of_honest hC (fun link hlink => hhonest link ?_) hmember
  rw [hlinks, keyLinks_eq hkeys hrow] at hlink
  exact (List.mem_filter.mp hlink).1

/-- The key that waits for a member can be accepted. -/
theorem exec_acceptKey {keyVersion : ℕ} (wrap : WrappedKey) (hrow : db.vault? v = some row)
    (hlive : row.deletedAt = none) (hm : db.member? v userId = some m)
    (hsealed : m.HasSealed keyVersion) :
    (acceptKey userId v keyVersion wrap).exec db
      = some (db.setMember v userId (acceptedMember keyVersion wrap)) := by
  obtain ⟨sealed, hsealed, hversion⟩ := hsealed
  have hown : db.ownMembership userId v ≠ none := by
    simp [Db.ownMembership, hm, hrow, hlive]
  have haccepts : (db.member? v userId).any
      (fun m => m.sealedKey.map (·.sealedKeyVersion) = some keyVersion) = true := by
    rw [hm, Option.any_some, hsealed, Option.map_some, hversion]
    exact decide_eq_true rfl
  unfold acceptKey
  rw [Prog.exec_read]
  split
  · next hnone => exact absurd hnone hown
  · rw [exec_updateMemberWhere, haccepts, Db.updateMember, if_pos haccepts]
    rfl

/-- The user's devices have every key of the vault up to `keyVersion`: the list they get has the
vault at that version with a wrap of its key, `loadPreviousKeys` gives the keys below, and whoever
loads the list reads every record under one of them. -/
def HistoryBack (C : Ciphers Text) (v : VaultId) (keys : ℕ → Text) (keyVersion : ℕ)
    (userId : UserId) (accountKey : Text) (db : Db) : Prop :=
  ∃ vault ∈ db.memberVaults userId, vault.vaultId = v ∧ vault.keyVersion = keyVersion ∧
    unwrapVaultKey C accountKey vault.keyWrap = some (keys keyVersion) ∧
    (∀ loaded n, 1 ≤ n → n < keyVersion →
      loadPreviousKeys C vault (keys keyVersion) loaded (vaultKeyId v n) = some (keys n)) ∧
    ∀ (store store' : SecretsStore) skipped, store.accountKey = some accountKey →
      store.loadVaultKeys C (db.memberVaults userId) = .ok (store', skipped) →
      ReadsHistory C v keys keyVersion store'

/-- A member with a wrap of the vault's key has its history back. -/
theorem historyBack_of_member (hC : C.Correct) (hkeys : (db.view v).KeysOk)
    (hhonest : ∀ link ∈ (db.view v).links, HonestLink C v keys link)
    (hrow : db.vault? v = some row) (hlive : row.deletedAt = none)
    (hm : db.member? v userId = some m) (hactive : m.status = .active) {accountKey : Text}
    {wrap : WrappedKey} (hwrap : m.wrap = some wrap)
    (hopens : unwrapVaultKey C accountKey ⟨v, m.keyVersion, wrap⟩ = some (keys m.keyVersion)) :
    HistoryBack C v keys m.keyVersion userId accountKey db := by
  obtain ⟨vault, hvault, hid, hversion, hwrap', hlinks⟩ :=
    exists_memberVault hrow hlive hm hactive hwrap
  have hchain := chainOpens_of_memberVault hC hkeys hhonest hrow hm hid hversion hlinks
  have hopens' : unwrapVaultKey C accountKey vault.keyWrap = some (keys vault.keyVersion) := by
    rw [hversion, MemberVault.keyWrap, hid, hversion, hwrap', hopens]
  refine ⟨vault, hvault, hid, hversion, hversion ▸ hopens', fun loaded n hpos hn => ?_,
    fun store store' skipped haccount hload => ?_⟩
  · have := loadPreviousKeys_of_chainOpens hchain loaded hpos (hversion ▸ hn)
    rwa [hid, hversion] at this
  · have := readsHistory_of_loadVaultKeys hC hchain hopens' haccount hvault hload
    rwa [hid, hversion] at this

/-- So has one who accepts the vault's key. -/
theorem historyBack_of_accepted (hC : C.Correct) (hkeys : (db.view v).KeysOk)
    (hhonest : ∀ link ∈ (db.view v).links, HonestLink C v keys link)
    (hrow : db.vault? v = some row) (hlive : row.deletedAt = none)
    (hm : db.member? v userId = some m) {accountKey : Text} {wrap : VaultKeyWrap}
    (hopens : unwrapVaultKey C accountKey ⟨v, row.keyVersion, wrap.wrap⟩
      = some (keys row.keyVersion)) :
    HistoryBack C v keys row.keyVersion userId accountKey
      (db.setMember v userId (acceptedMember row.keyVersion wrap.wrap)) := by
  have hview := view_setMember (f := acceptedMember row.keyVersion wrap.wrap)
    (fun _ => ⟨rfl, rfl⟩) hm
  have hkeys' : ((db.view v).setMember userId
      (some (acceptedMember row.keyVersion wrap.wrap m))).KeysOk := by
    refine hkeys.setMember fun row' m' hrow' hm' => ?_
    obtain rfl := Option.some.inj (hrow.symm.trans hrow')
    obtain rfl := Option.some.inj hm'
    exact keyOk_acceptedMember (hkeys.pos hrow) wrap.wrap
  rw [← hview] at hkeys'
  have hm' : (db.setMember v userId (acceptedMember row.keyVersion wrap.wrap)).member? v userId
      = some (acceptedMember row.keyVersion wrap.wrap m) := by
    have := congrFun (congrArg VaultView.member hview) userId
    rwa [VaultView.member_setMember, if_pos rfl] at this
  exact historyBack_of_member hC hkeys' hhonest hrow hlive hm' rfl rfl hopens

/-- What a member is handed is the seal in their row, with the links up from the version they
hold. -/
theorem of_mem_keyUpdates (hdb : TablesOk db) (hm : db.member? v userId = some m)
    {update : VaultKeyUpdate} (hupdate : update ∈ db.keyUpdates userId)
    (hid : update.vaultId = v) :
    ∃ sealed pair, m.sealedKey = some sealed ∧ db.sealedBy sealed = some pair ∧
      db.keyUpdate m sealed pair = update := by
  obtain ⟨m', hmem, hmembership, sealed, hsealed, pair, hpair, rfl⟩ := mem_keyUpdates.mp hupdate
  have huser : m'.userId = userId := by
    simp only [Db.activeMembership, Bool.and_eq_true, decide_eq_true_eq] at hmembership
    exact hmembership.1.1
  have hm' := hdb.member?_eq hmem
  rw [huser, show m'.vaultId = v from hid, hm] at hm'
  obtain rfl := Option.some.inj hm'
  exact ⟨sealed, pair, hsealed, hpair, rfl⟩

end Handed

/-! ### The update of a member -/

section Update

variable {C : Ciphers Text} {J : MetaJson} {v : VaultId} {s : HistoryState} {userId : UserId}
  {m : VaultMember} {row : VaultRow} {store : SecretsStore} {accountKey privateKey : Text}

/-- An update opens when its box does and its links lead down to the key that is held. -/
theorem openKeyUpdate_eq_ok {update : VaultKeyUpdate} {heldVersion : ℕ} {held newKey : Text}
    (haccount : store.accountKey = some accountKey)
    (hcurrent : store.currentKeyVersions update.vaultId = some heldVersion)
    (hheld : store.vaultKeys (vaultKeyId update.vaultId heldVersion) = some held)
    (hnewer : heldVersion < update.keyVersion)
    (hopened : store.openSealed C update.sealedVaultKey update.recipientKeyVersion update.sender
      update.vaultId update.keyVersion = .ok newKey)
    (hwalk : SecretsStore.walkChain C update.vaultId update.links heldVersion
      (update.keyVersion - heldVersion) newKey = .ok held) (nonce : Text) :
    store.openKeyUpdate C nonce update
      = .ok (wrapVaultKey C nonce accountKey newKey update.vaultId update.keyVersion) := by
  refine bind_eq_ok.mpr ⟨accountKey, SecretsStore.unlocked_eq_ok.mpr haccount, ?_⟩
  refine bind_eq_ok.mpr ⟨heldVersion, SecretsStore.unlocked_eq_ok.mpr hcurrent, ?_⟩
  rw [if_neg (by omega)]
  refine bind_eq_ok.mpr ⟨held, SecretsStore.unlocked_eq_ok.mpr hheld, ?_⟩
  refine bind_eq_ok.mpr ⟨newKey, hopened, ?_⟩
  refine bind_eq_ok.mpr ⟨held, hwalk, ?_⟩
  rw [if_neg (not_not.mpr rfl)]

/-- **The update opens down to the key the member holds.** -/
theorem openKeyUpdate_of_ok (hC : C.Correct) (hok : s.Ok C v) (hrow : s.db.vault? v = some row)
    (hm : s.db.member? v userId = some m) (hactive : m.status = .active)
    (haccount : store.accountKey = some accountKey)
    (hdevice : HoldsKey C v s.db s.keys userId m.keyVersion privateKey store) {sealed : SealedKey}
    {pair : UserKeyPair} (hsealed : m.sealedKey = some sealed)
    (hpair : s.db.sealedBy sealed = some pair) (hbehind : m.keyVersion < row.keyVersion)
    (nonce : Text) :
    store.openKeyUpdate C nonce (s.db.keyUpdate m sealed pair)
      = .ok (wrapVaultKey C nonce accountKey (s.keys row.keyVersion) v row.keyVersion) := by
  obtain ⟨-, rfl, -⟩ := Db.member?_mem hm
  have hmember := hok.keysOk.members row userId m hrow hm
  have hversion : sealed.sealedKeyVersion = row.keyVersion := hmember.hasSealed hsealed
  obtain ⟨hpairs, hsender, hsenderVersion⟩ := userId_of_sealedBy hpair
  obtain ⟨random, senderKey, recipientKey, hsenderPair, hrecipientPair, hmade⟩ :=
    hok.seals row userId m sealed pair.userId hrow hm hactive hsealed hsender
  obtain ⟨pairVersion, hdeviceVersion, hdevicePair⟩ := hdevice.pair
  -- Each of the two has one key pair.
  have hsenderKey : pair.publicKey = C.publicKey senderKey :=
    congrArg UserKeyPair.publicKey (hok.pairs.unique _ hpairs _ hsenderPair rfl)
  have hrecipient := hok.pairs.unique _ hdevicePair _ hrecipientPair rfl
  have hrecipientVersion : pairVersion = sealed.sealedToKeyVersion :=
    congrArg UserKeyPair.keyVersion hrecipient
  have hrecipientKey : C.publicKey privateKey = recipientKey :=
    congrArg UserKeyPair.publicKey hrecipient
  rw [← hrecipientKey, ← hversion] at hmade
  rw [← hversion] at hbehind ⊢
  have hopened : store.openSealed C sealed.sealedVaultKey sealed.sealedToKeyVersion
      ⟨pair.userId, ⟨pair.keyVersion, pair.publicKey⟩⟩ m.vaultId sealed.sealedKeyVersion
        = .ok (s.keys sealed.sealedKeyVersion) := by
    refine bind_eq_ok.mpr ⟨privateKey, SecretsStore.unlocked_eq_ok.mpr hdevice.unlocked, ?_⟩
    rw [if_neg (by rw [hdeviceVersion, hrecipientVersion, not_not]), hsenderKey]
    exact SecretsStore.opened_eq_ok.mpr (openSealedVaultKey_sealVaultKey hC hmade)
  have hwalk := @walkChain_of_linkOpens C m.vaultId (s.db.keyUpdate m sealed pair).links s.keys
    m.keyVersion (sealed.sealedKeyVersion - m.keyVersion) fun n hn hlt => by
      refine linkOpens_of_honest hC (fun link hlink => ?_) ?_
      · have hmem := (List.mem_filter.mp hlink).1
        rw [keyLinks_eq hok.keysOk hrow] at hmem
        exact hok.links (hrow ▸ rfl) link hmem
      · dsimp only [Db.keyUpdate]
        rw [map_keyVersion_keyLinks hok.keysOk hrow hmember.pos hversion.le, List.mem_range'_1]
        exact ⟨hn, hlt⟩
  rw [Nat.add_sub_cancel' hbehind.le] at hwalk
  exact @openKeyUpdate_eq_ok C store accountKey (s.db.keyUpdate m sealed pair) m.keyVersion
    (s.keys m.keyVersion) (s.keys sealed.sealedKeyVersion) haccount hdevice.current hdevice.key
    hbehind hopened hwalk nonce

/-- A member who is behind has a seal of the vault's key; its sender's key pair is there while the
account of whoever made the last rotation is. -/
theorem exists_sealed (hok : s.Ok C v) (hrow : s.db.vault? v = some row)
    (hm : s.db.member? v userId = some m) (hactive : m.status = .active)
    (hbehind : m.keyVersion < row.keyVersion) :
    ∃ sealed, m.sealedKey = some sealed ∧ ((s.db.sealedBy sealed).isSome ↔ s.rotator.isSome) := by
  obtain ⟨-, ⟨hheld, -⟩ | ⟨-, sealed, hsealed, -⟩⟩ :=
    (hok.keysOk.members row userId m hrow hm).active hactive
  · omega
  have hsender := hok.senders row userId m sealed hrow hm hactive hsealed
  refine ⟨sealed, hsealed, fun hpair => ?_, fun hrotator => ?_⟩
  · obtain ⟨pair, hpair⟩ := Option.isSome_iff_exists.mp hpair
    rw [← hsender, (userId_of_sealedBy hpair).2.1]
    rfl
  · obtain ⟨sender, hrotator⟩ := Option.isSome_iff_exists.mp hrotator
    obtain ⟨_, privateKey, _, hpair, -⟩ :=
      hok.seals row userId m sealed sender hrow hm hactive hsealed (hsender.trans hrotator)
    refine List.find?_isSome.mpr ⟨_, hpair, ?_⟩
    rw [Bool.and_eq_true]
    exact ⟨decide_eq_true (hsender.trans hrotator).symm, decide_eq_true rfl⟩

/-- A member's devices can read the history of the vault: they load the keys below the one they hold;
when the vault has a newer one, an update of it is handed to them; and an update they are handed has
the links from the version they hold to the vault's, in order, opens, and once its wrap is accepted
every key and every record of the vault is theirs. -/
structure HistoryReadable (C : Ciphers Text) (v : VaultId) (s : HistoryState) (row : VaultRow)
    (userId : UserId) (m : VaultMember) (store : SecretsStore) (accountKey : Text) : Prop where
  loads : ∃ vault ∈ s.db.memberVaults userId, vault.vaultId = v ∧ vault.keyVersion = m.keyVersion ∧
    ∀ loaded n, 1 ≤ n → n < m.keyVersion →
      loadPreviousKeys C vault (s.keys m.keyVersion) loaded (vaultKeyId v n) = some (s.keys n)
  handed : m.keyVersion < row.keyVersion → ∃ update ∈ s.db.keyUpdates userId, update.vaultId = v
  opens : ∀ update ∈ s.db.keyUpdates userId, update.vaultId = v →
    m.keyVersion < row.keyVersion ∧ update.keyVersion = row.keyVersion ∧
      update.links.map (·.keyVersion)
        = List.range' m.keyVersion (row.keyVersion - m.keyVersion) ∧
      ∀ nonce, ∃ wrap db', store.openKeyUpdate C nonce update = .ok wrap ∧
        (acceptKey userId v wrap.keyVersion wrap.wrap).exec s.db = some db' ∧
        HistoryBack C v s.keys row.keyVersion userId accountKey db'

/-- What a member is handed of the vault opens, and gives them its history. -/
theorem opens_of_handed (hC : C.Correct) (hok : s.Ok C v) (hrow : s.db.vault? v = some row)
    (hlive : row.deletedAt = none) (hm : s.db.member? v userId = some m) (hactive : m.status = .active)
    (haccount : store.accountKey = some accountKey)
    (hdevice : HoldsKey C v s.db s.keys userId m.keyVersion privateKey store) {update : VaultKeyUpdate}
    (hupdate : update ∈ s.db.keyUpdates userId) (hid : update.vaultId = v) :
    m.keyVersion < row.keyVersion ∧ update.keyVersion = row.keyVersion ∧
      update.links.map (·.keyVersion)
        = List.range' m.keyVersion (row.keyVersion - m.keyVersion) ∧
      ∀ nonce, ∃ wrap db', store.openKeyUpdate C nonce update = .ok wrap ∧
        (acceptKey userId v wrap.keyVersion wrap.wrap).exec s.db = some db' ∧
        HistoryBack C v s.keys row.keyVersion userId accountKey db' := by
  have hmember := hok.keysOk.members row userId m hrow hm
  obtain ⟨sealed, pair, hsealed, hpair, rfl⟩ :=
    of_mem_keyUpdates hok.tables.toTablesOk hm hupdate hid
  have hversion : sealed.sealedKeyVersion = row.keyVersion := hmember.hasSealed hsealed
  have hbehind : m.keyVersion < row.keyVersion := by
    obtain ⟨-, ⟨-, hnone⟩ | ⟨hlt, -⟩⟩ := hmember.active hactive
    · rw [hsealed] at hnone
      cases hnone
    · exact hlt
  refine ⟨hbehind, hversion, ?_, fun nonce => ?_⟩
  · dsimp only [Db.keyUpdate]
    rw [show m.vaultId = v from hid, hversion]
    exact map_keyVersion_keyLinks hok.keysOk hrow hmember.pos le_rfl
  · have hopens := openKeyUpdate_of_ok hC hok hrow hm hactive haccount hdevice hsealed hpair
      hbehind nonce
    have haccept := exec_acceptKey
      (wrapVaultKey C nonce accountKey (s.keys row.keyVersion) v row.keyVersion).wrap hrow hlive hm
      ⟨sealed, hsealed, hversion⟩
    refine ⟨_, _, hopens, haccept, ?_⟩
    exact historyBack_of_accepted hC hok.keysOk (hok.links (hrow ▸ rfl)) hrow hlive hm
      (unwrapVaultKey_wrapVaultKey hC nonce accountKey (s.keys row.keyVersion) v row.keyVersion)

/-- **The history of a vault's keys stays readable while the account that rotated it last is there.**
Take any honest history, and a member who holds any version of the key: they can read the history
exactly when they hold the vault's key, or whoever made the last rotation has not deleted their
account since. -/
theorem key_history (hC : C.Correct)
    (h : Run.Reaches (HistoryStep C J v) HistoryState.start s)
    (hrow : s.db.vault? v = some row) (hlive : row.deletedAt = none)
    (hm : s.db.member? v userId = some m) (hactive : m.status = .active)
    (haccount : store.accountKey = some accountKey)
    (hdevice : HoldsKey C v s.db s.keys userId m.keyVersion privateKey store) :
    m.keyVersion ≤ row.keyVersion ∧
      (HistoryReadable C v s row userId m store accountKey ↔
        m.keyVersion = row.keyVersion ∨ s.rotator.isSome) := by
  have hok := HistoryState.ok_of_reaches hC h
  have hmember := hok.keysOk.members row userId m hrow hm
  refine ⟨hmember.held_le, fun hreadable => ?_, fun hwhen => ⟨?_, fun hbehind => ?_,
    fun update hupdate hid =>
      opens_of_handed hC hok hrow hlive hm hactive haccount hdevice hupdate hid⟩⟩
  · refine (hmember.held_le.eq_or_lt).imp id fun hbehind => ?_
    obtain ⟨update, hupdate, hid⟩ := hreadable.handed hbehind
    obtain ⟨sealed, hsealed, hsender⟩ := exists_sealed hok hrow hm hactive hbehind
    obtain ⟨sealed', pair, hsealed', hpair, -⟩ :=
      of_mem_keyUpdates hok.tables.toTablesOk hm hupdate hid
    obtain rfl := Option.some.inj (hsealed'.symm.trans hsealed)
    exact hsender.mp (Option.isSome_iff_exists.mpr ⟨pair, hpair⟩)
  · obtain ⟨wrap, hwrap⟩ := Option.isSome_iff_exists.mp (hmember.active hactive).1
    obtain ⟨vault, hvault, hid, hversion, -, hlinks⟩ :=
      exists_memberVault hrow hlive hm hactive hwrap
    have hchain := chainOpens_of_memberVault hC hok.keysOk (hok.links (hrow ▸ rfl)) hrow hm hid
      hversion hlinks
    refine ⟨vault, hvault, hid, hversion, fun loaded n hpos hn => ?_⟩
    have hloaded := loadPreviousKeys_of_chainOpens hchain loaded hpos (hversion ▸ hn)
    rwa [hid, hversion] at hloaded
  · obtain ⟨sealed, hsealed, hsender⟩ := exists_sealed hok hrow hm hactive hbehind
    obtain ⟨pair, hpair⟩ := Option.isSome_iff_exists.mp
      (hsender.mpr (hwhen.resolve_left hbehind.ne))
    refine ⟨s.db.keyUpdate m sealed pair, mem_keyUpdates.mpr ⟨m, (Db.member?_mem hm).1, ?_⟩,
      (Db.member?_mem hm).2.1⟩
    exact ⟨activeMembership_of_member? hrow hlive hm hactive, sealed, hsealed, pair, hpair, rfl⟩

end Update

/-! ### A member two rotations behind -/

section Behind

open IdealCipher (wordCiphers wordCiphers_ideal)

/-- The tables after an operation that commits. -/
def Operation.after (op : Operation) (db : Db) : Db := (op.run db).getD db

theorem run_after {op : Operation} {db : Db} (h : (op.run db).isSome) :
    op.run db = some (op.after db) := by
  obtain ⟨db', hrun⟩ := Option.isSome_iff_exists.mp h
  rw [Operation.after, hrun, Option.getD_some]

/-- An operation besides the rotations, in a vault without links. -/
theorem historyStep_of_noLinks {C : Ciphers Text} {J : MetaJson} {v : VaultId} {s : HistoryState}
    {keys : ℕ → Text} (op : Operation) (hrun : (op.run s.db).isSome)
    (hlinks : ((op.after s.db).view v).links = []) (hkeys : (s.db.vault? v).isSome → keys = s.keys)
    (hop : ∀ userId input valid, op ≠ .rotateKey userId input valid) :
    HistoryStep C J v s ⟨op.after s.db, keys, op.rotatorAfter v s.rotator⟩ := by
  refine ⟨op, run_after hrun, ⟨fun _ link hlink => ?_, fun hvault _ => hkeys hvault,
    fun userId input valid hrotates => absurd hrotates (hop userId input valid)⟩, rfl⟩
  rw [hlinks] at hlink
  cases hlink

/-- An operation besides the rotations, while the vault is there. -/
theorem historyStep_of_vault {C : Ciphers Text} {J : MetaJson} {v : VaultId} {s : HistoryState}
    (op : Operation) (hrun : (op.run s.db).isSome) (hvault : (s.db.vault? v).isSome)
    (hop : ∀ userId input valid, op ≠ .rotateKey userId input valid) :
    HistoryStep C J v s ⟨op.after s.db, s.keys, op.rotatorAfter v s.rotator⟩ := by
  refine ⟨op, run_after hrun, ⟨fun hnone => ?_, fun _ _ => rfl,
    fun userId input valid hrotates => absurd hrotates (hop userId input valid)⟩, rfl⟩
  rw [hnone] at hvault
  cases hvault

/-- A user whose private key is a letter. -/
def keyedRegistration (userId : UserId) (vaultId : VaultId) (email : Char) :
    FinishRegistrationInput :=
  { registration userId vaultId email with publicKey := ['p', email] }

/-- Key `n` of vault 3. -/
def vaultKeyOf (n : ℕ) : Text := List.replicate n 'k'

/-- A device that holds key `n` of vault 3. -/
def deviceAt (privateKey : Char) (n : ℕ) : SecretsStore :=
  { SecretsStore.empty with
    accountKey := some []
    vaultKeys := Function.update (fun _ => none) (vaultKeyId 3 n) (some (vaultKeyOf n))
    currentKeyVersions := Function.update (fun _ => none) 3 (some n)
    userPrivateKey := some [privateKey]
    userKeyPairVersion := some 1 }

theorem holdsKey_deviceAt {db : Db} {userId : UserId} {privateKey : Char} (n : ℕ)
    (hpair : ⟨userId, 1, ['p', privateKey]⟩ ∈ db.userKeyPairs) :
    HoldsKey wordCiphers 3 db vaultKeyOf userId n [privateKey] (deviceAt privateKey n) where
  current := by simp [deviceAt]
  key := dif_pos rfl
  unlocked := rfl
  pair := ⟨1, rfl, hpair⟩

/-- The rotation of vault 3 from key `n`, by user 7, sealed to user 8. -/
def rotationFrom (n : ℕ) : RotatedVault where
  rotated := (Passmgr.rotateVaultKey wordCiphers nameJson ⟨vaultKeyOf (n + 1), [], [], []⟩ []
    (vaultKeyOf n) 3 n ⟨[], none, none⟩).1
  previousKey := (Passmgr.rotateVaultKey wordCiphers nameJson ⟨vaultKeyOf (n + 1), [], [], []⟩ []
    (vaultKeyOf n) 3 n ⟨[], none, none⟩).2
  memberKeys := [⟨8, 1, (sealVaultKey wordCiphers ⟨[], []⟩ ['a'] ['p', 'b'] (vaultKeyOf (n + 1)) 3
    (n + 1)).getD []⟩]

theorem rotationFrom_valid {n : ℕ} (hpos : 1 ≤ n) (hmax : n ≤ 255) :
    (rotateKeyInput (rotationFrom n) 1).Valid where
  min := Nat.succ_le_succ hpos
  max := Nat.succ_le_succ hmax
  previous := rfl
  seals := List.nodup_singleton 8

/-- User 7 rotates from key `n`. -/
def rotateFrom (n : ℕ) (hpos : 1 ≤ n) (hmax : n ≤ 255) : Operation :=
  .rotateKey 7 (rotateKeyInput (rotationFrom n) 1) (rotationFrom_valid hpos hmax)

theorem rotateVaultKey_deviceAt (n : ℕ) :
    (deviceAt 'a' n).rotateVaultKey wordCiphers nameJson ⟨vaultKeyOf (n + 1), [], [], []⟩
      (fun _ => ⟨[], []⟩) 3
      (Passmgr.encryptVaultMeta wordCiphers nameJson [] (vaultKeyOf n) 3 ⟨[], none, none⟩)
      [⟨8, 1, ['p', 'b']⟩] = .ok (rotationFrom n) := by
  have hcurrent : (deviceAt 'a' n).currentKeyVersion 3 = .ok n :=
    SecretsStore.unlocked_eq_ok.mpr (by simp [deviceAt])
  have hkey : (deviceAt 'a' n).vaultKey 3 n = .ok (vaultKeyOf n) :=
    SecretsStore.unlocked_eq_ok.mpr (by simp [deviceAt])
  have hmeta : (deviceAt 'a' n).decryptVaultMeta wordCiphers nameJson 3
      (Passmgr.encryptVaultMeta wordCiphers nameJson [] (vaultKeyOf n) 3 ⟨[], none, none⟩)
        = .ok ⟨[], none, none⟩ := by
    refine bind_eq_ok.mpr ⟨n, hcurrent, bind_eq_ok.mpr ⟨_, hkey, bind_eq_ok.mpr ⟨_,
      SecretsStore.opened_eq_ok.mpr (wordCiphers_ideal.decrypt_encrypt _ _ _ _), ?_⟩⟩⟩
    rfl
  refine bind_eq_ok.mpr ⟨[], rfl, bind_eq_ok.mpr ⟨n, hcurrent, bind_eq_ok.mpr ⟨_, hkey,
    bind_eq_ok.mpr ⟨_, hmeta, ?_⟩⟩⟩⟩
  refine bind_eq_ok.mpr ⟨vaultKeyOf (n + 1), SecretsStore.opened_eq_ok.mpr
    (wordCiphers_ideal.decrypt_encrypt _ _ _ _), ?_⟩
  rfl

theorem historyStep_rotateFrom {db : Db} {n : ℕ} {hpos : 1 ≤ n} {hmax : n ≤ 255}
    (hrun : ((rotateFrom n hpos hmax).run db).isSome) (hvault : (db.vault? 3).isSome)
    (hpairs : ⟨7, 1, ['p', 'a']⟩ ∈ db.userKeyPairs ∧ ⟨8, 1, ['p', 'b']⟩ ∈ db.userKeyPairs)
    (rotator : Option UserId) :
    HistoryStep wordCiphers nameJson 3 ⟨db, vaultKeyOf, rotator⟩
      ⟨(rotateFrom n hpos hmax).after db, vaultKeyOf, some 7⟩ := by
  refine ⟨_, run_after hrun, ⟨fun hnone => ?_, fun _ hother => ?_,
    fun userId input valid hop _ => ?_⟩, rfl⟩
  · rw [hnone] at hvault
    cases hvault
  · exact absurd rfl (hother 7 _ (rotationFrom_valid hpos hmax) rfl)
  · cases hop
    refine ⟨deviceAt 'a' n, n, 1, ['a'], _, _, _, _, rotationFrom n, holdsKey_deviceAt n hpairs.1,
      rfl, fun member hmember => ?_, rotateVaultKey_deviceAt n, rfl, (Function.update_eq_self _ _).symm⟩
    obtain rfl := List.mem_singleton.mp hmember
    exact hpairs.2

/-- User 7 has made vault 3, -/
def keyedDb : Db :=
  (Operation.create 7 sharedVault).after <|
  (Operation.finishRegistration (keyedRegistration 8 2 'b')).after <|
  (Operation.finishRegistration (keyedRegistration 7 1 'a')).after emptyDb

/-- user 8 has joined it, -/
def joinedDb : Db :=
  (Operation.acceptKey 8 3 1 ⟨[], []⟩).after <| (Operation.invite 7 sharedInvite).after keyedDb

/-- missed a rotation, -/
def missedDb : Db := (rotateFrom 1 (by decide) (by decide +kernel)).after joinedDb

/-- and another. -/
def behindDb : Db := (rotateFrom 2 (by decide) (by decide +kernel)).after missedDb

theorem reaches_after {op : Operation} {db : Db}
    (h : Run.Reaches (HistoryStep wordCiphers nameJson 3) HistoryState.start ⟨db, vaultKeyOf, none⟩)
    (hrun : (op.run db).isSome) (hlinks : ((op.after db).view 3).links = [])
    (hop : ∀ userId input valid, op ≠ .rotateKey userId input valid) :
    Run.Reaches (HistoryStep wordCiphers nameJson 3) HistoryState.start
      ⟨op.after db, vaultKeyOf, op.rotatorAfter 3 none⟩ :=
  h.tail (historyStep_of_noLinks op hrun hlinks (fun _ => rfl) hop)

/-- The operations up to the invite are done, and vault 3 has no links yet. -/
theorem joinedDb_facts :
    let first := (Operation.finishRegistration (keyedRegistration 7 1 'a')).after emptyDb
    let second := (Operation.finishRegistration (keyedRegistration 8 2 'b')).after first
    let invited := (Operation.invite 7 sharedInvite).after keyedDb
    (((Operation.finishRegistration (keyedRegistration 7 1 'a')).run emptyDb).isSome ∧
      (first.view 3).links = [] ∧ ¬ (emptyDb.vault? 3).isSome) ∧
    (((Operation.finishRegistration (keyedRegistration 8 2 'b')).run first).isSome ∧
      (second.view 3).links = []) ∧
    (((Operation.create 7 sharedVault).run second).isSome ∧ (keyedDb.view 3).links = []) ∧
    (((Operation.invite 7 sharedInvite).run keyedDb).isSome ∧ (invited.view 3).links = []) ∧
    ((Operation.acceptKey 8 3 1 ⟨[], []⟩).run invited).isSome ∧ (joinedDb.view 3).links = [] := by
  decide +kernel

theorem reaches_joinedDb : Run.Reaches (HistoryStep wordCiphers nameJson 3) HistoryState.start
    ⟨joinedDb, vaultKeyOf, none⟩ := by
  obtain ⟨⟨hfirst, hfirstLinks, hnone⟩, ⟨hsecond, hsecondLinks⟩, ⟨hcreate, hcreateLinks⟩,
    ⟨hinvite, hinviteLinks⟩, haccept, hacceptLinks⟩ := joinedDb_facts
  have hregistered : HistoryStep wordCiphers nameJson 3 HistoryState.start
      ⟨(Operation.finishRegistration (keyedRegistration 7 1 'a')).after emptyDb, vaultKeyOf, none⟩ :=
    historyStep_of_noLinks (.finishRegistration (keyedRegistration 7 1 'a')) hfirst hfirstLinks
      (fun hvault => absurd hvault hnone) nofun
  have hregistered' := @reaches_after (.finishRegistration (keyedRegistration 8 2 'b')) _
    (.single hregistered) hsecond hsecondLinks nofun
  have hcreated := @reaches_after (.create 7 sharedVault) _ hregistered' hcreate hcreateLinks nofun
  have hinvited := @reaches_after (.invite 7 sharedInvite) _ hcreated hinvite hinviteLinks nofun
  exact @reaches_after (.acceptKey 8 3 1 ⟨[], []⟩) _ hinvited haccept hacceptLinks nofun

/-- Both rotations are done, and what the tables have of vault 3 and of user 8 in it. -/
theorem behindDb_facts :
    (((rotateFrom 1 (by decide) (by decide)).run joinedDb).isSome ∧ (joinedDb.vault? 3).isSome ∧
      ⟨7, 1, ['p', 'a']⟩ ∈ joinedDb.userKeyPairs ∧ ⟨8, 1, ['p', 'b']⟩ ∈ joinedDb.userKeyPairs) ∧
    (((rotateFrom 2 (by decide) (by decide)).run missedDb).isSome ∧ (missedDb.vault? 3).isSome ∧
      ⟨7, 1, ['p', 'a']⟩ ∈ missedDb.userKeyPairs ∧ ⟨8, 1, ['p', 'b']⟩ ∈ missedDb.userKeyPairs) ∧
    ⟨8, 1, ['p', 'b']⟩ ∈ behindDb.userKeyPairs ∧
    (behindDb.member? 3 8).map (fun m => (m.status, m.keyVersion)) = some (.active, 1) ∧
    (behindDb.vault? 3).map (fun row => (row.deletedAt, row.keyVersion)) = some (none, 3) := by
  decide +kernel

/-- User 8 missed the rotation. -/
theorem reaches_missedDb : Run.Reaches (HistoryStep wordCiphers nameJson 3) HistoryState.start
    ⟨missedDb, vaultKeyOf, some 7⟩ := by
  obtain ⟨hrun, hvault, hpairs⟩ := behindDb_facts.1
  exact reaches_joinedDb.tail (historyStep_rotateFrom hrun hvault hpairs none)

theorem reaches_behindDb : Run.Reaches (HistoryStep wordCiphers nameJson 3) HistoryState.start
    ⟨behindDb, vaultKeyOf, some 7⟩ := by
  obtain ⟨hrun, hvault, hpairs⟩ := behindDb_facts.2.1
  exact reaches_missedDb.tail (historyStep_rotateFrom hrun hvault hpairs (some 7))

/-- User 8, who holds key 1, is handed key 3 with the links 1 and 2. -/
theorem key_history_behind :
    ∃ update ∈ behindDb.keyUpdates 8, update.links.map (·.keyVersion) = [1, 2] ∧
      ∃ wrap db', (deviceAt 'b' 1).openKeyUpdate wordCiphers [] update = .ok wrap ∧
        (acceptKey 8 3 wrap.keyVersion wrap.wrap).exec behindDb = some db' ∧
        HistoryBack wordCiphers 3 vaultKeyOf 3 8 [] db' := by
  obtain ⟨-, -, hpair, hmember, hvault⟩ := behindDb_facts
  obtain ⟨m, hm, hmember⟩ := Option.map_eq_some_iff.mp hmember
  obtain ⟨row, hrow, hvault⟩ := Option.map_eq_some_iff.mp hvault
  obtain ⟨hactive, hheld⟩ := Prod.mk.inj hmember
  obtain ⟨hlive, hversion⟩ := Prod.mk.inj hvault
  have hdevice := @holdsKey_deviceAt behindDb 8 'b' 1 hpair
  rw [← hheld] at hdevice
  have hreadable := (key_history wordCiphers_ideal.toCorrect reaches_behindDb hrow hlive
    hm hactive rfl hdevice).2.mpr (.inr rfl)
  obtain ⟨update, hupdate, hid⟩ := hreadable.handed (by omega)
  obtain ⟨-, -, hlinks, hopens⟩ := hreadable.opens update hupdate hid
  obtain ⟨wrap, db', hopens, haccept, hback⟩ := hopens []
  rw [hheld, hversion] at hlinks
  rw [hheld] at hopens
  exact ⟨update, hupdate, hlinks, wrap, db', hopens, haccept, hversion ▸ hback⟩

/-- User 8 became an owner, -/
def ownedDb : Db := (Operation.setMemberRole 7 3 8 .owner).after joinedDb

/-- user 7 rotated and deleted their account. -/
def abandonedDb : Db :=
  (Operation.deleteAccount 7).after <| (rotateFrom 1 (by decide) (by decide +kernel)).after ownedDb

/-- The operations are done, and what the tables have of vault 3. -/
theorem abandonedDb_facts :
    (((Operation.setMemberRole 7 3 8 .owner).run joinedDb).isSome ∧ (joinedDb.vault? 3).isSome) ∧
    (((rotateFrom 1 (by decide) (by decide)).run ownedDb).isSome ∧ (ownedDb.vault? 3).isSome ∧
      ⟨7, 1, ['p', 'a']⟩ ∈ ownedDb.userKeyPairs ∧ ⟨8, 1, ['p', 'b']⟩ ∈ ownedDb.userKeyPairs) ∧
    (((Operation.deleteAccount 7).run ((rotateFrom 1 (by decide) (by decide)).after ownedDb)).isSome ∧
      (((rotateFrom 1 (by decide) (by decide)).after ownedDb).vault? 3).isSome) ∧
    (∀ member ∈ abandonedDb.vaultMembers, member.vaultId = 3 → member.userId = 8) ∧
    ⟨8, 1, ['p', 'b']⟩ ∈ abandonedDb.userKeyPairs ∧
    (abandonedDb.member? 3 8).map (fun m => (m.status, m.role, m.keyVersion))
      = some (.active, .owner, 1) ∧
    (abandonedDb.vault? 3).map (fun row => (row.deletedAt, row.keyVersion)) = some (none, 2) ∧
    (abandonedDb.keyUpdates 8).length = 0 := by
  decide +kernel

theorem reaches_abandonedDb : Run.Reaches (HistoryStep wordCiphers nameJson 3) HistoryState.start
    ⟨abandonedDb, vaultKeyOf, none⟩ := by
  obtain ⟨⟨howner, hjoined⟩, ⟨hrotate, howned, hpairs⟩, ⟨hdelete, hrotated⟩, -⟩ := abandonedDb_facts
  have howner := reaches_joinedDb.tail (historyStep_of_vault (.setMemberRole 7 3 8 .owner)
    howner hjoined nofun)
  have hrotate := howner.tail (historyStep_rotateFrom hrotate howned hpairs none)
  exact hrotate.tail (historyStep_of_vault (.deleteAccount 7) hdelete hrotated nofun)

/-- **The rotator's account is gone**: user 8, an owner with key 1, is alone in the vault with key 2,
and is handed nothing. -/
theorem rotator_gone :
    Run.Reaches (HistoryStep wordCiphers nameJson 3) HistoryState.start
      ⟨abandonedDb, vaultKeyOf, none⟩ ∧
    (∀ member ∈ abandonedDb.vaultMembers, member.vaultId = 3 → member.userId = 8) ∧
    ∃ row m, abandonedDb.vault? 3 = some row ∧ row.deletedAt = none ∧ row.keyVersion = 2 ∧
      abandonedDb.member? 3 8 = some m ∧ m.status = .active ∧ m.role = .owner ∧ m.keyVersion = 1 ∧
      HoldsKey wordCiphers 3 abandonedDb vaultKeyOf 8 m.keyVersion ['b'] (deviceAt 'b' 1) ∧
      abandonedDb.keyUpdates 8 = [] ∧
      ¬ HistoryReadable wordCiphers 3 ⟨abandonedDb, vaultKeyOf, none⟩ row 8 m (deviceAt 'b' 1) [] := by
  obtain ⟨-, -, -, hothers, hpair, hmember, hvault, hnone⟩ := abandonedDb_facts
  obtain ⟨m, hm, hmember⟩ := Option.map_eq_some_iff.mp hmember
  obtain ⟨row, hrow, hvault⟩ := Option.map_eq_some_iff.mp hvault
  obtain ⟨hactive, hmember⟩ := Prod.mk.inj hmember
  obtain ⟨hrole, hheld⟩ := Prod.mk.inj hmember
  obtain ⟨hlive, hversion⟩ := Prod.mk.inj hvault
  have hnone := List.length_eq_zero_iff.mp hnone
  refine ⟨reaches_abandonedDb, hothers, row, m, hrow, hlive, hversion, hm, hactive, hrole, hheld,
    hheld ▸ holdsKey_deviceAt 1 hpair, hnone, fun hreadable => ?_⟩
  obtain ⟨update, hupdate, -⟩ := hreadable.handed (by omega)
  rw [hnone] at hupdate
  cases hupdate

end Behind

end Passmgr
