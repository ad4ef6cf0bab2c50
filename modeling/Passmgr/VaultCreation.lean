/-
# Creating vaults and accounts

The operations that make new vaults: `create` of `apps/server/src/vault/router.ts` and
`finishRegistration` of `apps/server/src/auth/registration-router.ts`, which makes an account with
its personal vault and, when a local vault is linked, its other vaults as they are on the device,
with their key history.

Main definitions:

* `isCompleteKeyChain`, `LinkedVaultInput` — a vault with every key below its own;
* `insertRows` — inserting into a table with a key;
* `create`, `finishRegistration` — the operations;
* `Operation` — every operation on vaults and accounts.

Main results:

* `isCompleteKeyChain_iff` — a complete chain has the versions 1, …, `keyVersion - 1`, in order;
* `of_create`, `of_finishRegistration` — the rows a committed operation inserts.
-/

import Passmgr.AccountEffects

set_option relaxedAutoImplicit false
set_option autoImplicit false

namespace Passmgr

open ReadCommitted (Prog)
open ReadCommitted.Prog (exec_stmt)

/-! ### The input -/

/-- `isCompleteKeyChain`: every earlier key of a vault at `keyVersion`, oldest first. -/
def isCompleteKeyChain (keyVersion : ℕ) (previousKeys : List VaultKeyLink) : Bool :=
  previousKeys.length + 1 = keyVersion &&
    previousKeys.zipIdx.all fun (link, i) => link.keyVersion = i + 1

theorem isCompleteKeyChain_nil : isCompleteKeyChain 1 [] = true := rfl

theorem all_zipIdx_iff (links : List VaultKeyLink) (k : ℕ) :
    ((links.zipIdx k).all fun (link, i) => link.keyVersion = i + 1) = true ↔
      links.map (·.keyVersion) = List.range' (k + 1) links.length := by
  induction links generalizing k with
  | nil => simp
  | cons link rest ih =>
    rw [List.zipIdx_cons, List.all_cons, Bool.and_eq_true, ih, List.map_cons, List.length_cons,
      List.range'_succ, List.cons.injEq, decide_eq_true_eq]

theorem isCompleteKeyChain_iff {keyVersion : ℕ} {links : List VaultKeyLink} :
    isCompleteKeyChain keyVersion links = true ↔
      0 < keyVersion ∧ links.map (·.keyVersion) = List.range' 1 (keyVersion - 1) := by
  unfold isCompleteKeyChain
  rw [Bool.and_eq_true, all_zipIdx_iff, decide_eq_true_eq]
  constructor
  · rintro ⟨rfl, h⟩
    exact ⟨Nat.succ_pos _, h⟩
  · rintro ⟨hpos, h⟩
    have hlength := congrArg List.length h
    simp only [List.length_map, List.length_range'] at hlength
    rw [h, hlength]
    exact ⟨by omega, rfl⟩

/-- `createVaultInputSchema`: at the first key version. -/
structure CreateVaultInput where
  vaultId : VaultId
  wrap : WrappedKey
  encryptedMeta : Text
  metaEncryptionNonce : Text

/-- `linkedVaultInputSchema`: a vault as it is on a device, with its complete key chain. -/
structure LinkedVaultInput where
  vaultId : VaultId
  keyVersion : ℕ
  wrap : WrappedKey
  encryptedMeta : Text
  metaEncryptionNonce : Text
  previousKeys : List VaultKeyLink
  complete : isCompleteKeyChain keyVersion previousKeys = true

/-- What `finishRegistration` inserts, with the id of the user and the hash of the email. -/
structure FinishRegistrationInput where
  userId : UserId
  emailHash : Text
  emailVerifiedAt : Option Time
  personalVault : LinkedVaultInput
  publicKey : Text
  vaults : List LinkedVaultInput

/-- Every vault of a registration, the personal one first. -/
def FinishRegistrationInput.all (input : FinishRegistrationInput) :
    List (LinkedVaultInput × VaultKind) :=
  (input.personalVault, .personal) :: input.vaults.map fun vault => (vault, .shared)

/-- The row of a linked vault. -/
def LinkedVaultInput.row (vault : LinkedVaultInput) (userId : UserId) (kind : VaultKind) :
    VaultRow :=
  { newVault vault.vaultId userId kind vault.encryptedMeta vault.metaEncryptionNonce with
    keyVersion := vault.keyVersion }

/-- The links of a linked vault. -/
def LinkedVaultInput.links (vault : LinkedVaultInput) : List VaultKeyLink :=
  vault.previousKeys.map fun link => { link with vaultId := vault.vaultId }

/-! ### Inserting rows -/

section Insert

variable {α κ : Type} [DecidableEq κ]

/-- The keys of the rows are not taken, and no two rows have the same one. -/
def FreshKeys (key : α → κ) (table rows : List α) : Prop :=
  (rows.map key).Nodup ∧ ∀ row ∈ rows, key row ∉ table.map key

instance (key : α → κ) (table rows : List α) : Decidable (FreshKeys key table rows) :=
  inferInstanceAs (Decidable (_ ∧ _))

/-- Insert rows into a table; a key that is taken, or a row that refers to none, is a violation. -/
def insertRows (locks : List RowLock) (key : α → κ) (table : Db → List α)
    (put : List α → Db → Db) (refers : Db → Bool) (rows : List α) (next : Txn) : Txn :=
  .stmt (fun _ => True) (fun _ => locks)
    (fun db => if FreshKeys key (table db) rows ∧ refers db then put rows else id)
    fun db => if FreshKeys key (table db) rows ∧ refers db then next else .abort

theorem exec_insertRows {db : Db} (locks : List RowLock) (key : α → κ) (table : Db → List α)
    (put : List α → Db → Db) (refers : Db → Bool) (rows : List α) (next : Txn) :
    (insertRows locks key table put refers rows next).exec db =
      if FreshKeys key (table db) rows ∧ refers db then next.exec (put rows db) else none := by
  unfold insertRows
  rw [exec_stmt]
  split <;> rfl

end Insert

/-- Insert rows of vaults, owned by a user. -/
def insertVaults (ownerId : UserId) (rows : List VaultRow) (next : Txn) : Txn :=
  insertRows (rows.map fun row => .vault row.vaultId) (·.vaultId) (·.vaults)
    (fun rows db => { db with vaults := db.vaults ++ rows })
    (fun db => db.users.any (·.userId = ownerId)) rows next

/-- Insert rows of members, of vaults that exist. -/
def insertMembers (rows : List VaultMember) (next : Txn) : Txn :=
  insertRows (rows.map fun m => .member m.vaultId m.userId) (fun m => (m.vaultId, m.userId))
    (·.vaultMembers) (fun rows db => { db with vaultMembers := db.vaultMembers ++ rows })
    (fun db => rows.all fun m => (db.vault? m.vaultId).isSome && db.users.any (·.userId = m.userId))
    rows next

/-- Insert links, of vaults that exist. -/
def insertLinks (rows : List VaultKeyLink) (next : Txn) : Txn :=
  insertRows [] (fun link => (link.vaultId, link.keyVersion)) (·.vaultKeyLinks)
    (fun rows db => { db with vaultKeyLinks := db.vaultKeyLinks ++ rows })
    (fun db => rows.all fun link => (db.vault? link.vaultId).isSome) rows next

/-- Insert the key pair of a user. -/
def insertKeyPair (pair : UserKeyPair) (next : Txn) : Txn :=
  insertRows [] (fun pair => (pair.userId, pair.keyVersion)) (·.userKeyPairs)
    (fun rows db => { db with userKeyPairs := db.userKeyPairs ++ rows })
    (fun db => db.users.any (·.userId = pair.userId)) [pair] next

/-! ### The operations -/

/-- `create`: a new vault next to the personal one. -/
def create (userId : UserId) (input : CreateVaultInput) : Txn :=
  insertVaults userId
    [newVault input.vaultId userId .shared input.encryptedMeta input.metaEncryptionNonce] <|
  insertMembers [ownerMembership input.vaultId userId 1 input.wrap] .commit

/-- `finishRegistration`: nothing happens when the email is taken. -/
def finishRegistration (input : FinishRegistrationInput) : Txn :=
  .stmt (fun _ => True) (fun _ => [.user input.userId])
    (fun db =>
      if db.users.any (·.emailHash = input.emailHash) || db.users.any (·.userId = input.userId) then
        id
      else fun db => { db with
        users := db.users ++ [{
          userId := input.userId
          emailHash := input.emailHash
          emailVerifiedAt := input.emailVerifiedAt
          deletedAt := none }] })
    fun db =>
      if db.users.any (·.emailHash = input.emailHash) then .commit
      else if db.users.any (·.userId = input.userId) then .abort
      else
        insertKeyPair { userId := input.userId, keyVersion := 1, publicKey := input.publicKey } <|
        insertVaults input.userId
          (input.all.map fun (vault, kind) => vault.row input.userId kind) <|
        insertMembers
          (input.all.map fun (vault, _) =>
            ownerMembership vault.vaultId input.userId vault.keyVersion vault.wrap) <|
        insertLinks (input.all.flatMap fun (vault, _) => vault.links) .commit

/-- `rotateVaultKeyInputSchema`: what the schema checks besides the types. -/
structure RotateKeyInput.Valid (input : RotateKeyInput) : Prop where
  min : 2 ≤ input.keyVersion
  max : input.keyVersion ≤ 256
  /-- `previousKey` is the key version below `keyVersion`. -/
  previous : input.previousKey.keyVersion = input.keyVersion - 1
  /-- One seal per member. -/
  seals : (input.memberKeys.map (·.userId)).Nodup

/-- An operation on vaults and accounts, by any user with any input its schema accepts. -/
inductive Operation
  | finishRegistration (input : FinishRegistrationInput)
  | create (userId : UserId) (input : CreateVaultInput)
  | invite (userId : UserId) (input : InviteInput)
  | acceptKey (userId : UserId) (vaultId : VaultId) (keyVersion : ℕ) (wrap : WrappedKey)
  | declineInvite (userId : UserId) (vaultId : VaultId)
  | setMemberRole (actorId : UserId) (vaultId : VaultId) (userId : UserId) (role : VaultRole)
  | removeMember (actorId : UserId) (vaultId : VaultId) (userId : UserId)
  | leave (userId : UserId) (vaultId : VaultId)
  | transferOwnership (actorId : UserId) (vaultId : VaultId) (userId : UserId)
  | rotateKey (userId : UserId) (input : RotateKeyInput) (valid : input.Valid)
  | deleteVault (userId : UserId) (vaultId : VaultId) (now : Time)
  | deleteAccount (userId : UserId)

/-- The transaction of an operation. -/
def Operation.txn : Operation → Txn
  | finishRegistration input => Passmgr.finishRegistration input
  | create userId input => Passmgr.create userId input
  | invite userId input => Passmgr.invite userId input
  | acceptKey userId vaultId keyVersion wrap => Passmgr.acceptKey userId vaultId keyVersion wrap
  | declineInvite userId vaultId => Passmgr.declineInvite userId vaultId
  | setMemberRole actorId vaultId userId role => Passmgr.setMemberRole actorId vaultId userId role
  | removeMember actorId vaultId userId => Passmgr.removeMember actorId vaultId userId
  | leave userId vaultId => Passmgr.leave userId vaultId
  | transferOwnership actorId vaultId userId => Passmgr.transferOwnership actorId vaultId userId
  | rotateKey userId input _ => Passmgr.rotateKey userId input
  | deleteVault userId vaultId now => Passmgr.deleteVault userId vaultId now
  | deleteAccount userId => Passmgr.deleteAccount userId

/-- The tables after an operation that nothing interrupts; `none` when it fails. -/
def Operation.run (op : Operation) (db : Db) : Option Db := op.txn.exec db

/-! ### The rows they insert -/

section Effects

variable {db db' : Db} {userId : UserId}

/-- The tables with new vaults of a user. -/
def Db.withVaults (userId : UserId) (all : List (LinkedVaultInput × VaultKind)) (db : Db) : Db :=
  { db with
    vaults := db.vaults ++ all.map fun (vault, kind) => vault.row userId kind
    vaultMembers := db.vaultMembers ++ all.map fun (vault, _) =>
      ownerMembership vault.vaultId userId vault.keyVersion vault.wrap
    vaultKeyLinks := db.vaultKeyLinks ++ all.flatMap fun (vault, _) => vault.links }

/-- The ids of new vaults are not taken. -/
def Db.FreshVaults (userId : UserId) (all : List (LinkedVaultInput × VaultKind)) (db : Db) : Prop :=
  FreshKeys VaultRow.vaultId db.vaults (all.map fun (vault, kind) => vault.row userId kind)

/-- A vault that is created is linked to nothing before it. -/
def CreateVaultInput.linked (input : CreateVaultInput) : LinkedVaultInput where
  vaultId := input.vaultId
  keyVersion := 1
  wrap := input.wrap
  encryptedMeta := input.encryptedMeta
  metaEncryptionNonce := input.metaEncryptionNonce
  previousKeys := []
  complete := isCompleteKeyChain_nil

/-- A vault that was created. -/
theorem of_create {input : CreateVaultInput} (h : (create userId input).exec db = some db') :
    db.FreshVaults userId [(input.linked, .shared)] ∧
      db' = db.withVaults userId [(input.linked, .shared)] := by
  unfold create insertVaults insertMembers at h
  rw [exec_insertRows] at h
  split at h
  case isFalse => cases h
  next hfresh =>
  rw [exec_insertRows] at h
  split at h
  case isFalse => cases h
  refine ⟨hfresh.1, (Option.some.inj h).symm.trans ?_⟩
  simp [Db.withVaults, CreateVaultInput.linked, LinkedVaultInput.row, LinkedVaultInput.links,
    newVault]

/-- The tables with an account and its key pair. -/
def Db.withUser (input : FinishRegistrationInput) (db : Db) : Db :=
  { db with
    users := db.users ++ [{
      userId := input.userId
      emailHash := input.emailHash
      emailVerifiedAt := input.emailVerifiedAt
      deletedAt := none }]
    userKeyPairs := db.userKeyPairs ++
      [{ userId := input.userId, keyVersion := 1, publicKey := input.publicKey }] }

/-- A registration that commits: nothing, when the email is taken. -/
theorem of_finishRegistration {input : FinishRegistrationInput}
    (h : (finishRegistration input).exec db = some db') :
    db' = db ∨
      db.FreshVaults input.userId input.all ∧ (∀ user ∈ db.users, user.userId ≠ input.userId) ∧
        (∀ pair ∈ db.userKeyPairs, (pair.userId, pair.keyVersion) ≠ (input.userId, 1)) ∧
        db' = (db.withUser input).withVaults input.userId input.all := by
  unfold finishRegistration at h
  rw [exec_stmt] at h
  split at h
  · next hemail =>
    rw [if_pos (by rw [hemail, Bool.true_or])] at h
    exact Or.inl (Option.some.inj h).symm
  next hemail =>
  split at h
  · cases h
  next huser =>
  rw [if_neg (by rw [Bool.or_eq_true]; exact not_or.mpr ⟨hemail, huser⟩)] at h
  unfold insertKeyPair insertVaults insertMembers insertLinks at h
  rw [exec_insertRows] at h
  split at h
  case isFalse => cases h
  next hpair =>
  rw [exec_insertRows] at h
  split at h
  case isFalse => cases h
  next hvaults =>
  rw [exec_insertRows] at h
  split at h
  case isFalse => cases h
  rw [exec_insertRows] at h
  split at h
  case isFalse => cases h
  refine Or.inr ⟨hvaults.1, fun user hmem heq => huser ?_, fun pair hmem heq => ?_,
    (Option.some.inj h).symm⟩
  · exact List.any_eq_true.mpr ⟨user, hmem, decide_eq_true heq⟩
  · refine hpair.1.2 _ (List.mem_singleton.mpr rfl) (List.mem_map.mpr ⟨pair, hmem, heq⟩)

end Effects

end Passmgr
