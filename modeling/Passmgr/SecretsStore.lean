/-
# The keys a device holds

`packages/store/src/secrets-store.ts`: the account key, the vault keys by vault and version, the
version of each vault's current key, and the key pair.  The buffers are wiped by the source when
they are no longer needed; what is forgotten here is simply not in the state.

Main definitions:

* `SecretsStore` — the keys in memory;
* `SecretsStore.loadVaultKeys`, `loadPreviousKeys` — opening the wraps of a list of vaults and the
  links below each;
* `SecretsStore.openKeyUpdate`, `walkChain` — a newer key, and the walk along its links down to the
  key that is held;
* `SecretsStore.rotateVaultKey`, `sealVaultKeyTo`, `openInvitation`, `encryptRecord`,
  `decryptRecord`, `decryptVaultMeta`, `loadUserKeyPair`, `openPendingRecovery` — the rest of its
  operations on vaults.

Main results:

* `of_openKeyUpdate` — what an accepted key update says: the box opened, and its links lead from
  the new key to the held one;
* `walkChain_of_linkOpens` — links that open version by version lead all the way down.
-/

import Passmgr.Fallible
import Passmgr.VaultCrypto
import Passmgr.VaultOps

set_option relaxedAutoImplicit false
set_option autoImplicit false

namespace Passmgr

open IdealCipher (Ciphers)

/-! ### What the server hands out -/

/-- `vaultKeySenderSchema`: who sealed a vault key, with the public key it opens from. -/
structure VaultKeySender where
  userId : UserId
  publicKey : UserPublicKey
  deriving DecidableEq, Repr

/-- `vaultKeyUpdateSchema`: a newer key of a vault, sealed to this user, with the links from the
key they hold up to it. -/
structure VaultKeyUpdate where
  vaultId : VaultId
  keyVersion : ℕ
  sealedVaultKey : Text
  recipientKeyVersion : ℕ
  sender : VaultKeySender
  links : List VaultKeyLink
  deriving DecidableEq, Repr

/-- `vaultInvitationSchema`: a pending invite, as the invitee sees it. -/
structure VaultInvitation where
  vaultId : VaultId
  role : VaultRole
  keyVersion : ℕ
  sealedVaultKey : Text
  recipientKeyVersion : ℕ
  sender : VaultKeySender
  encrypted : EncryptedVaultMeta
  deriving DecidableEq, Repr

/-- The errors of the store. -/
inductive SecretsError
  | locked
  | personalVaults
  | duplicateVault (vaultId : VaultId)
  | doesNotOpen
  | invalidMeta
  | otherKeyPair
  | refusedKey
  | notNewer
  | missingLink (vaultId : VaultId) (keyVersion : ℕ)
  | otherChain
  deriving DecidableEq, Repr

/-- `CURRENT_CRYPTO_VERSION`. -/
def currentCryptoVersion : ℕ := 1

/-- `SecretsStore`: the `Map`s are functions, `none` for a key that is not in it. -/
structure SecretsStore where
  accountKey : Option Text
  vaultKeys : Text → Option Text
  currentKeyVersions : VaultId → Option ℕ
  personalVaultId : Option VaultId
  userPrivateKey : Option Text
  verifiedPublicKey : Option Text
  userKeyPairVersion : Option ℕ

/-- Nothing is loaded. -/
def SecretsStore.empty : SecretsStore where
  accountKey := none
  vaultKeys _ := none
  currentKeyVersions _ := none
  personalVaultId := none
  userPrivateKey := none
  verifiedPublicKey := none
  userKeyPairVersion := none

/-! ### Loading the vault keys -/

section Functions

variable (C : Ciphers Text) (J : MetaJson)

/-- The loop of `loadPreviousKeys`, for the versions `keyVersion`, …, 1. -/
def loadPreviousKeysFrom (vaultId : VaultId) (links : List VaultKeyLink) :
    ℕ → Text → (Text → Option Text) → (Text → Option Text)
  | 0, _, keys => keys
  | keyVersion + 1, newer, keys =>
    match linkOf links (keyVersion + 1) with
    | none => keys
    | some link =>
      match unwrapPreviousVaultKey C newer vaultId link with
      | none => keys
      | some older =>
        loadPreviousKeysFrom vaultId links keyVersion older
          (Function.update keys (vaultKeyId vaultId (keyVersion + 1)) (some older))

/-- `loadPreviousKeys`: open a vault's earlier keys into `keys`, each with the key one version above
it, from the newest down, as far as the chain opens. -/
def loadPreviousKeys (vault : MemberVault) (currentKey : Text) (keys : Text → Option Text) :
    Text → Option Text :=
  loadPreviousKeysFrom C vault.vaultId vault.previousKeys (vault.keyVersion - 1) currentKey keys

/-- What the loop of `loadVaultKeys` has filled so far. -/
structure LoadedKeys where
  keys : Text → Option Text
  current : VaultId → Option ℕ
  skipped : List VaultId

/-- A vault whose wrap opened to `key`. -/
def LoadedKeys.add (loaded : LoadedKeys) (vault : MemberVault) (key : Text) : LoadedKeys where
  keys := loadPreviousKeys C vault key
    (Function.update loaded.keys (vaultKeyId vault.vaultId vault.keyVersion) (some key))
  current := Function.update loaded.current vault.vaultId (some vault.keyVersion)
  skipped := loaded.skipped

/-- The wrap of a vault in a list of vaults. -/
def MemberVault.keyWrap (vault : MemberVault) : VaultKeyWrap where
  vaultId := vault.vaultId
  keyVersion := vault.keyVersion
  wrap := vault.wrap

/-- The loop of `loadVaultKeys`. -/
def loadWraps (accountKey : Text) : List MemberVault → LoadedKeys → Except SecretsError LoadedKeys
  | [], loaded => .ok loaded
  | vault :: rest, loaded =>
    if (loaded.current vault.vaultId).isSome || vault.vaultId ∈ loaded.skipped then
      .error (.duplicateVault vault.vaultId)
    else
      match unwrapVaultKey C accountKey vault.keyWrap with
      | none =>
        if vault.kind = .personal then .error .doesNotOpen
        else loadWraps accountKey rest { loaded with skipped := loaded.skipped ++ [vault.vaultId] }
      | some key => loadWraps accountKey rest (loaded.add C vault key)

namespace SecretsStore

variable (store : SecretsStore)

/-- `loadVaultKeys`: the store with the keys of the vaults, replacing any loaded before, and the
vaults that were skipped because their wrap doesn't open. -/
def loadVaultKeys (wraps : List MemberVault) : Except SecretsError (SecretsStore × List VaultId) :=
  match store.accountKey with
  | none => .error .locked
  | some accountKey =>
    match wraps.filter (·.kind = .personal) with
    | [personal] =>
      (loadWraps C accountKey wraps ⟨fun _ => none, fun _ => none, []⟩).map fun loaded =>
        ({ store with
            vaultKeys := loaded.keys
            currentKeyVersions := loaded.current
            personalVaultId := some personal.vaultId },
         loaded.skipped)
    | _ => .error .personalVaults

/-- `unlockWithAccountKey` and `unlockAccount`, once the account key is open. -/
def setAccountKey (accountKey : Text) : SecretsStore :=
  { store with accountKey := some accountKey }

/-- `lockVault`: the account, vault and private keys are wiped. -/
def lockVault (_store : SecretsStore) : SecretsStore := empty

/-- `loadUserKeyPair`: fails, leaving none loaded, when the wrap doesn't open or doesn't belong to
the public key. -/
def loadUserKeyPair (keyPair : WrappedKeyPair) : SecretsStore × Except SecretsError Unit :=
  match store.accountKey with
  | none => (store, .error .locked)
  | some accountKey =>
    match unwrapUserPrivateKey C accountKey keyPair with
    | none =>
      ({ store with userPrivateKey := none, verifiedPublicKey := none, userKeyPairVersion := none },
       .error .doesNotOpen)
    | some privateKey =>
      ({ store with
          userPrivateKey := some privateKey
          verifiedPublicKey := some keyPair.publicKey
          userKeyPairVersion := some keyPair.keyVersion },
       .ok ())

/-! ### Looking keys up -/

/-- An `Option` that is `undefined` for a locked store. -/
def unlocked {α : Type} : Option α → Except SecretsError α
  | none => .error .locked
  | some a => .ok a

/-- `currentKeyVersion`: the key version new records of the vault are encrypted with. -/
def currentKeyVersion (vaultId : VaultId) : Except SecretsError ℕ :=
  unlocked (store.currentKeyVersions vaultId)

/-- `vaultKey` of a version. -/
def vaultKey (vaultId : VaultId) (keyVersion : ℕ) : Except SecretsError Text :=
  unlocked (store.vaultKeys (vaultKeyId vaultId keyVersion))

/-- What opened, or the error of what doesn't. -/
def opened : Option Text → Except SecretsError Text
  | none => .error .doesNotOpen
  | some data => .ok data

/-- `vaultMetaSchema.parse`. -/
def parsedMeta (json : Text) : Except SecretsError VaultMeta :=
  match J.parse json with
  | none => .error .invalidMeta
  | some vaultMeta => .ok vaultMeta

/-! ### Records and metadata -/

/-- `encryptRecord`: under the vault's current key, with the version of it. -/
def encryptRecord (nonce : Text) (recordId : RecordId) (vaultId : VaultId) (data : Text) :
    Except SecretsError Ciphertext := do
  let keyVersion ← store.currentKeyVersion vaultId
  let key ← store.vaultKey vaultId keyVersion
  let (encryptedData, nonce) :=
    encryptRecordData C nonce key ⟨recordId, vaultId, currentCryptoVersion⟩ data
  return ⟨encryptedData, nonce, currentCryptoVersion, keyVersion⟩

/-- Where the ciphertext of a record version belongs. -/
def recordContext (row : EncryptedRecord) : RecordCipherContext where
  recordId := row.recordId
  vaultId := row.vaultId
  cryptoVersion := row.content.cryptoVersion

/-- `decryptRecord`: a record version with the vault key it was encrypted with. -/
def decryptRecord (row : EncryptedRecord) : Except SecretsError Text := do
  let key ← store.vaultKey row.vaultId row.content.keyVersion
  opened (decryptRecordData C key (recordContext row) row.content.encryptedData
    row.content.encryptionNonce)

/-- `decryptVaultMeta`: with the vault's current key. -/
def decryptVaultMeta (vaultId : VaultId) (encrypted : EncryptedVaultMeta) :
    Except SecretsError VaultMeta := do
  let keyVersion ← store.currentKeyVersion vaultId
  let key ← store.vaultKey vaultId keyVersion
  parsedMeta J (← opened (Passmgr.decryptVaultMeta C key vaultId encrypted))

/-- `encryptVaultMeta`: with the vault's current key. -/
def encryptVaultMeta (nonce : Text) (vaultId : VaultId) (vaultMeta : VaultMeta) :
    Except SecretsError EncryptedVaultMeta := do
  let keyVersion ← store.currentKeyVersion vaultId
  let key ← store.vaultKey vaultId keyVersion
  return Passmgr.encryptVaultMeta C J nonce key vaultId vaultMeta

/-- `openPendingRecovery`. -/
def openPendingRecovery (sealed : SealedPendingRecovery) : Except SecretsError Text := do
  let accountKey ← unlocked store.accountKey
  opened (Passmgr.openPendingRecovery C accountKey sealed)

/-! ### Seals -/

/-- `seal`: from this user's key pair. -/
def sealKey (random : BoxRandom) (recipientPublicKey vaultKey : Text) (vaultId : VaultId)
    (keyVersion : ℕ) : Except SecretsError Text := do
  let privateKey ← unlocked store.userPrivateKey
  match sealVaultKey C random privateKey recipientPublicKey vaultKey vaultId keyVersion with
  | none => .error .refusedKey
  | some sealed => .ok sealed

/-- `openSealed`: a box sealed to this user's key pair. -/
def openSealed (sealedVaultKey : Text) (recipientKeyVersion : ℕ) (sender : VaultKeySender)
    (vaultId : VaultId) (keyVersion : ℕ) : Except SecretsError Text := do
  let privateKey ← unlocked store.userPrivateKey
  if some recipientKeyVersion ≠ store.userKeyPairVersion then .error .otherKeyPair
  else opened (openSealedVaultKey C privateKey sender.publicKey.publicKey sealedVaultKey vaultId
    keyVersion)

/-- `sealVaultKeyTo`: the vault's current key sealed to an invitee's public key, with the version
sealed. -/
def sealVaultKeyTo (random : BoxRandom) (vaultId : VaultId) (recipient : UserPublicKey) :
    Except SecretsError (Text × ℕ) := do
  let keyVersion ← store.currentKeyVersion vaultId
  let key ← store.vaultKey vaultId keyVersion
  let sealedVaultKey ← store.sealKey C random recipient.publicKey key vaultId keyVersion
  return (sealedVaultKey, keyVersion)

/-- `openInvitation`: the metadata of the vault, and this user's own wrap of its key. -/
def openInvitation (nonce : Text) (invitation : VaultInvitation) :
    Except SecretsError (VaultMeta × VaultKeyWrap) := do
  let accountKey ← unlocked store.accountKey
  let key ← store.openSealed C invitation.sealedVaultKey invitation.recipientKeyVersion
    invitation.sender invitation.vaultId invitation.keyVersion
  let vaultMeta ← parsedMeta J (← opened
    (Passmgr.decryptVaultMeta C key invitation.vaultId invitation.encrypted))
  return (vaultMeta, wrapVaultKey C nonce accountKey key invitation.vaultId invitation.keyVersion)

/-- The walk of `openKeyUpdate`, from the key of version `heldVersion + count` down to the one of
`heldVersion`. -/
def walkChain (vaultId : VaultId) (links : List VaultKeyLink) (heldVersion : ℕ) :
    ℕ → Text → Except SecretsError Text
  | 0, key => .ok key
  | count + 1, key =>
    match linkOf links (heldVersion + count) with
    | none => .error (.missingLink vaultId (heldVersion + count))
    | some link =>
      match unwrapPreviousVaultKey C key vaultId link with
      | none => .error .doesNotOpen
      | some older => walkChain vaultId links heldVersion count older

/-- `openKeyUpdate`: this user's own wrap of a newer key of a vault, once its links have led to the
key that is held. -/
def openKeyUpdate (nonce : Text) (update : VaultKeyUpdate) : Except SecretsError VaultKeyWrap := do
  let accountKey ← unlocked store.accountKey
  let heldVersion ← store.currentKeyVersion update.vaultId
  if update.keyVersion ≤ heldVersion then .error .notNewer
  else
    let held ← store.vaultKey update.vaultId heldVersion
    let newKey ← store.openSealed C update.sealedVaultKey update.recipientKeyVersion update.sender
      update.vaultId update.keyVersion
    let key ← walkChain C update.vaultId update.links heldVersion (update.keyVersion - heldVersion)
      newKey
    if key ≠ held then .error .otherChain
    else .ok (wrapVaultKey C nonce accountKey newKey update.vaultId update.keyVersion)

/-! ### Rotation -/

/-- Somebody a rotation seals the new key to. -/
structure KeyRecipient where
  userId : UserId
  publicKey : UserPublicKey
  deriving DecidableEq, Repr

/-- The loop of `rotateVaultKey`: the new key sealed to every other member, the `i`-th with the
random values `random i`. -/
def sealToMembers (newKey : Text) (vaultId : VaultId) (keyVersion : ℕ) (random : ℕ → BoxRandom) :
    ℕ → List KeyRecipient → Except SecretsError (List MemberKeySeal)
  | _, [] => .ok []
  | i, member :: rest => do
    let sealedVaultKey ← store.sealKey C (random i) member.publicKey.publicKey newKey vaultId
      keyVersion
    let seals ← sealToMembers newKey vaultId keyVersion random (i + 1) rest
    return ⟨member.userId, member.publicKey.keyVersion, sealedVaultKey⟩ :: seals

/-- What `rotateVaultKey` resolves. -/
structure RotatedVault where
  rotated : NewVaultKey
  previousKey : VaultKeyLink
  memberKeys : List MemberKeySeal

/-- `rotateVaultKey`: the next key of a vault, with the current one wrapped under it, its metadata
re-encrypted, and the new key sealed to the other members. -/
def rotateVaultKey (random : KeyRandom) (boxes : ℕ → BoxRandom) (vaultId : VaultId)
    (encrypted : EncryptedVaultMeta) (members : List KeyRecipient) :
    Except SecretsError RotatedVault := do
  let accountKey ← unlocked store.accountKey
  let keyVersion ← store.currentKeyVersion vaultId
  let key ← store.vaultKey vaultId keyVersion
  let vaultMeta ← store.decryptVaultMeta C J vaultId encrypted
  let (rotated, previousKey) :=
    Passmgr.rotateVaultKey C J random accountKey key vaultId keyVersion vaultMeta
  if members.isEmpty then return ⟨rotated, previousKey, []⟩
  else
    let newKey ← opened (unwrapVaultKey C accountKey rotated.wrap)
    let memberKeys ← store.sealToMembers C newKey rotated.wrap.vaultId rotated.wrap.keyVersion boxes 0
      members
    return ⟨rotated, previousKey, memberKeys⟩

/-- `createVault`: a new vault for `vault.create`. -/
def createVault (random : KeyRandom) (vaultId : VaultId) (vaultMeta : VaultMeta) :
    Except SecretsError NewVaultKey := do
  let accountKey ← unlocked store.accountKey
  return Passmgr.createVault C J random vaultId accountKey vaultMeta

end SecretsStore

end Functions

/-! ### The walk along the links -/

section Chain

variable {C : Ciphers Text}

/-- The link of version `n` opens under key `n + 1` to key `n`. -/
def LinkOpens (C : Ciphers Text) (vaultId : VaultId) (links : List VaultKeyLink) (keys : ℕ → Text)
    (n : ℕ) : Prop :=
  ∃ link, linkOf links n = some link ∧
    unwrapPreviousVaultKey C (keys (n + 1)) vaultId link = some (keys n)

theorem LinkOpens.congr {vaultId : VaultId} {links : List VaultKeyLink} {keys keys' : ℕ → Text}
    {n : ℕ} (h : LinkOpens C vaultId links keys n) (heq : keys' n = keys n)
    (heq' : keys' (n + 1) = keys (n + 1)) : LinkOpens C vaultId links keys' n := by
  obtain ⟨link, hlink, hopens⟩ := h
  exact ⟨link, hlink, by rw [heq, heq', hopens]⟩

theorem walkChain_of_linkOpens {vaultId : VaultId} {links : List VaultKeyLink} {keys : ℕ → Text}
    {heldVersion : ℕ} : ∀ count : ℕ,
    (∀ n, heldVersion ≤ n → n < heldVersion + count → LinkOpens C vaultId links keys n) →
    SecretsStore.walkChain C vaultId links heldVersion count (keys (heldVersion + count))
      = .ok (keys heldVersion)
  | 0, _ => rfl
  | count + 1, h => by
    obtain ⟨link, hlink, hopens⟩ := h (heldVersion + count) (by omega) (by omega)
    have hrest := walkChain_of_linkOpens count fun n hn hlt => h n hn (by omega)
    simp only [SecretsStore.walkChain, hlink]
    rw [← Nat.add_assoc, hopens]
    exact hrest

theorem linkOpens_of_walkChain {vaultId : VaultId} {links : List VaultKeyLink}
    {heldVersion : ℕ} {bottom : Text} : ∀ {count : ℕ} {key : Text},
    SecretsStore.walkChain C vaultId links heldVersion count key = .ok bottom →
    ∃ keys : ℕ → Text, keys (heldVersion + count) = key ∧ keys heldVersion = bottom ∧
      ∀ n, heldVersion ≤ n → n < heldVersion + count → LinkOpens C vaultId links keys n
  | 0, key, h => by
    cases h
    exact ⟨fun _ => bottom, rfl, rfl, fun n hn hlt => absurd hlt (by omega)⟩
  | count + 1, key, h => by
    simp only [SecretsStore.walkChain] at h
    split at h
    · cases h
    next link hlink =>
    split at h
    · cases h
    next older hopens =>
    obtain ⟨keys, htop, hbottom, hall⟩ := linkOpens_of_walkChain h
    refine ⟨Function.update keys (heldVersion + count + 1) key, ?_, ?_, fun n hn hlt => ?_⟩
    · simp [Nat.add_assoc]
    · rw [Function.update_of_ne (by omega), hbottom]
    · obtain hlt | rfl : n < heldVersion + count ∨ n = heldVersion + count := by omega
      · exact (hall n hn hlt).congr (Function.update_of_ne (by omega) _ _)
          (Function.update_of_ne (by omega) _ _)
      · refine ⟨link, hlink, ?_⟩
        rw [Function.update_self, Function.update_of_ne (by omega), htop, hopens]

end Chain

/-! ### What an accepted key update says -/

@[simp] theorem SecretsStore.unlocked_eq_ok {α : Type} {a? : Option α} {a : α} :
    SecretsStore.unlocked a? = .ok a ↔ a? = some a := by
  cases a? <;> simp [SecretsStore.unlocked]

@[simp] theorem SecretsStore.opened_eq_ok {data? : Option Text} {data : Text} :
    SecretsStore.opened data? = .ok data ↔ data? = some data := by
  cases data? <;> simp [SecretsStore.opened]

@[simp] theorem SecretsStore.parsedMeta_eq_ok {J : MetaJson} {json : Text} {vaultMeta : VaultMeta} :
    SecretsStore.parsedMeta J json = .ok vaultMeta ↔ J.parse json = some vaultMeta := by
  unfold SecretsStore.parsedMeta
  cases J.parse json <;> simp

section KeyUpdate

variable {C : Ciphers Text} {store : SecretsStore}

open SecretsStore

theorem of_openSealed {sealedVaultKey : Text} {recipientKeyVersion : ℕ} {sender : VaultKeySender}
    {vaultId : VaultId} {keyVersion : ℕ} {key : Text}
    (h : store.openSealed C sealedVaultKey recipientKeyVersion sender vaultId keyVersion = .ok key) :
    ∃ privateKey, store.userPrivateKey = some privateKey ∧
      store.userKeyPairVersion = some recipientKeyVersion ∧
      openSealedVaultKey C privateKey sender.publicKey.publicKey sealedVaultKey vaultId keyVersion
        = some key := by
  obtain ⟨privateKey, hprivate, h⟩ := bind_eq_ok.mp h
  split at h
  · cases h
  next hversion =>
  exact ⟨privateKey, unlocked_eq_ok.mp hprivate, (not_not.mp hversion).symm, opened_eq_ok.mp h⟩

/-- What an accepted key update says: the box opened, and its links lead from the new key to the
one that is held. -/
theorem of_openKeyUpdate {nonce : Text} {update : VaultKeyUpdate} {wrap : VaultKeyWrap}
    (h : store.openKeyUpdate C nonce update = .ok wrap) :
    ∃ accountKey heldVersion held newKey, ∃ keys : ℕ → Text,
      store.accountKey = some accountKey ∧
      store.currentKeyVersions update.vaultId = some heldVersion ∧
      heldVersion < update.keyVersion ∧
      store.vaultKeys (vaultKeyId update.vaultId heldVersion) = some held ∧
      store.openSealed C update.sealedVaultKey update.recipientKeyVersion update.sender
        update.vaultId update.keyVersion = .ok newKey ∧
      keys update.keyVersion = newKey ∧ keys heldVersion = held ∧
      (∀ n, heldVersion ≤ n → n < update.keyVersion →
        LinkOpens C update.vaultId update.links keys n) ∧
      wrap = wrapVaultKey C nonce accountKey newKey update.vaultId update.keyVersion := by
  obtain ⟨accountKey, haccount, h⟩ := bind_eq_ok.mp h
  obtain ⟨heldVersion, hcurrent, h⟩ := bind_eq_ok.mp h
  split at h
  · cases h
  next hnewer =>
  obtain ⟨held, hheld, h⟩ := bind_eq_ok.mp h
  obtain ⟨newKey, hopens, h⟩ := bind_eq_ok.mp h
  obtain ⟨bottom, hwalk, h⟩ := bind_eq_ok.mp h
  split at h
  · cases h
  next hbottom =>
  cases h
  obtain rfl := not_not.mp hbottom
  obtain ⟨keys, htop, hkeys, hall⟩ := linkOpens_of_walkChain hwalk
  rw [Nat.add_sub_cancel' (by omega)] at htop hall
  exact ⟨accountKey, heldVersion, bottom, newKey, keys, unlocked_eq_ok.mp haccount,
    unlocked_eq_ok.mp hcurrent, by omega, unlocked_eq_ok.mp hheld, hopens, htop, hkeys, hall, rfl⟩

end KeyUpdate

/-! ### What the operations of the store resolve -/

section Operations

variable {C : Ciphers Text} {J : MetaJson} {store : SecretsStore} {v : VaultId} {n : ℕ}

open SecretsStore

theorem of_sealKey {random : BoxRandom} {recipientPublicKey vaultKey box : Text}
    (h : store.sealKey C random recipientPublicKey vaultKey v n = .ok box) :
    ∃ privateKey, store.userPrivateKey = some privateKey ∧
      sealVaultKey C random privateKey recipientPublicKey vaultKey v n = some box := by
  obtain ⟨privateKey, hprivate, h⟩ := bind_eq_ok.mp h
  split at h
  · cases h
  next sealed hsealed =>
  cases h
  exact ⟨privateKey, unlocked_eq_ok.mp hprivate, hsealed⟩

theorem of_createVault {random : KeyRandom} {vaultMeta : VaultMeta} {created : NewVaultKey}
    {accountKey : Text} (haccount : store.accountKey = some accountKey)
    (h : store.createVault C J random v vaultMeta = .ok created) :
    created = Passmgr.createVault C J random v accountKey vaultMeta := by
  obtain ⟨accountKey', haccount', h⟩ := bind_eq_ok.mp h
  obtain rfl := Option.some.inj (haccount.symm.trans (unlocked_eq_ok.mp haccount'))
  exact (Except.ok.inj h).symm

theorem of_encryptVaultMeta {nonce : Text} {vaultMeta : VaultMeta} {encrypted : EncryptedVaultMeta}
    {vaultKey : Text} (hversion : store.currentKeyVersion v = .ok n)
    (hkey : store.vaultKey v n = .ok vaultKey)
    (h : store.encryptVaultMeta C J nonce v vaultMeta = .ok encrypted) :
    encrypted = Passmgr.encryptVaultMeta C J nonce vaultKey v vaultMeta := by
  obtain ⟨n', hversion', h⟩ := bind_eq_ok.mp h
  obtain rfl := Except.ok.inj (hversion.symm.trans hversion')
  obtain ⟨vaultKey', hkey', h⟩ := bind_eq_ok.mp h
  obtain rfl := Except.ok.inj (hkey.symm.trans hkey')
  exact (Except.ok.inj h).symm

theorem of_sealVaultKeyTo {random : BoxRandom} {recipient : UserPublicKey} {box vaultKey : Text}
    (hkey : store.vaultKey v n = .ok vaultKey)
    (h : store.sealVaultKeyTo C random v recipient = .ok (box, n)) :
    store.sealKey C random recipient.publicKey vaultKey v n = .ok box := by
  obtain ⟨n', -, h⟩ := bind_eq_ok.mp h
  obtain ⟨vaultKey', hkey', h⟩ := bind_eq_ok.mp h
  obtain ⟨box', hbox, h⟩ := bind_eq_ok.mp h
  cases h
  obtain rfl := Except.ok.inj (hkey.symm.trans hkey')
  exact hbox

theorem of_decryptVaultMeta {encrypted : EncryptedVaultMeta} {vaultMeta : VaultMeta}
    (h : store.decryptVaultMeta C J v encrypted = .ok vaultMeta) :
    ∃ n vaultKey json, store.currentKeyVersion v = .ok n ∧ store.vaultKey v n = .ok vaultKey ∧
      Passmgr.decryptVaultMeta C vaultKey v encrypted = some json ∧ J.parse json = some vaultMeta := by
  obtain ⟨n, hversion, h⟩ := bind_eq_ok.mp h
  obtain ⟨vaultKey, hkey, h⟩ := bind_eq_ok.mp h
  obtain ⟨json, hopens, h⟩ := bind_eq_ok.mp h
  exact ⟨n, vaultKey, json, hversion, hkey, opened_eq_ok.mp hopens, parsedMeta_eq_ok.mp h⟩

theorem of_openInvitation {nonce : Text} {invitation : VaultInvitation} {vaultMeta : VaultMeta}
    {wrap : VaultKeyWrap} (h : store.openInvitation C J nonce invitation = .ok (vaultMeta, wrap)) :
    ∃ accountKey vaultKey json, store.accountKey = some accountKey ∧
      store.openSealed C invitation.sealedVaultKey invitation.recipientKeyVersion invitation.sender
        invitation.vaultId invitation.keyVersion = .ok vaultKey ∧
      Passmgr.decryptVaultMeta C vaultKey invitation.vaultId invitation.encrypted = some json ∧
      J.parse json = some vaultMeta ∧
      wrap = wrapVaultKey C nonce accountKey vaultKey invitation.vaultId invitation.keyVersion := by
  obtain ⟨accountKey, haccount, h⟩ := bind_eq_ok.mp h
  obtain ⟨vaultKey, hkey, h⟩ := bind_eq_ok.mp h
  obtain ⟨json, hopens, h⟩ := bind_eq_ok.mp h
  obtain ⟨vaultMeta', hparse, h⟩ := bind_eq_ok.mp h
  cases h
  exact ⟨accountKey, vaultKey, json, unlocked_eq_ok.mp haccount, hkey, opened_eq_ok.mp hopens,
    parsedMeta_eq_ok.mp hparse, rfl⟩

/-- The seal of a rotation for a member. -/
def SealedTo (C : Ciphers Text) (store : SecretsStore) (newKey : Text) (v : VaultId) (n : ℕ)
    (member : KeyRecipient) (seal_ : MemberKeySeal) : Prop :=
  seal_.userId = member.userId ∧ seal_.recipientKeyVersion = member.publicKey.keyVersion ∧
    ∃ box, store.sealKey C box member.publicKey.publicKey newKey v n = .ok seal_.sealedVaultKey

theorem of_sealToMembers {newKey : Text} {random : ℕ → BoxRandom} (members : List KeyRecipient) :
    ∀ (i : ℕ) (seals : List MemberKeySeal),
      store.sealToMembers C newKey v n random i members = .ok seals →
      List.Forall₂ (SealedTo C store newKey v n) members seals := by
  induction members with
  | nil =>
    intro i seals h
    cases h
    exact .nil
  | cons member rest ih =>
    intro i seals h
    obtain ⟨box, hbox, h⟩ := bind_eq_ok.mp h
    obtain ⟨seals', hseals, h⟩ := bind_eq_ok.mp h
    cases h
    exact .cons ⟨rfl, rfl, _, hbox⟩ (ih (i + 1) seals' hseals)

theorem of_rotateVaultKey (hC : C.Correct) {random : KeyRandom} {boxes : ℕ → BoxRandom}
    {encrypted : EncryptedVaultMeta} {members : List KeyRecipient} {rotated : RotatedVault}
    {vaultMeta : VaultMeta} {accountKey vaultKey : Text}
    (haccount : store.accountKey = some accountKey)
    (hversion : store.currentKeyVersion v = .ok n) (hkey : store.vaultKey v n = .ok vaultKey)
    (hmeta : store.decryptVaultMeta C J v encrypted = .ok vaultMeta)
    (h : store.rotateVaultKey C J random boxes v encrypted members = .ok rotated) :
    (rotated.rotated, rotated.previousKey)
        = Passmgr.rotateVaultKey C J random accountKey vaultKey v n vaultMeta ∧
      List.Forall₂ (SealedTo C store random.vaultKey v (n + 1)) members rotated.memberKeys := by
  obtain ⟨accountKey', haccount', h⟩ := bind_eq_ok.mp h
  obtain rfl := Option.some.inj (haccount.symm.trans (unlocked_eq_ok.mp haccount'))
  obtain ⟨n', hversion', h⟩ := bind_eq_ok.mp h
  obtain rfl := Except.ok.inj (hversion.symm.trans hversion')
  obtain ⟨vaultKey', hkey', h⟩ := bind_eq_ok.mp h
  obtain rfl := Except.ok.inj (hkey.symm.trans hkey')
  obtain ⟨vaultMeta', hmeta', h⟩ := bind_eq_ok.mp h
  obtain rfl := Except.ok.inj (hmeta.symm.trans hmeta')
  dsimp only [Passmgr.rotateVaultKey] at h
  split at h
  · next hempty =>
    cases h
    rw [List.isEmpty_iff.mp hempty]
    exact ⟨rfl, .nil⟩
  · obtain ⟨newKey, hnew, h⟩ := bind_eq_ok.mp h
    obtain ⟨seals, hseals, h⟩ := bind_eq_ok.mp h
    cases h
    have hsame : newKey = random.vaultKey := by
      have hwrap := unwrapVaultKey_wrapVaultKey hC random.wrapNonce accountKey random.vaultKey v
        (n + 1)
      exact Option.some.inj ((opened_eq_ok.mp hnew).symm.trans hwrap)
    subst hsame
    exact ⟨rfl, of_sealToMembers members 0 seals hseals⟩

theorem of_encryptRecord {nonce : Text} {recordId : RecordId} {data : Text} {content : Ciphertext}
    (h : store.encryptRecord C nonce recordId v data = .ok content) :
    ∃ keyVersion vaultKey, store.vaultKey v keyVersion = .ok vaultKey ∧
      content = ⟨(encryptRecordData C nonce vaultKey ⟨recordId, v, currentCryptoVersion⟩ data).1,
        (encryptRecordData C nonce vaultKey ⟨recordId, v, currentCryptoVersion⟩ data).2,
        currentCryptoVersion, keyVersion⟩ := by
  obtain ⟨keyVersion, -, h⟩ := bind_eq_ok.mp h
  obtain ⟨vaultKey, hkey, h⟩ := bind_eq_ok.mp h
  exact ⟨keyVersion, vaultKey, hkey, (Except.ok.inj h).symm⟩

end Operations

end Passmgr
