/-
# Vault keys, their links and what they encrypt

`packages/crypto`: the account key wraps the vault keys and the private key, a vault key wraps the
one before it and encrypts the vault's records and metadata, and a key pair seals vault keys to
other members.  The cipher and the curve are third-party code, `C : Ciphers Text`.  Bytes are texts
of which only equality matters, so base64 is left out, and every random value is an argument.

Main definitions:

* `wrapVaultKey`, `wrapPreviousVaultKey`, `encryptRecordData`, `encryptVaultMeta`, `sealVaultKey`,
  `createUserKeyPair`, `sealPendingRecovery` — making ciphertexts, and the functions that open them;
* `createVault`, `rotateVaultKey` — a new vault, and a new key of one;
* `linkOf` — the link of a version in a list of links.

Main results:

* `unwrapVaultKey_wrapVaultKey`, `unwrapPreviousVaultKey_wrapPreviousVaultKey`, … — what was made
  opens in its own slot.
-/

import Passmgr.CipherSlots
import Passmgr.IdealCipher
import Passmgr.ServerTables

set_option relaxedAutoImplicit false
set_option autoImplicit false

namespace Passmgr

open IdealCipher (Ciphers)

/-! ### The data -/

/-- `vaultKeyWrapSchema`: a vault key wrapped by the account key. -/
structure VaultKeyWrap where
  vaultId : VaultId
  keyVersion : ℕ
  wrap : WrappedKey
  deriving DecidableEq, Repr

/-- `vaultMetaSchema`: the decrypted vault metadata. -/
structure VaultMeta where
  name : Text
  icon : Option Text
  color : Option Text
  deriving DecidableEq, Repr

/-- `encryptedVaultMetaSchema`. -/
structure EncryptedVaultMeta where
  encryptedMeta : Text
  metaEncryptionNonce : Text
  deriving DecidableEq, Repr

/-- `userPublicKeySchema`. -/
structure UserPublicKey where
  keyVersion : ℕ
  publicKey : Text
  deriving DecidableEq, Repr

/-- `userKeyPairSchema`: a key pair as its user gets it, the private key wrapped. -/
structure WrappedKeyPair where
  keyVersion : ℕ
  publicKey : Text
  encryptedPrivateKey : Text
  privateKeyEncryptionNonce : Text
  deriving DecidableEq, Repr

/-- `SealedPendingRecovery`. -/
structure SealedPendingRecovery where
  ciphertext : Text
  nonce : Text
  deriving DecidableEq, Repr

/-- The text of a metadata (`JSON.stringify`) and the metadata of a text (`JSON.parse`, then
`vaultMetaSchema.parse`), which fails on a text that is none. -/
structure MetaJson where
  stringify : VaultMeta → Text
  parse : Text → Option VaultMeta

/-- The JSON of metadata that is only a name without quotes or escapes. -/
def nameJson : MetaJson where
  stringify vaultMeta := "\x7b\"name\":\"".toList ++ vaultMeta.name ++ "\"\x7d".toList
  parse text :=
    let name := (text.drop 9).take (text.length - 11)
    if text = "\x7b\"name\":\"".toList ++ name ++ "\"\x7d".toList then some ⟨name, none, none⟩
    else none

section Functions

variable (C : Ciphers Text) (J : MetaJson)

/-! ### The cipher -/

def encryptXChaChaWithAAD (nonce key inputData aad : Text) : Text × Text :=
  (C.encrypt key nonce aad inputData, nonce)

def decryptXChaChaWithAAD (key encryptedData nonce aad : Text) : Option Text :=
  C.decrypt key encryptedData nonce aad

/-! ### Under the account key -/

/-- `wrapAccountKey`: under a KEK (password, recovery or biometric). -/
def wrapAccountKey (nonce kek accountKey : Text) : Text × Text :=
  encryptXChaChaWithAAD C nonce kek accountKey accountKeyAad

def unwrapAccountKey (kek encryptedAccountKey nonce : Text) : Option Text :=
  decryptXChaChaWithAAD C kek encryptedAccountKey nonce accountKeyAad

def wrapVaultKey (nonce accountKey vaultKey : Text) (vaultId : VaultId) (keyVersion : ℕ) :
    VaultKeyWrap :=
  let (encryptedVaultKey, vaultKeyEncryptionNonce) :=
    encryptXChaChaWithAAD C nonce accountKey vaultKey (vaultKeyAad vaultId keyVersion)
  ⟨vaultId, keyVersion, encryptedVaultKey, vaultKeyEncryptionNonce⟩

/-- `unwrapVaultKey`: fails when the wrap was made for another vault or key version. -/
def unwrapVaultKey (accountKey : Text) (wrap : VaultKeyWrap) : Option Text :=
  decryptXChaChaWithAAD C accountKey wrap.wrap.encryptedVaultKey wrap.wrap.vaultKeyEncryptionNonce
    (vaultKeyAad wrap.vaultId wrap.keyVersion)

/-- `sealPendingRecovery`: encrypt a pending recovery, serialized. -/
def sealPendingRecovery (nonce accountKey plaintext : Text) : SealedPendingRecovery :=
  let (ciphertext, nonce) := encryptXChaChaWithAAD C nonce accountKey plaintext pendingRecoveryAad
  ⟨ciphertext, nonce⟩

def openPendingRecovery (accountKey : Text) (sealed : SealedPendingRecovery) : Option Text :=
  decryptXChaChaWithAAD C accountKey sealed.ciphertext sealed.nonce pendingRecoveryAad

/-- `createUserKeyPair`: a fresh key pair, the first key version. -/
def createUserKeyPair (privateKey nonce accountKey : Text) : WrappedKeyPair :=
  let (encryptedPrivateKey, privateKeyEncryptionNonce) :=
    encryptXChaChaWithAAD C nonce accountKey privateKey (privateKeyAad 1)
  ⟨1, C.publicKey privateKey, encryptedPrivateKey, privateKeyEncryptionNonce⟩

/-- `unwrapUserPrivateKey`: fails when the wrap doesn't open or doesn't belong to the public
key. -/
def unwrapUserPrivateKey (accountKey : Text) (keyPair : WrappedKeyPair) : Option Text :=
  (decryptXChaChaWithAAD C accountKey keyPair.encryptedPrivateKey
    keyPair.privateKeyEncryptionNonce (privateKeyAad keyPair.keyVersion)).filter
      (C.publicKey · = keyPair.publicKey)

/-! ### Under a vault key -/

/-- `wrapPreviousVaultKey`: a vault's key `keyVersion` under the key that replaces it. -/
def wrapPreviousVaultKey (nonce newVaultKey previousVaultKey : Text) (vaultId : VaultId)
    (keyVersion : ℕ) : VaultKeyLink :=
  let (encryptedVaultKey, vaultKeyEncryptionNonce) :=
    encryptXChaChaWithAAD C nonce newVaultKey previousVaultKey
      (previousVaultKeyAad vaultId keyVersion)
  ⟨vaultId, keyVersion, encryptedVaultKey, vaultKeyEncryptionNonce⟩

/-- `unwrapPreviousVaultKey`: a vault's earlier key with the key one version above it. -/
def unwrapPreviousVaultKey (newerVaultKey : Text) (vaultId : VaultId) (link : VaultKeyLink) :
    Option Text :=
  decryptXChaChaWithAAD C newerVaultKey link.wrap.encryptedVaultKey
    link.wrap.vaultKeyEncryptionNonce (previousVaultKeyAad vaultId link.keyVersion)

def encryptRecordData (nonce vaultKey : Text) (context : RecordCipherContext) (data : Text) :
    Text × Text :=
  encryptXChaChaWithAAD C nonce vaultKey data (recordAad context)

/-- `decryptRecordData`: fails when the ciphertext belongs to another record or vault. -/
def decryptRecordData (vaultKey : Text) (context : RecordCipherContext)
    (encryptedData nonce : Text) : Option Text :=
  decryptXChaChaWithAAD C vaultKey encryptedData nonce (recordAad context)

def encryptVaultMeta (nonce vaultKey : Text) (vaultId : VaultId) (vaultMeta : VaultMeta) :
    EncryptedVaultMeta :=
  let (encryptedMeta, metaEncryptionNonce) :=
    encryptXChaChaWithAAD C nonce vaultKey (J.stringify vaultMeta) (vaultMetaAad vaultId)
  ⟨encryptedMeta, metaEncryptionNonce⟩

/-- `decryptVaultMeta`: the decrypted metadata, unparsed. -/
def decryptVaultMeta (vaultKey : Text) (vaultId : VaultId) (encrypted : EncryptedVaultMeta) :
    Option Text :=
  decryptXChaChaWithAAD C vaultKey encrypted.encryptedMeta encrypted.metaEncryptionNonce
    (vaultMetaAad vaultId)

/-- The random values of a new vault key: itself, and the nonces of its wrap, of the metadata and
of the link to the key before it. -/
structure KeyRandom where
  vaultKey : Text
  wrapNonce : Text
  metaNonce : Text
  linkNonce : Text
  deriving DecidableEq, Repr

/-- What `createVault` and `rotateVaultKey` resolve but for the links. -/
structure NewVaultKey where
  wrap : VaultKeyWrap
  encrypted : EncryptedVaultMeta
  deriving DecidableEq, Repr

/-- `createVault`: a fresh vault with the id `vaultId`, at its first key version. -/
def createVault (random : KeyRandom) (vaultId : VaultId) (accountKey : Text)
    (vaultMeta : VaultMeta) : NewVaultKey where
  wrap := wrapVaultKey C random.wrapNonce accountKey random.vaultKey vaultId 1
  encrypted := encryptVaultMeta C J random.metaNonce random.vaultKey vaultId vaultMeta

/-- `rotateVaultKey`: a fresh key at the next version wrapped under the account key, the current
key wrapped under the new one, and the metadata re-encrypted with the new key. -/
def rotateVaultKey (random : KeyRandom) (accountKey currentVaultKey : Text) (vaultId : VaultId)
    (currentKeyVersion : ℕ) (vaultMeta : VaultMeta) : NewVaultKey × VaultKeyLink :=
  ({ wrap := wrapVaultKey C random.wrapNonce accountKey random.vaultKey vaultId
       (currentKeyVersion + 1)
     encrypted := encryptVaultMeta C J random.metaNonce random.vaultKey vaultId vaultMeta },
   wrapPreviousVaultKey C random.linkNonce random.vaultKey currentVaultKey vaultId
     currentKeyVersion)

/-! ### Between key pairs -/

/-- The random values of a box: the ephemeral key and the nonce. -/
structure BoxRandom where
  ephemeralKey : Text
  nonce : Text
  deriving DecidableEq, Repr

/-- `sealVaultKey`: fails on a public key the curve refuses. -/
def sealVaultKey (random : BoxRandom) (senderPrivateKey recipientPublicKey vaultKey : Text)
    (vaultId : VaultId) (keyVersion : ℕ) : Option Text :=
  C.sealTo random.ephemeralKey random.nonce senderPrivateKey recipientPublicKey vaultKey
    (vaultKeySealAad vaultId keyVersion)

/-- `openSealedVaultKey`: fails unless `senderPublicKey` sealed it for this slot. -/
def openSealedVaultKey (privateKey senderPublicKey sealed : Text) (vaultId : VaultId)
    (keyVersion : ℕ) : Option Text :=
  C.unsealFrom privateKey senderPublicKey sealed (vaultKeySealAad vaultId keyVersion)

end Functions

/-- The link of a version in a list of links, through a `Map` by version: the last one of it. -/
def linkOf (links : List VaultKeyLink) (keyVersion : ℕ) : Option VaultKeyLink :=
  links.reverse.find? (·.keyVersion = keyVersion)

theorem mem_of_linkOf {links : List VaultKeyLink} {n : ℕ} {link : VaultKeyLink}
    (h : linkOf links n = some link) : link ∈ links ∧ link.keyVersion = n :=
  ⟨List.mem_reverse.mp (List.mem_of_find?_eq_some h), by simpa using List.find?_some h⟩

/-! ### What was made opens -/

section Correct

variable {C : Ciphers Text}

theorem unwrapVaultKey_wrapVaultKey (hC : C.Correct) (nonce accountKey vaultKey : Text)
    (vaultId : VaultId) (keyVersion : ℕ) :
    unwrapVaultKey C accountKey (wrapVaultKey C nonce accountKey vaultKey vaultId keyVersion)
      = some vaultKey :=
  hC.decrypt_encrypt _ _ _ _

theorem unwrapPreviousVaultKey_wrapPreviousVaultKey (hC : C.Correct)
    (nonce newVaultKey previousVaultKey : Text) (vaultId : VaultId) (keyVersion : ℕ) :
    unwrapPreviousVaultKey C newVaultKey vaultId
      (wrapPreviousVaultKey C nonce newVaultKey previousVaultKey vaultId keyVersion)
        = some previousVaultKey :=
  hC.decrypt_encrypt _ _ _ _

theorem decryptRecordData_encryptRecordData (hC : C.Correct) (nonce vaultKey : Text)
    (context : RecordCipherContext) (data : Text) :
    decryptRecordData C vaultKey context (encryptRecordData C nonce vaultKey context data).1
      (encryptRecordData C nonce vaultKey context data).2 = some data :=
  hC.decrypt_encrypt _ _ _ _

theorem openSealedVaultKey_sealVaultKey (hC : C.Correct) {random : BoxRandom}
    {senderPrivateKey privateKey vaultKey sealed : Text} {vaultId : VaultId} {keyVersion : ℕ}
    (h : sealVaultKey C random senderPrivateKey (C.publicKey privateKey) vaultKey vaultId keyVersion
      = some sealed) :
    openSealedVaultKey C privateKey (C.publicKey senderPrivateKey) sealed vaultId keyVersion
      = some vaultKey :=
  hC.unsealFrom_sealTo h

end Correct

end Passmgr
