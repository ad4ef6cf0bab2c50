/-
# The wraps of the account key

The account key under a password and under a recovery key, what proves the recovery key to the
server, and what the server learns instead of a password (`packages/crypto/src/user-keys.ts` and
`hash.ts`, `packages/client/src/account/rekey-password-keys.ts`).

Argon2id, HKDF, SHA-256 and OPAQUE are parameters.  Base64 is left out: a string of a stored wrap is
its text.

Main definitions:

* `KeyDerivation`, `KeyDerivation.Ideal` — the parameters, and what is relied on;
* `derivePasswordWrap`, `openPasswordWrap` — the wrap under a password;
* `generateRecoveryKeys`, `unwrapAccountKeyWithRecoveryKey` — the one under a recovery key;
* `deriveRecoveryAuthKey`, `hashRecoveryAuthKey`, `deriveOpaquePassword` — what the server gets.

Main results:

* `openPasswordWrap_eq_some` — a password wrap opens with its password only;
* `unwrapAccountKeyWithRecoveryKey_eq_some` — a recovery wrap opens with its recovery key only.
-/

import Passmgr.KeySets
import Passmgr.VaultCrypto

set_option relaxedAutoImplicit false
set_option autoImplicit false

namespace Passmgr

open IdealCipher (Ciphers)

/-! ### Keys from passwords and recovery keys -/

/-- What the key derivations and OPAQUE do; the record of a registration is checked at a login. -/
structure KeyDerivation where
  argon2 : (password salt : Text) → ArgonParams → Text
  hkdf : (key info salt : Text) → Text
  sha256 : Text → Text
  register : (opaquePassword email random : Text) → String
  accepts : (registrationRecord : String) → (opaquePassword : Text) → Bool

/-- Different passwords and keys give different ones, and a login is accepted with the password that
was registered only. -/
structure KeyDerivation.Ideal (K : KeyDerivation) : Prop where
  argon2_inj : ∀ {p p' salt params}, K.argon2 p salt params = K.argon2 p' salt params → p = p'
  hkdf_inj : ∀ {k k' info salt}, K.hkdf k info salt = K.hkdf k' info salt → k = k'
  accepts_register : ∀ p email random q, K.accepts (K.register p email random) q = true ↔ p = q

/-- `RecoveryWrapSchema`: a recovery wrap without its verifier. -/
structure RecoveryWrap where
  recoveryKekSalt : String
  encryptedAccountKeyRecovery : String
  accountKeyEncryptionNonceRecovery : String
  deriving DecidableEq, Repr

def RecoveryKeys.wrap (keys : RecoveryKeys) : RecoveryWrap where
  recoveryKekSalt := keys.recoveryKekSalt
  encryptedAccountKeyRecovery := keys.encryptedAccountKeyRecovery
  accountKeyEncryptionNonceRecovery := keys.accountKeyEncryptionNonceRecovery

/-- `AccountKeyMaterial`: the password wrap and the key pair. -/
structure AccountKeyMaterial extends PasswordKeys where
  userKeyPair : WrappedKeyPair
  deriving DecidableEq, Repr

/-- What a password wrap is made with: the device's cost, a salt and a nonce. -/
structure PasswordRandom where
  params : ArgonParams
  salt : Text
  nonce : Text
  deriving DecidableEq, Repr

/-- What a recovery wrap is made with: the new recovery key, a salt and a nonce. -/
structure RecoveryRandom where
  recoveryKey : Text
  salt : Text
  nonce : Text
  deriving DecidableEq, Repr

section Functions

variable (C : Ciphers Text) (K : KeyDerivation)

/-- `derivePasswordWrap`: the account key under a password. -/
def derivePasswordWrap (random : PasswordRandom) (password accountKey : Text) : PasswordKeys :=
  let passwordKek := K.argon2 password random.salt random.params
  let (encryptedAccountKey, nonce) := wrapAccountKey C random.nonce passwordKek accountKey
  { passwordKekParams := random.params
    passwordKekSalt := String.ofList random.salt
    encryptedAccountKey := String.ofList encryptedAccountKey
    accountKeyEncryptionNonce := String.ofList nonce }

/-- `derivePasswordKek` and `unwrapAccountKey`: fails when the password is another one. -/
def openPasswordWrap (password : Text) (keys : PasswordKeys) : Option Text :=
  unwrapAccountKey C (K.argon2 password keys.passwordKekSalt.toList keys.passwordKekParams)
    keys.encryptedAccountKey.toList keys.accountKeyEncryptionNonce.toList

/-- `deriveRecoveryAuthKey`: proves the recovery key to the server. -/
def deriveRecoveryAuthKey (recoveryKey : Text) : Text :=
  K.hkdf recoveryKey "recoveryAuth".toList []

/-- `hashRecoveryAuthKey`: what the server keeps of it. -/
def hashRecoveryAuthKey (recoveryAuthKey : Text) : String :=
  String.ofList (K.sha256 recoveryAuthKey)

/-- `deriveOpaquePassword`: what OPAQUE gets instead of the password. -/
def deriveOpaquePassword (password email : Text) : Text :=
  K.hkdf password "opaquePassword".toList email

/-- `generateRecoveryKeys`: the account key under a new recovery key, with its verifier. -/
def generateRecoveryKeys (random : RecoveryRandom) (accountKey : Text) : RecoveryKeys :=
  let recoveryKek := K.hkdf random.recoveryKey "recoveryRootKey".toList random.salt
  let recoveryAuthKey := deriveRecoveryAuthKey K random.recoveryKey
  let (encryptedAccountKeyRecovery, nonce) := wrapAccountKey C random.nonce recoveryKek accountKey
  { recoveryKekSalt := String.ofList random.salt
    encryptedAccountKeyRecovery := String.ofList encryptedAccountKeyRecovery
    accountKeyEncryptionNonceRecovery := String.ofList nonce
    recoveryVerifier := some (hashRecoveryAuthKey K recoveryAuthKey) }

/-- `unwrapAccountKeyWithRecoveryKey`: fails when the recovery key is another one. -/
def unwrapAccountKeyWithRecoveryKey (recoveryKey : Text) (wrap : RecoveryWrap) : Option Text :=
  let recoveryKek := K.hkdf recoveryKey "recoveryRootKey".toList wrap.recoveryKekSalt.toList
  unwrapAccountKey C recoveryKek wrap.encryptedAccountKeyRecovery.toList
    wrap.accountKeyEncryptionNonceRecovery.toList

/-- `generateUserKeys`: a complete key set. -/
def generateUserKeys (password accountKey : Text) (passwordRandom : PasswordRandom)
    (recoveryRandom : RecoveryRandom) : UserKeys where
  toPasswordKeys := derivePasswordWrap C K passwordRandom password accountKey
  toRecoveryKeys := generateRecoveryKeys C K recoveryRandom accountKey

end Functions

/-! ### What opens them -/

section Opens

variable {C : Ciphers Text} {K : KeyDerivation}

theorem unwrapAccountKey_wrapAccountKey (hC : C.Ideal) {kek kek' nonce accountKey opened : Text} :
    unwrapAccountKey C kek' (wrapAccountKey C nonce kek accountKey).1
      (wrapAccountKey C nonce kek accountKey).2 = some opened ↔ kek' = kek ∧ accountKey = opened := by
  constructor
  · intro h
    obtain ⟨hkek, -, -, hdata⟩ := hC.opened_as_made h
    exact ⟨hkek, hdata.symm⟩
  · rintro ⟨rfl, rfl⟩
    exact hC.decrypt_encrypt _ _ _ _

/-- **A password wrap opens with its password only**, to the account key. -/
theorem openPasswordWrap_eq_some (hC : C.Ideal) (hK : K.Ideal) {random : PasswordRandom}
    {password password' accountKey opened : Text} :
    openPasswordWrap C K password' (derivePasswordWrap C K random password accountKey) =
      some opened ↔ password' = password ∧ accountKey = opened := by
  unfold openPasswordWrap derivePasswordWrap
  simp only [String.toList_ofList]
  rw [unwrapAccountKey_wrapAccountKey hC]
  refine and_congr_left fun _ => ⟨fun h => hK.argon2_inj h, ?_⟩
  rintro rfl
  rfl

/-- **A recovery wrap opens with its recovery key only**, to the account key. -/
theorem unwrapAccountKeyWithRecoveryKey_eq_some (hC : C.Ideal) (hK : K.Ideal)
    {random : RecoveryRandom} {recoveryKey accountKey opened : Text} :
    unwrapAccountKeyWithRecoveryKey C K recoveryKey (generateRecoveryKeys C K random accountKey).wrap =
      some opened ↔ recoveryKey = random.recoveryKey ∧ accountKey = opened := by
  unfold unwrapAccountKeyWithRecoveryKey generateRecoveryKeys RecoveryKeys.wrap
  simp only [String.toList_ofList]
  rw [unwrapAccountKey_wrapAccountKey hC]
  refine and_congr_left fun _ => ⟨fun h => hK.hkdf_inj h, ?_⟩
  rintro rfl
  rfl

theorem openPendingRecovery_sealPendingRecovery (hC : C.Ideal)
    {nonce accountKey accountKey' plaintext opened : Text} :
    openPendingRecovery C accountKey' (sealPendingRecovery C nonce accountKey plaintext) =
      some opened ↔ accountKey' = accountKey ∧ plaintext = opened := by
  constructor
  · intro h
    obtain ⟨hkey, -, -, hdata⟩ := hC.opened_as_made h
    exact ⟨hkey, hdata.symm⟩
  · rintro ⟨rfl, rfl⟩
    exact hC.decrypt_encrypt _ _ _ _

end Opens

end Passmgr
