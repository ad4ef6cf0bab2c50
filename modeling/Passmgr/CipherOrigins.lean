/-
# What a ciphertext that opens was made for

Devices of any number of users make ciphertexts of eight kinds, under account keys, vault keys,
KEKs and between key pairs, and the server hands them out again as rows it puts together as it
likes.  What a device opens in a slot was made for that slot, and a vault key is only ever loaded
under the name of the vault and version it was generated for.

Main definitions:

* `MadeCiphertext`, `MadeSeal`, `GeneratedKey` — what honest devices made, with what it was made
  for;
* `CipherWorld`, `CipherStep` — the devices' keys and everything they made, and the devices' steps;
* `CipherWorld.HandsOut` — a word the server can hand out: any ciphertext or box ever made;
* `CipherWorld.Sound` — the invariant: everything made fits its slot, and every loaded vault key
  was generated for the name it is under.

Main results:

* `CipherWorld.Sound.opened`, `CipherWorld.Sound.unsealed` — what opens was made for its slot;
* `CipherWorld.Sound.step` — a step preserves the invariant;
* `ciphertexts_in_slot` — whatever any operation of a device opens was made for exactly that.
-/

import Passmgr.Run
import Passmgr.SecretsStore

set_option relaxedAutoImplicit false
set_option autoImplicit false

namespace Passmgr

open IdealCipher (Ciphers)

/-! ### What the devices made -/

/-- A ciphertext an honest device made: for which slot, under which key, of what. -/
structure MadeCiphertext where
  slot : CipherSlot
  key : Text
  nonce : Text
  data : Text
  ciphertext : Text

/-- A vault key an honest device sealed, between two public keys. -/
structure MadeSeal where
  vaultId : VaultId
  keyVersion : ℕ
  senderPublicKey : Text
  recipientPublicKey : Text
  vaultKey : Text
  box : Text

/-- A vault key an honest device generated. -/
structure GeneratedKey where
  key : Text
  vaultId : VaultId
  keyVersion : ℕ

/-- The devices' keys, and everything they made so far. -/
structure CipherWorld where
  made : List MadeCiphertext
  seals : List MadeSeal
  generated : List GeneratedKey
  stores : ℕ → SecretsStore

/-- Nothing is made, and nothing is loaded. -/
def CipherWorld.start : CipherWorld where
  made := []
  seals := []
  generated := []
  stores _ := SecretsStore.empty

namespace CipherWorld

variable (w : CipherWorld)

/-- A word the server can hand out as a ciphertext or a box: any that was ever made. -/
def HandsOut (word : Text) : Prop :=
  (∃ m ∈ w.made, m.ciphertext = word) ∨ ∃ s ∈ w.seals, s.box = word

/-- A key was generated for a vault and version. -/
def Generated (key : Text) (vaultId : VaultId) (keyVersion : ℕ) : Prop :=
  ⟨key, vaultId, keyVersion⟩ ∈ w.generated

/-- A random key is none that was generated before. -/
def Fresh (key : Text) : Prop := ∀ g ∈ w.generated, g.key ≠ key

/-- The links of a list are of handed out ciphertexts. -/
def HandsOutLinks (links : List VaultKeyLink) : Prop :=
  ∀ link ∈ links, w.HandsOut link.wrap.encryptedVaultKey

/-- A list of vaults is put together from handed out ciphertexts. -/
def HandsOutVaults (vaults : List MemberVault) : Prop :=
  ∀ vault ∈ vaults, w.HandsOut vault.wrap.encryptedVaultKey ∧ w.HandsOutLinks vault.previousKeys

/-- The world after a device loaded other keys. -/
def load (i : ℕ) (store : SecretsStore) : CipherWorld :=
  { w with stores := Function.update w.stores i store }

/-- The world after a device made ciphertexts and boxes, and generated keys. -/
def emit (made : List MadeCiphertext) (seals : List MadeSeal) (generated : List GeneratedKey) :
    CipherWorld where
  made := w.made ++ made
  seals := w.seals ++ seals
  generated := w.generated ++ generated
  stores := w.stores

end CipherWorld

/-- The wrap of a vault key, as made under an account key. -/
def VaultKeyWrap.made (wrap : VaultKeyWrap) (accountKey vaultKey : Text) : MadeCiphertext where
  slot := .vaultKey wrap.vaultId wrap.keyVersion
  key := accountKey
  nonce := wrap.wrap.vaultKeyEncryptionNonce
  data := vaultKey
  ciphertext := wrap.wrap.encryptedVaultKey

/-- Encrypted metadata, as made under a vault key. -/
def EncryptedVaultMeta.made (encrypted : EncryptedVaultMeta) (vaultId : VaultId)
    (vaultKey json : Text) : MadeCiphertext where
  slot := .vaultMeta vaultId
  key := vaultKey
  nonce := encrypted.metaEncryptionNonce
  data := json
  ciphertext := encrypted.encryptedMeta

/-- The link of a version, as made under the key above it. -/
def VaultKeyLink.made (link : VaultKeyLink) (vaultId : VaultId) (newKey key : Text) :
    MadeCiphertext where
  slot := .previousVaultKey vaultId link.keyVersion
  key := newKey
  nonce := link.wrap.vaultKeyEncryptionNonce
  data := key
  ciphertext := link.wrap.encryptedVaultKey

/-- A record's ciphertext, as made under a vault key. -/
def Ciphertext.made (content : Ciphertext) (recordId : RecordId) (vaultId : VaultId)
    (vaultKey data : Text) : MadeCiphertext where
  slot := .record ⟨recordId, vaultId, content.cryptoVersion⟩
  key := vaultKey
  nonce := content.encryptionNonce
  data := data
  ciphertext := content.encryptedData

/-- A wrapped private key, as made under an account key. -/
def WrappedKeyPair.made (keyPair : WrappedKeyPair) (accountKey privateKey : Text) :
    MadeCiphertext where
  slot := .userPrivateKey keyPair.keyVersion
  key := accountKey
  nonce := keyPair.privateKeyEncryptionNonce
  data := privateKey
  ciphertext := keyPair.encryptedPrivateKey

/-- The boxes of a rotation, as made by the sender for each member. -/
def madeSeals (senderPublicKey newKey : Text) (vaultId : VaultId) (keyVersion : ℕ)
    (members : List SecretsStore.KeyRecipient) (seals : List MemberKeySeal) : List MadeSeal :=
  List.zipWith (fun member seal_ =>
    ⟨vaultId, keyVersion, senderPublicKey, member.publicKey.publicKey, newKey,
      seal_.sealedVaultKey⟩) members seals

/-! ### The devices' steps -/

section Steps

variable (C : Ciphers Text) (J : MetaJson)

open SecretsStore

/-- A step of a device: it unlocks or locks, opens rows the server put together, or makes
ciphertexts with the keys it has loaded.  A generated key is fresh. -/
inductive CipherStep (w : CipherWorld) : CipherWorld → Prop
  | unlock (i : ℕ) (accountKey : Text) :
    CipherStep w (w.load i ((w.stores i).setAccountKey accountKey))
  | lock (i : ℕ) : CipherStep w (w.load i (w.stores i).lockVault)
  | loadVaultKeys (i : ℕ) {vaults : List MemberVault} {store : SecretsStore}
    {skipped : List VaultId} (handed : w.HandsOutVaults vaults)
    (opens : (w.stores i).loadVaultKeys C vaults = .ok (store, skipped)) :
    CipherStep w (w.load i store)
  | loadUserKeyPair (i : ℕ) {keyPair : WrappedKeyPair}
    (handed : w.HandsOut keyPair.encryptedPrivateKey) :
    CipherStep w (w.load i ((w.stores i).loadUserKeyPair C keyPair).1)
  | wrapAccountKey (i : ℕ) {nonce kek accountKey : Text}
    (account : (w.stores i).accountKey = some accountKey) :
    CipherStep w (w.emit [⟨.accountKey, kek, nonce, accountKey,
      (Passmgr.wrapAccountKey C nonce kek accountKey).1⟩] [] [])
  | createUserKeyPair (i : ℕ) {privateKey nonce accountKey : Text}
    (account : (w.stores i).accountKey = some accountKey) :
    CipherStep w (w.emit
      [(Passmgr.createUserKeyPair C privateKey nonce accountKey).made accountKey privateKey] [] [])
  | sealPendingRecovery (i : ℕ) {nonce accountKey plaintext : Text}
    (account : (w.stores i).accountKey = some accountKey) :
    CipherStep w (w.emit [⟨.pendingRecovery, accountKey, nonce, plaintext,
      (Passmgr.sealPendingRecovery C nonce accountKey plaintext).ciphertext⟩] [] [])
  | createVault (i : ℕ) {random : KeyRandom} {vaultId : VaultId} {vaultMeta : VaultMeta}
    {accountKey : Text} {created : NewVaultKey}
    (account : (w.stores i).accountKey = some accountKey) (fresh : w.Fresh random.vaultKey)
    (creates : (w.stores i).createVault C J random vaultId vaultMeta = .ok created) :
    CipherStep w (w.emit
      [created.wrap.made accountKey random.vaultKey,
        created.encrypted.made vaultId random.vaultKey (J.stringify vaultMeta)] []
      [⟨random.vaultKey, vaultId, 1⟩])
  | encryptRecord (i : ℕ) {nonce : Text} {recordId : RecordId} {vaultId : VaultId}
    {data vaultKey : Text} {content : Ciphertext}
    (encrypts : (w.stores i).encryptRecord C nonce recordId vaultId data = .ok content)
    (key : (w.stores i).vaultKey vaultId content.keyVersion = .ok vaultKey) :
    CipherStep w (w.emit [content.made recordId vaultId vaultKey data] [] [])
  | encryptVaultMeta (i : ℕ) {nonce : Text} {vaultId : VaultId} {vaultMeta : VaultMeta}
    {keyVersion : ℕ} {vaultKey : Text} {encrypted : EncryptedVaultMeta}
    (version : (w.stores i).currentKeyVersion vaultId = .ok keyVersion)
    (key : (w.stores i).vaultKey vaultId keyVersion = .ok vaultKey)
    (encrypts : (w.stores i).encryptVaultMeta C J nonce vaultId vaultMeta = .ok encrypted) :
    CipherStep w (w.emit [encrypted.made vaultId vaultKey (J.stringify vaultMeta)] [] [])
  | sealVaultKeyTo (i : ℕ) {random : BoxRandom} {vaultId : VaultId} {recipient : UserPublicKey}
    {box vaultKey privateKey : Text} {keyVersion : ℕ}
    (sender : (w.stores i).userPrivateKey = some privateKey)
    (key : (w.stores i).vaultKey vaultId keyVersion = .ok vaultKey)
    (seals : (w.stores i).sealVaultKeyTo C random vaultId recipient = .ok (box, keyVersion)) :
    CipherStep w (w.emit [] [⟨vaultId, keyVersion, C.publicKey privateKey, recipient.publicKey,
      vaultKey, box⟩] [])
  | openInvitation (i : ℕ) {nonce accountKey vaultKey : Text} {invitation : VaultInvitation}
    {vaultMeta : VaultMeta} {wrap : VaultKeyWrap}
    (handed : w.HandsOut invitation.sealedVaultKey ∧ w.HandsOut invitation.encrypted.encryptedMeta)
    (account : (w.stores i).accountKey = some accountKey)
    (key : (w.stores i).openSealed C invitation.sealedVaultKey invitation.recipientKeyVersion
      invitation.sender invitation.vaultId invitation.keyVersion = .ok vaultKey)
    (opens : (w.stores i).openInvitation C J nonce invitation = .ok (vaultMeta, wrap)) :
    CipherStep w (w.emit [wrap.made accountKey vaultKey] [] [])
  | openKeyUpdate (i : ℕ) {nonce accountKey vaultKey : Text} {update : VaultKeyUpdate}
    {wrap : VaultKeyWrap}
    (handed : w.HandsOut update.sealedVaultKey ∧ w.HandsOutLinks update.links)
    (account : (w.stores i).accountKey = some accountKey)
    (key : (w.stores i).openSealed C update.sealedVaultKey update.recipientKeyVersion
      update.sender update.vaultId update.keyVersion = .ok vaultKey)
    (opens : (w.stores i).openKeyUpdate C nonce update = .ok wrap) :
    CipherStep w (w.emit [wrap.made accountKey vaultKey] [] [])
  | rotateVaultKey (i : ℕ) {random : KeyRandom} {boxes : ℕ → BoxRandom} {vaultId : VaultId}
    {encrypted : EncryptedVaultMeta} {members : List KeyRecipient} {rotated : RotatedVault}
    {vaultMeta : VaultMeta} {keyVersion : ℕ} {accountKey vaultKey privateKey : Text}
    (account : (w.stores i).accountKey = some accountKey)
    (sender : members ≠ [] → (w.stores i).userPrivateKey = some privateKey)
    (version : (w.stores i).currentKeyVersion vaultId = .ok keyVersion)
    (key : (w.stores i).vaultKey vaultId keyVersion = .ok vaultKey)
    (opens : (w.stores i).decryptVaultMeta C J vaultId encrypted = .ok vaultMeta)
    (fresh : w.Fresh random.vaultKey)
    (rotates : (w.stores i).rotateVaultKey C J random boxes vaultId encrypted members
      = .ok rotated) :
    CipherStep w (w.emit
      [rotated.rotated.wrap.made accountKey random.vaultKey,
        rotated.rotated.encrypted.made vaultId random.vaultKey (J.stringify vaultMeta),
        rotated.previousKey.made vaultId random.vaultKey vaultKey]
      (madeSeals (C.publicKey privateKey) random.vaultKey vaultId (keyVersion + 1) members
        rotated.memberKeys)
      [⟨random.vaultKey, vaultId, keyVersion + 1⟩])

end Steps

/-! ### The invariant -/

/-- A ciphertext was made as it says, and fits its slot: the vault key in a wrap or a link, and the
one a link, a record or metadata is under, was generated for the slot's vault and version. -/
structure MadeCiphertext.Fits (C : Ciphers Text) (w : CipherWorld) (m : MadeCiphertext) : Prop where
  made : m.ciphertext = C.encrypt m.key m.nonce m.slot.aad m.data
  wrap : ∀ v n, m.slot = .vaultKey v n → w.Generated m.data v n
  link : ∀ v n, m.slot = .previousVaultKey v n → w.Generated m.data v n ∧ w.Generated m.key v (n + 1)
  record : ∀ context, m.slot = .record context → ∃ n, w.Generated m.key context.vaultId n
  vaultMeta : ∀ v, m.slot = .vaultMeta v → ∃ n, w.Generated m.key v n

/-- A box was made as it says, of a key generated for its vault and version. -/
structure MadeSeal.Fits (C : Ciphers Text) (w : CipherWorld) (s : MadeSeal) : Prop where
  made : ∃ ephemeralKey nonce privateKey, C.publicKey privateKey = s.senderPublicKey ∧
    C.sealTo ephemeralKey nonce privateKey s.recipientPublicKey s.vaultKey
      (vaultKeySealAad s.vaultId s.keyVersion) = some s.box
  key : w.Generated s.vaultKey s.vaultId s.keyVersion

/-- Every vault key is loaded under the name it was generated for. -/
def CipherWorld.Holds (w : CipherWorld) (keys : Text → Option Text) : Prop :=
  ∀ v n key, keys (vaultKeyId v n) = some key → w.Generated key v n

/-- The invariant. -/
structure CipherWorld.Sound (C : Ciphers Text) (w : CipherWorld) : Prop where
  made : ∀ m ∈ w.made, m.Fits C w
  seals : ∀ s ∈ w.seals, s.Fits C w
  generated : ∀ key v n v' n', w.Generated key v n → w.Generated key v' n' → v = v' ∧ n = n'
  stores : ∀ i, w.Holds (w.stores i).vaultKeys

variable {C : Ciphers Text} {J : MetaJson} {w : CipherWorld}

namespace CipherWorld

/-- **What opens was made for its slot**, under the same key and with the same nonce. -/
theorem Sound.opened (hC : C.Ideal) (h : w.Sound C) (slot : CipherSlot)
    {key ciphertext nonce data : Text} (hhanded : w.HandsOut ciphertext)
    (hopens : C.decrypt key ciphertext nonce slot.aad = some data) :
    ∃ m ∈ w.made, m.slot = slot ∧ m.key = key ∧ m.nonce = nonce ∧ m.data = data ∧
      m.ciphertext = ciphertext := by
  have hmade := hC.encrypt_of_decrypt hopens
  obtain ⟨m, hm, rfl⟩ | ⟨s, hs, rfl⟩ := hhanded
  · obtain ⟨hkey, hnonce, haad, hdata⟩ := hC.encrypt_inj ((h.made m hm).made.symm.trans hmade)
    exact ⟨m, hm, CipherSlot.aad_injective haad, hkey, hnonce, hdata, rfl⟩
  · obtain ⟨_, _, _, -, hbox⟩ := (h.seals s hs).made
    exact absurd hmade (hC.box_ne_encrypt hbox _ _ _ _)

/-- **What unseals was sealed for its vault and version**, between the same two key pairs. -/
theorem Sound.unsealed (hC : C.Ideal) (h : w.Sound C) {privateKey senderPublicKey box data : Text}
    {v : VaultId} {n : ℕ} (hhanded : w.HandsOut box)
    (hopens : openSealedVaultKey C privateKey senderPublicKey box v n = some data) :
    ∃ s ∈ w.seals, s.vaultId = v ∧ s.keyVersion = n ∧ s.senderPublicKey = senderPublicKey ∧
      s.recipientPublicKey = C.publicKey privateKey ∧ s.vaultKey = data ∧ s.box = box := by
  obtain ⟨e, nonce, sender, hsender, hbox⟩ := hC.sealTo_of_unsealFrom hopens
  obtain ⟨m, hm, rfl⟩ | ⟨s, hs, rfl⟩ := hhanded
  · exact absurd (h.made m hm).made (hC.box_ne_encrypt hbox _ _ _ _)
  · obtain ⟨_, _, _, hsender', hbox'⟩ := (h.seals s hs).made
    obtain ⟨hpublic, hrecipient, hkey, haad⟩ := hC.sealTo_inj hbox' hbox
    have hslot : CipherSlot.vaultKeySeal s.vaultId s.keyVersion = .vaultKeySeal v n :=
      CipherSlot.aad_injective haad
    cases hslot
    exact ⟨s, hs, rfl, rfl, by rw [← hsender', hpublic, hsender], hrecipient, hkey, rfl⟩

/-! ### Loaded keys -/

/-- Where a loaded vault key comes from: a wrap under the account key, or a link, of its vault and
version. -/
def Origin (w : CipherWorld) (accountKey : Text) (v : VaultId) (n : ℕ) (key : Text) : Prop :=
  ∃ m ∈ w.made, m.data = key ∧
    (m.slot = .vaultKey v n ∧ m.key = accountKey ∨ m.slot = .previousVaultKey v n)

/-- Every key has an origin for the name it is under. -/
def HasOrigins (w : CipherWorld) (accountKey : Text) (keys : Text → Option Text) : Prop :=
  ∀ v n key, keys (vaultKeyId v n) = some key → w.Origin accountKey v n key

theorem Sound.generated_of_origin (h : w.Sound C) {accountKey key : Text} {v : VaultId} {n : ℕ}
    (ho : w.Origin accountKey v n key) : w.Generated key v n := by
  obtain ⟨m, hm, rfl, ⟨hslot, -⟩ | hslot⟩ := ho
  · exact (h.made m hm).wrap v n hslot
  · exact ((h.made m hm).link v n hslot).1

theorem HasOrigins.update {accountKey key : Text} {keys : Text → Option Text} {v : VaultId} {n : ℕ}
    (h : w.HasOrigins accountKey keys) (hkey : w.Origin accountKey v n key) :
    w.HasOrigins accountKey (Function.update keys (vaultKeyId v n) (some key)) := by
  intro v' n' key' hkey'
  rw [Function.update_apply] at hkey'
  split at hkey'
  · next heq =>
    obtain ⟨rfl, rfl⟩ := vaultKeyId_inj heq
    cases hkey'
    exact hkey
  · exact h v' n' key' hkey'

theorem Sound.loadPreviousKeysFrom (hC : C.Ideal) (h : w.Sound C) {v : VaultId}
    {links : List VaultKeyLink} (hlinks : w.HandsOutLinks links) {accountKey : Text} :
    ∀ (n : ℕ) (newer : Text) (keys : Text → Option Text), w.HasOrigins accountKey keys →
      w.HasOrigins accountKey (loadPreviousKeysFrom C v links n newer keys)
  | 0, _, _, hkeys => hkeys
  | n + 1, newer, keys, hkeys => by
    simp only [Passmgr.loadPreviousKeysFrom]
    split
    · exact hkeys
    next link hlink =>
    split
    · exact hkeys
    next older hopens =>
    obtain ⟨hmem, hversion⟩ := mem_of_linkOf hlink
    refine h.loadPreviousKeysFrom hC hlinks n older _ (hkeys.update ?_)
    obtain ⟨m, hm, hslot, -, -, hdata, -⟩ :=
      h.opened hC (.previousVaultKey v link.keyVersion) (hlinks link hmem) hopens
    exact ⟨m, hm, hdata, .inr (by rw [hslot, hversion])⟩

theorem Sound.loadWraps (hC : C.Ideal) (h : w.Sound C) {accountKey : Text} :
    ∀ (vaults : List MemberVault) (loaded loaded' : LoadedKeys), w.HandsOutVaults vaults →
      w.HasOrigins accountKey loaded.keys → loadWraps C accountKey vaults loaded = .ok loaded' →
      w.HasOrigins accountKey loaded'.keys
  | [], loaded, loaded', _, hkeys, hok => by
    cases hok
    exact hkeys
  | vault :: rest, loaded, loaded', hhanded, hkeys, hok => by
    have hrest : w.HandsOutVaults rest := fun v hv => hhanded v (List.mem_cons_of_mem _ hv)
    obtain ⟨hwrap, hlinks⟩ := hhanded vault List.mem_cons_self
    simp only [Passmgr.loadWraps] at hok
    split at hok
    · cases hok
    split at hok
    · split at hok
      · cases hok
      · exact h.loadWraps hC rest { loaded with skipped := loaded.skipped ++ [vault.vaultId] } loaded'
          hrest hkeys hok
    next key hopens =>
    refine h.loadWraps hC rest _ loaded' hrest ?_ hok
    refine h.loadPreviousKeysFrom hC hlinks _ key _ (hkeys.update ?_)
    obtain ⟨m, hm, hslot, hkey, -, hdata, -⟩ :=
      h.opened hC (.vaultKey vault.vaultId vault.keyVersion) hwrap hopens
    exact ⟨m, hm, hdata, .inl ⟨hslot, hkey⟩⟩

theorem Sound.loadVaultKeys (hC : C.Ideal) (h : w.Sound C) {store store' : SecretsStore}
    {vaults : List MemberVault} {skipped : List VaultId} (hhanded : w.HandsOutVaults vaults)
    (hok : store.loadVaultKeys C vaults = .ok (store', skipped)) :
    ∃ accountKey, store.accountKey = some accountKey ∧ w.HasOrigins accountKey store'.vaultKeys := by
  unfold SecretsStore.loadVaultKeys at hok
  split at hok
  · cases hok
  next accountKey haccount =>
  split at hok
  · next personal _ =>
    cases hloaded : Passmgr.loadWraps C accountKey vaults ⟨fun _ => none, fun _ => none, []⟩ with
    | error e =>
      rw [hloaded] at hok
      cases hok
    | ok loaded =>
      rw [hloaded] at hok
      cases hok
      exact ⟨accountKey, haccount, h.loadWraps hC vaults _ loaded hhanded
        (fun _ _ _ hnone => by cases hnone) hloaded⟩
  · cases hok

/-! ### What was made before stays -/

theorem Generated.emit {made : List MadeCiphertext} {seals : List MadeSeal}
    {generated : List GeneratedKey} {key : Text} {v : VaultId} {n : ℕ} (h : w.Generated key v n) :
    (w.emit made seals generated).Generated key v n :=
  List.mem_append_left _ h

theorem generated_emit {made : List MadeCiphertext} {seals : List MadeSeal} (g : GeneratedKey)
    (generated : List GeneratedKey) :
    (w.emit made seals (g :: generated)).Generated g.key g.vaultId g.keyVersion :=
  List.mem_append_right _ List.mem_cons_self

end CipherWorld

theorem MadeCiphertext.Fits.emit {made : List MadeCiphertext} {seals : List MadeSeal}
    {generated : List GeneratedKey} {m : MadeCiphertext} (h : m.Fits C w) :
    m.Fits C (w.emit made seals generated) where
  made := h.made
  wrap v n hslot := (h.wrap v n hslot).emit
  link v n hslot := ⟨(h.link v n hslot).1.emit, (h.link v n hslot).2.emit⟩
  record context hslot := (h.record context hslot).imp fun _ hkey => hkey.emit
  vaultMeta v hslot := (h.vaultMeta v hslot).imp fun _ hkey => hkey.emit

theorem MadeSeal.Fits.emit {made : List MadeCiphertext} {seals : List MadeSeal}
    {generated : List GeneratedKey} {s : MadeSeal} (h : s.Fits C w) :
    s.Fits C (w.emit made seals generated) where
  made := h.made
  key := h.key.emit

namespace CipherWorld

/-- Ciphertexts, boxes and a fresh key that fit keep the invariant. -/
theorem Sound.emit (h : w.Sound C) {made : List MadeCiphertext} {seals : List MadeSeal}
    {generated : List GeneratedKey}
    (hmade : ∀ m ∈ made, m.Fits C (w.emit made seals generated))
    (hseals : ∀ s ∈ seals, s.Fits C (w.emit made seals generated))
    (hgenerated : generated = [] ∨ ∃ g, generated = [g] ∧ w.Fresh g.key) :
    (w.emit made seals generated).Sound C where
  made m hm := (List.mem_append.mp hm).elim (fun hm => (h.made m hm).emit) (hmade m)
  seals s hs := (List.mem_append.mp hs).elim (fun hs => (h.seals s hs).emit) (hseals s)
  generated key v n v' n' hkey hkey' := by
    obtain rfl | ⟨g, rfl, hfresh⟩ := hgenerated
    · exact h.generated key v n v' n' (by simpa [Generated, CipherWorld.emit] using hkey)
        (by simpa [Generated, CipherWorld.emit] using hkey')
    simp only [Generated, CipherWorld.emit, List.mem_append, List.mem_singleton] at hkey hkey'
    obtain hkey | rfl := hkey
    · obtain hkey' | rfl := hkey'
      · exact h.generated key v n v' n' hkey hkey'
      · exact (hfresh _ hkey rfl).elim
    · obtain hkey' | heq := hkey'
      · exact (hfresh _ hkey' rfl).elim
      · cases heq
        exact ⟨rfl, rfl⟩
  stores i v n key hkey := (h.stores i v n key hkey).emit

/-- Keys that were generated for their names may be loaded. -/
theorem Sound.load (h : w.Sound C) (i : ℕ) {store : SecretsStore}
    (hstore : w.Holds store.vaultKeys) : (w.load i store).Sound C where
  made m hm :=
    { made := (h.made m hm).made
      wrap := (h.made m hm).wrap
      link := (h.made m hm).link
      record := (h.made m hm).record
      vaultMeta := (h.made m hm).vaultMeta }
  seals s hs := ⟨(h.seals s hs).made, (h.seals s hs).key⟩
  generated := h.generated
  stores j := by
    change w.Holds (Function.update w.stores i store j).vaultKeys
    rw [Function.update_apply]
    split
    · exact hstore
    · exact h.stores j

/-- The vault key of a version was generated for it. -/
theorem Sound.vaultKey (h : w.Sound C) {i : ℕ} {v : VaultId} {n : ℕ} {key : Text}
    (hkey : (w.stores i).vaultKey v n = .ok key) : w.Generated key v n :=
  h.stores i v n key (SecretsStore.unlocked_eq_ok.mp hkey)

/-- The key of a box that a device opens was generated for its vault and version. -/
theorem Sound.openSealed (hC : C.Ideal) (h : w.Sound C) {store : SecretsStore}
    {sealedVaultKey : Text} {recipientKeyVersion : ℕ} {sender : VaultKeySender} {v : VaultId} {n : ℕ}
    {key : Text} (hhanded : w.HandsOut sealedVaultKey)
    (hok : store.openSealed C sealedVaultKey recipientKeyVersion sender v n = .ok key) :
    ∃ s ∈ w.seals, s.vaultId = v ∧ s.keyVersion = n ∧
      s.senderPublicKey = sender.publicKey.publicKey ∧
      (∃ privateKey, store.userPrivateKey = some privateKey ∧
        s.recipientPublicKey = C.publicKey privateKey) ∧
      s.vaultKey = key ∧ s.box = sealedVaultKey ∧ w.Generated key v n := by
  obtain ⟨privateKey, hprivate, -, hopens⟩ := of_openSealed hok
  obtain ⟨s, hs, rfl, rfl, hsender, hrecipient, rfl, hbox⟩ := h.unsealed hC hhanded hopens
  exact ⟨s, hs, rfl, rfl, hsender, ⟨privateKey, hprivate, hrecipient⟩, rfl, hbox,
    (h.seals s hs).key⟩

end CipherWorld

/-! ### Ciphertexts that fit their slot -/

section Fits

variable (C) {nonce key accountKey vaultKey newKey : Text} {v : VaultId} {n : ℕ}

theorem fits_wrapVaultKey (hkey : w.Generated vaultKey v n) :
    ((wrapVaultKey C nonce accountKey vaultKey v n).made accountKey vaultKey).Fits C w where
  made := rfl
  wrap v' n' hslot := by
    cases hslot
    exact hkey
  link v' n' hslot := by cases hslot
  record context hslot := by cases hslot
  vaultMeta v' hslot := by cases hslot

theorem fits_encryptVaultMeta (J : MetaJson) (vaultMeta : VaultMeta)
    (hkey : w.Generated vaultKey v n) :
    ((encryptVaultMeta C J nonce vaultKey v vaultMeta).made v vaultKey
      (J.stringify vaultMeta)).Fits C w where
  made := rfl
  wrap v' n' hslot := by cases hslot
  link v' n' hslot := by cases hslot
  record context hslot := by cases hslot
  vaultMeta v' hslot := by
    cases hslot
    exact ⟨n, hkey⟩

theorem fits_wrapPreviousVaultKey (hkey : w.Generated vaultKey v n)
    (hnew : w.Generated newKey v (n + 1)) :
    ((wrapPreviousVaultKey C nonce newKey vaultKey v n).made v newKey vaultKey).Fits C w where
  made := rfl
  wrap v' n' hslot := by cases hslot
  link v' n' hslot := by
    cases hslot
    exact ⟨hkey, hnew⟩
  record context hslot := by cases hslot
  vaultMeta v' hslot := by cases hslot

theorem fits_encryptRecordData (recordId : RecordId) (cryptoVersion keyVersion : ℕ) (data : Text)
    (hkey : w.Generated vaultKey v n) :
    (Ciphertext.made ⟨(encryptRecordData C nonce vaultKey ⟨recordId, v, cryptoVersion⟩ data).1,
      (encryptRecordData C nonce vaultKey ⟨recordId, v, cryptoVersion⟩ data).2, cryptoVersion,
      keyVersion⟩ recordId v vaultKey data).Fits C w where
  made := rfl
  wrap v' n' hslot := by cases hslot
  link v' n' hslot := by cases hslot
  record context hslot := by
    cases hslot
    exact ⟨n, hkey⟩
  vaultMeta v' hslot := by cases hslot

/-- What is not about a vault has nothing to fit. -/
theorem fits_of_slot {m : MadeCiphertext} (hmade : m.ciphertext = C.encrypt m.key m.nonce m.slot.aad
    m.data) (hslot : m.slot = .accountKey ∨ m.slot = .pendingRecovery ∨
      ∃ n, m.slot = .userPrivateKey n) : m.Fits C w where
  made := hmade
  wrap v n h := by
    obtain hslot | hslot | ⟨n, hslot⟩ := hslot <;> rw [h] at hslot <;> cases hslot
  link v n h := by
    obtain hslot | hslot | ⟨n, hslot⟩ := hslot <;> rw [h] at hslot <;> cases hslot
  record context h := by
    obtain hslot | hslot | ⟨n, hslot⟩ := hslot <;> rw [h] at hslot <;> cases hslot
  vaultMeta v h := by
    obtain hslot | hslot | ⟨n, hslot⟩ := hslot <;> rw [h] at hslot <;> cases hslot

theorem fits_sealVaultKey {random : BoxRandom} {privateKey recipientPublicKey box : Text}
    (hbox : sealVaultKey C random privateKey recipientPublicKey vaultKey v n = some box)
    (hkey : w.Generated vaultKey v n) :
    MadeSeal.Fits C w ⟨v, n, C.publicKey privateKey, recipientPublicKey, vaultKey, box⟩ where
  made := ⟨_, _, privateKey, rfl, hbox⟩
  key := hkey

end Fits

namespace CipherWorld

/-- The boxes of a rotation fit. -/
theorem fits_madeSeals (C : Ciphers Text) {store : SecretsStore} {newKey privateKey : Text}
    {v : VaultId} {n : ℕ} {members : List SecretsStore.KeyRecipient} {seals : List MemberKeySeal}
    (h : List.Forall₂ (SealedTo C store newKey v n) members seals)
    (hsender : members ≠ [] → store.userPrivateKey = some privateKey)
    (hkey : w.Generated newKey v n) :
    ∀ s ∈ madeSeals (C.publicKey privateKey) newKey v n members seals, s.Fits C w := by
  induction h with
  | nil => exact List.forall_mem_nil _
  | cons hbox _ ih =>
    obtain ⟨-, -, box, hbox⟩ := hbox
    obtain ⟨privateKey', hprivate, hbox⟩ := of_sealKey hbox
    obtain rfl := Option.some.inj ((hsender (List.cons_ne_nil _ _)).symm.trans hprivate)
    exact List.forall_mem_cons.mpr ⟨fits_sealVaultKey C hbox hkey, ih fun _ => hprivate⟩

/-- **Every step keeps the invariant.** -/
theorem Sound.step (hC : C.Ideal) (h : w.Sound C) {w' : CipherWorld}
    (hstep : CipherStep C J w w') : w'.Sound C := by
  cases hstep with
  | unlock i accountKey => exact h.load i (h.stores i)
  | lock i => exact h.load i fun v n key hkey => by cases hkey
  | loadVaultKeys i handed opens =>
    obtain ⟨accountKey, -, horigins⟩ := h.loadVaultKeys hC handed opens
    exact h.load i fun v n key hkey => h.generated_of_origin (horigins v n key hkey)
  | loadUserKeyPair i handed =>
    refine h.load i ?_
    have hkeys : ∀ keyPair, ((w.stores i).loadUserKeyPair C keyPair).1.vaultKeys
        = (w.stores i).vaultKeys := by
      intro keyPair
      unfold SecretsStore.loadUserKeyPair
      split
      · rfl
      split <;> rfl
    rw [hkeys]
    exact h.stores i
  | wrapAccountKey i account =>
    exact h.emit (List.forall_mem_singleton.mpr (fits_of_slot C rfl (.inl rfl)))
      (List.forall_mem_nil _) (.inl rfl)
  | createUserKeyPair i account =>
    exact h.emit (List.forall_mem_singleton.mpr (fits_of_slot C rfl (.inr (.inr ⟨1, rfl⟩))))
      (List.forall_mem_nil _) (.inl rfl)
  | sealPendingRecovery i account =>
    exact h.emit (List.forall_mem_singleton.mpr (fits_of_slot C rfl (.inr (.inl rfl))))
      (List.forall_mem_nil _) (.inl rfl)
  | @createVault i random vaultId vaultMeta accountKey created account fresh creates =>
    rw [of_createVault account creates]
    refine h.emit ?_ (List.forall_mem_nil _) (.inr ⟨_, rfl, fresh⟩)
    simp only [List.forall_mem_cons, List.not_mem_nil, false_implies, implies_true, and_true]
    exact ⟨fits_wrapVaultKey C (generated_emit _ _), fits_encryptVaultMeta C J vaultMeta
      (generated_emit _ _)⟩
  | @encryptRecord i nonce recordId vaultId data vaultKey content encrypts key =>
    obtain ⟨keyVersion, vaultKey', hkey', rfl⟩ := of_encryptRecord encrypts
    obtain rfl := Except.ok.inj (key.symm.trans hkey')
    exact h.emit (List.forall_mem_singleton.mpr (fits_encryptRecordData C recordId _ keyVersion data
      (h.vaultKey key).emit)) (List.forall_mem_nil _) (.inl rfl)
  | @encryptVaultMeta i nonce vaultId vaultMeta keyVersion vaultKey encrypted version key encrypts =>
    rw [of_encryptVaultMeta version key encrypts]
    exact h.emit (List.forall_mem_singleton.mpr (fits_encryptVaultMeta C J vaultMeta
      (h.vaultKey key).emit)) (List.forall_mem_nil _) (.inl rfl)
  | @sealVaultKeyTo i random vaultId recipient box vaultKey privateKey keyVersion sender key seals =>
    obtain ⟨privateKey', hprivate, hbox⟩ := of_sealKey (of_sealVaultKeyTo key seals)
    obtain rfl := Option.some.inj (sender.symm.trans hprivate)
    exact h.emit (List.forall_mem_nil _) (List.forall_mem_singleton.mpr (fits_sealVaultKey C hbox
      (h.vaultKey key).emit)) (.inl rfl)
  | @openInvitation i nonce accountKey vaultKey invitation vaultMeta wrap handed account key opens =>
    obtain ⟨accountKey', vaultKey', json, haccount', hkey', -, -, rfl⟩ := of_openInvitation opens
    obtain rfl := Option.some.inj (account.symm.trans haccount')
    obtain rfl := Except.ok.inj (key.symm.trans hkey')
    obtain ⟨s, -, -, -, -, -, -, -, hgenerated⟩ := h.openSealed hC handed.1 key
    exact h.emit (List.forall_mem_singleton.mpr (fits_wrapVaultKey C hgenerated.emit))
      (List.forall_mem_nil _) (.inl rfl)
  | @openKeyUpdate i nonce accountKey vaultKey update wrap handed account key opens =>
    obtain ⟨accountKey', -, -, vaultKey', -, haccount', -, -, -, hkey', -, -, -, rfl⟩ :=
      of_openKeyUpdate opens
    obtain rfl := Option.some.inj (account.symm.trans haccount')
    obtain rfl := Except.ok.inj (key.symm.trans hkey')
    obtain ⟨s, -, -, -, -, -, -, -, hgenerated⟩ := h.openSealed hC handed.1 key
    exact h.emit (List.forall_mem_singleton.mpr (fits_wrapVaultKey C hgenerated.emit))
      (List.forall_mem_nil _) (.inl rfl)
  | @rotateVaultKey i random boxes vaultId encrypted members rotated vaultMeta keyVersion accountKey
      vaultKey privateKey account sender version key opens fresh rotates =>
    obtain ⟨hrotated, hseals⟩ := of_rotateVaultKey hC.toCorrect account version key opens rotates
    obtain ⟨rotatedKey, previousKey, memberKeys⟩ := rotated
    cases hrotated
    refine h.emit ?_ ?_ (.inr ⟨_, rfl, fresh⟩)
    · simp only [List.forall_mem_cons, List.not_mem_nil, false_implies, implies_true, and_true]
      exact ⟨fits_wrapVaultKey C (generated_emit _ _), fits_encryptVaultMeta C J vaultMeta
        (generated_emit _ _), fits_wrapPreviousVaultKey C (h.vaultKey key).emit
        (generated_emit _ _)⟩
    · exact fits_madeSeals C hseals sender (generated_emit _ _)

end CipherWorld

theorem soundWorld_start : CipherWorld.start.Sound C where
  made := List.forall_mem_nil _
  seals := List.forall_mem_nil _
  generated _ _ _ _ _ hkey := absurd hkey List.not_mem_nil
  stores _ _ _ _ hkey := by cases hkey

theorem soundWorld_of_reaches (hC : C.Ideal)
    (h : Run.Reaches (CipherStep C J) CipherWorld.start w) : w.Sound C :=
  Run.invariant (fun _ _ hs hstep => hs.step hC hstep) h soundWorld_start

/-! ### What a device opens -/

/-- Whatever a device opens of what the server hands out was made by an honest device for exactly
that purpose, and for that vault, record or key version. -/
structure OpensInSlot (C : Ciphers Text) (J : MetaJson) (w : CipherWorld) (store : SecretsStore) :
    Prop where
  /-- A key is loaded under the name it was generated for, from a wrap under the account key or
  from a link under the key above it. -/
  loadVaultKeys : ∀ vaults store' skipped, w.HandsOutVaults vaults →
    store.loadVaultKeys C vaults = .ok (store', skipped) →
    ∀ v n key, store'.vaultKeys (vaultKeyId v n) = some key → w.Generated key v n ∧
      ∃ m ∈ w.made, m.data = key ∧
        (m.slot = .vaultKey v n ∧ store.accountKey = some m.key ∨
          m.slot = .previousVaultKey v n ∧ w.Generated m.key v (n + 1))
  loadUserKeyPair : ∀ keyPair, w.HandsOut keyPair.encryptedPrivateKey →
    (store.loadUserKeyPair C keyPair).2 = .ok () →
    ∃ m ∈ w.made, m.slot = .userPrivateKey keyPair.keyVersion ∧ store.accountKey = some m.key ∧
      (store.loadUserKeyPair C keyPair).1.userPrivateKey = some m.data ∧
      C.publicKey m.data = keyPair.publicKey
  decryptRecord : ∀ row data, w.HandsOut row.content.encryptedData →
    store.decryptRecord C row = .ok data →
    ∃ m ∈ w.made, m.slot = .record (SecretsStore.recordContext row) ∧ m.data = data ∧
      w.Generated m.key row.vaultId row.content.keyVersion
  decryptVaultMeta : ∀ v encrypted vaultMeta, w.HandsOut encrypted.encryptedMeta →
    store.decryptVaultMeta C J v encrypted = .ok vaultMeta →
    ∃ m ∈ w.made, m.slot = .vaultMeta v ∧ J.parse m.data = some vaultMeta ∧
      ∃ n, store.currentKeyVersion v = .ok n ∧ w.Generated m.key v n
  openInvitation : ∀ nonce (invitation : VaultInvitation) vaultMeta wrap,
    w.HandsOut invitation.sealedVaultKey → w.HandsOut invitation.encrypted.encryptedMeta →
    store.openInvitation C J nonce invitation = .ok (vaultMeta, wrap) →
    ∃ s ∈ w.seals, s.vaultId = invitation.vaultId ∧ s.keyVersion = invitation.keyVersion ∧
      s.senderPublicKey = invitation.sender.publicKey.publicKey ∧
      (∃ privateKey, store.userPrivateKey = some privateKey ∧
        s.recipientPublicKey = C.publicKey privateKey) ∧
      w.Generated s.vaultKey invitation.vaultId invitation.keyVersion ∧
      (∃ accountKey, store.accountKey = some accountKey ∧ wrap = wrapVaultKey C nonce accountKey
        s.vaultKey invitation.vaultId invitation.keyVersion) ∧
      ∃ m ∈ w.made, m.slot = .vaultMeta invitation.vaultId ∧ m.key = s.vaultKey ∧
        J.parse m.data = some vaultMeta
  /-- The links of an update are links of its vault, each of its version. -/
  openKeyUpdate : ∀ nonce (update : VaultKeyUpdate) wrap,
    w.HandsOut update.sealedVaultKey → w.HandsOutLinks update.links →
    store.openKeyUpdate C nonce update = .ok wrap →
    ∃ s ∈ w.seals, s.vaultId = update.vaultId ∧ s.keyVersion = update.keyVersion ∧
      s.senderPublicKey = update.sender.publicKey.publicKey ∧
      (∃ privateKey, store.userPrivateKey = some privateKey ∧
        s.recipientPublicKey = C.publicKey privateKey) ∧
      w.Generated s.vaultKey update.vaultId update.keyVersion ∧
      (∃ accountKey, store.accountKey = some accountKey ∧ wrap = wrapVaultKey C nonce accountKey
        s.vaultKey update.vaultId update.keyVersion) ∧
      ∃ heldVersion, store.currentKeyVersion update.vaultId = .ok heldVersion ∧
        ∀ n, heldVersion ≤ n → n < update.keyVersion → ∃ m ∈ w.made,
          m.slot = .previousVaultKey update.vaultId n ∧
          w.Generated m.data update.vaultId n ∧ w.Generated m.key update.vaultId (n + 1)
  openPendingRecovery : ∀ sealed data, w.HandsOut sealed.ciphertext →
    store.openPendingRecovery C sealed = .ok data →
    ∃ m ∈ w.made, m.slot = .pendingRecovery ∧ store.accountKey = some m.key ∧ m.data = data

theorem CipherWorld.Sound.opensInSlot (hC : C.Ideal) (J : MetaJson) (h : w.Sound C) (i : ℕ) :
    OpensInSlot C J w (w.stores i) where
  loadVaultKeys vaults store' skipped handed hok v n key hkey := by
    obtain ⟨accountKey, haccount, horigins⟩ := h.loadVaultKeys hC handed hok
    obtain ⟨m, hm, hdata, hslot⟩ := horigins v n key hkey
    refine ⟨h.generated_of_origin (horigins v n key hkey), m, hm, hdata, hslot.imp ?_ ?_⟩
    · rintro ⟨hwrap, rfl⟩
      exact ⟨hwrap, haccount⟩
    · exact fun hlink => ⟨hlink, ((h.made m hm).link v n hlink).2⟩
  loadUserKeyPair keyPair handed hok := by
    unfold SecretsStore.loadUserKeyPair at hok ⊢
    split at hok
    · cases hok
    next accountKey haccount =>
    split at hok
    · cases hok
    next privateKey hprivate =>
    obtain ⟨hopens, hpublic⟩ := Option.filter_eq_some_iff.mp hprivate
    obtain ⟨m, hm, hslot, hkey, -, hdata, -⟩ :=
      h.opened hC (.userPrivateKey keyPair.keyVersion) handed hopens
    exact ⟨m, hm, hslot, by rw [haccount, hkey], by rw [hdata],
      by rw [hdata]; exact of_decide_eq_true hpublic⟩
  decryptRecord row data handed hok := by
    obtain ⟨vaultKey, hkey, hok⟩ := bind_eq_ok.mp hok
    obtain ⟨m, hm, hslot, rfl, -, hdata, -⟩ :=
      h.opened hC (.record (SecretsStore.recordContext row)) handed
        (SecretsStore.opened_eq_ok.mp hok)
    exact ⟨m, hm, hslot, hdata, h.vaultKey hkey⟩
  decryptVaultMeta v encrypted vaultMeta handed hok := by
    obtain ⟨n, vaultKey, json, hversion, hkey, hopens, hparse⟩ := of_decryptVaultMeta hok
    obtain ⟨m, hm, hslot, rfl, -, rfl, -⟩ := h.opened hC (.vaultMeta v) handed hopens
    exact ⟨m, hm, hslot, hparse, n, hversion, h.vaultKey hkey⟩
  openInvitation nonce invitation vaultMeta wrap handed handedMeta hok := by
    obtain ⟨accountKey, vaultKey, json, haccount, hkey, hopens, hparse, hwrap⟩ := of_openInvitation hok
    obtain ⟨s, hs, hvault, hversion, hsender, hrecipient, rfl, -, hgenerated⟩ :=
      h.openSealed hC handed hkey
    obtain ⟨m, hm, hslot, hmkey, -, rfl, -⟩ :=
      h.opened hC (.vaultMeta invitation.vaultId) handedMeta hopens
    exact ⟨s, hs, hvault, hversion, hsender, hrecipient, hgenerated, ⟨accountKey, haccount, hwrap⟩,
      m, hm, hslot, hmkey, hparse⟩
  openKeyUpdate nonce update wrap handed handedLinks hok := by
    obtain ⟨accountKey, heldVersion, held, newKey, keys, haccount, hcurrent, -, -, hsealed, -, -,
      hlinks, hwrap⟩ := of_openKeyUpdate hok
    obtain ⟨s, hs, hvault, hversion, hsender, hrecipient, rfl, -, hgenerated⟩ :=
      h.openSealed hC handed hsealed
    refine ⟨s, hs, hvault, hversion, hsender, hrecipient, hgenerated, ⟨accountKey, haccount, hwrap⟩,
      heldVersion, SecretsStore.unlocked_eq_ok.mpr hcurrent, fun n hn hlt => ?_⟩
    obtain ⟨link, hlink, hopens⟩ := hlinks n hn hlt
    obtain ⟨hmem, hlinkVersion⟩ := mem_of_linkOf hlink
    obtain ⟨m, hm, hslot, -⟩ := h.opened hC
      (.previousVaultKey update.vaultId link.keyVersion) (handedLinks link hmem) hopens
    rw [hlinkVersion] at hslot
    exact ⟨m, hm, hslot, (h.made m hm).link _ _ hslot⟩
  openPendingRecovery sealed data handed hok := by
    obtain ⟨accountKey, haccount, hok⟩ := bind_eq_ok.mp hok
    obtain ⟨m, hm, hslot, rfl, -, hdata, -⟩ := h.opened hC (.pendingRecovery) handed
      (SecretsStore.opened_eq_ok.mp hok)
    exact ⟨m, hm, hslot, SecretsStore.unlocked_eq_ok.mp haccount, hdata⟩

/-- **Ciphertexts stay in their slot.**  Whatever rows a server puts together from all the
ciphertexts and boxes honest devices ever made, what a device opens of them was made for exactly
that purpose, and for that vault, record or key version; every vault key is loaded under the vault
and version it was generated for, and a key was generated for one of them only. -/
theorem ciphertexts_in_slot (C : Ciphers Text) (J : MetaJson) (hC : C.Ideal) (w : CipherWorld)
    (hreach : Run.Reaches (CipherStep C J) CipherWorld.start w) :
    (∀ i, OpensInSlot C J w (w.stores i)) ∧
    (∀ i v n key, (w.stores i).vaultKeys (vaultKeyId v n) = some key → w.Generated key v n) ∧
    ∀ key v n v' n', w.Generated key v n → w.Generated key v' n' → v = v' ∧ n = n' := by
  have hsound : w.Sound C := soundWorld_of_reaches hC hreach
  exact ⟨hsound.opensInSlot hC J, hsound.stores, hsound.generated⟩

/-! ### A device with one note -/

section Note

open IdealCipher (wordCiphers)

/-- The first key of vault 7, as its owner's device created it. -/
def homeCreated : NewVaultKey :=
  createVault wordCiphers nameJson ⟨"key".toList, "n1".toList, "n2".toList, "n3".toList⟩ 7
    "account".toList ⟨"Home".toList, none, none⟩

/-- Vault 7 as the server lists it. -/
def homeVault : MemberVault where
  vaultId := 7
  keyVersion := 1
  wrap := homeCreated.wrap.wrap
  role := .owner
  kind := .personal
  encryptedMeta := homeCreated.encrypted.encryptedMeta
  metaEncryptionNonce := homeCreated.encrypted.metaEncryptionNonce
  previousKeys := []

/-- The keys of the device with vault 7 loaded. -/
def homeStore : SecretsStore :=
  { SecretsStore.empty with
    accountKey := some "account".toList
    vaultKeys := Function.update (fun _ => none) (vaultKeyId 7 1) (some "key".toList)
    currentKeyVersions := Function.update (fun _ => none) 7 (some 1)
    personalVaultId := some 7 }

/-- A note in vault 7. -/
def noteContent : Ciphertext where
  encryptedData := (encryptRecordData wordCiphers "n4".toList "key".toList
    ⟨40, 7, currentCryptoVersion⟩ "note".toList).1
  encryptionNonce := "n4".toList
  cryptoVersion := currentCryptoVersion
  keyVersion := 1

/-- The world after the vault was created. -/
def createdWorld : CipherWorld :=
  (CipherWorld.start.load 0 (SecretsStore.empty.setAccountKey "account".toList)).emit
    [homeCreated.wrap.made "account".toList "key".toList,
      homeCreated.encrypted.made 7 "key".toList (nameJson.stringify ⟨"Home".toList, none, none⟩)]
    [] [⟨"key".toList, 7, 1⟩]

/-- The world after the vault was loaded and the note was written. -/
def noteWorld : CipherWorld :=
  (createdWorld.load 0 homeStore).emit [noteContent.made 40 7 "key".toList "note".toList] [] []

theorem loadVaultKeys_home :
    (createdWorld.stores 0).loadVaultKeys wordCiphers [homeVault] = .ok (homeStore, []) := rfl

theorem reaches_noteWorld :
    Run.Reaches (CipherStep wordCiphers nameJson) CipherWorld.start noteWorld := by
  have hunlock := CipherStep.unlock (C := wordCiphers) (J := nameJson) (w := CipherWorld.start) 0
    "account".toList
  have hcreate : CipherStep wordCiphers nameJson
      (CipherWorld.start.load 0 (SecretsStore.empty.setAccountKey "account".toList)) createdWorld :=
    @CipherStep.createVault wordCiphers nameJson _ 0
      ⟨"key".toList, "n1".toList, "n2".toList, "n3".toList⟩ 7 ⟨"Home".toList, none, none⟩ _
      homeCreated rfl (fun _ h => absurd h List.not_mem_nil) rfl
  have hload : CipherStep wordCiphers nameJson createdWorld (createdWorld.load 0 homeStore) := by
    have hlinks : createdWorld.HandsOutLinks homeVault.previousKeys := List.forall_mem_nil _
    have hwrap : createdWorld.HandsOut homeVault.wrap.encryptedVaultKey :=
      .inl ⟨_, List.mem_cons_self, rfl⟩
    exact .loadVaultKeys 0 (List.forall_mem_singleton.mpr ⟨hwrap, hlinks⟩) loadVaultKeys_home
  have hnote : CipherStep wordCiphers nameJson (createdWorld.load 0 homeStore) noteWorld :=
    @CipherStep.encryptRecord wordCiphers nameJson _ 0 "n4".toList 40 7 _ _ noteContent rfl rfl
  exact (((Relation.ReflTransGen.single hunlock).tail hcreate).tail hload).tail hnote

/-- The note as the server hands it out. -/
def noteRow : EncryptedRecord where
  recordId := 40
  vaultId := 7
  content := noteContent
  version := 1
  clientUpdatedAt := 0
  createdAt := none
  updatedAt := none
  deletedAt := none
  tombstoneKind := none

theorem decryptRecord_note :
    (noteWorld.stores 0).decryptRecord wordCiphers noteRow = .ok "note".toList := by
  have hkey : (noteWorld.stores 0).vaultKey 7 1 = .ok "key".toList := rfl
  refine bind_eq_ok.mpr ⟨_, hkey, SecretsStore.opened_eq_ok.mpr ?_⟩
  exact decryptRecordData_encryptRecordData IdealCipher.wordCiphers_ideal.toCorrect _ _ _ _

theorem ciphertexts_in_slot_note :
    (noteWorld.stores 0).decryptRecord wordCiphers noteRow = .ok "note".toList ∧
      OpensInSlot wordCiphers nameJson noteWorld (noteWorld.stores 0) :=
  ⟨decryptRecord_note, (ciphertexts_in_slot wordCiphers nameJson IdealCipher.wordCiphers_ideal noteWorld
    reaches_noteWorld).1 0⟩

end Note

end Passmgr
