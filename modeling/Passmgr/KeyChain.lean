/-
# The keys a chain of links gives back

What a device loads from the current key of a vault and the links below it: the key of every version
the links lead down to, and with it every record of these versions.

Main definitions:

* `HonestLink` — a link that wraps the key of its version under the next;
* `ReadsHistory` — a device that opens every record under the keys up to a version.

Main results:

* `linkOpens_of_honest` — honest links open version by version;
* `loadPreviousKeys_of_honest` — a complete chain of them gives every earlier key;
* `readsHistory_of_loadVaultKeys` — and so does loading a list of vaults that has the vault.
-/

import Passmgr.SecretsStore
import Passmgr.SharingQueries

set_option relaxedAutoImplicit false
set_option autoImplicit false

namespace Passmgr

open IdealCipher (Ciphers)

/-! ### Links -/

section Links

variable {C : Ciphers Text} {v : VaultId} {links : List VaultKeyLink} {keys : ℕ → Text}

/-- The link wraps the key of its version under the next: somebody made it for that. -/
def HonestLink (C : Ciphers Text) (v : VaultId) (keys : ℕ → Text) (link : VaultKeyLink) : Prop :=
  ∃ nonce, link.wrap = (wrapPreviousVaultKey C nonce (keys (link.keyVersion + 1))
    (keys link.keyVersion) v link.keyVersion).wrap

theorem HonestLink.congr {keys' : ℕ → Text} {link : VaultKeyLink} (h : HonestLink C v keys link)
    (heq : keys' link.keyVersion = keys link.keyVersion)
    (heq' : keys' (link.keyVersion + 1) = keys (link.keyVersion + 1)) :
    HonestLink C v keys' link := by
  obtain ⟨nonce, hwrap⟩ := h
  exact ⟨nonce, by rw [heq, heq', hwrap]⟩

theorem HonestLink.opens (hC : C.Correct) {link : VaultKeyLink} (h : HonestLink C v keys link) :
    unwrapPreviousVaultKey C (keys (link.keyVersion + 1)) v link = some (keys link.keyVersion) := by
  obtain ⟨nonce, hwrap⟩ := h
  unfold unwrapPreviousVaultKey
  rw [hwrap]
  exact unwrapPreviousVaultKey_wrapPreviousVaultKey hC nonce _ _ v link.keyVersion

/-- Honest links open version by version. -/
theorem linkOpens_of_honest (hC : C.Correct) (hhonest : ∀ link ∈ links, HonestLink C v keys link)
    {n : ℕ} (hn : n ∈ links.map (·.keyVersion)) : LinkOpens C v links keys n := by
  obtain ⟨link, hmem, hversion⟩ := List.mem_map.mp hn
  have hsome : (linkOf links n).isSome := by
    refine List.find?_isSome.mpr ⟨link, List.mem_reverse.mpr hmem, ?_⟩
    exact decide_eq_true hversion
  obtain ⟨found, hfound⟩ := Option.isSome_iff_exists.mp hsome
  obtain ⟨hmem', rfl⟩ := mem_of_linkOf hfound
  exact ⟨found, hfound, (hhonest found hmem').opens hC⟩

/-- Every name that is not one of the vault's earlier keys stays. -/
theorem loadPreviousKeysFrom_of_ne {name : Text} :
    ∀ (n : ℕ) (newer : Text) (loaded : Text → Option Text),
      (∀ i, 1 ≤ i → i ≤ n → name ≠ vaultKeyId v i) →
      loadPreviousKeysFrom C v links n newer loaded name = loaded name := by
  intro n
  induction n with
  | zero => exact fun _ _ _ => rfl
  | succ n ih =>
    intro newer loaded hname
    rw [loadPreviousKeysFrom]
    cases linkOf links (n + 1) with
    | none => rfl
    | some link =>
      dsimp only
      cases unwrapPreviousVaultKey C newer v link with
      | none => rfl
      | some older =>
        dsimp only
        rw [ih _ _ fun i h1 hi => hname i h1 (by omega),
          Function.update_of_ne (hname (n + 1) (by omega) le_rfl)]

/-- Links that open down from version `n` fill in the keys below. -/
theorem loadPreviousKeysFrom_of_linkOpens :
    ∀ (n : ℕ) (loaded : Text → Option Text), (∀ i, 1 ≤ i → i ≤ n → LinkOpens C v links keys i) →
      ∀ i, 1 ≤ i → i ≤ n →
        loadPreviousKeysFrom C v links n (keys (n + 1)) loaded (vaultKeyId v i) = some (keys i) := by
  intro n
  induction n with
  | zero => exact fun _ _ i h1 h0 => absurd h1 (by omega)
  | succ n ih =>
    intro loaded hopens i h1 hi
    obtain ⟨link, hlink, hunwrap⟩ := hopens (n + 1) (by omega) le_rfl
    rw [loadPreviousKeysFrom, hlink]
    dsimp only
    rw [hunwrap]
    dsimp only
    obtain hi | rfl : i ≤ n ∨ i = n + 1 := by omega
    · exact ih _ (fun j h1 hj => hopens j h1 (by omega)) i h1 hi
    · -- The versions below are other names.
      refine (loadPreviousKeysFrom_of_ne n _ _ fun j _ hj heq => ?_).trans
        (Function.update_self _ _ _)
      have := (vaultKeyId_inj heq).2
      omega

end Links

/-! ### Loading -/

section Load

variable {C : Ciphers Text} {keys : ℕ → Text} {vault : MemberVault}

/-- The links of the vault are those of every version below its own, and open. -/
def MemberVault.ChainOpens (C : Ciphers Text) (keys : ℕ → Text) (vault : MemberVault) : Prop :=
  0 < vault.keyVersion ∧ ∀ n, 1 ≤ n → n < vault.keyVersion →
    LinkOpens C vault.vaultId vault.previousKeys keys n

/-- **A complete chain gives every earlier key.** -/
theorem loadPreviousKeys_of_chainOpens (h : vault.ChainOpens C keys) (loaded : Text → Option Text)
    {n : ℕ} (hpos : 1 ≤ n) (hn : n < vault.keyVersion) :
    loadPreviousKeys C vault (keys vault.keyVersion) loaded (vaultKeyId vault.vaultId n)
      = some (keys n) := by
  have hload := @loadPreviousKeysFrom_of_linkOpens C vault.vaultId vault.previousKeys keys
    (vault.keyVersion - 1) loaded (fun i h1 hi => h.2 i h1 (by omega)) n hpos (by omega)
  rwa [Nat.sub_add_cancel h.1] at hload

/-- Adding a vault fills in its key and those below. -/
theorem LoadedKeys.keys_add (h : vault.ChainOpens C keys) (loaded : LoadedKeys) {n : ℕ}
    (hpos : 1 ≤ n) (hn : n ≤ vault.keyVersion) :
    (loaded.add C vault (keys vault.keyVersion)).keys (vaultKeyId vault.vaultId n)
      = some (keys n) := by
  obtain hn | rfl : n < vault.keyVersion ∨ n = vault.keyVersion := by omega
  · exact loadPreviousKeys_of_chainOpens h _ hpos hn
  · refine (loadPreviousKeysFrom_of_ne _ _ _ fun i h1 hi heq => ?_).trans (Function.update_self _ _ _)
    have := (vaultKeyId_inj heq).2
    omega

/-- Adding another vault leaves them. -/
theorem LoadedKeys.keys_add_of_ne (loaded : LoadedKeys) {other : MemberVault} {key : Text}
    {v : VaultId} (hne : v ≠ other.vaultId) (n : ℕ) :
    (loaded.add C other key).keys (vaultKeyId v n) = loaded.keys (vaultKeyId v n) := by
  have hname : ∀ i, vaultKeyId v n ≠ vaultKeyId other.vaultId i := fun i heq =>
    hne (vaultKeyId_inj heq).1
  exact (loadPreviousKeysFrom_of_ne _ _ _ fun i _ _ => hname i).trans
    (Function.update_of_ne (hname _) _ _)

/-- A vault that was added before has its keys to the end. -/
theorem keys_loadWraps_of_current {accountKey : Text} {v : VaultId} :
    ∀ (wraps : List MemberVault) (loaded loaded' : LoadedKeys),
      loadWraps C accountKey wraps loaded = .ok loaded' → (loaded.current v).isSome →
      ∀ n, loaded'.keys (vaultKeyId v n) = loaded.keys (vaultKeyId v n) := by
  intro wraps
  induction wraps with
  | nil =>
    intro loaded loaded' h _ n
    cases h
    rfl
  | cons other rest ih =>
    intro loaded loaded' h hcurrent n
    rw [loadWraps] at h
    split at h
    · cases h
    next hnew =>
    have hne : v ≠ other.vaultId := fun heq => hnew (by rw [← heq, hcurrent]; rfl)
    split at h
    · split at h
      · cases h
      · exact ih _ _ h hcurrent n
    · rw [ih _ _ h ?_ n, LoadedKeys.keys_add_of_ne loaded hne]
      dsimp only [LoadedKeys.add]
      rwa [Function.update_of_ne hne]

/-- Loading a list that has the vault loads the vault's keys. -/
theorem keys_loadWraps {accountKey : Text} (h : vault.ChainOpens C keys)
    (hopens : unwrapVaultKey C accountKey vault.keyWrap = some (keys vault.keyVersion)) :
    ∀ (wraps : List MemberVault) (loaded loaded' : LoadedKeys), vault ∈ wraps →
      loadWraps C accountKey wraps loaded = .ok loaded' →
      ∀ n, 1 ≤ n → n ≤ vault.keyVersion →
        loaded'.keys (vaultKeyId vault.vaultId n) = some (keys n) := by
  intro wraps
  induction wraps with
  | nil => exact fun _ _ hmem => absurd hmem (List.not_mem_nil)
  | cons other rest ih =>
    intro loaded loaded' hmem hload n hpos hn
    rw [loadWraps] at hload
    split at hload
    · cases hload
    obtain rfl | hrest := List.mem_cons.mp hmem
    · rw [hopens] at hload
      have hcurrent : ((loaded.add C vault (keys vault.keyVersion)).current vault.vaultId).isSome := by
        dsimp only [LoadedKeys.add]
        rw [Function.update_self]
        rfl
      rw [keys_loadWraps_of_current _ _ _ hload hcurrent n, LoadedKeys.keys_add h loaded hpos hn]
    · split at hload
      · split at hload
        · cases hload
        · exact ih _ _ hrest hload n hpos hn
      · exact ih _ _ hrest hload n hpos hn

/-- The device opens every record of the vault under the keys up to a version. -/
def ReadsHistory (C : Ciphers Text) (v : VaultId) (keys : ℕ → Text) (keyVersion : ℕ)
    (store : SecretsStore) : Prop :=
  ∀ (row : EncryptedRecord) (nonce data : Text), row.vaultId = v → 1 ≤ row.content.keyVersion →
    row.content.keyVersion ≤ keyVersion →
    (row.content.encryptedData, row.content.encryptionNonce) = encryptRecordData C nonce
      (keys row.content.keyVersion) (SecretsStore.recordContext row) data →
    store.decryptRecord C row = .ok data

/-- **Whoever loads the vault reads its history.** -/
theorem readsHistory_of_loadVaultKeys (hC : C.Correct) {accountKey : Text} {wraps : List MemberVault}
    {store store' : SecretsStore} {skipped : List VaultId} (h : vault.ChainOpens C keys)
    (hopens : unwrapVaultKey C accountKey vault.keyWrap = some (keys vault.keyVersion))
    (haccount : store.accountKey = some accountKey) (hmem : vault ∈ wraps)
    (hload : store.loadVaultKeys C wraps = .ok (store', skipped)) :
    ReadsHistory C vault.vaultId keys vault.keyVersion store' := by
  rintro row nonce data hvault hpos hle hmade
  unfold SecretsStore.loadVaultKeys at hload
  rw [haccount] at hload
  dsimp only at hload
  split at hload
  case h_2 => cases hload
  obtain ⟨loaded, hloaded, hstore⟩ := bind_eq_ok.mp hload
  cases hstore
  have hkey := keys_loadWraps h hopens _ _ _ hmem hloaded row.content.keyVersion hpos hle
  refine bind_eq_ok.mpr ⟨keys row.content.keyVersion, SecretsStore.unlocked_eq_ok.mpr ?_, ?_⟩
  · rw [hvault]
    exact hkey
  · obtain ⟨hdata, hnonce⟩ := Prod.mk.inj hmade
    rw [hdata, hnonce]
    exact SecretsStore.opened_eq_ok.mpr (decryptRecordData_encryptRecordData hC nonce _ _ data)

end Load

end Passmgr
