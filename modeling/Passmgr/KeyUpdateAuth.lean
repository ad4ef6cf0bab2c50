/-
# Which keys a device accepts

A pull hands a device newer keys of its vaults, and the server may have made them up.  The device
takes one only when its links open, version by version, down to the key it holds, and its seal is
from the key pinned for a listed owner or manager it has not removed itself.

Main definitions:

* `ChainedKey` — an update whose box opens, and whose links lead from the new key to the held one;
* `AuthenticKey` — a wrap that was sent for such an update of a trusted sender;
* `SharingRun.Keeps` — what every task of the first loop preserves.

Main results:

* `ChainedKey.not_learned` — whoever does not know the held key knows none of the chain, and made
  none of its links;
* `key_updates_authentic` — every wrap a run sends is authentic, and no update changes the keys
  that are held.
-/

import Passmgr.SharingTasks

set_option relaxedAutoImplicit false
set_option autoImplicit false

namespace Passmgr

open IdealCipher (Ciphers Learned MadeFrom)

/-! ### Chained keys -/

/-- An update that opens on a device: its box is sealed from the sender's public key to the
device's key pair for this vault and version, and its links open version by version, `keys n` under
`keys (n + 1)`, from the new key down to the one the device holds. -/
structure ChainedKey (C : Ciphers Text) (store : SecretsStore) (update : VaultKeyUpdate)
    (heldVersion : ℕ) (keys : ℕ → Text) : Prop where
  newer : heldVersion < update.keyVersion
  current : store.currentKeyVersions update.vaultId = some heldVersion
  held : store.vaultKeys (vaultKeyId update.vaultId heldVersion) = some (keys heldVersion)
  links : ∀ n, heldVersion ≤ n → n < update.keyVersion →
    LinkOpens C update.vaultId update.links keys n
  ownVersion : store.userKeyPairVersion = some update.recipientKeyVersion
  sealed : ∃ random privateKey senderPrivateKey, store.userPrivateKey = some privateKey ∧
    C.publicKey senderPrivateKey = update.sender.publicKey.publicKey ∧
    sealVaultKey C random senderPrivateKey (C.publicKey privateKey) (keys update.keyVersion)
      update.vaultId update.keyVersion = some update.sealedVaultKey

variable {C : Ciphers Text}

theorem chainedKey_of_openKeyUpdate (hC : C.Ideal) {store : SecretsStore} {nonce : Text}
    {update : VaultKeyUpdate} {wrap : VaultKeyWrap}
    (h : store.openKeyUpdate C nonce update = .ok wrap) :
    ∃ accountKey heldVersion keys, store.accountKey = some accountKey ∧
      ChainedKey C store update heldVersion keys ∧
      wrap = wrapVaultKey C nonce accountKey (keys update.keyVersion) update.vaultId
        update.keyVersion := by
  obtain ⟨accountKey, heldVersion, held, newKey, keys, haccount, hcurrent, hnewer, hheld, hsealed,
    rfl, rfl, hlinks, rfl⟩ := of_openKeyUpdate h
  obtain ⟨privateKey, hprivate, hversion, hopens⟩ := of_openSealed hsealed
  obtain ⟨e, n, senderPrivateKey, hsender, hmade⟩ := hC.sealTo_of_unsealFrom hopens
  exact ⟨accountKey, heldVersion, keys, haccount,
    { newer := hnewer
      current := hcurrent
      held := hheld
      links := hlinks
      ownVersion := hversion
      sealed := ⟨⟨e, n⟩, privateKey, senderPrivateKey, hprivate, hsender, hmade⟩ }, rfl⟩

/-- **Whoever does not know the held key knows no key of the chain**, as every key opens the one
below it; and none of the links is made from words they know. -/
theorem ChainedKey.not_learned (hC : C.Ideal) {store : SecretsStore} {update : VaultKeyUpdate}
    {heldVersion : ℕ} {keys : ℕ → Text} (h : ChainedKey C store update heldVersion keys)
    {seen known : Text → Prop} (hseen : ∀ link ∈ update.links, seen link.wrap.encryptedVaultKey)
    (hheld : ¬ Learned C seen known (keys heldVersion)) :
    (∀ n, heldVersion ≤ n → n ≤ update.keyVersion → ¬ Learned C seen known (keys n)) ∧
      ∀ n, heldVersion ≤ n → n < update.keyVersion → ∀ link, linkOf update.links n = some link →
        ¬ MadeFrom C (Learned C seen known) link.wrap.encryptedVaultKey := by
  have hkeys : ∀ n, heldVersion ≤ n → n ≤ update.keyVersion → ¬ Learned C seen known (keys n) := by
    intro n hn
    -- From the held key up: key `n + 1` would open key `n`.
    induction n, hn using Nat.le_induction with
    | base => exact fun _ => hheld
    | succ n hn ih =>
      intro hle hlearned
      obtain ⟨link, hlink, hopens⟩ := h.links n hn (by omega)
      exact ih (by omega) (.decrypt hlearned (hseen link (mem_of_linkOf hlink).1) hopens)
  refine ⟨hkeys, fun n hn hlt link hlink => ?_⟩
  obtain ⟨link', hlink', hopens⟩ := h.links n hn hlt
  obtain rfl : link = link' := Option.some.inj (hlink.symm.trans hlink')
  exact IdealCipher.not_madeFrom hC hopens (hkeys n hn (by omega))

/-! ### What a wrap that was sent says -/

/-- A wrap sent for an update on a device, whoever the server is. -/
structure AuthenticKey (C : Ciphers Text) (server : SharingServer) (device : SharingDevice)
    (updates : List VaultKeyUpdate) (accepted : AcceptedKey) : Prop where
  offered : accepted.update ∈ updates
  /-- The wrap is of the key at the top of a chain down to the held key. -/
  chained : ∃ nonce accountKey heldVersion keys, device.secrets.accountKey = some accountKey ∧
    ChainedKey C device.secrets accepted.update heldVersion keys ∧
    accepted.wrap = wrapVaultKey C nonce accountKey (keys accepted.update.keyVersion)
      accepted.update.vaultId accepted.update.keyVersion
  /-- The sender's key is the one pinned for them by then. -/
  pinned : accepted.peerKeys accepted.update.sender.userId = some accepted.update.sender.publicKey
  /-- And the one pinned before the run, if there was one. -/
  pinnedBefore : ∀ key, device.getPeerKey accepted.update.sender.userId = some key →
    key = accepted.update.sender.publicKey
  /-- The server listed the sender under that key as an active owner or manager. -/
  listed : ∃ i listed member,
    server.members i accepted.update.vaultId = .ok listed ∧
    listed.find? (·.userId = accepted.update.sender.userId) = some member ∧
    member.status = .active ∧ member.role ∈ vaultManageRoles ∧
    member.publicKey = accepted.update.sender.publicKey
  notRemoved : device.peersRemoved accepted.update.vaultId accepted.update.sender.userId = false

/-- What every task of the first loop preserves of a run that started on `device`. -/
structure SharingRun.Keeps (C : Ciphers Text) (server : SharingServer) (device : SharingDevice)
    (updates : List VaultKeyUpdate) (run : SharingRun) : Prop where
  secrets : run.device.secrets = device.secrets
  db : run.device.db = device.db
  peersRemoved : run.device.peersRemoved = device.peersRemoved
  pins : ∀ userId key, device.getPeerKey userId = some key → run.device.peerKeys userId = some key
  members : ∀ vaultId listed, run.members vaultId = some listed →
    ∃ i, server.members i vaultId = .ok listed
  accepts : ∀ accepted ∈ run.accepts, AuthenticKey C server device updates accepted

section Loop

variable {server : SharingServer} {random : SharingRandom} {device : SharingDevice}
  {updates : List VaultKeyUpdate} {run run' : SharingRun} {update : VaultKeyUpdate}

open SharingRun (Keeps)

theorem keeps_start : Keeps C server device updates (SharingRun.start device) where
  secrets := rfl
  db := rfl
  peersRemoved := rfl
  pins userId key h := (Option.filter_eq_some_iff.mp h).1
  members vaultId listed h := by cases h
  accepts accepted h := by cases h

/-- A run that only asked, marked a task or noted a change keeps what it kept. -/
theorem SharingRun.Keeps.of_eq (h : Keeps C server device updates run)
    (hsecrets : run'.device.secrets = run.device.secrets) (hdb : run'.device.db = run.device.db)
    (hremoved : run'.device.peersRemoved = run.device.peersRemoved)
    (hpins : run'.device.peerKeys = run.device.peerKeys) (hmembers : run'.members = run.members)
    (haccepts : run'.accepts = run.accepts) : Keeps C server device updates run' where
  secrets := hsecrets.trans h.secrets
  db := hdb.trans h.db
  peersRemoved := hremoved.trans h.peersRemoved
  pins := hpins ▸ h.pins
  members := hmembers ▸ h.members
  accepts := haccepts ▸ h.accepts

/-- Whether a member is the sender in a managing role. -/
theorem of_mayHandOut {sender : VaultKeySender} {member : ListedMember}
    (h : mayHandOut sender member = true) : member.status = .active ∧
      member.role ∈ vaultManageRoles ∧ member.publicKey = sender.publicKey := by
  simp only [mayHandOut, Bool.and_eq_true, decide_eq_true_eq] at h
  obtain ⟨⟨⟨hactive, hrole⟩, hpublic⟩, hversion⟩ := h
  refine ⟨hactive, hrole, ?_⟩
  cases hm : member.publicKey
  cases hs : sender.publicKey
  simp_all

/-- `trustedSender` keeps the run, and a sender it trusts is listed and not removed. -/
theorem SharingRun.Keeps.trustedSender (h : Keeps C server device updates run)
    (update : VaultKeyUpdate) :
    Keeps C server device updates (trustedSender server run update).1 ∧
      ((trustedSender server run update).2 = .ok true →
        device.peersRemoved update.vaultId update.sender.userId = false ∧
        ∃ i listed, server.members i update.vaultId = .ok listed ∧
          listedAsManager update.sender listed = true) := by
  unfold Passmgr.trustedSender
  split
  · exact ⟨h, fun htrue => by cases htrue⟩
  next hremoved =>
  have hnot : device.peersRemoved update.vaultId update.sender.userId = false := by
    rw [← h.peersRemoved]
    exact Bool.eq_false_iff.mpr hremoved
  split
  · next listed hlisted =>
    obtain ⟨i, hi⟩ := h.members _ _ hlisted
    exact ⟨h, fun htrue => ⟨hnot, i, listed, hi, Except.ok.inj htrue⟩⟩
  split
  · exact ⟨h.of_eq rfl rfl rfl rfl rfl rfl, fun htrue => by cases htrue⟩
  next listed hlisted =>
  refine ⟨{ h with members := fun vaultId listed' hmem => ?_ },
    fun htrue => ⟨hnot, run.requests, listed, hlisted, Except.ok.inj htrue⟩⟩
  change Function.update run.members update.vaultId (some listed) vaultId = some listed' at hmem
  rw [Function.update_apply] at hmem
  split at hmem
  · next heq =>
    cases hmem
    exact ⟨run.requests, by rw [heq, hlisted]⟩
  · exact h.members _ _ hmem

/-- `checkPeerKey` either finds the key pinned or pins it where none was. -/
theorem of_checkPeerKey {device device' : SharingDevice} {userId : UserId} {key : UserPublicKey}
    (h : device.checkPeerKey userId key = .ok device') :
    device' = device ∧ device.getPeerKey userId = some key ∨
      device' = device.pinPeerKey userId key ∧ device.getPeerKey userId = none := by
  unfold SharingDevice.checkPeerKey at h
  split at h
  · next hnone =>
    cases h
    exact .inr ⟨rfl, hnone⟩
  next pinned hpinned =>
  split at h
  · cases h
  next hsame =>
  cases h
  refine .inl ⟨rfl, ?_⟩
  rw [hpinned]
  simp only [Bool.or_eq_true, decide_eq_true_eq, not_or, not_not] at hsame
  obtain ⟨hpublic, hversion⟩ := hsame
  obtain ⟨_, _⟩ := pinned
  obtain ⟨_, _⟩ := key
  simp_all

/-- After `checkPeerKey` the key is the one stored for the user; what was pinned stays. -/
theorem SharingRun.Keeps.checkPeerKey (h : Keeps C server device updates run) {userId : UserId}
    {key : UserPublicKey} {checked : SharingDevice}
    (hchecked : run.device.checkPeerKey userId key = .ok checked) :
    Keeps C server device updates { run with device := checked } ∧
      checked.peerKeys userId = some key ∧
      ∀ pinned, device.getPeerKey userId = some pinned → pinned = key := by
  -- A valid key pinned before the run is still the one that is read.
  have hread : ∀ pinned, device.getPeerKey userId = some pinned →
      run.device.getPeerKey userId = some pinned := by
    intro pinned hpinned
    refine Option.filter_eq_some_iff.mpr ⟨h.pins userId pinned hpinned, ?_⟩
    exact (Option.filter_eq_some_iff.mp hpinned).2
  obtain ⟨rfl, hkey⟩ | ⟨rfl, hnone⟩ := of_checkPeerKey hchecked
  · refine ⟨h, (Option.filter_eq_some_iff.mp hkey).1, fun pinned hpinned => ?_⟩
    exact Option.some.inj ((hread pinned hpinned).symm.trans hkey)
  · refine ⟨{ h with pins := fun other pinned hpinned => ?_ }, ?_, fun pinned hpinned => ?_⟩
    · by_cases heq : other = userId
      · subst heq
        rw [hread pinned hpinned] at hnone
        cases hnone
      · simpa [SharingDevice.pinPeerKey, heq] using h.pins other pinned hpinned
    · simp [SharingDevice.pinPeerKey]
    · rw [hread pinned hpinned] at hnone
      cases hnone

/-- A wrap that is sent for an update that passed the checks is authentic. -/
theorem SharingRun.Keeps.sendWrap (hC : C.Ideal) (h : Keeps C server device updates run)
    (hoffered : update ∈ updates)
    (hpinned : run.device.peerKeys update.sender.userId = some update.sender.publicKey)
    (hbefore : ∀ key, device.getPeerKey update.sender.userId = some key →
      key = update.sender.publicKey)
    (hremoved : device.peersRemoved update.vaultId update.sender.userId = false)
    (hlisted : ∃ i listed, server.members i update.vaultId = .ok listed ∧
      listedAsManager update.sender listed = true) :
    Keeps C server device updates (sendWrap C server random run update).1 := by
  unfold Passmgr.sendWrap
  split
  · exact h
  next wrap hopens =>
  rw [h.secrets] at hopens
  obtain ⟨accountKey, heldVersion, keys, haccount, hchained, hwrap⟩ :=
    chainedKey_of_openKeyUpdate hC hopens
  obtain ⟨i, listed, hanswer, hmanager⟩ := hlisted
  obtain ⟨member, hmember, hmay⟩ := (Option.any_eq_true _ _).mp hmanager
  obtain ⟨hactive, hrole, hpublic⟩ := of_mayHandOut hmay
  have hauthentic : AuthenticKey C server device updates ⟨update, wrap, run.device.peerKeys⟩ :=
    { offered := hoffered
      chained := ⟨_, accountKey, heldVersion, keys, haccount, hchained, hwrap⟩
      pinned := hpinned
      pinnedBefore := hbefore
      listed := ⟨i, listed, member, hanswer, hmember, hactive, hrole, hpublic⟩
      notRemoved := hremoved }
  have hsent : Keeps C server device updates { run with
      requests := run.requests + 1
      accepts := run.accepts ++ [⟨update, wrap, run.device.peerKeys⟩] } :=
    { h with
      accepts := fun accepted hmem => by
        obtain hmem | hmem := List.mem_append.mp hmem
        · exact h.accepts accepted hmem
        · obtain rfl := List.mem_singleton.mp hmem
          exact hauthentic }
  split
  · exact hsent
  · exact hsent.of_eq rfl rfl rfl rfl rfl rfl

/-- One task keeps the run. -/
theorem SharingRun.Keeps.acceptUpdate (hC : C.Ideal) (h : Keeps C server device updates run)
    (hoffered : update ∈ updates) :
    Keeps C server device updates (acceptUpdate C server random run update).1 := by
  obtain ⟨hkeeps, htrust⟩ := h.trustedSender update
  unfold Passmgr.acceptUpdate
  generalize Passmgr.trustedSender server run update = answer at hkeeps htrust
  obtain ⟨asked, _ | _ | _⟩ := answer
  · exact hkeeps
  · exact hkeeps
  obtain ⟨hremoved, hlisted⟩ := htrust rfl
  dsimp only
  split
  · exact hkeeps
  next checked hchecked =>
  obtain ⟨hkeeps', hpinned, hbefore⟩ := hkeeps.checkPeerKey hchecked
  exact hkeeps'.sendWrap hC hoffered hpinned hbefore hremoved hlisted

/-- The first loop keeps the run. -/
theorem SharingRun.Keeps.acceptUpdates (hC : C.Ideal) (rest : List VaultKeyUpdate)
    (hrest : rest ⊆ updates) (h : Keeps C server device updates run) :
    Keeps C server device updates (acceptUpdates C server random rest run).1 := by
  induction rest generalizing run with
  | nil => exact h
  | cons update rest ih =>
    obtain ⟨hoffered, hrest⟩ := List.cons_subset.mp hrest
    simp only [Passmgr.acceptUpdates]
    split
    · exact ih hrest h
    have hkeeps : Keeps C server device updates
        (Passmgr.acceptUpdate C server random run update).1 := h.acceptUpdate hC hoffered
    generalize Passmgr.acceptUpdate C server random run update = answer at hkeeps
    obtain ⟨run', e | _⟩ := answer
    · dsimp only
      split
      · exact hkeeps
      split
      · exact ih hrest (hkeeps.of_eq rfl rfl rfl rfl rfl rfl)
      · exact ih hrest (hkeeps.of_eq rfl rfl rfl rfl rfl rfl)
    · exact ih hrest hkeeps

end Loop

/-! ### The whole run -/

section Rotations

variable {C : Ciphers Text} {J : MetaJson} {server : SharingServer} {random : SharingRandom}

theorem accepts_otherMembers (run : SharingRun) (vaultId : VaultId) :
    (otherMembers server run vaultId).1.accepts = run.accepts := by
  unfold otherMembers
  split
  · rfl
  dsimp only
  split
  · rfl
  split <;> rfl

theorem accepts_refuse (run : SharingRun) (vaultId : VaultId) (keyVersion : ℕ) (e : RequestError) :
    (run.refuse vaultId keyVersion e).accepts = run.accepts := by
  unfold SharingRun.refuse
  split <;> rfl

theorem accepts_rotateAttempts (vault : MemberVault) (retries : ℕ) (run : SharingRun) :
    (rotateAttempts C J server random vault retries run).1.accepts = run.accepts := by
  induction retries using Nat.strong_induction_on generalizing run with
  | _ retries ih =>
  have hothers : (otherMembers server run vault.vaultId).1.accepts = run.accepts :=
    accepts_otherMembers run vault.vaultId
  rw [rotateAttempts]
  generalize otherMembers server run vault.vaultId = answer at hothers
  obtain ⟨asked, e | others⟩ := answer
  · exact hothers
  dsimp only at hothers ⊢
  split
  · exact hothers
  split
  · exact hothers
  split
  · exact hothers
  next e _ =>
  split
  · rw [ih _ (Nat.lt_succ_self _), accepts_refuse]
    exact hothers
  all_goals
    rw [accepts_refuse]
    exact hothers

theorem accepts_rotateVault (run : SharingRun) (vaultId : VaultId) :
    (rotateVault C J server random run vaultId).1.accepts = run.accepts := by
  unfold rotateVault
  split
  · rfl
  · exact accepts_rotateAttempts _ _ _

/-- A rotation sends no wrap with `vault.acceptKey`. -/
theorem accepts_runRotations (vaults : List MemberVault) (due : List VaultId) (run : SharingRun) :
    (runRotations C J server random vaults due run).1.accepts = run.accepts := by
  induction due generalizing run with
  | nil => rfl
  | cons vaultId due ih =>
    have hrotated : (rotateVault C J server random run vaultId).1.accepts = run.accepts :=
      accepts_rotateVault run vaultId
    simp only [runRotations]
    split
    · exact ih run
    split
    · exact ih run
    generalize rotateVault C J server random run vaultId = answer at hrotated
    obtain ⟨run', e | _⟩ := answer
    · dsimp only at hrotated ⊢
      split
      · next heq => cases heq
      · next heq =>
        cases heq
        rw [ih]
        exact hrotated
      · next heq =>
        cases heq
        split
        · exact hrotated
        · rw [ih]
          exact hrotated
    · dsimp only at hrotated ⊢
      rw [ih]
      exact hrotated

end Rotations

section Run

variable {C : Ciphers Text} {server : SharingServer} {device : SharingDevice}
  {updates : List VaultKeyUpdate} {accepted : AcceptedKey}

/-- The key of an authentic wrap is none that is known to whoever does not know the held one, and
they made none of the links it came with. -/
theorem AuthenticKey.not_learned (hC : C.Ideal)
    (h : AuthenticKey C server device updates accepted) {seen known : Text → Prop}
    (hseen : ∀ link ∈ accepted.update.links, seen link.wrap.encryptedVaultKey) {heldVersion : ℕ}
    {held accountKey newKey : Text}
    (hcurrent : device.secrets.currentKeyVersions accepted.update.vaultId = some heldVersion)
    (hkey : device.secrets.vaultKeys (vaultKeyId accepted.update.vaultId heldVersion) = some held)
    (hheld : ¬ Learned C seen known held) (haccount : device.secrets.accountKey = some accountKey)
    (hnew : unwrapVaultKey C accountKey accepted.wrap = some newKey) :
    ¬ Learned C seen known newKey ∧
      ∀ n, heldVersion ≤ n → n < accepted.update.keyVersion →
        ∃ link, linkOf accepted.update.links n = some link ∧
          ¬ MadeFrom C (Learned C seen known) link.wrap.encryptedVaultKey := by
  obtain ⟨nonce, accountKey', heldVersion', keys, haccount', hchained, hwrap⟩ := h.chained
  obtain rfl : accountKey = accountKey' := Option.some.inj (haccount.symm.trans haccount')
  obtain rfl : heldVersion = heldVersion' := Option.some.inj (hcurrent.symm.trans hchained.current)
  obtain rfl : held = keys heldVersion := Option.some.inj (hkey.symm.trans hchained.held)
  rw [hwrap, unwrapVaultKey_wrapVaultKey hC.toCorrect] at hnew
  obtain rfl := Option.some.inj hnew
  obtain ⟨hkeys, hlinks⟩ := hchained.not_learned hC hseen hheld
  refine ⟨hkeys _ hchained.newer.le le_rfl, fun n hn hlt => ?_⟩
  obtain ⟨link, hlink, -⟩ := hchained.links n hn hlt
  exact ⟨link, hlink, hlinks n hn hlt link hlink⟩

end Run

/-- **Key updates are authentic**, whatever the server answers: every wrap a run sends with
`vault.acceptKey` is of a key whose links open, version by version, down to the held one, sealed
from the key pinned for a listed owner or manager that this device did not remove.  A server that
has not learned the held key does not know the key of any such wrap, and made none of its links.
The updates leave the keys that are held, and the vaults in the database, as they are. -/
theorem key_updates_authentic (C : Ciphers Text) (J : MetaJson) (hC : C.Ideal)
    (server : SharingServer) (random : SharingRandom) (device : SharingDevice)
    (tasks : SharingTasks) :
    (∀ accepted ∈ (runSharingTasks C J server random device tasks).1.accepts,
      AuthenticKey C server device tasks.keyUpdates accepted ∧
      ∀ (seen known : Text → Prop) (heldVersion : ℕ) (held accountKey newKey : Text),
        (∀ link ∈ accepted.update.links, seen link.wrap.encryptedVaultKey) →
        device.secrets.currentKeyVersions accepted.update.vaultId = some heldVersion →
        device.secrets.vaultKeys (vaultKeyId accepted.update.vaultId heldVersion) = some held →
        ¬ Learned C seen known held →
        device.secrets.accountKey = some accountKey →
        unwrapVaultKey C accountKey accepted.wrap = some newKey →
        ¬ Learned C seen known newKey ∧
          ∀ n, heldVersion ≤ n → n < accepted.update.keyVersion →
            ∃ link, linkOf accepted.update.links n = some link ∧
              ¬ MadeFrom C (Learned C seen known) link.wrap.encryptedVaultKey) ∧
    (acceptUpdates C server random tasks.keyUpdates (SharingRun.start device)).1.device.secrets
      = device.secrets ∧
    (acceptUpdates C server random tasks.keyUpdates (SharingRun.start device)).1.device.db
      = device.db ∧
    (tasks.rotationsDue = [] →
      (runSharingTasks C J server random device tasks).1.device.secrets = device.secrets) := by
  have hstart : SharingRun.Keeps C server device tasks.keyUpdates (SharingRun.start device) :=
    keeps_start
  have hkeeps : SharingRun.Keeps C server device tasks.keyUpdates
      (acceptUpdates C server random tasks.keyUpdates (SharingRun.start device)).1 :=
    hstart.acceptUpdates hC tasks.keyUpdates (List.Subset.refl _)
  refine ⟨fun accepted haccepted => ?_, hkeeps.secrets, hkeeps.db, fun hdue => ?_⟩
  · have hauthentic : AuthenticKey C server device tasks.keyUpdates accepted := by
      refine hkeeps.accepts accepted ?_
      unfold runSharingTasks at haccepted
      generalize acceptUpdates C server random tasks.keyUpdates (SharingRun.start device)
        = answer at haccepted
      obtain ⟨run, e | _⟩ := answer
      · exact haccepted
      · rwa [accepts_runRotations] at haccepted
    exact ⟨hauthentic, fun _ _ _ _ _ _ hseen hcurrent hkey hheld haccount hnew =>
      hauthentic.not_learned hC hseen hcurrent hkey hheld haccount hnew⟩
  · unfold runSharingTasks
    rw [hdue]
    have hsecrets := hkeeps.secrets
    generalize acceptUpdates C server random tasks.keyUpdates (SharingRun.start device)
      = answer at hsecrets
    obtain ⟨run, e | _⟩ := answer <;> exact hsecrets

/-! ### A rotation that was missed -/

/-- A device that holds key 1 of vault 7. -/
def behindDevice : SharingDevice where
  secrets := { SecretsStore.empty with
    accountKey := some "account".toList
    vaultKeys := Function.update (fun _ => none) (vaultKeyId 7 1) (some "key 1".toList)
    currentKeyVersions := Function.update (fun _ => none) 7 (some 1)
    userPrivateKey := some "recipient".toList
    userKeyPairVersion := some 1 }
  db := LocalDb.empty
  ownUserId := some 2
  peerKeys _ := none
  peersRemoved _ _ := false
  rekeyTargets _ := none
  failedTasks := []

/-- The public key of the member who rotated the key. -/
def rotatorKey : UserPublicKey := ⟨1, IdealCipher.wordCiphers.publicKey "sender".toList⟩

/-- Key 2 of vault 7, sealed to the device, with the link to key 1. -/
def missedRotation : VaultKeyUpdate where
  vaultId := 7
  keyVersion := 2
  sealedVaultKey := (sealVaultKey IdealCipher.wordCiphers ⟨"e".toList, "n".toList⟩ "sender".toList
    (IdealCipher.wordCiphers.publicKey "recipient".toList) "key 2".toList 7 2).getD []
  recipientKeyVersion := 1
  sender := ⟨1, rotatorKey⟩
  links := [wrapPreviousVaultKey IdealCipher.wordCiphers "n".toList "key 2".toList "key 1".toList
    7 1]

/-- A server that lists the rotator as the owner, and takes every request. -/
def honestServer : SharingServer where
  members _ _ := .ok [⟨1, .owner, .active, rotatorKey⟩]
  acceptKey _ _ := .ok ()
  rotateKey _ _ := .ok ()

/-- Random values that are all the same. -/
def fixedRandom : SharingRandom where
  nonce _ := "n".toList
  key _ := ⟨"k".toList, "n".toList, "n".toList, "n".toList⟩
  box _ _ := ⟨"e".toList, "n".toList⟩

theorem key_updates_authentic_missedRotation :
    (runSharingTasks IdealCipher.wordCiphers nameJson honestServer fixedRandom behindDevice
      ⟨[missedRotation], []⟩).1.accepts.length = 1 ∧
    ∀ accepted ∈ (runSharingTasks IdealCipher.wordCiphers nameJson honestServer fixedRandom
      behindDevice ⟨[missedRotation], []⟩).1.accepts,
      AuthenticKey IdealCipher.wordCiphers honestServer behindDevice [missedRotation] accepted :=
  ⟨by decide +kernel, fun accepted haccepted =>
    ((key_updates_authentic _ nameJson IdealCipher.wordCiphers_ideal honestServer fixedRandom
      behindDevice ⟨[missedRotation], []⟩).1 accepted haccepted).1⟩

end Passmgr
