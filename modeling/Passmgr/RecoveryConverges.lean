/-
# Resets that reach the server

A reset that is pending is proved with the recovery key the server knows.  Its answer may be lost
after the server took it: then the next connect is refused and logs in with the new password.
A reset that follows meanwhile keeps the proof of the one before, which the server no longer knows:
its connect is refused as well, and the reset is dropped though the server never saw it.

Main definitions:

* `Converged`, `NothingDropped` — the server stores what the device unlocks with, or a reset is
  pending;
* `ProofCurrent` — the proof of a pending reset is still of the server's key set;
* `RecoveryInv` — what every run keeps whose resets find it so.

Main results:

* `exec_finishRecovery` — the transaction of a recovery, alone;
* `RecoveryInv.step` — a step keeps the invariant;
* `pending_recovery_converges` — so nothing is dropped, and a connect that is answered converges;
* `reset_dropped` — two resets, the answer to the first one lost.
-/

import Passmgr.OnePassword
import Passmgr.PendingRecovery
import Passmgr.Run

set_option relaxedAutoImplicit false
set_option autoImplicit false

namespace Passmgr

open IdealCipher (Ciphers)

/-! ### The property -/

section Property

variable (C : Ciphers Text) (K : KeyDerivation) (J : PendingJson)

/-- The account a profile is linked to: its user, and the one key set that is not closed. -/
structure HasAccount (tables : KeyTables) (userId : UserId) (emailHash : EmailHash)
    (user : LoginUser) (active : KeySet) : Prop where
  byEmail : tables.userByEmail emailHash = some user
  byId : tables.user? userId = some user
  keySets : tables.openKeySets userId = [active]
  deleted : active.deletedAt = none

/-- The server stores some credentials: the login accepts their password only, and the active key
set is theirs. -/
structure StoresCredentials (email : Text) (user : LoginUser) (active : KeySet) (c : Credentials) :
    Prop where
  login : ∀ password, K.accepts user.registrationRecord (deriveOpaquePassword K password email) =
    true ↔ password = c.password
  keys : active.toUserKeys = c.userKeys

/-- The device unlocks with some credentials: it stores their wraps, and the password opens its
own. -/
structure UnlocksWith (device : LinkedProfile) (c : Credentials) : Prop where
  keys : device.material.toPasswordKeys = c.userKeys.toPasswordKeys
  wrap : device.recoveryWrap = some c.userKeys.wrap
  opens : (openPasswordWrap C K c.password device.material.toPasswordKeys).isSome = true

/-- **Server and device agree**: what the server stores of the account is what the device unlocks
with, which was chosen last. -/
def RecoveryState.Converged (s : RecoveryState) : Prop :=
  (∃ user active, HasAccount s.server.tables s.device.userId (s.server.hashEmail s.device.email)
    user active ∧ StoresCredentials K s.device.email user active s.last) ∧
    UnlocksWith C K s.device s.last

/-- While they differ, a reset is pending. -/
def RecoveryState.NothingDropped (s : RecoveryState) : Prop :=
  s.device.pendingRecovery = none → s.Converged C K

/-- A linked profile after a login, before any reset. -/
structure RecoveryState.Linked (accountKey : Text) (s : RecoveryState) : Prop where
  made : ∃ passwordRandom recoveryRandom, s.last.userKeys =
    generateUserKeys C K s.last.password accountKey passwordRandom recoveryRandom
  converged : s.Converged C K
  pending : s.device.pendingRecovery = none

/-- The proof of a reset that is pending is still of the server's key set: the server has not taken
that reset yet. -/
def ProofCurrent (s : RecoveryState) : Prop :=
  ∀ sealed, s.device.pendingRecovery = some sealed → ∀ accountKey pending,
    readPendingRecovery C J accountKey sealed = some pending →
      (startRecovery s.server.tables (s.server.hashEmail s.device.email)
        (hashRecoveryAuthKey K pending.recoveryAuthKey)).isSome = true

/-- What a step needs: a reset finds the proof of the pending one current. -/
def RecoveryOp.Meets (s : RecoveryState) : RecoveryOp → Prop
  | .reset _ _ _ => ProofCurrent C K J s
  | .connect _ _ _ => True

/-- A step that meets it. -/
def CarefulRecoveryStep (s s' : RecoveryState) : Prop :=
  ∃ op : RecoveryOp, op.Meets C K J s ∧ op.run C K J s = some s'

end Property

/-! ### The account at the server -/

section Account

variable {tables : KeyTables} {userId : UserId} {emailHash : EmailHash} {user : LoginUser}
  {active : KeySet}

theorem HasAccount.userId_eq (h : HasAccount tables userId emailHash user active) :
    user.userId = userId ∧ user.deletedAt.isNone = true := by
  have hfound := List.find?_some h.byId
  rw [Bool.and_eq_true] at hfound
  exact ⟨of_decide_eq_true hfound.1, hfound.2⟩

/-- A search for the active key set finds the one that is not closed. -/
theorem HasAccount.find?_active (h : HasAccount tables userId emailHash user active)
    {q : KeySet → Bool} (hq : q active = true) :
    tables.keys.find? (fun row => row.isActive userId && q row) = some active := by
  have hmem : active ∈ tables.openKeySets userId := by
    rw [h.keySets]
    exact List.mem_singleton_self _
  obtain ⟨hrow, hopen⟩ := List.mem_filter.1 hmem
  cases hfind : tables.keys.find? fun row => row.isActive userId && q row with
  | none =>
      refine absurd ?_ (List.find?_eq_none.1 hfind active hrow)
      simp only [KeySet.isActive, Bool.and_eq_true] at hopen ⊢
      exact ⟨⟨hopen, by rw [h.deleted]; rfl⟩, hq⟩
  | some row =>
      have hfound := List.find?_some hfind
      simp only [KeySet.isActive, Bool.and_eq_true] at hfound
      have hin : row ∈ tables.openKeySets userId :=
        List.mem_filter.2 ⟨List.mem_of_find?_eq_some hfind, by simpa using hfound.1.1⟩
      rw [h.keySets, List.mem_singleton] at hin
      rw [hin]

theorem HasAccount.activeKeySet? (h : HasAccount tables userId emailHash user active) :
    tables.activeKeySet? userId = some active := by
  have hfind := h.find?_active (q := fun _ => true) rfl
  simp only [Bool.and_true] at hfind
  exact hfind

/-- The lock on the active key set, alone. -/
theorem exec_lockActiveKeySet (h : HasAccount tables userId emailHash user active)
    (expects : KeyTables → Prop) (next : Option KeySet → KeyTxn) :
    (lockActiveKeySet userId expects next).exec tables = (next (some active)).exec tables := by
  have hids : active.keySetId ∈ tables.activeIds userId := by
    refine List.mem_map_of_mem (List.mem_filter.2 ⟨?_, ?_⟩)
    · exact List.mem_of_find?_eq_some h.activeKeySet?
    · exact List.find?_some h.activeKeySet?
  unfold lockActiveKeySet
  rw [ReadCommitted.Prog.exec_read, ReadCommitted.Prog.exec_stmt,
    h.find?_active (decide_eq_true hids)]

theorem userByEmail_setRegistrationRecord (h : tables.userByEmail emailHash = some user)
    (hid : user.userId = userId) (record : String) :
    (tables.setRegistrationRecord userId record).userByEmail emailHash =
      some { user with registrationRecord := record } := by
  unfold KeyTables.userByEmail KeyTables.setRegistrationRecord at *
  dsimp only
  rw [List.find?_map]
  have hsame : (fun row : LoginUser => decide (row.emailHash = emailHash) && row.deletedAt.isNone) ∘
      (fun row => if row.userId = userId ∧ row.deletedAt.isNone then
        { row with registrationRecord := record } else row) =
      fun row => decide (row.emailHash = emailHash) && row.deletedAt.isNone := by
    funext row
    dsimp only [Function.comp]
    split <;> rfl
  rw [hsame, h, Option.map_some]
  have hlive := List.find?_some h
  rw [Bool.and_eq_true] at hlive
  rw [if_pos ⟨hid, hlive.2⟩]

/-- **The transaction of a recovery, alone**: the account gets its login record and its key set. -/
theorem exec_finishRecovery (h : HasAccount tables userId emailHash user active)
    (record keySetId : String) (userKeys : UserKeys) (now : Time) :
    ∃ tables', (finishRecovery userId active.keySetId record userKeys keySetId now).exec tables =
        some tables' ∧
      HasAccount tables' userId emailHash { user with registrationRecord := record }
        (userKeys.keySet userId keySetId now) := by
  refine ⟨((tables.closeKeySet active.keySetId now).insertKeySet
    (userKeys.keySet userId keySetId now)).setRegistrationRecord userId record, ?_, ?_, ?_, ?_, rfl⟩
  · unfold finishRecovery
    rw [exec_lockActiveKeySet h]
    dsimp only
    rw [if_neg (fun hne => hne rfl)]
    unfold replaceKeySet updateRegistrationRecord
    rw [ReadCommitted.Prog.exec_write, ReadCommitted.Prog.exec_write,
      ReadCommitted.Prog.exec_stmt, ReadCommitted.Prog.exec_commit]
  · exact userByEmail_setRegistrationRecord h.byEmail h.userId_eq.1 record
  · rw [user?_setRegistrationRecord, user?_insertKeySet, user?_closeKeySet, h.byId]
    rfl
  · rw [openKeySets_setRegistrationRecord]
    exact openKeySets_replaced h.keySets rfl rfl

end Account

/-! ### The requests of a connect -/

section Requests

variable {C : Ciphers Text} {K : KeyDerivation} {J : PendingJson} {server : AccountServer}
  {email opaquePassword : Text} {userId : UserId} {user : LoginUser} {active : KeySet}
  {pending : PendingRecovery} {random : ConnectRandom} {answers : ConnectAnswers}

theorem startRecovery_eq {tables : KeyTables} {emailHash : EmailHash}
    (h : HasAccount tables userId emailHash user active) (presented : String) :
    startRecovery tables emailHash presented =
      if active.recoveryVerifier = some presented then some ⟨userId, emailHash, active.keySetId⟩
      else none := by
  unfold startRecovery
  rw [h.byEmail]
  simp only [Option.bind_some]
  rw [h.userId_eq.1, h.activeKeySet?]
  rfl

/-- A recovery that was started with the active key set is finished. -/
theorem finishRecovery_started
    (h : HasAccount server.tables userId (server.hashEmail email) user active)
    {attemptId : AttemptId} (hattempt : server.recoveries attemptId =
      some ⟨userId, server.hashEmail email, active.keySetId⟩) (record keySetId : String)
    (userKeys : UserKeys) (now : Time) :
    ∃ tables', server.finishRecovery email attemptId record userKeys keySetId now =
        ({ server with
            recoveries := Function.update server.recoveries attemptId none
            tables := tables' }, true) ∧
      HasAccount tables' userId (server.hashEmail email)
        { user with registrationRecord := record } (userKeys.keySet userId keySetId now) := by
  obtain ⟨tables', hexec, haccount⟩ := exec_finishRecovery h record keySetId userKeys now
  refine ⟨tables', ?_, haccount⟩
  unfold AccountServer.finishRecovery
  rw [hattempt]
  dsimp only
  rw [if_neg (fun hne => hne rfl), hexec]

/-- What a reset that is taken to the server comes to: the server never took it, and refused it only
when the proof isn't its own; or it has the new login record and key set. -/
inductive Finished (K : KeyDerivation) (opaquePassword email : Text) (user : LoginUser)
    (active : KeySet) (pending : PendingRecovery) (random : ConnectRandom) :
    LoginUser → KeySet → Except RequestFailure Unit → Prop
  | unreached : Finished K opaquePassword email user active pending random user active
      (.error .unreachable)
  | refused (h : active.recoveryVerifier ≠
      some (hashRecoveryAuthKey K pending.recoveryAuthKey)) :
      Finished K opaquePassword email user active pending random user active (.error .refused)
  | taken {result : Except RequestFailure Unit} (h : result ≠ .error .refused) :
      Finished K opaquePassword email user active pending random
        { user with registrationRecord := K.register opaquePassword email random.opaqueRandom }
        (pending.userKeys.keySet user.userId random.keySetId random.now) result

theorem startRecovery_accepted
    (h : HasAccount server.tables userId (server.hashEmail email) user active)
    {recoveryAuthKey : Text}
    (hproof : active.recoveryVerifier = some (hashRecoveryAuthKey K recoveryAuthKey))
    (attemptId : AttemptId) :
    server.startRecovery K email recoveryAuthKey attemptId =
      ({ server with
          recoveries := Function.update server.recoveries attemptId
            (some ⟨userId, server.hashEmail email, active.keySetId⟩) }, true) := by
  unfold AccountServer.startRecovery
  rw [startRecovery_eq h, if_pos hproof]

theorem startRecovery_refused
    (h : HasAccount server.tables userId (server.hashEmail email) user active)
    {recoveryAuthKey : Text}
    (hproof : active.recoveryVerifier ≠ some (hashRecoveryAuthKey K recoveryAuthKey))
    (attemptId : AttemptId) :
    server.startRecovery K email recoveryAuthKey attemptId = (server, false) := by
  unfold AccountServer.startRecovery
  rw [startRecovery_eq h, if_neg hproof]

/-- **A reset that is taken to the server.** -/
theorem of_finishPendingRecovery
    (h : HasAccount server.tables userId (server.hashEmail email) user active)
    {server' : AccountServer} {result : Except RequestFailure Unit}
    (hrun : finishPendingRecovery K server email opaquePassword pending random answers =
      (server', result)) :
    ∃ user' active', Finished K opaquePassword email user active pending random user' active'
        result ∧
      HasAccount server'.tables userId (server.hashEmail email) user' active' ∧
      server'.hashEmail = server.hashEmail ∧
      (answers = .delivered → result ≠ .error .unreachable) := by
  have hunreached : answers ≠ .delivered → (server, Except.error .unreachable) = (server', result) →
      ∃ user' active', Finished K opaquePassword email user active pending random user' active'
          result ∧
        HasAccount server'.tables userId (server.hashEmail email) user' active' ∧
        server'.hashEmail = server.hashEmail ∧
        (answers = .delivered → result ≠ .error .unreachable) := by
    intro hanswers heq
    obtain ⟨rfl, rfl⟩ := Prod.mk.inj heq
    exact ⟨_, _, .unreached, h, rfl, fun hall => absurd hall hanswers⟩
  unfold finishPendingRecovery at hrun
  by_cases hproof : active.recoveryVerifier = some (hashRecoveryAuthKey K pending.recoveryAuthKey)
  · rw [startRecovery_accepted h hproof] at hrun
    -- the attempt is of the active key set
    obtain ⟨tables', hfinish, haccount⟩ := @finishRecovery_started
      { server with
        recoveries := Function.update server.recoveries random.attemptId
          (some ⟨userId, server.hashEmail email, active.keySetId⟩) }
      email userId user active h random.attemptId (Function.update_self _ _ _)
      (K.register opaquePassword email random.opaqueRandom) random.keySetId pending.userKeys
      random.now
    dsimp only at hrun
    rw [hfinish] at hrun
    split at hrun
    · next hanswer => exact hunreached (fun hall => by rw [hall] at hanswer; cases hanswer) hrun
    split at hrun
    · next hanswer =>
        obtain ⟨rfl, rfl⟩ := Prod.mk.inj hrun
        exact ⟨_, _, .unreached, h, rfl, fun hall => by rw [hall] at hanswer; cases hanswer⟩
    rw [if_neg (by decide : ¬ (!true) = true)] at hrun
    split at hrun
    · next hanswer =>
        obtain ⟨rfl, rfl⟩ := Prod.mk.inj hrun
        exact ⟨_, _, .unreached, h, rfl, fun hall => by rw [hall] at hanswer; cases hanswer⟩
    have htaken := h.userId_eq.1
    split at hrun
    · next hanswer =>
        obtain ⟨rfl, rfl⟩ := Prod.mk.inj hrun
        exact ⟨_, _, .taken (fun heq => by cases heq), htaken ▸ haccount, rfl,
          fun hall => by rw [hall] at hanswer; cases hanswer⟩
    · rw [if_neg (by decide : ¬ (!true) = true)] at hrun
      obtain ⟨rfl, rfl⟩ := Prod.mk.inj hrun
      exact ⟨_, _, .taken (fun heq => by cases heq), htaken ▸ haccount, rfl,
        fun _ heq => by cases heq⟩
  · rw [startRecovery_refused h hproof] at hrun
    dsimp only at hrun
    split at hrun
    · next hanswer => exact hunreached (fun hall => by rw [hall] at hanswer; cases hanswer) hrun
    split at hrun
    · next hanswer => exact hunreached (fun hall => by rw [hall] at hanswer; cases hanswer) hrun
    · rw [if_pos (by decide : (!false) = true)] at hrun
      obtain ⟨rfl, rfl⟩ := Prod.mk.inj hrun
      exact ⟨_, _, .refused hproof, h, rfl, fun _ heq => by cases heq⟩

end Requests

/-! ### The invariant -/

/-- What the server stores beside a reset that is pending, or not: what was chosen last, or what the
proof of the pending reset is of. -/
def PendingOk (C : Ciphers Text) (K : KeyDerivation) (J : PendingJson) (accountKey : Text)
    (device : LinkedProfile) (last : Credentials) (user : LoginUser) (active : KeySet) : Prop :=
  match device.pendingRecovery with
  | none => StoresCredentials K device.email user active last
  | some sealed => ∃ nonce pending,
      sealed = sealPendingRecovery C nonce accountKey (J.stringify pending) ∧
      pending.userKeys = last.userKeys ∧
      (StoresCredentials K device.email user active last ∨
        active.recoveryVerifier = some (hashRecoveryAuthKey K pending.recoveryAuthKey))

/-- **What every run of careful steps keeps**: the device unlocks with what was chosen last, and the
server has it or takes the pending reset. -/
structure RecoveryInv (C : Ciphers Text) (K : KeyDerivation) (J : PendingJson) (accountKey : Text)
    (s : RecoveryState) : Prop where
  made : ∃ passwordRandom recoveryRandom, s.last.userKeys =
    generateUserKeys C K s.last.password accountKey passwordRandom recoveryRandom
  unlocks : UnlocksWith C K s.device s.last
  account : ∃ user active, HasAccount s.server.tables s.device.userId
    (s.server.hashEmail s.device.email) user active ∧
    PendingOk C K J accountKey s.device s.last user active

section Invariant

variable {C : Ciphers Text} {K : KeyDerivation} {J : PendingJson} {accountKey : Text}
  {s s' : RecoveryState}

theorem RecoveryState.Linked.inv (h : s.Linked C K accountKey) : RecoveryInv C K J accountKey s := by
  obtain ⟨⟨user, active, haccount, hstores⟩, hunlocks⟩ := h.converged
  refine ⟨h.made, hunlocks, user, active, haccount, ?_⟩
  unfold PendingOk
  rw [h.pending]
  exact hstores

/-- Nothing is dropped where the invariant holds. -/
theorem RecoveryInv.nothingDropped (h : RecoveryInv C K J accountKey s) :
    s.NothingDropped C K := by
  intro hpending
  obtain ⟨user, active, haccount, hok⟩ := h.account
  unfold PendingOk at hok
  rw [hpending] at hok
  exact ⟨⟨user, active, haccount, hok⟩, h.unlocks⟩

/-- The recovery key that opens the device's wrap is the one that was chosen last. -/
theorem RecoveryInv.recoveryKey_eq (hC : C.Ideal) (hK : K.Ideal)
    (h : RecoveryInv C K J accountKey s) {wrap : RecoveryWrap}
    (hwrap : s.device.recoveryWrap = some wrap) {recoveryKey opened : Text}
    (hopens : unwrapAccountKeyWithRecoveryKey C K recoveryKey wrap = some opened) :
    opened = accountKey ∧ s.last.userKeys.recoveryVerifier =
      some (hashRecoveryAuthKey K (deriveRecoveryAuthKey K recoveryKey)) := by
  obtain ⟨passwordRandom, recoveryRandom, hmade⟩ := h.made
  have hsame : wrap = (generateRecoveryKeys C K recoveryRandom accountKey).wrap := by
    rw [h.unlocks.wrap, hmade] at hwrap
    exact (Option.some.inj hwrap).symm
  rw [hsame, unwrapAccountKeyWithRecoveryKey_eq_some hC hK] at hopens
  obtain ⟨rfl, rfl⟩ := hopens
  refine ⟨rfl, ?_⟩
  rw [hmade]
  rfl

/-- The password that opens the device's wrap is the one that was chosen last. -/
theorem RecoveryInv.password_eq (hC : C.Ideal) (hK : K.Ideal) (h : RecoveryInv C K J accountKey s)
    {password opened : Text}
    (hopens : openPasswordWrap C K password s.device.material.toPasswordKeys = some opened) :
    password = s.last.password ∧ opened = accountKey := by
  obtain ⟨passwordRandom, recoveryRandom, hmade⟩ := h.made
  rw [h.unlocks.keys, hmade] at hopens
  obtain ⟨hpassword, hkey⟩ := (openPasswordWrap_eq_some hC hK).1 hopens
  exact ⟨hpassword, hkey.symm⟩

theorem rewrapOnDevice_ok {wrap : RecoveryWrap} {vaults : List MemberVault} {recoveryKey : Text}
    (h : rewrapOnDevice C K wrap vaults recoveryKey = .ok accountKey) :
    unwrapAccountKeyWithRecoveryKey C K recoveryKey wrap = some accountKey := by
  unfold rewrapOnDevice at h
  cases hopens : unwrapAccountKeyWithRecoveryKey C K recoveryKey wrap with
  | none =>
      rw [hopens] at h
      cases h
  | some opened =>
      rw [hopens] at h
      dsimp only at h
      split at h
      · cases h
      · split at h
        · cases h
        · obtain rfl := Except.ok.inj h
          rfl

/-- What a reset stores: wraps of the account key its recovery key opens, and a pending recovery. -/
theorem of_recoverOnDevice {device : LinkedProfile} {recoveryKey newPassword : Text}
    {random : ResetRandom} {recovered : LinkedRecovery}
    (h : recoverOnDevice C K J device recoveryKey newPassword random = .ok recovered) :
    ∃ wrap opened proof, device.recoveryWrap = some wrap ∧
      unwrapAccountKeyWithRecoveryKey C K recoveryKey wrap = some opened ∧
      resetProof C K J opened recoveryKey device.pendingRecovery = .ok proof ∧
      recovered = {
        material := {
          toPasswordKeys := derivePasswordWrap C K random.password newPassword opened
          userKeyPair := device.material.userKeyPair }
        recoveryWrap := (generateRecoveryKeys C K random.recovery opened).wrap
        pending := sealPendingRecovery C random.nonce opened (J.stringify
          ⟨proof, generateUserKeys C K newPassword opened random.password random.recovery⟩)
        serverRecovery :=
          ⟨proof, generateUserKeys C K newPassword opened random.password random.recovery⟩ } := by
  unfold recoverOnDevice at h
  cases hwrap : device.recoveryWrap with
  | none =>
      rw [hwrap] at h
      cases h
  | some wrap =>
      rw [hwrap] at h
      obtain ⟨opened, hopened, h⟩ := bind_eq_ok.mp h
      obtain ⟨proof, hproof, h⟩ := bind_eq_ok.mp h
      exact ⟨wrap, opened, proof, rfl, rewrapOnDevice_ok hopened, hproof, (Except.ok.inj h).symm⟩

/-- **A reset** that finds the proof of the pending one current keeps the invariant. -/
theorem RecoveryInv.reset (hC : C.Ideal) (hK : K.Ideal) (h : RecoveryInv C K J accountKey s)
    (hproof : ProofCurrent C K J s) {recoveryKey newPassword : Text} {random : ResetRandom}
    {recovered : LinkedRecovery}
    (hreset : recoverOnDevice C K J s.device recoveryKey newPassword random = .ok recovered) :
    RecoveryInv C K J accountKey { s with
      device := s.device.setLinkedRecovery recovered
      last := ⟨newPassword, recovered.serverRecovery.userKeys⟩ } := by
  obtain ⟨wrap, opened, proof, hwrap, hopens, hearlier, rfl⟩ := of_recoverOnDevice hreset
  obtain ⟨rfl, hverifier⟩ := h.recoveryKey_eq hC hK hwrap hopens
  obtain ⟨user, active, haccount, hok⟩ := h.account
  refine ⟨⟨random.password, random.recovery, rfl⟩, ⟨rfl, rfl, ?_⟩, user, active, haccount,
    random.nonce, _, rfl, rfl, Or.inr ?_⟩
  · exact Option.isSome_iff_exists.2 ⟨opened, (openPasswordWrap_eq_some hC hK).2 ⟨rfl, rfl⟩⟩
  · cases hpending : s.device.pendingRecovery with
    | none =>
        rw [hpending] at hearlier
        obtain rfl := Except.ok.inj hearlier
        unfold PendingOk at hok
        rw [hpending] at hok
        rw [← hverifier, ← hok.keys]
    | some sealed =>
        rw [hpending] at hearlier
        unfold resetProof at hearlier
        dsimp only at hearlier
        cases hread : readPendingRecovery C J opened sealed with
        | none =>
            rw [hread] at hearlier
            cases hearlier
        | some pending =>
            rw [hread] at hearlier
            obtain rfl := Except.ok.inj hearlier
            have hcurrent := hproof sealed hpending opened pending hread
            rw [startRecovery_eq haccount] at hcurrent
            split at hcurrent
            · next hverified => exact hverified
            · cases hcurrent

theorem readPendingRecovery_seal (hC : C.Ideal) (hJ : J.Rereads) (nonce accountKey : Text)
    (pending : PendingRecovery) : readPendingRecovery C J accountKey
      (sealPendingRecovery C nonce accountKey (J.stringify pending)) = some pending := by
  unfold readPendingRecovery
  rw [(openPendingRecovery_sealPendingRecovery hC).2 ⟨rfl, rfl⟩, Option.bind_some, hJ]

/-- A key set with a login record for its password is what was chosen. -/
theorem stores_taken (hK : K.Ideal) (email random : Text) (user : LoginUser) (userId : UserId)
    (keySetId : String) (now : Time) (c : Credentials) :
    StoresCredentials K email
      { user with
        registrationRecord := K.register (deriveOpaquePassword K c.password email) email random }
      (c.userKeys.keySet userId keySetId now) c := by
  refine ⟨fun password => ?_, rfl⟩
  rw [hK.accepts_register]
  constructor
  · intro h
    exact (hK.hkdf_inj h).symm
  · rintro rfl
    rfl

/-- **A pending reset that is taken to the server**: it stays while the answers don't arrive, and
goes once the server stores what was chosen last. -/
theorem RecoveryInv.finishPendingReset (hC : C.Ideal) (hK : K.Ideal) (hJ : J.Rereads)
    (h : RecoveryInv C K J accountKey s) {random : ConnectRandom} {answers : ConnectAnswers}
    {server : AccountServer} {device : LinkedProfile} {result : Except RequestFailure Unit}
    (hrun : finishPendingReset C K J s.server s.device accountKey
      (deriveOpaquePassword K s.last.password s.device.email) random answers =
        ((server, device), result)) :
    RecoveryInv C K J accountKey { s with server := server, device := device } ∧
      device.email = s.device.email ∧ (result = .ok () → device.pendingRecovery = none) ∧
      (answers = .delivered → result = .ok ()) := by
  obtain ⟨user, active, haccount, hok⟩ := h.account
  unfold PendingOk at hok
  unfold Passmgr.finishPendingReset at hrun
  cases hpending : s.device.pendingRecovery with
  | none =>
      rw [hpending] at hrun
      obtain ⟨hparties, rfl⟩ := Prod.mk.inj hrun
      obtain ⟨rfl, rfl⟩ := Prod.mk.inj hparties
      exact ⟨h, rfl, fun _ => hpending, fun _ => rfl⟩
  | some sealed =>
      rw [hpending] at hrun hok
      obtain ⟨nonce, pending, rfl, hkeys, hstores⟩ := hok
      dsimp only at hrun
      rw [readPendingRecovery_seal hC hJ] at hrun
      dsimp only at hrun
      cases hfinish : finishPendingRecovery K s.server s.device.email
          (deriveOpaquePassword K s.last.password s.device.email) pending random answers with
      | mk server₁ result₁ =>
          obtain ⟨user', active', hfinished, haccount', hhash, hanswered⟩ :=
            of_finishPendingRecovery haccount hfinish
          rw [hfinish] at hrun
          have hcleared : StoresCredentials K s.device.email user' active' s.last →
              RecoveryInv C K J accountKey
                { s with server := server₁, device := s.device.clearPendingRecovery } :=
            fun hstored => ⟨h.made, ⟨h.unlocks.keys, h.unlocks.wrap, h.unlocks.opens⟩, user', active',
              hhash ▸ haccount', hstored⟩
          have hkept : (StoresCredentials K s.device.email user' active' s.last ∨
              active'.recoveryVerifier =
                some (hashRecoveryAuthKey K pending.recoveryAuthKey)) →
              RecoveryInv C K J accountKey { s with server := server₁, device := s.device } := by
            refine fun hstored => ⟨h.made, h.unlocks, user', active', hhash ▸ haccount', ?_⟩
            unfold PendingOk
            dsimp only
            rw [hpending]
            exact ⟨nonce, pending, rfl, hkeys, hstored⟩
          cases hfinished with
          | unreached =>
              obtain ⟨hparties, rfl⟩ := Prod.mk.inj hrun
              obtain ⟨rfl, rfl⟩ := Prod.mk.inj hparties
              exact ⟨hkept hstores, rfl, (fun heq => by cases heq),
                fun hall => absurd rfl (hanswered hall)⟩
          | refused hproof =>
              -- the server has taken the reset already
              obtain ⟨hparties, rfl⟩ := Prod.mk.inj hrun
              obtain ⟨rfl, rfl⟩ := Prod.mk.inj hparties
              exact ⟨hcleared (hstores.resolve_right hproof), rfl, fun _ => rfl, fun _ => rfl⟩
          | taken htaken =>
              have hstored : StoresCredentials K s.device.email
                  { user with
                    registrationRecord := K.register (deriveOpaquePassword K s.last.password
                      s.device.email) s.device.email random.opaqueRandom }
                  (pending.userKeys.keySet user.userId random.keySetId random.now) s.last := by
                rw [hkeys]
                exact stores_taken hK _ _ _ _ _ _ _
              cases result₁ with
              | ok _ =>
                  obtain ⟨hparties, rfl⟩ := Prod.mk.inj hrun
                  obtain ⟨rfl, rfl⟩ := Prod.mk.inj hparties
                  exact ⟨hcleared hstored, rfl, fun _ => rfl, fun _ => rfl⟩
              | error e =>
                  cases e with
                  | refused => exact absurd rfl htaken
                  | unreachable =>
                      obtain ⟨hparties, rfl⟩ := Prod.mk.inj hrun
                      obtain ⟨rfl, rfl⟩ := Prod.mk.inj hparties
                      exact ⟨hkept (Or.inl hstored), rfl, (fun heq => by cases heq),
                        fun hall => absurd rfl (hanswered hall)⟩

/-- What a login with the chosen password hands out. -/
theorem login_of_stores {server : AccountServer} {email : Text} {userId : UserId} {user : LoginUser}
    {active : KeySet} {c : Credentials}
    (haccount : HasAccount server.tables userId (server.hashEmail email) user active)
    (hstores : StoresCredentials K email user active c)
    (hverifier : c.userKeys.recoveryVerifier.isSome = true) :
    server.login K email (deriveOpaquePassword K c.password email) =
      some ⟨userId, c.userKeys.toPasswordKeys, some c.userKeys.wrap, server.vaultKeys,
        server.userKeyPair⟩ := by
  unfold AccountServer.login
  rw [haccount.byEmail, Option.bind_some, if_pos ((hstores.login _).2 rfl), haccount.userId_eq.1,
    haccount.activeKeySet?, Option.map_some, ← hstores.keys]
  rw [← hstores.keys] at hverifier
  rw [if_pos hverifier]

/-- **The login of a connect** where nothing is pending. -/
theorem RecoveryInv.attach (h : RecoveryInv C K J accountKey s)
    (hpending : s.device.pendingRecovery = none) (answers : ConnectAnswers) :
    RecoveryInv C K J accountKey { s with
      device := (attach K s.server s.device
        (deriveOpaquePassword K s.last.password s.device.email) answers).1 } ∧
    (attach K s.server s.device (deriveOpaquePassword K s.last.password s.device.email)
      answers).1.pendingRecovery = none := by
  obtain ⟨user, active, haccount, hok⟩ := h.account
  unfold PendingOk at hok
  rw [hpending] at hok
  obtain ⟨passwordRandom, recoveryRandom, hmade⟩ := h.made
  have hverifier : s.last.userKeys.recoveryVerifier.isSome = true := by
    rw [hmade]
    rfl
  have hlogin := login_of_stores haccount hok hverifier
  unfold Passmgr.attach
  split
  · exact ⟨h, hpending⟩
  · rw [hlogin]
    dsimp only
    rw [if_neg (fun hne => hne rfl)]
    refine ⟨⟨h.made, ⟨rfl, rfl, ?_⟩, user, active, haccount, hok⟩, rfl⟩
    have hopens := h.unlocks.opens
    rw [h.unlocks.keys] at hopens
    exact hopens

/-- **A connect** keeps the invariant; nothing is pending when all of it is answered. -/
theorem RecoveryInv.connect (hC : C.Ideal) (hK : K.Ideal) (hJ : J.Rereads)
    (h : RecoveryInv C K J accountKey s) {password : Text} {random : ConnectRandom}
    {answers : ConnectAnswers}
    (hrun : (RecoveryOp.connect password random answers).run C K J s = some s') :
    RecoveryInv C K J accountKey s' ∧
      (answers = .delivered → s'.device.pendingRecovery = none) := by
  obtain ⟨opened, hopens, hs'⟩ := Option.map_eq_some_iff.1 hrun
  obtain ⟨rfl, rfl⟩ := h.password_eq hC hK hopens
  subst hs'
  unfold attachPassword
  dsimp only
  cases hreset : Passmgr.finishPendingReset C K J s.server s.device opened
      (deriveOpaquePassword K s.last.password s.device.email) random answers with
  | mk parties result =>
      obtain ⟨server, device⟩ := parties
      obtain ⟨hinv, hemail, hnone, hall⟩ := h.finishPendingReset hC hK hJ hreset
      cases result with
      | error e =>
          refine ⟨hinv, fun hanswers => ?_⟩
          have hok := hall hanswers
          cases hok
      | ok _ =>
          have hattach := hinv.attach (hnone rfl) answers
          dsimp only at hattach ⊢
          rw [hemail] at hattach
          exact ⟨hattach.1, fun _ => hattach.2⟩

/-- **A careful step** keeps the invariant. -/
theorem RecoveryInv.step (hC : C.Ideal) (hK : K.Ideal) (hJ : J.Rereads)
    (h : RecoveryInv C K J accountKey s) (hstep : CarefulRecoveryStep C K J s s') :
    RecoveryInv C K J accountKey s' := by
  obtain ⟨op, hmeets, hrun⟩ := hstep
  cases op with
  | connect password random answers => exact (h.connect hC hK hJ hrun).1
  | reset recoveryKey newPassword random =>
      unfold RecoveryOp.run at hrun
      dsimp only at hrun
      cases hreset : recoverOnDevice C K J s.device recoveryKey newPassword random with
      | error e =>
          rw [hreset] at hrun
          obtain rfl := Option.some.inj hrun
          exact h
      | ok recovered =>
          rw [hreset] at hrun
          obtain rfl := Option.some.inj hrun
          exact h.reset hC hK hmeets hreset

end Invariant

/-- **A pending recovery converges** in every run, from a linked profile, whose resets find the
proof of the pending one current: nothing is dropped while server and device differ, and they agree
after a connect all of whose answers arrive. -/
theorem pending_recovery_converges {C : Ciphers Text} {K : KeyDerivation} {J : PendingJson}
    (hC : C.Ideal) (hK : K.Ideal) (hJ : J.Rereads) {accountKey : Text} {s₀ s : RecoveryState}
    (hlinked : s₀.Linked C K accountKey) (h : Run.Reaches (CarefulRecoveryStep C K J) s₀ s) :
    s.NothingDropped C K ∧ ∀ password random s',
      (RecoveryOp.connect password random .delivered).run C K J s = some s' →
        s'.device.pendingRecovery = none ∧ s'.Converged C K := by
  have hinv : RecoveryInv C K J accountKey s :=
    Run.invariant (fun _ _ hs hstep => hs.step hC hK hJ hstep) h hlinked.inv
  refine ⟨hinv.nothingDropped, fun password random s' hrun => ?_⟩
  obtain ⟨hinv', hnone⟩ := hinv.connect hC hK hJ hrun
  exact ⟨hnone rfl, hinv'.nothingDropped (hnone rfl)⟩

/-! ### One reset, and two of them -/

open IdealCipher (wordCiphers wordCiphers_ideal pack unpackFrom unpack_pack)

/-- Key derivations that spell out what they derive a key from. -/
def wordDerivation : KeyDerivation where
  argon2 password _ _ := password
  hkdf key info _ := info ++ key
  sha256 data := data
  register opaquePassword email random := String.ofList (pack [opaquePassword, email, random])
  accepts registrationRecord opaquePassword :=
    (unpackFrom [] registrationRecord.toList).head? = some opaquePassword

theorem wordDerivation_ideal : wordDerivation.Ideal where
  argon2_inj h := h
  hkdf_inj h := List.append_cancel_left h
  accepts_register p email random q := by
    simp [wordDerivation, unpack_pack]

/-- The text of a pending recovery: its fields. -/
def wordPending : PendingJson where
  stringify pending :=
    pack [pending.recoveryAuthKey, pending.userKeys.recoveryKekSalt.toList,
      pending.userKeys.encryptedAccountKeyRecovery.toList,
      pending.userKeys.accountKeyEncryptionNonceRecovery.toList,
      pending.userKeys.recoveryVerifier.elim [] fun verifier => 'v' :: verifier.toList,
      List.replicate pending.userKeys.passwordKekParams.t '1',
      List.replicate pending.userKeys.passwordKekParams.m '1',
      List.replicate pending.userKeys.passwordKekParams.p '1',
      pending.userKeys.passwordKekSalt.toList, pending.userKeys.encryptedAccountKey.toList,
      pending.userKeys.accountKeyEncryptionNonce.toList]
  parse text :=
    match unpackFrom [] text with
    | [proof, salt, wrap, nonce, verifier, t, m, p, salt', wrap', nonce'] => some {
        recoveryAuthKey := proof
        userKeys := {
          recoveryKekSalt := String.ofList salt
          encryptedAccountKeyRecovery := String.ofList wrap
          accountKeyEncryptionNonceRecovery := String.ofList nonce
          recoveryVerifier := verifier.head?.map fun _ => String.ofList verifier.tail
          passwordKekParams := ⟨t.length, m.length, p.length⟩
          passwordKekSalt := String.ofList salt'
          encryptedAccountKey := String.ofList wrap'
          accountKeyEncryptionNonce := String.ofList nonce' } }
    | _ => none

theorem wordPending_rereads : wordPending.Rereads := by
  intro pending
  obtain ⟨proof, ⟨⟨salt, wrap, nonce, verifier⟩, ⟨⟨t, m, p⟩, salt', wrap', nonce'⟩⟩⟩ := pending
  cases verifier <;> simp [wordPending, unpack_pack]

/-- The key set of a password and a recovery key, for the account key `a`. -/
def wordUserKeys (password recoveryKey : Text) : UserKeys :=
  generateUserKeys wordCiphers wordDerivation password ['a'] ⟨⟨3, 64, 4⟩, ['s'], ['n']⟩
    ⟨recoveryKey, ['t'], ['m']⟩

/-- A linked profile after its login with the password `p`; its recovery key is `k`. -/
def linkedState : RecoveryState where
  server := {
    hashEmail := String.ofList
    tables := {
      users := [⟨7, "e", wordDerivation.register (deriveOpaquePassword wordDerivation ['p'] ['e'])
        ['e'] ['r'], none⟩]
      keys := [(wordUserKeys ['p'] ['k']).keySet 7 "0" 0] }
    recoveries := fun _ => none
    userKeyPair := ⟨1, ['q'], [], []⟩
    vaultKeys := [] }
  device := {
    email := ['e']
    userId := 7
    material := { toPasswordKeys := (wordUserKeys ['p'] ['k']).toPasswordKeys
                  userKeyPair := ⟨1, ['q'], [], []⟩ }
    recoveryWrap := some (wordUserKeys ['p'] ['k']).wrap
    vaults := [⟨1, 1, (wrapVaultKey wordCiphers ['w'] ['a'] ['v'] 1 1).wrap, .owner, .personal, [], [],
      []⟩]
    pendingRecovery := none }
  last := ⟨['p'], wordUserKeys ['p'] ['k']⟩

theorem linkedState_linked : linkedState.Linked wordCiphers wordDerivation ['a'] where
  made := ⟨_, _, rfl⟩
  converged := by
    refine ⟨⟨_, _, ⟨by rfl, by rfl, by rfl, rfl⟩, ?_⟩, rfl, rfl, ?_⟩
    · exact stores_taken wordDerivation_ideal ['e'] ['r']
        ⟨7, "e", "", none⟩ 7 "0" 0 ⟨['p'], wordUserKeys ['p'] ['k']⟩
    · exact Option.isSome_iff_exists.2 ⟨['a'],
        (openPasswordWrap_eq_some wordCiphers_ideal wordDerivation_ideal).2 ⟨rfl, rfl⟩⟩
  pending := rfl

/-- The state after a step. -/
def RecoveryOp.after (op : RecoveryOp) (s : RecoveryState) : RecoveryState :=
  (op.run wordCiphers wordDerivation wordPending s).getD s

theorem RecoveryOp.run_after {op : RecoveryOp} {s : RecoveryState}
    (h : (op.run wordCiphers wordDerivation wordPending s).isSome = true) :
    op.run wordCiphers wordDerivation wordPending s = some (op.after s) := by
  obtain ⟨s', hs'⟩ := Option.isSome_iff_exists.1 h
  rw [hs', RecoveryOp.after, hs']
  rfl

/-- A reset with the recovery key `k`, to the password `x`; the new recovery key is `l`. -/
def firstReset : RecoveryOp :=
  .reset ['k'] ['x'] ⟨⟨⟨3, 64, 4⟩, ['s'], ['n']⟩, ⟨['l'], ['t'], ['m']⟩, ['o']⟩

/-- A connect whose recovery is taken; its answer is lost. -/
def lostConnect : RecoveryOp := .connect ['x'] ⟨"1", ['r'], "1", 1⟩ ⟨.delivered, .lost, .delivered⟩

/-- A reset with the recovery key `l`, to the password `y`. -/
def secondReset : RecoveryOp :=
  .reset ['l'] ['y'] ⟨⟨⟨3, 64, 4⟩, ['s'], ['n']⟩, ⟨['z'], ['t'], ['m']⟩, ['o']⟩

/-- The connects that follow, all of whose answers arrive. -/
def firstConnect : RecoveryOp := .connect ['x'] ⟨"2", ['r'], "2", 2⟩ .delivered

def secondConnect : RecoveryOp := .connect ['y'] ⟨"2", ['r'], "2", 2⟩ .delivered

/-- The device after a reset whose connect got no answer. -/
def unansweredState : RecoveryState := lostConnect.after (firstReset.after linkedState)

/-- The device after the second reset. -/
def twiceResetState : RecoveryState := secondReset.after unansweredState

/-- The steps run, the connect without an answer leaves the password `x`, and after the last one the
server stores other keys than the ones chosen last. -/
theorem runs_facts :
    (firstReset.run wordCiphers wordDerivation wordPending linkedState).isSome = true ∧
    (lostConnect.run wordCiphers wordDerivation wordPending
      (firstReset.after linkedState)).isSome = true ∧
    (openPasswordWrap wordCiphers wordDerivation ['x']
      unansweredState.device.material.toPasswordKeys).isSome = true ∧
    (secondReset.run wordCiphers wordDerivation wordPending unansweredState).isSome = true ∧
    (secondConnect.run wordCiphers wordDerivation wordPending twiceResetState).isSome = true ∧
    (secondConnect.after twiceResetState).device.pendingRecovery = none ∧
    ((secondConnect.after twiceResetState).server.tables.activeKeySet?
      (secondConnect.after twiceResetState).device.userId).map (·.toUserKeys) ≠
        some (secondConnect.after twiceResetState).last.userKeys := by
  decide +kernel

/-- The reset whose connect got no answer converges with the next connect. -/
theorem pending_recovery_converges_unanswered :
    (firstConnect.after unansweredState).device.pendingRecovery = none ∧
      (firstConnect.after unansweredState).Converged wordCiphers wordDerivation := by
  have hproof : firstReset.Meets wordCiphers wordDerivation wordPending linkedState := by
    intro sealed hsealed
    cases hsealed
  obtain ⟨hreset, hconnect, hopens, -, -, -, -⟩ := runs_facts
  have h := Relation.ReflTransGen.single (r := CarefulRecoveryStep wordCiphers wordDerivation
    wordPending) ⟨firstReset, hproof, RecoveryOp.run_after hreset⟩
  have h := h.tail ⟨lostConnect, trivial, RecoveryOp.run_after hconnect⟩
  have hrun : (firstConnect.run wordCiphers wordDerivation wordPending unansweredState).isSome =
      true := by
    unfold firstConnect RecoveryOp.run
    rw [Option.isSome_map]
    exact hopens
  exact (pending_recovery_converges wordCiphers_ideal wordDerivation_ideal wordPending_rereads
    linkedState_linked h).2 _ _ _ (RecoveryOp.run_after hrun)

/-- **A reset is dropped**: the one before got no answer, though the server took it.  The proof kept
with the second one is of the recovery key before the first, so the server refuses it, and the
connect ends it; the server stays with the password `x`, the device with `y`. -/
theorem reset_dropped : ∃ s, Run.Reaches (RecoveryStep wordCiphers wordDerivation wordPending)
      linkedState s ∧
    secondConnect.run wordCiphers wordDerivation wordPending s = some (secondConnect.after s) ∧
    (secondConnect.after s).device.pendingRecovery = none ∧
    ¬ (secondConnect.after s).Converged wordCiphers wordDerivation := by
  obtain ⟨hfirst, hlost, -, hagain, hlast, hnone, hother⟩ := runs_facts
  have h := Relation.ReflTransGen.single (r := RecoveryStep wordCiphers wordDerivation
    wordPending) ⟨firstReset, RecoveryOp.run_after hfirst⟩
  have h := h.tail ⟨lostConnect, RecoveryOp.run_after hlost⟩
  have h := h.tail ⟨secondReset, RecoveryOp.run_after hagain⟩
  refine ⟨twiceResetState, h, RecoveryOp.run_after hlast, hnone, ?_⟩
  rintro ⟨⟨user, active, haccount, hstores⟩, -⟩
  refine hother ?_
  rw [haccount.activeKeySet?, ← hstores.keys]
  rfl

end Passmgr
