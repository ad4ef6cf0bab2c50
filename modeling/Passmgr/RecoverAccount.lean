/-
# A recovery through the server

`recoverAccount` of `packages/client/src/recover.ts` and the part of `recover` of
`hooks/use-recovery.ts` that follows it, with the requests `startRecovery` and `finishRecovery` of
`apps/server/src/auth/recovery-router.ts`.  The new recovery key exists on the device only, and
any error of the request that switches the server to it wipes it: also where the answer of a
request that was carried out is lost, or is an error of the steps after the switch.

A recovery key is its bytes here; an attempt that expires is a request that isn't reached.

Main definitions:

* `RequestOutcome`, `RecoverOutcomes` — what becomes of the requests of a call;
* `recoverAccount`, `recover` — a call, and what the user is shown of it;
* `RecoverUser`, `RecoverStep` — the server and the keys the user knows, call by call;
* `RecoverCall.Answered` — the server's switch is answered, and the key shown.

Main results:

* `recoverAccount_cases` — a call leaves the key set as it was, or switches it to the new key;
* `recoverAccount_knows_key` — the user always knows the recovery key in runs that are answered;
* `recoverAccount_strands` — and not where one answer is lost.
-/

import Passmgr.RecoveryConverges

set_option relaxedAutoImplicit false
set_option autoImplicit false

namespace Passmgr

open IdealCipher (Ciphers)

/-! ### A call -/

/-- What becomes of a request. -/
inductive RequestOutcome
  | answered
  /-- Refused by a rate limit, before anything is done. -/
  | throttled
  /-- It doesn't reach the server, or fails there before anything is done. -/
  | unreached
  /-- It is carried out; its answer is lost, unreadable, or an error of what follows it. -/
  | lost
  deriving DecidableEq, Repr

/-- The outcomes of a call's requests, and whether the clean-up of the device after it succeeds. -/
structure RecoverOutcomes where
  startRecovery : RequestOutcome
  finishRecovery : RequestOutcome
  cleanup : Bool
  deriving DecidableEq, Repr

/-- What the client and the server draw during a call, and its time. -/
structure RecoverRandom where
  password : PasswordRandom
  recovery : RecoveryRandom
  attemptId : AttemptId
  opaqueRandom : Text
  keySetId : String
  now : Time
  deriving DecidableEq, Repr

/-- The errors of `recoverAccount`. -/
inductive RecoverAccountError
  | invalidKey
  | throttled
  | failed
  deriving DecidableEq, Repr

/-- `RECOVERY_KEY_BYTES`. -/
def recoveryKeyBytes : ℕ := 32

/-- The recovery wrap `startRecovery` hands out: that of the active key set. -/
def AccountServer.recoveryWrap (server : AccountServer) (email : Text) : Option RecoveryWrap :=
  (server.tables.userByEmail (server.hashEmail email)).bind fun user =>
    (server.tables.activeKeySet? user.userId).map fun keys => keys.wrap

section Call

variable (C : Ciphers Text) (K : KeyDerivation)

/-- `recoverAccount` with the account key in hand: the request `finishRecovery`, and the new
recovery key where it is answered. -/
def recoverWithAccountKey (server : AccountServer) (email newPassword accountKey : Text)
    (random : RecoverRandom) (outcome : RequestOutcome) :
    AccountServer × Except RecoverAccountError Text :=
  let registrationRecord :=
    K.register (deriveOpaquePassword K newPassword email) email random.opaqueRandom
  let userKeys := generateUserKeys C K newPassword accountKey random.password random.recovery
  let (switched, finished) := server.finishRecovery email random.attemptId registrationRecord
    userKeys random.keySetId random.now
  match outcome with
  | .answered =>
    if finished then (switched, .ok random.recovery.recoveryKey) else (switched, .error .failed)
  | .lost => (switched, .error .failed)
  | .throttled => (server, .error .throttled)
  | .unreached => (server, .error .failed)

/-- `recoverAccount`. -/
def recoverAccount (server : AccountServer) (email recoveryKey newPassword : Text)
    (random : RecoverRandom) (outcomes : RecoverOutcomes) :
    AccountServer × Except RecoverAccountError Text :=
  if recoveryKey.length ≠ recoveryKeyBytes then (server, .error .invalidKey)
  else
    let (started, accepted) := server.startRecovery K email (deriveRecoveryAuthKey K recoveryKey)
      random.attemptId
    match outcomes.startRecovery with
    | .throttled => (server, .error .throttled)
    | .unreached => (server, .error .failed)
    | .lost => (started, .error .failed)
    | .answered =>
      if !accepted then (started, .error .failed)
      else
        match (server.recoveryWrap email).bind
          (unwrapAccountKeyWithRecoveryKey C K recoveryKey) with
        | none => (started, .error .failed)
        | some accountKey =>
          recoverWithAccountKey C K started email newPassword accountKey random
            outcomes.finishRecovery

/-- `recover` where the device can't do the reset itself: the key it returns, to be shown.  Where the
clean-up fails the key is lost. -/
def recover (server : AccountServer) (email recoveryKey newPassword : Text)
    (random : RecoverRandom) (outcomes : RecoverOutcomes) : AccountServer × Option Text :=
  match recoverAccount C K server email recoveryKey newPassword random outcomes with
  | (server, .error _) => (server, none)
  | (server, .ok newRecoveryKey) =>
    (server, if outcomes.cleanup then some newRecoveryKey else none)

/-! ### Calls one after the other -/

/-- The server, and the recovery keys the user has typed in or was shown. -/
structure RecoverUser where
  server : AccountServer
  known : List Text

/-- A call with what the user types in. -/
structure RecoverCall where
  recoveryKey : Text
  newPassword : Text
  random : RecoverRandom
  outcomes : RecoverOutcomes

/-- The state after a call.  One that still waits for an answer is one whose answer is lost. -/
def RecoverCall.run (call : RecoverCall) (email : Text) (s : RecoverUser) : RecoverUser :=
  let (server, shown) := recover C K s.server email call.recoveryKey call.newPassword call.random
    call.outcomes
  { server := server
    known := s.known ++ shown.toList }

/-- A call with a key the user knows. -/
def RecoverStep (email : Text) (s s' : RecoverUser) : Prop :=
  ∃ call : RecoverCall, call.recoveryKey ∈ s.known ∧ call.run C K email s = s'

/-- The server knows the verifier of the key, and the key opens the wrap. -/
structure RecoversWith (active : KeySet) (recoveryKey : Text) : Prop where
  verifier : active.recoveryVerifier =
    some (hashRecoveryAuthKey K (deriveRecoveryAuthKey K recoveryKey))
  opens : unwrapAccountKeyWithRecoveryKey C K recoveryKey active.wrap ≠ none

/-- The account, and that the user knows the key of its active key set. -/
def RecoverUser.KnowsKey (email : Text) (userId : UserId) (s : RecoverUser) : Prop :=
  ∃ user active, HasAccount s.server.tables userId (s.server.hashEmail email) user active ∧
    ∃ recoveryKey ∈ s.known, RecoversWith C K active recoveryKey

/-- The request that switches the server is sent: the key is well formed, the server knows its
verifier and says so, and it opens the wrap. -/
def RecoverCall.Switches (call : RecoverCall) (email : Text) (s : RecoverUser) : Prop :=
  call.recoveryKey.length = recoveryKeyBytes ∧ call.outcomes.startRecovery = .answered ∧
    (startRecovery s.server.tables (s.server.hashEmail email)
      (hashRecoveryAuthKey K (deriveRecoveryAuthKey K call.recoveryKey))).isSome = true ∧
    (s.server.recoveryWrap email).bind (unwrapAccountKeyWithRecoveryKey C K call.recoveryKey) ≠ none

/-- Where it is sent, it isn't carried out without an answer, and the clean-up after the answer
succeeds. -/
def RecoverCall.Answered (call : RecoverCall) (email : Text) (s : RecoverUser) : Prop :=
  call.Switches C K email s → call.outcomes.finishRecovery ≠ .lost ∧
    (call.outcomes.finishRecovery = .answered → call.outcomes.cleanup = true)

/-- A call that is answered. -/
def AnsweredRecoverStep (email : Text) (s s' : RecoverUser) : Prop :=
  ∃ call : RecoverCall, call.recoveryKey ∈ s.known ∧ call.Answered C K email s ∧
    call.run C K email s = s'

end Call

/-! ### What a call does -/

section Cases

variable {C : Ciphers Text} {K : KeyDerivation} {server : AccountServer} {email : Text}
  {userId : UserId} {user : LoginUser} {active : KeySet}

theorem recoveryWrap_eq
    (h : HasAccount server.tables userId (server.hashEmail email) user active) :
    server.recoveryWrap email = some active.wrap := by
  unfold AccountServer.recoveryWrap
  rw [h.byEmail, Option.bind_some, h.userId_eq.1, h.activeKeySet?]
  rfl

/-- The new recovery key opens the wrap made with it, and the server gets its verifier. -/
theorem recoversWith_generated (hC : C.Correct) (newPassword accountKey : Text)
    (passwordRandom : PasswordRandom) (recoveryRandom : RecoveryRandom) (keySetId : String)
    (now : Time) :
    RecoversWith C K
      ((generateUserKeys C K newPassword accountKey passwordRandom recoveryRandom).keySet userId
        keySetId now) recoveryRandom.recoveryKey where
  verifier := rfl
  opens := by
    have hopens : unwrapAccountKeyWithRecoveryKey C K recoveryRandom.recoveryKey
        (generateRecoveryKeys C K recoveryRandom accountKey).wrap = some accountKey := by
      unfold unwrapAccountKeyWithRecoveryKey generateRecoveryKeys RecoveryKeys.wrap
      simp only [String.toList_ofList]
      exact hC.decrypt_encrypt _ _ _ _
    exact fun hnone => by cases hopens.symm.trans hnone

/-- What a call comes to: the account keeps its key set, or it has the one made with the new
recovery key, which is shown where the request is answered and the clean-up succeeds. -/
inductive RecoverResult (C : Ciphers Text) (K : KeyDerivation) (call : RecoverCall)
    (email : Text) (s : RecoverUser) (active : KeySet) (userId : UserId) :
    KeySet → Option Text → Prop
  | kept : RecoverResult C K call email s active userId active none
  | switched (accountKey : Text) (shown : Option Text) (hswitches : call.Switches C K email s)
      (hshown : call.outcomes.finishRecovery = .lost ∨
        call.outcomes.finishRecovery = .answered ∧
          (call.outcomes.cleanup = true → shown = some call.random.recovery.recoveryKey)) :
      RecoverResult C K call email s active userId
        ((generateUserKeys C K call.newPassword accountKey call.random.password
          call.random.recovery).keySet userId call.random.keySetId call.random.now) shown

/-- The request `finishRecovery` of a recovery that was started with the active key set. -/
theorem recoverWithAccountKey_eq
    (h : HasAccount server.tables userId (server.hashEmail email) user active)
    {random : RecoverRandom} (hattempt : server.recoveries random.attemptId =
      some ⟨userId, server.hashEmail email, active.keySetId⟩) (newPassword accountKey : Text)
    (outcome : RequestOutcome) :
    ∃ switched : AccountServer, switched.hashEmail = server.hashEmail ∧
      (∃ user', HasAccount switched.tables userId (server.hashEmail email) user'
        ((generateUserKeys C K newPassword accountKey random.password random.recovery).keySet userId
          random.keySetId random.now)) ∧
      recoverWithAccountKey C K server email newPassword accountKey random outcome =
        match outcome with
        | .answered => (switched, .ok random.recovery.recoveryKey)
        | .lost => (switched, .error .failed)
        | .throttled => (server, .error .throttled)
        | .unreached => (server, .error .failed) := by
  obtain ⟨tables', hfinish, haccount⟩ := finishRecovery_started h hattempt
    (K.register (deriveOpaquePassword K newPassword email) email random.opaqueRandom)
    random.keySetId (generateUserKeys C K newPassword accountKey random.password random.recovery)
    random.now
  refine ⟨{ server with
    recoveries := Function.update server.recoveries random.attemptId none
    tables := tables' }, rfl, ⟨_, haccount⟩, ?_⟩
  unfold recoverWithAccountKey
  dsimp only
  rw [hfinish]
  cases outcome <;> rfl

/-- **A call leaves the key set as it was, or switches it to the new key.** -/
theorem recover_cases (call : RecoverCall) {s : RecoverUser}
    (h : HasAccount s.server.tables userId (s.server.hashEmail email) user active) :
    ∃ user' active' server' shown,
      recover C K s.server email call.recoveryKey call.newPassword call.random call.outcomes =
        (server', shown) ∧
      HasAccount server'.tables userId (server'.hashEmail email) user' active' ∧
      RecoverResult C K call email s active userId active' shown := by
  unfold recover recoverAccount
  by_cases hlength : call.recoveryKey.length ≠ recoveryKeyBytes
  · rw [if_pos hlength]
    exact ⟨user, active, s.server, none, rfl, h, .kept⟩
  · rw [if_neg hlength]
    by_cases hproof : active.recoveryVerifier =
        some (hashRecoveryAuthKey K (deriveRecoveryAuthKey K call.recoveryKey))
    · rw [startRecovery_accepted h hproof, recoveryWrap_eq h, Option.bind_some]
      dsimp only
      cases hstart : call.outcomes.startRecovery with
      | throttled => exact ⟨user, active, s.server, none, rfl, h, .kept⟩
      | unreached => exact ⟨user, active, s.server, none, rfl, h, .kept⟩
      | lost => exact ⟨user, active, _, none, rfl, h, .kept⟩
      | answered =>
          dsimp only
          rw [if_neg (by decide : ¬ (!true) = true)]
          cases hopens : unwrapAccountKeyWithRecoveryKey C K call.recoveryKey active.wrap with
          | none => exact ⟨user, active, _, none, rfl, h, .kept⟩
          | some accountKey =>
              have hswitches : call.Switches C K email s := by
                refine ⟨not_not.1 hlength, hstart, ?_, ?_⟩
                · rw [startRecovery_eq h, if_pos hproof]
                  rfl
                · rw [recoveryWrap_eq h, Option.bind_some, hopens]
                  nofun
              obtain ⟨switched, hhash, ⟨user', haccount⟩, hfinish⟩ :=
                @recoverWithAccountKey_eq C K
                  { s.server with
                    recoveries := Function.update s.server.recoveries call.random.attemptId
                      (some ⟨userId, s.server.hashEmail email, active.keySetId⟩) }
                  email userId user active h call.random (Function.update_self ..)
                  call.newPassword accountKey call.outcomes.finishRecovery
              dsimp only at hhash haccount ⊢
              rw [hfinish]
              rw [← hhash] at haccount
              cases houtcome : call.outcomes.finishRecovery with
              | throttled => exact ⟨user, active, _, none, rfl, h, .kept⟩
              | unreached => exact ⟨user, active, _, none, rfl, h, .kept⟩
              | lost =>
                  exact ⟨user', _, switched, none, rfl, haccount,
                    .switched accountKey none hswitches (Or.inl houtcome)⟩
              | answered =>
                  refine ⟨user', _, switched, _, rfl, haccount,
                    .switched accountKey _ hswitches (Or.inr ⟨houtcome, fun hclean => ?_⟩)⟩
                  rw [if_pos hclean]
    · rw [startRecovery_refused h hproof]
      dsimp only
      cases call.outcomes.startRecovery with
      | throttled => exact ⟨user, active, s.server, none, rfl, h, .kept⟩
      | unreached => exact ⟨user, active, s.server, none, rfl, h, .kept⟩
      | lost => exact ⟨user, active, s.server, none, rfl, h, .kept⟩
      | answered => exact ⟨user, active, s.server, none, rfl, h, .kept⟩

/-- A call that is answered leaves the user with the key of the active key set. -/
theorem RecoverUser.KnowsKey.step (hC : C.Correct) {s s' : RecoverUser}
    (h : s.KnowsKey C K email userId) (hstep : AnsweredRecoverStep C K email s s') :
    s'.KnowsKey C K email userId := by
  obtain ⟨user, active, haccount, key, hknown, hkey⟩ := h
  obtain ⟨call, -, hanswered, rfl⟩ := hstep
  obtain ⟨user', active', server', shown, hrun, haccount', hresult⟩ :=
    recover_cases (C := C) (K := K) call haccount
  unfold RecoverCall.run
  rw [hrun]
  refine ⟨user', active', haccount', ?_⟩
  cases hresult with
  | kept => exact ⟨key, List.mem_append_left _ hknown, hkey⟩
  | switched accountKey shown hswitches hshown =>
      obtain ⟨hlost, hclean⟩ := hanswered hswitches
      obtain ⟨houtcome, hshown⟩ := hshown.resolve_left hlost
      obtain rfl := hshown (hclean houtcome)
      exact ⟨_, List.mem_append_right _ (List.mem_singleton_self _),
        recoversWith_generated hC call.newPassword accountKey call.random.password
          call.random.recovery call.random.keySetId call.random.now⟩

end Cases

/-- **Recovery never strands the user whose calls are answered**: from an account whose recovery key
the user knows, in every run of calls where none is carried out without its answer, the user knows
the recovery key of the active key set. -/
theorem recoverAccount_knows_key {C : Ciphers Text} {K : KeyDerivation} (hC : C.Correct)
    {email : Text} {userId : UserId} {s₀ s : RecoverUser} (hstart : s₀.KnowsKey C K email userId)
    (h : Run.Reaches (AnsweredRecoverStep C K email) s₀ s) : s.KnowsKey C K email userId :=
  Run.invariant (fun _ _ hs hstep => hs.step hC hstep) h hstart

/-! ### An answer that is lost -/

open IdealCipher (wordCiphers wordCiphers_ideal)

/-- A recovery key of 32 bytes. -/
def keyOf (c : Char) : Text := List.replicate 32 c

/-- A registered account with the password `p` and the recovery key of `k`. -/
def registeredUser : RecoverUser where
  server := { linkedState.server with
    tables := { linkedState.server.tables with
      keys := [(wordUserKeys ['p'] (keyOf 'k')).keySet 7 "0" 0] } }
  known := [keyOf 'k']

/-- A call for the password `x`; the new recovery key is that of `l`. -/
def recoverCall (finishRecovery : RequestOutcome) : RecoverCall where
  recoveryKey := keyOf 'k'
  newPassword := ['x']
  random := ⟨⟨⟨3, 64, 4⟩, ['s'], ['n']⟩, ⟨keyOf 'l', ['t'], ['m']⟩, "1", ['r'], "1", 1⟩
  outcomes := ⟨.answered, finishRecovery, true⟩

theorem registeredUser_knowsKey :
    registeredUser.KnowsKey wordCiphers wordDerivation ['e'] 7 := by
  refine ⟨_, _, ⟨by rfl, by rfl, by rfl, rfl⟩, keyOf 'k', List.mem_singleton_self _, ?_⟩
  exact recoversWith_generated wordCiphers_ideal.toCorrect ['p'] ['a'] ⟨⟨3, 64, 4⟩, ['s'], ['n']⟩
    ⟨keyOf 'k', ['t'], ['m']⟩ "0" 0

/-- One call, all of whose requests are answered. -/
theorem recoverAccount_knows_key_once :
    ((recoverCall .answered).run wordCiphers wordDerivation ['e'] registeredUser).KnowsKey
      wordCiphers wordDerivation ['e'] 7 :=
  recoverAccount_knows_key wordCiphers_ideal.toCorrect registeredUser_knowsKey
    (.single ⟨recoverCall .answered, List.mem_singleton_self _, fun _ => ⟨nofun, fun _ => rfl⟩,
      rfl⟩)

/-- **A lost answer strands the user**: the server has switched to the new recovery key, which the
client wipes; the one the user knows opens nothing any more. -/
theorem recoverAccount_strands : ∃ s, Run.Reaches (RecoverStep wordCiphers wordDerivation ['e'])
      registeredUser s ∧
    registeredUser.KnowsKey wordCiphers wordDerivation ['e'] 7 ∧
    ¬ s.KnowsKey wordCiphers wordDerivation ['e'] 7 := by
  refine ⟨(recoverCall .lost).run wordCiphers wordDerivation ['e'] registeredUser,
    .single ⟨recoverCall .lost, List.mem_singleton_self _, rfl⟩, registeredUser_knowsKey, ?_⟩
  have hknown : ((recoverCall .lost).run wordCiphers wordDerivation ['e'] registeredUser).known =
      [keyOf 'k'] := by
    decide +kernel
  have hwrap : (((recoverCall .lost).run wordCiphers wordDerivation ['e']
      registeredUser).server.tables.activeKeySet? 7).map (fun keys =>
        unwrapAccountKeyWithRecoveryKey wordCiphers wordDerivation (keyOf 'k') keys.wrap) =
      some none := by
    decide +kernel
  rintro ⟨user, active, haccount, key, hmem, hkey⟩
  rw [hknown, List.mem_singleton] at hmem
  subst hmem
  rw [haccount.activeKeySet?] at hwrap
  exact hkey.opens (Option.some.inj hwrap)

end Passmgr
