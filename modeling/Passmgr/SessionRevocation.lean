/-
# Revoking the sessions of a user

`revokeUserSessions` writes a cut-off and ends the sessions it listed; `getSession` refuses a
session authenticated at or before the cut-off, and a login that started at or before it is denied.
A login checks the cut-off, loads its keys, and only then reads the clock its session is
authenticated at: where the cut-off is taken in between, the session of a login that started
before it is authenticated after it.

Main definitions:

* `RevocationFinal` — after a revocation no session of an earlier login is read;
* `StampedInTime` — a session is stamped before a cut-off at or after its login's start is taken.

Main results:

* `revocation_final` — so it is in every run whose sessions are stamped in time;
* `session_after_revocation` — a login that checks before the cut-off and stamps after it.
-/

import Passmgr.LoginCalls

set_option relaxedAutoImplicit false
set_option autoImplicit false

namespace Passmgr

open Expiring

/-! ### The property and the condition -/

/-- A session that is read after a revocation of its user was done is of a login that started after
the revocation began. -/
def RevocationFinal (s : LoginServer) : Prop :=
  s.trace.Pairwise fun l l' => ∀ userId startedAt sessionId,
    l.event = .revoked userId startedAt → l'.event = .sessionRead sessionId →
      ∀ c ∈ s.trace, ∀ loginStartedAt challengeId,
        c.event = .sessionCreated sessionId userId loginStartedAt challengeId →
          startedAt < loginStartedAt

/-- The moment a session is stamped, no cut-off of its user at or after the login's start lies in
the past; and no cut-off is written over a newer one. -/
def StampedInTime (s : LoginServer) : LoginCall → Prop
  | .stampSession finished => ∀ l ∈ s.trace, l.event = .cutOff finished.login.userId →
      finished.login.startedAt ≤ l.time → s.clock ≤ l.time
  | .setEpoch userId _ _ _ epoch => ∀ l ∈ s.trace, l.event = .cutOff userId → l.time ≤ epoch
  | _ => True

instance (s : LoginServer) (call : LoginCall) : Decidable (StampedInTime s call) := by
  unfold StampedInTime
  split <;> infer_instance

/-- One step of a run whose sessions are stamped in time. -/
abbrev StampedStep (P : LoginPlatform) : LoginState → LoginState → Prop :=
  LoginStep P LoginCall.Begins StampedInTime

/-! ### What the commands do to sessions -/

/-- The events about sessions. -/
def LoginEvent.isSession : LoginEvent → Bool
  | .sessionCreated .. | .sessionRead .. | .cutOff .. | .revoked .. => true
  | _ => false

/-- The commands that read or write sessions, or the clock for one. -/
def LoginCall.isSession : LoginCall → Bool
  | .stampSession .. | .setSession .. | .getSession .. | .readEpoch .. | .dropSession ..
  | .revokeUserSessions .. | .stampEpoch .. | .setEpoch .. | .signOutSessions ..
  | .endExcepted .. => true
  | _ => false

/-- A command that leaves the sessions alone. -/
structure Ran.Quiet (redis : LoginRedis) (ran : Ran) : Prop where
  redis : ran.redis.toRedis = redis.toRedis
  events : ∀ event ∈ ran.events, event.isSession = false
  rest : ∀ call, ran.rest = some call → call.isSession = false ∨ ∃ f, call = .stampSession f

section Quiet

variable {redis redis' : LoginRedis} {db : LoginDb} {events : List LoginEvent}

theorem quiet_answer (hredis : redis'.toRedis = redis.toRedis)
    (hev : ∀ event ∈ events, event.isSession = false) (answer : LoginAnswer) :
    (Ran.answer redis' db events answer).Quiet redis where
  redis := hredis
  events event hevent := by
    rcases List.mem_append.1 hevent with h | h
    · exact hev event h
    · rw [List.mem_singleton.1 h]
      rfl
  rest call hcall := by cases hcall

theorem quiet_next (hredis : redis'.toRedis = redis.toRedis)
    (hev : ∀ event ∈ events, event.isSession = false) {call : LoginCall}
    (hcall : call.isSession = false ∨ ∃ f, call = .stampSession f) :
    (Ran.next redis' db events call).Quiet redis where
  redis := hredis
  events := hev
  rest call' hcall' := by
    obtain rfl := Option.some.inj hcall'
    exact hcall

theorem finishWith_quiet (finished : FinishedLogin) :
    (finishWith finished).isSession = false ∨ ∃ f, finishWith finished = .stampSession f := by
  unfold finishWith
  split
  · exact Or.inr ⟨finished, rfl⟩
  · exact Or.inl rfl

/-- A command before the second factor. -/
theorem Ran.Opens.quiet {ran : Ran} (h : ran.Opens redis db) : ran.Quiet redis where
  redis := h.sessions
  events event hevent := by
    have hopening := h.events event hevent
    cases event <;> first | rfl | cases hopening
  rest call hcall := by
    rcases h.rest call hcall with hopening | ⟨_, rfl⟩ | ⟨_, rfl⟩ | ⟨_, rfl⟩
    · left
      cases call <;> first | rfl | cases hopening
    · exact Or.inl rfl
    · exact Or.inl rfl
    · exact Or.inl rfl

end Quiet

theorem toRedis_countSecondFactorAttempt (redis : LoginRedis) (now : Time)
    (challengeId : ChallengeId) :
    (redis.countSecondFactorAttempt now challengeId).2.toRedis = redis.toRedis := by
  unfold LoginRedis.countSecondFactorAttempt
  split
  · split <;> rfl
  · rfl

/-- The commands of a login before it is finished leave the sessions alone. -/
theorem quiet_run (P : LoginPlatform) (fresh : String) (now : Time) (redis : LoginRedis)
    (db : LoginDb) {call : LoginCall} (h : call.isSession = false) :
    (call.run P fresh now redis db).Quiet redis := by
  have hnil : ∀ event ∈ ([] : List LoginEvent), event.isSession = false := by simp
  cases call with
  | stampSession | setSession | getSession | readEpoch | dropSession | revokeUserSessions
  | stampEpoch | setEpoch | signOutSessions | endExcepted => cases h
  | startLogin | countLoginStart | setLoginLock | stampStart | readRegistration | setLoginAttempt
  | finishLogin | readLoginUser | checkRevoked | completeLogin =>
      exact (opening_run P fresh now redis db rfl).quiet
  | setSecondFactorChallenge login => exact quiet_answer (by rfl) hnil _
  | loginKeys login =>
      simp only [LoginCall.run]
      split
      · exact quiet_answer (by rfl) hnil _
      · exact quiet_next (by rfl) hnil (finishWith_quiet _)
  | resetLoginThrottle finished => exact quiet_next (by rfl) hnil (Or.inr ⟨finished, rfl⟩)
  | verifySecondFactor challengeId code =>
      simp only [LoginCall.run]
      split
      · exact quiet_answer (by rfl) hnil _
      · exact quiet_next (by rfl) hnil (Or.inl rfl)
  | readChallengeLock check =>
      simp only [LoginCall.run]
      split
      · exact quiet_answer (by rfl) hnil _
      · exact quiet_next (by rfl) hnil (Or.inl rfl)
  | countAttempt check =>
      have hredis := toRedis_countSecondFactorAttempt redis now check.challengeId
      simp only [LoginCall.run]
      split
      · next heq =>
          rw [heq] at hredis
          exact quiet_next hredis hnil (Or.inl rfl)
      · next heq =>
          rw [heq] at hredis
          refine quiet_next hredis (by simp [LoginEvent.isSession]) ?_
          split <;> exact Or.inl rfl
  | burnChallenge challengeId => exact quiet_answer (by rfl) hnil _
  | checkChallengeRevoked check attempts =>
      simp only [LoginCall.run]
      split
      · exact quiet_next (by rfl) hnil (Or.inl rfl)
      · exact quiet_next (by rfl) hnil (Or.inl rfl)
  | loadChallengeKeys check attempts =>
      simp only [LoginCall.run]
      split
      · exact quiet_answer (by rfl) hnil _
      · exact quiet_next (by rfl) hnil (Or.inl rfl)
  | checkSecondFactor check attempts keys =>
      simp only [LoginCall.run]
      split
      · split
        · exact quiet_next (by rfl) (by simp [LoginEvent.isSession]) (Or.inl rfl)
        · exact quiet_next (by rfl) (by simp [LoginEvent.isSession]) (Or.inl rfl)
      · split
        · exact quiet_next (by rfl) (by simp [LoginEvent.isSession]) (Or.inl rfl)
        · exact quiet_next (by rfl) (by simp [LoginEvent.isSession]) (Or.inl rfl)
  | claimTotpStep check attempts keys step =>
      simp only [LoginCall.run]
      split
      · exact quiet_next (by rfl) (by simp [LoginEvent.isSession]) (Or.inl rfl)
      · exact quiet_next (by rfl) hnil (Or.inl rfl)
  | takeChallenge check keys =>
      simp only [LoginCall.run, LoginRedis.takeSecondFactorChallenge]
      split
      · next heq =>
          obtain ⟨-, rfl⟩ := Prod.mk.inj heq
          exact quiet_answer (by rfl) hnil _
      · next heq =>
          obtain ⟨-, rfl⟩ := Prod.mk.inj heq
          exact quiet_next (by rfl) (by simp [LoginEvent.isSession]) (finishWith_quiet _)

/-! ### The invariant -/

/-- A session of a login that started at `startedAt`: authenticated in the past, and not after a
cut-off at or after that start. -/
structure Bounded (s : LoginServer) (userId : UserId) (startedAt : Time) (session : Session) :
    Prop where
  user : session.userId = userId
  authenticated : ∃ t, session.authenticatedAt = some t ∧ t ≤ s.clock ∧
    ∀ l ∈ s.trace, l.event = .cutOff userId → startedAt ≤ l.time → t ≤ l.time

/-- The cut-off of a revocation that began at `startedAt`, or a newer one, is written. -/
def CutOffSet (s : LoginServer) (userId : UserId) (startedAt : Time) : Prop :=
  ∃ l ∈ s.trace, l.event = .cutOff userId ∧ startedAt ≤ l.time ∧
    s.redis.sessionEpochs userId = some ⟨l.time, none⟩

structure SessionInv (s : LoginServer) : Prop where
  keys : ∀ id, s.redis.sessions id ≠ none → id ∈ s.issued
  created : ∀ c ∈ s.trace, ∀ sessionId userId startedAt challengeId,
    c.event = .sessionCreated sessionId userId startedAt challengeId →
      sessionId ∈ s.issued ∧
        ∀ e, s.redis.sessions sessionId = some e → Bounded s userId startedAt e.value
  read : ∀ l ∈ s.trace, ∀ sessionId, l.event = .sessionRead sessionId → sessionId ∈ s.issued
  revoked : ∀ l ∈ s.trace, ∀ userId startedAt,
    l.event = .revoked userId startedAt → CutOffSet s userId startedAt
  final : RevocationFinal s

/-- What a call in flight has to show for. -/
def SessionCallInv (s : LoginServer) : LoginCall → Prop
  | .setSession finished session _ _ =>
    Bounded s finished.login.userId finished.login.startedAt session
  | .readEpoch sessionId session => sessionId ∈ s.issued ∧
      ∀ c ∈ s.trace, ∀ userId startedAt challengeId,
        c.event = .sessionCreated sessionId userId startedAt challengeId →
          Bounded s userId startedAt session
  | .stampEpoch _ _ _ startedAt => startedAt ≤ s.clock
  | .setEpoch userId _ _ startedAt epoch =>
    ∃ l ∈ s.trace, l.event = .cutOff userId ∧ l.time = epoch ∧ startedAt ≤ epoch
  | .signOutSessions userId _ _ startedAt => CutOffSet s userId startedAt
  | .endExcepted userId _ startedAt => CutOffSet s userId startedAt
  | _ => True

theorem sessionCallInv_quiet {s : LoginServer} {call : LoginCall}
    (h : call.isSession = false ∨ ∃ f, call = .stampSession f) : SessionCallInv s call := by
  rcases h with h | ⟨f, rfl⟩
  · cases call with
    | stampSession | setSession | getSession | readEpoch | dropSession | revokeUserSessions
    | stampEpoch | setEpoch | signOutSessions | endExcepted => cases h
    | _ => trivial
  · trivial

/-- How the server goes on: nothing that was logged or issued is taken back, cut-offs that come
later lie later, sessions created later have new ids, and a cut-off stays in force. -/
structure Evolves (s s' : LoginServer) : Prop where
  clock : s.clock ≤ s'.clock
  trace : ∀ l ∈ s.trace, l ∈ s'.trace
  issued : ∀ id ∈ s.issued, id ∈ s'.issued
  later : ∀ l ∈ s'.trace, l ∈ s.trace ∨ s.clock ≤ l.time
  created : ∀ c ∈ s'.trace, ∀ sessionId userId startedAt challengeId,
    c.event = .sessionCreated sessionId userId startedAt challengeId →
      c ∈ s.trace ∨ sessionId ∉ s.issued
  cutOff : ∀ userId startedAt, CutOffSet s userId startedAt → CutOffSet s' userId startedAt

section Evolves

variable {s s' : LoginServer}

theorem Evolves.bounded (h : Evolves s s') {userId : UserId} {startedAt : Time}
    {session : Session} (hb : Bounded s userId startedAt session) :
    Bounded s' userId startedAt session := by
  obtain ⟨huser, t, ht, htle, hcut⟩ := hb
  refine ⟨huser, t, ht, htle.trans h.clock, fun l hl hevent hle => ?_⟩
  rcases h.later l hl with hold | hnew
  · exact hcut l hold hevent hle
  · exact htle.trans hnew

theorem Evolves.callInv (h : Evolves s s') {call : LoginCall} (hc : SessionCallInv s call) :
    SessionCallInv s' call := by
  cases call with
  | setSession finished session ttl score => exact h.bounded hc
  | readEpoch sessionId session =>
      obtain ⟨hid, hcreated⟩ := hc
      refine ⟨h.issued _ hid, fun c hc userId startedAt challengeId hevent => ?_⟩
      rcases h.created c hc _ _ _ _ hevent with hold | hnew
      · exact h.bounded (hcreated c hold _ _ _ hevent)
      · exact absurd hid hnew
  | stampEpoch userId exceptSessionId sessionIds startedAt => exact Nat.le_trans hc h.clock
  | setEpoch userId exceptSessionId sessionIds startedAt epoch =>
      obtain ⟨l, hl, hrest⟩ := hc
      exact ⟨l, h.trace l hl, hrest⟩
  | signOutSessions userId exceptSessionId sessionIds startedAt => exact h.cutOff _ _ hc
  | endExcepted userId exceptSessionId startedAt => exact h.cutOff _ _ hc
  | _ => trivial

theorem evolves_passes (h : s.Passes s') : Evolves s s' := by
  cases h with
  | tick clock hclock =>
      exact ⟨hclock, fun _ h => h, fun _ h => h, fun l hl => Or.inl hl,
        fun c hc _ _ _ _ _ => Or.inl hc, fun _ _ h => h⟩
  | accounts users keys =>
      exact ⟨Nat.le_refl _, fun _ h => h, fun _ h => h, fun l hl => Or.inl hl,
        fun c hc _ _ _ _ _ => Or.inl hc, fun _ _ h => h⟩

theorem SessionInv.passes (hs : SessionInv s) (h : s.Passes s') : SessionInv s' := by
  have hev := evolves_passes h
  have hsame : s'.redis = s.redis ∧ s'.issued = s.issued ∧ s'.trace = s.trace := by
    cases h <;> exact ⟨rfl, rfl, rfl⟩
  obtain ⟨hredis, hissued, htrace⟩ := hsame
  refine ⟨fun id hid => ?_, fun c hc sessionId userId startedAt challengeId hevent => ?_,
    fun l hl sessionId hevent => ?_, fun l hl userId startedAt hevent => ?_, ?_⟩
  · rw [hredis] at hid
    exact hev.issued id (hs.keys id hid)
  · rw [htrace] at hc
    obtain ⟨hid, hb⟩ := hs.created c hc _ _ _ _ hevent
    refine ⟨hev.issued _ hid, fun e he => ?_⟩
    rw [hredis] at he
    exact hev.bounded (hb e he)
  · rw [htrace] at hl
    exact hev.issued _ (hs.read l hl _ hevent)
  · rw [htrace] at hl
    exact hev.cutOff _ _ (hs.revoked l hl _ _ hevent)
  · have hfinal := hs.final
    unfold RevocationFinal at hfinal ⊢
    rw [htrace]
    exact hfinal

/-- A command that is not after a session of its own: sessions only end, a cut-off stays in force
once it is written, and a session is only read when no revocation stands against it. -/
structure Harmless (s : LoginServer) (i : ℕ) (fresh : String) (ran : Ran) : Prop where
  sessions : ∀ id e, ran.redis.sessions id = some e → s.redis.sessions id = some e ∨
    (id = fresh ∧ ∀ userId startedAt challengeId,
      .sessionCreated fresh userId startedAt challengeId ∈ ran.events →
        Bounded (s.after i fresh ran) userId startedAt e.value)
  cutOff : ∀ userId startedAt, CutOffSet s userId startedAt →
    CutOffSet (s.after i fresh ran) userId startedAt
  created : ∀ sessionId userId startedAt challengeId,
    .sessionCreated sessionId userId startedAt challengeId ∈ ran.events → sessionId = fresh
  read : ∀ sessionId, .sessionRead sessionId ∈ ran.events → sessionId ∈ s.issued ∧
    (∀ userId startedAt, LoginEvent.revoked userId startedAt ∉ ran.events) ∧
      ∀ l ∈ s.trace, ∀ userId startedAt, l.event = .revoked userId startedAt →
        ∀ c ∈ s.trace, ∀ loginStartedAt challengeId,
          c.event = .sessionCreated sessionId userId loginStartedAt challengeId →
            startedAt < loginStartedAt
  revoked : ∀ userId startedAt, .revoked userId startedAt ∈ ran.events →
    CutOffSet (s.after i fresh ran) userId startedAt

theorem Harmless.evolves {i : ℕ} {fresh : String} {ran : Ran} (h : Harmless s i fresh ran)
    (hfresh : fresh ∉ s.issued) : Evolves s (s.after i fresh ran) where
  clock := Nat.le_refl _
  trace l hl := LoginServer.mem_after_trace.2 (Or.inl hl)
  issued id hid := List.mem_cons_of_mem _ hid
  later l hl := by
    rcases LoginServer.mem_after_trace.1 hl with hold | ⟨-, htime, -⟩
    · exact Or.inl hold
    · exact Or.inr (Nat.le_of_eq htime.symm)
  created c hc sessionId userId startedAt challengeId hevent := by
    rcases LoginServer.mem_after_trace.1 hc with hold | ⟨-, -, hnew⟩
    · exact Or.inl hold
    · rw [hevent] at hnew
      rw [h.created _ _ _ _ hnew]
      exact Or.inr hfresh
  cutOff := h.cutOff

theorem SessionInv.after (hs : SessionInv s) {i : ℕ} {fresh : String} {ran : Ran}
    (hfresh : fresh ∉ s.issued) (h : Harmless s i fresh ran) :
    SessionInv (s.after i fresh ran) := by
  have hev := h.evolves hfresh
  refine ⟨fun id hid => ?_, fun c hc sessionId userId startedAt challengeId hevent => ?_,
    fun l hl sessionId hevent => ?_, fun l hl userId startedAt hevent => ?_, ?_⟩
  · obtain ⟨e, he⟩ := Option.ne_none_iff_exists'.1 hid
    rcases h.sessions id e he with hold | ⟨rfl, -⟩
    · exact hev.issued id (hs.keys id (by rw [hold]; simp))
    · exact List.mem_cons_self
  · rcases LoginServer.mem_after_trace.1 hc with hold | ⟨-, -, hnew⟩
    · obtain ⟨hid, hb⟩ := hs.created c hold _ _ _ _ hevent
      refine ⟨hev.issued _ hid, fun e he => ?_⟩
      rcases h.sessions _ e he with hkept | ⟨rfl, -⟩
      · exact hev.bounded (hb e hkept)
      · exact absurd hid hfresh
    · rw [hevent] at hnew
      obtain rfl := h.created _ _ _ _ hnew
      refine ⟨List.mem_cons_self, fun e he => ?_⟩
      rcases h.sessions _ e he with hkept | ⟨-, hb⟩
      · exact absurd (hs.keys _ (by rw [hkept]; simp)) hfresh
      · exact hb _ _ _ hnew
  · rcases LoginServer.mem_after_trace.1 hl with hold | ⟨-, -, hnew⟩
    · exact hev.issued _ (hs.read l hold _ hevent)
    · rw [hevent] at hnew
      exact hev.issued _ (h.read _ hnew).1
  · rcases LoginServer.mem_after_trace.1 hl with hold | ⟨-, -, hnew⟩
    · exact h.cutOff _ _ (hs.revoked l hold _ _ hevent)
    · rw [hevent] at hnew
      exact h.revoked _ _ hnew
  · -- a session created now is none of those read before
    have hcreated : ∀ sessionId, sessionId ∈ s.issued → ∀ c ∈ (s.after i fresh ran).trace,
        ∀ userId startedAt challengeId,
          c.event = .sessionCreated sessionId userId startedAt challengeId → c ∈ s.trace := by
      intro sessionId hid c hc userId startedAt challengeId hevent
      rcases hev.created c hc _ _ _ _ hevent with hold | hnew
      · exact hold
      · exact absurd hid hnew
    have hfinal : s.trace.Pairwise _ := hs.final
    unfold RevocationFinal
    rw [LoginServer.after, List.pairwise_append]
    refine ⟨hfinal.imp_of_mem ?_, ?_, ?_⟩
    · intro l l' _ hl' hold userId startedAt sessionId hrev hread c hc loginStartedAt challengeId
        hevent
      exact hold _ _ _ hrev hread c
        (hcreated sessionId (hs.read l' hl' _ hread) c hc _ _ _ hevent) _ _ hevent
    · refine List.pairwise_map.2 (List.pairwise_of_forall_mem_list ?_)
      intro event hevent event' hevent' userId startedAt sessionId hrev hread
      dsimp only at hrev hread
      subst hrev hread
      exact absurd hevent ((h.read _ hevent').2.1 _ _)
    · intro l hl l' hl' userId startedAt sessionId hrev hread c hc loginStartedAt challengeId hevent
      obtain ⟨event, hmem, rfl⟩ := List.mem_map.1 hl'
      dsimp only at hread
      subst hread
      obtain ⟨hid, -, hnone⟩ := h.read _ hmem
      exact hnone l hl _ _ hrev c (hcreated sessionId hid c hc _ _ _ hevent) _ _ hevent

end Evolves

/-! ### Every command keeps the invariant -/

section Commands

variable {s : LoginServer} {i : ℕ} {fresh : String}

theorem cutOffSet_after {ran : Ran} (he : ran.redis.sessionEpochs = s.redis.sessionEpochs)
    {userId : UserId} {startedAt : Time} (h : CutOffSet s userId startedAt) :
    CutOffSet (s.after i fresh ran) userId startedAt := by
  obtain ⟨l, hl, hevent, hle, hepoch⟩ := h
  refine ⟨l, LoginServer.mem_after_trace.2 (Or.inl hl), hevent, hle, ?_⟩
  rw [LoginServer.after_redis, he]
  exact hepoch

/-- A command that ends sessions at most, and logs a revocation only when it is in force. -/
theorem harmless_of_shrinks {ran : Ran}
    (hsessions : ∀ id e, ran.redis.sessions id = some e → s.redis.sessions id = some e)
    (hepochs : ran.redis.sessionEpochs = s.redis.sessionEpochs)
    (hcreated : ∀ a b c d, LoginEvent.sessionCreated a b c d ∉ ran.events)
    (hread : ∀ a, LoginEvent.sessionRead a ∉ ran.events)
    (hrevoked : ∀ userId startedAt, .revoked userId startedAt ∈ ran.events →
      CutOffSet s userId startedAt) : Harmless s i fresh ran where
  sessions id e he := Or.inl (hsessions id e he)
  cutOff _ _ h := cutOffSet_after hepochs h
  created a b c d h := absurd h (hcreated a b c d)
  read a h := absurd h (hread a)
  revoked _ _ h := cutOffSet_after hepochs (hrevoked _ _ h)

theorem harmless_of_quiet {ran : Ran} (h : ran.Quiet s.redis) : Harmless s i fresh ran := by
  have hnot : ∀ event, event.isSession = true → event ∉ ran.events := fun event hs hmem => by
    rw [h.events event hmem] at hs
    cases hs
  refine harmless_of_shrinks (fun id e he => ?_) (congrArg Redis.sessionEpochs h.redis)
    (fun a b c d => hnot _ rfl) (fun a => hnot _ rfl) (fun a b hmem => absurd hmem (hnot _ rfl))
  rwa [show ran.redis.sessions = s.redis.sessions from congrArg Redis.sessions h.redis] at he

theorem shrinks_endSession (redis : LoginRedis) (sessionId : SessionId) (userId : UserId) (id : SessionId)
    (e : Entry Session) (he : (redis.endSession sessionId userId).sessions id = some e) :
    redis.sessions id = some e := by
  have hdel : (redis.endSession sessionId userId).sessions = redis.sessions.del sessionId := rfl
  rw [hdel, Store.del] at he
  by_cases hid : id = sessionId
  · subst hid
    rw [Function.update_self] at he
    cases he
  · rwa [Function.update_of_ne hid] at he

theorem shrinks_signOutSessions (redis : LoginRedis) (now : Time) (userId : UserId)
    (sessionIds : List SessionId) (id : SessionId) (e : Entry Session)
    (he : (redis.signOutSessions now userId sessionIds).sessions id = some e) :
    redis.sessions id = some e := by
  have hsessions : (redis.signOutSessions now userId sessionIds).sessions id =
      if id ∈ sessionIds then none else redis.sessions id := rfl
  rw [hsessions] at he
  split at he
  · cases he
  · exact he

/-- What is left after the listed sessions were signed out. -/
theorem harmless_endExceptedOr {redis : LoginRedis} {db : LoginDb} {userId : UserId}
    {exceptSessionId : Option SessionId} {startedAt : Time}
    (hsessions : ∀ id e, redis.sessions id = some e → s.redis.sessions id = some e)
    (hkept : ∀ ran : Ran, ran.redis = redis → ∀ u a, CutOffSet s u a →
      CutOffSet (s.after i fresh ran) u a)
    (hset : ∀ ran : Ran, ran.redis = redis → CutOffSet (s.after i fresh ran) userId startedAt) :
    Harmless s i fresh (endExceptedOr redis db userId exceptSessionId startedAt) ∧
      ∀ c, (endExceptedOr redis db userId exceptSessionId startedAt).rest = some c →
        SessionCallInv
          (s.after i fresh (endExceptedOr redis db userId exceptSessionId startedAt)) c := by
  cases exceptSessionId with
  | none =>
      refine ⟨⟨fun id e he => Or.inl (hsessions id e he), hkept _ rfl, ?_, ?_, ?_⟩, ?_⟩
      · simp [endExceptedOr, Ran.answer]
      · simp [endExceptedOr, Ran.answer]
      · intro u a hmem
        obtain ⟨rfl, rfl⟩ : u = userId ∧ a = startedAt := by
          simpa [endExceptedOr, Ran.answer] using hmem
        exact hset _ rfl
      · intro c hc
        cases hc
  | some sessionId =>
      refine ⟨⟨fun id e he => Or.inl (hsessions id e he), hkept _ rfl, ?_, ?_, ?_⟩, ?_⟩
      · simp [endExceptedOr, Ran.next]
      · simp [endExceptedOr, Ran.next]
      · simp [endExceptedOr, Ran.next]
      · intro c hc
        obtain rfl := Option.some.inj hc
        exact hset _ rfl

/-- A session is set: it is the one of its login, stamped in time. -/
theorem harmless_setSession (P : LoginPlatform) {finished : FinishedLogin} {session : Session}
    {ttl : ℕ} {score : Time} (hc : SessionCallInv s (.setSession finished session ttl score)) :
    Harmless s i fresh
      ((LoginCall.setSession finished session ttl score).run P fresh s.clock s.redis s.db) := by
  refine ⟨fun id e he => ?_, fun _ _ h => cutOffSet_after rfl h, ?_, ?_, ?_⟩
  · have hset : ((LoginCall.setSession finished session ttl score).run P fresh s.clock s.redis
        s.db).redis.sessions = s.redis.sessions.set fresh session (some (s.clock + ttl * 1000)) :=
      rfl
    rw [hset] at he
    by_cases hid : id = fresh
    · subst hid
      rw [Store.set_self] at he
      obtain rfl := Option.some.inj he
      refine Or.inr ⟨rfl, fun userId startedAt challengeId hmem => ?_⟩
      obtain ⟨rfl, rfl, -⟩ : userId = session.userId ∧ startedAt = finished.login.startedAt ∧
          challengeId = finished.challengeId := by
        simpa [LoginCall.run, Ran.answer] using hmem
      obtain ⟨huser, t, ht, htle, hcutOff⟩ := hc
      refine ⟨rfl, t, ht, htle, fun l hl hevent hle => ?_⟩
      rcases LoginServer.mem_after_trace.1 hl with hold | ⟨-, -, hnew⟩
      · exact hcutOff l hold (huser ▸ hevent) hle
      · simp [LoginCall.run, Ran.answer, hevent] at hnew
    · rw [Store.set_of_ne _ _ _ hid] at he
      exact Or.inl he
  · intro a b c d hmem
    simp only [LoginCall.run, Ran.answer, List.mem_append, List.mem_singleton,
      LoginEvent.sessionCreated.injEq, reduceCtorEq, or_false] at hmem
    exact hmem.1
  · simp [LoginCall.run, Ran.answer]
  · simp [LoginCall.run, Ran.answer]

/-- A session is looked up: one that was created is still bounded by its login. -/
theorem harmless_getSession (P : LoginPlatform) (hs : SessionInv s) (sessionId : SessionId) :
    Harmless s i fresh ((LoginCall.getSession sessionId).run P fresh s.clock s.redis s.db) ∧
      ∀ c, ((LoginCall.getSession sessionId).run P fresh s.clock s.redis s.db).rest = some c →
        SessionCallInv (s.after i fresh
          ((LoginCall.getSession sessionId).run P fresh s.clock s.redis s.db)) c := by
  simp only [LoginCall.run]
  split
  · refine ⟨harmless_of_shrinks (fun _ _ h => h) rfl ?_ ?_ ?_, fun c hrest => ?_⟩
    · simp [Ran.answer]
    · simp [Ran.answer]
    · simp [Ran.answer]
    · cases hrest
  · next session hget =>
      obtain ⟨e, he, -, rfl⟩ := Store.get_eq_some.1 hget
      have hid : sessionId ∈ s.issued := hs.keys _ (by rw [he]; simp)
      refine ⟨harmless_of_shrinks (fun _ _ h => h) rfl ?_ ?_ ?_, fun c hrest => ?_⟩
      · simp [Ran.next]
      · simp [Ran.next]
      · simp [Ran.next]
      · obtain rfl := Option.some.inj hrest
        refine ⟨List.mem_cons_of_mem _ hid, fun c hc userId startedAt challengeId hevent => ?_⟩
        rcases LoginServer.mem_after_trace.1 hc with hold | ⟨-, -, hnew⟩
        · obtain ⟨huser, t, ht, htle, hcut⟩ := (hs.created c hold _ _ _ _ hevent).2 e he
          refine ⟨huser, t, ht, htle, fun l hl hevent hle => ?_⟩
          rcases LoginServer.mem_after_trace.1 hl with hold | ⟨-, -, hnew⟩
          · exact hcut l hold hevent hle
          · cases hnew
        · cases hnew

/-- The cut-off of the user is read: a session it lets pass started after every revocation. -/
theorem harmless_readEpoch (P : LoginPlatform) (hs : SessionInv s) {sessionId : SessionId}
    {session : Session} (hc : SessionCallInv s (.readEpoch sessionId session)) :
    Harmless s i fresh ((LoginCall.readEpoch sessionId session).run P fresh s.clock s.redis s.db) ∧
      ∀ c, ((LoginCall.readEpoch sessionId session).run P fresh s.clock s.redis s.db).rest =
        some c → SessionCallInv (s.after i fresh
          ((LoginCall.readEpoch sessionId session).run P fresh s.clock s.redis s.db)) c := by
  obtain ⟨hid, hbounded⟩ := hc
  simp only [LoginCall.run]
  split
  · next hlive =>
    refine ⟨⟨fun id e he => Or.inl he, fun _ _ h => cutOffSet_after rfl h, ?_, ?_, ?_⟩,
      fun c hrest => ?_⟩
    · simp [Ran.answer]
    · intro sessionId' hmem
      obtain rfl : sessionId' = sessionId := by simpa [Ran.answer] using hmem
      refine ⟨hid, by simp [Ran.answer], ?_⟩
      intro l hl userId startedAt hrev c hc loginStartedAt challengeId hevent
      -- the session is authenticated after the cut-off in force
      obtain ⟨huser, t, ht, -, hcut⟩ := hbounded c hc _ _ _ hevent
      obtain ⟨l', hl', hcutOff, hle, hepoch⟩ := hs.revoked l hl _ _ hrev
      have hget : s.redis.sessionEpochs.get s.clock session.userId = some l'.time := by
        rw [huser]
        exact Store.get_eq_some.2 ⟨_, hepoch, rfl, rfl⟩
      rw [hget] at hlive
      simp only [isLive, ht, Option.getD_some, Bool.and_eq_true, decide_eq_true_eq] at hlive
      by_contra hnot
      exact absurd hlive.1
        (Nat.not_lt.2 (hcut l' hl' hcutOff (Nat.le_trans (Nat.not_lt.1 hnot) hle)))
    · simp [Ran.answer]
    · cases hrest
  · refine ⟨harmless_of_shrinks (fun _ _ h => h) rfl ?_ ?_ ?_, fun c hrest => ?_⟩
    · simp [Ran.next]
    · simp [Ran.next]
    · simp [Ran.next]
    · obtain rfl := Option.some.inj hrest
      trivial

/-- What a cut-off that is written over another one leaves in force. -/
theorem cutOffSet_setEpoch {userId : UserId} {l : Logged} (hl : l ∈ s.trace)
    (hcutOff : l.event = .cutOff userId)
    (hnewest : ∀ l' ∈ s.trace, l'.event = .cutOff userId → l'.time ≤ l.time) {ran : Ran}
    (hran : ran.redis = s.redis.setSessionEpoch userId l.time) :
    (∀ a, a ≤ l.time → CutOffSet (s.after i fresh ran) userId a) ∧
      ∀ u a, CutOffSet s u a → CutOffSet (s.after i fresh ran) u a := by
  have hset : ∀ a, a ≤ l.time → CutOffSet (s.after i fresh ran) userId a := by
    intro a ha
    refine ⟨l, LoginServer.mem_after_trace.2 (Or.inl hl), hcutOff, ha, ?_⟩
    rw [LoginServer.after_redis, hran]
    exact Store.set_self _ _ _ _
  refine ⟨hset, fun u a h => ?_⟩
  obtain ⟨l', hl', hevent', hle', hepoch⟩ := h
  by_cases hu : u = userId
  · subst hu
    exact hset a (hle'.trans (hnewest l' hl' hevent'))
  · refine ⟨l', LoginServer.mem_after_trace.2 (Or.inl hl'), hevent', hle', ?_⟩
    rw [LoginServer.after_redis, hran]
    exact (Store.set_of_ne _ _ _ hu).trans hepoch

/-- The cut-off is written. -/
theorem harmless_setEpoch (P : LoginPlatform) {userId : UserId} {exceptSessionId : Option SessionId}
    {sessionIds : List SessionId} {startedAt epoch : Time}
    (hc : SessionCallInv s (.setEpoch userId exceptSessionId sessionIds startedAt epoch))
    (hm : StampedInTime s (.setEpoch userId exceptSessionId sessionIds startedAt epoch)) :
    Harmless s i fresh ((LoginCall.setEpoch userId exceptSessionId sessionIds startedAt epoch).run P
        fresh s.clock s.redis s.db) ∧
      ∀ c, ((LoginCall.setEpoch userId exceptSessionId sessionIds startedAt epoch).run P fresh
        s.clock s.redis s.db).rest = some c → SessionCallInv (s.after i fresh
          ((LoginCall.setEpoch userId exceptSessionId sessionIds startedAt epoch).run P fresh s.clock
            s.redis s.db)) c := by
  obtain ⟨l, hl, hcutOff, rfl, hle⟩ := hc
  have hkept : ∀ ran : Ran, ran.redis = s.redis.setSessionEpoch userId l.time → _ := fun _ hran =>
    @cutOffSet_setEpoch s i fresh userId l hl hcutOff hm _ hran
  simp only [LoginCall.run]
  split
  · exact harmless_endExceptedOr (fun _ _ h => h) (fun ran hran => (hkept ran hran).2)
      fun ran hran => (hkept ran hran).1 _ hle
  · refine ⟨⟨fun id e he => Or.inl he, (hkept _ rfl).2, ?_, ?_, ?_⟩, fun c hrest => ?_⟩
    · simp [Ran.next]
    · simp [Ran.next]
    · simp [Ran.next]
    · obtain rfl := Option.some.inj hrest
      exact (hkept _ rfl).1 _ hle

/-- **Every command** of a run whose sessions are stamped in time keeps the invariant. -/
theorem harmless_run (P : LoginPlatform) (hs : SessionInv s) {call : LoginCall}
    (hc : SessionCallInv s call) (hm : StampedInTime s call) (i : ℕ) :
    Harmless s i fresh (call.run P fresh s.clock s.redis s.db) ∧
      ∀ c, (call.run P fresh s.clock s.redis s.db).rest = some c →
        SessionCallInv (s.after i fresh (call.run P fresh s.clock s.redis s.db)) c := by
  by_cases hquiet : call.isSession = false
  · have h := quiet_run P fresh s.clock s.redis s.db hquiet
    exact ⟨harmless_of_quiet h, fun c hrest => sessionCallInv_quiet (h.rest c hrest)⟩
  cases call with
  | stampSession finished =>
      refine ⟨harmless_of_shrinks (fun _ _ h => h) rfl ?_ ?_ ?_, fun c hrest => ?_⟩
      · simp [LoginCall.run, Ran.next]
      · simp [LoginCall.run, Ran.next]
      · simp [LoginCall.run, Ran.next]
      · obtain rfl := Option.some.inj hrest
        refine ⟨rfl, s.clock, rfl, Nat.le_refl _, fun l hl hevent hle => ?_⟩
        rcases LoginServer.mem_after_trace.1 hl with hold | ⟨-, -, hnew⟩
        · exact hm l hold hevent hle
        · cases hnew
  | setSession finished session ttl score =>
      exact ⟨harmless_setSession P hc, fun c hrest => by cases hrest⟩
  | getSession sessionId => exact harmless_getSession P hs sessionId
  | readEpoch sessionId session => exact harmless_readEpoch P hs hc
  | dropSession sessionId userId =>
      refine ⟨harmless_of_shrinks (shrinks_endSession _ _ _) rfl ?_ ?_ ?_, fun c hrest => ?_⟩
      · simp [LoginCall.run, Ran.answer]
      · simp [LoginCall.run, Ran.answer]
      · simp [LoginCall.run, Ran.answer]
      · cases hrest
  | revokeUserSessions userId exceptSessionId =>
      refine ⟨harmless_of_shrinks (fun _ _ h => h) rfl ?_ ?_ ?_, fun c hrest => ?_⟩
      · simp [LoginCall.run, Ran.next]
      · simp [LoginCall.run, Ran.next]
      · simp [LoginCall.run, Ran.next]
      · obtain rfl := Option.some.inj hrest
        exact Nat.le_refl _
  | stampEpoch userId exceptSessionId sessionIds startedAt =>
      refine ⟨harmless_of_shrinks (fun _ _ h => h) rfl ?_ ?_ ?_, fun c hrest => ?_⟩
      · simp [LoginCall.run, Ran.next]
      · simp [LoginCall.run, Ran.next]
      · simp [LoginCall.run, Ran.next]
      · obtain rfl := Option.some.inj hrest
        refine ⟨{ call := i, time := s.clock, event := .cutOff userId },
          LoginServer.mem_after_trace.2 (Or.inr ⟨rfl, rfl, ?_⟩), rfl, rfl, hc⟩
        simp [LoginCall.run, Ran.next]
  | setEpoch userId exceptSessionId sessionIds startedAt epoch => exact harmless_setEpoch P hc hm
  | signOutSessions userId exceptSessionId sessionIds startedAt =>
      have hkept : ∀ ran : Ran,
          ran.redis = s.redis.signOutSessions s.clock userId sessionIds →
          ∀ u a, CutOffSet s u a → CutOffSet (s.after i fresh ran) u a :=
        fun ran hran u a h => cutOffSet_after (by rw [hran]; rfl) h
      exact harmless_endExceptedOr (shrinks_signOutSessions _ _ _ _) hkept
        fun ran hran => hkept ran hran _ _ hc
  | endExcepted userId exceptSessionId startedAt =>
      refine ⟨harmless_of_shrinks (shrinks_endSession _ _ _) rfl ?_ ?_ ?_, fun c hrest => ?_⟩
      · simp [LoginCall.run, Ran.answer]
      · simp [LoginCall.run, Ran.answer]
      · intro u a hmem
        obtain ⟨rfl, rfl⟩ : u = userId ∧ a = startedAt := by
          simpa [LoginCall.run, Ran.answer] using hmem
        exact hc
      · cases hrest
  | _ => exact absurd rfl hquiet

end Commands

/-! ### Runs -/

theorem keeps_sessions (P : LoginPlatform) : Interleaving.Keeps LoginCall.Begins
    (fun i s call s' rest => StampedInTime s call ∧ LoginCommand P i s call s' rest)
    LoginServer.Passes (fun _ s => SessionInv s) (fun _ s call => SessionCallInv s call) where
  begin i s call hbegins hs := by
    refine ⟨hs, ?_⟩
    cases hbegins <;> trivial
  run n i s call s' rest _ hs hc := by
    rintro ⟨hm, fresh, hfresh, rfl, rfl⟩
    obtain ⟨hharm, hrest⟩ := harmless_run P hs hc hm i
    exact ⟨hs.after hfresh hharm, hrest⟩
  frame n i s call s' rest hs hc := by
    rintro ⟨hm, fresh, hfresh, rfl, rfl⟩ j c _ hj
    exact ((harmless_run P hs hc hm i).1.evolves hfresh).callInv hj
  other n s s' hs h := ⟨hs.passes h, fun _ _ hj => (evolves_passes h).callInv hj⟩

/-- **Revoking a user's sessions is final** in every run of logins, session reads and revocations
whose sessions are stamped in time. -/
theorem revocation_final (P : LoginPlatform) {clock : Time} {redis : LoginRedis} {db : LoginDb}
    {issued : List String}
    (hissued : ∀ id, redis.sessions id ≠ none → id ∈ issued) {t : LoginState}
    (ht : Run.Reaches (StampedStep P)
      (Interleaving.State.idle (LoginServer.start clock redis db issued)) t) :
    RevocationFinal t.shared := by
  have hstart : SessionInv (LoginServer.start clock redis db issued) := by
    refine ⟨hissued, ?_, ?_, ?_, List.Pairwise.nil⟩
    · intro c hc
      cases hc
    · intro l hl
      cases hl
    · intro l hl
      cases hl
  exact (Interleaving.holds_of_reaches (keeps_sessions P) ht
    (Interleaving.holds_idle hstart)).inv.final

/-- A login, a read of its session, a revocation and a read that comes to nothing. -/
def revokedMoves : List LoginMove :=
  startMoves 0 "a" "b" "c" "d" "attempt" ++
    [.begin (.finishLogin (finishInput "attempt")), .run 1 "e", .run 1 "f", .run 1 "g",
      .run 1 "h", .run 1 "i", .run 1 "j", .run 1 "k", .run 1 "session",
      .begin (.getSession "session"), .run 2 "l", .run 2 "m",
      .tick 20, .begin (.revokeUserSessions 7 none), .run 3 "n", .run 3 "o", .run 3 "p",
      .run 3 "q", .begin (.getSession "session"), .run 4 "r"]

theorem revocation_final_login : ∃ t, Run.Reaches (StampedStep plainLogin) oneLoginState t ∧
    (∃ l ∈ t.shared.trace, l.event = .sessionRead "session") ∧
    (∃ l ∈ t.shared.trace, l.event = .revoked 7 20) ∧ RevocationFinal t.shared := by
  have hsome : (revokedMoves.foldlM
      (loginMove plainLogin LoginCall.Begins StampedInTime) oneLoginState).any
        (fun t => (t.shared.trace.any (·.event = .sessionRead "session")) &&
          t.shared.trace.any (·.event = .revoked 7 20)) = true := by decide +kernel
  obtain ⟨t, ht, hp⟩ := (Option.any_eq_true _ _).mp hsome
  rw [Bool.and_eq_true, List.any_eq_true, List.any_eq_true] at hp
  obtain ⟨⟨l, hl, hread⟩, l', hl', hrev⟩ := hp
  have hreach := reaches_of_moves plainLogin ht
  exact ⟨t, hreach, ⟨l, hl, of_decide_eq_true hread⟩, ⟨l', hl', of_decide_eq_true hrev⟩,
    revocation_final plainLogin (fun id h => absurd rfl h) hreach⟩

/-- A login that checks the cut-off before it is taken and stamps its session after. -/
def lateStampMoves : List LoginMove :=
  startMoves 0 "a" "b" "c" "d" "attempt" ++
    [.begin (.finishLogin (finishInput "attempt")), .run 1 "e", .run 1 "f", .run 1 "g",
      .tick 20, .begin (.revokeUserSessions 7 none), .run 2 "h", .run 2 "i", .run 2 "j",
      .tick 30, .run 1 "k", .run 1 "l", .run 1 "m", .run 1 "n", .run 1 "session",
      .begin (.getSession "session"), .run 3 "o", .run 3 "p"]

/-- **A session past the cut-off**: the login started at 10, the revocation began and was done at
20, and the login's session is read after it. -/
theorem session_after_revocation : ∃ t, Run.Reaches (AnyLoginStep plainLogin) oneLoginState t ∧
    ¬ RevocationFinal t.shared := by
  have hsome : (lateStampMoves.foldlM
      (loginMove plainLogin LoginCall.Begins fun _ _ => True) oneLoginState).any
        (fun t => t.shared.trace.filter (·.event.isSession) =
          [⟨2, 20, .cutOff 7⟩, ⟨2, 20, .revoked 7 20⟩,
            ⟨1, 30, .sessionCreated "session" 7 10 none⟩, ⟨3, 30, .sessionRead "session"⟩]) =
      true := by decide +kernel
  obtain ⟨t, ht, hp⟩ := (Option.any_eq_true _ _).mp hsome
  refine ⟨t, reaches_of_moves plainLogin ht, fun hfinal => ?_⟩
  have htrace := of_decide_eq_true hp
  have hpair := List.Pairwise.filter (·.event.isSession) hfinal
  rw [htrace] at hpair
  have hcreated : (⟨1, 30, .sessionCreated "session" 7 10 none⟩ : Logged) ∈ t.shared.trace :=
    (List.mem_filter.1 (by rw [htrace]; simp : _ ∈ t.shared.trace.filter (·.event.isSession))).1
  have hsub : [(⟨2, 20, .revoked 7 20⟩ : Logged), ⟨3, 30, .sessionRead "session"⟩].Sublist
      [⟨2, 20, .cutOff 7⟩, ⟨2, 20, .revoked 7 20⟩,
        ⟨1, 30, .sessionCreated "session" 7 10 none⟩, ⟨3, 30, .sessionRead "session"⟩] := by
    decide
  have hlt := List.pairwise_pair.1 (hpair.sublist hsub) 7 20 "session" rfl rfl _ hcreated 10 none rfl
  exact absurd hlt (by decide)

end Passmgr
