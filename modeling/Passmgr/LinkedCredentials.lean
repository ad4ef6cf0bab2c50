/-
# Revoking a session and the credential of its device

A revoke reads the link of a session, ends the session and deletes the credential it read.  A
credential that is registered or linked after the link was read outlives the session, and so does
one the session registered before the one it has a link to.

Main definitions:

* `RevokedWithCredentials` — the property: the session has ended and none of its credentials is
  left;
* `LinkSettled` — what every command of a run is to meet;
* `Covers`, `RevokeInv`, `RevokeCallInv` — what a revoke counts on once it has read the link.

Main results:

* `revoked_with_credentials` — the property holds in every run whose commands meet the condition;
* `credential_outlives_session` — and not without it.
-/

import Passmgr.DeviceCredentials

set_option relaxedAutoImplicit false
set_option autoImplicit false

namespace Passmgr

open Expiring

variable (P : DevicePlatform) (userId : UserId) (sessionId : SessionId)

/-! ### The property and the condition -/

/-- A credential of the user is there to log in with. -/
def Registered (s : DeviceServer) (credentialId : CredentialId) : Prop :=
  ∃ row ∈ s.credentials, row.userId = userId ∧ row.credentialId = credentialId

instance (s : DeviceServer) (credentialId : CredentialId) :
    Decidable (Registered userId s credentialId) :=
  inferInstanceAs (Decidable (∃ row ∈ s.credentials, _))

/-- Once a revoke has completed the session is not live, and no credential it registered or had a
link to is registered. -/
def RevokedWithCredentials (s : DeviceServer) : Prop :=
  s.revoked → s.redis.sessions.get s.clock sessionId = none ∧
    ∀ credentialId ∈ s.links, ¬ Registered userId s credentialId

/-- The credential a live session has a link to. -/
def sessionLink (s : DeviceServer) : Option CredentialId :=
  (s.redis.sessions.get s.clock sessionId).bind (·.deviceCredentialId)

/-- A revoke reads the link when it is of every credential of the session that is registered; from
then on none is registered, and none is linked but the one that is. -/
def LinkSettled (s : DeviceServer) : DeviceCall → Prop
  | .sessionCredentialId target => target = sessionId →
      ∀ credentialId ∈ s.links, Registered userId s credentialId →
        present (sessionLink sessionId s) = some credentialId
  | .insertCredential _ _ => ¬ s.linkRead
  | .setLinked _ credentialId _ => s.linkRead →
      (s.redis.sessions.get s.clock sessionId).isSome →
        present (sessionLink sessionId s) = some credentialId
  | _ => True

/-! ### The invariant -/

/-- A revoke has read a link that is of every credential of the session that is registered. -/
structure Covers (s : DeviceServer) (credentialId : Option CredentialId) : Prop where
  linkRead : s.linkRead
  link : ∀ session, s.redis.sessions.get s.clock sessionId = some session →
    session.deviceCredentialId = credentialId
  registered : ∀ c ∈ s.links, Registered userId s c → present credentialId = some c

/-- The session has ended, and no credential of it is registered but those `left`. -/
structure EndedWith (left : CredentialId → Prop) (s : DeviceServer) : Prop where
  linkRead : s.linkRead
  ended : s.redis.sessions sessionId = none
  registered : ∀ c ∈ s.links, Registered userId s c → left c

def RevokeInv (_ : ℕ) (s : DeviceServer) : Prop :=
  s.revoked → EndedWith userId sessionId (fun _ => False) s

def RevokeCallInv (_ : ℕ) (s : DeviceServer) : DeviceCall → Prop
  | .revokeUserSession target credentialId | .signOutSessions target credentialId =>
    target = sessionId → Covers userId sessionId s credentialId
  | .deleteDeviceCredential target credentialId =>
    target = sessionId → EndedWith userId sessionId (· = credentialId) s
  | _ => True

/-- What a command leaves as it is, once a revoke has read the link. -/
structure Settled (s s' : DeviceServer) : Prop where
  linkRead : s.linkRead → s'.linkRead
  ended : s.redis.sessions sessionId = none → s'.redis.sessions sessionId = none
  link : s.linkRead → ∀ session', s'.redis.sessions.get s'.clock sessionId = some session' →
    ∃ session, s.redis.sessions.get s.clock sessionId = some session ∧
      session'.deviceCredentialId = session.deviceCredentialId
  links : s.linkRead → ∀ c ∈ s'.links, c ∈ s.links ∨
    (s.redis.sessions.get s.clock sessionId).isSome ∧ present (sessionLink sessionId s) = some c
  registered : s.linkRead → ∀ c, Registered userId s' c → Registered userId s c

section Lemmas

variable {P userId sessionId} {s s' : DeviceServer} {ran : DeviceRan}

theorem Covers.settled {credentialId : Option CredentialId}
    (h : Covers userId sessionId s credentialId) (hs : Settled userId sessionId s s') :
    Covers userId sessionId s' credentialId where
  linkRead := hs.linkRead h.linkRead
  link session' hget := by
    obtain ⟨session, hsession, heq⟩ := hs.link h.linkRead session' hget
    exact heq.trans (h.link session hsession)
  registered c hc hreg := by
    rcases hs.links h.linkRead c hc with hold | ⟨hlive, hlink⟩
    · exact h.registered c hold (hs.registered h.linkRead c hreg)
    · obtain ⟨session, hsession⟩ := Option.isSome_iff_exists.1 hlive
      rw [sessionLink, hsession, Option.bind_some, h.link session hsession] at hlink
      exact hlink

theorem EndedWith.settled {left : CredentialId → Prop} (h : EndedWith userId sessionId left s)
    (hs : Settled userId sessionId s s') : EndedWith userId sessionId left s' where
  linkRead := hs.linkRead h.linkRead
  ended := hs.ended h.ended
  registered c hc hreg := by
    rcases hs.links h.linkRead c hc with hold | ⟨hlive, -⟩
    · exact h.registered c hold (hs.registered h.linkRead c hreg)
    · rw [Store.get, h.ended] at hlive
      cases hlive

theorem revokeCallInv_settled {i : ℕ} {call : DeviceCall}
    (h : RevokeCallInv userId sessionId i s call) (hs : Settled userId sessionId s s') :
    RevokeCallInv userId sessionId i s' call := by
  cases call with
  | revokeUserSession target credentialId => exact fun ht => (h ht).settled hs
  | signOutSessions target credentialId => exact fun ht => (h ht).settled hs
  | deleteDeviceCredential target credentialId => exact fun ht => (h ht).settled hs
  | _ => trivial

theorem eq_some_of_present {o : Option String} {v : String} (h : present o = some v) :
    o = some v := by
  unfold present at h
  split at h
  · cases h
  · exact h

/-! ### What a command leaves -/

/-- A command that registers and links nothing, and leaves the session or ends it. -/
theorem settled_of_shrinks
    (hsession : ∀ session, ran.redis.sessions.get s.clock sessionId = some session →
      s.redis.sessions.get s.clock sessionId = some session)
    (hended : s.redis.sessions sessionId = none → ran.redis.sessions sessionId = none)
    (hrows : ∀ row ∈ ran.credentials, ∃ row' ∈ s.credentials,
      row'.userId = row.userId ∧ row'.credentialId = row.credentialId)
    (hevent : (s.after sessionId ran).links = s.links) :
    Settled userId sessionId s (s.after sessionId ran) where
  linkRead h := by simp [DeviceServer.after, h]
  ended := hended
  link _ session' hget := ⟨session', hsession session' hget, rfl⟩
  links _ c hc := .inl (hevent ▸ hc)
  registered _ c hreg := by
    obtain ⟨row, hrow, hu, hc⟩ := hreg
    obtain ⟨row', hrow', hu', hc'⟩ := hrows row hrow
    exact ⟨row', hrow', hu'.trans hu, hc'.trans hc⟩

theorem settled_of_read {rest : DeviceAnswer ⊕ DeviceCall} :
    Settled userId sessionId s
      (s.after sessionId (.read s.redis s.credentials rest)) :=
  settled_of_shrinks (fun _ h => h) id (fun row hrow => ⟨row, hrow, rfl, rfl⟩) rfl

theorem get_endSession (redis : LoginRedis) (now : Time) (owner : UserId) :
    (redis.endSession sessionId owner).sessions.get now sessionId = none := by
  simp [LoginRedis.endSession, LoginRedis.zrem, Store.get]

theorem sessions_signOutSessions (redis : LoginRedis) (now : Time) (target : SessionId) :
    (redis.signOutSessions now userId [target]).sessions sessionId =
      if sessionId = target then none else redis.sessions sessionId := by
  simp [LoginRedis.signOutSessions, LoginRedis.zrem]

/-- Touching a session moves its expiry. -/
theorem settled_touch (session : Session) :
    Settled userId sessionId s (s.after sessionId
      (.read (touchUserSession sessionId s.clock s.redis session) s.credentials
        (.inl .dropped))) := by
  have hcases : (touchUserSession sessionId s.clock s.redis session).sessions =
        s.redis.sessions ∨ ∃ t, (touchUserSession sessionId s.clock s.redis session).sessions =
          s.redis.sessions.expire s.clock sessionId t := by
    unfold touchUserSession
    split
    · exact .inl rfl
    · split
      · exact .inl rfl
      · exact .inr ⟨_, rfl⟩
  refine settled_of_shrinks (fun session' hget => ?_) (fun hnone => ?_)
    (fun row hrow => ⟨row, hrow, rfl, rfl⟩) rfl
  · rcases hcases with heq | ⟨t, heq⟩
    · simpa [DeviceRan.read, heq] using hget
    · exact Store.get_expire (by simpa [DeviceRan.read, heq] using hget)
  · rcases hcases with heq | ⟨t, heq⟩
    · simpa [DeviceRan.read, heq] using hnone
    · simpa [DeviceRan.read, heq] using Store.expire_self_none hnone t

/-- Signing a session out leaves the others. -/
theorem settled_signOut {target : SessionId} {event : DeviceEvent}
    {rest : DeviceAnswer ⊕ DeviceCall} (hevent : event = .quiet ∨ event = .revoked target) :
    Settled userId sessionId s (s.after sessionId
      { redis := s.redis.signOutSessions s.clock userId [target]
        credentials := s.credentials
        event := event
        rest := rest }) := by
  refine settled_of_shrinks (fun session hget => ?_) (fun hnone => ?_)
    (fun row hrow => ⟨row, hrow, rfl, rfl⟩) ?_
  · obtain ⟨e, he, hlive, rfl⟩ := Store.get_eq_some.1 hget
    rw [sessions_signOutSessions] at he
    split at he
    · cases he
    · exact Store.get_of_live he hlive
  · rw [sessions_signOutSessions]
    split
    · rfl
    · exact hnone
  · rcases hevent with rfl | rfl <;> rfl

/-- A link that is written: only the one that is, once a revoke has read it. -/
theorem settled_setLinked {session : Session} {credentialId : CredentialId} {next : AfterLink}
    (hmeets : LinkSettled userId sessionId s (.setLinked session credentialId next)) :
    Settled userId sessionId s (s.after sessionId
      (.setLinked sessionId s.clock s.redis s.credentials session credentialId next)) where
  linkRead h := by simp [DeviceServer.after, h]
  ended hnone := Store.replace_self_none hnone _
  link hread session' hget := by
    obtain ⟨hlive, rfl⟩ := Store.get_replace hget
    obtain ⟨cur, hcur⟩ := Option.isSome_iff_exists.1 hlive
    refine ⟨cur, hcur, ?_⟩
    have hlink := hmeets hread hlive
    rw [sessionLink, hcur, Option.bind_some] at hlink
    exact (eq_some_of_present hlink).symm
  links hread c hc := by
    cases hlive : (s.redis.sessions.get s.clock sessionId).isSome with
    | false =>
        simp only [DeviceServer.after, DeviceRan.setLinked, hlive] at hc
        exact .inl hc
    | true =>
        simp only [DeviceServer.after, DeviceRan.setLinked, hlive, if_true] at hc
        rcases List.mem_cons.1 hc with rfl | hc
        · exact .inr ⟨rfl, hmeets hread hlive⟩
        · exact .inl hc
  registered _ c hreg := hreg

/-- What every command leaves that meets the condition. -/
theorem settled_run {call : DeviceCall} (hmeets : LinkSettled userId sessionId s call) :
    Settled userId sessionId s (s.after sessionId
      (call.run P userId sessionId s.clock s.redis s.credentials)) := by
  cases call with
  | revoke id =>
      simp only [DeviceCall.run]
      split <;> exact settled_of_read
  | sessionCredentialId target =>
      exact settled_of_shrinks (fun _ h => h) id (fun row hrow => ⟨row, hrow, rfl, rfl⟩) rfl
  | revokeUserSession target credentialId =>
      simp only [DeviceCall.run]
      split <;> exact settled_of_read
  | signOutSessions target credentialId =>
      simp only [DeviceCall.run]
      split
      · exact settled_signOut (.inl rfl)
      · exact settled_signOut (.inr rfl)
  | deleteDeviceCredential target credentialId =>
      exact settled_of_shrinks (fun _ h => h) id
        (fun row hrow => ⟨row, (List.mem_filter.1 hrow).1, rfl, rfl⟩) rfl
  | getSession request =>
      simp only [DeviceCall.run]
      split <;> exact settled_of_read
  | readEpoch request session =>
      simp only [DeviceCall.run]
      split <;> exact settled_of_read
  | deleteSession owner =>
      refine settled_of_shrinks (fun session hget => ?_) (fun _ => ?_)
        (fun row hrow => ⟨row, hrow, rfl, rfl⟩) rfl
      · rw [DeviceCall.run, DeviceRan.read, get_endSession] at hget
        cases hget
      · simp [DeviceCall.run, DeviceRan.read, LoginRedis.endSession, LoginRedis.zrem]
  | insertCredential input owner =>
      simp only [DeviceCall.run, DeviceRan.insertCredential]
      split
      · exact settled_of_read
      · exact ⟨fun h => absurd h hmeets, id, fun h => absurd h hmeets, fun h => absurd h hmeets,
          fun h => absurd h hmeets⟩
  | ownsDeviceCredential credentialId owner passwordless =>
      simp only [DeviceCall.run]
      split <;> exact settled_of_read
  | linkSessionCredential credentialId next =>
      simp only [DeviceCall.run]
      split <;> exact settled_of_read
  | setLinked session credentialId next => exact settled_setLinked hmeets
  | refreshDeviceCredential owner credentialId =>
      refine settled_of_shrinks (fun _ h => h) id (fun row hrow => ?_) rfl
      obtain ⟨row', hrow', rfl⟩ := List.mem_map.1 hrow
      refine ⟨row', hrow', ?_⟩
      split <;> exact ⟨rfl, rfl⟩
  | touchSession session => exact settled_touch session

/-- Reading the link: it is of every credential of the session that is registered. -/
theorem covers_read (hmeets : LinkSettled userId sessionId s (.sessionCredentialId sessionId)) :
    Covers userId sessionId (s.after sessionId ((DeviceCall.sessionCredentialId sessionId).run P
      userId sessionId s.clock s.redis s.credentials)) (sessionLink sessionId s) where
  linkRead := by simp [DeviceServer.after, DeviceCall.run]
  link session hget := by
    have hget' : s.redis.sessions.get s.clock sessionId = some session := hget
    rw [sessionLink, hget', Option.bind_some]
  registered c hc hreg := hmeets rfl c hc hreg

/-- Ending the session of a revoke. -/
theorem Covers.ended {credentialId : Option CredentialId}
    (h : Covers userId sessionId s credentialId) {event : DeviceEvent}
    {rest : DeviceAnswer ⊕ DeviceCall} (hevent : event = .quiet ∨ event = .revoked sessionId) :
    EndedWith userId sessionId (fun c => present credentialId = some c) (s.after sessionId
      { redis := s.redis.signOutSessions s.clock userId [sessionId]
        credentials := s.credentials
        event := event
        rest := rest }) := by
  have hsettled := @settled_signOut userId sessionId s sessionId event rest hevent
  refine ⟨hsettled.linkRead h.linkRead, ?_, fun c hc hreg => ?_⟩
  · exact (sessions_signOutSessions _ _ _).trans (if_pos rfl)
  · refine h.registered c ?_ (hsettled.registered h.linkRead c hreg)
    rcases hevent with rfl | rfl <;> exact hc

/-- Deleting the credential that was left. -/
theorem EndedWith.deleted {credentialId : CredentialId}
    (h : EndedWith userId sessionId (· = credentialId) s) :
    EndedWith userId sessionId (fun _ => False) (s.after sessionId
      ((DeviceCall.deleteDeviceCredential sessionId credentialId).run P userId sessionId s.clock
        s.redis s.credentials)) := by
  have hrest : LinkSettled userId sessionId s
      (.deleteDeviceCredential sessionId credentialId) := trivial
  have hafter := h.settled (@settled_run P userId sessionId s _ hrest)
  refine ⟨hafter.linkRead, hafter.ended, fun c hc hreg => ?_⟩
  obtain rfl := hafter.registered c hc hreg
  obtain ⟨row, hrow, hu, hid⟩ := hreg
  exact of_decide_eq_true (List.mem_filter.1 hrow).2 ⟨hu, hid⟩

theorem EndedWith.mono {left left' : CredentialId → Prop}
    (h : EndedWith userId sessionId left s) (hleft : ∀ c, left c → left' c) :
    EndedWith userId sessionId left' s :=
  { h with registered := fun c hc hreg => hleft c (h.registered c hc hreg) }

/-- What a command does for its own call. -/
theorem revokeCallInv_run {i : ℕ} {call : DeviceCall}
    (hmeets : LinkSettled userId sessionId s call) (hc : RevokeCallInv userId sessionId i s call) :
    ∀ c, (call.run P userId sessionId s.clock s.redis s.credentials).rest.getRight? = some c →
      RevokeCallInv userId sessionId i (s.after sessionId
        (call.run P userId sessionId s.clock s.redis s.credentials)) c := by
  intro c hrest
  have hsettled := @settled_run P userId sessionId s call hmeets
  cases call with
  | sessionCredentialId target =>
      obtain rfl := Option.some.inj hrest
      rintro rfl
      exact covers_read hmeets
  | revokeUserSession target credentialId =>
      have hnext : c = .signOutSessions target credentialId := by
        simp only [DeviceCall.run] at hrest
        split at hrest
        · exact (Option.some.inj hrest).symm
        · cases hrest
      rw [hnext]
      exact fun ht => (hc ht).settled hsettled
  | signOutSessions target credentialId =>
      simp only [DeviceCall.run] at hrest ⊢
      split at hrest
      · next credentialId' hpresent =>
          obtain rfl := Option.some.inj hrest
          rintro rfl
          refine ((hc rfl).ended (.inl rfl)).mono fun c' hc' => ?_
          exact Option.some.inj (hc'.symm.trans hpresent)
      · cases hrest
  | readEpoch request session =>
      simp only [DeviceCall.run] at hrest
      split at hrest
      · cases request with
        | registerDeviceCredential input =>
            simp only [DeviceRan.read, DeviceRequest.handle] at hrest
            split at hrest
            · cases hrest
            · split at hrest <;> cases hrest
              trivial
        | linkDeviceCredential credentialId =>
            cases hrest
            trivial
      · cases hrest
        trivial
  | setLinked session credentialId next =>
      cases next <;> cases hrest
      trivial
  | revoke _ | getSession _ | ownsDeviceCredential _ _ _ | linkSessionCredential _ _
  | insertCredential _ _ =>
      -- none of them goes on with a command of a revoke that has read the link
      simp only [DeviceCall.run, DeviceRan.insertCredential] at hrest
      split at hrest <;> cases hrest <;> trivial
  | deleteDeviceCredential _ _ | deleteSession _ | refreshDeviceCredential _ _ | touchSession _ =>
      cases hrest

/-- A revoke completes with one of two commands. -/
theorem of_revoked {call : DeviceCall} {now : Time} {redis : LoginRedis}
    {credentials : List DeviceCredential}
    (h : (call.run P userId sessionId now redis credentials).event = .revoked sessionId) :
    (∃ credentialId, call = .signOutSessions sessionId credentialId ∧
      present credentialId = none) ∨
    ∃ credentialId, call = .deleteDeviceCredential sessionId credentialId := by
  cases call with
  | signOutSessions target credentialId =>
      simp only [DeviceCall.run] at h
      split at h
      · cases h
      · next hnone =>
          obtain rfl := DeviceEvent.revoked.inj h
          exact .inl ⟨credentialId, rfl, hnone⟩
  | deleteDeviceCredential target credentialId =>
      obtain rfl := DeviceEvent.revoked.inj h
      exact .inr ⟨credentialId, rfl⟩
  | revoke _ | revokeUserSession _ _ | getSession _ | readEpoch _ _ | ownsDeviceCredential _ _ _
  | linkSessionCredential _ _ | setLinked _ _ _ | insertCredential _ _ =>
      simp only [DeviceCall.run, DeviceRan.setLinked, DeviceRan.insertCredential] at h
      split at h <;> cases h
  | sessionCredentialId _ | deleteSession _ | refreshDeviceCredential _ _ | touchSession _ =>
      cases h

theorem revokeInv_run {n i : ℕ} {call : DeviceCall} (hs : RevokeInv userId sessionId n s)
    (hmeets : LinkSettled userId sessionId s call) (hc : RevokeCallInv userId sessionId i s call) :
    RevokeInv userId sessionId n (s.after sessionId
      (call.run P userId sessionId s.clock s.redis s.credentials)) := by
  intro hrevoked
  cases hbefore : s.revoked with
  | true => exact (hs hbefore).settled (settled_run hmeets)
  | false =>
      simp only [DeviceServer.after, hbefore, Bool.false_or, decide_eq_true_eq] at hrevoked
      rcases of_revoked hrevoked with ⟨credentialId, rfl, hnone⟩ | ⟨credentialId, rfl⟩
      · simp only [DeviceCall.run, hnone]
        refine ((hc rfl).ended (.inr rfl)).mono fun c hc' => ?_
        rw [hnone] at hc'
        cases hc'
      · exact (hc rfl).deleted

end Lemmas

/-! ### Runs -/

theorem keeps_revoke : Interleaving.Keeps DeviceCall.Begins
    (fun i s call s' rest => LinkSettled userId sessionId s call ∧
      DeviceCommand P userId sessionId i s call s' rest)
    DeviceServer.Passes (RevokeInv userId sessionId) (RevokeCallInv userId sessionId) where
  begin i s call hbegins hs := by
    refine ⟨hs, ?_⟩
    cases hbegins <;> trivial
  run n i s call s' rest hi hs hc := by
    rintro ⟨hmeets, rfl, rfl⟩
    exact ⟨revokeInv_run hs hmeets hc, revokeCallInv_run hmeets hc⟩
  frame n i s call s' rest hs hc := by
    rintro ⟨hmeets, rfl, rfl⟩ j c hji hj
    exact revokeCallInv_settled hj (settled_run hmeets)
  other n s s' hs hpass := by
    have hsettled : Settled userId sessionId s s' := by
      cases hpass with
      | tick clock hclock =>
          have hget := fun session => @Store.get_of_get_le _ _ s.redis.sessions s.clock clock
            sessionId session hclock
          exact ⟨id, id, fun _ session' h => ⟨session', hget session' h, rfl⟩,
            fun _ c hc => .inl hc, fun _ c hreg => hreg⟩
    have hrevoked : s'.revoked = s.revoked := by
      cases hpass with
      | tick clock hclock => rfl
    exact ⟨fun h => (hs (hrevoked ▸ h)).settled hsettled,
      fun j c hj => revokeCallInv_settled hj hsettled⟩

/-- **A revoke** takes the credentials of the session with it, in every run in which the link a
revoke reads is settled. -/
theorem revoked_with_credentials {clock : Time} {redis : LoginRedis}
    {credentials : List DeviceCredential} {t : DeviceState}
    (ht : Run.Reaches (CredentialStep P userId sessionId (LinkSettled userId sessionId))
      (Interleaving.State.idle (DeviceServer.start sessionId clock redis credentials)) t) :
    RevokedWithCredentials userId sessionId t.shared := by
  have hstart : RevokeInv userId sessionId 0
      (DeviceServer.start sessionId clock redis credentials) := nofun
  have hholds := Interleaving.holds_of_reaches (keeps_revoke P userId sessionId) ht
    (Interleaving.holds_idle hstart)
  intro hrevoked
  have hended := hholds.inv hrevoked
  exact ⟨by rw [Store.get, hended.ended]; rfl, hended.registered⟩

/-! ### A registration before a revoke, and one in between -/

instance (s : DeviceServer) (call : DeviceCall) :
    Decidable (LinkSettled userId sessionId s call) :=
  match call with
  | .sessionCredentialId target => inferInstanceAs (Decidable (target = sessionId →
      ∀ credentialId ∈ s.links, Registered userId s credentialId →
        present (sessionLink sessionId s) = some credentialId))
  | .insertCredential _ _ => inferInstanceAs (Decidable (¬ s.linkRead))
  | .setLinked _ credentialId _ => inferInstanceAs (Decidable (s.linkRead →
      (s.redis.sessions.get s.clock sessionId).isSome →
        present (sessionLink sessionId s) = some credentialId))
  | .revoke _ | .revokeUserSession _ _ | .signOutSessions _ _ | .deleteDeviceCredential _ _
  | .getSession _ | .readEpoch _ _ | .deleteSession _ | .ownsDeviceCredential _ _ _
  | .linkSessionCredential _ _ | .refreshDeviceCredential _ _ | .touchSession _ => isTrue trivial

instance (s : DeviceServer) : Decidable (RevokedWithCredentials userId sessionId s) :=
  inferInstanceAs (Decidable (s.revoked → s.redis.sessions.get s.clock sessionId = none ∧
    ∀ credentialId ∈ s.links, ¬ Registered userId s credentialId))

/-- Handles are the ids, and every key can be used. -/
def plainDevices : DevicePlatform where
  publicSessionId := id
  credentialKey _ _ := true

/-- A session of user 7 that just logged in with the password. -/
def freshSession : Session where
  userId := 7
  rawAuthKey := "key"
  authenticatedAt := some 1000
  deviceName := some "Firefox"
  secondFactor := false
  deviceCredentialId := none
  passwordless := false

def freshSessionRedis : LoginRedis where
  sessions id := if id = "s" then some ⟨freshSession, some 86401000⟩ else none
  sessionEpochs _ := none
  signedOut _ := none
  nonces _ := none
  loginAttempts _ := none
  secondFactors _ := none
  loginThrottles _ := none
  loginLocks _ := none
  userSessions userId := if userId = 7 then some ⟨[("s", 1000)], some 2592001000⟩ else none

def registerInput : RegisterInput where
  credentialId := "c"
  publicKey := "pk"
  algorithm := -7
  deviceName := some "Firefox"

/-- A registration, a touch and a revoke one after the other. -/
def registerThenRevokeMoves : List DeviceMove :=
  [.begin (.getSession (.registerDeviceCredential registerInput)), .run 0, .run 0, .run 0, .run 0,
    .run 0, .begin (.touchSession freshSession), .run 1, .begin (.revoke "s"), .run 2, .run 2,
    .run 2, .run 2, .run 2]

theorem revoked_with_credentials_registered : ∃ t,
    Run.Reaches (CredentialStep plainDevices 7 "s" (LinkSettled 7 "s"))
      (Interleaving.State.idle (DeviceServer.start "s" 2000 freshSessionRedis [])) t ∧
    t.shared.links = ["c", "c"] ∧ t.shared.revoked ∧ RevokedWithCredentials 7 "s" t.shared := by
  have hsome : (registerThenRevokeMoves.foldlM (Interleaving.move DeviceCall.Begins
      (deviceExec plainDevices 7 "s" (LinkSettled 7 "s")) DeviceServer.tick)
      (Interleaving.State.idle (DeviceServer.start "s" 2000 freshSessionRedis []))).any
        (fun t => t.shared.links = ["c", "c"] ∧ t.shared.revoked) = true := by
    decide +kernel
  obtain ⟨t, ht, hp⟩ := (Option.any_eq_true _ _).mp hsome
  obtain ⟨hlinks, hrevoked⟩ := of_decide_eq_true hp
  have hreach := reaches_of_deviceMoves plainDevices 7 "s" ht
  exact ⟨t, hreach, hlinks, hrevoked, revoked_with_credentials plainDevices 7 "s" hreach⟩

/-- A credential is registered and linked after a revoke read the link, and before it ends the
session. -/
def registerInBetweenMoves : List DeviceMove :=
  [.begin (.getSession (.registerDeviceCredential registerInput)), .begin (.revoke "s"), .run 0,
    .run 0, .run 1, .run 1, .run 0, .run 0, .run 0, .run 1, .run 1]

/-- The credential was linked to the session when the revoke ended it, and it is still there to log
in with. -/
theorem credential_outlives_session : ∃ t,
    Run.Reaches (CredentialStep plainDevices 7 "s" fun _ _ => True)
      (Interleaving.State.idle (DeviceServer.start "s" 2000 freshSessionRedis [])) t ∧
    Registered 7 t.shared "c" ∧ ¬ RevokedWithCredentials 7 "s" t.shared := by
  have hsome : (registerInBetweenMoves.foldlM (Interleaving.move DeviceCall.Begins
      (deviceExec plainDevices 7 "s" fun _ _ => True) DeviceServer.tick)
      (Interleaving.State.idle (DeviceServer.start "s" 2000 freshSessionRedis []))).any
        (fun t => Registered 7 t.shared "c" ∧ ¬ RevokedWithCredentials 7 "s" t.shared) = true := by
    decide +kernel
  obtain ⟨t, ht, hp⟩ := (Option.any_eq_true _ _).mp hsome
  exact ⟨t, reaches_of_deviceMoves plainDevices 7 "s" ht, of_decide_eq_true hp⟩

end Passmgr
