/-
# The second factor under concurrency

`verifySecondFactor` counts its attempt, checks the code, claims the TOTP step or the backup code
and ends the challenge, each with a command of its own in Redis or the database.  Every command
that decides something does it conditionally: what it logs has a key of its own (an attempt of a
challenge, a step, a backup code, the end of a challenge), and no key is logged twice.

Main definitions:

* `SecondFactorSafe` — attempts, sessions and codes are bounded;
* `LoginDb.Grows` — steps only grow and used codes stay used;
* `FactorKey`, `FactorInv` — what is logged once, and what the stores show for it.

Main results:

* `second_factor_safe` — so it is in every interleaving, and the stored step never decreases.
-/

import Mathlib.Data.List.Count
import Mathlib.Data.List.Nodup
import Passmgr.LoginCalls
import Passmgr.RowByRow

set_option relaxedAutoImplicit false
set_option autoImplicit false

namespace Passmgr

open Expiring

/-! ### The property -/

def LoginEvent.isCheckOf (challengeId : ChallengeId) : LoginEvent → Bool
  | .codeChecked challengeId' _ => challengeId' = challengeId
  | _ => false

def LoginEvent.isSessionOf (challengeId : ChallengeId) : LoginEvent → Bool
  | .sessionCreated _ _ _ challengeId' => challengeId' = some challengeId
  | _ => false

/-- At most so many codes are checked for a challenge, at most one session is created for it, and
each TOTP step and each backup code of a user is accepted at most once. -/
structure SecondFactorSafe (s : LoginServer) : Prop where
  checks : ∀ challengeId,
    s.trace.countP (·.event.isCheckOf challengeId) ≤ secondFactorMaxAttempts
  sessions : ∀ challengeId, s.trace.countP (·.event.isSessionOf challengeId) ≤ 1
  codes : ∀ userId code, s.trace.countP (·.event = .codeAccepted userId code) ≤ 1

/-- The secret of a row stays, and its last step never decreases. -/
structure UserTotp.Grows (row row' : UserTotp) : Prop where
  userId : row'.userId = row.userId
  secret : row'.encryptedSecret = row.encryptedSecret ∧ row'.secretNonce = row.secretNonce
  step : ∀ step, row.lastUsedStep = some step →
    ∃ step', row'.lastUsedStep = some step' ∧ step ≤ step'

/-- A backup code that was used stays used. -/
structure BackupCode.Grows (row row' : BackupCode) : Prop where
  userId : row'.userId = row.userId
  codeHash : row'.codeHash = row.codeHash
  used : row.usedAt.isSome → row'.usedAt.isSome

structure LoginDb.Grows (db db' : LoginDb) : Prop where
  totps : List.Forall₂ UserTotp.Grows db.totps db'.totps
  backupCodes : List.Forall₂ BackupCode.Grows db.backupCodes db'.backupCodes

/-! ### What the updates do to the rows -/

section Rows

variable {db db' : LoginDb} {userId : UserId}

theorem UserTotp.Grows.refl (row : UserTotp) : row.Grows row :=
  ⟨rfl, ⟨rfl, rfl⟩, fun step h => ⟨step, h, Nat.le_refl _⟩⟩

theorem UserTotp.Grows.trans {a b c : UserTotp} (h : a.Grows b) (h' : b.Grows c) : a.Grows c := by
  refine ⟨h'.userId.trans h.userId, ⟨h'.secret.1.trans h.secret.1, h'.secret.2.trans h.secret.2⟩,
    fun step hstep => ?_⟩
  obtain ⟨step', hstep', hle⟩ := h.step step hstep
  obtain ⟨step'', hstep'', hle'⟩ := h'.step step' hstep'
  exact ⟨step'', hstep'', hle.trans hle'⟩

theorem BackupCode.Grows.refl (row : BackupCode) : row.Grows row := ⟨rfl, rfl, id⟩

theorem BackupCode.Grows.trans {a b c : BackupCode} (h : a.Grows b) (h' : b.Grows c) :
    a.Grows c :=
  ⟨h'.userId.trans h.userId, h'.codeHash.trans h.codeHash, fun hu => h'.used (h.used hu)⟩

theorem LoginDb.Grows.of_eq (htotps : db'.totps = db.totps)
    (hcodes : db'.backupCodes = db.backupCodes) : db.Grows db' := by
  constructor
  · rw [htotps]
    exact List.forall₂_same.2 fun row _ => UserTotp.Grows.refl row
  · rw [hcodes]
    exact List.forall₂_same.2 fun row _ => BackupCode.Grows.refl row

theorem LoginDb.Grows.trans {a b c : LoginDb} (h : a.Grows b) (h' : b.Grows c) : a.Grows c where
  totps := RowByRow.trans (fun _ _ _ hab hbc => hab.trans hbc) h.totps h'.totps
  backupCodes := RowByRow.trans (fun _ _ _ hab hbc => hab.trans hbc) h.backupCodes h'.backupCodes

theorem grows_useBackupCode (db : LoginDb) (now : Time) (userId : UserId) (codeHash : String) :
    db.Grows (db.useBackupCode now userId codeHash).2 where
  totps := (LoginDb.Grows.of_eq rfl rfl : db.Grows db).totps
  backupCodes := by
    refine RowByRow.map_right (fun row => ?_) _
    split
    · exact ⟨rfl, rfl, fun _ => rfl⟩
    · exact BackupCode.Grows.refl row

theorem grows_claimTotpStep (db : LoginDb) (userId : UserId) (step : ℕ) :
    db.Grows (db.claimTotpStep userId step).2 where
  totps := by
    refine RowByRow.map_right (fun row => ?_) _
    split
    · next hbelow =>
        refine ⟨rfl, ⟨rfl, rfl⟩, fun last hlast => ⟨step, rfl, ?_⟩⟩
        rw [LoginDb.isBelowStep, hlast, Bool.and_eq_true] at hbelow
        exact Nat.le_of_lt (of_decide_eq_true hbelow.2)
    · exact UserTotp.Grows.refl row
  backupCodes := (LoginDb.Grows.of_eq rfl rfl : db.Grows db).backupCodes

/-- A code that no update accepts again. -/
def Spent (db : LoginDb) (userId : UserId) : AcceptedCode → Prop
  | .totp step => ∀ row ∈ db.totps, row.userId = userId →
      ∃ last, row.lastUsedStep = some last ∧ step ≤ last
  | .backup codeHash => ∀ row ∈ db.backupCodes, row.userId = userId → row.codeHash = codeHash →
      row.usedAt.isSome

theorem Spent.grows (hgrows : db.Grows db') {code : AcceptedCode} (h : Spent db userId code) :
    Spent db' userId code := by
  cases code with
  | totp step =>
      intro row' hrow' huser
      obtain ⟨row, hrow, hr⟩ := RowByRow.exists_left hgrows.totps hrow'
      obtain ⟨last, hlast, hle⟩ := h row hrow (hr.userId.symm.trans huser)
      obtain ⟨last', hlast', hle'⟩ := hr.step last hlast
      exact ⟨last', hlast', hle.trans hle'⟩
  | backup codeHash =>
      intro row' hrow' huser hhash
      obtain ⟨row, hrow, hr⟩ := RowByRow.exists_left hgrows.backupCodes hrow'
      exact hr.used (h row hrow (hr.userId.symm.trans huser) (hr.codeHash.symm.trans hhash))

/-- A backup code is used once. -/
theorem useBackupCode_spends {now : Time} {codeHash : String}
    (h : (db.useBackupCode now userId codeHash).1 = true) :
    ¬ Spent db userId (.backup codeHash) ∧
      Spent (db.useBackupCode now userId codeHash).2 userId (.backup codeHash) := by
  constructor
  · obtain ⟨row, hrow, hunused⟩ := List.any_eq_true.1 h
    simp only [LoginDb.isUnused, Bool.and_eq_true, decide_eq_true_eq] at hunused
    intro hspent
    have := hspent row hrow hunused.1.1 hunused.1.2
    rw [Option.isNone_iff_eq_none.1 hunused.2] at this
    cases this
  · intro row' hrow' huser hhash
    obtain ⟨row, hrow, rfl⟩ := List.mem_map.1 hrow'
    by_cases hunused : LoginDb.isUnused userId codeHash row
    · rw [if_pos hunused]
      rfl
    · rw [if_neg hunused] at huser hhash ⊢
      by_contra hnone
      refine hunused ?_
      simp only [LoginDb.isUnused, huser, hhash, decide_true, Bool.true_and]
      exact Option.not_isSome_iff_eq_none.1 hnone ▸ rfl

/-- A step is claimed once. -/
theorem claimTotpStep_spends {step : ℕ} (h : (db.claimTotpStep userId step).1 = true) :
    ¬ Spent db userId (.totp step) ∧
      Spent (db.claimTotpStep userId step).2 userId (.totp step) := by
  constructor
  · obtain ⟨row, hrow, hbelow⟩ := List.any_eq_true.1 h
    rw [LoginDb.isBelowStep, Bool.and_eq_true] at hbelow
    intro hspent
    obtain ⟨last, hlast, hle⟩ := hspent row hrow (of_decide_eq_true hbelow.1)
    rw [hlast] at hbelow
    exact absurd (of_decide_eq_true hbelow.2) (Nat.not_lt.2 hle)
  · intro row' hrow' huser
    obtain ⟨row, hrow, rfl⟩ := List.mem_map.1 hrow'
    by_cases hbelow : LoginDb.isBelowStep userId step row
    · rw [if_pos hbelow]
      exact ⟨step, rfl, Nat.le_refl _⟩
    · rw [if_neg hbelow] at huser ⊢
      simp only [LoginDb.isBelowStep, huser, decide_true, Bool.true_and] at hbelow
      cases hlast : row.lastUsedStep with
      | none =>
          rw [hlast] at hbelow
          exact absurd rfl hbelow
      | some last =>
          rw [hlast] at hbelow
          exact ⟨last, rfl, Nat.not_lt.1 fun hlt => hbelow (decide_eq_true hlt)⟩

end Rows

/-! ### The invariant -/

/-- What is logged at most once. -/
inductive FactorKey
  | counted (challengeId : ChallengeId) (attempts : ℕ)
  | checked (challengeId : ChallengeId) (attempts : ℕ)
  | accepted (userId : UserId) (code : AcceptedCode)
  | taken (challengeId : ChallengeId)
  | session (challengeId : ChallengeId)

def LoginEvent.factorKey : LoginEvent → Option FactorKey
  | .attemptCounted challengeId attempts => some (.counted challengeId attempts)
  | .codeChecked challengeId attempts => some (.checked challengeId attempts)
  | .codeAccepted userId code => some (.accepted userId code)
  | .challengeTaken challengeId => some (.taken challengeId)
  | .sessionCreated _ _ _ challengeId => challengeId.map .session
  | _ => none

/-- A call logged a key. -/
def Has (s : LoginServer) (call : ℕ) (key : FactorKey) : Prop :=
  ∃ l ∈ s.trace, l.call = call ∧ l.event.factorKey = some key

/-- What the stores show for a key that a call logged. -/
def Known (s : LoginServer) (call : ℕ) : FactorKey → Prop
  | .counted challengeId attempts => challengeId ∈ s.issued ∧ 1 ≤ attempts ∧
      ∀ e, s.redis.secondFactors challengeId = some e → attempts ≤ e.value.attempts
  | .checked challengeId attempts => attempts ≤ secondFactorMaxAttempts ∧
      Has s call (.counted challengeId attempts)
  | .accepted userId code => Spent s.db userId code
  | .taken challengeId => challengeId ∈ s.issued ∧ s.redis.secondFactors challengeId = none
  | .session challengeId => Has s call (.taken challengeId)

/-- No key is logged twice. -/
def KeysOnce (events : List LoginEvent) : Prop :=
  events.Pairwise fun event event' => ∀ key, event.factorKey = some key →
    event'.factorKey ≠ some key

structure FactorInv (n : ℕ) (s : LoginServer) : Prop where
  calls : ∀ l ∈ s.trace, l.call < n
  keys : ∀ id, s.redis.secondFactors id ≠ none → id ∈ s.issued
  once : KeysOnce (s.trace.map (·.event))
  known : ∀ l ∈ s.trace, ∀ key, l.event.factorKey = some key → Known s l.call key

/-- A call that has checked no code yet. -/
def Unchecked (s : LoginServer) (call : ℕ) : Prop :=
  ∀ challengeId attempts, ¬ Has s call (.checked challengeId attempts)

/-- A call that has created no session for a challenge yet. -/
def NoSession (s : LoginServer) (call : ℕ) : Prop :=
  ∀ challengeId, ¬ Has s call (.session challengeId)

/-- A login that is about to get its session has ended its challenge. -/
def TookChallenge (s : LoginServer) (call : ℕ) (finished : FinishedLogin) : Prop :=
  ∀ challengeId, finished.challengeId = some challengeId →
    Has s call (.taken challengeId) ∧ NoSession s call

/-- What a call in flight has to show for. -/
def FactorCallInv (i : ℕ) (s : LoginServer) : LoginCall → Prop
  | .verifySecondFactor .. | .readChallengeLock .. | .countAttempt .. =>
    Unchecked s i ∧ NoSession s i
  | .checkChallengeRevoked check attempts | .loadChallengeKeys check attempts
  | .checkSecondFactor check attempts _ => (Unchecked s i ∧ NoSession s i) ∧
      attempts ≤ secondFactorMaxAttempts ∧ Has s i (.counted check.challengeId attempts)
  | .claimTotpStep .. | .takeChallenge .. => NoSession s i
  | .resetLoginThrottle finished | .stampSession finished | .setSession finished .. =>
    TookChallenge s i finished
  | _ => True

section Commands

variable {s : LoginServer} {n i j call : ℕ} {fresh : String} {ran : Ran} {key : FactorKey}

/-- A key that is logged once has one entry. -/
theorem FactorInv.eq_of_key (hs : FactorInv n s) {l l' : Logged} (hl : l ∈ s.trace)
    (hl' : l' ∈ s.trace) (hkey : l.event.factorKey = some key)
    (hkey' : l'.event.factorKey = some key) : l = l' := by
  have hpair := List.pairwise_map.1 hs.once
  have hne : s.trace.Pairwise fun a b => a.event.factorKey = some key →
      b.event.factorKey = some key → a = b :=
    hpair.imp fun h ha hb => absurd hb (h key ha)
  exact hne.forall_of_forall_of_flip (fun _ _ _ _ => rfl)
    (hpair.imp fun h ha hb => absurd ha (h key hb)) hl hl' hkey hkey'

theorem FactorInv.eq_call (hs : FactorInv n s) (h : Has s i key) (h' : Has s j key) : i = j := by
  obtain ⟨l, hl, rfl, hkey⟩ := h
  obtain ⟨l', hl', rfl, hkey'⟩ := h'
  rw [hs.eq_of_key hl hl' hkey hkey']

theorem has_after : Has (s.after i fresh ran) call key ↔
    Has s call key ∨ (call = i ∧ ∃ event ∈ ran.events, event.factorKey = some key) := by
  constructor
  · rintro ⟨l, hl, rfl, hkey⟩
    rcases LoginServer.mem_after_trace.1 hl with hold | ⟨rfl, -, hnew⟩
    · exact Or.inl ⟨l, hold, rfl, hkey⟩
    · exact Or.inr ⟨rfl, l.event, hnew, hkey⟩
  · rintro (⟨l, hl, hrest⟩ | ⟨rfl, event, hevent, hkey⟩)
    · exact ⟨l, LoginServer.mem_after_trace.2 (Or.inl hl), hrest⟩
    · exact ⟨{ call := call, time := s.clock, event := event },
        LoginServer.mem_after_trace.2 (Or.inr ⟨rfl, rfl, hevent⟩), rfl, hkey⟩

/-- A command that logs no such key leaves it unlogged. -/
theorem not_has_after (h : ¬ Has s call key)
    (hnew : call = i → ∀ event ∈ ran.events, event.factorKey ≠ some key) :
    ¬ Has (s.after i fresh ran) call key := by
  rw [has_after]
  rintro (hold | ⟨hcall, event, hevent, hkey⟩)
  · exact h hold
  · exact hnew hcall event hevent hkey

/-- What one command does to the second factors. -/
structure FactorEffect (s : LoginServer) (i : ℕ) (fresh : String) (ran : Ran) : Prop where
  /-- Challenges are new, or their attempts have only grown. -/
  store : ∀ id e', ran.redis.secondFactors id = some e' → id = fresh ∨
    ∃ e, s.redis.secondFactors id = some e ∧ e.value.attempts ≤ e'.value.attempts
  db : s.db.Grows ran.db
  once : KeysOnce ran.events
  new : ∀ event ∈ ran.events, ∀ key, event.factorKey = some key →
    (∀ l ∈ s.trace, l.event.factorKey ≠ some key) ∧ Known (s.after i fresh ran) i key

/-- What the stores show for a key they show from then on. -/
theorem Known.after (hfresh : fresh ∉ s.issued) (heffect : FactorEffect s i fresh ran)
    (h : Known s call key) : Known (s.after i fresh ran) call key := by
  cases key with
  | counted challengeId attempts =>
      obtain ⟨hissued, hpos, hle⟩ := h
      refine ⟨List.mem_cons_of_mem _ hissued, hpos, fun e' he' => ?_⟩
      rcases heffect.store challengeId e' he' with rfl | ⟨e, he, hgrown⟩
      · exact absurd hissued hfresh
      · exact (hle e he).trans hgrown
  | checked challengeId attempts => exact ⟨h.1, has_after.2 (Or.inl h.2)⟩
  | accepted userId code => exact Spent.grows heffect.db h
  | taken challengeId =>
      obtain ⟨hissued, hgone⟩ := h
      refine ⟨List.mem_cons_of_mem _ hissued, Option.eq_none_iff_forall_not_mem.2 fun e' he' => ?_⟩
      rcases heffect.store challengeId e' he' with rfl | ⟨e, he, -⟩
      · exact hfresh hissued
      · rw [hgone] at he
        cases he
  | session challengeId => exact has_after.2 (Or.inl h)

theorem FactorInv.after (hs : FactorInv n s) (hi : i < n) (hfresh : fresh ∉ s.issued)
    (heffect : FactorEffect s i fresh ran) : FactorInv n (s.after i fresh ran) := by
  refine ⟨?_, ?_, ?_, ?_⟩
  · intro l hl
    rcases LoginServer.mem_after_trace.1 hl with hold | ⟨rfl, -, -⟩
    · exact hs.calls l hold
    · exact hi
  · intro id hid
    obtain ⟨e', he'⟩ := Option.ne_none_iff_exists'.1 hid
    rcases heffect.store id e' he' with rfl | ⟨e, he, -⟩
    · exact List.mem_cons_self
    · exact List.mem_cons_of_mem _ (hs.keys id (by rw [he]; simp))
  · rw [LoginServer.after, KeysOnce, List.map_append, List.map_map, List.pairwise_append]
    refine ⟨hs.once, ?_, ?_⟩
    · rw [Function.comp_def, List.map_id']
      exact heffect.once
    · intro event hevent event' hevent' key hkey hkey'
      obtain ⟨l, hl, rfl⟩ := List.mem_map.1 hevent
      obtain ⟨event'', hmem, rfl⟩ := List.mem_map.1 hevent'
      exact (heffect.new event'' hmem key hkey').1 l hl hkey
  · intro l hl key hkey
    rcases LoginServer.mem_after_trace.1 hl with hold | ⟨rfl, -, hnew⟩
    · exact (hs.known l hold key hkey).after hfresh heffect
    · exact (heffect.new l.event hnew key hkey).2

/-- A command leaves the other calls in order. -/
theorem factorCallInv_other {c : LoginCall} (hc : FactorCallInv j s c) (hji : j ≠ i) :
    FactorCallInv j (s.after i fresh ran) c := by
  have hnot : ∀ key, ¬ Has s j key → ¬ Has (s.after i fresh ran) j key :=
    fun _ h => not_has_after h fun heq => absurd heq hji
  have hboth : Unchecked s j ∧ NoSession s j →
      Unchecked (s.after i fresh ran) j ∧ NoSession (s.after i fresh ran) j :=
    fun h => ⟨fun _ _ => hnot _ (h.1 _ _), fun _ => hnot _ (h.2 _)⟩
  cases c with
  | verifySecondFactor | readChallengeLock | countAttempt => exact hboth hc
  | checkChallengeRevoked | loadChallengeKeys | checkSecondFactor =>
      exact ⟨hboth hc.1, hc.2.1, has_after.2 (Or.inl hc.2.2)⟩
  | claimTotpStep | takeChallenge => exact fun _ => hnot _ (hc _)
  | resetLoginThrottle | stampSession | setSession =>
      intro challengeId hid
      obtain ⟨htook, hno⟩ := hc challengeId hid
      exact ⟨has_after.2 (Or.inl htook), fun _ => hnot _ (hno _)⟩
  | _ => trivial

/-- What is left of the challenges when one is taken. -/
theorem secondFactors_of_take {redis : LoginRedis} {now : Time} {challengeId id : ChallengeId}
    {e : Entry CountedChallenge}
    (h : (redis.takeSecondFactorChallenge now challengeId).2.secondFactors id = some e) :
    redis.secondFactors id = some e := by
  have hdel : (redis.takeSecondFactorChallenge now challengeId).2.secondFactors id =
      redis.secondFactors.del challengeId id := rfl
  rw [hdel, Store.del] at h
  by_cases hid : id = challengeId
  · rw [hid, Function.update_self] at h
    cases h
  · rwa [Function.update_of_ne hid] at h

/-- What one command keeps. -/
structure FactorKept (s : LoginServer) (i : ℕ) (fresh : String) (ran : Ran) : Prop where
  effect : FactorEffect s i fresh ran
  rest : ∀ c, ran.rest = some c → FactorCallInv i (s.after i fresh ran) c

/-! ### One command -/

variable {redis : LoginRedis} {db : LoginDb} {events : List LoginEvent} {c : LoginCall}

/-- A command that leaves the challenges and the codes alone. -/
theorem factorEffect_quiet (hredis : ran.redis.secondFactors = s.redis.secondFactors)
    (hdb : ran.db = s.db) (hnone : ∀ event ∈ ran.events, event.factorKey = none) :
    FactorEffect s i fresh ran where
  store id e' he' := Or.inr ⟨e', hredis ▸ he', Nat.le_refl _⟩
  db := LoginDb.Grows.of_eq (by rw [hdb]) (by rw [hdb])
  once := by
    refine List.pairwise_of_forall_mem_list fun event hevent _ _ key hkey => ?_
    rw [hnone event hevent] at hkey
    cases hkey
  new event hevent key hkey := by
    rw [hnone event hevent] at hkey
    cases hkey

/-- A call is in order after a command that logs nothing about it. -/
theorem factorCallInv_quiet (hc : FactorCallInv i s c)
    (hnone : ∀ event ∈ ran.events, event.factorKey = none) :
    FactorCallInv i (s.after i fresh ran) c := by
  have hnot : ∀ key, ¬ Has s i key → ¬ Has (s.after i fresh ran) i key :=
    fun _ h => not_has_after h fun _ event hevent => by simp [hnone event hevent]
  have hboth : Unchecked s i ∧ NoSession s i →
      Unchecked (s.after i fresh ran) i ∧ NoSession (s.after i fresh ran) i :=
    fun h => ⟨fun _ _ => hnot _ (h.1 _ _), fun _ => hnot _ (h.2 _)⟩
  cases c with
  | verifySecondFactor | readChallengeLock | countAttempt => exact hboth hc
  | checkChallengeRevoked | loadChallengeKeys | checkSecondFactor =>
      exact ⟨hboth hc.1, hc.2.1, has_after.2 (Or.inl hc.2.2)⟩
  | claimTotpStep | takeChallenge => exact fun _ => hnot _ (hc _)
  | resetLoginThrottle | stampSession | setSession =>
      intro challengeId hid
      obtain ⟨htook, hno⟩ := hc challengeId hid
      exact ⟨has_after.2 (Or.inl htook), fun _ => hnot _ (hno _)⟩
  | _ => trivial

theorem kept_answer (hredis : redis.secondFactors = s.redis.secondFactors)
    (hnone : ∀ event ∈ events, event.factorKey = none) (answer : LoginAnswer) :
    FactorKept s i fresh (Ran.answer redis s.db events answer) where
  effect := by
    refine factorEffect_quiet hredis rfl fun event hevent => ?_
    rcases List.mem_append.1 hevent with hold | hnew
    · exact hnone event hold
    · rw [List.mem_singleton.1 hnew]
      rfl
  rest c hc := by cases hc

theorem kept_next (hredis : redis.secondFactors = s.redis.secondFactors)
    (hnone : ∀ event ∈ events, event.factorKey = none) (hc : FactorCallInv i s c) :
    FactorKept s i fresh (Ran.next redis s.db events c) where
  effect := factorEffect_quiet hredis rfl hnone
  rest c' hc' := by
    obtain rfl := Option.some.inj hc'
    exact factorCallInv_quiet hc hnone

/-- A command before the second factor. -/
theorem Ran.Opens.kept (h : ran.Opens s.redis s.db) : FactorKept s i fresh ran where
  effect := by
    refine factorEffect_quiet h.secondFactors h.db fun event hevent => ?_
    have hopening := h.events event hevent
    cases event <;> first | rfl | cases hopening
  rest c hc := by
    rcases h.rest c hc with hopening | ⟨_, rfl⟩ | ⟨_, rfl⟩ | ⟨_, rfl⟩
    · cases c <;> trivial
    · trivial
    · trivial
    · trivial

theorem kept_endExceptedOr (hredis : redis.secondFactors = s.redis.secondFactors)
    {userId : UserId} {exceptSessionId : Option SessionId} {startedAt : Time} :
    FactorKept s i fresh (endExceptedOr redis s.db userId exceptSessionId startedAt) := by
  cases exceptSessionId with
  | none => exact kept_answer hredis (by simp [LoginEvent.factorKey]) _
  | some sessionId => exact kept_next hredis (by simp) trivial

theorem factorCallInv_finishWith {finished : FinishedLogin} (h : TookChallenge s i finished) :
    FactorCallInv i s (finishWith finished) := by
  unfold finishWith
  split
  · exact h
  · exact h

/-- A command that takes challenges away and logs nothing about second factors. -/
theorem kept_burn (now : Time) (challengeId : ChallengeId) (answer : LoginAnswer) :
    FactorKept s i fresh (Ran.answer (s.redis.takeSecondFactorChallenge now challengeId).2 s.db []
      answer) where
  effect := by
    refine ⟨fun id e' he' => Or.inr ⟨e', ?_, Nat.le_refl _⟩, LoginDb.Grows.of_eq rfl rfl,
      List.pairwise_singleton _ _, fun event hevent key hkey => ?_⟩
    · exact @secondFactors_of_take _ now challengeId _ _ he'
    · rw [List.mem_singleton.1 hevent] at hkey
      cases hkey
  rest c hc := by cases hc

/-- A fresh challenge. -/
theorem kept_setSecondFactorChallenge (P : LoginPlatform) (login : VerifiedLogin) :
    FactorKept s i fresh
      ((LoginCall.setSecondFactorChallenge login).run P fresh s.clock s.redis s.db) where
  effect := by
    refine ⟨fun id e' he' => ?_, LoginDb.Grows.of_eq rfl rfl, List.pairwise_singleton _ _,
      fun event hevent key hkey => ?_⟩
    · by_cases hid : id = fresh
      · exact Or.inl hid
      · have hset : s.redis.secondFactors id = some e' :=
          (Store.set_of_ne _ _ _ hid).symm.trans he'
        exact Or.inr ⟨e', hset, Nat.le_refl _⟩
    · rw [List.mem_singleton.1 hevent] at hkey
      cases hkey
  rest c hc := by cases hc

/-- An attempt is counted past all that were counted before it. -/
theorem kept_countAttempt (P : LoginPlatform) (hs : FactorInv n s) (check : SecondFactorCheck)
    (hc : FactorCallInv i s (.countAttempt check)) :
    FactorKept s i fresh ((LoginCall.countAttempt check).run P fresh s.clock s.redis s.db) := by
  simp only [LoginCall.run, LoginRedis.countSecondFactorAttempt]
  cases he : s.redis.secondFactors check.challengeId with
  | none => exact kept_next rfl (by simp) trivial
  | some e =>
      dsimp only
      by_cases hlive : e.live s.clock
      · rw [if_pos hlive]
        dsimp only
        have hstore : ∀ id e', s.redis.secondFactors.set check.challengeId
            { e.value with attempts := e.value.attempts + 1 } e.expiresAt id = some e' →
              ∃ e₀, s.redis.secondFactors id = some e₀ ∧ e₀.value.attempts ≤ e'.value.attempts ∧
                (id = check.challengeId → e.value.attempts + 1 ≤ e'.value.attempts) := by
          intro id e' he'
          by_cases hid : id = check.challengeId
          · rw [hid, Store.set_self] at he'
            obtain rfl := Option.some.inj he'
            exact ⟨e, hid ▸ he, Nat.le_succ _, fun _ => Nat.le_refl _⟩
          · rw [Store.set_of_ne _ _ _ hid] at he'
            exact ⟨e', he', Nat.le_refl _, fun heq => absurd heq hid⟩
        refine ⟨⟨fun id e' he' => ?_, LoginDb.Grows.of_eq rfl rfl, List.pairwise_singleton _ _,
          fun event hevent key hkey => ?_⟩, fun c hrest => ?_⟩
        · obtain ⟨e₀, he₀, hle, -⟩ := hstore id e' he'
          exact Or.inr ⟨e₀, he₀, hle⟩
        · rw [List.mem_singleton.1 hevent] at hkey
          obtain rfl := Option.some.inj hkey
          refine ⟨fun l hl hold => ?_, ?_, Nat.le_add_left _ _, fun e' he' => ?_⟩
          · exact absurd ((hs.known l hl _ hold).2.2 e he) (Nat.not_le.2 (Nat.lt_succ_self _))
          · exact List.mem_cons_of_mem _ (hs.keys _ (by rw [he]; simp))
          · obtain ⟨-, -, -, hself⟩ := hstore _ e' he'
            exact hself rfl
        · obtain rfl := Option.some.inj hrest
          by_cases hmax : secondFactorMaxAttempts < e.value.attempts + 1
          · rw [if_pos hmax]
            trivial
          · rw [if_neg hmax]
            refine ⟨⟨fun _ _ => not_has_after (hc.1 _ _) ?_, fun _ => not_has_after (hc.2 _) ?_⟩,
              Nat.not_lt.1 hmax, has_after.2 (Or.inr ?_)⟩
            · rintro - event hevent
              rw [List.mem_singleton.1 hevent]
              simp [LoginEvent.factorKey]
            · rintro - event hevent
              rw [List.mem_singleton.1 hevent]
              simp [LoginEvent.factorKey]
            · exact ⟨rfl, _, List.mem_singleton_self _, rfl⟩
      · rw [if_neg hlive]
        exact kept_next rfl (by simp) trivial

/-- The attempt of a call that has checked no code yet is checked for the first time. -/
theorem checked_new (hs : FactorInv n s) {challengeId : ChallengeId} {attempts : ℕ}
    (hunchecked : Unchecked s i) (hmax : attempts ≤ secondFactorMaxAttempts)
    (hcounted : Has s i (.counted challengeId attempts)) :
    (∀ l ∈ s.trace, l.event.factorKey ≠ some (.checked challengeId attempts)) ∧
      Known (s.after i fresh ran) i (.checked challengeId attempts) := by
  refine ⟨fun l hl hkey => ?_, hmax, has_after.2 (Or.inl hcounted)⟩
  have hcall := hs.eq_call (hs.known l hl _ hkey).2 hcounted
  exact hunchecked _ _ ⟨l, hl, hcall, hkey⟩

/-- A code that was not spent is accepted for the first time. -/
theorem accepted_new (hs : FactorInv n s) {userId : UserId} {code : AcceptedCode}
    (hnot : ¬ Spent s.db userId code) (hspent : Spent ran.db userId code) :
    (∀ l ∈ s.trace, l.event.factorKey ≠ some (.accepted userId code)) ∧
      Known (s.after i fresh ran) i (.accepted userId code) :=
  ⟨fun l hl hkey => hnot (hs.known l hl _ hkey), hspent⟩

/-- The check of a code. -/
theorem kept_checkSecondFactor (P : LoginPlatform) (hs : FactorInv n s)
    (check : SecondFactorCheck) (attempts : ℕ) (keys : LoginKeys)
    (hc : FactorCallInv i s (.checkSecondFactor check attempts keys)) :
    FactorKept s i fresh
      ((LoginCall.checkSecondFactor check attempts keys).run P fresh s.clock s.redis s.db) := by
  obtain ⟨⟨hunchecked, hno⟩, hmax, hcounted⟩ := hc
  have hsession : ∀ ran : Ran, (∀ event ∈ ran.events, ∀ challengeId,
      event.factorKey ≠ some (.session challengeId)) → NoSession (s.after i fresh ran) i :=
    fun ran hnone _ => not_has_after (hno _) fun _ event hevent => hnone event hevent _
  -- a check that changes nothing
  have hchecked : ∀ c, (NoSession (s.after i fresh (Ran.next s.redis s.db
      [.codeChecked check.challengeId attempts] c)) i →
        FactorCallInv i (s.after i fresh (Ran.next s.redis s.db
          [.codeChecked check.challengeId attempts] c)) c) →
      FactorKept s i fresh
        (Ran.next s.redis s.db [.codeChecked check.challengeId attempts] c) := by
    intro c hrest
    refine ⟨⟨fun id e' he' => Or.inr ⟨e', he', Nat.le_refl _⟩, LoginDb.Grows.of_eq rfl rfl,
      List.pairwise_singleton _ _, fun event hevent key hkey => ?_⟩, fun c' hc' => ?_⟩
    · rw [List.mem_singleton.1 hevent] at hkey
      obtain rfl := Option.some.inj hkey
      exact checked_new hs hunchecked hmax hcounted
    · obtain rfl := Option.some.inj hc'
      refine hrest (hsession _ fun event hevent _ => ?_)
      rw [List.mem_singleton.1 hevent]
      simp [LoginEvent.factorKey]
  simp only [LoginCall.run]
  split
  · split
    · exact hchecked _ fun _ => trivial
    · exact hchecked _ id
  · split
    · next db' heq =>
        obtain ⟨hused, rfl⟩ := Prod.mk.inj heq
        obtain ⟨hnot, hspent⟩ := useBackupCode_spends hused
        refine ⟨⟨fun id e' he' => Or.inr ⟨e', he', Nat.le_refl _⟩, grows_useBackupCode _ _ _ _,
          List.pairwise_pair.2 ?_, fun event hevent key hkey => ?_⟩, fun c hrest => ?_⟩
        · intro key hkey
          obtain rfl := Option.some.inj hkey
          simp [LoginEvent.factorKey]
        · rcases List.mem_cons.1 hevent with rfl | hevent
          · obtain rfl := Option.some.inj hkey
            exact checked_new hs hunchecked hmax hcounted
          · rw [List.mem_singleton.1 hevent] at hkey
            obtain rfl := Option.some.inj hkey
            exact accepted_new hs hnot hspent
        · obtain rfl := Option.some.inj hrest
          refine hsession _ fun event hevent _ => ?_
          rcases List.mem_cons.1 hevent with rfl | hevent
          · simp [LoginEvent.factorKey]
          · rw [List.mem_singleton.1 hevent]
            simp [LoginEvent.factorKey]
    · next db' heq =>
        obtain ⟨hused, rfl⟩ := Prod.mk.inj heq
        -- no row was marked
        refine ⟨⟨fun id e' he' => Or.inr ⟨e', he', Nat.le_refl _⟩, grows_useBackupCode _ _ _ _,
          List.pairwise_singleton _ _, fun event hevent key hkey => ?_⟩, fun c hrest => ?_⟩
        · rw [List.mem_singleton.1 hevent] at hkey
          obtain rfl := Option.some.inj hkey
          exact checked_new hs hunchecked hmax hcounted
        · obtain rfl := Option.some.inj hrest
          trivial

/-- The claim of a step. -/
theorem kept_claimTotpStep (P : LoginPlatform) (hs : FactorInv n s) (check : SecondFactorCheck)
    (attempts : ℕ) (keys : LoginKeys) (step : ℕ)
    (hc : FactorCallInv i s (.claimTotpStep check attempts keys step)) :
    FactorKept s i fresh
      ((LoginCall.claimTotpStep check attempts keys step).run P fresh s.clock s.redis s.db) := by
  simp only [LoginCall.run]
  split
  · next db' heq =>
      obtain ⟨hclaimed, rfl⟩ := Prod.mk.inj heq
      obtain ⟨hnot, hspent⟩ := claimTotpStep_spends hclaimed
      refine ⟨⟨fun id e' he' => Or.inr ⟨e', he', Nat.le_refl _⟩, grows_claimTotpStep _ _ _,
        List.pairwise_singleton _ _, fun event hevent key hkey => ?_⟩, fun c hrest => ?_⟩
      · rw [List.mem_singleton.1 hevent] at hkey
        obtain rfl := Option.some.inj hkey
        exact accepted_new hs hnot hspent
      · obtain rfl := Option.some.inj hrest
        refine fun _ => not_has_after (hc _) fun _ event hevent => ?_
        rw [List.mem_singleton.1 hevent]
        simp [LoginEvent.factorKey]
  · next db' heq =>
      obtain ⟨-, rfl⟩ := Prod.mk.inj heq
      refine ⟨⟨fun id e' he' => Or.inr ⟨e', he', Nat.le_refl _⟩, grows_claimTotpStep _ _ _,
        List.Pairwise.nil, fun event hevent => ?_⟩, fun c hrest => ?_⟩
      · cases hevent
      · obtain rfl := Option.some.inj hrest
        trivial

/-- A challenge that is still there ends, and its login goes on. -/
theorem kept_takeChallenge (P : LoginPlatform) (hs : FactorInv n s) (check : SecondFactorCheck)
    (keys : LoginKeys) (hc : FactorCallInv i s (.takeChallenge check keys)) :
    FactorKept s i fresh
      ((LoginCall.takeChallenge check keys).run P fresh s.clock s.redis s.db) := by
  simp only [LoginCall.run]
  split
  · next redis' heq =>
      obtain rfl := (Prod.mk.inj heq).2
      exact kept_burn s.clock check.challengeId _
  · next redis' heq =>
      obtain ⟨htaken, rfl⟩ := Prod.mk.inj heq
      have hheld : s.redis.secondFactors check.challengeId ≠ none := by
        intro hnone
        rw [Store.get, hnone] at htaken
        cases htaken
      refine ⟨⟨fun id e' he' => Or.inr ⟨e', ?_, Nat.le_refl _⟩, LoginDb.Grows.of_eq rfl rfl,
        List.pairwise_singleton _ _, fun event hevent key hkey => ?_⟩, fun c hrest => ?_⟩
      · exact @secondFactors_of_take _ s.clock check.challengeId _ _ he'
      · rw [List.mem_singleton.1 hevent] at hkey
        obtain rfl := Option.some.inj hkey
        refine ⟨fun l hl hold => hheld (hs.known l hl _ hold).2,
          List.mem_cons_of_mem _ (hs.keys _ hheld), Function.update_self _ _ _⟩
      · obtain rfl := Option.some.inj hrest
        refine factorCallInv_finishWith fun challengeId hid => ⟨has_after.2 (Or.inr ⟨rfl, ?_⟩), ?_⟩
        · obtain rfl := Option.some.inj hid
          exact ⟨_, List.mem_singleton_self _, rfl⟩
        · refine fun _ => not_has_after (hc _) fun _ event hevent => ?_
          rw [List.mem_singleton.1 hevent]
          simp [LoginEvent.factorKey]

/-- The session of a login that ended its challenge. -/
theorem kept_setSession (P : LoginPlatform) (hs : FactorInv n s) (finished : FinishedLogin)
    (session : Session) (ttl : ℕ) (score : Time)
    (hc : FactorCallInv i s (.setSession finished session ttl score)) :
    FactorKept s i fresh
      ((LoginCall.setSession finished session ttl score).run P fresh s.clock s.redis s.db) where
  effect := by
    refine ⟨fun id e' he' => Or.inr ⟨e', he', Nat.le_refl _⟩, LoginDb.Grows.of_eq rfl rfl,
      List.pairwise_pair.2 fun key _ => by simp [LoginEvent.factorKey],
      fun event hevent key hkey => ?_⟩
    rcases List.mem_cons.1 hevent with rfl | hevent
    · obtain ⟨challengeId, hid, rfl⟩ := Option.map_eq_some_iff.1 hkey
      obtain ⟨htook, hno⟩ := hc challengeId hid
      refine ⟨fun l hl hold => ?_, has_after.2 (Or.inl htook)⟩
      have hcall := hs.eq_call (hs.known l hl _ hold) htook
      exact hno _ ⟨l, hl, hcall, hold⟩
    · rw [List.mem_singleton.1 hevent] at hkey
      cases hkey
  rest c hc := by cases hc

/-- **Every command** keeps the keys. -/
theorem factorKept_run (P : LoginPlatform) (hs : FactorInv n s) {call : LoginCall}
    (hc : FactorCallInv i s call) :
    FactorKept s i fresh (call.run P fresh s.clock s.redis s.db) := by
  have hnil : ∀ event ∈ ([] : List LoginEvent), event.factorKey = none := by simp
  cases call with
  | startLogin | countLoginStart | setLoginLock | stampStart | readRegistration | setLoginAttempt
  | finishLogin | readLoginUser | checkRevoked | completeLogin =>
      exact (opening_run P fresh s.clock s.redis s.db rfl).kept
  | setSecondFactorChallenge login => exact kept_setSecondFactorChallenge P login
  | loginKeys login =>
      simp only [LoginCall.run]
      split
      · exact kept_answer (by rfl) hnil _
      · refine kept_next (by rfl) hnil (factorCallInv_finishWith fun challengeId hid => ?_)
        cases hid
  | resetLoginThrottle finished => exact kept_next (by rfl) hnil hc
  | stampSession finished => exact kept_next (by rfl) hnil hc
  | setSession finished session ttl score =>
      exact kept_setSession P hs finished session ttl score hc
  | verifySecondFactor challengeId code =>
      simp only [LoginCall.run]
      split
      · exact kept_answer (by rfl) hnil _
      · exact kept_next (by rfl) hnil hc
  | readChallengeLock check =>
      simp only [LoginCall.run]
      split
      · exact kept_answer (by rfl) hnil _
      · exact kept_next (by rfl) hnil hc
  | countAttempt check => exact kept_countAttempt P hs check hc
  | burnChallenge challengeId => exact kept_burn s.clock challengeId _
  | checkChallengeRevoked check attempts =>
      simp only [LoginCall.run]
      split
      · exact kept_next (by rfl) hnil trivial
      · exact kept_next (by rfl) hnil hc
  | loadChallengeKeys check attempts =>
      simp only [LoginCall.run]
      split
      · exact kept_answer (by rfl) hnil _
      · exact kept_next (by rfl) hnil hc
  | checkSecondFactor check attempts keys => exact kept_checkSecondFactor P hs check attempts keys hc
  | claimTotpStep check attempts keys step =>
      exact kept_claimTotpStep P hs check attempts keys step hc
  | takeChallenge check keys => exact kept_takeChallenge P hs check keys hc
  | getSession sessionId =>
      simp only [LoginCall.run]
      split
      · exact kept_answer (by rfl) hnil _
      · exact kept_next (by rfl) hnil trivial
  | readEpoch sessionId session =>
      simp only [LoginCall.run]
      split
      · exact kept_answer (by rfl) (by simp [LoginEvent.factorKey]) _
      · exact kept_next (by rfl) hnil trivial
  | dropSession sessionId userId => exact kept_answer (by rfl) hnil _
  | revokeUserSessions userId exceptSessionId => exact kept_next (by rfl) hnil trivial
  | stampEpoch userId exceptSessionId sessionIds startedAt =>
      exact kept_next (by rfl) (by simp [LoginEvent.factorKey]) trivial
  | setEpoch userId exceptSessionId sessionIds startedAt epoch =>
      simp only [LoginCall.run]
      split
      · exact kept_endExceptedOr (by rfl)
      · exact kept_next (by rfl) hnil trivial
  | signOutSessions userId exceptSessionId sessionIds startedAt => exact kept_endExceptedOr (by rfl)
  | endExcepted userId exceptSessionId startedAt =>
      exact kept_answer (by rfl) (by simp [LoginEvent.factorKey]) _

end Commands

/-! ### Runs -/

theorem keeps_factors (P : LoginPlatform) : Interleaving.Keeps LoginCall.Begins
    (fun i s call s' rest => True ∧ LoginCommand P i s call s' rest)
    LoginServer.Passes FactorInv FactorCallInv where
  begin i s call hbegins hs := by
    have hnone : ∀ key, ¬ Has s i key := by
      rintro key ⟨l, hl, rfl, -⟩
      exact Nat.lt_irrefl _ (hs.calls l hl)
    refine ⟨⟨fun l hl => Nat.lt_succ_of_lt (hs.calls l hl), hs.keys, hs.once, hs.known⟩, ?_⟩
    cases hbegins with
    | verifySecondFactor challengeId code => exact ⟨fun _ _ => hnone _, fun _ => hnone _⟩
    | _ => trivial
  run n i s call s' rest hi hs hc := by
    rintro ⟨-, fresh, hfresh, rfl, rfl⟩
    have hkept := @factorKept_run s n i fresh P hs call hc
    exact ⟨hs.after hi hfresh hkept.effect, hkept.rest⟩
  frame n i s call s' rest hs hc := by
    rintro ⟨-, fresh, hfresh, rfl, rfl⟩ j c hji hj
    exact factorCallInv_other hj hji
  other n s s' hs h := by
    cases h with
    | tick clock hclock => exact ⟨⟨hs.calls, hs.keys, hs.once, hs.known⟩, fun j c hj => hj⟩
    | accounts users keys =>
        refine ⟨⟨hs.calls, hs.keys, hs.once, fun l hl key hkey => ?_⟩, fun j c hj => hj⟩
        have hknown := hs.known l hl key hkey
        cases key with
        | accepted userId code => cases code <;> exact hknown
        | _ => exact hknown

/-- What is logged once is logged at most once. -/
theorem FactorInv.countP_le_one {n : ℕ} {s : LoginServer} (hs : FactorInv n s)
    {p : LoginEvent → Bool} {key : FactorKey} (hp : ∀ event, p event → event.factorKey = some key) :
    s.trace.countP (p ·.event) ≤ 1 := by
  rw [List.countP_eq_length_filter]
  by_contra hnot
  obtain ⟨l, l', rest, hfilter⟩ : ∃ l l' rest, s.trace.filter (p ·.event) = l :: l' :: rest := by
    match hf : s.trace.filter (p ·.event) with
    | [] => simp [hf] at hnot
    | [_] => simp [hf] at hnot
    | l :: l' :: rest => exact ⟨l, l', rest, hf⟩
  have hpair := List.Pairwise.filter (p ·.event) (List.pairwise_map.1 hs.once)
  have hmem : ∀ x ∈ s.trace.filter (p ·.event), x.event.factorKey = some key :=
    fun x hx => hp _ (List.mem_filter.1 hx).2
  rw [hfilter] at hpair hmem
  exact (List.pairwise_cons.1 hpair).1 l' List.mem_cons_self key
    (hmem l List.mem_cons_self) (hmem l' (List.mem_cons_of_mem _ List.mem_cons_self))

/-- The attempts a challenge was checked at. -/
def checkedAttempts (challengeId : ChallengeId) (trace : List Logged) : List ℕ :=
  trace.filterMap fun l =>
    match l.event with
    | .codeChecked challengeId' attempts =>
      if challengeId' = challengeId then some attempts else none
    | _ => none

theorem mem_checkedAttempts {challengeId : ChallengeId} {l : Logged} {attempts : ℕ} :
    (match l.event with
      | .codeChecked challengeId' attempts =>
        if challengeId' = challengeId then some attempts else none
      | _ => none) = some attempts ↔ l.event = .codeChecked challengeId attempts := by
  cases l.event with
  | codeChecked challengeId' attempts' =>
      dsimp only
      split
      · next heq => simp [heq]
      · next hne => simp [hne]
  | _ => simp

/-- The codes of a challenge are checked at attempts that differ and are within the bound. -/
theorem FactorInv.checks_le {n : ℕ} {s : LoginServer} (hs : FactorInv n s)
    (challengeId : ChallengeId) :
    s.trace.countP (·.event.isCheckOf challengeId) ≤ secondFactorMaxAttempts := by
  have hcount : s.trace.countP (·.event.isCheckOf challengeId) =
      (checkedAttempts challengeId s.trace).length := by
    rw [checkedAttempts, List.length_filterMap_eq_countP]
    refine List.countP_congr fun l _ => ?_
    cases l.event with
    | codeChecked challengeId' attempts =>
        simp only [LoginEvent.isCheckOf, decide_eq_true_eq]
        split <;> simp_all
    | _ => simp [LoginEvent.isCheckOf]
  have hnodup : (checkedAttempts challengeId s.trace).Nodup := by
    refine List.Pairwise.filterMap _ ?_ (List.pairwise_map.1 hs.once)
    intro l l' h attempts hl attempts' hl' heq
    rw [mem_checkedAttempts] at hl hl'
    subst heq
    exact h (.checked challengeId attempts) (by rw [hl]; rfl) (by rw [hl']; rfl)
  have hsubset : checkedAttempts challengeId s.trace ⊆ List.range' 1 secondFactorMaxAttempts := by
    intro attempts hmem
    obtain ⟨l, hl, hevent⟩ := List.mem_filterMap.1 hmem
    rw [mem_checkedAttempts] at hevent
    obtain ⟨hmax, l', hl', -, hkey'⟩ :=
      hs.known l hl (.checked challengeId attempts) (by rw [hevent]; rfl)
    have hpos := (hs.known l' hl' _ hkey').2.1
    rw [List.mem_range'_1]
    omega
  calc s.trace.countP (·.event.isCheckOf challengeId)
      = (checkedAttempts challengeId s.trace).length := hcount
    _ ≤ (List.range' 1 secondFactorMaxAttempts).length :=
        (List.Nodup.subperm hnodup hsubset).length_le
    _ = secondFactorMaxAttempts := List.length_range'

theorem FactorInv.safe {n : ℕ} {s : LoginServer} (hs : FactorInv n s) : SecondFactorSafe s where
  checks := hs.checks_le
  sessions challengeId := by
    refine @FactorInv.countP_le_one n s hs _ (.session challengeId) fun event hp => ?_
    cases event with
    | sessionCreated sessionId userId startedAt challengeId' =>
        rw [LoginEvent.factorKey, of_decide_eq_true hp]
        rfl
    | _ => cases hp
  codes userId code := by
    refine @FactorInv.countP_le_one n s hs (· = .codeAccepted userId code) (.accepted userId code)
      fun event hp => ?_
    rw [of_decide_eq_true hp]
    rfl

/-- One step leaves the rows or lets them grow. -/
theorem grows_step (P : LoginPlatform) {s u : LoginState}
    (hs : Interleaving.Holds FactorInv FactorCallInv s) (hst : AnyLoginStep P s u) :
    s.shared.db.Grows u.shared.db := by
  cases hst with
  | begin call hbegins => exact .of_eq rfl rfl
  | run i call shared rest hcall hcmd =>
      obtain ⟨-, fresh, hfresh, rfl, rfl⟩ := hcmd
      exact (@factorKept_run s.shared _ i fresh P hs.inv call (hs.calls i call hcall)).effect.db
  | other shared hother =>
      cases hother with
      | tick clock hclock => exact .of_eq rfl rfl
      | accounts users keys => exact .of_eq rfl rfl

/-- **The second factor** is safe in every interleaving of logins, whatever challenges and codes
there were before, and the last step that is stored for a secret never decreases. -/
theorem second_factor_safe (P : LoginPlatform) {clock : Time} {redis : LoginRedis} {db : LoginDb}
    {issued : List String} (hissued : ∀ id, redis.secondFactors id ≠ none → id ∈ issued)
    {t : LoginState} (ht : Run.Reaches (AnyLoginStep P)
      (Interleaving.State.idle (LoginServer.start clock redis db issued)) t) :
    SecondFactorSafe t.shared ∧
      ∀ u, Run.Reaches (AnyLoginStep P) t u → t.shared.db.Grows u.shared.db := by
  have hstart : FactorInv 0 (LoginServer.start clock redis db issued) := by
    refine ⟨?_, hissued, List.Pairwise.nil, ?_⟩
    · intro l hl
      cases hl
    · intro l hl
      cases hl
  have hholds : Interleaving.Holds FactorInv FactorCallInv t :=
    Interleaving.holds_of_reaches (keeps_factors P) ht (Interleaving.holds_idle hstart)
  refine ⟨hholds.inv.safe, fun u hu => ?_⟩
  have hboth : Interleaving.Holds FactorInv FactorCallInv u ∧ t.shared.db.Grows u.shared.db :=
    @Run.invariant _ _
      (fun u => Interleaving.Holds FactorInv FactorCallInv u ∧ t.shared.db.Grows u.shared.db)
      (fun v w hv hst => ⟨hv.1.step (keeps_factors P) hst, hv.2.trans (grows_step P hv.1 hst)⟩)
      _ _ hu ⟨hholds, .of_eq rfl rfl⟩
  exact hboth.2

/-! ### Two challenges and one code -/

/-- A challenge of the account that logs in with "pw". -/
def plainChallenge : CountedChallenge where
  challenge := {
    userId := 7
    emailHash := "a@b"
    rawAuthKey := "key"
    deviceName := none
    startedAt := 5
    deviceCredentialId := none }
  attempts := 0

/-- Two challenges are waiting. -/
def twoChallengesRedis : LoginRedis :=
  { emptyLoginRedis with
    secondFactors := fun id =>
      if id = "x" ∨ id = "y" then some ⟨plainChallenge, some 1000⟩ else none }

/-- The account with a secret and two backup codes. -/
def factorDb : LoginDb :=
  { oneLoginDb with
    totps := [{ userId := 7, encryptedSecret := "123456", secretNonce := "", lastUsedStep := none }]
    backupCodes := [{ userId := 7, codeHash := "backup", usedAt := none }] }

/-- Two logins race with one code, and the one that loses goes on with a backup code. -/
def racingMoves : List LoginMove :=
  [.begin (.verifySecondFactor "x" "123456"), .begin (.verifySecondFactor "y" "123456"),
    .run 0 "a", .run 1 "b", .run 0 "c", .run 1 "d", .run 0 "e", .run 1 "f", .run 0 "g",
    .run 1 "h", .run 0 "i", .run 1 "j", .run 0 "k", .run 1 "l", .run 0 "m", .run 1 "n",
    .run 0 "o", .run 1 "p", .run 0 "q", .run 0 "r", .run 0 "first",
    .begin (.verifySecondFactor "y" "backup"), .run 2 "s", .run 2 "t", .run 2 "u", .run 2 "v",
    .run 2 "w", .run 2 "z", .run 2 "aa", .run 2 "bb", .run 2 "cc", .run 2 "second"]

theorem second_factor_safe_racing : ∃ t,
    Run.Reaches (AnyLoginStep plainLogin)
      (Interleaving.State.idle (LoginServer.start 10 twoChallengesRedis factorDb ["x", "y"])) t ∧
    (t.shared.trace.filter (·.event.factorKey.isSome)).map (·.event) = [
      .attemptCounted "x" 1, .attemptCounted "y" 1, .codeChecked "x" 1, .codeChecked "y" 1,
      .codeAccepted 7 (.totp 2), .challengeTaken "x", .sessionCreated "first" 7 5 (some "x"),
      .attemptCounted "y" 2, .codeChecked "y" 2, .codeAccepted 7 (.backup "backup"),
      .challengeTaken "y", .sessionCreated "second" 7 5 (some "y")] ∧
    SecondFactorSafe t.shared := by
  have hsome : (racingMoves.foldlM (loginMove plainLogin LoginCall.Begins fun _ _ => True)
      (Interleaving.State.idle (LoginServer.start 10 twoChallengesRedis factorDb ["x", "y"]))).any
        (fun t => (t.shared.trace.filter (·.event.factorKey.isSome)).map (·.event) = [
          .attemptCounted "x" 1, .attemptCounted "y" 1, .codeChecked "x" 1, .codeChecked "y" 1,
          .codeAccepted 7 (.totp 2), .challengeTaken "x", .sessionCreated "first" 7 5 (some "x"),
          .attemptCounted "y" 2, .codeChecked "y" 2, .codeAccepted 7 (.backup "backup"),
          .challengeTaken "y", .sessionCreated "second" 7 5 (some "y")]) = true := by
    decide +kernel
  obtain ⟨t, ht, hp⟩ := (Option.any_eq_true _ _).mp hsome
  have hreach := reaches_of_moves plainLogin ht
  have hissued : ∀ id, twoChallengesRedis.secondFactors id ≠ none → id ∈ ["x", "y"] := by
    intro id hid
    by_contra hnot
    exact hid (if_neg fun h => hnot (by rcases h with rfl | rfl <;> simp))
  exact ⟨t, hreach, of_decide_eq_true hp, (second_factor_safe plainLogin hissued hreach).1⟩

end Passmgr
