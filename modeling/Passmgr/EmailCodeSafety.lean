/-
# A fresh email code is not lost or over-tried

A check counts its guess and reads the code with one command and deletes the key with another.  A
check of an earlier code that deletes late deletes the code that replaced it, and two checks that
both read the code before one of them deletes it both accept it.  What a check counts is safe: no
code has more guesses than attempts.

Main definitions:

* `Acceptable`, `EmailCodesSafe` — the property: sends, guesses, one use, and a code that stays;
* `CodesInTurn`, `EmailCallsInTurn` — what every command of a run is to meet;
* `CodeInv`, `CodeCallInv` — the key of a code counts the guesses at it.

Main results:

* `email_codes_safe` — the property holds in every run whose commands meet the condition;
* `fresh_code_lost`, `code_accepted_twice`, `six_sends_in_an_hour` — and not without it.
-/

import Passmgr.EmailSends

set_option relaxedAutoImplicit false
set_option autoImplicit false

namespace Passmgr

open Expiring

/-! ### The property and the condition -/

/-- How often a guess at a code was right, wrong or too late. -/
def guesses (trace : List EmailLogged) (code : ℕ) (guess : Guess) : ℕ :=
  trace.countP fun l => l.code = code ∧ l.event = .guessed guess

def EmailEvent.isCodeSet : EmailEvent → Bool
  | .codeSet _ => true
  | _ => false

def EmailEvent.isGuess : EmailEvent → Bool
  | .guessed _ => true
  | _ => false

/-- The code of an entry was set last, has not expired or been accepted, and has guesses left. -/
structure Acceptable (s : EmailServer) (l : EmailLogged) : Prop where
  mem : l ∈ s.trace
  set : l.event.isCodeSet
  last : l.code = s.codes
  notExpired : s.clock ≤ l.time + emailCodeTtl
  notUsed : guesses s.trace l.code .right = 0
  tries : guesses s.trace l.code .wrong < emailCodeMaxAttempts

instance (s : EmailServer) (l : EmailLogged) : Decidable (Acceptable s l) :=
  decidable_of_iff (l ∈ s.trace ∧ l.event.isCodeSet ∧ l.code = s.codes ∧
      s.clock ≤ l.time + emailCodeTtl ∧ guesses s.trace l.code .right = 0 ∧
      guesses s.trace l.code .wrong < emailCodeMaxAttempts)
    ⟨fun ⟨mem, set, last, notExpired, notUsed, tries⟩ =>
        ⟨mem, set, last, notExpired, notUsed, tries⟩,
      fun h => ⟨h.mem, h.set, h.last, h.notExpired, h.notUsed, h.tries⟩⟩

variable (hashEmailCode : UserId → String → String) (userId : UserId)

/-- No hour from its first send on has more than `emailCodesPerHour` sends; a code is not accepted
after `emailCodeMaxAttempts` wrong guesses, and once at most; and a check of a code that is
acceptable accepts it. -/
structure EmailCodesSafe (s : EmailServer) : Prop where
  hourly : ∀ firsts, TimeWindows.Divides emailHour EmailLogged.time (sends s.trace) firsts →
    ∀ first ∈ firsts, (sends s.trace).countP
      (fun l => decide (first ≤ l.time ∧ l.time ≤ first + emailHour)) ≤ emailCodesPerHour
  tries : ∀ before l after, s.trace = before ++ l :: after → l.event = .guessed .right →
    guesses before l.code .wrong < emailCodeMaxAttempts
  once : ∀ code, guesses s.trace code .right ≤ 1
  fresh : ∀ l code, Acceptable s l → l.event = .codeSet code →
    ((EmailCall.checkEmailCode code).run hashEmailCode userId s.clock s.redis).rest =
      .inr (.delCode .ok)

/-- A check reads a code it matches when every check that matched it has deleted it, and deletes the
key when no code that was set since its guess is acceptable. -/
def CodesInTurn (i : ℕ) (s : EmailServer) : EmailCall → Prop
  | .checkEmailCode code => ∀ stored ∈ s.redis.emailCodes.get s.clock userId,
      stored.hash = some (hashEmailCode userId code) → stored.attempts < emailCodeMaxAttempts →
        ∀ l ∈ s.trace, l.code = s.codes → l.event = .guessed .right → Did s.trace l.call .deleted
  | .delCode _ => ∀ l ∈ s.trace, Acceptable s l →
      ∀ g ∈ s.trace, g.call = i → g.event.isGuess → g.code = l.code
  | _ => True

/-- What every command of a run is to meet. -/
def EmailCallsInTurn (i : ℕ) (s : EmailServer) (call : EmailCall) : Prop :=
  ClaimsInTheirHour userId i s call ∧ CodesInTurn hashEmailCode userId i s call

/-! ### The log -/

section Log

variable {s : EmailServer} {i : ℕ} {ran : EmailRan}

theorem guesses_after (code : ℕ) (guess : Guess) :
    guesses (s.after i ran).trace code guess = guesses s.trace code guess +
      if s.codesWith ran.event = code ∧ ran.event = .guessed guess then 1 else 0 := by
  simp only [guesses, EmailServer.after, List.countP_append, List.countP_singleton,
    EmailServer.logged, decide_eq_true_eq]

theorem codesWith_of_not_set (s : EmailServer) {event : EmailEvent}
    (h : ∀ code, event ≠ .codeSet code) : s.codesWith event = s.codes := by
  unfold EmailServer.codesWith
  split
  · next code => exact absurd rfl (h code)
  · rfl

theorem exists_codeSet {event : EmailEvent} (h : event.isCodeSet) :
    ∃ code, event = .codeSet code := by
  cases event with
  | codeSet code => exact ⟨code, rfl⟩
  | _ => cases h

/-- An acceptable code that was set before was acceptable before. -/
theorem Acceptable.of_after {l : EmailLogged} (h : Acceptable (s.after i ran) l)
    (hle : l.code ≤ s.codes) : Acceptable s l := by
  have hlast : l.code = s.codesWith ran.event := h.last
  have hnot : ∀ code', ran.event ≠ .codeSet code' := by
    intro code' heq
    rw [heq] at hlast
    exact absurd hle (Nat.not_le.2 (by rw [hlast]; exact Nat.lt_succ_self _))
  have hmem : l ∈ s.trace := by
    rcases mem_after_trace.1 h.mem with hl | rfl
    · exact hl
    · obtain ⟨code, hset⟩ := exists_codeSet h.set
      exact absurd hset (hnot code)
  have hused := h.notUsed
  have htries := h.tries
  rw [guesses_after] at hused htries
  exact ⟨hmem, h.set, hlast.trans (codesWith_of_not_set s hnot), h.notExpired,
    (Nat.add_eq_zero_iff.1 hused).1, Nat.lt_of_le_of_lt (Nat.le_add_right _ _) htries⟩

theorem guesses_eq_zero {code : ℕ} (h : ∀ l ∈ s.trace, l.code < code) (guess : Guess) :
    guesses s.trace code guess = 0 := by
  refine List.countP_eq_zero.2 fun l hl hp => ?_
  exact absurd (of_decide_eq_true hp).1 (Nat.ne_of_lt (h l hl))

end Log

/-! ### The invariant -/

/-- What the key of a code says while it holds one. -/
structure Counts (s : EmailServer) (e : Entry StoredEmailCode) (hash : String) : Prop where
  set : ∀ l ∈ s.trace, ∀ code, l.event = .codeSet code → l.code = s.codes →
    hash = hashEmailCode userId code ∧ e.expiresAt = some (l.time + emailCodeTtl)
  attempts : e.value.attempts = guesses s.trace s.codes .right + guesses s.trace s.codes .wrong +
    guesses s.trace s.codes .spent
  compared : guesses s.trace s.codes .right + guesses s.trace s.codes .wrong =
    min e.value.attempts emailCodeMaxAttempts

structure CodeInv (s : EmailServer) : Prop where
  le : ∀ l ∈ s.trace, l.code ≤ s.codes
  stored : ∀ e hash, s.redis.emailCodes userId = some e → e.value.hash = some hash →
    Counts hashEmailCode userId s e hash
  kept : ∀ l, Acceptable s l →
    ∃ e hash, s.redis.emailCodes userId = some e ∧ e.value.hash = some hash
  deleted : ∀ l ∈ s.trace, l.event = .guessed .right → l.code = s.codes →
    Did s.trace l.call .deleted → ∀ e, s.redis.emailCodes userId = some e → e.value.hash = none
  once : ∀ code, guesses s.trace code .right ≤ 1
  tries : ∀ before l after, s.trace = before ++ l :: after → l.event = .guessed .right →
    guesses before l.code .wrong < emailCodeMaxAttempts

/-- A check in flight guessed at a code that is not acceptable any more. -/
def CodeCallInv (i : ℕ) (s : EmailServer) : EmailCall → Prop
  | .checkEmailCode _ => ∀ l ∈ s.trace, l.call ≠ i
  | .delCode _ => ∃ g ∈ s.trace, g.call = i ∧ (∃ guess, g.event = .guessed guess) ∧
      ∀ l, Acceptable s l → l.code ≠ g.code
  | _ => True

section Codes

variable {hashEmailCode userId} {s : EmailServer} {i : ℕ} {ran : EmailRan}

/-- The code that is acceptable is stored with its hash, and has attempts left. -/
theorem CodeInv.stored_of_acceptable (h : CodeInv hashEmailCode userId s) {l : EmailLogged}
    (ha : Acceptable s l) : ∃ e code, s.redis.emailCodes userId = some e ∧
      e.live s.clock = true ∧ l.event = .codeSet code ∧
        e.value.hash = some (hashEmailCode userId code) ∧
          e.value.attempts < emailCodeMaxAttempts := by
  obtain ⟨e, hash, he, hhash⟩ := h.kept l ha
  obtain ⟨code, hset⟩ := exists_codeSet ha.set
  have hc := h.stored e hash he hhash
  obtain ⟨rfl, hexp⟩ := hc.set l ha.mem code hset ha.last
  refine ⟨e, code, he, ?_, hset, hhash, ?_⟩
  · rw [Entry.live, hexp]
    exact decide_eq_true ha.notExpired
  · have hused := ha.notUsed
    have htries := ha.tries
    have hcompared := hc.compared
    rw [ha.last] at hused htries
    omega

theorem CodeInv.fresh (h : CodeInv hashEmailCode userId s) {l : EmailLogged} {code : String}
    (ha : Acceptable s l) (hset : l.event = .codeSet code) :
    ((EmailCall.checkEmailCode code).run hashEmailCode userId s.clock s.redis).rest =
      .inr (.delCode .ok) := by
  obtain ⟨e, code', he, hlive, hset', hhash, hattempts⟩ := h.stored_of_acceptable ha
  obtain rfl := EmailEvent.codeSet.inj (hset.symm.trans hset')
  have hcap : ¬ (e.value.attempts + 1 > emailCodeMaxAttempts) := Nat.not_lt.2 hattempts
  simp [EmailCall.run, guessEmailCode, Store.get_of_live he hlive, hhash, hcap]

/-- How the guesses of every run are bounded goes on while no right one is logged too often. -/
theorem CodeInv.bounds_after (h : CodeInv hashEmailCode userId s)
    (hright : ran.event = .guessed .right →
      guesses s.trace s.codes .right = 0 ∧
        guesses s.trace s.codes .wrong < emailCodeMaxAttempts) :
    (∀ code, guesses (s.after i ran).trace code .right ≤ 1) ∧
      ∀ before l after, (s.after i ran).trace = before ++ l :: after → l.event = .guessed .right →
        guesses before l.code .wrong < emailCodeMaxAttempts := by
  refine ⟨fun code => ?_, fun before l after htrace hl => ?_⟩
  · rw [guesses_after]
    split
    · next hnew =>
        obtain ⟨hcode, hran⟩ := hnew
        rw [codesWith_of_not_set s (by simp [hran])] at hcode
        rw [← hcode, (hright hran).1]
    · exact h.once code
  · rcases List.eq_nil_or_concat after with rfl | ⟨init, last, rfl⟩
    · obtain ⟨rfl, hlast⟩ := List.append_inj' htrace rfl
      obtain rfl : s.logged i ran.event = l := (List.cons.inj hlast).1
      have hran : ran.event = .guessed .right := hl
      have hcode : (s.logged i ran.event).code = s.codes :=
        codesWith_of_not_set s (by simp [hran])
      rw [hcode]
      exact (hright hran).2
    · have hsplit : s.trace = before ++ l :: init := by
        have hsnoc : s.trace ++ [s.logged i ran.event] = before ++ l :: init.concat last := htrace
        rw [List.concat_eq_append, ← List.cons_append, ← List.append_assoc] at hsnoc
        exact (List.append_inj' hsnoc rfl).1
      exact h.tries before l init hsplit hl

/-- A command that does not touch the key of the code. -/
theorem CodeInv.quiet (h : CodeInv hashEmailCode userId s)
    (hredis : ran.redis.emailCodes userId = s.redis.emailCodes userId)
    (hset : ∀ code, ran.event ≠ .codeSet code) (hguess : ∀ guess, ran.event ≠ .guessed guess)
    (hdel : ran.event ≠ .deleted) : CodeInv hashEmailCode userId (s.after i ran) := by
  have hcodes : (s.after i ran).codes = s.codes := codesWith_of_not_set s hset
  have hguesses : ∀ code guess,
      guesses (s.after i ran).trace code guess = guesses s.trace code guess := by
    intro code guess
    rw [guesses_after, if_neg fun hnew => hguess guess hnew.2, Nat.add_zero]
  have hle : ∀ l ∈ (s.after i ran).trace, l.code ≤ s.codes := by
    intro l hl
    rcases mem_after_trace.1 hl with hl | rfl
    · exact h.le l hl
    · exact Nat.le_of_eq hcodes
  obtain ⟨honce, htries⟩ :=
    @CodeInv.bounds_after hashEmailCode userId s i ran h fun hran => absurd hran (hguess _)
  refine ⟨fun l hl => hcodes ▸ hle l hl, fun e hash he hhash => ?_, fun l ha => ?_,
    fun l hl hright hcode hdid => ?_, honce, htries⟩
  · have hc := h.stored e hash (hredis ▸ he) hhash
    refine ⟨fun l hl code hcode hlast => ?_, ?_, ?_⟩
    · rcases mem_after_trace.1 hl with hl | rfl
      · exact hc.set l hl code hcode (hlast.trans hcodes)
      · exact absurd hcode (hset code)
    · rw [hcodes, hguesses, hguesses, hguesses]
      exact hc.attempts
    · rw [hcodes, hguesses, hguesses]
      exact hc.compared
  · obtain ⟨e, hash, he, hhash⟩ := h.kept l (ha.of_after (hle l ha.mem))
    exact ⟨e, hash, hredis.trans he, hhash⟩
  · rw [did_after_of_ne hdel] at hdid
    rcases mem_after_trace.1 hl with hl | rfl
    · intro e he
      exact h.deleted l hl hright (hcode.trans hcodes) hdid e (hredis ▸ he)
    · exact absurd hright (hguess _)

/-- A code that is set: no guess is at it yet. -/
theorem CodeInv.sets (h : CodeInv hashEmailCode userId s) (code : String) :
    CodeInv hashEmailCode userId
      (s.after i (storeEmailCode hashEmailCode userId s.clock s.redis code)) := by
  set ran := storeEmailCode hashEmailCode userId s.clock s.redis code with hran
  have hevent : ran.event = .codeSet code := rfl
  have hcodes : (s.after i ran).codes = s.codes + 1 := rfl
  have hentry : ran.redis.emailCodes userId = some
      ⟨⟨some (hashEmailCode userId code), 0⟩, some (s.clock + emailCodeTtl)⟩ := by
    simp [hran, storeEmailCode]
  have hnone : ∀ guess, guesses (s.after i ran).trace (s.codes + 1) guess = 0 := by
    intro guess
    rw [guesses_after, if_neg (by simp [hevent]), Nat.add_zero]
    exact guesses_eq_zero (fun l hl => Nat.lt_succ_of_le (h.le l hl)) guess
  have hold : ∀ {l : EmailLogged}, l ∈ (s.after i ran).trace → l.code = s.codes + 1 →
      l = s.logged i ran.event := by
    intro l hl hcode
    rcases mem_after_trace.1 hl with hl | rfl
    · exact absurd hcode (Nat.ne_of_lt (Nat.lt_succ_of_le (h.le l hl)))
    · rfl
  obtain ⟨honce, htries⟩ :=
    @CodeInv.bounds_after hashEmailCode userId s i ran h fun heq => by cases heq
  refine ⟨fun l hl => ?_, fun e hash he hhash => ?_, fun l ha => ?_,
    fun l hl hright hcode hdid => ?_, honce, htries⟩
  · rw [hcodes]
    rcases mem_after_trace.1 hl with hl | rfl
    · exact Nat.le_succ_of_le (h.le l hl)
    · exact Nat.le_refl _
  · obtain rfl := Option.some.inj (hentry.symm.trans he)
    obtain rfl := Option.some.inj hhash
    refine ⟨fun l hl code' hset hlast => ?_, ?_, ?_⟩
    · obtain rfl := hold hl hlast
      obtain rfl := EmailEvent.codeSet.inj hset
      exact ⟨rfl, rfl⟩
    · rw [hcodes, hnone, hnone, hnone]
    · rw [hcodes, hnone, hnone]
      rfl
  · exact ⟨_, _, hentry, rfl⟩
  · obtain rfl := hold hl hcode
    cases hright

/-- The key is deleted: no code is acceptable when it is. -/
theorem CodeInv.deletes (h : CodeInv hashEmailCode userId s)
    (hnot : ∀ l, ¬ Acceptable s l) (result : CodeCheck) :
    CodeInv hashEmailCode userId (s.after i (delEmailCode userId s.redis result)) := by
  set ran := delEmailCode userId s.redis result with hran
  have hgone : ran.redis.emailCodes userId = none := by simp [hran, delEmailCode]
  have hle : ∀ l ∈ (s.after i ran).trace, l.code ≤ s.codes := by
    intro l hl
    rcases mem_after_trace.1 hl with hl | rfl
    · exact h.le l hl
    · exact Nat.le_refl _
  obtain ⟨honce, htries⟩ :=
    @CodeInv.bounds_after hashEmailCode userId s i ran h fun heq => by cases heq
  refine ⟨hle, fun e hash he hhash => ?_, fun l ha => ?_,
    fun l hl hright hcode hdid e he => ?_, honce, htries⟩
  · cases hgone.symm.trans he
  · exact absurd (ha.of_after (hle l ha.mem)) (hnot l)
  · cases hgone.symm.trans he

/-! ### A guess -/

/-- What a check makes of the key. -/
theorem guessEmailCode_cases (hashEmailCode : UserId → String → String) (userId : UserId)
    (now : Time) (redis : EmailRedis) (code : String) :
    ((∀ e hash, redis.emailCodes userId = some e → e.live now = true →
        e.value.hash ≠ some hash) ∧
      (guessEmailCode hashEmailCode userId now redis code).event = .guessed .spent ∧
      ∃ attempts t, (guessEmailCode hashEmailCode userId now redis code).redis.emailCodes userId =
        some ⟨⟨none, attempts⟩, t⟩) ∨
    ∃ e hash, redis.emailCodes userId = some e ∧ e.live now = true ∧ e.value.hash = some hash ∧
      (guessEmailCode hashEmailCode userId now redis code).redis.emailCodes userId =
        some ⟨⟨some hash, e.value.attempts + 1⟩, e.expiresAt⟩ ∧
      (emailCodeMaxAttempts ≤ e.value.attempts ∧
          (guessEmailCode hashEmailCode userId now redis code).event = .guessed .spent ∨
        e.value.attempts < emailCodeMaxAttempts ∧ hash = hashEmailCode userId code ∧
          (guessEmailCode hashEmailCode userId now redis code).event = .guessed .right ∨
        e.value.attempts < emailCodeMaxAttempts ∧
          (guessEmailCode hashEmailCode userId now redis code).event = .guessed .wrong ∧
          ((guessEmailCode hashEmailCode userId now redis code).rest = .inl (.checked .invalid) ∨
            e.value.attempts + 1 = emailCodeMaxAttempts)) := by
  cases hstored : (redis.emailCodes.get now userId).bind (·.hash) with
  | none =>
      left
      refine ⟨fun e hash he hlive hhash => ?_, ?_, ?_⟩
      · rw [Store.get_of_live he hlive, Option.bind_some, hhash] at hstored
        cases hstored
      · simp [guessEmailCode, hstored]
      · simp only [guessEmailCode, hstored]
        cases hget : redis.emailCodes.get now userId with
        | none => exact ⟨_, _, by rw [Store.upsert_free hget]; exact Store.set_self _ _ _ _⟩
        | some value =>
            obtain ⟨e, he, hlive, rfl⟩ := Store.get_eq_some.1 hget
            rw [hget, Option.bind_some] at hstored
            refine ⟨e.value.attempts + 1, e.expiresAt, ?_⟩
            rw [Store.upsert_held he hlive, Store.set_self, Option.bind_some, hstored]
            rfl
  | some hash =>
      right
      obtain ⟨value, hget, hhash⟩ := Option.bind_eq_some_iff.1 hstored
      obtain ⟨e, he, hlive, rfl⟩ := Store.get_eq_some.1 hget
      have hattempts : (redis.emailCodes.get now userId).elim 0 (·.attempts) =
          e.value.attempts := by
        rw [hget]
        rfl
      have hentry : (redis.emailCodes.upsert now userId fun stored =>
          { hash := stored.bind (·.hash), attempts := stored.elim 0 (·.attempts) + 1 }) userId =
            some ⟨⟨some hash, e.value.attempts + 1⟩, e.expiresAt⟩ := by
        rw [Store.upsert_held he hlive, Store.set_self, Option.bind_some, hhash]
        rfl
      refine ⟨e, hash, he, hlive, hhash, ?_⟩
      simp only [guessEmailCode, hstored, hattempts]
      split
      · next hmax => exact ⟨hentry, .inl ⟨Nat.le_of_lt_succ hmax, rfl⟩⟩
      · next hmax =>
          have hlt : e.value.attempts < emailCodeMaxAttempts := Nat.not_lt.1 hmax
          split
          · next heq => exact ⟨hentry, .inr (.inl ⟨hlt, heq.symm, rfl⟩)⟩
          · split
            · next hlast =>
                exact ⟨hentry, .inr (.inr ⟨hlt, rfl, .inr (Nat.le_antisymm hlt hlast)⟩)⟩
            · exact ⟨hentry, .inr (.inr ⟨hlt, rfl, .inl rfl⟩)⟩

/-- A guess keeps the invariant when it leaves a code that counts it. -/
theorem CodeInv.guess (h : CodeInv hashEmailCode userId s) (hnew : ∀ l ∈ s.trace, l.call ≠ i)
    {guess : Guess} (hevent : ran.event = .guessed guess)
    (hright : guess = .right → guesses s.trace s.codes .right = 0 ∧
      guesses s.trace s.codes .wrong < emailCodeMaxAttempts)
    (hstored : ∀ e hash, ran.redis.emailCodes userId = some e → e.value.hash = some hash →
      Counts hashEmailCode userId (s.after i ran) e hash)
    (hkept : ∀ l, Acceptable s l →
      ∃ e hash, ran.redis.emailCodes userId = some e ∧ e.value.hash = some hash)
    (hgone : (∀ e, s.redis.emailCodes userId = some e → e.value.hash = none) →
      ∀ e, ran.redis.emailCodes userId = some e → e.value.hash = none) :
    CodeInv hashEmailCode userId (s.after i ran) := by
  have hset : ∀ code, ran.event ≠ .codeSet code := by simp [hevent]
  have hcodes : (s.after i ran).codes = s.codes := codesWith_of_not_set s hset
  have hle : ∀ l ∈ (s.after i ran).trace, l.code ≤ s.codes := by
    intro l hl
    rcases mem_after_trace.1 hl with hl | rfl
    · exact h.le l hl
    · exact Nat.le_of_eq hcodes
  obtain ⟨honce, htries⟩ := @CodeInv.bounds_after hashEmailCode userId s i ran h fun heq =>
    hright (EmailEvent.guessed.inj (hevent.symm.trans heq))
  refine ⟨fun l hl => hcodes ▸ hle l hl, hstored, fun l ha => ?_,
    fun l hl hlright hcode hdid => ?_, honce, htries⟩
  · exact hkept l (ha.of_after (hle l ha.mem))
  · rw [did_after_of_ne (by simp [hevent])] at hdid
    rcases mem_after_trace.1 hl with hl | rfl
    · exact hgone (h.deleted l hl hlright (hcode.trans hcodes) hdid)
    · obtain ⟨d, hd, hcall, -⟩ := hdid
      exact absurd hcall (hnew d hd)

/-- A check of a key that holds no code. -/
theorem CodeInv.guess_none (h : CodeInv hashEmailCode userId s) (hnew : ∀ l ∈ s.trace, l.call ≠ i)
    (hnone : ∀ e hash, s.redis.emailCodes userId = some e → e.live s.clock = true →
      e.value.hash ≠ some hash)
    (hevent : ran.event = .guessed .spent) {attempts : ℕ} {t : Option ℕ}
    (hentry : ran.redis.emailCodes userId = some ⟨⟨none, attempts⟩, t⟩) :
    CodeInv hashEmailCode userId (s.after i ran) ∧ ∀ l, ¬ Acceptable s l := by
  have hnot : ∀ l, ¬ Acceptable s l := by
    intro l ha
    obtain ⟨e, code, he, hlive, -, hhash, -⟩ := h.stored_of_acceptable ha
    exact hnone e _ he hlive hhash
  refine ⟨h.guess hnew hevent (fun heq => nomatch heq) (fun e hash he hhash => ?_)
    (fun l ha => absurd ha (hnot l)) (fun _ e he => ?_), hnot⟩
  · obtain rfl := Option.some.inj (hentry.symm.trans he)
    cases hhash
  · obtain rfl := Option.some.inj (hentry.symm.trans he)
    rfl

/-- A check of a key that holds a code, which goes on counting. -/
theorem CodeInv.guess_some (h : CodeInv hashEmailCode userId s) (hnew : ∀ l ∈ s.trace, l.call ≠ i)
    {e : Entry StoredEmailCode} {hash : String} (he : s.redis.emailCodes userId = some e)
    (hhash : e.value.hash = some hash)
    (hentry : ran.redis.emailCodes userId =
      some ⟨⟨some hash, e.value.attempts + 1⟩, e.expiresAt⟩)
    {guess : Guess} (hevent : ran.event = .guessed guess)
    (hspent : guess = .spent ↔ emailCodeMaxAttempts ≤ e.value.attempts)
    (hright : guess = .right → guesses s.trace s.codes .right = 0) :
    CodeInv hashEmailCode userId (s.after i ran) := by
  have hc := h.stored e hash he hhash
  have hcodes : (s.after i ran).codes = s.codes := codesWith_of_not_set s (by simp [hevent])
  have hguesses : ∀ guess', guesses (s.after i ran).trace s.codes guess' =
      guesses s.trace s.codes guess' + if guess = guess' then 1 else 0 := by
    intro guess'
    rw [guesses_after, codesWith_of_not_set s (by simp [hevent]), hevent]
    simp
  have hattempts := hc.attempts
  have hcompared := hc.compared
  refine h.guess hnew hevent (fun heq => ⟨hright heq, ?_⟩) (fun e' hash' he' hhash' => ?_)
    (fun l ha => ⟨_, _, hentry, rfl⟩) (fun hgone => ?_)
  · have hlt : ¬ emailCodeMaxAttempts ≤ e.value.attempts := by
      intro hle
      rw [hspent.2 hle] at heq
      cases heq
    omega
  · obtain rfl := Option.some.inj (hentry.symm.trans he')
    obtain rfl := Option.some.inj hhash'
    refine ⟨fun l hl code hset hlast => ?_, ?_, ?_⟩
    · rcases mem_after_trace.1 hl with hl | rfl
      · exact hc.set l hl code hset (hlast.trans hcodes)
      · rw [EmailServer.logged, hevent] at hset
        cases hset
    · rw [hcodes, hguesses, hguesses, hguesses]
      cases guess <;> simp <;> omega
    · rw [hcodes, hguesses, hguesses]
      cases guess <;> simp at hspent ⊢ <;> omega
  · rw [hgone e he] at hhash
    cases hhash

/-- A check that has to delete the key: the code it guessed at is used, or its guesses are. -/
theorem codeCallInv_del (hevent : ∃ guess, ran.event = .guessed guess)
    (hnot : ∀ l, ¬ Acceptable (s.after i ran) l) (result : CodeCheck) :
    CodeCallInv i (s.after i ran) (.delCode result) :=
  ⟨_, mem_after_trace.2 (.inr rfl), rfl, hevent, fun l ha => absurd ha (hnot l)⟩

theorem codeKept_check (h : CodeInv hashEmailCode userId s) (hnew : ∀ l ∈ s.trace, l.call ≠ i)
    {code : String} (hmeets : CodesInTurn hashEmailCode userId i s (.checkEmailCode code)) :
    CodeInv hashEmailCode userId
        (s.after i (guessEmailCode hashEmailCode userId s.clock s.redis code)) ∧
      ∀ c, (guessEmailCode hashEmailCode userId s.clock s.redis code).rest.getRight? = some c →
        CodeCallInv i (s.after i (guessEmailCode hashEmailCode userId s.clock s.redis code)) c := by
  obtain ⟨hguess, -, hrest⟩ := guessEmailCode_frame hashEmailCode userId s.clock s.redis code
  rcases guessEmailCode_cases hashEmailCode userId s.clock s.redis code with
    ⟨hnone, hevent, attempts, t, hentry⟩ | ⟨e, hash, he, hlive, hhash, hentry, hwhat⟩
  · obtain ⟨hinv, -⟩ := h.guess_none hnew hnone hevent hentry
    refine ⟨hinv, fun c hc => ?_⟩
    obtain ⟨result, rfl⟩ := hrest c hc
    refine codeCallInv_del hguess (fun l ha => ?_) result
    obtain ⟨e, code', he, -, -, hhash, -⟩ := hinv.stored_of_acceptable ha
    obtain rfl := Option.some.inj (hentry.symm.trans he)
    cases hhash
  · have hlast : CodeInv hashEmailCode userId
        (s.after i (guessEmailCode hashEmailCode userId s.clock s.redis code)) →
        emailCodeMaxAttempts ≤ e.value.attempts + 1 → ∀ l, ¬ Acceptable
          (s.after i (guessEmailCode hashEmailCode userId s.clock s.redis code)) l := by
      intro hinv hmax l ha
      obtain ⟨e', code', he', -, -, -, hlt⟩ := hinv.stored_of_acceptable ha
      obtain rfl := Option.some.inj (hentry.symm.trans he')
      exact absurd hmax (Nat.not_le.2 hlt)
    rcases hwhat with ⟨hmax, hevent⟩ | ⟨hlt, hmatch, hevent⟩ | ⟨hlt, hevent, hdone⟩
    · have hinv := h.guess_some hnew he hhash hentry hevent (by simp [hmax]) (by simp)
      refine ⟨hinv, fun c hc => ?_⟩
      obtain ⟨result, rfl⟩ := hrest c hc
      exact codeCallInv_del hguess (hlast hinv (Nat.le_succ_of_le hmax)) result
    · -- every check that matched the code before has deleted it, and yet it is stored
      have hunused : guesses s.trace s.codes .right = 0 := by
        refine List.countP_eq_zero.2 fun l hl hp => ?_
        obtain ⟨hcode, hright⟩ := of_decide_eq_true hp
        have hdid := hmeets e.value (Store.get_of_live he hlive) (hhash.trans (by rw [hmatch])) hlt
          l hl hcode hright
        rw [h.deleted l hl hright hcode hdid e he] at hhash
        cases hhash
      have hinv := h.guess_some hnew he hhash hentry hevent (by simp; omega) fun _ => hunused
      refine ⟨hinv, fun c hc => ?_⟩
      obtain ⟨result, rfl⟩ := hrest c hc
      refine codeCallInv_del hguess (fun l ha => ?_) result
      have hused := ha.notUsed
      rw [ha.last, guesses_after, if_pos ⟨rfl, hevent⟩] at hused
      cases hused
    · have hinv := h.guess_some hnew he hhash hentry hevent (by simp; omega) (by simp)
      refine ⟨hinv, fun c hc => ?_⟩
      rcases hdone with hdone | hmax
      · rw [hdone] at hc
        cases hc
      · obtain ⟨result, rfl⟩ := hrest c hc
        exact codeCallInv_del hguess (hlast hinv (Nat.le_of_eq hmax.symm)) result

theorem codeKept_run (h : CodeInv hashEmailCode userId s) {call : EmailCall}
    (hc : CodeCallInv i s call) (hmeets : CodesInTurn hashEmailCode userId i s call) :
    CodeInv hashEmailCode userId
        (s.after i (call.run hashEmailCode userId s.clock s.redis)) ∧
      ∀ c, (call.run hashEmailCode userId s.clock s.redis).rest.getRight? = some c →
        CodeCallInv i (s.after i (call.run hashEmailCode userId s.clock s.redis)) c := by
  cases call with
  | claimEmailCodeSend =>
      simp only [EmailCall.run, countEmailCode]
      split
      · exact ⟨h.quiet rfl (fun _ heq => by cases heq) (fun _ heq => by cases heq)
          (fun heq => by cases heq), fun _ hnone => by cases hnone⟩
      · refine ⟨h.quiet rfl (fun _ heq => by cases heq) (fun _ heq => by cases heq)
          (fun heq => by cases heq), fun c hnext => ?_⟩
        obtain rfl := Option.some.inj hnext
        trivial
  | setCooldown =>
      simp only [EmailCall.run, setEmailCooldown]
      split
      · exact ⟨h.quiet rfl (fun _ heq => by cases heq) (fun _ heq => by cases heq)
          (fun heq => by cases heq), fun _ hnone => by cases hnone⟩
      · refine ⟨h.quiet rfl (fun _ heq => by cases heq) (fun _ heq => by cases heq)
          (fun heq => by cases heq), fun c hnext => ?_⟩
        obtain rfl := Option.some.inj hnext
        trivial
  | decrHourly =>
      exact ⟨h.quiet rfl (fun _ heq => by cases heq) (fun _ heq => by cases heq)
        (fun heq => by cases heq), fun _ hnone => by cases hnone⟩
  | setEmailCode code => exact ⟨h.sets code, fun _ hnone => by cases hnone⟩
  | checkEmailCode code => exact codeKept_check h hc hmeets
  | delCode result =>
      obtain ⟨g, hg, hcall, ⟨guess, hguess⟩, hnot⟩ := hc
      refine ⟨h.deletes (fun l ha => ?_) result, fun _ hnone => by cases hnone⟩
      exact hnot l ha (hmeets l ha.mem ha g hg hcall (by rw [hguess]; rfl)).symm

/-! ### The other calls, and time -/

theorem codeCallInv_other (h : CodeInv hashEmailCode userId s) {j : ℕ} {call : EmailCall}
    (hc : CodeCallInv j s call) (hji : j ≠ i) : CodeCallInv j (s.after i ran) call := by
  cases call with
  | checkEmailCode code =>
      intro l hl
      rcases mem_after_trace.1 hl with hl | rfl
      · exact hc l hl
      · exact hji.symm
  | delCode result =>
      obtain ⟨g, hg, hcall, hguess, hnot⟩ := hc
      refine ⟨g, mem_after_trace.2 (.inl hg), hcall, hguess, fun l ha heq => ?_⟩
      exact hnot l (ha.of_after (heq ▸ h.le g hg)) heq
  | claimEmailCodeSend | setCooldown | decrHourly | setEmailCode _ => trivial

/-- A code that is acceptable later is acceptable before. -/
theorem Acceptable.of_passes {s' : EmailServer} (hpass : s.Passes s') {l : EmailLogged}
    (ha : Acceptable s' l) : Acceptable s l := by
  cases hpass with
  | tick clock hclock => exact { ha with notExpired := Nat.le_trans hclock ha.notExpired }

theorem CodeInv.passes {s' : EmailServer} (h : CodeInv hashEmailCode userId s)
    (hpass : s.Passes s') : CodeInv hashEmailCode userId s' := by
  have hkept := fun l (ha : Acceptable s' l) => h.kept l (ha.of_passes hpass)
  cases hpass with
  | tick clock hclock =>
      exact ⟨h.le, fun e hash he hhash => ⟨(h.stored e hash he hhash).set,
        (h.stored e hash he hhash).attempts, (h.stored e hash he hhash).compared⟩, hkept,
        h.deleted, h.once, h.tries⟩

theorem codeInv_start (clock : Time) :
    CodeInv hashEmailCode userId (EmailServer.start clock) where
  le := by simp [EmailServer.start]
  stored e hash he := nomatch he
  kept l ha := nomatch ha.mem
  deleted l hl := nomatch hl
  once code := by simp [EmailServer.start, guesses]
  tries before l after htrace := by simp [EmailServer.start] at htrace

end Codes

/-! ### Runs -/

/-- What the server keeps, and what a call in flight counts on. -/
structure EmailInv (n : ℕ) (s : EmailServer) : Prop where
  calls : ∀ l ∈ s.trace, l.call < n
  hours : HourInv userId s
  codes : CodeInv hashEmailCode userId s

theorem keeps_emailCodes : Interleaving.Keeps EmailCall.Begins
    (fun i s call s' rest => EmailCallsInTurn hashEmailCode userId i s call ∧
      EmailCommand hashEmailCode userId i s call s' rest)
    EmailServer.Passes (EmailInv hashEmailCode userId)
    (fun i s call => HourCallInv i s call ∧ CodeCallInv i s call) where
  begin i s call hbegins hs := by
    have hnew : ∀ l ∈ s.trace, l.call ≠ i := fun l hl => Nat.ne_of_lt (hs.calls l hl)
    refine ⟨{ hs with calls := fun l hl => Nat.lt_succ_of_lt (hs.calls l hl) }, ?_⟩
    cases hbegins with
    | claimEmailCodeSend => exact ⟨hnew, trivial⟩
    | setEmailCode code => exact ⟨trivial, trivial⟩
    | checkEmailCode code => exact ⟨trivial, hnew⟩
  run n i s call s' rest hi hs hc := by
    rintro ⟨⟨hhour, hcode⟩, rfl, rfl⟩
    obtain ⟨hhours, hhourRest⟩ := hourKept_run hashEmailCode hs.hours hc.1 hhour
    obtain ⟨hcodes, hcodeRest⟩ := codeKept_run hs.codes hc.2 hcode
    refine ⟨⟨fun l hl => ?_, hhours, hcodes⟩, fun c hnext =>
      ⟨hhourRest c hnext, hcodeRest c hnext⟩⟩
    rcases mem_after_trace.1 hl with hl | rfl
    · exact hs.calls l hl
    · exact hi
  frame n i s call s' rest hs hc := by
    rintro ⟨-, rfl, rfl⟩ j c hji ⟨hhour, hcode⟩
    exact ⟨hourCallInv_other hhour hji, codeCallInv_other hs.codes hcode hji⟩
  other n s s' hs hpass := by
    refine ⟨⟨?_, hs.hours.passes hpass, hs.codes.passes hpass⟩, fun j c ⟨hhour, hcode⟩ => ?_⟩
    · cases hpass with
      | tick clock hclock => exact hs.calls
    · refine ⟨?_, ?_⟩
      · cases hpass with
        | tick clock hclock => cases c <;> exact hhour
      · cases c with
        | delCode result =>
            obtain ⟨g, hg, hcall, hguess, hnot⟩ := hcode
            refine ⟨g, ?_, hcall, hguess, fun l ha => hnot l (ha.of_passes hpass)⟩
            cases hpass with
            | tick clock hclock => exact hg
        | checkEmailCode code =>
            cases hpass with
            | tick clock hclock => exact hcode
        | claimEmailCodeSend | setCooldown | decrHourly | setEmailCode _ => trivial

/-- **Email codes are safe** in every run, from a user without one, whose commands take turns as
`EmailCallsInTurn` says. -/
theorem email_codes_safe {clock : Time} {t : EmailState}
    (ht : Run.Reaches (EmailStep hashEmailCode userId (EmailCallsInTurn hashEmailCode userId))
      (Interleaving.State.idle (EmailServer.start clock)) t) :
    EmailCodesSafe hashEmailCode userId t.shared := by
  have hstart : EmailInv hashEmailCode userId 0 (EmailServer.start clock) :=
    ⟨nofun, hourInv_start clock, codeInv_start clock⟩
  have hholds := Interleaving.holds_of_reaches (keeps_emailCodes hashEmailCode userId) ht
    (Interleaving.holds_idle hstart)
  exact ⟨fun firsts hd first hfirst => hholds.inv.hours.sends_le hd hfirst,
    hholds.inv.codes.tries, hholds.inv.codes.once,
    fun l code ha hset => hholds.inv.codes.fresh ha hset⟩

/-- The sends do fall into hours, each with as many of them as the cap allows. -/
theorem EmailCodesSafe.exists_hours {s : EmailServer}
    (h : EmailCodesSafe hashEmailCode userId s) :
    ∃ firsts, TimeWindows.Divides emailHour EmailLogged.time (sends s.trace) firsts ∧
      ∀ first ∈ firsts, (sends s.trace).countP
        (fun l => decide (first ≤ l.time ∧ l.time ≤ first + emailHour)) ≤ emailCodesPerHour := by
  obtain ⟨firsts, hd⟩ := TimeWindows.exists_divides emailHour EmailLogged.time (sends s.trace)
  exact ⟨firsts, hd, h.hourly firsts hd⟩

/-! ### Runs in turn, and not -/

instance (i : ℕ) (s : EmailServer) : Decidable (FirstGranted s i) :=
  inferInstanceAs (Decidable (∀ l ∈ s.trace, l.call = i → l.event.isCounted →
    ∃ o ∈ s.trace, o.event = .counted true ∧ o.hour = l.hour ∧
      (o.call = i ∨ Did s.trace o.call .granted)))

instance (i : ℕ) (s : EmailServer) (call : EmailCall) :
    Decidable (ClaimsInTheirHour userId i s call) :=
  match call with
  | .setCooldown => inferInstanceAs (Decidable
      (s.redis.emailCodeCooldowns.get s.clock userId = none → FirstGranted s i))
  | .decrHourly => inferInstanceAs (Decidable (s.redis.emailCodesHourly.get s.clock userId ≠ none ∧
      ∀ l ∈ s.trace, l.call = i → l.event.isCounted → l.hour = s.hours))
  | .claimEmailCodeSend | .setEmailCode _ | .checkEmailCode _ | .delCode _ => isTrue trivial

instance (i : ℕ) (s : EmailServer) (call : EmailCall) :
    Decidable (CodesInTurn hashEmailCode userId i s call) :=
  match call with
  | .checkEmailCode code => inferInstanceAs (Decidable
      (∀ stored ∈ s.redis.emailCodes.get s.clock userId,
        stored.hash = some (hashEmailCode userId code) → stored.attempts < emailCodeMaxAttempts →
          ∀ l ∈ s.trace, l.code = s.codes → l.event = .guessed .right →
            Did s.trace l.call .deleted))
  | .delCode _ => inferInstanceAs (Decidable (∀ l ∈ s.trace, Acceptable s l →
      ∀ g ∈ s.trace, g.call = i → g.event.isGuess → g.code = l.code))
  | .claimEmailCodeSend | .setCooldown | .decrHourly | .setEmailCode _ => isTrue trivial

instance (i : ℕ) (s : EmailServer) (call : EmailCall) :
    Decidable (EmailCallsInTurn hashEmailCode userId i s call) :=
  inferInstanceAs (Decidable (_ ∧ _))

/-- A code is sent, guessed wrong and right; a claim meanwhile is refused, and one later sends a
second code. -/
def inTurnMoves : List EmailMove :=
  [.begin .claimEmailCodeSend, .run 0, .run 0, .begin (.setEmailCode "111111"), .run 1,
    .begin (.checkEmailCode "000000"), .run 2, .begin .claimEmailCodeSend, .run 3, .run 3, .run 3,
    .begin (.checkEmailCode "111111"), .run 4, .run 4, .other 61000, .begin .claimEmailCodeSend,
    .run 5, .run 5, .begin (.setEmailCode "222222"), .run 6]

theorem email_codes_safe_twoCodes : ∃ t,
    Run.Reaches (EmailStep (fun _ code => code) 7 (EmailCallsInTurn (fun _ code => code) 7))
      (Interleaving.State.idle (EmailServer.start 0)) t ∧
    t.shared.trace.map (·.event) = [.counted true, .granted, .codeSet "111111", .guessed .wrong,
      .counted false, .refused, .uncounted, .guessed .right, .deleted, .counted false, .granted,
      .codeSet "222222"] ∧
    EmailCodesSafe (fun _ code => code) 7 t.shared := by
  have hsome : (inTurnMoves.foldlM
      (Interleaving.move EmailCall.Begins
        (emailExec (fun _ code => code) 7 (EmailCallsInTurn (fun _ code => code) 7))
        EmailServer.tick)
      (Interleaving.State.idle (EmailServer.start 0))).any (fun t =>
        t.shared.trace.map (·.event) = [.counted true, .granted, .codeSet "111111",
          .guessed .wrong, .counted false, .refused, .uncounted, .guessed .right, .deleted,
          .counted false, .granted, .codeSet "222222"]) = true := by
    decide +kernel
  obtain ⟨t, ht, hp⟩ := (Option.any_eq_true _ _).mp hsome
  have hreach := reaches_of_emailMoves _ _ ht
  exact ⟨t, hreach, of_decide_eq_true hp, email_codes_safe _ _ hreach⟩

/-- Any step. -/
abbrev AnyEmailStep : EmailState → EmailState → Prop :=
  EmailStep hashEmailCode userId fun _ _ _ => True

/-- A check of a code that has expired deletes the key after a new code is set. -/
def lateDeleteMoves : List EmailMove :=
  [.begin (.setEmailCode "111111"), .run 0, .other 900001, .begin (.checkEmailCode "111111"),
    .run 1, .begin (.setEmailCode "222222"), .run 2, .run 1]

theorem fresh_code_lost : ∃ t,
    Run.Reaches (AnyEmailStep (fun _ code => code) 7)
      (Interleaving.State.idle (EmailServer.start 0)) t ∧
    ¬ EmailCodesSafe (fun _ code => code) 7 t.shared := by
  have hsome : (lateDeleteMoves.foldlM
      (Interleaving.move EmailCall.Begins (emailExec (fun _ code => code) 7 fun _ _ _ => True)
        EmailServer.tick)
      (Interleaving.State.idle (EmailServer.start 0))).any (fun t =>
        (∃ l ∈ t.shared.trace, Acceptable t.shared l ∧ l.event = .codeSet "222222") ∧
          ((EmailCall.checkEmailCode "222222").run (fun _ code => code) 7 t.shared.clock
            t.shared.redis).rest = .inr (.delCode .expired)) = true := by
    decide +kernel
  obtain ⟨t, ht, hp⟩ := (Option.any_eq_true _ _).mp hsome
  obtain ⟨⟨l, -, ha, hset⟩, hrest⟩ := of_decide_eq_true hp
  refine ⟨t, reaches_of_emailMoves _ _ ht, fun hsafe => ?_⟩
  have hok := hsafe.fresh l "222222" ha hset
  rw [hrest] at hok
  cases hok

/-- Two checks of one code count their guesses before either deletes it. -/
def twoChecksMoves : List EmailMove :=
  [.begin (.setEmailCode "111111"), .run 0, .begin (.checkEmailCode "111111"),
    .begin (.checkEmailCode "111111"), .run 1, .run 2, .run 1, .run 2]

theorem code_accepted_twice : ∃ t,
    Run.Reaches (AnyEmailStep (fun _ code => code) 7)
      (Interleaving.State.idle (EmailServer.start 0)) t ∧
    guesses t.shared.trace 1 .right = 2 := by
  have hsome : (twoChecksMoves.foldlM
      (Interleaving.move EmailCall.Begins (emailExec (fun _ code => code) 7 fun _ _ _ => True)
        EmailServer.tick)
      (Interleaving.State.idle (EmailServer.start 0))).any (fun t =>
        guesses t.shared.trace 1 .right = 2) = true := by
    decide +kernel
  obtain ⟨t, ht, hp⟩ := (Option.any_eq_true _ _).mp hsome
  exact ⟨t, reaches_of_emailMoves _ _ ht, of_decide_eq_true hp⟩

/-- A claim at a time, and what is left of it. -/
def claimMoves (i clock steps : ℕ) : List EmailMove :=
  [.other clock, .begin .claimEmailCodeSend] ++ List.replicate steps (.run i)

/-- A claim during a cooldown opens the hour and is refused; the five sends after it come late in
that hour, and a sixth comes when it is over. -/
def refusedOpenerMoves : List EmailMove :=
  claimMoves 0 0 2 ++ claimMoves 1 3590000 2 ++ claimMoves 2 3601000 3 ++
    claimMoves 3 3651000 2 ++ claimMoves 4 3712000 2 ++ claimMoves 5 3773000 2 ++
    claimMoves 6 3834000 2 ++ claimMoves 7 3895000 2 ++ claimMoves 8 7202000 2

/-- One call after the other, and yet six sends in the hour from 3651000 on. -/
theorem six_sends_in_an_hour : ∃ t,
    Run.Reaches (AnyEmailStep (fun _ code => code) 7)
      (Interleaving.State.idle (EmailServer.start 0)) t ∧
    TimeWindows.Divides emailHour EmailLogged.time (sends t.shared.trace) [0, 3651000] ∧
    (sends t.shared.trace).countP
      (fun l => decide (3651000 ≤ l.time ∧ l.time ≤ 3651000 + emailHour)) = 6 := by
  have hsome : (refusedOpenerMoves.foldlM
      (Interleaving.move EmailCall.Begins (emailExec (fun _ code => code) 7 fun _ _ _ => True)
        EmailServer.tick)
      (Interleaving.State.idle (EmailServer.start 0))).any (fun t =>
        TimeWindows.Divides emailHour EmailLogged.time (sends t.shared.trace) [0, 3651000] ∧
          (sends t.shared.trace).countP
            (fun l => decide (3651000 ≤ l.time ∧ l.time ≤ 3651000 + emailHour)) = 6) = true := by
    decide +kernel
  obtain ⟨t, ht, hp⟩ := (Option.any_eq_true _ _).mp hsome
  exact ⟨t, reaches_of_emailMoves _ _ ht, of_decide_eq_true hp⟩

end Passmgr
