/-
# Email codes, command by command

`claimEmailCodeSend`, `setEmailCode` and `checkEmailCode` of `apps/server/src/util/redis-utils.ts`.
A `MULTI` is one command; between two commands of a call those of the others run, and time passes.

The server numbers the codes it set and the hours it counted, and logs what its calls do; neither
has an effect.

Main definitions:

* `EmailRedis` — the three keys of a user;
* `EmailCall`, `EmailCall.run` — what a call in flight runs next, and what is left of it;
* `EmailServer`, `EmailStep` — the server under any interleaving of the calls for one user.
-/

import Passmgr.Expiring
import Passmgr.Interleaving
import Passmgr.Schema

set_option relaxedAutoImplicit false
set_option autoImplicit false

namespace Passmgr

open Expiring

/-- `EMAIL_CODE_TTL_SECONDS`, in milliseconds. -/
def emailCodeTtl : Time := 15 * 60 * 1000
def emailCodesPerHour : ℕ := 5
/-- `EMAIL_CODE_RESEND_SECONDS`, in milliseconds. -/
def emailCodeResend : Time := 60 * 1000
def emailCodeMaxAttempts : ℕ := 5
/-- The expiry of the hourly counter, in milliseconds. -/
def emailHour : Time := 60 * 60 * 1000

/-! ### The keys -/

/-- The hash of a code: its fields. -/
structure StoredEmailCode where
  hash : Option String
  attempts : ℕ
  deriving DecidableEq, Repr

structure EmailRedis where
  emailCodes : Store UserId StoredEmailCode
  emailCodeCooldowns : Store UserId String
  emailCodesHourly : Store UserId ℤ

/-! ### Calls -/

inductive CodeCheck
  | ok
  | invalid
  | expired
  deriving DecidableEq, Repr

/-- What a call runs next. -/
inductive EmailCall
  -- `claimEmailCodeSend`
  | claimEmailCodeSend
  | setCooldown
  | decrHourly
  -- `setEmailCode`
  | setEmailCode (code : String)
  -- `checkEmailCode`
  | checkEmailCode (code : String)
  | delCode (result : CodeCheck)
  deriving DecidableEq, Repr

/-- The calls as they come in. -/
inductive EmailCall.Begins : EmailCall → Prop
  | claimEmailCodeSend : Begins .claimEmailCodeSend
  | setEmailCode (code : String) : Begins (.setEmailCode code)
  | checkEmailCode (code : String) : Begins (.checkEmailCode code)

inductive EmailAnswer
  | claimed (sends : Bool)
  | set
  | checked (result : CodeCheck)
  deriving DecidableEq, Repr

/-- What a guess was: at a code that is stored and has attempts left, or at none. -/
inductive Guess
  | right
  | wrong
  | spent
  deriving DecidableEq, Repr

/-- What a command did; a claim that is counted `opens` the hour when it finds no counter. -/
inductive EmailEvent
  | counted (opens : Bool)
  | overCounted
  | granted
  | refused
  | uncounted
  | codeSet (code : String)
  | guessed (guess : Guess)
  | deleted
  deriving DecidableEq, Repr

/-- What a command leaves behind: the keys, and the answer of its call or what is left of it. -/
structure EmailRan where
  redis : EmailRedis
  event : EmailEvent
  rest : EmailAnswer ⊕ EmailCall

section Commands

variable (hashEmailCode : UserId → String → String) (userId : UserId) (now : Time)
  (redis : EmailRedis)

/-- The `MULTI` of `claimEmailCodeSend`, and what it answers past the hourly cap. -/
def countEmailCode : EmailRan :=
  let count := (redis.emailCodesHourly.get now userId).getD 0 + 1
  let counted := { redis with
    emailCodesHourly := (redis.emailCodesHourly.upsert now userId fun count =>
      count.getD 0 + 1).expireNx now userId (now + emailHour) }
  if count > emailCodesPerHour then
    { redis := counted, event := .overCounted, rest := .inl (.claimed false) }
  else
    { redis := counted
      event := .counted (redis.emailCodesHourly.get now userId).isNone
      rest := .inr .setCooldown }

/-- `SET … EX … NX` of the cooldown. -/
def setEmailCooldown : EmailRan :=
  let (set, cooldowns) :=
    redis.emailCodeCooldowns.setNx now userId "1" (some (now + emailCodeResend))
  if set then
    { redis := { redis with emailCodeCooldowns := cooldowns }
      event := .granted
      rest := .inl (.claimed true) }
  else { redis := redis, event := .refused, rest := .inr .decrHourly }

def decrEmailCodes : EmailRan where
  redis := { redis with
    emailCodesHourly := redis.emailCodesHourly.upsert now userId fun count => count.getD 0 - 1 }
  event := .uncounted
  rest := .inl (.claimed false)

/-- The `MULTI` of `setEmailCode`. -/
def storeEmailCode (code : String) : EmailRan where
  redis := { redis with
    emailCodes := (redis.emailCodes.del userId).set userId
      { hash := some (hashEmailCode userId code), attempts := 0 } (some (now + emailCodeTtl)) }
  event := .codeSet code
  rest := .inl .set

/-- The `MULTI` of `checkEmailCode`, and what the check makes of it. -/
def guessEmailCode (code : String) : EmailRan :=
  let stored := redis.emailCodes.get now userId
  let attempts := stored.elim 0 (·.attempts) + 1
  let counted := { redis with
    emailCodes := redis.emailCodes.upsert now userId fun stored =>
      { hash := stored.bind (·.hash), attempts := stored.elim 0 (·.attempts) + 1 } }
  match stored.bind (·.hash) with
  | none => { redis := counted, event := .guessed .spent, rest := .inr (.delCode .expired) }
  | some hash =>
    if attempts > emailCodeMaxAttempts then
      { redis := counted, event := .guessed .spent, rest := .inr (.delCode .expired) }
    else if hashEmailCode userId code = hash then
      { redis := counted, event := .guessed .right, rest := .inr (.delCode .ok) }
    else if attempts ≥ emailCodeMaxAttempts then
      { redis := counted, event := .guessed .wrong, rest := .inr (.delCode .invalid) }
    else { redis := counted, event := .guessed .wrong, rest := .inl (.checked .invalid) }

def delEmailCode (result : CodeCheck) : EmailRan where
  redis := { redis with emailCodes := redis.emailCodes.del userId }
  event := .deleted
  rest := .inl (.checked result)

/-- The next command of a call. -/
def EmailCall.run : EmailCall → EmailRan
  | .claimEmailCodeSend => countEmailCode userId now redis
  | .setCooldown => setEmailCooldown userId now redis
  | .decrHourly => decrEmailCodes userId now redis
  | .setEmailCode code => storeEmailCode hashEmailCode userId now redis code
  | .checkEmailCode code => guessEmailCode hashEmailCode userId now redis code
  | .delCode result => delEmailCode userId redis result

end Commands

/-! ### The server -/

/-- What a call logged, when, and in which hour and at which code it was. -/
structure EmailLogged where
  call : ℕ
  time : Time
  hour : ℕ
  code : ℕ
  event : EmailEvent
  deriving DecidableEq, Repr

/-- The clock, the keys, how many hours were opened and codes set, and the log. -/
structure EmailServer where
  clock : Time
  redis : EmailRedis
  hours : ℕ
  codes : ℕ
  trace : List EmailLogged

namespace EmailServer

/-- The hours opened with a command. -/
def hoursWith (s : EmailServer) : EmailEvent → ℕ
  | .counted true => s.hours + 1
  | _ => s.hours

/-- The codes set with a command. -/
def codesWith (s : EmailServer) : EmailEvent → ℕ
  | .codeSet _ => s.codes + 1
  | _ => s.codes

def logged (s : EmailServer) (i : ℕ) (event : EmailEvent) : EmailLogged where
  call := i
  time := s.clock
  hour := s.hoursWith event
  code := s.codesWith event
  event := event

/-- The server after a command of call `i`. -/
def after (s : EmailServer) (i : ℕ) (ran : EmailRan) : EmailServer where
  clock := s.clock
  redis := ran.redis
  hours := s.hoursWith ran.event
  codes := s.codesWith ran.event
  trace := s.trace ++ [s.logged i ran.event]

/-- Time passes. -/
inductive Passes (s : EmailServer) : EmailServer → Prop
  | tick (clock : Time) (hclock : s.clock ≤ clock) : Passes s { s with clock := clock }

/-- A server that holds no key of the user. -/
def start (clock : Time) : EmailServer where
  clock := clock
  redis := {
    emailCodes := fun _ => none
    emailCodeCooldowns := fun _ => none
    emailCodesHourly := fun _ => none }
  hours := 0
  codes := 0
  trace := []

end EmailServer

variable (hashEmailCode : UserId → String → String) (userId : UserId)

/-- One command of a call. -/
def EmailCommand : Interleaving.Command EmailServer EmailCall := fun i s call s' rest =>
  s' = s.after i (call.run hashEmailCode userId s.clock s.redis) ∧
    rest = (call.run hashEmailCode userId s.clock s.redis).rest.getRight?

/-- The server and its calls in flight. -/
abbrev EmailState := Interleaving.State EmailServer EmailCall

/-- One step of an interleaving of the calls for a user, where a command runs only when it `meets` a
condition on the server before it. -/
abbrev EmailStep (meets : ℕ → EmailServer → EmailCall → Prop) : EmailState → EmailState → Prop :=
  Interleaving.Step EmailCall.Begins
    (fun i s call s' rest => meets i s call ∧ EmailCommand hashEmailCode userId i s call s' rest)
    EmailServer.Passes

/-! ### Schedules -/

instance : DecidablePred EmailCall.Begins := fun call =>
  match call with
  | .claimEmailCodeSend => isTrue .claimEmailCodeSend
  | .setEmailCode code => isTrue (.setEmailCode code)
  | .checkEmailCode code => isTrue (.checkEmailCode code)
  | .setCooldown | .decrHourly | .delCode _ => isFalse nofun

/-- What a schedule does next; the time changes by itself. -/
abbrev EmailMove := Interleaving.Move EmailCall Time

/-- A command of a schedule, none where it does not meet the condition. -/
def emailExec (meets : ℕ → EmailServer → EmailCall → Prop)
    [∀ i s call, Decidable (meets i s call)] (i : ℕ) (s : EmailServer) (call : EmailCall) :
    Option (EmailServer × Option EmailCall) :=
  let ran := call.run hashEmailCode userId s.clock s.redis
  if meets i s call then some (s.after i ran, ran.rest.getRight?) else none

def EmailServer.tick (clock : Time) (s : EmailServer) : Option EmailServer :=
  if s.clock ≤ clock then some { s with clock := clock } else none

/-- A schedule that goes through is a run. -/
theorem reaches_of_emailMoves {meets : ℕ → EmailServer → EmailCall → Prop}
    [∀ i s call, Decidable (meets i s call)] {moves : List EmailMove} {s t : EmailState}
    (h : moves.foldlM (Interleaving.move EmailCall.Begins (emailExec hashEmailCode userId meets)
      EmailServer.tick) s = some t) :
    Run.Reaches (EmailStep hashEmailCode userId meets) s t := by
  refine Interleaving.reaches_of_moves (fun i s call s' rest hran => ?_)
    (fun clock s s' htick => ?_) h
  · simp only [emailExec, Option.ite_none_right_eq_some, Option.some.injEq, Prod.mk.injEq] at hran
    obtain ⟨hmeets, rfl, rfl⟩ := hran
    exact ⟨hmeets, rfl, rfl⟩
  · simp only [EmailServer.tick, Option.ite_none_right_eq_some, Option.some.injEq] at htick
    obtain ⟨hclock, rfl⟩ := htick
    exact .tick clock hclock

end Passmgr
