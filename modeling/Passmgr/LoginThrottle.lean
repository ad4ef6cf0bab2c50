/-
# The login throttle under concurrency

Every `startLogin` is one guess.  A start reads the account's lock, and when it is free counts
itself and, past the free starts, locks the account for a delay that doubles.  Reading the lock and
setting it are commands of their own: starts that read it before the first of them has set it are
all admitted, however many there are.

Main definitions:

* `delayAfter`, `leastSpan` — the delay after a counted start, and the time some starts take;
* `Throttled` — the delay of an earlier start has elapsed when a later one is admitted, and a span
  admits no more starts than their delays leave room for;
* `StartsInTurn` — a start reads the lock when every admitted one has recorded itself;
* `Turn`, `InTurns` — admitted starts that were counted one after the other.

Main results:

* `span_of_turns`, `starts_of_spans` — how many starts that take turns fit a span;
* `throttled_of_turns` — the throttle holds in every run whose starts take turns;
* `starts_unthrottled` — starts that read the lock together are admitted together.
-/

import Mathlib.Data.List.Infix
import Mathlib.Data.List.Chain
import Mathlib.Data.List.TakeWhile
import Passmgr.LoginCalls

set_option relaxedAutoImplicit false
set_option autoImplicit false

namespace Passmgr

open Expiring

/-! ### Delays -/

/-- How long the start that is the `count`-th locks the account. -/
def delayAfter (count : ℕ) : ℕ :=
  if count ≤ loginFreeAttempts then 0 else LoginRedis.backoffMs (count - loginFreeAttempts)

/-- The time `count` starts take at least, the first of a fresh counter included. -/
def leastSpan (count : ℕ) : ℕ := ((List.range' 1 (count - 1)).map delayAfter).sum

/-- As many starts as one window of the counter has room for. -/
def mostStarts : ℕ := 18

theorem delayAfter_mono {m n : ℕ} (h : m ≤ n) : delayAfter m ≤ delayAfter n := by
  unfold delayAfter
  split
  · exact Nat.zero_le _
  · next hm =>
      rw [if_neg (by omega)]
      unfold LoginRedis.backoffMs
      refine min_le_min_right _ (Nat.mul_le_mul_left _ (Nat.pow_le_pow_right (by decide) ?_))
      omega

theorem leastSpan_mono {m n : ℕ} (h : m ≤ n) : leastSpan m ≤ leastSpan n := by
  have hsplit : List.range' 1 (n - 1) =
      List.range' 1 (m - 1) ++ List.range' (1 + (m - 1)) (n - 1 - (m - 1)) := by
    rw [List.range'_append_1]
    congr 1
    omega
  rw [leastSpan, leastSpan, hsplit, List.map_append, List.sum_append]
  exact Nat.le_add_right _ _

/-- A span with room for more starts is longer than the window. -/
theorem le_mostStarts {count : ℕ} (h : leastSpan count ≤ loginThrottleWindow) :
    count ≤ mostStarts := by
  by_contra hnot
  have hlong : loginThrottleWindow < leastSpan (mostStarts + 1) := by decide
  exact absurd (Nat.le_trans (leastSpan_mono (Nat.lt_of_not_le hnot)) h) (Nat.not_le.2 hlong)

/-! ### The property and the condition -/

/-- A start that was admitted. -/
structure AdmittedStart where
  call : ℕ
  time : ℕ
  deriving DecidableEq, Repr

/-- A start that was counted. -/
structure CountedStart where
  call : ℕ
  time : ℕ
  count : ℕ
  deriving DecidableEq, Repr

/-- The admitted starts of an account, in the order they were admitted. -/
def admittedStarts (emailHash : EmailHash) (trace : List Logged) : List AdmittedStart :=
  trace.filterMap fun l =>
    if l.event = .admitted emailHash then some { call := l.call, time := l.time } else none

/-- The counted starts of an account, in the order they were counted. -/
def countedStarts (emailHash : EmailHash) (trace : List Logged) : List CountedStart :=
  trace.filterMap fun l =>
    match l.event with
    | .counted emailHash' count =>
      if emailHash' = emailHash then some { call := l.call, time := l.time, count := count }
      else none
    | _ => none

/-- As many starts as come one after the other take their delays, while the counter goes on. -/
def SpanOfStarts (times : List ℕ) : Prop :=
  ∀ starts first last, starts <:+: times → starts.head? = some first →
    starts.getLast? = some last → last ≤ first + loginThrottleWindow →
      first + leastSpan starts.length ≤ last

/-- The start of a call was counted and, past the free ones, the delay it set is over. -/
def DelayOver (s : LoginServer) (emailHash : EmailHash) (call time : ℕ) : Prop :=
  ∃ c ∈ s.trace, c.call = call ∧ ∃ count, c.event = .counted emailHash count ∧
    (count ≤ loginFreeAttempts ∨ ∃ k ∈ s.trace, k.call = call ∧
      k.event = .locked emailHash (delayAfter count) ∧ k.time + delayAfter count ≤ time)

/-- The starts of an account are throttled: between two that are admitted the earlier one was
counted and, past the free ones, the delay it set has elapsed; so as many as fall into a span of the
counter's window take their delays, and a longer one admits so many a window. -/
structure Throttled (s : LoginServer) (emailHash : EmailHash) : Prop where
  elapsed : s.trace.Pairwise fun l l' =>
    l.event = .admitted emailHash → l'.event = .admitted emailHash →
      DelayOver s emailHash l.call l'.time
  span : SpanOfStarts ((admittedStarts emailHash s.trace).map (·.time))
  starts : ∀ starts first last,
    starts <:+: (admittedStarts emailHash s.trace).map (·.time) → starts.head? = some first →
      starts.getLast? = some last →
        starts.length ≤ mostStarts * ((last - first) / (loginThrottleWindow + 1) + 1)

/-- `recordLoginStart` is through for a call: it was one of the free starts, or it set the lock. -/
def Recorded (s : LoginServer) (call : ℕ) (emailHash : EmailHash) : Prop :=
  ∃ l ∈ s.trace, l.call = call ∧
    ((∃ count, l.event = .counted emailHash count ∧ count ≤ loginFreeAttempts) ∨
      ∃ backoffMs, l.event = .locked emailHash backoffMs)

/-- A start reads the lock of its account only when every start admitted before has recorded
itself. -/
def StartsInTurn (P : LoginPlatform) (s : LoginServer) : LoginCall → Prop
  | .startLogin input => ∀ l ∈ s.trace, l.event = .admitted (P.hashEmail input.email) →
      Recorded s l.call (P.hashEmail input.email)
  | _ => True

/-- Only logins start. -/
inductive IsStartLogin : LoginCall → Prop
  | intro (input : StartLoginInput) : IsStartLogin (.startLogin input)

/-! ### Turns -/

/-- A start that was admitted and counted before the next one. -/
structure Turn where
  call : ℕ
  admittedAt : ℕ
  countedAt : ℕ
  count : ℕ

/-- The next turn: the delay of the one before is over, and the counter goes on, or starts again
after a window without starts. -/
structure Turn.Follows (a b : Turn) : Prop where
  delay : a.countedAt + delayAfter a.count ≤ b.admittedAt
  count : b.count = a.count + 1 ∨ (b.count = 1 ∧ a.countedAt + loginThrottleWindow < b.countedAt)

/-- Turns one after the other, and the times of those admitted after the last. -/
structure TakeTurns (turns : List Turn) (opened : List ℕ) : Prop where
  follows : List.IsChain Turn.Follows turns
  counted : ∀ turn ∈ turns, turn.admittedAt ≤ turn.countedAt ∧ 1 ≤ turn.count
  one : opened.length ≤ 1
  opened : ∀ time ∈ opened, ∀ turn ∈ turns.getLast?,
    turn.countedAt + delayAfter turn.count ≤ time

/-- When the starts were admitted. -/
def turnTimes (turns : List Turn) (opened : List ℕ) : List ℕ :=
  turns.map (·.admittedAt) ++ opened

section Turns

variable {turn : Turn} {turns : List Turn} {opened rest : List ℕ} {time last m : ℕ}

theorem TakeTurns.tail (h : TakeTurns (turn :: turns) opened) : TakeTurns turns opened where
  follows := h.follows.tail
  counted t ht := h.counted t (List.mem_cons_of_mem _ ht)
  one := h.one
  opened time htime t ht := by
    refine h.opened time htime t ?_
    cases turns with
    | nil => cases ht
    | cons next turns => rwa [List.getLast?_cons_cons]

/-- The start after a turn is admitted when the delay of the turn is over. -/
theorem TakeTurns.next_le (h : TakeTurns (turn :: turns) opened)
    (hrest : time :: rest <+: turnTimes turns opened) :
    turn.countedAt + delayAfter turn.count ≤ time := by
  cases turns with
  | nil => exact h.opened time (hrest.subset List.mem_cons_self) turn rfl
  | cons next turns =>
      obtain ⟨rfl, -⟩ := List.cons_prefix_cons.1 hrest
      exact (List.isChain_cons_cons.1 h.follows).1.delay

/-- Starts are admitted one after the other. -/
theorem TakeTurns.le_last (h : TakeTurns turns opened)
    (hpre : time :: rest <+: turnTimes turns opened)
    (hlast : (time :: rest).getLast? = some last) : time ≤ last := by
  induction turns generalizing time rest with
  | nil =>
      have hnil : rest = [] := by
        have := hpre.length_le
        have := h.one
        simp only [turnTimes, List.map_nil, List.nil_append, List.length_cons] at *
        exact List.eq_nil_of_length_eq_zero (by omega)
      subst hnil
      exact Nat.le_of_eq (by simpa using hlast)
  | cons turn turns ih =>
      obtain ⟨htime, hrest⟩ := List.cons_prefix_cons.1 hpre
      dsimp only at htime
      cases rest with
      | nil => exact Nat.le_of_eq (by simpa using hlast)
      | cons next rest =>
          rw [List.getLast?_cons_cons] at hlast
          have hnext := h.next_le hrest
          have := ih h.tail hrest hlast
          have := (h.counted turn List.mem_cons_self).1
          omega

/-- The delays of the turns from a count on, while the counter goes on. -/
theorem TakeTurns.sum_le (h : TakeTurns turns opened)
    (hpre : time :: rest <+: turnTimes turns opened)
    (hlast : (time :: rest).getLast? = some last) (hwindow : last ≤ time + loginThrottleWindow)
    (hcount : rest ≠ [] → ∀ turn ∈ turns.head?, m ≤ turn.count) :
    time + ((List.range' m rest.length).map delayAfter).sum ≤ last := by
  induction turns generalizing time rest m with
  | nil =>
      have hnil : rest = [] := by
        have := hpre.length_le
        have := h.one
        simp only [turnTimes, List.map_nil, List.nil_append, List.length_cons] at *
        exact List.eq_nil_of_length_eq_zero (by omega)
      subst hnil
      exact Nat.le_of_eq (by simpa using hlast)
  | cons turn turns ih =>
      have hle := (h.counted turn List.mem_cons_self).1
      obtain ⟨htime, hrest⟩ := List.cons_prefix_cons.1 hpre
      dsimp only at htime
      cases rest with
      | nil => exact Nat.le_of_eq (by simpa using hlast)
      | cons next rest =>
          rw [List.getLast?_cons_cons] at hlast
          have hnext := h.next_le hrest
          have hdelay := delayAfter_mono (hcount (List.cons_ne_nil _ _) turn rfl)
          have hsum := @ih rest next (m + 1) h.tail hrest hlast (by omega) ?_
          · simp only [List.length_cons, List.range'_succ, List.map_cons, List.sum_cons]
            omega
          · intro hne turn' hturn'
            obtain ⟨turns', rfl⟩ : ∃ turns', turns = turn' :: turns' := by
              cases turns with
              | nil => cases hturn'
              | cons a turns' => exact ⟨turns', by rw [Option.some.inj hturn']⟩
            obtain ⟨later, rest', rfl⟩ := List.exists_cons_of_ne_nil hne
            rcases (List.isChain_cons_cons.1 h.follows).1.count with hnextCount | ⟨-, hlate⟩
            · rw [hnextCount]
              exact Nat.add_le_add_right (hcount (List.cons_ne_nil _ _) turn rfl) 1
            · -- the counter was gone for a window: the start after it lies past the span
              obtain ⟨-, hrest'⟩ := List.cons_prefix_cons.1 hrest
              have hlater := h.tail.next_le hrest'
              rw [List.getLast?_cons_cons] at hlast
              have := h.tail.tail.le_last hrest' hlast
              omega

/-- **How many starts that take turns fit a span** no longer than the window of the counter. -/
theorem span_of_turns (h : TakeTurns turns opened) : SpanOfStarts (turnTimes turns opened) := by
  intro starts first last hblock hfirst hlast hwindow
  obtain ⟨rest, rfl⟩ : ∃ rest, starts = first :: rest := by
    cases starts with
    | nil => cases hfirst
    | cons a rest => exact ⟨rest, by rw [Option.some.inj hfirst]⟩
  obtain ⟨before, after, heq⟩ := hblock
  induction before generalizing turns opened with
  | nil =>
      rw [leastSpan, List.length_cons, Nat.add_sub_cancel]
      refine h.sum_le ⟨after, by simpa using heq⟩ hlast hwindow fun _ turn hturn => ?_
      exact (h.counted turn (List.mem_of_mem_head? hturn)).2
  | cons time before ih =>
      cases turns with
      | nil =>
          have hlen := congrArg List.length heq
          have := h.one
          simp only [turnTimes, List.map_nil, List.nil_append, List.length_append,
            List.length_cons] at hlen
          omega
      | cons turn turns => exact ih h.tail (List.cons.inj heq).2

end Turns

/-- **How many starts fit any span**: in every started window so many. -/
theorem starts_of_spans {times : List ℕ} (h : SpanOfStarts times) {starts : List ℕ}
    {first last : ℕ} (hblock : starts <:+: times) (hfirst : starts.head? = some first)
    (hlast : starts.getLast? = some last) :
    starts.length ≤ mostStarts * ((last - first) / (loginThrottleWindow + 1) + 1) := by
  induction hlen : starts.length using Nat.strong_induction_on generalizing starts first with
  | _ count ih =>
      subst hlen
      obtain ⟨rest, rfl⟩ : ∃ rest, starts = first :: rest := by
        cases starts with
        | nil => cases hfirst
        | cons a rest => exact ⟨rest, by rw [Option.some.inj hfirst]⟩
      -- the starts of the first window, and those after it
      let inWindow : ℕ → Bool := fun time => time ≤ first + loginThrottleWindow
      have hsplit := List.takeWhile_append_dropWhile (p := inWindow) (l := first :: rest)
      have hnear : (first :: rest).takeWhile inWindow = first :: rest.takeWhile inWindow :=
        List.takeWhile_cons_of_pos (decide_eq_true (Nat.le_add_right _ _))
      have hnearLen : ((first :: rest).takeWhile inWindow).length ≤ mostStarts := by
        obtain ⟨x, hx⟩ := Option.isSome_iff_exists.1
          (List.getLast?_isSome.2 (by rw [hnear]; simp) :
            ((first :: rest).takeWhile inWindow).getLast?.isSome)
        have hin : inWindow x = true := List.mem_takeWhile_imp (List.mem_of_getLast? hx)
        refine le_mostStarts ?_
        have := h _ first x ((List.takeWhile_prefix _).isInfix.trans hblock) (by rw [hnear]; rfl) hx
          (of_decide_eq_true hin)
        have := of_decide_eq_true hin
        omega
      have hlength := congrArg List.length hsplit
      rw [List.length_append] at hlength
      cases hfar : (first :: rest).dropWhile inWindow with
      | nil =>
          rw [hfar, List.length_nil] at hlength
          calc (first :: rest).length ≤ mostStarts * 1 := by omega
            _ ≤ _ := Nat.mul_le_mul_left _ (Nat.le_add_left _ _)
      | cons next far =>
          have hlate : first + loginThrottleWindow < next := by
            have := @List.head_dropWhile_not _ inWindow (first :: rest) (by simp [hfar])
            simpa [hfar, inWindow] using this
          have hfarInfix : next :: far <:+: times := by
            rw [← hfar]
            exact (List.dropWhile_suffix _).isInfix.trans hblock
          have hfarLast : (next :: far).getLast? = some last := by
            rw [← hsplit, hfar, List.getLast?_append] at hlast
            simpa using hlast
          have hle : next ≤ last := by
            by_contra hnot
            have := h _ next last hfarInfix rfl hfarLast (by omega)
            omega
          have hfarLen := ih _ (by rw [← hfar]; rw [hnear, List.length_cons] at hlength; omega)
            hfarInfix rfl hfarLast rfl
          have hdiv : (last - next) / (loginThrottleWindow + 1) + 1 ≤
              (last - first) / (loginThrottleWindow + 1) := by
            rw [← Nat.add_div_right _ (Nat.succ_pos _)]
            exact Nat.div_le_div_right (by omega)
          rw [hfar] at hlength
          calc (first :: rest).length
              ≤ mostStarts + mostStarts * ((last - next) / (loginThrottleWindow + 1) + 1) := by omega
            _ ≤ mostStarts + mostStarts * ((last - first) / (loginThrottleWindow + 1)) :=
                Nat.add_le_add_left (Nat.mul_le_mul_left _ hdiv) _
            _ = _ := by rw [Nat.mul_add, Nat.mul_one, Nat.add_comm]

/-! ### The invariant -/

/-- The account a start is logged for. -/
def LoginEvent.startOf : LoginEvent → Option EmailHash
  | .admitted emailHash => some emailHash
  | .counted emailHash _ => some emailHash
  | .locked emailHash _ => some emailHash
  | _ => none

/-- A start that is admitted and still to record itself: it is the only one of its account, and the
locks set before it are over. -/
structure OpenStart (s : LoginServer) (i : ℕ) (emailHash : EmailHash) : Prop where
  admitted : ∃ l ∈ s.trace, l.call = i ∧ l.event = .admitted emailHash
  unrecorded : ¬ Recorded s i emailHash
  only : ∀ l ∈ s.trace, l.event = .admitted emailHash → l.call = i ∨ Recorded s l.call emailHash
  unlocked : ∀ k ∈ s.trace, ∀ backoffMs, k.event = .locked emailHash backoffMs →
    k.time + backoffMs ≤ s.clock

/-- The turns the starts of an account took; `opened` are the calls admitted since. -/
structure InTurns (s : LoginServer) (emailHash : EmailHash) (turns : List Turn)
    (opened : List AdmittedStart) : Prop where
  admitted : admittedStarts emailHash s.trace =
    turns.map (fun turn => { call := turn.call, time := turn.admittedAt }) ++ opened
  counted : countedStarts emailHash s.trace =
    turns.map fun turn => { call := turn.call, time := turn.countedAt, count := turn.count }
  turns : TakeTurns turns (opened.map (·.time))
  uncounted : ∀ start ∈ opened, ∀ l ∈ s.trace, l.call = start.call →
    ∀ count, l.event ≠ .counted emailHash count

/-- The throttle of one account. -/
structure AccountThrottle (s : LoginServer) (emailHash : EmailHash) : Prop where
  /-- A start is counted once. -/
  counted : ∀ l ∈ s.trace, ∀ count, l.event = .counted emailHash count →
    (∃ a ∈ s.trace, a.call = l.call ∧ a.event = .admitted emailHash) ∧
      ∀ l' ∈ s.trace, ∀ count', l'.call = l.call → l'.event = .counted emailHash count' → l' = l
  /-- A lock is the one of its count. -/
  locked : ∀ k ∈ s.trace, ∀ backoffMs, k.event = .locked emailHash backoffMs →
    ∃ l ∈ s.trace, l.call = k.call ∧ l.time ≤ k.time ∧ ∃ count,
      l.event = .counted emailHash count ∧ backoffMs = delayAfter count
  /-- A lock that is not over is held. -/
  held : ∀ k ∈ s.trace, ∀ backoffMs, k.event = .locked emailHash backoffMs →
    k.time + backoffMs ≤ s.clock ∨
      ∃ until', s.redis.loginLocks emailHash = some ⟨(), some until'⟩ ∧
        k.time + backoffMs ≤ until'
  /-- The counter is the last count. -/
  counter : ∀ start ∈ (countedStarts emailHash s.trace).getLast?,
    s.redis.loginThrottles emailHash =
      some ⟨start.count, some (start.time + loginThrottleWindow)⟩
  turns : ∃ turns opened, InTurns s emailHash turns opened
  elapsed : s.trace.Pairwise fun l l' =>
    l.event = .admitted emailHash → l'.event = .admitted emailHash →
      DelayOver s emailHash l.call l'.time

structure ThrottleInv (n : ℕ) (s : LoginServer) : Prop where
  calls : ∀ l ∈ s.trace, l.call < n
  times : ∀ l ∈ s.trace, l.time ≤ s.clock
  accounts : ∀ emailHash, AccountThrottle s emailHash

/-- What a start in flight has to show for. -/
def ThrottleCallInv (i : ℕ) (s : LoginServer) : LoginCall → Prop
  | .startLogin _ => ∀ l ∈ s.trace, l.call ≠ i
  | .countLoginStart emailHash (.start _) => OpenStart s i emailHash ∧
      ∀ l ∈ s.trace, l.call = i → l.event = .admitted emailHash
  | .setLoginLock emailHash backoffMs (.start _) => OpenStart s i emailHash ∧
      ∃ l ∈ s.trace, l.call = i ∧ ∃ count, l.event = .counted emailHash count ∧
        backoffMs = delayAfter count
  | .stampStart _ | .readRegistration .. | .setLoginAttempt .. => True
  | _ => False

section Steps

variable {s : LoginServer} {n i j : ℕ} {fresh : String} {ran : Ran} {emailHash : EmailHash}

theorem mem_admittedStarts {trace : List Logged} {start : AdmittedStart} :
    start ∈ admittedStarts emailHash trace ↔ ∃ l ∈ trace, l.call = start.call ∧
      l.time = start.time ∧ l.event = .admitted emailHash := by
  simp only [admittedStarts, List.mem_filterMap, Option.ite_none_right_eq_some, Option.some.injEq]
  constructor
  · rintro ⟨l, hl, hevent, rfl⟩
    exact ⟨l, hl, rfl, rfl, hevent⟩
  · rintro ⟨l, hl, hcall, htime, hevent⟩
    exact ⟨l, hl, hevent, by rw [hcall, htime]⟩

theorem mem_countedStarts {trace : List Logged} {start : CountedStart} :
    start ∈ countedStarts emailHash trace ↔ ∃ l ∈ trace, l.call = start.call ∧
      l.time = start.time ∧ l.event = .counted emailHash start.count := by
  rw [countedStarts, List.mem_filterMap]
  constructor
  · rintro ⟨l, hl, h⟩
    split at h
    · next emailHash' count hevent =>
        split at h
        · next heq =>
            obtain rfl := Option.some.inj h
            exact ⟨l, hl, rfl, rfl, by rw [hevent, heq]⟩
        · cases h
    · cases h
  · rintro ⟨l, hl, hcall, htime, hevent⟩
    refine ⟨l, hl, ?_⟩
    simp only [hevent, if_true, hcall, htime]

/-- A turn was counted. -/
theorem InTurns.exists_counted {turns : List Turn} {opened : List AdmittedStart}
    (h : InTurns s emailHash turns opened) {turn : Turn} (hturn : turn ∈ turns) :
    ∃ l ∈ s.trace, l.call = turn.call ∧ l.time = turn.countedAt ∧
      l.event = .counted emailHash turn.count := by
  have hmem : (⟨turn.call, turn.countedAt, turn.count⟩ : CountedStart) ∈
      countedStarts emailHash s.trace := by
    rw [h.counted]
    exact List.mem_map_of_mem hturn
  exact mem_countedStarts.1 hmem

theorem Recorded.after {call : ℕ} (h : Recorded s call emailHash) :
    Recorded (s.after i fresh ran) call emailHash := by
  obtain ⟨l, hl, hrest⟩ := h
  exact ⟨l, LoginServer.mem_after_trace.2 (Or.inl hl), hrest⟩

/-- A start that recorded itself was counted. -/
theorem AccountThrottle.counted_of_recorded (h : AccountThrottle s emailHash) {call : ℕ}
    (hr : Recorded s call emailHash) : ∃ l ∈ s.trace, l.call = call ∧ ∃ count,
      l.event = .counted emailHash count ∧ (count ≤ loginFreeAttempts ∨ ∃ k ∈ s.trace,
        k.call = call ∧ l.time ≤ k.time ∧ k.event = .locked emailHash (delayAfter count)) := by
  obtain ⟨l, hl, rfl, ⟨count, hevent, hfree⟩ | ⟨backoffMs, hevent⟩⟩ := hr
  · exact ⟨l, hl, rfl, count, hevent, Or.inl hfree⟩
  · obtain ⟨c, hc, hcall, htime, count, hcevent, rfl⟩ := h.locked l hl _ hevent
    exact ⟨c, hc, hcall, count, hcevent, Or.inr ⟨l, hl, rfl, htime, hevent⟩⟩

theorem DelayOver.after {call time : ℕ} (h : DelayOver s emailHash call time) :
    DelayOver (s.after i fresh ran) emailHash call time := by
  obtain ⟨c, hc, hcall, count, hevent, hrest⟩ := h
  refine ⟨c, LoginServer.mem_after_trace.2 (Or.inl hc), hcall, count, hevent, hrest.imp_right ?_⟩
  rintro ⟨k, hk, hk'⟩
  exact ⟨k, LoginServer.mem_after_trace.2 (Or.inl hk), hk'⟩

/-! ### One command -/

/-- What a command did not log was logged before it. -/
theorem mem_of_not_logged {l : Logged} (hl : l ∈ (s.after i fresh ran).trace)
    (hnot : l.event ∉ ran.events) : l ∈ s.trace := by
  rcases LoginServer.mem_after_trace.1 hl with hold | ⟨-, -, hnew⟩
  · exact hold
  · exact absurd hnew hnot

theorem admittedStarts_after (hnot : .admitted emailHash ∉ ran.events) :
    admittedStarts emailHash (s.after i fresh ran).trace = admittedStarts emailHash s.trace := by
  rw [LoginServer.after, admittedStarts, List.filterMap_append, ← admittedStarts]
  refine List.append_right_eq_self.2 (List.eq_nil_iff_forall_not_mem.2 fun start hstart => ?_)
  obtain ⟨l, hl, -, -, hevent⟩ := mem_admittedStarts.1 hstart
  obtain ⟨event, hmem, rfl⟩ := List.mem_map.1 hl
  exact hnot (by rwa [show event = _ from hevent] at hmem)

theorem countedStarts_after (hnot : ∀ count, .counted emailHash count ∉ ran.events) :
    countedStarts emailHash (s.after i fresh ran).trace = countedStarts emailHash s.trace := by
  rw [LoginServer.after, countedStarts, List.filterMap_append, ← countedStarts]
  refine List.append_right_eq_self.2 (List.eq_nil_iff_forall_not_mem.2 fun start hstart => ?_)
  obtain ⟨l, hl, -, -, hevent⟩ := mem_countedStarts.1 hstart
  obtain ⟨event, hmem, rfl⟩ := List.mem_map.1 hl
  exact hnot _ (by rwa [show event = _ from hevent] at hmem)

theorem AccountThrottle.counted_after (h : AccountThrottle s emailHash)
    (hnot : ∀ count, .counted emailHash count ∉ ran.events) :
    ∀ l ∈ (s.after i fresh ran).trace, ∀ count, l.event = .counted emailHash count →
      (∃ a ∈ (s.after i fresh ran).trace, a.call = l.call ∧ a.event = .admitted emailHash) ∧
        ∀ l' ∈ (s.after i fresh ran).trace, ∀ count', l'.call = l.call →
          l'.event = .counted emailHash count' → l' = l := by
  intro l hl count hevent
  obtain ⟨⟨a, ha, harest⟩, hone⟩ :=
    h.counted l (mem_of_not_logged hl (hevent ▸ hnot count)) _ hevent
  refine ⟨⟨a, LoginServer.mem_after_trace.2 (Or.inl ha), harest⟩, ?_⟩
  intro l' hl' count' hcall hevent'
  exact hone l' (mem_of_not_logged hl' (hevent' ▸ hnot count')) count' hcall hevent'

theorem AccountThrottle.locked_after (h : AccountThrottle s emailHash)
    (hnot : ∀ backoffMs, .locked emailHash backoffMs ∉ ran.events) :
    ∀ k ∈ (s.after i fresh ran).trace, ∀ backoffMs, k.event = .locked emailHash backoffMs →
      ∃ l ∈ (s.after i fresh ran).trace, l.call = k.call ∧ l.time ≤ k.time ∧ ∃ count,
        l.event = .counted emailHash count ∧ backoffMs = delayAfter count := by
  intro k hk backoffMs hevent
  obtain ⟨l, hl, hrest⟩ := h.locked k (mem_of_not_logged hk (hevent ▸ hnot backoffMs)) _ hevent
  exact ⟨l, LoginServer.mem_after_trace.2 (Or.inl hl), hrest⟩

theorem AccountThrottle.held_after (h : AccountThrottle s emailHash)
    (hnot : ∀ backoffMs, .locked emailHash backoffMs ∉ ran.events)
    (hlocks : ran.redis.loginLocks emailHash = s.redis.loginLocks emailHash) :
    ∀ k ∈ (s.after i fresh ran).trace, ∀ backoffMs, k.event = .locked emailHash backoffMs →
      k.time + backoffMs ≤ s.clock ∨
        ∃ until', ran.redis.loginLocks emailHash = some ⟨(), some until'⟩ ∧
          k.time + backoffMs ≤ until' := by
  intro k hk backoffMs hevent
  rw [hlocks]
  exact h.held k (mem_of_not_logged hk (hevent ▸ hnot backoffMs)) _ hevent

theorem AccountThrottle.counter_after (h : AccountThrottle s emailHash)
    (hnot : ∀ count, .counted emailHash count ∉ ran.events)
    (hthrottles : ran.redis.loginThrottles emailHash = s.redis.loginThrottles emailHash) :
    ∀ start ∈ (countedStarts emailHash (s.after i fresh ran).trace).getLast?,
      ran.redis.loginThrottles emailHash =
        some ⟨start.count, some (start.time + loginThrottleWindow)⟩ := by
  rw [countedStarts_after hnot, hthrottles]
  exact h.counter

theorem AccountThrottle.turns_after (h : AccountThrottle s emailHash)
    (hadmitted : .admitted emailHash ∉ ran.events)
    (hnot : ∀ count, .counted emailHash count ∉ ran.events) :
    ∃ turns opened, InTurns (s.after i fresh ran) emailHash turns opened := by
  obtain ⟨turns, opened, hturns⟩ := h.turns
  refine ⟨turns, opened, ?_, ?_, hturns.turns, fun start hstart l hl hcall count hevent => ?_⟩
  · rw [admittedStarts_after hadmitted, hturns.admitted]
  · rw [countedStarts_after hnot, hturns.counted]
  · exact hturns.uncounted start hstart l (mem_of_not_logged hl (hevent ▸ hnot count)) hcall count
      hevent

/-- A command that admits a start does nothing else, once the delays before it are over. -/
theorem AccountThrottle.elapsed_after (h : AccountThrottle s emailHash)
    (hnew : .admitted emailHash ∈ ran.events → ran.events = [.admitted emailHash] ∧
      ∀ l ∈ s.trace, l.event = .admitted emailHash → DelayOver s emailHash l.call s.clock) :
    (s.after i fresh ran).trace.Pairwise fun l l' =>
      l.event = .admitted emailHash → l'.event = .admitted emailHash →
        DelayOver (s.after i fresh ran) emailHash l.call l'.time := by
  rw [LoginServer.after, List.pairwise_append]
  refine ⟨h.elapsed.imp fun hp ha ha' => (hp ha ha').after, ?_, ?_⟩
  · rw [List.pairwise_map]
    by_cases hmem : .admitted emailHash ∈ ran.events
    · rw [(hnew hmem).1]
      exact List.pairwise_singleton _ _
    · refine List.pairwise_of_forall_mem_list fun event hevent event' _ ha => ?_
      exact absurd (by rwa [show event = .admitted emailHash from ha] at hevent) hmem
  · intro l hl l' hl' ha ha'
    obtain ⟨event, hmem, rfl⟩ := List.mem_map.1 hl'
    rw [show event = .admitted emailHash from ha'] at hmem
    exact ((hnew hmem).2 l hl ha).after

/-- A command that logs nothing about an account and leaves its keys alone keeps its throttle. -/
theorem AccountThrottle.quiet (h : AccountThrottle s emailHash)
    (hlocks : ran.redis.loginLocks emailHash = s.redis.loginLocks emailHash)
    (hthrottles : ran.redis.loginThrottles emailHash = s.redis.loginThrottles emailHash)
    (hnone : ∀ event ∈ ran.events, event.startOf ≠ some emailHash) :
    AccountThrottle (s.after i fresh ran) emailHash := by
  have hadmitted : .admitted emailHash ∉ ran.events := fun hmem => hnone _ hmem rfl
  have hcounted : ∀ count, .counted emailHash count ∉ ran.events := fun _ hmem => hnone _ hmem rfl
  have hlocked : ∀ backoffMs, .locked emailHash backoffMs ∉ ran.events :=
    fun _ hmem => hnone _ hmem rfl
  exact ⟨h.counted_after hcounted, h.locked_after hlocked, h.held_after hlocked hlocks,
    h.counter_after hcounted hthrottles, h.turns_after hadmitted hcounted,
    h.elapsed_after fun hmem => absurd hmem hadmitted⟩

/-- No lock means the locks that were set are over. -/
theorem AccountThrottle.unlocked (h : AccountThrottle s emailHash)
    (hfree : s.redis.getLoginLockMs s.clock emailHash = 0) {k : Logged} (hk : k ∈ s.trace)
    {backoffMs : ℕ} (hevent : k.event = .locked emailHash backoffMs) :
    k.time + backoffMs ≤ s.clock := by
  rcases h.held k hk _ hevent with hover | ⟨until', hlock, hle⟩
  · exact hover
  · rw [LoginRedis.getLoginLockMs, hlock] at hfree
    exact hle.trans (Nat.le_of_sub_eq_zero hfree)

/-- An admitted start, when every one before it has recorded itself. -/
theorem AccountThrottle.enter (h : AccountThrottle s emailHash)
    (hevents : ran.events = [.admitted emailHash])
    (hlocks : ran.redis.loginLocks emailHash = s.redis.loginLocks emailHash)
    (hthrottles : ran.redis.loginThrottles emailHash = s.redis.loginThrottles emailHash)
    (hfree : s.redis.getLoginLockMs s.clock emailHash = 0)
    (hturn : ∀ l ∈ s.trace, l.event = .admitted emailHash → Recorded s l.call emailHash)
    (hfresh : ∀ l ∈ s.trace, l.call ≠ i) (htimes : ∀ l ∈ s.trace, l.time ≤ s.clock) :
    AccountThrottle (s.after i fresh ran) emailHash := by
  have hcounted : ∀ count, .counted emailHash count ∉ ran.events := by simp [hevents]
  have hlocked : ∀ backoffMs, .locked emailHash backoffMs ∉ ran.events := by simp [hevents]
  refine ⟨h.counted_after hcounted, h.locked_after hlocked, h.held_after hlocked hlocks,
    h.counter_after hcounted hthrottles, ?_, h.elapsed_after fun _ => ⟨hevents, ?_⟩⟩
  · obtain ⟨turns, opened, hturns⟩ := h.turns
    -- every start before it was counted
    obtain rfl : opened = [] := by
      refine List.eq_nil_iff_forall_not_mem.2 fun start hstart => ?_
      have hmem : start ∈ admittedStarts emailHash s.trace := by
        rw [hturns.admitted]
        exact List.mem_append_right _ hstart
      obtain ⟨l, hl, hcall, -, hevent⟩ := mem_admittedStarts.1 hmem
      obtain ⟨c, hc, hccall, count, hcevent, -⟩ := h.counted_of_recorded (hturn l hl hevent)
      exact hturns.uncounted start hstart c hc (hccall.trans hcall) count hcevent
    refine ⟨turns, [⟨i, s.clock⟩], ?_, ?_, ?_, ?_⟩
    · rw [LoginServer.after, hevents, admittedStarts, List.filterMap_append, ← admittedStarts,
        hturns.admitted, List.append_nil]
      simp
    · rw [countedStarts_after hcounted, hturns.counted]
    · refine ⟨hturns.turns.follows, hturns.turns.counted, Nat.le_refl _, ?_⟩
      intro time htime turn hlast
      obtain rfl : time = s.clock := by simpa using htime
      obtain ⟨l, hl, hcall, htimeAt, hevent⟩ :=
        hturns.exists_counted (List.mem_of_getLast? hlast)
      obtain ⟨⟨a, ha, hacall, haevent⟩, hone⟩ := h.counted l hl _ hevent
      obtain ⟨c, hc, hccall, count, hcevent, hdelay⟩ := h.counted_of_recorded (hturn a ha haevent)
      obtain rfl := hone c hc count (hccall.trans hacall) hcevent
      obtain rfl : count = turn.count := by
        rw [hcevent] at hevent
        exact (LoginEvent.counted.inj hevent).2
      rcases hdelay with hfreeCount | ⟨k, hk, -, hle, hkevent⟩
      · rw [delayAfter, if_pos hfreeCount, ← htimeAt]
        exact htimes c hc
      · have := h.unlocked hfree hk hkevent
        exact (Nat.add_le_add_right (htimeAt ▸ hle) _).trans this
    · intro start hstart l hl hcall count hevent
      obtain rfl : start = ⟨i, s.clock⟩ := by simpa using hstart
      exact hfresh l (mem_of_not_logged hl (hevent ▸ hcounted count)) hcall
  · intro l hl hevent
    obtain ⟨c, hc, hccall, count, hcevent, hdelay⟩ := h.counted_of_recorded (hturn l hl hevent)
    refine ⟨c, hc, hccall, count, hcevent, hdelay.imp_right ?_⟩
    rintro ⟨k, hk, hkcall, -, hkevent⟩
    exact ⟨k, hk, hkcall, hkevent, h.unlocked hfree hk hkevent⟩

/-- A command that logs nothing about an account leaves its open start alone. -/
theorem OpenStart.after (h : OpenStart s j emailHash)
    (hnone : ∀ event ∈ ran.events, event.startOf ≠ some emailHash) :
    OpenStart (s.after i fresh ran) j emailHash := by
  have hold : ∀ l ∈ (s.after i fresh ran).trace, l.event.startOf = some emailHash →
      l ∈ s.trace := by
    intro l hl hevent
    rcases LoginServer.mem_after_trace.1 hl with hold | ⟨-, -, hnew⟩
    · exact hold
    · exact absurd hevent (hnone _ hnew)
  refine ⟨?_, ?_, ?_, ?_⟩
  · obtain ⟨l, hl, hrest⟩ := h.admitted
    exact ⟨l, LoginServer.mem_after_trace.2 (Or.inl hl), hrest⟩
  · rintro ⟨l, hl, hcall, hevent⟩
    have hstart : l.event.startOf = some emailHash := by
      rcases hevent with ⟨count, hevent, -⟩ | ⟨backoffMs, hevent⟩ <;> rw [hevent] <;> rfl
    exact h.unrecorded ⟨l, hold l hl hstart, hcall, hevent⟩
  · intro l hl hevent
    rcases h.only l (hold l hl (by rw [hevent]; rfl)) hevent with hcall | hrec
    · exact Or.inl hcall
    · exact Or.inr hrec.after
  · intro k hk backoffMs hevent
    exact h.unlocked k (hold k hk (by rw [hevent]; rfl)) backoffMs hevent

/-- Two open starts of an account are one. -/
theorem OpenStart.unique (h : OpenStart s i emailHash) (h' : OpenStart s j emailHash) : i = j := by
  obtain ⟨l, hl, rfl, hevent⟩ := h.admitted
  rcases h'.only l hl hevent with hcall | hrec
  · exact hcall
  · exact absurd hrec h.unrecorded

/-- The start that is counted now is the one that was admitted and is not counted yet. -/
theorem InTurns.opened_eq {turns : List Turn} {opened : List AdmittedStart}
    (h : InTurns s emailHash turns opened) {l : Logged} (hl : l ∈ s.trace)
    (hevent : l.event = .admitted emailHash)
    (hnone : ∀ c ∈ s.trace, c.call = l.call → ∀ count, c.event ≠ .counted emailHash count) :
    opened = [⟨l.call, l.time⟩] := by
  have hmem : (⟨l.call, l.time⟩ : AdmittedStart) ∈ admittedStarts emailHash s.trace :=
    mem_admittedStarts.2 ⟨l, hl, rfl, rfl, hevent⟩
  rw [h.admitted, List.mem_append] at hmem
  rcases hmem with hmem | hmem
  · obtain ⟨turn, hturn, heq⟩ := List.mem_map.1 hmem
    obtain ⟨c, hc, hcall, -, hcevent⟩ := h.exists_counted hturn
    exact absurd hcevent (hnone c hc (hcall.trans (AdmittedStart.mk.inj heq).1) _)
  · have hone := h.turns.one
    rw [List.length_map] at hone
    cases opened with
    | nil => cases hmem
    | cons start rest =>
        obtain rfl := List.eq_nil_of_length_eq_zero (Nat.le_zero.1 (Nat.le_of_succ_le_succ hone))
        rw [List.mem_singleton.1 hmem]

/-- The next count goes on from the last turn's, or that turn's counter is gone. -/
theorem AccountThrottle.count_of_last (h : AccountThrottle s emailHash) {turns : List Turn}
    {opened : List AdmittedStart} (hturns : InTurns s emailHash turns opened) {last : Turn}
    (hlast : turns.getLast? = some last) :
    (s.redis.loginThrottles.get s.clock emailHash).getD 0 + 1 = last.count + 1 ∨
      (s.redis.loginThrottles.get s.clock emailHash).getD 0 + 1 = 1 ∧
        last.countedAt + loginThrottleWindow < s.clock := by
  have hcounter := h.counter ⟨last.call, last.countedAt, last.count⟩ (by
    rw [hturns.counted, List.getLast?_map, hlast]
    rfl)
  by_cases hlive : s.clock ≤ last.countedAt + loginThrottleWindow
  · refine Or.inl ?_
    have hget : s.redis.loginThrottles.get s.clock emailHash = some last.count :=
      Store.get_eq_some.2 ⟨_, hcounter, decide_eq_true hlive, rfl⟩
    rw [hget]
    rfl
  · refine Or.inr ⟨?_, Nat.lt_of_not_le hlive⟩
    have hget : s.redis.loginThrottles.get s.clock emailHash = none := by
      rw [Store.get, hcounter]
      exact if_neg (by simpa [Entry.live] using hlive)
    rw [hget]
    rfl

/-- The count of the open start of an account. -/
theorem AccountThrottle.count (h : AccountThrottle s emailHash) (hopen : OpenStart s i emailHash)
    (hfirst : ∀ l ∈ s.trace, l.call = i → l.event = .admitted emailHash) {count : ℕ}
    (hevents : ran.events = [.counted emailHash count])
    (hcount : count = (s.redis.loginThrottles.get s.clock emailHash).getD 0 + 1)
    (hlocks : ran.redis.loginLocks emailHash = s.redis.loginLocks emailHash)
    (hthrottles : ran.redis.loginThrottles emailHash =
      some ⟨count, some (s.clock + loginThrottleWindow)⟩)
    (htimes : ∀ l ∈ s.trace, l.time ≤ s.clock) :
    AccountThrottle (s.after i fresh ran) emailHash := by
  have hadmitted : .admitted emailHash ∉ ran.events := by simp [hevents]
  have hlocked : ∀ backoffMs, .locked emailHash backoffMs ∉ ran.events := by simp [hevents]
  have hnone : ∀ l ∈ s.trace, l.call = i → ∀ count', l.event ≠ .counted emailHash count' := by
    intro l hl hcall count' hevent
    rw [hfirst l hl hcall] at hevent
    cases hevent
  have hstarts : countedStarts emailHash (s.after i fresh ran).trace =
      countedStarts emailHash s.trace ++ [⟨i, s.clock, count⟩] := by
    rw [LoginServer.after, hevents, countedStarts, List.filterMap_append, ← countedStarts]
    simp
  refine ⟨?_, h.locked_after hlocked, h.held_after hlocked hlocks, ?_, ?_,
    h.elapsed_after fun hmem => absurd hmem hadmitted⟩
  · intro l hl count₁ hevent
    rcases LoginServer.mem_after_trace.1 hl with hold | ⟨rfl, htime, hnew⟩
    · obtain ⟨⟨a, ha, harest⟩, hone⟩ := h.counted l hold _ hevent
      refine ⟨⟨a, LoginServer.mem_after_trace.2 (Or.inl ha), harest⟩, ?_⟩
      intro l' hl' count₂ hcall hevent'
      rcases LoginServer.mem_after_trace.1 hl' with hold' | ⟨hcall', -, -⟩
      · exact hone l' hold' count₂ hcall hevent'
      · exact absurd hevent (hnone l hold (hcall.symm.trans hcall') count₁)
    · obtain ⟨a, ha, harest⟩ := hopen.admitted
      refine ⟨⟨a, LoginServer.mem_after_trace.2 (Or.inl ha), harest⟩, ?_⟩
      intro l' hl' count₂ hcall hevent'
      rcases LoginServer.mem_after_trace.1 hl' with hold' | ⟨hcall', htime', hnew'⟩
      · exact absurd hevent' (hnone l' hold' hcall count₂)
      · rw [hevents, List.mem_singleton] at hnew hnew'
        cases l
        cases l'
        simp_all
  · intro start hlast
    rw [hstarts, List.getLast?_concat] at hlast
    obtain rfl := Option.some.inj hlast
    exact hthrottles
  · obtain ⟨turns, opened, hturns⟩ := h.turns
    obtain ⟨l, hl, rfl, hevent⟩ := hopen.admitted
    obtain rfl := hturns.opened_eq hl hevent fun c hc hcall => hnone c hc hcall
    refine ⟨turns ++ [⟨l.call, l.time, s.clock, count⟩], [], ?_, ?_, ⟨?_, ?_, ?_, ?_⟩, ?_⟩
    · rw [admittedStarts_after hadmitted, hturns.admitted]
      simp
    · rw [hstarts, hturns.counted]
      simp
    · refine List.isChain_append.2 ⟨hturns.turns.follows, List.isChain_singleton _, ?_⟩
      intro last hlast turn hturn
      obtain rfl := Option.some.inj hturn
      exact ⟨hturns.turns.opened l.time (by simp) last hlast,
        hcount ▸ h.count_of_last hturns (Option.mem_def.1 hlast)⟩
    · intro turn hturn
      rcases List.mem_append.1 hturn with hold | hnew
      · exact hturns.turns.counted turn hold
      · obtain rfl := List.mem_singleton.1 hnew
        exact ⟨htimes l hl, hcount ▸ Nat.le_add_left 1 _⟩
    · exact Nat.zero_le _
    · intro time htime
      cases htime
    · intro start hstart
      cases hstart

/-- The lock of the open start of an account. -/
theorem AccountThrottle.lock (h : AccountThrottle s emailHash) (hopen : OpenStart s i emailHash)
    {backoffMs : ℕ} (hcount : ∃ l ∈ s.trace, l.call = i ∧ ∃ count,
      l.event = .counted emailHash count ∧ backoffMs = delayAfter count)
    (hevents : ran.events = [.locked emailHash backoffMs])
    (hlocks : ran.redis.loginLocks emailHash = some ⟨(), some (s.clock + backoffMs)⟩)
    (hthrottles : ran.redis.loginThrottles emailHash = s.redis.loginThrottles emailHash)
    (htimes : ∀ l ∈ s.trace, l.time ≤ s.clock) :
    AccountThrottle (s.after i fresh ran) emailHash := by
  have hadmitted : .admitted emailHash ∉ ran.events := by simp [hevents]
  have hcounted : ∀ count, .counted emailHash count ∉ ran.events := by simp [hevents]
  have hnew : ∀ k : Logged, k.event ∈ ran.events → ∀ backoffMs',
      k.event = .locked emailHash backoffMs' → backoffMs' = backoffMs := by
    intro k hk backoffMs' hevent
    rw [hevents, List.mem_singleton, hevent] at hk
    exact (LoginEvent.locked.inj hk).2
  refine ⟨h.counted_after hcounted, ?_, ?_, h.counter_after hcounted hthrottles,
    h.turns_after hadmitted hcounted, h.elapsed_after fun hmem => absurd hmem hadmitted⟩
  · intro k hk backoffMs' hevent
    rcases LoginServer.mem_after_trace.1 hk with hold | ⟨rfl, htime, hmem⟩
    · obtain ⟨l, hl, hrest⟩ := h.locked k hold _ hevent
      exact ⟨l, LoginServer.mem_after_trace.2 (Or.inl hl), hrest⟩
    · obtain rfl := hnew k hmem _ hevent
      obtain ⟨l, hl, hcall, hrest⟩ := hcount
      exact ⟨l, LoginServer.mem_after_trace.2 (Or.inl hl), hcall, htime ▸ htimes l hl, hrest⟩
  · intro k hk backoffMs' hevent
    rcases LoginServer.mem_after_trace.1 hk with hold | ⟨-, htime, hmem⟩
    · exact Or.inl (hopen.unlocked k hold _ hevent)
    · obtain rfl := hnew k hmem _ hevent
      exact Or.inr ⟨_, hlocks, by rw [htime]⟩

theorem ThrottleInv.after (hs : ThrottleInv n s) (hi : i < n)
    (h : ∀ emailHash, AccountThrottle (s.after i fresh ran) emailHash) :
    ThrottleInv n (s.after i fresh ran) := by
  refine ⟨?_, ?_, h⟩
  · intro l hl
    rcases LoginServer.mem_after_trace.1 hl with hold | ⟨rfl, -, -⟩
    · exact hs.calls l hold
    · exact hi
  · intro l hl
    rcases LoginServer.mem_after_trace.1 hl with hold | ⟨-, htime, -⟩
    · exact hs.times l hold
    · exact Nat.le_of_eq htime

/-- What a command logs about accounts without an open start of another call leaves that call in
order. -/
theorem throttleCallInv_after {call : LoginCall} (hc : ThrottleCallInv j s call) (hji : j ≠ i)
    (hothers : ∀ event ∈ ran.events, ∀ emailHash, event.startOf = some emailHash →
      ¬ OpenStart s j emailHash) : ThrottleCallInv j (s.after i fresh ran) call := by
  have hold : ∀ l ∈ (s.after i fresh ran).trace, l.call = j → l ∈ s.trace := by
    intro l hl hcall
    rcases LoginServer.mem_after_trace.1 hl with hold | ⟨rfl, -, -⟩
    · exact hold
    · exact absurd hcall hji.symm
  have hopen : ∀ emailHash, OpenStart s j emailHash → OpenStart (s.after i fresh ran) j emailHash :=
    fun _ h => h.after fun event hevent hstart => hothers event hevent _ hstart h
  cases call with
  | startLogin input => exact fun l hl hcall => hc l (hold l hl hcall) hcall
  | countLoginStart emailHash after =>
      cases after with
      | start input => exact ⟨hopen _ hc.1, fun l hl hcall => hc.2 l (hold l hl hcall) hcall⟩
      | wrongCode challengeId attempts => exact hc
  | setLoginLock emailHash backoffMs after =>
      cases after with
      | start input =>
          obtain ⟨l, hl, hrest⟩ := hc.2
          exact ⟨hopen _ hc.1, l, LoginServer.mem_after_trace.2 (Or.inl hl), hrest⟩
      | wrongCode challengeId attempts => exact hc
  | stampStart | readRegistration | setLoginAttempt => trivial
  | _ => exact hc

/-- What one command of a start in flight keeps. -/
structure ThrottleKept (n i : ℕ) (s : LoginServer) (fresh : String) (ran : Ran) : Prop where
  inv : ThrottleInv n (s.after i fresh ran)
  rest : ∀ c, ran.rest = some c → ThrottleCallInv i (s.after i fresh ran) c
  others : ∀ j, j ≠ i → ∀ event ∈ ran.events, ∀ emailHash, event.startOf = some emailHash →
    ¬ OpenStart s j emailHash

/-- A command that is about no start. -/
theorem throttleKept_quiet (hs : ThrottleInv n s) (hi : i < n)
    (hlocks : ran.redis.loginLocks = s.redis.loginLocks)
    (hthrottles : ran.redis.loginThrottles = s.redis.loginThrottles)
    (hnone : ∀ event ∈ ran.events, event.startOf = none)
    (hrest : ∀ c, ran.rest = some c → ThrottleCallInv i (s.after i fresh ran) c) :
    ThrottleKept n i s fresh ran := by
  refine ⟨hs.after hi fun emailHash => (hs.accounts emailHash).quiet (by rw [hlocks])
    (by rw [hthrottles]) fun event hevent => by simp [hnone event hevent], hrest, ?_⟩
  intro j _ event hevent emailHash hstart
  rw [hnone event hevent] at hstart
  cases hstart

/-- A command that is about the starts of one account. -/
theorem throttleKept_account (hs : ThrottleInv n s) (hi : i < n)
    (h : AccountThrottle (s.after i fresh ran) emailHash)
    (hlocks : ∀ e, e ≠ emailHash → ran.redis.loginLocks e = s.redis.loginLocks e)
    (hthrottles : ∀ e, e ≠ emailHash → ran.redis.loginThrottles e = s.redis.loginThrottles e)
    (hevents : ∀ event ∈ ran.events, event.startOf = some emailHash)
    (hothers : ∀ j, j ≠ i → ¬ OpenStart s j emailHash)
    (hrest : ∀ c, ran.rest = some c → ThrottleCallInv i (s.after i fresh ran) c) :
    ThrottleKept n i s fresh ran := by
  refine ⟨hs.after hi fun e => ?_, hrest, ?_⟩
  · by_cases he : e = emailHash
    · rw [he]
      exact h
    · refine (hs.accounts e).quiet (hlocks e he) (hthrottles e he) fun event hevent hstart => ?_
      rw [hevents event hevent] at hstart
      exact he (Option.some.inj hstart).symm
  · intro j hji event hevent e hstart
    rw [hevents event hevent] at hstart
    obtain rfl := Option.some.inj hstart
    exact hothers j hji

/-- `startLogin` of an account without a lock, in its turn. -/
theorem kept_startLogin (P : LoginPlatform) (hs : ThrottleInv n s) (hi : i < n)
    (input : StartLoginInput) (hc : ThrottleCallInv i s (.startLogin input))
    (hturn : StartsInTurn P s (.startLogin input)) :
    ThrottleKept n i s fresh
      ((LoginCall.startLogin input).run P fresh s.clock s.redis s.db) := by
  simp only [LoginCall.run]
  split
  · exact throttleKept_quiet hs hi (by rfl) (by rfl) (by simp [Ran.answer, LoginEvent.startOf])
      fun c hrest => by cases hrest
  · next hfree =>
      have hacc := hs.accounts (P.hashEmail input.email)
      have hfree' := Nat.eq_zero_of_not_pos hfree
      refine throttleKept_account hs hi
        (hacc.enter (by rfl) (by rfl) (by rfl) hfree' hturn hc hs.times) (fun _ _ => rfl)
        (fun _ _ => rfl) (by simp [Ran.next, LoginEvent.startOf]) ?_ ?_
      · intro j _ hopen
        obtain ⟨l, hl, rfl, hevent⟩ := hopen.admitted
        exact hopen.unrecorded (hturn l hl hevent)
      · intro c hrest
        obtain rfl := Option.some.inj hrest
        have hnew : ∀ l : Logged, l.event ∈ [LoginEvent.admitted (P.hashEmail input.email)] →
            l.event = .admitted (P.hashEmail input.email) := fun l hl => List.mem_singleton.1 hl
        refine ⟨⟨?_, ?_, ?_, ?_⟩, ?_⟩
        · exact ⟨{ call := i, time := s.clock, event := .admitted (P.hashEmail input.email) },
            LoginServer.mem_after_trace.2 (Or.inr ⟨rfl, rfl, List.mem_singleton_self _⟩), rfl, rfl⟩
        · rintro ⟨l, hl, hcall, hevent⟩
          rcases LoginServer.mem_after_trace.1 hl with hold | ⟨-, -, hmem⟩
          · exact hc l hold hcall
          · rw [hnew l hmem] at hevent
            rcases hevent with ⟨count, hevent, -⟩ | ⟨backoffMs, hevent⟩ <;> cases hevent
        · intro l hl hevent
          rcases LoginServer.mem_after_trace.1 hl with hold | ⟨hcall, -, -⟩
          · exact Or.inr (hturn l hold hevent).after
          · exact Or.inl hcall
        · intro k hk backoffMs hevent
          rcases LoginServer.mem_after_trace.1 hk with hold | ⟨-, -, hmem⟩
          · exact hacc.unlocked hfree' hold hevent
          · rw [hnew k hmem] at hevent
            cases hevent
        · intro l hl hcall
          rcases LoginServer.mem_after_trace.1 hl with hold | ⟨-, -, hmem⟩
          · exact absurd hcall (hc l hold)
          · exact hnew l hmem

/-- The count of an open start. -/
theorem kept_countLoginStart (P : LoginPlatform) (hs : ThrottleInv n s) (hi : i < n)
    (emailHash : EmailHash) (input : StartLoginInput)
    (hc : ThrottleCallInv i s (.countLoginStart emailHash (.start input))) :
    ThrottleKept n i s fresh
      ((LoginCall.countLoginStart emailHash (.start input)).run P fresh s.clock s.redis s.db) := by
  obtain ⟨hopen, hfirst⟩ := hc
  have hothers : ∀ j, j ≠ i → ¬ OpenStart s j emailHash :=
    fun j hji h => hji (h.unique hopen)
  have hacc := hs.accounts emailHash
  have hset : ∀ e, e ≠ emailHash →
      (s.redis.incrLoginThrottle s.clock emailHash).2.loginThrottles e =
        s.redis.loginThrottles e := fun e he => Store.set_of_ne _ _ _ he
  have hself : ∀ count, count = (s.redis.incrLoginThrottle s.clock emailHash).1 →
      (s.redis.incrLoginThrottle s.clock emailHash).2.loginThrottles emailHash =
        some ⟨count, some (s.clock + loginThrottleWindow)⟩ := by
    rintro _ rfl
    exact Store.set_self _ _ _ _
  simp only [LoginCall.run]
  split
  · next hfree =>
      refine throttleKept_account hs hi
        (hacc.count hopen hfirst (by rfl) (by rfl) (by rfl) (hself _ rfl) hs.times)
        (fun _ _ => rfl) hset (by simp [AfterCount.next, Ran.next, LoginEvent.startOf]) hothers ?_
      intro c hrest
      obtain rfl := Option.some.inj hrest
      trivial
  · next hlocks =>
      refine throttleKept_account hs hi
        (hacc.count hopen hfirst (by rfl) (by rfl) (by rfl) (hself _ rfl) hs.times)
        (fun _ _ => rfl) hset (by simp [Ran.next, LoginEvent.startOf]) hothers ?_
      intro c hrest
      obtain rfl := Option.some.inj hrest
      refine ⟨⟨?_, ?_, ?_, ?_⟩, ?_⟩
      · obtain ⟨l, hl, hrest⟩ := hopen.admitted
        exact ⟨l, LoginServer.mem_after_trace.2 (Or.inl hl), hrest⟩
      · rintro ⟨l, hl, hcall, hevent⟩
        rcases LoginServer.mem_after_trace.1 hl with hold | ⟨-, -, hmem⟩
        · exact hopen.unrecorded ⟨l, hold, hcall, hevent⟩
        · rw [List.mem_singleton.1 hmem] at hevent
          rcases hevent with ⟨count, hevent, hfree⟩ | ⟨backoffMs, hevent⟩
          · exact hlocks ((LoginEvent.counted.inj hevent).2 ▸ hfree)
          · cases hevent
      · intro l hl hevent
        rcases LoginServer.mem_after_trace.1 hl with hold | ⟨hcall, -, -⟩
        · exact (hopen.only l hold hevent).imp_right Recorded.after
        · exact Or.inl hcall
      · intro k hk backoffMs hevent
        rcases LoginServer.mem_after_trace.1 hk with hold | ⟨-, -, hmem⟩
        · exact hopen.unlocked k hold backoffMs hevent
        · rw [List.mem_singleton.1 hmem] at hevent
          cases hevent
      · refine ⟨{ call := i, time := s.clock, event := .counted emailHash _ },
          LoginServer.mem_after_trace.2 (Or.inr ⟨rfl, rfl, List.mem_singleton_self _⟩), rfl, _, rfl,
          ?_⟩
        rw [delayAfter, if_neg hlocks]

/-- The lock of an open start. -/
theorem kept_setLoginLock (P : LoginPlatform) (hs : ThrottleInv n s) (hi : i < n)
    (emailHash : EmailHash) (backoffMs : ℕ) (input : StartLoginInput)
    (hc : ThrottleCallInv i s (.setLoginLock emailHash backoffMs (.start input))) :
    ThrottleKept n i s fresh ((LoginCall.setLoginLock emailHash backoffMs (.start input)).run P
      fresh s.clock s.redis s.db) := by
  obtain ⟨hopen, hcount⟩ := hc
  refine throttleKept_account hs hi
    ((hs.accounts emailHash).lock hopen hcount (by rfl) (Store.set_self _ _ _ _) (by rfl) hs.times)
    (fun e he => Store.set_of_ne _ _ _ he) (fun _ _ => rfl)
    (by simp [LoginCall.run, AfterCount.next, Ran.next, LoginEvent.startOf])
    (fun j hji h => hji (h.unique hopen)) ?_
  intro c hrest
  obtain rfl := Option.some.inj hrest
  trivial

/-- **Every command** of starts that take turns keeps the throttle. -/
theorem throttleKept_run (P : LoginPlatform) (hs : ThrottleInv n s) (hi : i < n) {call : LoginCall}
    (hc : ThrottleCallInv i s call) (hm : StartsInTurn P s call) :
    ThrottleKept n i s fresh (call.run P fresh s.clock s.redis s.db) := by
  cases call with
  | startLogin input => exact kept_startLogin P hs hi input hc hm
  | countLoginStart emailHash after =>
      cases after with
      | start input => exact kept_countLoginStart P hs hi emailHash input hc
      | wrongCode challengeId attempts => exact hc.elim
  | setLoginLock emailHash backoffMs after =>
      cases after with
      | start input => exact kept_setLoginLock P hs hi emailHash backoffMs input hc
      | wrongCode challengeId attempts => exact hc.elim
  | stampStart input =>
      refine throttleKept_quiet hs hi (by rfl) (by rfl) (by simp [LoginCall.run, Ran.next]) ?_
      intro c hrest
      obtain rfl := Option.some.inj hrest
      trivial
  | readRegistration input startedAt =>
      simp only [LoginCall.run]
      split
      · exact throttleKept_quiet hs hi (by rfl) (by rfl) (by simp [Ran.answer, LoginEvent.startOf])
          fun c hrest => by cases hrest
      · refine throttleKept_quiet hs hi (by rfl) (by rfl) (by simp [Ran.next]) ?_
        intro c hrest
        obtain rfl := Option.some.inj hrest
        trivial
  | setLoginAttempt attempt loginResponse =>
      exact throttleKept_quiet hs hi (by rfl) (by rfl)
        (by simp [LoginCall.run, Ran.answer, LoginEvent.startOf]) fun c hrest => by cases hrest
  | _ => exact hc.elim

/-- Time that passes ends locks and takes nothing back. -/
theorem AccountThrottle.passes {s' : LoginServer} (h : AccountThrottle s emailHash)
    (hp : LoginServer.Passes s s') : AccountThrottle s' emailHash := by
  cases hp with
  | tick clock hclock =>
      obtain ⟨turns, opened, hturns⟩ := h.turns
      refine ⟨h.counted, h.locked, fun k hk backoffMs hevent => ?_, h.counter,
        ⟨turns, opened, hturns.admitted, hturns.counted, hturns.turns, hturns.uncounted⟩,
        h.elapsed⟩
      exact (h.held k hk backoffMs hevent).imp_left (Nat.le_trans · hclock)
  | accounts users keys =>
      obtain ⟨turns, opened, hturns⟩ := h.turns
      exact ⟨h.counted, h.locked, h.held, h.counter,
        ⟨turns, opened, hturns.admitted, hturns.counted, hturns.turns, hturns.uncounted⟩,
        h.elapsed⟩

theorem throttleCallInv_passes {s' : LoginServer} {call : LoginCall}
    (hc : ThrottleCallInv j s call) (hp : LoginServer.Passes s s') : ThrottleCallInv j s' call := by
  cases hp with
  | tick clock hclock =>
      have hopen : ∀ emailHash, OpenStart s j emailHash →
          OpenStart { s with clock := clock } j emailHash := fun _ h =>
        ⟨h.admitted, h.unrecorded, h.only,
          fun k hk backoffMs hevent => Nat.le_trans (h.unlocked k hk backoffMs hevent) hclock⟩
      cases call with
      | countLoginStart emailHash after =>
          cases after with
          | start input => exact ⟨hopen _ hc.1, hc.2⟩
          | wrongCode challengeId attempts => exact hc
      | setLoginLock emailHash backoffMs after =>
          cases after with
          | start input => exact ⟨hopen _ hc.1, hc.2⟩
          | wrongCode challengeId attempts => exact hc
      | _ => exact hc
  | accounts users keys =>
      have hopen : ∀ emailHash, OpenStart s j emailHash →
          OpenStart { s with db := { s.db with users := users, keys := keys } } j emailHash :=
        fun _ h => ⟨h.admitted, h.unrecorded, h.only, h.unlocked⟩
      cases call with
      | countLoginStart emailHash after =>
          cases after with
          | start input => exact ⟨hopen _ hc.1, hc.2⟩
          | wrongCode challengeId attempts => exact hc
      | setLoginLock emailHash backoffMs after =>
          cases after with
          | start input => exact ⟨hopen _ hc.1, hc.2⟩
          | wrongCode challengeId attempts => exact hc
      | _ => exact hc

end Steps

/-! ### Runs -/

theorem keeps_throttle (P : LoginPlatform) : Interleaving.Keeps IsStartLogin
    (fun i s call s' rest => StartsInTurn P s call ∧ LoginCommand P i s call s' rest)
    LoginServer.Passes ThrottleInv ThrottleCallInv where
  begin i s call hbegins hs := by
    refine ⟨⟨fun l hl => Nat.lt_succ_of_lt (hs.calls l hl), hs.times, hs.accounts⟩, ?_⟩
    cases hbegins
    exact fun l hl => Nat.ne_of_lt (hs.calls l hl)
  run n i s call s' rest hi hs hc := by
    rintro ⟨hm, fresh, hfresh, rfl, rfl⟩
    have hkept := @throttleKept_run s n i fresh P hs hi call hc hm
    exact ⟨hkept.inv, hkept.rest⟩
  frame n i s call s' rest hs hc := by
    rintro ⟨hm, fresh, hfresh, rfl, rfl⟩ j c hji hj
    have hs' : ThrottleInv (n + (i + 1)) s :=
      ⟨fun l hl => Nat.lt_add_right _ (hs.calls l hl), hs.times, hs.accounts⟩
    have hkept := @throttleKept_run s _ i fresh P hs' (Nat.le_add_left _ _) call hc hm
    exact throttleCallInv_after hj hji (hkept.others j hji)
  other n s s' hs h := by
    refine ⟨⟨?_, ?_, fun emailHash => (hs.accounts emailHash).passes h⟩, fun j c hj => ?_⟩
    · cases h <;> exact hs.calls
    · cases h with
      | tick clock hclock => exact fun l hl => Nat.le_trans (hs.times l hl) hclock
      | accounts users keys => exact hs.times
    · exact throttleCallInv_passes hj h

theorem AccountThrottle.start (clock : Time) (redis : LoginRedis) (db : LoginDb)
    (issued : List String) (emailHash : EmailHash) :
    AccountThrottle (LoginServer.start clock redis db issued) emailHash := by
  refine ⟨?_, ?_, ?_, ?_, ⟨[], [], rfl, rfl, ⟨List.isChain_nil, ?_, Nat.zero_le _, ?_⟩, ?_⟩,
    List.Pairwise.nil⟩
  · intro l hl
    cases hl
  · intro k hk
    cases hk
  · intro k hk
    cases hk
  · intro start hstart
    cases hstart
  · intro turn hturn
    cases hturn
  · intro time htime
    cases htime
  · intro start hstart
    cases hstart

/-- The invariant holds the throttle. -/
theorem AccountThrottle.throttled {s : LoginServer} {emailHash : EmailHash}
    (h : AccountThrottle s emailHash) : Throttled s emailHash := by
  obtain ⟨turns, opened, hturns⟩ := h.turns
  have htimes : (admittedStarts emailHash s.trace).map (·.time) =
      turnTimes turns (opened.map (·.time)) := by
    rw [hturns.admitted, turnTimes, List.map_append, List.map_map]
    rfl
  have hspan : SpanOfStarts ((admittedStarts emailHash s.trace).map (·.time)) := by
    rw [htimes]
    exact span_of_turns hturns.turns
  exact ⟨h.elapsed, hspan, fun starts first last => starts_of_spans hspan⟩

/-- **The throttle holds** for every account, in every run of any number of starts that take turns,
and whatever was in Redis before. -/
theorem throttled_of_turns (P : LoginPlatform) {clock : Time} {redis : LoginRedis} {db : LoginDb}
    {issued : List String} {t : LoginState}
    (ht : Run.Reaches (LoginStep P IsStartLogin (StartsInTurn P))
      (Interleaving.State.idle (LoginServer.start clock redis db issued)) t)
    (emailHash : EmailHash) : Throttled t.shared emailHash := by
  have hstart : ThrottleInv 0 (LoginServer.start clock redis db issued) := by
    refine ⟨?_, ?_, fun _ => AccountThrottle.start _ _ _ _ _⟩
    · intro l hl
      cases hl
    · intro l hl
      cases hl
  exact ((Interleaving.holds_of_reaches (keeps_throttle P) ht
    (Interleaving.holds_idle hstart)).inv.accounts emailHash).throttled

instance : DecidablePred IsStartLogin := fun call =>
  decidable_of_iff (call matches .startLogin _) (by
    constructor
    · intro h
      split at h
      · exact .intro _
      · cases h
    · rintro ⟨input⟩
      rfl)

/-- Whether an event is the last of recording a start. -/
def LoginEvent.records (emailHash : EmailHash) : LoginEvent → Bool
  | .counted emailHash' count => emailHash' = emailHash && count ≤ loginFreeAttempts
  | .locked emailHash' _ => emailHash' = emailHash
  | _ => false

theorem recorded_iff {s : LoginServer} {call : ℕ} {emailHash : EmailHash} :
    Recorded s call emailHash ↔ ∃ l ∈ s.trace, l.call = call ∧ l.event.records emailHash := by
  refine exists_congr fun l => and_congr_right fun _ => and_congr_right fun _ => ?_
  constructor
  · rintro (⟨count, hevent, hfree⟩ | ⟨backoffMs, hevent⟩) <;> rw [hevent]
    · exact Bool.and_eq_true_iff.2 ⟨decide_eq_true rfl, decide_eq_true hfree⟩
    · exact decide_eq_true rfl
  · intro h
    cases hevent : l.event with
    | counted emailHash' count =>
        rw [hevent] at h
        obtain ⟨heq, hfree⟩ := Bool.and_eq_true_iff.1 h
        exact Or.inl ⟨count, by rw [of_decide_eq_true heq], of_decide_eq_true hfree⟩
    | locked emailHash' backoffMs =>
        rw [hevent] at h
        exact Or.inr ⟨backoffMs, by rw [of_decide_eq_true h]⟩
    | _ =>
        rw [hevent] at h
        cases h

instance (s : LoginServer) (call : ℕ) (emailHash : EmailHash) :
    Decidable (Recorded s call emailHash) := decidable_of_iff _ recorded_iff.symm

instance (P : LoginPlatform) (s : LoginServer) (call : LoginCall) :
    Decidable (StartsInTurn P s call) :=
  match call with
  | .startLogin input => inferInstanceAs (Decidable (∀ l ∈ s.trace,
      l.event = .admitted (P.hashEmail input.email) → Recorded s l.call (P.hashEmail input.email)))
  | .countLoginStart .. | .setLoginLock .. | .stampStart .. | .readRegistration ..
  | .setLoginAttempt .. | .finishLogin .. | .readLoginUser .. | .checkRevoked ..
  | .completeLogin .. | .setSecondFactorChallenge .. | .loginKeys .. | .resetLoginThrottle ..
  | .stampSession .. | .setSession .. | .verifySecondFactor .. | .readChallengeLock ..
  | .countAttempt .. | .burnChallenge .. | .checkChallengeRevoked .. | .loadChallengeKeys ..
  | .checkSecondFactor .. | .claimTotpStep .. | .takeChallenge .. | .getSession ..
  | .readEpoch .. | .dropSession .. | .revokeUserSessions .. | .stampEpoch .. | .setEpoch ..
  | .signOutSessions .. | .endExcepted .. => isTrue trivial

/-- A `startLogin` that has read the lock. -/
def readLockMoves (i : ℕ) (a : String) : List LoginMove :=
  [.begin (.startLogin { startLoginRequest := "r", email := "a@b" }), .run i a]

/-- Six starts one after the other, and a seventh when the lock of the sixth is over. -/
def startsInTurnMoves : List LoginMove :=
  readLockMoves 0 "a" ++ [.run 0 "b"] ++ readLockMoves 1 "c" ++ [.run 1 "d"] ++
    readLockMoves 2 "e" ++ [.run 2 "f"] ++ readLockMoves 3 "g" ++ [.run 3 "h"] ++
    readLockMoves 4 "i" ++ [.run 4 "j"] ++ readLockMoves 5 "k" ++ [.run 5 "l", .run 5 "m"] ++
    [.tick 1010] ++ readLockMoves 6 "n"

theorem throttled_of_turns_seven : ∃ t,
    Run.Reaches (LoginStep plainLogin IsStartLogin (StartsInTurn plainLogin)) oneLoginState t ∧
      (admittedStarts "a@b" t.shared.trace).map (·.time) = [10, 10, 10, 10, 10, 10, 1010] ∧
        Throttled t.shared "a@b" := by
  have hsome : (startsInTurnMoves.foldlM
      (loginMove plainLogin IsStartLogin (StartsInTurn plainLogin)) oneLoginState).any
        (fun t => (admittedStarts "a@b" t.shared.trace).map (·.time) =
          [10, 10, 10, 10, 10, 10, 1010]) = true := by decide +kernel
  obtain ⟨t, ht, htimes⟩ := (Option.any_eq_true _ _).mp hsome
  have hreach := reaches_of_moves plainLogin ht
  exact ⟨t, hreach, of_decide_eq_true htimes, throttled_of_turns plainLogin hreach "a@b"⟩

/-- Eight starts that read the lock before the first of them counts itself. -/
def startsAtOnceMoves : List LoginMove :=
  readLockMoves 0 "a" ++ readLockMoves 1 "b" ++ readLockMoves 2 "c" ++ readLockMoves 3 "d" ++
    readLockMoves 4 "e" ++ readLockMoves 5 "f" ++ readLockMoves 6 "g" ++ readLockMoves 7 "h" ++
    [.run 0 "i", .run 1 "j", .run 2 "k", .run 3 "l", .run 4 "m", .run 5 "n", .run 5 "o",
      .run 6 "p", .run 6 "q", .run 7 "r", .run 7 "s"]

/-- **Starts at once**: eight of them are admitted at one moment, the delays the sixth and the
seventh set notwithstanding. -/
theorem starts_unthrottled : ∃ t,
    Run.Reaches (LoginStep plainLogin IsStartLogin fun _ _ => True) oneLoginState t ∧
      countedStarts "a@b" t.shared.trace = [⟨0, 10, 1⟩, ⟨1, 10, 2⟩, ⟨2, 10, 3⟩, ⟨3, 10, 4⟩,
        ⟨4, 10, 5⟩, ⟨5, 10, 6⟩, ⟨6, 10, 7⟩, ⟨7, 10, 8⟩] ∧ ¬ Throttled t.shared "a@b" := by
  have hsome : (startsAtOnceMoves.foldlM
      (loginMove plainLogin IsStartLogin fun _ _ => True) oneLoginState).any
        (fun t => countedStarts "a@b" t.shared.trace = [⟨0, 10, 1⟩, ⟨1, 10, 2⟩, ⟨2, 10, 3⟩,
          ⟨3, 10, 4⟩, ⟨4, 10, 5⟩, ⟨5, 10, 6⟩, ⟨6, 10, 7⟩, ⟨7, 10, 8⟩] &&
            (admittedStarts "a@b" t.shared.trace).map (·.time) = List.replicate 8 10) = true := by
    decide +kernel
  obtain ⟨t, ht, hp⟩ := (Option.any_eq_true _ _).mp hsome
  rw [Bool.and_eq_true] at hp
  refine ⟨t, reaches_of_moves plainLogin ht, of_decide_eq_true hp.1, fun hthrottled => ?_⟩
  have hspan := hthrottled.span
  rw [of_decide_eq_true hp.2] at hspan
  exact absurd (hspan _ 10 10 (List.infix_refl _) rfl rfl (by decide)) (by decide)

end Passmgr
