/-
# The hourly cap of email codes

A claim counts itself, opens the hour when it finds no counter, and takes the cooldown with a
command of its own; a claim that does not get the cooldown takes its count back.  An hour so begins
with the claim that opened it, whether that one was granted or not, and a count may be taken back
when its hour is over, from the hour that is on.

Main definitions:

* `sends` — the claims that were granted, at the time they were counted;
* `ClaimsInTheirHour` — an hour is one of its first send, and counts are taken back in their own;
* `HourInv`, `HourCallInv` — the counter of an hour is at least the places taken in it.

Main results:

* `HourInv.sends_le` — no hour from its first send on has more than `emailCodesPerHour`;
* `hourKept_run` — every command keeps the invariant.
-/

import Passmgr.EmailCodes
import Passmgr.TimeWindows

set_option relaxedAutoImplicit false
set_option autoImplicit false

namespace Passmgr

open Expiring

def EmailEvent.isCounted : EmailEvent → Bool
  | .counted _ => true
  | _ => false

/-- A call logged an event. -/
def Did (trace : List EmailLogged) (i : ℕ) (event : EmailEvent) : Prop :=
  ∃ l ∈ trace, l.call = i ∧ l.event = event

instance (trace : List EmailLogged) (i : ℕ) (event : EmailEvent) : Decidable (Did trace i event) :=
  inferInstanceAs (Decidable (∃ l ∈ trace, l.call = i ∧ l.event = event))

/-- The claims that were granted, as they were counted. -/
def sends (trace : List EmailLogged) : List EmailLogged :=
  trace.filter fun l => l.event.isCounted ∧ Did trace l.call .granted

/-- How many of the claims counted in an hour have not taken their count back. -/
def placesTaken (trace : List EmailLogged) (hour : ℕ) : ℕ :=
  trace.countP fun l => l.hour = hour ∧ l.event.isCounted ∧ ¬ Did trace l.call .uncounted

/-- A claim opened its hour, or the claim that did was granted. -/
def FirstGranted (s : EmailServer) (i : ℕ) : Prop :=
  ∀ l ∈ s.trace, l.call = i → l.event.isCounted → ∃ o ∈ s.trace, o.event = .counted true ∧
    o.hour = l.hour ∧ (o.call = i ∨ Did s.trace o.call .granted)

/-- A claim that finds the cooldown free opened its hour, or the one that did was granted; and a
claim takes its count back while the counter of its hour is kept. -/
def ClaimsInTheirHour (userId : UserId) (i : ℕ) (s : EmailServer) : EmailCall → Prop
  | .setCooldown => s.redis.emailCodeCooldowns.get s.clock userId = none → FirstGranted s i
  | .decrHourly => s.redis.emailCodesHourly.get s.clock userId ≠ none ∧
      ∀ l ∈ s.trace, l.call = i → l.event.isCounted → l.hour = s.hours
  | _ => True

/-! ### The log -/

section Log

variable {s : EmailServer} {i j : ℕ} {ran : EmailRan} {event : EmailEvent} {l : EmailLogged}

theorem mem_after_trace :
    l ∈ (s.after i ran).trace ↔ l ∈ s.trace ∨ l = s.logged i ran.event := by
  simp [EmailServer.after]

theorem did_after : Did (s.after i ran).trace j event ↔
    Did s.trace j event ∨ (i = j ∧ ran.event = event) := by
  unfold Did
  constructor
  · rintro ⟨l, hl, hcall, hevent⟩
    rcases mem_after_trace.1 hl with hl | rfl
    · exact .inl ⟨l, hl, hcall, hevent⟩
    · exact .inr ⟨hcall, hevent⟩
  · rintro (⟨l, hl, hcall, hevent⟩ | ⟨hcall, hevent⟩)
    · exact ⟨l, mem_after_trace.2 (.inl hl), hcall, hevent⟩
    · exact ⟨_, mem_after_trace.2 (.inr rfl), hcall, hevent⟩

theorem did_after_of_ne (h : ran.event ≠ event) :
    Did (s.after i ran).trace j event ↔ Did s.trace j event := by
  rw [did_after]
  exact or_iff_left fun hran => h hran.2

theorem mem_sends {trace : List EmailLogged} :
    l ∈ sends trace ↔ l ∈ trace ∧ l.event.isCounted ∧ Did trace l.call .granted := by
  simp [sends]

/-- What is logged is not of an earlier hour. -/
theorem hours_le_hoursWith (s : EmailServer) (event : EmailEvent) :
    s.hours ≤ s.hoursWith event := by
  unfold EmailServer.hoursWith
  split
  · exact Nat.le_succ _
  · exact Nat.le_refl _

theorem hoursWith_of_not_opens (s : EmailServer) (h : event ≠ .counted true) :
    s.hoursWith event = s.hours := by
  unfold EmailServer.hoursWith
  split
  · exact absurd rfl h
  · rfl

theorem placesTaken_after (h : ran.event ≠ .uncounted) (hour : ℕ) :
    placesTaken (s.after i ran).trace hour = placesTaken s.trace hour +
      if s.hoursWith ran.event = hour ∧ ran.event.isCounted ∧ ¬ Did s.trace i .uncounted
      then 1 else 0 := by
  unfold placesTaken
  simp only [did_after_of_ne h]
  simp only [EmailServer.after, List.countP_append, List.countP_singleton, EmailServer.logged,
    decide_eq_true_eq]

/-- Where a count is taken back, the places of its call are left. -/
theorem placesTaken_uncount (h : ran.event = .uncounted) (hour : ℕ) :
    placesTaken (s.after i ran).trace hour = s.trace.countP fun l =>
      l.hour = hour ∧ l.event.isCounted ∧ ¬ Did s.trace l.call .uncounted ∧ l.call ≠ i := by
  have hnew : [s.logged i ran.event].countP (fun l => decide (l.hour = hour ∧ l.event.isCounted ∧
      ¬ Did (s.after i ran).trace l.call .uncounted)) = 0 := by
    rw [List.countP_singleton]
    simp [EmailServer.logged, h, EmailEvent.isCounted]
  unfold placesTaken
  conv_lhs => rw [EmailServer.after]
  rw [List.countP_append]
  refine (congrArg _ hnew).trans (List.countP_congr fun l hl => ?_)
  simp only [decide_eq_true_eq]
  change _ ∧ _ ∧ ¬ Did (s.after i ran).trace l.call .uncounted ↔ _
  rw [did_after, not_or]
  constructor
  · rintro ⟨hhour, hc, hnot, hne⟩
    exact ⟨hhour, hc, hnot, fun heq => hne ⟨heq.symm, h⟩⟩
  · rintro ⟨hhour, hc, hnot, hne⟩
    exact ⟨hhour, hc, hnot, fun hcall => hne hcall.1.symm⟩

theorem placesTaken_uncount_le (h : ran.event = .uncounted) (hour : ℕ) :
    placesTaken (s.after i ran).trace hour ≤ placesTaken s.trace hour := by
  rw [placesTaken_uncount h]
  refine List.countP_mono_left fun l hl hp => ?_
  obtain ⟨hhour, hc, hnot, -⟩ := of_decide_eq_true hp
  exact decide_eq_true ⟨hhour, hc, hnot⟩

/-- A claim that was counted in the hour held a place. -/
theorem placesTaken_uncount_lt (h : ran.event = .uncounted) (hl : l ∈ s.trace) (hcall : l.call = i)
    (hc : l.event.isCounted) (hnot : ¬ Did s.trace l.call .uncounted) :
    placesTaken (s.after i ran).trace l.hour < placesTaken s.trace l.hour := by
  rw [placesTaken_uncount h]
  obtain ⟨before, after, htrace⟩ := List.append_of_mem hl
  have hmono : ∀ part : List EmailLogged, (part.countP fun l' => decide (l'.hour = l.hour ∧
      l'.event.isCounted ∧ ¬ Did s.trace l'.call .uncounted ∧ l'.call ≠ i)) ≤
      part.countP fun l' => decide (l'.hour = l.hour ∧ l'.event.isCounted ∧
        ¬ Did s.trace l'.call .uncounted) := by
    intro part
    refine List.countP_mono_left fun l' _ hp => ?_
    obtain ⟨hhour, hc', hnot', -⟩ := of_decide_eq_true hp
    exact decide_eq_true ⟨hhour, hc', hnot'⟩
  have hbefore := hmono before
  have hafter := hmono after
  unfold placesTaken
  generalize s.trace = trace at *
  subst htrace
  rw [List.countP_append, List.countP_append, List.countP_cons_of_neg (by simp [hcall]),
    List.countP_cons_of_pos (by simp [hc, hnot])]
  omega

end Log

/-! ### The invariant -/

/-- The counter that is kept is of the hour that was opened last, and at least the places taken in
it. -/
def CounterCovers (userId : UserId) (s : EmailServer) : Prop :=
  (s.redis.emailCodesHourly userId = none ∧ ∀ l ∈ s.trace, ¬ l.event.isCounted) ∨
    ∃ o ∈ s.trace, o.event = .counted true ∧ o.hour = s.hours ∧
      ∃ count : ℤ, s.redis.emailCodesHourly userId = some ⟨count, some (o.time + emailHour)⟩ ∧
        placesTaken s.trace s.hours ≤ count

/-- The hours follow one another, their counter is at least the places taken in them, and the first
send of an hour is the claim that opened it. -/
structure HourInv (userId : UserId) (s : EmailServer) : Prop where
  past : ∀ l ∈ s.trace, l.time ≤ s.clock
  le : ∀ l ∈ s.trace, l.hour ≤ s.hours
  counted : ∀ l ∈ s.trace, l.event.isCounted → ∃ o ∈ s.trace, o.event = .counted true ∧
    o.hour = l.hour ∧ o.time ≤ l.time ∧ l.time ≤ o.time + emailHour
  once : ∀ o ∈ s.trace, ∀ o' ∈ s.trace, o.event = .counted true → o'.event = .counted true →
    o.hour = o'.hour → o.time = o'.time
  apart : ∀ o ∈ s.trace, ∀ o' ∈ s.trace, o.event = .counted true → o'.event = .counted true →
    o.hour < o'.hour → o.time + emailHour < o'.time
  counter : CounterCovers userId s
  places : ∀ hour, placesTaken s.trace hour ≤ emailCodesPerHour
  granted : ∀ i, Did s.trace i .granted → ¬ Did s.trace i .uncounted
  firsts : ∀ l ∈ s.trace, l.event.isCounted → Did s.trace l.call .granted →
    ∃ o ∈ s.trace, o.event = .counted true ∧ o.hour = l.hour ∧ Did s.trace o.call .granted

/-- A claim that was counted once, and logged nothing after it but what is `allowed`. -/
def Claiming (allowed : EmailEvent → Prop) (s : EmailServer) (i : ℕ) : Prop :=
  (∃ l ∈ s.trace, l.call = i ∧ l.event.isCounted) ∧
    ∀ l ∈ s.trace, l.call = i → l.event.isCounted ∨ allowed l.event

/-- What a call in flight has logged. -/
def HourCallInv (i : ℕ) (s : EmailServer) : EmailCall → Prop
  | .claimEmailCodeSend => ∀ l ∈ s.trace, l.call ≠ i
  | .setCooldown => Claiming (fun _ => False) s i
  | .decrHourly => Claiming (· = .refused) s i
  | _ => True

section Claims

variable {userId : UserId} {s : EmailServer} {i : ℕ} {ran : EmailRan}

theorem Claiming.not_did {allowed : EmailEvent → Prop} (h : Claiming allowed s i)
    {event : EmailEvent} (hcounted : event.isCounted = false) (hnot : ¬ allowed event) :
    ¬ Did s.trace i event := by
  rintro ⟨l, hl, hcall, rfl⟩
  rcases h.2 l hl hcall with hc | ha
  · rw [hcounted] at hc
    cases hc
  · exact hnot ha

/-- The sends fall into the hours as they were counted. -/
theorem HourInv.kept (h : HourInv userId s) : TimeWindows.Kept emailHour EmailLogged.time
    EmailLogged.hour (fun o => o.event = .counted true) (sends s.trace) where
  opened l hl := by
    obtain ⟨hl, hcounted, hgranted⟩ := mem_sends.1 hl
    obtain ⟨p, hp, hpopens, hphour, hle, hspan⟩ := h.counted l hl hcounted
    obtain ⟨o, ho, hopens, hhour, hogranted⟩ := h.firsts l hl hcounted hgranted
    have htime := h.once o ho p hp hopens hpopens (hhour.trans hphour.symm)
    rw [← htime] at hle hspan
    exact ⟨o, mem_sends.2 ⟨ho, by rw [hopens]; rfl, hogranted⟩, hopens, hhour, hle, hspan⟩
  once o ho o' ho' := h.once o (mem_sends.1 ho).1 o' (mem_sends.1 ho').1
  apart o ho o' ho' := h.apart o (mem_sends.1 ho).1 o' (mem_sends.1 ho').1

theorem HourInv.sends_le (h : HourInv userId s) {firsts : List ℕ}
    (hd : TimeWindows.Divides emailHour EmailLogged.time (sends s.trace) firsts) {first : ℕ}
    (hfirst : first ∈ firsts) :
    (sends s.trace).countP (fun l => decide (first ≤ l.time ∧ l.time ≤ first + emailHour)) ≤
      emailCodesPerHour := by
  refine h.kept.count_le (fun hour => ?_) hd hfirst
  rw [sends, List.countP_filter]
  refine Nat.le_trans (List.countP_mono_left fun l hl hp => ?_) (h.places hour)
  simp only [Bool.and_eq_true, decide_eq_true_eq] at hp ⊢
  exact ⟨hp.1, hp.2.1, h.granted _ hp.2.2⟩

/-- Every hour is over that was opened before a moment at which no counter is kept. -/
theorem HourInv.over (h : HourInv userId s)
    (hfree : s.redis.emailCodesHourly.get s.clock userId = none) {o : EmailLogged}
    (ho : o ∈ s.trace) (hoe : o.event = .counted true) : o.time + emailHour < s.clock := by
  rcases h.counter with ⟨-, hno⟩ | ⟨last, hlast, hlaste, hhour, count, hentry, -⟩
  · exact absurd (by rw [hoe]; rfl) (hno o ho)
  · have hover : last.time + emailHour < s.clock := by
      by_contra hnot
      rw [Store.get_of_live hentry (decide_eq_true (Nat.not_lt.1 hnot))] at hfree
      cases hfree
    rcases Nat.lt_or_eq_of_le (hhour ▸ h.le o ho) with hlt | heq
    · have hbefore := h.apart o ho last hlast hoe hlaste hlt
      have hpast := h.past last hlast
      exact Nat.lt_of_lt_of_le hbefore hpast
    · rw [h.once o ho last hlast hoe hlaste heq]
      exact hover

theorem HourInv.placesTaken_new (h : HourInv userId s) :
    placesTaken s.trace (s.hours + 1) = 0 := by
  refine List.countP_eq_zero.2 fun l hl hp => ?_
  have hhour := (of_decide_eq_true hp).1
  have hle := h.le l hl
  omega

/-- The counter that is kept is of an hour that is on. -/
theorem HourInv.exists_opener (h : HourInv userId s) {count : ℤ} {t : Option ℕ}
    (hentry : s.redis.emailCodesHourly userId = some ⟨count, t⟩) :
    ∃ o ∈ s.trace, o.event = .counted true ∧ o.hour = s.hours ∧ t = some (o.time + emailHour) ∧
      placesTaken s.trace s.hours ≤ count := by
  rcases h.counter with ⟨hnone, -⟩ | ⟨o, ho, hoe, hhour, count', hentry', hle⟩
  · rw [hnone] at hentry
    cases hentry
  · rw [hentry] at hentry'
    cases hentry'
    exact ⟨o, ho, hoe, hhour, rfl, hle⟩

/-! ### What a command keeps -/

/-- What a command has to see to: a claim is counted once, in an hour that is on or after all of
them; a claim that is granted opened its hour or came after the one that did; and no claim both is
granted and takes its count back. -/
structure InOrder (s : EmailServer) (i : ℕ) (event : EmailEvent) : Prop where
  counted : event.isCounted → ∀ l ∈ s.trace, l.call ≠ i
  opens : event = .counted true → ∀ o ∈ s.trace, o.event = .counted true →
    o.time + emailHour < s.clock
  joins : event = .counted false → ∃ o ∈ s.trace, o.event = .counted true ∧ o.hour = s.hours ∧
    s.clock ≤ o.time + emailHour
  granted : event = .granted → ¬ Did s.trace i .uncounted ∧ FirstGranted s i
  uncounted : event = .uncounted → ¬ Did s.trace i .granted

theorem HourInv.after (h : HourInv userId s) (hev : InOrder s i ran.event)
    (hcounter : CounterCovers userId (s.after i ran))
    (hplaces : ∀ hour, placesTaken (s.after i ran).trace hour ≤ emailCodesPerHour) :
    HourInv userId (s.after i ran) := by
  have hkeep : ∀ {l : EmailLogged}, l ∈ s.trace → l ∈ (s.after i ran).trace :=
    fun hl => mem_after_trace.2 (.inl hl)
  have hself : s.logged i ran.event ∈ (s.after i ran).trace := mem_after_trace.2 (.inr rfl)
  have hopened : ∀ {o : EmailLogged}, o ∈ s.trace → ran.event = .counted true →
      o.hour < (s.logged i ran.event).hour := by
    intro o ho hopens
    simp only [EmailServer.logged, hopens, EmailServer.hoursWith]
    exact Nat.lt_succ_of_le (h.le o ho)
  constructor
  · intro l hl
    rcases mem_after_trace.1 hl with hl | rfl
    · exact h.past l hl
    · exact Nat.le_refl _
  · intro l hl
    rcases mem_after_trace.1 hl with hl | rfl
    · exact Nat.le_trans (h.le l hl) (hours_le_hoursWith s ran.event)
    · exact Nat.le_refl _
  · intro l hl hc
    rcases mem_after_trace.1 hl with hl | rfl
    · obtain ⟨o, ho, hrest⟩ := h.counted l hl hc
      exact ⟨o, hkeep ho, hrest⟩
    · by_cases hopens : ran.event = .counted true
      · exact ⟨_, hself, hopens, rfl, Nat.le_refl _, Nat.le_add_right _ _⟩
      · have hjoins : ran.event = .counted false := by
          match hran : ran.event with
          | .counted true => exact absurd hran hopens
          | .counted false => rfl
          | .overCounted | .granted | .refused | .uncounted | .codeSet _ | .guessed _ | .deleted =>
            rw [EmailServer.logged, hran] at hc
            cases hc
        obtain ⟨o, ho, hoe, hhour, hlive⟩ := hev.joins hjoins
        exact ⟨o, hkeep ho, hoe, hhour.trans (hoursWith_of_not_opens s hopens).symm, h.past o ho,
          hlive⟩
  · intro o ho o' ho' hoe hoe' hhour
    rcases mem_after_trace.1 ho with ho | rfl <;> rcases mem_after_trace.1 ho' with ho' | rfl
    · exact h.once o ho o' ho' hoe hoe' hhour
    · exact absurd hhour (Nat.ne_of_lt (hopened ho hoe'))
    · exact absurd hhour (Nat.ne_of_gt (hopened ho' hoe))
    · rfl
  · intro o ho o' ho' hoe hoe' hlt
    rcases mem_after_trace.1 ho with ho | rfl <;> rcases mem_after_trace.1 ho' with ho' | rfl
    · exact h.apart o ho o' ho' hoe hoe' hlt
    · exact hev.opens hoe' o ho hoe
    · exact absurd hlt (Nat.lt_asymm (hopened ho' hoe))
    · exact absurd hlt (Nat.lt_irrefl _)
  · exact hcounter
  · exact hplaces
  · intro j hgranted huncounted
    rcases did_after.1 hgranted with hgranted | ⟨rfl, hran⟩ <;>
      rcases did_after.1 huncounted with huncounted | ⟨hij, hran'⟩
    · exact h.granted j hgranted huncounted
    · exact hev.uncounted hran' (hij ▸ hgranted)
    · exact (hev.granted hran).1 huncounted
    · rw [hran] at hran'
      cases hran'
  · intro l hl hc hdid
    rcases mem_after_trace.1 hl with hl | rfl
    · rcases did_after.1 hdid with hdid | ⟨hij, hran⟩
      · obtain ⟨o, ho, hoe, hhour, hodid⟩ := h.firsts l hl hc hdid
        exact ⟨o, hkeep ho, hoe, hhour, did_after.2 (.inl hodid)⟩
      · obtain ⟨o, ho, hoe, hhour, hfirst⟩ := (hev.granted hran).2 l hl hij.symm hc
        refine ⟨o, hkeep ho, hoe, hhour, did_after.2 ?_⟩
        rcases hfirst with hcall | hodid
        · exact .inr ⟨hcall.symm, hran⟩
        · exact .inl hodid
    · rcases did_after.1 hdid with ⟨g, hg, hcall, -⟩ | ⟨-, hran⟩
      · exact absurd hcall (hev.counted hc g hg)
      · rw [EmailServer.logged, hran] at hc
        cases hc

/-- The counter of an hour stays, or counts a claim that is past the cap. -/
def CounterStays (userId : UserId) (redis redis' : EmailRedis) : Prop :=
  redis'.emailCodesHourly userId = redis.emailCodesHourly userId ∨
    ∃ count t, redis.emailCodesHourly userId = some ⟨count, t⟩ ∧
      redis'.emailCodesHourly userId = some ⟨count + 1, t⟩

/-- A command that neither counts a claim below the cap nor takes a count back. -/
theorem HourInv.quiet (h : HourInv userId s) (hcounter : CounterStays userId s.redis ran.redis)
    (hcounted : ¬ ran.event.isCounted) (huncounted : ran.event ≠ .uncounted)
    (hgranted : ran.event = .granted → ¬ Did s.trace i .uncounted ∧ FirstGranted s i) :
    HourInv userId (s.after i ran) := by
  have hopens : ∀ opens, ran.event ≠ .counted opens := by
    rintro opens heq
    exact hcounted (by rw [heq]; rfl)
  have hhours : (s.after i ran).hours = s.hours := hoursWith_of_not_opens s (hopens true)
  have hplaces : ∀ hour, placesTaken (s.after i ran).trace hour = placesTaken s.trace hour := by
    intro hour
    rw [placesTaken_after huncounted, if_neg (by simp [hcounted]), Nat.add_zero]
  refine h.after
    ⟨fun hc => absurd hc hcounted, fun ho => absurd ho (hopens _), fun hj => absurd hj (hopens _),
      hgranted, fun hu => absurd hu huncounted⟩ ?_ fun hour => hplaces hour ▸ h.places hour
  unfold CounterCovers
  rw [hhours, hplaces]
  rcases hcounter with heq | ⟨count, t, hentry, heq⟩
  · rcases h.counter with ⟨hnone, hno⟩ | ⟨o, ho, hoe, hhour, count, hentry, hle⟩
    · refine .inl ⟨heq.trans hnone, fun l hl hc => ?_⟩
      rcases mem_after_trace.1 hl with hl | rfl
      · exact hno l hl hc
      · exact hcounted hc
    · exact .inr ⟨o, mem_after_trace.2 (.inl ho), hoe, hhour, count, heq.trans hentry, hle⟩
  · obtain ⟨o, ho, hoe, hhour, rfl, hle⟩ := h.exists_opener hentry
    exact .inr ⟨o, mem_after_trace.2 (.inl ho), hoe, hhour, count + 1, heq, by omega⟩

/-- A claim that is counted in the hour it opens. -/
theorem HourInv.opens (h : HourInv userId s) (hnew : ∀ l ∈ s.trace, l.call ≠ i)
    (hfree : s.redis.emailCodesHourly.get s.clock userId = none)
    (hevent : ran.event = .counted true)
    (hcounter : ran.redis.emailCodesHourly userId = some ⟨1, some (s.clock + emailHour)⟩) :
    HourInv userId (s.after i ran) := by
  have hhours : (s.after i ran).hours = s.hours + 1 := by
    simp [EmailServer.after, EmailServer.hoursWith, hevent]
  have hplaces : ∀ hour, placesTaken (s.after i ran).trace hour =
      placesTaken s.trace hour + if s.hours + 1 = hour then 1 else 0 := by
    intro hour
    have hnot : ¬ Did s.trace i .uncounted := fun ⟨l, hl, hcall, _⟩ => hnew l hl hcall
    rw [placesTaken_after (by simp [hevent])]
    simp [hevent, EmailServer.hoursWith, EmailEvent.isCounted, hnot]
  refine h.after ⟨fun _ => hnew, fun _ o => h.over hfree, ?_, ?_, ?_⟩ (.inr ?_) fun hour => ?_
  · simp [hevent]
  · simp [hevent]
  · simp [hevent]
  · refine ⟨_, mem_after_trace.2 (.inr rfl), hevent, rfl, 1, hcounter, ?_⟩
    rw [hhours, hplaces, if_pos rfl, h.placesTaken_new]
    decide
  · rw [hplaces]
    split
    · next heq =>
        rw [← heq, h.placesTaken_new]
        decide
    · exact h.places hour

/-- A claim that is counted in an hour that is on, and takes one of its places. -/
theorem HourInv.joins (h : HourInv userId s) (hnew : ∀ l ∈ s.trace, l.call ≠ i) {count : ℤ}
    {t : ℕ} (hentry : s.redis.emailCodesHourly userId = some ⟨count, some t⟩) (hlive : s.clock ≤ t)
    (hcap : count + 1 ≤ emailCodesPerHour) (hevent : ran.event = .counted false)
    (hcounter : ran.redis.emailCodesHourly userId = some ⟨count + 1, some t⟩) :
    HourInv userId (s.after i ran) := by
  obtain ⟨o, ho, hoe, hhour, heq, hle⟩ := h.exists_opener hentry
  cases heq
  have hopens : ran.event ≠ .counted true := by simp [hevent]
  have hhours : (s.after i ran).hours = s.hours := hoursWith_of_not_opens s hopens
  have hplaces : ∀ hour, placesTaken (s.after i ran).trace hour =
      placesTaken s.trace hour + if s.hours = hour then 1 else 0 := by
    intro hour
    have hnot : ¬ Did s.trace i .uncounted := fun ⟨l, hl, hcall, _⟩ => hnew l hl hcall
    rw [placesTaken_after (by simp [hevent]), hoursWith_of_not_opens s hopens]
    simp [hevent, EmailEvent.isCounted, hnot]
  refine h.after ⟨fun _ => hnew, fun hran => absurd hran hopens,
    fun _ => ⟨o, ho, hoe, hhour, hlive⟩, ?_, ?_⟩ (.inr ?_) fun hour => ?_
  · simp [hevent]
  · simp [hevent]
  · refine ⟨o, mem_after_trace.2 (.inl ho), hoe, hhour.trans hhours.symm, count + 1, hcounter, ?_⟩
    rw [hhours, hplaces, if_pos rfl]
    omega
  · rw [hplaces]
    split
    · next heq =>
        rw [← heq]
        omega
    · exact h.places hour

/-- A count that is taken back in its own hour. -/
theorem HourInv.uncounts (h : HourInv userId s) (hclaim : Claiming (· = .refused) s i)
    (hown : ∀ l ∈ s.trace, l.call = i → l.event.isCounted → l.hour = s.hours) {count : ℤ}
    {t : Option ℕ} (hentry : s.redis.emailCodesHourly userId = some ⟨count, t⟩)
    (hevent : ran.event = .uncounted)
    (hcounter : ran.redis.emailCodesHourly userId = some ⟨count - 1, t⟩) :
    HourInv userId (s.after i ran) := by
  obtain ⟨o, ho, hoe, hhour, rfl, hle⟩ := h.exists_opener hentry
  have hopens : ∀ opens, ran.event ≠ .counted opens := by simp [hevent]
  have hhours : (s.after i ran).hours = s.hours := hoursWith_of_not_opens s (hopens true)
  refine h.after ⟨?_, ?_, ?_, ?_, fun _ => hclaim.not_did rfl (by simp)⟩ (.inr ?_) fun hour =>
    Nat.le_trans (placesTaken_uncount_le hevent hour) (h.places hour)
  · simp [hevent, EmailEvent.isCounted]
  · simp [hevent]
  · simp [hevent]
  · simp [hevent]
  · refine ⟨o, mem_after_trace.2 (.inl ho), hoe, hhour.trans hhours.symm, count - 1, hcounter, ?_⟩
    obtain ⟨l, hl, hcall, hc⟩ := hclaim.1
    have hleft := placesTaken_uncount_lt hevent hl hcall hc (hcall ▸ hclaim.not_did rfl (by simp))
    rw [hown l hl hcall hc] at hleft
    rw [hhours]
    omega

/-- What a claim logs next belongs to it. -/
theorem Claiming.after {allowed allowed' : EmailEvent → Prop} (h : Claiming allowed s i)
    (hallowed : ∀ event, allowed event → allowed' event) (hran : allowed' ran.event) :
    Claiming allowed' (s.after i ran) i := by
  obtain ⟨⟨l, hl, hcall, hc⟩, honly⟩ := h
  refine ⟨⟨l, mem_after_trace.2 (.inl hl), hcall, hc⟩, fun l' hl' hcall' => ?_⟩
  rcases mem_after_trace.1 hl' with hl' | rfl
  · exact (honly l' hl' hcall').imp id (hallowed _)
  · exact .inr hran

/-- A claim that was just counted. -/
theorem claiming_counted (hnew : ∀ l ∈ s.trace, l.call ≠ i) (hc : ran.event.isCounted) :
    Claiming (fun _ => False) (s.after i ran) i := by
  refine ⟨⟨_, mem_after_trace.2 (.inr rfl), rfl, hc⟩, fun l hl hcall => ?_⟩
  rcases mem_after_trace.1 hl with hl | rfl
  · exact absurd hcall (hnew l hl)
  · exact .inl hc

/-! ### The commands -/

/-- What the first command of a claim does to the counter. -/
theorem countEmailCode_cases (h : HourInv userId s) :
    (s.redis.emailCodesHourly.get s.clock userId = none ∧
      (countEmailCode userId s.clock s.redis).event = .counted true ∧
      (countEmailCode userId s.clock s.redis).redis.emailCodesHourly userId =
        some ⟨1, some (s.clock + emailHour)⟩) ∨
    ∃ count t, s.redis.emailCodesHourly userId = some ⟨count, some t⟩ ∧ s.clock ≤ t ∧
      (countEmailCode userId s.clock s.redis).redis.emailCodesHourly userId =
        some ⟨count + 1, some t⟩ ∧
      (count + 1 ≤ emailCodesPerHour ∧
        (countEmailCode userId s.clock s.redis).event = .counted false ∨
      (countEmailCode userId s.clock s.redis).event = .overCounted ∧
        (countEmailCode userId s.clock s.redis).rest = .inl (.claimed false)) := by
  cases hget : s.redis.emailCodesHourly.get s.clock userId with
  | none =>
      left
      refine ⟨rfl, ?_, ?_⟩
      · simp [countEmailCode, hget, emailCodesPerHour]
      · simp [countEmailCode, hget, emailCodesPerHour, Store.upsert_free hget]
  | some count =>
      right
      obtain ⟨e, hentry, hlive, rfl⟩ := Store.get_eq_some.1 hget
      obtain ⟨o, -, -, -, ht, -⟩ := h.exists_opener hentry
      refine ⟨e.value, o.time + emailHour, hentry.trans (by rw [← ht]), ?_, ?_, ?_⟩
      · rw [Entry.live, ht] at hlive
        exact of_decide_eq_true hlive
      · simp only [countEmailCode, Store.upsert_held hentry hlive, ht, Store.expireNx_set_some]
        split <;> simp
      · simp only [countEmailCode, hget]
        split
        · exact .inr ⟨rfl, rfl⟩
        · next hcap => exact .inl ⟨Int.not_lt.1 hcap, rfl⟩

theorem hourKept_count (h : HourInv userId s) (hnew : ∀ l ∈ s.trace, l.call ≠ i) :
    HourInv userId (s.after i (countEmailCode userId s.clock s.redis)) ∧
      ∀ c, (countEmailCode userId s.clock s.redis).rest.getRight? = some c →
        HourCallInv i (s.after i (countEmailCode userId s.clock s.redis)) c := by
  have hrest : ∀ c, (countEmailCode userId s.clock s.redis).rest.getRight? = some c →
      c = .setCooldown := by
    intro c
    unfold countEmailCode
    dsimp only
    split
    · rintro ⟨⟩
    · rintro ⟨⟩
      rfl
  rcases countEmailCode_cases h with ⟨hfree, hevent, hcounter⟩ |
    ⟨count, t, hentry, hlive, hcounter, ⟨hcap, hevent⟩ | ⟨hevent, hdone⟩⟩
  · refine ⟨h.opens hnew hfree hevent hcounter, fun c hc => ?_⟩
    rw [hrest c hc]
    exact claiming_counted hnew (by rw [hevent]; rfl)
  · refine ⟨h.joins hnew hentry hlive hcap hevent hcounter, fun c hc => ?_⟩
    rw [hrest c hc]
    exact claiming_counted hnew (by rw [hevent]; rfl)
  · refine ⟨h.quiet (.inr ⟨count, _, hentry, hcounter⟩) ?_ ?_ ?_, fun c hc => ?_⟩
    · simp [hevent, EmailEvent.isCounted]
    · simp [hevent]
    · simp [hevent]
    · rw [hdone] at hc
      cases hc

theorem hourKept_setCooldown (h : HourInv userId s) (hclaim : Claiming (fun _ => False) s i)
    (hmeets : ClaimsInTheirHour userId i s .setCooldown) :
    HourInv userId (s.after i (setEmailCooldown userId s.clock s.redis)) ∧
      ∀ c, (setEmailCooldown userId s.clock s.redis).rest.getRight? = some c →
        HourCallInv i (s.after i (setEmailCooldown userId s.clock s.redis)) c := by
  cases hget : s.redis.emailCodeCooldowns.get s.clock userId with
  | none =>
      have hran := Store.setNx_free hget "1" (some (s.clock + emailCodeResend))
      refine ⟨h.quiet (.inl ?_) ?_ ?_ fun _ => ⟨hclaim.not_did rfl id, hmeets hget⟩, ?_⟩ <;>
        simp [setEmailCooldown, hran, EmailEvent.isCounted]
  | some v =>
      have hran := Store.setNx_held hget "1" (some (s.clock + emailCodeResend))
      refine ⟨h.quiet (.inl ?_) ?_ ?_ ?_, fun c hc => ?_⟩
      · simp [setEmailCooldown, hran]
      · simp [setEmailCooldown, hran, EmailEvent.isCounted]
      · simp [setEmailCooldown, hran]
      · simp [setEmailCooldown, hran]
      · have hcall : c = .decrHourly := by
          simp only [setEmailCooldown, hran] at hc
          exact (Option.some.inj hc).symm
        rw [hcall]
        have hrefused : (setEmailCooldown userId s.clock s.redis).event = .refused := by
          simp [setEmailCooldown, hran]
        have hafter : Claiming (· = .refused)
            (s.after i (setEmailCooldown userId s.clock s.redis)) i :=
          hclaim.after (fun _ => False.elim) hrefused
        exact hafter

theorem hourKept_decr (h : HourInv userId s) (hclaim : Claiming (· = .refused) s i)
    (hmeets : ClaimsInTheirHour userId i s .decrHourly) :
    HourInv userId (s.after i (decrEmailCodes userId s.clock s.redis)) := by
  obtain ⟨hheld, hown⟩ := hmeets
  obtain ⟨count, hget⟩ := Option.ne_none_iff_exists'.1 hheld
  obtain ⟨e, hentry, hlive, rfl⟩ := Store.get_eq_some.1 hget
  refine h.uncounts hclaim hown hentry rfl ?_
  simp [decrEmailCodes, Store.upsert_held hentry hlive]

/-- A check leaves the counter alone. -/
theorem guessEmailCode_frame (hashEmailCode : UserId → String → String) (userId : UserId)
    (now : Time) (redis : EmailRedis) (code : String) :
    (∃ guess, (guessEmailCode hashEmailCode userId now redis code).event = .guessed guess) ∧
      (guessEmailCode hashEmailCode userId now redis code).redis.emailCodesHourly =
        redis.emailCodesHourly ∧
      ∀ c, (guessEmailCode hashEmailCode userId now redis code).rest.getRight? = some c →
        ∃ result, c = .delCode result := by
  have hdel : ∀ {result : CodeCheck} (c : EmailCall),
      (Sum.inr (.delCode result) : EmailAnswer ⊕ EmailCall).getRight? = some c →
        ∃ result, c = .delCode result := fun c hc => ⟨_, (Option.some.inj hc).symm⟩
  unfold guessEmailCode
  dsimp only
  split
  · exact ⟨⟨_, rfl⟩, rfl, hdel⟩
  · split
    · exact ⟨⟨_, rfl⟩, rfl, hdel⟩
    · split
      · exact ⟨⟨_, rfl⟩, rfl, hdel⟩
      · split
        · exact ⟨⟨_, rfl⟩, rfl, hdel⟩
        · exact ⟨⟨_, rfl⟩, rfl, fun c hnone => nomatch hnone⟩

theorem hourKept_run (hashEmailCode : UserId → String → String) (h : HourInv userId s)
    {call : EmailCall} (hc : HourCallInv i s call) (hmeets : ClaimsInTheirHour userId i s call) :
    HourInv userId (s.after i (call.run hashEmailCode userId s.clock s.redis)) ∧
      ∀ c, (call.run hashEmailCode userId s.clock s.redis).rest.getRight? = some c →
        HourCallInv i (s.after i (call.run hashEmailCode userId s.clock s.redis)) c := by
  cases call with
  | claimEmailCodeSend => exact hourKept_count h hc
  | setCooldown => exact hourKept_setCooldown h hc hmeets
  | decrHourly => exact ⟨hourKept_decr h hc hmeets, fun c hnone => by cases hnone⟩
  | setEmailCode code =>
      refine ⟨h.quiet (.inl rfl) ?_ ?_ ?_, fun c hnone => by cases hnone⟩ <;>
        simp [EmailCall.run, storeEmailCode, EmailEvent.isCounted]
  | checkEmailCode code =>
      obtain ⟨⟨guess, hguess⟩, hsame, hrest⟩ :=
        guessEmailCode_frame hashEmailCode userId s.clock s.redis code
      refine ⟨h.quiet (.inl (congrFun hsame userId)) ?_ ?_ ?_, fun c hdel => ?_⟩
      · simp [EmailCall.run, hguess, EmailEvent.isCounted]
      · simp [EmailCall.run, hguess]
      · simp [EmailCall.run, hguess]
      · obtain ⟨result, rfl⟩ := hrest c hdel
        trivial
  | delCode result =>
      refine ⟨h.quiet (.inl rfl) ?_ ?_ ?_, fun c hnone => by cases hnone⟩ <;>
        simp [EmailCall.run, delEmailCode, EmailEvent.isCounted]

/-! ### The other calls, and time -/

theorem Claiming.other {allowed : EmailEvent → Prop} {j : ℕ} (h : Claiming allowed s j)
    (hji : j ≠ i) : Claiming allowed (s.after i ran) j := by
  obtain ⟨⟨l, hl, hcall, hc⟩, honly⟩ := h
  refine ⟨⟨l, mem_after_trace.2 (.inl hl), hcall, hc⟩, fun l' hl' hcall' => ?_⟩
  rcases mem_after_trace.1 hl' with hl' | rfl
  · exact honly l' hl' hcall'
  · exact absurd hcall'.symm hji

theorem hourCallInv_other {j : ℕ} {call : EmailCall} (h : HourCallInv j s call) (hji : j ≠ i) :
    HourCallInv j (s.after i ran) call := by
  cases call with
  | claimEmailCodeSend =>
      intro l hl
      rcases mem_after_trace.1 hl with hl | rfl
      · exact h l hl
      · exact hji.symm
  | setCooldown => exact @Claiming.other s i ran (fun _ => False) j h hji
  | decrHourly => exact @Claiming.other s i ran (· = .refused) j h hji
  | setEmailCode _ | checkEmailCode _ | delCode _ => trivial

theorem HourInv.passes {s' : EmailServer} (h : HourInv userId s) (hpass : s.Passes s') :
    HourInv userId s' := by
  cases hpass with
  | tick clock hclock =>
      exact { h with past := fun l hl => Nat.le_trans (h.past l hl) hclock }

theorem hourInv_start (clock : Time) : HourInv userId (EmailServer.start clock) where
  past := by simp [EmailServer.start]
  le := by simp [EmailServer.start]
  counted := by simp [EmailServer.start]
  once := by simp [EmailServer.start]
  apart := by simp [EmailServer.start]
  counter := .inl ⟨rfl, by simp [EmailServer.start]⟩
  places hour := by simp [EmailServer.start, placesTaken]
  granted i hdid := by
    obtain ⟨l, hl, -⟩ := hdid
    cases hl
  firsts := by simp [EmailServer.start]

end Claims

end Passmgr
