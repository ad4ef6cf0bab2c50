/-
# Calls interleaved command by command

Any number of calls run over a shared state, one command of one call at a time; between two
commands of a call the others may run, and the shared state may change by itself.  Nothing here is
about a particular program.

An invariant of such a system is one of the shared state and one of every call in flight, where a
command of a call keeps what the other calls count on.

Main definitions:

* `Interleaving.State`, `Interleaving.Step` — the calls in flight and one command of one of them;
* `Interleaving.Holds` — an invariant of the shared state and of the calls in flight;
* `Interleaving.Keeps` — what the commands have to keep for it;
* `Interleaving.Move`, `Interleaving.move` — a schedule of commands that can be computed.

Main results:

* `Interleaving.holds_of_reaches` — what every command keeps holds in every interleaving;
* `Interleaving.reaches_of_moves` — a schedule that goes through is a run.
-/

import Mathlib.Data.Nat.Notation
import Mathlib.Logic.Function.Basic
import Passmgr.Run

set_option relaxedAutoImplicit false
set_option autoImplicit false

namespace Interleaving

variable {σ κ : Type}

/-- The shared state and the calls in flight, numbered in the order they began. -/
structure State (σ κ : Type) where
  shared : σ
  calls : ℕ → Option κ
  begun : ℕ

/-- No call has begun. -/
def State.idle (shared : σ) : State σ κ where
  shared := shared
  calls := fun _ => none
  begun := 0

/-- The next command of call `i`: from the shared state and what the call is about to do to the
shared state after it and what is left of the call. -/
abbrev Command (σ κ : Type) := ℕ → σ → κ → σ → Option κ → Prop

/-- One step: a call begins, one of them runs its next command, or the shared state changes by
itself. -/
inductive Step (begins : κ → Prop) (cmd : Command σ κ) (other : σ → σ → Prop)
    (s : State σ κ) : State σ κ → Prop
  | begin (call : κ) (hbegins : begins call) :
      Step begins cmd other s
        { s with calls := Function.update s.calls s.begun (some call), begun := s.begun + 1 }
  | run (i : ℕ) (call : κ) (shared : σ) (rest : Option κ) (hcall : s.calls i = some call)
      (hcmd : cmd i s.shared call shared rest) :
      Step begins cmd other s
        { s with shared := shared, calls := Function.update s.calls i rest }
  | other (shared : σ) (hother : other s.shared shared) :
      Step begins cmd other s { s with shared := shared }

/-- An invariant of the shared state and of how many calls have begun, one of every call in flight,
and no call with a number that is still to come. -/
structure Holds (Inv : ℕ → σ → Prop) (CallInv : ℕ → σ → κ → Prop) (s : State σ κ) : Prop where
  inv : Inv s.begun s.shared
  calls : ∀ i call, s.calls i = some call → CallInv i s.shared call
  begun : ∀ i, s.begun ≤ i → s.calls i = none

/-- What keeps such an invariant. -/
structure Keeps (begins : κ → Prop) (cmd : Command σ κ) (other : σ → σ → Prop)
    (Inv : ℕ → σ → Prop) (CallInv : ℕ → σ → κ → Prop) : Prop where
  /-- A call that begins is in order. -/
  begin : ∀ i shared call, begins call → Inv i shared → Inv (i + 1) shared ∧ CallInv i shared call
  /-- A command keeps the invariant of the shared state and of its call. -/
  run : ∀ n i shared call shared' rest, i < n → Inv n shared → CallInv i shared call →
    cmd i shared call shared' rest → Inv n shared' ∧ ∀ c, rest = some c → CallInv i shared' c
  /-- A command leaves the other calls in order. -/
  frame : ∀ n i shared call shared' rest, Inv n shared → CallInv i shared call →
    cmd i shared call shared' rest → ∀ j c, j ≠ i → CallInv j shared c → CallInv j shared' c
  /-- So does a change of the shared state by itself, which keeps its invariant. -/
  other : ∀ n shared shared', Inv n shared → other shared shared' →
    Inv n shared' ∧ ∀ j c, CallInv j shared c → CallInv j shared' c

variable {begins : κ → Prop} {cmd : Command σ κ} {other : σ → σ → Prop} {Inv : ℕ → σ → Prop}
  {CallInv : ℕ → σ → κ → Prop} {s t : State σ κ}

theorem holds_idle {shared : σ} (h : Inv 0 shared) :
    Holds Inv CallInv (State.idle shared : State σ κ) where
  inv := h
  calls i call hcall := by simp [State.idle] at hcall
  begun i _ := rfl

theorem Holds.step (hk : Keeps begins cmd other Inv CallInv) (hs : Holds Inv CallInv s)
    (hst : Step begins cmd other s t) : Holds Inv CallInv t := by
  cases hst with
  | begin call hbegins =>
      obtain ⟨hinv, hcallInv⟩ := hk.begin _ _ _ hbegins hs.inv
      refine ⟨hinv, fun i c hc => ?_, fun i hi => ?_⟩
      · dsimp only at hc ⊢
        by_cases hi : i = s.begun
        · subst hi
          rw [Function.update_self] at hc
          obtain rfl := Option.some.inj hc
          exact hcallInv
        · rw [Function.update_of_ne hi] at hc
          exact hs.calls i c hc
      · have hle : s.begun + 1 ≤ i := hi
        dsimp only
        rw [Function.update_of_ne (Nat.ne_of_gt hle)]
        exact hs.begun i (Nat.le_of_succ_le hle)
  | run i call shared rest hcall hcmd =>
      have hi : i < s.begun := by
        by_contra hnot
        rw [hs.begun i (Nat.not_lt.1 hnot)] at hcall
        cases hcall
      obtain ⟨hinv, hrest⟩ := hk.run _ i _ _ _ _ hi hs.inv (hs.calls i call hcall) hcmd
      refine ⟨hinv, fun j c hc => ?_, fun j hj => ?_⟩
      · dsimp only at hc ⊢
        by_cases hji : j = i
        · subst hji
          rw [Function.update_self] at hc
          exact hrest c hc
        · rw [Function.update_of_ne hji] at hc
          exact hk.frame _ i _ _ _ _ hs.inv (hs.calls i call hcall) hcmd j c hji (hs.calls j c hc)
      · have hji : j ≠ i := by
          rintro rfl
          rw [hs.begun j hj] at hcall
          cases hcall
        dsimp only
        rw [Function.update_of_ne hji]
        exact hs.begun j hj
  | other shared hother =>
      obtain ⟨hinv, hcalls⟩ := hk.other _ _ _ hs.inv hother
      exact ⟨hinv, fun j c hc => hcalls j c (hs.calls j c hc), hs.begun⟩

/-- **Every interleaving** keeps an invariant its commands keep. -/
theorem holds_of_reaches (hk : Keeps begins cmd other Inv CallInv)
    (h : Run.Reaches (Step begins cmd other) s t) (hs : Holds Inv CallInv s) :
    Holds Inv CallInv t :=
  Run.invariant (fun _ _ hs hst => hs.step hk hst) h hs

/-! ### Schedules -/

/-- What a schedule does next: a call begins, one of them runs its next command, or the shared state
changes by itself. -/
inductive Move (κ ω : Type)
  | begin (call : κ)
  | run (i : ℕ)
  | other (change : ω)

variable {ω : Type}

/-- One move of a schedule, none where it is not allowed. -/
def move (begins : κ → Prop) [DecidablePred begins] (exec : ℕ → σ → κ → Option (σ × Option κ))
    (changes : ω → σ → Option σ) (s : State σ κ) : Move κ ω → Option (State σ κ)
  | .begin call =>
    if begins call then
      some { s with
        calls := Function.update s.calls s.begun (some call)
        begun := s.begun + 1 }
    else none
  | .run i =>
    (s.calls i).bind fun call => (exec i s.shared call).map fun (shared, rest) =>
      { s with
        shared := shared
        calls := Function.update s.calls i rest }
  | .other change => (changes change s.shared).map fun shared => { s with shared := shared }

/-- **A schedule** of commands and changes that are allowed is a run. -/
theorem reaches_of_moves [DecidablePred begins] {exec : ℕ → σ → κ → Option (σ × Option κ)}
    {changes : ω → σ → Option σ}
    (hexec : ∀ i shared call shared' rest, exec i shared call = some (shared', rest) →
      cmd i shared call shared' rest)
    (hchanges : ∀ change shared shared', changes change shared = some shared' →
      other shared shared')
    {moves : List (Move κ ω)} (h : moves.foldlM (move begins exec changes) s = some t) :
    Run.Reaches (Step begins cmd other) s t := by
  induction moves generalizing s with
  | nil =>
      obtain rfl := Option.some.inj h
      exact .refl
  | cons m moves ih =>
      rw [List.foldlM_cons, Option.bind_eq_bind, Option.bind_eq_some_iff] at h
      obtain ⟨u, hmove, hrest⟩ := h
      refine .head ?_ (ih hrest)
      cases m with
      | begin call =>
          simp only [move, Option.ite_none_right_eq_some, Option.some.injEq] at hmove
          obtain ⟨hbegins, rfl⟩ := hmove
          exact .begin call hbegins
      | run i =>
          obtain ⟨call, hcall, hmap⟩ := Option.bind_eq_some_iff.1 hmove
          obtain ⟨⟨shared, rest⟩, hran, rfl⟩ := Option.map_eq_some_iff.1 hmap
          exact .run i call shared rest hcall (hexec i _ call shared rest hran)
      | other change =>
          obtain ⟨shared, hchange, rfl⟩ := Option.map_eq_some_iff.1 hmove
          exact .other shared (hchanges change _ shared hchange)

end Interleaving
