/-
# When rounds run

`SyncManager` of `packages/client/src/sync-manager.ts` runs rounds, which push and pull.  This is
what starts them: a call, a timer, a round that was asked for while another one ran.  What a round
does is left open, and so is when each of its awaits ends: here a step is what runs between two of
them.

A round that is over still counts the outbox before it decides about a retry, and the next one may
start meanwhile.

Main definitions:

* `RoundPhase`, `SyncManager` — where a round is, and the state of the manager;
* `SyncManager.sync`, `freshLoop`, `scheduleRetry`, … — its methods, from one await to the next;
* `SyncAct.apply`, `SyncStep` — everything that can happen.
-/

import Mathlib.Algebra.Group.Nat.Defs
import Mathlib.Logic.Function.Basic
import Passmgr.Run

set_option relaxedAutoImplicit false
set_option autoImplicit false

namespace Passmgr

/-- `RETRY_BASE_MS` and `RETRY_MAX_MS`. -/
def retryBaseMs : ℕ := 5000

def retryMaxMs : ℕ := 5 * 60000

/-! ### The state -/

/-- Where a round is. -/
inductive RoundPhase
  /-- Until the first await `this.round` is still the round before. -/
  | starting
  /-- It pushes and pulls. -/
  | working
  /-- It went through, `done` if every change was pushed, and hands out the sharing tasks. -/
  | sharing (done : Bool)
  /-- `syncing` is false again, and the outbox is being counted. -/
  | counting (done paused result : Bool)
  | ended (result : Bool)
  deriving DecidableEq, Repr

namespace RoundPhase

/-- The round pushes, pulls or hands out tasks. -/
def busy : RoundPhase → Bool
  | .starting | .working | .sharing _ => true
  | _ => false

/-- Its promise is not settled. -/
def running : RoundPhase → Bool
  | .ended _ => false
  | _ => true

end RoundPhase

/-- Where a call of `syncFresh` is. -/
inductive FreshPhase
  | waiting (round : ℕ)
  | joined (round : ℕ)
  | resolved (result : Bool)
  deriving DecidableEq, Repr

/-- A call of `syncFresh`; `before` is how many rounds had started then, for the statements only. -/
structure FreshCall where
  before : ℕ
  phase : FreshPhase
  deriving DecidableEq, Repr

/-- The fields of a `SyncManager` that decide when it syncs, its rounds in the order they started,
and the calls of `syncFresh`.  Of the status only `paused` is read; `retryTimer` is its delay. -/
structure SyncManager where
  syncing : Bool
  round : Option ℕ
  disposed : Bool
  rerun : Bool
  enabled : Bool
  paused : Bool
  syncInterval : Bool
  debounceTimer : Bool
  retryTimer : Option ℕ
  failedRounds : ℕ
  started : ℕ
  phase : ℕ → Option RoundPhase
  fresh : ℕ → Option FreshCall

namespace SyncManager

/-- The constructor. -/
def new : SyncManager where
  syncing := false
  round := none
  disposed := false
  rerun := false
  enabled := false
  paused := false
  syncInterval := false
  debounceTimer := false
  retryTimer := none
  failedRounds := 0
  started := 0
  phase _ := none
  fresh _ := none

variable (m : SyncManager)

def setPhase (r : ℕ) (phase : RoundPhase) : SyncManager :=
  { m with phase := Function.update m.phase r (some phase) }

def setFresh (k : ℕ) (call : FreshCall) : SyncManager :=
  { m with fresh := Function.update m.fresh k (some call) }

/-! ### Its methods -/

/-- `sync`, with the round it started. -/
def sync : SyncManager × Option ℕ :=
  if m.disposed then (m, none)
  else if m.syncing then ({ m with rerun := true }, none)
  else ({ m with syncing := true, started := m.started + 1 }.setPhase m.started .starting,
    some m.started)

/-- `if (this.enabled) void this.sync()`. -/
def syncIfEnabled : SyncManager := if m.enabled then m.sync.1 else m

/-- The loop of `syncFresh`, up to its next await. -/
def freshLoop : SyncManager × FreshPhase :=
  match m.syncing, m.round with
  | true, some r => (m, .waiting r)
  | _, _ =>
    match m.sync with
    | (m, some r) => (m, .joined r)
    | (m, none) => (m, .resolved false)

/-- A call of `syncFresh` that goes on. -/
def freshGoesOn (k before : ℕ) : SyncManager :=
  m.freshLoop.1.setFresh k ⟨before, m.freshLoop.2⟩

/-- `scheduleRetry`. -/
def scheduleRetry : SyncManager :=
  if !m.enabled || m.retryTimer.isSome then m
  else { m with
    failedRounds := m.failedRounds + 1
    retryTimer := some (min (retryBaseMs * 2 ^ m.failedRounds) retryMaxMs) }

/-- `clearRetry`. -/
def clearRetry : SyncManager := { m with failedRounds := 0, retryTimer := none }

/-- `clearTimers`. -/
def clearTimers : SyncManager := { m.clearRetry with debounceTimer := false }

/-- `setEnabled`. -/
def setEnabled (enabled : Bool) : SyncManager :=
  { (if enabled then m else m.clearTimers) with enabled := enabled, paused := false }

/-- `requestSync`. -/
def requestSync : SyncManager :=
  if !m.enabled || m.paused then m else { m with debounceTimer := true }

/-- `dispose`, up to its await. -/
def dispose : SyncManager :=
  { m.clearTimers with disposed := true, syncInterval := false, enabled := false }

/-! ### A round -/

/-- Everything was pulled, and `pushed` says whether every change was pushed. -/
def goesThrough (r : ℕ) (pushed : Bool) : SyncManager :=
  { m with paused := false }.setPhase r (.sharing pushed)

/-- `runSharingTasks` is over, and with it the round; `changed` asks for another one. -/
def tasksDone (r : ℕ) (done changed : Bool) : SyncManager :=
  { m with syncing := false, rerun := m.rerun || changed }.setPhase r (.counting done false true)

/-- The round fails; `done` if only after everything was pushed and pulled. -/
def fails (r : ℕ) (done paused : Bool) : SyncManager :=
  { m with syncing := false, paused := paused }.setPhase r (.counting done paused false)

/-- The rest of the `finally` block: the retry, and the round that was asked for. -/
def finish (r : ℕ) (done paused result : Bool) : SyncManager :=
  let m := m.setPhase r (.ended result)
  let m := if done || paused then m.clearRetry else m.scheduleRetry
  if m.rerun then { m with rerun := false }.syncIfEnabled else m

end SyncManager

/-! ### What can happen -/

inductive SyncAct
  | sync
  | syncFresh (k : ℕ)
  /-- The round a call of `syncFresh` awaits has ended. -/
  | freshWakes (k : ℕ)
  | setEnabled (enabled : Bool)
  | requestSync
  /-- `retryParked`, after its awaits. -/
  | retryParked
  | startPeriodicSync
  | stopPeriodicSync
  | dispose
  | debounceFires
  | retryFires
  | intervalFires
  /-- `this.round = round`. -/
  | assign (r : ℕ)
  | goesThrough (r : ℕ) (pushed : Bool)
  | tasksDone (r : ℕ) (changed : Bool)
  | fails (r : ℕ) (done paused : Bool)
  /-- The outbox is counted. -/
  | counted (r : ℕ)
  deriving DecidableEq, Repr

/-- What becomes of the manager; `none` where it cannot happen. -/
def SyncAct.apply (m : SyncManager) : SyncAct → Option SyncManager
  | .sync => some m.sync.1
  | .syncFresh k => if (m.fresh k).isSome then none else some (m.freshGoesOn k m.started)
  | .freshWakes k =>
    match m.fresh k with
    | some ⟨before, .waiting r⟩ =>
      match m.phase r with
      | some (.ended _) => some (m.freshGoesOn k before)
      | _ => none
    | some ⟨before, .joined r⟩ =>
      match m.phase r with
      | some (.ended result) => some (m.setFresh k ⟨before, .resolved result⟩)
      | _ => none
    | _ => none
  | .setEnabled enabled => some (m.setEnabled enabled)
  | .requestSync => some m.requestSync
  | .retryParked => some m.syncIfEnabled
  | .startPeriodicSync => some { m with syncInterval := true }
  | .stopPeriodicSync => some { m with syncInterval := false }
  | .dispose => some m.dispose
  | .debounceFires =>
    if m.debounceTimer then some ({ m with debounceTimer := false }.syncIfEnabled) else none
  | .retryFires =>
    if m.retryTimer.isSome then some ({ m with retryTimer := none }.syncIfEnabled) else none
  | .intervalFires => if m.syncInterval then some m.sync.1 else none
  | .assign r =>
    if m.phase r = some .starting then some ({ m with round := some r }.setPhase r .working)
    else none
  | .goesThrough r pushed =>
    if m.phase r = some .working then some (m.goesThrough r pushed) else none
  | .tasksDone r changed =>
    match m.phase r with
    | some (.sharing done) => some (m.tasksDone r done changed)
    | _ => none
  | .fails r done paused => if m.phase r = some .working then some (m.fails r done paused) else none
  | .counted r =>
    match m.phase r with
    | some (.counting done paused result) => some (m.finish r done paused result)
    | _ => none

/-- A step. -/
def SyncStep (m m' : SyncManager) : Prop := ∃ act : SyncAct, act.apply m = some m'

end Passmgr
