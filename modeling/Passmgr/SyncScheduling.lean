/-
# What a step of the sync manager leaves

At most one round is at work, and it is the last one that started; every step but the end of a
round only goes on: no round ends, and none that was asked for is forgotten.

Main definitions:

* `SyncManager.Busy`, `Running`, `Ended` — a round at work, and one whose promise is or is not
  settled;
* `SyncInvariant` — the flag `syncing` is that of the last round;
* `Onward` — what the steps between two ends of rounds keep.

Main results:

* `SyncInvariant.step` — every step keeps the invariant;
* `Onward.of_apply` — every step but the end of a round goes on;
* `exists_finish_eq` — what the end of a round does.
-/

import Passmgr.SyncManager

set_option relaxedAutoImplicit false
set_option autoImplicit false

namespace Passmgr

namespace SyncManager

variable {m m' : SyncManager}

/-- The round pushes, pulls or hands out tasks. -/
def Busy (m : SyncManager) (r : ℕ) : Prop := ∃ phase ∈ m.phase r, phase.busy = true

/-- The end of the `finally` block: the round that was asked for. -/
def again (m : SyncManager) : SyncManager :=
  if m.rerun then { m with rerun := false }.syncIfEnabled else m

theorem finish_eq (m : SyncManager) (r : ℕ) (done paused result : Bool) :
    m.finish r done paused result = (if done || paused then (m.setPhase r (.ended result)).clearRetry
      else (m.setPhase r (.ended result)).scheduleRetry).again := rfl

/-- The round has started, and its promise is not settled. -/
def Running (m : SyncManager) (r : ℕ) : Prop := ∃ phase ∈ m.phase r, phase.running = true

def Ended (m : SyncManager) (r : ℕ) : Prop := ∃ result, m.phase r = some (.ended result)

theorem Busy.running {r : ℕ} (h : m.Busy r) : m.Running r := by
  obtain ⟨phase, hphase, hbusy⟩ := h
  refine ⟨phase, hphase, ?_⟩
  cases phase <;> first | rfl | cases hbusy

theorem Running.not_ended {r : ℕ} (h : m.Running r) : ¬ m.Ended r := by
  rintro ⟨result, hresult⟩
  obtain ⟨phase, hphase, hrunning⟩ := h
  obtain rfl := Option.some.inj (hphase.symm.trans hresult)
  cases hrunning

@[simp] theorem setPhase_self (m : SyncManager) (r : ℕ) (phase : RoundPhase) :
    (m.setPhase r phase).phase r = some phase := Function.update_self ..

theorem setPhase_of_ne (m : SyncManager) {r q : ℕ} (h : q ≠ r) (phase : RoundPhase) :
    (m.setPhase r phase).phase q = m.phase q := Function.update_of_ne h ..

theorem busy_setPhase {r q : ℕ} {phase : RoundPhase} :
    (m.setPhase r phase).Busy q ↔ if q = r then phase.busy = true else m.Busy q := by
  unfold Busy
  split
  · next h =>
      subst h
      rw [setPhase_self]
      simp
  · next h => rw [setPhase_of_ne m h]

theorem running_setPhase {r q : ℕ} {phase : RoundPhase} :
    (m.setPhase r phase).Running q ↔ if q = r then phase.running = true else m.Running q := by
  unfold Running
  split
  · next h =>
      subst h
      rw [setPhase_self]
      simp
  · next h => rw [setPhase_of_ne m h]

end SyncManager

open SyncManager

/-- What a call of `syncFresh` may have come to. -/
def FreshHolds (m : SyncManager) (call : FreshCall) : Prop :=
  call.before ≤ m.started ∧
    match call.phase with
    | .waiting _ => True
    | .joined r => call.before ≤ r ∧ r < m.started
    | .resolved result => result = false ∨
      ∃ r, call.before ≤ r ∧ m.phase r = some (.ended result)

/-- `syncing` says whether the last round is at work, and no other one is. -/
structure SyncInvariant (m : SyncManager) : Prop where
  unstarted : ∀ r, m.started ≤ r → m.phase r = none
  busy : ∀ r, m.Busy r → m.syncing = true ∧ r + 1 = m.started
  syncing : m.syncing = true → ∃ r, r + 1 = m.started ∧ m.Busy r
  fresh : ∀ k, ∀ call ∈ m.fresh k, FreshHolds m call

/-- What `syncFresh` has come to stays so: rounds go on, and ended ones stay ended. -/
theorem FreshHolds.mono {m m' : SyncManager} {call : FreshCall} (h : FreshHolds m call)
    (hstarted : m.started ≤ m'.started)
    (hended : ∀ r result, m.phase r = some (.ended result) → m'.phase r = some (.ended result)) :
    FreshHolds m' call := by
  obtain ⟨hbefore, hphase⟩ := h
  refine ⟨hbefore.trans hstarted, ?_⟩
  split
  · trivial
  · next r heq =>
      rw [heq] at hphase
      exact ⟨hphase.1, hphase.2.trans_le hstarted⟩
  · next result heq =>
      rw [heq] at hphase
      rcases hphase with hfalse | ⟨r, hr, hphase⟩
      · exact Or.inl hfalse
      · exact Or.inr ⟨r, hr, hended r result hphase⟩

namespace SyncInvariant

variable {m m' : SyncManager}

/-- Timers and flags do not matter. -/
theorem congr (h : SyncInvariant m) (hsyncing : m'.syncing = m.syncing)
    (hstarted : m'.started = m.started) (hphase : m'.phase = m.phase) (hfresh : m'.fresh = m.fresh) :
    SyncInvariant m' := by
  have hbusy : ∀ r, m'.Busy r ↔ m.Busy r := fun r => by
    unfold SyncManager.Busy
    rw [hphase]
  refine ⟨fun r hr => ?_, fun r hr => ?_, fun hs => ?_, fun k call hcall => ?_⟩
  · rw [hphase]
    exact h.unstarted r (hstarted ▸ hr)
  · rw [hsyncing, hstarted]
    exact h.busy r ((hbusy r).1 hr)
  · rw [hsyncing] at hs
    obtain ⟨r, hr, hb⟩ := h.syncing hs
    exact ⟨r, hstarted ▸ hr, (hbusy r).2 hb⟩
  · rw [hfresh] at hcall
    exact FreshHolds.mono (h.fresh k call hcall) hstarted.ge fun r result => by
      rw [hphase]
      exact id

/-- A call of `syncFresh` that goes on. -/
theorem setFresh (h : SyncInvariant m) (k : ℕ) {call : FreshCall} (hcall : FreshHolds m call) :
    SyncInvariant (m.setFresh k call) := by
  refine ⟨h.unstarted, h.busy, h.syncing, fun j other hother => ?_⟩
  change Function.update m.fresh k (some call) j = some other at hother
  by_cases hj : j = k
  · subst hj
    rw [Function.update_self] at hother
    obtain rfl := Option.some.inj hother
    exact hcall.mono le_rfl fun _ _ => id
  · rw [Function.update_of_ne hj] at hother
    exact (h.fresh j other hother).mono le_rfl fun _ _ => id

/-- A round that goes on. -/
theorem setPhase (h : SyncInvariant m) {r : ℕ} {old phase : RoundPhase}
    (hold : m.phase r = some old) (hrunning : old.running = true) (hbusy : phase.busy = old.busy) :
    SyncInvariant (m.setPhase r phase) := by
  have hlt : r < m.started := by
    by_contra hle
    rw [h.unstarted r (Nat.le_of_not_lt hle)] at hold
    cases hold
  have hiff : ∀ q, (m.setPhase r phase).Busy q ↔ m.Busy q := by
    intro q
    rw [busy_setPhase]
    split
    · next hq =>
        subst hq
        rw [hbusy]
        exact ⟨fun hb => ⟨old, hold, hb⟩, fun ⟨p, hp, hb⟩ => by
          obtain rfl := Option.some.inj (hold.symm.trans hp)
          exact hb⟩
    · rfl
  refine ⟨fun q hq => ?_, fun q hq => h.busy q ((hiff q).1 hq), fun hs => ?_, fun k call hcall => ?_⟩
  · have hq' : m.started ≤ q := hq
    rw [setPhase_of_ne m (by omega)]
    exact h.unstarted q hq'
  · obtain ⟨q, hq, hb⟩ := h.syncing hs
    exact ⟨q, hq, (hiff q).2 hb⟩
  · refine (h.fresh k call hcall).mono le_rfl fun q result hended => ?_
    have hq : q ≠ r := by
      rintro rfl
      exact Running.not_ended ⟨old, hold, hrunning⟩ ⟨result, hended⟩
    rw [setPhase_of_ne m hq]
    exact hended

/-- A round whose work is over. -/
theorem stop (h : SyncInvariant m) {r : ℕ} {phase : RoundPhase} (hbusy : m.Busy r)
    (hphase : phase.busy = false) : SyncInvariant ({ m with syncing := false }.setPhase r phase) := by
  obtain ⟨hsyncing, hlast⟩ := h.busy r hbusy
  refine ⟨fun q hq => ?_, fun q hq => ?_, (fun hs => by cases hs), fun k call hcall => ?_⟩
  · have hq' : m.started ≤ q := hq
    rw [setPhase_of_ne _ (by omega)]
    exact h.unstarted q hq'
  · rw [busy_setPhase] at hq
    split at hq
    · rw [hphase] at hq
      cases hq
    · next hne =>
        have := (h.busy q hq).2
        omega
  · refine (h.fresh k call hcall).mono le_rfl fun q result hended => ?_
    have hq : q ≠ r := by
      rintro rfl
      exact hbusy.running.not_ended ⟨result, hended⟩
    rw [setPhase_of_ne _ hq]
    exact hended

/-- A round that starts. -/
theorem start (h : SyncInvariant m) (hidle : m.syncing = false) :
    SyncInvariant ({ m with syncing := true, started := m.started + 1 }.setPhase m.started
      .starting) := by
  refine ⟨fun q hq => ?_, fun q hq => ?_, fun _ => ?_, fun k call hcall => ?_⟩
  · have hq' : m.started + 1 ≤ q := hq
    rw [setPhase_of_ne _ (by omega)]
    exact h.unstarted q (by omega)
  · rw [busy_setPhase] at hq
    split at hq
    · next heq => exact ⟨rfl, congrArg (· + 1) heq⟩
    · have := (h.busy q hq).1
      rw [hidle] at this
      cases this
  · exact ⟨m.started, rfl, busy_setPhase.2 (by rw [if_pos rfl]; rfl)⟩
  · refine (h.fresh k call hcall).mono (Nat.le_succ _) fun q result hended => ?_
    have hq : q ≠ m.started := by
      rintro rfl
      rw [h.unstarted m.started le_rfl] at hended
      cases hended
    rw [setPhase_of_ne _ hq]
    exact hended

theorem sync (h : SyncInvariant m) : SyncInvariant m.sync.1 := by
  unfold SyncManager.sync
  split
  · exact h
  split
  · exact h.congr rfl rfl rfl rfl
  · next hidle => exact h.start (Bool.not_eq_true _ ▸ hidle)

theorem syncIfEnabled (h : SyncInvariant m) : SyncInvariant m.syncIfEnabled := by
  unfold SyncManager.syncIfEnabled
  split
  · exact h.sync
  · exact h

theorem clearTimers (h : SyncInvariant m) : SyncInvariant m.clearTimers :=
  h.congr rfl rfl rfl rfl

theorem scheduleRetry (h : SyncInvariant m) : SyncInvariant m.scheduleRetry := by
  unfold SyncManager.scheduleRetry
  split
  · exact h
  · exact h.congr rfl rfl rfl rfl

theorem setEnabled (h : SyncInvariant m) (enabled : Bool) : SyncInvariant (m.setEnabled enabled) := by
  cases enabled with
  | true => exact h.congr rfl rfl rfl rfl
  | false => exact h.clearTimers.congr rfl rfl rfl rfl

theorem requestSync (h : SyncInvariant m) : SyncInvariant m.requestSync := by
  unfold SyncManager.requestSync
  split
  · exact h
  · exact h.congr rfl rfl rfl rfl

/-- Whatever the loop comes to, its rounds start after the call. -/
theorem freshLoop (h : SyncInvariant m) {before : ℕ} (hbefore : before ≤ m.started) :
    SyncInvariant m.freshLoop.1 ∧ FreshHolds m.freshLoop.1 ⟨before, m.freshLoop.2⟩ := by
  unfold SyncManager.freshLoop
  split
  · exact ⟨h, hbefore, trivial⟩
  · split
    · next m₁ r hsync =>
        have hinv : SyncInvariant m₁ := by simpa only [hsync] using h.sync
        unfold SyncManager.sync at hsync
        split at hsync
        · cases (Prod.mk.inj hsync).2
        split at hsync
        · cases (Prod.mk.inj hsync).2
        · obtain ⟨rfl, hr⟩ := Prod.mk.inj hsync
          obtain rfl := Option.some.inj hr
          exact ⟨hinv, hbefore.trans (Nat.le_succ _), hbefore, Nat.lt_succ_self _⟩
    · next m₁ hsync =>
        have hinv : SyncInvariant m₁ := by simpa only [hsync] using h.sync
        have hstarted : m₁.started = m.started := by
          unfold SyncManager.sync at hsync
          split at hsync
          · rw [← (Prod.mk.inj hsync).1]
          split at hsync
          · rw [← (Prod.mk.inj hsync).1]
          · cases (Prod.mk.inj hsync).2
        exact ⟨hinv, hbefore.trans hstarted.ge, Or.inl rfl⟩

theorem freshGoesOn (h : SyncInvariant m) (k : ℕ) {before : ℕ} (hbefore : before ≤ m.started) :
    SyncInvariant (m.freshGoesOn k before) :=
  (h.freshLoop hbefore).1.setFresh k (h.freshLoop hbefore).2

theorem again (h : SyncInvariant m) : SyncInvariant m.again := by
  have hnone : SyncInvariant { m with rerun := false } := h.congr rfl rfl rfl rfl
  unfold SyncManager.again
  split
  · exact hnone.syncIfEnabled
  · exact h

theorem finish (h : SyncInvariant m) {r : ℕ} {done paused result : Bool}
    (hr : m.phase r = some (.counting done paused result)) :
    SyncInvariant (m.finish r done paused result) := by
  have hended : SyncInvariant (m.setPhase r (.ended result)) := h.setPhase hr rfl rfl
  have hretry : SyncInvariant (if done || paused then (m.setPhase r (.ended result)).clearRetry
      else (m.setPhase r (.ended result)).scheduleRetry) := by
    split
    · exact hended.congr rfl rfl rfl rfl
    · exact hended.scheduleRetry
  rw [finish_eq]
  exact hretry.again

theorem new : SyncInvariant SyncManager.new where
  unstarted _ _ := rfl
  busy r h := by
    obtain ⟨phase, hphase, _⟩ := h
    cases hphase
  syncing h := by cases h
  fresh k call h := by cases h

end SyncInvariant

/-! ### One step -/

section

variable {m m' : SyncManager}

theorem apply_syncFresh {k : ℕ} : (SyncAct.syncFresh k).apply m = some m' ↔
    m.fresh k = none ∧ m.freshGoesOn k m.started = m' := by
  unfold SyncAct.apply
  cases hk : m.fresh k <;> simp [hk]

theorem apply_freshWakes {k : ℕ} : (SyncAct.freshWakes k).apply m = some m' ↔
    ∃ before r result, m.phase r = some (.ended result) ∧
      (m.fresh k = some ⟨before, .waiting r⟩ ∧ m.freshGoesOn k before = m' ∨
        m.fresh k = some ⟨before, .joined r⟩ ∧ m.setFresh k ⟨before, .resolved result⟩ = m') := by
  constructor
  · intro h
    unfold SyncAct.apply at h
    dsimp only at h
    split at h
    · next before r hk =>
        split at h
        · next result hr => exact ⟨before, r, result, hr, Or.inl ⟨hk, Option.some.inj h⟩⟩
        · cases h
    · next before r hk =>
        split at h
        · next result hr => exact ⟨before, r, result, hr, Or.inr ⟨hk, Option.some.inj h⟩⟩
        · cases h
    · cases h
  · rintro ⟨before, r, result, hr, ⟨hk, rfl⟩ | ⟨hk, rfl⟩⟩
    · simp [SyncAct.apply, hk, hr]
    · simp [SyncAct.apply, hk, hr]

theorem apply_debounceFires : SyncAct.debounceFires.apply m = some m' ↔
    m.debounceTimer = true ∧ { m with debounceTimer := false }.syncIfEnabled = m' := by
  unfold SyncAct.apply
  cases m.debounceTimer <;> simp

theorem apply_retryFires : SyncAct.retryFires.apply m = some m' ↔
    m.retryTimer.isSome = true ∧ { m with retryTimer := none }.syncIfEnabled = m' := by
  unfold SyncAct.apply
  cases m.retryTimer <;> simp

theorem apply_intervalFires : SyncAct.intervalFires.apply m = some m' ↔
    m.syncInterval = true ∧ m.sync.1 = m' := by
  unfold SyncAct.apply
  cases m.syncInterval <;> simp

theorem apply_assign {r : ℕ} : (SyncAct.assign r).apply m = some m' ↔
    m.phase r = some .starting ∧ { m with round := some r }.setPhase r .working = m' := by
  unfold SyncAct.apply
  dsimp only
  split <;> simp_all

theorem apply_goesThrough {r : ℕ} {pushed : Bool} :
    (SyncAct.goesThrough r pushed).apply m = some m' ↔
      m.phase r = some .working ∧ m.goesThrough r pushed = m' := by
  unfold SyncAct.apply
  dsimp only
  split <;> simp_all

theorem apply_tasksDone {r : ℕ} {changed : Bool} :
    (SyncAct.tasksDone r changed).apply m = some m' ↔
      ∃ done, m.phase r = some (.sharing done) ∧ m.tasksDone r done changed = m' := by
  unfold SyncAct.apply
  dsimp only
  split <;> simp_all

theorem apply_fails {r : ℕ} {done paused : Bool} :
    (SyncAct.fails r done paused).apply m = some m' ↔
      m.phase r = some .working ∧ m.fails r done paused = m' := by
  unfold SyncAct.apply
  dsimp only
  split <;> simp_all

theorem apply_counted {r : ℕ} : (SyncAct.counted r).apply m = some m' ↔
    ∃ done paused result, m.phase r = some (.counting done paused result) ∧
      m.finish r done paused result = m' := by
  constructor
  · intro h
    unfold SyncAct.apply at h
    dsimp only at h
    split at h
    · next done paused result hr => exact ⟨done, paused, result, hr, Option.some.inj h⟩
    · cases h
  · rintro ⟨done, paused, result, hr, rfl⟩
    simp [SyncAct.apply, hr]

/-- Every step keeps the invariant. -/
theorem SyncInvariant.step {act : SyncAct} (h : SyncInvariant m) (happly : act.apply m = some m') :
    SyncInvariant m' := by
  cases act with
  | sync =>
      obtain rfl := Option.some.inj happly
      exact h.sync
  | syncFresh k =>
      obtain ⟨_, rfl⟩ := apply_syncFresh.1 happly
      exact h.freshGoesOn k le_rfl
  | freshWakes k =>
      obtain ⟨before, r, result, hr, ⟨hk, rfl⟩ | ⟨hk, rfl⟩⟩ := apply_freshWakes.1 happly
      · exact h.freshGoesOn k (h.fresh k _ hk).1
      · obtain ⟨hbefore, hjoined⟩ := h.fresh k _ hk
        exact h.setFresh k ⟨hbefore, Or.inr ⟨r, hjoined.1, hr⟩⟩
  | setEnabled enabled =>
      obtain rfl := Option.some.inj happly
      exact h.setEnabled enabled
  | requestSync =>
      obtain rfl := Option.some.inj happly
      exact h.requestSync
  | retryParked =>
      obtain rfl := Option.some.inj happly
      exact h.syncIfEnabled
  | startPeriodicSync | stopPeriodicSync =>
      obtain rfl := Option.some.inj happly
      exact h.congr rfl rfl rfl rfl
  | dispose =>
      obtain rfl := Option.some.inj happly
      exact h.clearTimers.congr rfl rfl rfl rfl
  | debounceFires =>
      obtain ⟨_, rfl⟩ := apply_debounceFires.1 happly
      have hfired : SyncInvariant { m with debounceTimer := false } := h.congr rfl rfl rfl rfl
      exact hfired.syncIfEnabled
  | retryFires =>
      obtain ⟨_, rfl⟩ := apply_retryFires.1 happly
      have hfired : SyncInvariant { m with retryTimer := none } := h.congr rfl rfl rfl rfl
      exact hfired.syncIfEnabled
  | intervalFires =>
      obtain ⟨_, rfl⟩ := apply_intervalFires.1 happly
      exact h.sync
  | assign r =>
      obtain ⟨hr, rfl⟩ := apply_assign.1 happly
      have hround : SyncInvariant { m with round := some r } := h.congr rfl rfl rfl rfl
      exact hround.setPhase hr rfl rfl
  | goesThrough r pushed =>
      obtain ⟨hr, rfl⟩ := apply_goesThrough.1 happly
      have hround : SyncInvariant { m with paused := false } := h.congr rfl rfl rfl rfl
      exact hround.setPhase hr rfl rfl
  | tasksDone r changed =>
      obtain ⟨done, hr, rfl⟩ := apply_tasksDone.1 happly
      have hround : SyncInvariant { m with rerun := m.rerun || changed } := h.congr rfl rfl rfl rfl
      exact hround.stop ⟨_, hr, rfl⟩ rfl
  | fails r done paused =>
      obtain ⟨hr, rfl⟩ := apply_fails.1 happly
      have hround : SyncInvariant { m with paused := paused } := h.congr rfl rfl rfl rfl
      exact hround.stop ⟨_, hr, rfl⟩ rfl
  | counted r =>
      obtain ⟨done, paused, result, hr, rfl⟩ := apply_counted.1 happly
      exact h.finish hr

end

/-- In every state a manager comes to. -/
theorem syncInvariant_of_reaches {m : SyncManager} (h : Run.Reaches SyncStep SyncManager.new m) :
    SyncInvariant m :=
  Run.invariant (fun _ _ hinv ⟨_, happly⟩ => hinv.step happly) h SyncInvariant.new

/-! ### What a step leaves -/

namespace SyncManager

/-- A call of `sync` leaves everything but the round alone. -/
structure SameSettings (m m' : SyncManager) : Prop where
  enabled : m'.enabled = m.enabled
  disposed : m'.disposed = m.disposed
  retryTimer : m'.retryTimer = m.retryTimer
  fresh : m'.fresh = m.fresh

theorem SameSettings.refl (m : SyncManager) : SameSettings m m := ⟨rfl, rfl, rfl, rfl⟩

theorem sameSettings_sync (m : SyncManager) : SameSettings m m.sync.1 := by
  unfold SyncManager.sync
  split
  · exact .refl m
  split
  · exact ⟨rfl, rfl, rfl, rfl⟩
  · exact ⟨rfl, rfl, rfl, rfl⟩

theorem sameSettings_syncIfEnabled (m : SyncManager) : SameSettings m m.syncIfEnabled := by
  unfold SyncManager.syncIfEnabled
  split
  · exact sameSettings_sync m
  · exact .refl m

theorem sameSettings_freshLoop (m : SyncManager) : SameSettings m m.freshLoop.1 := by
  unfold SyncManager.freshLoop
  split
  · exact .refl m
  · split
    · next hsync => simpa only [hsync] using sameSettings_sync m
    · next hsync => simpa only [hsync] using sameSettings_sync m

/-- Where syncing is allowed a call finds a round at work, or starts one. -/
theorem exists_running_syncIfEnabled {m : SyncManager} (h : SyncInvariant m)
    (henabled : m.enabled = true) (hdisposed : m.disposed = false) :
    ∃ r, m.syncIfEnabled.Running r := by
  unfold SyncManager.syncIfEnabled SyncManager.sync
  rw [if_pos henabled, if_neg (by rw [hdisposed]; exact Bool.false_ne_true)]
  split
  · next hsyncing =>
      obtain ⟨r, _, hr⟩ := h.syncing hsyncing
      exact ⟨r, hr.running⟩
  · exact ⟨m.started, running_setPhase.2 (by rw [if_pos rfl]; rfl)⟩

end SyncManager

/-- No round ends, no request for one is dropped, and the calls of `syncFresh` stay. -/
structure Onward (m m' : SyncManager) : Prop where
  started : m.started ≤ m'.started
  rerun : m.rerun = true → m'.rerun = true
  ended : ∀ r, m'.Ended r → m.Ended r
  running : ∀ r, m.Running r → m'.Running r
  fresh : ∀ k, ∀ call ∈ m.fresh k, ∃ call' ∈ m'.fresh k, call'.before = call.before

namespace Onward

variable {m m' m'' : SyncManager}

theorem of_eq (hstarted : m'.started = m.started) (hphase : m'.phase = m.phase)
    (hfresh : m'.fresh = m.fresh) (hrerun : m.rerun = true → m'.rerun = true) : Onward m m' where
  started := hstarted.ge
  rerun := hrerun
  ended r := by
    unfold Ended
    rw [hphase]
    exact id
  running r := by
    unfold Running
    rw [hphase]
    exact id
  fresh k call hk := ⟨call, hfresh ▸ hk, rfl⟩

theorem refl (m : SyncManager) : Onward m m := of_eq rfl rfl rfl id

theorem trans (h : Onward m m') (h' : Onward m' m'') : Onward m m'' where
  started := h.started.trans h'.started
  rerun := h'.rerun ∘ h.rerun
  ended r := h.ended r ∘ h'.ended r
  running r := h'.running r ∘ h.running r
  fresh k call hk := by
    obtain ⟨call', hk', hbefore⟩ := h.fresh k call hk
    obtain ⟨call'', hk'', hbefore'⟩ := h'.fresh k call' hk'
    exact ⟨call'', hk'', hbefore'.trans hbefore⟩

theorem setPhase (m : SyncManager) (r : ℕ) {phase : RoundPhase} (hphase : phase.running = true) :
    Onward m (m.setPhase r phase) where
  started := le_rfl
  rerun := id
  ended q := by
    rintro ⟨result, hq⟩
    by_cases h : q = r
    · subst h
      rw [setPhase_self] at hq
      obtain rfl := Option.some.inj hq
      cases hphase
    · rw [setPhase_of_ne m h] at hq
      exact ⟨result, hq⟩
  running q hq := by
    rw [running_setPhase]
    split
    · exact hphase
    · exact hq
  fresh k call hk := ⟨call, hk, rfl⟩

theorem setFresh (m : SyncManager) (k : ℕ) {call : FreshCall}
    (hk : ∀ old ∈ m.fresh k, call.before = old.before) : Onward m (m.setFresh k call) where
  started := le_rfl
  rerun := id
  ended _ := id
  running _ := id
  fresh j old hold := by
    change ∃ call' ∈ Function.update m.fresh k (some call) j, call'.before = old.before
    by_cases h : j = k
    · subst h
      rw [Function.update_self]
      exact ⟨call, rfl, hk old hold⟩
    · rw [Function.update_of_ne h]
      exact ⟨old, hold, rfl⟩

theorem sync (m : SyncManager) : Onward m m.sync.1 := by
  unfold SyncManager.sync
  split
  · exact refl m
  split
  · exact of_eq rfl rfl rfl fun _ => rfl
  · have hcounted : Onward m { m with syncing := true, started := m.started + 1 } :=
      { of_eq (m := m) rfl rfl rfl id with started := Nat.le_succ _ }
    exact hcounted.trans (setPhase _ m.started rfl)

theorem syncIfEnabled (m : SyncManager) : Onward m m.syncIfEnabled := by
  unfold SyncManager.syncIfEnabled
  split
  · exact sync m
  · exact refl m

theorem freshLoop (m : SyncManager) : Onward m m.freshLoop.1 := by
  unfold SyncManager.freshLoop
  split
  · exact refl m
  · split
    · next hsync => simpa only [hsync] using sync m
    · next hsync => simpa only [hsync] using sync m

theorem freshGoesOn (m : SyncManager) (k : ℕ) {before : ℕ}
    (hk : ∀ old ∈ m.fresh k, before = old.before) : Onward m (m.freshGoesOn k before) :=
  (freshLoop m).trans (setFresh _ k fun old hold =>
    hk old (m.sameSettings_freshLoop.fresh ▸ hold))

/-- Only the end of a round ends it, and takes up what was asked for. -/
theorem of_apply {act : SyncAct} (happly : act.apply m = some m') (hact : ∀ r, act ≠ .counted r) :
    Onward m m' := by
  cases act with
  | sync =>
      obtain rfl := Option.some.inj happly
      exact sync m
  | syncFresh k =>
      obtain ⟨hk, rfl⟩ := apply_syncFresh.1 happly
      exact freshGoesOn m k fun old hold => by cases hk.symm.trans hold
  | freshWakes k =>
      obtain ⟨before, r, result, _, ⟨hk, rfl⟩ | ⟨hk, rfl⟩⟩ := apply_freshWakes.1 happly
      · exact freshGoesOn m k fun old hold =>
          congrArg FreshCall.before (Option.some.inj (hk.symm.trans hold))
      · refine setFresh m k fun old hold => ?_
        rw [← Option.some.inj (hk.symm.trans hold)]
  | setEnabled enabled =>
      obtain rfl := Option.some.inj happly
      cases enabled with
      | true => exact of_eq rfl rfl rfl id
      | false => exact of_eq rfl rfl rfl id
  | requestSync =>
      obtain rfl := Option.some.inj happly
      unfold SyncManager.requestSync
      split
      · exact refl m
      · exact of_eq rfl rfl rfl id
  | retryParked =>
      obtain rfl := Option.some.inj happly
      exact syncIfEnabled m
  | startPeriodicSync | stopPeriodicSync | dispose =>
      obtain rfl := Option.some.inj happly
      exact of_eq rfl rfl rfl id
  | debounceFires =>
      obtain ⟨_, rfl⟩ := apply_debounceFires.1 happly
      have hsame : Onward m { m with debounceTimer := false } := of_eq rfl rfl rfl id
      exact hsame.trans (syncIfEnabled _)
  | retryFires =>
      obtain ⟨_, rfl⟩ := apply_retryFires.1 happly
      have hsame : Onward m { m with retryTimer := none } := of_eq rfl rfl rfl id
      exact hsame.trans (syncIfEnabled _)
  | intervalFires =>
      obtain ⟨_, rfl⟩ := apply_intervalFires.1 happly
      exact sync m
  | assign r =>
      obtain ⟨_, rfl⟩ := apply_assign.1 happly
      have hsame : Onward m { m with round := some r } := of_eq rfl rfl rfl id
      exact hsame.trans (setPhase _ r rfl)
  | goesThrough r pushed =>
      obtain ⟨_, rfl⟩ := apply_goesThrough.1 happly
      have hsame : Onward m { m with paused := false } := of_eq rfl rfl rfl id
      exact hsame.trans (setPhase _ r rfl)
  | tasksDone r changed =>
      obtain ⟨done, _, rfl⟩ := apply_tasksDone.1 happly
      have hsame : Onward m { m with syncing := false, rerun := m.rerun || changed } :=
        of_eq rfl rfl rfl fun hrerun => Bool.or_eq_true_iff.2 (Or.inl hrerun)
      exact hsame.trans (setPhase _ r rfl)
  | fails r done paused =>
      obtain ⟨_, rfl⟩ := apply_fails.1 happly
      have hsame : Onward m { m with syncing := false, paused := paused } := of_eq rfl rfl rfl id
      exact hsame.trans (setPhase _ r rfl)
  | counted r => exact (hact r rfl).elim

end Onward

/-! ### The end of a round -/

namespace SyncManager

variable {m : SyncManager} {r : ℕ} {done paused result : Bool}

/-- The retry is scheduled or dropped; nothing else changes. -/
theorem retry_eq (m : SyncManager) (settled : Bool) :
    ∃ rounds timer, (settled = false → m.enabled = true → timer.isSome = true) ∧
      (if settled then m.clearRetry else m.scheduleRetry) =
        { m with failedRounds := rounds, retryTimer := timer } := by
  cases settled with
  | true => exact ⟨0, none, (fun h => by cases h), rfl⟩
  | false =>
      rw [if_neg Bool.false_ne_true]
      unfold SyncManager.scheduleRetry
      split
      · next hkept =>
          refine ⟨m.failedRounds, m.retryTimer, fun _ henabled => ?_, rfl⟩
          simpa only [henabled, Bool.not_true, Bool.false_or] using hkept
      · exact ⟨_, _, fun _ _ => rfl, rfl⟩

theorem exists_finish_eq (m : SyncManager) (r : ℕ) (done paused result : Bool) :
    ∃ rounds timer, ((done || paused) = false → m.enabled = true → timer.isSome = true) ∧
      m.finish r done paused result = SyncManager.again
        { m.setPhase r (.ended result) with failedRounds := rounds, retryTimer := timer } := by
  obtain ⟨rounds, timer, htimer, heq⟩ := (m.setPhase r (.ended result)).retry_eq (done || paused)
  exact ⟨rounds, timer, htimer, by rw [finish_eq, heq]⟩

theorem sameSettings_again (m : SyncManager) : SameSettings m m.again := by
  unfold SyncManager.again
  split
  · have hsame := sameSettings_syncIfEnabled { m with rerun := false }
    exact ⟨hsame.enabled, hsame.disposed, hsame.retryTimer, hsame.fresh⟩
  · exact .refl m

theorem started_le_again (m : SyncManager) : m.started ≤ m.again.started := by
  unfold SyncManager.again
  split
  · exact (Onward.syncIfEnabled { m with rerun := false }).started
  · exact le_rfl

end SyncManager

/-- Rounds only start, and a call of `syncFresh` stays the call it is. -/
theorem kept_of_apply {m m' : SyncManager} {act : SyncAct} (happly : act.apply m = some m') :
    m.started ≤ m'.started ∧
      ∀ k, ∀ call ∈ m.fresh k, ∃ call' ∈ m'.fresh k, call'.before = call.before := by
  by_cases hact : ∃ r, act = .counted r
  · obtain ⟨r, rfl⟩ := hact
    obtain ⟨done, paused, result, _, rfl⟩ := apply_counted.1 happly
    obtain ⟨rounds, timer, _, heq⟩ := m.exists_finish_eq r done paused result
    rw [heq]
    refine ⟨le_trans ?_ (started_le_again _), fun k call hcall => ⟨call, ?_, rfl⟩⟩
    · exact le_rfl
    · rw [(sameSettings_again _).fresh]
      exact hcall
  · have honward : Onward m m' := Onward.of_apply happly fun r hr => hact ⟨r, hr⟩
    exact ⟨honward.started, honward.fresh⟩

end Passmgr
