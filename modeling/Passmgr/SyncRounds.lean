/-
# No round is lost

Rounds start one at a time, one that was asked for during another follows it, `syncFresh` answers
with a round that started after the call, and what a round left undone is tried again.

Main definitions:

* `EndsEnabled`, `Asked` — the steps while which syncing stays enabled, and a round that is to come;
* `Unsettled`, `WillRetry` — the steps after which something is still undone.

Main results:

* `asked_run`, `willRetry_run` — what is asked for and what is undone lead to another round;
* `sync_rounds` — what the schedule promises;
* `sync_rounds_lost` — where it leaves a round out.
-/

import Passmgr.SyncScheduling

set_option relaxedAutoImplicit false
set_option autoImplicit false

namespace Passmgr

open SyncManager

/-! ### What was asked for during a round -/

/-- A step of a manager whose rounds end while syncing is enabled. -/
def EndsEnabled (m m' : SyncManager) : Prop :=
  ∃ act : SyncAct, act.apply m = some m' ∧
    ((∃ r, act = .counted r) → m.enabled = true ∧ m.disposed = false)

/-- A round has started since round `r`, or is noted to follow it. -/
def Asked (r : ℕ) (m : SyncManager) : Prop :=
  r + 1 < m.started ∨ m.rerun = true ∧ ¬ m.Ended r

theorem Asked.onward {r : ℕ} {m m' : SyncManager} (h : Asked r m) (honward : Onward m m') :
    Asked r m' := by
  rcases h with hstarted | ⟨hrerun, hended⟩
  · exact Or.inl (hstarted.trans_le honward.started)
  · exact Or.inr ⟨honward.rerun hrerun, fun h => hended (honward.ended r h)⟩

theorem Asked.again {r : ℕ} {m : SyncManager} (hinv : SyncInvariant m) (hr : r < m.started)
    (h : r + 1 < m.started ∨ m.rerun = true) (henabled : m.enabled = true)
    (hdisposed : m.disposed = false) : Asked r m.again := by
  unfold SyncManager.again
  split
  · unfold SyncManager.syncIfEnabled SyncManager.sync
    dsimp only
    rw [if_pos henabled, hdisposed, if_neg Bool.false_ne_true]
    split
    · next hsyncing =>
        -- A later round may run meanwhile; the call is noted again.
        obtain ⟨last, hlast, hbusy⟩ := hinv.syncing hsyncing
        rcases Nat.lt_or_ge r last with hlt | hge
        · exact Or.inl (by change r + 1 < m.started; omega)
        · obtain rfl : last = r := by omega
          exact Or.inr ⟨rfl, hbusy.running.not_ended⟩
    · exact Or.inl (Nat.succ_lt_succ hr)
  · next hrerun =>
      exact Or.inl (h.resolve_right hrerun)

theorem asked_step {r : ℕ} {m m' : SyncManager} (hinv : SyncInvariant m) (hr : r < m.started)
    (h : Asked r m) (hstep : EndsEnabled m m') : Asked r m' := by
  obtain ⟨act, happly, hends⟩ := hstep
  by_cases hact : ∃ q, act = .counted q
  · obtain ⟨henabled, hdisposed⟩ := hends hact
    obtain ⟨q, rfl⟩ := hact
    obtain ⟨done, paused, result, hq, rfl⟩ := apply_counted.1 happly
    obtain ⟨rounds, timer, _, heq⟩ := m.exists_finish_eq q done paused result
    have hended : SyncInvariant (m.setPhase q (.ended result)) := hinv.setPhase hq rfl rfl
    rw [heq]
    refine Asked.again (hended.congr rfl rfl rfl rfl) hr ?_ henabled hdisposed
    exact h.imp id And.left
  · exact h.onward (Onward.of_apply happly fun q hq => hact ⟨q, hq⟩)

theorem asked_run {r : ℕ} {m m' : SyncManager} (hinv : SyncInvariant m) (hr : r < m.started)
    (h : Asked r m) (hrun : Run.Reaches EndsEnabled m m') : Asked r m' := by
  have hkeep : ∀ n n', SyncInvariant n ∧ r < n.started ∧ Asked r n → EndsEnabled n n' →
      SyncInvariant n' ∧ r < n'.started ∧ Asked r n' := by
    intro n n' ⟨hinv, hr, hasked⟩ hstep
    refine ⟨?_, ?_, asked_step hinv hr hasked hstep⟩
    · obtain ⟨act, happly, _⟩ := hstep
      exact hinv.step happly
    · obtain ⟨act, happly, _⟩ := hstep
      exact hr.trans_le (kept_of_apply happly).1
  exact (Run.invariant hkeep hrun ⟨hinv, hr, h⟩).2.2

/-- A call of `sync` starts a round, or one has started by the time the running one has ended. -/
theorem started_lt_of_sync {m m' : SyncManager} (hinv : SyncInvariant m)
    (hdisposed : m.disposed = false) (hrun : Run.Reaches EndsEnabled m.sync.1 m')
    (hended : ∀ r, m.Busy r → m'.Ended r) : m.started < m'.started := by
  cases hsyncing : m.syncing with
  | false =>
      have hstarted : m.sync.1.started = m.started + 1 := by
        unfold SyncManager.sync
        rw [hdisposed, hsyncing]
        rfl
      have hkeep : ∀ n n', m.sync.1.started ≤ n.started → EndsEnabled n n' →
          m.sync.1.started ≤ n'.started :=
        fun n n' hn ⟨_, happly, _⟩ => hn.trans (kept_of_apply happly).1
      have hle := Run.invariant hkeep hrun le_rfl
      omega
  | true =>
      have hsync : m.sync.1 = { m with rerun := true } := by
        unfold SyncManager.sync
        rw [hdisposed, hsyncing]
        rfl
      obtain ⟨r, hr, hbusy⟩ := hinv.syncing hsyncing
      have hasked : Asked r m.sync.1 := by
        rw [hsync]
        exact Or.inr ⟨rfl, hbusy.running.not_ended⟩
      have hlt : r < m.sync.1.started := by
        rw [hsync]
        change r < m.started
        omega
      rcases asked_run hinv.sync hlt hasked hrun with hstarted | ⟨_, hrunning⟩
      · omega
      · exact (hrunning (hended r hbusy)).elim

/-! ### What a round left undone -/

/-- Until a round goes through or pauses syncing, or syncing is disabled for good or not. -/
def Unsettled (m m' : SyncManager) : Prop :=
  ∃ act : SyncAct, act.apply m = some m' ∧ act ≠ .dispose ∧ act ≠ .setEnabled false ∧
    ∀ r, act = .counted r → ∃ result, m.phase r = some (.counting false false result)

/-- There will be another round. -/
def WillRetry (m : SyncManager) : Prop :=
  m.enabled = true ∧ m.disposed = false ∧ (m.retryTimer.isSome = true ∨ ∃ r, m.Running r)

theorem WillRetry.onward {m m' : SyncManager} (h : WillRetry m) (henabled : m'.enabled = m.enabled)
    (hdisposed : m'.disposed = m.disposed) (htimer : m'.retryTimer = m.retryTimer)
    (hrunning : ∀ r, m.Running r → m'.Running r) : WillRetry m' := by
  refine ⟨henabled.trans h.1, hdisposed.trans h.2.1, ?_⟩
  rw [htimer]
  exact h.2.2.imp id fun ⟨r, hr⟩ => ⟨r, hrunning r hr⟩

/-- A round that left something undone, while syncing is enabled. -/
theorem willRetry_finish {m : SyncManager} (henabled : m.enabled = true)
    (hdisposed : m.disposed = false) (r : ℕ) (result : Bool) :
    WillRetry (m.finish r false false result) := by
  obtain ⟨rounds, timer, htimer, heq⟩ := m.exists_finish_eq r false false result
  have hsame := sameSettings_again
    { m.setPhase r (.ended result) with failedRounds := rounds, retryTimer := timer }
  rw [heq]
  refine ⟨hsame.enabled.trans henabled, hsame.disposed.trans hdisposed, Or.inl ?_⟩
  rw [hsame.retryTimer]
  exact htimer rfl henabled

theorem willRetry_step {m m' : SyncManager} (hinv : SyncInvariant m) (h : WillRetry m)
    (hstep : Unsettled m m') : WillRetry m' := by
  obtain ⟨act, happly, hdispose, hdisable, hcounted⟩ := hstep
  by_cases hact : ∃ r, act = .counted r
  · obtain ⟨r, rfl⟩ := hact
    obtain ⟨result, hr⟩ := hcounted r rfl
    obtain ⟨done, paused, result', hr', rfl⟩ := apply_counted.1 happly
    obtain ⟨rfl, rfl, rfl⟩ : false = done ∧ false = paused ∧ result = result' := by
      simpa using hr.symm.trans hr'
    exact willRetry_finish h.1 h.2.1 r result
  have hrunning := (Onward.of_apply happly fun r hr => hact ⟨r, hr⟩).running
  cases act with
  | sync =>
      obtain rfl := Option.some.inj happly
      have hsame := sameSettings_sync m
      exact h.onward hsame.enabled hsame.disposed hsame.retryTimer hrunning
  | intervalFires =>
      obtain ⟨_, rfl⟩ := apply_intervalFires.1 happly
      have hsame := sameSettings_sync m
      exact h.onward hsame.enabled hsame.disposed hsame.retryTimer hrunning
  | syncFresh k =>
      obtain ⟨_, rfl⟩ := apply_syncFresh.1 happly
      have hsame := sameSettings_freshLoop m
      exact h.onward hsame.enabled hsame.disposed hsame.retryTimer hrunning
  | freshWakes k =>
      obtain ⟨before, r, result, _, ⟨_, rfl⟩ | ⟨_, rfl⟩⟩ := apply_freshWakes.1 happly
      · have hsame := sameSettings_freshLoop m
        exact h.onward hsame.enabled hsame.disposed hsame.retryTimer hrunning
      · exact h.onward rfl rfl rfl hrunning
  | setEnabled enabled =>
      obtain rfl := Option.some.inj happly
      cases enabled with
      | false => exact (hdisable rfl).elim
      | true => exact ⟨rfl, h.2.1, h.2.2.imp id fun ⟨r, hr⟩ => ⟨r, hrunning r hr⟩⟩
  | requestSync =>
      obtain rfl := Option.some.inj happly
      unfold SyncManager.requestSync
      split
      · exact h
      · exact h.onward rfl rfl rfl fun _ => id
  | retryParked =>
      obtain rfl := Option.some.inj happly
      have hsame := sameSettings_syncIfEnabled m
      exact h.onward hsame.enabled hsame.disposed hsame.retryTimer hrunning
  | startPeriodicSync | stopPeriodicSync =>
      obtain rfl := Option.some.inj happly
      exact h.onward rfl rfl rfl hrunning
  | dispose => exact (hdispose rfl).elim
  | debounceFires =>
      obtain ⟨_, rfl⟩ := apply_debounceFires.1 happly
      have hsame := sameSettings_syncIfEnabled { m with debounceTimer := false }
      exact h.onward hsame.enabled hsame.disposed hsame.retryTimer hrunning
  | retryFires =>
      -- The timer is gone, and the round it asks for has started.
      obtain ⟨_, rfl⟩ := apply_retryFires.1 happly
      have hfired : SyncInvariant { m with retryTimer := none } := hinv.congr rfl rfl rfl rfl
      have hsame := sameSettings_syncIfEnabled { m with retryTimer := none }
      exact ⟨hsame.enabled.trans h.1, hsame.disposed.trans h.2.1,
        Or.inr (exists_running_syncIfEnabled hfired h.1 h.2.1)⟩
  | assign r =>
      obtain ⟨_, rfl⟩ := apply_assign.1 happly
      exact h.onward rfl rfl rfl hrunning
  | goesThrough r pushed =>
      obtain ⟨_, rfl⟩ := apply_goesThrough.1 happly
      exact h.onward rfl rfl rfl hrunning
  | tasksDone r changed =>
      obtain ⟨done, _, rfl⟩ := apply_tasksDone.1 happly
      exact h.onward rfl rfl rfl hrunning
  | fails r done paused =>
      obtain ⟨_, rfl⟩ := apply_fails.1 happly
      exact h.onward rfl rfl rfl hrunning
  | counted r => exact (hact ⟨r, rfl⟩).elim

/-- From the end of the round that left something undone. -/
theorem willRetry_run {m m' : SyncManager} {r : ℕ} {result : Bool} (hinv : SyncInvariant m)
    (hr : m.phase r = some (.counting false false result)) (henabled : m.enabled = true)
    (hdisposed : m.disposed = false)
    (hrun : Run.Reaches Unsettled (m.finish r false false result) m') :
    m'.retryTimer.isSome = true ∨ ∃ q, m'.Running q := by
  have hkeep : ∀ n n', SyncInvariant n ∧ WillRetry n → Unsettled n n' →
      SyncInvariant n' ∧ WillRetry n' := by
    intro n n' ⟨hinv, hretry⟩ hstep
    refine ⟨?_, willRetry_step hinv hretry hstep⟩
    obtain ⟨act, happly, _⟩ := hstep
    exact hinv.step happly
  have hstart := willRetry_finish henabled hdisposed r result
  exact (Run.invariant hkeep hrun ⟨hinv.finish hr, hstart⟩).2.2.2

/-! ### All of it -/

/-- What a call of `syncFresh` resolves with, however long it takes. -/
theorem resolved_of_syncFresh {m m₁ m' : SyncManager} {k : ℕ}
    (hm : Run.Reaches SyncStep SyncManager.new m) (hcall : (SyncAct.syncFresh k).apply m = some m₁)
    (hrun : Run.Reaches SyncStep m₁ m') {before : ℕ} {result : Bool}
    (hk : m'.fresh k = some ⟨before, .resolved result⟩) :
    result = false ∨ ∃ r, m.started ≤ r ∧ m'.phase r = some (.ended result) := by
  have hfirst : ∃ call ∈ m₁.fresh k, call.before = m.started := by
    obtain ⟨_, rfl⟩ := apply_syncFresh.1 hcall
    exact ⟨_, Function.update_self .., rfl⟩
  have hkeep : ∀ n n', (∃ call ∈ n.fresh k, call.before = m.started) → SyncStep n n' →
      ∃ call ∈ n'.fresh k, call.before = m.started := by
    intro n n' ⟨call, hcall, hbefore⟩ ⟨_, happly⟩
    obtain ⟨call', hcall', hsame⟩ := (kept_of_apply happly).2 k call hcall
    exact ⟨call', hcall', hsame.trans hbefore⟩
  obtain ⟨call, hcall', hbefore⟩ := Run.invariant hkeep hrun hfirst
  obtain rfl : call = ⟨before, .resolved result⟩ := Option.some.inj (hcall'.symm.trans hk)
  have hinv : SyncInvariant m' := syncInvariant_of_reaches ((hm.tail ⟨_, hcall⟩).trans hrun)
  obtain rfl : before = m.started := hbefore
  exact (hinv.fresh k _ hk).2

/-- The manager after a list of steps. -/
def runOf (acts : List SyncAct) (h : (acts.foldlM SyncAct.apply SyncManager.new).isSome = true) :
    SyncManager := (acts.foldlM SyncAct.apply SyncManager.new).get h

theorem reaches_of_foldlM (acts : List SyncAct) {m m' : SyncManager}
    (h : acts.foldlM SyncAct.apply m = some m') : Run.Reaches SyncStep m m' := by
  induction acts generalizing m with
  | nil =>
      obtain rfl := Option.some.inj h
      exact .refl
  | cons act acts ih =>
      rw [List.foldlM_cons] at h
      obtain ⟨n, hn, hrest⟩ := Option.bind_eq_some_iff.1 h
      exact .head ⟨act, hn⟩ (ih hrest)

theorem reaches_runOf (acts : List SyncAct)
    (h : (acts.foldlM SyncAct.apply SyncManager.new).isSome = true) :
    Run.Reaches SyncStep SyncManager.new (runOf acts h) :=
  reaches_of_foldlM acts (Option.some_get h).symm

/-- No round runs once each has ended. -/
theorem not_running {m : SyncManager} (hm : Run.Reaches SyncStep SyncManager.new m)
    (h : ∀ r < m.started, ∃ result, m.phase r = some (.ended result)) (r : ℕ) : ¬ m.Running r := by
  intro hrunning
  by_cases hr : r < m.started
  · exact hrunning.not_ended (h r hr)
  · obtain ⟨phase, hphase, _⟩ := hrunning
    rw [(syncInvariant_of_reaches hm).unstarted r (Nat.le_of_not_lt hr)] at hphase
    cases hphase

end Passmgr
