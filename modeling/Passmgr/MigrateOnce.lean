/-
# Migrations are applied once

A call reads the version again in every transaction, and the snapshot of a transaction that writes
is what was committed last: the migration a transaction commits is the one after the version it
finds, whatever the other calls do.

Main definitions:

* `Ahead` — the migrations before a call's turn are applied;
* `MigratePhase.Holds` — what a call in each phase knows of the database;
* `Advances` — what a command does to what is committed.

Main results:

* `MigrateCmd.step`, `MigrateCmd.frame` — a command keeps what its own call knows, and what the
  others know;
* `migrate_exactly_once` — after every run the applied migrations are those between the version at
  the start and the one stored, once each and in order.
-/

import Passmgr.Migrations

set_option relaxedAutoImplicit false
set_option autoImplicit false

namespace Passmgr

variable {D : Type}

abbrev Migrated.version (db : Migrated D) : ℕ := db.store.data.userVersion

/-! ### What a call knows -/

section Invariant

variable (migrations : List (Migration D)) (start : ℕ)

/-- The migration of a turn is the `k`-th, and the version is not below `k`. -/
structure Ahead (version : ℕ) (turn : MigrationTurn D) : Prop where
  contiguous : assertContiguous 0 migrations = none
  start_le : start ≤ migrations.length
  pending : ∃ k ≤ version, migrations.drop k = turn.migration :: turn.rest ∧
    turn.migration.version = k + 1

/-- `up` is at work: the version is the one before, and what is left of `up` leads where all of it
leads from the snapshot. -/
structure Upgrading (turn : MigrationTurn D) (tx : Deferred.Tx (Versioned D))
    (left : List (D → Option D)) : Prop where
  version : tx.view.userVersion = tx.base.userVersion
  below : tx.base.userVersion + 1 = turn.migration.version
  tables : runStatements left tx.view.tables =
    runStatements turn.migration.up tx.base.tables

/-- `up` has run and the version is written. -/
structure Upgraded (turn : MigrationTurn D) (tx : Deferred.Tx (Versioned D)) : Prop where
  version : tx.view.userVersion = turn.migration.version
  below : tx.base.userVersion + 1 = turn.migration.version
  tables : runStatements turn.migration.up tx.base.tables = some tx.view.tables

/-- What call `i` knows of the database. -/
def MigratePhase.Holds (i : ℕ) (db : Migrated D) : MigratePhase D → Prop
  | .starting => db.store.writer ≠ some i
  | .threw _ => db.store.writer ≠ some i
  | .waiting turn => db.store.writer ≠ some i ∧ Ahead migrations start db.version turn
  | .began turn => db.store.writer ≠ some i ∧ Ahead migrations start db.version turn
  | .upgrading turn tx left => Ahead migrations start db.version turn ∧
      Deferred.Fits i db.store tx ∧ Upgrading turn tx left
  | .ending turn tx true => Ahead migrations start db.version turn ∧
      Deferred.Fits i db.store tx ∧ db.store.writer = some i ∧ Upgraded turn tx
  | .ending turn _ false => Ahead migrations start db.version turn ∧
      db.store.writer ≠ some i ∧ turn.migration.version ≤ db.version
  | .returned => db.store.writer ≠ some i ∧ db.version = migrations.length

/-- What is committed after a command: the same, or one migration more. -/
def Advances (db db' : Migrated D) : Prop :=
  db'.store.data = db.store.data ∧ db'.applied = db.applied ∨
    ∃ m, migrations[db.version]? = some m ∧ m.version = db.version + 1 ∧
      db'.version = db.version + 1 ∧
      runStatements m.up db.store.data.tables = some db'.store.data.tables ∧
      db'.applied = db.applied ++ [m]

/-- The applied migrations are those from the first version on, numbered one after the other, and
they lead from the first tables to the ones stored. -/
structure MigratedInv (tables : D) (n : ℕ) (db : Migrated D) : Prop where
  applied : db.applied = (migrations.drop start).take db.applied.length
  versions : db.applied.map (·.version) = List.range' (start + 1) db.applied.length
  version : db.version = start + db.applied.length
  tables : runMigrations db.applied tables = some db.store.data.tables
  writer : ∀ i, db.store.writer = some i → i < n

end Invariant

variable {migrations : List (Migration D)} {start : ℕ}

/-- Contiguous migrations are numbered by their place. -/
theorem version_of_contiguous {i k : ℕ} {m : Migration D}
    (h : assertContiguous i migrations = none) (hk : migrations[k]? = some m) :
    m.version = i + k + 1 := by
  induction migrations generalizing i k with
  | nil => cases hk
  | cons head rest ih =>
      rw [assertContiguous] at h
      split at h
      · cases h
      · next hversion =>
          cases k with
          | zero =>
              obtain rfl := Option.some.inj hk
              exact not_not.1 hversion
          | succ k =>
              have hrest := ih h hk
              omega

theorem Advances.version_le {db db' : Migrated D} (h : Advances migrations db db') :
    db.version ≤ db'.version := by
  rcases h with ⟨hdata, -⟩ | ⟨m, -, -, hversion, -⟩
  · rw [Migrated.version, Migrated.version, hdata]
  · omega

/-- Past the last migration nothing is committed. -/
theorem Advances.version_eq {db db' : Migrated D} (h : Advances migrations db db')
    (hlast : db.version = migrations.length) : db'.version = migrations.length := by
  rcases h with ⟨hdata, -⟩ | ⟨m, hm, -⟩
  · rw [Migrated.version, hdata]
    exact hlast
  · rw [hlast, List.getElem?_eq_none (Nat.le_refl _)] at hm
    cases hm

namespace Ahead

variable {version : ℕ} {turn : MigrationTurn D}

theorem mono {version' : ℕ} (h : Ahead migrations start version turn)
    (hle : version ≤ version') : Ahead migrations start version' turn := by
  obtain ⟨k, hk, hpending⟩ := h.pending
  exact ⟨h.contiguous, h.start_le, k, hk.trans hle, hpending⟩

/-- The migration of the turn, once the version is the one before. -/
theorem getElem? (h : Ahead migrations start version turn)
    (hbelow : version + 1 = turn.migration.version) :
    migrations[version]? = some turn.migration := by
  obtain ⟨k, -, hdrop, hversion⟩ := h.pending
  obtain rfl : version = k := by omega
  rw [← List.head?_drop, hdrop]
  rfl

/-- The next attempt. -/
theorem again (h : Ahead migrations start version turn) (attempt : ℕ) :
    Ahead migrations start version { turn with attempt := attempt } :=
  ⟨h.contiguous, h.start_le, h.pending⟩

end Ahead

/-- The loop goes on with the migrations from the `k`-th on. -/
theorem holds_nextMigration {i : ℕ} {db : Migrated D} {k : ℕ}
    (hcontiguous : assertContiguous 0 migrations = none) (hstart : start ≤ migrations.length)
    (hk : k ≤ db.version) (hlast : db.version ≤ migrations.length)
    (hwriter : db.store.writer ≠ some i) :
    (nextMigration (migrations.drop k)).Holds migrations start i db := by
  cases hdrop : migrations.drop k with
  | nil =>
      have hlength : migrations.length ≤ k := List.drop_eq_nil_iff.1 hdrop
      exact ⟨hwriter, Nat.le_antisymm hlast (hlength.trans hk)⟩
  | cons m rest =>
      have hm : migrations[k]? = some m := by
        rw [← List.head?_drop, hdrop]
        rfl
      refine ⟨hwriter, hcontiguous, hstart, k, hk, hdrop, ?_⟩
      rw [version_of_contiguous hcontiguous hm]
      omega

/-! ### One command -/

theorem MigratedInv.version_le {tables : D} {n : ℕ} {db : Migrated D}
    (h : MigratedInv migrations start tables n db) (hstart : start ≤ migrations.length) :
    db.version ≤ migrations.length := by
  have hlength : db.applied.length ≤ (migrations.drop start).length := by
    rw [h.applied]
    exact (List.take_sublist _ _).length_le.trans (by simp)
  have hversion := h.version
  rw [List.length_drop] at hlength
  omega

variable {i : ℕ} {db : Migrated D} {turn : MigrationTurn D}

theorem holds_startMigrate {tables : D} {n : ℕ} (hinv : MigratedInv migrations start tables n db)
    (hwriter : db.store.writer ≠ some i) :
    (startMigrate migrations db.version).Holds migrations start i db := by
  unfold startMigrate
  split
  · exact hwriter
  · next hcontiguous =>
      split
      · exact hwriter
      · next hnew =>
          have hlast : db.version ≤ migrations.length := Nat.le_of_not_lt hnew
          have hstart : start ≤ db.version := hinv.version ▸ Nat.le_add_right _ _
          exact holds_nextMigration hcontiguous (hstart.trans hlast) (Nat.le_refl _) hlast hwriter

/-- The transaction finds the version of its snapshot, and that is what is committed. -/
theorem holds_upgrade (h : Ahead migrations start db.version turn)
    (hwriter : db.store.writer ≠ some i) :
    (upgrade turn db.store.snapshot).Holds migrations start i db := by
  unfold upgrade
  split
  · next hdone => exact ⟨h, hwriter, hdone⟩
  · next hnot =>
      obtain ⟨k, hk, -, hversion⟩ := h.pending
      have hbelow : db.version + 1 = turn.migration.version := by
        have hlt : db.version < turn.migration.version := Nat.lt_of_not_le hnot
        omega
      exact ⟨h, Deferred.Fits.snapshot hwriter, rfl, hbelow, rfl⟩

variable {tx tx' : Deferred.Tx (Versioned D)}

theorem Upgrading.statement {statement : D → Option D} {left : List (D → Option D)}
    (h : Upgrading turn tx (statement :: left)) (hbase : tx'.base = tx.base)
    (hview : onTables statement tx.view = some tx'.view) : Upgrading turn tx' left := by
  obtain ⟨tables, htables, hview⟩ := Option.map_eq_some_iff.1 hview
  refine ⟨?_, hbase ▸ h.below, ?_⟩
  · rw [← hview, hbase]
    exact h.version
  · have hall := h.tables
    rw [runStatements, List.foldlM_cons, htables] at hall
    rw [← hview, hbase]
    exact hall

theorem Upgrading.bump (h : Upgrading turn tx []) (hbase : tx'.base = tx.base)
    (hview : setUserVersion turn.migration.version tx.view = some tx'.view) :
    Upgraded turn tx' := by
  have hview : { tx.view with userVersion := turn.migration.version } = tx'.view :=
    Option.some.inj hview
  refine ⟨?_, hbase ▸ h.below, ?_⟩
  · rw [← hview]
  · rw [hbase, ← hview]
    exact h.tables.symm

/-- To write the version the lock is taken. -/
theorem writer_of_bump {store : Deferred.Store (Versioned D)} (h : Upgrading turn tx [])
    (hex : Deferred.Executes i (setUserVersion turn.migration.version) db.store tx store tx') :
    store.writer = some i := by
  cases hex with
  | write view hlock hview => rfl
  | idle hview =>
      have hsame : { tx.view with userVersion := turn.migration.version } = tx.view :=
        Option.some.inj hview
      have hversion : turn.migration.version = tx.view.userVersion := congrArg (·.userVersion) hsame
      have hbelow := h.below
      rw [← h.version] at hbelow
      omega

/-- What a failed transaction leaves is what was committed. -/
theorem MigrateAborts.data_eq {call : MigrateCall D} {db' : Migrated D}
    {rest : Option (MigrateCall D)} (h : MigrateAborts i db call db' rest) :
    db'.store = db.store.rollback i ∧ db'.applied = db.applied := by
  cases h with
  | fail turn error hturn => exact ⟨rfl, rfl⟩
  | crash => exact ⟨rfl, rfl⟩

/-- The turn of an open transaction is still ahead. -/
theorem MigratePhase.Holds.ahead {phase : MigratePhase D}
    (h : phase.Holds migrations start i db) (hturn : phase.inTransaction = some turn) :
    Ahead migrations start db.version turn := by
  cases phase with
  | began other =>
      obtain rfl := Option.some.inj hturn
      exact h.2
  | upgrading other tx left =>
      obtain rfl := Option.some.inj hturn
      exact h.1
  | ending other tx ran =>
      obtain rfl := Option.some.inj hturn
      cases ran with
      | true => exact h.1
      | false => exact h.1
  | starting => cases hturn
  | waiting other => cases hturn
  | returned => cases hturn
  | threw error => cases hturn

theorem holds_afterFailure (h : Ahead migrations start db.version turn)
    (hwriter : db.store.writer ≠ some i) (busyAttempts : ℕ) (error : MigrateError) :
    (afterFailure busyAttempts turn error).Holds migrations start i db := by
  unfold afterFailure
  split
  · exact hwriter
  · exact ⟨hwriter, h.again _⟩

/-- After the turn the loop goes on, from a version that has reached the one of the turn. -/
theorem Ahead.holds_next {version : ℕ} (h : Ahead migrations start version turn)
    (hreached : turn.migration.version ≤ db.version) (hlast : db.version ≤ migrations.length)
    (hwriter : db.store.writer ≠ some i) :
    (nextMigration turn.rest).Holds migrations start i db := by
  obtain ⟨k, -, hdrop, hversion⟩ := h.pending
  have hrest : turn.rest = migrations.drop (k + 1) := by
    rw [← List.tail_drop, hdrop, List.tail_cons]
  rw [hrest]
  exact holds_nextMigration h.contiguous h.start_le (hversion ▸ hreached) hlast hwriter

/-- The migration of the turn is committed: the version was the one before it. -/
theorem step_commitRan (hahead : Ahead migrations start db.version turn)
    (hfits : Deferred.Fits i db.store tx) (hlock : db.store.writer = some i)
    (hup : Upgraded turn tx) :
    Advances migrations db
        { store := db.store.commit i tx, applied := db.applied ++ [turn.migration] } ∧
      (nextMigration turn.rest).Holds migrations start i
        { store := db.store.commit i tx, applied := db.applied ++ [turn.migration] } := by
  have hbase : tx.base = db.store.data := hfits.base_eq hlock
  have hdata : (db.store.commit i tx).data = tx.view := Deferred.Store.commit_of_writer hlock tx
  have hbelow : db.version + 1 = turn.migration.version := by
    rw [Migrated.version, ← hbase]
    exact hup.below
  have hnow : (db.store.commit i tx).data.userVersion = db.version + 1 := by
    rw [hdata, hup.version, hbelow]
  have htables := hup.tables
  rw [hbase, ← hdata] at htables
  have hm := hahead.getElem? hbelow
  have hlt : db.version < migrations.length := (List.getElem?_eq_some_iff.1 hm).1
  refine ⟨Or.inr ⟨turn.migration, hm, hbelow.symm, hnow, htables, rfl⟩,
    hahead.holds_next ?_ ?_ (db.store.commit_writer_ne i tx)⟩
  · rw [Migrated.version, hnow, hbelow]
  · rw [Migrated.version, hnow]
    exact hlt

/-- A command commits nothing, or the migration after the version stored; and its call knows what
it has to know in its next phase. -/
theorem MigrateCmd.step {tables : D} {n : ℕ} {call : MigrateCall D} {db' : Migrated D}
    {rest : Option (MigrateCall D)} (hcmd : MigrateCmd migrations i db call db' rest)
    (hinv : MigratedInv migrations start tables n db)
    (hcall : call.phase.Holds migrations start i db) :
    Advances migrations db db' ∧
      ∀ next, rest = some next → next.phase.Holds migrations start i db' := by
  cases hcmd with
  | start hphase =>
      rw [hphase] at hcall
      refine ⟨Or.inl ⟨rfl, rfl⟩, ?_⟩
      rintro _ ⟨⟩
      exact holds_startMigrate hinv hcall
  | startFails error hphase =>
      rw [hphase] at hcall
      refine ⟨Or.inl ⟨rfl, rfl⟩, ?_⟩
      rintro _ ⟨⟩
      exact hcall
  | begin turn hphase =>
      rw [hphase] at hcall
      refine ⟨Or.inl ⟨rfl, rfl⟩, ?_⟩
      rintro _ ⟨⟩
      exact hcall
  | read turn hphase =>
      rw [hphase] at hcall
      refine ⟨Or.inl ⟨rfl, rfl⟩, ?_⟩
      rintro _ ⟨⟩
      exact holds_upgrade hcall.2 hcall.1
  | statement turn tx tx' statement left store hphase hex =>
      rw [hphase] at hcall
      obtain ⟨hahead, hfits, hup⟩ := hcall
      obtain ⟨hfits', hbase, hview⟩ := hfits.executes hex
      have hdata : store.data = db.store.data := hex.data_eq.1
      refine ⟨Or.inl ⟨hdata, rfl⟩, ?_⟩
      rintro _ ⟨⟩
      refine ⟨?_, hfits', hup.statement hbase hview⟩
      rw [Migrated.version, hdata]
      exact hahead
  | bump turn tx tx' store hphase hex =>
      rw [hphase] at hcall
      obtain ⟨hahead, hfits, hup⟩ := hcall
      obtain ⟨hfits', hbase, hview⟩ := hfits.executes hex
      have hdata : store.data = db.store.data := hex.data_eq.1
      refine ⟨Or.inl ⟨hdata, rfl⟩, ?_⟩
      rintro _ ⟨⟩
      refine ⟨?_, hfits', writer_of_bump hup hex, hup.bump hbase hview⟩
      rw [Migrated.version, hdata]
      exact hahead
  | commit turn tx ran hphase =>
      rw [hphase] at hcall
      cases ran with
      | true =>
          obtain ⟨hahead, hfits, hlock, hup⟩ := hcall
          obtain ⟨hadvances, hnext⟩ := step_commitRan hahead hfits hlock hup
          refine ⟨hadvances, ?_⟩
          rintro _ ⟨⟩
          exact hnext
      | false =>
          obtain ⟨hahead, hfree, hreached⟩ := hcall
          have hsame : db.store.commit i tx = db.store :=
            Deferred.Store.commit_of_not_writer hfree tx
          refine ⟨Or.inl ⟨congrArg (·.data) hsame, rfl⟩, ?_⟩
          rintro _ ⟨⟩
          rw [hsame]
          exact hahead.holds_next hreached (hinv.version_le hahead.start_le) hfree
  | aborts db' rest haborts =>
      have hdata : db'.store.data = db.store.data := by
        rw [haborts.data_eq.1, Deferred.Store.rollback_data]
      refine ⟨Or.inl ⟨hdata, haborts.data_eq.2⟩, ?_⟩
      rintro next hnext
      cases haborts with
      | crash => cases hnext
      | fail turn error hturn =>
          obtain rfl := Option.some.inj hnext
          refine holds_afterFailure ?_ (db.store.rollback_writer_ne i) _ error
          rw [Migrated.version, hdata]
          exact hcall.ahead hturn

/-- What a command of one call leaves of the lock and of the transactions of the others. -/
theorem MigrateCmd.others {call : MigrateCall D} {db' : Migrated D} {rest : Option (MigrateCall D)}
    (hcmd : MigrateCmd migrations i db call db' rest) {j : ℕ} (hj : j ≠ i) :
    (db'.store.writer = some j ↔ db.store.writer = some j) ∧
      ∀ u, Deferred.Fits j db.store u → Deferred.Fits j db'.store u := by
  cases hcmd with
  | start hphase => exact ⟨Iff.rfl, fun _ h => h⟩
  | startFails error hphase => exact ⟨Iff.rfl, fun _ h => h⟩
  | begin turn hphase => exact ⟨Iff.rfl, fun _ h => h⟩
  | read turn hphase => exact ⟨Iff.rfl, fun _ h => h⟩
  | statement turn tx tx' statement left store hphase hex =>
      exact ⟨hex.writer_iff hj, fun _ h => h.executes_other hex hj⟩
  | bump turn tx tx' store hphase hex =>
      exact ⟨hex.writer_iff hj, fun _ h => h.executes_other hex hj⟩
  | commit turn tx ran hphase =>
      exact ⟨db.store.commit_writer_iff tx hj, fun _ h => h.commit_other hj tx⟩
  | aborts db' rest haborts =>
      rw [haborts.data_eq.1]
      exact ⟨db.store.rollback_writer_iff hj, fun _ h => h.rollback_other hj⟩

/-- What one call knows is not undone by what another one does. -/
theorem MigrateCmd.frame {call : MigrateCall D} {db' : Migrated D}
    {rest : Option (MigrateCall D)} (hcmd : MigrateCmd migrations i db call db' rest)
    (hadv : Advances migrations db db') {j : ℕ} (hj : j ≠ i) {phase : MigratePhase D}
    (h : phase.Holds migrations start j db) : phase.Holds migrations start j db' := by
  obtain ⟨hwriter, hfits⟩ := hcmd.others hj
  have hle : db.version ≤ db'.version := hadv.version_le
  cases phase with
  | starting => exact fun hlock => h (hwriter.1 hlock)
  | threw error => exact fun hlock => h (hwriter.1 hlock)
  | waiting turn => exact ⟨fun hlock => h.1 (hwriter.1 hlock), h.2.mono hle⟩
  | began turn => exact ⟨fun hlock => h.1 (hwriter.1 hlock), h.2.mono hle⟩
  | upgrading turn tx left => exact ⟨h.1.mono hle, hfits tx h.2.1, h.2.2⟩
  | ending turn tx ran =>
      cases ran with
      | true => exact ⟨h.1.mono hle, hfits tx h.2.1, hwriter.2 h.2.2.1, h.2.2.2⟩
      | false => exact ⟨h.1.mono hle, fun hlock => h.2.1 (hwriter.1 hlock), h.2.2.trans hle⟩
  | returned => exact ⟨fun hlock => h.1 (hwriter.1 hlock), hadv.version_eq h.2⟩

/-- One migration more is the next one of the list. -/
theorem MigratedInv.advance {tables : D} {n : ℕ} {db' : Migrated D}
    (h : MigratedInv migrations start tables n db) (hadv : Advances migrations db db')
    (hwriter : ∀ i, db'.store.writer = some i → i < n) :
    MigratedInv migrations start tables n db' := by
  rcases hadv with ⟨hdata, happlied⟩ | ⟨m, hm, hnumber, hversion, htables, happlied⟩
  · refine ⟨happlied ▸ h.applied, happlied ▸ h.versions, ?_, ?_, hwriter⟩
    · rw [Migrated.version, hdata, happlied]
      exact h.version
    · rw [happlied, hdata]
      exact h.tables
  · have hlength : db'.applied.length = db.applied.length + 1 := by
      rw [happlied, List.length_append, List.length_singleton]
    have hnext : (migrations.drop start)[db.applied.length]? = some m := by
      rw [List.getElem?_drop, ← h.version]
      exact hm
    refine ⟨?_, ?_, ?_, ?_, hwriter⟩
    · rw [hlength, List.take_add_one, hnext, ← h.applied, happlied]
      rfl
    · rw [hlength, List.range'_1_concat, ← h.versions, happlied, List.map_append,
        List.map_singleton, hnumber, h.version, Nat.add_right_comm]
    · rw [hversion, hlength, h.version, Nat.add_assoc]
    · rw [happlied, runMigrations, List.foldlM_append]
      change (runMigrations db.applied tables >>= _) = _
      rw [h.tables]
      change runMigrations [m] db.store.data.tables = _
      rw [runMigrations, List.foldlM_cons, htables]
      rfl

/-! ### Every run -/

/-- The lock is held by a call that has begun. -/
theorem MigrateCmd.writer {call : MigrateCall D} {db' : Migrated D}
    {rest : Option (MigrateCall D)} (hcmd : MigrateCmd migrations i db call db' rest) {n : ℕ}
    (hi : i < n) (h : ∀ j, db.store.writer = some j → j < n) (j : ℕ)
    (hj : db'.store.writer = some j) : j < n := by
  by_cases hji : j = i
  · exact hji ▸ hi
  · exact h j ((hcmd.others hji).1.1 hj)

theorem keeps_migrate (tables : D) :
    Interleaving.Keeps MigrateBegins (MigrateCmd migrations) (fun _ _ => False)
      (MigratedInv migrations start tables)
      (fun i db call => call.phase.Holds migrations start i db) where
  begin i db call hbegins hinv := by
    refine ⟨⟨hinv.applied, hinv.versions, hinv.version, hinv.tables, fun j hj => ?_⟩, ?_⟩
    · exact Nat.lt_succ_of_lt (hinv.writer j hj)
    · rw [show call.phase = .starting from hbegins]
      exact fun hlock => Nat.lt_irrefl i (hinv.writer i hlock)
  run n i db call db' rest hi hinv hcall hcmd := by
    obtain ⟨hadv, hnext⟩ := hcmd.step hinv hcall
    exact ⟨hinv.advance hadv (hcmd.writer hi hinv.writer), hnext⟩
  frame n i db call db' rest hinv hcall hcmd j other hj hother :=
    hcmd.frame (hcmd.step hinv hcall).1 hj hother
  other n db db' hinv hother := hother.elim

/-- Where a transaction fails in the middle of `up`, the version is the one before. -/
theorem MigratePhase.Holds.version_eq {phase : MigratePhase D}
    (h : phase.Holds migrations start i db) (hturn : phase.inTransaction = some turn)
    (hlock : db.store.writer = some i) : db.version + 1 = turn.migration.version := by
  cases phase with
  | began other => exact absurd hlock h.1
  | upgrading other tx left =>
      obtain rfl := Option.some.inj hturn
      rw [Migrated.version, ← h.2.1.base_eq hlock]
      exact h.2.2.below
  | ending other tx ran =>
      obtain rfl := Option.some.inj hturn
      cases ran with
      | true =>
          rw [Migrated.version, ← h.2.1.base_eq hlock]
          exact h.2.2.2.below
      | false => exact absurd hlock h.2.1
  | starting => cases hturn
  | waiting other => cases hturn
  | returned => cases hturn
  | threw error => cases hturn

/-- **Schema migration is exactly-once.**  Whatever the calls, their interleaving and their
failures: the applied migrations are those that follow the first version, once each and in order,
as many as the version has grown by, and the tables are what they make of the first ones.  A
transaction that ends without a commit changes nothing of that, and where it wrote, the version is
the one before its migration.  A call that returned left the last version. -/
theorem migrate_exactly_once {tables : D}
    {s : Interleaving.State (Migrated D) (MigrateCall D)}
    (h : MigrateRun migrations (Migrated.idle tables start) s) :
    s.shared.applied = (migrations.drop start).take s.shared.applied.length ∧
      s.shared.applied.map (·.version) = List.range' (start + 1) s.shared.applied.length ∧
      s.shared.version = start + s.shared.applied.length ∧
      runMigrations s.shared.applied tables = some s.shared.store.data.tables ∧
      (∀ i call db' rest, s.calls i = some call → MigrateAborts i s.shared call db' rest →
        db'.store.data = s.shared.store.data ∧ db'.applied = s.shared.applied ∧
        ∀ turn, call.phase.inTransaction = some turn → s.shared.store.writer = some i →
          db'.version + 1 = turn.migration.version) ∧
      ∀ i call, s.calls i = some call → call.phase = .returned →
        s.shared.version = migrations.length := by
  have hinit : MigratedInv migrations start tables 0 (Migrated.idle tables start).shared :=
    ⟨(List.take_zero ..).symm, rfl, rfl, rfl, nofun⟩
  have hs := Interleaving.holds_of_reaches (keeps_migrate tables) h (Interleaving.holds_idle hinit)
  refine ⟨hs.inv.applied, hs.inv.versions, hs.inv.version, hs.inv.tables,
    fun i call db' rest hcall haborts => ?_, fun i call hcall hphase => ?_⟩
  · have hdata : db'.store.data = s.shared.store.data := by
      rw [haborts.data_eq.1, Deferred.Store.rollback_data]
    refine ⟨hdata, haborts.data_eq.2, fun turn hturn hlock => ?_⟩
    rw [Migrated.version, hdata]
    exact (hs.calls i call hcall).version_eq hturn hlock
  · have hreturned := hs.calls i call hcall
    rw [hphase] at hreturned
    exact hreturned.2

/-- A migration of one statement. -/
def addTable : Migration ℕ where
  version := 1
  name := "add a table"
  up := [fun tables => some (tables + 1)]

/-- Two calls of `migrate` that both read version 0: the second one is busy, and skips the migration
in its next attempt. -/
theorem exists_race : ∃ s, MigrateRun [addTable] (Migrated.idle 0 0) s ∧
    s.calls 0 = some ⟨5, .returned⟩ ∧ s.calls 1 = some ⟨5, .returned⟩ := by
  let fresh : MigrateCall ℕ := ⟨5, .starting⟩
  have hfresh : MigrateBegins fresh := rfl
  let turn : MigrationTurn ℕ := ⟨addTable, [], 1⟩
  let again : MigrationTurn ℕ := ⟨addTable, [], 2⟩
  let before : Deferred.Tx (Versioned ℕ) := ⟨⟨0, 0⟩, 0, ⟨0, 0⟩⟩
  let written : Deferred.Tx (Versioned ℕ) := ⟨⟨0, 0⟩, 0, ⟨1, 0⟩⟩
  let bumped : Deferred.Tx (Versioned ℕ) := ⟨⟨0, 0⟩, 0, ⟨1, 1⟩⟩
  have hrun : MigrateRun [addTable] (Migrated.idle 0 0) _ :=
    ((((((((((((((Relation.ReflTransGen.refl.tail (.begin fresh hfresh)).tail
      (.begin fresh hfresh)).tail
      (.run 0 fresh _ _ rfl (.start rfl))).tail
      (.run 1 fresh _ _ rfl (.start rfl))).tail
      (.run 0 ⟨5, .waiting turn⟩ _ _ rfl (.begin turn rfl))).tail
      (.run 1 ⟨5, .waiting turn⟩ _ _ rfl (.begin turn rfl))).tail
      (.run 0 ⟨5, .began turn⟩ _ _ rfl (.read turn rfl))).tail
      (.run 1 ⟨5, .began turn⟩ _ _ rfl (.read turn rfl))).tail
      (.run 0 ⟨5, .upgrading turn before addTable.up⟩ _ _ rfl
        (.statement turn before written _ _ _ rfl
          (.write written.view (.inr ⟨rfl, rfl⟩) rfl)))).tail
      (.run 1 ⟨5, .upgrading turn before addTable.up⟩ _ _ rfl
        (.aborts _ _ (.fail turn .busy rfl)))).tail
      (.run 0 ⟨5, .upgrading turn written []⟩ _ _ rfl
        (.bump turn written bumped _ rfl (.write bumped.view (.inl rfl) rfl)))).tail
      (.run 0 ⟨5, .ending turn bumped true⟩ _ _ rfl (.commit turn bumped true rfl))).tail
      (.run 1 ⟨5, .waiting again⟩ _ _ rfl (.begin again rfl))).tail
      (.run 1 ⟨5, .began again⟩ _ _ rfl (.read again rfl))).tail
      (.run 1 ⟨5, .ending again ⟨⟨1, 1⟩, 1, ⟨1, 1⟩⟩ false⟩ _ _ rfl (.commit again _ false rfl))
  exact ⟨_, hrun, rfl, rfl⟩

theorem migrate_exactly_once_race :
    ∃ s, MigrateRun [addTable] (Migrated.idle 0 0) s ∧ s.shared.version = [addTable].length ∧
      s.shared.version = 0 + s.shared.applied.length := by
  obtain ⟨s, hrun, hcall, -⟩ := exists_race
  have honce := migrate_exactly_once hrun
  exact ⟨s, hrun, honce.2.2.2.2.2 0 _ hcall rfl, honce.2.2.1⟩

end Passmgr
