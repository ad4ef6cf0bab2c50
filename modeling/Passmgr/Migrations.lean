/-
# Schema migrations

`migrate` of `packages/store/src/migrations.ts`: any number of calls bring one database up to date
at once, each of them over a connection of its own.  A call is cut at every statement it sends to
the database; between two of them the other calls go on, and a transaction may fail, or its
connection be lost, at any point before its commit.

What the tables hold is a type of its own here, and a statement of a migration a function on it
that may fail.

Main definitions:

* `Migration`, `MigratePhase` — a step of the schema, and what a call does next;
* `MigrateCmd` — the next statement of a call;
* `MigrateRun` — the calls under any interleaving.
-/

import Passmgr.Deferred
import Passmgr.Interleaving
import Mathlib.Data.List.Basic

set_option relaxedAutoImplicit false
set_option autoImplicit false

namespace Passmgr

variable {D : Type}

/-! ### The database -/

/-- `Migration`; `up` runs its statements one after the other. -/
structure Migration (D : Type) where
  version : ℕ
  name : String
  up : List (D → Option D)

/-- The tables, and `PRAGMA user_version`. -/
structure Versioned (D : Type) where
  tables : D
  userVersion : ℕ

/-- The database, and the migrations whose `up` was committed, in the order of the commits. -/
structure Migrated (D : Type) where
  store : Deferred.Store (Versioned D)
  applied : List (Migration D)

/-- A statement of a migration. -/
def onTables (statement : D → Option D) (db : Versioned D) : Option (Versioned D) :=
  (statement db.tables).map fun tables => { db with tables := tables }

/-- `PRAGMA user_version = …`. -/
def setUserVersion (version : ℕ) (db : Versioned D) : Option (Versioned D) :=
  some { db with userVersion := version }

/-- `runStatements`. -/
def runStatements (statements : List (D → Option D)) (tables : D) : Option D :=
  statements.foldlM (fun tables statement => statement tables) tables

/-- Migrations one after the other, alone on the database. -/
def runMigrations (migrations : List (Migration D)) (tables : D) : Option D :=
  migrations.foldlM (fun tables migration => runStatements migration.up tables) tables

/-! ### A call -/

inductive MigrateError
  | notContiguous (name : String) (version expected : ℕ)
  | schemaTooNew (databaseVersion supportedVersion : ℕ)
  | busy
  | other
  deriving DecidableEq

def isBusyError : MigrateError → Bool
  | .busy => true
  | _ => false

/-- `assertContiguous`, from index `i` on: the error it throws. -/
def assertContiguous : ℕ → List (Migration D) → Option MigrateError
  | _, [] => none
  | i, m :: migrations =>
    if m.version ≠ i + 1 then some (.notContiguous m.name m.version (i + 1))
    else assertContiguous (i + 1) migrations

/-- Where the loops are: the migration, those after it, and the attempt. -/
structure MigrationTurn (D : Type) where
  migration : Migration D
  rest : List (Migration D)
  attempt : ℕ

/-- What a call does next. -/
inductive MigratePhase (D : Type)
  /-- `assertContiguous`, and the version read outside of any transaction. -/
  | starting
  /-- Before a transaction, or in the delay after one that was busy. -/
  | waiting (turn : MigrationTurn D)
  /-- In a transaction that has not read. -/
  | began (turn : MigrationTurn D)
  /-- In `up`, with the statements that are left of it; then the version. -/
  | upgrading (turn : MigrationTurn D) (tx : Deferred.Tx (Versioned D)) (left : List (D → Option D))
  /-- About to commit; `ran` says whether `up` has run. -/
  | ending (turn : MigrationTurn D) (tx : Deferred.Tx (Versioned D)) (ran : Bool)
  | returned
  | threw (error : MigrateError)

/-- A call of `migrate` with its option `busyAttempts`. -/
structure MigrateCall (D : Type) where
  busyAttempts : ℕ
  phase : MigratePhase D

/-- The next turn of the loop over the migrations. -/
def nextMigration : List (Migration D) → MigratePhase D
  | [] => .returned
  | migration :: rest =>
    .waiting
      { migration := migration
        rest := rest
        attempt := 1 }

/-- Up to the loop, with the version that was read. -/
def startMigrate (migrations : List (Migration D)) (current : ℕ) : MigratePhase D :=
  match assertContiguous 0 migrations with
  | some error => .threw error
  | none =>
    if current > migrations.length then .threw (.schemaTooNew current migrations.length)
    else nextMigration (migrations.drop current)

/-- The transaction once it has read the version. -/
def upgrade (turn : MigrationTurn D) (tx : Deferred.Tx (Versioned D)) : MigratePhase D :=
  if tx.view.userVersion ≥ turn.migration.version then .ending turn tx false
  else .upgrading turn tx turn.migration.up

/-- The `catch` block. -/
def afterFailure (busyAttempts : ℕ) (turn : MigrationTurn D) (error : MigrateError) :
    MigratePhase D :=
  if !isBusyError error || decide (turn.attempt ≥ busyAttempts) then .threw error
  else .waiting { turn with attempt := turn.attempt + 1 }

/-- The turn whose transaction is open. -/
def MigratePhase.inTransaction : MigratePhase D → Option (MigrationTurn D)
  | .began turn => some turn
  | .upgrading turn _ _ => some turn
  | .ending turn _ _ => some turn
  | _ => none

/-- Call `i` goes no further: its transaction fails, or its connection is lost. -/
inductive MigrateAborts (i : ℕ) (db : Migrated D) (call : MigrateCall D) :
    Migrated D → Option (MigrateCall D) → Prop
  | fail (turn : MigrationTurn D) (error : MigrateError)
      (hturn : call.phase.inTransaction = some turn) :
      MigrateAborts i db call { db with store := db.store.rollback i }
        (some { call with phase := afterFailure call.busyAttempts turn error })
  | crash : MigrateAborts i db call { db with store := db.store.rollback i } none

/-- The next statement of call `i`. -/
inductive MigrateCmd (migrations : List (Migration D)) (i : ℕ) (db : Migrated D)
    (call : MigrateCall D) : Migrated D → Option (MigrateCall D) → Prop
  | start (hphase : call.phase = .starting) :
      MigrateCmd migrations i db call db
        (some { call with phase := startMigrate migrations db.store.data.userVersion })
  | startFails (error : MigrateError) (hphase : call.phase = .starting) :
      MigrateCmd migrations i db call db (some { call with phase := .threw error })
  | begin (turn : MigrationTurn D) (hphase : call.phase = .waiting turn) :
      MigrateCmd migrations i db call db (some { call with phase := .began turn })
  | read (turn : MigrationTurn D) (hphase : call.phase = .began turn) :
      MigrateCmd migrations i db call db
        (some { call with phase := upgrade turn db.store.snapshot })
  | statement (turn : MigrationTurn D) (tx tx' : Deferred.Tx (Versioned D))
      (statement : D → Option D) (left : List (D → Option D))
      (store : Deferred.Store (Versioned D))
      (hphase : call.phase = .upgrading turn tx (statement :: left))
      (hex : Deferred.Executes i (onTables statement) db.store tx store tx') :
      MigrateCmd migrations i db call { db with store := store }
        (some { call with phase := .upgrading turn tx' left })
  | bump (turn : MigrationTurn D) (tx tx' : Deferred.Tx (Versioned D))
      (store : Deferred.Store (Versioned D)) (hphase : call.phase = .upgrading turn tx [])
      (hex : Deferred.Executes i (setUserVersion turn.migration.version) db.store tx store tx') :
      MigrateCmd migrations i db call { db with store := store }
        (some { call with phase := .ending turn tx' true })
  | commit (turn : MigrationTurn D) (tx : Deferred.Tx (Versioned D)) (ran : Bool)
      (hphase : call.phase = .ending turn tx ran) :
      MigrateCmd migrations i db call
        { store := db.store.commit i tx
          applied := if ran then db.applied ++ [turn.migration] else db.applied }
        (some { call with phase := nextMigration turn.rest })
  | aborts (db' : Migrated D) (rest : Option (MigrateCall D))
      (haborts : MigrateAborts i db call db' rest) : MigrateCmd migrations i db call db' rest

/-- A call that begins. -/
def MigrateBegins (call : MigrateCall D) : Prop := call.phase = .starting

/-- A database of that version, with no call at work. -/
def Migrated.idle (tables : D) (start : ℕ) : Interleaving.State (Migrated D) (MigrateCall D) :=
  Interleaving.State.idle
    { store :=
        { data :=
            { tables := tables
              userVersion := start }
          changes := 0
          writer := none }
      applied := [] }

/-- One step of the calls; nothing else writes to the database meanwhile. -/
abbrev MigrateStep (migrations : List (Migration D)) :=
  Interleaving.Step MigrateBegins (MigrateCmd migrations) (fun _ _ => False)

/-- Any number of calls, statement by statement. -/
abbrev MigrateRun (migrations : List (Migration D)) :=
  Run.Reaches (MigrateStep migrations)

end Passmgr
