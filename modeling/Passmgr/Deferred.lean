/-
# Deferred transactions

A database with many connections, whose transactions start deferred, as those of SQLite do: the
first read takes a snapshot, the first write takes the one write lock and is refused where
another transaction has committed since the snapshot, and what a transaction wrote is seen by no
other one before it commits.  Nothing here is about a particular database.

Main definitions:

* `Deferred.Store`, `Deferred.Tx` — the database, and what an open transaction sees of it;
* `Deferred.Executes` — a statement that runs in a transaction;
* `Deferred.Fits` — what an open transaction and the database have to do with each other.

Main results:

* `Deferred.Fits.executes`, `Deferred.Fits.executes_other` — a statement keeps it for its own
  transaction and for the others;
* `Deferred.Fits.commit_other`, `Deferred.Fits.rollback_other` — so does the end of another one.
-/

import Mathlib.Data.Nat.Notation
import Mathlib.Tactic.Common

set_option relaxedAutoImplicit false
set_option autoImplicit false

namespace Deferred

variable {σ : Type}

/-- What is committed, how often something was, and the connection with the write lock. -/
structure Store (σ : Type) where
  data : σ
  changes : ℕ
  writer : Option ℕ

/-- A transaction that has read: the snapshot it took, when, and what it sees by now. -/
structure Tx (σ : Type) where
  base : σ
  changes : ℕ
  view : σ

/-- The first read of a transaction. -/
def Store.snapshot (s : Store σ) : Tx σ where
  base := s.data
  changes := s.changes
  view := s.data

/-- A statement of the transaction of connection `i`; one that changes nothing needs no lock. -/
inductive Executes (i : ℕ) (f : σ → Option σ) (s : Store σ) (tx : Tx σ) : Store σ → Tx σ → Prop
  | write (view : σ)
      (hlock : s.writer = some i ∨ s.writer = none ∧ tx.changes = s.changes)
      (hview : f tx.view = some view) :
      Executes i f s tx { s with writer := some i } { tx with view := view }
  | idle (hview : f tx.view = some tx.view) : Executes i f s tx s tx

/-- `COMMIT`: only a transaction that has the write lock has changed anything. -/
def Store.commit (s : Store σ) (i : ℕ) (tx : Tx σ) : Store σ :=
  if s.writer = some i then
    { data := tx.view
      changes := s.changes + 1
      writer := none }
  else s

/-- `ROLLBACK`. -/
def Store.rollback (s : Store σ) (i : ℕ) : Store σ :=
  if s.writer = some i then { s with writer := none } else s

@[simp] theorem Store.rollback_data (s : Store σ) (i : ℕ) : (s.rollback i).data = s.data := by
  unfold rollback
  split <;> rfl

@[simp] theorem Store.rollback_changes (s : Store σ) (i : ℕ) :
    (s.rollback i).changes = s.changes := by
  unfold rollback
  split <;> rfl

theorem Store.rollback_writer_ne (s : Store σ) (i : ℕ) : (s.rollback i).writer ≠ some i := by
  unfold rollback
  split
  · nofun
  · assumption

theorem Store.commit_writer_ne (s : Store σ) (i : ℕ) (tx : Tx σ) :
    (s.commit i tx).writer ≠ some i := by
  unfold commit
  split
  · nofun
  · assumption

theorem Store.commit_of_writer {s : Store σ} {i : ℕ} (h : s.writer = some i) (tx : Tx σ) :
    (s.commit i tx).data = tx.view := by
  rw [commit, if_pos h]

theorem Store.commit_of_not_writer {s : Store σ} {i : ℕ} (h : s.writer ≠ some i) (tx : Tx σ) :
    s.commit i tx = s := if_neg h

/-- The lock of another connection is not touched. -/
theorem Store.rollback_writer_iff (s : Store σ) {i j : ℕ} (h : j ≠ i) :
    (s.rollback i).writer = some j ↔ s.writer = some j := by
  unfold rollback
  split
  · next hi =>
      rw [hi]
      exact ⟨nofun, fun hj => absurd (Option.some.inj hj).symm h⟩
  · rfl

theorem Store.commit_writer_iff (s : Store σ) (tx : Tx σ) {i j : ℕ} (h : j ≠ i) :
    (s.commit i tx).writer = some j ↔ s.writer = some j := by
  unfold commit
  split
  · next hi =>
      rw [hi]
      exact ⟨nofun, fun hj => absurd (Option.some.inj hj).symm h⟩
  · rfl

theorem Executes.writer_iff {i j : ℕ} {f : σ → Option σ} {s s' : Store σ} {tx tx' : Tx σ}
    (h : Executes i f s tx s' tx') (hj : j ≠ i) : s'.writer = some j ↔ s.writer = some j := by
  cases h with
  | idle hview => rfl
  | write view hlock hview =>
      refine ⟨fun h => absurd (Option.some.inj h).symm hj, fun h => ?_⟩
      rcases hlock with hi | ⟨hnone, -⟩
      · exact absurd (Option.some.inj (h.symm.trans hi)) hj
      · cases h.symm.trans hnone

/-- No statement commits anything. -/
theorem Executes.data_eq {i : ℕ} {f : σ → Option σ} {s s' : Store σ} {tx tx' : Tx σ}
    (h : Executes i f s tx s' tx') : s'.data = s.data ∧ s'.changes = s.changes := by
  cases h with
  | write view hlock hview => exact ⟨rfl, rfl⟩
  | idle hview => exact ⟨rfl, rfl⟩

/-- The snapshot is that of the last commit as long as there was none since, which holds for the
transaction with the lock; the others have written nothing. -/
structure Fits (i : ℕ) (s : Store σ) (tx : Tx σ) : Prop where
  le : tx.changes ≤ s.changes
  base : tx.changes = s.changes → tx.base = s.data
  lock : s.writer = some i → tx.changes = s.changes
  unwritten : s.writer ≠ some i → tx.view = tx.base

namespace Fits

variable {i j : ℕ} {f : σ → Option σ} {s s' : Store σ} {tx tx' u : Tx σ}

theorem snapshot (h : s.writer ≠ some i) : Fits i s s.snapshot where
  le := Nat.le_refl _
  base _ := rfl
  lock hlock := absurd hlock h
  unwritten _ := rfl

/-- With the lock, nothing was committed since the snapshot. -/
theorem base_eq (h : Fits i s tx) (hlock : s.writer = some i) : tx.base = s.data :=
  h.base (h.lock hlock)

theorem executes (h : Fits i s tx) (hex : Executes i f s tx s' tx') :
    Fits i s' tx' ∧ tx'.base = tx.base ∧ f tx.view = some tx'.view := by
  cases hex with
  | idle hview => exact ⟨h, rfl, hview⟩
  | write view hlock hview =>
      refine ⟨⟨h.le, h.base, fun _ => ?_, fun hne => absurd rfl hne⟩, rfl, hview⟩
      rcases hlock with hi | ⟨-, hsame⟩
      · exact h.lock hi
      · exact hsame

theorem executes_other (h : Fits j s u) (hex : Executes i f s tx s' tx') (hj : j ≠ i) :
    Fits j s' u := by
  obtain ⟨hdata, hchanges⟩ := hex.data_eq
  refine ⟨hchanges ▸ h.le, fun he => ?_, fun hlock => ?_, fun hne => ?_⟩
  · rw [hdata]
    exact h.base (he.trans hchanges)
  · rw [hchanges]
    exact h.lock ((hex.writer_iff hj).1 hlock)
  · exact h.unwritten fun hlock => hne ((hex.writer_iff hj).2 hlock)

theorem rollback_other (h : Fits j s u) (hj : j ≠ i) : Fits j (s.rollback i) u := by
  refine ⟨?_, fun he => ?_, fun hlock => ?_, fun hne => ?_⟩
  · rw [Store.rollback_changes]
    exact h.le
  · rw [Store.rollback_data]
    exact h.base (he.trans (s.rollback_changes i))
  · rw [Store.rollback_changes]
    exact h.lock ((s.rollback_writer_iff hj).1 hlock)
  · exact h.unwritten fun hlock => hne ((s.rollback_writer_iff hj).2 hlock)

/-- A snapshot of before a commit can no longer be written on. -/
theorem commit_other (h : Fits j s u) (hj : j ≠ i) (tx : Tx σ) : Fits j (s.commit i tx) u := by
  by_cases hi : s.writer = some i
  · have hfree : s.writer ≠ some j := fun he => hj (Option.some.inj (he.symm.trans hi))
    rw [Store.commit, if_pos hi]
    refine ⟨Nat.le_succ_of_le h.le, fun he => ?_, nofun, fun _ => h.unwritten hfree⟩
    have hsince : u.changes = s.changes + 1 := he
    have hle := h.le
    omega
  · rw [Store.commit_of_not_writer hi]
    exact h

end Fits

end Deferred
