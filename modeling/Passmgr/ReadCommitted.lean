/-
# Transactions under READ COMMITTED

Transactions over a database of any type, interleaved statement by statement.  A statement sees what
is committed when it runs, with the transaction's own writes on top; it first takes row locks, and
waits while another transaction holds one of them; locks are held and writes stay invisible to the
others until the transaction commits.

Invariants of the committed states are proved by rely and guarantee: for every set of held locks
there is a relation that says how the others may change the database meanwhile.

Main definitions:

* `ReadCommitted.Prog` — a transaction, statement by statement;
* `ReadCommitted.Step` — starting, running a statement, committing and aborting;
* `ReadCommitted.Rely`, `ReadCommitted.Ok` — what a transaction may count on, and a transaction
  that keeps an invariant and its part of the deal;

Main results:

* `ReadCommitted.invariant_of_ok` — an invariant that every transaction keeps on its own holds in
  every committed state of every interleaving;
* `ReadCommitted.reaches_alone` — a transaction runs to its end while nobody holds a lock.
-/

import Mathlib.Data.Nat.Notation
import Mathlib.Logic.Function.Basic
import Passmgr.Run

set_option relaxedAutoImplicit false
set_option autoImplicit false

namespace ReadCommitted

variable {σ L : Type}

/-- A transaction.  A statement takes locks and writes, and its result decides how to go on; all of
this depends on what the statement sees.  What it `expects` to see has no effect: it records what
the transaction takes for granted at that point, from what it read before. -/
inductive Prog (σ L : Type)
  | commit
  | abort
  | stmt (expects : σ → Prop) (locks : σ → List L) (write : σ → σ → σ) (next : σ → Prog σ L)

namespace Prog

/-- A statement that only reads. -/
def read (next : σ → Prog σ L) : Prog σ L :=
  .stmt (fun _ => True) (fun _ => []) (fun _ db => db) next

/-- A statement that only takes locks. -/
def lock (locks : σ → List L) (next : Prog σ L) : Prog σ L :=
  .stmt (fun _ => True) locks (fun _ db => db) fun _ => next

/-- A statement that writes rows it locks. -/
def write (locks : σ → List L) (write : σ → σ → σ) (next : Prog σ L) : Prog σ L :=
  .stmt (fun _ => True) locks write fun _ => next

end Prog

/-- A running transaction: what is left of it, its writes and its locks. -/
structure Tx (σ L : Type) where
  prog : Prog σ L
  pending : σ → σ
  held : List L

/-- A transaction that has not run a statement yet. -/
def Tx.new (prog : Prog σ L) : Tx σ L where
  prog := prog
  pending := id
  held := []

/-- The committed database and the running transactions. -/
structure State (σ L : Type) where
  committed : σ
  txs : ℕ → Option (Tx σ L)

/-- The transaction `i` becomes `tx`. -/
def State.set (s : State σ L) (i : ℕ) (tx : Option (Tx σ L)) : State σ L :=
  { s with txs := Function.update s.txs i tx }

@[simp] theorem State.txs_set_self (s : State σ L) (i : ℕ) (tx : Option (Tx σ L)) :
    (s.set i tx).txs i = tx := by
  simp only [State.set, Function.update_self]

theorem State.set_set (s : State σ L) (i : ℕ) (tx tx' : Option (Tx σ L)) :
    (s.set i tx).set i tx' = s.set i tx' := by
  simp only [State.set, Function.update_idem]

/-- No other transaction holds one of the locks. -/
def State.Free (s : State σ L) (i : ℕ) (locks : List L) : Prop :=
  ∀ j tx, j ≠ i → s.txs j = some tx → ∀ l ∈ locks, l ∉ tx.held

/-- The transaction after a statement it ran on `view`. -/
def Tx.next (tx : Tx σ L) (locks : σ → List L) (write : σ → σ → σ) (next : σ → Prog σ L)
    (view : σ) : Tx σ L where
  prog := next view
  pending := write view ∘ tx.pending
  held := locks view ++ tx.held

/-- One step of an interleaving of transactions `ops` allows.  When `asExpected`, a statement only
runs where it finds what it expects.  A transaction may be aborted at any time. -/
inductive Step (ops : Prog σ L → Prop) (asExpected : Prop) (s : State σ L) : State σ L → Prop
  | start (i : ℕ) (prog : Prog σ L) (hfree : s.txs i = none) (hop : ops prog) :
      Step ops asExpected s (s.set i (some (Tx.new prog)))
  | exec (i : ℕ) (tx : Tx σ L) (expects : σ → Prop) (locks : σ → List L) (write : σ → σ → σ)
      (next : σ → Prog σ L) (htx : s.txs i = some tx)
      (hprog : tx.prog = .stmt expects locks write next)
      (hlocks : s.Free i (locks (tx.pending s.committed)))
      (hexpects : asExpected → expects (tx.pending s.committed)) :
      Step ops asExpected s
        (s.set i (some (tx.next locks write next (tx.pending s.committed))))
  | commit (i : ℕ) (tx : Tx σ L) (htx : s.txs i = some tx) (hprog : tx.prog = .commit) :
      Step ops asExpected s { s.set i none with committed := tx.pending s.committed }
  | abort (i : ℕ) (tx : Tx σ L) (htx : s.txs i = some tx) :
      Step ops asExpected s (s.set i none)

/-! ### Rely and guarantee -/

/-- How the database may change while locks are held. -/
structure Rely (σ L : Type) where
  rel : List L → σ → σ → Prop
  refl : ∀ held db, rel held db db
  trans : ∀ held a b c, rel held a b → rel held b c → rel held a c

/-- A transaction that keeps the invariant when it commits and changes nothing that another one,
with other locks, counts on, whatever the others do meanwhile. -/
def Ok (R : Rely σ L) (Inv : σ → Prop) : Prog σ L → (σ → σ) → List L → σ → Prop
  | .commit, pending, held, db =>
    ∀ db', R.rel held db db' → Inv db' →
      Inv (pending db') ∧ ∀ ls, (∀ l ∈ ls, l ∉ held) → R.rel ls db' (pending db')
  | .abort, _, _, _ => True
  | .stmt expects locks write next, pending, held, db =>
    ∀ db', R.rel held db db' → Inv db' → expects (pending db') →
      Ok R Inv (next (pending db')) (write (pending db') ∘ pending)
        (locks (pending db') ++ held) db'

section Rules

variable {R : Rely σ L} {Inv : σ → Prop} {pending : σ → σ} {held : List L} {db : σ}

/-- What the others do does not make a transaction go wrong. -/
theorem Ok.mono {prog : Prog σ L} {db' : σ} (h : Ok R Inv prog pending held db)
    (hr : R.rel held db db') : Ok R Inv prog pending held db' := by
  cases prog with
  | commit =>
      intro db'' hr'' hinv
      exact h db'' (R.trans held _ _ _ hr hr'') hinv
  | abort => trivial
  | stmt expects locks write next =>
      intro db'' hr'' hinv hexp
      exact h db'' (R.trans held _ _ _ hr hr'') hinv hexp

theorem ok_read {next : σ → Prog σ L}
    (h : ∀ db', R.rel held db db' → Inv db' → Ok R Inv (next (pending db')) pending held db') :
    Ok R Inv (.read next) pending held db := fun db' hr hinv _ => h db' hr hinv

theorem ok_lock {locks : σ → List L} {next : Prog σ L}
    (h : ∀ db', R.rel held db db' → Inv db' →
      Ok R Inv next pending (locks (pending db') ++ held) db') :
    Ok R Inv (.lock locks next) pending held db := fun db' hr hinv _ => h db' hr hinv

theorem ok_write {locks : σ → List L} {write : σ → σ → σ} {next : Prog σ L}
    (h : ∀ db', R.rel held db db' → Inv db' →
      Ok R Inv next (write (pending db') ∘ pending) (locks (pending db') ++ held) db') :
    Ok R Inv (.write locks write next) pending held db := fun db' hr hinv _ => h db' hr hinv

end Rules

/-- The invariant holds of what is committed, every transaction is on course, and no lock is held
twice. -/
structure Good (R : Rely σ L) (Inv : σ → Prop) (s : State σ L) : Prop where
  inv : Inv s.committed
  ok : ∀ i tx, s.txs i = some tx → Ok R Inv tx.prog tx.pending tx.held s.committed
  locks : ∀ i j tx tx', i ≠ j → s.txs i = some tx → s.txs j = some tx' →
    ∀ l ∈ tx.held, l ∉ tx'.held

theorem Good.step {R : Rely σ L} {Inv : σ → Prop} {ops : Prog σ L → Prop}
    (hops : ∀ prog db, ops prog → Inv db → Ok R Inv prog id [] db) {s t : State σ L}
    (hs : Good R Inv s) (hst : Step ops True s t) : Good R Inv t := by
  have hset : ∀ {i j : ℕ} {tx tx' : Option (Tx σ L)}, (s.set i tx).txs j = tx' →
      (j = i ∧ tx' = tx) ∨ (j ≠ i ∧ s.txs j = tx') := by
    intro i j tx tx' h
    by_cases hij : j = i
    · subst hij
      exact Or.inl ⟨rfl, by rw [← h, State.set]; simp⟩
    · refine Or.inr ⟨hij, ?_⟩
      rw [← h, State.set]
      simp [hij]
  cases hst with
  | start i prog hfree hop =>
      refine ⟨hs.inv, ?_, ?_⟩
      · intro j tx hj
        rcases hset hj with ⟨rfl, htx⟩ | ⟨-, hj⟩
        · obtain rfl := Option.some.inj htx
          exact hops prog _ hop hs.inv
        · exact hs.ok j tx hj
      · intro j k tx tx' hjk hj hk l hl
        rcases hset hj with ⟨rfl, htx⟩ | ⟨-, hj⟩
        · obtain rfl := Option.some.inj htx
          simp [Tx.new] at hl
        · rcases hset hk with ⟨rfl, htx'⟩ | ⟨-, hk⟩
          · obtain rfl := Option.some.inj htx'
            simp [Tx.new]
          · exact hs.locks j k tx tx' hjk hj hk l hl
  | exec i tx₀ expects locks write next htx₀ hprog hlocks hexpects =>
      have hok := hs.ok i tx₀ htx₀
      rw [hprog] at hok
      refine ⟨hs.inv, ?_, ?_⟩
      · intro j tx hj
        rcases hset hj with ⟨rfl, htx⟩ | ⟨-, hj⟩
        · obtain rfl := Option.some.inj htx
          exact hok _ (R.refl _ _) hs.inv (hexpects trivial)
        · exact hs.ok j tx hj
      · intro j k tx tx' hjk hj hk l hl
        rcases hset hj with ⟨rfl, htx⟩ | ⟨hji, hj'⟩
        · obtain rfl := Option.some.inj htx
          rcases hset hk with ⟨rfl, -⟩ | ⟨hkj, hk⟩
          · exact absurd rfl hjk
          · rcases List.mem_append.1 hl with hl | hl
            · exact hlocks k tx' hkj hk l hl
            · exact hs.locks j k tx₀ tx' hjk htx₀ hk l hl
        · rcases hset hk with ⟨rfl, htx'⟩ | ⟨-, hk⟩
          · obtain rfl := Option.some.inj htx'
            intro hmem
            rcases List.mem_append.1 hmem with hmem | hmem
            · exact hlocks j tx hji hj' l hmem hl
            · exact hs.locks j k tx tx₀ hjk hj' htx₀ l hl hmem
          · exact hs.locks j k tx tx' hjk hj' hk l hl
  | commit i tx₀ htx₀ hprog =>
      have hok := hs.ok i tx₀ htx₀
      rw [hprog] at hok
      obtain ⟨hinv, hguar⟩ := hok _ (R.refl _ _) hs.inv
      refine ⟨hinv, ?_, ?_⟩
      · intro j tx hj
        rcases hset hj with ⟨rfl, htx⟩ | ⟨hji, hj⟩
        · simp at htx
        · -- the locks of the others are not those of the one that commits
          exact (hs.ok j tx hj).mono (hguar tx.held (hs.locks j i tx tx₀ hji hj htx₀))
      · intro j k tx tx' hjk hj hk l hl
        rcases hset hj with ⟨rfl, htx⟩ | ⟨-, hj⟩
        · simp at htx
        · rcases hset hk with ⟨rfl, htx'⟩ | ⟨-, hk⟩
          · simp at htx'
          · exact hs.locks j k tx tx' hjk hj hk l hl
  | abort i tx₀ htx₀ =>
      refine ⟨hs.inv, ?_, ?_⟩
      · intro j tx hj
        rcases hset hj with ⟨rfl, htx⟩ | ⟨-, hj⟩
        · simp at htx
        · exact hs.ok j tx hj
      · intro j k tx tx' hjk hj hk l hl
        rcases hset hj with ⟨rfl, htx⟩ | ⟨-, hj⟩
        · simp at htx
        · rcases hset hk with ⟨rfl, htx'⟩ | ⟨-, hk⟩
          · simp at htx'
          · exact hs.locks j k tx tx' hjk hj hk l hl

/-- No transaction is running. -/
def State.quiet (db : σ) : State σ L where
  committed := db
  txs := fun _ => none

/-- **An invariant that every transaction keeps on its own** holds in every committed state of
every interleaving whose statements find what they expect. -/
theorem invariant_of_ok (R : Rely σ L) {Inv : σ → Prop} {ops : Prog σ L → Prop}
    (hops : ∀ prog db, ops prog → Inv db → Ok R Inv prog id [] db) {db : σ} (hdb : Inv db)
    {t : State σ L} (h : Run.Reaches (Step ops True) (State.quiet db) t) : Inv t.committed := by
  have hgood : Good R Inv (State.quiet db : State σ L) :=
    ⟨hdb, fun i tx h => by simp [State.quiet] at h, fun i j tx _ _ h => by simp [State.quiet] at h⟩
  exact (Run.invariant (fun _ _ hs hst => hs.step hops hst) h hgood).inv

/-! ### A transaction that is not interrupted -/

/-- What a transaction commits when no other one runs a statement meanwhile. -/
def Prog.alone : Prog σ L → (σ → σ) → σ → Option σ
  | .commit, pending, db => some (pending db)
  | .abort, _, _ => none
  | .stmt _ _ write next, pending, db =>
    (next (pending db)).alone (write (pending db) ∘ pending) db

/-- What a transaction does to a database when it is the only one. -/
def Prog.exec (prog : Prog σ L) (db : σ) : Option σ := prog.alone id db

theorem Prog.alone_eq_exec (prog : Prog σ L) (pending : σ → σ) (db : σ) :
    prog.alone pending db = prog.exec (pending db) := by
  induction prog generalizing pending db with
  | commit => rfl
  | abort => rfl
  | stmt expects locks write next ih =>
      exact (ih (pending db) _ db).trans
        (ih (pending db) (write (pending db) ∘ id) (pending db)).symm

@[simp] theorem Prog.exec_commit (db : σ) : (Prog.commit : Prog σ L).exec db = some db := rfl

@[simp] theorem Prog.exec_abort (db : σ) : (Prog.abort : Prog σ L).exec db = none := rfl

theorem Prog.exec_stmt (expects : σ → Prop) (locks : σ → List L) (write : σ → σ → σ)
    (next : σ → Prog σ L) (db : σ) :
    (Prog.stmt expects locks write next).exec db = (next db).exec (write db db) :=
  Prog.alone_eq_exec (next db) (write db ∘ id) db

@[simp] theorem Prog.exec_read (next : σ → Prog σ L) (db : σ) :
    (Prog.read next).exec db = (next db).exec db :=
  Prog.exec_stmt _ _ _ _ _

@[simp] theorem Prog.exec_lock (locks : σ → List L) (next : Prog σ L) (db : σ) :
    (Prog.lock locks next).exec db = next.exec db :=
  Prog.exec_stmt _ _ _ _ _

@[simp] theorem Prog.exec_write (locks : σ → List L) (write : σ → σ → σ) (next : Prog σ L) (db : σ) :
    (Prog.write locks write next).exec db = next.exec (write db db) :=
  Prog.exec_stmt _ _ _ _ _

/-- Its statements find what they expect. -/
def Prog.AsExpected : Prog σ L → (σ → σ) → σ → Prop
  | .commit, _, _ => True
  | .abort, _, _ => True
  | .stmt expects _ write next, pending, db =>
    expects (pending db) ∧ (next (pending db)).AsExpected (write (pending db) ∘ pending) db

/-- A transaction runs to its commit while the others hold no locks. -/
theorem reaches_alone {ops : Prog σ L → Prop} {asExpected : Prop} {s : State σ L} {i : ℕ}
    {prog : Prog σ L} {pending : σ → σ} {held : List L} {db : σ}
    (htx : s.txs i = some { prog := prog, pending := pending, held := held })
    (hother : ∀ j tx, j ≠ i → s.txs j = some tx → tx.held = [])
    (hexpects : asExpected → prog.AsExpected pending s.committed)
    (h : prog.alone pending s.committed = some db) :
    Run.Reaches (Step ops asExpected) s { s.set i none with committed := db } := by
  induction prog generalizing s pending held with
  | commit =>
      obtain rfl := Option.some.inj h
      exact .single (.commit i _ htx rfl)
  | abort => cases h
  | stmt expects locks write next ih =>
      have hfree : s.Free i (locks (pending s.committed)) := by
        intro j tx hj htx' l _ hmem
        rw [hother j tx hj htx'] at hmem
        cases hmem
      have hstep : Step ops asExpected s _ :=
        .exec i _ expects locks write next htx rfl hfree fun ha => (hexpects ha).1
      refine .head hstep ?_
      have htx' : (s.set i (some (Tx.next ⟨.stmt expects locks write next, pending, held⟩ locks
          write next (pending s.committed)))).txs i = some {
            prog := next (pending s.committed)
            pending := write (pending s.committed) ∘ pending
            held := locks (pending s.committed) ++ held } := by
        simp [State.set, Tx.next]
      have hrest := ih (pending s.committed) htx' ?_ (fun ha => (hexpects ha).2) h
      · simpa [State.set] using hrest
      · intro j tx hj htx''
        simp only [State.set, Function.update_of_ne hj] at htx''
        exact hother j tx hj htx''

/-- A transaction starts and runs to its commit while the others hold no locks. -/
theorem reaches_start_alone {ops : Prog σ L → Prop} {asExpected : Prop} {s : State σ L} (i : ℕ)
    {prog : Prog σ L} {db : σ} (hfree : s.txs i = none) (hop : ops prog)
    (hother : ∀ j tx, s.txs j = some tx → tx.held = [])
    (hexpects : asExpected → prog.AsExpected id s.committed)
    (h : prog.alone id s.committed = some db) :
    Run.Reaches (Step ops asExpected) s { s with committed := db } := by
  have hstart : Step ops asExpected s (s.set i (some (Tx.new prog))) := .start i prog hfree hop
  have htx : (s.set i (some (Tx.new prog))).txs i = some (Tx.new prog) := s.txs_set_self i _
  have hother' : ∀ j tx, j ≠ i → (s.set i (some (Tx.new prog))).txs j = some tx →
      tx.held = [] := by
    intro j tx hj htx'
    simp only [State.set, Function.update_of_ne hj] at htx'
    exact hother j tx htx'
  have hrun : Run.Reaches (Step ops asExpected) _ _ := reaches_alone htx hother' hexpects h
  have hdone : (s.set i (some (Tx.new prog))).set i none = s := by
    rw [State.set_set, State.set, ← hfree, Function.update_eq_self]
  rw [hdone] at hrun
  exact .head hstart hrun

end ReadCommitted
