/-
# One record on a device

The versions a device holds of one record, with the outbox entries that point at its pending ones.
Every operation on the local tables works on the records one by one, and leaves the others alone.

The pending versions of a record are its chain: they are numbered without gaps above the synced
ones, in the order of their entries, they are all of one vault, only the first may be a purge, and
none deletes what is deleted already.

Main definitions:

* `RecordView`, `LocalDb.view` — a record on a device;
* `PendingMark`, `RecordView.marks` — what of a pending change decides how the server takes it;
* `RecordView.Chained` — the chain of a record is in order;
* `OutboxInvariant` — every chain is.
-/

import Mathlib.Data.List.Chain
import Passmgr.LocalSync

set_option relaxedAutoImplicit false
set_option autoImplicit false

namespace Passmgr

/-! ### Views -/

/-- A record on a device: its versions and its outbox entries. -/
structure RecordView where
  rows : List LocalRow
  entries : List OutboxEntry

/-- The outbox entries of a record. -/
def LocalDb.entriesOf (db : LocalDb) (recordId : RecordId) : List OutboxEntry :=
  db.outbox.filter (·.recordId = recordId)

def LocalDb.view (db : LocalDb) (recordId : RecordId) : RecordView where
  rows := db.rowsOf recordId
  entries := db.entriesOf recordId

/-- What of a pending change decides how the server takes it: the id and the number it is sent
with, its vault, and whether it deletes or purges the record. -/
structure PendingMark where
  changeId : ChangeId
  version : ℕ
  vaultId : VaultId
  isDelete : Bool
  isPurge : Bool
  deriving DecidableEq, Repr

/-- The mark of an entry and its row. -/
def pendingMark (entry : OutboxEntry) (row : LocalRow) : PendingMark where
  changeId := entry.changeId
  version := row.record.version
  vaultId := row.record.vaultId
  isDelete := row.record.deletedAt.isSome
  isPurge := row.record.tombstoneKind = some .purged

/-- A mark with a greater number. -/
def PendingMark.raise (shift : ℕ) (m : PendingMark) : PendingMark :=
  { m with version := m.version + shift }

@[simp] theorem raise_changeId (shift : ℕ) (m : PendingMark) :
    (m.raise shift).changeId = m.changeId := rfl

@[simp] theorem raise_version (shift : ℕ) (m : PendingMark) :
    (m.raise shift).version = m.version + shift := rfl

@[simp] theorem raise_zero (m : PendingMark) : m.raise 0 = m := rfl

theorem raise_raise (j k : ℕ) (m : PendingMark) : (m.raise j).raise k = m.raise (j + k) := by
  unfold PendingMark.raise
  rw [Nat.add_assoc]

/-- A version with a greater number. -/
def LocalRow.raise (shift : ℕ) (row : LocalRow) : LocalRow :=
  { row with record := { row.record with version := row.record.version + shift } }

@[simp] theorem raise_isPending (shift : ℕ) (row : LocalRow) :
    (row.raise shift).isPending = row.isPending := rfl

@[simp] theorem raise_isSynced (shift : ℕ) (row : LocalRow) :
    (row.raise shift).isSynced = row.isSynced := rfl

def OutboxEntry.raise (shift : ℕ) (entry : OutboxEntry) : OutboxEntry :=
  { entry with version := entry.version + shift }

/-- A pending change on top of another one: it is in the same vault, is no purge, and deletes
nothing that is deleted. -/
structure PendingMark.Follows (a b : PendingMark) : Prop where
  vault : b.vaultId = a.vaultId
  purge : b.isPurge = false
  delete : b.isDelete = true → a.isDelete = false

namespace RecordView

variable (v : RecordView)

/-- The pending versions. -/
def pending : List LocalRow := v.rows.filter (·.isPending)

/-- The pending changes in the order they were written. -/
def marks : List PendingMark := List.zipWith pendingMark v.entries v.pending

/-- The chain of a record starts at `first` and is in order. -/
structure Chained (first : ℕ) : Prop where
  pos : 1 ≤ first
  entries : v.entries.map (·.version) = List.range' first v.entries.length
  pending : v.pending.map (·.record.version) = List.range' first v.entries.length
  synced : ∀ row ∈ v.rows, row.isSynced = true → v.entries ≠ [] → row.record.version < first
  marks : v.marks.IsChain PendingMark.Follows

end RecordView

/-- The outbox of a device is in order. -/
structure OutboxInvariant (db : LocalDb) : Prop where
  seqs : (db.outbox.map (·.seq)).Pairwise (· < ·)
  changeIds : (db.outbox.map (·.changeId)).Nodup
  chains : ∀ recordId, ∃ first, (db.view recordId).Chained first

theorem isPending_or_isSynced (row : LocalRow) : row.isPending = true ∨ row.isSynced = true := by
  unfold LocalRow.isPending LocalRow.isSynced
  cases row.syncState <;> simp

theorem isSynced_eq_not (row : LocalRow) : row.isSynced = !row.isPending := by
  unfold LocalRow.isPending LocalRow.isSynced
  cases row.syncState <;> rfl

/-! ### Chains -/

namespace RecordView.Chained

variable {v : RecordView} {first : ℕ}

theorem length_pending (h : v.Chained first) : v.pending.length = v.entries.length := by
  have := congrArg List.length h.pending
  rwa [List.length_map, List.length_range'] at this

theorem length_marks (h : v.Chained first) : v.marks.length = v.entries.length := by
  unfold RecordView.marks
  rw [List.length_zipWith, h.length_pending, min_self]

theorem marks_eq_nil (h : v.Chained first) : v.marks = [] ↔ v.entries = [] := by
  rw [← List.length_eq_zero_iff, ← List.length_eq_zero_iff, h.length_marks]

/-- The ids of a chain are those of its entries. -/
theorem map_changeId_marks (h : v.Chained first) :
    v.marks.map (·.changeId) = v.entries.map (·.changeId) := by
  unfold RecordView.marks
  rw [List.map_zipWith]
  have hlen := h.length_pending
  generalize v.entries = entries at hlen
  generalize v.pending = rows at hlen
  induction entries generalizing rows with
  | nil => rfl
  | cons entry entries ih =>
      cases rows with
      | nil => cases hlen
      | cons row rows =>
          rw [List.zipWith_cons_cons, List.map_cons, ih rows (Nat.succ.inj hlen)]
          rfl

/-- The numbers of a chain are those of its rows. -/
theorem map_version_marks (h : v.Chained first) :
    v.marks.map (·.version) = List.range' first v.entries.length := by
  rw [← h.pending]
  unfold RecordView.marks
  rw [List.map_zipWith]
  have hlen := h.length_pending
  generalize v.entries = entries at hlen
  generalize v.pending = rows at hlen
  induction entries generalizing rows with
  | nil =>
      cases rows with
      | nil => rfl
      | cons row rows => cases hlen
  | cons entry entries ih =>
      cases rows with
      | nil => cases hlen
      | cons row rows =>
          rw [List.zipWith_cons_cons, List.map_cons, ih rows (Nat.succ.inj hlen)]
          rfl

/-- The numbers of the pending versions. -/
theorem version_mem (h : v.Chained first) {row : LocalRow} (hrow : row ∈ v.rows)
    (hpending : row.isPending = true) :
    first ≤ row.record.version ∧ row.record.version < first + v.entries.length := by
  have hmem : row.record.version ∈ v.pending.map (·.record.version) :=
    List.mem_map_of_mem (List.mem_filter.2 ⟨hrow, hpending⟩)
  rw [h.pending, List.mem_range'_1] at hmem
  exact hmem

/-- All versions are below the next number. -/
theorem version_lt (h : v.Chained first) (hne : v.entries ≠ []) {row : LocalRow}
    (hrow : row ∈ v.rows) : row.record.version < first + v.entries.length := by
  rcases isPending_or_isSynced row with hp | hs
  · exact (h.version_mem hrow hp).2
  · exact (h.synced row hrow hs hne).trans_le (Nat.le_add_right _ _)

end RecordView.Chained

/-- A record without pending versions and entries. -/
theorem chained_of_synced {v : RecordView} (hentries : v.entries = [])
    (hpending : v.pending = []) : v.Chained 1 where
  pos := le_rfl
  entries := by rw [hentries]; rfl
  pending := by rw [hentries, hpending]; rfl
  synced row hrow hs hne := absurd hentries hne
  marks := by
    unfold RecordView.marks
    rw [hentries]
    exact List.IsChain.nil

/-! ### What a view may become -/

namespace RecordView

/-- A view with one more pending version on top. -/
def append (v : RecordView) (entry : OutboxEntry) (row : LocalRow) : RecordView where
  rows := v.rows ++ [row]
  entries := v.entries ++ [entry]

theorem pending_append (v : RecordView) (entry : OutboxEntry) {row : LocalRow}
    (hrow : row.isPending = true) : (v.append entry row).pending = v.pending ++ [row] := by
  unfold append pending
  rw [List.filter_append, List.filter_cons_of_pos hrow, List.filter_nil]

theorem marks_append {v : RecordView} {first : ℕ} (h : v.Chained first) (entry : OutboxEntry)
    {row : LocalRow} (hrow : row.isPending = true) :
    (v.append entry row).marks = v.marks ++ [pendingMark entry row] := by
  unfold marks
  rw [pending_append v entry hrow]
  exact List.zipWith_append h.length_pending.symm

theorem Chained.append {v : RecordView} {first : ℕ} (h : v.Chained first) {entry : OutboxEntry}
    {row : LocalRow} (hrow : row.isPending = true) (hentry : entry.version = row.record.version)
    (habove : ∀ r ∈ v.rows, r.record.version < row.record.version)
    (hnext : v.entries ≠ [] → row.record.version = first + v.entries.length)
    (hpos : 1 ≤ row.record.version)
    (hfollows : ∀ m ∈ v.marks.getLast?, m.Follows (pendingMark entry row)) :
    ∃ first', (v.append entry row).Chained first' := by
  have hpending := pending_append v entry hrow
  have hchain : (v.append entry row).marks.IsChain PendingMark.Follows := by
    rw [marks_append h entry hrow, List.isChain_append]
    refine ⟨h.marks, List.isChain_singleton _, fun m hm b hb => ?_⟩
    obtain rfl : pendingMark entry row = b := by simpa using hb
    exact hfollows m hm
  by_cases hne : v.entries = []
  · -- the first pending version
    have hnil : v.pending = [] := by
      rw [← List.length_eq_zero_iff, h.length_pending, hne]
      rfl
    refine ⟨row.record.version, hpos, ?_, ?_, ?_, hchain⟩
    · simp [RecordView.append, hne, hentry]
    · rw [hpending, hnil]
      simp [RecordView.append, hne]
    · intro r hr hs _
      rcases List.mem_append.1 hr with hr | hr
      · exact habove r hr
      · obtain rfl := List.mem_singleton.1 hr
        rw [isSynced_eq_not, hrow] at hs
        cases hs
  · have hversion := hnext hne
    refine ⟨first, h.pos, ?_, ?_, ?_, hchain⟩
    · simp only [RecordView.append, List.map_append, h.entries, List.length_append,
        List.map_cons, List.map_nil, List.length_cons, List.length_nil, hentry, hversion]
      rw [← List.range'_append_1]
      rfl
    · rw [hpending, List.map_append, h.pending]
      simp only [RecordView.append, List.map_cons, List.map_nil, List.length_append,
        List.length_cons, List.length_nil, hversion]
      rw [← List.range'_append_1]
      rfl
    · intro r hr hs _
      rcases List.mem_append.1 hr with hr | hr
      · exact h.synced r hr hs hne
      · obtain rfl := List.mem_singleton.1 hr
        rw [isSynced_eq_not, hrow] at hs
        cases hs

/-- A view some of whose synced versions went. -/
theorem Chained.filter {v : RecordView} {first : ℕ} (h : v.Chained first) {p : LocalRow → Bool}
    (hp : ∀ row ∈ v.rows, row.isPending = true → p row = true) :
    ({ v with rows := v.rows.filter p } : RecordView).Chained first ∧
      ({ v with rows := v.rows.filter p } : RecordView).marks = v.marks := by
  have hpending : (v.rows.filter p).filter (·.isPending) = v.pending := by
    unfold RecordView.pending
    rw [List.filter_filter]
    refine List.filter_congr fun row hrow => ?_
    cases hpend : row.isPending with
    | false => rfl
    | true => rw [hp row hrow hpend]; rfl
  have hmarks : ({ v with rows := v.rows.filter p } : RecordView).marks = v.marks := by
    unfold RecordView.marks RecordView.pending
    rw [hpending]
    rfl
  refine ⟨⟨h.pos, h.entries, ?_, ?_, ?_⟩, hmarks⟩
  · change ((v.rows.filter p).filter (·.isPending)).map _ = _
    rw [hpending]
    exact h.pending
  · intro row hrow
    exact h.synced row (List.mem_filter.1 hrow).1
  · rw [hmarks]
    exact h.marks

/-- A view with a server row stored in it. -/
def store (v : RecordView) (record : EncryptedRecord) : RecordView :=
  { v with
    rows := v.rows.filter (fun r => r.record.version ≠ record.version) ++
      [{ record := record, syncState := .synced }] }

/-- A server row below the chain is stored without touching it. -/
theorem Chained.store {v : RecordView} {first : ℕ} (h : v.Chained first)
    {record : EncryptedRecord} (hbelow : v.entries ≠ [] → record.version < first) :
    (v.store record).Chained first ∧ (v.store record).marks = v.marks := by
  have hkeep : ∀ row ∈ v.rows, row.isPending = true →
      decide (row.record.version ≠ record.version) = true := by
    intro row hrow hp
    have hne : v.entries ≠ [] := by
      intro hnil
      have := h.version_mem hrow hp
      rw [hnil] at this
      simp at this
      omega
    have := (h.version_mem hrow hp).1
    have := hbelow hne
    rw [decide_eq_true_eq]
    omega
  obtain ⟨hfilter, hmarks⟩ := h.filter hkeep
  have hpending : (v.store record).pending =
      ({ v with rows := v.rows.filter fun r => r.record.version ≠ record.version } :
        RecordView).pending := by
    unfold RecordView.store RecordView.pending
    rw [List.filter_append]
    exact List.append_nil _
  have hsame : (v.store record).marks = v.marks := by
    rw [← hmarks]
    unfold RecordView.marks
    rw [hpending]
    rfl
  refine ⟨⟨h.pos, h.entries, ?_, ?_, ?_⟩, hsame⟩
  · rw [hpending]
    exact hfilter.pending
  · intro row hrow hs hne
    rcases List.mem_append.1 hrow with hrow | hrow
    · exact h.synced row (List.mem_filter.1 hrow).1 hs hne
    · obtain rfl := List.mem_singleton.1 hrow
      exact hbelow hne
  · rw [hsame]
    exact h.marks

/-- The first of a numbered list is the one with the first number. -/
theorem filter_ne_first {α : Type} {f : α → ℕ} {xs : List α} {n len : ℕ}
    (h : xs.map f = List.range' n len) : xs.filter (fun x => f x ≠ n) = xs.tail := by
  cases xs with
  | nil => rfl
  | cons x xs =>
      cases len with
      | zero => simp at h
      | succ len =>
          rw [List.map_cons, List.range'_succ] at h
          obtain ⟨hx, hxs⟩ := List.cons.inj h
          rw [List.filter_cons_of_neg (by simp [hx]), List.tail_cons, List.filter_eq_self]
          intro y hy
          have hmem : f y ∈ xs.map f := List.mem_map_of_mem hy
          rw [hxs, List.mem_range'_1] at hmem
          rw [decide_eq_true_eq]
          omega

/-- A chain without its first change, whose version is synced now or gone. -/
theorem Chained.tail {v : RecordView} {first : ℕ} (h : v.Chained first) {rows : List LocalRow}
    (hpending : rows.filter (·.isPending) = v.pending.tail)
    (hsynced : ∀ row ∈ rows, row.isSynced = true → row.record.version < first + 1) :
    ({ rows := rows, entries := v.entries.tail } : RecordView).Chained (first + 1) ∧
      ({ rows := rows, entries := v.entries.tail } : RecordView).marks = v.marks.tail := by
  have htail : ∀ len, (List.range' first len).tail = List.range' (first + 1) (len - 1) := by
    intro len
    cases len <;> rfl
  have hmarks : ({ rows := rows, entries := v.entries.tail } : RecordView).marks =
      v.marks.tail := by
    unfold RecordView.marks RecordView.pending
    rw [hpending, List.tail_zipWith]
    rfl
  refine ⟨⟨Nat.le_add_left 1 first, ?_, ?_, fun row hrow hs _ => hsynced row hrow hs, ?_⟩,
    hmarks⟩
  · dsimp only
    rw [List.map_tail, h.entries, htail, List.length_tail]
  · unfold RecordView.pending
    dsimp only
    rw [hpending, List.map_tail, h.pending, htail, List.length_tail]
  · rw [hmarks]
    exact h.marks.tail

/-- The row a server answered for the first change replaces it. -/
theorem Chained.ack {v : RecordView} {first : ℕ} (h : v.Chained first)
    (hne : v.entries ≠ []) {record : EncryptedRecord} (hle : record.version ≤ first) :
    let acked : RecordView := {
      rows := v.rows.filter fun row => row.record.version ≠ first
      entries := v.entries.tail }
    (acked.store record).Chained (first + 1) ∧ (acked.store record).marks = v.marks.tail := by
  have hpending : (v.rows.filter fun row => row.record.version ≠ first).filter (·.isPending) =
      v.pending.tail := by
    rw [← filter_ne_first h.pending]
    unfold RecordView.pending
    rw [List.filter_filter, List.filter_filter]
    refine List.filter_congr fun row _ => ?_
    rw [Bool.and_comm]
  obtain ⟨hchained, hmarks⟩ := h.tail hpending fun row hrow hs =>
    (h.synced row (List.mem_filter.1 hrow).1 hs hne).trans (Nat.lt_succ_self first)
  have hbelow : v.entries.tail ≠ [] → record.version < first + 1 := fun _ =>
    Nat.lt_succ_of_le hle
  obtain ⟨hstore, hmarks'⟩ := hchained.store hbelow
  exact ⟨hstore, hmarks'.trans hmarks⟩

/-- The first change has nothing to store on the server. -/
theorem Chained.ackNull {v : RecordView} {first : ℕ} (h : v.Chained first)
    (hne : v.entries ≠ []) :
    let acked : RecordView := {
      rows := v.rows.map fun row =>
        if row.record.version = first then { row with syncState := .synced } else row
      entries := v.entries.tail }
    acked.Chained (first + 1) ∧ acked.marks = v.marks.tail := by
  refine h.tail ?_ ?_
  · rw [← filter_ne_first h.pending]
    unfold RecordView.pending
    generalize v.rows = rows
    induction rows with
    | nil => rfl
    | cons row rows ih =>
        rw [List.map_cons]
        by_cases hv : row.record.version = first
        · rw [if_pos hv, List.filter_cons_of_neg (by simp [LocalRow.isPending]), ih]
          by_cases hp : row.isPending = true
          · rw [List.filter_cons_of_pos hp, List.filter_cons_of_neg (by simp [hv])]
          · rw [List.filter_cons_of_neg hp]
        · rw [if_neg hv]
          by_cases hp : row.isPending = true
          · rw [List.filter_cons_of_pos hp, List.filter_cons_of_pos hp,
              List.filter_cons_of_pos (by simp [hv]), ih]
          · rw [List.filter_cons_of_neg hp, List.filter_cons_of_neg hp, ih]
  · intro row hrow hs
    obtain ⟨r, hr, rfl⟩ := List.mem_map.1 hrow
    by_cases hv : r.record.version = first
    · rw [if_pos hv]
      exact hv ▸ Nat.lt_succ_self _
    · rw [if_neg hv] at hs ⊢
      exact (h.synced r hr hs hne).trans (Nat.lt_succ_self first)

/-- A view whose chain moved up. -/
def shift (v : RecordView) (n : ℕ) : RecordView where
  rows := v.rows.map fun row => if row.isPending then row.raise n else row
  entries := v.entries.map (·.raise n)

theorem pending_shift (v : RecordView) (n : ℕ) :
    (v.shift n).pending = v.pending.map (·.raise n) := by
  unfold shift pending
  generalize v.rows = rows
  induction rows with
  | nil => rfl
  | cons row rows ih =>
      dsimp only at ih ⊢
      rw [List.map_cons]
      by_cases hp : row.isPending = true
      · rw [if_pos hp, List.filter_cons_of_pos (by exact hp), List.filter_cons_of_pos hp, ih,
          List.map_cons]
      · rw [if_neg hp, List.filter_cons_of_neg hp, List.filter_cons_of_neg hp, ih]

theorem marks_shift (v : RecordView) (n : ℕ) :
    (v.shift n).marks = v.marks.map (·.raise n) := by
  unfold marks
  rw [pending_shift]
  unfold shift
  rw [List.zipWith_map, List.map_zipWith]
  rfl

theorem Chained.shift {v : RecordView} {first : ℕ} (h : v.Chained first) (n : ℕ) :
    (v.shift n).Chained (first + n) where
  pos := h.pos.trans (Nat.le_add_right first n)
  entries := by
    unfold RecordView.shift
    dsimp only
    rw [List.map_map, List.length_map, Nat.add_comm, ← List.map_add_range', ← h.entries,
      List.map_map]
    refine List.map_congr_left fun entry _ => ?_
    exact Nat.add_comm _ _
  pending := by
    rw [pending_shift]
    unfold RecordView.shift
    dsimp only
    rw [List.map_map, List.length_map, Nat.add_comm, ← List.map_add_range', ← h.pending,
      List.map_map]
    refine List.map_congr_left fun row _ => ?_
    exact Nat.add_comm _ _
  synced row hrow hs hne := by
    obtain ⟨r, hr, rfl⟩ := List.mem_map.1 hrow
    by_cases hp : r.isPending = true
    · rw [if_pos hp, raise_isSynced, isSynced_eq_not, hp] at hs
      cases hs
    · rw [if_neg hp] at hs ⊢
      refine (h.synced r hr hs ?_).trans_le (Nat.le_add_right first n)
      rintro hnil
      exact hne (by unfold RecordView.shift; rw [hnil]; rfl)
  marks := by
    rw [marks_shift, List.isChain_map]
    exact h.marks.imp fun a b hab => ⟨hab.vault, hab.purge, hab.delete⟩

end RecordView

end Passmgr
