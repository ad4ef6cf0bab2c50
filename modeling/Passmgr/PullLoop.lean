/-
# A pull misses nothing

Whatever pushes commit between the pages of a pull and between its statements, a device has received
every stored row of a vault up to its cursor.  What it has not received and the server dropped lies
below a purge that it has received or that comes after its cursor.

A purge that a later purge dropped need not be received, also where its seq is below the cursor: a
page may end right before the later one.

Main definitions:

* `CompleteUpTo` — every stored row of a vault up to a seq is among some rows;
* `PullInvariant` — the invariant of a pull;

Main results:

* `pull_complete` — the cursors of a device are complete, pages move them, and the loop ends;
* `purge_not_received` — a row dropped by a purge that is neither received nor past the cursor.
-/

import Mathlib.Algebra.Order.BigOperators.Group.List
import Mathlib.Algebra.Order.Ring.Nat
import Mathlib.Data.Prod.Lex
import Passmgr.Run
import Passmgr.SyncPage

set_option relaxedAutoImplicit false
set_option autoImplicit false

namespace Passmgr

/-! ### Stored rows and their seqs -/

namespace StoreInvariant

variable {s t : Store}

/-- The seqs of a vault count what was written into it. -/
theorem map_seq_writtenIn (hs : StoreInvariant s) (vaultId : VaultId) :
    (writtenIn s.written vaultId).map (·.seq) =
      List.range' 1 (writtenIn s.written vaultId).length := by
  cases hrows : writtenIn s.written vaultId with
  | nil => rfl
  | cons row rows =>
      have hrow : row ∈ writtenIn s.written vaultId := by
        rw [hrows]
        exact List.mem_cons_self
      rw [mem_writtenIn] at hrow
      obtain ⟨v, hv, hid⟩ := hs.has_vault row hrow.1
      have hseqs := hs.seqs v hv
      rw [hid, hrow.2, hrows] at hseqs
      have hlength := congrArg List.length hseqs
      rw [List.length_map, List.length_range'] at hlength
      rw [hseqs, hlength]

/-- A seq of a vault stands for one row. -/
theorem eq_of_seq (hs : StoreInvariant s) {a b : RecordRow} (ha : a ∈ s.db.records)
    (hb : b ∈ s.db.records) (hv : a.vaultId = b.vaultId) (hseq : a.seq = b.seq) : a = b :=
  List.inj_on_of_nodup_map hs.unique.2.1 ha hb (by rw [hv, hseq])

/-- A row with a seq that was handed out before was written before. -/
theorem mem_written_of_seq_le (ht : StoreInvariant t)
    (hgrows : s.written <+: t.written) {row : RecordRow} (hrow : row ∈ t.written)
    (hseq : row.seq ≤ (writtenIn s.written row.vaultId).length) : row ∈ s.written := by
  obtain ⟨more, hmore⟩ := hgrows
  rw [← hmore] at hrow
  rcases List.mem_append.1 hrow with hrow | hnew
  · exact hrow
  · exfalso
    have hseqs := ht.map_seq_writtenIn row.vaultId
    rw [← hmore, writtenIn_append, List.map_append, List.length_append,
      ← List.range'_append_1] at hseqs
    have hnewseqs := (List.append_inj hseqs (by simp)).2
    have hmem : row.seq ∈ (writtenIn more row.vaultId).map (·.seq) :=
      List.mem_map_of_mem (mem_writtenIn.2 ⟨hnew, rfl⟩)
    rw [hnewseqs, List.mem_range'_1] at hmem
    omega

/-- What was dropped does not come back. -/
theorem mem_of_mem_written (hs : StoreInvariant s) (ht : StoreInvariant t)
    (hgrows : s.written <+: t.written) {row : RecordRow} (hrow : row ∈ t.db.records)
    (hold : row ∈ s.written) : row ∈ s.db.records := by
  obtain ⟨more, hmore⟩ := hgrows
  have hmem := ht.stored_of_mem hrow
  have hpairs := pairwise_version_of_chained (ht.chained row.recordId)
  rw [← hmore, writtenOf_append] at hmem hpairs
  have hlog : row ∈ writtenOf s.written row.recordId := mem_writtenOf.2 ⟨hold, rfl⟩
  have hnew : row ∉ writtenOf more row.recordId := fun h =>
    absurd ((List.pairwise_append.1 hpairs).2.2 row hlog row h) (lt_irrefl _)
  cases hany : (writtenOf more row.recordId).any RecordRow.isPurged with
  | true =>
      rw [CutLog.cut_append_of_any _ _ hany] at hmem
      exact absurd (CutLog.mem_of_mem_cut _ hmem) hnew
  | false =>
      rw [CutLog.cut_append_of_none _ _ hany] at hmem
      rcases List.mem_append.1 hmem with hcut | hmore
      · rw [← hs.stored] at hcut
        exact (Db.mem_rowsOf.1 hcut).1
      · exact absurd hmore hnew

/-- A row that is not stored any more lies below a purge that is. -/
theorem exists_purge_of_dropped (hs : StoreInvariant s) {row : RecordRow} (hrow : row ∈ s.written)
    (hdropped : row ∉ s.db.records) :
    ∃ purge ∈ s.db.records, purge.recordId = row.recordId ∧ purge.vaultId = row.vaultId ∧
      purge.isPurged = true ∧ row.version < purge.version := by
  have hlog : row ∈ writtenOf s.written row.recordId := mem_writtenOf.2 ⟨hrow, rfl⟩
  have hcut : CutLog.cut RecordRow.isPurged (writtenOf s.written row.recordId) ≠
      writtenOf s.written row.recordId := by
    intro heq
    rw [← heq, ← hs.stored] at hlog
    exact hdropped (Db.mem_rowsOf.1 hlog).1
  obtain ⟨purge, rest, hhead, hpurged⟩ := CutLog.head_cut _ hcut
  have hpurge : purge ∈ s.db.rowsOf row.recordId := by
    rw [hs.stored, hhead]
    exact List.mem_cons_self
  obtain ⟨hmem, hid⟩ := Db.mem_rowsOf.1 hpurge
  refine ⟨purge, hmem, hid, ?_, hpurged, ?_⟩
  · exact hs.one_vault row.recordId purge (mem_writtenOf.2 ⟨hs.mem_written hmem, hid⟩) row hlog
  · -- the versions ascend along the log, and the row is in the part that was cut off
    obtain ⟨pre, hpre⟩ := CutLog.cut_suffix RecordRow.isPurged (writtenOf s.written row.recordId)
    have hpairs := pairwise_version_of_chained (hs.chained row.recordId)
    rw [← hpre] at hlog hpairs
    rcases List.mem_append.1 hlog with hlog | hlog
    · exact (List.pairwise_append.1 hpairs).2.2 row hlog purge (by rw [hhead]; simp)
    · rw [← hs.stored] at hlog
      exact absurd (Db.mem_rowsOf.1 hlog).1 hdropped

end StoreInvariant

/-! ### Complete cursors -/

/-- Every stored row of a vault up to a seq is among some rows, and the seq was handed out. -/
structure CompleteUpTo (s : Store) (vaultId : VaultId) (cursor : ℕ) (rows : List RecordRow) :
    Prop where
  stored : ∀ row ∈ s.db.records, row.vaultId = vaultId → row.seq ≤ cursor → row ∈ rows
  bound : cursor ≤ (writtenIn s.written vaultId).length

namespace CompleteUpTo

variable {s t : Store} {vaultId : VaultId} {cursor : ℕ} {rows rows' : List RecordRow}

theorem mono (h : CompleteUpTo s vaultId cursor rows)
    (hsub : ∀ row ∈ rows, row.vaultId = vaultId → row ∈ rows') :
    CompleteUpTo s vaultId cursor rows' :=
  ⟨fun row hrow hv hseq => hsub row (h.stored row hrow hv hseq) hv, h.bound⟩

/-- No row has the seq 0. -/
theorem zero (hs : StoreInvariant s) (vaultId : VaultId) (rows : List RecordRow) :
    CompleteUpTo s vaultId 0 rows := by
  refine ⟨fun row hrow hv hseq => ?_, Nat.zero_le _⟩
  have hmem : row.seq ∈ (writtenIn s.written vaultId).map (·.seq) :=
    List.mem_map_of_mem (mem_writtenIn.2 ⟨hs.mem_written hrow, hv⟩)
  rw [hs.map_seq_writtenIn, List.mem_range'_1] at hmem
  omega

/-- What the server does leaves a cursor complete: new rows come after it. -/
theorem server (h : CompleteUpTo s vaultId cursor rows) (hs : StoreInvariant s)
    (ht : StoreInvariant t) (hgrows : s.written <+: t.written) :
    CompleteUpTo t vaultId cursor rows := by
  refine ⟨fun row hrow hv hseq => ?_, ?_⟩
  · have hold : row ∈ s.written := by
      refine ht.mem_written_of_seq_le hgrows (ht.mem_written hrow) ?_
      rw [hv]
      exact hseq.trans h.bound
    exact h.stored row (hs.mem_of_mem_written ht hgrows hrow hold) hv hseq
  · obtain ⟨more, hmore⟩ := hgrows
    rw [← hmore, writtenIn_append, List.length_append]
    exact h.bound.trans (Nat.le_add_right _ _)

end CompleteUpTo

/-! ### One vault of a page -/

section Rows

variable {db : Db} {vaultId : VaultId} {cursor limit : ℕ}

theorem mem_of_mem_rowsPast {row : RecordRow} (h : row ∈ rowsPast db vaultId cursor limit) :
    row ∈ db.records ∧ row.vaultId = vaultId ∧ cursor < row.seq := by
  have hrow := List.mem_of_mem_take h
  rw [List.mem_insertionSort, List.mem_filter, Db.mem_rowsIn, decide_eq_true_eq] at hrow
  exact ⟨hrow.1.1, hrow.1.2, hrow.2⟩

/-- A prefix of the rows past a cursor holds every row up to the last of them. -/
theorem mem_take_rowsPast {row last : RecordRow} {room : ℕ} (hrow : row ∈ db.records)
    (hv : row.vaultId = vaultId) (hseq : cursor < row.seq)
    (hlast : last ∈ (rowsPast db vaultId cursor limit).take room) (hle : row.seq ≤ last.seq)
    (hinj : ∀ a ∈ db.records, ∀ b ∈ db.records, a.vaultId = vaultId → b.vaultId = vaultId →
      a.seq = b.seq → a = b) :
    row ∈ (rowsPast db vaultId cursor limit).take room := by
  unfold rowsPast at hlast ⊢
  rw [List.take_take] at hlast ⊢
  have hsorted := List.pairwise_insertionSort (fun a b : RecordRow => a.seq ≤ b.seq)
    ((db.rowsIn vaultId).filter (cursor < ·.seq))
  have hmem : row ∈ ((db.rowsIn vaultId).filter (cursor < ·.seq)).insertionSort
      fun a b => a.seq ≤ b.seq := by
    rw [List.mem_insertionSort, List.mem_filter, Db.mem_rowsIn, decide_eq_true_eq]
    exact ⟨⟨hrow, hv⟩, hseq⟩
  rw [← List.take_append_drop (min room limit)
    (((db.rowsIn vaultId).filter (cursor < ·.seq)).insertionSort fun a b => a.seq ≤ b.seq)]
    at hsorted hmem
  rcases List.mem_append.1 hmem with htake | hdrop
  · exact htake
  · -- it comes after the last one, and not with a greater seq
    have hge := (List.pairwise_append.1 hsorted).2.2 last hlast row hdrop
    have hlast' := List.mem_of_mem_take hlast
    rw [List.mem_insertionSort, List.mem_filter, Db.mem_rowsIn] at hlast'
    have := hinj row hrow last hlast'.1.1 hv hlast'.1.2 (le_antisymm hle hge)
    rwa [this]

end Rows

/-- The rows read past a cursor complete it up to each of them. -/
theorem CompleteUpTo.extend {s : Store} {vaultId : VaultId} {cursor start limit room : ℕ}
    {rows : List RecordRow} {last : RecordRow} (h : CompleteUpTo s vaultId cursor rows)
    (hs : StoreInvariant s) (hstart : start ≤ cursor)
    (hlast : last ∈ (rowsPast s.db vaultId start limit).take room) :
    CompleteUpTo s vaultId last.seq
      (rows ++ (rowsPast s.db vaultId start limit).take room) := by
  obtain ⟨hstored, hv, -⟩ := mem_of_mem_rowsPast (List.mem_of_mem_take hlast)
  refine ⟨fun row hrow hrowv hle => ?_, ?_⟩
  · by_cases hpast : row.seq ≤ start
    · exact List.mem_append_left _ (h.stored row hrow hrowv (hpast.trans hstart))
    · refine List.mem_append_right _ ?_
      exact mem_take_rowsPast hrow hrowv (not_le.1 hpast) hlast hle
        fun a ha b hb hav hbv hab => hs.eq_of_seq ha hb (hav.trans hbv.symm) hab
  · have hin := List.mem_map_of_mem (f := (·.seq)) (mem_writtenIn.2 ⟨hs.mem_written hstored, hv⟩)
    rw [hs.map_seq_writtenIn, List.mem_range'_1] at hin
    omega

/-! ### The cursors of a page -/

theorem map_fst_nextCursors (cursors : List (VaultId × ℕ)) (rows : List RecordRow) :
    (nextCursors cursors rows).map (·.1) = cursors.map (·.1) := by
  induction rows generalizing cursors with
  | nil => rfl
  | cons row rows ih =>
      refine (ih _).trans ?_
      rw [List.map_map]
      refine List.map_congr_left fun entry _ => ?_
      simp only [Function.comp_apply]
      split <;> rfl

/-- A vault's next cursor is its cursor, or the seq of a row pulled from it, and none of these is
past it. -/
theorem mem_nextCursors {cursors : List (VaultId × ℕ)} {rows : List RecordRow}
    {entry : VaultId × ℕ} (h : entry ∈ nextCursors cursors rows) :
    ∃ cursor, (entry.1, cursor) ∈ cursors ∧ cursor ≤ entry.2 ∧
      (entry.2 = cursor ∨ ∃ row ∈ rows, row.vaultId = entry.1 ∧ row.seq = entry.2) ∧
      ∀ row ∈ rows, row.vaultId = entry.1 → row.seq ≤ entry.2 := by
  induction rows generalizing cursors with
  | nil => exact ⟨entry.2, h, le_rfl, Or.inl rfl, fun row hrow => by cases hrow⟩
  | cons row rows ih =>
      obtain ⟨cursor, hmem, hle, heq, hall⟩ := ih h
      obtain ⟨⟨v, c⟩, hc, hstep⟩ := List.mem_map.1 hmem
      dsimp only at hstep
      split at hstep
      · next hv =>
          obtain ⟨rfl, rfl⟩ := Prod.mk.inj hstep
          refine ⟨c, hc, (le_max_left _ _).trans hle, ?_, ?_⟩
          · rcases heq with heq | ⟨row', hrow', hv', hseq⟩
            · rcases le_total row.seq c with hmax | hmax
              · exact Or.inl (by rw [heq, max_eq_left hmax])
              · exact Or.inr ⟨row, List.mem_cons_self, hv.symm, by rw [heq, max_eq_right hmax]⟩
            · exact Or.inr ⟨row', List.mem_cons_of_mem _ hrow', hv', hseq⟩
          · intro row' hrow' hv'
            rcases List.mem_cons.1 hrow' with rfl | hrow'
            · exact (le_max_right _ _).trans hle
            · exact hall row' hrow' hv'
      · next hv =>
          obtain ⟨rfl, rfl⟩ := Prod.mk.inj hstep
          refine ⟨c, hc, hle, ?_, ?_⟩
          · rcases heq with heq | ⟨row', hrow', hv', hseq⟩
            · exact Or.inl heq
            · exact Or.inr ⟨row', List.mem_cons_of_mem _ hrow', hv', hseq⟩
          · intro row' hrow' hv'
            rcases List.mem_cons.1 hrow' with rfl | hrow'
            · exact absurd hv'.symm hv
            · exact hall row' hrow' hv'

/-- Where a vault has one cursor before, it has one after. -/
theorem nextCursors_le {cursors : List (VaultId × ℕ)} {rows : List RecordRow}
    {a b : VaultId × ℕ} (ha : a ∈ nextCursors cursors rows) (hb : b ∈ nextCursors cursors rows)
    (hid : a.1 = b.1)
    (hone : ∀ c c' : ℕ, (b.1, c) ∈ cursors → (b.1, c') ∈ cursors → c = c') : a.2 ≤ b.2 := by
  obtain ⟨c, hc, -, heq, -⟩ := mem_nextCursors ha
  obtain ⟨c', hc', hle, -, hall⟩ := mem_nextCursors hb
  rcases heq with heq | ⟨row, hrow, hv, hseq⟩
  · rw [heq, hone c c' (hid ▸ hc) hc']
    exact hle
  · rw [← hseq]
    exact hall row hrow (hv.trans hid)

theorem cursorOf_eq {cursors : List (VaultId × ℕ)} {entry : VaultId × ℕ} (h : entry ∈ cursors)
    (hone : ∀ other ∈ cursors, other.1 = entry.1 → other.2 = entry.2) :
    cursorOf cursors entry.1 = entry.2 := by
  unfold cursorOf
  have hsome : (cursors.find? (·.1 = entry.1)).isSome := by
    rw [List.find?_isSome]
    exact ⟨entry, h, by simp⟩
  obtain ⟨found, hfound⟩ := Option.isSome_iff_exists.1 hsome
  have hid : found.1 = entry.1 := by simpa using List.find?_some hfound
  rw [hfound]
  exact hone found (List.mem_of_find?_eq_some hfound) hid

/-- The cursor of a vault is one of them, or 0. -/
theorem cursorOf_mem (cursors : List (VaultId × ℕ)) (vaultId : VaultId) :
    (vaultId, cursorOf cursors vaultId) ∈ cursors ∨ cursorOf cursors vaultId = 0 := by
  unfold cursorOf
  cases hfound : cursors.find? (·.1 = vaultId) with
  | none => exact Or.inr rfl
  | some entry =>
      have hid : entry.1 = vaultId := by simpa using List.find?_some hfound
      exact Or.inl (hid ▸ List.mem_of_find?_eq_some hfound)

theorem cursorOf_append_of_notMem {as bs : List (VaultId × ℕ)} {vaultId : VaultId}
    (h : vaultId ∉ as.map (·.1)) : cursorOf (as ++ bs) vaultId = cursorOf bs vaultId := by
  unfold cursorOf
  rw [List.find?_append, List.find?_eq_none.2, Option.none_or]
  intro entry hentry heq
  exact h (List.mem_map.2 ⟨entry, hentry, by simpa using heq⟩)

/-! ### A page being read -/

/-- What holds of a page that is being read for a device with some cursors. -/
structure ScanInvariant (s : Store) (cursors : List (VaultId × ℕ)) (received : List RecordRow)
    (scan : Scan) : Prop where
  keys : scan.cursors.map (·.1) = scan.vaults.map (·.vaultId)
  requested : ∀ entry ∈ scan.cursors, entry.2 = cursorOf cursors entry.1
  rest : ∀ vaultId ∈ scan.rest, vaultId ∈ scan.vaults.map (·.vaultId)
  limit : SyncLimit scan.limit
  room : scan.rows.length ≤ scan.limit
  past : ∀ row ∈ scan.rows, row.vaultId ∈ scan.vaults.map (·.vaultId) ∧
    cursorOf cursors row.vaultId < row.seq
  complete : ∀ entry ∈ nextCursors scan.cursors scan.rows,
    CompleteUpTo s entry.1 entry.2 (received ++ scan.rows)

/-- What holds of a page that was read. -/
structure PageInvariant (s : Store) (cursors : List (VaultId × ℕ)) (received : List RecordRow)
    (page : SyncPage) : Prop where
  keys : page.cursors.map (·.1) = page.vaults.map (·.vaultId)
  past : ∀ entry ∈ page.cursors, cursorOf cursors entry.1 ≤ entry.2
  /-- A vault has one cursor. -/
  one : ∀ a ∈ page.cursors, ∀ b ∈ page.cursors, a.1 = b.1 → a.2 = b.2
  /-- A page that is not the last one moves a cursor. -/
  more : page.hasMore = true → ∃ entry ∈ page.cursors, cursorOf cursors entry.1 < entry.2
  complete : ∀ entry ∈ page.cursors, CompleteUpTo s entry.1 entry.2 (received ++ page.rows)

namespace ScanInvariant

variable {s t : Store} {cursors : List (VaultId × ℕ)} {received : List RecordRow} {scan : Scan}

theorem server (h : ScanInvariant s cursors received scan) (hs : StoreInvariant s)
    (ht : StoreInvariant t) (hgrows : s.written <+: t.written) :
    ScanInvariant t cursors received scan :=
  { h with complete := fun entry hentry => (h.complete entry hentry).server hs ht hgrows }

/-- A vault of a page has one cursor. -/
theorem one (h : ScanInvariant s cursors received scan) (vaultId : VaultId) (c c' : ℕ)
    (hc : (vaultId, c) ∈ scan.cursors) (hc' : (vaultId, c') ∈ scan.cursors) : c = c' :=
  (h.requested _ hc).trans (h.requested _ hc').symm

/-- The vaults are read from complete cursors. -/
theorem start {userId : UserId} {limit : ℕ} {now : Time} (hs : StoreInvariant s)
    (hcursors : ∀ entry ∈ cursors, CompleteUpTo s entry.1 entry.2 received)
    (hlimit : SyncLimit limit) :
    ScanInvariant s cursors received (startPage s.db userId cursors limit now) where
  keys := by
    unfold startPage
    rw [List.map_map]
    rfl
  requested entry hentry := by
    obtain ⟨v, -, rfl⟩ := List.mem_map.1 hentry
    rfl
  rest vaultId hvaultId := (List.mem_insertionSort _).1 hvaultId
  limit := hlimit
  room := Nat.zero_le _
  past row hrow := by cases hrow
  complete entry hentry := by
    obtain ⟨v, -, rfl⟩ := List.mem_map.1 hentry
    rw [show received ++ (startPage s.db userId cursors limit now).rows = received from
      List.append_nil _]
    rcases cursorOf_mem cursors v.vaultId with hmem | hzero
    · exact hcursors _ hmem
    · rw [hzero]
      exact CompleteUpTo.zero hs _ _

/-- What the page has of the vault that is read next. -/
theorem read (h : ScanInvariant s cursors received scan) (hs : StoreInvariant s)
    {vaultId : VaultId} {rest : List VaultId} (hrest : scan.rest = vaultId :: rest) :
    ScanInvariant s cursors received (readVault s.db vaultId rest scan).1 := by
  have hv : vaultId ∈ scan.vaults.map (·.vaultId) := by
    refine h.rest vaultId ?_
    rw [hrest]
    exact List.mem_cons_self
  -- the cursor it is read from is the one the device asked with
  have hcursor : cursorOf scan.cursors vaultId = cursorOf cursors vaultId := by
    rw [← h.keys] at hv
    obtain ⟨entry, hentry, rfl⟩ := List.mem_map.1 hv
    rw [cursorOf_eq hentry, h.requested entry hentry]
    intro other hother hid
    rw [h.requested other hother, h.requested entry hentry, hid]
  constructor
  · exact h.keys
  · exact h.requested
  · intro v hmem
    refine h.rest v ?_
    rw [hrest]
    exact List.mem_cons_of_mem _ hmem
  · exact h.limit
  · have hroom := h.room
    unfold readVault
    simp only [List.length_append, List.length_take]
    omega
  · intro row hrow
    rcases List.mem_append.1 hrow with hrow | hrow
    · exact h.past row hrow
    · obtain ⟨-, rfl, hseq⟩ := mem_of_mem_rowsPast (List.mem_of_mem_take hrow)
      exact ⟨hv, hcursor ▸ hseq⟩
  · intro entry hentry
    unfold readVault at hentry ⊢
    dsimp only at hentry ⊢
    generalize hnew : (rowsPast s.db vaultId (cursorOf scan.cursors vaultId)
      (scan.limit - scan.rows.length + 1)).take (scan.limit - scan.rows.length) = new at hentry ⊢
    have hrows : nextCursors scan.cursors (scan.rows ++ new) =
        nextCursors (nextCursors scan.cursors scan.rows) new := List.foldl_append
    rw [hrows] at hentry
    obtain ⟨cursor, hmem, hle, heq, -⟩ := mem_nextCursors hentry
    have hbefore := h.complete (entry.1, cursor) hmem
    rcases heq with heq | ⟨last, hlast, hlastv, hseq⟩
    · rw [heq]
      refine hbefore.mono fun row hrow _ => ?_
      rw [← List.append_assoc]
      exact List.mem_append_left _ hrow
    · have hread := mem_of_mem_rowsPast (List.mem_of_mem_take (hnew ▸ hlast))
      obtain rfl : entry.1 = vaultId := hlastv.symm.trans hread.2.1
      obtain ⟨c, hc, hcle, -, -⟩ := mem_nextCursors hmem
      rw [← hseq, ← List.append_assoc, ← hnew]
      refine hbefore.extend hs ?_ (hnew ▸ hlast)
      rw [hcursor, ← h.requested _ hc]
      exact hcle

/-- The page of what was read. -/
theorem finish (h : ScanInvariant s cursors received scan) (hasMore : Bool)
    (hmore : hasMore = true → scan.rows ≠ []) :
    PageInvariant s cursors received (finishPage scan hasMore) where
  keys := (map_fst_nextCursors scan.cursors scan.rows).trans h.keys
  past entry hentry := by
    obtain ⟨c, hc, hle, -⟩ := mem_nextCursors hentry
    rw [← h.requested _ hc]
    exact hle
  one a ha b hb hid :=
    le_antisymm (nextCursors_le ha hb hid (h.one b.1)) (nextCursors_le hb ha hid.symm (h.one a.1))
  more htrue := by
    obtain ⟨row, hrow⟩ := List.exists_mem_of_ne_nil _ (hmore htrue)
    obtain ⟨hv, hseq⟩ := h.past row hrow
    have hkey : row.vaultId ∈ (nextCursors scan.cursors scan.rows).map (·.1) := by
      rw [map_fst_nextCursors, h.keys]
      exact hv
    obtain ⟨entry, hentry, hid⟩ := List.mem_map.1 hkey
    obtain ⟨-, -, -, -, hall⟩ := mem_nextCursors hentry
    exact ⟨entry, hentry, hid ▸ hseq.trans_le (hall row hrow hid.symm)⟩
  complete := h.complete

/-- A page that does not hold all there is to read is full. -/
theorem ne_nil_of_more (h : ScanInvariant s cursors received scan) (db : Db) {vaultId : VaultId}
    {rest : List VaultId} (hmore : (readVault db vaultId rest scan).2 = true) :
    (readVault db vaultId rest scan).1.rows ≠ [] := by
  have hroom := h.room
  have hlimit := h.limit.1
  unfold readVault at hmore ⊢
  rw [decide_eq_true_eq] at hmore
  intro hnil
  have hlength := congrArg List.length hnil
  simp only [List.length_append, List.length_take, List.length_nil] at hlength
  unfold minSyncRecords at hlimit
  omega

end ScanInvariant

namespace PageInvariant

variable {s t : Store} {cursors : List (VaultId × ℕ)} {received : List RecordRow}
  {page : SyncPage}

theorem server (h : PageInvariant s cursors received page) (hs : StoreInvariant s)
    (ht : StoreInvariant t) (hgrows : s.written <+: t.written) :
    PageInvariant t cursors received page :=
  { h with complete := fun entry hentry => (h.complete entry hentry).server hs ht hgrows }

/-- All cursors of a page are stored. -/
theorem currentCursors_eq (h : PageInvariant s cursors received page) :
    page.batch.currentCursors = page.cursors := by
  refine List.filter_eq_self.2 fun entry hentry => ?_
  rw [decide_eq_true_eq]
  change entry.1 ∈ page.vaults.map (·.vaultId)
  rw [← h.keys]
  exact List.mem_map_of_mem hentry

end PageInvariant

/-! ### The invariant of a pull -/

/-- What holds of the page that is on its way. -/
def PhaseInvariant (s : Pull) : PullPhase → Prop
  | .idle => True
  | .asked cursors limit => cursors = s.device.syncCursors ∧ SyncLimit limit
  | .reading cursors scan =>
    cursors = s.device.syncCursors ∧ ScanInvariant s.store cursors s.received scan
  | .answered cursors page =>
    cursors = s.device.syncCursors ∧ PageInvariant s.store cursors s.received page

structure PullInvariant (s : Pull) : Prop where
  store : StoreInvariant s.store
  cursors : ∀ entry ∈ s.device.syncCursors, CompleteUpTo s.store entry.1 entry.2 s.received
  phase : PhaseInvariant s s.phase

/-- A device that has not pulled yet, and a store without records. -/
structure PullStart (s : Pull) : Prop where
  store : EmptyStore s.store
  cursors : s.device.syncCursors = []
  phase : s.phase = .idle

theorem pullInvariant_of_start {s : Pull} (h : PullStart s) : PullInvariant s where
  store := storeInvariant_of_empty h.store
  cursors entry hentry := by
    rw [h.cursors] at hentry
    cases hentry
  phase := by
    rw [h.phase]
    trivial

section Apply

variable {s : Pull} {page : SyncPage} {resolve : Option ConflictResolver} {now : Time}
  {newChangeId : RecordId → ChangeId} {device : LocalDb} {vaultsChanged : Bool}

/-- The cursors once a page is applied: its own, and those of vaults that are neither lost nor in
the page. -/
theorem syncCursors_of_page
    (hpage : PageInvariant s.store s.device.syncCursors s.received page)
    (happly : applySync page.batch resolve now newChangeId s.device = .ok (device, vaultsChanged)) :
    device.syncCursors = (s.device.syncCursors.filter
        (·.1 ∉ (lostVaults s.device.vaults page.vaults).map (·.vaultId))).filter
          (fun entry => entry.1 ∉ page.cursors.map (·.1)) ++ page.cursors := by
  have hcursors := syncCursors_of_applySync happly
  rwa [hpage.currentCursors_eq] at hcursors

/-- **A page keeps the cursors complete**: those it sets and those it leaves. -/
theorem complete_of_applySync (hs : PullInvariant s)
    (hpage : PageInvariant s.store s.device.syncCursors s.received page)
    (happly : applySync page.batch resolve now newChangeId s.device = .ok (device, vaultsChanged))
    {entry : VaultId × ℕ} (hentry : entry ∈ device.syncCursors) :
    CompleteUpTo s.store entry.1 entry.2 (receivedAfter s.device s.received page) := by
  rw [syncCursors_of_page hpage happly] at hentry
  rcases List.mem_append.1 hentry with hkept | hnew
  · rw [List.mem_filter, List.mem_filter, decide_eq_true_eq] at hkept
    refine (hs.cursors entry hkept.1.1).mono fun row hrow hv => ?_
    refine List.mem_append_left _ (List.mem_filter.2 ⟨hrow, ?_⟩)
    rw [decide_eq_true_eq, hv]
    exact hkept.1.2
  · -- the vault of a page is not lost, and the device keeps its rows
    have hv : entry.1 ∈ page.vaults.map (·.vaultId) := by
      rw [← hpage.keys]
      exact List.mem_map_of_mem hnew
    refine (hpage.complete entry hnew).mono fun row hrow hrowv => ?_
    rcases List.mem_append.1 hrow with hold | hpulled
    · refine List.mem_append_left _ (List.mem_filter.2 ⟨hold, ?_⟩)
      rw [decide_eq_true_eq, hrowv]
      intro hlost
      obtain ⟨v, hmem, hid⟩ := List.mem_map.1 hlost
      have hnot := of_decide_eq_true (List.mem_filter.1 hmem).2
      exact hnot (hid ▸ hv)
    · refine List.mem_append_right _ (List.mem_filter.2 ⟨hpulled, ?_⟩)
      rw [decide_eq_true_eq, hrowv]
      exact hv

/-- The cursor of a vault of the page. -/
theorem cursorOf_of_page (hpage : PageInvariant s.store s.device.syncCursors s.received page)
    (happly : applySync page.batch resolve now newChangeId s.device = .ok (device, vaultsChanged))
    {entry : VaultId × ℕ} (hentry : entry ∈ page.cursors) :
    cursorOf device.syncCursors entry.1 = entry.2 := by
  rw [syncCursors_of_page hpage happly, cursorOf_append_of_notMem]
  · exact cursorOf_eq hentry fun other hother hid => hpage.one other hother entry hentry hid
  · intro hmem
    obtain ⟨other, hother, hid⟩ := List.mem_map.1 hmem
    refine of_decide_eq_true (List.mem_filter.1 hother).2 ?_
    rw [hid]
    exact List.mem_map_of_mem hentry

/-- A page that is not the last one moves a cursor of the device. -/
theorem advanced_of_page (hpage : PageInvariant s.store s.device.syncCursors s.received page)
    (happly : applySync page.batch resolve now newChangeId s.device = .ok (device, vaultsChanged))
    (hmore : page.hasMore = true) : advanced s.device.syncCursors device.syncCursors = true := by
  obtain ⟨entry, hentry, hlt⟩ := hpage.more hmore
  refine List.any_eq_true.2 ⟨entry, ?_, decide_eq_true hlt⟩
  rw [syncCursors_of_page hpage happly]
  exact List.mem_append_right _ hentry

end Apply

namespace PullInvariant

variable {quotaBytes : ℕ} {userId : UserId} {s t : Pull}

/-- The steps of the loop keep the invariant. -/
theorem loop (hs : PullInvariant s) (h : LoopStep userId s t) : PullInvariant t := by
  have hphase := hs.phase
  cases h with
  | start cursors limit now hp =>
      rw [hp] at hphase
      obtain ⟨rfl, hlimit⟩ := hphase
      exact ⟨hs.store, hs.cursors, rfl, ScanInvariant.start hs.store hs.cursors hlimit⟩
  | read cursors scan vaultId rest hp hrest =>
      rw [hp] at hphase
      obtain ⟨rfl, hscan⟩ := hphase
      have hread := hscan.read hs.store hrest
      refine ⟨hs.store, hs.cursors, ?_⟩
      dsimp only
      cases hmore : (readVault s.store.db vaultId rest scan).2 with
      | true =>
          rw [show readVault s.store.db vaultId rest scan =
            ((readVault s.store.db vaultId rest scan).1, true) from Prod.ext rfl hmore]
          exact ⟨rfl, hread.finish true fun _ => hscan.ne_nil_of_more s.store.db hmore⟩
      | false =>
          rw [show readVault s.store.db vaultId rest scan =
            ((readVault s.store.db vaultId rest scan).1, false) from Prod.ext rfl hmore]
          exact ⟨rfl, hread⟩
  | finish cursors scan hp hrest =>
      rw [hp] at hphase
      obtain ⟨rfl, hscan⟩ := hphase
      exact ⟨hs.store, hs.cursors, rfl, hscan.finish false fun h => by cases h⟩
  | apply cursors page resolve now newChangeId limit device vaultsChanged hp hlimit happly =>
      rw [hp] at hphase
      obtain ⟨rfl, hpage⟩ := hphase
      refine ⟨hs.store, fun entry hentry => complete_of_applySync hs hpage happly hentry, ?_⟩
      dsimp only
      split
      · exact ⟨rfl, hlimit⟩
      · trivial

/-- What the server does keeps what holds of a page. -/
theorem server {store : Store} (hs : PullInvariant s) (h : StoreStep quotaBytes s.store store) :
    PullInvariant { s with store := store } := by
  have ht := hs.store.step h
  have hgrows := written_grows (.single h)
  refine ⟨ht, fun entry hentry => (hs.cursors entry hentry).server hs.store ht hgrows, ?_⟩
  have hphase := hs.phase
  cases hp : s.phase with
  | idle => trivial
  | asked cursors limit =>
      rw [hp] at hphase
      exact hphase
  | reading cursors scan =>
      rw [hp] at hphase
      exact ⟨hphase.1, hphase.2.server hs.store ht hgrows⟩
  | answered cursors page =>
      rw [hp] at hphase
      exact ⟨hphase.1, hphase.2.server hs.store ht hgrows⟩

/-- What the device writes leaves its cursors and what it received alone. -/
theorem write {device : LocalDb} (hs : PullInvariant s)
    (hcursors : device.syncCursors = s.device.syncCursors) :
    PullInvariant { s with device := device } := by
  refine ⟨hs.store, fun entry hentry => hs.cursors entry (hcursors ▸ hentry), ?_⟩
  have hphase := hs.phase
  dsimp only
  cases hp : s.phase with
  | idle => trivial
  | asked cursors limit =>
      rw [hp] at hphase
      exact ⟨hphase.1.trans hcursors.symm, hphase.2⟩
  | reading cursors scan =>
      rw [hp] at hphase
      exact ⟨hphase.1.trans hcursors.symm, hphase.2⟩
  | answered cursors page =>
      rw [hp] at hphase
      exact ⟨hphase.1.trans hcursors.symm, hphase.2⟩

theorem step (hs : PullInvariant s) (h : PullStep quotaBytes userId s t) : PullInvariant t := by
  cases h with
  | server store h => exact hs.server h
  | write device hvaults hcursors => exact hs.write hcursors
  | ask limit hphase hlimit => exact ⟨hs.store, hs.cursors, rfl, hlimit⟩
  | loop _ h => exact hs.loop h
  | fail => exact ⟨hs.store, hs.cursors, trivial⟩

end PullInvariant

/-! ### The loop ends -/

/-- How much of the user's vaults is past the cursors of the device. -/
def Pull.behind (userId : UserId) (s : Pull) : ℕ :=
  ((s.store.db.memberVaults userId).map fun v =>
    (writtenIn s.store.written v.vaultId).length - cursorOf s.device.syncCursors v.vaultId).sum

/-- Whether a page is on its way with vaults that are not the user's any more. -/
def Pull.outdated (userId : UserId) (s : Pull) : ℕ :=
  match s.phase with
  | .idle => 0
  | .asked _ _ => 0
  | .reading _ scan => if scan.vaults = s.store.db.memberVaults userId then 0 else 1
  | .answered _ page => if page.vaults = s.store.db.memberVaults userId then 0 else 1

/-- The steps until a page is applied. -/
def Pull.remaining (userId : UserId) (s : Pull) : ℕ :=
  match s.phase with
  | .idle => 0
  | .asked _ _ => (s.store.db.memberVaults userId).length + 3
  | .reading _ scan => scan.rest.length + 2
  | .answered _ _ => 1

/-- What every step of the loop lowers. -/
def Pull.rank (userId : UserId) (s : Pull) : ℕ ×ₗ ℕ ×ₗ ℕ :=
  toLex (s.outdated userId, toLex (s.behind userId, s.remaining userId))

section Rank

variable {userId : UserId} {s t : Pull}

theorem rank_lt_of_remaining (houtdated : t.outdated userId = s.outdated userId)
    (hbehind : t.behind userId = s.behind userId)
    (hremaining : t.remaining userId < s.remaining userId) : t.rank userId < s.rank userId :=
  Prod.Lex.toLex_lt_toLex.2 (Or.inr ⟨houtdated, Prod.Lex.toLex_lt_toLex.2 (Or.inr
    ⟨hbehind, hremaining⟩)⟩)

theorem rank_lt_of_behind (houtdated : t.outdated userId = s.outdated userId)
    (hbehind : t.behind userId < s.behind userId) : t.rank userId < s.rank userId :=
  Prod.Lex.toLex_lt_toLex.2 (Or.inr ⟨houtdated, Prod.Lex.toLex_lt_toLex.2 (Or.inl hbehind)⟩)

/-- The cursors of the user's vaults in a page of these vaults. -/
theorem exists_cursor_of_page {page : SyncPage}
    (hpage : PageInvariant s.store s.device.syncCursors s.received page)
    (hvaults : page.vaults = s.store.db.memberVaults userId) {v : MemberVault}
    (hv : v ∈ s.store.db.memberVaults userId) :
    ∃ entry ∈ page.cursors, entry.1 = v.vaultId := by
  have hkey : v.vaultId ∈ page.cursors.map (·.1) := by
    rw [hpage.keys, hvaults]
    exact List.mem_map_of_mem hv
  exact List.mem_map.1 hkey

/-- A page of the user's vaults moves their cursors on, one of them when it is not the last. -/
theorem behind_of_page {page : SyncPage} {resolve : Option ConflictResolver} {now : Time}
    {newChangeId : RecordId → ChangeId} {device : LocalDb} {vaultsChanged : Bool}
    (hpage : PageInvariant s.store s.device.syncCursors s.received page)
    (happly : applySync page.batch resolve now newChangeId s.device = .ok (device, vaultsChanged))
    (hvaults : page.vaults = s.store.db.memberVaults userId) (hstore : t.store = s.store)
    (hdevice : t.device = device) :
    t.behind userId ≤ s.behind userId ∧
      (page.hasMore = true → t.behind userId < s.behind userId) := by
  unfold Pull.behind
  rw [hstore, hdevice]
  have hle : ∀ v ∈ s.store.db.memberVaults userId,
      (writtenIn s.store.written v.vaultId).length - cursorOf device.syncCursors v.vaultId ≤
        (writtenIn s.store.written v.vaultId).length -
          cursorOf s.device.syncCursors v.vaultId := by
    intro v hv
    obtain ⟨entry, hentry, hid⟩ := exists_cursor_of_page hpage hvaults hv
    rw [← hid, cursorOf_of_page hpage happly hentry]
    have := hpage.past entry hentry
    omega
  refine ⟨List.sum_le_sum hle, fun hmore => List.sum_lt_sum _ _ hle ?_⟩
  obtain ⟨entry, hentry, hlt⟩ := hpage.more hmore
  have hkey : entry.1 ∈ page.vaults.map (·.vaultId) := by
    rw [← hpage.keys]
    exact List.mem_map_of_mem hentry
  obtain ⟨v, hv, hid⟩ := List.mem_map.1 hkey
  refine ⟨v, hvaults ▸ hv, ?_⟩
  rw [hid, cursorOf_of_page hpage happly hentry]
  have hbound := (hpage.complete entry hentry).bound
  omega

/-- Every step of the loop lowers the rank. -/
theorem rank_lt_of_loop (hs : PullInvariant s) (h : LoopStep userId s t) :
    t.rank userId < s.rank userId := by
  have hphase := hs.phase
  cases h with
  | start cursors limit now hp =>
      refine rank_lt_of_remaining ?_ rfl ?_
      · simp [Pull.outdated, hp, startPage]
      · simp [Pull.remaining, hp, startPage]
  | read cursors scan vaultId rest hp hrest =>
      refine rank_lt_of_remaining ?_ rfl ?_
      · simp only [Pull.outdated, hp, readVault]
        cases (decide (scan.limit - scan.rows.length < (rowsPast s.store.db vaultId
          (cursorOf scan.cursors vaultId) (scan.limit - scan.rows.length + 1)).length)) <;> rfl
      · simp only [Pull.remaining, hp, hrest, readVault]
        cases (decide (scan.limit - scan.rows.length < (rowsPast s.store.db vaultId
          (cursorOf scan.cursors vaultId) (scan.limit - scan.rows.length + 1)).length)) <;> simp
  | finish cursors scan hp hrest =>
      refine rank_lt_of_remaining ?_ rfl ?_
      · simp only [Pull.outdated, hp]
        rfl
      · simp [Pull.remaining, hp, hrest]
  | apply cursors page resolve now newChangeId limit device vaultsChanged hp hlimit happly =>
      rw [hp] at hphase
      obtain ⟨rfl, hpage⟩ := hphase
      generalize ht : (Pull.mk s.store device (receivedAfter s.device s.received page)
        (if page.hasMore && advanced s.device.syncCursors device.syncCursors then
          .asked device.syncCursors limit else .idle)) = t
      have hout : t.outdated userId = 0 := by
        rw [← ht]
        cases page.hasMore && advanced s.device.syncCursors device.syncCursors <;> rfl
      by_cases hvaults : page.vaults = s.store.db.memberVaults userId
      · have hsame : t.outdated userId = s.outdated userId := by
          rw [hout]
          simp [Pull.outdated, hp, hvaults]
        obtain ⟨hle, hlt⟩ := behind_of_page (t := t) hpage happly hvaults (by rw [← ht])
          (by rw [← ht])
        cases hmore : page.hasMore with
        | true => exact rank_lt_of_behind hsame (hlt hmore)
        | false =>
            rcases hle.lt_or_eq with hlt | heq
            · exact rank_lt_of_behind hsame hlt
            · refine rank_lt_of_remaining hsame heq ?_
              rw [← ht]
              simp [Pull.remaining, hp, hmore]
      · refine Prod.Lex.toLex_lt_toLex.2 (Or.inl ?_)
        change t.outdated userId < s.outdated userId
        rw [hout]
        simp [Pull.outdated, hp, hvaults]

/-- Left alone, the loop ends. -/
theorem loop_ends (hs : PullInvariant s) : Acc (flip (LoopStep userId)) s :=
  Run.ends (Pull.rank userId) (fun _ _ hs h => ⟨hs.loop h, rank_lt_of_loop hs h⟩) hs

end Rank

/-! ### Main results -/

/-- **A pull misses nothing.**  In every state of a run of pushes and of a device's pulls, every
stored row of a vault up to the device's cursor was received; a row up to the cursor that the server
dropped lies below a stored purge of its record that was received or comes after the cursor.  A page
that is not the last one moves a cursor, and left alone the loop ends. -/
theorem pull_complete {quotaBytes : ℕ} {userId : UserId} {s t : Pull} (hs : PullStart s)
    (ht : Run.Reaches (PullStep quotaBytes userId) s t) :
    (∀ vaultId cursor, (vaultId, cursor) ∈ t.device.syncCursors →
      (∀ row ∈ t.store.db.records, row.vaultId = vaultId → row.seq ≤ cursor →
        row ∈ t.received) ∧
      ∀ row ∈ t.store.written, row.vaultId = vaultId → row.seq ≤ cursor →
        row ∉ t.store.db.records →
          ∃ purge ∈ t.store.db.records, purge.recordId = row.recordId ∧
            purge.vaultId = vaultId ∧ purge.isPurged = true ∧ row.version < purge.version ∧
            (purge ∈ t.received ∨ cursor < purge.seq)) ∧
    (∀ cursors page u, t.phase = .answered cursors page → LoopStep userId t u →
      page.hasMore = true → advanced cursors u.device.syncCursors = true) ∧
    Acc (flip (LoopStep userId)) t := by
  have hinv : PullInvariant t :=
    Run.invariant (fun _ _ h hst => h.step hst) ht (pullInvariant_of_start hs)
  refine ⟨?_, ?_, loop_ends hinv⟩
  · intro vaultId cursor hentry
    have hcomplete := hinv.cursors (vaultId, cursor) hentry
    refine ⟨fun row hrow hv hseq => hcomplete.stored row hrow hv hseq, ?_⟩
    intro row hrow hv _ hdropped
    obtain ⟨purge, hpurge, hid, hpv, hpurged, hlt⟩ :=
      hinv.store.exists_purge_of_dropped hrow hdropped
    refine ⟨purge, hpurge, hid, hpv.trans hv, hpurged, hlt, ?_⟩
    rcases Nat.lt_or_ge cursor purge.seq with hpast | hle
    · exact Or.inr hpast
    · exact Or.inl (hcomplete.stored purge hpurge (hpv.trans hv) hle)
  · intro cursors page u hp h hmore
    have hphase := hinv.phase
    rw [hp] at hphase
    obtain ⟨rfl, hpage⟩ := hphase
    cases h with
    | start _ _ _ hp' => rw [hp] at hp'; cases hp'
    | read _ _ _ _ hp' => rw [hp] at hp'; cases hp'
    | finish _ _ hp' => rw [hp] at hp'; cases hp'
    | apply _ _ _ _ _ _ _ _ hp' _ happly =>
        rw [hp] at hp'
        obtain ⟨-, rfl⟩ := PullPhase.answered.inj hp'
        exact advanced_of_page hpage happly hmore

/-! ### A purge that is never received -/

section Sample

/-- A first version of a record. -/
def createOf (recordId : RecordId) (changeId : ChangeId) : PushChange :=
  { sampleCreate with clientChangeId := changeId, recordId := recordId }

/-- A purge of the record 5. -/
def purgeOn (baseVersion : ℕ) (changeId : ChangeId) : PushChange :=
  { samplePurge with clientChangeId := changeId, baseVersion := baseVersion }

/-- The store after a push, as it was when the push fails. -/
def pushInto (s : Store) (changes : List PushChange) : Store :=
  match pushChanges 1000000 s.db 7 0 changes with
  | .ok d => { db := d.db, written := s.written ++ d.written }
  | .error _ => s

theorem step_pushInto {s : Store} {changes : List PushChange}
    (h : (pushChanges 1000000 s.db 7 0 changes).isOk = true) :
    StoreStep 1000000 s (pushInto s changes) := by
  unfold pushInto
  cases hd : pushChanges 1000000 s.db 7 0 changes with
  | ok d => exact .push 7 0 changes d hd
  | error e =>
      rw [hd] at h
      cases h

theorem reaches_pushInto (s : Store) (changes : List PushChange) :
    Run.Reaches (StoreStep 1000000) s (pushInto s changes) := by
  cases hd : (pushChanges 1000000 s.db 7 0 changes).isOk with
  | true => exact .single (step_pushInto hd)
  | false =>
      unfold pushInto
      cases he : pushChanges 1000000 s.db 7 0 changes with
      | ok d =>
          rw [he] at hd
          cases hd
      | error e => exact .refl

/-- One record, of a freshly registered user. -/
def createdStore : Store := pushInto { db := registeredDb 7 1, written := [] } [createOf 5 1]

/-- The record is purged. -/
def purgedStore : Store := pushInto createdStore [purgeOn 1 2]

/-- After 50 other records it is purged again. -/
def repurgedStore : Store :=
  pushInto (pushInto purgedStore ((List.range 50).map fun i => createOf (i + 10) (i + 10)))
    [purgeOn 2 3]

def freshDevice : LocalDb where
  records := []
  outbox := []
  vaults := []
  syncCursors := []
  revokedVaults := []
  revokedRecords := []
  profile := some .linked

/-- A page of 50 rows of the vault. -/
def firstPage : SyncPage :=
  finishPage (readVault repurgedStore.db 1 [] (startPage repurgedStore.db 7 [] 50 0)).1 true

/-- The device that applied it. -/
def pulledDevice : LocalDb :=
  match applySync firstPage.batch none 0 id freshDevice with
  | .ok (db, _) => db
  | .error _ => freshDevice

/-- A pull of that device that is not running. -/
def pullOf (store : Store) : Pull where
  store := store
  device := freshDevice
  received := []
  phase := .idle

theorem pullStart_registered : PullStart (pullOf { db := registeredDb 7 1, written := [] }) :=
  ⟨⟨rfl, rfl, by decide, by decide⟩, rfl, rfl⟩

theorem reaches_pullOf {s t : Store} (h : Run.Reaches (StoreStep 1000000) s t) :
    Run.Reaches (PullStep 1000000 7) (pullOf s) (pullOf t) := by
  induction h with
  | refl => exact .refl
  | tail _ hst ih => exact ih.tail (.server _ hst)

/-- A pull of one full page. -/
theorem reaches_pulled {store : Store} {scan : Scan} {device : LocalDb} {changed : Bool}
    (hrest : (startPage store.db 7 [] 50 0).rest = [1])
    (hread : readVault store.db 1 [] (startPage store.db 7 [] 50 0) = (scan, true))
    (happly : applySync (finishPage scan true).batch none 0 id freshDevice =
      .ok (device, changed)) :
    ∃ v : Pull, Run.Reaches (PullStep 1000000 7) (pullOf store) v ∧ v.store = store ∧
      v.device = device ∧ v.received = receivedAfter freshDevice [] (finishPage scan true) := by
  have hlimit : SyncLimit 50 := by
    unfold SyncLimit minSyncRecords maxSyncRecords
    omega
  have hask : PullStep 1000000 7 (pullOf store) { pullOf store with phase := .asked [] 50 } :=
    .ask 50 rfl hlimit
  have hstart : LoopStep 7 { pullOf store with phase := .asked [] 50 }
      { pullOf store with phase := .reading [] (startPage store.db 7 [] 50 0) } :=
    .start [] 50 0 rfl
  have hanswer : LoopStep 7
      { pullOf store with phase := .reading [] (startPage store.db 7 [] 50 0) }
      { pullOf store with phase := .answered [] (finishPage scan true) } := by
    have hstep := @LoopStep.read 7
      { pullOf store with phase := .reading [] (startPage store.db 7 [] 50 0) } [] _ 1 [] rfl hrest
    have hdb : (pullOf store).store.db = store.db := rfl
    dsimp only at hstep
    rw [hdb, hread] at hstep
    exact hstep
  have happlied : LoopStep 7 { pullOf store with phase := .answered [] (finishPage scan true) } _ :=
    .apply [] _ none 0 id 50 device changed rfl hlimit happly
  exact ⟨_, (((Relation.ReflTransGen.single hask).tail (.loop _ hstart)).tail
    (.loop _ hanswer)).tail (.loop _ happlied), rfl, rfl, rfl⟩

set_option maxRecDepth 20000 in
/-- What the page and the device hold: the seqs 3 to 52, and neither the first purge nor the
second. -/
theorem firstPage_facts :
    (startPage repurgedStore.db 7 [] 50 0).rest = [1] ∧
      (readVault repurgedStore.db 1 [] (startPage repurgedStore.db 7 [] 50 0)).2 = true ∧
      (applySync firstPage.batch none 0 id freshDevice).isOk = true ∧
      (1, 52) ∈ pulledDevice.syncCursors ∧
      ∀ row ∈ receivedAfter freshDevice [] firstPage, row.isPurged = false := by
  decide +kernel

theorem isOk_applySync : ∃ changed, applySync firstPage.batch none 0 id freshDevice =
    .ok (pulledDevice, changed) := by
  have hok := firstPage_facts.2.2.1
  unfold pulledDevice
  cases h : applySync firstPage.batch none 0 id freshDevice with
  | ok d => exact ⟨d.2, rfl⟩
  | error e =>
      rw [h] at hok
      cases hok

theorem exists_pulled : ∃ v : Pull, Run.Reaches (PullStep 1000000 7) (pullOf repurgedStore) v ∧
    v.store = repurgedStore ∧ v.device = pulledDevice ∧
    v.received = receivedAfter freshDevice [] firstPage := by
  obtain ⟨changed, happly⟩ := isOk_applySync
  exact reaches_pulled firstPage_facts.1 (Prod.ext rfl firstPage_facts.2.1) happly

/-- The versions of the record 5 before it is purged again. -/
theorem purgedStore_facts : (pushChanges 1000000 createdStore.db 7 0 [purgeOn 1 2]).isOk = true ∧
    (∃ row ∈ createdStore.db.records, row ∉ purgedStore.db.records ∧ row.vaultId = 1 ∧
      row.seq ≤ 52) ∧
    ∀ row ∈ purgedStore.written, row.seq ≤ 52 := by
  decide +kernel

/-- The purge that dropped a row below the cursor is neither received nor past it: another purge
dropped it in turn, and that one is past the page. -/
theorem purge_not_received : ∃ s t u v : Pull, PullStart s ∧
    Run.Reaches (PullStep 1000000 7) s t ∧ PullStep 1000000 7 t u ∧
    Run.Reaches (PullStep 1000000 7) u v ∧
    ∃ row ∈ t.store.db.records, row ∉ u.store.db.records ∧
    ∃ cursor, (row.vaultId, cursor) ∈ v.device.syncCursors ∧ row.seq ≤ cursor ∧
      ∀ purge ∈ u.store.written, purge ∉ t.store.written → purge.isPurged = true →
        ¬(purge ∈ v.received ∨ cursor < purge.seq) := by
  obtain ⟨v, hv, -, hdevice, hreceived⟩ := exists_pulled
  obtain ⟨-, -, -, hcursor, hunpurged⟩ := firstPage_facts
  obtain ⟨hok, ⟨row, hrow, hdropped, hvault, hseq⟩, hle⟩ := purgedStore_facts
  refine ⟨pullOf _, pullOf createdStore, pullOf purgedStore, v, pullStart_registered,
    reaches_pullOf (reaches_pushInto _ _), .server purgedStore (step_pushInto hok),
    (reaches_pullOf ((reaches_pushInto _ _).trans (reaches_pushInto _ _))).trans hv, row, hrow,
    hdropped, 52, ?_, hseq, ?_⟩
  · rw [hvault, hdevice]
    exact hcursor
  · rintro purge hpurge - hpurged (hmem | hlt)
    · rw [hreceived] at hmem
      rw [hunpurged purge hmem] at hpurged
      cases hpurged
    · have := hle purge hpurge
      omega

/-- The same run: the first version of the record 5 lies below the purge past the cursor. -/
theorem pull_complete_repurged : ∃ t : Pull, (1, 52) ∈ t.device.syncCursors ∧
    (∀ row ∈ t.store.db.records, row.vaultId = 1 → row.seq ≤ 52 → row ∈ t.received) ∧
    (∀ row ∈ t.store.written, row.vaultId = 1 → row.seq ≤ 52 → row ∉ t.store.db.records →
      ∃ purge ∈ t.store.db.records, purge.recordId = row.recordId ∧ purge.vaultId = 1 ∧
        purge.isPurged = true ∧ row.version < purge.version ∧
        (purge ∈ t.received ∨ 52 < purge.seq)) ∧
    Acc (flip (LoopStep 7)) t := by
  obtain ⟨v, hv, -, hdevice, -⟩ := exists_pulled
  have hcursor : (1, 52) ∈ v.device.syncCursors := by
    rw [hdevice]
    exact firstPage_facts.2.2.2.1
  have hrun := (reaches_pullOf ((reaches_pushInto { db := registeredDb 7 1, written := [] }
    [createOf 5 1]).trans ((reaches_pushInto _ [purgeOn 1 2]).trans
      ((reaches_pushInto _ _).trans (reaches_pushInto _ [purgeOn 2 3]))))).trans hv
  have hall := pull_complete pullStart_registered hrun
  exact ⟨v, hcursor, (hall.1 1 52 hcursor).1, (hall.1 1 52 hcursor).2, hall.2.2⟩

end Sample

end Passmgr
