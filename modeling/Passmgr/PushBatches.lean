/-
# Cutting the outbox into batches

`pushBatches` of `packages/client/src/sync-manager.ts`: the pending changes, grouped by record, fill
batches under a limit on changes and one on bytes.  Two accumulators run at once: the batch being
filled, and the piece of a record's chain that goes into one batch.

Main definitions:

* `toPushChange`, `groupChains` — a pending version as a change, and each record's changes;
* `Cutting`, `Cutting.addPiece`, `cutChange`, `cutChain`, `pushBatches` — the loops.

Main results:

* `pushBatches_flatten` — the batches joined are the records' chains, one after the other;
* `of_mem_pushBatches` — no batch is empty, and each keeps to the limits or is one large change;
* `infix_of_fits` — a chain that fits is in one batch;
* `pushBatches_cuts` — all of it, in terms of the changes.
-/

import Mathlib.Algebra.GroupWithZero.Nat
import Passmgr.GroupBy
import Passmgr.LocalWrites

set_option relaxedAutoImplicit false
set_option autoImplicit false

namespace Passmgr

/-! ### Changes -/

/-- A pending version as a push change: it builds on the version below it. -/
def toPushChange (change : PendingChange) : PushChange where
  clientChangeId := change.changeId
  recordId := change.record.recordId
  vaultId := change.record.vaultId
  baseVersion := change.record.version - 1
  clientUpdatedAt := change.record.clientUpdatedAt
  op :=
    if change.record.deletedAt.isSome then .delete change.record.tombstoneKind
    else .put change.record.content

/-- What a pending version counts against the limit on bytes. -/
def PendingChange.bytes (change : PendingChange) : ℕ := (toPushChange change).bytes

/-- What some changes count together. -/
def bytesOf (changes : List PendingChange) : ℕ := (changes.map (·.bytes)).sum

@[simp] theorem bytesOf_nil : bytesOf [] = 0 := rfl

@[simp] theorem bytesOf_append (xs ys : List PendingChange) :
    bytesOf (xs ++ ys) = bytesOf xs + bytesOf ys := by
  simp [bytesOf]

@[simp] theorem bytesOf_singleton (change : PendingChange) :
    bytesOf [change] = change.bytes := by
  simp [bytesOf]

/-- The record a change is of. -/
abbrev PendingChange.recordId (change : PendingChange) : RecordId := change.record.recordId

/-- Each record's changes, in order, by record id. -/
def groupChains (changes : List PendingChange) : List (RecordId × List PendingChange) :=
  GroupBy.groupBy PendingChange.recordId changes

/-- The changes of one record. -/
def changesOf (recordId : RecordId) (changes : List PendingChange) : List PendingChange :=
  GroupBy.group PendingChange.recordId recordId changes

theorem mem_changesOf {recordId : RecordId} {change : PendingChange}
    {changes : List PendingChange} :
    change ∈ changesOf recordId changes ↔ change ∈ changes ∧ change.recordId = recordId :=
  GroupBy.mem_group PendingChange.recordId

theorem changesOf_append (recordId : RecordId) (xs ys : List PendingChange) :
    changesOf recordId (xs ++ ys) = changesOf recordId xs ++ changesOf recordId ys :=
  GroupBy.group_append _ _ _ _

/-- All changes of a list of one record are its chain. -/
theorem changesOf_of_forall {recordId : RecordId} {changes : List PendingChange}
    (h : ∀ change ∈ changes, change.recordId = recordId) : changesOf recordId changes = changes :=
  List.filter_eq_self.2 fun change hchange => by simpa using h change hchange

/-! ### The loops -/

/-- `maxChanges` and `maxBytes`. -/
structure PushLimits where
  maxChanges : ℕ
  maxBytes : ℕ
  deriving DecidableEq, Repr

/-- `MAX_PUSH_CHANGES` and `MAX_PUSH_BYTES`. -/
def PushLimits.default : PushLimits where
  maxChanges := maxPushChanges
  maxBytes := maxPushBytes

def PushLimits.fits (limits : PushLimits) (count bytes : ℕ) : Bool :=
  count ≤ limits.maxChanges && bytes ≤ limits.maxBytes

/-- The batches so far and the one being filled. -/
structure Cutting where
  batches : List (List PendingChange)
  batch : List PendingChange
  batchBytes : ℕ
  deriving DecidableEq, Repr

/-- A piece of a chain that goes into one batch. -/
structure Piece where
  changes : List PendingChange
  bytes : ℕ
  deriving DecidableEq, Repr

def Piece.empty : Piece := ⟨[], 0⟩

/-- `addPiece`: a batch the piece doesn't fit into is done. -/
def Cutting.addPiece (limits : PushLimits) (piece : Piece) (cut : Cutting) : Cutting :=
  let cut :=
    if !limits.fits (cut.batch.length + piece.changes.length) (cut.batchBytes + piece.bytes) &&
        0 < cut.batch.length then
      { batches := cut.batches ++ [cut.batch], batch := [], batchBytes := 0 }
    else cut
  { cut with batch := cut.batch ++ piece.changes, batchBytes := cut.batchBytes + piece.bytes }

/-- One turn of the loop over a chain. -/
def cutChange (limits : PushLimits) (state : Cutting × Piece) (change : PendingChange) :
    Cutting × Piece :=
  let (cut, piece) :=
    if 0 < state.2.changes.length &&
        !limits.fits (state.2.changes.length + 1) (state.2.bytes + change.bytes) then
      (state.1.addPiece limits state.2, Piece.empty)
    else state
  (cut, ⟨piece.changes ++ [change], piece.bytes + change.bytes⟩)

/-- One turn of the loop over the chains. -/
def cutChain (limits : PushLimits) (cut : Cutting) (chain : List PendingChange) : Cutting :=
  let (cut, piece) := chain.foldl (cutChange limits) (cut, Piece.empty)
  cut.addPiece limits piece

/-- `pushBatches`: split pending changes into push batches, keeping each record's changes together
and in order.  Only a chain too big for one batch is split. -/
def pushBatches (limits : PushLimits) (changes : List PendingChange) :
    List (List PendingChange) :=
  let cut := ((groupChains changes).map (·.2)).foldl (cutChain limits) ⟨[], [], 0⟩
  if 0 < cut.batch.length then cut.batches ++ [cut.batch] else cut.batches

/-! ### What a batch may hold -/

namespace PushLimits

variable (limits : PushLimits)

/-- Some changes that fit into one batch. -/
def Holds (changes : List PendingChange) : Prop :=
  changes.length ≤ limits.maxChanges ∧ bytesOf changes ≤ limits.maxBytes

/-- What a batch may be: it keeps to the limits, or is one change that alone is too large. -/
def Allows (changes : List PendingChange) : Prop :=
  limits.Holds changes ∨ ∃ change, changes = [change] ∧ limits.maxBytes < change.bytes

variable {limits}

theorem fits_iff {changes : List PendingChange} :
    limits.fits changes.length (bytesOf changes) = true ↔ limits.Holds changes := by
  simp [fits, Holds]

theorem holds_nil : limits.Holds [] := ⟨Nat.zero_le _, Nat.zero_le _⟩

/-- What fits does so without its end. -/
theorem Holds.left {xs ys : List PendingChange} (h : limits.Holds (xs ++ ys)) :
    limits.Holds xs := by
  obtain ⟨hlen, hbytes⟩ := h
  rw [List.length_append] at hlen
  rw [bytesOf_append] at hbytes
  exact ⟨by omega, by omega⟩

theorem allows_singleton (hone : 1 ≤ limits.maxChanges) (change : PendingChange) :
    limits.Allows [change] := by
  by_cases hbytes : change.bytes ≤ limits.maxBytes
  · exact Or.inl ⟨hone, by simpa using hbytes⟩
  · exact Or.inr ⟨change, rfl, by omega⟩

end PushLimits

/-! ### One piece -/

namespace Cutting

variable {limits : PushLimits} {cut cut' : Cutting} {piece : Piece}

/-- The batches, the one being filled last. -/
def all (cut : Cutting) : List (List PendingChange) := cut.batches ++ [cut.batch]

/-- What holds of the batches at any time. -/
structure Sound (limits : PushLimits) (cut : Cutting) : Prop where
  batchBytes : cut.batchBytes = bytesOf cut.batch
  nonempty : ∀ batch ∈ cut.batches, batch ≠ []
  allows : ∀ batch ∈ cut.all, limits.Allows batch

/-- Batches that are only added to. -/
def Grows (cut cut' : Cutting) : Prop := ∀ batch ∈ cut.all, ∃ batch' ∈ cut'.all, batch <+: batch'

theorem Grows.refl (cut : Cutting) : Grows cut cut := fun batch h => ⟨batch, h, List.prefix_rfl⟩

theorem Grows.trans {cut'' : Cutting} (h : Grows cut cut') (h' : Grows cut' cut'') :
    Grows cut cut'' := by
  intro batch hbatch
  obtain ⟨batch', hbatch', hle⟩ := h batch hbatch
  obtain ⟨batch'', hbatch'', hle'⟩ := h' batch' hbatch'
  exact ⟨batch'', hbatch'', hle.trans hle'⟩

/-- A piece goes into a new batch when the one being filled has changes and no room, and into that
one otherwise. -/
theorem addPiece_cases (hbytes : cut.batchBytes = bytesOf cut.batch)
    (hpiece : piece.bytes = bytesOf piece.changes) :
    (¬limits.Holds (cut.batch ++ piece.changes) ∧ cut.batch ≠ [] ∧
        cut.addPiece limits piece =
          ⟨cut.batches ++ [cut.batch], piece.changes, bytesOf piece.changes⟩) ∨
      ((limits.Holds (cut.batch ++ piece.changes) ∨ cut.batch = []) ∧
        cut.addPiece limits piece =
          ⟨cut.batches, cut.batch ++ piece.changes, bytesOf (cut.batch ++ piece.changes)⟩) := by
  obtain ⟨batches, batch, batchBytes⟩ := cut
  obtain ⟨changes, bytes⟩ := piece
  dsimp only at hbytes hpiece ⊢
  subst hbytes hpiece
  have hfits : limits.fits (batch.length + changes.length) (bytesOf batch + bytesOf changes) =
      true ↔ limits.Holds (batch ++ changes) := by
    rw [← PushLimits.fits_iff, List.length_append, bytesOf_append]
  by_cases hflush : ¬limits.Holds (batch ++ changes) ∧ batch ≠ []
  · refine Or.inl ⟨hflush.1, hflush.2, ?_⟩
    have hfull : limits.fits (batch.length + changes.length) (bytesOf batch + bytesOf changes) =
        false := by
      simpa using mt hfits.1 hflush.1
    simp [addPiece, hfull, List.length_pos_iff.2 hflush.2]
  · have hstay : limits.Holds (batch ++ changes) ∨ batch = [] := by
      by_cases hnil : batch = []
      · exact Or.inr hnil
      · exact Or.inl (by_contra fun h => hflush ⟨h, hnil⟩)
    refine Or.inr ⟨hstay, ?_⟩
    rcases hstay with hholds | hnil
    · simp [addPiece, hfits.2 hholds]
    · simp [addPiece, hnil]

/-- What adding a piece does: its changes follow, batches stay sound and only grow, and one of them
holds the piece. -/
theorem addPiece_spec (h : cut.Sound limits) (hpiece : piece.bytes = bytesOf piece.changes)
    (hallows : limits.Allows piece.changes) :
    (cut.addPiece limits piece).Sound limits ∧
      (cut.addPiece limits piece).all.flatten = cut.all.flatten ++ piece.changes ∧
      Grows cut (cut.addPiece limits piece) ∧
      ∃ batch ∈ (cut.addPiece limits piece).all, piece.changes <:+: batch := by
  rcases addPiece_cases  h.batchBytes hpiece with
    ⟨-, hne, heq⟩ | ⟨hstay, heq⟩
  · rw [heq]
    refine ⟨⟨rfl, ?_, ?_⟩, by simp [all], ?_, piece.changes, by simp [all], List.infix_rfl⟩
    · intro batch hbatch
      rcases List.mem_append.1 hbatch with hbatch | hbatch
      · exact h.nonempty batch hbatch
      · rwa [List.mem_singleton.1 hbatch]
    · intro batch hbatch
      rcases List.mem_append.1 hbatch with hbatch | hbatch
      · exact h.allows batch hbatch
      · rwa [List.mem_singleton.1 hbatch]
    · exact fun batch hbatch => ⟨batch, List.mem_append_left _ hbatch, List.prefix_rfl⟩
  · rw [heq]
    refine ⟨⟨rfl, h.nonempty, ?_⟩, by simp [all], ?_, cut.batch ++ piece.changes, by simp [all],
      (List.suffix_append _ _).isInfix⟩
    · intro batch hbatch
      rcases List.mem_append.1 hbatch with hbatch | hbatch
      · exact h.allows batch (List.mem_append_left _ hbatch)
      · rw [List.mem_singleton.1 hbatch]
        rcases hstay with hholds | hnil
        · exact Or.inl hholds
        · simpa [hnil] using hallows
    · intro batch hbatch
      rcases List.mem_append.1 hbatch with hbatch | hbatch
      · exact ⟨batch, List.mem_append_left _ hbatch, List.prefix_rfl⟩
      · rw [List.mem_singleton.1 hbatch]
        exact ⟨_, List.mem_append_right _ (List.mem_singleton.2 rfl), List.prefix_append _ _⟩

end Cutting

/-! ### One chain -/

section Chain

variable {limits : PushLimits} {cut : Cutting} {chain : List PendingChange}

/-- Part of a chain is cut: all of it but the piece in hand is in batches, and as long as the part
fits into one batch it is that piece. -/
structure CutUpTo (limits : PushLimits) (cut : Cutting) (done : List PendingChange)
    (state : Cutting × Piece) : Prop where
  sound : state.1.Sound limits
  bytes : state.2.bytes = bytesOf state.2.changes
  allows : limits.Allows state.2.changes
  flatten : state.1.all.flatten ++ state.2.changes = cut.all.flatten ++ done
  grows : cut.Grows state.1
  whole : limits.Holds done → state = (cut, ⟨done, bytesOf done⟩)

theorem cutChange_step (hone : 1 ≤ limits.maxChanges) {done : List PendingChange}
    {state : Cutting × Piece} (h : CutUpTo limits cut done state) (change : PendingChange) :
    CutUpTo limits cut (done ++ [change]) (cutChange limits state change) := by
  obtain ⟨cut₁, changes, bytes⟩ := state
  obtain ⟨hsound, hbytes, hallows, hflatten, hgrows, hwhole⟩ := h
  dsimp only at hsound hbytes hallows hflatten hgrows hwhole
  subst hbytes
  have hfits : limits.fits (changes.length + 1) (bytesOf changes + change.bytes) = true ↔
      limits.Holds (changes ++ [change]) := by
    rw [← PushLimits.fits_iff, List.length_append, bytesOf_append, bytesOf_singleton]
    rfl
  by_cases hcut : changes ≠ [] ∧ ¬limits.Holds (changes ++ [change])
  · -- the piece is full: it goes, and the change begins the next one
    have hstep : cutChange limits (cut₁, ⟨changes, bytesOf changes⟩) change =
        (cut₁.addPiece limits ⟨changes, bytesOf changes⟩, ⟨[change], change.bytes⟩) := by
      have hfull : limits.fits (changes.length + 1) (bytesOf changes + change.bytes) = false := by
        simpa using mt hfits.1 hcut.2
      simp [cutChange, hfull, List.length_pos_iff.2 hcut.1, Piece.empty]
    obtain ⟨hsound', hflatten', hgrows', -⟩ :=
      @Cutting.addPiece_spec limits cut₁ ⟨changes, bytesOf changes⟩ hsound rfl hallows
    rw [hstep]
    refine ⟨hsound', (bytesOf_singleton change).symm, PushLimits.allows_singleton hone change, ?_,
      hgrows.trans hgrows', fun hholds => ?_⟩
    · dsimp only
      rw [hflatten', hflatten, List.append_assoc]
    · obtain ⟨rfl, hpiece⟩ := Prod.mk.inj (hwhole hholds.left)
      obtain ⟨rfl, -⟩ := Piece.mk.inj hpiece
      exact absurd hholds hcut.2
  · have hstep : cutChange limits (cut₁, ⟨changes, bytesOf changes⟩) change =
        (cut₁, ⟨changes ++ [change], bytesOf (changes ++ [change])⟩) := by
      by_cases hnil : changes = []
      · simp [cutChange, hnil]
      · have hroom : limits.Holds (changes ++ [change]) := by_contra fun h => hcut ⟨hnil, h⟩
        simp [cutChange, hfits.2 hroom]
    rw [hstep]
    refine ⟨hsound, rfl, ?_, ?_, hgrows, fun hholds => ?_⟩
    · dsimp only
      by_cases hnil : changes = []
      · rw [hnil]
        exact PushLimits.allows_singleton hone change
      · exact Or.inl (by_contra fun h => hcut ⟨hnil, h⟩)
    · dsimp only
      rw [← List.append_assoc, hflatten, List.append_assoc]
    · obtain ⟨rfl, hpiece⟩ := Prod.mk.inj (hwhole hholds.left)
      obtain ⟨rfl, -⟩ := Piece.mk.inj hpiece
      rfl

theorem cutChanges_run (hone : 1 ≤ limits.maxChanges) (h : cut.Sound limits)
    (chain : List PendingChange) :
    CutUpTo limits cut chain (chain.foldl (cutChange limits) (cut, Piece.empty)) := by
  induction chain using List.reverseRecOn with
  | nil =>
      exact ⟨h, rfl, Or.inl PushLimits.holds_nil, rfl, Cutting.Grows.refl cut, fun _ => rfl⟩
  | append_singleton chain change ih =>
      rw [List.foldl_append]
      exact cutChange_step hone ih change

/-- What cutting a chain does: it follows, and is in one batch if it fits. -/
theorem cutChain_spec (hone : 1 ≤ limits.maxChanges) (h : cut.Sound limits)
    (chain : List PendingChange) :
    (cutChain limits cut chain).Sound limits ∧
      (cutChain limits cut chain).all.flatten = cut.all.flatten ++ chain ∧
      cut.Grows (cutChain limits cut chain) ∧
      (limits.Holds chain → ∃ batch ∈ (cutChain limits cut chain).all, chain <:+: batch) := by
  have hrun := cutChanges_run hone h chain
  obtain ⟨hsound, hflatten, hgrows, hmem⟩ :=
    Cutting.addPiece_spec hrun.sound hrun.bytes hrun.allows
  refine ⟨hsound, hflatten.trans hrun.flatten, hrun.grows.trans hgrows, fun hholds => ?_⟩
  unfold cutChain
  rw [hrun.whole hholds] at hmem ⊢
  exact hmem

/-- Every chain that fits is in one batch. -/
def ChainsWhole (limits : PushLimits) (cut : Cutting) (chains : List (List PendingChange)) :
    Prop :=
  ∀ chain ∈ chains, limits.Holds chain → ∃ batch ∈ cut.all, chain <:+: batch

theorem ChainsWhole.grows {cut' : Cutting} {chains : List (List PendingChange)}
    (h : ChainsWhole limits cut chains) (hgrows : cut.Grows cut') :
    ChainsWhole limits cut' chains := by
  intro chain hchain hholds
  obtain ⟨batch, hbatch, hinfix⟩ := h chain hchain hholds
  obtain ⟨batch', hbatch', hprefix⟩ := hgrows batch hbatch
  exact ⟨batch', hbatch', hinfix.trans hprefix.isInfix⟩

theorem cutChains_run (hone : 1 ≤ limits.maxChanges) (chains : List (List PendingChange)) :
    let cut := chains.foldl (cutChain limits) ⟨[], [], 0⟩
    cut.Sound limits ∧ cut.all.flatten = chains.flatten ∧ ChainsWhole limits cut chains := by
  induction chains using List.reverseRecOn with
  | nil =>
      refine ⟨⟨rfl, (fun _ h => by cases h), fun batch h => ?_⟩, rfl, (fun _ h => by cases h)⟩
      rw [List.mem_singleton.1 h]
      exact Or.inl PushLimits.holds_nil
  | append_singleton chains chain ih =>
      obtain ⟨hsound, hflatten, hwhole⟩ := ih
      obtain ⟨hsound', hflatten', hgrows, hmem⟩ := cutChain_spec hone hsound chain
      rw [List.foldl_append]
      refine ⟨hsound', ?_, fun c hc hholds => ?_⟩
      · rw [List.foldl_cons, List.foldl_nil, hflatten', hflatten]
        simp
      · rcases List.mem_append.1 hc with hc | hc
        · exact hwhole.grows hgrows c hc hholds
        · obtain rfl := List.mem_singleton.1 hc
          exact hmem hholds

end Chain

/-! ### The batches -/

section Batches

variable {limits : PushLimits} (changes : List PendingChange)

/-- The batches are those of the loop, an empty one aside. -/
theorem pushBatches_eq :
    let cut := ((groupChains changes).map (·.2)).foldl (cutChain limits) ⟨[], [], 0⟩
    pushBatches limits changes = cut.batches ++ (if cut.batch = [] then [] else [cut.batch]) := by
  unfold pushBatches
  dsimp only
  split
  · next hpos => rw [if_neg (List.length_pos_iff.1 hpos)]
  · next hpos =>
      have hnil := List.length_eq_zero_iff.1 (Nat.eq_zero_of_not_pos hpos)
      rw [if_pos hnil, List.append_nil]

/-- The batches joined are the chains, one after the other. -/
theorem pushBatches_flatten (hone : 1 ≤ limits.maxChanges) :
    (pushBatches limits changes).flatten = (groupChains changes).flatMap (·.2) := by
  obtain ⟨-, hflatten, -⟩ := cutChains_run hone ((groupChains changes).map (·.2))
  rw [List.flatMap_def, ← hflatten, pushBatches_eq]
  unfold Cutting.all
  split
  · next hnil => simp [hnil]
  · rfl

/-- No batch is empty, and each keeps to the limits or is one large change. -/
theorem of_mem_pushBatches (hone : 1 ≤ limits.maxChanges) {batch : List PendingChange}
    (h : batch ∈ pushBatches limits changes) : batch ≠ [] ∧ limits.Allows batch := by
  obtain ⟨hsound, -, -⟩ := cutChains_run hone ((groupChains changes).map (·.2))
  rw [pushBatches_eq] at h
  rcases List.mem_append.1 h with h | h
  · exact ⟨hsound.nonempty batch h, hsound.allows batch (List.mem_append_left _ h)⟩
  · split at h
    · cases h
    · next hne =>
        obtain rfl := List.mem_singleton.1 h
        exact ⟨hne, hsound.allows _ (List.mem_append_right _ h)⟩

/-- A chain that fits is in one batch. -/
theorem infix_of_fits (hone : 1 ≤ limits.maxChanges) {recordId : RecordId}
    (hne : changesOf recordId changes ≠ [])
    (h : limits.Holds (changesOf recordId changes)) :
    ∃ batch ∈ pushBatches limits changes,
      changesOf recordId changes <:+: batch := by
  obtain ⟨-, -, hwhole⟩ := cutChains_run hone ((groupChains changes).map (·.2))
  have hchain := (GroupBy.mem_groupBy PendingChange.recordId).2 ⟨Eq.refl _, hne⟩
  obtain ⟨batch, hbatch, hinfix⟩ := hwhole _ (List.mem_map_of_mem (f := (·.2)) hchain) h
  have hfull : batch ≠ [] := by
    rintro rfl
    exact hne (List.infix_nil.1 hinfix)
  refine ⟨batch, ?_, hinfix⟩
  rw [pushBatches_eq]
  rcases List.mem_append.1 hbatch with hbatch | hbatch
  · exact List.mem_append_left _ hbatch
  · obtain rfl := List.mem_singleton.1 hbatch
    rw [if_neg hfull]
    exact List.mem_append_right _ (List.mem_singleton.2 rfl)

/-- In the batches joined, a record's changes keep their order. -/
theorem group_pushBatches (hone : 1 ≤ limits.maxChanges) (recordId : RecordId) :
    changesOf recordId (pushBatches limits changes).flatten =
      changesOf recordId changes := by
  rw [pushBatches_flatten changes hone]
  exact GroupBy.group_flatMap_groupBy _ changes recordId

theorem pushBatches_perm (hone : 1 ≤ limits.maxChanges) :
    (pushBatches limits changes).flatten.Perm changes := by
  rw [pushBatches_flatten changes hone]
  exact GroupBy.groupBy_perm _ changes

/-- The server takes every batch: none is empty or too long, and none names a change twice. -/
theorem pushInput_of_mem_pushBatches (hids : (changes.map (·.changeId)).Nodup)
    {batch : List PendingChange} (h : batch ∈ pushBatches .default changes) :
    PushInput (batch.map toPushChange) := by
  have hone : 1 ≤ PushLimits.default.maxChanges := by decide
  obtain ⟨hne, hallows⟩ := of_mem_pushBatches changes hone h
  refine ⟨by simpa using hne, ?_, ?_⟩
  · rw [List.length_map]
    rcases hallows with ⟨hlength, -⟩ | ⟨change, rfl, -⟩
    · exact hlength
    · exact hone
  · have hflat := ((pushBatches_perm changes hone).map (·.changeId)).nodup_iff.2 hids
    rw [List.map_map]
    exact hflat.sublist ((List.sublist_flatten_of_mem h).map _)

/-- **How the outbox is cut into batches**: joined, they are the changes in an order that keeps
each record's; none is empty; each keeps to the limits unless it is one change that alone is too
large; and a record whose changes fit into one batch has them all in one. -/
theorem pushBatches_cuts (limits : PushLimits) (changes : List PendingChange)
    (hone : 1 ≤ limits.maxChanges) :
    (pushBatches limits changes).flatten.Perm changes ∧
      (∀ recordId, changesOf recordId (pushBatches limits changes).flatten =
        changesOf recordId changes) ∧
      (∀ batch ∈ pushBatches limits changes,
        batch ≠ [] ∧
          ((batch.length ≤ limits.maxChanges ∧ bytesOf batch ≤ limits.maxBytes) ∨
            ∃ change, batch = [change] ∧ limits.maxBytes < change.bytes)) ∧
      ∀ recordId, changesOf recordId changes ≠ [] →
        (changesOf recordId changes).length ≤ limits.maxChanges →
        bytesOf (changesOf recordId changes) ≤ limits.maxBytes →
        ∃ before batch after, pushBatches limits changes = before ++ batch :: after ∧
          changesOf recordId changes <:+: batch ∧
          ∀ other ∈ before ++ after, changesOf recordId other = [] := by
  refine ⟨pushBatches_perm changes hone, group_pushBatches changes hone,
    fun batch h => of_mem_pushBatches changes hone h, fun recordId hne hlen hbytes => ?_⟩
  obtain ⟨batch, hbatch, hinfix⟩ := infix_of_fits changes hone hne ⟨hlen, hbytes⟩
  obtain ⟨before, after, heq⟩ := List.append_of_mem hbatch
  refine ⟨before, batch, after, heq, hinfix, fun other hother => ?_⟩
  -- the batch has all of the record's changes, so the others have none of them
  have hall := congrArg List.length (group_pushBatches changes hone recordId)
  have hin : (changesOf recordId changes).length ≤
      (changesOf recordId batch).length := by
    have hsub := hinfix.sublist.filter fun change => change.recordId = recordId
    have hown : changesOf recordId (changesOf recordId changes) = changesOf recordId changes :=
      changesOf_of_forall fun change hchange => (mem_changesOf.1 hchange).2
    rw [← hown]
    exact hsub.length_le
  rw [heq, List.flatten_append, List.flatten_cons, changesOf_append, changesOf_append,
    List.length_append, List.length_append] at hall
  have hbefore : changesOf recordId before.flatten = [] := by
    apply List.length_eq_zero_iff.1
    omega
  have hafter : changesOf recordId after.flatten = [] := by
    apply List.length_eq_zero_iff.1
    omega
  rw [List.eq_nil_iff_forall_not_mem]
  intro change hchange
  obtain ⟨hmem, hid⟩ := mem_changesOf.1 hchange
  rcases List.mem_append.1 hother with hother | hother
  · have := mem_changesOf.2 ⟨List.mem_flatten.2 ⟨other, hother, hmem⟩, hid⟩
    rw [hbefore] at this
    cases this
  · have := mem_changesOf.2 ⟨List.mem_flatten.2 ⟨other, hother, hmem⟩, hid⟩
    rw [hafter] at this
    cases this

/-- An edit waiting for the server. -/
def waitingEdit (changeId : ChangeId) (recordId : RecordId) (version : ℕ) (data : Text) :
    PendingChange where
  changeId := changeId
  attempts := 0
  lastError := none
  parkedAt := none
  record :=
    { recordId := recordId
      vaultId := 1
      content := ⟨data, [], 1, 1⟩
      version := version
      clientUpdatedAt := 0
      createdAt := none
      updatedAt := none
      deletedAt := none
      tombstoneKind := none }

/-- Three edits of one record around one of another, two changes to a batch. -/
theorem pushBatches_cuts_two :
    let changes := [waitingEdit 1 1 1 [], waitingEdit 2 2 1 [], waitingEdit 3 1 2 [],
      waitingEdit 4 1 3 []]
    pushBatches ⟨2, 600⟩ changes =
        [[waitingEdit 1 1 1 [], waitingEdit 3 1 2 []],
          [waitingEdit 4 1 3 [], waitingEdit 2 2 1 []]] ∧
      (pushBatches ⟨2, 600⟩ changes).flatten.Perm changes :=
  ⟨by decide, (pushBatches_cuts ⟨2, 600⟩ _ (by decide)).1⟩

end Batches

end Passmgr
