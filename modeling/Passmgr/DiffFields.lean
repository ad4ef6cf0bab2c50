/-
# The version diff

`alignFieldSpecs` of `packages/client/src/records/diff-fields.ts`: two revisions' fields side by
side.  A cursor walks over each list, and a row is made of what one of them or both point at.

The specs and their order are arbitrary: nothing is asked of the lists but where it is said.

Main definitions:

* `DiffRow` — one row; a side is `none` when that revision has no such field;
* `alignFrom` — the walk from two cursors on;
* `SameOrder` — the keys two lists share come in the same order in both.

Main results:

* `old_alignFrom`, `latest_alignFrom` — nothing of either side is lost, added or moved;
* `sound_alignFrom` — what a row says is so;
* `alignFieldSpecs_lossless` — all of it, and every shared key is paired where keys are unique and
  in the same order.
-/

import Passmgr.FieldSpecs

set_option relaxedAutoImplicit false
set_option autoImplicit false

namespace Passmgr

/-! ### The walk -/

inductive DiffStatus
  | unchanged
  | edited
  | added
  | removed
  deriving DecidableEq, Repr

structure DiffRow where
  key : Text
  old : Option FieldSpec := none
  latest : Option FieldSpec := none
  status : DiffStatus
  deriving DecidableEq, Repr

namespace DiffRow

def paired (old latest : FieldSpec) : DiffRow where
  key := old.key
  old := some old
  latest := some latest
  status := if old.compare = latest.compare then .unchanged else .edited

def added (latest : FieldSpec) : DiffRow where
  key := latest.key
  latest := some latest
  status := .added

def removed (old : FieldSpec) : DiffRow where
  key := old.key
  old := some old
  status := .removed

end DiffRow

section Align

variable (oldKeys : List Text) (oldSpecs latestSpecs : List FieldSpec)

/-- The rows from the cursors `i` and `j` on. -/
def alignFrom (i j : ℕ) : List DiffRow :=
  if _hcursors : i < oldSpecs.length ∨ j < latestSpecs.length then
    match hold : oldSpecs[i]?, hlatest : latestSpecs[j]? with
    | some oldSpec, some latestSpec =>
      if oldSpec.key = latestSpec.key then
        .paired oldSpec latestSpec :: alignFrom (i + 1) (j + 1)
      else if latestSpec.key ∉ oldKeys then .added latestSpec :: alignFrom i (j + 1)
      -- the key is gone from the latest revision, or it only moved
      else .removed oldSpec :: alignFrom (i + 1) j
    | some oldSpec, none => .removed oldSpec :: alignFrom (i + 1) j
    | none, some latestSpec => .added latestSpec :: alignFrom i (j + 1)
    | none, none => []
  else []
termination_by (oldSpecs.length - i) + (latestSpecs.length - j)
decreasing_by
  all_goals grind

/-- `alignFieldSpecs`. -/
def alignFieldSpecs : List DiffRow := alignFrom (oldSpecs.map (·.key)) oldSpecs latestSpecs 0 0

/-! ### What a row says -/

/-- A row names the key of its sides; with both it is unchanged exactly when they compare equal,
and with one it says which. -/
def DiffRow.Sound (row : DiffRow) : Prop :=
  match row.old, row.latest with
  | some old, some latest =>
    row.key = old.key ∧ row.key = latest.key ∧ row.status ≠ .added ∧ row.status ≠ .removed ∧
      (row.status = .unchanged ↔ old.compare = latest.compare)
  | some old, none => row.key = old.key ∧ row.status = .removed
  | none, some latest => row.key = latest.key ∧ row.status = .added
  | none, none => False

theorem DiffRow.sound_paired {old latest : FieldSpec} (h : old.key = latest.key) :
    (DiffRow.paired old latest).Sound := by
  by_cases hcompare : old.compare = latest.compare
  · simp [DiffRow.Sound, DiffRow.paired, h, hcompare]
  · simp [DiffRow.Sound, DiffRow.paired, h, hcompare]

theorem DiffRow.Sound.key_of_old {row : DiffRow} (h : row.Sound) {old : FieldSpec}
    (hold : row.old = some old) : row.key = old.key := by
  unfold DiffRow.Sound at h
  cases hlatest : row.latest with
  | none =>
    rw [hold, hlatest] at h
    exact h.1
  | some latest =>
    rw [hold, hlatest] at h
    exact h.1

theorem sound_alignFrom (i j : ℕ) :
    ∀ row ∈ alignFrom oldKeys oldSpecs latestSpecs i j, row.Sound := by
  fun_induction alignFrom with
  | case1 i j _ old latest hold hlatest hkey ih =>
    exact List.forall_mem_cons.2 ⟨DiffRow.sound_paired hkey, ih⟩
  | case2 i j _ old latest hold hlatest hkey hadded ih =>
    exact List.forall_mem_cons.2 ⟨⟨rfl, rfl⟩, ih⟩
  | case3 i j _ old latest hold hlatest hkey hold' ih =>
    exact List.forall_mem_cons.2 ⟨⟨rfl, rfl⟩, ih⟩
  | case4 i j _ old hold hlatest ih => exact List.forall_mem_cons.2 ⟨⟨rfl, rfl⟩, ih⟩
  | case5 i j _ latest hold hlatest ih => exact List.forall_mem_cons.2 ⟨⟨rfl, rfl⟩, ih⟩
  | case6 | case7 => exact List.forall_mem_nil _

/-! ### Nothing is lost -/

theorem drop_of_getElem? {specs : List FieldSpec} {i : ℕ} {spec : FieldSpec}
    (h : specs[i]? = some spec) : specs.drop i = spec :: specs.drop (i + 1) := by
  obtain ⟨hi, rfl⟩ := List.getElem?_eq_some_iff.1 h
  exact List.drop_eq_getElem_cons hi

theorem drop_of_getElem?_none {specs : List FieldSpec} {i : ℕ} (h : specs[i]? = none) :
    specs.drop i = [] :=
  List.drop_eq_nil_of_le (List.getElem?_eq_none_iff.1 h)

/-- The old sides of the rows are the old specs from the cursor on. -/
theorem old_alignFrom (i j : ℕ) :
    (alignFrom oldKeys oldSpecs latestSpecs i j).filterMap (·.old) = oldSpecs.drop i := by
  fun_induction alignFrom with
  | case1 i j _ old latest hold hlatest hkey ih =>
    rw [drop_of_getElem? hold, ← ih]
    rfl
  | case2 i j _ old latest hold hlatest hkey hadded ih =>
    rw [← ih]
    rfl
  | case3 i j _ old latest hold hlatest hkey hold' ih =>
    rw [drop_of_getElem? hold, ← ih]
    rfl
  | case4 i j _ old hold hlatest ih =>
    rw [drop_of_getElem? hold, ← ih]
    rfl
  | case5 i j _ latest hold hlatest ih =>
    rw [← ih]
    rfl
  | case6 i j _ hold hlatest => rw [drop_of_getElem?_none hold, List.filterMap_nil]
  | case7 i j hcursors =>
    rw [List.drop_eq_nil_of_le (by omega), List.filterMap_nil]

/-- The latest sides of the rows are the latest specs from the cursor on. -/
theorem latest_alignFrom (i j : ℕ) :
    (alignFrom oldKeys oldSpecs latestSpecs i j).filterMap (·.latest) = latestSpecs.drop j := by
  fun_induction alignFrom with
  | case1 i j _ old latest hold hlatest hkey ih =>
    rw [drop_of_getElem? hlatest, ← ih]
    rfl
  | case2 i j _ old latest hold hlatest hkey hadded ih =>
    rw [drop_of_getElem? hlatest, ← ih]
    rfl
  | case3 i j _ old latest hold hlatest hkey hold' ih =>
    rw [← ih]
    rfl
  | case4 i j _ old hold hlatest ih =>
    rw [← ih]
    rfl
  | case5 i j _ latest hold hlatest ih =>
    rw [drop_of_getElem? hlatest, ← ih]
    rfl
  | case6 i j _ hold hlatest => rw [drop_of_getElem?_none hlatest, List.filterMap_nil]
  | case7 i j hcursors =>
    rw [List.drop_eq_nil_of_le (by omega), List.filterMap_nil]

end Align

/-! ### Shared keys -/

/-- The keys two lists share come in the same order in both. -/
def SameOrder (keys keys' : List Text) : Prop :=
  keys.filter (· ∈ keys') = keys'.filter (· ∈ keys)

section Paired

variable {oldSpecs latestSpecs : List FieldSpec}

/-- The shared keys of the specs from a cursor on. -/
def sharedFrom (specs others : List FieldSpec) (i : ℕ) : List Text :=
  ((specs.drop i).map (·.key)).filter (· ∈ others.map (·.key))

theorem sharedFrom_succ {specs others : List FieldSpec} {i : ℕ} {spec : FieldSpec}
    (h : specs[i]? = some spec) :
    sharedFrom specs others i =
      if spec.key ∈ others.map (·.key) then spec.key :: sharedFrom specs others (i + 1)
      else sharedFrom specs others (i + 1) := by
  unfold sharedFrom
  rw [drop_of_getElem? h, List.map_cons, List.filter_cons]
  simp only [decide_eq_true_eq]

theorem sharedFrom_none {specs others : List FieldSpec} {i : ℕ} (h : specs[i]? = none) :
    sharedFrom specs others i = [] := by
  unfold sharedFrom
  rw [drop_of_getElem?_none h, List.map_nil, List.filter_nil]

theorem key_mem_of_getElem? {specs : List FieldSpec} {i : ℕ} {spec : FieldSpec}
    (h : specs[i]? = some spec) : spec.key ∈ specs.map (·.key) :=
  List.mem_map_of_mem (List.mem_of_getElem? h)

/-- A shared key's row has both sides: the cursors are always before the same shared key. -/
theorem paired_alignFrom (i j : ℕ)
    (horder : sharedFrom oldSpecs latestSpecs i = sharedFrom latestSpecs oldSpecs j) :
    ∀ row ∈ alignFrom (oldSpecs.map (·.key)) oldSpecs latestSpecs i j,
      row.key ∈ oldSpecs.map (·.key) → row.key ∈ latestSpecs.map (·.key) →
        row.old.isSome ∧ row.latest.isSome := by
  fun_induction alignFrom with
  | case1 i j _ old latest hold hlatest hkey ih =>
    have hboth : old.key ∈ latestSpecs.map (·.key) := hkey ▸ key_mem_of_getElem? hlatest
    have hboth' : latest.key ∈ oldSpecs.map (·.key) := hkey ▸ key_mem_of_getElem? hold
    rw [sharedFrom_succ hold, sharedFrom_succ hlatest, if_pos hboth, if_pos hboth', hkey] at horder
    exact List.forall_mem_cons.2 ⟨fun _ _ => ⟨rfl, rfl⟩, ih (List.cons.inj horder).2⟩
  | case2 i j _ old latest hold hlatest hkey hadded ih =>
    rw [sharedFrom_succ hlatest, if_neg hadded] at horder
    exact List.forall_mem_cons.2 ⟨fun hmem _ => absurd hmem hadded, ih horder⟩
  | case3 i j _ old latest hold hlatest hkey hold' ih =>
    -- the latest head is shared, so an old head that is shared too would be the same key
    have hgone : old.key ∉ latestSpecs.map (·.key) := by
      intro hmem
      rw [sharedFrom_succ hold, sharedFrom_succ hlatest, if_pos hmem,
        if_pos (not_not.1 hold')] at horder
      exact hkey (List.cons.inj horder).1
    rw [sharedFrom_succ hold, if_neg hgone] at horder
    exact List.forall_mem_cons.2 ⟨fun _ hmem => absurd hmem hgone, ih horder⟩
  | case4 i j _ old hold hlatest ih =>
    have hgone : old.key ∉ latestSpecs.map (·.key) := by
      intro hmem
      rw [sharedFrom_succ hold, sharedFrom_none hlatest, if_pos hmem] at horder
      cases horder
    rw [sharedFrom_succ hold, if_neg hgone] at horder
    exact List.forall_mem_cons.2 ⟨fun _ hmem => absurd hmem hgone, ih horder⟩
  | case5 i j _ latest hold hlatest ih =>
    have hnew : latest.key ∉ oldSpecs.map (·.key) := by
      intro hmem
      rw [sharedFrom_succ hlatest, sharedFrom_none hold, if_pos hmem] at horder
      cases horder
    rw [sharedFrom_succ hlatest, if_neg hnew] at horder
    exact List.forall_mem_cons.2 ⟨fun hmem _ => absurd hmem hnew, ih horder⟩
  | case6 | case7 => exact List.forall_mem_nil _

/-- The rows of a key, read on the old side. -/
theorem old_of_key {rows : List DiffRow} (hsound : ∀ row ∈ rows, row.Sound) (key : Text) :
    (rows.filter (·.key = key)).filterMap (·.old) =
      (rows.filterMap (·.old)).filter (·.key = key) := by
  induction rows with
  | nil => rfl
  | cons row rows ih =>
    obtain ⟨hrow, hrows⟩ := List.forall_mem_cons.1 hsound
    cases hold : row.old with
    | none =>
      rw [List.filterMap_cons_none hold, ← ih hrows, List.filter_cons]
      split
      · exact List.filterMap_cons_none hold
      · rfl
    | some old =>
      rw [List.filterMap_cons_some hold, List.filter_cons, List.filter_cons,
        ← hrow.key_of_old hold, ← ih hrows]
      split
      · exact List.filterMap_cons_some hold
      · rfl

/-- A key that occurs once is the key of one spec. -/
theorem length_filter_key {specs : List FieldSpec} (hnodup : (specs.map (·.key)).Nodup)
    {key : Text} (hkey : key ∈ specs.map (·.key)) : (specs.filter (·.key = key)).length = 1 := by
  have hcount := List.count_eq_one_of_mem hnodup hkey
  rw [List.count_eq_length_filter, List.filter_map, List.length_map] at hcount
  rw [← hcount]
  congr 1
  exact List.filter_congr fun spec _ => (beq_eq_decide _ _).symm

end Paired

/-! ### The diff -/

/-- **The version diff is lossless.**  The walk ends, for it is defined by its recursion; whatever
the two lists are, no spec is lost, added or moved on its side, and a row with both sides says
whether they compare equal.  Where old keys are unique and the shared keys in the same order,
each shared key has one row, with both sides. -/
theorem alignFieldSpecs_lossless (oldSpecs latestSpecs : List FieldSpec) :
    (alignFieldSpecs oldSpecs latestSpecs).filterMap (·.old) = oldSpecs ∧
      (alignFieldSpecs oldSpecs latestSpecs).filterMap (·.latest) = latestSpecs ∧
      (∀ row ∈ alignFieldSpecs oldSpecs latestSpecs, row.Sound) ∧
      ((oldSpecs.map (·.key)).Nodup →
        SameOrder (oldSpecs.map (·.key)) (latestSpecs.map (·.key)) →
        ∀ key, key ∈ oldSpecs.map (·.key) → key ∈ latestSpecs.map (·.key) →
          ∃ row, (alignFieldSpecs oldSpecs latestSpecs).filter (·.key = key) = [row] ∧
            row.old.isSome ∧ row.latest.isSome) := by
  unfold alignFieldSpecs
  have hold := old_alignFrom (oldSpecs.map (·.key)) oldSpecs latestSpecs 0 0
  have hsound := sound_alignFrom (oldSpecs.map (·.key)) oldSpecs latestSpecs 0 0
  refine ⟨hold, latest_alignFrom _ oldSpecs latestSpecs 0 0, hsound, ?_⟩
  intro hnodup horder key hkey hkey'
  have hboth : ∀ row ∈ (alignFrom (oldSpecs.map (·.key)) oldSpecs latestSpecs 0 0).filter
      (·.key = key), row.old.isSome ∧ row.latest.isSome := by
    intro row hrow
    obtain ⟨hmem, hrowKey⟩ := List.mem_filter.1 hrow
    obtain rfl := of_decide_eq_true hrowKey
    exact paired_alignFrom 0 0 horder row hmem hkey hkey'
  have hone := length_filter_key hnodup hkey
  have hrows := old_of_key hsound key
  rw [hold, List.drop_zero] at hrows
  rw [← hrows, List.length_filterMap_eq_countP, List.countP_eq_length.2
    (fun row hrow => (hboth row hrow).1)] at hone
  obtain ⟨row, hrow⟩ := List.length_eq_one_iff.1 hone
  exact ⟨row, hrow, hboth row (hrow ▸ List.mem_singleton_self row)⟩

/-- A field between two others is added, and those after it stay on their rows. -/
theorem alignFieldSpecs_lossless_totp :
    let spec (key : Text) : FieldSpec := ⟨key, .fields, key, .text, key, some key, none, none, false⟩
    let olds := [spec ['u'], spec ['p'], spec ['n']]
    let latests := [spec ['p'], spec ['t'], spec ['n']]
    ((olds.map (·.key)).Nodup ∧ SameOrder (olds.map (·.key)) (latests.map (·.key))) ∧
      ∃ row, (alignFieldSpecs olds latests).filter (·.key = ['n']) = [row] ∧
        row.old.isSome ∧ row.latest.isSome := by
  intro spec olds latests
  have hnodup : (olds.map (·.key)).Nodup := by decide
  have horder : SameOrder (olds.map (·.key)) (latests.map (·.key)) := by
    unfold SameOrder
    decide
  exact ⟨⟨hnodup, horder⟩, (alignFieldSpecs_lossless olds latests).2.2.2 hnodup horder ['n']
    (by decide) (by decide)⟩

end Passmgr
