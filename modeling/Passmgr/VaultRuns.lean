/-
# A vault over a run of operations

Whatever operations of whatever users come one after the other, a vault on the server runs through
the changes of `VaultSteps.lean`, its members can always get at its current key, and while it is
there its history only grows.

Main definitions:

* `VaultRow.Grows` — what becomes of the row and the links of a vault;
* `StaysStep` — an operation after which the vault is still there.

Main results:

* `tables_refine_vaults` — every run of operations is a run of the changes of each vault;
* `current_key_available` — the links and the members' keys in every state of a run;
* `vault_history_grows` — what one state of a run keeps of an earlier one.
-/

import Passmgr.KeyHolders

set_option relaxedAutoImplicit false
set_option autoImplicit false

namespace Passmgr

/-! ### Every run is one of the changes of a vault -/

/-- **The tables refine each of their vaults**: an operation that commits makes one of the changes of
a vault, with what that change checks, and a run from empty tables is a run of such changes. -/
theorem tables_refine_vaults {allowed : Operation → Db → Prop} {s t : Db} (hs : Reachable allowed s)
    (ht : Run.Reaches (OperationStep allowed) s t) (v : VaultId) :
    Run.Reaches (fun w w' => ∃ op, VaultStep v op w w') (s.view v) (t.view v) ∧
      ∀ op t', op.run t = some t' → VaultStep v op (t.view v) (t'.view v) := by
  have hok : ∀ {t}, Run.Reaches (OperationStep allowed) s t → LinkedOk t := fun ht =>
    linkedOk_of_reachable (hs.trans ht)
  constructor
  · induction ht with
    | refl => exact .refl
    | tail hst hstep ih =>
        obtain ⟨op, -, hrun⟩ := hstep
        exact ih.tail ⟨op, (refines_of_run (hok hst) hrun).steps v⟩
  · intro op t' hrun
    exact (refines_of_run (hok ht) hrun).steps v

/-- User 8 rotates the key of vault 3. -/
theorem tables_refine_vaults_rotated :
    Run.Reaches (fun w w' => ∃ op, VaultStep 3 op w w') (managedDb.view 3)
      (((managedDb.rotated 8 nextKey).reseal 8 nextKey ⟨7, 1, []⟩).view 3) :=
  (@tables_refine_vaults (fun _ _ => True) _ _ (reachable_managedDb fun _ _ _ _ => trivial)
    (.single ⟨.rotateKey 8 nextKey nextKey_valid, trivial, rotateKey_managedDb.1⟩) 3).1

/-! ### The current key -/

/-- **Whoever is in a vault can get at its current key**, after every sequence of operations: the
links are those of the versions below the vault's own, each once and in order; an active member
holds a wrap of that version, or of an earlier one and has that version sealed to them; an invitee
has that version sealed to them and holds nothing. -/
theorem current_key_available {allowed : Operation → Db → Prop} {db : Db}
    (h : Reachable allowed db) {v : VaultId} {row : VaultRow} (hrow : db.vault? v = some row) :
    0 < row.keyVersion ∧
      (db.vaultKeyLinks.filter (·.vaultId = v)).map (·.keyVersion) =
        List.range' 1 (row.keyVersion - 1) ∧
      ∀ u m, db.member? v u = some m →
        (m.status = .active → m.wrap.isSome ∧
          (m.keyVersion = row.keyVersion ∧ m.sealedKey = none ∨
            m.keyVersion < row.keyVersion ∧ m.HasSealed row.keyVersion)) ∧
        (m.status = .pending → m.wrap = none ∧ m.HasSealed row.keyVersion) := by
  have hkeys := keysOk_of_reachable h v
  obtain ⟨hpos, hlinks⟩ := isCompleteKeyChain_iff.1 (hkeys.links row hrow)
  refine ⟨hpos, hlinks, fun u m hm => ?_⟩
  have hmember := hkeys.members row u m hrow hm
  refine ⟨hmember.active, fun hpending => ?_⟩
  obtain ⟨hwrap, -, hsealed⟩ := hmember.pending hpending
  exact ⟨hwrap, hsealed⟩

/-- After the rotation user 7 holds key 1 and has key 2 sealed to them. -/
theorem current_key_available_rotated :
    ∃ m, ((managedDb.rotated 8 nextKey).reseal 8 nextKey ⟨7, 1, []⟩).member? 3 7 = some m ∧
      m.keyVersion = 1 ∧ m.HasSealed 2 := by
  obtain ⟨m, hm, hversion, hactive⟩ : ∃ m,
      ((managedDb.rotated 8 nextKey).reseal 8 nextKey ⟨7, 1, []⟩).member? 3 7 = some m ∧
        m.keyVersion = 1 ∧ m.status = .active := ⟨_, rfl, rfl, rfl⟩
  have hall := (@current_key_available (fun _ _ => True) _
    (reachable_rotatedDb fun _ _ _ _ => trivial) 3
    (nextKey.rekey (newVault 3 7 .shared [] [])) rotateKey_managedDb.2).2.2 7 m hm
  refine ⟨m, hm, hversion, ?_⟩
  obtain ⟨-, ⟨hheld, -⟩ | ⟨-, hsealed⟩⟩ := hall.1 hactive
  · rw [hversion] at hheld
    cases hheld
  · exact hsealed

/-! ### A history that grows -/

/-- What becomes of the row and the links of a vault while it is there: its kind stays, its key
version never falls, no link goes or changes, and once it is deleted it stays deleted, with its
key. -/
structure VaultRow.Grows (row row' : VaultRow) (links links' : List VaultKeyLink) : Prop where
  kind : row'.kind = row.kind
  keyVersion : row.keyVersion ≤ row'.keyVersion
  links : links <+: links'
  deleted : row.deletedAt.isSome → row'.deletedAt.isSome ∧ row'.keyVersion = row.keyVersion

namespace VaultRow.Grows

variable {row row' row'' : VaultRow} {links links' links'' : List VaultKeyLink}

theorem refl (row : VaultRow) (links : List VaultKeyLink) : row.Grows row links links :=
  ⟨rfl, le_rfl, List.prefix_rfl, fun h => ⟨h, rfl⟩⟩

theorem trans (h : row.Grows row' links links') (h' : row'.Grows row'' links' links'') :
    row.Grows row'' links links'' where
  kind := h'.kind.trans h.kind
  keyVersion := h.keyVersion.trans h'.keyVersion
  links := h.links.trans h'.links
  deleted hdel := by
    obtain ⟨hdel', hversion⟩ := h.deleted hdel
    obtain ⟨hdel'', hversion'⟩ := h'.deleted hdel'
    exact ⟨hdel'', hversion'.trans hversion⟩

/-- A change of anything but the kind, the key version and the deletion. -/
theorem of_eq (hkind : row'.kind = row.kind) (hversion : row'.keyVersion = row.keyVersion)
    (hdel : row'.deletedAt = row.deletedAt) : row.Grows row' links links :=
  ⟨hkind, hversion.ge, List.prefix_rfl, fun h => ⟨hdel ▸ h, hversion⟩⟩

end VaultRow.Grows

/-- One change of a vault that is there before and after it. -/
theorem grows_of_step {v : VaultId} {op : Operation} {w w' : VaultView} (h : VaultStep v op w w')
    {row row' : VaultRow} (hrow : w.row = some row) (hrow' : w'.row = some row') :
    row.Grows row' w.links w'.links := by
  cases h with
  | same =>
      obtain rfl := Option.some.inj (hrow.symm.trans hrow')
      exact .refl row w.links
  | gone w' hgone =>
      rw [hgone] at hrow'
      cases hrow'
  | deleted before now hbefore =>
      obtain rfl := Option.some.inj (hrow.symm.trans hbefore)
      obtain rfl := Option.some.inj hrow'
      exact ⟨rfl, le_rfl, List.prefix_rfl, fun _ => ⟨rfl, rfl⟩⟩
  | created _ _ _ _ hnew _ _ _ =>
      rw [hnew] at hrow
      cases hrow
  | invited _ _ _ _ _ _ _ _ _ _ _ _ _ =>
      obtain rfl := Option.some.inj (hrow.symm.trans hrow')
      exact .refl row w.links
  | accepted _ _ _ _ _ _ _ _ _ =>
      obtain rfl := Option.some.inj (hrow.symm.trans hrow')
      exact .refl row w.links
  | roleSet _ _ _ _ _ _ _ _ _ _ _ _ _ _ _ =>
      obtain rfl := Option.some.inj (hrow.symm.trans hrow')
      exact .refl row w.links
  | removed _ _ before _ hbefore _ _ _ =>
      obtain rfl := Option.some.inj (hrow.symm.trans hbefore)
      obtain rfl := Option.some.inj hrow'
      exact .of_eq rfl rfl rfl
  | transferred _ _ _ _ before _ _ _ _ _ _ hbefore _ =>
      obtain rfl := Option.some.inj (hrow.symm.trans hbefore)
      obtain rfl := Option.some.inj hrow'
      exact .of_eq rfl rfl rfl
  | rotated w' userId m before input _ _ _ _ _ _ hbefore hlive hversion hafter hlinks _ _ _ _ =>
      obtain rfl := Option.some.inj (hrow.symm.trans hbefore)
      obtain rfl := Option.some.inj (hrow'.symm.trans hafter)
      refine ⟨rfl, ?_, ?_, fun hdel => ?_⟩
      · change row.keyVersion ≤ input.keyVersion
        omega
      · rw [hlinks]
        exact List.prefix_append _ _
      · -- A deleted vault is not rotated.
        rw [hlive] at hdel
        cases hdel
  | accountDeleted w' userId before after hbefore hafter hsame _ _ _ _ hlinks _ =>
      obtain rfl := Option.some.inj (hrow.symm.trans hbefore)
      obtain rfl := Option.some.inj (hrow'.symm.trans hafter)
      rw [hlinks]
      exact .of_eq (by rw [hsame]) (by rw [hsame]) (by rw [hsame])

/-- An operation after which the vault is still there. -/
def StaysStep (allowed : Operation → Db → Prop) (v : VaultId) (s t : Db) : Prop :=
  OperationStep allowed s t ∧ (t.vault? v).isSome

/-- **The history of a vault only grows.**  From every state a sequence of operations leads to,
along every further sequence after each of which the vault is still there: its kind stays, its key
version never falls, the links of its earlier keys stay as they are with new ones after them, and a
deleted vault stays deleted and keeps its key. -/
theorem vault_history_grows {allowed : Operation → Db → Prop} {s t : Db} {v : VaultId}
    (hs : Reachable allowed s) (ht : Run.Reaches (StaysStep allowed v) s t) {row row' : VaultRow}
    (hrow : s.vault? v = some row) (hrow' : t.vault? v = some row') :
    row.Grows row' (s.vaultKeyLinks.filter (·.vaultId = v))
      (t.vaultKeyLinks.filter (·.vaultId = v)) := by
  have hkeep : ∀ a b, (Reachable allowed a ∧ ∃ r, a.vault? v = some r ∧
      row.Grows r (s.vaultKeyLinks.filter (·.vaultId = v))
        (a.vaultKeyLinks.filter (·.vaultId = v))) → StaysStep allowed v a b →
      Reachable allowed b ∧ ∃ r, b.vault? v = some r ∧
        row.Grows r (s.vaultKeyLinks.filter (·.vaultId = v))
          (b.vaultKeyLinks.filter (·.vaultId = v)) := by
    intro a b ⟨ha, r, hr, hgrows⟩ ⟨hstep, hsome⟩
    obtain ⟨r', hr'⟩ := Option.isSome_iff_exists.1 hsome
    refine ⟨ha.tail hstep, r', hr', ?_⟩
    obtain ⟨op, -, hrun⟩ := hstep
    exact hgrows.trans
      (grows_of_step ((refines_of_run (linkedOk_of_reachable ha) hrun).steps v) hr hr')
  obtain ⟨-, r, hr, hgrows⟩ := Run.invariant hkeep ht ⟨hs, row, hrow, .refl _ _⟩
  obtain rfl := Option.some.inj (hr.symm.trans hrow')
  exact hgrows

/-- The rotation of vault 3 adds the link of key 1. -/
theorem vault_history_grows_rotated :
    ∃ row row', managedDb.vault? 3 = some row ∧
      ((managedDb.rotated 8 nextKey).reseal 8 nextKey ⟨7, 1, []⟩).vault? 3 = some row' ∧
      row.keyVersion ≤ row'.keyVersion ∧ managedDb.vaultKeyLinks.filter (·.vaultId = 3) <+:
        ((managedDb.rotated 8 nextKey).reseal 8 nextKey ⟨7, 1, []⟩).vaultKeyLinks.filter
          (·.vaultId = 3) := by
  obtain ⟨row, hrow⟩ : ∃ row, managedDb.vault? 3 = some row := ⟨_, rfl⟩
  obtain ⟨row', hrow'⟩ : ∃ row',
      ((managedDb.rotated 8 nextKey).reseal 8 nextKey ⟨7, 1, []⟩).vault? 3 = some row' :=
    ⟨_, rfl⟩
  have hgrows := @vault_history_grows (fun _ _ => True) _ _ 3
    (reachable_managedDb fun _ _ _ _ => trivial)
    (.single ⟨⟨.rotateKey 8 nextKey nextKey_valid, trivial, rotateKey_managedDb.1⟩, by
      rw [hrow']
      rfl⟩) row row' hrow hrow'
  exact ⟨row, row', hrow, hrow', hgrows.keyVersion, hgrows.links⟩

end Passmgr
