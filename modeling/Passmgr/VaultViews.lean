/-
# Views of the vault tables

Who is in a vault, with which role, and whose vault it is, seen through the rows that decide it, and
what the writes of a transaction do to these views.

Main definitions:

* `Db.roleStatus`, `Db.personalOf` — a membership and the kind of a vault;
* `TablesOk`, `VaultsOk` — the keys of the tables, and an active owner for every live vault;

Main results:

* `TablesOk.exists_other_owner` — two active owners leave one besides any user.
-/

import Passmgr.VaultOps

set_option relaxedAutoImplicit false
set_option autoImplicit false

namespace Passmgr

/-! ### Views of the tables -/

/-- Role and status of a user's membership of a vault. -/
def Db.roleStatus (db : Db) (vaultId : VaultId) (userId : UserId) :
    Option (VaultRole × MemberStatus) :=
  (db.member? vaultId userId).map fun m => (m.role, m.status)

/-- Whose personal vault a vault is: `some none` for a shared vault, `none` for no vault. -/
def Db.personalOf (db : Db) (vaultId : VaultId) : Option (Option UserId) :=
  (db.vault? vaultId).map fun v => if v.kind = .personal then some v.ownerId else none

theorem roleStatus_eq_some {db : Db} {vaultId : VaultId} {userId : UserId} {role : VaultRole}
    {status : MemberStatus} :
    db.roleStatus vaultId userId = some (role, status) ↔
      ∃ m, db.member? vaultId userId = some m ∧ m.role = role ∧ m.status = status := by
  unfold Db.roleStatus
  rw [Option.map_eq_some_iff]
  simp only [Prod.mk.injEq]

theorem isActiveOwner_iff {db : Db} {vaultId : VaultId} {userId : UserId} :
    db.IsActiveOwner vaultId userId ↔ db.roleStatus vaultId userId = some (.owner, .active) :=
  roleStatus_eq_some.symm

/-- The keys of the tables, and a vault for every membership, the personal one of a user only for
theirs. -/
structure TablesOk (db : Db) : Prop where
  members : (db.vaultMembers.map fun m => (m.vaultId, m.userId)).Nodup
  vaults : (db.vaults.map (·.vaultId)).Nodup
  vault_of_member : ∀ vaultId userId, db.roleStatus vaultId userId ≠ none →
    ∃ kind, db.personalOf vaultId = some kind ∧ ∀ owner, kind = some owner → userId = owner

/-- Every vault that is not deleted has an active member with role `owner`. -/
def Owned (db : Db) : Prop :=
  ∀ vaultId, db.isLive vaultId = true → ∃ userId, db.IsActiveOwner vaultId userId

structure VaultsOk (db : Db) : Prop extends TablesOk db where
  owned : Owned db

/-! ### Lookups after a write -/

section Views

variable {db : Db}

theorem Db.member?_mem {vaultId : VaultId} {userId : UserId} {m : VaultMember}
    (h : db.member? vaultId userId = some m) :
    m ∈ db.vaultMembers ∧ m.vaultId = vaultId ∧ m.userId = userId := by
  have hkey := List.find?_some h
  simp only [Bool.and_eq_true, decide_eq_true_eq] at hkey
  exact ⟨List.mem_of_find?_eq_some h, hkey.1, hkey.2⟩

/-- The row of a key is the only one. -/
theorem TablesOk.member?_eq (hdb : TablesOk db) {m : VaultMember} (hm : m ∈ db.vaultMembers) :
    db.member? m.vaultId m.userId = some m := by
  have hsome : (db.member? m.vaultId m.userId).isSome := by
    rw [Db.member?, List.find?_isSome]
    exact ⟨m, hm, by simp⟩
  obtain ⟨m', hm'⟩ := Option.isSome_iff_exists.1 hsome
  obtain ⟨hmem, hv, hu⟩ := Db.member?_mem hm'
  have : m' = m := List.inj_on_of_nodup_map hdb.members hmem hm (by rw [hv, hu])
  rw [hm', this]

theorem TablesOk.vault?_eq (hdb : TablesOk db) {v : VaultRow} (hv : v ∈ db.vaults) :
    db.vault? v.vaultId = some v := by
  have hsome : (db.vault? v.vaultId).isSome := by
    rw [Db.vault?, List.find?_isSome]
    exact ⟨v, hv, by simp⟩
  obtain ⟨v', hv'⟩ := Option.isSome_iff_exists.1 hsome
  have hid : v'.vaultId = v.vaultId := by simpa using List.find?_some hv'
  have : v' = v := List.inj_on_of_nodup_map hdb.vaults (List.mem_of_find?_eq_some hv') hv hid
  rw [hv', this]

/-- Two active owners leave one besides any user. -/
theorem TablesOk.exists_other_owner (hdb : TablesOk db) {vaultId : VaultId}
    (h : 1 < db.activeOwners vaultId) (userId : UserId) :
    ∃ other, other ≠ userId ∧ db.roleStatus vaultId other = some (.owner, .active) := by
  unfold Db.activeOwners at h
  have hnodup := hdb.members.sublist ((List.filter_sublist (p := fun m : VaultMember =>
    m.vaultId = vaultId && m.role = .owner && m.status = .active)).map _)
  have hall : ∀ m ∈ db.vaultMembers.filter fun m : VaultMember =>
      m.vaultId = vaultId && m.role = .owner && m.status = .active,
      m.vaultId = vaultId ∧ db.roleStatus vaultId m.userId = some (.owner, .active) := by
    intro m hm
    simp only [List.mem_filter, Bool.and_eq_true, decide_eq_true_eq] at hm
    obtain ⟨hmem, ⟨rfl, hrole⟩, hstatus⟩ := hm
    exact ⟨rfl, by rw [Db.roleStatus, hdb.member?_eq hmem, Option.map_some, hrole, hstatus]⟩
  match hl : db.vaultMembers.filter fun m : VaultMember =>
      m.vaultId = vaultId && m.role = .owner && m.status = .active with
  | [] => rw [hl] at h; simp at h
  | [_] => rw [hl] at h; simp at h
  | a :: b :: rest =>
      rw [hl] at hnodup hall
      obtain ⟨hva, ha⟩ := hall a (by simp)
      obtain ⟨hvb, hb⟩ := hall b (by simp)
      have hab : a.userId ≠ b.userId := by
        intro hab
        simp [hva, hvb, hab] at hnodup
      by_cases hau : a.userId = userId
      · exact ⟨b.userId, fun hbu => hab (hau.trans hbu.symm), hb⟩
      · exact ⟨a.userId, hau, ha⟩

/-- Rows deleted by key. -/
theorem find?_filter_key (gone : VaultId → UserId → Bool) (members : List VaultMember)
    (vaultId : VaultId) (userId : UserId) :
    ((members.filter fun m => !gone m.vaultId m.userId).find? fun m =>
        m.vaultId = vaultId && m.userId = userId) =
      if gone vaultId userId then none
      else members.find? fun m => m.vaultId = vaultId && m.userId = userId := by
  rw [List.find?_filter]
  split
  · next hgone =>
      refine List.find?_eq_none.2 fun m _ => ?_
      simp only [Bool.and_eq_true, decide_eq_true_eq, Bool.not_eq_true', not_and]
      intro hkeep hv hu
      rw [hv, hu, hgone] at hkeep
      cases hkeep
  · next hkeep =>
      congr 1
      funext m
      by_cases hkey : m.vaultId = vaultId ∧ m.userId = userId
      · simp [hkey.1, hkey.2, hkeep]
      · simp only [not_and] at hkey
        simp only [Bool.and_eq_true, decide_eq_true_eq]
        grind

theorem Db.member?_setMember {f : VaultMember → VaultMember}
    (hkey : ∀ m, (f m).vaultId = m.vaultId ∧ (f m).userId = m.userId)
    (v : VaultId) (u : UserId) (vaultId : VaultId) (userId : UserId) :
    (db.setMember v u f).member? vaultId userId =
      if vaultId = v ∧ userId = u then (db.member? v u).map f else db.member? vaultId userId := by
  unfold Db.member? Db.setMember
  dsimp only
  rw [List.find?_map]
  have hcomp : ((fun m : VaultMember => decide (m.vaultId = vaultId) && decide (m.userId = userId)) ∘
      fun m => if m.vaultId = v ∧ m.userId = u then f m else m) =
      fun m => decide (m.vaultId = vaultId) && decide (m.userId = userId) := by
    funext m
    simp only [Function.comp_apply]
    split
    · rw [(hkey m).1, (hkey m).2]
    · rfl
  rw [hcomp]
  split
  · next h =>
      obtain ⟨rfl, rfl⟩ := h
      refine Option.map_congr fun m hm => ?_
      have := List.find?_some hm
      simp only [Bool.and_eq_true, decide_eq_true_eq] at this
      rw [if_pos this]
  · next h =>
      rw [Option.map_congr (g := id), Option.map_id, id]
      intro m hm
      have := List.find?_some hm
      simp only [Bool.and_eq_true, decide_eq_true_eq] at this
      rw [this.1, this.2, if_neg h, id]

theorem Db.roleStatus_setMember {f : VaultMember → VaultMember}
    (hkey : ∀ m, (f m).vaultId = m.vaultId ∧ (f m).userId = m.userId)
    (v : VaultId) (u : UserId) (vaultId : VaultId) (userId : UserId) :
    (db.setMember v u f).roleStatus vaultId userId =
      if vaultId = v ∧ userId = u then
        (db.member? v u).map fun m => ((f m).role, (f m).status)
      else db.roleStatus vaultId userId := by
  unfold Db.roleStatus
  rw [Db.member?_setMember hkey]
  split
  · rw [Option.map_map]
    rfl
  · rfl

theorem Db.roleStatus_deleteMembers (gone : VaultId → UserId → Bool) (vaultId : VaultId)
    (userId : UserId) :
    (db.deleteMembers fun m => gone m.vaultId m.userId).roleStatus vaultId userId =
      if gone vaultId userId then none else db.roleStatus vaultId userId := by
  unfold Db.roleStatus Db.member? Db.deleteMembers
  rw [find?_filter_key]
  split <;> rfl

theorem Db.roleStatus_insertMember (m : VaultMember) (vaultId : VaultId) (userId : UserId) :
    (db.insertMember m).roleStatus vaultId userId =
      if db.roleStatus m.vaultId m.userId = none ∧ m.vaultId = vaultId ∧ m.userId = userId then
        some (m.role, m.status)
      else db.roleStatus vaultId userId := by
  unfold Db.insertMember Db.roleStatus
  cases hm : db.member? m.vaultId m.userId with
  | some m' => simp
  | none =>
      simp only [Option.isSome_none, Bool.false_eq_true, if_false, Option.map_none, true_and]
      unfold Db.member? at hm ⊢
      dsimp only
      rw [List.find?_append]
      split
      · next h =>
          obtain ⟨rfl, rfl⟩ := h
          rw [hm]
          simp
      · next h =>
          rw [List.find?_singleton]
          simp only [Bool.and_eq_true, decide_eq_true_eq, if_neg h, Option.or_none]

theorem Db.vault?_setVault {f : VaultRow → VaultRow} (hid : ∀ v, (f v).vaultId = v.vaultId)
    (v vaultId : VaultId) :
    (db.setVault v f).vault? vaultId =
      if vaultId = v then (db.vault? v).map f else db.vault? vaultId := by
  unfold Db.vault? Db.setVault updateVault
  dsimp only
  rw [List.find?_map]
  have hcomp : ((fun row : VaultRow => decide (row.vaultId = vaultId)) ∘
      fun row => if row.vaultId = v then f row else row) =
      fun row => decide (row.vaultId = vaultId) := by
    funext row
    simp only [Function.comp_apply]
    split
    · rw [hid]
    · rfl
  rw [hcomp]
  split
  · next h =>
      subst h
      refine Option.map_congr fun row hrow => ?_
      have : row.vaultId = vaultId := by simpa using List.find?_some hrow
      rw [if_pos this]
  · next h =>
      rw [Option.map_congr (g := id), Option.map_id, id]
      intro row hrow
      have : row.vaultId = vaultId := by simpa using List.find?_some hrow
      rw [this, if_neg h, id]

/-- The kind of a vault stays when the owner of a personal one does. -/
theorem Db.personalOf_setVault {f : VaultRow → VaultRow} (hid : ∀ v, (f v).vaultId = v.vaultId)
    (hkind : ∀ v, (f v).kind = v.kind) {v : VaultId}
    (howner : ∀ o, db.personalOf v = some (some o) → ∀ row, (f row).ownerId = row.ownerId)
    (vaultId : VaultId) : (db.setVault v f).personalOf vaultId = db.personalOf vaultId := by
  unfold Db.personalOf
  rw [Db.vault?_setVault hid]
  split
  · next h =>
      subst h
      cases hv : db.vault? vaultId with
      | none => rfl
      | some row =>
          simp only [Option.map_some, hkind, Option.some.injEq]
          split
          · next hpersonal =>
              rw [howner row.ownerId (by rw [Db.personalOf, hv]; simp [hpersonal])]
          · rfl
  · rfl

theorem Db.isLive_setVault {f : VaultRow → VaultRow} (hid : ∀ v, (f v).vaultId = v.vaultId)
    (hdel : ∀ v, (f v).deletedAt = none → v.deletedAt = none) (v vaultId : VaultId)
    (h : (db.setVault v f).isLive vaultId = true) : db.isLive vaultId = true := by
  unfold Db.isLive Db.setVault updateVault at *
  simp only [List.any_eq_true, List.mem_map, Bool.and_eq_true, decide_eq_true_eq,
    Option.isNone_iff_eq_none] at h ⊢
  obtain ⟨_, ⟨row, hrow, rfl⟩, hrowid, hlive⟩ := h
  refine ⟨row, hrow, ?_⟩
  split at hrowid
  · next hv =>
      rw [if_pos hv] at hlive
      exact ⟨by rw [← hid, hrowid], hdel _ hlive⟩
  · next hv =>
      rw [if_neg hv] at hlive
      exact ⟨hrowid, hlive⟩

end Views

end Passmgr
