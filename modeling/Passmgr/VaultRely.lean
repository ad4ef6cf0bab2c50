/-
# What a vault transaction may count on

How the members of the vaults may change while a transaction holds row locks, and the rules by which
the operations keep an active owner.

Main definitions:

* `VaultRely`, `vaultRely` — what the locks a transaction holds keep others from changing;
* `Edit`, `Calm` — what the writes of a transaction may change, given its locks;

Main results:

* `ok_commit`, `ok_lockVault`, `ok_updateMemberWhere`, `ok_updateVaultWhere`, `ok_deleteMemberRow` —
  the rules for the statements of the operations.
-/

import Passmgr.VaultViews

set_option relaxedAutoImplicit false
set_option autoImplicit false

namespace Passmgr

open ReadCommitted (Ok Rely)

/-! ### What others may change -/

/-- How the tables may change while a transaction holds locks: vaults are not created, undeleted
or handed over from one person to another; in a locked vault nobody loses an active membership or
gets a new one; and a locked membership keeps its role and its status. -/
structure VaultRely (held : List RowLock) (a b : Db) : Prop where
  kind : ∀ v k, b.personalOf v = some k → a.personalOf v = some k
  live : ∀ v, b.isLive v = true → a.isLive v = true
  vault : ∀ v k, .vault v ∈ held → a.personalOf v = some k → b.personalOf v = some k
  active : ∀ v u role, .vault v ∈ held → a.roleStatus v u = some (role, .active) →
    b.roleStatus v u = some (role, .active)
  absent : ∀ v u, .vault v ∈ held → a.roleStatus v u = none → b.roleStatus v u = none
  member : ∀ v u, .member v u ∈ held → b.roleStatus v u = a.roleStatus v u

theorem VaultRely.refl (held : List RowLock) (a : Db) : VaultRely held a a where
  kind := fun _ _ h => h
  live := fun _ h => h
  vault := fun _ _ _ h => h
  active := fun _ _ _ _ h => h
  absent := fun _ _ _ h => h
  member := fun _ _ _ => rfl

theorem VaultRely.trans {held : List RowLock} {a b c : Db} (hab : VaultRely held a b)
    (hbc : VaultRely held b c) : VaultRely held a c where
  kind := fun v k h => hab.kind v k (hbc.kind v k h)
  live := fun v h => hab.live v (hbc.live v h)
  vault := fun v k hv h => hbc.vault v k hv (hab.vault v k hv h)
  active := fun v u role hv h => hbc.active v u role hv (hab.active v u role hv h)
  absent := fun v u hv h => hbc.absent v u hv (hab.absent v u hv h)
  member := fun v u hm => (hbc.member v u hm).trans (hab.member v u hm)

/-- Fewer locks, less to count on. -/
theorem VaultRely.mono {held held' : List RowLock} {a b : Db} (h : VaultRely held' a b)
    (hsub : held ⊆ held') : VaultRely held a b where
  kind := h.kind
  live := h.live
  vault := fun v k hv => h.vault v k (hsub hv)
  active := fun v u role hv => h.active v u role (hsub hv)
  absent := fun v u hv => h.absent v u (hsub hv)
  member := fun v u hm => h.member v u (hsub hm)

def vaultRely : Rely Db RowLock where
  rel := VaultRely
  refl := VaultRely.refl
  trans := fun _ _ _ _ => VaultRely.trans

/-- A transaction over the vaults that keeps every live vault owned, whatever the others do. -/
abbrev Sound (prog : Txn) (pending : Db → Db) (held : List RowLock) (db : Db) : Prop :=
  Ok vaultRely VaultsOk prog pending held db

/-- A vault is locked, if there is one. -/
def VaultLocked (held : List RowLock) (v : VaultId) (db : Db) : Prop :=
  ∀ k, db.personalOf v = some k → RowLock.vault v ∈ held

namespace VaultLocked

variable {held : List RowLock} {v : VaultId} {a b : Db}

theorem mono {held' : List RowLock} (h : VaultLocked held v a) (hsub : held ⊆ held') :
    VaultLocked held' v a := fun k hk => hsub (h k hk)

theorem rely (h : VaultLocked held v a) (hr : VaultRely held a b) : VaultLocked held v b :=
  fun k hk => h k (hr.kind v k hk)

theorem mem (h : VaultLocked held v a) (ha : VaultsOk a) {u : UserId}
    (hu : a.roleStatus v u ≠ none) : .vault v ∈ held := by
  obtain ⟨k, hk, -⟩ := ha.vault_of_member v u hu
  exact h k hk

theorem active (h : VaultLocked held v a) (ha : VaultsOk a) (hr : VaultRely held a b) {u : UserId}
    {role : VaultRole} (hu : a.roleStatus v u = some (role, .active)) :
    b.roleStatus v u = some (role, .active) :=
  hr.active v u role (h.mem ha (by rw [hu]; simp)) hu

theorem absent (h : VaultLocked held v a) (hb : VaultsOk b) (hr : VaultRely held a b) {u : UserId}
    (hu : b.roleStatus v u ≠ none) : a.roleStatus v u ≠ none := by
  intro ha
  exact hu (hr.absent v u ((h.rely hr).mem hb hu) ha)

end VaultLocked

/-! ### What a transaction may write -/

/-- Writes that respect the locks of the others: a membership is only changed under its lock, an
active one only lost under the lock of the vault, and so on. -/
structure Edit (held : List RowLock) (a b : Db) : Prop where
  tables : TablesOk a → TablesOk b
  kind : ∀ v k, b.personalOf v = some k → a.personalOf v = some k
  live : ∀ v, b.isLive v = true → a.isLive v = true
  vault : ∀ v k, a.personalOf v = some k → b.personalOf v = some k ∨ .vault v ∈ held
  active : ∀ v u role, a.roleStatus v u = some (role, .active) →
    b.roleStatus v u = some (role, .active) ∨ .vault v ∈ held
  absent : ∀ v u, a.roleStatus v u = none → b.roleStatus v u = none ∨ .vault v ∈ held
  member : ∀ v u, b.roleStatus v u = a.roleStatus v u ∨ .member v u ∈ held

namespace Edit

variable {held : List RowLock} {a b c : Db}

/-- A write that no view notices. -/
theorem of_eq (htables : TablesOk a → TablesOk b) (hkind : b.personalOf = a.personalOf)
    (hlive : ∀ v, b.isLive v = true → a.isLive v = true) (hrole : b.roleStatus = a.roleStatus) :
    Edit held a b where
  tables := htables
  kind := fun v k h => by rwa [hkind] at h
  live := hlive
  vault := fun v k h => Or.inl (by rwa [hkind])
  active := fun v u role h => Or.inl (by rwa [hrole])
  absent := fun v u h => Or.inl (by rwa [hrole])
  member := fun v u => Or.inl (by rw [hrole])

theorem refl (held : List RowLock) (a : Db) : Edit held a a :=
  of_eq id rfl (fun _ h => h) rfl

theorem trans (hab : Edit held a b) (hbc : Edit held b c) : Edit held a c where
  tables := fun h => hbc.tables (hab.tables h)
  kind := fun v k h => hab.kind v k (hbc.kind v k h)
  live := fun v h => hab.live v (hbc.live v h)
  vault := fun v k h => (hab.vault v k h).elim (hbc.vault v k) Or.inr
  active := fun v u role h => (hab.active v u role h).elim (hbc.active v u role) Or.inr
  absent := fun v u h => (hab.absent v u h).elim (hbc.absent v u) Or.inr
  member := fun v u => (hab.member v u).elim
    (fun h => (hbc.member v u).elim (fun h' => Or.inl (h'.trans h)) Or.inr) Or.inr

theorem mono {held' : List RowLock} (h : Edit held a b) (hsub : held ⊆ held') :
    Edit held' a b where
  tables := h.tables
  kind := h.kind
  live := h.live
  vault := fun v k hk => (h.vault v k hk).imp_right (hsub ·)
  active := fun v u role hu => (h.active v u role hu).imp_right (hsub ·)
  absent := fun v u hu => (h.absent v u hu).imp_right (hsub ·)
  member := fun v u => (h.member v u).imp_right (hsub ·)

/-- The others can count on what their locks promise them. -/
theorem rely (h : Edit held a b) {ls : List RowLock} (hls : ∀ l ∈ ls, l ∉ held) :
    VaultRely ls a b where
  kind := h.kind
  live := h.live
  vault := fun v k hv hk => (h.vault v k hk).resolve_right (hls _ hv)
  active := fun v u role hv hu => (h.active v u role hu).resolve_right (hls _ hv)
  absent := fun v u hv hu => (h.absent v u hu).resolve_right (hls _ hv)
  member := fun v u hm => (h.member v u).resolve_right (hls _ hm)

end Edit

/-- An edit by which nobody loses an active membership. -/
structure Calm (held : List RowLock) (a b : Db) : Prop extends Edit held a b where
  keeps : ∀ v u role, a.roleStatus v u = some (role, .active) →
    b.roleStatus v u = some (role, .active)

namespace Calm

variable {held : List RowLock} {a b c : Db}

theorem refl (held : List RowLock) (a : Db) : Calm held a a :=
  ⟨Edit.refl held a, fun _ _ _ h => h⟩

theorem trans (hab : Calm held a b) (hbc : Calm held b c) : Calm held a c :=
  ⟨hab.toEdit.trans hbc.toEdit, fun v u role h => hbc.keeps v u role (hab.keeps v u role h)⟩

theorem mono {held' : List RowLock} (h : Calm held a b) (hsub : held ⊆ held') : Calm held' a b :=
  ⟨h.toEdit.mono hsub, h.keeps⟩

/-- The owners stay. -/
theorem owned (h : Calm held a b) (ha : Owned a) : Owned b := by
  intro v hv
  obtain ⟨u, hu⟩ := ha v (h.live v hv)
  exact ⟨u, isActiveOwner_iff.2 (h.keeps v u _ (isActiveOwner_iff.1 hu))⟩

end Calm

/-! ### The edits -/

section Edits

variable {db : Db} {held : List RowLock}

theorem edit_setVault {f : VaultRow → VaultRow} {v : VaultId}
    (hid : ∀ row, (f row).vaultId = row.vaultId) (hkind : ∀ row, (f row).kind = row.kind)
    (hdel : ∀ row, (f row).deletedAt = none → row.deletedAt = none)
    (howner : ∀ o, db.personalOf v = some (some o) → ∀ row, (f row).ownerId = row.ownerId) :
    Calm held db (db.setVault v f) := by
  have hpersonal : (db.setVault v f).personalOf = db.personalOf := by
    funext vaultId
    exact Db.personalOf_setVault hid hkind howner vaultId
  refine ⟨Edit.of_eq ?_ hpersonal (Db.isLive_setVault hid hdel v) rfl, fun _ _ _ h => h⟩
  intro h
  refine ⟨h.members, ?_, fun vaultId userId hu => ?_⟩
  · have hids : (db.setVault v f).vaults.map (·.vaultId) = db.vaults.map (·.vaultId) := by
      unfold Db.setVault updateVault
      rw [List.map_map]
      refine List.map_congr_left fun row _ => ?_
      simp only [Function.comp_apply]
      split
      · exact hid row
      · rfl
    rw [hids]
    exact h.vaults
  · rw [hpersonal]
    exact h.vault_of_member vaultId userId hu

theorem tablesOk_setMember {f : VaultMember → VaultMember}
    (hkey : ∀ m, (f m).vaultId = m.vaultId ∧ (f m).userId = m.userId) (v : VaultId) (u : UserId)
    (h : TablesOk db) : TablesOk (db.setMember v u f) := by
  refine ⟨?_, h.vaults, fun vaultId userId hu => ?_⟩
  · have hkeys : (db.setMember v u f).vaultMembers.map (fun m => (m.vaultId, m.userId)) =
        db.vaultMembers.map fun m => (m.vaultId, m.userId) := by
      unfold Db.setMember
      rw [List.map_map]
      refine List.map_congr_left fun m _ => ?_
      simp only [Function.comp_apply]
      split
      · rw [(hkey m).1, (hkey m).2]
      · rfl
    rw [hkeys]
    exact h.members
  · refine h.vault_of_member vaultId userId fun hnone => hu ?_
    rw [Db.roleStatus_setMember hkey]
    split
    · next heq =>
        obtain ⟨rfl, rfl⟩ := heq
        rw [Db.roleStatus, Option.map_eq_none_iff] at hnone
        rw [hnone, Option.map_none]
    · exact hnone

/-- A change of a membership under its lock, which loses an active one only under the lock of the
vault. -/
theorem edit_setMember {f : VaultMember → VaultMember}
    (hkey : ∀ m, (f m).vaultId = m.vaultId ∧ (f m).userId = m.userId) {v : VaultId} {u : UserId}
    (hmember : .member v u ∈ held)
    (hactive : ∀ m, db.member? v u = some m → m.status = .active →
      (f m).role = m.role ∧ (f m).status = .active ∨ .vault v ∈ held) :
    Edit held db (db.setMember v u f) where
  tables := tablesOk_setMember hkey v u
  kind := fun _ _ h => h
  live := fun _ h => h
  vault := fun _ _ h => Or.inl h
  active := by
    intro vaultId userId role h
    rw [Db.roleStatus_setMember hkey]
    split
    · next heq =>
        obtain ⟨rfl, rfl⟩ := heq
        obtain ⟨m, hm, hmrole, hmstatus⟩ := roleStatus_eq_some.1 h
        refine (hactive m hm hmstatus).imp_left fun hf => ?_
        rw [hm, Option.map_some, hf.1, hf.2, hmrole]
    · exact Or.inl h
  absent := by
    intro vaultId userId h
    rw [Db.roleStatus_setMember hkey]
    split
    · next heq =>
        obtain ⟨rfl, rfl⟩ := heq
        rw [Db.roleStatus, Option.map_eq_none_iff] at h
        rw [h]
        exact Or.inl rfl
    · exact Or.inl h
  member := by
    intro vaultId userId
    rw [Db.roleStatus_setMember hkey]
    split
    · next heq =>
        obtain ⟨rfl, rfl⟩ := heq
        exact Or.inr hmember
    · exact Or.inl rfl

theorem calm_setMember {f : VaultMember → VaultMember}
    (hkey : ∀ m, (f m).vaultId = m.vaultId ∧ (f m).userId = m.userId)
    (hrole : ∀ m, (f m).role = m.role)
    (hactive : ∀ m, m.status = .active → (f m).status = .active) {v : VaultId} {u : UserId}
    (hmember : .member v u ∈ held) : Calm held db (db.setMember v u f) := by
  refine ⟨edit_setMember hkey hmember fun m _ h => Or.inl ⟨hrole m, hactive m h⟩, ?_⟩
  intro vaultId userId role h
  rw [Db.roleStatus_setMember hkey]
  split
  · next heq =>
      obtain ⟨rfl, rfl⟩ := heq
      obtain ⟨m, hm, hmrole, hmstatus⟩ := roleStatus_eq_some.1 h
      rw [hm, Option.map_some, hrole m, hactive m hmstatus, hmrole]
  · exact h

/-- Memberships that are deleted under their locks, active ones under the lock of the vault. -/
theorem edit_deleteMembers (gone : VaultId → UserId → Bool)
    (hmember : ∀ v u, gone v u = true → db.roleStatus v u ≠ none → .member v u ∈ held)
    (hactive : ∀ v u role, gone v u = true → db.roleStatus v u = some (role, .active) →
      .vault v ∈ held) :
    Edit held db (db.deleteMembers fun m => gone m.vaultId m.userId) where
  tables := by
    intro h
    refine ⟨h.members.sublist (List.filter_sublist.map _), h.vaults, fun v u hu => ?_⟩
    refine h.vault_of_member v u fun hnone => hu ?_
    rw [Db.roleStatus_deleteMembers, hnone, ite_self]
  kind := fun _ _ h => h
  live := fun _ h => h
  vault := fun _ _ h => Or.inl h
  active := by
    intro v u role h
    rw [Db.roleStatus_deleteMembers]
    split
    · next hgone => exact Or.inr (hactive v u role hgone h)
    · exact Or.inl h
  absent := by
    intro v u h
    rw [Db.roleStatus_deleteMembers, h, ite_self]
    exact Or.inl rfl
  member := by
    intro v u
    rw [Db.roleStatus_deleteMembers]
    split
    · next hgone =>
        by_cases hnone : db.roleStatus v u = none
        · exact Or.inl hnone.symm
        · exact Or.inr (hmember v u hgone hnone)
    · exact Or.inl rfl

/-- A new membership of a locked shared vault. -/
theorem calm_insertMember {m : VaultMember} (hkind : db.personalOf m.vaultId = some none)
    (hvault : .vault m.vaultId ∈ held) (hmember : .member m.vaultId m.userId ∈ held) :
    Calm held db (db.insertMember m) := by
  have hpersonal : (db.insertMember m).personalOf = db.personalOf := by
    funext v
    unfold Db.insertMember
    split <;> rfl
  have hkeeps : ∀ v u, db.roleStatus v u ≠ none →
      (db.insertMember m).roleStatus v u = db.roleStatus v u := by
    intro v u h
    rw [Db.roleStatus_insertMember, if_neg]
    rintro ⟨hnone, rfl, rfl⟩
    exact h hnone
  refine ⟨⟨?_, ?_, ?_, ?_, ?_, ?_, ?_⟩, ?_⟩
  · intro h
    refine ⟨?_, ?_, fun v u hu => ?_⟩
    · unfold Db.insertMember
      split
      · exact h.members
      · next hnone =>
          rw [Bool.not_eq_true, Option.isSome_eq_false_iff, Option.isNone_iff_eq_none, Db.member?,
            List.find?_eq_none] at hnone
          rw [List.map_append, List.nodup_append]
          refine ⟨h.members, List.nodup_singleton _, ?_⟩
          rintro _ hmem _ hsingle rfl
          obtain ⟨m', hm', heq⟩ := List.mem_map.1 hmem
          obtain ⟨hv, hu⟩ := Prod.mk.inj (heq.trans (List.mem_singleton.1 hsingle))
          exact hnone m' hm' (by simp [hv, hu])
    · unfold Db.insertMember
      split <;> exact h.vaults
    · rw [hpersonal]
      rw [Db.roleStatus_insertMember] at hu
      split at hu
      · next heq =>
          obtain ⟨-, rfl, rfl⟩ := heq
          exact ⟨none, hkind, fun owner h => by cases h⟩
      · exact h.vault_of_member v u hu
  · intro v k h
    rwa [hpersonal] at h
  · intro v h
    unfold Db.insertMember at h
    split at h <;> exact h
  · intro v k h
    exact Or.inl (by rwa [hpersonal])
  · intro v u role h
    exact Or.inl (by rwa [hkeeps v u (by rw [h]; simp)])
  · intro v u h
    rw [Db.roleStatus_insertMember]
    split
    · next heq =>
        obtain ⟨-, rfl, rfl⟩ := heq
        exact Or.inr hvault
    · exact Or.inl h
  · intro v u
    rw [Db.roleStatus_insertMember]
    split
    · next heq =>
        obtain ⟨-, rfl, rfl⟩ := heq
        exact Or.inr hmember
    · exact Or.inl rfl
  · intro v u role h
    rwa [hkeeps v u (by rw [h]; simp)]

end Edits

/-! ### The rules for statements -/

/-- What a transaction wrote so far, seen on any state it may be committed on. -/
def CalmSoFar (pending : Db → Db) (held : List RowLock) (db : Db) : Prop :=
  ∀ db', VaultRely held db db' → VaultsOk db' → Calm held db' (pending db')

theorem CalmSoFar.rely {pending : Db → Db} {held held' : List RowLock} {db db' : Db}
    (h : CalmSoFar pending held db) (hsub : held ⊆ held') (hr : VaultRely held db db') :
    CalmSoFar pending held' db' := fun db'' hr'' hok =>
  (h db'' (hr.trans (hr''.mono hsub)) hok).mono hsub

theorem calmSoFar_id (held : List RowLock) (db : Db) : CalmSoFar id held db :=
  fun db' _ _ => Calm.refl held db'

section Rules

variable {pending : Db → Db} {held : List RowLock} {db : Db}

theorem ok_abort : Sound .abort pending held db := True.intro

/-- A transaction commits soundly when its writes respect the locks and leave an owner. -/
theorem ok_commit (h : ∀ db', VaultRely held db db' → VaultsOk db' →
    Edit held db' (pending db') ∧ Owned (pending db')) : Sound .commit pending held db := by
  intro db' hr hok
  obtain ⟨hedit, howned⟩ := h db' hr hok
  exact ⟨⟨hedit.tables hok.toTablesOk, howned⟩, fun ls hls => hedit.rely hls⟩

theorem CalmSoFar.ok_commit (h : CalmSoFar pending held db) : Sound .commit pending held db :=
  Passmgr.ok_commit fun db' hr hok => ⟨(h db' hr hok).toEdit, (h db' hr hok).owned hok.owned⟩

theorem ok_select {next : Db → Txn}
    (h : ∀ db', VaultRely held db db' → VaultsOk db' → Sound (next db') id held db') :
    Sound (.read next) id held db := ReadCommitted.ok_read h

theorem ok_lockVault {v : VaultId} {next : Txn}
    (h : ∀ db' held', held ⊆ held' → VaultRely held db db' → VaultsOk db' →
      VaultLocked held' v db' → Sound next id held' db') : Sound (lockVault v next) id held db := by
  refine ReadCommitted.ok_lock fun db' hr hok =>
    h db' _ (List.subset_append_right _ _) hr hok fun k hk => List.mem_append_left _ ?_
  have hsome : (db'.vault? v).isSome := by
    obtain ⟨row, hrow, -⟩ := Option.map_eq_some_iff.1 hk
    rw [hrow, Option.isSome_some]
  rw [id, vaultLock, if_pos hsome, List.mem_singleton]

theorem ok_updateVaultWhere {v : VaultId} {p : VaultRow → Bool} {f : VaultRow → VaultRow}
    {next : Bool → Txn}
    (h : ∀ db' held' (b : Bool), held ⊆ held' → VaultRely held db db' → VaultsOk db' →
      ((pending db').vault? v).any p = b →
      Sound (next b) ((if b then Db.setVault v f else id) ∘ pending) held' db') :
    Sound (updateVaultWhere v p f next) pending held db := fun db' hr hok _ =>
  h db' _ _ (List.subset_append_right _ _) hr hok rfl

theorem ok_updateMemberWhere {v : VaultId} {u : UserId} {p : VaultMember → Bool}
    {f : VaultMember → VaultMember} {next : Bool → Txn}
    (h : ∀ db' held' (b : Bool), held ⊆ held' → VaultRely held db db' → VaultsOk db' →
      ((pending db').member? v u).any p = b → (b = true → .member v u ∈ held') →
      Sound (next b) ((if b then Db.setMember v u f else id) ∘ pending) held' db') :
    Sound (updateMemberWhere v u p f next) pending held db := by
  intro db' hr hok _
  refine h db' _ _ (List.subset_append_right _ _) hr hok rfl fun hb => ?_
  dsimp only at hb ⊢
  rw [if_pos hb]
  exact List.mem_append_left _ (List.mem_singleton_self _)

/-- An update of a membership that keeps its role and leaves it active. -/
theorem CalmSoFar.updateMemberWhere (hp : CalmSoFar pending held db) {v : VaultId} {u : UserId}
    {p : VaultMember → Bool} {f : VaultMember → VaultMember} {next : Bool → Txn}
    (hkey : ∀ m, (f m).vaultId = m.vaultId ∧ (f m).userId = m.userId)
    (hrole : ∀ m, (f m).role = m.role)
    (hactive : ∀ m, m.status = .active → (f m).status = .active)
    (h : ∀ db' held' pending' b, VaultsOk db' → CalmSoFar pending' held' db' →
      Sound (next b) pending' held' db') :
    Sound (updateMemberWhere v u p f next) pending held db := by
  refine ok_updateMemberWhere fun db' held' b hsub hr hok _ hmember => h db' held' _ b hok ?_
  intro db'' hr'' hok''
  have hbase := hp.rely hsub hr db'' hr'' hok''
  cases b with
  | true => exact hbase.trans (calm_setMember hkey hrole hactive (hmember rfl))
  | false => exact hbase

/-- An update of a vault that keeps its kind and its owner, and brings no vault back. -/
theorem CalmSoFar.updateVaultWhere (hp : CalmSoFar pending held db) {v : VaultId}
    {p : VaultRow → Bool} {f : VaultRow → VaultRow} {next : Bool → Txn}
    (hid : ∀ row, (f row).vaultId = row.vaultId) (hkind : ∀ row, (f row).kind = row.kind)
    (hdel : ∀ row, (f row).deletedAt = none → row.deletedAt = none)
    (howner : ∀ row, (f row).ownerId = row.ownerId)
    (h : ∀ db' held' pending' b, VaultsOk db' → CalmSoFar pending' held' db' →
      Sound (next b) pending' held' db') :
    Sound (updateVaultWhere v p f next) pending held db := by
  refine ok_updateVaultWhere fun db' held' b hsub hr hok _ => h db' held' _ b hok ?_
  intro db'' hr'' hok''
  have hbase := hp.rely hsub hr db'' hr'' hok''
  cases b with
  | true => exact hbase.trans (edit_setVault hid hkind hdel fun _ _ => howner)
  | false => exact hbase

/-- `requireRotation` at the end of a transaction. -/
theorem ok_requireRotation {v : VaultId} (h : ∀ db', VaultRely held db db' → VaultsOk db' →
    Edit held db' (pending db') ∧ Owned (pending db')) :
    Sound (requireRotation v .commit) pending held db := by
  refine ok_updateVaultWhere fun db' held' b hsub hr _ _ => ok_commit fun db'' hr'' hok'' => ?_
  obtain ⟨hedit, howned⟩ := h db'' (hr.trans (hr''.mono hsub)) hok''
  have hflag : Calm held' (pending db'')
      ((if b then Db.setVault v fun row => { row with keyRotationNeeded := true } else id)
        (pending db'')) := by
    cases b with
    | true => exact edit_setVault (fun _ => rfl) (fun _ => rfl) (fun _ h => h) fun _ _ _ => rfl
    | false => exact Calm.refl _ _
  exact ⟨(hedit.mono hsub).trans hflag.toEdit, hflag.owned howned⟩

/-- A membership inserted at the end of a transaction, into a locked shared vault. -/
theorem ok_insertMemberRow {m : VaultMember} (hvault : .vault m.vaultId ∈ held)
    (hkind : db.personalOf m.vaultId = some none) :
    Sound (insertMemberRow m .commit) id held db := by
  intro db' hr _ _
  have hcalm : CalmSoFar (Db.insertMember m) ([.member m.vaultId m.userId] ++ held) db' := by
    intro db'' hr'' _
    have hsub : held ⊆ [.member m.vaultId m.userId] ++ held := List.subset_append_right _ _
    exact calm_insertMember ((hr.trans (hr''.mono hsub)).vault _ _ hvault hkind) (hsub hvault)
      (List.mem_append_left _ (List.mem_singleton_self _))
  dsimp only [id]
  split
  · exact ok_abort
  · exact hcalm.ok_commit

/-- A membership deleted at the end of a transaction: if it is one of an active member, the vault
is locked; if it is one of an active owner, there is another. -/
theorem ok_deleteMemberRow {expects : Db → Prop} {v : VaultId} {u : UserId}
    (h : ∀ db₁ db₂, VaultRely held db db₁ → VaultsOk db₁ → expects db₁ → VaultRely held db₁ db₂ →
      VaultsOk db₂ → db₂.roleStatus v u = db₁.roleStatus v u →
      ∀ role, db₂.roleStatus v u = some (role, .active) → .vault v ∈ held ∧
        (role = .owner → ∃ other, other ≠ u ∧ db₂.roleStatus v other = some (.owner, .active))) :
    Sound (deleteMemberRow expects v u (requireRotation v .commit)) id held db := by
  intro db₁ hr₁ hok₁ hexpects
  refine ok_requireRotation fun db₂ hr₂ hok₂ => ?_
  simp only [id, memberLock, Function.comp_id] at hr₂ ⊢
  by_cases hsome : (db₁.member? v u).isSome
  · rw [if_pos hsome] at hr₂ ⊢
    rw [if_pos hsome]
    have hsub : held ⊆ [RowLock.member v u] ++ held := List.subset_append_right _ _
    have hrely := h db₁ db₂ hr₁ hok₁ hexpects (hr₂.mono hsub) hok₂ (hr₂.member v u (by simp))
    have hedit : Edit ([RowLock.member v u] ++ held) db₂
        (db₂.deleteMembers fun m => m.vaultId = v && m.userId = u) := by
      refine edit_deleteMembers (fun v' u' => v' = v && u' = u) ?_ ?_
      · intro v' u' hgone _
        simp only [Bool.and_eq_true, decide_eq_true_eq] at hgone
        simp [hgone.1, hgone.2]
      · intro v' u' role hgone hactive
        simp only [Bool.and_eq_true, decide_eq_true_eq] at hgone
        obtain ⟨rfl, rfl⟩ := hgone
        exact hsub (hrely role hactive).1
    refine ⟨hedit, fun v' hlive => ?_⟩
    obtain ⟨owner, howner⟩ := hok₂.owned v' (hedit.live v' hlive)
    rw [isActiveOwner_iff] at howner
    have hstays : ∀ other, ¬(v' = v ∧ other = u) →
        (db₂.deleteMembers fun m => m.vaultId = v && m.userId = u).roleStatus v' other =
          db₂.roleStatus v' other := by
      intro other hne
      rw [Db.roleStatus_deleteMembers fun v' u' => v' = v && u' = u, if_neg (by simpa using hne)]
    by_cases heq : v' = v ∧ owner = u
    · obtain ⟨rfl, rfl⟩ := heq
      obtain ⟨other, hne, hother⟩ := (hrely .owner howner).2 rfl
      exact ⟨other, isActiveOwner_iff.2 ((hstays other fun h => hne h.2).trans hother)⟩
    · exact ⟨owner, isActiveOwner_iff.2 ((hstays owner heq).trans howner)⟩
  · rw [if_neg hsome, if_neg hsome]
    exact ⟨Edit.refl _ _, hok₂.owned⟩

end Rules

end Passmgr
