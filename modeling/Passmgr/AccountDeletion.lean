/-
# Deleting an account leaves an owner

`deleteAccount` locks the vaults the user is in, refuses while others would be left without an
owner, and deletes the vaults nobody else is in, the account and everything that goes with it.

Main definitions:

* `Removed` — memberships and whole vaults are gone, and nothing else that matters changed;

Main results:

* `sound_deleteAccount` — in the vaults it locked, another active owner stays.
-/

import Passmgr.VaultOwners

set_option relaxedAutoImplicit false
set_option autoImplicit false

namespace Passmgr

/-! ### Deleted rows -/

section Views

variable {db : Db}

theorem mem_memberKeysWhere {p : VaultMember → Bool} (hdb : TablesOk db) {v : VaultId}
    {u : UserId} :
    (v, u) ∈ db.memberKeysWhere p ↔ ∃ m, db.member? v u = some m ∧ p m = true := by
  unfold Db.memberKeysWhere
  simp only [List.mem_map, List.mem_filter, Prod.mk.injEq]
  constructor
  · rintro ⟨m, ⟨hm, hp⟩, rfl, rfl⟩
    exact ⟨m, hdb.member?_eq hm, hp⟩
  · rintro ⟨m, hm, hp⟩
    obtain ⟨hmem, hv, hu⟩ := Db.member?_mem hm
    exact ⟨m, ⟨hmem, hp⟩, hv, hu⟩

theorem roleStatus_ne_none {v : VaultId} {u : UserId} :
    db.roleStatus v u ≠ none ↔ ∃ m, db.member? v u = some m := by
  rw [Db.roleStatus, Ne, Option.map_eq_none_iff, ← Ne, Option.ne_none_iff_exists']

theorem mem_memberLocks {keys : List (VaultId × UserId)} {v : VaultId} {u : UserId} :
    RowLock.member v u ∈ memberLocks keys ↔ (v, u) ∈ keys := by
  unfold memberLocks
  simp only [List.mem_map, RowLock.member.injEq, Prod.exists]
  constructor
  · rintro ⟨v', u', h, rfl, rfl⟩
    exact h
  · intro h
    exact ⟨v, u, h, rfl, rfl⟩

end Views

/-- The vaults `gone` and the memberships `keys` were removed, and nothing else that matters
changed. -/
structure Removed (gone : List VaultId) (keys : List (VaultId × UserId)) (a b : Db) : Prop where
  tables : TablesOk a → TablesOk b
  role : ∀ v u, b.roleStatus v u = if v ∈ gone ∨ (v, u) ∈ keys then none else a.roleStatus v u
  kind : ∀ v, b.personalOf v = if v ∈ gone then none else a.personalOf v
  live : ∀ v, b.isLive v = true → v ∉ gone ∧ a.isLive v = true

namespace Removed

variable {gone gone' : List VaultId} {keys keys' : List (VaultId × UserId)} {a b c : Db}

theorem refl (a : Db) : Removed [] [] a a where
  tables := id
  role := fun v u => by simp
  kind := fun v => by simp
  live := fun v h => ⟨List.not_mem_nil, h⟩

theorem trans (hab : Removed gone keys a b) (hbc : Removed gone' keys' b c) :
    Removed (gone' ++ gone) (keys' ++ keys) a c where
  tables := fun h => hbc.tables (hab.tables h)
  role := by
    intro v u
    rw [hbc.role, hab.role]
    simp only [List.mem_append]
    grind
  kind := by
    intro v
    rw [hbc.kind, hab.kind]
    simp only [List.mem_append]
    grind
  live := by
    intro v h
    obtain ⟨hc, hb⟩ := hbc.live v h
    obtain ⟨hb, ha⟩ := hab.live v hb
    exact ⟨fun hmem => (List.mem_append.1 hmem).elim hc hb, ha⟩

/-- A write that no view notices removes nothing. -/
theorem of_calm (hedit : Calm [] a b) (hkind : b.personalOf = a.personalOf)
    (hrole : b.roleStatus = a.roleStatus) : Removed [] [] a b where
  tables := hedit.tables
  role := fun v u => by simp [hrole]
  kind := fun v => by simp [hkind]
  live := fun v h => ⟨List.not_mem_nil, hedit.live v h⟩

end Removed

section Removes

variable {db : Db}

theorem removed_setVault {f : VaultRow → VaultRow} {v : VaultId}
    (hid : ∀ row, (f row).vaultId = row.vaultId) (hkind : ∀ row, (f row).kind = row.kind)
    (hdel : ∀ row, (f row).deletedAt = none → row.deletedAt = none)
    (howner : ∀ o, db.personalOf v = some (some o) → ∀ row, (f row).ownerId = row.ownerId) :
    Removed [] [] db (db.setVault v f) :=
  .of_calm (edit_setVault hid hkind hdel howner)
    (funext fun vaultId => Db.personalOf_setVault hid hkind howner vaultId) rfl

theorem removed_deleteMemberKeys (keys : List (VaultId × UserId)) :
    Removed [] keys db (db.deleteMemberKeys keys) where
  tables := by
    intro h
    refine ⟨h.members.sublist (List.filter_sublist.map _), h.vaults, fun v u hu => ?_⟩
    refine h.vault_of_member v u fun hnone => hu ?_
    rw [Db.deleteMemberKeys, Db.roleStatus_deleteMembers fun v u => decide ((v, u) ∈ keys), hnone,
      ite_self]
  role := by
    intro v u
    rw [Db.deleteMemberKeys, Db.roleStatus_deleteMembers fun v u => decide ((v, u) ∈ keys)]
    simp
  kind := fun v => by simp; rfl
  live := fun v h => ⟨List.not_mem_nil, h⟩

theorem removed_deleteVaults (gone : List VaultId) :
    Removed gone [] db (db.deleteVaults gone) := by
  have hrole : ∀ v u, (db.deleteVaults gone).roleStatus v u =
      if v ∈ gone then none else db.roleStatus v u := by
    intro v u
    have hdelete : (db.deleteMembers fun m => decide (m.vaultId ∈ gone)).roleStatus v u = _ :=
      Db.roleStatus_deleteMembers (fun v _ => decide (v ∈ gone)) v u
    simp only [decide_eq_true_eq] at hdelete
    rw [← hdelete]
    simp [Db.roleStatus, Db.member?, Db.deleteVaults, Db.deleteMembers]
  have hkind : ∀ v, (db.deleteVaults gone).personalOf v =
      if v ∈ gone then none else db.personalOf v := by
    intro v
    unfold Db.personalOf Db.vault? Db.deleteVaults
    rw [List.find?_filter]
    split
    · next hgone =>
        rw [Option.map_eq_none_iff, List.find?_eq_none]
        rintro row - h
        simp only [decide_eq_true_eq] at h
        exact h.1 (h.2 ▸ hgone)
    · next hgone =>
        congr 2
        funext row
        by_cases hrow : row.vaultId = v
        · simp [hrow, hgone]
        · simp [hrow]
  refine ⟨fun h => ?_, fun v u => ?_, hkind, fun v h => ?_⟩
  · refine ⟨h.members.sublist (List.filter_sublist.map _),
      h.vaults.sublist (List.filter_sublist.map _), fun v u hu => ?_⟩
    rw [hrole] at hu
    rw [hkind]
    split at hu
    · exact absurd rfl hu
    · next hgone =>
        rw [if_neg hgone]
        exact h.vault_of_member v u hu
  · rw [hrole]
    simp
  · unfold Db.isLive Db.deleteVaults at *
    simp only [List.any_eq_true, List.mem_filter, Bool.and_eq_true, decide_eq_true_eq] at h ⊢
    obtain ⟨row, ⟨hrow, hgone⟩, hid, hdel⟩ := h
    exact ⟨hid ▸ hgone, row, hrow, hid, hdel⟩

theorem removed_deleteUser (userId : UserId) (gone : List VaultId)
    (keys : List (VaultId × UserId)) :
    Removed gone keys db (db.deleteUser userId gone keys) := by
  have hrest : Removed [] [] ((db.deleteVaults gone).deleteMemberKeys keys)
      (db.deleteUser userId gone keys) := by
    have hrole : (db.deleteUser userId gone keys).roleStatus =
        ((db.deleteVaults gone).deleteMemberKeys keys).roleStatus := by
      funext v u
      unfold Db.roleStatus Db.member? Db.deleteUser
      dsimp only
      rw [List.find?_map, Option.map_map]
      rfl
    have hkind : (db.deleteUser userId gone keys).personalOf =
        ((db.deleteVaults gone).deleteMemberKeys keys).personalOf := rfl
    refine .of_calm ⟨Edit.of_eq ?_ hkind (fun _ h => h) hrole, fun v u role h => ?_⟩ hkind hrole
    · intro h
      refine ⟨?_, h.vaults, fun v u hu => ?_⟩
      · unfold Db.deleteUser
        dsimp only
        rw [List.map_map]
        exact h.members
      · rw [hrole] at hu
        exact h.vault_of_member v u hu
    · rwa [hrole]
  have := ((removed_deleteVaults gone).trans (removed_deleteMemberKeys keys)).trans hrest
  simpa using this

end Removes

/-! ### The statements of the deletion -/

/-- What a transaction removed so far, seen on any state it may be committed on. -/
def RemovedSoFar (gone : List VaultId) (keys : List (VaultId × UserId)) (pending : Db → Db)
    (held : List RowLock) (db : Db) : Prop :=
  ∀ db', VaultRely held db db' → VaultsOk db' → Removed gone keys db' (pending db')

theorem RemovedSoFar.rely {gone : List VaultId} {keys : List (VaultId × UserId)}
    {pending : Db → Db} {held held' : List RowLock} {db db' : Db}
    (h : RemovedSoFar gone keys pending held db) (hsub : held ⊆ held')
    (hr : VaultRely held db db') : RemovedSoFar gone keys pending held' db' :=
  fun db'' hr'' hok => h db'' (hr.trans (hr''.mono hsub)) hok

/-- The vaults are locked with all their memberships. -/
def LockedWhole (held : List RowLock) (gone : List VaultId) (db : Db) : Prop :=
  ∀ v ∈ gone, VaultLocked held v db ∧ ∀ u, db.roleStatus v u ≠ none → .member v u ∈ held

theorem LockedWhole.rely {held held' : List RowLock} {gone : List VaultId} {db db' : Db}
    (h : LockedWhole held gone db) (hsub : held ⊆ held') (hr : VaultRely held db db')
    (hok : VaultsOk db') : LockedWhole held' gone db' := fun v hv =>
  ⟨((h v hv).1.rely hr).mono hsub, fun u hu => hsub ((h v hv).2 u ((h v hv).1.absent hok hr hu))⟩

section Statements

variable {pending : Db → Db} {held : List RowLock} {db : Db}

theorem ok_lockThen {locks : Db → List RowLock} {next : Db → Txn}
    (h : ∀ db', VaultRely held db db' → VaultsOk db' →
      Sound (next db') id (locks db' ++ held) db') :
    Sound (.stmt (fun _ => True) locks (fun _ db => db) next) id held db :=
  fun db' hr hok _ => h db' hr hok

/-- The vaults are locked one after the other. -/
theorem ok_lockEach (vaultIds : List VaultId) {next : Txn} (hok : VaultsOk db)
    (h : ∀ db' held', held ⊆ held' → VaultRely held db db' → VaultsOk db' →
      (∀ v ∈ vaultIds, VaultLocked held' v db') → Sound next id held' db') :
    Sound (vaultIds.foldr lockVault next) id held db := by
  induction vaultIds generalizing held db with
  | nil => exact h db held (List.Subset.refl _) (VaultRely.refl _ _) hok fun v hv => by cases hv
  | cons v rest ih =>
      refine ok_lockVault fun db₁ held₁ hsub₁ hr₁ hok₁ hlocked => ?_
      refine ih hok₁ fun db₂ held₂ hsub₂ hr₂ hok₂ hrest => ?_
      refine h db₂ held₂ (fun l hl => hsub₂ (hsub₁ hl)) (hr₁.trans (hr₂.mono hsub₁)) hok₂ ?_
      intro v' hv'
      rcases List.mem_cons.1 hv' with rfl | hv'
      · exact (hlocked.rely hr₂).mono hsub₂
      · exact hrest v' hv'

theorem ok_lockVaults (vaultIds : List VaultId) {next : Txn} (hok : VaultsOk db)
    (h : ∀ db' held', held ⊆ held' → VaultRely held db db' → VaultsOk db' →
      (∀ v ∈ vaultIds, VaultLocked held' v db') → Sound next id held' db') :
    Sound (lockVaults vaultIds next) id held db :=
  ok_lockEach _ hok fun db' held' hsub hr hok' hlocked =>
    h db' held' hsub hr hok' fun v hv => hlocked v (by simpa using hv)

/-- A write that removes nothing. -/
theorem RemovedSoFar.updateVaultWhere (hp : RemovedSoFar [] [] pending held db) {v : VaultId}
    {p : VaultRow → Bool} {f : VaultRow → VaultRow} {next : Bool → Txn}
    (hid : ∀ row, (f row).vaultId = row.vaultId) (hkind : ∀ row, (f row).kind = row.kind)
    (hdel : ∀ row, (f row).deletedAt = none → row.deletedAt = none)
    (howner : ∀ o, db.personalOf v = some (some o) → ∀ row, (f row).ownerId = row.ownerId)
    (h : ∀ db' held' pending' b, held ⊆ held' → VaultRely held db db' → VaultsOk db' →
      RemovedSoFar [] [] pending' held' db' → Sound (next b) pending' held' db') :
    Sound (updateVaultWhere v p f next) pending held db := by
  refine ok_updateVaultWhere fun db' held' b hsub hr hok _ => h db' held' _ b hsub hr hok ?_
  intro db'' hr'' hok''
  have hbase := hp.rely hsub hr db'' hr'' hok''
  cases b with
  | true =>
      refine hbase.trans (removed_setVault hid hkind hdel fun o ho => howner o ?_)
      rw [hbase.kind, if_neg List.not_mem_nil] at ho
      exact hr.kind v _ ((hr''.mono hsub).kind v _ ho)
  | false => exact hbase

/-- The loop over the shared vaults changes owners on record and asks for rotations, no more. -/
theorem ok_leaveAll (userId : UserId) (members : List VaultMember) (shared : List VaultRow)
    {next : Txn} (hp : RemovedSoFar [] [] pending held db) (hok : VaultsOk db)
    (hshared : ∀ v ∈ shared, ∀ o, db.personalOf v.vaultId ≠ some (some o))
    (h : ∀ db' held' pending', held ⊆ held' → VaultRely held db db' → VaultsOk db' →
      RemovedSoFar [] [] pending' held' db' → Sound next pending' held' db') :
    Sound (leaveAll userId members shared next) pending held db := by
  induction shared generalizing pending held db with
  | nil => exact h db held pending (List.Subset.refl _) (VaultRely.refl _ _) hok hp
  | cons vault rest ih =>
      have hrest : ∀ db' held' pending', held ⊆ held' → VaultRely held db db' → VaultsOk db' →
          RemovedSoFar [] [] pending' held' db' →
          Sound (leaveAll userId members rest next) pending' held' db' := by
        intro db' held' pending' hsub hr hok' hp'
        refine ih hp' hok' (fun v hv o ho => ?_) fun db'' held'' pending'' hsub' hr' => ?_
        · exact hshared v (List.mem_cons_of_mem _ hv) o (hr.kind _ _ ho)
        · exact h db'' held'' pending'' (fun l hl => hsub' (hsub hl)) (hr.trans (hr'.mono hsub))
      have hrotate : ∀ db' held' pending', held ⊆ held' → VaultRely held db db' → VaultsOk db' →
          RemovedSoFar [] [] pending' held' db' →
          Sound (if members.any fun m => m.vaultId = vault.vaultId && m.userId = userId then
              requireRotation vault.vaultId (leaveAll userId members rest next)
            else leaveAll userId members rest next) pending' held' db' := by
        intro db' held' pending' hsub hr hok' hp'
        split
        · refine hp'.updateVaultWhere (fun _ => rfl) (fun _ => rfl) (fun _ h => h)
            (fun _ _ _ => rfl) fun db'' held'' pending'' _ hsub' hr' => ?_
          exact hrest db'' held'' pending'' (fun l hl => hsub' (hsub hl))
            (hr.trans (hr'.mono hsub))
        · exact hrest db' held' pending' hsub hr hok' hp'
      unfold leaveAll
      split
      · exact hrest db held pending (List.Subset.refl _) (VaultRely.refl _ _) hok hp
      · next other _ =>
          dsimp only
          split
          · refine hp.updateVaultWhere (fun _ => rfl) (fun _ => rfl) (fun _ h => h) ?_
              fun db' held' pending' _ => hrotate db' held' pending'
            exact fun o ho => absurd ho (hshared vault (List.mem_cons_self ..) o)
          · exact hrotate db held pending (List.Subset.refl _) (VaultRely.refl _ _) hok hp

/-- Only memberships `p` holds of when they are locked are deleted. -/
theorem ok_deleteMembersWhere {p : VaultMember → Bool} {next : Txn}
    (hp : RemovedSoFar [] [] pending held db) (hpending : ∀ m, p m = true → m.status = .pending)
    (h : ∀ db' held' pending' keys, held ⊆ held' → VaultRely held db db' → VaultsOk db' →
      RemovedSoFar [] keys pending' held' db' →
      (∀ v u, (v, u) ∈ keys → .member v u ∈ held' ∧
        ∃ role, db'.roleStatus v u = some (role, .pending)) →
      Sound next pending' held' db') :
    Sound (deleteMembersWhere p next) pending held db := by
  refine ReadCommitted.ok_read fun db₁ hr₁ _ => ReadCommitted.ok_write fun db₂ hr₂ hok₂ => ?_
  have hr : VaultRely held db db₂ := VaultRely.trans hr₁ hr₂
  have hp₂ := hp db₂ hr hok₂
  let found := (pending db₁).memberKeysWhere p
  refine h db₂ _ _ ((pending db₂).memberKeysWhere fun m => p m && (m.vaultId, m.userId) ∈ found)
    (List.subset_append_right _ _) hr hok₂ (fun db₃ hr₃ hok₃ => ?_) ?_
  · have := hp.rely (List.subset_append_right _ _) hr db₃ hr₃ hok₃
    simpa using this.trans (removed_deleteMemberKeys _)
  · intro v u hkey
    refine ⟨List.mem_append_left _ (mem_memberLocks.2 hkey), ?_⟩
    obtain ⟨m, hm, hpm⟩ := (mem_memberKeysWhere (hp₂.tables hok₂.toTablesOk)).1 hkey
    rw [Bool.and_eq_true] at hpm
    have hrole := hp₂.role v u
    simp only [List.not_mem_nil, or_self, if_false] at hrole
    rw [← hrole]
    exact ⟨m.role, roleStatus_eq_some.2 ⟨m, hm, rfl, hpending m hpm.1⟩⟩

/-- What the locks of a delete of vaults cover. -/
theorem mem_deleteVaultsLocks (hdb : TablesOk db) {gone : List VaultId} {v : VaultId}
    (hv : v ∈ gone) :
    (∀ k, db.personalOf v = some k → .vault v ∈ deleteVaultsLocks gone db) ∧
      ∀ u, db.roleStatus v u ≠ none → .member v u ∈ deleteVaultsLocks gone db := by
  unfold deleteVaultsLocks
  constructor
  · intro k hk
    obtain ⟨row, hrow, -⟩ := Option.map_eq_some_iff.1 hk
    have hid : row.vaultId = v := by simpa using List.find?_some hrow
    refine List.mem_append_left _ (List.mem_map.2 ⟨row, ?_, by rw [hid]⟩)
    exact List.mem_filter.2 ⟨List.mem_of_find?_eq_some hrow, by simpa [hid] using hv⟩
  · intro u hu
    obtain ⟨m, hm⟩ := roleStatus_ne_none.1 hu
    refine List.mem_append_right _ (mem_memberLocks.2 ((mem_memberKeysWhere hdb).2 ⟨m, hm, ?_⟩))
    rw [(Db.member?_mem hm).2.1]
    simpa using hv

/-- Vaults whose rows are locked while other memberships were removed are locked whole. -/
theorem lockedWhole_of_locks {gone gone' : List VaultId} {keys : List (VaultId × UserId)}
    (hp : Removed gone keys db (pending db)) (hok : VaultsOk db)
    (hgone : LockedWhole held gone db) (hkeys : ∀ v u, (v, u) ∈ keys → .member v u ∈ held)
    (hlocks : deleteVaultsLocks gone' (pending db) ⊆ held) :
    LockedWhole held gone' db := by
  intro v hv
  by_cases hmem : v ∈ gone
  · exact hgone v hmem
  obtain ⟨hvault, hmember⟩ := mem_deleteVaultsLocks (hp.tables hok.toTablesOk) hv
  rw [hp.kind, if_neg hmem] at hvault
  refine ⟨fun k hk => hlocks (hvault k hk), fun u hu => ?_⟩
  by_cases hkey : (v, u) ∈ keys
  · exact hkeys v u hkey
  · refine hlocks (hmember u ?_)
    rwa [hp.role, if_neg fun h => h.elim hmem hkey]

/-- A transaction that removed memberships and vaults commits soundly when it locked them, and
when an owner it removed leaves another. -/
theorem ok_commit_removed {gone : List VaultId} {keys : List (VaultId × UserId)}
    (hp : RemovedSoFar gone keys pending held db) (hgone : LockedWhole held gone db)
    (hkeys : ∀ v u, (v, u) ∈ keys → .member v u ∈ held)
    (h : ∀ db', VaultRely held db db' → VaultsOk db' → ∀ v u role, (v, u) ∈ keys →
      db'.roleStatus v u = some (role, .active) → .vault v ∈ held ∧
        (role = .owner → v ∉ gone → db'.isLive v = true →
          ∃ other, (v, other) ∉ keys ∧ db'.roleStatus v other = some (.owner, .active))) :
    Sound .commit pending held db := by
  refine ok_commit fun db' hr hok => ?_
  have hrem := hp db' hr hok
  have hgone' := hgone.rely (List.Subset.refl _) hr hok
  refine ⟨⟨hrem.tables, ?_, fun v hv => (hrem.live v hv).2, ?_, ?_, ?_, ?_⟩, ?_⟩
  · intro v k hk
    rw [hrem.kind] at hk
    split at hk
    · cases hk
    · exact hk
  · intro v k hk
    rw [hrem.kind]
    split
    · next hv => exact Or.inr ((hgone' v hv).1 k hk)
    · exact Or.inl hk
  · intro v u role hu
    rw [hrem.role]
    split
    · next hmem =>
        refine Or.inr (hmem.elim (fun hv => ?_) fun hkey => ?_)
        · exact (hgone' v hv).1.mem hok (by rw [hu]; simp)
        · exact (h db' hr hok v u role hkey hu).1
    · exact Or.inl hu
  · intro v u hu
    rw [hrem.role, hu, ite_self]
    exact Or.inl rfl
  · intro v u
    rw [hrem.role]
    by_cases hnone : db'.roleStatus v u = none
    · rw [hnone, ite_self]
      exact Or.inl rfl
    split
    · next hmem => exact Or.inr (hmem.elim (fun hv => (hgone' v hv).2 u hnone) (hkeys v u))
    · exact Or.inl rfl
  · intro v hlive
    obtain ⟨hv, hlive⟩ := hrem.live v hlive
    obtain ⟨owner, howner⟩ := hok.owned v hlive
    rw [isActiveOwner_iff] at howner
    simp only [isActiveOwner_iff, hrem.role]
    by_cases hkey : (v, owner) ∈ keys
    · obtain ⟨other, hother, hactive⟩ := (h db' hr hok v owner .owner hkey howner).2 rfl hv hlive
      exact ⟨other, by rw [if_neg fun h => h.elim hv hother, hactive]⟩
    · exact ⟨owner, by rw [if_neg fun h => h.elim hv hkey, howner]⟩

end Statements

/-! ### The deletion -/

/-- Where the user is the active owner of a vault, there is another active owner, or the vault is
one of those that are deleted, or it is their personal one, which goes with the account. -/
theorem other_owner_of_members {db₃ db₄ : Db} {held : List RowLock} {userId : UserId}
    {candidates activeIn : List VaultId} (hok₃ : VaultsOk db₃) (hok₄ : VaultsOk db₄)
    (hr : VaultRely held db₃ db₄) {v : VaultId} (hcandidate : v ∈ candidates) (hactiveIn : v ∈ activeIn)
    (hlive : db₄.isLive v = true) (hactive : db₄.roleStatus v userId = some (.owner, .active)) :
    db₄.personalOf v = some (some userId) ∨
      v ∈ deletedVaults (sharedVaults db₃ userId candidates activeIn)
        (activeMembers db₄ (sharedVaults db₃ userId candidates activeIn)) userId ∨
      ∃ other, other ≠ userId ∧ db₄.roleStatus v other = some (.owner, .active) := by
  obtain ⟨k, hk, howner⟩ := hok₄.vault_of_member v userId (by rw [hactive]; simp)
  cases k with
  | some owner => exact Or.inl (by rw [hk, howner owner rfl])
  | none =>
      refine Or.inr ?_
      -- the vault is one of the shared ones that were read
      obtain ⟨row, hrow, hshared⟩ := Option.map_eq_some_iff.1 (hr.kind v none hk)
      have hid : row.vaultId = v := by simpa using List.find?_some hrow
      have hkind : row.kind = .shared := by
        cases hkind : row.kind with
        | personal => simp [hkind] at hshared
        | shared => rfl
      have hdeleted : row.deletedAt.isNone = true := by
        have hlive₃ := hr.live v hlive
        unfold Db.isLive at hlive₃
        simp only [List.any_eq_true, Bool.and_eq_true, decide_eq_true_eq] at hlive₃
        obtain ⟨row', hmem, hid', hdel⟩ := hlive₃
        have := hok₃.vault?_eq hmem
        rw [hid', hrow] at this
        rwa [Option.some.inj this]
      have hmem : row ∈ sharedVaults db₃ userId candidates activeIn := by
        unfold sharedVaults
        simp [List.mem_of_find?_eq_some hrow, hkind, hdeleted, hid, hcandidate, hactiveIn]
      cases hother : otherOwner (activeMembers db₄ (sharedVaults db₃ userId candidates activeIn))
          userId v with
      | none =>
          refine Or.inl (List.mem_map.2 ⟨row, List.mem_filter.2 ⟨hmem, ?_⟩, hid⟩)
          rw [hid, hother]
          rfl
      | some other =>
          refine Or.inr ⟨other.userId, ?_⟩
          have hfound := List.mem_of_find?_eq_some hother
          have hcond := List.find?_some hother
          unfold activeMembers at hfound
          simp only [List.mem_filter, Bool.and_eq_true, decide_eq_true_eq] at hfound hcond
          obtain ⟨⟨hmember, -, hstatus⟩, hv⟩ := hfound
          refine ⟨hcond.1, roleStatus_eq_some.2 ⟨other, ?_, hcond.2, hstatus⟩⟩
          rw [← hv]
          exact hok₄.member?_eq hmember

/-- The vaults that go with the account are those the user is recorded as owner of. -/
theorem mem_vaultsOwnedBy {db : Db} {userId : UserId} {v : VaultId}
    (h : db.personalOf v = some (some userId)) : v ∈ db.vaultsOwnedBy userId := by
  obtain ⟨row, hrow, howner⟩ := Option.map_eq_some_iff.1 h
  have hid : row.vaultId = v := by simpa using List.find?_some hrow
  refine List.mem_map.2 ⟨row, List.mem_filter.2 ⟨List.mem_of_find?_eq_some hrow, ?_⟩, hid⟩
  split at howner
  · simpa using howner
  · cases howner

/-- What is known under the locks of a deletion: the vaults among `candidates` are locked, with the
user's memberships of them, and where the user is an active owner, there is another, or the vault is
one of `gone`, or their personal one. -/
structure Deletable (userId : UserId) (candidates gone : List VaultId) (held : List RowLock)
    (db : Db) : Prop where
  locked : ∀ v ∈ candidates, VaultLocked held v db
  own : ∀ v ∈ candidates, db.roleStatus v userId ≠ none → .member v userId ∈ held
  other : ∀ v ∈ candidates, db.isLive v = true → db.roleStatus v userId = some (.owner, .active) →
    db.personalOf v = some (some userId) ∨ v ∈ gone ∨
      ∃ other, other ≠ userId ∧ db.roleStatus v other = some (.owner, .active)

theorem Deletable.rely {userId : UserId} {candidates gone : List VaultId}
    {held held' : List RowLock} {db db' : Db} (h : Deletable userId candidates gone held db)
    (hsub : held ⊆ held') (hok : VaultsOk db) (hok' : VaultsOk db') (hr : VaultRely held db db') :
    Deletable userId candidates gone held' db' where
  locked := fun v hv => ((h.locked v hv).rely hr).mono hsub
  own := fun v hv hne => hsub (h.own v hv ((h.locked v hv).absent hok' hr hne))
  other := by
    intro v hv hlive hactive
    have hne : db.roleStatus v userId ≠ none :=
      (h.locked v hv).absent hok' hr (by rw [hactive]; simp)
    rw [hr.member v userId (h.own v hv hne)] at hactive
    rcases h.other v hv (hr.live v hlive) hactive with hpersonal | hgone | ⟨other, hne', hother⟩
    · exact Or.inl (hr.vault v _ ((h.locked v hv).mem hok hne) hpersonal)
    · exact Or.inr (Or.inl hgone)
    · exact Or.inr (Or.inr ⟨other, hne', (h.locked v hv).active hok hr hother⟩)

/-- With the row of a user, the vaults they own and their memberships are deleted. -/
theorem ok_deleteUserRow {gone : List VaultId} {keys : List (VaultId × UserId)}
    {pending : Db → Db} {held : List RowLock} {db : Db} {userId : UserId}
    {candidates : List VaultId} (hok : VaultsOk db) (hp : RemovedSoFar gone keys pending held db)
    (hgone : LockedWhole held gone db)
    (hkeys : ∀ v u, (v, u) ∈ keys → .member v u ∈ held ∧
      ∃ role, db.roleStatus v u = some (role, .pending))
    (hd : Deletable userId candidates gone held db) :
    Sound (deleteUserRow userId candidates .commit) pending held db := by
  intro db₁ hr₁ hok₁ hexpects
  have hrem := hp db₁ hr₁ hok₁
  have hsub : held ⊆ deleteUserLocks userId (pending db₁) ++ held := List.subset_append_right _ _
  have hvaults : deleteVaultsLocks ((pending db₁).vaultsOwnedBy userId) (pending db₁) ⊆
      deleteUserLocks userId (pending db₁) ++ held := fun l hl =>
    List.mem_append_left _ (List.mem_cons_of_mem _ (List.mem_append_left _ hl))
  have hown : ∀ v u, (v, u) ∈ (pending db₁).memberKeysWhere (·.userId = userId) →
      .member v u ∈ deleteUserLocks userId (pending db₁) ++ held := fun v u h =>
    List.mem_append_left _ (List.mem_cons_of_mem _
      (List.mem_append_right _ (mem_memberLocks.2 h)))
  have hd₁ := hd.rely hsub hok hok₁ hr₁
  have hgone₁ := hgone.rely hsub hr₁ hok₁
  have hgone' := lockedWhole_of_locks hrem hok₁ hgone₁ (fun v u h => hsub (hkeys v u h).1) hvaults
  have hp₁ : RemovedSoFar ((pending db₁).vaultsOwnedBy userId ++ gone)
      ((pending db₁).memberKeysWhere (·.userId = userId) ++ keys) _
      (deleteUserLocks userId (pending db₁) ++ held) db₁ := fun db₂ hr₂ hok₂ =>
    (hp.rely hsub hr₁ db₂ hr₂ hok₂).trans (removed_deleteUser userId _ _)
  refine ok_commit_removed hp₁ ?_ ?_ ?_
  · intro v hv
    exact (List.mem_append.1 hv).elim (hgone' v) (hgone₁ v)
  · intro v u h
    exact (List.mem_append.1 h).elim (hown v u) fun h => hsub (hkeys v u h).1
  · intro db₂ hr₂ hok₂ v u role hkey hactive
    -- an invite that was found stays one
    have hinvite : ∀ u role, db₂.roleStatus v u = some (role, .active) → (v, u) ∉ keys := by
      intro u role hactive hkey
      obtain ⟨hmember, role', hpending⟩ := hkeys v u hkey
      rw [(hr₁.trans (hr₂.mono hsub)).member v u hmember, hpending] at hactive
      cases hactive
    rcases List.mem_append.1 hkey with hmine | hkey
    · obtain ⟨m, hm, hmu⟩ := (mem_memberKeysWhere (hrem.tables hok₁.toTablesOk)).1 hmine
      obtain rfl : u = userId := by
        rw [← (Db.member?_mem hm).2.2]
        simpa using hmu
      have hview := hrem.role v u
      rw [Db.roleStatus, hm, Option.map_some] at hview
      split at hview
      · cases hview
      rw [hr₂.member v u (hown v u hmine)] at hactive
      rw [hactive] at hview
      obtain ⟨rfl, hstatus⟩ := Prod.mk.inj (Option.some.inj hview)
      have hv : v ∈ candidates := hexpects v m hm hstatus
      refine ⟨((hd₁.locked v hv).rely hr₂).mem hok₂ (u := u) ?_, fun hrole hnotgone hlive => ?_⟩
      · rw [hr₂.member v u (hown v u hmine), hactive]
        simp
      rw [hrole] at hactive
      rw [List.mem_append, not_or] at hnotgone
      rcases hd₁.other v hv (hr₂.live v hlive) hactive with hpersonal | hgone | ⟨other, hne, hother⟩
      · refine absurd (mem_vaultsOwnedBy ?_) hnotgone.1
        rw [hrem.kind, if_neg hnotgone.2, hpersonal]
      · exact absurd hgone hnotgone.2
      · have hother₂ := (hd₁.locked v hv).active hok₁ hr₂ hother
        refine ⟨other, fun h => ?_, hother₂⟩
        rcases List.mem_append.1 h with h | h
        · obtain ⟨m', hm', hmu'⟩ := (mem_memberKeysWhere (hrem.tables hok₁.toTablesOk)).1 h
          exact hne ((Db.member?_mem hm').2.2.symm.trans (by simpa using hmu'))
        · exact hinvite other .owner hother₂ h
    · exact absurd hkey (hinvite u role hactive)

/-- The writes of the deletion, given what was read under the locks. -/
theorem ok_deleteAll {held : List RowLock} {db : Db} {userId : UserId} {candidates : List VaultId}
    {shared : List VaultRow} {members : List VaultMember} (hok : VaultsOk db)
    (hshared : ∀ v ∈ shared, ∀ o, db.personalOf v.vaultId ≠ some (some o))
    (hd : Deletable userId candidates (deletedVaults shared members userId) held db) :
    Sound (leaveAll userId members shared <|
      deleteMembersWhere (fun m =>
        (m.sealedKey.bind (·.sealedByUserId)) = some userId && m.status = .pending) <|
      deleteVaultRows (deletedVaults shared members userId) <|
      deleteUserRow userId candidates .commit) id held db := by
  refine ok_leaveAll userId members shared (fun db _ _ => Removed.refl db) hok hshared
    fun db₁ held₁ pending₁ hsub₁ hr₁ hok₁ hp₁ => ?_
  have hd₁ := hd.rely hsub₁ hok hok₁ hr₁
  refine ok_deleteMembersWhere hp₁ (fun m hm => ?_)
    fun db₂ held₂ pending₂ keys hsub₂ hr₂ hok₂ hp₂ hkeys => ?_
  · simp only [Bool.and_eq_true, decide_eq_true_eq] at hm
    exact hm.2
  have hd₂ := hd₁.rely hsub₂ hok₁ hok₂ hr₂
  generalize deletedVaults shared members userId = gone at *
  refine ReadCommitted.ok_write fun db₃ hr₃ hok₃ => ?_
  have hsub₃ : held₂ ⊆ deleteVaultsLocks gone (pending₂ db₃) ++ held₂ :=
    List.subset_append_right _ _
  have hp₃ : RemovedSoFar gone keys (Db.deleteVaults gone ∘ pending₂)
      (deleteVaultsLocks gone (pending₂ db₃) ++ held₂) db₃ := by
    intro db' hr' hok'
    have := (hp₂.rely hsub₃ hr₃ db' hr' hok').trans (removed_deleteVaults gone)
    simpa using this
  refine ok_deleteUserRow hok₃ hp₃ ?_ ?_ (hd₂.rely hsub₃ hok₂ hok₃ hr₃)
  · exact lockedWhole_of_locks (hp₂ db₃ hr₃ hok₃) hok₃ (fun v hv => by cases hv)
      (fun v u h => hsub₃ (hkeys v u h).1) (List.subset_append_left _ _)
  · intro v u h
    obtain ⟨hmember, role, hpending⟩ := hkeys v u h
    exact ⟨hsub₃ hmember, role, by rw [VaultRely.member hr₃ v u hmember, hpending]⟩

theorem sound_deleteAccount {db : Db} (userId : UserId) :
    Sound (deleteAccount userId) id [] db := by
  refine ok_lockThen fun db₁ _ _ => ?_
  split
  · exact ok_abort
  refine ok_select fun db₂ _ hok₂ => ?_
  refine ok_lockVaults _ hok₂ fun db₃ held₃ _ hr₃ hok₃ hlocked₃ => ?_
  refine ok_lockThen fun db₄ hr₄ hok₄ => ?_
  have hown₄ : ∀ v, db₄.roleStatus v userId ≠ none → .member v userId ∈
      memberLocks (db₄.memberKeysWhere (·.userId = userId)) ++ held₃ := by
    intro v hv
    obtain ⟨m, hm⟩ := roleStatus_ne_none.1 hv
    refine List.mem_append_left _ (mem_memberLocks.2
      ((mem_memberKeysWhere hok₄.toTablesOk).2 ⟨m, hm, ?_⟩))
    simpa using (Db.member?_mem hm).2.2
  have hactive₄ : ∀ v, db₄.roleStatus v userId = some (.owner, .active) →
      v ∈ (db₄.vaultMembers.filter fun m => m.userId = userId && m.status = .active).map
        (·.vaultId) := by
    intro v hv
    obtain ⟨m, hm, -, hstatus⟩ := roleStatus_eq_some.1 hv
    obtain ⟨hmem, hvault, huser⟩ := Db.member?_mem hm
    exact List.mem_map.2 ⟨m, List.mem_filter.2 ⟨hmem, by simp [huser, hstatus]⟩, hvault⟩
  have hsub₄ : held₃ ⊆ memberLocks (db₄.memberKeysWhere (·.userId = userId)) ++ held₃ :=
    List.subset_append_right _ _
  generalize memberLocks (db₄.memberKeysWhere (·.userId = userId)) ++ held₃ = held₄ at *
  have hlocked₄ : ∀ v ∈ candidateVaults db₂ userId, VaultLocked held₄ v db₄ := fun v hv =>
    ((hlocked₃ v hv).rely hr₄).mono hsub₄
  refine ok_select fun db₅ hr₅ hok₅ => ok_select fun db₆ hr₆ hok₆ => ?_
  dsimp only
  split
  · exact ok_abort
  have hr : VaultRely held₄ db₄ db₆ := hr₅.trans hr₆
  have hown : ∀ v ∈ candidateVaults db₂ userId, db₆.roleStatus v userId ≠ none →
      .member v userId ∈ held₄ := fun v hv hne =>
    hown₄ v ((hlocked₄ v hv).absent hok₆ hr hne)
  refine ok_deleteAll hok₆ ?_ ⟨fun v hv => (hlocked₄ v hv).rely hr, hown, ?_⟩
  · intro v hv o ho
    simp only [sharedVaults, List.mem_filter, Bool.and_eq_true, decide_eq_true_eq] at hv
    have hkind := hr₆.kind v.vaultId _ ho
    rw [Db.personalOf, hok₅.vault?_eq hv.1, Option.map_some, if_neg (by rw [hv.2.1.1.1]; simp)]
      at hkind
    cases hkind
  · intro v hv hlive hactive
    refine other_owner_of_members hok₅ hok₆ hr₆ hv (hactive₄ v ?_) hlive hactive
    rw [← hr.member v userId (hown v hv (by rw [hactive]; simp)), hactive]

end Passmgr
