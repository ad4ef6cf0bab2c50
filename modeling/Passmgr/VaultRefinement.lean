/-
# Operations change vaults step by step

Every operation of `VaultCreation.lean` keeps the tables well formed and makes one of the changes of
`VaultSteps.lean` of each vault.

Main definitions:

* `LinkedOk` — the keys of the tables, and a vault for every member and link;
* `OperationStep` — an operation that commits.

Main results:

* `Refines` and its cases — what an operation does, table by table and vault by vault;
* `refines_of_run` — every operation refines the changes of a vault.
-/

import Passmgr.VaultSteps

set_option relaxedAutoImplicit false
set_option autoImplicit false

namespace Passmgr

/-- The tables are well formed, and every link is of a vault. -/
structure LinkedOk (db : Db) : Prop extends TablesOk db where
  vault_of_link : ∀ link ∈ db.vaultKeyLinks, (db.vault? link.vaultId).isSome

/-- An operation that keeps the tables well formed, and makes a change of each vault. -/
structure Refines (op : Operation) (db db' : Db) : Prop where
  tables : LinkedOk db'
  steps : ∀ v, VaultStep v op (db.view v) (db'.view v)

theorem Refines.refl {op : Operation} {db : Db} (hdb : LinkedOk db)
    (hspares : ∀ v, op.Spares v (db.view v)) : Refines op db db :=
  ⟨hdb, fun v => .same (hspares v)⟩

/-! ### The tables stay well formed -/

namespace LinkedOk

variable {db : Db} {v : VaultId} {u : UserId}

/-- A vault without a row has no members, -/
theorem member?_of_none (hdb : LinkedOk db) (h : db.vault? v = none) (u : UserId) :
    db.member? v u = none := by
  by_contra hm
  obtain ⟨kind, hkind, -⟩ := hdb.vault_of_member v u (by simpa [Db.roleStatus] using hm)
  simp [Db.personalOf, h] at hkind

/-- and no links. -/
theorem links_of_none (hdb : LinkedOk db) (h : db.vault? v = none) :
    db.vaultKeyLinks.filter (·.vaultId = v) = [] := by
  refine List.filter_eq_nil_iff.mpr fun link hlink hid => ?_
  have hvault := hdb.vault_of_link link hlink
  rw [of_decide_eq_true hid, h] at hvault
  cases hvault

theorem view_of_none (hdb : LinkedOk db) (h : db.vault? v = none) :
    db.view v = { row := none, member := fun _ => none, links := [] } :=
  VaultView.ext h (funext (hdb.member?_of_none h)) (hdb.links_of_none h)

/-- Two active owners leave one besides any user. -/
theorem otherOwner (hdb : LinkedOk db) (h : 1 < db.activeOwners v) (userId : UserId) :
    (db.view v).OtherOwner userId := by
  obtain ⟨other, hne, hother⟩ := hdb.exists_other_owner h userId
  obtain ⟨m, hm, hrole, hstatus⟩ := roleStatus_eq_some.mp hother
  exact ⟨other, m, hne, hm, hrole, hstatus⟩

theorem setMember {f : VaultMember → VaultMember}
    (hkey : ∀ m, (f m).vaultId = m.vaultId ∧ (f m).userId = m.userId) (hdb : LinkedOk db)
    (v : VaultId) (u : UserId) : LinkedOk (db.setMember v u f) :=
  ⟨tablesOk_setMember hkey v u hdb.toTablesOk, hdb.vault_of_link⟩

theorem setRole (hdb : LinkedOk db) (role : VaultRole) (v : VaultId) (u : UserId) :
    LinkedOk (db.setMember v u fun m => { m with role := role }) :=
  setMember (f := fun m => { m with role := role }) (fun _ => ⟨rfl, rfl⟩) hdb v u

theorem updateMember {p : VaultMember → Bool} {f : VaultMember → VaultMember}
    (hkey : ∀ m, (f m).vaultId = m.vaultId ∧ (f m).userId = m.userId) (hdb : LinkedOk db)
    (v : VaultId) (u : UserId) : LinkedOk (db.updateMember v u p f) := by
  unfold Db.updateMember
  split
  · exact hdb.setMember hkey v u
  · exact hdb

theorem setVault {f : VaultRow → VaultRow} (hid : ∀ row, (f row).vaultId = row.vaultId)
    (hkind : ∀ row, (f row).kind = row.kind)
    (hdel : ∀ row, (f row).deletedAt = none → row.deletedAt = none)
    (howner : ∀ o, db.personalOf v = some (some o) → ∀ row, (f row).ownerId = row.ownerId)
    (hdb : LinkedOk db) : LinkedOk (db.setVault v f) := by
  refine ⟨(@edit_setVault db [] f v hid hkind hdel howner).tables hdb.toTablesOk,
    fun link hlink => ?_⟩
  rw [Db.vault?_setVault hid]
  split
  · next heq =>
    rw [Option.isSome_map, ← heq]
    exact hdb.vault_of_link link hlink
  · exact hdb.vault_of_link link hlink

theorem markRotation (hdb : LinkedOk db) (v : VaultId) : LinkedOk (db.markRotation v) :=
  hdb.setVault (fun _ => rfl) (fun _ => rfl) (fun _ h => h) fun _ _ _ => rfl

theorem deleteMember (hdb : LinkedOk db) (v : VaultId) (u : UserId) :
    LinkedOk (db.deleteMembers fun m => m.vaultId = v && m.userId = u) := by
  refine ⟨⟨hdb.members.sublist (List.filter_sublist.map _), hdb.vaults, fun v' u' hu => ?_⟩,
    hdb.vault_of_link⟩
  refine hdb.vault_of_member v' u' fun hnone => hu ?_
  refine (Db.roleStatus_deleteMembers (fun v' u' => decide (v' = v) && decide (u' = u)) v'
    u').trans ?_
  rw [hnone, ite_self]

/-- A new member of a shared vault. -/
theorem insertMember {m : VaultMember} (hdb : LinkedOk db) {row : VaultRow}
    (hrow : db.vault? m.vaultId = some row) (hkind : row.kind = .shared)
    (hnew : db.member? m.vaultId m.userId = none) :
    LinkedOk { db with vaultMembers := db.vaultMembers ++ [m] } := by
  have hinsert : db.insertMember m = { db with vaultMembers := db.vaultMembers ++ [m] } := by
    simp [Db.insertMember, hnew]
  have hcalm : Calm [.vault m.vaultId, .member m.vaultId m.userId] db (db.insertMember m) :=
    calm_insertMember (by simp [Db.personalOf, hrow, hkind]) (by simp) (by simp)
  rw [hinsert] at hcalm
  exact ⟨hcalm.tables hdb.toTablesOk, hdb.vault_of_link⟩

end LinkedOk

/-! ### Sharing -/

section Sharing

variable {op : Operation} {db db' : Db} {actorId userId : UserId} {vaultId : VaultId}

theorem mem_manageRoles_of_canAssign {role : VaultRole} (h : canAssignRole role .manage = true) :
    role ∈ vaultManageRoles := by
  cases role <;> first | decide | cases h

theorem refines_invite {input : InviteInput} (hdb : LinkedOk db)
    (h : (invite userId input).exec db = some db') : Refines (.invite userId input) db db' := by
  obtain ⟨m, row, invitee, hm, hactive, hmanage, hassign, hrow, hlive, hshared, hversion, -, -, hother, -,
    -, hnew, rfl⟩ := of_invite h
  refine ⟨hdb.insertMember hrow hshared hnew, fun v => ?_⟩
  by_cases hv : v = input.vaultId
  · subst hv
    have hview : Db.view input.vaultId _ = _ :=
      view_insertMember (m := invitedMember userId invitee.userId input) hnew
    rw [hview]
    exact .invited userId m row invitee.userId input hm hactive
      (mem_manageRoles_of_canAssign hmanage) hrow hlive hversion hother hnew hassign hshared rfl rfl
  · rw [view_insertMember_of_ne (m := invitedMember userId invitee.userId input) hv]
    exact .same (Ne.symm hv)

theorem refines_acceptKey {keyVersion : ℕ} {wrap : WrappedKey} (hdb : LinkedOk db)
    (h : (acceptKey userId vaultId keyVersion wrap).exec db = some db') :
    Refines (.acceptKey userId vaultId keyVersion wrap) db db' := by
  obtain ⟨m, row, sealed, hm, hrow, hlive, hsealed, rfl, rfl⟩ := of_acceptKey h
  have hkey : ∀ m, (acceptedMember sealed.sealedKeyVersion wrap m).vaultId = m.vaultId ∧
      (acceptedMember sealed.sealedKeyVersion wrap m).userId = m.userId := fun _ => ⟨rfl, rfl⟩
  refine ⟨hdb.setMember hkey vaultId userId, fun v => ?_⟩
  by_cases hv : v = vaultId
  · subst hv
    rw [view_setMember hkey hm]
    exact .accepted userId m row sealed wrap hm hrow hlive hsealed rfl
  · rw [view_setMember_of_ne hkey hv]
    exact .same (Ne.symm hv)

/-- A member who goes leaves the vault marked. -/
theorem refines_removed (hdb : LinkedOk db) {m : VaultMember} {row : VaultRow}
    (hm : db.member? vaultId userId = some m) (hrow : db.vault? vaultId = some row)
    (hlive : row.deletedAt = none)
    (howners : m.role = .owner → m.status = .active → (db.view vaultId).OtherOwner userId)
    (hop : op.Removes vaultId userId) (hmay : (db.view vaultId).MayRemove row m op) :
    Refines op db ((db.deleteMembers fun m => m.vaultId = vaultId && m.userId = userId).markRotation
      vaultId) := by
  refine ⟨(hdb.deleteMember vaultId userId).markRotation vaultId, fun v => ?_⟩
  by_cases hv : v = vaultId
  · subst hv
    have hrow' : (db.deleteMembers fun m => m.vaultId = v && m.userId = userId).vault? v
      = some row := hrow
    rw [view_markRotation hrow', view_deleteMember]
    exact .removed userId m row hm hrow hlive howners hop hmay
  · rw [view_markRotation_of_ne hv, view_deleteMember_of_ne hv]
    exact .same (hop.spares hv _)

theorem refines_setMemberRole {role : VaultRole} (hdb : LinkedOk db)
    (h : (setMemberRole actorId vaultId userId role).exec db = some db') :
    Refines (.setMemberRole actorId vaultId userId role) db db' := by
  obtain ⟨actor, m, row, hactor, hactive, hmanage, hrow, hlive, hm, hbefore, hassign, howners,
    rfl⟩ := of_setMemberRole hdb.toTablesOk h
  refine ⟨hdb.setRole role vaultId userId, fun v => ?_⟩
  by_cases hv : v = vaultId
  · subst hv
    rw [view_setRole hm]
    exact .roleSet actorId actor row userId m role hactor hactive hmanage hrow hlive hm hassign
      (fun howner hstatus hrole => hdb.otherOwner (howners howner hstatus hrole) userId) rfl hbefore
  · rw [view_setRole_of_ne hv]
    exact .same (Ne.symm hv)

theorem refines_transferOwnership (hdb : LinkedOk db)
    (h : (transferOwnership actorId vaultId userId).exec db = some db') :
    Refines (.transferOwnership actorId vaultId userId) db db' := by
  obtain ⟨actor, target, row, hother, hactor, hactive, howner, hrow, hlive, hshared, htarget,
    htargetActive, rfl⟩ := of_transferOwnership h
  have hactor' : (db.setMember vaultId userId fun m => { m with role := .owner }).member? vaultId
      actorId = some actor := by
    refine (Db.member?_setMember (f := fun m => { m with role := .owner }) (fun _ => ⟨rfl, rfl⟩)
      vaultId userId vaultId actorId).trans ?_
    rw [if_neg fun heq => hother heq.2.symm, hactor]
  refine ⟨LinkedOk.setVault (fun _ => rfl) (fun _ => rfl) (fun _ h => h) (fun o ho => ?_)
    ((hdb.setRole .owner vaultId userId).setRole .manage vaultId actorId), fun v => ?_⟩
  · -- A vault that is handed over is nobody's personal one.
    change db.personalOf vaultId = _ at ho
    simp [Db.personalOf, hrow, hshared] at ho
  · by_cases hv : v = vaultId
    · subst hv
      have hrow' : ((db.setMember v userId fun m => { m with role := .owner }).setMember v actorId
        fun m => { m with role := .manage }).vault? v = some row := hrow
      rw [view_setOwner hrow', view_setRole hactor', view_setRole htarget]
      exact .transferred actorId actor userId target row hactor hactive howner hother htarget
        htargetActive hrow hlive hshared rfl
    · rw [view_setOwner_of_ne hv, view_setRole_of_ne hv, view_setRole_of_ne hv]
      exact .same (Ne.symm hv)

end Sharing

/-! ### Keys, deletion and creation -/

section Keys

variable {op : Operation} {db db' : Db} {userId : UserId} {vaultId : VaultId}

theorem refines_deleteVault {now : Time} (hdb : LinkedOk db)
    (h : (deleteVault userId vaultId now).exec db = some db') :
    Refines (.deleteVault userId vaultId now) db db' := by
  obtain ⟨m, row, hm, hactive, howner, hrow, hlive, hshared, rfl⟩ := of_deleteVault hdb.toTablesOk h
  have hview := @view_setVault db vaultId (fun row => { row with deletedAt := some now })
    (fun _ => rfl) row hrow
  refine ⟨LinkedOk.setVault (fun _ => rfl) (fun _ => rfl) (fun _ h => by cases h)
    (fun o ho => ?_) hdb, fun v => ?_⟩
  · simp [Db.personalOf, hrow, hshared] at ho
  · by_cases hv : v = vaultId
    · subst hv
      rw [hview]
      exact .deleted row now hrow userId m hm hactive howner hlive hshared rfl
    · rw [view_setVault_of_ne (f := fun row => { row with deletedAt := some now }) (fun _ => rfl) hv]
      exact .same (Ne.symm hv)

theorem LinkedOk.resealed {input : RotateKeyInput} (hdb : LinkedOk db)
    (seals : List MemberKeySeal) :
    LinkedOk (seals.foldl (fun db seal_ => db.reseal userId input seal_) db) := by
  induction seals generalizing db with
  | nil => exact hdb
  | cons seal_ rest ih =>
    have hactive := hdb.updateMember (p := (·.status = .active))
      (f := fun m => { m with sealedKey := some (input.sealed userId seal_) })
      (fun _ => ⟨rfl, rfl⟩) input.vaultId seal_.userId
    exact ih (hactive.updateMember (p := (·.status = .pending))
      (f := fun m => { m with
        sealedKey := some (input.sealed userId seal_)
        keyVersion := input.keyVersion })
      (fun _ => ⟨rfl, rfl⟩) input.vaultId seal_.userId)

theorem LinkedOk.rekeyed {input : RotateKeyInput} (hdb : LinkedOk db) {row : VaultRow}
    (hrow : db.vault? input.vaultId = some row) : LinkedOk (db.rekeyed input) := by
  have hvault : LinkedOk (db.setVault input.vaultId input.rekey) :=
    hdb.setVault (fun _ => rfl) (fun _ => rfl) (fun _ h => h) fun _ _ _ => rfl
  refine ⟨⟨hvault.members, hvault.vaults, hvault.vault_of_member⟩, fun link hlink => ?_⟩
  obtain hlink | hlink := List.mem_append.mp hlink
  · exact hvault.vault_of_link link hlink
  · obtain rfl := List.mem_singleton.mp hlink
    have hvault' := @Db.vault?_setVault db input.rekey (fun _ => rfl) input.vaultId input.vaultId
    rw [if_pos rfl, hrow] at hvault'
    exact Option.isSome_iff_exists.mpr ⟨_, hvault'⟩

/-- The other members of a vault, each once. -/
theorem otherMembers_nodup (hdb : TablesOk db) :
    (((db.vaultMembers.filter (·.vaultId = vaultId)).filter (·.userId ≠ userId)).map
      (·.userId)).Nodup := by
  have hkeys : (((db.vaultMembers.filter (·.vaultId = vaultId)).filter (·.userId ≠ userId)).map
      fun m => (m.vaultId, m.userId)).Nodup :=
    hdb.members.sublist ((List.filter_sublist.trans List.filter_sublist).map _)
  have hpairs : (((db.vaultMembers.filter (·.vaultId = vaultId)).filter (·.userId ≠ userId)).map
      fun m => (m.vaultId, m.userId)) =
      (((db.vaultMembers.filter (·.vaultId = vaultId)).filter (·.userId ≠ userId)).map
        (·.userId)).map fun u => (vaultId, u) := by
    rw [List.map_map]
    refine List.map_congr_left fun m hm => ?_
    have hid : m.vaultId = vaultId := by
      simpa using (List.mem_filter.mp (List.mem_filter.mp hm).1).2
    rw [Function.comp_apply, hid]
  rw [hpairs] at hkeys
  exact hkeys.of_map

theorem mem_otherMembers (hdb : TablesOk db) {u : UserId} :
    u ∈ ((db.vaultMembers.filter (·.vaultId = vaultId)).filter (·.userId ≠ userId)).map (·.userId)
      ↔ u ≠ userId ∧ db.member? vaultId u ≠ none := by
  simp only [List.mem_map, List.mem_filter, decide_eq_true_eq]
  constructor
  · rintro ⟨m, ⟨⟨hm, rfl⟩, hne⟩, rfl⟩
    exact ⟨hne, by simp [hdb.member?_eq hm]⟩
  · rintro ⟨hne, hm⟩
    obtain ⟨m, hm⟩ := Option.ne_none_iff_exists'.mp hm
    obtain ⟨hmem, hid, rfl⟩ := Db.member?_mem hm
    exact ⟨m, ⟨⟨hmem, hid⟩, hne⟩, rfl⟩

theorem refines_rotateKey {input : RotateKeyInput} (hvalid : input.Valid) (hdb : LinkedOk db)
    (h : (rotateKey userId input).exec db = some db') :
    Refines (.rotateKey userId input hvalid) db db' := by
  obtain ⟨m, row, hm, hactive, hmanage, hheld, hrow, hlive, hversion, hseals, rfl⟩ :=
    of_rotateKey hdb.toTablesOk h
  have hmin := hvalid.min
  have hframe := @Db.resealed_frame (db.rotated userId input) userId input input.memberKeys
  have hmembers : ∀ v u, (db.rotated userId input).member? v u =
      if v = input.vaultId ∧ u = userId then (db.member? v u).map input.rewrap
      else db.member? v u := by
    intro v u
    refine (Db.member?_setMember (f := input.rewrap) (fun _ => ⟨rfl, rfl⟩) input.vaultId userId v
      u).trans ?_
    split
    · next heq =>
      obtain ⟨rfl, rfl⟩ := heq
      rfl
    · rfl
  have hvault : ∀ v, (input.memberKeys.foldl (fun db seal_ => db.reseal userId input seal_)
      (db.rotated userId input)).vault? v
        = if v = input.vaultId then (db.vault? v).map input.rekey else db.vault? v := by
    intro v
    refine (congrArg (List.find? fun row => decide (row.vaultId = v)) hframe.1).trans ?_
    refine (@Db.vault?_setVault db input.rekey (fun _ => rfl) input.vaultId v).trans ?_
    split
    · next heq => rw [heq]
    · rfl
  have hlinked : LinkedOk (db.rotated userId input) :=
    LinkedOk.setMember (f := input.rewrap) (fun _ => ⟨rfl, rfl⟩) (hdb.rekeyed hrow) input.vaultId
      userId
  refine ⟨hlinked.resealed _, fun v => ?_⟩
  by_cases hv : v = input.vaultId
  · subst hv
    -- The key is sealed to the members besides the user, and to nobody else.
    have hsealed : ∀ u, u ∈ input.memberKeys.map (·.userId) ↔
        u ≠ userId ∧ db.member? input.vaultId u ≠ none := by
      intro u
      rw [mem_of_sealsMembers (otherMembers_nodup hdb.toTablesOk) hvalid.seals hseals,
        mem_otherMembers hdb.toTablesOk]
    refine .rotated _ userId m row input hvalid rfl hm hactive hmanage (by omega) hrow hlive
      (by omega) ?_ ?_ ?_ ?_ ?_ rfl
    · refine (hvault input.vaultId).trans ?_
      rw [if_pos rfl, hrow, Option.map_some]
    · refine (congrArg (List.filter _) hframe.2).trans ?_
      simp [Db.rotated, Db.rekeyed, Db.setMember, Db.view, RotateKeyInput.link]
    · refine (Db.member?_resealed_of_not_mem _ (Or.inr fun hmem =>
        ((hsealed userId).mp hmem).1 rfl)).trans ?_
      rw [hmembers, if_pos ⟨rfl, rfl⟩, hm, Option.map_some]
    · intro u hu
      refine (Db.member?_resealed_of_not_mem _ (Or.inr fun hmem =>
        ((hsealed u).mp hmem).2 hu)).trans ?_
      rw [hmembers]
      split
      · next heq => rw [show db.member? input.vaultId u = none from hu, Option.map_none]
      · exact hu
    · intro u other hne hu
      obtain ⟨seal_, hmem, huser, hview⟩ := @Db.member?_resealed_of_mem (db.rotated userId input)
        userId input input.memberKeys u
        ((hsealed u).mpr ⟨hne, fun hnone => by cases hu.symm.trans hnone⟩)
      refine ⟨seal_, hmem, huser, hview.trans ?_⟩
      rw [hmembers, if_neg fun heq => hne heq.2, show db.member? input.vaultId u = some other from hu,
        Option.map_some]
  · have hsame : (input.memberKeys.foldl (fun db seal_ => db.reseal userId input seal_)
        (db.rotated userId input)).view v = db.view v := by
      ext1
      · exact (hvault v).trans (if_neg hv)
      · funext u
        refine (Db.member?_resealed_of_not_mem _ (Or.inl hv)).trans ?_
        rw [hmembers, if_neg fun heq => hv heq.1]
        rfl
      · refine (congrArg (List.filter _) hframe.2).trans ?_
        simp [Db.rotated, Db.rekeyed, Db.setMember, Db.view, RotateKeyInput.link, Ne.symm hv]
    rw [hsame]
    exact .same (Ne.symm hv)

theorem refines_deleteAccount (hdb : LinkedOk db)
    (h : (deleteAccount userId).exec db = some db') : Refines (.deleteAccount userId) db db' := by
  obtain ⟨hsole, rfl⟩ := of_deleteAccount h
  have hlinked : LinkedOk (db.withoutAccount userId) := by
    refine ⟨hdb.toTablesOk.withoutAccount, fun link hlink => ?_⟩
    obtain ⟨hmem, hstays⟩ := mem_links_withoutAccount hlink
    rw [vault?_withoutAccount, if_neg hstays, Db.isSome_vault?_leaveVaults]
    exact hdb.vault_of_link link hmem
  refine ⟨hlinked, fun v => ?_⟩
  cases hrow : db.vault? v with
  | none =>
    -- Nobody made it yet, so nothing of it is there before and after.
    have hrow' : (db.withoutAccount userId).vault? v = none := by
      rw [vault?_withoutAccount]
      split
      · rfl
      · rw [← Option.not_isSome_iff_eq_none, Db.isSome_vault?_leaveVaults, hrow]
        exact Bool.false_ne_true
    rw [hlinked.view_of_none hrow', ← hdb.view_of_none hrow]
    exact .same hrow
  | some row =>
    cases hrow' : (db.withoutAccount userId).vault? v with
    | none =>
      obtain ⟨hown, halone⟩ := withoutAccount_gone hdb.toTablesOk hsole hrow hrow'
      exact .gone _ hrow' (hlinked.member?_of_none hrow') (hlinked.links_of_none hrow') userId row
        hrow hown halone rfl
    | some row' =>
      obtain ⟨hstays, row, hrow, hsame, hmarked, hmark⟩ := withoutAccount_stays hdb.toTablesOk hrow'
      refine .accountDeleted _ userId row row' hrow hrow' hsame hmarked
        (fun hlive => (hmark hlive).1) (fun hlive m hm hactive => ?_)
        (fun u => member?_withoutAccount hdb.toTablesOk hstays)
        (vaultKeyLinks_withoutAccount hstays) rfl
      obtain ⟨other, hne, m', hm', howner, hactive'⟩ := (hmark hlive).2 ⟨m, hm, hactive⟩
      exact ⟨other, m', hne, hm', howner, hactive'⟩

/-- The links of new vaults, one vault at a time. -/
theorem links_of_vault {all : List (LinkedVaultInput × VaultKind)}
    (hnodup : (all.map (·.1.vaultId)).Nodup) {vault : LinkedVaultInput} {kind : VaultKind}
    (hmem : (vault, kind) ∈ all) :
    (all.flatMap fun (vault, _) => vault.links).filter (·.vaultId = vault.vaultId)
      = vault.links := by
  induction all with
  | nil => cases hmem
  | cons head rest ih =>
    rw [List.map_cons, List.nodup_cons] at hnodup
    rw [List.flatMap_cons, List.filter_append]
    obtain heq | hmem := List.mem_cons.mp hmem
    · subst heq
      have hrest : (rest.flatMap fun (vault, _) => vault.links).filter (·.vaultId = vault.vaultId)
          = [] := by
        refine List.filter_eq_nil_iff.mpr fun link hlink hid => hnodup.1 ?_
        obtain ⟨other, hother, hlink⟩ := List.mem_flatMap.mp hlink
        obtain ⟨_, -, rfl⟩ := List.mem_map.mp hlink
        exact List.mem_map.mpr ⟨other, hother, of_decide_eq_true hid⟩
      have hhead : vault.links.filter (·.vaultId = vault.vaultId) = vault.links := by
        refine List.filter_eq_self.mpr fun link hlink => ?_
        obtain ⟨_, -, rfl⟩ := List.mem_map.mp hlink
        exact decide_eq_true rfl
      rw [hrest, List.append_nil]
      exact hhead
    · have hhead : head.1.links.filter (·.vaultId = vault.vaultId) = [] := by
        refine List.filter_eq_nil_iff.mpr fun link hlink hid => hnodup.1 ?_
        obtain ⟨_, -, rfl⟩ := List.mem_map.mp hlink
        exact List.mem_map.mpr ⟨_, hmem, (of_decide_eq_true hid).symm⟩
      have := ih hnodup.2 hmem
      rw [show head.1.links.filter (·.vaultId = vault.vaultId) = [] from hhead, List.nil_append, this]

end Keys


/-! ### New vaults -/

section NewVaults

variable {op : Operation} {db : Db} {userId : UserId} {all : List (LinkedVaultInput × VaultKind)}

theorem Db.FreshVaults.nodup (hfresh : db.FreshVaults userId all) : (all.map (·.1.vaultId)).Nodup := by
  have hkeys := hfresh.1
  rwa [List.map_map] at hkeys

theorem Db.FreshVaults.vault?_eq_none (hfresh : db.FreshVaults userId all)
    {vault : LinkedVaultInput} {kind : VaultKind} (hmem : (vault, kind) ∈ all) :
    db.vault? vault.vaultId = none := by
  refine List.find?_eq_none.mpr fun row hrow hid => ?_
  refine hfresh.2 (vault.row userId kind) (List.mem_map.mpr ⟨_, hmem, rfl⟩) ?_
  exact List.mem_map.mpr ⟨row, hrow, of_decide_eq_true hid⟩

/-- A vault that is not new is as before, -/
theorem vault?_withVaults_of_not_mem {v : VaultId} (hv : v ∉ all.map (·.1.vaultId)) :
    (db.withVaults userId all).vault? v = db.vault? v := by
  refine List.find?_append.trans ?_
  have hnone : (all.map fun (vault, kind) => vault.row userId kind).find? (·.vaultId = v) = none := by
    refine List.find?_eq_none.mpr fun row hrow hid => hv ?_
    obtain ⟨new, hnew, rfl⟩ := List.mem_map.mp hrow
    exact List.mem_map.mpr ⟨new, hnew, of_decide_eq_true hid⟩
  rw [hnone, Option.or_none]
  rfl

/-- and so are its members. -/
theorem member?_withVaults_of_not_mem {v : VaultId} {u : UserId}
    (hv : v ∉ all.map (·.1.vaultId) ∨ u ≠ userId) :
    (db.withVaults userId all).member? v u = db.member? v u := by
  refine List.find?_append.trans ?_
  have hnone : (all.map fun (vault, _) =>
      ownerMembership vault.vaultId userId vault.keyVersion vault.wrap).find?
        (fun m => m.vaultId = v && m.userId = u) = none := by
    refine List.find?_eq_none.mpr fun m hm hid => ?_
    obtain ⟨new, hnew, rfl⟩ := List.mem_map.mp hm
    simp only [Bool.and_eq_true, decide_eq_true_eq] at hid
    obtain hv | hu := hv
    · exact hv (List.mem_map.mpr ⟨new, hnew, hid.1⟩)
    · exact hu hid.2.symm
  rw [hnone, Option.or_none]
  rfl

theorem tablesOk_withVaults (hdb : LinkedOk db) (hfresh : db.FreshVaults userId all) :
    TablesOk (db.withVaults userId all) := by
  have hnodup := hfresh.nodup
  have hvaults : ((db.withVaults userId all).vaults.map (·.vaultId)).Nodup := by
    simp only [Db.withVaults, List.map_append, List.nodup_append]
    refine ⟨hdb.vaults, hfresh.1, fun id hid id' hid' heq => ?_⟩
    obtain ⟨row, hrow, rfl⟩ := List.mem_map.mp hid'
    exact hfresh.2 row hrow (heq ▸ hid)
  refine ⟨?_, hvaults, fun v u hu => ?_⟩
  · simp only [Db.withVaults, List.map_append, List.map_map, List.nodup_append]
    refine ⟨hdb.members, ?_, ?_⟩
    · have hpairs : (all.map ((fun m : VaultMember => (m.vaultId, m.userId)) ∘
          fun (vault, _) => ownerMembership vault.vaultId userId vault.keyVersion vault.wrap))
          = (all.map (·.1.vaultId)).map fun id => (id, userId) := by
        rw [List.map_map]
        rfl
      rw [hpairs]
      exact hnodup.map fun id id' heq => (Prod.mk.inj heq).1
    · intro key hkey key' hkey' heq
      obtain ⟨m, hm, rfl⟩ := List.mem_map.mp hkey
      obtain ⟨⟨vault, kind⟩, hnew, rfl⟩ := List.mem_map.mp hkey'
      -- A member of a new vault would be a member of none.
      have hid : m.vaultId = vault.vaultId := (Prod.mk.inj heq).1
      have hnone := hdb.member?_of_none (hfresh.vault?_eq_none hnew) m.userId
      rw [← hid, hdb.member?_eq hm] at hnone
      cases hnone
  · by_cases hv : v ∈ all.map (·.1.vaultId)
    · obtain ⟨⟨vault, kind⟩, hnew, rfl⟩ := List.mem_map.mp hv
      have hrow : (db.withVaults userId all).vault? vault.vaultId
          = some (vault.row userId kind) := by
        have hmem : vault.row userId kind ∈ (db.withVaults userId all).vaults :=
          List.mem_append_right _ (List.mem_map.mpr ⟨_, hnew, rfl⟩)
        have hsome : ((db.withVaults userId all).vault? vault.vaultId).isSome :=
          List.find?_isSome.mpr ⟨_, hmem, decide_eq_true rfl⟩
        obtain ⟨row, hrow⟩ := Option.isSome_iff_exists.mp hsome
        have hid : row.vaultId = vault.vaultId := by simpa using List.find?_some hrow
        rw [hrow, List.inj_on_of_nodup_map hvaults (List.mem_of_find?_eq_some hrow) hmem hid]
      have hmember : u = userId := by
        by_contra hne
        rw [Db.roleStatus, member?_withVaults_of_not_mem (Or.inr hne),
          hdb.member?_of_none (hfresh.vault?_eq_none hnew)] at hu
        exact hu rfl
      refine ⟨if kind = .personal then some userId else none, by
        simp [Db.personalOf, hrow, LinkedVaultInput.row, newVault], fun owner howner => ?_⟩
      split at howner
      · exact hmember.trans (Option.some.inj howner)
      · cases howner
    · have hrole : (db.withVaults userId all).roleStatus v u = db.roleStatus v u := by
        rw [Db.roleStatus, member?_withVaults_of_not_mem (Or.inl hv)]
        rfl
      have hkind : (db.withVaults userId all).personalOf v = db.personalOf v := by
        rw [Db.personalOf, vault?_withVaults_of_not_mem hv]
        rfl
      rw [hkind]
      exact hdb.vault_of_member v u (hrole ▸ hu)

theorem refines_withVaults (hdb : LinkedOk db) (hfresh : db.FreshVaults userId all)
    (hspares : ∀ v, op.Spares v (db.view v))
    (hop : ∀ vault kind, (vault, kind) ∈ all → op.Creates userId kind) :
    Refines op db (db.withVaults userId all) := by
  have htables := tablesOk_withVaults hdb hfresh
  have hrow : ∀ {vault : LinkedVaultInput} {kind : VaultKind}, (vault, kind) ∈ all →
      (db.withVaults userId all).vault? vault.vaultId = some (vault.row userId kind) :=
    fun hnew => htables.vault?_eq
      (List.mem_append_right _ (List.mem_map.mpr ⟨_, hnew, rfl⟩))
  refine ⟨⟨htables, fun link hlink => ?_⟩, fun v => ?_⟩
  · obtain hlink | hlink := List.mem_append.mp hlink
    · by_cases hv : link.vaultId ∈ all.map (·.1.vaultId)
      · obtain ⟨⟨vault, kind⟩, hnew, hid⟩ := List.mem_map.mp hv
        rw [← hid, hrow hnew]
        rfl
      · rw [vault?_withVaults_of_not_mem hv]
        exact hdb.vault_of_link link hlink
    · obtain ⟨⟨vault, kind⟩, hnew, hlink⟩ := List.mem_flatMap.mp hlink
      obtain ⟨_, -, rfl⟩ := List.mem_map.mp hlink
      rw [hrow hnew]
      rfl
  · by_cases hv : v ∈ all.map (·.1.vaultId)
    · obtain ⟨⟨vault, kind⟩, hnew, rfl⟩ := List.mem_map.mp hv
      have hnone := hfresh.vault?_eq_none hnew
      have hview : (db.withVaults userId all).view vault.vaultId = {
          row := some (vault.row userId kind)
          member := Function.update (fun _ => none) userId
            (some (ownerMembership vault.vaultId userId vault.keyVersion vault.wrap))
          links := vault.links } := by
        ext1
        · exact hrow hnew
        · funext u
          dsimp only
          rw [Function.update_apply]
          split
          · next hu =>
            subst hu
            exact htables.member?_eq (List.mem_append_right _ (List.mem_map.mpr ⟨_, hnew, rfl⟩))
          · next hu =>
            exact (member?_withVaults_of_not_mem (Or.inr hu)).trans (hdb.member?_of_none hnone u)
        · refine (List.filter_append _ _).trans ?_
          rw [hdb.links_of_none hnone, List.nil_append]
          exact links_of_vault (hfresh.nodup) hnew
      rw [hview]
      refine .created (vault.row userId kind) userId vault.wrap vault.links hnone rfl rfl ?_ rfl
        (hop vault kind hnew)
      rw [isCompleteKeyChain_iff, LinkedVaultInput.links, List.map_map]
      exact isCompleteKeyChain_iff.mp vault.complete
    · have hview : (db.withVaults userId all).view v = db.view v := by
        ext1
        · exact vault?_withVaults_of_not_mem hv
        · funext u
          exact member?_withVaults_of_not_mem (Or.inl hv)
        · refine (List.filter_append _ _).trans ?_
          have hnone : (all.flatMap fun (vault, _) => vault.links).filter (·.vaultId = v) = [] := by
            refine List.filter_eq_nil_iff.mpr fun link hlink hid => hv ?_
            obtain ⟨new, hnew, hlink⟩ := List.mem_flatMap.mp hlink
            obtain ⟨_, -, rfl⟩ := List.mem_map.mp hlink
            exact List.mem_map.mpr ⟨new, hnew, of_decide_eq_true hid⟩
          rw [hnone, List.append_nil]
          rfl
      rw [hview]
      exact .same (hspares v)

end NewVaults

/-- **Every operation refines the changes of a vault.** -/
theorem refines_of_run {db db' : Db} (hdb : LinkedOk db) {op : Operation}
    (h : op.run db = some db') : Refines op db db' := by
  cases op with
  | finishRegistration input =>
    obtain rfl | ⟨hfresh, -, -, rfl⟩ := of_finishRegistration h
    · exact .refl hdb fun _ => trivial
    · have huser : LinkedOk (db.withUser input) :=
        ⟨⟨hdb.members, hdb.vaults, hdb.vault_of_member⟩, hdb.vault_of_link⟩
      obtain ⟨htables, hsteps⟩ := @refines_withVaults (.finishRegistration input) _ _ _ huser hfresh
        (fun _ => trivial) fun _ _ _ => rfl
      exact ⟨htables, hsteps⟩
  | create userId input =>
    obtain ⟨hfresh, rfl⟩ := of_create h
    refine refines_withVaults hdb hfresh (fun _ => trivial) fun vault kind hnew => ?_
    obtain ⟨-, rfl⟩ := Prod.mk.inj (List.mem_singleton.mp hnew)
    exact ⟨rfl, rfl⟩
  | invite userId input => exact refines_invite hdb h
  | acceptKey userId vaultId keyVersion wrap => exact refines_acceptKey hdb h
  | declineInvite userId vaultId =>
    obtain ⟨m, row, hm, hpending, hrow, hlive, rfl⟩ := of_declineInvite h
    exact refines_removed hdb hm hrow hlive
      (fun _ hactive => by rw [hpending] at hactive; cases hactive) ⟨rfl, rfl⟩ hpending
  | setMemberRole actorId vaultId userId role => exact refines_setMemberRole hdb h
  | removeMember actorId vaultId userId =>
    obtain ⟨actor, m, row, hother, hactor, hactive, hmanage, hrow, hlive, hm, hassign, rfl⟩ :=
      of_removeMember hdb.toTablesOk h
    refine refines_removed hdb hm hrow hlive (fun howner _ => ?_) ⟨rfl, rfl⟩
      ⟨hother, actor, hactor, hactive, hmanage, hassign⟩
    -- Only an owner can remove an owner.
    refine ⟨actorId, actor, hother.symm, hactor, ?_, hactive⟩
    rw [howner] at hassign
    cases hrole : actor.role <;> rw [hrole] at hassign <;> first | rfl | cases hassign
  | leave userId vaultId =>
    obtain ⟨m, row, hm, hactive, hrow, hlive, hshared, howners, rfl⟩ := of_leave h
    exact refines_removed hdb hm hrow hlive
      (fun howner _ => hdb.otherOwner (howners howner) userId) ⟨rfl, rfl⟩ ⟨hactive, hshared⟩
  | transferOwnership actorId vaultId userId => exact refines_transferOwnership hdb h
  | rotateKey userId input valid => exact refines_rotateKey valid hdb h
  | deleteVault userId vaultId now => exact refines_deleteVault hdb h
  | deleteAccount userId => exact refines_deleteAccount hdb h

end Passmgr
