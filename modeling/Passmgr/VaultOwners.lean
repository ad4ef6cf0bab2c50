/-
# Every operation leaves an owner

One lemma for each operation on the members of a vault: run on its own, whatever the others do
meanwhile within what its locks promise, it keeps an active owner in every live vault.

Main results:

* `sound_invite`, `sound_acceptKey`, … — the operations on one vault.
-/

import Passmgr.VaultRely

set_option relaxedAutoImplicit false
set_option autoImplicit false

namespace Passmgr

/-! ### What a read tells -/

section Reads

variable {db : Db} {userId : UserId} {vaultId : VaultId}

theorem of_ownMembership {own : Db.OwnMembership} (h : db.ownMembership userId vaultId = some own) :
    db.roleStatus vaultId userId = some (own.role, own.status) ∧
      (own.kind = .shared → db.personalOf vaultId = some none) := by
  unfold Db.ownMembership at h
  split at h
  · next m v hm hv =>
      split at h
      · obtain rfl := Option.some.inj h
        refine ⟨by rw [Db.roleStatus, hm, Option.map_some], fun hkind => ?_⟩
        rw [Db.personalOf, hv, Option.map_some, if_neg]
        intro hpersonal
        rw [hpersonal] at hkind
        cases hkind
      · cases h
  · cases h

/-- The kind a vault had when it was read is the kind it still has. -/
theorem kind_of_rely {held : List RowLock} {a b : Db} {k k' : Option UserId}
    (hr : VaultRely held a b) (ha : a.personalOf vaultId = some k)
    (hb : b.personalOf vaultId = some k') : k' = k := by
  have := hr.kind vaultId k' hb
  rw [ha] at this
  exact (Option.some.inj this).symm

end Reads

/-! ### Operations that leave everyone in -/

theorem sound_invite {db : Db} (userId : UserId) (input : InviteInput) :
    Sound (invite userId input) id [] db := by
  refine ok_select fun db₁ _ _ => ?_
  split
  · exact ok_abort
  next own hown =>
  split
  · exact ok_abort
  split
  · exact ok_abort
  split
  · exact ok_abort
  next hkind =>
  have hshared := (of_ownMembership hown).2 (by simpa using hkind)
  refine ok_lockVault fun db₂ held hsub hr₂ _ hlocked => ok_select fun db₃ hr₃ _ => ?_
  split
  · exact ok_abort
  next hversion =>
  -- the vault was still there after it was locked
  obtain ⟨k, hk⟩ : ∃ k, db₃.personalOf input.vaultId = some k := by
    rw [ne_eq, not_not] at hversion
    obtain ⟨row, hrow, -⟩ := Option.map_eq_some_iff.1 hversion
    exact ⟨_, by rw [Db.personalOf, hrow, Option.map_some]⟩
  obtain rfl : k = none := kind_of_rely (hr₂.trans (hr₃.mono hsub)) hshared hk
  have hvault : .vault input.vaultId ∈ held := (hlocked.rely hr₃) _ hk
  refine ok_select fun db₄ hr₄ _ => ?_
  split
  · exact ok_abort
  split
  · exact ok_abort
  refine ok_select fun db₅ hr₅ _ => ?_
  split
  · exact ok_abort
  refine ok_select fun db₆ hr₆ _ => ?_
  split
  · exact ok_abort
  exact ok_insertMemberRow hvault ((hr₄.trans (hr₅.trans hr₆)).vault _ _ hvault hk)

theorem sound_acceptKey {db : Db} (userId : UserId) (vaultId : VaultId) (keyVersion : ℕ)
    (wrap : WrappedKey) : Sound (acceptKey userId vaultId keyVersion wrap) id [] db := by
  refine ok_select fun db₁ _ _ => ?_
  split
  · exact ok_abort
  refine (calmSoFar_id [] db₁).updateMemberWhere (fun _ => ⟨rfl, rfl⟩) (fun _ => rfl)
    (fun _ _ => rfl) fun db₂ held pending accepted _ hcalm => ?_
  cases accepted with
  | true => exact hcalm.ok_commit
  | false => exact ok_abort

/-- What a decline deletes is an invite, not a membership. -/
theorem sound_declineInvite {db : Db} (userId : UserId) (vaultId : VaultId) :
    Sound (declineInvite userId vaultId) id [] db := by
  refine ok_select fun db₁ _ _ => ?_
  split
  · exact ok_abort
  split
  · exact ok_abort
  refine ok_deleteMemberRow fun db₂ db₃ _ _ hexpects _ _ hstays role hactive => ?_
  rw [hstays] at hactive
  obtain ⟨m, hm, -, hstatus⟩ := roleStatus_eq_some.1 hactive
  have hpending := hexpects m hm
  rw [hstatus] at hpending
  cases hpending

theorem sound_resealAll {pending : Db → Db} {held : List RowLock} {db : Db} (senderId : UserId)
    (input : RotateKeyInput) (seals : List MemberKeySeal) (h : CalmSoFar pending held db) :
    Sound (resealAll senderId input seals) pending held db := by
  induction seals generalizing pending held db with
  | nil => exact h.ok_commit
  | cons seal_ rest ih =>
      unfold resealAll
      refine h.updateMemberWhere (fun _ => ⟨rfl, rfl⟩) (fun _ => rfl) (fun _ h => h)
        fun db₁ held₁ pending₁ _ _ h₁ => ?_
      refine h₁.updateMemberWhere (fun _ => ⟨rfl, rfl⟩) (fun _ => rfl) (fun _ h => h)
        fun db₂ held₂ pending₂ _ _ h₂ => ?_
      exact ih h₂

/-- A key link is nobody's membership. -/
theorem calm_vaultKeyLinks {held : List RowLock} {db : Db} (links : List VaultKeyLink) :
    Calm held db { db with vaultKeyLinks := db.vaultKeyLinks ++ links } :=
  ⟨Edit.of_eq (fun h => ⟨h.members, h.vaults, h.vault_of_member⟩) rfl (fun _ h => h) rfl,
    fun _ _ _ h => h⟩

theorem sound_rotateKey {db : Db} (userId : UserId) (input : RotateKeyInput) :
    Sound (rotateKey userId input) id [] db := by
  refine ok_select fun db₁ _ _ => ?_
  split
  · exact ok_abort
  refine ok_lockVault fun db₂ held _ _ _ _ => ok_select fun db₃ _ _ => ?_
  dsimp only
  split
  · exact ok_abort
  refine ok_select fun db₄ _ _ => ?_
  split
  · exact ok_abort
  refine (calmSoFar_id held db₄).updateVaultWhere (fun _ => rfl) (fun _ => rfl) (fun _ h => h)
    (fun _ => rfl) fun db₅ held₅ pending rotated _ hcalm => ?_
  split
  · exact ok_abort
  refine ReadCommitted.ok_write fun db₆ hr₆ _ => ?_
  have hcalm₆ : CalmSoFar ((fun db => { db with
      vaultKeyLinks := db.vaultKeyLinks ++ [{ input.previousKey with vaultId := input.vaultId }] })
        ∘ pending) held₅ db₆ :=
    fun db' hr' hok' =>
      (hcalm.rely (List.Subset.refl _) hr₆ db' hr' hok').trans (calm_vaultKeyLinks _)
  refine hcalm₆.updateMemberWhere (fun _ => ⟨rfl, rfl⟩) (fun _ => rfl) (fun _ h => h)
    fun db₇ held₇ pending₇ _ _ hcalm₇ => ?_
  exact sound_resealAll userId input input.memberKeys hcalm₇

/-- A vault that is deleted needs no owner. -/
theorem sound_deleteVault {db : Db} (userId : UserId) (vaultId : VaultId) (now : Time) :
    Sound (deleteVault userId vaultId now) id [] db := by
  refine ok_select fun db₁ _ _ => ?_
  split
  · exact ok_abort
  refine (calmSoFar_id [] db₁).updateVaultWhere (fun _ => rfl) (fun _ => rfl)
    (fun _ h => by cases h) (fun _ => rfl) fun db₂ held pending deleted _ hcalm => ?_
  cases deleted with
  | true => exact hcalm.ok_commit
  | false => exact ok_abort

/-! ### Operations that change who owns a vault -/

section SetRole

variable {held : List RowLock} {db : Db} {v : VaultId} {u : UserId} {role : VaultRole}

theorem Db.roleStatus_setRole (role : VaultRole) (v' : VaultId) (u' : UserId) :
    (db.setMember v u fun m => { m with role := role }).roleStatus v' u' =
      if v' = v ∧ u' = u then (db.roleStatus v u).map fun s => (role, s.2)
      else db.roleStatus v' u' := by
  rw [Db.roleStatus_setMember (f := fun m => { m with role := role }) fun _ => ⟨rfl, rfl⟩]
  split
  · rw [Db.roleStatus, Option.map_map]
    rfl
  · rfl

theorem edit_setRole (role : VaultRole) (hmember : .member v u ∈ held)
    (hvault : db.roleStatus v u ≠ none → .vault v ∈ held) :
    Edit held db (db.setMember v u fun m => { m with role := role }) := by
  refine edit_setMember (f := fun m => { m with role := role }) (fun _ => ⟨rfl, rfl⟩) hmember ?_
  intro m hm _
  exact Or.inr (hvault (by rw [Db.roleStatus, hm]; simp))

/-- Who loses the role of an owner leaves another. -/
theorem owned_setRole (role : VaultRole) (howned : Owned db)
    (hother : role ≠ .owner → db.isLive v = true →
      ∃ other, other ≠ u ∧ db.roleStatus v other = some (.owner, .active)) :
    Owned (db.setMember v u fun m => { m with role := role }) := by
  intro v' hlive
  obtain ⟨owner, howner⟩ := howned v' hlive
  simp only [isActiveOwner_iff, Db.roleStatus_setRole] at howner ⊢
  by_cases heq : v' = v ∧ owner = u
  · obtain ⟨rfl, rfl⟩ := heq
    by_cases hrole : role = .owner
    · exact ⟨owner, by rw [if_pos ⟨rfl, rfl⟩, howner, hrole, Option.map_some]⟩
    · obtain ⟨other, hne, hactive⟩ := hother hrole hlive
      exact ⟨other, by rw [if_neg fun h => hne h.2, hactive]⟩
  · exact ⟨owner, by rw [if_neg heq, howner]⟩

/-- A role given under the lock of the vault. -/
theorem ok_setRole (hok : VaultsOk db) (hlocked : VaultLocked held v db)
    (hother : role ≠ .owner → db.isLive v = true →
      ∃ other, other ≠ u ∧ db.roleStatus v other = some (.owner, .active)) :
    Sound (updateMemberWhere v u (fun _ => true) (fun m => { m with role := role })
      fun _ => .commit) id held db := by
  refine ok_updateMemberWhere fun db₁ held₁ b hsub hr₁ hok₁ _ hmember => ok_commit ?_
  intro db₂ hr₂ hok₂
  cases b with
  | false => exact ⟨Edit.refl _ _, hok₂.owned⟩
  | true =>
      have hr : VaultRely held db db₂ := hr₁.trans (hr₂.mono hsub)
      refine ⟨edit_setRole role (hmember rfl) fun hu => hsub ((hlocked.rely hr).mem hok₂ hu), ?_⟩
      refine owned_setRole role hok₂.owned fun hrole hlive => ?_
      obtain ⟨other, hne, hactive⟩ := hother hrole (hr.live v hlive)
      exact ⟨other, hne, hlocked.active hok hr hactive⟩

end SetRole

theorem sound_setMemberRole {db : Db} (actorId : UserId) (vaultId : VaultId) (userId : UserId)
    (role : VaultRole) : Sound (setMemberRole actorId vaultId userId role) id [] db := by
  refine ok_select fun db₁ _ _ => ?_
  split
  · exact ok_abort
  refine ok_lockVault fun db₂ held _ _ _ hlocked => ok_select fun db₃ hr₃ hok₃ => ?_
  split
  · exact ok_abort
  next target htarget =>
  split
  · exact ok_abort
  dsimp only
  split
  · refine ok_select fun db₄ hr₄ hok₄ => ?_
    split
    · exact ok_abort
    · next howners =>
        refine ok_setRole hok₄ (hlocked.rely (hr₃.trans hr₄)) fun _ _ => ?_
        exact hok₄.exists_other_owner (not_le.1 howners) userId
  · next hkeeps =>
      refine ok_setRole hok₃ (hlocked.rely hr₃) fun hrole hlive => ?_
      obtain ⟨owner, howner⟩ := hok₃.owned vaultId hlive
      refine ⟨owner, ?_, isActiveOwner_iff.1 howner⟩
      rintro rfl
      obtain ⟨m, hm, hmrole, hmstatus⟩ := howner
      rw [htarget] at hm
      obtain rfl := Option.some.inj hm
      exact hkeeps ⟨hmrole, hmstatus, hrole⟩

/-- Whoever removes an active owner is one, and stays. -/
theorem sound_removeMember {db : Db} (actorId : UserId) (vaultId : VaultId) (userId : UserId) :
    Sound (removeMember actorId vaultId userId) id [] db := by
  unfold removeMember
  split
  · exact ok_abort
  next hne =>
  refine ok_select fun db₁ _ _ => ?_
  split
  · exact ok_abort
  refine ok_lockVault fun db₂ held _ _ _ hlocked => ok_select fun db₃ hr₃ _ => ?_
  split
  · exact ok_abort
  split
  · exact ok_abort
  refine ok_deleteMemberRow fun db₄ db₅ hr₄ hok₄ hexpects hr₅ hok₅ hstays role hactive => ?_
  have hlocked₄ : VaultLocked held vaultId db₄ := hlocked.rely (hr₃.trans hr₄)
  refine ⟨(hlocked₄.rely hr₅).mem hok₅ (by rw [hactive]; simp), ?_⟩
  rintro rfl
  rw [hstays] at hactive
  have hactor := isActiveOwner_iff.1 (hexpects (isActiveOwner_iff.2 hactive))
  exact ⟨actorId, fun h => hne h.symm, hlocked₄.active hok₄ hr₅ hactor⟩

/-- An owner who leaves counted another. -/
theorem sound_leave {db : Db} (userId : UserId) (vaultId : VaultId) :
    Sound (leave userId vaultId) id [] db := by
  refine ok_select fun db₁ _ _ => ?_
  split
  · exact ok_abort
  next own hown =>
  split
  · exact ok_abort
  split
  · exact ok_abort
  refine ok_lockVault fun db₂ held _ _ _ hlocked => ?_
  dsimp only
  split
  · refine ok_select fun db₃ hr₃ hok₃ => ?_
    split
    · exact ok_abort
    next howners =>
    obtain ⟨other, hne, hother⟩ := hok₃.exists_other_owner (not_le.1 howners) userId
    refine ok_deleteMemberRow fun db₄ db₅ hr₄ hok₄ _ hr₅ hok₅ _ role hactive => ?_
    have hr : VaultRely held db₃ db₅ := hr₄.trans hr₅
    refine ⟨(hlocked.rely (hr₃.trans hr)).mem hok₅ (by rw [hactive]; simp), fun _ => ?_⟩
    exact ⟨other, hne, (hlocked.rely hr₃).active hok₃ hr hother⟩
  · next hrole =>
      refine ok_deleteMemberRow fun db₄ db₅ hr₄ hok₄ hexpects hr₅ hok₅ hstays role hactive => ?_
      refine ⟨(hlocked.rely (hr₄.trans hr₅)).mem hok₅ (by rw [hactive]; simp), ?_⟩
      rintro rfl
      rw [hstays] at hactive
      exact absurd (hexpects (isActiveOwner_iff.2 hactive)) hrole

/-- The member an owner hands the vault to was active, and so is an owner afterwards. -/
theorem sound_transferOwnership {db : Db} (actorId : UserId) (vaultId : VaultId)
    (userId : UserId) : Sound (transferOwnership actorId vaultId userId) id [] db := by
  unfold transferOwnership
  split
  · exact ok_abort
  next hne =>
  refine ok_select fun db₁ _ _ => ?_
  split
  · exact ok_abort
  next own hown =>
  split
  · exact ok_abort
  split
  · exact ok_abort
  next hkind =>
  have hshared : db₁.personalOf vaultId = some none :=
    (of_ownMembership hown).2 (by rw [not_or, not_not, not_not] at hkind; exact hkind.2)
  refine ok_lockVault fun db₂ held _ hr₂ _ hlocked => ok_select fun db₃ hr₃ hok₃ => ?_
  split
  · exact ok_abort
  next target htarget =>
  split
  · exact ok_abort
  next hstatus =>
  have hactive : db₃.roleStatus vaultId userId = some (target.role, .active) :=
    roleStatus_eq_some.2 ⟨target, htarget, rfl, not_not.1 hstatus⟩
  have hlocked₃ := hlocked.rely hr₃
  refine ok_updateMemberWhere fun db₄ held₄ b₄ hsub₄ hr₄ hok₄ hb₄ hmember₄ => ?_
  obtain rfl : b₄ = true := by
    rw [← hb₄]
    obtain ⟨m, hm, -⟩ := roleStatus_eq_some.1 (hlocked₃.active hok₃ hr₄ hactive)
    rw [id, hm, Option.any_some]
  refine ok_updateMemberWhere fun db₅ held₅ b₅ hsub₅ hr₅ _ _ hmember₅ => ?_
  refine ok_updateVaultWhere fun db₆ held₆ b₆ hsub₆ hr₆ _ _ => ok_commit ?_
  intro db₇ hr₇ hok₇
  have hsub : held ⊆ held₆ := fun l hl => hsub₆ (hsub₅ (hsub₄ hl))
  have hr : VaultRely held db₃ db₇ := hr₄.trans ((hr₅.mono hsub₄).trans
    ((hr₆.mono (fun l hl => hsub₅ (hsub₄ hl))).trans (hr₇.mono hsub)))
  have htarget₇ := hlocked₃.active hok₃ hr hactive
  have hvault : .vault vaultId ∈ held₆ :=
    hsub ((hlocked₃.rely hr).mem hok₇ (by rw [htarget₇]; simp))
  -- the target is an owner now, whatever becomes of the actor
  have hfirst : Edit held₆ db₇ (db₇.setMember vaultId userId fun m => { m with role := .owner }) :=
    edit_setRole .owner (hsub₆ (hsub₅ (hmember₄ rfl))) fun _ => hvault
  have howned : Owned (db₇.setMember vaultId userId fun m => { m with role := .owner }) :=
    owned_setRole .owner hok₇.owned fun h => absurd rfl h
  have htarget' : (db₇.setMember vaultId userId fun m => { m with role := .owner }).roleStatus
      vaultId userId = some (.owner, .active) := by
    rw [Db.roleStatus_setRole, if_pos ⟨rfl, rfl⟩, htarget₇, Option.map_some]
  have hsecond : ∀ db, Edit held₆ db₇ db → Owned db →
      db.roleStatus vaultId userId = some (.owner, .active) →
      Edit held₆ db₇ ((if b₅ then Db.setMember vaultId actorId fun m => { m with role := .manage }
        else id) db) ∧
      Owned ((if b₅ then Db.setMember vaultId actorId fun m => { m with role := .manage }
        else id) db) := by
    intro db hedit howned htarget
    cases b₅ with
    | true =>
        refine ⟨hedit.trans (edit_setRole .manage (hsub₆ (hmember₅ rfl)) fun _ => hvault), ?_⟩
        exact owned_setRole .manage howned fun _ _ => ⟨userId, hne, htarget⟩
    | false => exact ⟨hedit, howned⟩
  obtain ⟨hedit, howned⟩ := hsecond _ hfirst howned htarget'
  have hthird : ∀ db, Edit held₆ db₇ db → Calm held₆ db
      ((if b₆ then Db.setVault vaultId fun v => { v with ownerId := userId } else id) db) := by
    intro db hedit
    cases b₆ with
    | true =>
        refine edit_setVault (fun _ => rfl) (fun _ => rfl) (fun _ h => h) fun o ho => ?_
        have := kind_of_rely (hr₂.trans ((hr₃.trans hr).mono (List.nil_subset _))) hshared
          (hedit.kind vaultId _ ho)
        cases this
    | false => exact Calm.refl _ _
  exact ⟨hedit.trans (hthird _ hedit).toEdit, (hthird _ hedit).owned howned⟩

end Passmgr
