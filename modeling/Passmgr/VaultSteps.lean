/-
# What an operation does to one vault

One vault as its row, its members and its key links, and the changes an operation can make of it.
`VaultRefinement.lean` shows that the operations make no others: whatever is true of every change of
a vault is true of every sequence of operations.

Main definitions:

* `VaultView`, `Db.view` — one vault of the tables;
* `VaultStep` — the changes of a vault, with what the operation checked.

Main results:

* `view_setVault`, `view_setMember`, … — one vault after a write;
* `Db.member?_reseal`, `mem_of_sealsMembers` — the members a rotation seals its key to.
-/

import Passmgr.VaultCreation

set_option relaxedAutoImplicit false
set_option autoImplicit false

namespace Passmgr

/-! ### One vault -/

/-- One vault: its row, its members by user, and its key links in the order they were inserted. -/
@[ext] structure VaultView where
  row : Option VaultRow
  member : UserId → Option VaultMember
  links : List VaultKeyLink

/-- What the tables hold of a vault. -/
def Db.view (vaultId : VaultId) (db : Db) : VaultView where
  row := db.vault? vaultId
  member := db.member? vaultId
  links := db.vaultKeyLinks.filter (·.vaultId = vaultId)

namespace VaultView

/-- The vault with another membership row of a user. -/
def setMember (userId : UserId) (m : Option VaultMember) (view : VaultView) : VaultView :=
  { view with member := Function.update view.member userId m }

/-- The vault with another row. -/
def setRow (row : VaultRow) (view : VaultView) : VaultView := { view with row := some row }

@[simp] theorem row_setMember (view : VaultView) (userId : UserId) (m : Option VaultMember) :
    (view.setMember userId m).row = view.row := rfl

@[simp] theorem links_setMember (view : VaultView) (userId : UserId) (m : Option VaultMember) :
    (view.setMember userId m).links = view.links := rfl

@[simp] theorem row_setRow (view : VaultView) (row : VaultRow) :
    (view.setRow row).row = some row := rfl

@[simp] theorem member_setRow (view : VaultView) (row : VaultRow) :
    (view.setRow row).member = view.member := rfl

@[simp] theorem links_setRow (view : VaultView) (row : VaultRow) :
    (view.setRow row).links = view.links := rfl

theorem member_setMember (view : VaultView) (userId u : UserId) (m : Option VaultMember) :
    (view.setMember userId m).member u = if u = userId then m else view.member u :=
  Function.update_apply _ _ _ _

end VaultView

/-- An active owner of the vault besides a user. -/
def VaultView.OtherOwner (w : VaultView) (userId : UserId) : Prop :=
  ∃ u m, u ≠ userId ∧ w.member u = some m ∧ m.role = .owner ∧ m.status = .active

/-- The operation leaves a vault alone: it is about another one, or about an account while the vault
is not there. -/
def Operation.Spares (vaultId : VaultId) (w : VaultView) : Operation → Prop
  | .finishRegistration _ => True
  | .create _ _ => True
  | .invite _ input => input.vaultId ≠ vaultId
  | .acceptKey _ v _ _ => v ≠ vaultId
  | .declineInvite _ v => v ≠ vaultId
  | .setMemberRole _ v _ _ => v ≠ vaultId
  | .removeMember _ v _ => v ≠ vaultId
  | .leave _ v => v ≠ vaultId
  | .transferOwnership _ v _ => v ≠ vaultId
  | .rotateKey _ input _ => input.vaultId ≠ vaultId
  | .deleteVault _ v _ => v ≠ vaultId
  | .deleteAccount _ => w.row = none

/-- The operation takes the membership of a user in a vault. -/
def Operation.Removes (vaultId : VaultId) (userId : UserId) : Operation → Prop
  | .declineInvite u v => v = vaultId ∧ u = userId
  | .removeMember _ v u => v = vaultId ∧ u = userId
  | .leave u v => v = vaultId ∧ u = userId
  | _ => False

theorem Operation.Removes.spares {vaultId v : VaultId} {userId : UserId} {op : Operation}
    (h : op.Removes vaultId userId) (hv : v ≠ vaultId) (w : VaultView) : op.Spares v w := by
  cases op with
  | declineInvite => exact fun heq => hv (heq.symm.trans h.1)
  | removeMember => exact fun heq => hv (heq.symm.trans h.1)
  | leave => exact fun heq => hv (heq.symm.trans h.1)
  | _ => cases h

/-- Whoever ends the membership `m` may: an invitee declines, an active manager who may assign the
member's role removes somebody else, an active member of a shared vault leaves. -/
def VaultView.MayRemove (w : VaultView) (row : VaultRow) (m : VaultMember) : Operation → Prop
  | .declineInvite _ _ => m.status = .pending
  | .removeMember actorId _ userId => userId ≠ actorId ∧ ∃ actor, w.member actorId = some actor ∧
      actor.status = .active ∧ actor.role ∈ vaultManageRoles ∧
        canAssignRole actor.role m.role = true
  | .leave _ _ => m.status = .active ∧ row.kind = .shared
  | _ => False

/-- The operation makes vaults of a kind that are a user's: a registration makes the ones the new
account brings, `create` a shared one. -/
def Operation.Creates (userId : UserId) (kind : VaultKind) : Operation → Prop
  | .finishRegistration input => input.userId = userId
  | .create u _ => u = userId ∧ kind = .shared
  | _ => False

/-- The changes an operation makes of a vault. -/
inductive VaultStep (vaultId : VaultId) (op : Operation) (w : VaultView) : VaultView → Prop
  | same (hspares : op.Spares vaultId w) : VaultStep vaultId op w w
  /-- It goes with an account: the user owns it or is active in it, and nobody else is active in it
  where it is a live shared one. -/
  | gone (w' : VaultView) (hgone : w'.row = none) (hmembers : ∀ u, w'.member u = none)
      (hlinks : w'.links = []) (userId : UserId) (row : VaultRow) (hrow : w.row = some row)
      (hown : row.ownerId = userId ∨ ∃ m, w.member userId = some m ∧ m.status = .active)
      (halone : row.kind = .shared → row.deletedAt = none → ∀ u m, u ≠ userId →
        w.member u = some m → m.status = .pending)
      (hop : op = .deleteAccount userId) :
      VaultStep vaultId op w w'
  /-- It is marked as deleted, by an active owner. -/
  | deleted (row : VaultRow) (now : Time) (hrow : w.row = some row) (userId : UserId)
      (m : VaultMember) (hm : w.member userId = some m) (hactive : m.status = .active)
      (howner : m.role = .owner) (hlive : row.deletedAt = none) (hshared : row.kind = .shared)
      (hop : op = .deleteVault userId vaultId now) :
      VaultStep vaultId op w (w.setRow { row with deletedAt := some now })
  /-- It is new, with its owner as the only member. -/
  | created (row : VaultRow) (userId : UserId) (wrap : WrappedKey) (links : List VaultKeyLink)
      (hnew : w.row = none) (hlive : row.deletedAt = none) (hmark : row.keyRotationNeeded = false)
      (hchain : isCompleteKeyChain row.keyVersion links = true) (howner : row.ownerId = userId)
      (hop : op.Creates userId row.kind) :
      VaultStep vaultId op w {
        row := some row
        member := Function.update (fun _ => none) userId
          (some (ownerMembership vaultId userId row.keyVersion wrap))
        links := links }
  /-- An active manager invites into a shared vault, with a role they may give. -/
  | invited (userId : UserId) (m : VaultMember) (row : VaultRow) (invitee : UserId)
      (input : InviteInput) (hm : w.member userId = some m) (hactive : m.status = .active)
      (hmanage : m.role ∈ vaultManageRoles) (hrow : w.row = some row) (hlive : row.deletedAt = none)
      (hversion : row.keyVersion = input.keyVersion) (hother : invitee ≠ userId)
      (hnew : w.member invitee = none) (hassign : canAssignRole m.role input.role = true)
      (hshared : row.kind = .shared) (hid : input.vaultId = vaultId)
      (hop : op = .invite userId input) :
      VaultStep vaultId op w (w.setMember invitee (some (invitedMember userId invitee input)))
  /-- A member takes the key that is sealed to them. -/
  | accepted (userId : UserId) (m : VaultMember) (row : VaultRow) (sealed : SealedKey)
      (wrap : WrappedKey) (hm : w.member userId = some m) (hrow : w.row = some row)
      (hlive : row.deletedAt = none) (hsealed : m.sealedKey = some sealed)
      (hop : op = .acceptKey userId vaultId sealed.sealedKeyVersion wrap) :
      VaultStep vaultId op w
        (w.setMember userId (some (acceptedMember sealed.sealedKeyVersion wrap m)))
  /-- A role changes: the actor is an active manager, and may give both the old one and the new. -/
  | roleSet (actorId : UserId) (actor : VaultMember) (row : VaultRow) (userId : UserId)
      (m : VaultMember) (role : VaultRole) (hactor : w.member actorId = some actor)
      (hactive : actor.status = .active) (hmanage : actor.role ∈ vaultManageRoles)
      (hrow : w.row = some row) (hlive : row.deletedAt = none) (hm : w.member userId = some m)
      (hassign : canAssignRole actor.role role = true)
      (howners : m.role = .owner → m.status = .active → role ≠ .owner → w.OtherOwner userId)
      (hop : op = .setMemberRole actorId vaultId userId role)
      (hbefore : canAssignRole actor.role m.role = true) :
      VaultStep vaultId op w (w.setMember userId (some { m with role := role }))
  /-- A member was removed, left or declined. -/
  | removed (userId : UserId) (m : VaultMember) (row : VaultRow) (hm : w.member userId = some m)
      (hrow : w.row = some row) (hlive : row.deletedAt = none)
      (howners : m.role = .owner → m.status = .active → w.OtherOwner userId)
      (hop : op.Removes vaultId userId) (hmay : w.MayRemove row m op) :
      VaultStep vaultId op w
        ((w.setMember userId none).setRow { row with keyRotationNeeded := true })
  /-- An active owner of a shared vault hands it to another active member. -/
  | transferred (actorId : UserId) (actor : VaultMember) (userId : UserId) (target : VaultMember)
      (row : VaultRow) (hactor : w.member actorId = some actor) (hactive : actor.status = .active)
      (howner : actor.role = .owner) (hother : userId ≠ actorId)
      (htarget : w.member userId = some target) (htargetActive : target.status = .active)
      (hrow : w.row = some row) (hlive : row.deletedAt = none) (hshared : row.kind = .shared)
      (hop : op = .transferOwnership actorId vaultId userId) :
      VaultStep vaultId op w (((w.setMember userId (some { target with role := .owner })).setMember
        actorId (some { actor with role := .manage })).setRow { row with ownerId := userId })
  /-- The next key: every other member has it sealed to them. -/
  | rotated (w' : VaultView) (userId : UserId) (m : VaultMember) (row : VaultRow)
      (input : RotateKeyInput) (hvalid : input.Valid) (hid : input.vaultId = vaultId)
      (hm : w.member userId = some m) (hactive : m.status = .active)
      (hmanage : m.role ∈ vaultManageRoles) (hheld : m.keyVersion + 1 = input.keyVersion)
      (hrow : w.row = some row) (hlive : row.deletedAt = none)
      (hversion : row.keyVersion + 1 = input.keyVersion)
      (hrow' : w'.row = some (input.rekey row)) (hlinks : w'.links = w.links ++ [input.link])
      (hown : w'.member userId = some (input.rewrap m))
      (hnone : ∀ u, w.member u = none → w'.member u = none)
      (hothers : ∀ u m, u ≠ userId → w.member u = some m → ∃ seal_ ∈ input.memberKeys,
        seal_.userId = u ∧ w'.member u = some (resealedMember userId input seal_ m))
      (hop : op = .rotateKey userId input hvalid) :
      VaultStep vaultId op w w'
  /-- A user's account was deleted, and the vault stays. -/
  | accountDeleted (w' : VaultView) (userId : UserId) (row row' : VaultRow)
      (hrow : w.row = some row) (hrow' : w'.row = some row')
      (hsame : row' = { row with
        ownerId := row'.ownerId
        keyRotationNeeded := row'.keyRotationNeeded })
      (hmarked : row.keyRotationNeeded = true → row'.keyRotationNeeded = true)
      (hmark : row.deletedAt = none → (row'.keyRotationNeeded = true ↔
        row.keyRotationNeeded = true ∨ ∃ m, w.member userId = some m ∧ m.status = .active))
      (howners : row.deletedAt = none → ∀ m, w.member userId = some m → m.status = .active →
        w.OtherOwner userId)
      (hmembers : ∀ u, w'.member u = if u = userId then none
        else ((w.member u).filter fun m => !SentInvite userId m).map (clearSender userId))
      (hlinks : w'.links = w.links) (hop : op = .deleteAccount userId) :
      VaultStep vaultId op w w'

/-! ### One vault after a write -/

section Views

variable {db : Db} {v : VaultId} {u : UserId}

theorem view_setVault_of_ne {f : VaultRow → VaultRow} (hid : ∀ row, (f row).vaultId = row.vaultId)
    {v' : VaultId} (hne : v ≠ v') : (db.setVault v' f).view v = db.view v := by
  ext1
  · exact (Db.vault?_setVault hid v' v).trans (if_neg hne)
  · rfl
  · rfl

theorem view_setVault {f : VaultRow → VaultRow} (hid : ∀ row, (f row).vaultId = row.vaultId)
    {row : VaultRow} (hrow : db.vault? v = some row) :
    (db.setVault v f).view v = (db.view v).setRow (f row) := by
  ext1
  · exact (Db.vault?_setVault hid v v).trans (by rw [if_pos rfl, hrow]; rfl)
  · rfl
  · rfl

theorem view_setMember_of_ne {f : VaultMember → VaultMember}
    (hkey : ∀ m, (f m).vaultId = m.vaultId ∧ (f m).userId = m.userId) {v' : VaultId}
    (hne : v ≠ v') : (db.setMember v' u f).view v = db.view v := by
  ext1
  · rfl
  · funext u'
    exact (Db.member?_setMember hkey v' u v u').trans (if_neg fun h => hne h.1)
  · rfl

theorem view_setMember {f : VaultMember → VaultMember}
    (hkey : ∀ m, (f m).vaultId = m.vaultId ∧ (f m).userId = m.userId) {m : VaultMember}
    (hm : db.member? v u = some m) :
    (db.setMember v u f).view v = (db.view v).setMember u (some (f m)) := by
  ext1
  · rfl
  · funext u'
    rw [VaultView.member_setMember]
    refine (Db.member?_setMember hkey v u v u').trans ?_
    rw [hm]
    simp only [true_and]
    rfl
  · rfl

theorem view_markRotation {row : VaultRow} (hrow : db.vault? v = some row) :
    (db.markRotation v).view v = (db.view v).setRow { row with keyRotationNeeded := true } :=
  view_setVault (f := fun row => { row with keyRotationNeeded := true }) (fun _ => rfl) hrow

theorem view_markRotation_of_ne {v' : VaultId} (hne : v ≠ v') :
    (db.markRotation v').view v = db.view v :=
  view_setVault_of_ne (f := fun row => { row with keyRotationNeeded := true }) (fun _ => rfl) hne

theorem view_setOwner {ownerId : UserId} {row : VaultRow} (hrow : db.vault? v = some row) :
    (db.setVault v fun row => { row with ownerId := ownerId }).view v
      = (db.view v).setRow { row with ownerId := ownerId } :=
  view_setVault (f := fun row => { row with ownerId := ownerId }) (fun _ => rfl) hrow

theorem view_setOwner_of_ne {ownerId : UserId} {v' : VaultId} (hne : v ≠ v') :
    (db.setVault v' fun row => { row with ownerId := ownerId }).view v = db.view v :=
  view_setVault_of_ne (f := fun row => { row with ownerId := ownerId }) (fun _ => rfl) hne

theorem view_setRole {role : VaultRole} {m : VaultMember} (hm : db.member? v u = some m) :
    (db.setMember v u fun m => { m with role := role }).view v
      = (db.view v).setMember u (some { m with role := role }) :=
  view_setMember (f := fun m => { m with role := role }) (fun _ => ⟨rfl, rfl⟩) hm

theorem view_setRole_of_ne {role : VaultRole} {v' : VaultId} (hne : v ≠ v') :
    (db.setMember v' u fun m => { m with role := role }).view v = db.view v :=
  view_setMember_of_ne (f := fun m => { m with role := role }) (fun _ => ⟨rfl, rfl⟩) hne

theorem view_insertMember_of_ne {m : VaultMember} (hne : v ≠ m.vaultId) :
    ({ db with vaultMembers := db.vaultMembers ++ [m] } : Db).view v = db.view v := by
  ext1
  · rfl
  · funext u'
    refine List.find?_append.trans ?_
    rw [List.find?_singleton]
    simp [Ne.symm hne, Db.view, Db.member?]
  · rfl

theorem view_insertMember {m : VaultMember} (hnew : db.member? m.vaultId m.userId = none) :
    ({ db with vaultMembers := db.vaultMembers ++ [m] } : Db).view m.vaultId
      = (db.view m.vaultId).setMember m.userId (some m) := by
  ext1
  · rfl
  · funext u
    rw [VaultView.member_setMember]
    refine List.find?_append.trans ?_
    rw [List.find?_singleton]
    by_cases hu : u = m.userId
    · subst hu
      rw [show List.find? _ db.vaultMembers = none from hnew]
      simp
    · simp [hu, Ne.symm hu, Db.view, Db.member?]
  · rfl

theorem view_deleteMember_of_ne {v' : VaultId} (hne : v ≠ v') :
    (db.deleteMembers fun m => m.vaultId = v' && m.userId = u).view v = db.view v := by
  ext1
  · rfl
  · funext u'
    refine (find?_filter_key (fun v u' => decide (v = v') && decide (u' = u)) db.vaultMembers v
      u').trans ?_
    rw [if_neg (by simp [hne])]
    rfl
  · rfl

theorem view_deleteMember :
    (db.deleteMembers fun m => m.vaultId = v && m.userId = u).view v
      = (db.view v).setMember u none := by
  ext1
  · rfl
  · funext u'
    rw [VaultView.member_setMember]
    refine (find?_filter_key (fun v' u' => decide (v' = v) && decide (u' = u)) db.vaultMembers v
      u').trans ?_
    simp only [decide_true, Bool.true_and, decide_eq_true_eq]
    rfl
  · rfl

end Views

/-! ### The seals of a rotation -/

section Reseal

variable {db : Db} {senderId : UserId} {input : RotateKeyInput}

theorem resealedMember_resealedMember (seal_ seal' : MemberKeySeal) (m : VaultMember) :
    resealedMember senderId input seal' (resealedMember senderId input seal_ m)
      = resealedMember senderId input seal' m := by
  unfold resealedMember
  by_cases hm : m.status = .pending
  · simp [hm]
  · simp [hm]

theorem Db.member?_reseal (seal_ : MemberKeySeal) (v : VaultId) (u : UserId) :
    (db.reseal senderId input seal_).member? v u =
      if v = input.vaultId ∧ u = seal_.userId then
        (db.member? v u).map (resealedMember senderId input seal_)
      else db.member? v u := by
  unfold Db.reseal
  have hactive := @Db.member?_updateMember db input.vaultId seal_.userId (·.status = .active)
    (fun m => { m with sealedKey := some (input.sealed senderId seal_) }) (fun _ => ⟨rfl, rfl⟩)
  refine (Db.member?_updateMember (f := fun m : VaultMember => { m with
    sealedKey := some (input.sealed senderId seal_)
    keyVersion := input.keyVersion }) (fun _ => ⟨rfl, rfl⟩) v u).trans ?_
  by_cases hkey : v = input.vaultId ∧ u = seal_.userId
  · obtain ⟨rfl, rfl⟩ := hkey
    rw [if_pos ⟨rfl, rfl⟩, if_pos ⟨rfl, rfl⟩, hactive, if_pos ⟨rfl, rfl⟩, Option.map_map]
    congr 1
    funext m
    -- Only one of the two updates finds the row.
    cases hstatus : m.status with
    | active => simp [resealedMember, hstatus]
    | pending => simp [resealedMember, hstatus]
  · rw [if_neg hkey, if_neg hkey, hactive, if_neg hkey]

/-- A member nothing is sealed to stays. -/
theorem Db.member?_resealed_of_not_mem (seals : List MemberKeySeal) {v : VaultId} {u : UserId}
    (h : v ≠ input.vaultId ∨ u ∉ seals.map (·.userId)) :
    (seals.foldl (fun db seal_ => db.reseal senderId input seal_) db).member? v u
      = db.member? v u := by
  induction seals generalizing db with
  | nil => rfl
  | cons seal_ rest ih =>
    simp only [List.map_cons, List.mem_cons, not_or] at h
    rw [List.foldl_cons, ih (h.imp id And.right), Db.member?_reseal, if_neg]
    exact fun hkey => h.elim (fun hne => hne hkey.1) fun hne => hne.1 hkey.2

/-- A member something is sealed to has one of the seals. -/
theorem Db.member?_resealed_of_mem (seals : List MemberKeySeal) {u : UserId}
    (h : u ∈ seals.map (·.userId)) : ∃ seal_ ∈ seals, seal_.userId = u ∧
      (seals.foldl (fun db seal_ => db.reseal senderId input seal_) db).member? input.vaultId u
        = (db.member? input.vaultId u).map (resealedMember senderId input seal_) := by
  induction seals generalizing db with
  | nil => simp at h
  | cons seal_ rest ih =>
    rw [List.foldl_cons]
    by_cases hrest : u ∈ rest.map (·.userId)
    · obtain ⟨seal', hmem, huser, hview⟩ := @ih (db.reseal senderId input seal_) hrest
      refine ⟨seal', List.mem_cons_of_mem _ hmem, huser, ?_⟩
      rw [hview, Db.member?_reseal]
      split
      · rw [Option.map_map]
        congr 1
        funext m
        exact resealedMember_resealedMember seal_ seal' m
      · rfl
    · have huser : u = seal_.userId := by
        rw [List.map_cons, List.mem_cons] at h
        exact h.resolve_right hrest
      refine ⟨seal_, List.mem_cons_self, huser.symm, ?_⟩
      rw [Db.member?_resealed_of_not_mem rest (Or.inr hrest), Db.member?_reseal,
        if_pos ⟨rfl, huser⟩]

/-- Nothing but members is changed. -/
theorem Db.resealed_frame (seals : List MemberKeySeal) :
    (seals.foldl (fun db seal_ => db.reseal senderId input seal_) db).vaults = db.vaults ∧
      (seals.foldl (fun db seal_ => db.reseal senderId input seal_) db).vaultKeyLinks
        = db.vaultKeyLinks := by
  induction seals generalizing db with
  | nil => exact ⟨rfl, rfl⟩
  | cons seal_ rest ih =>
    have hframe : (db.reseal senderId input seal_).vaults = db.vaults ∧
        (db.reseal senderId input seal_).vaultKeyLinks = db.vaultKeyLinks := by
      unfold Db.reseal Db.updateMember
      split <;> split <;> exact ⟨rfl, rfl⟩
    rw [List.foldl_cons]
    exact ⟨ih.1.trans hframe.1, ih.2.trans hframe.2⟩

theorem eraseDups_of_nodup {α : Type} [DecidableEq α] {l : List α} (h : l.Nodup) :
    l.eraseDups = l := by
  induction l with
  | nil => rfl
  | cons a l ih =>
    obtain ⟨hmem, hrest⟩ := List.nodup_cons.mp h
    have hfilter : (l.filter fun b => !b == a) = l := by
      refine List.filter_eq_self.mpr fun b hb => ?_
      have hne : b ≠ a := fun heq => hmem (heq ▸ hb)
      simpa using hne
    rw [List.eraseDups_cons, hfilter, ih hrest]

/-- A rotation seals the key to every other member, and to nobody else. -/
theorem mem_of_sealsMembers {members : List UserId} (hnodup : members.Nodup)
    (hseals : (input.memberKeys.map (·.userId)).Nodup)
    (h : sealsMembers db senderId members input = true) (u : UserId) :
    u ∈ input.memberKeys.map (·.userId) ↔ u ∈ members := by
  simp only [sealsMembers, Bool.and_eq_true, decide_eq_true_eq, List.all_eq_true] at h
  obtain ⟨⟨hlength, hall⟩, -⟩ := h
  have hsub : members ⊆ input.memberKeys.map (·.userId) := by
    intro other hother
    have hsealed := hall other hother
    split at hsealed
    · cases hsealed
    next version hversion =>
    obtain ⟨seal_, hfind, -⟩ := Option.map_eq_some_iff.mp (of_decide_eq_true hsealed)
    have huser := List.find?_some hfind
    exact List.mem_map.mpr ⟨seal_, List.mem_of_find?_eq_some hfind, by simpa using huser⟩
  have hperm : members.Perm (input.memberKeys.map (·.userId)) := by
    refine (List.subperm_of_subset hnodup hsub).perm_of_length_le ?_
    rw [← hlength, eraseDups_of_nodup hseals]
  exact hperm.mem_iff.symm

end Reseal

end Passmgr
