/-
# The key versions of a vault and of its members

The current key of a vault, the links to the keys before it, and the version each member holds: a
member who doesn't hold the current key has it sealed to them.

Main definitions:

* `VaultView.KeysOk` — the invariant of the key versions of a vault;
* `Reachable` — the tables operations lead to, from empty ones.

Main results:

* `VaultView.KeysOk.step` — every change of a vault keeps the invariant;
* `keysOk_of_reachable` — it holds of every vault after every sequence of operations.
-/

import Passmgr.Run
import Passmgr.VaultRefinement

set_option relaxedAutoImplicit false
set_option autoImplicit false

namespace Passmgr

/-- The member has key `keyVersion` sealed to them. -/
def VaultMember.HasSealed (m : VaultMember) (keyVersion : ℕ) : Prop :=
  ∃ sealed, m.sealedKey = some sealed ∧ sealed.sealedKeyVersion = keyVersion

/-- What a member of a vault at `keyVersion` holds.  An active member holds that key or, sealed, it
is waiting; an invitee has only the seal. -/
structure VaultMember.KeyOk (keyVersion : ℕ) (m : VaultMember) : Prop where
  pos : 0 < m.keyVersion
  active : m.status = .active → m.wrap.isSome ∧
    (m.keyVersion = keyVersion ∧ m.sealedKey = none ∨
      m.keyVersion < keyVersion ∧ m.HasSealed keyVersion)
  pending : m.status = .pending → m.wrap = none ∧ m.keyVersion = keyVersion ∧
    m.HasSealed keyVersion

/-- The key versions of a vault: its links are those of the versions below its own, in order, and
its members hold or wait for its own. -/
structure VaultView.KeysOk (w : VaultView) : Prop where
  links : ∀ row, w.row = some row → isCompleteKeyChain row.keyVersion w.links = true
  members : ∀ row u m, w.row = some row → w.member u = some m → m.KeyOk row.keyVersion

/-! ### Members -/

section Members

variable {keyVersion : ℕ} {m : VaultMember}

theorem keyOk_ownerMembership (hpos : 0 < keyVersion) (vaultId : VaultId) (userId : UserId)
    (wrap : WrappedKey) : (ownerMembership vaultId userId keyVersion wrap).KeyOk keyVersion where
  pos := hpos
  active _ := ⟨rfl, .inl ⟨rfl, rfl⟩⟩
  pending h := by cases h

theorem keyOk_invitedMember {sender invitee : UserId} {input : InviteInput}
    (hpos : 0 < input.keyVersion) : (invitedMember sender invitee input).KeyOk input.keyVersion where
  pos := hpos
  active h := by cases h
  pending _ := ⟨rfl, rfl, _, rfl, rfl⟩

theorem keyOk_acceptedMember (hpos : 0 < keyVersion) (wrap : WrappedKey) :
    (acceptedMember keyVersion wrap m).KeyOk keyVersion where
  pos := hpos
  active _ := ⟨rfl, .inl ⟨rfl, rfl⟩⟩
  pending h := by cases h

namespace VaultMember.KeyOk

theorem hasSealed (h : m.KeyOk keyVersion) {sealed : SealedKey} (hsealed : m.sealedKey = some sealed) :
    sealed.sealedKeyVersion = keyVersion := by
  have hseal : m.HasSealed keyVersion → sealed.sealedKeyVersion = keyVersion := by
    rintro ⟨sealed', hsealed', rfl⟩
    rw [Option.some.inj (hsealed.symm.trans hsealed')]
  cases hstatus : m.status with
  | active =>
    obtain ⟨-, ⟨-, hnone⟩ | ⟨-, hwait⟩⟩ := h.active hstatus
    · rw [hsealed] at hnone
      cases hnone
    · exact hseal hwait
  | pending => exact hseal (h.pending hstatus).2.2

theorem held_le (h : m.KeyOk keyVersion) : m.keyVersion ≤ keyVersion := by
  cases hstatus : m.status with
  | active =>
    obtain ⟨-, ⟨heq, -⟩ | ⟨hlt, -⟩⟩ := h.active hstatus
    · exact heq.le
    · exact hlt.le
  | pending => exact (h.pending hstatus).2.1.le

theorem setRole (h : m.KeyOk keyVersion) (role : VaultRole) :
    KeyOk keyVersion { m with role := role } where
  pos := h.pos
  active := h.active
  pending := h.pending

theorem clearSender (h : m.KeyOk keyVersion) (userId : UserId) :
    (Passmgr.clearSender userId m).KeyOk keyVersion := by
  have hsealed : m.HasSealed keyVersion → (Passmgr.clearSender userId m).HasSealed keyVersion := by
    rintro ⟨sealed, hsealed, rfl⟩
    refine ⟨_, by rw [Passmgr.clearSender, hsealed]; rfl, ?_⟩
    dsimp only
    split <;> rfl
  refine ⟨h.pos, fun hactive => ⟨(h.active hactive).1, ?_⟩, fun hpending => ?_⟩
  · obtain ⟨heq, hnone⟩ | ⟨hlt, hwait⟩ := (h.active hactive).2
    · exact .inl ⟨heq, by rw [Passmgr.clearSender, hnone]; rfl⟩
    · exact .inr ⟨hlt, hsealed hwait⟩
  · obtain ⟨hwrap, hheld, hwait⟩ := h.pending hpending
    exact ⟨hwrap, hheld, hsealed hwait⟩

/-- Whoever rotates holds the next key, and nothing is sealed to them. -/
theorem rewrap {input : RotateKeyInput} (h : m.KeyOk keyVersion) (hactive : m.status = .active)
    (hheld : m.keyVersion = keyVersion) (hpos : 0 < input.keyVersion) :
    (input.rewrap m).KeyOk input.keyVersion where
  pos := hpos
  active _ := by
    refine ⟨rfl, .inl ⟨rfl, ?_⟩⟩
    obtain ⟨-, ⟨-, hnone⟩ | ⟨hlt, -⟩⟩ := h.active hactive
    · exact hnone
    · omega
  pending hpending := by
    have : m.status = .pending := hpending
    rw [hactive] at this
    cases this

/-- Every other member has the next key sealed to them. -/
theorem reseal {input : RotateKeyInput} (h : m.KeyOk keyVersion)
    (hnext : keyVersion < input.keyVersion) (senderId : UserId) (seal_ : MemberKeySeal) :
    (resealedMember senderId input seal_ m).KeyOk input.keyVersion where
  pos := by
    have := h.pos
    simp only [resealedMember]
    split <;> omega
  active hactive := by
    have hstatus : m.status = .active := hactive
    refine ⟨(h.active hstatus).1, .inr ⟨?_, _, rfl, rfl⟩⟩
    simp only [resealedMember, hstatus]
    exact h.held_le.trans_lt hnext
  pending hpending := by
    have hstatus : m.status = .pending := hpending
    refine ⟨(h.pending hstatus).1, ?_, _, rfl, rfl⟩
    simp only [resealedMember, hstatus, if_true]

end VaultMember.KeyOk

end Members

/-! ### Vaults -/

/-- A complete chain with the link of its last version is the one of the next version. -/
theorem isCompleteKeyChain_concat {keyVersion : ℕ} {links : List VaultKeyLink}
    (h : isCompleteKeyChain keyVersion links = true) {link : VaultKeyLink}
    (hlink : link.keyVersion = keyVersion) :
    isCompleteKeyChain (keyVersion + 1) (links ++ [link]) = true := by
  obtain ⟨hpos, hchain⟩ := isCompleteKeyChain_iff.mp h
  have hrange : List.range' 1 keyVersion = List.range' 1 (keyVersion - 1) ++ [keyVersion] := by
    obtain ⟨k, hk⟩ := Nat.exists_eq_succ_of_ne_zero hpos.ne'
    rw [hk, Nat.succ_sub_one, List.range'_concat, Nat.one_mul, Nat.add_comm]
  refine isCompleteKeyChain_iff.mpr ⟨Nat.succ_pos keyVersion, ?_⟩
  rw [List.map_append, hchain, Nat.add_sub_cancel, hrange, List.map_singleton, hlink]

namespace VaultView.KeysOk

variable {v : VaultId} {op : Operation} {w w' : VaultView}

theorem pos (h : w.KeysOk) {row : VaultRow} (hrow : w.row = some row) : 0 < row.keyVersion :=
  (isCompleteKeyChain_iff.mp (h.links row hrow)).1

/-- A vault with one member changed. -/
theorem setMember (h : w.KeysOk) {u : UserId} {m : Option VaultMember}
    (hm : ∀ row m', w.row = some row → m = some m' → m'.KeyOk row.keyVersion) :
    (w.setMember u m).KeysOk where
  links := h.links
  members row u' m' hrow hmember := by
    rw [VaultView.member_setMember] at hmember
    split at hmember
    · exact hm row m' hrow hmember
    · exact h.members row u' m' hrow hmember

/-- A vault whose row keeps its key version. -/
theorem setRow (h : w.KeysOk) {row row' : VaultRow} (hrow : w.row = some row)
    (hversion : row'.keyVersion = row.keyVersion) : (w.setRow row').KeysOk where
  links row'' hrow'' := by
    obtain rfl := Option.some.inj hrow''
    rw [hversion]
    exact h.links row hrow
  members row'' u m hrow'' hmember := by
    obtain rfl := Option.some.inj hrow''
    rw [hversion]
    exact h.members row u m hrow hmember

theorem of_no_row (hrow : w.row = none) : w.KeysOk := by
  have hnone : ∀ row, w.row ≠ some row := fun row hrow' => by
    rw [hrow] at hrow'
    cases hrow'
  exact ⟨fun row hrow' => absurd hrow' (hnone row), fun row _ _ hrow' => absurd hrow' (hnone row)⟩

/-- A vault with a new key, which whoever rotates holds and everybody else has sealed to them. -/
theorem rotated (h : w.KeysOk) {userId : UserId} {m : VaultMember} {row : VaultRow}
    {input : RotateKeyInput} (hvalid : input.Valid) (hm : w.member userId = some m)
    (hactive : m.status = .active) (hheld : m.keyVersion + 1 = input.keyVersion)
    (hrow : w.row = some row) (hversion : row.keyVersion + 1 = input.keyVersion)
    (hrow' : w'.row = some (input.rekey row)) (hlinks : w'.links = w.links ++ [input.link])
    (hown : w'.member userId = some (input.rewrap m))
    (hnone : ∀ u, w.member u = none → w'.member u = none)
    (hothers : ∀ u m, u ≠ userId → w.member u = some m → ∃ seal_ ∈ input.memberKeys,
      seal_.userId = u ∧ w'.member u = some (resealedMember userId input seal_ m)) :
    w'.KeysOk where
  links row' hrow'' := by
    obtain rfl := Option.some.inj (hrow'.symm.trans hrow'')
    have hprevious := hvalid.previous
    have hlink : input.link.keyVersion = row.keyVersion := by
      change input.previousKey.keyVersion = _
      omega
    rw [hlinks, show (input.rekey row).keyVersion = row.keyVersion + 1 from hversion.symm]
    exact isCompleteKeyChain_concat (h.links row hrow) hlink
  members row' u m' hrow'' hmember := by
    obtain rfl := Option.some.inj (hrow'.symm.trans hrow'')
    change m'.KeyOk input.keyVersion
    by_cases hu : u = userId
    · subst hu
      obtain rfl := Option.some.inj (hown.symm.trans hmember)
      exact (h.members row u m hrow hm).rewrap hactive (by omega) (by omega)
    · cases hbefore : w.member u with
      | none =>
        rw [hnone u hbefore] at hmember
        cases hmember
      | some other =>
        obtain ⟨seal_, -, -, hsealed⟩ := hothers u other hu hbefore
        obtain rfl := Option.some.inj (hsealed.symm.trans hmember)
        exact (h.members row u other hrow hbefore).reseal (by omega) userId seal_

/-- **Every change of a vault keeps the invariant.** -/
theorem step (h : w.KeysOk) (hstep : VaultStep v op w w') : w'.KeysOk := by
  cases hstep with
  | same => exact h
  | gone _ hgone => exact of_no_row hgone
  | deleted row now hrow => exact h.setRow hrow rfl
  | created row userId wrap links hnew hlive hmark hchain =>
    refine ⟨fun row' hrow' => ?_, fun row' u m hrow' hmember => ?_⟩
    · obtain rfl := Option.some.inj hrow'
      exact hchain
    · obtain rfl := Option.some.inj hrow'
      dsimp only at hmember
      rw [Function.update_apply] at hmember
      split at hmember
      · obtain rfl := Option.some.inj hmember
        exact keyOk_ownerMembership (isCompleteKeyChain_iff.mp hchain).1 v userId wrap
      · cases hmember
  | invited userId m row invitee input hm hactive hmanage hrow hlive hversion hother hnew =>
    refine h.setMember fun row' m' hrow' hm' => ?_
    obtain rfl := Option.some.inj (hrow.symm.trans hrow')
    obtain rfl := Option.some.inj hm'
    rw [hversion]
    exact keyOk_invitedMember (hversion ▸ h.pos hrow)
  | accepted userId m row sealed wrap hm hrow hlive hsealed =>
    refine h.setMember fun row' m' hrow' hm' => ?_
    obtain rfl := Option.some.inj hm'
    rw [(h.members row' userId m hrow' hm).hasSealed hsealed]
    exact keyOk_acceptedMember (h.pos hrow') wrap
  | roleSet actorId actor row userId m role hactor hactive hmanage hrow hlive hm =>
    refine h.setMember fun row' m' hrow' hm' => ?_
    obtain rfl := Option.some.inj hm'
    exact (h.members row' userId m hrow' hm).setRole role
  | removed userId m row hm hrow hlive =>
    exact setRow (h.setMember fun _ _ _ hm' => by cases hm') hrow rfl
  | transferred actorId actor userId target row hactor hactive howner hother htarget htargetActive
      hrow hlive =>
    refine setRow (setMember (h.setMember fun row' m' hrow' hm' => ?_) fun row' m' hrow' hm' => ?_)
      hrow rfl
    · obtain rfl := Option.some.inj hm'
      exact (h.members row' userId target hrow' htarget).setRole .owner
    · obtain rfl := Option.some.inj hm'
      exact (h.members row' actorId actor hrow' hactor).setRole .manage
  | rotated _ userId m row input hvalid hid hm hactive hmanage hheld hrow hlive hversion hrow' hlinks
      hown hnone hothers =>
    exact h.rotated hvalid hm hactive hheld hrow hversion hrow' hlinks hown hnone hothers
  | accountDeleted _ userId row row' hrow hrow' hsame hmarked hmark howners hmembers hlinks =>
    have hversion : row'.keyVersion = row.keyVersion := by rw [hsame]
    refine ⟨fun row'' hrow'' => ?_, fun row'' u m hrow'' hmember => ?_⟩
    · obtain rfl := Option.some.inj (hrow'.symm.trans hrow'')
      rw [hversion, hlinks]
      exact h.links row hrow
    · obtain rfl := Option.some.inj (hrow'.symm.trans hrow'')
      rw [hversion]
      rw [hmembers] at hmember
      split at hmember
      · cases hmember
      · obtain ⟨before, hbefore, rfl⟩ := Option.map_eq_some_iff.mp hmember
        exact (h.members row u before hrow (Option.filter_eq_some_iff.mp hbefore).1).clearSender
          userId

end VaultView.KeysOk

/-! ### Runs -/

/-- No accounts and no vaults. -/
def emptyDb : Db where
  users := []
  userKeyPairs := []
  vaults := []
  vaultMembers := []
  vaultKeyLinks := []
  records := []

theorem linkedOk_emptyDb : LinkedOk emptyDb where
  members := .nil
  vaults := .nil
  vault_of_member _ _ h := absurd rfl h
  vault_of_link _ h := by cases h

/-- An operation that commits, where `allowed` says so. -/
def OperationStep (allowed : Operation → Db → Prop) (db db' : Db) : Prop :=
  ∃ op, allowed op db ∧ Operation.run op db = some db'

/-- The tables a sequence of operations leads to, from empty ones. -/
def Reachable (allowed : Operation → Db → Prop) (db : Db) : Prop :=
  Run.Reaches (OperationStep allowed) emptyDb db

section Runs

variable {allowed : Operation → Db → Prop} {db : Db}

theorem linkedOk_of_reachable (h : Reachable allowed db) : LinkedOk db := by
  refine Run.invariant (fun db db' hdb hstep => ?_) h linkedOk_emptyDb
  obtain ⟨op, -, hrun⟩ := hstep
  exact (refines_of_run hdb hrun).tables

/-- **After every sequence of operations, whoever doesn't hold a vault's current key has it sealed
to them.** -/
theorem keysOk_of_reachable (h : Reachable allowed db) (v : VaultId) : (db.view v).KeysOk := by
  have hinv : LinkedOk db ∧ ∀ v, (db.view v).KeysOk := by
    refine @Run.invariant _ _ (fun db => LinkedOk db ∧ ∀ v, (db.view v).KeysOk)
      (fun db db' hinv hstep => ?_) _ _ h ⟨linkedOk_emptyDb, fun v => ?_⟩
    · obtain ⟨op, -, hrun⟩ := hstep
      obtain ⟨htables, hsteps⟩ := refines_of_run hinv.1 hrun
      exact ⟨htables, fun v => (hinv.2 v).step (hsteps v)⟩
    · exact .of_no_row rfl
  exact hinv.2 v

end Runs

end Passmgr
