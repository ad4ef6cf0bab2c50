/-
# Whoever left a vault with its current key

Everybody who was ever handed the current key of a vault is still in it, or the vault waits for a
rotation.  One way out of a vault forgets the mark: an invitee who deletes their account instead of
declining.

Main definitions:

* `VaultView.Hands` — a key handed to a user by their wrap or by a seal addressed to them;
* `HandedState`, `HandedStep` — the tables with everything that was ever handed out;
* `NobodyUnnoticed` — who has the current key is in the vault, or it is marked;
* `InvitesWatched` — no invitee of an unmarked vault deletes their account.

Main results:

* `VaultView.Watched.step` — what a change of a vault keeps of it;
* `nobody_unnoticed` — it holds along every run without such a deletion;
* `nobody_unnoticed_fails` — and fails after one.
-/

import Passmgr.VaultKeys

set_option relaxedAutoImplicit false
set_option autoImplicit false

namespace Passmgr

/-! ### What is handed out -/

/-- The user has key `keyVersion` of the vault, by their wrap of it or by a seal addressed to
them. -/
def VaultView.Hands (w : VaultView) (userId : UserId) (keyVersion : ℕ) : Prop :=
  ∃ m, w.member userId = some m ∧
    (m.wrap.isSome ∧ m.keyVersion = keyVersion ∨ m.HasSealed keyVersion)

/-- The tables, and which keys of which vaults were ever handed to whom. -/
structure HandedState where
  db : Db
  handed : VaultId → UserId → ℕ → Prop

/-- No vaults, and nothing handed out. -/
def HandedState.start : HandedState where
  db := emptyDb
  handed _ _ _ := False

/-- The state after an operation.  The keys of a vault that is gone are nobody's concern: a vault
created under its id later has keys of its own. -/
def HandedState.next (s : HandedState) (db : Db) : HandedState where
  db := db
  handed v u n := (db.vault? v).isSome ∧ (s.handed v u n ∨ (db.view v).Hands u n)

/-- An operation that commits, where `allowed` says so. -/
def HandedStep (allowed : Operation → Db → Prop) (s s' : HandedState) : Prop :=
  ∃ op db', allowed op s.db ∧ op.run s.db = some db' ∧ s' = s.next db'

/-- Whoever was ever handed the current key of a live vault is in it, or it needs a rotation. -/
def NobodyUnnoticed (s : HandedState) : Prop :=
  ∀ v row u, s.db.vault? v = some row → row.deletedAt = none → s.handed v u row.keyVersion →
    (∃ m, s.db.member? v u = some m) ∨ row.keyRotationNeeded = true

/-- No invitee of a live vault that isn't marked deletes their account. -/
def InvitesWatched (op : Operation) (db : Db) : Prop :=
  match op with
  | .deleteAccount userId => ∀ v m row, db.member? v userId = some m → m.status = .pending →
      db.vault? v = some row → row.deletedAt = none → row.keyRotationNeeded = true
  | _ => True

/-! ### One vault -/

/-- What keeps a vault watched: nobody was handed a key above its own, whoever was handed its own
is in it or it is marked, and so it is when the sender of an invite isn't active any more. -/
structure VaultView.Watched (w : VaultView) (handed : UserId → ℕ → Prop) : Prop where
  exists_row : ∀ u n, handed u n → w.row.isSome
  le : ∀ row u n, w.row = some row → handed u n → n ≤ row.keyVersion
  watched : ∀ row u, w.row = some row → row.deletedAt = none → handed u row.keyVersion →
    (∃ m, w.member u = some m) ∨ row.keyRotationNeeded = true
  sent : ∀ row u m sender, w.row = some row → row.deletedAt = none → w.member u = some m →
    SentInvite sender m = true → row.keyRotationNeeded = true ∨
      ∃ m', w.member sender = some m' ∧ m'.status = .active

/-- What a vault hands out is at most its own key, and to its members. -/
theorem VaultView.Hands.le {w : VaultView} (hkeys : w.KeysOk) {row : VaultRow}
    (hrow : w.row = some row) {u : UserId} {n : ℕ} (h : w.Hands u n) : n ≤ row.keyVersion := by
  obtain ⟨m, hm, ⟨-, rfl⟩ | ⟨sealed, hsealed, rfl⟩⟩ := h
  · exact (hkeys.members row u m hrow hm).held_le
  · exact ((hkeys.members row u m hrow hm).hasSealed hsealed).le

theorem VaultView.Hands.mem {w : VaultView} {u : UserId} {n : ℕ} (h : w.Hands u n) :
    ∃ m, w.member u = some m := by
  obtain ⟨m, hm, -⟩ := h
  exact ⟨m, hm⟩

theorem sentInvite_iff {sender : UserId} {m : VaultMember} :
    SentInvite sender m = true ↔
      m.sealedKey.bind (·.sealedByUserId) = some sender ∧ m.status = .pending := by
  simp [SentInvite]

namespace VaultView.Watched

variable {v : VaultId} {op : Operation} {w w' : VaultView} {handed : UserId → ℕ → Prop}

/-- What is handed out after a change of the vault. -/
def after (handed : UserId → ℕ → Prop) (w' : VaultView) (u : UserId) (n : ℕ) : Prop :=
  w'.row.isSome ∧ (handed u n ∨ w'.Hands u n)

/-- A change of the vault at the same key, that drops no member without a mark. -/
theorem same_key (h : w.Watched handed) (hkeys : w'.KeysOk) {row row' : VaultRow}
    (hrow : w.row = some row) (hrow' : w'.row = some row')
    (hversion : row'.keyVersion = row.keyVersion) (hlive : row'.deletedAt = row.deletedAt)
    (hmark : row.keyRotationNeeded = true → row'.keyRotationNeeded = true)
    (hmembers : row.deletedAt = none → ∀ u m, w.member u = some m →
      (∃ m', w'.member u = some m') ∨ row'.keyRotationNeeded = true)
    (hsent : row.deletedAt = none → ∀ u m sender, w'.member u = some m →
      SentInvite sender m = true → row'.keyRotationNeeded = true ∨
        ∃ m', w'.member sender = some m' ∧ m'.status = .active) :
    w'.Watched (after handed w') where
  exists_row u n hhanded := hhanded.1
  le row'' u n hrow'' hhanded := by
    obtain rfl := Option.some.inj (hrow'.symm.trans hrow'')
    obtain ⟨-, hbefore | hnow⟩ := hhanded
    · rw [hversion]
      exact h.le row u n hrow hbefore
    · exact hnow.le hkeys hrow'
  watched row'' u hrow'' hlive' hhanded := by
    obtain rfl := Option.some.inj (hrow'.symm.trans hrow'')
    rw [hlive] at hlive'
    obtain ⟨-, hbefore | hnow⟩ := hhanded
    · rw [hversion] at hbefore
      obtain ⟨m, hm⟩ | hmarked := h.watched row u hrow hlive' hbefore
      · exact hmembers hlive' u m hm
      · exact Or.inr (hmark hmarked)
    · exact Or.inl hnow.mem
  sent row'' u m sender hrow'' hlive' hm hsender := by
    obtain rfl := Option.some.inj (hrow'.symm.trans hrow'')
    exact hsent (hlive ▸ hlive') u m sender hm hsender

/-- A vault where one member is put in place of what they were, an invitee for nobody. -/
theorem setMember (h : w.Watched handed) {u : UserId} {m : VaultMember}
    (hkeys : (w.setMember u (some m)).KeysOk) {row : VaultRow} (hrow : w.row = some row)
    (hsent : ∀ sender, SentInvite sender m = true → row.keyRotationNeeded = true ∨
      ∃ m', (w.setMember u (some m)).member sender = some m' ∧ m'.status = .active)
    (hactive : ∀ m', w.member u = some m' → m'.status = .active → m.status = .active) :
    (w.setMember u (some m)).Watched (after handed (w.setMember u (some m))) := by
  refine h.same_key hkeys hrow hrow rfl rfl id (fun _ u' m' hm' => Or.inl ?_)
    fun hlive u' m' sender hm' hsender => ?_
  · by_cases hu : u' = u
    · exact ⟨m, by rw [VaultView.member_setMember, if_pos hu]⟩
    · exact ⟨m', by rw [VaultView.member_setMember, if_neg hu, hm']⟩
  · by_cases hu : u' = u
    · rw [VaultView.member_setMember, if_pos hu] at hm'
      obtain rfl := Option.some.inj hm'
      exact hsent sender hsender
    · rw [VaultView.member_setMember, if_neg hu] at hm'
      obtain hmark | ⟨m'', hm'', hstatus⟩ := h.sent row u' m' sender hrow hlive hm' hsender
      · exact Or.inl hmark
      · refine Or.inr ?_
        by_cases hsenderU : sender = u
        · subst hsenderU
          exact ⟨m, by rw [VaultView.member_setMember, if_pos rfl], hactive m'' hm'' hstatus⟩
        · exact ⟨m'', by rw [VaultView.member_setMember, if_neg hsenderU, hm''], hstatus⟩

/-- An active member isn't an invitee. -/
theorem not_sentInvite {sender : UserId} {m : VaultMember} (h : m.status = .active) :
    SentInvite sender m = false := by
  simp [SentInvite, h]

/-- A seal that still has a sender is not of the user whose account is gone. -/
theorem sentInvite_clearSender {userId sender : UserId} {m : VaultMember}
    (h : SentInvite sender (clearSender userId m) = true) :
    sender ≠ userId ∧ SentInvite sender m = true := by
  obtain ⟨hsender, hpending⟩ := sentInvite_iff.mp h
  obtain ⟨sealed, hsealed, hsender⟩ := Option.bind_eq_some_iff.mp hsender
  obtain ⟨before, hbefore, rfl⟩ := Option.map_eq_some_iff.mp hsealed
  split at hsender
  · cases hsender
  · next hne =>
    refine ⟨fun heq => hne (heq ▸ hsender), sentInvite_iff.mpr ⟨?_, hpending⟩⟩
    rw [hbefore]
    exact hsender

/-- Of a vault that isn't there nothing is handed out. -/
theorem of_no_row (hrow : w.row = none) (hhanded : ∀ u n, ¬ handed u n) : w.Watched handed := by
  have hnone : ∀ row, w.row ≠ some row := fun row hrow' => by
    rw [hrow] at hrow'
    cases hrow'
  exact ⟨fun u n h => absurd h (hhanded u n), fun row _ _ hrow' => absurd hrow' (hnone row),
    fun row _ hrow' => absurd hrow' (hnone row), fun row _ _ _ hrow' => absurd hrow' (hnone row)⟩

theorem after_of_no_row (hrow : w.row = none) : w.Watched (after handed w) := by
  refine of_no_row hrow fun u n hhanded => ?_
  have hsome := hhanded.1
  rw [hrow] at hsome
  cases hsome

/-- Nothing has to be watched of a vault that is deleted. -/
theorem deleted (h : w.Watched handed) {row : VaultRow} (hrow : w.row = some row) (now : Time)
    (hkeys : (w.setRow { row with deletedAt := some now }).KeysOk) :
    (w.setRow { row with deletedAt := some now }).Watched
      (after handed (w.setRow { row with deletedAt := some now })) := by
  have hlive : ∀ row', (w.setRow { row with deletedAt := some now }).row = some row' →
      row'.deletedAt ≠ none := by
    intro row' hrow' hlive
    obtain rfl := Option.some.inj hrow'
    cases hlive
  refine ⟨fun _ _ hhanded => hhanded.1, fun row' u n hrow' hhanded => ?_,
    fun row' _ hrow' hlive' => absurd hlive' (hlive row' hrow'),
    fun row' _ _ _ hrow' hlive' => absurd hlive' (hlive row' hrow')⟩
  obtain ⟨-, hbefore | hnow⟩ := hhanded
  · obtain rfl := Option.some.inj hrow'
    exact h.le row u n hrow hbefore
  · exact hnow.le hkeys hrow'

/-- A new vault has only its owner as a member, and nothing was handed out of it before. -/
theorem created (h : w.Watched handed) (hnew : w.row = none) (hkeys : w'.KeysOk)
    {owner : UserId} {m : VaultMember} (hsender : ∀ sender, SentInvite sender m = false)
    (hmembers : w'.member = Function.update (fun _ => none) owner (some m)) :
    w'.Watched (after handed w') := by
  have hnone : ∀ u n, ¬ handed u n := fun u n hhanded => by
    have hsome := h.exists_row u n hhanded
    rw [hnew] at hsome
    cases hsome
  refine ⟨fun _ _ hhanded => hhanded.1, fun row' u n hrow' hhanded =>
    (hhanded.2.resolve_left (hnone u n)).le hkeys hrow',
    fun row' u hrow' _ hhanded => Or.inl (hhanded.2.resolve_left (hnone u _)).mem,
    fun row' u m' sender hrow' _ hm hsent => ?_⟩
  rw [hmembers, Function.update_apply] at hm
  split at hm
  · obtain rfl := Option.some.inj hm
    rw [hsender] at hsent
    cases hsent
  · cases hm

/-- A vault that is handed on: both stay active, everybody else is as before. -/
theorem transferred (h : w.Watched handed) {actorId userId : UserId} {actor target : VaultMember}
    {row : VaultRow} (hactive : actor.status = .active) (htargetActive : target.status = .active)
    (hrow : w.row = some row)
    (hw' : w' = ((w.setMember userId (some { target with role := .owner })).setMember actorId
      (some { actor with role := .manage })).setRow { row with ownerId := userId })
    (hkeys : w'.KeysOk) : w'.Watched (after handed w') := by
  subst hw'
  have hmember : ∀ u m, w.member u = some m → ∃ m', (((w.setMember userId
      (some { target with role := .owner })).setMember actorId
        (some { actor with role := .manage })).setRow { row with ownerId := userId }).member u
          = some m' ∧ (m.status = .active → m'.status = .active) := by
    intro u m hm
    rw [VaultView.member_setRow, VaultView.member_setMember, VaultView.member_setMember]
    split
    · exact ⟨_, rfl, fun _ => hactive⟩
    · split
      · exact ⟨_, rfl, fun _ => htargetActive⟩
      · exact ⟨m, hm, id⟩
  refine h.same_key hkeys hrow rfl rfl rfl id (fun _ u m hm => ?_)
    fun hlive' u m sender hm hsender => ?_
  · obtain ⟨m', hm', -⟩ := hmember u m hm
    exact Or.inl ⟨m', hm'⟩
  · rw [VaultView.member_setRow, VaultView.member_setMember, VaultView.member_setMember] at hm
    have hbefore : w.member u = some m := by
      split at hm
      · obtain rfl := Option.some.inj hm
        have hpending : actor.status = .pending := (sentInvite_iff.mp hsender).2
        rw [hactive] at hpending
        cases hpending
      · split at hm
        · obtain rfl := Option.some.inj hm
          have hpending : target.status = .pending := (sentInvite_iff.mp hsender).2
          rw [htargetActive] at hpending
          cases hpending
        · exact hm
    obtain hmark | ⟨m', hm', hstatus⟩ := h.sent row u m sender hrow hlive' hbefore hsender
    · exact Or.inl hmark
    · obtain ⟨m'', hm'', hkeeps⟩ := hmember sender m' hm'
      exact Or.inr ⟨m'', hm'', hkeeps hstatus⟩

/-- A vault with a new key: it was handed to nobody before, and every seal is from whoever
rotates. -/
theorem rotated (h : w.Watched handed) (hkeys : w'.KeysOk) {userId : UserId} {m : VaultMember}
    {row : VaultRow} {input : RotateKeyInput} (hactive : m.status = .active)
    (hrow : w.row = some row) (hversion : row.keyVersion + 1 = input.keyVersion)
    (hrow' : w'.row = some (input.rekey row)) (hown : w'.member userId = some (input.rewrap m))
    (hnone : ∀ u, w.member u = none → w'.member u = none)
    (hothers : ∀ u m, u ≠ userId → w.member u = some m → ∃ seal_ ∈ input.memberKeys,
      seal_.userId = u ∧ w'.member u = some (resealedMember userId input seal_ m)) :
    w'.Watched (after handed w') := by
  have hkey : (input.rekey row).keyVersion = row.keyVersion + 1 := hversion.symm
  refine ⟨fun _ _ hhanded => hhanded.1, fun row'' u n hrow'' hhanded => ?_,
    fun row'' u hrow'' _ hhanded => Or.inl ?_, fun row'' u m' sender hrow'' _ hm' hsender =>
      Or.inr ?_⟩
  · obtain ⟨-, hbefore | hnow⟩ := hhanded
    · obtain rfl := Option.some.inj (hrow'.symm.trans hrow'')
      have hle := h.le row u n hrow hbefore
      omega
    · exact hnow.le hkeys hrow''
  · obtain rfl := Option.some.inj (hrow'.symm.trans hrow'')
    refine (hhanded.2.resolve_left fun hbefore => ?_).mem
    have hle := h.le row u _ hrow hbefore
    omega
  · suffices hsame : sender = userId by
      rw [hsame]
      exact ⟨_, hown, hactive⟩
    by_cases hu : u = userId
    · subst hu
      obtain rfl := Option.some.inj (hown.symm.trans hm')
      have hpending : m.status = .pending := (sentInvite_iff.mp hsender).2
      rw [hactive] at hpending
      cases hpending
    · cases hbefore : w.member u with
      | none =>
        rw [hnone u hbefore] at hm'
        cases hm'
      | some other =>
        obtain ⟨seal_, -, -, hsealed⟩ := hothers u other hu hbefore
        obtain rfl := Option.some.inj (hsealed.symm.trans hm')
        exact (Option.some.inj (sentInvite_iff.mp hsender).1).symm

/-- A vault that an account goes from: its user was active, and the vault is marked now, or was
invited, and it was before. -/
theorem accountDeleted (h : w.Watched handed) (hkeys : w'.KeysOk) {userId : UserId}
    {row row' : VaultRow} (hrow : w.row = some row) (hrow' : w'.row = some row')
    (hsame : row' = { row with
      ownerId := row'.ownerId
      keyRotationNeeded := row'.keyRotationNeeded })
    (hmarked : row.keyRotationNeeded = true → row'.keyRotationNeeded = true)
    (hmark : row.deletedAt = none → (row'.keyRotationNeeded = true ↔
      row.keyRotationNeeded = true ∨ ∃ m, w.member userId = some m ∧ m.status = .active))
    (hmembers : ∀ u, w'.member u = if u = userId then none
      else ((w.member u).filter fun m => !SentInvite userId m).map (clearSender userId))
    (hinvited : ∀ m, w.member userId = some m → m.status = .pending → row.deletedAt = none →
      row.keyRotationNeeded = true) :
    w'.Watched (after handed w') := by
  refine h.same_key hkeys hrow hrow' (by rw [hsame]) (by rw [hsame]) hmarked
    (fun hlive u m hm => ?_) fun hlive u m sender hm hsender => ?_
  · by_cases hu : u = userId
    · subst hu
      refine Or.inr ((hmark hlive).mpr ?_)
      cases hstatus : m.status with
      | active => exact Or.inr ⟨m, hm, hstatus⟩
      | pending => exact Or.inl (hinvited m hm hstatus hlive)
    · by_cases hsender : SentInvite userId m = true
      · exact Or.inr ((hmark hlive).mpr (h.sent row u m userId hrow hlive hm hsender))
      · refine Or.inl ⟨clearSender userId m, ?_⟩
        rw [hmembers, if_neg hu, hm]
        simp [Option.filter, hsender]
  · rw [hmembers] at hm
    split at hm
    · cases hm
    obtain ⟨before, hbefore, rfl⟩ := Option.map_eq_some_iff.mp hm
    obtain ⟨hbefore, hkept⟩ := Option.filter_eq_some_iff.mp hbefore
    obtain ⟨hne, hsender'⟩ := sentInvite_clearSender hsender
    obtain hmark' | ⟨m', hm', hstatus⟩ := h.sent row u before sender hrow hlive hbefore hsender'
    · exact Or.inl (hmarked hmark')
    · refine Or.inr ⟨clearSender userId m', ?_, hstatus⟩
      rw [hmembers, if_neg hne, hm']
      simp [Option.filter, not_sentInvite hstatus]

/-- **A change of a vault keeps it watched**, if it isn't the account of an invitee that goes while
the vault isn't marked. -/
theorem step (h : w.Watched handed) (hkeys : w.KeysOk) (hstep : VaultStep v op w w')
    (hinvites : ∀ userId m row, op = .deleteAccount userId → w.member userId = some m →
      m.status = .pending → w.row = some row → row.deletedAt = none →
      row.keyRotationNeeded = true) :
    w'.Watched (after handed w') := by
  have hkeys' : w'.KeysOk := hkeys.step hstep
  cases hstep with
  | same =>
    cases hrow : w.row with
    | none => exact after_of_no_row hrow
    | some row =>
      exact h.same_key hkeys' hrow hrow rfl rfl id (fun _ u m hm => Or.inl ⟨m, hm⟩)
        fun hlive u m sender hm hsender => h.sent row u m sender hrow hlive hm hsender
  | gone _ hgone => exact after_of_no_row hgone
  | deleted row now hrow => exact h.deleted hrow now hkeys'
  | created row userId wrap links hnew hlive hmark hchain =>
    exact h.created hnew hkeys' (fun _ => rfl) rfl
  | invited userId m row invitee input hm hactive hmanage hrow hlive hversion hother hnew =>
    refine h.setMember hkeys' hrow (fun sender hsender => Or.inr ?_) fun m' hm' => ?_
    · obtain rfl := Option.some.inj (sentInvite_iff.mp hsender).1
      exact ⟨m, by rw [VaultView.member_setMember, if_neg hother.symm, hm], hactive⟩
    · rw [hnew] at hm'
      cases hm'
  | accepted userId m row sealed wrap hm hrow hlive hsealed =>
    refine h.setMember hkeys' hrow (fun sender hsender => ?_) fun _ _ _ => rfl
    rw [not_sentInvite rfl] at hsender
    cases hsender
  | roleSet actorId actor row userId m role hactor hactive hmanage hrow hlive hm =>
    refine h.setMember hkeys' hrow (fun sender hsender => ?_) fun m' hm' hstatus => ?_
    · obtain hmark | ⟨m', hm', hstatus⟩ := h.sent row userId m sender hrow hlive hm hsender
      · exact Or.inl hmark
      · refine Or.inr ?_
        rw [VaultView.member_setMember]
        split
        · next heq =>
          subst heq
          obtain rfl := Option.some.inj (hm.symm.trans hm')
          exact ⟨_, rfl, hstatus⟩
        · exact ⟨m', hm', hstatus⟩
    · obtain rfl := Option.some.inj (hm.symm.trans hm')
      exact hstatus
  | removed userId m row hm hrow hlive =>
    exact h.same_key hkeys' hrow rfl rfl rfl (fun _ => rfl) (fun _ _ _ _ => Or.inr rfl)
      fun _ _ _ _ _ _ => Or.inl rfl
  | transferred actorId actor userId target row hactor hactive howner hother htarget htargetActive
      hrow =>
    exact h.transferred hactive htargetActive hrow rfl hkeys'
  | rotated _ userId m row input hvalid hid hm hactive hmanage hheld hrow hlive hversion hrow' hlinks
      hown hnone hothers =>
    exact h.rotated hkeys' hactive hrow hversion hrow' hown hnone hothers
  | accountDeleted _ userId row row' hrow hrow' hsame hmarked hmark howners hmembers hlinks hop =>
    exact h.accountDeleted hkeys' hrow hrow' hsame hmarked hmark hmembers
      fun m hm hpending hlive => hinvites userId m row hop hm hpending hrow hlive

end VaultView.Watched

/-! ### Runs -/

/-- What every state of a run satisfies: the tables are in order, and every vault is watched. -/
structure HandedState.Ok (s : HandedState) : Prop where
  tables : LinkedOk s.db
  keys : ∀ v, (s.db.view v).KeysOk
  watched : ∀ v, (s.db.view v).Watched (s.handed v)

theorem HandedState.ok_start : HandedState.start.Ok where
  tables := linkedOk_emptyDb
  keys v := @keysOk_of_reachable (fun _ _ => True) emptyDb .refl v
  watched _ := .of_no_row rfl fun _ _ hhanded => hhanded

/-- **An operation keeps every vault watched**, if no invitee of an unmarked vault goes. -/
theorem HandedState.Ok.step {s s' : HandedState} (h : s.Ok) (hstep : HandedStep InvitesWatched s s') :
    s'.Ok := by
  obtain ⟨op, db', hallowed, hrun, rfl⟩ := hstep
  obtain ⟨htables, hsteps⟩ := refines_of_run h.tables hrun
  refine ⟨htables, fun v => (h.keys v).step (hsteps v), fun v => ?_⟩
  refine (h.watched v).step (h.keys v) (hsteps v) fun userId m row hop hm hpending hrow hlive => ?_
  subst hop
  exact hallowed v m row hm hpending hrow hlive

/-- **Whoever was handed the current key of a vault is in it, or it waits for a rotation**, after
every sequence of operations in which no invitee of an unmarked vault deletes their account. -/
theorem nobody_unnoticed {s : HandedState}
    (h : Run.Reaches (HandedStep InvitesWatched) HandedState.start s) : NobodyUnnoticed s := by
  have hok : s.Ok := Run.invariant (fun _ _ hs hstep => hs.step hstep) h HandedState.ok_start
  exact fun v row u hrow hlive hhanded => (hok.watched v).watched row u hrow hlive hhanded

/-! ### An invitee who goes -/

/-- An account with its personal vault. -/
def registration (userId : UserId) (vaultId : VaultId) (email : Char) : FinishRegistrationInput where
  userId := userId
  emailHash := [email]
  emailVerifiedAt := some 0
  personalVault := {
    vaultId := vaultId
    keyVersion := 1
    wrap := ⟨[], []⟩
    encryptedMeta := []
    metaEncryptionNonce := []
    previousKeys := []
    complete := isCompleteKeyChain_nil }
  publicKey := []
  vaults := []

def sharedVault : CreateVaultInput where
  vaultId := 3
  wrap := ⟨[], []⟩
  encryptedMeta := []
  metaEncryptionNonce := []

def sharedInvite : InviteInput where
  vaultId := 3
  emailHash := ['b']
  role := .read
  keyVersion := 1
  recipientKeyVersion := 1
  senderKeyVersion := 1
  sealedVaultKey := []

/-- User 7 with their personal vault. -/
def accountDb : Db :=
  (emptyDb.withUser (registration 7 1 'a')).withVaults 7 (registration 7 1 'a').all

/-- User 8 with theirs. -/
def accountsDb : Db :=
  (accountDb.withUser (registration 8 2 'b')).withVaults 8 (registration 8 2 'b').all

/-- User 7 has made vault 3. -/
def sharedDb : Db := accountsDb.withVaults 7 [(sharedVault.linked, .shared)]

/-- User 8 is invited to it. -/
def invitedDb : Db :=
  { sharedDb with vaultMembers := sharedDb.vaultMembers ++ [invitedMember 7 8 sharedInvite] }

def invitedState : HandedState :=
  (((HandedState.start.next accountDb).next accountsDb).next sharedDb).next invitedDb

/-- The operations that lead there. -/
theorem invitedDb_runs :
    (Operation.finishRegistration (registration 7 1 'a')).run emptyDb = some accountDb ∧
      (Operation.finishRegistration (registration 8 2 'b')).run accountDb = some accountsDb ∧
      (Operation.create 7 sharedVault).run accountsDb = some sharedDb ∧
      (Operation.invite 7 sharedInvite).run sharedDb = some invitedDb := by
  decide +kernel

theorem reaches_invitedState (allowed : Operation → Db → Prop)
    (hallowed : ∀ op db, (∀ userId, op ≠ .deleteAccount userId) → allowed op db) :
    Run.Reaches (HandedStep allowed) HandedState.start invitedState := by
  obtain ⟨hfirst, hsecond, hshared, hinvited⟩ := invitedDb_runs
  exact (((Relation.ReflTransGen.single
    ⟨.finishRegistration (registration 7 1 'a'), _, hallowed _ _ nofun, hfirst, rfl⟩).tail
    ⟨.finishRegistration (registration 8 2 'b'), _, hallowed _ _ nofun, hsecond, rfl⟩).tail
    ⟨.create 7 sharedVault, _, hallowed _ _ nofun, hshared, rfl⟩).tail
    ⟨.invite 7 sharedInvite, _, hallowed _ _ nofun, hinvited, rfl⟩

/-- User 8 without their invite, -/
def declinedDb : Db :=
  (invitedDb.deleteMembers fun m => m.vaultId = 3 && m.userId = 8).markRotation 3

/-- and the tables before and after user 8 declines or deletes their account. -/
theorem invitedDb_facts :
    ((invitedDb.vault? 3).isSome = true ∧
      invitedDb.member? 3 8 = some (invitedMember 7 8 sharedInvite)) ∧
    ((Operation.declineInvite 8 3).run invitedDb = some declinedDb ∧
      (declinedDb.vault? 3).isSome = true ∧ declinedDb.member? 3 8 = none) ∧
    (Operation.deleteAccount 8).run invitedDb = some (invitedDb.withoutAccount 8) ∧
      (invitedDb.withoutAccount 8).vault? 3 = some (newVault 3 7 .shared [] []) ∧
      (invitedDb.withoutAccount 8).member? 3 8 = none := by
  decide +kernel

theorem handed_invitedState : invitedState.handed 3 8 1 :=
  ⟨invitedDb_facts.1.1, .inr ⟨invitedMember 7 8 sharedInvite, invitedDb_facts.1.2,
    .inr ⟨_, rfl, rfl⟩⟩⟩

/-- User 8 declines, and the vault is marked. -/
theorem nobody_unnoticed_decline :
    ∃ s, NobodyUnnoticed s ∧ s.handed 3 8 1 ∧ s.db.member? 3 8 = none := by
  obtain ⟨-, ⟨hrun, hvault, hgone⟩, -⟩ := invitedDb_facts
  have hstep : HandedStep InvitesWatched invitedState (invitedState.next declinedDb) :=
    ⟨.declineInvite 8 3, _, trivial, hrun, rfl⟩
  refine ⟨_, nobody_unnoticed ((reaches_invitedState InvitesWatched fun op db hop => ?_).tail hstep),
    ⟨hvault, .inl handed_invitedState⟩, hgone⟩
  cases op with
  | deleteAccount userId => exact absurd rfl (hop userId)
  | _ => trivial

/-- **A pending invitee deletes their account**: they were handed the current key, are gone, and
nobody is told to rotate it. -/
theorem nobody_unnoticed_fails : ∃ s,
    Run.Reaches (HandedStep fun _ _ => True) HandedState.start s ∧
      s.db.vault? 3 = some (newVault 3 7 .shared [] []) ∧ s.handed 3 8 1 ∧
      s.db.member? 3 8 = none ∧ ¬NobodyUnnoticed s := by
  obtain ⟨-, -, hrun, hvault, hgone⟩ := invitedDb_facts
  have hstep : HandedStep (fun _ _ => True) invitedState
      (invitedState.next (invitedDb.withoutAccount 8)) :=
    ⟨.deleteAccount 8, _, trivial, hrun, rfl⟩
  have hreaches := (reaches_invitedState (fun _ _ => True) fun _ _ _ => trivial).tail hstep
  have hhanded : (invitedState.next (invitedDb.withoutAccount 8)).handed 3 8 1 :=
    ⟨Option.isSome_iff_exists.2 ⟨_, hvault⟩, .inl handed_invitedState⟩
  refine ⟨_, hreaches, hvault, hhanded, hgone, fun h => ?_⟩
  obtain ⟨m, hm⟩ | hmark := h 3 (newVault 3 7 .shared [] []) 8 hvault rfl hhanded
  · have hm : (invitedDb.withoutAccount 8).member? 3 8 = some m := hm
    rw [hgone] at hm
    cases hm
  · cases hmark

end Passmgr
