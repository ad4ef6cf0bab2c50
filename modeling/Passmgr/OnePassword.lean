/-
# Login and key set of one password

A password change and a recovery replace the login record and the key set together, and only the
key set they were started with.  A rekey replaces the active key set whatever it is: where the
password was changed between its login and its lock, the new wrap opens with the old password.

Main definitions:

* `OnePassword` — one active key set, under the password that logs in;
* `KeyRely` — what the lock on the active key set keeps the others from changing.

Main results:

* `one_password_of_reaches` — so it is in every run whose rekeys lock the key set of their login;
* `two_passwords_after_rekey` — a rekey that waits out a password change.
-/

import Passmgr.KeySets

set_option relaxedAutoImplicit false
set_option autoImplicit false

namespace Passmgr

open ReadCommitted (Prog Ok Rely)

/-! ### The property -/

/-- The key sets of a user that are not closed. -/
def KeyTables.openKeySets (db : KeyTables) (userId : UserId) : List KeySet :=
  db.keys.filter fun row => row.userId = userId && row.validTo.isNone

/-- The user has exactly one key set that is not closed; it is active, and its wrap opens with the
password that logs in. -/
def OnePassword (P : Passwords) (userId : UserId) (db : KeyTables) : Prop :=
  ∃ user active, db.user? userId = some user ∧ db.openKeySets userId = [active] ∧
    active.deletedAt = none ∧ P.ofKeys active.toPasswordKeys = P.ofRecord user.registrationRecord

/-! ### What the lock keeps -/

/-- What the transactions of a user are about: the account and its open key sets. -/
structure SameAccount (userId : UserId) (a b : KeyTables) : Prop where
  user : b.user? userId = a.user? userId
  keySets : b.openKeySets userId = a.openKeySets userId

/-- Where an active key set of the user is locked, its account stays. -/
def KeyRely (userId : UserId) (held : List KeyLock) (a b : KeyTables) : Prop :=
  (∃ row ∈ a.openKeySets userId, .keySet row.keySetId ∈ held) → SameAccount userId a b

def keyRely (userId : UserId) : Rely KeyTables KeyLock where
  rel := KeyRely userId
  refl _ _ _ := ⟨rfl, rfl⟩
  trans held a b c hab hbc := by
    intro h
    have hb := hab h
    have hc := hbc (by rw [hb.keySets]; exact h)
    exact ⟨hc.user.trans hb.user, hc.keySets.trans hb.keySets⟩

/-! ### What the statements write -/

section Writes

variable {db db' : KeyTables} {userId : UserId} {keySetId : String} {now : Time}

theorem SameAccount.trans {a b c : KeyTables} (hab : SameAccount userId a b)
    (hbc : SameAccount userId b c) : SameAccount userId a c :=
  ⟨hbc.user.trans hab.user, hbc.keySets.trans hab.keySets⟩

@[simp] theorem user?_closeKeySet : (db.closeKeySet keySetId now).user? userId = db.user? userId :=
  rfl

@[simp] theorem user?_insertKeySet (row : KeySet) :
    (db.insertKeySet row).user? userId = db.user? userId := rfl

@[simp] theorem openKeySets_setRegistrationRecord (userId' : UserId) (record : String) :
    (db.setRegistrationRecord userId' record).openKeySets userId = db.openKeySets userId := rfl

/-- Closing a key set takes it from the open ones. -/
theorem openKeySets_closeKeySet : (db.closeKeySet keySetId now).openKeySets userId =
    (db.openKeySets userId).filter (·.keySetId ≠ keySetId) := by
  rw [KeyTables.openKeySets, KeyTables.closeKeySet, KeyTables.openKeySets]
  induction db.keys with
  | nil => rfl
  | cons row rows ih =>
      rw [List.map_cons, List.filter_cons, ih, List.filter_cons]
      by_cases hid : row.keySetId = keySetId
      · by_cases hopen : (row.userId = userId && row.validTo.isNone) = true
        · simp [hid, hopen]
        · simp [hid, hopen]
      · by_cases hopen : (row.userId = userId && row.validTo.isNone) = true
        · rw [if_neg hid, if_pos hopen, if_pos hopen, List.filter_cons, if_pos (by simp [hid])]
        · rw [if_neg hid, if_neg hopen, if_neg hopen]

theorem openKeySets_insertKeySet (row : KeySet) (huser : row.userId = userId)
    (hopen : row.validTo = none) :
    (db.insertKeySet row).openKeySets userId = db.openKeySets userId ++ [row] := by
  rw [KeyTables.openKeySets, KeyTables.insertKeySet, List.filter_append]
  simp [KeyTables.openKeySets, huser, hopen]

/-- The account with its new record. -/
theorem user?_setRegistrationRecord (record : String) :
    (db.setRegistrationRecord userId record).user? userId =
      (db.user? userId).map fun user => { user with registrationRecord := record } := by
  rw [KeyTables.user?, KeyTables.setRegistrationRecord, KeyTables.user?]
  induction db.users with
  | nil => rfl
  | cons user users ih =>
      rw [List.map_cons, List.find?_cons, ih, List.find?_cons]
      by_cases hfound : user.userId = userId ∧ user.deletedAt.isNone
      · simp [hfound]
      · have hnot : (user.userId = userId && user.deletedAt.isNone) = false :=
          Bool.eq_false_iff.2 fun h => hfound (by simpa using h)
        rw [if_neg hfound, hnot]

end Writes

/-! ### Transactions on their own -/

/-- A transaction that holds the lock on the one key set of an account. -/
structure Locked (userId : UserId) (held : List KeyLock) (db : KeyTables) (user : LoginUser)
    (active : KeySet) : Prop where
  user : db.user? userId = some user
  keySets : db.openKeySets userId = [active]
  held : .keySet active.keySetId ∈ held

section Transactions

variable {P : Passwords} {userId : UserId} {held : List KeyLock} {db db' : KeyTables}
  {user : LoginUser} {active row : KeySet} {pending : KeyTables → KeyTables} {now : Time}

theorem Locked.rely (h : Locked userId held db user active) (hr : KeyRely userId held db db') :
    Locked userId held db' user active := by
  have hsame := hr ⟨active, by rw [h.keySets]; exact List.mem_singleton_self _, h.held⟩
  exact ⟨hsame.user.trans h.user, hsame.keySets.trans h.keySets, h.held⟩

theorem Locked.more (h : Locked userId held db user active) (locks : List KeyLock) :
    Locked userId (locks ++ held) db user active :=
  ⟨h.user, h.keySets, List.mem_append_right _ h.held⟩

/-- A commit under the lock. -/
theorem ok_commit_locked (h : Locked userId held db user active)
    (hpending : ∀ db', Locked userId held db' user active → OnePassword P userId (pending db')) :
    Ok (keyRely userId) (OnePassword P userId) .commit pending held db := by
  intro db' hr _
  have hlocked := h.rely hr
  refine ⟨hpending db' hlocked, fun ls hls hrow => ?_⟩
  obtain ⟨row, hrow, hmem⟩ := hrow
  rw [hlocked.keySets, List.mem_singleton] at hrow
  exact absurd hlocked.held (hls _ (hrow ▸ hmem))

/-- The key set that replaces the active one is the only open one. -/
theorem openKeySets_replaced (h : db.openKeySets userId = [active]) (huser : row.userId = userId)
    (hopen : row.validTo = none) :
    ((db.closeKeySet active.keySetId now).insertKeySet row).openKeySets userId = [row] := by
  rw [openKeySets_insertKeySet row huser hopen, openKeySets_closeKeySet, h]
  simp

/-- The swap of the active key set. -/
theorem ok_replaceKeySet {next : KeyTxn} (h : Locked userId held db user active)
    (hnext : ∀ held' db', Locked userId held' db' user active →
      Ok (keyRely userId) (OnePassword P userId) next
        (fun db => (db.closeKeySet active.keySetId now).insertKeySet row) held' db') :
    Ok (keyRely userId) (OnePassword P userId) (replaceKeySet active row now next) id held db := by
  refine ReadCommitted.ok_write fun db₁ hr₁ _ => ?_
  have h₁ := (h.rely hr₁).more [.keySet active.keySetId]
  refine ReadCommitted.ok_write fun db₂ hr₂ _ => ?_
  exact hnext _ db₂ (h₁.rely hr₂)

/-- The new login record, under the lock, when the key set is replaced. -/
theorem ok_updateRecord {record : String} {next : Bool → KeyTxn} (hnext : next true = .commit)
    (h : Locked userId held db user active) (huser : row.userId = userId)
    (hopen : row.validTo = none) (hdeleted : row.deletedAt = none)
    (hpassword : P.ofKeys row.toPasswordKeys = P.ofRecord record) :
    Ok (keyRely userId) (OnePassword P userId) (updateRegistrationRecord userId record next)
      (fun db => (db.closeKeySet active.keySetId now).insertKeySet row) held db := by
  intro db₁ hr₁ _ _
  have h₁ := h.rely hr₁
  have hfound : (((db₁.closeKeySet active.keySetId now).insertKeySet row).user? userId).isSome := by
    rw [user?_insertKeySet, user?_closeKeySet, h₁.user]
    rfl
  dsimp only
  rw [hfound, hnext]
  refine ok_commit_locked (h₁.more _) fun db₂ h₂ => ?_
  refine ⟨{ user with registrationRecord := record }, row, ?_, ?_, hdeleted, hpassword⟩
  · rw [Function.comp_apply, user?_setRegistrationRecord, user?_insertKeySet, user?_closeKeySet,
      h₂.user]
    rfl
  · rw [Function.comp_apply, openKeySets_setRegistrationRecord]
    exact openKeySets_replaced h₂.keySets huser hopen

/-- The lock on the active key set: the row that is found is the one key set of the account. -/
theorem ok_lockActiveKeySet {expects : KeyTables → Prop} {next : Option KeySet → KeyTxn}
    (hnone : next none = .abort)
    (hnext : ∀ held db user active, Locked userId held db user active → expects db →
      active.userId = userId → Ok (keyRely userId) (OnePassword P userId) (next (some active)) id
        held db) :
    Ok (keyRely userId) (OnePassword P userId) (lockActiveKeySet userId expects next) id [] db := by
  refine ReadCommitted.ok_read fun found _ _ => ?_
  intro db₁ _ hinv hexpects
  dsimp only [id_eq]
  cases hfind : db₁.keys.find? fun row =>
      row.isActive userId && row.keySetId ∈ found.activeIds userId with
  | none =>
      rw [hnone]
      trivial
  | some row =>
      obtain ⟨user, active, huser, hkeys, -, -⟩ := hinv
      have hrow := List.find?_some hfind
      simp only [KeySet.isActive, Bool.and_eq_true, decide_eq_true_eq] at hrow
      obtain ⟨⟨⟨hown, hopen⟩, -⟩, hmem⟩ := hrow
      have hin : row ∈ db₁.openKeySets userId :=
        List.mem_filter.2 ⟨List.mem_of_find?_eq_some hfind, by simp [hown, hopen]⟩
      obtain rfl : row = active := by rwa [hkeys, List.mem_singleton] at hin
      refine hnext _ _ user row ⟨huser, hkeys, ?_⟩ hexpects hown
      exact List.mem_append_left _ (List.mem_map_of_mem hmem)

/-! ### The three transactions -/

theorem ok_rekeyPasswordKeys {loginRecord keySetId : String} {passwordKeys : PasswordKeys}
    (hhonest : P.ofKeys passwordKeys = P.ofRecord loginRecord) :
    Ok (keyRely userId) (OnePassword P userId)
      (rekeyPasswordKeys userId loginRecord passwordKeys keySetId now) id [] db := by
  refine ok_lockActiveKeySet rfl fun held db₁ user active h hexpects hown => ?_
  refine ok_replaceKeySet h fun held' db₂ h₂ => ok_commit_locked h₂ fun db₃ h₃ => ?_
  have hrecord : user.registrationRecord = loginRecord := by
    rw [KeyTables.recordOf, h.user] at hexpects
    exact Option.some.inj hexpects
  refine ⟨user, active.withPassword passwordKeys keySetId now, h₃.user, ?_, rfl, ?_⟩
  · exact openKeySets_replaced h₃.keySets hown rfl
  · rw [hrecord]
    exact hhonest

theorem ok_finishPasswordChange {attemptKeySetId registrationRecord keySetId : String}
    {passwordKeys : PasswordKeys} (hhonest : P.ofKeys passwordKeys = P.ofRecord registrationRecord) :
    Ok (keyRely userId) (OnePassword P userId)
      (finishPasswordChange userId attemptKeySetId registrationRecord passwordKeys keySetId now) id
      [] db := by
  refine ok_lockActiveKeySet rfl fun held db₁ user active h _ hown => ?_
  dsimp only
  split
  · trivial
  · exact ok_replaceKeySet h fun held' db₂ h₂ => ok_updateRecord rfl h₂ hown rfl rfl hhonest

theorem ok_finishRecovery {attemptKeySetId registrationRecord keySetId : String}
    {userKeys : UserKeys}
    (hhonest : P.ofKeys userKeys.toPasswordKeys = P.ofRecord registrationRecord) :
    Ok (keyRely userId) (OnePassword P userId)
      (finishRecovery userId attemptKeySetId registrationRecord userKeys keySetId now) id [] db := by
  refine ok_lockActiveKeySet rfl fun held db₁ user active h _ _ => ?_
  dsimp only
  split
  · trivial
  · exact ok_replaceKeySet h fun held' db₂ h₂ => ok_updateRecord rfl h₂ rfl rfl rfl hhonest

end Transactions

/-! ### Runs -/

/-- The transactions honest clients start. -/
inductive KeyOp (P : Passwords) (userId : UserId) : KeyTxn → Prop
  | rekeyPasswordKeys (loginRecord : String) (passwordKeys : PasswordKeys) (keySetId : String)
      (now : Time) (hhonest : P.ofKeys passwordKeys = P.ofRecord loginRecord) :
      KeyOp P userId (rekeyPasswordKeys userId loginRecord passwordKeys keySetId now)
  | finishPasswordChange (attemptKeySetId registrationRecord : String)
      (passwordKeys : PasswordKeys) (keySetId : String) (now : Time)
      (hhonest : P.ofKeys passwordKeys = P.ofRecord registrationRecord) :
      KeyOp P userId (finishPasswordChange userId attemptKeySetId registrationRecord passwordKeys
        keySetId now)
  | finishRecovery (attemptKeySetId registrationRecord : String) (userKeys : UserKeys)
      (keySetId : String) (now : Time)
      (hhonest : P.ofKeys userKeys.toPasswordKeys = P.ofRecord registrationRecord) :
      KeyOp P userId (finishRecovery userId attemptKeySetId registrationRecord userKeys keySetId now)

theorem KeyOp.ok {P : Passwords} {userId : UserId} {prog : KeyTxn} (h : KeyOp P userId prog)
    (db : KeyTables) : Ok (keyRely userId) (OnePassword P userId) prog id [] db := by
  cases h with
  | rekeyPasswordKeys loginRecord passwordKeys keySetId now hhonest =>
      exact ok_rekeyPasswordKeys hhonest
  | finishPasswordChange attemptKeySetId registrationRecord passwordKeys keySetId now hhonest =>
      exact ok_finishPasswordChange hhonest
  | finishRecovery attemptKeySetId registrationRecord userKeys keySetId now hhonest =>
      exact ok_finishRecovery hhonest

theorem step_of_none {inTime : Prop} {ops : KeyTxn → Prop}
    {s t : ReadCommitted.State KeyTables KeyLock}
    (h : ReadCommitted.Step (fun _ => False) inTime s t) : ReadCommitted.Step ops inTime s t := by
  cases h with
  | start i prog hfree hop => exact hop.elim
  | exec i tx expects locks write next htx hprog hlocks hexpects =>
      exact .exec i tx expects locks write next htx hprog hlocks hexpects
  | commit i tx htx hprog => exact .commit i tx htx hprog
  | abort i tx htx => exact .abort i tx htx

/-- What the server does is a run of its transactions. -/
theorem store_of_keyStep {P : Passwords} {userId : UserId} {inTime : Prop} {s t : KeyServer}
    (h : KeyStep P userId inTime s t) :
    Run.Reaches (ReadCommitted.Step (KeyOp P userId) inTime) s.store t.store := by
  cases h with
  | login => exact .refl
  | endSessions => exact .refl
  | startPasswordChange => exact .refl
  | startRecovery => exact .refl
  | rekeyPasswordKeys i sessionId session passwordKeys keySetId now hsession huser hhonest hfree =>
      exact .single (.start i _ hfree (.rekeyPasswordKeys _ _ _ _ hhonest))
  | finishPasswordChange i sessionId session attemptId attempt registrationRecord passwordKeys
      keySetId now hsession huser hattempt hown hhonest hfree =>
      exact .single (.start i _ hfree (.finishPasswordChange _ _ _ _ _ hhonest))
  | finishRecovery i attemptId attempt emailHash registrationRecord userKeys keySetId now hattempt
      hown hemail hhonest hfree =>
      exact .single (.start i _ hfree (.finishRecovery _ _ _ _ _ hhonest))
  | transaction store hstore => exact .single (step_of_none hstore)

/-- **Login and key set stay of one password** in every committed state of every interleaving in
which rekeys lock the key set of their own login. -/
theorem one_password_of_reaches (P : Passwords) (userId : UserId) {db : KeyTables}
    (hdb : OnePassword P userId db) {s t : KeyServer}
    (hs : s.store = ReadCommitted.State.quiet db)
    (ht : Run.Reaches (KeyStep P userId True) s t) : OnePassword P userId t.store.committed := by
  have hstore : Run.Reaches (ReadCommitted.Step (KeyOp P userId) True) s.store t.store := by
    induction ht with
    | refl => exact .refl
    | tail _ hst ih => exact ih.trans (store_of_keyStep hst)
  rw [hs] at hstore
  exact ReadCommitted.invariant_of_ok (keyRely userId) (fun prog db' hop _ => hop.ok db') hdb hstore

/-! ### An account with two devices -/

/-- A record and a wrap that show their password. -/
def plainPasswords : Passwords where
  ofRecord := id
  ofKeys passwordKeys := passwordKeys.encryptedAccountKey

def plainPasswordKeys (password : String) : PasswordKeys where
  passwordKekParams := { t := 3, m := 65536, p := 1 }
  passwordKekSalt := "salt"
  encryptedAccountKey := password
  accountKeyEncryptionNonce := "nonce"

/-- The account key set made with "old". -/
def plainKeySet : KeySet where
  recoveryKekSalt := "salt"
  encryptedAccountKeyRecovery := "recovery"
  accountKeyEncryptionNonceRecovery := "nonce"
  recoveryVerifier := none
  toPasswordKeys := plainPasswordKeys "old"
  keySetId := "first"
  userId := 7
  validFrom := 0
  validTo := none
  deletedAt := none

def plainKeyTables : KeyTables where
  users := [{ userId := 7, emailHash := "a@b", registrationRecord := "old", deletedAt := none }]
  keys := [plainKeySet]

/-- The account, before its first request. -/
def plainKeyServer : KeyServer where
  store := ReadCommitted.State.quiet plainKeyTables
  sessions := fun _ => none
  passwordChanges := fun _ => none
  recoveries := fun _ => none

theorem onePassword_plain : OnePassword plainPasswords 7 plainKeyTables :=
  ⟨_, plainKeySet, rfl, by decide +kernel, rfl, rfl⟩

/-- A transaction that has begun runs to its commit while no other one holds a lock. -/
theorem reaches_transaction {P : Passwords} {userId : UserId} {inTime : Prop} {s : KeyServer}
    (i : ℕ) {prog : KeyTxn} {db : KeyTables}
    (htx : s.store.txs i = some (ReadCommitted.Tx.new prog))
    (hother : ∀ j tx, s.store.txs j = some tx → tx.held = [])
    (hexpects : inTime → prog.AsExpected id s.store.committed)
    (h : prog.alone id s.store.committed = some db) :
    Run.Reaches (KeyStep P userId inTime) s
      { s with store := { s.store.set i none with committed := db } } := by
  have hrun : Run.Reaches (ReadCommitted.Step (fun _ => False) inTime) s.store
      { s.store.set i none with committed := db } :=
    ReadCommitted.reaches_alone htx (fun j tx _ hj => hother j tx hj) hexpects h
  have hlift : ∀ store, Run.Reaches (ReadCommitted.Step (fun _ => False) inTime) s.store store →
      Run.Reaches (KeyStep P userId inTime) s { s with store := store } := by
    intro store hstore
    induction hstore with
    | refl => exact .refl
    | tail _ hst ih => exact ih.tail (.transaction _ hst)
  exact hlift _ hrun

/-- The tables after one more key set. -/
def rekeyedTables (record second : String) : KeyTables where
  users := [{ userId := 7, emailHash := "a@b", registrationRecord := record, deletedAt := none }]
  keys := [{ plainKeySet with validTo := some 20 },
    plainKeySet.withPassword (plainPasswordKeys second) "second" 20]

/-- The tables after two. -/
def twiceRekeyedTables (second third : String) : KeyTables where
  users := [{ userId := 7, emailHash := "a@b", registrationRecord := "new", deletedAt := none }]
  keys := [{ plainKeySet with validTo := some 20 },
    { plainKeySet.withPassword (plainPasswordKeys second) "second" 20 with validTo := some 30 },
    plainKeySet.withPassword (plainPasswordKeys third) "third" 30]

/-- Transactions that have begun and run no statement hold no lock. -/
theorem held_of_begun {store : ReadCommitted.State KeyTables KeyLock}
    (h : ∀ j tx, store.txs j = some tx → tx.held = []) (i : ℕ) (prog : KeyTxn) :
    ∀ j tx, (store.set i (some (ReadCommitted.Tx.new prog))).txs j = some tx → tx.held = [] := by
  intro j tx hj
  by_cases hji : j = i
  · subst hji
    rw [ReadCommitted.State.txs_set_self] at hj
    obtain rfl := Option.some.inj hj
    rfl
  · simp only [ReadCommitted.State.set, Function.update_of_ne hji] at hj
    exact h j tx hj

theorem held_of_done {store : ReadCommitted.State KeyTables KeyLock}
    (h : ∀ j tx, store.txs j = some tx → tx.held = []) (i : ℕ) (db : KeyTables) :
    ∀ j tx, ({ store.set i none with committed := db } :
      ReadCommitted.State KeyTables KeyLock).txs j = some tx → tx.held = [] := by
  intro j tx hj
  by_cases hji : j = i
  · subst hji
    simp [ReadCommitted.State.set] at hj
  · simp only [ReadCommitted.State.set, Function.update_of_ne hji] at hj
    exact h j tx hj

theorem held_of_quiet (db : KeyTables) : ∀ j tx,
    (ReadCommitted.State.quiet db : ReadCommitted.State KeyTables KeyLock).txs j = some tx →
      tx.held = [] := by
  intro j tx hj
  cases hj

/-- A session that logged in with "old". -/
def plainSession : KeySession where
  userId := 7
  loginRecord := "old"

/-- A login, a rekey and a password change, one after the other. -/
theorem one_password_of_reaches_change : ∃ t,
    Run.Reaches (KeyStep plainPasswords 7 True) plainKeyServer t ∧
      t.store.committed = twiceRekeyedTables "old" "new" ∧
        OnePassword plainPasswords 7 t.store.committed := by
  have hlogin : Run.Reaches (KeyStep plainPasswords 7 True) plainKeyServer _ :=
    .single (.login "session" _ (by rfl))
  have hrekey := hlogin.tail (.rekeyPasswordKeys 0 "session" plainSession
    (plainPasswordKeys "old") "second" 20 (by rfl) (by rfl) (by rfl) (by rfl))
  have hrekeyed := hrekey.trans (@reaches_transaction plainPasswords 7 True _ 0
    (rekeyPasswordKeys 7 "old" (plainPasswordKeys "old") "second" 20)
    (rekeyedTables "old" "old") (by rfl) (held_of_begun (held_of_quiet _) 0 _)
    (fun _ => ⟨trivial, by rfl, trivial, trivial, trivial⟩) (by decide +kernel))
  have hstart := hrekeyed.tail (.startPasswordChange "session" plainSession "a@b" "attempt"
    { userId := 7, keySetId := "second" } (by rfl) (by rfl) (by decide +kernel))
  have hfinish := hstart.tail (.finishPasswordChange 1 "session" plainSession "attempt"
    { userId := 7, keySetId := "second" } "new" (plainPasswordKeys "new") "third" 30 (by rfl)
    (by rfl) (by rfl) (by rfl) (by rfl) (by rfl))
  have hdone := hfinish.trans (@reaches_transaction plainPasswords 7 True _ 1
    (finishPasswordChange 7 "second" "new" (plainPasswordKeys "new") "third" 30)
    (twiceRekeyedTables "old" "new") (by rfl) (held_of_begun (held_of_done
    (held_of_begun (held_of_quiet _) 0 _) 0 _) 1 _)
    (fun _ => ⟨trivial, trivial, trivial, trivial, trivial, trivial⟩) (by decide +kernel))
  exact ⟨_, hdone, rfl, one_password_of_reaches plainPasswords 7 onePassword_plain rfl hdone⟩

/-- **A rekey after a password change**: it was asked for before the change, with a wrap under the
old password, and finds the new key set when it locks. -/
theorem two_passwords_after_rekey : ∃ t,
    Run.Reaches (KeyStep plainPasswords 7 False) plainKeyServer t ∧
      ¬ OnePassword plainPasswords 7 t.store.committed := by
  have hlogin : Run.Reaches (KeyStep plainPasswords 7 False) plainKeyServer _ :=
    .single (.login "session" _ (by rfl))
  have hrekey := hlogin.tail (.rekeyPasswordKeys 0 "session" plainSession
    (plainPasswordKeys "old") "third" 30 (by rfl) (by rfl) (by rfl) (by rfl))
  have hother := hrekey.tail (.login "other" _ (by rfl))
  have hstart := hother.tail (.startPasswordChange "other" plainSession "a@b" "attempt"
    { userId := 7, keySetId := "first" } (by rfl) (by rfl) (by decide +kernel))
  have hfinish := hstart.tail (.finishPasswordChange 1 "other" plainSession "attempt"
    { userId := 7, keySetId := "first" } "new" (plainPasswordKeys "new") "second" 20 (by rfl)
    (by rfl) (by rfl) (by rfl) (by rfl) (by rfl))
  have hchanged := hfinish.trans (@reaches_transaction plainPasswords 7 False _ 1
    (finishPasswordChange 7 "first" "new" (plainPasswordKeys "new") "second" 20)
    (rekeyedTables "new" "new") (by rfl)
    (held_of_begun (held_of_begun (held_of_quiet _) 0 _) 1 _) False.elim (by decide +kernel))
  -- the sessions of the old password end, the request that was let in goes on
  have hended := hchanged.tail (.endSessions fun sessionId => sessionId ≠ "other")
  have hdone := hended.trans (@reaches_transaction plainPasswords 7 False _ 0
    (rekeyPasswordKeys 7 "old" (plainPasswordKeys "old") "third" 30)
    (twiceRekeyedTables "new" "old") (by rfl)
    (held_of_done (held_of_begun (held_of_begun (held_of_quiet _) 0 _) 1 _) 1 _) False.elim
    (by decide +kernel))
  refine ⟨_, hdone, ?_⟩
  rintro ⟨user, active, huser, hkeys, -, hpassword⟩
  have huser' : (twiceRekeyedTables "new" "old").user? 7 = some user := huser
  have hkeys' : (twiceRekeyedTables "new" "old").openKeySets 7 = [active] := hkeys
  obtain rfl := Option.some.inj huser'
  obtain rfl := List.singleton_inj.1 ((by decide +kernel :
    (twiceRekeyedTables "new" "old").openKeySets 7 =
      [plainKeySet.withPassword (plainPasswordKeys "old") "third" 30]).symm.trans hkeys')
  exact absurd hpassword (by decide)

end Passmgr
