/-
# Logins created in autofill on their way into the vault

The sealed files of `AutofillVault.kt` and `importPendingAutofillLogins` of
`packages/client/src/records/autofill.ts`.  The directory and the database have no common
transaction: an import may stop between any two of its steps, and the next one starts over.  Only
one runs at a time.  A sealed file opens to what was sealed, so that a file is the login in it.

A record is not created again because its id is among the heads, tombstones included; a permanent
deletion on a profile without an account leaves none.

Main definitions:

* `readPending`, `removePending`, `writePending` — the directory;
* `importEntries` — the records an import writes;
* `Device`, `Step` — an import with everything that may happen between its steps;
* `Meets` — what each step has to meet: the website of a login fits, and no record of a login whose
  file is still there is forgotten;
* `ExactlyOnce` — every login has its file or its record, and none has two.

Main results:

* `keeps_of_edit` — edits and deletions forget no record;
* `inv_step` — the invariant, step by step;
* `importPending_exactlyOnce` — what holds after any run.
-/

import Passmgr.Backup
import Passmgr.PendingLogins
import Passmgr.Run
import Passmgr.Tags

set_option relaxedAutoImplicit false
set_option autoImplicit false

namespace Passmgr

namespace AutofillImport

open IdealCipher (Ciphers)
open RecordSchema (maxFieldLength)
open Websites (UrlParser)

/-! ### The directory -/

/-- `<profileId>.<loginId>.pending`. -/
structure PendingName where
  profileId : Text
  loginId : RecordId
  deriving DecidableEq, Repr

abbrev Directory := List (PendingName × PendingLogin)

section

variable (files : Directory) (profileId : Text)

def pendingFile (id : SpelledId) : PendingName := ⟨profileId, id.uuid⟩

/-- The files of a profile. -/
def pendingFiles : Directory := files.filter (·.1.profileId = profileId)

def hasPending : Bool := pendingFiles files profileId ≠ []

def readPending : List PendingLogin := (pendingFiles files profileId).map (·.2)

/-- `removePending`, of one login. -/
def removePending (id : SpelledId) : Directory := files.filter (·.1 ≠ pendingFile profileId id)

/-- A file replaces the one of its name. -/
def writePending (login : PendingLogin) : Directory :=
  removePending files profileId login.id ++ [(pendingFile profileId login.id, login)]

end

/-! ### The import -/

/-- `entries`: a login whose id is among the heads is there already. -/
def importEntries (URL : UrlParser) (vaultId : VaultId) (known : RecordId → Bool)
    (pending : List PendingLogin) : List ImportEntry :=
  pending.filterMap fun login =>
    (pendingLoginData URL login).bind fun data =>
      if known login.id.uuid then none else some ⟨.create, login.id.uuid, vaultId, data⟩

/-- What `importPendingAutofillLogins` does next. -/
inductive Phase
  | ask
  | read
  | heads (pending : List PendingLogin)
  | write (pending : List PendingLogin) (known : RecordId → Bool)
  | remove (ids : List SpelledId)

structure Running where
  vaultId : VaultId
  phase : Phase

/-- A version that an import wrote, with the keys it was encrypted with. -/
structure WrittenVersion where
  store : SecretsStore
  row : LocalRow

/-- A device; the last two fields say what happened on it. -/
structure Device where
  files : Directory
  db : LocalDb
  running : Option Running
  created : List PendingLogin
  written : List WrittenVersion

/-- A device on which no login was created yet. -/
def Device.start (db : LocalDb) : Device := ⟨[], db, none, [], []⟩

section System

variable (C : Ciphers Text) (E : ExportEnv) (URL : UrlParser) (profileId : Text)

/-- One step on the device.  The id of a new login is fresh, and no other record gets the id of a
login. -/
inductive Step (s : Device) : Device → Prop
  | create (login : PendingLogin) (hfresh : login.id.uuid ∉ s.created.map (·.id.uuid))
      (hrows : s.db.rowsOf login.id.uuid = []) :
      Step s { s with
        files := writePending s.files profileId login
        created := s.created ++ [login] }
  | otherProfiles (files : Directory)
      (hsame : pendingFiles files profileId = pendingFiles s.files profileId) :
      Step s { s with files := files }
  /-- Records are edited, deleted and synced. -/
  | change (db : LocalDb)
      (hnew : ∀ login ∈ s.created, s.db.rowsOf login.id.uuid = [] → db.rowsOf login.id.uuid = []) :
      Step s { s with db := db }
  | begin (vaultId : VaultId) (hidle : s.running = none) :
      Step s { s with running := some ⟨vaultId, .ask⟩ }
  | ask (vaultId : VaultId) (hrunning : s.running = some ⟨vaultId, .ask⟩) :
      Step s { s with
        running := if hasPending s.files profileId then some ⟨vaultId, .read⟩ else none }
  | read (vaultId : VaultId) (hrunning : s.running = some ⟨vaultId, .read⟩) :
      Step s { s with running := some ⟨vaultId, .heads (readPending s.files profileId)⟩ }
  | heads (vaultId : VaultId) (pending : List PendingLogin)
      (hrunning : s.running = some ⟨vaultId, .heads pending⟩) :
      Step s { s with
        running := some ⟨vaultId, .write pending fun id => (getRecordHeads s.db id).isSome⟩ }
  | write (vaultId : VaultId) (pending : List PendingLogin) (known : RecordId → Bool)
      (store : SecretsStore) (run : ImportRun) (db : LocalDb)
      (hrunning : s.running = some ⟨vaultId, .write pending known⟩)
      (hwrite : writeImport C E store run (importEntries URL vaultId known pending).zipIdx s.db =
        .ok db) :
      Step s { s with
        db := db
        running := some ⟨vaultId, .remove (pending.map (·.id))⟩
        written := s.written ++ (db.records.drop s.db.records.length).map fun row => ⟨store, row⟩ }
  /-- A file may stay although it was to be deleted. -/
  | remove (vaultId : VaultId) (id : SpelledId) (ids : List SpelledId) (deleted : Bool)
      (hrunning : s.running = some ⟨vaultId, .remove (id :: ids)⟩) :
      Step s { s with
        files := if deleted then removePending s.files profileId id else s.files
        running := some ⟨vaultId, .remove ids⟩ }
  /-- An import ends, fails or is cut off. -/
  | stop : Step s { s with running := none }

/-- What a step has to meet. -/
structure Meets (s t : Device) : Prop where
  sites : ∀ login ∈ t.created, login ∈ s.created ∨ SiteFits URL login
  keeps : ∀ file ∈ pendingFiles s.files profileId,
    s.db.rowsOf file.2.id.uuid ≠ [] → t.db.rowsOf file.2.id.uuid ≠ []

/-- The password is within `MAX_FIELD_LENGTH`. -/
def Within (login : PendingLogin) : Prop := utf16Length login.password ≤ maxFieldLength

instance (login : PendingLogin) : Decidable (Within login) := inferInstanceAs (Decidable (_ ≤ _))

def HasFile (s : Device) (login : PendingLogin) : Prop :=
  (pendingFile profileId login.id, login) ∈ s.files

/-- The version is the first of the login's record, with its password and its date. -/
structure WrittenAs (login : PendingLogin) (version : WrittenVersion) : Prop where
  recordId : version.row.record.recordId = login.id.uuid
  first : version.row.record.version = 1
  opens : ∃ data, version.store.decryptRecord C version.row.record =
      .ok (recordPayloadJson E.toJsonText data) ∧
    JsObject.get? data "password" = some (.string login.password) ∧
    JsObject.get? data "passwordChangedAt" = some (.string login.createdAt)

def IsWritten (s : Device) (login : PendingLogin) : Prop :=
  ∃ version ∈ s.written, WrittenAs C E login version

/-- Every login has its file or its record, and none has two. -/
structure ExactlyOnce (s : Device) : Prop where
  arrives : ∀ login ∈ s.created, Within login → HasFile profileId s login ∨ IsWritten C E s login
  once : (s.written.map (·.row.record.recordId)).Nodup

end System

/-! ### Edits and deletions -/

/-- The same records have versions. -/
def SameRecords (db db' : LocalDb) : Prop := ∀ id, db'.rowsOf id = [] ↔ db.rowsOf id = []

theorem sameRecords_insert {db db' : LocalDb} {row written : EncryptedRecord} {now : Time}
    {changeId : ChangeId} (h : insertPending row now changeId db = .ok (db', written))
    (hrows : db.rowsOf row.recordId ≠ []) : SameRecords db db' := by
  intro id
  obtain ⟨hwritten, -, hrecords, -⟩ := of_insertPending h
  have hid : written.recordId = row.recordId := by rw [hwritten]
  unfold LocalDb.rowsOf at hrows ⊢
  rw [hrecords, List.filter_append, List.append_eq_nil_iff]
  refine ⟨And.left, fun hnil => ⟨hnil, ?_⟩⟩
  refine List.filter_eq_nil_iff.2 fun r hr heq => hrows ?_
  rw [List.mem_singleton.1 hr] at heq
  rw [← hid, of_decide_eq_true heq]
  exact hnil

/-- Edits and deletions forget no record. -/
theorem keeps_of_edit {db db' : LocalDb} {change : LocalRecordChange} {now : Time}
    {changeId : ChangeId} {written : EncryptedRecord}
    (hedit : ∀ ciphertext, change ≠ .create ciphertext)
    (h : writeLocalChange change now changeId db = .ok (db', written)) : SameRecords db db' := by
  cases hhead : getHead change.recordId db with
  | none =>
    cases change with
    | create ciphertext => exact absurd rfl (hedit ciphertext)
    | update ciphertext =>
      simp only [writeLocalChange, hhead] at h
      cases h
    | delete recordId clientUpdatedAt moved =>
      simp only [writeLocalChange, hhead] at h
      cases h
  | some head =>
    have hmem : head ∈ db.rowsOf change.recordId := List.argmax_mem hhead
    have hrows : db.rowsOf change.recordId ≠ [] := List.ne_nil_of_mem hmem
    have hid : head.record.recordId = change.recordId := of_decide_eq_true (List.mem_filter.1 hmem).2
    cases change with
    | create ciphertext => exact absurd rfl (hedit ciphertext)
    | update ciphertext =>
      simp only [writeLocalChange, hhead] at h
      split_ifs at h
      exact sameRecords_insert h hrows
    | delete recordId clientUpdatedAt moved =>
      simp only [writeLocalChange, hhead] at h
      split_ifs at h <;> exact sameRecords_insert h (by rw [hid]; exact hrows)

/-! ### The invariant -/

section Invariant

variable {C : Ciphers Text} {E : ExportEnv} {URL : UrlParser} {profileId : Text}

/-- What an import has read is still there, and what it knows of the heads still holds. -/
def RunningSound (C : Ciphers Text) (E : ExportEnv) (profileId : Text) (s : Device) : Phase → Prop
  | .heads pending =>
    (pending.map (·.id.uuid)).Nodup ∧ ∀ login ∈ pending, HasFile profileId s login
  | .write pending known =>
    (pending.map (·.id.uuid)).Nodup ∧ ∀ login ∈ pending, HasFile profileId s login ∧
      (known login.id.uuid = true ↔ s.db.rowsOf login.id.uuid ≠ [])
  | .remove ids => ∀ id ∈ ids, id.uuid ∈ s.created.map (·.id.uuid) ∧
      ∀ login ∈ s.created, login.id.uuid = id.uuid → Within login → IsWritten C E s login
  | _ => True

structure Inv (C : Ciphers Text) (E : ExportEnv) (URL : UrlParser) (profileId : Text)
    (s : Device) : Prop where
  named : ∀ file ∈ pendingFiles s.files profileId,
    file.1 = pendingFile profileId file.2.id ∧ file.2 ∈ s.created
  names : ((pendingFiles s.files profileId).map (·.1)).Nodup
  ids : (s.created.map (·.id.uuid)).Nodup
  sites : ∀ login ∈ s.created, SiteFits URL login
  once : (s.written.map (·.row.record.recordId)).Nodup
  origin : ∀ id ∈ s.written.map (·.row.record.recordId), id ∈ s.created.map (·.id.uuid)
  arrives : ∀ login ∈ s.created, Within login → HasFile profileId s login ∨ IsWritten C E s login
  /-- A login's record was written by an import. -/
  rows : ∀ login ∈ s.created, s.db.rowsOf login.id.uuid ≠ [] → IsWritten C E s login
  /-- A record that was written is there as long as the file is. -/
  kept : ∀ file ∈ pendingFiles s.files profileId,
    file.2.id.uuid ∈ s.written.map (·.row.record.recordId) → s.db.rowsOf file.2.id.uuid ≠ []
  running : ∀ vaultId phase, s.running = some ⟨vaultId, phase⟩ → RunningSound C E profileId s phase

theorem inv_start (db : LocalDb) : Inv C E URL profileId (.start db) where
  named := fun _ h => nomatch h
  names := List.nodup_nil
  ids := List.nodup_nil
  sites := fun _ h => nomatch h
  once := List.nodup_nil
  origin := fun _ h => nomatch h
  arrives := fun _ h => nomatch h
  rows := fun _ h => nomatch h
  kept := fun _ h => nomatch h
  running := fun _ _ h => nomatch h

/-! ### The directory -/

theorem mem_pendingFiles {files : Directory} {file : PendingName × PendingLogin} :
    file ∈ pendingFiles files profileId ↔ file ∈ files ∧ file.1.profileId = profileId := by
  simp [pendingFiles]

theorem mem_of_pendingFiles {files : Directory} {file : PendingName × PendingLogin}
    (h : file ∈ pendingFiles files profileId) : file ∈ files := (mem_pendingFiles.1 h).1

theorem hasFile_iff {s : Device} {login : PendingLogin} :
    HasFile profileId s login ↔
      (pendingFile profileId login.id, login) ∈ pendingFiles s.files profileId := by
  rw [mem_pendingFiles]
  exact ⟨fun h => ⟨h, rfl⟩, And.left⟩

theorem pendingFiles_remove (files : Directory) (id : SpelledId) :
    pendingFiles (removePending files profileId id) profileId =
      (pendingFiles files profileId).filter (·.1 ≠ pendingFile profileId id) := by
  simp only [pendingFiles, removePending, List.filter_filter, Bool.and_comm]

theorem pendingFiles_write (files : Directory) (login : PendingLogin) :
    pendingFiles (writePending files profileId login) profileId =
      (pendingFiles files profileId).filter (·.1 ≠ pendingFile profileId login.id) ++
        [(pendingFile profileId login.id, login)] := by
  rw [writePending, pendingFiles, List.filter_append]
  have hold := @pendingFiles_remove profileId files login.id
  unfold pendingFiles at hold
  rw [hold]
  simp [pendingFiles, pendingFile]

/-- A login is the one its file has. -/
theorem Inv.hasFile {s : Device} (h : Inv C E URL profileId s)
    {file : PendingName × PendingLogin} (hfile : file ∈ pendingFiles s.files profileId) :
    HasFile profileId s file.2 := by
  rw [hasFile_iff, ← (h.named file hfile).1]
  exact hfile

/-- Two logins of one id are one. -/
theorem Inv.login_inj {s : Device} (h : Inv C E URL profileId s) {a b : PendingLogin}
    (ha : a ∈ s.created) (hb : b ∈ s.created) (hid : a.id.uuid = b.id.uuid) : a = b :=
  List.inj_on_of_nodup_map h.ids ha hb hid

/-- What is read is each login once. -/
theorem Inv.nodup_readPending {s : Device} (h : Inv C E URL profileId s) :
    ((readPending s.files profileId).map (·.id.uuid)).Nodup := by
  have hnames : (pendingFiles s.files profileId).map (·.1) =
      ((readPending s.files profileId).map (·.id.uuid)).map (⟨profileId, ·⟩) := by
    rw [readPending, List.map_map, List.map_map]
    exact List.map_congr_left fun file hfile => (h.named file hfile).1
  exact List.Nodup.of_map _ (hnames ▸ h.names)

/-! ### What an import writes -/

theorem mem_importEntries {vaultId : VaultId} {known : RecordId → Bool}
    {pending : List PendingLogin} {entry : ImportEntry} :
    entry ∈ importEntries URL vaultId known pending ↔
      ∃ login ∈ pending, known login.id.uuid = false ∧ ∃ data,
        pendingLoginData URL login = some data ∧ entry = ⟨.create, login.id.uuid, vaultId, data⟩ := by
  rw [importEntries, List.mem_filterMap]
  refine exists_congr fun login => and_congr_right fun _ => ?_
  rw [Option.bind_eq_some_iff]
  cases hknown : known login.id.uuid with
  | true => simp
  | false => simp [eq_comm]

/-- A login that becomes no record keeps none of the others from being written. -/
theorem importEntries_filter (vaultId : VaultId) (known : RecordId → Bool)
    (pending : List PendingLogin) :
    importEntries URL vaultId known pending =
      importEntries URL vaultId known (pending.filter (Within ·)) := by
  induction pending with
  | nil => rfl
  | cons login pending ih =>
    rw [importEntries, List.filterMap_cons, ← importEntries, ih, List.filter_cons]
    by_cases hwithin : Within login
    · rw [if_pos (decide_eq_true hwithin)]
      simp only [importEntries, List.filterMap_cons]
    · have hnone : pendingLoginData URL login = none := by
        rw [← Option.not_isSome_iff_eq_none, pendingLoginData_isSome_iff]
        exact fun h => hwithin h.1
      rw [if_neg (by simpa using hwithin), hnone]
      rfl

/-- The ids that are written are those of logins, each at most once. -/
theorem nodup_importEntries {vaultId : VaultId} {known : RecordId → Bool}
    {pending : List PendingLogin} (h : (pending.map (·.id.uuid)).Nodup) :
    ((importEntries URL vaultId known pending).map (·.recordId)).Nodup := by
  refine h.sublist ?_
  clear h
  induction pending with
  | nil => exact List.Sublist.slnil
  | cons login pending ih =>
    rw [importEntries, List.filterMap_cons, ← importEntries, List.map_cons]
    split
    · exact ih.cons _
    · rename_i entry hentry
      obtain ⟨data, -, hdata⟩ := Option.bind_eq_some_iff.1 hentry
      split_ifs at hdata
      rw [List.map_cons, ← Option.some.inj hdata]
      exact ih.cons_cons _

/-- New records are written as first versions. -/
theorem first_of_creates {changes : List (LocalRecordChange × ChangeId)} {now : Time}
    {db db' : LocalDb} (hcreate : ∀ change ∈ changes, ∃ ciphertext, change.1 = .create ciphertext)
    (h : writeLocalChanges now db changes = .ok db') :
    ∃ rows, db'.records = db.records ++ rows ∧ ∀ row ∈ rows, row.record.version = 1 := by
  refine @Run.of_foldlM LocalDb _ _ _
    (fun t => ∃ rows, t.records = db.records ++ rows ∧ ∀ row ∈ rows, row.record.version = 1) _
    ?_ _ _ ⟨[], by simp, fun row hrow => nomatch hrow⟩ h
  rintro s t change hmem ⟨rows, hrows, hfirst⟩ hstep
  obtain ⟨⟨db₁, written⟩, hwrite, hdone⟩ := bind_eq_ok.1 hstep
  obtain rfl : db₁ = t := Except.ok.inj hdone
  obtain ⟨ciphertext, hciphertext⟩ := hcreate change hmem
  rw [hciphertext] at hwrite
  cases hhead : getHead ciphertext.recordId s with
  | some head =>
    simp only [writeLocalChange, LocalRecordChange.recordId, hhead] at hwrite
    cases hwrite
  | none =>
    simp only [writeLocalChange, LocalRecordChange.recordId, hhead] at hwrite
    obtain ⟨hwritten, -, hrecords, -⟩ := of_insertPending hwrite
    refine ⟨rows ++ [_], by rw [hrecords, hrows, List.append_assoc], fun row hrow => ?_⟩
    rcases List.mem_append.1 hrow with hrow | hrow
    · exact hfirst row hrow
    · rw [List.mem_singleton.1 hrow, hwritten]
      rfl

/-- The rows of a write that returned. -/
theorem rows_of_write (hC : C.Correct) {vaultId : VaultId} {known : RecordId → Bool}
    {pending : List PendingLogin} {store : SecretsStore} {run : ImportRun} {db db' : LocalDb}
    (h : writeImport C E store run (importEntries URL vaultId known pending).zipIdx db = .ok db') :
    ∃ rows, db'.records = db.records ++ rows ∧ (∀ row ∈ rows, row.record.version = 1) ∧
      List.Forall₂ (fun entry row => StoredAs C E store entry row)
        (importEntries URL vaultId known pending) rows := by
  have hcreate : ∀ entry ∈ (importEntries URL vaultId known pending).zipIdx,
      entry.1.kind = .create := by
    intro entry hentry
    obtain ⟨login, -, -, data, -, heq⟩ := mem_importEntries.1 (List.fst_mem_of_mem_zipIdx hentry)
    rw [heq]
  obtain ⟨rows, hrows, hstored, -⟩ := of_writeImport hC hcreate h
  have hfirst : ∃ first, db'.records = db.records ++ first ∧
      ∀ row ∈ first, row.record.version = 1 := by
    unfold writeImport at h
    cases hchanges : (importEntries URL vaultId known pending).zipIdx.mapM
        (importChange C E store run db) with
    | error e =>
      rw [hchanges] at h
      cases h
    | ok changes =>
      rw [hchanges] at h
      dsimp only at h
      cases hwrite : writeLocalChanges run.now db changes with
      | error e =>
        rw [hwrite] at h
        cases h
      | ok written =>
        rw [hwrite] at h
        obtain rfl := Except.ok.inj h
        refine first_of_creates (fun change hchange => ?_) hwrite
        obtain ⟨entry, hentry, hmade⟩ := RowByRow.exists_left (RowByRow.of_mapM hchanges) hchange
        obtain ⟨content, rfl, -⟩ := of_importChange (hcreate entry hentry) hmade
        exact ⟨_, rfl⟩
  obtain ⟨first, hfirstRows, hone⟩ := hfirst
  obtain rfl : first = rows := List.append_cancel_left (hfirstRows.symm.trans hrows)
  refine ⟨first, hrows, hone, ?_⟩
  have hmap := List.forall₂_map_left_iff.2 hstored
  rwa [List.zipIdx_map_fst] at hmap

/-! ### The steps -/

variable {s : Device}

/-- Only what the import does next is another. -/
theorem Inv.withRunning (h : Inv C E URL profileId s) {running : Option Running}
    (hsound : ∀ vaultId phase, running = some ⟨vaultId, phase⟩ → RunningSound C E profileId s phase) :
    Inv C E URL profileId { s with running := running } where
  named := h.named
  names := h.names
  ids := h.ids
  sites := h.sites
  once := h.once
  origin := h.origin
  arrives := h.arrives
  rows := h.rows
  kept := h.kept
  running := fun vaultId phase heq => by
    have hphase := hsound vaultId phase heq
    cases phase <;> exact hphase

/-- A running import stays sound where the files and the written records stay, the new logins have
other ids, and the records of the logins that it read come neither nor go. -/
theorem RunningSound.mono {t : Device} {phase : Phase} (h : RunningSound C E profileId s phase)
    (hfiles : ∀ login, HasFile profileId s login → HasFile profileId t login)
    (hrows : ∀ login, HasFile profileId s login →
      (s.db.rowsOf login.id.uuid ≠ [] ↔ t.db.rowsOf login.id.uuid ≠ []))
    (hcreated : ∀ id ∈ s.created.map (·.id.uuid), id ∈ t.created.map (·.id.uuid) ∧
      ∀ login ∈ t.created, login.id.uuid = id → login ∈ s.created)
    (hwritten : ∀ login, IsWritten C E s login → IsWritten C E t login) :
    RunningSound C E profileId t phase := by
  cases phase with
  | ask => trivial
  | read => trivial
  | heads pending => exact ⟨h.1, fun login hlogin => hfiles login (h.2 login hlogin)⟩
  | write pending known =>
    refine ⟨h.1, fun login hlogin => ?_⟩
    obtain ⟨hfile, hknown⟩ := h.2 login hlogin
    exact ⟨hfiles login hfile, hknown.trans (hrows login hfile)⟩
  | remove ids =>
    intro id hid
    obtain ⟨hmem, hlogins⟩ := h id hid
    obtain ⟨hmem', hold⟩ := hcreated id.uuid hmem
    exact ⟨hmem', fun login hlogin heq hwithin =>
      hwritten login (hlogins login (hold login hlogin heq) heq hwithin)⟩

/-- No file has the name of a new login. -/
theorem Inv.name_ne (h : Inv C E URL profileId s) {login : PendingLogin}
    (hfresh : login.id.uuid ∉ s.created.map (·.id.uuid)) {file : PendingName × PendingLogin}
    (hfile : file ∈ pendingFiles s.files profileId) :
    file.1 ≠ pendingFile profileId login.id := by
  intro heq
  obtain ⟨hname, hcreated⟩ := h.named file hfile
  have hid : file.2.id.uuid = login.id.uuid :=
    congrArg PendingName.loginId (hname.symm.trans heq)
  exact hfresh (hid ▸ List.mem_map_of_mem (f := fun l : PendingLogin => l.id.uuid) hcreated)

/-- The files after a login is created: no file had its name. -/
theorem Inv.pendingFiles_create (h : Inv C E URL profileId s) {login : PendingLogin}
    (hfresh : login.id.uuid ∉ s.created.map (·.id.uuid)) :
    pendingFiles (writePending s.files profileId login) profileId =
      pendingFiles s.files profileId ++ [(pendingFile profileId login.id, login)] := by
  have hall : (pendingFiles s.files profileId).filter (·.1 ≠ pendingFile profileId login.id) =
      pendingFiles s.files profileId :=
    List.filter_eq_self.2 fun _ hfile => decide_eq_true (h.name_ne hfresh hfile)
  rw [pendingFiles_write, hall]

theorem Inv.create (h : Inv C E URL profileId s) {login : PendingLogin}
    (hfresh : login.id.uuid ∉ s.created.map (·.id.uuid))
    (hrows : s.db.rowsOf login.id.uuid = []) (hsite : SiteFits URL login) :
    Inv C E URL profileId { s with
      files := writePending s.files profileId login
      created := s.created ++ [login] } := by
  have hfiles := h.pendingFiles_create hfresh
  have hkeeps : ∀ {other : PendingLogin}, HasFile profileId s other →
      (pendingFile profileId other.id, other) ∈ writePending s.files profileId login := by
    intro other hother
    refine @mem_of_pendingFiles profileId _ _ ?_
    rw [hfiles]
    exact List.mem_append_left _ (hasFile_iff.1 hother)
  have hnew : (pendingFile profileId login.id, login) ∈ writePending s.files profileId login := by
    simp [writePending]
  have hmem : ∀ {other : PendingLogin}, other ∈ s.created ++ [login] →
      other ∈ s.created ∨ other = login := by
    intro other hother
    rcases List.mem_append.1 hother with hother | hother
    · exact .inl hother
    · exact .inr (List.mem_singleton.1 hother)
  refine ⟨?_, ?_, ?_, ?_, h.once, ?_, ?_, ?_, ?_, ?_⟩
  · intro file hfile
    dsimp only at hfile ⊢
    rw [hfiles] at hfile
    rcases List.mem_append.1 hfile with hfile | hfile
    · exact ⟨(h.named file hfile).1, List.mem_append_left _ (h.named file hfile).2⟩
    · rw [List.mem_singleton.1 hfile]
      exact ⟨rfl, List.mem_append_right _ List.mem_cons_self⟩
  · dsimp only
    rw [hfiles, List.map_append, List.nodup_append]
    refine ⟨h.names, List.nodup_singleton _, ?_⟩
    intro name hname other hother heq
    obtain ⟨file, hfile, rfl⟩ := List.mem_map.1 hname
    rw [List.map_singleton, List.mem_singleton] at hother
    exact h.name_ne hfresh hfile (heq.trans hother)
  · dsimp only
    rw [List.map_append, List.nodup_append]
    refine ⟨h.ids, List.nodup_singleton _, fun id hid other hother heq => hfresh ?_⟩
    rw [List.map_singleton, List.mem_singleton] at hother
    rw [← hother, ← heq]
    exact hid
  · intro other hother
    rcases hmem hother with hother | rfl
    · exact h.sites other hother
    · exact hsite
  · intro id hid
    dsimp only
    rw [List.map_append]
    exact List.mem_append_left _ (h.origin id hid)
  · intro other hother hwithin
    rcases hmem hother with hother | rfl
    · exact (h.arrives other hother hwithin).imp hkeeps id
    · exact .inl hnew
  · intro other hother hother'
    rcases hmem hother with hother | rfl
    · exact h.rows other hother hother'
    · exact absurd hrows hother'
  · intro file hfile hwritten
    dsimp only at hfile
    rw [hfiles] at hfile
    rcases List.mem_append.1 hfile with hfile | hfile
    · exact h.kept file hfile hwritten
    · rw [List.mem_singleton.1 hfile] at hwritten
      exact absurd (h.origin _ hwritten) hfresh
  · intro vaultId phase hrunning
    refine (h.running vaultId phase hrunning).mono (fun _ => hkeeps) (fun _ _ => Iff.rfl)
      (fun id hid => ⟨?_, fun other hother heq => ?_⟩) fun _ => id
    · dsimp only
      rw [List.map_append]
      exact List.mem_append_left _ hid
    · exact (hmem hother).resolve_right fun hlogin => hfresh (hlogin ▸ heq ▸ hid)

theorem Inv.otherProfiles (h : Inv C E URL profileId s) {files : Directory}
    (hsame : pendingFiles files profileId = pendingFiles s.files profileId) :
    Inv C E URL profileId { s with files := files } := by
  have hhas : ∀ {login : PendingLogin}, HasFile profileId s login →
      (pendingFile profileId login.id, login) ∈ files := by
    intro login hlogin
    refine @mem_of_pendingFiles profileId _ _ ?_
    rw [hsame]
    exact hasFile_iff.1 hlogin
  refine ⟨?_, ?_, h.ids, h.sites, h.once, h.origin, ?_, h.rows, ?_, ?_⟩
  · intro file hfile
    dsimp only at hfile
    rw [hsame] at hfile
    exact h.named file hfile
  · dsimp only
    rw [hsame]
    exact h.names
  · exact fun login hlogin hwithin => (h.arrives login hlogin hwithin).imp hhas id
  · intro file hfile
    dsimp only at hfile
    rw [hsame] at hfile
    exact h.kept file hfile
  · exact fun vaultId phase hrunning => (h.running vaultId phase hrunning).mono (fun _ => hhas)
      (fun _ _ => Iff.rfl) (fun _ hid => ⟨hid, fun _ hlogin _ => hlogin⟩) fun _ => id

theorem Inv.change (h : Inv C E URL profileId s) {db : LocalDb}
    (hnew : ∀ login ∈ s.created, s.db.rowsOf login.id.uuid = [] → db.rowsOf login.id.uuid = [])
    (hkeeps : ∀ file ∈ pendingFiles s.files profileId,
      s.db.rowsOf file.2.id.uuid ≠ [] → db.rowsOf file.2.id.uuid ≠ []) :
    Inv C E URL profileId { s with db := db } := by
  refine ⟨h.named, h.names, h.ids, h.sites, h.once, h.origin, h.arrives, ?_, ?_, ?_⟩
  · exact fun login hlogin hrows => h.rows login hlogin fun hnil => hrows (hnew login hlogin hnil)
  · exact fun file hfile hwritten => hkeeps file hfile (h.kept file hfile hwritten)
  · refine fun vaultId phase hrunning => (h.running vaultId phase hrunning).mono (fun _ => id)
      (fun login hfile => ?_) (fun _ hid => ⟨hid, fun _ hlogin _ => hlogin⟩) fun _ => id
    have hmem := hasFile_iff.1 hfile
    exact ⟨hkeeps _ hmem, fun hrows hnil => hrows (hnew login (h.named _ hmem).2 hnil)⟩

/-- The rows of the record of an id, where new ones are added at the end. -/
theorem rowsOf_append_rows {db db' : LocalDb} {rows : List LocalRow}
    (h : db'.records = db.records ++ rows) (id : RecordId) :
    db'.rowsOf id = db.rowsOf id ++ rows.filter (·.record.recordId = id) := by
  rw [LocalDb.rowsOf, LocalDb.rowsOf, h, List.filter_append]

/-- The rows that a write adds: each is the first version of a login that was read and had no
record, and each login that has to be written has one. -/
structure Adds (C : Ciphers Text) (E : ExportEnv) (URL : UrlParser) (s : Device)
    (store : SecretsStore) (pending : List PendingLogin) (known : RecordId → Bool) (rows : List LocalRow) : Prop where
  once : (rows.map (·.record.recordId)).Nodup
  row : ∀ row ∈ rows, ∃ login ∈ pending, row.record.recordId = login.id.uuid ∧
    s.db.rowsOf login.id.uuid = [] ∧ WrittenAs C E login ⟨store, row⟩
  login : ∀ login ∈ pending, known login.id.uuid = false → Within login → SiteFits URL login →
    ∃ row ∈ rows, row.record.recordId = login.id.uuid

theorem adds_of_write (hC : C.Correct) {vaultId : VaultId} {pending : List PendingLogin}
    {known : RecordId → Bool} (hsound : RunningSound C E profileId s (.write pending known))
    {store : SecretsStore} {run : ImportRun} {db : LocalDb}
    (hwrite : writeImport C E store run (importEntries URL vaultId known pending).zipIdx s.db =
      .ok db) :
    ∃ rows, db.records = s.db.records ++ rows ∧ Adds C E URL s store pending known rows := by
  obtain ⟨hnodup, hread⟩ := hsound
  obtain ⟨rows, hrows, hfirst, hstored⟩ := rows_of_write hC hwrite
  have hentries : rows.map (·.record.recordId) =
      (importEntries URL vaultId known pending).map (·.recordId) :=
    RowByRow.map_eq (fun entry row hmade => hmade.recordId) hstored
  refine ⟨rows, hrows, hentries ▸ nodup_importEntries hnodup, ?_, ?_⟩
  · intro row hmem
    obtain ⟨entry, hentry, hrowStored⟩ := RowByRow.exists_left hstored hmem
    obtain ⟨login, hlogin, hunknown, data, hdata, rfl⟩ := mem_importEntries.1 hentry
    obtain ⟨hpassword, hdate⟩ := pendingLoginData_eq_some login hdata
    refine ⟨login, hlogin, hrowStored.recordId, ?_, hrowStored.recordId, hfirst row hmem, data,
      hrowStored.opens, hpassword, hdate⟩
    by_contra hne
    rw [(hread login hlogin).2.2 hne] at hunknown
    cases hunknown
  · intro login hlogin hunknown hwithin hsite
    obtain ⟨data, hdata⟩ := Option.isSome_iff_exists.1
      ((pendingLoginData_isSome_iff login).2 ⟨hwithin, hsite⟩)
    obtain ⟨row, hmem, hrowStored⟩ := RowByRow.exists_right hstored
      (mem_importEntries.2 ⟨login, hlogin, hunknown, data, hdata, rfl⟩)
    exact ⟨row, hmem, hrowStored.recordId⟩

/-- A row with the id of a login is the login's. -/
theorem Inv.writtenAs_of_adds (h : Inv C E URL profileId s) {store : SecretsStore}
    {pending : List PendingLogin} {known : RecordId → Bool} {rows : List LocalRow}
    (hadds : Adds C E URL s store pending known rows)
    (hcreated : ∀ login ∈ pending, login ∈ s.created) {login : PendingLogin}
    (hlogin : login ∈ s.created) {row : LocalRow} (hmem : row ∈ rows)
    (hid : row.record.recordId = login.id.uuid) : WrittenAs C E login ⟨store, row⟩ := by
  obtain ⟨other, hother, hotherId, -, hversion⟩ := hadds.row row hmem
  obtain rfl := h.login_inj (hcreated other hother) hlogin (hotherId.symm.trans hid)
  exact hversion

theorem Inv.write (hC : C.Correct) (h : Inv C E URL profileId s) {vaultId : VaultId}
    {pending : List PendingLogin} {known : RecordId → Bool} {store : SecretsStore}
    {run : ImportRun} {db : LocalDb}
    (hrunning : s.running = some ⟨vaultId, .write pending known⟩)
    (hwrite : writeImport C E store run (importEntries URL vaultId known pending).zipIdx s.db =
      .ok db) :
    Inv C E URL profileId { s with
      db := db
      running := some ⟨vaultId, .remove (pending.map (·.id))⟩
      written := s.written ++ (db.records.drop s.db.records.length).map fun row => ⟨store, row⟩ } := by
  obtain ⟨rows, hrows, hadds⟩ := adds_of_write hC (h.running vaultId _ hrunning) hwrite
  obtain ⟨-, hread⟩ := h.running vaultId _ hrunning
  have hdrop : db.records.drop s.db.records.length = rows := by
    rw [hrows]
    exact List.drop_left
  rw [hdrop]
  have hcreated : ∀ login ∈ pending, login ∈ s.created :=
    fun _ hlogin => (h.named _ (hasFile_iff.1 (hread _ hlogin).1)).2
  have hids : (s.written ++ rows.map fun row => (⟨store, row⟩ : WrittenVersion)).map
        (·.row.record.recordId) =
      s.written.map (·.row.record.recordId) ++ rows.map (·.record.recordId) := by
    rw [List.map_append, List.map_map]
    rfl
  have hmono : ∀ {login : PendingLogin}, IsWritten C E s login →
      ∃ version ∈ s.written ++ rows.map fun row => (⟨store, row⟩ : WrittenVersion),
        WrittenAs C E login version :=
    fun ⟨version, hmem, hversion⟩ => ⟨version, List.mem_append_left _ hmem, hversion⟩
  have hnew : ∀ {login : PendingLogin}, login ∈ s.created → ∀ {row : LocalRow}, row ∈ rows →
      row.record.recordId = login.id.uuid →
      ∃ version ∈ s.written ++ rows.map fun row => (⟨store, row⟩ : WrittenVersion),
        WrittenAs C E login version :=
    fun hlogin row hmem hid => ⟨⟨store, row⟩, List.mem_append_right _ (List.mem_map.2 ⟨_, hmem, rfl⟩),
      h.writtenAs_of_adds hadds hcreated hlogin hmem hid⟩
  refine ⟨h.named, h.names, h.ids, h.sites, ?_, ?_, ?_, ?_, ?_, ?_⟩
  · dsimp only
    rw [hids, List.nodup_append]
    refine ⟨h.once, hadds.once, ?_⟩
    intro id hid other hother heq
    obtain ⟨row, hmem, rfl⟩ := List.mem_map.1 hother
    obtain ⟨login, hlogin, hrowId, hnone, -⟩ := hadds.row row hmem
    exact h.kept _ (hasFile_iff.1 (hread login hlogin).1) (hrowId ▸ heq ▸ hid) hnone
  · intro id hid
    dsimp only at hid
    rw [hids] at hid
    rcases List.mem_append.1 hid with hid | hid
    · exact h.origin id hid
    · obtain ⟨row, hmem, rfl⟩ := List.mem_map.1 hid
      obtain ⟨login, hlogin, hrowId, -⟩ := hadds.row row hmem
      exact hrowId ▸
        List.mem_map_of_mem (f := fun l : PendingLogin => l.id.uuid) (hcreated login hlogin)
  · exact fun login hlogin hwithin => (h.arrives login hlogin hwithin).imp id hmono
  · intro login hlogin hne
    by_cases hold : s.db.rowsOf login.id.uuid = []
    · dsimp only at hne
      rw [rowsOf_append_rows hrows, hold, List.nil_append] at hne
      obtain ⟨row, hfiltered⟩ := List.exists_mem_of_ne_nil _ hne
      obtain ⟨hmem, hrowId⟩ := List.mem_filter.1 hfiltered
      exact hnew hlogin hmem (of_decide_eq_true hrowId)
    · exact hmono (h.rows login hlogin hold)
  · intro file hfile hwritten
    dsimp only at hwritten ⊢
    rw [hids] at hwritten
    rw [rowsOf_append_rows hrows]
    rcases List.mem_append.1 hwritten with hwritten | hwritten
    · exact fun hnil => h.kept file hfile hwritten (List.append_eq_nil_iff.1 hnil).1
    · obtain ⟨row, hmem, hrowId⟩ := List.mem_map.1 hwritten
      have hin : row ∈ rows.filter (·.record.recordId = file.2.id.uuid) :=
        List.mem_filter.2 ⟨hmem, decide_eq_true hrowId⟩
      exact fun hnil => List.ne_nil_of_mem hin (List.append_eq_nil_iff.1 hnil).2
  · rintro vaultId' phase hphase
    obtain ⟨rfl, rfl⟩ : vaultId = vaultId' ∧ Phase.remove (pending.map (·.id)) = phase := by
      simpa using hphase
    intro id hid
    obtain ⟨login, hlogin, rfl⟩ := List.mem_map.1 hid
    have hmem := hcreated login hlogin
    refine ⟨List.mem_map_of_mem (f := fun l : PendingLogin => l.id.uuid) hmem, ?_⟩
    intro other hother heq hwithin
    obtain rfl := h.login_inj hmem hother heq.symm
    cases hin : known login.id.uuid with
    | true => exact hmono (h.rows login hother ((hread login hlogin).2.1 hin))
    | false =>
      obtain ⟨row, hrow, hid⟩ := hadds.login login hlogin hin hwithin (h.sites login hother)
      exact hnew hother hrow hid

theorem Inv.remove (h : Inv C E URL profileId s) {vaultId : VaultId} {id : SpelledId}
    {ids : List SpelledId} (hrunning : s.running = some ⟨vaultId, .remove (id :: ids)⟩)
    (deleted : Bool) :
    Inv C E URL profileId { s with
      files := if deleted then removePending s.files profileId id else s.files
      running := some ⟨vaultId, .remove ids⟩ } := by
  have hsound := h.running vaultId _ hrunning
  have hids : ∀ vaultId' phase, some (⟨vaultId, .remove ids⟩ : Running) = some ⟨vaultId', phase⟩ →
      RunningSound C E profileId s phase := by
    rintro vaultId' phase hphase
    obtain ⟨rfl, rfl⟩ : vaultId = vaultId' ∧ Phase.remove ids = phase := by simpa using hphase
    exact fun other hother => hsound other (List.mem_cons_of_mem _ hother)
  cases deleted with
  | false => exact h.withRunning hids
  | true =>
    have hmem : ∀ {file : PendingName × PendingLogin},
        file ∈ pendingFiles (removePending s.files profileId id) profileId →
        file ∈ pendingFiles s.files profileId := by
      intro file hfile
      rw [pendingFiles_remove] at hfile
      exact List.mem_of_mem_filter hfile
    refine ⟨fun file hfile => h.named file (hmem hfile), ?_, h.ids, h.sites, h.once, h.origin, ?_,
      h.rows, fun file hfile => h.kept file (hmem hfile), ?_⟩
    · dsimp only
      rw [if_pos rfl, pendingFiles_remove]
      exact h.names.sublist (List.filter_sublist.map _)
    · intro login hlogin hwithin
      rcases h.arrives login hlogin hwithin with hfile | hwritten
      · by_cases hname : pendingFile profileId login.id = pendingFile profileId id
        · -- the file that goes is that of a login that is written
          have hid : login.id.uuid = id.uuid := congrArg PendingName.loginId hname
          exact .inr ((hsound id List.mem_cons_self).2 login hlogin hid hwithin)
        · refine .inl (@mem_of_pendingFiles profileId _ _ ?_)
          dsimp only
          rw [if_pos rfl, pendingFiles_remove]
          exact List.mem_filter.2 ⟨hasFile_iff.1 hfile, decide_eq_true hname⟩
      · exact .inr hwritten
    · intro vaultId' phase hphase
      have hsound' := hids vaultId' phase hphase
      obtain ⟨rfl, rfl⟩ : vaultId = vaultId' ∧ Phase.remove ids = phase := by simpa using hphase
      exact hsound'

/-- One step keeps the invariant, where it meets what it has to. -/
theorem inv_step (hC : C.Correct) {t : Device} (h : Inv C E URL profileId s)
    (hstep : Step C E URL profileId s t) (hmeets : Meets URL profileId s t) :
    Inv C E URL profileId t := by
  cases hstep with
  | create login hfresh hrows =>
    have hmem : login ∈ s.created → login.id.uuid ∈ s.created.map (·.id.uuid) :=
      fun hlogin => List.mem_map_of_mem (f := fun l : PendingLogin => l.id.uuid) hlogin
    have hsite := hmeets.sites login (List.mem_append_right _ List.mem_cons_self)
    exact h.create hfresh hrows (hsite.resolve_left fun hlogin => hfresh (hmem hlogin))
  | otherProfiles files hsame => exact h.otherProfiles hsame
  | change db hnew => exact h.change hnew hmeets.keeps
  | begin vaultId hidle =>
    refine h.withRunning fun vaultId' phase heq => ?_
    obtain ⟨-, rfl⟩ : vaultId = vaultId' ∧ Phase.ask = phase := by simpa using heq
    trivial
  | ask vaultId hrunning =>
    refine h.withRunning fun vaultId' phase heq => ?_
    split_ifs at heq
    obtain ⟨-, rfl⟩ : vaultId = vaultId' ∧ Phase.read = phase := by simpa using heq
    trivial
  | read vaultId hrunning =>
    refine h.withRunning fun vaultId' phase heq => ?_
    obtain ⟨-, rfl⟩ : vaultId = vaultId' ∧
      Phase.heads (readPending s.files profileId) = phase := by simpa using heq
    refine ⟨h.nodup_readPending, fun login hlogin => ?_⟩
    obtain ⟨file, hfile, rfl⟩ := List.mem_map.1 hlogin
    exact h.hasFile hfile
  | heads vaultId pending hrunning =>
    refine h.withRunning fun vaultId' phase heq => ?_
    have hread := h.running vaultId _ hrunning
    obtain ⟨-, rfl⟩ : vaultId = vaultId' ∧
      Phase.write pending (fun id => (getRecordHeads s.db id).isSome) = phase := by simpa using heq
    refine ⟨hread.1, fun login hlogin => ⟨hread.2 login hlogin, ?_⟩⟩
    unfold getRecordHeads getHead
    dsimp only
    rw [Option.isSome_map, ← not_iff_not]
    simp [List.argmax_eq_none]
  | write vaultId pending known store run db hrunning hwrite => exact h.write hC hrunning hwrite
  | remove vaultId id ids deleted hrunning => exact h.remove hrunning deleted
  | stop => exact h.withRunning fun vaultId phase heq => nomatch heq

end Invariant

/-- Logins created in autofill arrive exactly once, in every run whose steps meet what they have to;
one that is no record keeps none of the others from being written. -/
theorem importPending_exactlyOnce {C : Ciphers Text} {E : ExportEnv} {URL : UrlParser}
    {profileId : Text} (hC : C.Correct) {db : LocalDb} {s : Device}
    (hrun : Run.Reaches (fun s t => Step C E URL profileId s t ∧ Meets URL profileId s t)
      (.start db) s) :
    ExactlyOnce C E profileId s ∧ ∀ vaultId known pending,
      importEntries URL vaultId known pending =
        importEntries URL vaultId known (pending.filter (Within ·)) := by
  have hinv : Inv C E URL profileId s :=
    @Run.invariant Device _ (Inv C E URL profileId) (fun _ _ hs hst => inv_step hC hs hst.1 hst.2)
      _ _ hrun (inv_start db)
  exact ⟨⟨hinv.arrives, hinv.once⟩, importEntries_filter⟩

/-! ### A login on its way -/

open IdealCipher (wordCiphers wordCiphers_ideal)

/-- `https://github.com` is parsed. -/
def githubUrl : UrlParser := fun text =>
  if text = "https://github.com".toList then some ⟨"https:".toList, "github.com".toList⟩ else none

def githubLogin (website : Text) : PendingLogin where
  id := ⟨7, false⟩
  title := "github.com".toList
  website := website
  username := "octo".toList
  password := "pw-1".toList
  createdAt := "2026-10-18T10:00:00.000Z".toList

def profile : Text := "p".toList

/-- The device after the login was created. -/
def withFile (login : PendingLogin) : Device :=
  ⟨[(pendingFile profile login.id, login)], exportedDb [], none, [login], []⟩

/-- The import up to its write. -/
def atWrite (login : PendingLogin) : Device :=
  { withFile login with
    running := some ⟨1, .write [login] fun id => (getRecordHeads (exportedDb []) id).isSome⟩ }

theorem reaches_atWrite {R : Device → Device → Prop} {login : PendingLogin}
    (hcreate : R (.start (exportedDb [])) (withFile login))
    (hsame : ∀ {s t}, Step wordCiphers noteEnv githubUrl profile s t → s.created = t.created →
      s.db = t.db → R s t) :
    Run.Reaches R (.start (exportedDb [])) (atWrite login) := by
  have hread : readPending (withFile login).files profile = [login] := by
    simp [readPending, pendingFiles, withFile, pendingFile]
  have hpending : hasPending (withFile login).files profile = true := by
    simp [hasPending, pendingFiles, withFile, pendingFile]
  have h1 : R (withFile login) { withFile login with running := some ⟨1, .ask⟩ } :=
    hsame (.begin 1 rfl) rfl rfl
  have h2 : R { withFile login with running := some ⟨1, .ask⟩ }
      { withFile login with running := some ⟨1, .read⟩ } := by
    have hstep := hsame (Step.ask (s := { withFile login with running := some ⟨1, .ask⟩ }) 1 rfl)
      rfl rfl
    rwa [if_pos hpending] at hstep
  have h3 : R { withFile login with running := some ⟨1, .read⟩ }
      { withFile login with running := some ⟨1, .heads [login]⟩ } := by
    have hstep := hsame (Step.read (s := { withFile login with running := some ⟨1, .read⟩ }) 1 rfl)
      rfl rfl
    rwa [hread] at hstep
  have h4 : R { withFile login with running := some ⟨1, .heads [login]⟩ } (atWrite login) :=
    hsame (.heads 1 [login] rfl) rfl rfl
  exact .tail (.tail (.tail (.tail (.single hcreate) h1) h2) h3) h4

theorem step_create (login : PendingLogin) :
    Step wordCiphers noteEnv githubUrl profile (.start (exportedDb [])) (withFile login) :=
  .create login (fun h => nomatch h) rfl

/-- The import from its write to its end, where the file is deleted. -/
theorem reaches_end {R : Device → Device → Prop} {login : PendingLogin} {db : LocalDb}
    {written : List WrittenVersion}
    (hwrite : R (atWrite login) ⟨(withFile login).files, db, some ⟨1, .remove [login.id]⟩, [login],
      written⟩)
    (hsame : ∀ {s t}, Step wordCiphers noteEnv githubUrl profile s t → s.created = t.created →
      s.db = t.db → R s t) :
    Run.Reaches R (atWrite login) ⟨[], db, none, [login], written⟩ := by
  have hremoved : removePending (withFile login).files profile login.id = [] := by
    simp [removePending, withFile]
  have h1 : R ⟨(withFile login).files, db, some ⟨1, .remove [login.id]⟩, [login], written⟩
      ⟨[], db, some ⟨1, .remove []⟩, [login], written⟩ := by
    have hstep := hsame (Step.remove (s := ⟨(withFile login).files, db,
      some ⟨1, .remove [login.id]⟩, [login], written⟩) 1 login.id [] true rfl) rfl rfl
    rwa [if_pos rfl, hremoved] at hstep
  exact .tail (.tail (.single hwrite) h1) (hsame .stop rfl rfl)

/-- The login of a page is written, and its file is gone. -/
theorem importPending_exactlyOnce_oneLogin : ∃ s,
    s.created = [githubLogin "https://github.com".toList] ∧ s.files = [] ∧
      (ExactlyOnce wordCiphers noteEnv profile s ∧ ∀ vaultId known pending,
        importEntries githubUrl vaultId known pending =
          importEntries githubUrl vaultId known (pending.filter (Within ·))) := by
  set login := githubLogin "https://github.com".toList
  have hsite : SiteFits githubUrl login := fun _ => by decide +kernel
  have hwithin : Within login := by decide
  have hsame : ∀ {s t}, Step wordCiphers noteEnv githubUrl profile s t → s.created = t.created →
      s.db = t.db → Step wordCiphers noteEnv githubUrl profile s t ∧ Meets githubUrl profile s t :=
    fun hstep hcreated hdb => ⟨hstep, fun l hl => .inl (hcreated ▸ hl), fun file _ h => hdb ▸ h⟩
  have hdata := pendingLoginData_of_fits login hwithin hsite
  have hentries : importEntries githubUrl 1
      (fun id => (getRecordHeads (exportedDb []) id).isSome) [login] =
        [⟨.create, 7, 1, pendingLoginFields githubUrl login⟩] := by
    rw [importEntries, List.filterMap_cons, hdata]
    rfl
  set run : ImportRun := ⟨9, fun i => i, fun _ => ['m'], fun i => i⟩
  obtain ⟨db, hwrite⟩ : ∃ db, writeImport wordCiphers noteEnv exportedStore run
      (importEntries githubUrl 1 (fun id => (getRecordHeads (exportedDb []) id).isSome)
        [login]).zipIdx (exportedDb []) = .ok db := by
    rw [hentries]
    refine writeImport_ok ⟨?_, ?_, ?_, ?_, ?_, ?_, ?_⟩
    · simp
    · simp only [List.zipIdx_cons, List.zipIdx_nil, List.mem_singleton, forall_eq]
      exact ⟨1, ['p'], rfl, by decide +kernel⟩
    · simp only [List.zipIdx_cons, List.zipIdx_nil, List.mem_singleton, forall_eq]
      decide +kernel
    · simp
    · simp [exportedDb, LocalDb.rowsOf]
    · simp
    · simp [exportedDb]
  have hstart := @reaches_atWrite _ login
    ⟨step_create login, fun l hl => .inr (List.mem_singleton.1 hl ▸ hsite), fun file h => nomatch h⟩
    hsame
  have hend := @reaches_end _ login db _
    ⟨.write 1 [login] _ exportedStore run db rfl hwrite, fun l hl => .inl hl,
      fun file _ h => absurd (show (exportedDb []).rowsOf file.2.id.uuid = [] from rfl) h⟩ hsame
  exact ⟨_, rfl, rfl, importPending_exactlyOnce wordCiphers_ideal.toCorrect (hstart.trans hend)⟩

/-! ### A website that is too long -/

/-- A URI of any length. -/
def longUri (count : ℕ) : Text := 'x' :: ':' :: 'a' :: List.replicate count 'a'

theorem trim_longUri (count : ℕ) : JsNumber.trim (longUri count) = longUri count := by
  refine trim_of_trimmed ⟨fun c hc => ?_, fun c hc => ?_⟩
  · rw [← Option.some.inj (Option.mem_def.1 hc)]
    decide
  · have hmem : c ∈ longUri count := List.mem_of_getLast? hc
    simp only [longUri, List.mem_cons, List.mem_replicate] at hmem
    rcases hmem with rfl | rfl | rfl | ⟨-, rfl⟩ <;> decide

theorem utf16Length_longUri (count : ℕ) : utf16Length (longUri count) = count + 3 := by
  rw [longUri, utf16Length_cons, utf16Length_cons, utf16Length_cons, utf16Length_replicate,
    if_pos (by decide), if_pos (by decide), if_pos (by decide)]
  omega

theorem isWebsite_longUri (count : ℕ) : isWebsite githubUrl (longUri count) = true := by
  have hurl : Websites.websiteUrl githubUrl (longUri count) = none := by
    unfold Websites.websiteUrl
    rw [trim_longUri]
    rfl
  have hrest : Websites.schemeRest ('a' :: List.replicate count 'a') =
      some ('a' :: List.replicate count 'a') := by
    have hall : ('a' :: List.replicate count 'a').all (!JsNumber.isStrWhiteSpace ·) = true := by
      refine List.all_eq_true.2 fun c hc => ?_
      simp only [List.mem_cons, List.mem_replicate] at hc
      rcases hc with rfl | ⟨-, rfl⟩ <;> decide
    exact if_pos ⟨List.cons_ne_nil _ _, hall⟩
  have hscheme : Websites.schemeUri (longUri count) = some (['x'], 'a' :: List.replicate count 'a') := by
    change (if Char.isAlpha 'x' then
      (Websites.schemeRest ('a' :: List.replicate count 'a')).map (['x'], ·) else none) = _
    rw [hrest]
    rfl
  unfold isWebsite Websites.parseWebsite
  rw [trim_longUri]
  simp only [hurl, hscheme]
  rfl

/-- The login whose website is `x:` and 2047 times `a`. -/
def longLogin := githubLogin (longUri 2046)

/-- The import deletes the file of a login whose website is too long, and writes nothing. -/
theorem long_website_lost : ∃ s, Run.Reaches (Step wordCiphers noteEnv githubUrl profile)
      (.start (exportedDb [])) s ∧ s.created = [longLogin] ∧ Within longLogin ∧ s.files = [] ∧
      s.written = [] ∧ ¬ ExactlyOnce wordCiphers noteEnv profile s := by
  set login := longLogin
  have hsite : ¬ SiteFits githubUrl login := by
    intro h
    have hlength : utf16Length (JsNumber.trim (longUri 2046)) ≤ 2048 :=
      h ((trim_longUri 2046).symm ▸ isWebsite_longUri 2046)
    rw [trim_longUri, utf16Length_longUri] at hlength
    omega
  have hnone : pendingLoginData githubUrl login = none := by
    rw [← Option.not_isSome_iff_eq_none, pendingLoginData_isSome_iff]
    exact fun h => hsite h.2
  have hentries : importEntries githubUrl 1
      (fun id => (getRecordHeads (exportedDb []) id).isSome) [login] = [] := by
    rw [importEntries, List.filterMap_cons, hnone]
    rfl
  have hstart := @reaches_atWrite _ login (step_create login) fun hstep _ _ => hstep
  have hend := @reaches_end _ login (exportedDb []) []
    (.write 1 [login] _ exportedStore ⟨9, fun i => i, fun _ => ['m'], fun i => i⟩ (exportedDb []) rfl
      (by rw [hentries]; rfl)) fun hstep _ _ => hstep
  refine ⟨_, hstart.trans hend, rfl, by decide, rfl, rfl, fun h => ?_⟩
  rcases h.arrives login List.mem_cons_self (by decide) with hfile | ⟨version, hversion, -⟩
  · cases hfile
  · cases hversion

end AutofillImport

end Passmgr
