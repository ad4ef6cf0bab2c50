/-
# The profiles of a device

`create` and `remove` of `packages/store/src/profiles.ts`: a registry lists the profiles, each has a
database file of its own and may have a login bundle in secure storage.  The writes span all of
them and can't be atomic.

An operation is a sequence of steps.  Each step may fail, or be cut off by a crash before it takes
effect; a crash after a step is one before the next.  Profile ids are random, so no profile's
database is the registry's own.

Main definitions:

* `Device` — the registry, the database files, and what else is kept of a profile;
* `Fate`, `Ending`, `step` — a step that is done, fails or is cut off;
* `create`, `remove` — the operations, given the fate of each step;
* `Complete`, `SafeRun` — every listed profile has its complete database, along a run;
* `CutRemoval`, `Uncut` — a removal that stops between its deletes, and runs without one.

Main results:

* `create_cases`, `remove_cases` — what each operation does, whatever becomes of its steps;
* `profiles_keep_data_iff` — exactly which runs keep every listed profile's data.
-/

import Passmgr.JsNumber
import Passmgr.LocalTables

set_option relaxedAutoImplicit false
set_option autoImplicit false

namespace Passmgr

namespace ProfileStore

/-! ### What a device keeps -/

abbrev ProfileId := Text

/-- `LocalProfile`. -/
structure LocalProfile where
  profileId : ProfileId
  mode : ProfileMode
  email : Option Text
  userId : Option UserId
  deriving DecidableEq, Repr

/-- A profile on this device, as the registry lists it. -/
structure ProfileEntry where
  profile : LocalProfile
  name : Option Text
  databaseName : Text
  createdAt : Time
  lastUsedAt : Time
  lastExportAt : Option Time
  demo : Bool
  deriving DecidableEq, Repr

def profileDatabaseName (profileId : ProfileId) : Text := "pass-mgr-".toList ++ profileId

theorem profileDatabaseName_injective : Function.Injective profileDatabaseName :=
  fun _ _ h => List.append_cancel_left h

/-- A database file: filled to the end, or not. -/
inductive DatabaseFile
  | unfinished
  | filled
  deriving DecidableEq, Repr

/-- What is on the device, and the profiles whose vaults are open. -/
structure Device where
  registry : List ProfileEntry
  files : Text → Option DatabaseFile
  loginBundles : List ProfileId
  autofillEntries : List ProfileId
  pendingAutofillLogins : List ProfileId
  opened : List ProfileId

namespace Device

/-- A device that never had a profile. -/
def new : Device where
  registry := []
  files := fun _ => none
  loginBundles := []
  autofillEntries := []
  pendingAutofillLogins := []
  opened := []

variable (device : Device)

/-- `get`. -/
def get (profileId : ProfileId) : Option ProfileEntry :=
  device.registry.find? (·.profile.profileId = profileId)

/-- Opening a database creates its file. -/
def openFile (name : Text) : Device :=
  { device with
    files := Function.update device.files name (some ((device.files name).getD .unfinished)) }

def setFile (name : Text) (file : Option DatabaseFile) : Device :=
  { device with files := Function.update device.files name file }

/-- The row breaks no unique index. -/
def accepts (entry : ProfileEntry) : Bool :=
  device.registry.all fun row =>
    row.profile.profileId ≠ entry.profile.profileId && row.databaseName ≠ entry.databaseName &&
      (entry.profile.userId.isNone || row.profile.userId ≠ entry.profile.userId)

def insertRow (entry : ProfileEntry) : Device :=
  { device with registry := device.registry ++ [entry] }

def deleteRow (profileId : ProfileId) : Device :=
  { device with registry := device.registry.filter (·.profile.profileId ≠ profileId) }

def clearLoginBundle (profileId : ProfileId) : Device :=
  { device with loginBundles := device.loginBundles.filter (· ≠ profileId) }

def clearAutofillEntries (profileId : ProfileId) : Device :=
  { device with autofillEntries := device.autofillEntries.filter (· ≠ profileId) }

def removePendingAutofillLogins (profileId : ProfileId) : Device :=
  { device with
    pendingAutofillLogins := device.pendingAutofillLogins.filter (· ≠ profileId) }

def setOpened (profileId : ProfileId) : Device :=
  { device with opened := profileId :: device.opened }

def setClosed (profileId : ProfileId) : Device :=
  { device with opened := device.opened.filter (· ≠ profileId) }

/-- What is left after a crash: no vault is open any more. -/
def restarted : Device := { device with opened := [] }

end Device

/-! ### Steps -/

/-- The steps of `create` and `remove`. -/
inductive ProfileStep
  | get
  | openDatabase
  | init
  | ready
  | insertRow
  | deleteDatabase
  | clearLoginBundle
  | clearAutofillEntries
  | removePendingAutofillLogins
  | deleteRow
  deriving DecidableEq, Repr

/-- What happens in a step. -/
inductive Fate
  | done
  | fails
  /-- The process ends before the step takes effect. -/
  | crash
  deriving DecidableEq, Repr

/-- How an operation ends. -/
inductive Ending
  | returned
  | threw
  | crashed
  deriving DecidableEq, Repr

/-- A step with its effect. -/
def step (fate : Fate) (effect : Device → Device) (device : Device) : Device × Ending :=
  match fate with
  | .done => (effect device, .returned)
  | .fails => (device, .threw)
  | .crash => (device, .crashed)

/-- Go on where the steps before returned. -/
def andThen (before : Device × Ending) (next : Device → Device × Ending) : Device × Ending :=
  match before with
  | (device, .returned) => next device
  | (device, ending) => (device, ending)

/-- `.catch(log)`: a failure doesn't stop the operation. -/
def ignoringFailure : Device × Ending → Device × Ending
  | (device, .threw) => (device, .returned)
  | (device, ending) => (device, ending)

/-- `init`: it fills the database, or leaves it unfinished. -/
def initDatabase (fate : Fate) (name : Text) (device : Device) : Device × Ending :=
  match fate with
  | .done => (device.setFile name (some .filled), .returned)
  | .fails => (device.setFile name (some .unfinished), .threw)
  | .crash => (device.setFile name (some .unfinished), .crashed)

/-- The insert of a row that breaks a unique index throws. -/
def insertEntry (fate : Fate) (entry : ProfileEntry) (device : Device) : Device × Ending :=
  step (if fate = .done ∧ device.accepts entry = false then .fails else fate)
    (·.insertRow entry) device

/-- The `catch` of `create`: the database is deleted again, and the error thrown on. -/
def deletingAgain (fate : Fate) (name : Text) : Device × Ending → Device × Ending
  | (device, .threw) =>
    andThen (ignoringFailure (step fate (·.setFile name none) device)) fun device =>
      (device, .threw)
  | (device, ending) => (device, ending)

/-! ### The operations -/

/-- The registry's row of a new profile. -/
def newProfileEntry (profile : LocalProfile) (name : Option Text) (demo : Bool) (now : Time) :
    ProfileEntry where
  profile := profile
  name := (name.map JsNumber.trim).filter (· ≠ [])
  databaseName := profileDatabaseName profile.profileId
  createdAt := now
  lastUsedAt := now
  lastExportAt := none
  demo := demo

/-- The `try` of `create`: the database is filled, then listed. -/
def fillAndList (fate : ProfileStep → Fate) (entry : ProfileEntry) (device : Device) :
    Device × Ending :=
  andThen (initDatabase (fate .init) entry.databaseName device) fun device =>
    andThen (step (fate .ready) id device) fun device =>
      insertEntry (fate .insertRow) entry device

/-- `create`: a new database, filled by `init`, then listed. -/
def create (fate : ProfileStep → Fate) (profile : LocalProfile) (name : Option Text) (demo : Bool)
    (now : Time) (device : Device) : Device × Ending :=
  andThen (step (fate .get) id device) fun device =>
    if (device.get profile.profileId).isSome then (device, .threw)
    else
      let entry := newProfileEntry profile name demo now
      andThen (step (fate .openDatabase) (·.openFile entry.databaseName) device) fun device =>
        andThen (deletingAgain (fate .deleteDatabase) entry.databaseName
          (fillAndList fate entry device)) fun device =>
          (device.setOpened profile.profileId, .returned)

/-- What `remove` does once the database file is gone. -/
def forgetProfile (fate : ProfileStep → Fate) (profileId : ProfileId) (device : Device) :
    Device × Ending :=
  andThen (step (fate .clearLoginBundle) (·.clearLoginBundle profileId) device) fun device =>
    andThen (ignoringFailure
      (step (fate .clearAutofillEntries) (·.clearAutofillEntries profileId) device)) fun device =>
      andThen (ignoringFailure
        (step (fate .removePendingAutofillLogins) (·.removePendingAutofillLogins profileId)
          device)) fun device =>
        step (fate .deleteRow) (·.deleteRow profileId) device

/-- `remove`: the profile's database file, its login, its autofill entries and its registry row. -/
def remove (fate : ProfileStep → Fate) (profileId : ProfileId) (device : Device) :
    Device × Ending :=
  andThen (step (fate .get) id device) fun device =>
    match device.get profileId with
    | none => (device, .returned)
    | some entry =>
      andThen
        (step (fate .deleteDatabase) (·.setFile entry.databaseName none)
          (device.setClosed profileId))
        (forgetProfile fate profileId)

/-- What the app does with the profiles of a device. -/
inductive ProfileOp
  | create (profile : LocalProfile) (name : Option Text) (demo : Bool) (now : Time)
  | remove (profileId : ProfileId)
  deriving DecidableEq, Repr

def ProfileOp.perform (fate : ProfileStep → Fate) (device : Device) :
    ProfileOp → Device × Ending
  | .create profile name demo now => ProfileStore.create fate profile name demo now device
  | .remove profileId => ProfileStore.remove fate profileId device

/-- The device after an operation: after a crash it starts again. -/
def after (device : Device) (op : ProfileOp × (ProfileStep → Fate)) : Device :=
  match op.1.perform op.2 device with
  | (device, .crashed) => device.restarted
  | (device, _) => device

/-! ### Listed profiles and their data -/

/-- Each profile listed in the registry has its complete database. -/
def Complete (device : Device) : Prop :=
  ∀ entry ∈ device.registry, device.files entry.databaseName = some .filled

instance (device : Device) : Decidable (Complete device) :=
  inferInstanceAs (Decidable (∀ entry ∈ device.registry, _ = _))

/-- An operation leaves the data of a profile that stays listed. -/
def KeepsData (device : Device) (op : ProfileOp × (ProfileStep → Fate)) : Prop :=
  ∀ entry ∈ device.registry, entry ∈ (after device op).registry →
    (after device op).files entry.databaseName = device.files entry.databaseName

/-- Every state some operations leave behind is complete, and each operation keeps the data. -/
def SafeRun (device : Device) : List (ProfileOp × (ProfileStep → Fate)) → Prop
  | [] => Complete device
  | op :: ops => Complete device ∧ KeepsData device op ∧ SafeRun (after device op) ops

/-- A removal of a listed profile that stops after its database file was deleted and before its
registry row is. -/
def CutRemoval (device : Device) : ProfileOp × (ProfileStep → Fate) → Prop
  | (.create _ _ _ _, _) => False
  | (.remove profileId, fate) =>
    (device.get profileId).isSome ∧ fate .get = .done ∧ fate .deleteDatabase = .done ∧
      (fate .clearLoginBundle ≠ .done ∨ fate .clearAutofillEntries = .crash ∨
        fate .removePendingAutofillLogins = .crash ∨ fate .deleteRow ≠ .done)

/-- No removal of a run is cut. -/
def Uncut (device : Device) : List (ProfileOp × (ProfileStep → Fate)) → Prop
  | [] => True
  | op :: ops => ¬CutRemoval device op ∧ Uncut (after device op) ops

/-- The database of a listed profile is the one named after it. -/
def Named (device : Device) : Prop :=
  ∀ entry ∈ device.registry, entry.databaseName = profileDatabaseName entry.profile.profileId

/-- At most one database file differs, of a name no listed profile has. -/
structure OnlyFile (name : Text) (device device' : Device) : Prop where
  registry : device'.registry = device.registry
  files : ∀ other ≠ name, device'.files other = device.files other

namespace OnlyFile

variable {name : Text} {device device' device'' : Device}

theorem refl (name : Text) (device : Device) : OnlyFile name device device :=
  ⟨rfl, fun _ _ => rfl⟩

theorem trans (h : OnlyFile name device device') (h' : OnlyFile name device' device'') :
    OnlyFile name device device'' :=
  ⟨h'.registry.trans h.registry, fun other hne => (h'.files other hne).trans (h.files other hne)⟩

theorem setFile (device : Device) (name : Text) (file : Option DatabaseFile) :
    OnlyFile name device (device.setFile name file) :=
  ⟨rfl, fun _ hne => Function.update_of_ne hne _ _⟩

theorem openFile (device : Device) (name : Text) : OnlyFile name device (device.openFile name) :=
  ⟨rfl, fun _ hne => Function.update_of_ne hne _ _⟩

/-- A listed profile's file is not touched. -/
theorem files_eq (h : OnlyFile name device device')
    (hfree : ∀ entry ∈ device.registry, entry.databaseName ≠ name) {entry : ProfileEntry}
    (hentry : entry ∈ device.registry) :
    device'.files entry.databaseName = device.files entry.databaseName :=
  h.files _ (hfree entry hentry)

end OnlyFile

/-! ### Creation -/

section Create

variable {device : Device} {fate : ProfileStep → Fate}

/-- A step that doesn't return has no effect. -/
theorem step_cases (fate : Fate) (effect : Device → Device) (device : Device) :
    (fate = .done ∧ step fate effect device = (effect device, .returned)) ∨
      (fate ≠ .done ∧ ∃ ending, ending ≠ .returned ∧ step fate effect device = (device, ending)) := by
  cases fate with
  | done => exact Or.inl ⟨rfl, rfl⟩
  | fails => exact Or.inr ⟨by decide, .threw, by decide, rfl⟩
  | crash => exact Or.inr ⟨by decide, .crashed, by decide, rfl⟩

theorem andThen_returned (device : Device) (next : Device → Device × Ending) :
    andThen (device, .returned) next = next device := rfl

theorem andThen_of_stopped {device : Device} {ending : Ending} (h : ending ≠ .returned)
    (next : Device → Device × Ending) : andThen (device, ending) next = (device, ending) := by
  cases ending with
  | returned => exact absurd rfl h
  | threw => rfl
  | crashed => rfl

/-- The `try` of `create`: the profile is listed with a complete database, or only its own file was
touched. -/
theorem fillAndList_cases (fate : ProfileStep → Fate) (entry : ProfileEntry) (device : Device) :
    ∃ device₁, OnlyFile entry.databaseName device device₁ ∧
      ((device₁.files entry.databaseName = some .filled ∧
          fillAndList fate entry device = (device₁.insertRow entry, .returned)) ∨
        ∃ ending, ending ≠ .returned ∧ fillAndList fate entry device = (device₁, ending)) := by
  unfold fillAndList
  have hunfinished := OnlyFile.setFile device entry.databaseName (some .unfinished)
  have hfilled := OnlyFile.setFile device entry.databaseName (some .filled)
  cases hinit : fate .init with
  | fails => exact ⟨_, hunfinished, Or.inr ⟨.threw, by decide, rfl⟩⟩
  | crash => exact ⟨_, hunfinished, Or.inr ⟨.crashed, by decide, rfl⟩⟩
  | done =>
      refine ⟨_, hfilled, ?_⟩
      dsimp only [initDatabase, andThen]
      rcases step_cases (fate .ready) id
          (device.setFile entry.databaseName (some .filled)) with
        ⟨-, hready⟩ | ⟨-, ending, hstopped, hready⟩
      · rw [hready]
        dsimp only [id, insertEntry]
        rcases step_cases (if fate .insertRow = .done ∧
            (device.setFile entry.databaseName (some .filled)).accepts entry = false then .fails
            else fate .insertRow) (·.insertRow entry)
            (device.setFile entry.databaseName (some .filled)) with
          ⟨-, hinsert⟩ | ⟨-, ending, hstopped, hinsert⟩
        · exact Or.inl ⟨Function.update_self _ _ _, hinsert⟩
        · exact Or.inr ⟨ending, hstopped, hinsert⟩
      · rw [hready]
        exact Or.inr ⟨ending, hstopped, andThen_of_stopped hstopped _⟩

theorem deletingAgain_cases (fate : Fate) (name : Text) (device : Device) {ending : Ending}
    (h : ending ≠ .returned) :
    ∃ device₁ ending₁, ending₁ ≠ .returned ∧ OnlyFile name device device₁ ∧
      deletingAgain fate name (device, ending) = (device₁, ending₁) := by
  cases ending with
  | returned => exact absurd rfl h
  | crashed => exact ⟨device, .crashed, by decide, OnlyFile.refl name device, rfl⟩
  | threw =>
      cases fate with
      | done => exact ⟨_, .threw, by decide, OnlyFile.setFile device name none, rfl⟩
      | fails => exact ⟨device, .threw, by decide, OnlyFile.refl name device, rfl⟩
      | crash => exact ⟨device, .crashed, by decide, OnlyFile.refl name device, rfl⟩

/-- **What `create` does**: nothing where the profile is listed.  Otherwise it touches at most the
profile's own file, and lists the profile only with its complete database. -/
theorem create_cases (fate : ProfileStep → Fate) (profile : LocalProfile) (name : Option Text)
    (demo : Bool) (now : Time) (device : Device) :
    (create fate profile name demo now device).1 = device ∨
      (device.get profile.profileId = none ∧
        ∃ device₁, OnlyFile (profileDatabaseName profile.profileId) device device₁ ∧
          ((create fate profile name demo now device).1 = device₁ ∨
            (device₁.files (profileDatabaseName profile.profileId) = some .filled ∧
              (create fate profile name demo now device).1 =
                (device₁.insertRow (newProfileEntry profile name demo now)).setOpened
                  profile.profileId))) := by
  unfold create
  rcases step_cases (fate .get) id device with ⟨-, hget⟩ | ⟨-, ending, hstopped, hget⟩
  · rw [hget, andThen_returned]
    dsimp only [id]
    split
    · exact Or.inl rfl
    next hnew =>
    have hnone : device.get profile.profileId = none := by simpa using hnew
    rcases step_cases (fate .openDatabase)
        (·.openFile (newProfileEntry profile name demo now).databaseName) device with
      ⟨-, hopen⟩ | ⟨-, ending, hstopped, hopen⟩
    · rw [hopen, andThen_returned]
      have hfirst := OnlyFile.openFile device (profileDatabaseName profile.profileId)
      obtain ⟨device₁, honly, hfill⟩ := fillAndList_cases fate
        (newProfileEntry profile name demo now)
        (device.openFile (newProfileEntry profile name demo now).databaseName)
      rcases hfill with ⟨hfilled, hfill⟩ | ⟨ending, hstopped, hfill⟩
      · rw [hfill]
        exact Or.inr ⟨hnone, device₁, hfirst.trans honly, Or.inr ⟨hfilled, rfl⟩⟩
      · -- nothing was listed: the database is deleted again
        obtain ⟨device₂, ending₂, hstopped₂, honly₂, hdelete⟩ :=
          deletingAgain_cases (fate .deleteDatabase)
            (newProfileEntry profile name demo now).databaseName device₁ hstopped
        rw [hfill, hdelete, andThen_of_stopped hstopped₂]
        exact Or.inr ⟨hnone, device₂, (hfirst.trans honly).trans honly₂, Or.inl rfl⟩
    · rw [hopen, andThen_of_stopped hstopped]
      exact Or.inl rfl
  · rw [hget, andThen_of_stopped hstopped]
    exact Or.inl rfl

/-- What listed profiles have: their own database, complete. -/
structure Intact (device : Device) : Prop where
  complete : Complete device
  named : Named device

/-- Operations on a profile that isn't listed don't touch a listed one's file. -/
theorem Named.ne_of_get_none (h : Named device) {profileId : ProfileId}
    (hnone : device.get profileId = none) :
    ∀ entry ∈ device.registry, entry.databaseName ≠ profileDatabaseName profileId := by
  intro entry hentry hname
  rw [h entry hentry] at hname
  have := List.find?_eq_none.1 hnone entry hentry
  exact this (by simpa using profileDatabaseName_injective hname)

/-- Creating keeps every listed profile's data, and the new one's is complete. -/
theorem create_intact (h : Intact device) (fate : ProfileStep → Fate) (profile : LocalProfile)
    (name : Option Text) (demo : Bool) (now : Time) :
    Intact (create fate profile name demo now device).1 ∧
      ∀ entry ∈ device.registry, (create fate profile name demo now device).1.files
        entry.databaseName = device.files entry.databaseName := by
  rcases create_cases fate profile name demo now device with hsame | ⟨hnone, device₁, honly, hcase⟩
  · rw [hsame]
    exact ⟨h, fun _ _ => rfl⟩
  have hfree := h.named.ne_of_get_none hnone
  have hkeep : ∀ entry ∈ device.registry,
      device₁.files entry.databaseName = device.files entry.databaseName :=
    fun entry hentry => honly.files_eq hfree hentry
  have hintact : Intact device₁ := by
    refine ⟨fun entry hentry => ?_, fun entry hentry => ?_⟩
    · rw [honly.registry] at hentry
      rw [hkeep entry hentry]
      exact h.complete entry hentry
    · rw [honly.registry] at hentry
      exact h.named entry hentry
  rcases hcase with heq | ⟨hfilled, heq⟩
  · rw [heq]
    exact ⟨hintact, hkeep⟩
  · rw [heq]
    refine ⟨⟨fun entry hentry => ?_, fun entry hentry => ?_⟩, hkeep⟩
    · rcases List.mem_append.1 hentry with hentry | hentry
      · exact hintact.complete entry hentry
      · rw [List.mem_singleton.1 hentry]
        exact hfilled
    · rcases List.mem_append.1 hentry with hentry | hentry
      · exact hintact.named entry hentry
      · rw [List.mem_singleton.1 hentry]
        rfl

end Create

/-! ### Removal -/

section Remove

variable {device : Device} {fate : ProfileStep → Fate} {profileId : ProfileId}

/-- The steps of a removal after the file's deletion all take effect. -/
def Forgets (fate : ProfileStep → Fate) : Prop :=
  fate .clearLoginBundle = .done ∧ fate .clearAutofillEntries ≠ .crash ∧
    fate .removePendingAutofillLogins ≠ .crash ∧ fate .deleteRow = .done

/-- A step whose failure is ignored is only stopped by a crash. -/
theorem ignoringFailure_cases (fate : Fate) (effect : Device → Device) (device : Device) :
    (fate ≠ .crash ∧ ∃ device', (device' = effect device ∨ device' = device) ∧
        ignoringFailure (step fate effect device) = (device', .returned)) ∨
      (fate = .crash ∧ ignoringFailure (step fate effect device) = (device, .crashed)) := by
  cases fate with
  | done => exact Or.inl ⟨by decide, _, Or.inl rfl, rfl⟩
  | fails => exact Or.inl ⟨by decide, _, Or.inr rfl, rfl⟩
  | crash => exact Or.inr ⟨rfl, rfl⟩

/-- Only what is kept beside registry and files differs. -/
structure SameListing (device device' : Device) : Prop where
  registry : device'.registry = device.registry
  files : device'.files = device.files

/-- What follows the file's deletion takes the row when no step stops, and changes nothing about
the listed profiles when one does. -/
theorem forgetProfile_cases (fate : ProfileStep → Fate) (profileId : ProfileId)
    (device : Device) :
    (Forgets fate ∧ ∃ device₁, SameListing device device₁ ∧
        (forgetProfile fate profileId device).1 = device₁.deleteRow profileId) ∨
      (¬Forgets fate ∧ SameListing device (forgetProfile fate profileId device).1) := by
  unfold forgetProfile
  rcases step_cases (fate .clearLoginBundle) (·.clearLoginBundle profileId) device with
    ⟨hlogin, heq⟩ | ⟨hlogin, ending, hstopped, heq⟩
  swap
  · rw [heq, andThen_of_stopped hstopped]
    exact Or.inr ⟨fun h => hlogin h.1, rfl, rfl⟩
  rw [heq, andThen_returned]
  rcases ignoringFailure_cases (fate .clearAutofillEntries) (·.clearAutofillEntries profileId)
      (device.clearLoginBundle profileId) with ⟨hentries, device₁, hdevice₁, heq⟩ | ⟨hcrash, heq⟩
  swap
  · rw [heq, andThen_of_stopped (by decide)]
    exact Or.inr ⟨fun h => h.2.1 hcrash, rfl, rfl⟩
  have hsame₁ : SameListing device device₁ := by
    rcases hdevice₁ with rfl | rfl
    · exact ⟨rfl, rfl⟩
    · exact ⟨rfl, rfl⟩
  rw [heq, andThen_returned]
  rcases ignoringFailure_cases (fate .removePendingAutofillLogins)
      (·.removePendingAutofillLogins profileId) device₁ with
    ⟨hlogins, device₂, hdevice₂, heq⟩ | ⟨hcrash, heq⟩
  swap
  · rw [heq, andThen_of_stopped (by decide)]
    exact Or.inr ⟨fun h => h.2.2.1 hcrash, hsame₁⟩
  have hsame₂ : SameListing device device₂ := by
    rcases hdevice₂ with rfl | rfl
    · exact ⟨hsame₁.registry, hsame₁.files⟩
    · exact hsame₁
  rw [heq, andThen_returned]
  rcases step_cases (fate .deleteRow) (·.deleteRow profileId) device₂ with
    ⟨hrow, heq⟩ | ⟨hrow, ending, -, heq⟩
  · rw [heq]
    exact Or.inl ⟨⟨hlogin, hentries, hlogins, hrow⟩, device₂, hsame₂, rfl⟩
  · rw [heq]
    exact Or.inr ⟨fun h => hrow h.2.2.2, hsame₂⟩

/-- **What `remove` does**: nothing where the profile isn't listed or its file can't be deleted.
Otherwise the file goes, and the row with it unless a later step stops the removal. -/
theorem remove_cases (fate : ProfileStep → Fate) (profileId : ProfileId) (device : Device) :
    SameListing device (remove fate profileId device).1 ∧
        ¬CutRemoval device (.remove profileId, fate) ∨
      ∃ entry device₁, device.get profileId = some entry ∧
        device₁.registry = device.registry ∧ OnlyFile entry.databaseName device device₁ ∧
        device₁.files entry.databaseName = none ∧
        ((¬CutRemoval device (.remove profileId, fate) ∧
            (remove fate profileId device).1 = device₁.deleteRow profileId) ∨
          (CutRemoval device (.remove profileId, fate) ∧
            (remove fate profileId device).1 = device₁)) := by
  have hforgets : Forgets fate ↔ ¬(fate .clearLoginBundle ≠ .done ∨
      fate .clearAutofillEntries = .crash ∨ fate .removePendingAutofillLogins = .crash ∨
        fate .deleteRow ≠ .done) := by
    unfold Forgets
    tauto
  unfold remove
  rcases step_cases (fate .get) id device with ⟨hget, heq⟩ | ⟨hget, ending, hstopped, heq⟩
  swap
  · rw [heq, andThen_of_stopped hstopped]
    exact Or.inl ⟨⟨rfl, rfl⟩, fun h => hget h.2.1⟩
  rw [heq, andThen_returned]
  dsimp only [id]
  cases hentry : device.get profileId with
  | none =>
      refine Or.inl ⟨⟨rfl, rfl⟩, fun h => ?_⟩
      rw [CutRemoval, hentry] at h
      cases h.1
  | some entry =>
      dsimp only
      rcases step_cases (fate .deleteDatabase) (·.setFile entry.databaseName none)
          (device.setClosed profileId) with ⟨hdelete, heq⟩ | ⟨hdelete, ending, hstopped, heq⟩
      swap
      · rw [heq, andThen_of_stopped hstopped]
        exact Or.inl ⟨⟨rfl, rfl⟩, fun h => hdelete h.2.2.1⟩
      rw [heq, andThen_returned]
      have honly : OnlyFile entry.databaseName device
          ((device.setClosed profileId).setFile entry.databaseName none) :=
        ⟨rfl, fun _ hne => Function.update_of_ne hne _ _⟩
      rcases forgetProfile_cases fate profileId
          ((device.setClosed profileId).setFile entry.databaseName none) with
        ⟨hall, device₁, hsame, heq⟩ | ⟨hnot, hsame⟩
      · refine Or.inr ⟨entry, device₁, rfl, hsame.registry, ⟨hsame.registry, ?_⟩, ?_,
          Or.inl ⟨fun h => (hforgets.1 hall) h.2.2.2, heq⟩⟩
        · rw [hsame.files]
          exact honly.files
        · rw [hsame.files]
          exact Function.update_self _ _ _
      · refine Or.inr ⟨entry, _, rfl, hsame.registry, ⟨hsame.registry, ?_⟩, ?_,
          Or.inr ⟨⟨by rw [hentry]; rfl, hget, hdelete, by_contra fun h => hnot (hforgets.2 h)⟩,
            rfl⟩⟩
        · rw [hsame.files]
          exact honly.files
        · rw [hsame.files]
          exact Function.update_self _ _ _

theorem SameListing.intact {device' : Device} (h : SameListing device device')
    (hintact : Intact device) : Intact device' := by
  refine ⟨fun entry hentry => ?_, fun entry hentry => ?_⟩
  · rw [h.registry] at hentry
    rw [h.files]
    exact hintact.complete entry hentry
  · rw [h.registry] at hentry
    exact hintact.named entry hentry

/-- A removal that isn't cut keeps the data of the profiles that stay listed. -/
theorem remove_intact (h : Intact device) (fate : ProfileStep → Fate)
    (hcut : ¬CutRemoval device (.remove profileId, fate)) :
    Intact (remove fate profileId device).1 ∧
      ∀ entry ∈ device.registry, entry ∈ (remove fate profileId device).1.registry →
        (remove fate profileId device).1.files entry.databaseName =
          device.files entry.databaseName := by
  rcases remove_cases fate profileId device with
    ⟨hsame, -⟩ | ⟨entry, device₁, hget, hregistry, honly, -, ⟨-, heq⟩ | ⟨hcut', -⟩⟩
  · exact ⟨hsame.intact h, fun entry _ _ => by rw [hsame.files]⟩
  · have hid : entry.profile.profileId = profileId := by
      simpa using List.find?_some hget
    have hmem : entry ∈ device.registry := List.mem_of_find?_eq_some hget
    -- the profiles that stay have other ids, so other files
    have hstay : ∀ other ∈ device.registry, other.profile.profileId ≠ profileId →
        device₁.files other.databaseName = device.files other.databaseName := by
      intro other hother hne
      refine honly.files _ fun hname => hne ?_
      rw [h.named other hother, h.named entry hmem] at hname
      exact (profileDatabaseName_injective hname).trans hid
    have hrest : ∀ other ∈ (device₁.deleteRow profileId).registry,
        other ∈ device.registry ∧ other.profile.profileId ≠ profileId := by
      intro other hother
      obtain ⟨hother, hne⟩ := List.mem_filter.1 hother
      rw [hregistry] at hother
      exact ⟨hother, by simpa using hne⟩
    rw [heq]
    refine ⟨⟨fun other hother => ?_, fun other hother => ?_⟩, fun other _ hother => ?_⟩
    · obtain ⟨hother, hne⟩ := hrest other hother
      exact (hstay other hother hne).trans (h.complete other hother)
    · exact h.named other (hrest other hother).1
    · obtain ⟨hother, hne⟩ := hrest other hother
      exact hstay other hother hne
  · exact absurd hcut' hcut

/-- A cut removal leaves a listed profile without its data. -/
theorem not_complete_of_cut (hcut : CutRemoval device (.remove profileId, fate)) :
    ¬Complete (remove fate profileId device).1 := by
  rcases remove_cases fate profileId device with
    ⟨-, hnot⟩ | ⟨entry, device₁, hget, hregistry, -, hgone, ⟨hnot, -⟩ | ⟨-, heq⟩⟩
  · exact absurd hcut hnot
  · exact absurd hcut hnot
  · rw [heq]
    intro hcomplete
    have hmem : entry ∈ device₁.registry := hregistry ▸ List.mem_of_find?_eq_some hget
    rw [hcomplete entry hmem] at hgone
    cases hgone

end Remove

/-! ### Runs -/

section Runs

variable {device : Device}

/-- What an operation leaves, crashed or not, has the registry and the files it ended with. -/
theorem after_sameListing (device : Device) (op : ProfileOp × (ProfileStep → Fate)) :
    SameListing (op.1.perform op.2 device).1 (after device op) := by
  unfold after
  obtain ⟨device₁, ending⟩ := op.1.perform op.2 device
  cases ending with
  | returned => exact ⟨rfl, rfl⟩
  | threw => exact ⟨rfl, rfl⟩
  | crashed => exact ⟨rfl, rfl⟩

/-- An operation that is no cut removal leaves every listed profile its data. -/
theorem intact_after (h : Intact device) {op : ProfileOp × (ProfileStep → Fate)}
    (hcut : ¬CutRemoval device op) : Intact (after device op) ∧ KeepsData device op := by
  have hsame := after_sameListing device op
  have hboth : Intact (op.1.perform op.2 device).1 ∧ ∀ entry ∈ device.registry,
      entry ∈ (op.1.perform op.2 device).1.registry →
        (op.1.perform op.2 device).1.files entry.databaseName =
          device.files entry.databaseName := by
    obtain ⟨op, fate⟩ := op
    cases op with
    | create profile name demo now =>
        obtain ⟨hintact, hkeep⟩ := create_intact h fate profile name demo now
        exact ⟨hintact, fun entry hentry _ => hkeep entry hentry⟩
    | remove profileId => exact remove_intact h fate hcut
  refine ⟨hsame.intact hboth.1, fun entry hentry hstays => ?_⟩
  rw [hsame.registry] at hstays
  rw [hsame.files]
  exact hboth.2 entry hentry hstays

/-- An operation after which every listed profile has its data is no cut removal. -/
theorem uncut_of_complete {op : ProfileOp × (ProfileStep → Fate)}
    (h : Complete (after device op)) : ¬CutRemoval device op := by
  obtain ⟨op, fate⟩ := op
  cases op with
  | create profile name demo now => exact fun hcut => hcut
  | remove profileId =>
      intro hcut
      have hsame := after_sameListing device (.remove profileId, fate)
      refine not_complete_of_cut hcut fun entry hentry => ?_
      have := h entry (by rw [hsame.registry]; exact hentry)
      rwa [hsame.files] at this

theorem SafeRun.complete {ops : List (ProfileOp × (ProfileStep → Fate))}
    (h : SafeRun device ops) : Complete device := by
  cases ops with
  | nil => exact h
  | cons op ops => exact h.1

/-- A run from a device whose listed profiles have their data is safe exactly when no removal in it
is cut. -/
theorem safeRun_iff (ops : List (ProfileOp × (ProfileStep → Fate))) (h : Intact device) :
    SafeRun device ops ↔ Uncut device ops := by
  induction ops generalizing device with
  | nil => exact ⟨fun _ => trivial, fun _ => h.complete⟩
  | cons op ops ih =>
      constructor
      · rintro ⟨-, -, hrest⟩
        have hcut := uncut_of_complete hrest.complete
        exact ⟨hcut, (ih (intact_after h hcut).1).1 hrest⟩
      · rintro ⟨hcut, hrest⟩
        obtain ⟨hintact, hkeeps⟩ := intact_after h hcut
        exact ⟨h.complete, hkeeps, (ih hintact).2 hrest⟩

/-- **When listed profiles keep their data**: along every sequence of creations and removals on a
new device, with any step failing or cut off, every state left behind has a complete database for
each listed profile, and no operation takes the data of one that stays listed, exactly when no
removal stops after it deleted the file of a listed profile and before it deleted the row. -/
theorem profiles_keep_data_iff (ops : List (ProfileOp × (ProfileStep → Fate))) :
    SafeRun Device.new ops ↔ Uncut Device.new ops :=
  safeRun_iff ops ⟨(fun _ h => by cases h), (fun _ h => by cases h)⟩

/-- A profile is created, and its removal fails when it clears the login. -/
def failedRemoval : List (ProfileOp × (ProfileStep → Fate)) :=
  [(.create ⟨['p'], .local, none, none⟩ none false 0, fun _ => .done),
    (.remove ['p'], fun step => if step = .clearLoginBundle then .fails else .done)]

/-- The failed removal leaves the profile listed without its database. -/
theorem removal_not_safe :
    (failedRemoval.foldl after Device.new).registry.map (·.profile.profileId) = [['p']] ∧
      (failedRemoval.foldl after Device.new).files (profileDatabaseName ['p']) = none ∧
      ¬SafeRun Device.new failedRemoval := by
  refine ⟨by decide, by decide, ?_⟩
  rintro ⟨-, -, -, -, hcomplete⟩
  refine absurd (show Complete _ from hcomplete) ?_
  decide

end Runs

end ProfileStore

end Passmgr
