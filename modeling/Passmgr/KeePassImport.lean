/-
# Imports of KeePass XML files

`packages/client/src/import/keepass.ts`: the groups of the file are walked from the top, the recycle
bin left out, and every entry becomes a login with the path of its group as a tag.  The strings of
an entry are read by their keys: a repeated key counts once, of two secrets of one-time codes one
is taken, and the other settings of one-time codes are dropped.

Main definitions:

* `XmlElement` — what is read of a DOM element;
* `entryStrings`, `recordOf` — the strings of an entry, and the login it becomes;
* `walk`, `importKeePassXml` — the walk over the groups;
* `entryValues`, `unreadValues` — the values of an entry, and those that are not read.

Main results:

* `importKeePassXml_eq_some` — what the import holds: every entry outside the recycle bin, in order;
* `holdsAll_entry_iff` — when a login holds every value of its entry.
-/

import Passmgr.KeptValues
import Passmgr.SshKey

set_option relaxedAutoImplicit false
set_option autoImplicit false

namespace Passmgr

open JsNumber (trim)

namespace Foreign

namespace KeePass

/-! ### Elements -/

/-- What is read of a DOM element. -/
inductive XmlElement
  | mk (tagName : String) (attributes : List (String × String)) (textContent : Option Text)
    (children : List XmlElement)

namespace XmlElement

def tagName : XmlElement → String
  | mk tagName _ _ _ => tagName

def textContent : XmlElement → Option Text
  | mk _ _ textContent _ => textContent

def children : XmlElement → List XmlElement
  | mk _ _ _ children => children

def getAttribute (name : String) : XmlElement → Option String
  | mk _ attributes _ _ => (attributes.find? (·.1 = name)).map (·.2)

def kids (element : XmlElement) (tag : String) : List XmlElement :=
  element.children.filter (·.tagName = tag)

def child (element : XmlElement) (tag : String) : Option XmlElement := (element.kids tag).head?

def text (element : XmlElement) (tag : String) : Option Text :=
  (element.child tag).bind textContent

end XmlElement

/-! ### Times -/

/-- `SECONDS_TO_UNIX_EPOCH`. -/
def secondsToUnixEpoch : ℤ := 62135596800

/-- The alphabet of base64, over characters. -/
def base64 : Base64.Alphabet Char where
  symbol n := Char.ofNat (SshKey.base64Symbol n).toNat
  value c := if c.toNat < 128 then SshKey.base64Value (UInt16.ofNat c.toNat) else none
  pad := '='
  value_symbol := by decide
  value_pad := by decide

/-- `getBigInt64(0, true)`. -/
def bigInt64 (bytes : List UInt8) : ℤ :=
  let n : ℕ := bytes.foldr (fun byte n => byte.toNat + 256 * n) 0
  if n < 2 ^ 63 then n else (n : ℤ) - 2 ^ 64

/-- Four digits and a dash. -/
def startsWithYear : Text → Bool
  | a :: b :: c :: d :: e :: _ => a.isDigit && b.isDigit && c.isDigit && d.isDigit && e = '-'
  | _ => false

def keePassTime (P : Platform) (value : Option Text) : Option Text :=
  match value with
  | none => none
  | some [] => none
  | some value =>
    if startsWithYear value then P.isoText value
    else
      (Base64.decode base64 value).bind fun bytes =>
        if bytes.length ≠ 8 then none
        else P.isoDate ((bigInt64 bytes - secondsToUnixEpoch) * 1000)

/-! ### Strings -/

structure EntryString where
  value : Text
  secret : Bool
  deriving DecidableEq, Repr

/-- A `Map` of the strings of an entry. -/
abbrev EntryStrings := List (Text × EntryString)

/-- `Map.set`: a key that is there keeps its place. -/
def EntryStrings.set (strings : EntryStrings) (key : Text) (string : EntryString) : EntryStrings :=
  if key ∈ strings.map (·.1) then
    strings.map fun entry => if entry.1 = key then (key, string) else entry
  else strings ++ [(key, string)]

/-- The value under a key. -/
def EntryStrings.get (strings : EntryStrings) (key : Text) : Option Text :=
  ((strings.find? (·.1 = key)).map (·.2)).map (·.value)

/-- A `String` element with a key and a value is set under its key. -/
def addString (strings : EntryStrings) (string : XmlElement) : EntryStrings :=
  match string.text "Key", string.child "Value" with
  | some (c :: key), some value =>
    strings.set (c :: key)
      ⟨value.textContent.getD [], value.getAttribute "ProtectInMemory" = some "True"⟩
  | _, _ => strings

def entryStrings (entry : XmlElement) : EntryStrings :=
  (entry.kids "String").foldl addString []

def standardKeys : List Text :=
  ["Title".toList, "UserName".toList, "Password".toList, "URL".toList, "Notes".toList]

def totpKeys : List Text := ["otp".toList, "TimeOtp-Secret-Base32".toList]

/-- What a key that belongs to one-time codes starts with. -/
def timeOtp : Text := "TimeOtp-".toList

/-- The key of the secret of one-time codes. -/
def totpKey (strings : EntryStrings) : Option Text :=
  (strings.map (·.1)).find? (· ∈ totpKeys)

/-- A key that becomes a custom field. -/
def isCustomKey (key : Text) : Bool :=
  key ∉ standardKeys && key ∉ totpKeys && !timeOtp.isPrefixOf key

/-! ### Earlier passwords -/

def modified (P : Platform) (entry : XmlElement) : Option Text :=
  keePassTime P ((entry.child "Times").bind (·.text "LastModificationTime"))

/-- The first of the last versions that all have the password. -/
def unchangedSince (passwords : List Text) (password : Text) : ℕ → ℕ
  | 0 => 0
  | since + 1 =>
    if passwords[since]? = some password then unchangedSince passwords password since
    else since + 1

structure PasswordDates where
  changedAt : Option Text
  previousPasswords : ℕ
  deriving DecidableEq, Repr

/-- The versions of an entry, the entry itself last. -/
def versions (entry : XmlElement) : List XmlElement :=
  ((entry.child "History").getD entry).kids "Entry" ++ [entry]

def passwordDates (P : Platform) (entry : XmlElement) (password : Text) : PasswordDates :=
  let passwords := (versions entry).map fun version =>
    ((entryStrings version).get "Password".toList).getD []
  let since := unchangedSince passwords password ((versions entry).length - 1)
  let earlier := ((passwords.take since).filter fun p => p ≠ [] && p ≠ password).eraseDups
  { changedAt := if since = 0 then none else ((versions entry)[since]?).bind (modified P)
    previousPasswords := earlier.length }

/-! ### The import -/

section Import

variable (P : Platform)

/-- The login an entry becomes; `path` is that of its group. -/
def recordOf (path : List Text) (entry : XmlElement) : ForeignRecord :=
  let strings := entryStrings entry
  let password := (strings.get "Password".toList).getD []
  let dates := passwordDates P entry password
  { type := "login".toList
    title := strings.get "Title".toList
    fields := textFields [("username", strings.get "UserName".toList),
      ("password", some password), ("totp", (totpKey strings).bind strings.get)]
    websites := [(strings.get "URL".toList).getD []]
    note := strings.get "Notes".toList
    tags :=
      (if path.any (· ≠ []) then [['/'].intercalate (path.filter (· ≠ []))] else []) ++
        ((entry.text "Tags").getD []).splitOnP (· ∈ [';', ','])
    customFields := (strings.filter (isCustomKey ·.1)).map fun (key, string) =>
      ⟨key, string.value, string.secret⟩
    createdAt := keePassTime P ((entry.child "Times").bind (·.text "CreationTime"))
    passwordChangedAt := dates.changedAt
    leftBehind :=
      { previousPasswords := dates.previousPasswords
        attachments := (entry.kids "Binary").length } }

variable (recycleBin : Option Text)

/-- A group that is the recycle bin. -/
def isRecycleBin (group : XmlElement) : Bool :=
  recycleBin.getD [] ≠ [] && group.text "UUID" = recycleBin

mutual

/-- A group adds its entries, then those of the groups in it. -/
def walk (builder : ForeignImportBuilder) (path : List Text) : XmlElement → ForeignImportBuilder
  | .mk tagName attributes textContent children =>
    let group := XmlElement.mk tagName attributes textContent children
    if isRecycleBin recycleBin group then builder
    else
      walkAll
        ((group.kids "Entry").foldl (fun builder entry => builder.add P (recordOf P path entry))
          builder)
        path children

/-- The groups of some elements; elements that are none are passed over. -/
def walkAll (builder : ForeignImportBuilder) (path : List Text) :
    List XmlElement → ForeignImportBuilder
  | [] => builder
  | sub :: rest =>
    walkAll
      (if sub.tagName = "Group" then walk builder (path ++ [(sub.text "Name").getD []]) sub
        else builder)
      path rest

end

/-- The group at the top of the file. -/
def topGroup (root : XmlElement) : Option XmlElement :=
  ((root.child "Root").getD root).child "Group"

/-- The recycle bin of the file. -/
def recycleBinOf (root : XmlElement) : Option Text :=
  ((root.child "Meta").getD root).text "RecycleBinUUID"

/-- The import of a file whose root element was parsed; `none` is the error of a file without a
group. -/
def importKeePassXml (root : XmlElement) : Option ForeignImportBuilder :=
  (topGroup root).map (walk P (recycleBinOf root) {} [])

/-! ### The entries of a file -/

mutual

/-- The entries of a group and of the groups in it, each with its path. -/
def entries (path : List Text) : XmlElement → List (List Text × XmlElement)
  | .mk tagName attributes textContent children =>
    let group := XmlElement.mk tagName attributes textContent children
    if isRecycleBin recycleBin group then []
    else (group.kids "Entry").map (path, ·) ++ entriesAll path children

def entriesAll (path : List Text) : List XmlElement → List (List Text × XmlElement)
  | [] => []
  | sub :: rest =>
    (if sub.tagName = "Group" then entries (path ++ [(sub.text "Name").getD []]) sub else []) ++
      entriesAll path rest

end

/-- The entries of a file. -/
def entriesOf (root : XmlElement) : List (List Text × XmlElement) :=
  ((topGroup root).map (entries (recycleBinOf root) [])).getD []

variable {P recycleBin}

mutual

theorem walk_eq_foldl (builder : ForeignImportBuilder) (path : List Text) : ∀ group,
    walk P recycleBin builder path group =
      ((entries recycleBin path group).map fun entry => recordOf P entry.1 entry.2).foldl
        (ForeignImportBuilder.add P) builder
  | .mk tagName attributes textContent children => by
      rw [walk, entries]
      split_ifs with hbin
      · rfl
      · rw [walkAll_eq_foldl, List.map_append, List.foldl_append, List.map_map]
        congr 1
        rw [List.foldl_map]
        rfl

theorem walkAll_eq_foldl (builder : ForeignImportBuilder) (path : List Text) : ∀ groups,
    walkAll P recycleBin builder path groups =
      ((entriesAll recycleBin path groups).map fun entry => recordOf P entry.1 entry.2).foldl
        (ForeignImportBuilder.add P) builder
  | [] => by rw [walkAll, entriesAll]; rfl
  | sub :: rest => by
      rw [walkAll, entriesAll, walkAll_eq_foldl, List.map_append, List.foldl_append]
      split_ifs with hgroup
      · rw [walk_eq_foldl]
      · rfl

end

/-- **Every entry outside the recycle bin is imported or reported**, in the order of the file. -/
theorem importKeePassXml_eq_some {root : XmlElement} {builder : ForeignImportBuilder}
    (h : importKeePassXml P root = some builder) :
    builder.records = ((entriesOf root).map fun entry => recordOf P entry.1 entry.2).filterMap
        (imported P) ∧
      builder.report.skipped = ((entriesOf root).map fun entry =>
        recordOf P entry.1 entry.2).filterMap (skipped P) ∧
      builder.report.toLeftBehind =
        leftOf P ((entriesOf root).map fun entry => recordOf P entry.1 entry.2) := by
  unfold importKeePassXml at h
  obtain ⟨top, htop, rfl⟩ := Option.map_eq_some_iff.1 h
  have hentries : entriesOf root = entries (recycleBinOf root) [] top := by
    rw [entriesOf, htop, Option.map_some, Option.getD_some]
  rw [walk_eq_foldl, foldl_add, hentries]
  exact ⟨List.nil_append _, List.nil_append _, LeftBehind.zero_add _⟩

end Import

/-! ### Strings by their keys -/

section Strings

theorem EntryStrings.map_fst_set (strings : EntryStrings) (key : Text) (string : EntryString) :
    (strings.set key string).map (·.1) =
      if key ∈ strings.map (·.1) then strings.map (·.1) else strings.map (·.1) ++ [key] := by
  unfold EntryStrings.set
  split_ifs with hkey
  · rw [List.map_map]
    refine List.map_congr_left fun entry _ => ?_
    by_cases hentry : entry.1 = key
    · simp [hentry]
    · simp [hentry]
  · rw [List.map_append]
    rfl

theorem EntryStrings.nodup_set {strings : EntryStrings} (h : (strings.map (·.1)).Nodup)
    (key : Text) (string : EntryString) : ((strings.set key string).map (·.1)).Nodup := by
  rw [EntryStrings.map_fst_set]
  split_ifs with hkey
  · exact h
  · exact List.nodup_append.2 ⟨h, List.nodup_singleton _, fun a ha b hb heq =>
      hkey (List.mem_singleton.1 hb ▸ heq ▸ ha)⟩

/-- The strings of an entry have their keys once. -/
theorem nodup_entryStrings (entry : XmlElement) : ((entryStrings entry).map (·.1)).Nodup := by
  unfold entryStrings
  have hstep : ∀ (elements : List XmlElement) (strings : EntryStrings),
      (strings.map (·.1)).Nodup → ((elements.foldl addString strings).map (·.1)).Nodup := by
    intro elements
    induction elements with
    | nil => exact fun _ h => h
    | cons element elements ih =>
        intro strings h
        refine ih _ ?_
        unfold addString
        split
        · exact EntryStrings.nodup_set h _ _
        · exact h
  exact hstep _ _ List.nodup_nil

theorem EntryStrings.get_eq_some_iff {strings : EntryStrings} (h : (strings.map (·.1)).Nodup)
    {key value : Text} :
    strings.get key = some value ↔ ∃ secret, (key, ⟨value, secret⟩) ∈ strings := by
  have hvalue : strings.get key = some value ↔
      ∃ secret, (strings.find? (·.1 = key)).map (·.2) = some ⟨value, secret⟩ := by
    unfold EntryStrings.get
    rw [Option.map_eq_some_iff]
    constructor
    · rintro ⟨⟨value', secret⟩, hfound, rfl⟩
      exact ⟨secret, hfound⟩
    · rintro ⟨secret, hfound⟩
      exact ⟨_, hfound, rfl⟩
  rw [hvalue]
  exact exists_congr fun secret => lookup_eq_some_iff h

end Strings

/-! ### The values of an entry -/

section Values

/-- The strings of an entry as they are written: the key, where there is one, and the value. -/
def strings (entry : XmlElement) : List (Option Text × Text) :=
  (entry.kids "String").filterMap fun string =>
    (string.child "Value").map fun value => (string.text "Key", value.textContent.getD [])

/-- What kind of value a string is; the title is none. -/
def stringValue (string : Option Text × Text) : Option ItemValue :=
  if string.1 = some "Title".toList then none
  else if string.1 = some "URL".toList then some (.website string.2)
  else some (.text string.2)

def entryValues (entry : XmlElement) : List ItemValue := (strings entry).filterMap stringValue

/-- The keys whose string has a place in the login. -/
def isReadKey (strings : EntryStrings) (key : Text) : Bool :=
  key ∈ standardKeys || totpKey strings = some key || isCustomKey key

/-- The import reads a string: it is the last one with its key, and the key has a place. -/
def isRead (entry : XmlElement) (string : Option Text × Text) : Bool :=
  string.1.any fun key =>
    (entryStrings entry).get key = some string.2 && isReadKey (entryStrings entry) key

/-- The values of the strings that are not read. -/
def unreadValues (entry : XmlElement) : List ItemValue :=
  ((strings entry).filter (!isRead entry ·)).filterMap stringValue

/-- What is read of an entry. -/
def entryReads (entry : XmlElement) : ItemReads where
  texts := ((entryStrings entry).filter fun string =>
    isReadKey (entryStrings entry) string.1 && string.1 ∉ ["Title".toList, "URL".toList]).map
      (·.2.value)
  urls := [((entryStrings entry).get "URL".toList).getD []]

variable {P : Platform}

theorem ownKeys_login : ownKeys "login".toList = ["username", "email", "password", "totp"] := rfl

theorem recordOf_proper (path : List Text) (entry : XmlElement) :
    (recordOf P path entry).Proper := by
  refine proper_of_textFields ["username", "password", "totp"] rfl rfl (by simp) ?_
  change _ ⊆ ownKeys "login".toList
  rw [ownKeys_login]
  simp

theorem isReadKey_iff {strings : EntryStrings} {key : Text} :
    isReadKey strings key = true ↔
      key ∈ standardKeys ∨ totpKey strings = some key ∨ isCustomKey key = true := by
  unfold isReadKey
  rw [Bool.or_eq_true, Bool.or_eq_true, decide_eq_true_eq, decide_eq_true_eq, or_assoc]

theorem mem_reads_iff {entry : XmlElement} {value : Text} :
    value ∈ (entryReads entry).texts ↔ ∃ key, (entryStrings entry).get key = some value ∧
      isReadKey (entryStrings entry) key = true ∧ key ∉ ["Title".toList, "URL".toList] := by
  have hget := fun key => @EntryStrings.get_eq_some_iff _ (nodup_entryStrings entry) key value
  unfold entryReads
  rw [List.mem_map]
  constructor
  · rintro ⟨⟨key, ⟨value', secret⟩⟩, hmem, rfl⟩
    rw [List.mem_filter, Bool.and_eq_true, decide_eq_true_eq] at hmem
    exact ⟨key, (hget key).2 ⟨secret, hmem.1⟩, hmem.2⟩
  · rintro ⟨key, hkey, hread, hother⟩
    obtain ⟨secret, hmem⟩ := (hget key).1 hkey
    refine ⟨_, List.mem_filter.2 ⟨hmem, ?_⟩, rfl⟩
    rw [Bool.and_eq_true, decide_eq_true_eq]
    exact ⟨hread, hother⟩

theorem mem_customFields_iff {path : List Text} {entry : XmlElement} {value : Text} :
    value ∈ (recordOf P path entry).customFields.map (·.value) ↔
      ∃ key, (entryStrings entry).get key = some value ∧ isCustomKey key = true := by
  have hget := fun key => @EntryStrings.get_eq_some_iff _ (nodup_entryStrings entry) key value
  have hfields : (recordOf P path entry).customFields.map (·.value) =
      ((entryStrings entry).filter (isCustomKey ·.1)).map (·.2.value) := by
    unfold recordOf
    rw [List.map_map]
    rfl
  rw [hfields, List.mem_map]
  constructor
  · rintro ⟨⟨key, ⟨value', secret⟩⟩, hmem, rfl⟩
    rw [List.mem_filter] at hmem
    exact ⟨key, (hget key).2 ⟨secret, hmem.1⟩, hmem.2⟩
  · rintro ⟨key, hkey, hcustom⟩
    obtain ⟨secret, hmem⟩ := (hget key).1 hkey
    exact ⟨_, List.mem_filter.2 ⟨hmem, hcustom⟩, rfl⟩

/-- The texts of the type's own fields. -/
theorem mem_fields_iff {path : List Text} {entry : XmlElement} {value : Text} (hvalue : value ≠ []) :
    value ∈ givenTexts (recordOf P path entry).fields ↔
      (entryStrings entry).get "UserName".toList = some value ∨
        (entryStrings entry).get "Password".toList = some value ∨
        ∃ key, totpKey (entryStrings entry) = some key ∧
          (entryStrings entry).get key = some value := by
  have hpassword : some (((entryStrings entry).get "Password".toList).getD []) = some value ↔
      (entryStrings entry).get "Password".toList = some value := by
    cases (entryStrings entry).get "Password".toList with
    | none => exact ⟨fun h => absurd (Option.some.inj h).symm hvalue, fun h => by cases h⟩
    | some password => exact Iff.rfl
  have hfields : (recordOf P path entry).fields = textFields
      [("username", (entryStrings entry).get "UserName".toList),
        ("password", some (((entryStrings entry).get "Password".toList).getD [])),
        ("totp", (totpKey (entryStrings entry)).bind (entryStrings entry).get)] := rfl
  rw [hfields, mem_givenTexts, and_iff_right hvalue, ← hpassword, ← Option.bind_eq_some_iff]
  simp only [List.map_cons, List.map_nil, List.mem_cons, List.not_mem_nil, or_false, eq_comm]

theorem ne_of_isCustomKey {key : Text} (h : isCustomKey key = true) : key ∉ standardKeys := by
  unfold isCustomKey at h
  rw [Bool.and_eq_true, Bool.and_eq_true, decide_eq_true_eq] at h
  exact h.1.1

theorem mem_totpKeys {strings : EntryStrings} {key : Text} (h : totpKey strings = some key) :
    key ∈ totpKeys := by
  have hfound := List.find?_some h
  exact of_decide_eq_true hfound

/-- Neither the title nor the url has another place. -/
theorem not_mem_title_url {key : Text} (h : key ∉ standardKeys ∨ key ∈ totpKeys) :
    key ∉ ["Title".toList, "URL".toList] := by
  intro hmem
  rcases h with h | h
  · exact h (List.Subset.trans (by decide : ["Title".toList, "URL".toList] ⊆ standardKeys)
      (List.Subset.refl _) hmem)
  · simp only [totpKeys, List.mem_cons, List.not_mem_nil, or_false] at h hmem
    rcases h with rfl | rfl <;> revert hmem <;> decide

/-- **A login is made of the strings that are read.** -/
theorem recordOf_madeOf (path : List Text) (entry : XmlElement) :
    (recordOf P path entry).MadeOf (entryReads entry) where
  texts := by
    intro value hvalue
    have hne : value ≠ [] := by
      rintro rfl
      exact hvalue rfl
    rw [mem_fields_iff hne, mem_customFields_iff, mem_reads_iff]
    have hnote : (recordOf P path entry).note = (entryStrings entry).get "Notes".toList := rfl
    rw [hnote]
    constructor
    · rintro ((h | h | ⟨key, hkey, h⟩) | h | ⟨key, h, hkey⟩)
      · exact ⟨_, h, isReadKey_iff.2 (.inl (by decide)), by decide⟩
      · exact ⟨_, h, isReadKey_iff.2 (.inl (by decide)), by decide⟩
      · exact ⟨key, h, isReadKey_iff.2 (.inr (.inl hkey)), not_mem_title_url (.inr (mem_totpKeys hkey))⟩
      · exact ⟨_, h, isReadKey_iff.2 (.inl (by decide)), by decide⟩
      · exact ⟨key, h, isReadKey_iff.2 (.inr (.inr hkey)),
          not_mem_title_url (.inl (ne_of_isCustomKey hkey))⟩
    · rintro ⟨key, h, hread, hother⟩
      rcases isReadKey_iff.1 hread with hstandard | htotp | hcustom
      · simp only [standardKeys, List.mem_cons, List.not_mem_nil, or_false] at hstandard hother
        push Not at hother
        rcases hstandard with rfl | rfl | rfl | rfl | rfl
        · exact absurd rfl hother.1
        · exact .inl (.inl h)
        · exact .inl (.inr (.inl h))
        · exact absurd rfl hother.2
        · exact .inr (.inl h)
      · exact .inl (.inr (.inr ⟨key, htotp, h⟩))
      · exact .inr (.inr ⟨key, h, hcustom⟩)
  urls _ _ := Iff.rfl
  login _ := rfl

/-- A value that is read stands in what is read. -/
theorem stands_of_isRead {entry : XmlElement} {string : Option Text × Text} {value : ItemValue}
    (hread : isRead entry string = true) (hkind : stringValue string = some value)
    (hvalue : value.NonBlank) : Stands P (entryReads entry) value := by
  obtain ⟨key, text⟩ := string
  obtain ⟨key, rfl, hkey⟩ := (Option.any_eq_true _ _).1 hread
  rw [Bool.and_eq_true, decide_eq_true_eq] at hkey
  obtain ⟨hget, hread⟩ := hkey
  unfold stringValue at hkind
  split_ifs at hkind with htitle hurl
  · obtain rfl := Option.some.inj hkind
    refine stands_website ?_ hvalue
    unfold entryReads
    rw [← Option.some.inj hurl, hget]
    exact List.mem_cons_self
  · obtain rfl := Option.some.inj hkind
    refine stands_text (mem_reads_iff.2 ⟨key, hget, hread, ?_⟩)
    simp only [List.mem_cons, List.not_mem_nil, or_false, not_or]
    exact ⟨fun h => htitle (congrArg some h), fun h => hurl (congrArg some h)⟩

/-- An entry has texts and websites alone: none of its values is cut short. -/
theorem cutShort_entryValues (entry : XmlElement) : cutShort P (entryValues entry) = [] := by
  refine List.filter_eq_nil_iff.2 fun value hmem => ?_
  obtain ⟨string, -, hkind⟩ := List.mem_filterMap.1 hmem
  unfold stringValue at hkind
  split_ifs at hkind <;> obtain rfl := Option.some.inj hkind <;> simp [ItemValue.isWhole]

/-- **What an imported login loses of its entry**: it holds every value of the entry where the
values that are not read are among those that are. -/
theorem holdsAll_entry_iff {path : List Text} {entry : XmlElement} {data : JsObject}
    (h : finishRecord P (recordOf P path entry) = .ok data) :
    HoldsAll P data (entryValues entry) ↔
      AllStand P (entryReads entry) (unreadValues entry) := by
  have hall := @holdsAll_iff P _ _ _ (entryValues entry) (unreadValues entry)
    (recordOf_proper path entry) h (recordOf_madeOf path entry) ?_ ?_
  · rwa [cutShort_entryValues, List.append_nil] at hall
  · intro value hmem
    obtain ⟨string, hstring, hkind⟩ := List.mem_filterMap.1 hmem
    exact List.mem_filterMap.2 ⟨string, (List.mem_filter.1 hstring).1, hkind⟩
  · intro value hmem hvalue _
    obtain ⟨string, hstring, hkind⟩ := List.mem_filterMap.1 hmem
    cases hread : isRead entry string with
    | false =>
        exact .inl (List.mem_filterMap.2 ⟨string, List.mem_filter.2 ⟨hstring, by simp [hread]⟩,
          hkind⟩)
    | true => exact .inr (stands_of_isRead hread hkind hvalue)

end Values

end KeePass

end Foreign

end Passmgr
