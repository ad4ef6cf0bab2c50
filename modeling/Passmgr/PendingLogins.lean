/-
# Logins created in the OS autofill

A login that was created in autofill, and the record it becomes: `pendingLoginData` of
`packages/client/src/records/autofill.ts`.  Its password is in use on the site already, so that the
title and the user name are cut to fit.  The website is not: one that is a website but too long is
refused by the schema, and the login with it.

Main definitions:

* `PendingLogin` — the login as it is kept on the device;
* `pendingLoginData` — the record it becomes, if it is valid.

Main results:

* `pendingLoginData_isSome_iff` — which logins become one;
* `pendingLoginData_eq_some` — with their password and their date.
-/

import Passmgr.RecordSchema
import Passmgr.Websites

set_option relaxedAutoImplicit false
set_option autoImplicit false

namespace Passmgr

open JsNumber (trim)
open RecordSchema (maxTitleLength maxFieldLength maxUrlLength)
open Websites (UrlParser parseWebsite websiteHost)

/-! ### The login -/

/-- A UUID as it is spelled; `toLowerCase` and `validId` leave the UUID. -/
structure SpelledId where
  uuid : RecordId
  upper : Bool
  deriving DecidableEq, Repr

structure PendingLogin where
  id : SpelledId
  title : Text
  website : Text
  username : Text
  password : Text
  createdAt : Text
  deriving DecidableEq, Repr

/-! ### Cutting -/

/-- `text.slice(0, count)`.  A `Text` has no lone surrogate: half of a pair stands as U+FFFD, which
is how it would be encoded. -/
def sliceUnits : ℕ → Text → Text
  | _, [] => []
  | 0, _ => []
  | count + 1, c :: rest =>
    if c.toNat < 0x10000 then c :: sliceUnits count rest
    else
      match count with
      | 0 => ['\uFFFD']
      | count + 1 => c :: sliceUnits count rest

theorem utf16Length_sliceUnits (count : ℕ) (text : Text) :
    utf16Length (sliceUnits count text) ≤ count := by
  fun_induction sliceUnits count text with
  | case1 => exact Nat.zero_le _
  | case2 => exact Nat.zero_le _
  | case3 count c rest hc ih =>
    rw [utf16Length_cons, if_pos hc]
    omega
  | case4 c rest hc => decide
  | case5 c rest hc count ih =>
    rw [utf16Length_cons, if_neg hc]
    omega

theorem sliceUnits_cons_one {c : Char} (hc : c.toNat < 0x10000) (count : ℕ) (rest : Text) :
    sliceUnits (count + 1) (c :: rest) = c :: sliceUnits count rest := by
  rw [sliceUnits.eq_def]
  exact if_pos hc

theorem sliceUnits_cons_two {c : Char} (hc : ¬c.toNat < 0x10000) (count : ℕ) (rest : Text) :
    sliceUnits (count + 2) (c :: rest) = c :: sliceUnits count rest := by
  rw [sliceUnits.eq_def]
  exact if_neg hc

/-- A cut between two parts leaves the first. -/
theorem sliceUnits_append (text rest : Text) :
    sliceUnits (utf16Length text) (text ++ rest) = text := by
  induction text with
  | nil => cases rest <;> rfl
  | cons c text ih =>
      rw [utf16Length_cons, List.cons_append]
      split_ifs with hc
      · rw [Nat.add_comm, sliceUnits_cons_one hc, ih]
      · rw [Nat.add_comm, sliceUnits_cons_two hc, ih]

/-- A text that is short enough is not cut. -/
theorem sliceUnits_of_le {count : ℕ} {text : Text} (h : utf16Length text ≤ count) :
    sliceUnits count text = text := by
  induction text generalizing count with
  | nil => cases count <;> rfl
  | cons c text ih =>
      rw [utf16Length_cons] at h
      split_ifs at h with hc
      · obtain ⟨count, rfl⟩ := Nat.exists_eq_add_of_le' (Nat.le_of_add_right_le h)
        rw [sliceUnits_cons_one hc, ih (by omega)]
      · obtain ⟨count, rfl⟩ := Nat.exists_eq_add_of_le' (Nat.le_of_add_right_le h)
        rw [sliceUnits_cons_two hc, ih (by omega)]

theorem sliceUnits_ne_nil {count : ℕ} {text : Text} (hcount : count ≠ 0) (h : text ≠ []) :
    sliceUnits count text ≠ [] := by
  obtain ⟨c, rest, rfl⟩ := List.exists_cons_of_ne_nil h
  obtain _ | _ | count := count
  · exact absurd rfl hcount
  · unfold sliceUnits
    split_ifs <;> exact List.cons_ne_nil _ _
  · unfold sliceUnits
    split_ifs <;> exact List.cons_ne_nil _ _

/-! ### The record -/

section

variable (URL : UrlParser)

def isWebsite (value : Text) : Bool := (parseWebsite URL value).isSome

/-- `newLoginValues`. -/
structure NewLoginValues where
  title : Text
  websites : List Text

def newLoginValues (website : Text) : NewLoginValues :=
  ⟨(websiteHost URL website).getD website, [website]⟩

/-- `a || b`. -/
def orElse (a b : Text) : Text := if a = [] then b else a

theorem orElse_ne_nil {a b : Text} (hb : b ≠ []) : orElse a b ≠ [] := by
  unfold orElse
  split_ifs with ha
  · exact hb
  · exact ha

/-- What the schema is asked about. -/
def pendingLoginFields (pending : PendingLogin) : JsObject :=
  let website := trim pending.website
  let websiteValues := if isWebsite URL website then some (newLoginValues URL website) else none
  let title := orElse (trim pending.title)
    (orElse ((websiteValues.map (·.title)).getD []) "Login".toList)
  let username := sliceUnits maxFieldLength pending.username
  [("type", .string "login".toList), ("title", .string (sliceUnits maxTitleLength title))] ++
    (if username = [] then [] else [("username", .string username)]) ++
    [("password", .string pending.password), ("passwordChangedAt", .string pending.createdAt)] ++
    match websiteValues with
    | none => []
    | some values =>
      [("websites", .array (values.websites.map fun value => .object [("value", .string value)]))]

def pendingLoginData (pending : PendingLogin) : Option JsObject :=
  let data := pendingLoginFields URL pending
  if recordDataSchema (isWebsite URL) data then some data else none

/-- The website is none, or one the schema takes. -/
def SiteFits (pending : PendingLogin) : Prop :=
  isWebsite URL (trim pending.website) = true →
    utf16Length (trim pending.website) ≤ maxUrlLength

/-! ### Its fields -/

variable {URL} (pending : PendingLogin)

theorem pendingLoginFields_type :
    JsObject.get? (pendingLoginFields URL pending) "type" = some (.string "login".toList) := rfl

theorem pendingLoginFields_password :
    JsObject.get? (pendingLoginFields URL pending) "password" = some (.string pending.password) := by
  unfold pendingLoginFields
  dsimp only
  split_ifs <;> rfl

theorem pendingLoginFields_date :
    JsObject.get? (pendingLoginFields URL pending) "passwordChangedAt" =
      some (.string pending.createdAt) := by
  unfold pendingLoginFields
  dsimp only
  split_ifs <;> rfl

/-- What no login created in autofill has. -/
theorem pendingLoginFields_none {key : String}
    (hkey : key ∈ ["note", "favorite", "tags", "customFields", "attachments", "email", "totp"]) :
    JsObject.get? (pendingLoginFields URL pending) key = none := by
  unfold pendingLoginFields
  dsimp only
  simp only [List.mem_cons, List.not_mem_nil, or_false] at hkey
  rcases hkey with rfl | rfl | rfl | rfl | rfl | rfl | rfl <;> split_ifs <;> rfl

theorem pendingLoginFields_title :
    ∃ title, JsObject.get? (pendingLoginFields URL pending) "title" =
        some (.string title) ∧ 1 ≤ utf16Length title ∧ utf16Length title ≤ maxTitleLength := by
  refine ⟨_, rfl, utf16Length_pos (sliceUnits_ne_nil (by decide) ?_), utf16Length_sliceUnits _ _⟩
  exact orElse_ne_nil (orElse_ne_nil (List.cons_ne_nil _ _))

theorem pendingLoginFields_username :
    ∀ value ∈ JsObject.get? (pendingLoginFields URL pending) "username",
      ∃ username, value = .string username ∧ utf16Length username ≤ maxFieldLength := by
  intro value hvalue
  unfold pendingLoginFields at hvalue
  dsimp only at hvalue
  refine ⟨sliceUnits maxFieldLength pending.username, ?_, utf16Length_sliceUnits _ _⟩
  revert hvalue
  split_ifs with hname hsite
  all_goals
    intro hvalue
    simp [JsObject.get?_cons] at hvalue
  all_goals exact hvalue.symm

theorem pendingLoginFields_websites :
    JsObject.get? (pendingLoginFields URL pending) "websites" =
      if isWebsite URL (trim pending.website) then
        some (.array [.object [("value", .string (trim pending.website))]])
      else none := by
  unfold pendingLoginFields
  dsimp only
  split_ifs <;> rfl

/-! ### Which logins become a record -/

/-- The check of the one website there may be. -/
theorem websites_check :
    RecordSchema.optional (RecordSchema.array (RecordSchema.website (isWebsite URL))
        RecordSchema.maxWebsites) (JsObject.get? (pendingLoginFields URL pending) "websites") = true ↔
      SiteFits URL pending := by
  rw [pendingLoginFields_websites]
  unfold SiteFits
  split_ifs with hsite
  · have hone : RecordSchema.optional (RecordSchema.array (RecordSchema.website (isWebsite URL))
        RecordSchema.maxWebsites)
          (some (.array [.object [("value", .string (trim pending.website))]])) =
        (trim pending.website = [] || utf16Length (trim pending.website) ≤ maxUrlLength &&
          isWebsite URL (trim pending.website)) := by
      simp [RecordSchema.optional, RecordSchema.array, RecordSchema.website, RecordSchema.object,
        RecordSchema.required, RecordSchema.maxWebsites, JsObject.get?_cons]
    rw [hone]
    simp only [Bool.or_eq_true, Bool.and_eq_true, decide_eq_true_eq, hsite, and_true, true_implies]
    constructor
    · rintro (hnil | hlength)
      · rw [hnil]
        exact Nat.zero_le _
      · exact hlength
    · exact .inr
  · exact iff_of_true rfl fun h => absurd h hsite

/-- A login becomes a record where its password and its website are within their limits. -/
theorem pendingLoginData_isSome_iff :
    (pendingLoginData URL pending).isSome = true ↔
      utf16Length pending.password ≤ maxFieldLength ∧ SiteFits URL pending := by
  have hsome : (pendingLoginData URL pending).isSome = true ↔
      recordDataSchema (isWebsite URL) (pendingLoginFields URL pending) = true := by
    unfold pendingLoginData
    dsimp only
    split_ifs with h
    · exact iff_of_true rfl h
    · exact iff_of_false (fun h' => nomatch h') h
  have htype : JsObject.text? (pendingLoginFields URL pending) "type" = some "login".toList := rfl
  have hfields : RecordSchema.typeFields (isWebsite URL) "login".toList =
      some (RecordSchema.loginFields (isWebsite URL)) := rfl
  have hpassword : RecordSchema.text
      (JsObject.get? (pendingLoginFields URL pending) "password") = true ↔
        utf16Length pending.password ≤ maxFieldLength := by
    rw [pendingLoginFields_password]
    exact RecordSchema.string_zero
  rw [hsome, recordDataSchema_iff, ← websites_check, ← hpassword]
  constructor
  · rintro ⟨type, fields, htype', hfields', hvalid⟩
    obtain rfl := Option.some.inj (htype.symm.trans htype')
    obtain rfl := Option.some.inj (hfields.symm.trans hfields')
    exact ⟨hvalid ("password", RecordSchema.text)
        (List.mem_append_right _ (by simp [RecordSchema.loginFields])),
      hvalid ("websites", RecordSchema.optional (RecordSchema.array
          (RecordSchema.website (isWebsite URL)) RecordSchema.maxWebsites))
        (List.mem_append_right _ (by simp [RecordSchema.loginFields]))⟩
  · rintro ⟨hpass, hsites⟩
    refine ⟨_, _, htype, hfields, ?_⟩
    obtain ⟨title, htitle, hone, hmax⟩ := @pendingLoginFields_title URL pending
    have husername : RecordSchema.text
        (JsObject.get? (pendingLoginFields URL pending) "username") = true := by
      cases hget : JsObject.get? (pendingLoginFields URL pending) "username" with
      | none => rfl
      | some value =>
        obtain ⟨username, rfl, hlength⟩ := pendingLoginFields_username pending value hget
        exact RecordSchema.string_zero.2 hlength
    have hnone : ∀ {key : String} {check : Json → Bool},
        key ∈ ["note", "favorite", "tags", "customFields", "attachments", "email", "totp"] →
        RecordSchema.optional check (JsObject.get? (pendingLoginFields URL pending) key) = true := by
      intro key check hkey
      rw [pendingLoginFields_none pending hkey]
      rfl
    have htitle' : RecordSchema.title (JsObject.get? (pendingLoginFields URL pending) "title") =
        true := by
      rw [htitle]
      simp [RecordSchema.title, RecordSchema.required, RecordSchema.string, hone, hmax]
    have hdate : RecordSchema.passwordChangedAt
        (JsObject.get? (pendingLoginFields URL pending) "passwordChangedAt") = true := by
      rw [pendingLoginFields_date]
      rfl
    intro field hfield
    simp only [RecordSchema.baseRecordShape, RecordSchema.loginFields, List.mem_append,
      List.mem_cons, List.not_mem_nil, or_false] at hfield
    rcases hfield with (rfl | rfl | rfl | rfl | rfl | rfl) | (rfl | rfl | rfl | rfl | rfl | rfl)
    · exact htitle'
    · exact hnone (by simp)
    · exact hnone (by simp)
    · exact hnone (by simp)
    · exact hnone (by simp)
    · exact hnone (by simp)
    · exact husername
    · exact hnone (by simp)
    · exact hpass
    · exact hdate
    · exact hsites
    · exact hnone (by simp)

/-- The record is what the schema was asked about. -/
theorem pendingLoginData_of_fits (hpassword : utf16Length pending.password ≤ maxFieldLength)
    (hsite : SiteFits URL pending) :
    pendingLoginData URL pending = some (pendingLoginFields URL pending) := by
  have hsome := (pendingLoginData_isSome_iff pending).2 ⟨hpassword, hsite⟩
  unfold pendingLoginData at hsome ⊢
  dsimp only at hsome ⊢
  split_ifs at hsome ⊢
  · rfl
  · cases hsome

/-- The record has the password and the date of the login. -/
theorem pendingLoginData_eq_some {data : JsObject} (h : pendingLoginData URL pending = some data) :
    JsObject.get? data "password" = some (.string pending.password) ∧
      JsObject.get? data "passwordChangedAt" = some (.string pending.createdAt) := by
  unfold pendingLoginData at h
  dsimp only at h
  split_ifs at h
  rw [← Option.some.inj h]
  exact ⟨pendingLoginFields_password pending, pendingLoginFields_date pending⟩

end

end Passmgr
