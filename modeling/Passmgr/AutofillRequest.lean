/-
# The login fields of a screen

`AutofillRequest.kt` and the `fill` of `AutofillAuthActivity.kt` (`apps/mobile/modules/autofill`).
A screen is a list of windows, each a tree of view nodes; web content and the frames in it carry
web domains.  `parse` visits every node and keeps the first domain, the fields in one list for user
names and one for passwords, and the first text typed in each.

Main definitions:

* `ViewNode`, `AssistStructure` — a screen;
* `parse`, `parseSave`, `AutofillRequest.matches` — the source;
* `offered`, `dataset` — the logins of `fill` and what each fills in.

Main results:

* `parse_eq` — each part of a request is read off the nodes in order.
-/

import Mathlib.Data.List.Basic
import Passmgr.RoseTree
import Passmgr.Schema

set_option relaxedAutoImplicit false
set_option autoImplicit false

namespace Passmgr.Autofill

/-! ### Screens -/

abbrev AutofillId := ℕ

inductive AutofillType
  | none
  | text
  | toggle
  | list
  | date
  deriving DecidableEq, Repr

inductive AutofillValue
  | text (value : Text)
  | other
  deriving DecidableEq, Repr

/-- What is read of an `AssistStructure.ViewNode` but its children. -/
structure ViewNode where
  webDomain : Option Text
  autofillId : Option AutofillId
  autofillType : AutofillType
  autofillValue : Option AutofillValue
  autofillHints : Option (List Text)
  hint : Option Text
  idEntry : Option Text
  inputType : BitVec 32
  /-- The attributes of `htmlInfo`. -/
  htmlAttributes : Option (List (Text × Text))
  deriving DecidableEq, Repr

structure AssistStructure where
  packageName : Text
  /-- The root nodes of the windows. -/
  windows : List (RoseTree ViewNode)

/-- What the platform does with strings: `lowercase`, `contains(…, ignoreCase = true)` and the order
of `sortedBy`. -/
structure Strings where
  lowercase : Text → Text
  containsIgnoreCase : Text → Text → Bool
  le : Text → Text → Bool

/-- `InputType.TYPE_MASK_CLASS`. -/
def maskClass : BitVec 32 := 0x0000000f
/-- `InputType.TYPE_MASK_VARIATION`. -/
def maskVariation : BitVec 32 := 0x00000ff0
def classText : BitVec 32 := 0x00000001
def variationPassword : BitVec 32 := 0x00000080
def variationVisiblePassword : BitVec 32 := 0x00000090
def variationWebPassword : BitVec 32 := 0x000000e0
def variationEmailAddress : BitVec 32 := 0x00000020
def variationWebEmailAddress : BitVec 32 := 0x000000d0

def usernameHints : List Text :=
  ["user".toList, "email".toList, "login".toList, "account".toList]

/-! ### The request -/

structure AutofillRequest where
  usernameIds : List AutofillId
  passwordIds : List AutofillId
  webDomain : Option Text
  packageName : Text
  username : Text
  password : Text
  deriving DecidableEq, Repr

def AutofillRequest.fieldIds (r : AutofillRequest) : List AutofillId :=
  r.usernameIds ++ r.passwordIds

/-- The website of a page, else that of the app. -/
def websiteOf (webDomain : Option Text) (packageName : Text) : Text :=
  match webDomain with
  | some host => "https://".toList ++ host
  | none => "androidapp://".toList ++ packageName

def AutofillRequest.website (r : AutofillRequest) : Text := websiteOf r.webDomain r.packageName

structure AutofillEntry where
  recordId : Text
  title : Text
  username : Text
  password : Text
  hosts : List Text
  deriving DecidableEq, Repr

/-- `host == it || host.endsWith(".$it")`. -/
def isHostOrSub (host it : Text) : Bool := host = it || ('.' :: it).isSuffixOf host

/-- Logins for this website; an app never matches. -/
def AutofillRequest.matches (r : AutofillRequest) (entry : AutofillEntry) : Bool :=
  match r.webDomain with
  | none => false
  | some host => entry.hosts.any (isHostOrSub host)

section Parse

variable (K : Strings)

def normalizeHost (host : Text) : Text :=
  let lower := K.lowercase host
  if "www.".toList.isPrefixOf lower then lower.drop 4 else lower

/-- The domain a node carries, as hosts are written; an empty one counts as none. -/
def nodeHost (node : ViewNode) : Option Text :=
  (node.webDomain.filter (· ≠ [])).map (normalizeHost K)

def isPassword (node : ViewNode) : Bool :=
  if (node.autofillHints.getD []).any (K.containsIgnoreCase · "password".toList) then true
  else if node.inputType &&& maskClass = classText &&
      [variationPassword, variationVisiblePassword, variationWebPassword].contains
        (node.inputType &&& maskVariation) then true
  else (node.htmlAttributes.getD []).any fun (name, value) =>
    name = "type".toList && value = "password".toList

def isUsername (node : ViewNode) : Bool :=
  let hints := node.autofillHints.getD [] ++ node.hint.toList ++ node.idEntry.toList
  if hints.any fun hint => usernameHints.any (K.containsIgnoreCase hint) then true
  else
    let variation := node.inputType &&& maskVariation
    variation = variationEmailAddress || variation = variationWebEmailAddress

/-- The text that is typed in a node. -/
def typed (node : ViewNode) : Text :=
  match node.autofillValue with
  | some (.text value) => value
  | _ => []

/-- One node of the visit. -/
def visitNode (r : AutofillRequest) (node : ViewNode) : AutofillRequest :=
  let r := match nodeHost K node with
    | some host => if r.webDomain.isNone then { r with webDomain := some host } else r
    | none => r
  match node.autofillId with
  | none => r
  | some id =>
    if node.autofillType ≠ .text then r
    else if isPassword K node then
      { r with
        passwordIds := r.passwordIds ++ [id]
        password := if r.password.isEmpty then typed node else r.password }
    else if isUsername K node then
      { r with
        usernameIds := r.usernameIds ++ [id]
        username := if r.username.isEmpty then typed node else r.username }
    else r

def parse (structure' : AssistStructure) : AutofillRequest :=
  RoseTree.visitAll (visitNode K)
    { usernameIds := []
      passwordIds := []
      webDomain := none
      packageName := structure'.packageName
      username := []
      password := [] }
    structure'.windows

/-- A save's screens, oldest first: the last one typed in wins.  None has no last one. -/
def parseSave (structures : List AssistStructure) : Option AutofillRequest :=
  let screens := structures.map (parse K)
  screens.getLast?.map fun last =>
    { last with
      webDomain := screens.reverse.findSome? (·.webDomain)
      username := ((screens.reverse.find? (!·.username.isEmpty)).map (·.username)).getD []
      password := ((screens.reverse.find? (!·.password.isEmpty)).map (·.password)).getD [] }

/-! ### Filling -/

structure AutofillProfile where
  profileId : Text
  profileLabel : Text
  entries : List AutofillEntry
  deriving DecidableEq, Repr

/-- What the system shows for a login, and the values it fills in. -/
structure Dataset where
  title : Text
  subtitle : Text
  values : List (AutofillId × Text)
  deriving DecidableEq, Repr

/-- The logins that match the request, else all of them. -/
def offered (r : AutofillRequest) (profiles : List AutofillProfile) :
    List (AutofillProfile × AutofillEntry) :=
  let listed := (profiles.flatMap fun profile => profile.entries.map fun entry => (profile, entry))
    |>.mergeSort fun a b => K.le (K.lowercase a.2.title) (K.lowercase b.2.title)
  let found := listed.filter fun (_, entry) => r.matches entry
  if found.isEmpty then listed else found

def dataset (r : AutofillRequest) (showProfile : Bool) (profile : AutofillProfile)
    (entry : AutofillEntry) : Dataset where
  title := entry.title
  subtitle := ([entry.username, if showProfile then profile.profileLabel else []].filter
    (!·.isEmpty)).intersperse " · ".toList |>.flatten
  values := r.usernameIds.map (·, entry.username) ++ r.passwordIds.map (·, entry.password)

/-- The datasets of `fill`, with their logins. -/
def fill (r : AutofillRequest) (profiles : List AutofillProfile) :
    List (AutofillEntry × Dataset) :=
  (offered K r profiles).map fun (profile, entry) =>
    (entry, dataset r (profiles.length > 1) profile entry)

end Parse

/-! ### What a request is read off -/

section Fields

variable (K : Strings)

/-- The nodes of a screen, as they are visited. -/
def AssistStructure.nodes (s : AssistStructure) : List ViewNode := RoseTree.labelsAll s.windows

def isPasswordField (node : ViewNode) : Bool :=
  node.autofillId.isSome && node.autofillType = .text && isPassword K node

/-- A field that is for a password is none for a user name. -/
def isUsernameField (node : ViewNode) : Bool :=
  node.autofillId.isSome && node.autofillType = .text && !isPassword K node && isUsername K node

def isField (node : ViewNode) : Bool := isUsernameField K node || isPasswordField K node

/-- The first of some texts that is not empty. -/
def firstTyped (nodes : List ViewNode) : Text :=
  ((nodes.map typed).find? (!·.isEmpty)).getD []

@[simp] theorem firstTyped_nil : firstTyped [] = [] := rfl

theorem firstTyped_cons (node : ViewNode) (nodes : List ViewNode) :
    firstTyped (node :: nodes) =
      if (typed node).isEmpty then firstTyped nodes else typed node := by
  unfold firstTyped
  rw [List.map_cons, List.find?_cons]
  cases h : (typed node).isEmpty <;> simp

/-- What one node adds to a request. -/
theorem visitNode_eq (r : AutofillRequest) (node : ViewNode) :
    visitNode K r node =
      { r with
        usernameIds := r.usernameIds ++ ([node].filter (isUsernameField K)).filterMap (·.autofillId)
        passwordIds := r.passwordIds ++ ([node].filter (isPasswordField K)).filterMap (·.autofillId)
        webDomain := r.webDomain.or (nodeHost K node)
        username := if r.username.isEmpty then firstTyped ([node].filter (isUsernameField K))
          else r.username
        password := if r.password.isEmpty then firstTyped ([node].filter (isPasswordField K))
          else r.password } := by
  have hdomain : (match nodeHost K node with
      | some host => if r.webDomain.isNone then { r with webDomain := some host } else r
      | none => r) = { r with webDomain := r.webDomain.or (nodeHost K node) } := by
    cases nodeHost K node with
    | none => simp
    | some host =>
        obtain ⟨usernameIds, passwordIds, webDomain, packageName, username, password⟩ := r
        cases webDomain <;> simp
  have hone : firstTyped [node] = typed node := by
    rw [firstTyped_cons]
    cases h : typed node <;> simp [firstTyped]
  unfold visitNode
  rw [hdomain]
  cases hid : node.autofillId with
  | none => simp [isUsernameField, isPasswordField, hid]
  | some id =>
      by_cases htype : node.autofillType = .text
      · cases hpassword : isPassword K node <;> cases husername : isUsername K node <;>
          simp [isUsernameField, isPasswordField, hid, htype, hpassword, husername, hone]
      · simp [isUsernameField, isPasswordField, hid, htype]

theorem firstTyped_append (nodes rest : List ViewNode) :
    firstTyped (nodes ++ rest) =
      if (firstTyped nodes).isEmpty then firstTyped rest else firstTyped nodes := by
  induction nodes with
  | nil => simp [firstTyped]
  | cons node nodes ih =>
      rw [List.cons_append, firstTyped_cons, firstTyped_cons, ih]
      cases h : (typed node).isEmpty <;> simp [h]

/-- What a visit adds to a request. -/
theorem foldl_visitNode (r : AutofillRequest) (nodes : List ViewNode) :
    nodes.foldl (visitNode K) r =
      { r with
        usernameIds := r.usernameIds ++ (nodes.filter (isUsernameField K)).filterMap (·.autofillId)
        passwordIds := r.passwordIds ++ (nodes.filter (isPasswordField K)).filterMap (·.autofillId)
        webDomain := r.webDomain.or (nodes.findSome? (nodeHost K))
        username := if r.username.isEmpty then firstTyped (nodes.filter (isUsernameField K))
          else r.username
        password := if r.password.isEmpty then firstTyped (nodes.filter (isPasswordField K))
          else r.password } := by
  induction nodes generalizing r with
  | nil =>
      cases r
      simp [firstTyped]
  | cons node nodes ih =>
      have hsplit : ∀ p : ViewNode → Bool,
          (node :: nodes).filter p = [node].filter p ++ nodes.filter p := by
        intro p
        rw [← List.filter_append]
        rfl
      have htyped : ∀ (p : ViewNode → Bool) (start : Text),
          (if (if start.isEmpty then firstTyped ([node].filter p) else start).isEmpty
            then firstTyped (nodes.filter p)
            else if start.isEmpty then firstTyped ([node].filter p) else start) =
          if start.isEmpty then firstTyped ((node :: nodes).filter p) else start := by
        intro p start
        rw [hsplit, firstTyped_append]
        cases h : start.isEmpty <;> simp [h]
      have hhost : (r.webDomain.or (nodeHost K node)).or (nodes.findSome? (nodeHost K)) =
          r.webDomain.or ((node :: nodes).findSome? (nodeHost K)) := by
        rw [Option.or_assoc, List.findSome?_cons]
        cases nodeHost K node <;> rfl
      rw [List.foldl_cons, ih, visitNode_eq]
      simp only [htyped, hhost, hsplit, List.filterMap_append, List.append_assoc]

theorem parse_eq (s : AssistStructure) :
    parse K s =
      { usernameIds := (s.nodes.filter (isUsernameField K)).filterMap (·.autofillId)
        passwordIds := (s.nodes.filter (isPasswordField K)).filterMap (·.autofillId)
        webDomain := s.nodes.findSome? (nodeHost K)
        packageName := s.packageName
        username := firstTyped (s.nodes.filter (isUsernameField K))
        password := firstTyped (s.nodes.filter (isPasswordField K)) } := by
  rw [parse, RoseTree.visitAll_eq_foldl, foldl_visitNode]
  rfl

end Fields

end Passmgr.Autofill
