/-
# Whose fields a login is filled into

A node belongs to the site of the nearest web domain at or above it; a frame of another site has a
domain of its own.  A request keeps one domain for a screen and all of its fields, so a login of the
domain that comes first is filled into the fields of every frame.  A save takes the domain of the
last screen that has one and the password of the last one a password was typed on.

Main definitions:

* `occurrences` — the nodes of a screen with the site they belong to;
* `FillsOwnSite`, `SavesOwnSite` — the property;
* `OneSite`, `TypedOnSite` — the screens it holds on.

Main results:

* `autofill_sites` — it holds on these screens and no others;
* `frame_filled` — a login of a page and the password field of a frame in it.
-/

import Passmgr.AutofillRequest

set_option relaxedAutoImplicit false
set_option autoImplicit false

namespace Passmgr.Autofill

variable (K : Strings)

/-! ### The property and the condition -/

/-- The nodes of a screen, each with the nearest web domain at or above it. -/
def occurrences (s : AssistStructure) : List (ViewNode × Option Text) :=
  RoseTree.inheritedAll (nodeHost K) none s.windows

/-- A domain is a host of the login or under one. -/
def OnSite (entry : AutofillEntry) (host : Option Text) : Prop :=
  ∃ domain, host = some domain ∧ ∃ it ∈ entry.hosts, isHostOrSub domain it

/-- A login that matches the screen is filled into fields of its own site. -/
def FillsOwnSite (s : AssistStructure) : Prop :=
  ∀ profiles, ∀ offer ∈ fill K (parse K s) profiles, (parse K s).matches offer.1 →
    ∀ value ∈ offer.2.values, ∀ occurrence ∈ occurrences K s, isField K occurrence.1 →
      occurrence.1.autofillId = some value.1 → OnSite offer.1 occurrence.2

/-- The website of a save is that of a field its password was typed in. -/
def SavesOwnSite (screens : List AssistStructure) : Prop :=
  ∀ r, parseSave K screens = some r → r.password ≠ [] →
    ∃ s ∈ screens, ∃ occurrence ∈ occurrences K s, isPasswordField K occurrence.1 ∧
      typed occurrence.1 = r.password ∧ websiteOf occurrence.2 s.packageName = r.website

/-- The first web domain of a screen, in the order of its nodes. -/
def AssistStructure.firstHost (s : AssistStructure) : Option Text := s.nodes.findSome? (nodeHost K)

/-- Every field of a screen belongs to its first web domain or to one under it. -/
def OneSite (s : AssistStructure) : Prop :=
  ∀ first, s.firstHost K = some first → ∀ occurrence ∈ occurrences K s, isField K occurrence.1 →
    ∃ domain, occurrence.2 = some domain ∧ isHostOrSub domain first

/-- The web domain of the last screen that has one. -/
def lastHost (screens : List AssistStructure) : Option Text :=
  screens.reverse.findSome? (·.firstHost K)

/-- The first password typed on a screen. -/
def AssistStructure.typedPassword (s : AssistStructure) : Text :=
  firstTyped (s.nodes.filter (isPasswordField K))

/-- The password of the last screen one was typed on. -/
def lastTyped (screens : List AssistStructure) : Option Text :=
  (screens.reverse.map (·.typedPassword K)).find? (!·.isEmpty)

/-- The password that is saved was typed in a field of the web domain of the last screen that has
one, or, where no screen has one, in the app of the last screen. -/
def TypedOnSite (screens : List AssistStructure) : Prop :=
  ∀ last password, screens.getLast? = some last → lastTyped K screens = some password →
    match lastHost K screens with
    | some host => ∃ s ∈ screens, ∃ occurrence ∈ occurrences K s,
        isPasswordField K occurrence.1 ∧ typed occurrence.1 = password ∧ occurrence.2 = some host
    | none => ∃ s ∈ screens, s.packageName = last.packageName ∧
        ∃ node ∈ s.nodes, isPasswordField K node ∧ typed node = password

/-! ### Sites -/

theorem isHostOrSub_self (host : Text) : isHostOrSub host host = true := by
  simp [isHostOrSub]

/-- A domain under one that is under a host is under the host. -/
theorem isHostOrSub_trans {a b c : Text} (hab : isHostOrSub a b = true)
    (hbc : isHostOrSub b c = true) : isHostOrSub a c = true := by
  simp only [isHostOrSub, Bool.or_eq_true, decide_eq_true_eq, List.isSuffixOf_iff_suffix] at *
  rcases hab with rfl | hab
  · exact hbc
  · rcases hbc with rfl | hbc
    · exact .inr hab
    · exact .inr (hbc.trans ((List.suffix_cons _ _).trans hab))

theorem websiteOf_none (packageName : Text) :
    websiteOf none packageName = 'a' :: ("ndroidapp://".toList ++ packageName) := rfl

theorem websiteOf_some (host packageName : Text) :
    websiteOf (some host) packageName = 'h' :: ("ttps://".toList ++ host) := rfl

theorem websiteOf_inj {a b : Option Text} {p q : Text} (h : websiteOf a p = websiteOf b q) :
    a = b ∧ (a = none → p = q) := by
  cases a with
  | none =>
      cases b with
      | none =>
          rw [websiteOf_none, websiteOf_none] at h
          exact ⟨rfl, fun _ => List.append_cancel_left (List.cons.inj h).2⟩
      | some host =>
          rw [websiteOf_none, websiteOf_some] at h
          exact absurd (List.cons.inj h).1 (by decide)
  | some host =>
      cases b with
      | none =>
          rw [websiteOf_some, websiteOf_none] at h
          exact absurd (List.cons.inj h).1 (by decide)
      | some host' =>
          rw [websiteOf_some, websiteOf_some] at h
          exact ⟨congrArg some (List.append_cancel_left (List.cons.inj h).2), nofun⟩

/-! ### Nodes and occurrences -/

section Nodes

variable {K} {s : AssistStructure}

theorem map_fst_occurrences : (occurrences K s).map Prod.fst = s.nodes :=
  RoseTree.map_fst_inheritedAll _ _ _

theorem mem_nodes_of_occurrence {occurrence : ViewNode × Option Text}
    (h : occurrence ∈ occurrences K s) : occurrence.1 ∈ s.nodes :=
  map_fst_occurrences ▸ List.mem_map_of_mem h

theorem exists_occurrence {node : ViewNode} (h : node ∈ s.nodes) :
    ∃ host, (node, host) ∈ occurrences K s := by
  rw [← @map_fst_occurrences K s] at h
  obtain ⟨⟨node', host⟩, hmem, rfl⟩ := List.mem_map.1 h
  exact ⟨host, hmem⟩

/-- On a screen without a web domain no node belongs to one. -/
theorem host_eq_none (h : s.firstHost K = none) {occurrence : ViewNode × Option Text}
    (hmem : occurrence ∈ occurrences K s) : occurrence.2 = none :=
  RoseTree.inheritedAll_of_none s.windows
    (fun node hnode => List.findSome?_eq_none_iff.1 h node hnode) occurrence hmem

theorem mem_fieldIds {id : AutofillId} : id ∈ (parse K s).fieldIds ↔
    ∃ node ∈ s.nodes, isField K node ∧ node.autofillId = some id := by
  rw [parse_eq, AutofillRequest.fieldIds]
  simp only [List.mem_append, List.mem_filterMap, List.mem_filter, isField, Bool.or_eq_true]
  constructor
  · rintro (⟨node, ⟨hnode, hfield⟩, hid⟩ | ⟨node, ⟨hnode, hfield⟩, hid⟩)
    · exact ⟨node, hnode, .inl hfield, hid⟩
    · exact ⟨node, hnode, .inr hfield, hid⟩
  · rintro ⟨node, hnode, hfield | hfield, hid⟩
    · exact .inl ⟨node, ⟨hnode, hfield⟩, hid⟩
    · exact .inr ⟨node, ⟨hnode, hfield⟩, hid⟩

/-- What is filled in is filled into the fields of the request. -/
theorem fst_mem_fieldIds {r : AutofillRequest} {showProfile : Bool} {profile : AutofillProfile}
    {entry : AutofillEntry} {id : AutofillId} (h : id ∈ r.fieldIds) :
    ∃ text, (id, text) ∈ (dataset r showProfile profile entry).values := by
  rcases List.mem_append.1 h with hid | hid
  · exact ⟨entry.username, List.mem_append_left _ (List.mem_map_of_mem hid)⟩
  · exact ⟨entry.password, List.mem_append_right _ (List.mem_map_of_mem hid)⟩

theorem exists_autofillId {node : ViewNode} (h : isField K node = true) :
    ∃ id, node.autofillId = some id := by
  refine Option.isSome_iff_exists.1 ?_
  simp only [isField, isUsernameField, isPasswordField, Bool.or_eq_true, Bool.and_eq_true] at h
  rcases h with h | h
  · exact h.1.1.1
  · exact h.1.1

theorem webDomain_parse : (parse K s).webDomain = s.firstHost K := by
  rw [parse_eq]
  rfl

end Nodes

/-! ### Filling -/

/-- The login of one profile that has one entry is offered. -/
theorem mem_fill_single (r : AutofillRequest) (profileId profileLabel : Text)
    (entry : AutofillEntry) :
    ∃ data, (entry, data) ∈ fill K r [⟨profileId, profileLabel, [entry]⟩] ∧
      data = dataset r false ⟨profileId, profileLabel, [entry]⟩ entry := by
  refine ⟨_, List.mem_map.2 ⟨(⟨profileId, profileLabel, [entry]⟩, entry), ?_, rfl⟩, rfl⟩
  simp only [offered, List.flatMap_cons, List.map_cons, List.map_nil, List.flatMap_nil,
    List.append_nil, List.mergeSort_singleton]
  split
  · exact List.mem_singleton_self _
  · rename_i hfound
    cases hmatch : r.matches entry with
    | true => simp [hmatch]
    | false => exact absurd (by simp [hmatch]) hfound

/-- A login is filled into fields of its own site only where every field belongs to the screen's
first web domain: a login of that domain alone is filled into all of them. -/
theorem fillsOwnSite_iff (s : AssistStructure) : FillsOwnSite K s ↔ OneSite K s := by
  constructor
  · intro hfills first hfirst occurrence hmem hfield
    let entry : AutofillEntry := ⟨[], [], [], [], [first]⟩
    obtain ⟨id, hid⟩ := exists_autofillId hfield
    have hids : id ∈ (parse K s).fieldIds :=
      mem_fieldIds.2 ⟨occurrence.1, mem_nodes_of_occurrence hmem, hfield, hid⟩
    obtain ⟨data, hoffer, rfl⟩ := mem_fill_single K (parse K s) [] [] entry
    obtain ⟨text, hvalue⟩ := @fst_mem_fieldIds _ false ⟨[], [], [entry]⟩ entry _ hids
    have hmatch : (parse K s).matches entry = true := by
      simp [AutofillRequest.matches, webDomain_parse, hfirst, entry, isHostOrSub_self]
    obtain ⟨domain, hdomain, it, hit, hsub⟩ :=
      hfills _ _ hoffer hmatch _ hvalue occurrence hmem hfield hid
    have hit : it = first := List.mem_singleton.1 hit
    exact ⟨domain, hdomain, hit ▸ hsub⟩
  · intro hone profiles offer _ hmatch value _ occurrence hmem hfield _
    unfold AutofillRequest.matches at hmatch
    rw [webDomain_parse] at hmatch
    cases hfirst : s.firstHost K with
    | none => simp [hfirst] at hmatch
    | some first =>
        simp only [hfirst, List.any_eq_true] at hmatch
        obtain ⟨it, hit, hsub⟩ := hmatch
        obtain ⟨domain, hdomain, hunder⟩ := hone first hfirst occurrence hmem hfield
        exact ⟨domain, hdomain, it, hit, isHostOrSub_trans hunder hsub⟩

/-! ### Saving -/

theorem findSome?_webDomain (screens : List AssistStructure) :
    (screens.map (parse K)).findSome? (·.webDomain) = screens.findSome? (·.firstHost K) := by
  rw [List.findSome?_map]
  congr 1
  funext s
  exact webDomain_parse

theorem password_parse (s : AssistStructure) : (parse K s).password = s.typedPassword K := by
  rw [parse_eq]
  rfl

theorem find?_password (screens : List AssistStructure) :
    ((screens.map (parse K)).find? (!·.password.isEmpty)).map (·.password) =
      (screens.map (·.typedPassword K)).find? (!·.isEmpty) := by
  rw [List.find?_map, List.find?_map, Option.map_map]
  simp only [Function.comp_def, password_parse]

/-- The parts of a save that are compared here. -/
theorem parseSave_eq_some {screens : List AssistStructure} {r : AutofillRequest}
    (h : parseSave K screens = some r) : ∃ last, screens.getLast? = some last ∧
      r.packageName = last.packageName ∧ r.webDomain = lastHost K screens ∧
      r.password = (lastTyped K screens).getD [] := by
  simp only [parseSave, List.getLast?_map, Option.map_map] at h
  obtain ⟨last, hlast, rfl⟩ := Option.map_eq_some_iff.1 h
  refine ⟨last, hlast, ?_, ?_, ?_⟩
  · simp only [Function.comp_apply, parse_eq]
  · simp only [Function.comp_apply, lastHost, ← List.map_reverse, findSome?_webDomain]
  · simp only [Function.comp_apply, lastTyped, ← List.map_reverse, find?_password]

theorem exists_parseSave {screens : List AssistStructure} {last : AssistStructure}
    (h : screens.getLast? = some last) : ∃ r, parseSave K screens = some r := by
  simp only [parseSave, List.getLast?_map, h]
  exact ⟨_, rfl⟩

theorem lastTyped_ne_nil {screens : List AssistStructure} {password : Text}
    (h : lastTyped K screens = some password) : password ≠ [] := by
  have hne := List.find?_some h
  rintro rfl
  exact absurd hne (by simp)

/-- Only the last screen's app names the website where no screen has a web domain. -/
theorem savesOwnSite_iff (screens : List AssistStructure) :
    SavesOwnSite K screens ↔ TypedOnSite K screens := by
  constructor
  · intro hsaves last password hlast htyped
    obtain ⟨r, hr⟩ := exists_parseSave K hlast
    obtain ⟨last', hlast', hpackage, hdomain, hpassword⟩ := parseSave_eq_some K hr
    obtain rfl : last = last' := Option.some.inj (hlast.symm.trans hlast')
    rw [htyped, Option.getD_some] at hpassword
    have hne : r.password ≠ [] := hpassword ▸ lastTyped_ne_nil K htyped
    obtain ⟨s, hs, occurrence, hmem, hfield, htext, hwebsite⟩ := hsaves r hr hne
    obtain ⟨hhost, happ⟩ := websiteOf_inj hwebsite
    rw [hpassword] at htext
    cases hlasthost : lastHost K screens with
    | none =>
        rw [hdomain, hlasthost] at hhost
        exact ⟨s, hs, (happ hhost).trans hpackage, occurrence.1, mem_nodes_of_occurrence hmem,
          hfield, htext⟩
    | some host =>
        exact ⟨s, hs, occurrence, hmem, hfield, htext, hhost.trans (hdomain.trans hlasthost)⟩
  · intro htypedOn r hr hne
    obtain ⟨last, hlast, hpackage, hdomain, hpassword⟩ := parseSave_eq_some K hr
    cases htyped : lastTyped K screens with
    | none => exact absurd (by rw [hpassword, htyped]; rfl) hne
    | some password =>
        rw [htyped, Option.getD_some] at hpassword
        have hsome := htypedOn last password hlast htyped
        unfold AutofillRequest.website
        cases hlasthost : lastHost K screens with
        | none =>
            rw [hlasthost] at hsome hdomain
            obtain ⟨s, hs, happ, node, hnode, hfield, htext⟩ := hsome
            obtain ⟨host, hmem⟩ := @exists_occurrence K _ _ hnode
            -- no screen has a domain, so this one has none and neither has the node
            have hnone : s.firstHost K = none := by
              exact List.findSome?_eq_none_iff.1 hlasthost s (List.mem_reverse.2 hs)
            have hhost : host = none := host_eq_none hnone hmem
            refine ⟨s, hs, (node, host), hmem, hfield, htext.trans hpassword.symm, ?_⟩
            rw [hdomain, hhost, hpackage, happ]
        | some host =>
            rw [hlasthost] at hsome hdomain
            obtain ⟨s, hs, occurrence, hmem, hfield, htext, hhost⟩ := hsome
            refine ⟨s, hs, occurrence, hmem, hfield, htext.trans hpassword.symm, ?_⟩
            rw [hhost, hdomain]
            rfl

/-! ### The property -/

/-- A login is filled into its own site's fields on the screens whose fields all belong to the first
web domain, and a save names the site of its password where that was typed on the last one. -/
theorem autofill_sites : (∀ s, FillsOwnSite K s ↔ OneSite K s) ∧
    ∀ screens, SavesOwnSite K screens ↔ TypedOnSite K screens :=
  ⟨fillsOwnSite_iff K, savesOwnSite_iff K⟩

/-! ### A frame of another site -/

section Frame

/-- Strings of lower-case letters, compared as they are. -/
def plainStrings : Strings where
  lowercase := id
  containsIgnoreCase text part := text.tails.any part.isPrefixOf
  le _ _ := true

def pageNode : ViewNode where
  webDomain := some "shop.com".toList
  autofillId := none
  autofillType := .none
  autofillValue := none
  autofillHints := none
  hint := none
  idEntry := none
  inputType := 0
  htmlAttributes := none

def frameField : ViewNode where
  webDomain := some "evil.com".toList
  autofillId := some 7
  autofillType := .text
  autofillValue := some (.text "hunter2".toList)
  autofillHints := none
  hint := none
  idEntry := none
  inputType := classText ||| variationWebPassword
  htmlAttributes := none

def framedPage : AssistStructure where
  packageName := "browser".toList
  windows := [.node pageNode [.node frameField []]]

theorem not_oneSite_framedPage : ¬ OneSite plainStrings framedPage := by
  intro hone
  obtain ⟨domain, hdomain, hsub⟩ := hone "shop.com".toList (by decide)
    (frameField, some "evil.com".toList) (by decide) (by decide)
  obtain rfl := Option.some.inj hdomain
  exact absurd hsub (by decide)

theorem not_typedOnSite_framedPage : ¬ TypedOnSite plainStrings [framedPage] := by
  intro htyped
  obtain ⟨s, hs, occurrence, hmem, -, htext, hhost⟩ :=
    htyped framedPage "hunter2".toList rfl (by decide)
  obtain rfl := List.mem_singleton.1 hs
  have hall : ∀ occurrence ∈ occurrences plainStrings framedPage,
      typed occurrence.1 = "hunter2".toList → occurrence.2 ≠ some "shop.com".toList := by decide
  exact hall occurrence hmem htext hhost

/-- The password field of a frame gets a login of the page around it, and a save of what was typed
in it names that page. -/
theorem frame_filled :
    ¬ FillsOwnSite plainStrings framedPage ∧ ¬ SavesOwnSite plainStrings [framedPage] :=
  ⟨fun h => not_oneSite_framedPage ((fillsOwnSite_iff _ _).1 h),
    fun h => not_typedOnSite_framedPage ((savesOwnSite_iff _ _).1 h)⟩

end Frame

end Passmgr.Autofill
