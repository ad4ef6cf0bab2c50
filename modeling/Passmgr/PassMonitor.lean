/-
# Duplicate logins

`findDuplicateLogins` of `packages/client/src/records/pass-monitor.ts`, with `loginHosts` and
`loginAccountName`: logins for one account are linked, and the linked ones are grouped by the root
of their links.

Lower case, the comparison of titles and the platform's `URL` are parameters.  The searches for a
root recurse as long as there are links, so the code is given fuel.

Main definitions:

* `accountsOf` — the accounts a record is a login for, one for each host;
* `findDuplicateLogins` — the groups;
* `Duplicates`, `Connected` — two logins for one account, and its closure in a list of records.

Main results:

* `entries_spec` — what the links are after any number of accounts;
* `findDuplicateLogins_components` — the groups are the components with two logins or more, for
  every order of the list, and every search for a root ends.
-/

import Mathlib.Data.List.Sort
import Passmgr.FieldSpecs
import Passmgr.GroupBy
import Passmgr.UnionFind
import Passmgr.Websites

set_option relaxedAutoImplicit false
set_option autoImplicit false

namespace Passmgr

open Relation UnionFind Websites

/-- What the pass monitor takes of the platform. -/
structure MonitorRuntime where
  lowerCase : Text → Text
  localeCompare : Text → Text → ℤ
  URL : UrlParser

/-- Records that share something; `id` is a member's record id. -/
structure MonitorGroup where
  id : RecordId
  records : List DecryptedRecord
  deriving DecidableEq, Repr

variable (M : MonitorRuntime)

/-! ### Groups -/

def byTitle (a b : DecryptedRecord) : ℤ := M.localeCompare a.title b.title

/-- Larger groups first, then by the title of the first record. -/
def groupBefore (a b : MonitorGroup) : Bool :=
  b.records.length < a.records.length ||
    (a.records.length = b.records.length &&
      ((a.records.head?.bind fun first =>
        b.records.head?.map fun second => decide (byTitle M first second ≤ 0)).getD true))

/-- One set of records as a group. -/
def toGroup (records : List DecryptedRecord) : Option MonitorGroup :=
  let sorted := records.mergeSort fun a b => decide (byTitle M a b ≤ 0)
  sorted.head?.map fun first => ⟨first.recordId, sorted⟩

def toGroups (sets : List (List DecryptedRecord)) : List MonitorGroup :=
  ((sets.filter (1 < ·.length)).filterMap (toGroup M)).mergeSort (groupBefore M)

/-! ### Accounts -/

/-- `input.trim().toLowerCase()`. -/
def normalize (input : Text) : Text := M.lowerCase (JsNumber.trim input)

/-- The hosts of a login's websites; none for other record types. -/
def loginHosts (URL : UrlParser) (record : RecordData) : List Text :=
  match record.data with
  | .login fields => (fields.websites.getD []).filterMap (websiteHost URL)
  | _ => []

/-- `login.username || login.email || undefined`. -/
def loginAccountName (login : LoginRecord) : Option Text :=
  (login.username.filter (· ≠ [])).or (login.email.filter (· ≠ []))

/-- The normalised account name of a login that has one. -/
def accountName (record : RecordData) : Option Text :=
  match record.data with
  | .login fields => some (normalize M ((loginAccountName fields).getD [])) |>.filter (· ≠ [])
  | _ => none

/-- `${username}\n${host}`. -/
def accountKey (username host : Text) : Text := username ++ '\n' :: host

/-! ### Links -/

/-- The two maps and the set of `findDuplicateLogins`. -/
structure DuplicateLinks where
  parent : Parents RecordId
  firstByAccount : Text → Option RecordId
  linked : List RecordId

def DuplicateLinks.empty : DuplicateLinks := ⟨fun _ => none, fun _ => none, []⟩

/-- `root`. -/
abbrev root := @find RecordId _

/-- One account of one record. -/
def addAccount (fuel : ℕ) (recordId : RecordId) (s : DuplicateLinks) (account : Text) :
    Option DuplicateLinks :=
  match s.firstByAccount account with
  | none =>
    some { s with firstByAccount := Function.update s.firstByAccount account (some recordId) }
  | some first => do
    -- `parent.set(root(record.recordId), root(first))`
    let parent ← link fuel s.parent recordId first
    some { s with
      parent := parent
      linked := first :: recordId :: s.linked }

/-- One record: each of its hosts once, where it has an account name. -/
def addRecord (fuel : ℕ) (s : DuplicateLinks) (record : DecryptedRecord) :
    Option DuplicateLinks :=
  match accountName M record.toRecordData with
  | none => some s
  | some username =>
    (loginHosts M.URL record.toRecordData).eraseDups.foldlM
      (fun s host => addAccount fuel record.recordId s (accountKey username host)) s

/-- One record of the second loop. -/
def addToGroups (fuel : ℕ) (linked : List RecordId)
    (s : Parents RecordId × List (RecordId × List DecryptedRecord)) (record : DecryptedRecord) :
    Option (Parents RecordId × List (RecordId × List DecryptedRecord)) :=
  if record.recordId ∉ linked then some s
  else do
    let (top, parent) ← root fuel s.1 record.recordId
    some (parent, GroupBy.add (fun _ => top) s.2 record)

def findDuplicateLogins (fuel : ℕ) (records : List DecryptedRecord) :
    Option (List MonitorGroup) := do
  let links ← records.foldlM (addRecord M fuel) .empty
  let (_, groups) ← records.foldlM (addToGroups fuel links.linked) (links.parent, [])
  some (toGroups M (groups.map (·.2)))

/-! ### The links of any number of accounts -/

/-- Accounts with the record that has them. -/
abbrev Entries := List (Text × RecordId)

/-- Two records have one account. -/
def Shares (entries : Entries) (x y : RecordId) : Prop :=
  ∃ account, (account, x) ∈ entries ∧ (account, y) ∈ entries

/-- What the maps and the set say of the accounts gone through. -/
structure DuplicateLinks.Says (entries : Entries) (s : DuplicateLinks) : Prop where
  forest : Forest s.parent
  same : ∀ x y, Same s.parent x y ↔ EqvGen (Shares entries) x y
  first : ∀ account, s.firstByAccount account = (entries.find? (·.1 = account)).map (·.2)
  linked : ∀ x, x ∈ s.linked ↔
    ∃ account y, y ≠ x ∧ (account, x) ∈ entries ∧ (account, y) ∈ entries

theorem says_empty : DuplicateLinks.empty.Says [] where
  forest := forest_empty
  same := fun _ _ => same_empty fun _ _ ⟨_, h, _⟩ => absurd h List.not_mem_nil
  first := fun _ => rfl
  linked := by simp [DuplicateLinks.empty]

theorem mem_snoc {entries : Entries} {account account' : Text} {id x : RecordId} :
    (account', x) ∈ entries ++ [(account, id)] ↔
      (account', x) ∈ entries ∨ account' = account ∧ x = id := by
  simp

/-- An account no record had before relates nothing new. -/
theorem shares_snoc_of_fresh {entries : Entries} {account : Text} {id : RecordId}
    (hfresh : ∀ x, (account, x) ∉ entries) {x y : RecordId} :
    Shares (entries ++ [(account, id)]) x y → Shares entries x y ∨ x = y := by
  rintro ⟨account', hx, hy⟩
  rw [mem_snoc] at hx hy
  obtain hx | ⟨rfl, rfl⟩ := hx
  · obtain hy | ⟨rfl, rfl⟩ := hy
    · exact .inl ⟨account', hx, hy⟩
    · exact absurd hx (hfresh x)
  · obtain hy | ⟨-, rfl⟩ := hy
    · exact absurd hy (hfresh y)
    · exact .inr rfl

/-- One more record with an account: linking it to the first relates it to all that have it. -/
theorem eqvGen_shares_snoc {entries : Entries} {account : Text} {id first : RecordId}
    (hfirst : (account, first) ∈ entries) (x y : RecordId) :
    EqvGen (fun x y => Shares entries x y ∨ x = id ∧ y = first) x y ↔
      EqvGen (Shares (entries ++ [(account, id)])) x y := by
  constructor
  · refine EqvGen.mono ?_ x y
    rintro x y (⟨account', hx, hy⟩ | ⟨rfl, rfl⟩)
    · exact ⟨account', mem_snoc.2 (.inl hx), mem_snoc.2 (.inl hy)⟩
    · exact ⟨account, mem_snoc.2 (.inr ⟨rfl, rfl⟩), mem_snoc.2 (.inl hfirst)⟩
  · intro h
    have hnew : ∀ z, (account, z) ∈ entries →
        EqvGen (fun x y => Shares entries x y ∨ x = id ∧ y = first) id z := fun z hz =>
      .trans _ _ _ (.rel _ _ (.inr ⟨rfl, rfl⟩)) (.rel _ _ (.inl ⟨account, hfirst, hz⟩))
    induction h with
    | rel x y h =>
      obtain ⟨account', hx, hy⟩ := h
      rw [mem_snoc] at hx hy
      obtain hx | ⟨rfl, rfl⟩ := hx
      · obtain hy | ⟨rfl, rfl⟩ := hy
        · exact .rel _ _ (.inl ⟨account', hx, hy⟩)
        · exact .symm _ _ (hnew x hx)
      · obtain hy | ⟨-, rfl⟩ := hy
        · exact hnew y hy
        · exact .refl _
    | refl x => exact .refl x
    | symm x y _ ih => exact .symm _ _ ih
    | trans x y z _ _ hxy hyz => exact .trans _ _ _ hxy hyz

/-- The first record of an account. -/
theorem find_snoc (entries : Entries) (account account' : Text) (id : RecordId) :
    ((entries ++ [(account, id)]).find? (·.1 = account')).map (·.2) =
      ((entries.find? (·.1 = account')).map (·.2)).or
        (if account = account' then some id else none) := by
  rw [List.find?_append]
  cases entries.find? (·.1 = account') with
  | some entry => rfl
  | none =>
    by_cases h : account = account'
    · simp [h]
    · simp [h]

/-- One more account of a record. -/
theorem addAccount_says {entries : Entries} {s : DuplicateLinks} (hs : s.Says entries)
    {account : Text} {id : RecordId} (hnew : (account, id) ∉ entries) :
    ∃ n t, (∀ fuel, n ≤ fuel → addAccount fuel id s account = some t) ∧
      t.Says (entries ++ [(account, id)]) := by
  cases hfirst : s.firstByAccount account with
  | none =>
    have hfresh : ∀ x, (account, x) ∉ entries := by
      intro x hx
      rw [hs.first, Option.map_eq_none_iff, List.find?_eq_none] at hfirst
      exact hfirst _ hx (by simp)
    refine ⟨0, { s with firstByAccount := Function.update s.firstByAccount account (some id) },
      fun fuel _ => by rw [addAccount, hfirst], hs.forest, ?_, ?_, ?_⟩
    · intro x y
      rw [hs.same]
      constructor
      · refine EqvGen.mono ?_ x y
        rintro x y ⟨account', hx, hy⟩
        exact ⟨account', mem_snoc.2 (.inl hx), mem_snoc.2 (.inl hy)⟩
      · intro h
        induction h with
        | rel x y h =>
          obtain h | rfl := shares_snoc_of_fresh hfresh h
          · exact .rel _ _ h
          · exact .refl _
        | refl x => exact .refl x
        | symm x y _ ih => exact .symm _ _ ih
        | trans x y z _ _ hxy hyz => exact .trans _ _ _ hxy hyz
    · intro account'
      rw [find_snoc, ← hs.first]
      by_cases h : account' = account
      · subst h
        simp [hfirst]
      · have h' : ¬ account = account' := fun heq => h heq.symm
        simp [h, h']
    · intro x
      rw [hs.linked]
      constructor
      · rintro ⟨account', y, hne, hx, hy⟩
        exact ⟨account', y, hne, mem_snoc.2 (.inl hx), mem_snoc.2 (.inl hy)⟩
      · rintro ⟨account', y, hne, hx, hy⟩
        rw [mem_snoc] at hx hy
        obtain hx | ⟨rfl, rfl⟩ := hx
        · obtain hy | ⟨rfl, rfl⟩ := hy
          · exact ⟨account', y, hne, hx, hy⟩
          · exact absurd hx (hfresh x)
        · obtain hy | ⟨-, rfl⟩ := hy
          · exact absurd hy (hfresh y)
          · exact absurd rfl hne
  | some first =>
    have hmem : (account, first) ∈ entries := by
      rw [hs.first, Option.map_eq_some_iff] at hfirst
      obtain ⟨entry, hentry, rfl⟩ := hfirst
      have hkey : entry.1 = account := by simpa using List.find?_some hentry
      exact hkey ▸ List.mem_of_find?_eq_some hentry
    have hne : first ≠ id := by
      rintro rfl
      exact hnew hmem
    obtain ⟨n, parent, hlink, hforest, hsame⟩ := link_eqvGen hs.forest hs.same id first
    refine ⟨n, { s with
      parent := parent
      linked := first :: id :: s.linked }, ?_, hforest, ?_, ?_, ?_⟩
    · intro fuel hfuel
      simp only [addAccount, hfirst, hlink fuel hfuel, Option.bind_eq_bind, Option.bind_some]
    · exact fun x y => (hsame x y).trans (eqvGen_shares_snoc hmem x y)
    · intro account'
      rw [find_snoc, ← hs.first]
      by_cases h : account = account'
      · subst h
        simp [hfirst]
      · simp [h]
    · intro x
      rw [List.mem_cons, List.mem_cons, hs.linked]
      constructor
      · rintro (rfl | rfl | ⟨account', y, hyx, hx, hy⟩)
        · exact ⟨account, id, hne.symm, mem_snoc.2 (.inl hmem), mem_snoc.2 (.inr ⟨rfl, rfl⟩)⟩
        · exact ⟨account, first, hne, mem_snoc.2 (.inr ⟨rfl, rfl⟩), mem_snoc.2 (.inl hmem)⟩
        · exact ⟨account', y, hyx, mem_snoc.2 (.inl hx), mem_snoc.2 (.inl hy)⟩
      · rintro ⟨account', y, hyx, hx, hy⟩
        rw [mem_snoc] at hx hy
        obtain hx | ⟨rfl, rfl⟩ := hx
        · obtain hy | ⟨rfl, rfl⟩ := hy
          · exact .inr (.inr ⟨account', y, hyx, hx, hy⟩)
          · by_cases hxf : x = first
            · exact .inl hxf
            · exact .inr (.inr ⟨account', first, fun h => hxf h.symm, hx, hmem⟩)
        · exact .inr (.inl rfl)

/-- All accounts, one after another. -/
theorem entries_spec (rest : Entries) {entries : Entries} {s : DuplicateLinks}
    (hs : s.Says entries) (hnodup : (entries ++ rest).Nodup) :
    ∃ n t, (∀ fuel, n ≤ fuel →
        rest.foldlM (fun s entry => addAccount fuel entry.2 s entry.1) s = some t) ∧
      t.Says (entries ++ rest) := by
  induction rest generalizing entries s with
  | nil => exact ⟨0, s, fun _ _ => rfl, by simpa using hs⟩
  | cons entry rest ih =>
    obtain ⟨account, id⟩ := entry
    have hnew : (account, id) ∉ entries := by
      intro hmem
      exact (List.nodup_append.1 hnodup).2.2 _ hmem _ List.mem_cons_self rfl
    obtain ⟨n, u, hadd, hu⟩ := addAccount_says hs hnew
    obtain ⟨m, t, hfold, ht⟩ := ih hu (by simpa using hnodup)
    refine ⟨max n m, t, ?_, by simpa using ht⟩
    intro fuel hfuel
    rw [List.foldlM_cons, hadd fuel (by omega)]
    exact hfold fuel (by omega)

/-! ### Logins for one account -/

/-- The platform's host names have no line feed. -/
def HostsOnOneLine (URL : UrlParser) : Prop :=
  ∀ text url, URL text = some url → '\n' ∉ url.hostname

/-- Two logins with the same normalised account name and a shared website host. -/
def Duplicates (r s : DecryptedRecord) : Prop :=
  ∃ name host, accountName M r.toRecordData = some name ∧ accountName M s.toRecordData = some name ∧
    host ∈ loginHosts M.URL r.toRecordData ∧ host ∈ loginHosts M.URL s.toRecordData

/-- The closure of `Duplicates` in a list of records. -/
def Connected (records : List DecryptedRecord) : DecryptedRecord → DecryptedRecord → Prop :=
  EqvGen fun r s => r ∈ records ∧ s ∈ records ∧ Duplicates M r s

/-- The accounts a record is a login for, one for each host. -/
def accountsOf (record : DecryptedRecord) : List Text :=
  match accountName M record.toRecordData with
  | none => []
  | some username =>
    (loginHosts M.URL record.toRecordData).eraseDups.map (accountKey username)

def entriesOf (records : List DecryptedRecord) : Entries :=
  records.flatMap fun record => (accountsOf M record).map (·, record.recordId)

theorem nodup_eraseDups {α : Type} [BEq α] [LawfulBEq α] (as : List α) : as.eraseDups.Nodup := by
  induction h : as.length using Nat.strong_induction_on generalizing as with
  | _ n ih =>
    cases as with
    | nil => exact List.nodup_nil
    | cons a as =>
      rw [List.eraseDups_cons]
      refine List.nodup_cons.2 ⟨?_, ih _ ?_ _ rfl⟩
      · simp [List.mem_eraseDups]
      · rw [← h, List.length_cons]
        exact Nat.lt_succ_of_le (List.length_filter_le _ _)

theorem nodup_accountsOf (record : DecryptedRecord) : (accountsOf M record).Nodup := by
  unfold accountsOf
  split
  · exact List.nodup_nil
  · rename_i username _
    have hinj : Function.Injective (accountKey username) := by
      intro host host' h
      exact (List.cons.inj (List.append_cancel_left h)).2
    exact (nodup_eraseDups _).map hinj

theorem mem_entriesOf {records : List DecryptedRecord} {account : Text} {x : RecordId} :
    (account, x) ∈ entriesOf M records ↔
      ∃ r ∈ records, r.recordId = x ∧ account ∈ accountsOf M r := by
  simp only [entriesOf, List.mem_flatMap, List.mem_map, Prod.mk.injEq]
  constructor
  · rintro ⟨r, hr, account', haccount, rfl, rfl⟩
    exact ⟨r, hr, rfl, haccount⟩
  · rintro ⟨r, hr, rfl, haccount⟩
    exact ⟨r, hr, account, haccount, rfl, rfl⟩

theorem nodup_entriesOf {records : List DecryptedRecord}
    (hids : (records.map (·.recordId)).Nodup) : (entriesOf M records).Nodup := by
  refine List.nodup_flatMap.2 ⟨?_, ?_⟩
  · intro r _
    exact (nodup_accountsOf M r).map fun _ _ h => (Prod.mk.inj h).1
  · refine (List.pairwise_map.1 hids).imp ?_
    intro r s hne entry hr hs
    obtain ⟨_, _, rfl⟩ := List.mem_map.1 hr
    obtain ⟨_, _, heq⟩ := List.mem_map.1 hs
    exact hne (Prod.mk.inj heq).2.symm

/-- The records are gone through account by account. -/
theorem foldlM_addRecord (fuel : ℕ) (records : List DecryptedRecord) (s : DuplicateLinks) :
    records.foldlM (addRecord M fuel) s =
      (entriesOf M records).foldlM (fun s entry => addAccount fuel entry.2 s entry.1) s := by
  have hrecord : ∀ (r : DecryptedRecord) s, addRecord M fuel s r =
      ((accountsOf M r).map (·, r.recordId)).foldlM
        (fun s entry => addAccount fuel entry.2 s entry.1) s := by
    intro r s
    unfold addRecord accountsOf
    cases accountName M r.toRecordData with
    | none => rfl
    | some username => simp only [List.map_map, List.foldlM_map, Function.comp_def]
  induction records generalizing s with
  | nil => rfl
  | cons r records ih =>
    have hcons : entriesOf M (r :: records) =
        (accountsOf M r).map (·, r.recordId) ++ entriesOf M records := rfl
    rw [List.foldlM_cons, hrecord, hcons, List.foldlM_append]
    exact congrArg _ (funext ih)

theorem newline_notMem_host {M : MonitorRuntime} (hlines : HostsOnOneLine M.URL)
    {record : RecordData} {host : Text} (h : host ∈ loginHosts M.URL record) : '\n' ∉ host := by
  unfold loginHosts at h
  split at h
  · obtain ⟨value, -, hhost⟩ := List.mem_filterMap.1 h
    obtain ⟨url, parsed, hparsed, rfl, -⟩ := websiteHost_eq_some M.URL hhost
    exact fun hmem => hlines url parsed hparsed (withoutWww_subset _ hmem)
  · exact absurd h List.not_mem_nil

/-- Two records have one account exactly where they are logins for one account. -/
theorem duplicates_iff {M : MonitorRuntime} (hlines : HostsOnOneLine M.URL)
    {r s : DecryptedRecord} :
    Duplicates M r s ↔ ∃ account, account ∈ accountsOf M r ∧ account ∈ accountsOf M s := by
  have hmem : ∀ {t : DecryptedRecord} {account : Text}, account ∈ accountsOf M t ↔
      ∃ name host, accountName M t.toRecordData = some name ∧
        host ∈ loginHosts M.URL t.toRecordData ∧ account = accountKey name host := by
    intro t account
    unfold accountsOf
    cases accountName M t.toRecordData with
    | none => simp
    | some name => simp [List.mem_eraseDups, eq_comm]
  constructor
  · rintro ⟨name, host, hr, hs, hhost, hhost'⟩
    exact ⟨_, hmem.2 ⟨name, host, hr, hhost, rfl⟩, hmem.2 ⟨name, host, hs, hhost', rfl⟩⟩
  · rintro ⟨account, hr, hs⟩
    obtain ⟨name, host, hname, hhost, rfl⟩ := hmem.1 hr
    obtain ⟨name', host', hname', hhost', heq⟩ := hmem.1 hs
    obtain ⟨rfl, rfl⟩ := Separators.last_inj (newline_notMem_host hlines hhost)
      (newline_notMem_host hlines hhost') heq
    exact ⟨name, host, hname, hname', hhost, hhost'⟩

section Records

variable {M} {records : List DecryptedRecord} (hlines : HostsOnOneLine M.URL)
  (hids : (records.map (·.recordId)).Nodup)

include hids in
theorem eq_of_recordId_eq {r s : DecryptedRecord} (hr : r ∈ records) (hs : s ∈ records)
    (h : r.recordId = s.recordId) : r = s :=
  List.inj_on_of_nodup_map hids hr hs h

include hlines in
theorem shares_entriesOf {x y : RecordId} :
    Shares (entriesOf M records) x y ↔
      ∃ r ∈ records, ∃ s ∈ records, r.recordId = x ∧ s.recordId = y ∧ Duplicates M r s := by
  simp only [Shares, mem_entriesOf, duplicates_iff hlines]
  constructor
  · rintro ⟨account, ⟨r, hr, hx, hra⟩, s, hs, hy, hsa⟩
    exact ⟨r, hr, s, hs, hx, hy, account, hra, hsa⟩
  · rintro ⟨r, hr, s, hs, hx, hy, account, hra, hsa⟩
    exact ⟨account, ⟨r, hr, hx, hra⟩, s, hs, hy, hsa⟩

include hlines in
theorem shares_of_connected {r s : DecryptedRecord} (h : Connected M records r s) :
    EqvGen (Shares (entriesOf M records)) r.recordId s.recordId := by
  induction h with
  | rel r s h =>
    obtain ⟨hr, hs, hdup⟩ := h
    exact .rel _ _ ((shares_entriesOf hlines).2 ⟨r, hr, s, hs, rfl, rfl, hdup⟩)
  | refl r => exact .refl _
  | symm r s _ ih => exact .symm _ _ ih
  | trans r s t _ _ hrs hst => exact .trans _ _ _ hrs hst

include hlines hids in
/-- Ids the accounts connect are one id, or those of connected records. -/
theorem connected_of_shares {x y : RecordId} (h : EqvGen (Shares (entriesOf M records)) x y) :
    x = y ∨ ∃ r ∈ records, ∃ s ∈ records, r.recordId = x ∧ s.recordId = y ∧
      Connected M records r s := by
  induction h with
  | rel x y h =>
    obtain ⟨r, hr, s, hs, hx, hy, hdup⟩ := (shares_entriesOf hlines).1 h
    exact .inr ⟨r, hr, s, hs, hx, hy, .rel _ _ ⟨hr, hs, hdup⟩⟩
  | refl x => exact .inl rfl
  | symm x y _ ih =>
    obtain rfl | ⟨r, hr, s, hs, hx, hy, hrs⟩ := ih
    · exact .inl rfl
    · exact .inr ⟨s, hs, r, hr, hy, hx, .symm _ _ hrs⟩
  | trans x y z _ _ hxy hyz =>
    obtain rfl | ⟨r, hr, s, hs, hx, hy, hrs⟩ := hxy
    · exact hyz
    · obtain rfl | ⟨s', hs', t, ht, hy', hz, hst⟩ := hyz
      · exact .inr ⟨r, hr, s, hs, hx, hy, hrs⟩
      · obtain rfl := eq_of_recordId_eq hids hs hs' (hy.trans hy'.symm)
        exact .inr ⟨r, hr, t, ht, hx, hz, .trans _ _ _ hrs hst⟩

include hlines hids in
/-- Records are connected exactly where their ids are. -/
theorem connected_iff {r s : DecryptedRecord} (hr : r ∈ records) (hs : s ∈ records) :
    EqvGen (Shares (entriesOf M records)) r.recordId s.recordId ↔ Connected M records r s := by
  refine ⟨fun h => ?_, shares_of_connected hlines⟩
  obtain heq | ⟨r', hr', s', hs', hx, hy, hrs⟩ := connected_of_shares hlines hids h
  · rw [eq_of_recordId_eq hids hr hs heq]
    exact .refl _
  · obtain rfl := eq_of_recordId_eq hids hr' hr hx
    obtain rfl := eq_of_recordId_eq hids hs' hs hy
    exact hrs

include hlines hids in
/-- A login is linked exactly where another login is for the same account. -/
theorem linked_iff {links : DuplicateLinks} (hlinks : links.Says (entriesOf M records))
    {r : DecryptedRecord} (hr : r ∈ records) :
    r.recordId ∈ links.linked ↔ ∃ s ∈ records, s ≠ r ∧ Duplicates M r s := by
  rw [hlinks.linked]
  constructor
  · rintro ⟨account, y, hne, hx, hy⟩
    obtain ⟨r', hr', s, hs, hx, hy, hdup⟩ := (shares_entriesOf hlines).1 ⟨account, hx, hy⟩
    obtain rfl := eq_of_recordId_eq hids hr' hr hx
    refine ⟨s, hs, ?_, hdup⟩
    rintro rfl
    exact hne hy.symm
  · rintro ⟨s, hs, hne, hdup⟩
    obtain ⟨account, hx, hy⟩ := (shares_entriesOf hlines).2 ⟨r, hr, s, hs, rfl, rfl, hdup⟩
    exact ⟨account, s.recordId, fun h => hne (eq_of_recordId_eq hids hs hr h), hx, hy⟩

include hlines hids in
/-- Two connected records are linked both. -/
theorem linked_of_connected {links : DuplicateLinks} (hlinks : links.Says (entriesOf M records))
    {r s : DecryptedRecord} (h : Connected M records r s) :
    r = s ∨ r.recordId ∈ links.linked ∧ s.recordId ∈ links.linked := by
  induction h with
  | rel r s h =>
    obtain ⟨hr, hs, hdup⟩ := h
    by_cases heq : r = s
    · exact .inl heq
    · have hsymm : Duplicates M s r := by
        obtain ⟨name, host, hname, hname', hhost, hhost'⟩ := hdup
        exact ⟨name, host, hname', hname, hhost', hhost⟩
      exact .inr ⟨(linked_iff hlines hids hlinks hr).2 ⟨s, hs, fun h => heq h.symm, hdup⟩,
        (linked_iff hlines hids hlinks hs).2 ⟨r, hr, heq, hsymm⟩⟩
  | refl r => exact .inl rfl
  | symm r s _ ih => exact ih.imp Eq.symm And.symm
  | trans r s t _ _ hrs hst =>
    obtain rfl | hrs := hrs
    · exact hst
    · obtain rfl | hst := hst
      · exact .inr hrs
      · exact .inr ⟨hrs.1, hst.2⟩

end Records

/-! ### The groups -/

/-- The second loop groups the linked records by their roots. -/
theorem addToGroups_spec {linked : List RecordId} (rootOf : RecordId → RecordId)
    (records : List DecryptedRecord) {p : Parents RecordId} (hp : ∀ x, RootOf p x (rootOf x))
    (groups : List (RecordId × List DecryptedRecord)) :
    ∃ n q, ∀ fuel, n ≤ fuel → records.foldlM (addToGroups fuel linked) (p, groups) =
      some (q, (records.filter (·.recordId ∈ linked)).foldl
        (GroupBy.add fun r => rootOf r.recordId) groups) := by
  induction records generalizing p groups with
  | nil => exact ⟨0, p, fun _ _ => rfl⟩
  | cons r records ih =>
    by_cases hlinked : r.recordId ∈ linked
    · obtain ⟨n, p', hfind, hkeep⟩ := find_spec (hp r.recordId)
      obtain ⟨m, q, hfold⟩ := ih (fun x => hkeep x _ (hp x))
        (GroupBy.add (fun r => rootOf r.recordId) groups r)
      refine ⟨max n m, q, ?_⟩
      intro fuel hfuel
      have hadd := GroupBy.add_const (fun r : DecryptedRecord => rootOf r.recordId) groups r
      have hstep : addToGroups fuel linked (p, groups) r =
          some (p', GroupBy.add (fun r => rootOf r.recordId) groups r) := by
        simp only [addToGroups, hlinked, not_true_eq_false, if_false, root,
          hfind fuel (by omega), Option.bind_eq_bind, Option.bind_some, hadd]
      rw [List.foldlM_cons, hstep, List.filter_cons_of_pos (by simpa using hlinked)]
      exact hfold fuel (by omega)
    · obtain ⟨m, q, hfold⟩ := ih hp groups
      refine ⟨m, q, ?_⟩
      intro fuel hfuel
      have hstep : addToGroups fuel linked (p, groups) r = some (p, groups) := by
        simp only [addToGroups, hlinked, not_false_eq_true, if_true]
      rw [List.foldlM_cons, hstep, List.filter_cons_of_neg (by simpa using hlinked)]
      exact hfold fuel hfuel

/-- A group is one set's records, all of them. -/
theorem toGroup_spec {records : List DecryptedRecord} {group : MonitorGroup}
    (h : toGroup M records = some group) :
    group.records.Perm records ∧ ∃ r ∈ records, r.recordId = group.id := by
  obtain ⟨first, hfirst, rfl⟩ := Option.map_eq_some_iff.1 h
  have hperm := List.mergeSort_perm records fun a b => decide (byTitle M a b ≤ 0)
  exact ⟨hperm, first, hperm.subset (List.mem_of_mem_head? hfirst), rfl⟩

theorem toGroup_isSome {records : List DecryptedRecord} (h : 1 < records.length) :
    (toGroup M records).isSome := by
  unfold toGroup
  rw [Option.isSome_map, List.isSome_head?]
  intro hnil
  have hlen := (List.mergeSort_perm records fun a b => decide (byTitle M a b ≤ 0)).length_eq
  rw [hnil, List.length_nil] at hlen
  omega

/-- What is said of the groups of a list of records: each is a component of two logins or more,
each such component is one of them, and none shares a record with another. -/
structure Components (records : List DecryptedRecord) (groups : List MonitorGroup) : Prop where
  two : ∀ group ∈ groups, 2 ≤ group.records.length ∧ group.records.Nodup
  id : ∀ group ∈ groups, ∃ r ∈ group.records, r.recordId = group.id
  exact : ∀ group ∈ groups, ∀ r ∈ group.records, r ∈ records ∧
    ∀ s, s ∈ group.records ↔ s ∈ records ∧ Connected M records r s
  all : ∀ r ∈ records, ∀ s ∈ records, r ≠ s → Connected M records r s →
    ∃ group ∈ groups, r ∈ group.records
  disjoint : groups.Pairwise fun group other => group.records.Disjoint other.records

theorem one_lt_length_of_ne {α : Type} {as : List α} {a b : α} (ha : a ∈ as) (hb : b ∈ as)
    (hne : a ≠ b) : 1 < as.length := by
  match as with
  | [] => exact absurd ha List.not_mem_nil
  | [c] => exact absurd ((List.mem_singleton.1 ha).trans (List.mem_singleton.1 hb).symm) hne
  | _ :: _ :: as => simp

theorem exists_ne_of_nodup {α : Type} {as : List α} (hnodup : as.Nodup) (hlen : 2 ≤ as.length) :
    ∃ a ∈ as, ∃ b ∈ as, a ≠ b := by
  match as with
  | [] | [_] => simp at hlen
  | a :: b :: as =>
    refine ⟨a, List.mem_cons_self, b, List.mem_cons_of_mem _ List.mem_cons_self, ?_⟩
    rintro rfl
    exact (List.nodup_cons.1 hnodup).1 List.mem_cons_self

theorem mem_toGroups {sets : List (List DecryptedRecord)} {group : MonitorGroup} :
    group ∈ toGroups M sets ↔
      ∃ set ∈ sets, 1 < set.length ∧ toGroup M set = some group := by
  unfold toGroups
  rw [List.mem_mergeSort, List.mem_filterMap]
  simp only [List.mem_filter, decide_eq_true_eq, and_assoc]

theorem disjoint_toGroups {sets : List (List DecryptedRecord)} (h : sets.Pairwise List.Disjoint) :
    (toGroups M sets).Pairwise fun group other => group.records.Disjoint other.records := by
  have hsymm : ∀ {group other : MonitorGroup}, group.records.Disjoint other.records →
      other.records.Disjoint group.records := fun h => h.symm
  refine ((List.mergeSort_perm _ _).pairwise_iff hsymm).2 ?_
  refine (h.filter _).filterMap _ ?_
  intro set set' hdisjoint group hgroup group' hgroup' r hr hr'
  exact hdisjoint ((toGroup_spec M hgroup).1.subset hr) ((toGroup_spec M hgroup').1.subset hr')

/-- The lists of two keys have nothing in common. -/
theorem disjoint_groupBy {κ : Type} [DecidableEq κ] (key : DecryptedRecord → κ)
    (records : List DecryptedRecord) :
    ((GroupBy.groupBy key records).map (·.2)).Pairwise List.Disjoint := by
  refine List.pairwise_map.2
    ((List.pairwise_map.1 (GroupBy.nodup_keys key records)).imp_of_mem ?_)
  rintro ⟨k, items⟩ ⟨k', items'⟩ hgroup hgroup' hne r hr hr'
  obtain ⟨rfl, -⟩ := (GroupBy.mem_groupBy key).1 hgroup
  obtain ⟨rfl, -⟩ := (GroupBy.mem_groupBy key).1 hgroup'
  exact hne (((GroupBy.mem_group key).1 hr).2.symm.trans ((GroupBy.mem_group key).1 hr').2)

section Records

variable {M} {records : List DecryptedRecord} (hlines : HostsOnOneLine M.URL)
  (hids : (records.map (·.recordId)).Nodup) {links : DuplicateLinks}
  (hlinks : links.Says (entriesOf M records)) {rootOf : RecordId → RecordId}
  (hroot : ∀ x, RootOf links.parent x (rootOf x))

include hlines hids hlinks hroot

/-- Two records have one root exactly where they are connected. -/
theorem rootOf_eq_iff {r s : DecryptedRecord} (hr : r ∈ records) (hs : s ∈ records) :
    rootOf r.recordId = rootOf s.recordId ↔ Connected M records r s := by
  rw [← connected_iff hlines hids hr hs, ← hlinks.same]
  constructor
  · exact fun h => ⟨_, hroot _, h ▸ hroot _⟩
  · rintro ⟨t, ht, ht'⟩
    exact ((hroot _).unique ht).trans ((hroot _).unique ht').symm

/-- The records grouped by their roots are the components. -/
theorem components_toGroups : Components M records (toGroups M
    ((GroupBy.groupBy (fun r : DecryptedRecord => rootOf r.recordId)
      (records.filter (·.recordId ∈ links.linked))).map (·.2))) := by
  set groups := GroupBy.groupBy (fun r : DecryptedRecord => rootOf r.recordId)
    (records.filter (·.recordId ∈ links.linked))
  have hgroups : ∀ k items, (k, items) ∈ groups ↔
      items = (records.filter (·.recordId ∈ links.linked)).filter (rootOf ·.recordId = k) ∧
        items ≠ [] := fun k items => GroupBy.mem_groupBy _
  have hmem : ∀ {r : DecryptedRecord} {k : RecordId},
      r ∈ (records.filter (·.recordId ∈ links.linked)).filter (rootOf ·.recordId = k) ↔
        r ∈ records ∧ r.recordId ∈ links.linked ∧ rootOf r.recordId = k := by
    intro r k
    simp only [List.mem_filter, decide_eq_true_eq, and_assoc]
  have hnodup : records.Nodup := hids.of_map _
  -- a group and the root of its records
  have hset : ∀ group ∈ toGroups M (groups.map (·.2)), ∃ k, 1 < group.records.length ∧
      (∃ r ∈ group.records, r.recordId = group.id) ∧ group.records.Perm
        ((records.filter (·.recordId ∈ links.linked)).filter (rootOf ·.recordId = k)) := by
    intro group hgroup
    obtain ⟨set, hset, hlen, hspec⟩ := (mem_toGroups M).1 hgroup
    obtain ⟨⟨k, items⟩, hitems, rfl⟩ := List.mem_map.1 hset
    obtain ⟨rfl, -⟩ := (hgroups _ _).1 hitems
    obtain ⟨hperm, r, hr, hid⟩ := toGroup_spec M hspec
    exact ⟨k, hperm.length_eq ▸ hlen, ⟨r, hperm.mem_iff.2 hr, hid⟩, hperm⟩
  refine ⟨?_, ?_, ?_, ?_, disjoint_toGroups M (disjoint_groupBy _ _)⟩
  · intro group hgroup
    obtain ⟨k, hlen, -, hperm⟩ := hset group hgroup
    exact ⟨hlen, hperm.nodup_iff.2 ((hnodup.filter _).filter _)⟩
  · intro group hgroup
    obtain ⟨k, -, hid, -⟩ := hset group hgroup
    exact hid
  · intro group hgroup r hr
    obtain ⟨k, -, -, hperm⟩ := hset group hgroup
    obtain ⟨hrecord, hlinked, rfl⟩ := hmem.1 (hperm.mem_iff.1 hr)
    refine ⟨hrecord, fun s => ?_⟩
    rw [hperm.mem_iff, hmem]
    constructor
    · rintro ⟨hs, -, heq⟩
      exact ⟨hs, (rootOf_eq_iff hlines hids hlinks hroot hrecord hs).1 heq.symm⟩
    · rintro ⟨hs, hconnected⟩
      refine ⟨hs, ?_, ((rootOf_eq_iff hlines hids hlinks hroot hrecord hs).2 hconnected).symm⟩
      obtain rfl | ⟨-, h⟩ := linked_of_connected hlines hids hlinks hconnected
      · exact hlinked
      · exact h
  · intro r hr s hs hne hconnected
    obtain heq | ⟨hlinked, hlinked'⟩ := linked_of_connected hlines hids hlinks hconnected
    · exact absurd heq hne
    have hr' := (hmem (k := rootOf r.recordId)).2 ⟨hr, hlinked, rfl⟩
    have hs' := (hmem (k := rootOf r.recordId)).2 ⟨hs, hlinked',
      ((rootOf_eq_iff hlines hids hlinks hroot hr hs).2 hconnected).symm⟩
    have hlen := one_lt_length_of_ne hr' hs' hne
    obtain ⟨group, hgroup⟩ := Option.isSome_iff_exists.1 (toGroup_isSome M hlen)
    refine ⟨group, (mem_toGroups M).2 ⟨_, List.mem_map_of_mem ((hgroups _ _).2
      ⟨rfl, List.ne_nil_of_mem hr'⟩), hlen, hgroup⟩, ?_⟩
    exact (toGroup_spec M hgroup).1.mem_iff.2 hr'

end Records

/-- The code returns, with the components. -/
theorem findDuplicateLogins_spec {M : MonitorRuntime} (hlines : HostsOnOneLine M.URL)
    {records : List DecryptedRecord} (hids : (records.map (·.recordId)).Nodup) :
    ∃ groups, (∃ n, ∀ fuel, n ≤ fuel → findDuplicateLogins M fuel records = some groups) ∧
      Components M records groups := by
  obtain ⟨n, links, hfold, hlinks⟩ := entries_spec (entriesOf M records) says_empty
    (by simpa using nodup_entriesOf M hids)
  rw [List.nil_append] at hlinks
  choose rootOf hroot using hlinks.forest
  obtain ⟨m, q, hgroups⟩ := @addToGroups_spec links.linked rootOf records _ hroot []
  refine ⟨_, ⟨max n m, ?_⟩, components_toGroups hlines hids hlinks hroot⟩
  intro fuel hfuel
  rw [findDuplicateLogins, foldlM_addRecord, hfold fuel (by omega)]
  simp only [Option.bind_eq_bind, Option.bind_some, hgroups fuel (by omega)]
  rfl

/-- Components do not depend on the order of the list. -/
theorem Components.perm {M : MonitorRuntime} {records records' : List DecryptedRecord}
    {groups groups' : List MonitorGroup} (h : Components M records groups)
    (h' : Components M records' groups') (hperm : records'.Perm records) :
    ∀ group ∈ groups, ∃ group' ∈ groups', group'.records.Perm group.records := by
  have hconnected : Connected M records' = Connected M records := by
    unfold Connected
    congr 1
    funext r s
    rw [hperm.mem_iff, hperm.mem_iff]
  intro group hgroup
  obtain ⟨hlen, hnodup⟩ := h.two group hgroup
  obtain ⟨r, hr, s, hs, hne⟩ := exists_ne_of_nodup hnodup hlen
  obtain ⟨hrecord, hexact⟩ := h.exact group hgroup r hr
  obtain ⟨hrecord', hrs⟩ := (hexact s).1 hs
  obtain ⟨group', hgroup', hr'⟩ := h'.all r (hperm.mem_iff.2 hrecord) s (hperm.mem_iff.2 hrecord')
    hne (hconnected ▸ hrs)
  refine ⟨group', hgroup', (List.perm_ext_iff_of_nodup (h'.two group' hgroup').2 hnodup).2 ?_⟩
  intro t
  rw [hexact t, ((h'.exact group' hgroup' r hr').2 t), hconnected, hperm.mem_iff]

/-! ### The law -/

/-- **Duplicate logins are the connected components.**  In any order of the records, with distinct
ids: the code returns, the groups are the components of `Duplicates` with two logins or more, and
another order gives groups of the same records.  After every sequence of links every search for a
root ends. -/
theorem findDuplicateLogins_components {M : MonitorRuntime} (hlines : HostsOnOneLine M.URL)
    {records : List DecryptedRecord} (hids : (records.map (·.recordId)).Nodup) :
    (∃ groups, (∃ n, ∀ fuel, n ≤ fuel → findDuplicateLogins M fuel records = some groups) ∧
      Components M records groups ∧
      ∀ records' : List DecryptedRecord, records'.Perm records →
        ∃ groups', (∃ n, ∀ fuel, n ≤ fuel → findDuplicateLogins M fuel records' = some groups') ∧
          (∀ group ∈ groups, ∃ group' ∈ groups', group'.records.Perm group.records) ∧
          ∀ group' ∈ groups', ∃ group ∈ groups, group.records.Perm group'.records) ∧
    ∀ links : List (RecordId × RecordId), ∃ n parent,
      (∀ fuel, n ≤ fuel → linkAll fuel (fun _ => none) links = some parent) ∧
      ∀ id, ∃ m top after, ∀ fuel, m ≤ fuel → root fuel parent id = some (top, after) := by
  refine ⟨?_, ?_⟩
  · obtain ⟨groups, hreturns, hgroups⟩ := findDuplicateLogins_spec hlines hids
    refine ⟨groups, hreturns, hgroups, fun records' hperm => ?_⟩
    have hids' : (records'.map (·.recordId)).Nodup := (hperm.map _).nodup_iff.2 hids
    obtain ⟨groups', hreturns', hgroups'⟩ := findDuplicateLogins_spec hlines hids'
    exact ⟨groups', hreturns', hgroups.perm hgroups' hperm, hgroups'.perm hgroups hperm.symm⟩
  · intro links
    obtain ⟨n, parent, hlinks, hforest, -⟩ := linkAll_spec links forest_empty
      (R := fun x y : RecordId => x = y) fun _ _ => same_empty fun _ _ h => h
    refine ⟨n, parent, hlinks, fun id => ?_⟩
    obtain ⟨top, htop⟩ := hforest id
    obtain ⟨m, after, hfind, -⟩ := find_spec htop
    exact ⟨m, top, after, hfind⟩

/-- Two logins for one account. -/
theorem findDuplicateLogins_components_sharedAccount :
    let site : Text := "https://github.com".toList
    let M : MonitorRuntime :=
      { lowerCase := (·.map Char.toLower)
        localeCompare := fun a b => if a = b then 0 else if a < b then -1 else 1
        URL := fun text =>
          if text = site then some ⟨"https:".toList, "github.com".toList⟩ else none }
    let login (id : RecordId) (username : String) : DecryptedRecord :=
      { title := username.toList
        data := .login { username := some username.toList, websites := some [site] }
        recordId := id
        version := 1
        clientUpdatedAt := [] }
    let records := [login 1 "Jana ", login 2 "jana", login 3 "bob"]
    (HostsOnOneLine M.URL ∧ (records.map (·.recordId)).Nodup) ∧
      ∃ groups, (∃ n, ∀ fuel, n ≤ fuel → findDuplicateLogins M fuel records = some groups) ∧
        Components M records groups := by
  intro site M login records
  have hlines : HostsOnOneLine M.URL := by
    intro text url h
    obtain ⟨-, heq⟩ := Option.ite_none_right_eq_some.1 h
    obtain rfl := Option.some.inj heq
    decide
  have hids : (records.map (·.recordId)).Nodup := by decide
  obtain ⟨⟨groups, hreturns, hgroups, -⟩, -⟩ := findDuplicateLogins_components hlines hids
  exact ⟨⟨hlines, hids⟩, groups, hreturns, hgroups⟩

end Passmgr
