/-
# What pass one of a push decides and plans

Pass one never fails as a whole, and what it leaves behind is a function of the chains: the answers
it gives at once, the versions it plans and which chains the storage budget lets through.

Main definitions:

* `Passes` — a chain none of whose changes fails, from a head;
* `plannedFrom`, `answersAtOnce` — what is planned of a decided chain, and what is answered;
* `judged` — the chains with the verdict of the storage budget;
* `IsVersionOf`, `Extends` — what a planned version takes from its change and from its head.

Main results:

* `decideChain_cases` — a chain passes as a whole or plans nothing;
* `passOne_eq` — pass one in closed form;
* `forall₂_plannedFrom`, `map_version_plannedFrom`, `extends_plannedFrom` — the planned versions
  are those of the changes to append, in order, without gaps.
-/

import Passmgr.Push

set_option relaxedAutoImplicit false
set_option autoImplicit false

namespace Passmgr

/-! ### Assigning results -/

/-- `results[index] = result`, one after the other. -/
def Results.setAll (results : Results) (answers : List (ℕ × PushResult)) : Results :=
  answers.foldl (fun results a => results.set a.1 a.2) results

@[simp] theorem Results.setAll_nil (results : Results) : results.setAll [] = results := rfl

@[simp] theorem Results.setAll_cons (results : Results) (a : ℕ × PushResult)
    (answers : List (ℕ × PushResult)) :
    results.setAll (a :: answers) = (results.set a.1 a.2).setAll answers := rfl

theorem Results.setAll_append (results : Results) (as bs : List (ℕ × PushResult)) :
    results.setAll (as ++ bs) = (results.setAll as).setAll bs := by
  simp [Results.setAll, List.foldl_append]

/-- An index nothing is assigned to keeps what it has. -/
theorem Results.setAll_of_notMem (results : Results) {answers : List (ℕ × PushResult)} {i : ℕ}
    (h : i ∉ answers.map Prod.fst) : results.setAll answers i = results i := by
  induction answers generalizing results with
  | nil => rfl
  | cons a answers ih =>
      rw [List.map_cons, List.mem_cons, not_or] at h
      rw [Results.setAll_cons, ih _ h.2, Results.set, if_neg h.1]

/-- An index something is assigned to ends with one of its assignments. -/
theorem Results.setAll_of_mem (results : Results) {answers : List (ℕ × PushResult)} {i : ℕ}
    (h : i ∈ answers.map Prod.fst) :
    ∃ result, (i, result) ∈ answers ∧ results.setAll answers i = some result := by
  induction answers generalizing results with
  | nil => simp at h
  | cons a answers ih =>
      by_cases hrest : i ∈ answers.map Prod.fst
      · obtain ⟨result, hmem, hset⟩ := ih (results.set a.1 a.2) hrest
        exact ⟨result, List.mem_cons_of_mem a hmem, hset⟩
      · have hi : i = a.1 := by
          rw [List.map_cons, List.mem_cons] at h
          exact h.resolve_right hrest
        refine ⟨a.2, by rw [hi]; exact List.mem_cons_self, ?_⟩
        rw [Results.setAll_cons, Results.setAll_of_notMem _ hrest, Results.set, if_pos hi]

/-! ### Deciding a chain -/

/-- Compare-and-swap lets a change through on a head. -/
def OnHead (change : PushChange) : Option SimulatedHead → Prop
  | none => change.op.isPut = true ∧ change.baseVersion = 0
  | some head => head.vaultId = change.vaultId ∧ change.baseVersion = head.version

theorem decideOnHead_eq_append {change : PushChange} {head : Option SimulatedHead}
    {dbHeadVersion : ℕ} :
    decideOnHead change head dbHeadVersion = .append ↔ OnHead change head := by
  cases head with
  | none =>
      cases hput : change.op.isPut with
      | false => simp [decideOnHead, OnHead, hput]
      | true => by_cases hb : change.baseVersion = 0 <;> simp [decideOnHead, OnHead, hput, hb]
  | some head =>
      by_cases hv : head.vaultId = change.vaultId
      · by_cases hb : change.baseVersion = head.version <;> simp [decideOnHead, OnHead, hv, hb]
      · simp [decideOnHead, OnHead, hv]

theorem decideOnHead_ne_stored {change : PushChange} {head : Option SimulatedHead}
    {dbHeadVersion : ℕ} {row : RecordRow} :
    decideOnHead change head dbHeadVersion ≠ .stored row := by
  cases head with
  | none => rw [decideOnHead]; split <;> simp
  | some head =>
      rw [decideOnHead]
      split
      · simp
      · split <;> simp

section Decide

variable (vaults : VaultState) (stored : PushChange → Option RecordRow)

/-- A change the server does not have yet, and which may be appended on the right head. -/
structure Fresh (change : PushChange) : Prop where
  access : vaults.access change.vaultId = some none
  not_stored : stored change = none
  key : underOldKey vaults.keyVersions change = false

/-- A change the server has stored, in the vault it names. -/
structure Retried (change : PushChange) (row : RecordRow) : Prop where
  access : vaults.access change.vaultId = some none
  stored : stored change = some row
  vault : row.vaultId = change.vaultId

variable {vaults stored}

theorem decideChange_eq_append {dbHeadVersion : ℕ} {head : Option SimulatedHead}
    {change : PushChange} :
    decideChange vaults stored dbHeadVersion head change = .append ↔
      Fresh vaults stored change ∧ OnHead change head := by
  constructor
  · intro h
    rw [decideChange] at h
    split at h
    · simp at h
    · next hacc =>
        split at h
        · next row _ => split at h <;> simp at h
        · next hst =>
            split at h
            · simp at h
            · next hkey =>
                refine ⟨⟨?_, hst, by simpa using hkey⟩, decideOnHead_eq_append.1 h⟩
                cases hv : vaults.access change.vaultId with
                | none => simp [hv] at hacc
                | some a => simpa [hv] using hacc
  · rintro ⟨⟨hacc, hst, hkey⟩, hhead⟩
    rw [decideChange, hacc]
    simp only [Option.getD_some]
    rw [hst]
    simp only [hkey, Bool.false_eq_true, if_false]
    exact decideOnHead_eq_append.2 hhead

theorem decideChange_eq_stored {dbHeadVersion : ℕ} {head : Option SimulatedHead}
    {change : PushChange} {row : RecordRow} :
    decideChange vaults stored dbHeadVersion head change = .stored row ↔
      Retried vaults stored change row := by
  constructor
  · intro h
    rw [decideChange] at h
    split at h
    · simp at h
    · next hacc =>
        split at h
        · next row' hst =>
            split at h
            · next hv =>
                obtain rfl : row' = row := by simpa using h
                refine ⟨?_, hst, hv⟩
                cases ha : vaults.access change.vaultId with
                | none => simp [ha] at hacc
                | some a => simpa [ha] using hacc
            · simp at h
        · next hst =>
            split at h
            · simp at h
            · exact absurd h decideOnHead_ne_stored
  · rintro ⟨hacc, hst, hv⟩
    rw [decideChange, hacc]
    simp only [Option.getD_some]
    rw [hst]
    simp [hv]

variable (vaults stored)

/-- A chain none of whose changes fails: each is a retry, or fresh and on the head the changes
before it leave. -/
def Passes : Option SimulatedHead → List (Indexed × Outcome) → Prop
  | _, [] => True
  | head, (x, outcome) :: rest =>
    ((∃ row, outcome = .stored row ∧ Retried vaults stored x.change row) ∨
        (outcome = .append ∧ Fresh vaults stored x.change ∧ OnHead x.change head)) ∧
      Passes (headAfter x.change head outcome) rest

variable {vaults stored}

theorem length_decideEach (dbHeadVersion : ℕ) (head : Option SimulatedHead)
    (chain : List Indexed) :
    (decideEach vaults stored dbHeadVersion head chain).length = chain.length := by
  induction chain generalizing head with
  | nil => rfl
  | cons x chain ih => simp [decideEach, ih]

theorem length_decideChain (dbHead : Option RecordRow) (chain : List Indexed) :
    (decideChain vaults stored dbHead chain).length = chain.length := by
  rw [decideChain]
  split
  · exact length_decideEach _ _ _
  · rw [List.length_map, length_decideEach]

theorem passes_decideEach {dbHeadVersion : ℕ} {head : Option SimulatedHead}
    {chain : List Indexed}
    (h : (decideEach vaults stored dbHeadVersion head chain).findSome? Outcome.failure? = none) :
    Passes vaults stored head
      (chain.zip (decideEach vaults stored dbHeadVersion head chain)) := by
  induction chain generalizing head with
  | nil => trivial
  | cons x chain ih =>
      rw [decideEach, List.findSome?_cons] at h
      split at h
      · simp at h
      · next hx =>
          rw [decideEach, List.zip_cons_cons]
          refine ⟨?_, ih h⟩
          cases ho : decideChange vaults stored dbHeadVersion head x.change with
          | stored row => exact Or.inl ⟨row, rfl, decideChange_eq_stored.1 ho⟩
          | append =>
              obtain ⟨hfresh, hhead⟩ := decideChange_eq_append.1 ho
              exact Or.inr ⟨rfl, hfresh, hhead⟩
          | failed failure => simp [ho, Outcome.failure?] at hx

/-- The head pass one starts a chain from. -/
def simulatedHead (dbHead : Option RecordRow) : Option SimulatedHead :=
  dbHead.map fun row => { version := row.version, vaultId := row.vaultId }

/-- A chain passes as a whole or plans nothing. -/
theorem decideChain_cases (vaults : VaultState) (stored : PushChange → Option RecordRow) (dbHead : Option RecordRow) (chain : List Indexed) :
    Passes vaults stored (simulatedHead dbHead)
        (chain.zip (decideChain vaults stored dbHead chain)) ∨
      ∀ o ∈ decideChain vaults stored dbHead chain, o ≠ .append := by
  rw [decideChain]
  split
  · next h => exact Or.inl (passes_decideEach h)
  · refine Or.inr fun o ho => ?_
    obtain ⟨o', -, rfl⟩ := List.mem_map.1 ho
    cases o' <;> simp [Outcome.failWith]

/-- The outcome of a change comes from a decision on some head, or it is the chain's failure. -/
theorem mem_decideEach {dbHeadVersion : ℕ} {head : Option SimulatedHead} {chain : List Indexed}
    {x : Indexed} {o : Outcome}
    (h : (x, o) ∈ chain.zip (decideEach vaults stored dbHeadVersion head chain)) :
    ∃ head', o = decideChange vaults stored dbHeadVersion head' x.change := by
  induction chain generalizing head with
  | nil => simp at h
  | cons y chain ih =>
      rw [decideEach, List.zip_cons_cons, List.mem_cons] at h
      rcases h with h | h
      · obtain ⟨rfl, rfl⟩ := Prod.mk.inj h
        exact ⟨head, rfl⟩
      · exact ih h

theorem mem_decideChain {dbHead : Option RecordRow} {chain : List Indexed} {x : Indexed}
    {o : Outcome} (h : (x, o) ∈ chain.zip (decideChain vaults stored dbHead chain)) :
    ∃ head', o = decideChange vaults stored (dbHead.elim 0 (·.version)) head' x.change ∨
      ∃ failure, o = Outcome.failWith failure
        (decideChange vaults stored (dbHead.elim 0 (·.version)) head' x.change) := by
  rw [decideChain] at h
  split at h
  · obtain ⟨head', ho⟩ := mem_decideEach h
    exact ⟨head', Or.inl ho⟩
  · next first _ =>
      rw [List.zip_map_right, List.mem_map] at h
      obtain ⟨⟨x', o'⟩, hmem, heq⟩ := h
      obtain ⟨rfl, rfl⟩ := Prod.mk.inj heq
      obtain ⟨head', ho⟩ := mem_decideEach hmem
      exact ⟨head', Or.inr ⟨first, by rw [ho, id]⟩⟩

/-- A change is answered with a stored version exactly when it is a retry of it, whatever the rest
of its chain decides. -/
theorem decideChain_stored {dbHead : Option RecordRow} {chain : List Indexed} {x : Indexed}
    {o : Outcome} (h : (x, o) ∈ chain.zip (decideChain vaults stored dbHead chain))
    (row : RecordRow) : o = .stored row ↔ Retried vaults stored x.change row := by
  obtain ⟨head', rfl | ⟨failure, rfl⟩⟩ := mem_decideChain h
  · exact decideChange_eq_stored
  · have hd : decideChange vaults stored (dbHead.elim 0 (·.version)) head' x.change = .stored row ↔
        Retried vaults stored x.change row := decideChange_eq_stored
    rw [← hd]
    cases decideChange vaults stored (dbHead.elim 0 (·.version)) head' x.change <;>
      simp [Outcome.failWith]

theorem decideChain_append {dbHead : Option RecordRow} {chain : List Indexed} {x : Indexed}
    (h : (x, .append) ∈ chain.zip (decideChain vaults stored dbHead chain)) :
    Fresh vaults stored x.change := by
  obtain ⟨head', ho | ⟨failure, ho⟩⟩ := mem_decideChain h
  · exact (decideChange_eq_append.1 ho.symm).1
  · cases hd : decideChange vaults stored (dbHead.elim 0 (·.version)) head' x.change <;>
      simp [hd, Outcome.failWith] at ho

end Decide

/-! ### Planning a chain -/

section Plan

variable (userId : UserId) (now : Time)

/-- The changes of a decided chain that are to be appended. -/
def appends (pairs : List (Indexed × Outcome)) : List Indexed :=
  (pairs.filter fun p => p.2 = .append).map Prod.fst

/-- The versions planned for a decided chain. -/
def plannedFrom : Option HeadContent → List (Indexed × Outcome) → Appended
  | _, [] => []
  | head, (x, .append) :: rest =>
    match nextVersion userId now x.change head with
    | .ok version => { index := x.index, version := version } :: plannedFrom (some version.head) rest
    | .error _ => []
  | head, _ :: rest => plannedFrom head rest

/-- The answers given at once: failures and retries. -/
def answersAtOnce : List (Indexed × Outcome) → List (ℕ × PushResult)
  | [] => []
  | (x, .failed failure) :: rest =>
    (x.index, failure.result x.change.clientChangeId) :: answersAtOnce rest
  | (x, .stored row) :: rest =>
    (x.index, .applied x.change.clientChangeId (serializeRecord row)) :: answersAtOnce rest
  | (_, .append) :: rest => answersAtOnce rest

/-- A head as pass one has it and as planning has it. -/
def HeadContent.Matches (head : Option HeadContent) (sim : Option SimulatedHead) : Prop :=
  head.map (·.version) = sim.map (·.version)

theorem nextVersion_ok {change : PushChange} {head : Option HeadContent}
    {sim : Option SimulatedHead} (hm : HeadContent.Matches head sim) (hon : OnHead change sim) :
    ∃ version, nextVersion userId now change head = .ok version ∧
      version.version = head.elim 0 (·.version) + 1 := by
  cases hop : change.op with
  | put content => exact ⟨putVersion userId change content head, by simp only [nextVersion, hop], rfl⟩
  | delete kind =>
      cases head with
      | none =>
          -- a delete is never on an empty head
          cases sim with
          | none => simp [OnHead, hop, PushOp.isPut] at hon
          | some sim => simp [HeadContent.Matches] at hm
      | some head =>
          exact ⟨tombstoneVersion userId now change kind head, by simp only [nextVersion, hop], rfl⟩

theorem matches_headAfter {change : PushChange} {head : Option HeadContent}
    {sim : Option SimulatedHead} (hm : HeadContent.Matches head sim) {version : NewVersion}
    (hv : version.version = head.elim 0 (·.version) + 1) :
    HeadContent.Matches (some version.head) (headAfter change sim .append) := by
  have helim : head.elim 0 (·.version) = sim.elim 0 (·.version) := by
    cases head <;> cases sim <;> simp_all [HeadContent.Matches]
  simp [HeadContent.Matches, headAfter, NewVersion.head, hv, helim]

section CarryOut

variable {vaults : VaultState} {stored : PushChange → Option RecordRow}

theorem carryOut_of_passes {head : Option HeadContent} {sim : Option SimulatedHead}
    {pairs : List (Indexed × Outcome)} (hm : HeadContent.Matches head sim)
    (h : Passes vaults stored sim pairs) (results : Results) :
    carryOut userId now head pairs results =
      .ok (results.setAll (answersAtOnce pairs), plannedFrom userId now head pairs) := by
  induction pairs generalizing head sim results with
  | nil => rfl
  | cons p pairs ih =>
      obtain ⟨x, o⟩ := p
      obtain ⟨hx, hrest⟩ := h
      rcases hx with ⟨row, rfl, -⟩ | ⟨rfl, -, hon⟩
      · rw [carryOut, ih hm hrest]
        rfl
      · obtain ⟨version, hok, hv⟩ := nextVersion_ok userId now hm hon
        have hm' : HeadContent.Matches (some version.head) (headAfter x.change sim .append) :=
          matches_headAfter hm hv
        rw [carryOut, plannedFrom, hok]
        simp only [bind, Except.bind]
        rw [ih hm' hrest]
        rfl

theorem carryOut_of_noAppend {head : Option HeadContent} {pairs : List (Indexed × Outcome)}
    (h : ∀ p ∈ pairs, p.2 ≠ .append) (results : Results) :
    carryOut userId now head pairs results =
      .ok (results.setAll (answersAtOnce pairs), []) := by
  induction pairs generalizing results with
  | nil => rfl
  | cons p pairs ih =>
      obtain ⟨x, o⟩ := p
      have hrest : ∀ p ∈ pairs, p.2 ≠ .append := fun p hp => h p (List.mem_cons_of_mem _ hp)
      cases o with
      | append => exact absurd rfl (h _ List.mem_cons_self)
      | stored row => rw [carryOut, ih hrest]; rfl
      | failed failure => rw [carryOut, ih hrest]; rfl

theorem plannedFrom_of_noAppend {head : Option HeadContent} {pairs : List (Indexed × Outcome)}
    (h : ∀ p ∈ pairs, p.2 ≠ .append) : plannedFrom userId now head pairs = [] := by
  induction pairs with
  | nil => rfl
  | cons p pairs ih =>
      obtain ⟨x, o⟩ := p
      have hrest : ∀ p ∈ pairs, p.2 ≠ .append := fun p hp => h p (List.mem_cons_of_mem _ hp)
      cases o with
      | append => exact absurd rfl (h _ List.mem_cons_self)
      | stored row => exact ih hrest
      | failed failure => exact ih hrest

end CarryOut

/-! ### The planned versions -/

/-- What a planned version takes from its change. -/
structure IsVersionOf (x : Indexed) (p : Planned) : Prop where
  index : p.index = x.index
  recordId : p.version.recordId = x.change.recordId
  vaultId : p.version.vaultId = x.change.vaultId
  userId : p.version.userId = userId
  clientChangeId : p.version.clientChangeId = x.change.clientChangeId
  clientUpdatedAt : p.version.clientUpdatedAt = x.change.clientUpdatedAt
  version : p.version.version = x.change.baseVersion + 1
  put : ∀ content, x.change.op = .put content →
    p.version.content = content ∧ p.version.tombstoneKind = none ∧ p.version.deletedAt = none
  delete : ∀ kind, x.change.op = .delete kind →
    p.version.deletedAt = some now ∧ (kind = some .purged → p.version.tombstoneKind = kind)

/-- What a version takes from the one below it, the head it was planned on. -/
structure FollowsHead (head : Option HeadContent) (v : HeadContent) (isTombstone : Bool) :
    Prop where
  next : v.version = head.elim 0 (·.version) + 1
  /-- A purged version has no content. -/
  purged_content : v.tombstoneKind = some .purged →
    v.content.encryptedData = [] ∧ v.content.encryptionNonce = []
  /-- A delete on a purged head is purged. -/
  stays_purged : head.any (fun h => h.tombstoneKind = some .purged) = true →
    isTombstone = true → v.tombstoneKind = some .purged
  /-- Only a tombstone has a kind. -/
  live : isTombstone = false → v.tombstoneKind = none

/-- Versions on top of each other, the first on top of `head`. -/
def Extends : Option HeadContent → List (HeadContent × Bool) → Prop
  | _, [] => True
  | head, (v, isTombstone) :: rest => FollowsHead head v isTombstone ∧ Extends (some v) rest

/-- A planned version as the head of the next one, and whether it is a tombstone. -/
def NewVersion.state (v : NewVersion) : HeadContent × Bool := (v.head, v.deletedAt.isSome)

/-- A stored version as the head of the next one, and whether it is a tombstone. -/
def RecordRow.state (row : RecordRow) : HeadContent × Bool := (row.head, row.deletedAt.isSome)

theorem followsHead_nextVersion {change : PushChange} {head : Option HeadContent}
    {version : NewVersion} (h : nextVersion userId now change head = .ok version) :
    FollowsHead head version.head version.deletedAt.isSome := by
  cases hop : change.op with
  | put content =>
      obtain rfl : putVersion userId change content head = version := by
        simpa [nextVersion, hop] using h
      exact ⟨rfl, by simp [putVersion, NewVersion.head], by simp [putVersion], fun _ => rfl⟩
  | delete kind =>
      cases head with
      | none => simp [nextVersion, hop] at h
      | some head =>
          obtain rfl : tombstoneVersion userId now change kind head = version := by
            simpa [nextVersion, hop] using h
          refine ⟨rfl, ?_, ?_, by simp [tombstoneVersion]⟩
          · intro hk
            have hk' : nextTombstoneKind kind head = some .purged := hk
            simp [tombstoneVersion, NewVersion.head, hk', Ciphertext.purged]
          · intro hhead _
            have hhead' : head.tombstoneKind = some .purged := by simpa using hhead
            simp [tombstoneVersion, NewVersion.head, nextTombstoneKind, hhead']

theorem isVersionOf_nextVersion {x : Indexed} {head : Option HeadContent}
    {sim : Option SimulatedHead} (hm : HeadContent.Matches head sim) (hon : OnHead x.change sim)
    {version : NewVersion} (h : nextVersion userId now x.change head = .ok version) :
    IsVersionOf userId now x { index := x.index, version := version } := by
  have hbase : head.elim 0 (·.version) = x.change.baseVersion := by
    cases head <;> cases sim <;> simp_all [HeadContent.Matches, OnHead]
  cases hop : x.change.op with
  | put content =>
      obtain rfl : putVersion userId x.change content head = version := by
        simpa [nextVersion, hop] using h
      refine ⟨rfl, rfl, rfl, rfl, rfl, rfl, ?_, ?_, ?_⟩
      · simp [putVersion, hbase]
      · intro c hc
        rw [hop, PushOp.put.injEq] at hc
        exact ⟨hc, rfl, rfl⟩
      · intro k hk
        rw [hop] at hk
        simp at hk
  | delete kind =>
      cases head with
      | none => simp [nextVersion, hop] at h
      | some head =>
          obtain rfl : tombstoneVersion userId now x.change kind head = version := by
            simpa [nextVersion, hop] using h
          refine ⟨rfl, rfl, rfl, rfl, rfl, rfl, ?_, ?_, ?_⟩
          · simpa [tombstoneVersion] using hbase
          · intro c hc
            rw [hop] at hc
            simp at hc
          · intro k hk
            rw [hop, PushOp.delete.injEq] at hk
            refine ⟨rfl, ?_⟩
            rintro rfl
            subst hk
            simp [tombstoneVersion, nextTombstoneKind]

section Planned

variable {vaults : VaultState} {stored : PushChange → Option RecordRow}

theorem appends_cons (x : Indexed) (o : Outcome) (pairs : List (Indexed × Outcome)) :
    appends ((x, o) :: pairs) = if o = .append then x :: appends pairs else appends pairs := by
  rw [appends, List.filter_cons]
  split <;> simp_all [appends]

theorem mem_appends {pairs : List (Indexed × Outcome)} {x : Indexed} :
    x ∈ appends pairs ↔ (x, Outcome.append) ∈ pairs := by
  simp [appends]

theorem appends_of_noAppend {pairs : List (Indexed × Outcome)}
    (h : ∀ p ∈ pairs, p.2 ≠ .append) : appends pairs = [] := by
  rw [appends, List.map_eq_nil_iff, List.filter_eq_nil_iff]
  intro p hp
  simpa using h p hp

/-- The planned versions are those of the changes to append, in order. -/
theorem forall₂_plannedFrom {head : Option HeadContent} {sim : Option SimulatedHead}
    {pairs : List (Indexed × Outcome)} (hm : HeadContent.Matches head sim)
    (h : Passes vaults stored sim pairs) :
    List.Forall₂ (IsVersionOf userId now) (appends pairs)
      (plannedFrom userId now head pairs) := by
  induction pairs generalizing head sim with
  | nil => exact List.Forall₂.nil
  | cons p pairs ih =>
      obtain ⟨x, o⟩ := p
      obtain ⟨hx, hrest⟩ := h
      rcases hx with ⟨row, rfl, -⟩ | ⟨rfl, -, hon⟩
      · rw [appends_cons, if_neg (by simp)]
        exact ih hm hrest
      · obtain ⟨version, hok, hv⟩ := nextVersion_ok userId now hm hon
        rw [appends_cons, if_pos rfl, plannedFrom, hok]
        exact List.Forall₂.cons (isVersionOf_nextVersion userId now hm hon hok)
          (ih (matches_headAfter hm hv) hrest)

theorem extends_plannedFrom {head : Option HeadContent} {sim : Option SimulatedHead}
    {pairs : List (Indexed × Outcome)} (hm : HeadContent.Matches head sim)
    (h : Passes vaults stored sim pairs) :
    Extends head ((plannedFrom userId now head pairs).map (·.version.state)) := by
  induction pairs generalizing head sim with
  | nil => trivial
  | cons p pairs ih =>
      obtain ⟨x, o⟩ := p
      obtain ⟨hx, hrest⟩ := h
      rcases hx with ⟨row, rfl, -⟩ | ⟨rfl, -, hon⟩
      · exact ih hm hrest
      · obtain ⟨version, hok, hv⟩ := nextVersion_ok userId now hm hon
        rw [plannedFrom, hok]
        exact ⟨followsHead_nextVersion userId now hok, ih (matches_headAfter hm hv) hrest⟩

/-- Versions on top of each other are numbered without gaps. -/
theorem map_version_of_extends {head : Option HeadContent} {versions : List (HeadContent × Bool)}
    (h : Extends head versions) :
    versions.map (·.1.version) = List.range' (head.elim 0 (·.version) + 1) versions.length := by
  induction versions generalizing head with
  | nil => rfl
  | cons v versions ih =>
      obtain ⟨hv, hrest⟩ := h
      rw [List.map_cons, List.length_cons, List.range'_succ, ih hrest, hv.next]
      simp [hv.next]

/-- All planned versions of a chain on a stored record go into the record's vault. -/
theorem vaultId_of_passes {sim : SimulatedHead} {pairs : List (Indexed × Outcome)}
    (h : Passes vaults stored (some sim) pairs) :
    ∀ x ∈ appends pairs, x.change.vaultId = sim.vaultId := by
  induction pairs generalizing sim with
  | nil => simp [appends]
  | cons p pairs ih =>
      obtain ⟨x, o⟩ := p
      obtain ⟨hx, hrest⟩ := h
      rcases hx with ⟨row, rfl, -⟩ | ⟨rfl, -, hon⟩
      · rw [appends_cons, if_neg (by simp)]
        exact ih hrest
      · rw [appends_cons, if_pos rfl]
        intro y hy
        rcases List.mem_cons.1 hy with rfl | hy
        · exact hon.1.symm
        · rw [ih hrest y hy]
          exact hon.1.symm

/-- All planned versions of a new record go into one vault. -/
theorem vaultId_of_passes_none {pairs : List (Indexed × Outcome)}
    (h : Passes vaults stored none pairs) :
    ∀ x ∈ appends pairs, ∀ y ∈ appends pairs, x.change.vaultId = y.change.vaultId := by
  induction pairs with
  | nil => simp [appends]
  | cons p pairs ih =>
      obtain ⟨z, o⟩ := p
      obtain ⟨hz, hrest⟩ := h
      rcases hz with ⟨row, rfl, -⟩ | ⟨rfl, -, hon⟩
      · rw [appends_cons, if_neg (by simp)]
        exact ih hrest
      · rw [appends_cons, if_pos rfl]
        have hall : ∀ x ∈ appends pairs, x.change.vaultId = z.change.vaultId :=
          fun x hx => vaultId_of_passes hrest x hx
        intro x hx y hy
        rcases List.mem_cons.1 hx with hxz | hx
        · rw [hxz]
          rcases List.mem_cons.1 hy with hyz | hy
          · rw [hyz]
          · exact (hall y hy).symm
        · rcases List.mem_cons.1 hy with hyz | hy
          · rw [hyz]
            exact hall x hx
          · rw [hall x hx, hall y hy]

end Planned

/-! ### Pass one in closed form -/

section PassOne

variable (vaults : VaultState) (heads : RecordId → Option RecordRow)
  (stored : PushChange → Option RecordRow)

/-- A record's chain with its outcomes. -/
def decided (c : RecordId × List Indexed) : List (Indexed × Outcome) :=
  c.2.zip (decideChain vaults stored (heads c.1) c.2)

/-- The versions planned for a record's chain. -/
def planned (c : RecordId × List Indexed) : Appended :=
  plannedFrom userId now ((heads c.1).map (·.head)) (decided vaults heads stored c)

/-- The budgets after a chain; `none` when the chain is over its owner's. -/
def charge (budgets : StorageBudgets) (c : RecordId × List Indexed) : Option StorageBudgets :=
  if rewritesOldKey vaults (heads c.1) then some budgets
  else withinQuota c.2 (planned userId now vaults heads stored c) budgets

/-- The chains with the verdict of the storage budget. -/
def judged : StorageBudgets → List (RecordId × List Indexed) →
    List ((RecordId × List Indexed) × Bool)
  | _, [] => []
  | budgets, c :: rest =>
    match charge userId now vaults heads stored budgets c with
    | some budgets => (c, true) :: judged budgets rest
    | none => (c, false) :: judged budgets rest

/-- The budgets after all chains. -/
def chargeAll (budgets : StorageBudgets) (chains : List (RecordId × List Indexed)) :
    StorageBudgets :=
  chains.foldl
    (fun budgets c => (charge userId now vaults heads stored budgets c).getD budgets) budgets

/-- The answers to planned versions that are not written. -/
def quotaAnswers (appended : Appended) : List (ℕ × PushResult) :=
  appended.map fun p => (p.index, .rejected p.version.clientChangeId .quota)

theorem rejectForQuota_eq (results : Results) (appended : Appended) :
    rejectForQuota results appended = results.setAll (quotaAnswers appended) := by
  rw [rejectForQuota, Results.setAll, quotaAnswers, List.foldl_map]

/-- What pass one answers to the changes of a chain. -/
def judgedAnswers (j : (RecordId × List Indexed) × Bool) : List (ℕ × PushResult) :=
  answersAtOnce (decided vaults heads stored j.1) ++
    if j.2 then [] else quotaAnswers (planned userId now vaults heads stored j.1)

/-- What pass one accepts of a chain. -/
def judgedAccepted (j : (RecordId × List Indexed) × Bool) : Accepted where
  chain := j.1.2
  appended := planned userId now vaults heads stored j.1

theorem carryOut_decided (c : RecordId × List Indexed) (results : Results) :
    carryOut userId now ((heads c.1).map (·.head)) (decided vaults heads stored c) results =
      .ok (results.setAll (answersAtOnce (decided vaults heads stored c)),
        planned userId now vaults heads stored c) := by
  rcases decideChain_cases vaults stored (heads c.1) c.2 with h | h
  · have hm : HeadContent.Matches ((heads c.1).map (·.head)) (simulatedHead (heads c.1)) := by
      cases heads c.1 <;> rfl
    exact carryOut_of_passes userId now hm h results
  · have hno : ∀ p ∈ decided vaults heads stored c, p.2 ≠ .append := fun p hp =>
      h p.2 (List.of_mem_zip hp).2
    rw [carryOut_of_noAppend userId now hno, planned, plannedFrom_of_noAppend userId now hno]

/-- What one turn of pass one does. -/
theorem passOneChain_eq (s : PassOne) (c : RecordId × List Indexed) :
    passOneChain userId now vaults heads stored s c =
      .ok (match charge userId now vaults heads stored s.budgets c with
        | some budgets =>
          { results := s.results.setAll (judgedAnswers userId now vaults heads stored (c, true))
            accepted := s.accepted ++ [judgedAccepted userId now vaults heads stored (c, true)]
            overQuota := s.overQuota
            budgets := budgets }
        | none =>
          { results := s.results.setAll (judgedAnswers userId now vaults heads stored (c, false))
            accepted := s.accepted
            overQuota := true
            budgets := s.budgets }) := by
  have hcarry := carryOut_decided userId now vaults heads stored c s.results
  simp only [decided] at hcarry
  simp only [passOneChain, hcarry, bind, Except.bind, charge]
  split
  · simp [judgedAnswers, judgedAccepted, decided, pure, Except.pure]
  · cases hq : withinQuota c.2 (planned userId now vaults heads stored c) s.budgets with
    | some budgets => simp [judgedAnswers, judgedAccepted, decided, pure, Except.pure]
    | none =>
        simp [judgedAnswers, decided, pure, Except.pure, rejectForQuota_eq,
          Results.setAll_append]

theorem foldlM_passOneChain (s : PassOne) (chains : List (RecordId × List Indexed)) :
    chains.foldlM (passOneChain userId now vaults heads stored) s =
      .ok {
        results := s.results.setAll
          ((judged userId now vaults heads stored s.budgets chains).flatMap
            (judgedAnswers userId now vaults heads stored))
        accepted := s.accepted ++
          ((judged userId now vaults heads stored s.budgets chains).filter (·.2)).map
            (judgedAccepted userId now vaults heads stored)
        overQuota := s.overQuota ||
          (judged userId now vaults heads stored s.budgets chains).any (!·.2)
        budgets := chargeAll userId now vaults heads stored s.budgets chains } := by
  induction chains generalizing s with
  | nil => simp [judged, chargeAll, pure, Except.pure]
  | cons c chains ih =>
      rw [List.foldlM_cons, passOneChain_eq]
      simp only [bind, Except.bind]
      rw [ih]
      cases hc : charge userId now vaults heads stored s.budgets c with
      | some budgets =>
          simp [judged, hc, chargeAll, Results.setAll_append]
      | none =>
          simp [judged, hc, chargeAll, Results.setAll_append]

/-- **Pass one in closed form.**  It never fails as a whole. -/
theorem passOne_eq (budgets : StorageBudgets) (chains : List (RecordId × List Indexed)) :
    passOne userId now vaults heads stored budgets chains =
      .ok {
        results := Results.setAll (fun _ => none)
          ((judged userId now vaults heads stored budgets chains).flatMap
            (judgedAnswers userId now vaults heads stored))
        accepted :=
          ((judged userId now vaults heads stored budgets chains).filter (·.2)).map
            (judgedAccepted userId now vaults heads stored)
        overQuota := (judged userId now vaults heads stored budgets chains).any (!·.2)
        budgets := chargeAll userId now vaults heads stored budgets chains } := by
  rw [passOne, foldlM_passOneChain]
  simp

theorem map_fst_judged (budgets : StorageBudgets) (chains : List (RecordId × List Indexed)) :
    (judged userId now vaults heads stored budgets chains).map Prod.fst = chains := by
  induction chains generalizing budgets with
  | nil => rfl
  | cons c chains ih =>
      rw [judged]
      split <;> rw [List.map_cons, ih]

end PassOne

end Plan

end Passmgr
