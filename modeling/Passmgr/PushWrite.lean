/-
# What a push writes

The second half of a push in closed form: which planned versions are kept, the rows and the seqs
they get, what a purge drops, and the answers.

Main definitions:

* `isKept` — an accepted chain is written, unless it is the source of a move in a batch over quota;
* `firstSeq`, `VaultRow.add` — the seqs a push takes and what it leaves in the row of a vault.

Main results:

* `insertVersions_eq` — the insert, when every vault exists;
* `map_seq_numberRows` — in every vault the new rows have the next seqs, in order;
* `records_dropPurgedHistory` — a purge drops exactly the versions below it.
-/

import Passmgr.PushPlan

set_option relaxedAutoImplicit false
set_option autoImplicit false

namespace Passmgr

/-! ### The planned versions that are written -/

/-- Whether an accepted chain is written: the source of a move is not when the batch had a chain
over quota. -/
def isKept (overQuota : Bool) (a : Accepted) : Bool :=
  !(overQuota && a.chain.any fun x => isMoveSource x.change)

theorem planVersions_eq (overQuota : Bool) (accepted : List Accepted) (results : Results) :
    planVersions overQuota accepted results =
      (results.setAll ((accepted.filter (!isKept overQuota ·)).flatMap
          fun a => quotaAnswers a.appended),
        (accepted.filter (isKept overQuota)).flatMap (·.appended)) := by
  induction accepted generalizing results with
  | nil => rfl
  | cons a rest ih =>
      rw [planVersions]
      split
      · next h =>
          have hk : isKept overQuota a = false := by rw [isKept, h]; rfl
          rw [ih, rejectForQuota_eq]
          simp [hk, Results.setAll_append]
      · next h =>
          have hk : isKept overQuota a = true := by
            rw [isKept, Bool.eq_false_iff.2 h]
            rfl
          rw [ih]
          simp [hk]

/-- The answers to written versions. -/
def writtenAnswers (written : List (Planned × RecordRow)) : List (ℕ × PushResult) :=
  written.map fun w => (w.1.index, .applied w.2.clientChangeId (serializeRecord w.2))

theorem answerWritten_eq (results : Results) (written : List (Planned × RecordRow)) :
    answerWritten results written = results.setAll (writtenAnswers written) := by
  induction written generalizing results with
  | nil => rfl
  | cons w rest ih =>
      obtain ⟨p, row⟩ := w
      rw [answerWritten, ih]
      rfl

/-! ### Numbering the rows -/

section Number

variable (now : Time)

theorem numberRows_congr {next next' : VaultId → ℕ} {versions : List NewVersion}
    (h : ∀ v ∈ versions, next v.vaultId = next' v.vaultId) :
    numberRows now next versions = numberRows now next' versions := by
  induction versions generalizing next next' with
  | nil => rfl
  | cons v versions ih =>
      have hv := h v List.mem_cons_self
      simp only [numberRows, hv]
      congr 1
      refine ih fun w hw => ?_
      by_cases hvw : w.vaultId = v.vaultId
      · simp [hvw]
      · simp [hvw, h w (List.mem_cons_of_mem v hw)]

@[simp] theorem length_numberRows (next : VaultId → ℕ) (versions : List NewVersion) :
    (numberRows now next versions).length = versions.length := by
  induction versions generalizing next with
  | nil => rfl
  | cons v versions ih => simp [numberRows, ih]

/-- The rows are the versions with a seq each. -/
theorem forall₂_numberRows (next : VaultId → ℕ) (versions : List NewVersion) :
    List.Forall₂ (fun v row => ∃ seq, row = v.toRow seq now) versions
      (numberRows now next versions) := by
  induction versions generalizing next with
  | nil => exact List.Forall₂.nil
  | cons v versions ih => exact List.Forall₂.cons ⟨_, rfl⟩ (ih _)

/-- What does not depend on the seq is the same for versions and rows. -/
theorem map_filter_numberRows {β : Type} {p : RecordRow → Bool} {q : NewVersion → Bool}
    {f : RecordRow → β} {g : NewVersion → β}
    (hp : ∀ v seq, p (NewVersion.toRow v seq now) = q v)
    (hf : ∀ v seq, f (NewVersion.toRow v seq now) = g v)
    (next : VaultId → ℕ) (versions : List NewVersion) :
    ((numberRows now next versions).filter p).map f = (versions.filter q).map g := by
  induction versions generalizing next with
  | nil => rfl
  | cons v versions ih =>
      rw [numberRows]
      simp only [List.filter_cons, hp]
      split
      · rw [List.map_cons, List.map_cons, hf, ih]
      · exact ih _

theorem map_numberRows {β : Type} {f : RecordRow → β} {g : NewVersion → β}
    (hf : ∀ v seq, f (NewVersion.toRow v seq now) = g v)
    (next : VaultId → ℕ) (versions : List NewVersion) :
    (numberRows now next versions).map f = versions.map g := by
  simpa using map_filter_numberRows now (p := fun _ => true) (q := fun _ => true)
    (fun _ _ => rfl) hf next versions

/-- In every vault the new rows have the next seqs, in order. -/
theorem map_seq_numberRows (next : VaultId → ℕ) (versions : List NewVersion)
    (vaultId : VaultId) :
    ((numberRows now next versions).filter (·.vaultId = vaultId)).map (·.seq) =
      List.range' (next vaultId) (versions.filter (·.vaultId = vaultId)).length := by
  induction versions generalizing next with
  | nil => rfl
  | cons v versions ih =>
      rw [numberRows]
      by_cases hv : v.vaultId = vaultId
      · simp only [List.filter_cons, toRow_vaultId, hv, decide_true, if_true, List.map_cons, ih,
          toRow_seq, List.length_cons, List.range'_succ]
      · have hv' : ¬vaultId = v.vaultId := fun h => hv h.symm
        simp only [List.filter_cons, toRow_vaultId, hv, decide_false, Bool.false_eq_true, if_false,
          ih, hv']

end Number

/-! ### Taking the seqs -/

/-- The bytes of new versions. -/
def versionsBytes (versions : List NewVersion) : ℕ :=
  (versions.map fun v => pushChangeBytes v.content).sum

/-- The row of a vault after seqs were taken for versions. -/
def VaultRow.add (vault : VaultRow) (versions : List NewVersion) : VaultRow :=
  { vault with
    lastSeq := vault.lastSeq + versions.length
    usedBytes := vault.usedBytes + versionsBytes versions }

@[simp] theorem VaultRow.add_vaultId (vault : VaultRow) (versions : List NewVersion) :
    (vault.add versions).vaultId = vault.vaultId := rfl

@[simp] theorem VaultRow.add_lastSeq (vault : VaultRow) (versions : List NewVersion) :
    (vault.add versions).lastSeq = vault.lastSeq + versions.length := rfl

@[simp] theorem VaultRow.add_usedBytes (vault : VaultRow) (versions : List NewVersion) :
    (vault.add versions).usedBytes = vault.usedBytes + versionsBytes versions := rfl

@[simp] theorem VaultRow.add_nil (vault : VaultRow) : vault.add [] = vault := by
  simp [VaultRow.add, versionsBytes]

/-- The first seq a push takes in a vault. -/
def firstSeq (vaults : List VaultRow) (vaultId : VaultId) : ℕ :=
  (vaults.find? (·.vaultId = vaultId)).elim 0 (·.lastSeq) + 1

theorem find?_updateVault {f : VaultRow → VaultRow} (hf : ∀ v, (f v).vaultId = v.vaultId)
    (vaults : List VaultRow) (id vaultId : VaultId) :
    (updateVault id f vaults).find? (·.vaultId = vaultId) =
      (vaults.find? (·.vaultId = vaultId)).map fun v => if vaultId = id then f v else v := by
  induction vaults with
  | nil => rfl
  | cons v vaults ih =>
      simp only [updateVault, List.map_cons]
      by_cases hv : v.vaultId = vaultId
      · have hv' : (if v.vaultId = id then f v else v).vaultId = vaultId := by
          split
          · rw [hf, hv]
          · exact hv
        rw [List.find?_cons_of_pos (by simpa using hv'), List.find?_cons_of_pos (by simpa using hv),
          Option.map_some, hv]
      · have hv' : ¬(if v.vaultId = id then f v else v).vaultId = vaultId := by
          split
          · rwa [hf]
          · exact hv
        rw [List.find?_cons_of_neg (by simpa using hv'), List.find?_cons_of_neg (by simpa using hv)]
        exact ih

/-- The versions a list of groups holds for a vault. -/
def groupOf (groups : List (VaultId × List NewVersion)) (vaultId : VaultId) : List NewVersion :=
  (groups.find? (·.1 = vaultId)).elim [] (·.2)

theorem groupOf_of_mem {groups : List (VaultId × List NewVersion)}
    (hn : (groups.map Prod.fst).Nodup) {g : VaultId × List NewVersion} (hg : g ∈ groups) :
    groupOf groups g.1 = g.2 := by
  have hfind : groups.find? (·.1 = g.1) = some g := by
    induction groups with
    | nil => simp at hg
    | cons g' groups ih =>
        rw [List.map_cons, List.nodup_cons] at hn
        rcases List.mem_cons.1 hg with rfl | hg
        · simp
        · have hne : ¬g'.1 = g.1 := fun h => hn.1 (h ▸ List.mem_map_of_mem hg)
          rw [List.find?_cons_of_neg (by simpa using hne)]
          exact ih hn.2 hg
  rw [groupOf, hfind]
  rfl

theorem groupOf_of_notMem {groups : List (VaultId × List NewVersion)} {vaultId : VaultId}
    (h : vaultId ∉ groups.map Prod.fst) : groupOf groups vaultId = [] := by
  have hfind : groups.find? (·.1 = vaultId) = none := by
    rw [List.find?_eq_none]
    intro g hg hgv
    exact h (List.mem_map.2 ⟨g, hg, by simpa using hgv⟩)
  rw [groupOf, hfind]
  rfl

theorem takeAllSeqs_eq {groups : List (VaultId × List NewVersion)} {vaults : List VaultRow}
    (hn : (groups.map Prod.fst).Nodup)
    (hex : ∀ g ∈ groups, ∃ v ∈ vaults, v.vaultId = g.1) :
    ∃ next, takeAllSeqs groups vaults =
        .ok (vaults.map fun v => v.add (groupOf groups v.vaultId), next) ∧
      ∀ g ∈ groups, next g.1 = firstSeq vaults g.1 := by
  induction groups generalizing vaults with
  | nil => exact ⟨fun _ => 0, by simp [takeAllSeqs, groupOf], by simp⟩
  | cons g groups ih =>
      obtain ⟨id, versions⟩ := g
      rw [List.map_cons, List.nodup_cons] at hn
      obtain ⟨w, hw, hwid⟩ := hex _ List.mem_cons_self
      obtain ⟨v, hv⟩ : ∃ v, vaults.find? (·.vaultId = id) = some v := by
        rw [← Option.isSome_iff_exists, List.find?_isSome]
        exact ⟨w, hw, by simpa using hwid⟩
      have hvid : v.vaultId = id := by simpa using List.find?_some hv
      -- the vaults after the seqs of the first group were taken
      let vaults' := updateVault id (fun v => v.add versions) vaults
      have htake : takeVaultSeqs vaults id versions.length (versionsBytes versions) =
          some (vaults', v.lastSeq + 1) := by
        simp only [takeVaultSeqs, hv, Option.map_some, Nat.add_sub_cancel]
        rfl
      have hex' : ∀ g ∈ groups, ∃ v ∈ vaults', v.vaultId = g.1 := by
        intro g hg
        obtain ⟨u, hu, hug⟩ := hex g (List.mem_cons_of_mem _ hg)
        refine ⟨_, List.mem_map_of_mem hu, ?_⟩
        split
        · exact hug
        · exact hug
      obtain ⟨next, hnext, hseq⟩ := ih hn.2 hex'
      refine ⟨fun i => if i = id then v.lastSeq + 1 else next i, ?_, ?_⟩
      · rw [takeAllSeqs]
        simp only [versionsBytes] at htake
        rw [htake]
        simp only [hnext, bind, Except.bind, pure, Except.pure]
        congr 2
        simp only [vaults', updateVault, List.map_map]
        refine List.map_congr_left fun u _ => ?_
        by_cases hu : u.vaultId = id
        · have hg : groupOf groups id = [] := groupOf_of_notMem hn.1
          have hg' : groupOf ((id, versions) :: groups) id = versions := by simp [groupOf]
          simp [hu, hg, hg']
        · have hu' : ¬id = u.vaultId := fun h => hu h.symm
          have hg' : groupOf ((id, versions) :: groups) u.vaultId = groupOf groups u.vaultId := by
            simp [groupOf, hu']
          simp [hu, hg']
      · intro g hg
        rcases List.mem_cons.1 hg with rfl | hg
        · simp [firstSeq, hv]
        · have hne : g.1 ≠ id := fun h => hn.1 (List.mem_map.2 ⟨g, hg, h⟩)
          simp only [hne, if_false]
          rw [hseq g hg, firstSeq, firstSeq,
            find?_updateVault (f := fun v => v.add versions) (fun _ => rfl)]
          simp only [hne, if_false, Option.map_id']

/-- The insert, when every vault exists: one bump of each vault, and the rows numbered from it. -/
theorem insertVersions_eq {db : Db} {now : Time} {versions : List NewVersion}
    (hex : ∀ version ∈ versions, ∃ v ∈ db.vaults, v.vaultId = version.vaultId) :
    insertVersions db now versions =
      if UniqueRecords (db.records ++ numberRows now (firstSeq db.vaults) versions) then
        .ok ({ db with
            vaults := db.vaults.map fun v =>
              v.add (versions.filter (·.vaultId = v.vaultId))
            records := db.records ++ numberRows now (firstSeq db.vaults) versions },
          numberRows now (firstSeq db.vaults) versions)
      else .error .unavailable := by
  set groups := (GroupBy.groupBy (·.vaultId) versions).insertionSort fun a b => a.1 ≤ b.1
    with hgroups
  have hperm : groups.Perm (GroupBy.groupBy (·.vaultId) versions) :=
    List.perm_insertionSort _ _
  have hn : (groups.map Prod.fst).Nodup :=
    (hperm.map Prod.fst).nodup_iff.2 (GroupBy.nodup_keys _ versions)
  have hmem : ∀ {id : VaultId} {g : List NewVersion}, (id, g) ∈ groups ↔
      g = versions.filter (·.vaultId = id) ∧ g ≠ [] := by
    intro id g
    rw [hperm.mem_iff]
    exact GroupBy.mem_groupBy fun v : NewVersion => v.vaultId
  have hgroup : ∀ id, groupOf groups id = versions.filter (·.vaultId = id) := by
    intro id
    by_cases hne : versions.filter (·.vaultId = id) = []
    · rw [hne]
      refine groupOf_of_notMem fun hid => ?_
      obtain ⟨⟨id', g⟩, hg, rfl⟩ := List.mem_map.1 hid
      obtain ⟨hg₁, hg₂⟩ := hmem.1 hg
      exact hg₂ (hg₁.trans hne)
    · exact groupOf_of_mem hn (hmem.2 ⟨rfl, hne⟩)
  have hvaults : ∀ g ∈ groups, ∃ v ∈ db.vaults, v.vaultId = g.1 := by
    rintro ⟨id, g⟩ hg
    obtain ⟨hg₁, hg₂⟩ := hmem.1 hg
    obtain ⟨version, hversion⟩ := List.exists_mem_of_ne_nil g hg₂
    rw [hg₁, List.mem_filter] at hversion
    obtain ⟨v, hv, hvid⟩ := hex version hversion.1
    exact ⟨v, hv, hvid.trans (by simpa using hversion.2)⟩
  obtain ⟨next, hnext, hseq⟩ := takeAllSeqs_eq hn hvaults
  have hrows : numberRows now next versions =
      numberRows now (firstSeq db.vaults) versions := by
    refine numberRows_congr now fun version hversion => ?_
    refine hseq (version.vaultId, versions.filter (·.vaultId = version.vaultId)) (hmem.2 ⟨rfl, ?_⟩)
    exact List.ne_nil_of_mem (List.mem_filter.2 ⟨hversion, by simp⟩)
  rw [insertVersions]
  simp only [← hgroups, hnext, bind, Except.bind, hrows, hgroup]
  split <;> rfl

/-! ### Dropping purged history -/

theorem records_dropPurgedHistory (db : Db) (written : List RecordRow) :
    (dropPurgedHistory db written).records =
      db.records.filter fun row => !written.any fun p => p.isPurged && p.isBelow row := by
  induction written generalizing db with
  | nil => simp [dropPurgedHistory]
  | cons p written ih =>
      have hstep : dropPurgedHistory db (p :: written) =
          dropPurgedHistory (if p.isPurged then dropBelow db p else db) written := rfl
      rw [hstep, ih]
      cases hp : p.isPurged with
      | false => simp [hp]
      | true =>
          simp only [if_true, dropBelow, List.filter_filter, List.any_cons, hp, Bool.true_and]
          refine List.filter_congr fun row _ => ?_
          simp [RecordRow.isBelow, Bool.and_comm]

/-- A purge changes nothing in the row of a vault but the bytes it uses. -/
theorem vaults_dropPurgedHistory (db : Db) (written : List RecordRow) {β : Type}
    {f : VaultRow → β} (hf : ∀ v n, f { v with usedBytes := n } = f v) :
    (dropPurgedHistory db written).vaults.map f = db.vaults.map f := by
  induction written generalizing db with
  | nil => rfl
  | cons p written ih =>
      have hstep : dropPurgedHistory db (p :: written) =
          dropPurgedHistory (if p.isPurged then dropBelow db p else db) written := rfl
      rw [hstep, ih]
      cases hp : p.isPurged with
      | false => simp
      | true =>
          simp only [if_true, dropBelow, updateVault, List.map_map]
          refine List.map_congr_left fun v _ => ?_
          simp only [Function.comp]
          split
          · exact hf v _
          · rfl

end Passmgr
