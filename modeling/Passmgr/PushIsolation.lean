/-
# The bad record and the others

A server that refuses every batch with a change of one of some records: pushing the outbox sends the
changes of all other records in batches the server processes.  What holds a record up is the server's
own answer to a change of it.

Main definitions:

* `RefusesRecords` — a server that refuses a batch exactly for a set of records;
* `Attempt` — what a part of a push has done with some changes.

Main results:

* `pushBatch_spec` — what pushing one batch does, however it is split;
* `pushOutbox_isolates` — the refused records don't hold up the others.
-/

import Passmgr.PushOutbox

set_option relaxedAutoImplicit false
set_option autoImplicit false

namespace Passmgr

/-! ### What was done with some changes -/

/-- The server processed a batch with this change. -/
def Processed (log : List PushEvent) (change : PendingChange) : Prop :=
  ∃ batch results, .sent batch (.ok results) ∈ log ∧ change ∈ batch

/-- The server processed a batch with this change and did not apply it. -/
def TurnedDown (log : List PushEvent) (change : PendingChange) : Prop :=
  ∃ batch results, .sent batch (.ok results) ∈ log ∧ change ∈ batch ∧
    settles results change = false

/-- After a failure of a change nothing of its record is sent. -/
def NothingAfterFailure (log : List PushEvent) : Prop :=
  ∀ before event after, log = before ++ event :: after → ∀ change,
    event.failedChange? = some change →
      ∀ later ∈ after, ∀ sent ∈ later.sentChanges, sent.recordId ≠ change.recordId

theorem Processed.mono {log log' : List PushEvent} {change : PendingChange}
    (h : Processed log change) (hsub : log ⊆ log') : Processed log' change := by
  obtain ⟨batch, results, hsent, hchange⟩ := h
  exact ⟨batch, results, hsub hsent, hchange⟩

theorem TurnedDown.mono {log log' : List PushEvent} {change : PendingChange}
    (h : TurnedDown log change) (hsub : log ⊆ log') : TurnedDown log' change := by
  obtain ⟨batch, results, hsent, hchange, hsettles⟩ := h
  exact ⟨batch, results, hsub hsent, hchange, hsettles⟩

/-- What a part of a push has done with some changes, and which records it marked as failed. -/
structure Attempt (bad : RecordId → Prop) (changes : List PendingChange) (log : List PushEvent)
    (failed : List RecordId) : Prop where
  sends : ∀ event ∈ log, ∀ sent ∈ event.sentChanges, sent ∈ changes
  marks : ∀ event ∈ log, ∀ change, event.failedChange? = some change → change.recordId ∈ failed
  failed : ∀ recordId ∈ failed, ∃ change ∈ changes, change.recordId = recordId ∧
    (bad recordId ∨ TurnedDown log change)
  processed : ∀ change ∈ changes, Processed log change ∨ bad change.recordId ∨
    ∃ other, TurnedDown log other ∧ other.recordId = change.recordId
  counted : ∀ event ∈ log, ∀ change, event.countedChange? = some change →
    change ∈ changes ∧ (bad change.recordId ∨ TurnedDown log change)
  ordered : NothingAfterFailure log

namespace Attempt

variable {bad : RecordId → Prop} {changes changes' : List PendingChange}
  {log log' : List PushEvent} {failed failed' : List RecordId}

theorem nil (bad : RecordId → Prop) : Attempt bad [] [] [] where
  sends := fun _ h => by cases h
  marks := fun _ h => by cases h
  failed := fun _ h => by cases h
  processed := fun _ h => by cases h
  counted := fun _ h => by cases h
  ordered := fun before event after h => by simp at h

theorem congr (h : Attempt bad changes log failed)
    (hmem : ∀ change, change ∈ changes ↔ change ∈ changes') :
    Attempt bad changes' log failed where
  sends := fun event hevent sent hsent => (hmem sent).1 (h.sends event hevent sent hsent)
  marks := h.marks
  failed := fun recordId hr => by
    obtain ⟨change, hchange, hrest⟩ := h.failed recordId hr
    exact ⟨change, (hmem change).1 hchange, hrest⟩
  processed := fun change hchange => h.processed change ((hmem change).2 hchange)
  counted := fun event hevent change hchange =>
    (h.counted event hevent change hchange).imp_left (hmem change).1
  ordered := h.ordered

/-- More changes of records that failed already: they are left out. -/
theorem skip (h : Attempt bad changes log failed)
    (hskip : ∀ change ∈ changes', change.recordId ∈ failed) :
    Attempt bad (changes ++ changes') log failed where
  sends := fun event hevent sent hsent => List.mem_append_left _ (h.sends event hevent sent hsent)
  marks := h.marks
  failed := fun recordId hr => by
    obtain ⟨change, hchange, hrest⟩ := h.failed recordId hr
    exact ⟨change, List.mem_append_left _ hchange, hrest⟩
  processed := fun change hchange => by
    rcases List.mem_append.1 hchange with hchange | hchange
    · exact h.processed change hchange
    · obtain ⟨other, -, hid, hbad | hdown⟩ := h.failed _ (hskip change hchange)
      · exact Or.inr (Or.inl hbad)
      · exact Or.inr (Or.inr ⟨other, hdown, hid⟩)
  counted := fun event hevent change hchange =>
    (h.counted event hevent change hchange).imp_left (List.mem_append_left _)
  ordered := h.ordered

/-- A batch that is refused first. -/
theorem refused (h : Attempt bad changes log failed) (error : PushFailure) :
    Attempt bad changes (.sent changes (.error error) :: log) failed where
  sends := fun event hevent sent hsent => by
    rcases List.mem_cons.1 hevent with rfl | hevent
    · exact hsent
    · exact h.sends event hevent sent hsent
  marks := fun event hevent change hchange => by
    rcases List.mem_cons.1 hevent with rfl | hevent
    · cases hchange
    · exact h.marks event hevent change hchange
  failed := fun recordId hr => by
    obtain ⟨change, hchange, hid, hbad | hdown⟩ := h.failed recordId hr
    · exact ⟨change, hchange, hid, Or.inl hbad⟩
    · exact ⟨change, hchange, hid, Or.inr (hdown.mono (List.subset_cons_self _ _))⟩
  processed := fun change hchange => by
    rcases h.processed change hchange with hdone | hbad | ⟨other, hdown, hid⟩
    · exact Or.inl (hdone.mono (List.subset_cons_self _ _))
    · exact Or.inr (Or.inl hbad)
    · exact Or.inr (Or.inr ⟨other, hdown.mono (List.subset_cons_self _ _), hid⟩)
  counted := fun event hevent change hchange => by
    rcases List.mem_cons.1 hevent with rfl | hevent
    · cases hchange
    · exact (h.counted event hevent change hchange).imp_right
        (·.imp_right (·.mono (List.subset_cons_self _ _)))
  ordered := fun before event after heq change hchange => by
    cases before with
    | nil =>
        obtain ⟨rfl, -⟩ := List.cons.inj heq
        cases hchange
    | cons first before =>
        exact h.ordered before event after (List.cons.inj heq).2 change hchange

/-- One part after the other, of records that have not failed in the first. -/
theorem append (h : Attempt bad changes log failed)
    (h' : Attempt bad changes' log' failed')
    (hfresh : ∀ change ∈ changes', change.recordId ∉ failed) :
    Attempt bad (changes ++ changes') (log ++ log') (failed ++ failed') where
  sends := fun event hevent sent hsent => by
    rcases List.mem_append.1 hevent with hevent | hevent
    · exact List.mem_append_left _ (h.sends event hevent sent hsent)
    · exact List.mem_append_right _ (h'.sends event hevent sent hsent)
  marks := fun event hevent change hchange => by
    rcases List.mem_append.1 hevent with hevent | hevent
    · exact List.mem_append_left _ (h.marks event hevent change hchange)
    · exact List.mem_append_right _ (h'.marks event hevent change hchange)
  failed := fun recordId hr => by
    rcases List.mem_append.1 hr with hr | hr
    · obtain ⟨change, hchange, hid, hwhy⟩ := h.failed recordId hr
      exact ⟨change, List.mem_append_left _ hchange, hid,
        hwhy.imp_right (·.mono (List.subset_append_left _ _))⟩
    · obtain ⟨change, hchange, hid, hwhy⟩ := h'.failed recordId hr
      exact ⟨change, List.mem_append_right _ hchange, hid,
        hwhy.imp_right (·.mono (List.subset_append_right _ _))⟩
  processed := fun change hchange => by
    rcases List.mem_append.1 hchange with hchange | hchange
    · rcases h.processed change hchange with hdone | hbad | ⟨other, hdown, hid⟩
      · exact Or.inl (hdone.mono (List.subset_append_left _ _))
      · exact Or.inr (Or.inl hbad)
      · exact Or.inr (Or.inr ⟨other, hdown.mono (List.subset_append_left _ _), hid⟩)
    · rcases h'.processed change hchange with hdone | hbad | ⟨other, hdown, hid⟩
      · exact Or.inl (hdone.mono (List.subset_append_right _ _))
      · exact Or.inr (Or.inl hbad)
      · exact Or.inr (Or.inr ⟨other, hdown.mono (List.subset_append_right _ _), hid⟩)
  counted := fun event hevent change hchange => by
    rcases List.mem_append.1 hevent with hevent | hevent
    · exact (h.counted event hevent change hchange).imp (List.mem_append_left _)
        (·.imp_right (·.mono (List.subset_append_left _ _)))
    · exact (h'.counted event hevent change hchange).imp (List.mem_append_right _)
        (·.imp_right (·.mono (List.subset_append_right _ _)))
  ordered := fun before event after heq change hchange => by
    rcases List.append_eq_append_iff.1 heq with ⟨mid, rfl, htail⟩ | ⟨mid, hlog, htail⟩
    · exact h'.ordered mid event after htail change hchange
    · cases mid with
      | nil =>
          exact h'.ordered [] event after htail.symm change hchange
      | cons first mid =>
          -- the failure is in the first part
          obtain ⟨rfl, rfl⟩ := List.cons.inj htail
          intro later hlater sent hsent
          rcases List.mem_append.1 hlater with hlater | hlater
          · exact h.ordered before event mid hlog change hchange later hlater sent hsent
          · intro hid
            refine hfresh sent (h'.sends later hlater sent hsent) ?_
            rw [hid]
            exact h.marks event (by rw [hlog]; simp) change hchange

end Attempt

/-! ### One batch -/

section Batch

variable {σ : Type} {pusher : ChangePusher σ} {now : Time} {run : PushRun σ}
  {bad : RecordId → Prop}

/-- Entries of the log that send nothing and whose failures are of changes with a property, of
records that are marked. -/
structure Notes (P : PendingChange → Prop) (events : List PushEvent) (failed : List RecordId) :
    Prop where
  sends : ∀ event ∈ events, event.isSent = false
  of_failed : ∀ event ∈ events, ∀ change, event.failedChange? = some change →
    P change ∧ change.recordId ∈ failed
  marked : ∀ recordId ∈ failed, ∃ change, P change ∧ change.recordId = recordId

theorem mem_unsettled {results : List PushResult} {batch : List PendingChange}
    {recordId : RecordId} : recordId ∈ unsettled results batch ↔
      ∃ change ∈ batch, settles results change = false ∧ change.recordId = recordId := by
  simp [unsettled, and_assoc]

/-- What is noted of a processed batch. -/
theorem notes_of_results {results : List PushResult} {batch : List PendingChange}
    {notes : List PushEvent} (h : List.Forall₂ (ResultNote results) batch notes) :
    Notes (fun change => change ∈ batch ∧ settles results change = false) notes
      (unsettled results batch) := by
  refine ⟨fun event hevent => ?_, fun event hevent change hchange => ?_, fun recordId hr => ?_⟩
  · obtain ⟨change, -, hnote⟩ := RowByRow.exists_left h hevent
    exact hnote.not_isSent
  · obtain ⟨change', hmem, hnote⟩ := RowByRow.exists_left h hevent
    rw [hnote.failedChange?_eq] at hchange
    cases hsettles : settles results change' with
    | true => simp [hsettles] at hchange
    | false =>
        obtain rfl : change' = change := by simpa [hsettles] using hchange
        exact ⟨⟨hmem, hsettles⟩, mem_unsettled.2 ⟨_, hmem, hsettles, rfl⟩⟩
  · obtain ⟨change, hmem, hsettles, rfl⟩ := mem_unsettled.1 hr
    exact ⟨change, ⟨hmem, hsettles⟩, rfl⟩

/-- What is noted of a refused batch of one record. -/
theorem notes_of_failures {message : Text} {batch : List PendingChange} {notes : List PushEvent}
    {recordId : RecordId} (h : List.Forall₂ (fun change => FailNote change message) batch notes)
    (hall : ∀ change ∈ batch, change.recordId = recordId) (hne : batch ≠ []) :
    Notes (· ∈ batch) notes [recordId] := by
  refine ⟨fun event hevent => ?_, fun event hevent change hchange => ?_, fun r hr => ?_⟩
  · obtain ⟨change, -, hnote⟩ := RowByRow.exists_left h hevent
    exact hnote.not_isSent
  · obtain ⟨change', hmem, hnote⟩ := RowByRow.exists_left h hevent
    rw [hnote.failedChange?_eq] at hchange
    obtain rfl := Option.some.inj hchange
    exact ⟨hmem, List.mem_singleton.2 (hall _ hmem)⟩
  · obtain ⟨change, hmem⟩ := List.exists_mem_of_ne_nil _ hne
    exact ⟨change, hmem, (hall change hmem).trans (List.mem_singleton.1 hr).symm⟩

/-- A batch and what was noted about its answer. -/
theorem Attempt.of_notes {batch : List PendingChange} {events : List PushEvent}
    {failed : List RecordId} {P : PendingChange → Prop}
    (answer : Except PushFailure (List PushResult)) (h : Notes P events failed)
    (hmem : ∀ change, P change → change ∈ batch)
    (hwhy : ∀ change, P change →
      bad change.recordId ∨ TurnedDown (.sent batch answer :: events) change)
    (hdone : ∀ change ∈ batch,
      Processed (.sent batch answer :: events) change ∨ bad change.recordId) :
    Attempt bad batch (.sent batch answer :: events) failed where
  sends := fun event hevent sent hsent => by
    rcases List.mem_cons.1 hevent with rfl | hevent
    · exact hsent
    · rw [PushEvent.sentChanges_of_not_isSent (h.sends event hevent)] at hsent
      cases hsent
  marks := fun event hevent change hchange => by
    rcases List.mem_cons.1 hevent with rfl | hevent
    · cases hchange
    · exact (h.of_failed event hevent change hchange).2
  failed := fun recordId hr => by
    obtain ⟨change, hp, rfl⟩ := h.marked recordId hr
    exact ⟨change, hmem change hp, rfl, hwhy change hp⟩
  processed := fun change hchange => (hdone change hchange).imp_right Or.inl
  counted := fun event hevent change hchange => by
    have hfails := PushEvent.failedChange?_of_counted hchange
    rcases List.mem_cons.1 hevent with rfl | hevent
    · cases hfails
    · have hp := (h.of_failed event hevent change hfails).1
      exact ⟨hmem change hp, hwhy change hp⟩
  ordered := fun before event after heq change hchange later hlater sent hsent => by
    have hmem : later ∈ events := by
      cases before with
      | nil =>
          obtain ⟨rfl, -⟩ := List.cons.inj heq
          cases hchange
      | cons first before =>
          rw [(List.cons.inj heq).2]
          exact List.mem_append_right _ (List.mem_cons_of_mem _ hlater)
    rw [PushEvent.sentChanges_of_not_isSent (h.sends later hmem)] at hsent
    cases hsent

/-- A server that refuses a batch as a whole exactly when it has a change of a record of a set, with
an error that is not about the round. -/
structure RefusesRecords (pusher : ChangePusher σ) (bad : RecordId → Prop) : Prop where
  refused : ∀ server batch, (∃ change ∈ batch, bad change.recordId) →
    ∃ error, (pusher server batch).2 = .error error ∧ error.stopsRound = false
  processed : ∀ server batch, (∀ change ∈ batch, ¬bad change.recordId) →
    ∃ results, (pusher server batch).2 = .ok results

/-- A batch that was refused has a change of a refused record, and its error doesn't stop the
round. -/
theorem RefusesRecords.of_error (h : RefusesRecords pusher bad)
    {server server' : σ} {batch : List PendingChange} {error : PushFailure}
    (hanswer : pusher server (batch.map toPushChange) = (server', .error error)) :
    (∃ change ∈ batch, bad change.recordId) ∧ error.stopsRound = false := by
  by_cases hbad : ∃ change ∈ batch, bad change.recordId
  · obtain ⟨change, hchange, hbad'⟩ := hbad
    obtain ⟨error', herror, hstops⟩ := h.refused server (batch.map toPushChange)
      ⟨toPushChange change, List.mem_map_of_mem hchange, hbad'⟩
    rw [hanswer] at herror
    cases herror
    exact ⟨⟨change, hchange, hbad'⟩, hstops⟩
  · obtain ⟨results, hresults⟩ := h.processed server (batch.map toPushChange)
      fun change hchange hbad' => by
        obtain ⟨c, hc, rfl⟩ := List.mem_map.1 hchange
        exact hbad ⟨c, hc, hbad'⟩
    rw [hanswer] at hresults
    cases hresults

/-- The changes of a batch with at most one chain are of one record. -/
theorem sameRecord_of_chains {batch : List PendingChange}
    (h : ¬1 < (groupChains batch).length) {a b : PendingChange} (ha : a ∈ batch) (hb : b ∈ batch) :
    a.recordId = b.recordId := by
  have hka := (GroupBy.mem_keys PendingChange.recordId).2 ⟨a, ha, rfl⟩
  have hkb := (GroupBy.mem_keys PendingChange.recordId).2 ⟨b, hb, rfl⟩
  have hlen : ((groupChains batch).map Prod.fst).length ≤ 1 := by
    rw [List.length_map]
    omega
  unfold groupChains at hlen
  cases hkeys : (GroupBy.groupBy PendingChange.recordId batch).map Prod.fst with
  | nil =>
      rw [hkeys] at hka
      cases hka
  | cons key keys =>
      rw [hkeys, List.length_cons] at hlen
      obtain rfl : keys = [] := List.length_eq_zero_iff.1 (by omega)
      rw [hkeys] at hka hkb
      exact (List.mem_singleton.1 hka).trans (List.mem_singleton.1 hkb).symm

/-- The changes of some chains are of the records of these chains. -/
theorem recordId_mem_of_flatten {batch : List PendingChange}
    {chains : List (RecordId × List PendingChange)}
    (hsub : ∀ chain ∈ chains, chain ∈ groupChains batch) {change : PendingChange}
    (h : change ∈ (chains.map (·.2)).flatten) : change.recordId ∈ chains.map (·.1) := by
  obtain ⟨chain, hchain, hchange⟩ := List.mem_flatten.1 h
  obtain ⟨⟨recordId, chain'⟩, hmem, rfl⟩ := List.mem_map.1 hchain
  obtain ⟨hgroup, -⟩ := (GroupBy.mem_groupBy PendingChange.recordId).1 (hsub _ hmem)
  dsimp only at hchange
  rw [hgroup] at hchange
  have hid := ((GroupBy.mem_group PendingChange.recordId).1 hchange).2
  exact hid ▸ List.mem_map_of_mem (f := (·.1)) hmem

/-- The halves of a batch have no record in common. -/
theorem halves_disjoint {batch : List PendingChange} {a b : PendingChange}
    (ha : a ∈ (halves batch).1) (hb : b ∈ (halves batch).2) : a.recordId ≠ b.recordId := by
  unfold halves at ha hb
  dsimp only at ha hb
  rw [← List.map_take] at ha
  rw [← List.map_drop] at hb
  have hka := recordId_mem_of_flatten (fun chain => List.mem_of_mem_take) ha
  have hkb := recordId_mem_of_flatten (fun chain => List.mem_of_mem_drop) hb
  rw [List.map_take] at hka
  rw [List.map_drop] at hkb
  have hnodup := GroupBy.nodup_keys PendingChange.recordId batch
  intro hsame
  rw [hsame] at hka
  exact List.disjoint_take_drop hnodup le_rfl hka hkb

/-- **What pushing one batch does**, however it is split: it ends, its log is a log of the server's
answers, every change of a record the server doesn't refuse is processed, and failures are of refused
records or of changes the server turned down. -/
theorem pushBatch_spec (hserver : RefusesRecords pusher bad)
    (batch : List PendingChange) (run : PushRun σ) :
    ∃ run' log failed, pushBatch pusher now batch run = .ok run' ∧ run.Adds now log failed run' ∧
      PushLog pusher run.server log run'.server ∧ Attempt bad batch log failed := by
  induction hn : batch.length using Nat.strong_induction_on generalizing batch run with
  | _ n ih =>
    subst hn
    rw [pushBatch]
    generalize hanswer : pusher run.server (batch.map toPushChange) = answer
    obtain ⟨server, answer⟩ := answer
    have hsent : run.Adds now [.sent batch answer] []
        ({ run with server := server }.emit now (.sent batch answer)) :=
      (PushRun.Adds.emit _ _).sameLog rfl rfl rfl
    cases answer with
    | ok results =>
        obtain ⟨notes, hadds, hnotes⟩ := @takeResults_run _ now results batch
          ({ run with server := server }.emit now (.sent batch (.ok results)))
        refine ⟨_, .sent batch (.ok results) :: (notes ++ []), unsettled results batch, rfl, ?_,
          .processed hanswer hnotes ?_, ?_⟩
        · rw [List.append_nil]
          exact hsent.trans hadds
        · rw [server_foldl (fun run change => server_takeResult results run change)]
          exact .done server
        · rw [List.append_nil]
          have hin : PushEvent.sent batch (.ok results) ∈
              PushEvent.sent batch (.ok results) :: notes := List.mem_cons_self
          exact Attempt.of_notes _ (notes_of_results hnotes) (fun change h => h.1)
            (fun change h => Or.inr ⟨batch, results, hin, h⟩)
            (fun change h => Or.inl ⟨batch, results, hin, h⟩)
    | error error =>
        obtain ⟨⟨first, hfirst, hbad⟩, hstops⟩ := hserver.of_error hanswer
        dsimp only
        rw [if_neg (by simp [hstops])]
        split
        · next hmany =>
            -- several records: the halves one after the other
            obtain ⟨hshort₁, hshort₂⟩ := halves_shorter hmany
            obtain ⟨run₁, log₁, failed₁, hok₁, hadds₁, hlog₁, hattempt₁⟩ :=
              ih _ hshort₁ (halves batch).1
                ({ run with server := server }.emit now (.sent batch (.error error))) rfl
            obtain ⟨run₂, log₂, failed₂, hok₂, hadds₂, hlog₂, hattempt₂⟩ :=
              ih _ hshort₂ (halves batch).2 run₁ rfl
            rw [hok₁]
            dsimp only
            refine ⟨run₂, .sent batch (.error error) :: (log₁ ++ log₂), failed₁ ++ failed₂, hok₂,
              hsent.trans (hadds₁.trans hadds₂), .split hanswer hmany (hlog₁.trans hlog₂), ?_⟩
            have hboth := hattempt₁.append hattempt₂ fun change hchange hmem => by
              obtain ⟨other, hother, hid, -⟩ := hattempt₁.failed _ hmem
              exact halves_disjoint hother hchange hid
            exact (hboth.congr fun change => (halves_perm batch).mem_iff).refused error
        · next hone =>
            -- one record: its changes failed
            obtain ⟨notes, hadds, hnotes⟩ := @failChanges_run _ now error.message batch
              ({ run with server := server }.emit now (.sent batch (.error error)))
            have hall : ∀ change ∈ batch, change.recordId = first.recordId :=
              fun change hchange => sameRecord_of_chains hone hchange hfirst
            obtain ⟨head, rest, rfl⟩ := List.exists_cons_of_ne_nil (List.ne_nil_of_mem hfirst)
            have hhead := hall head List.mem_cons_self
            refine ⟨_, .sent (head :: rest) (.error error) :: (notes ++ []), [head.recordId], rfl,
              ?_, .refused hanswer (Nat.le_of_not_lt hone) hnotes ?_, ?_⟩
            · have := (hsent.trans hadds).trans (PushRun.Adds.addFailed head.recordId _)
              simpa using this
            · change PushLog pusher server []
                ((head :: rest).foldl (failChange now error.message) _).server
              rw [server_foldl (fun run change => server_failChange error.message run change)]
              exact .done server
            · rw [List.append_nil, hhead]
              exact Attempt.of_notes _ (notes_of_failures hnotes hall (List.cons_ne_nil _ _))
                (fun change h => h) (fun change h => Or.inl (by rw [hall change h]; exact hbad))
                (fun change h => Or.inr (by rw [hall change h]; exact hbad))

end Batch

/-! ### The outbox -/

section Outbox

variable {σ : Type} {pusher : ChangePusher σ} {now : Time} {bad : RecordId → Prop}

/-- One batch of the outbox, less what builds on a failed change. -/
theorem pushRest_step (hserver : RefusesRecords pusher bad)
    {start run : PushRun σ} (hstart : start.failed = []) {done : List PendingChange}
    (batch : List PendingChange) {log : List PushEvent} {failed : List RecordId}
    (hadds : start.Adds now log failed run) (hlog : PushLog pusher start.server log run.server)
    (h : Attempt bad done log failed) :
    ∃ run' log' failed', pushRest pusher now run batch = .ok run' ∧
      start.Adds now log' failed' run' ∧ PushLog pusher start.server log' run'.server ∧
        Attempt bad (done ++ batch) log' failed' := by
  have hfailed : run.failed = failed := by rw [hadds.failed, hstart, List.nil_append]
  have hsplit : ∀ change, change ∈ done ++ batch.filter (·.recordId ∉ failed) ++
      batch.filter (·.recordId ∈ failed) ↔ change ∈ done ++ batch := by
    intro change
    by_cases hmem : change.recordId ∈ failed <;> simp [hmem]
  unfold pushRest
  rw [hfailed]
  dsimp only
  split
  · obtain ⟨run', log', failed', hok, hadds', hlog', hattempt⟩ :=
      @pushBatch_spec _ _ now _ hserver (batch.filter (·.recordId ∉ failed)) run
    refine ⟨run', log ++ log', failed ++ failed', hok, hadds.trans hadds', hlog.trans hlog', ?_⟩
    have hboth := h.append hattempt fun change hchange => by
      simpa using (List.mem_filter.1 hchange).2
    refine (hboth.skip fun change hchange => ?_).congr hsplit
    exact List.mem_append_left _ (by simpa using (List.mem_filter.1 hchange).2)
  · next hnone =>
      refine ⟨run, log, failed, rfl, hadds, hlog, ?_⟩
      have hnil : batch.filter (·.recordId ∉ failed) = [] :=
        List.length_eq_zero_iff.1 (Nat.eq_zero_of_not_pos hnone)
      rw [hnil, List.append_nil] at hsplit
      exact (h.skip fun change hchange => by
        simpa using (List.mem_filter.1 hchange).2).congr hsplit

theorem pushRest_run (hserver : RefusesRecords pusher bad)
    {start : PushRun σ} (hstart : start.failed = []) (batches : List (List PendingChange)) :
    ∀ {run : PushRun σ} {done : List PendingChange} {log : List PushEvent}
      {failed : List RecordId}, start.Adds now log failed run →
      PushLog pusher start.server log run.server → Attempt bad done log failed →
      ∃ run' log' failed', batches.foldlM (pushRest pusher now) run = .ok run' ∧
        start.Adds now log' failed' run' ∧ PushLog pusher start.server log' run'.server ∧
          Attempt bad (done ++ batches.flatten) log' failed' := by
  induction batches with
  | nil =>
      intro run done log failed hadds hlog h
      exact ⟨run, log, failed, rfl, hadds, hlog, by simpa using h⟩
  | cons batch batches ih =>
      intro run done log failed hadds hlog h
      obtain ⟨run₁, log₁, failed₁, hok₁, hadds₁, hlog₁, h₁⟩ :=
        pushRest_step hserver hstart batch hadds hlog h
      obtain ⟨run₂, log₂, failed₂, hok₂, hadds₂, hlog₂, h₂⟩ := ih hadds₁ hlog₁ h₁
      refine ⟨run₂, log₂, failed₂, ?_, hadds₂, hlog₂, ?_⟩
      · rw [List.foldlM_cons, hok₁]
        exact hok₂
      · rwa [List.flatten_cons, ← List.append_assoc]

/-- An entry after one was changed. -/
theorem of_mem_updateEntry {changeId : ChangeId} {f : OutboxEntry → OutboxEntry} {db : LocalDb}
    {entry : OutboxEntry} (h : entry ∈ (updateEntry changeId f db).outbox) :
    ∃ entry₀ ∈ db.outbox, entry = entry₀ ∨ entry₀.changeId = changeId ∧ entry = f entry₀ := by
  obtain ⟨entry₀, hmem, heq⟩ := List.mem_map.1 h
  split at heq
  · next hid => exact ⟨entry₀, hmem, Or.inr ⟨hid, heq.symm⟩⟩
  · exact ⟨entry₀, hmem, Or.inl heq.symm⟩

/-- What an event leaves of an outbox entry. -/
theorem attempts_apply {event : PushEvent} {db : LocalDb} {entry : OutboxEntry}
    (h : entry ∈ (event.apply now db).outbox) :
    ∃ entry₀ ∈ db.outbox, entry₀.changeId = entry.changeId ∧
      (entry.attempts = entry₀.attempts ∨
        ∃ change, event.countedChange? = some change ∧ change.changeId = entry.changeId) := by
  cases event with
  | sent batch answer => exact ⟨entry, h, rfl, Or.inl rfl⟩
  | acked change serverRow =>
      refine ⟨entry, ?_, rfl, Or.inl rfl⟩
      change entry ∈ (ackPendingChange change.changeId serverRow db).outbox at h
      unfold ackPendingChange at h
      split at h
      · exact h
      · dsimp only at h
        split at h
        · exact (List.mem_filter.1 h).1
        · exact (List.mem_filter.1 h).1
  | failed change message count =>
      obtain ⟨entry₀, hmem, rfl | ⟨hid, rfl⟩⟩ := of_mem_updateEntry h
      · exact ⟨entry, hmem, rfl, Or.inl rfl⟩
      · cases count with
        | false => exact ⟨entry₀, hmem, rfl, Or.inl rfl⟩
        | true => exact ⟨entry₀, hmem, rfl, Or.inr ⟨change, rfl, hid.symm⟩⟩
  | parked change message =>
      obtain ⟨entry₀, hmem, rfl | ⟨hid, rfl⟩⟩ := of_mem_updateEntry h
      · exact ⟨entry, hmem, rfl, Or.inl rfl⟩
      · exact ⟨entry₀, hmem, rfl, Or.inr ⟨change, rfl, hid.symm⟩⟩

/-- What a log leaves of an outbox entry: its count grew only if the log counts a failure on it. -/
theorem attempts_applyAll (log : List PushEvent) {db : LocalDb} {entry : OutboxEntry}
    (h : entry ∈ (log.foldl (PushEvent.apply now) db).outbox) :
    ∃ entry₀ ∈ db.outbox, entry₀.changeId = entry.changeId ∧
      (entry.attempts = entry₀.attempts ∨ ∃ event ∈ log, ∃ change,
        event.countedChange? = some change ∧ change.changeId = entry.changeId) := by
  induction log using List.reverseRecOn generalizing entry with
  | nil => exact ⟨entry, h, rfl, Or.inl rfl⟩
  | append_singleton log event ih =>
      rw [List.foldl_append] at h
      obtain ⟨entry₁, hmem₁, hid₁, hattempts₁⟩ := attempts_apply h
      obtain ⟨entry₀, hmem₀, hid₀, hattempts₀⟩ := ih hmem₁
      refine ⟨entry₀, hmem₀, hid₀.trans hid₁, ?_⟩
      rcases hattempts₁ with hsame₁ | ⟨change, hchange, hid⟩
      · rcases hattempts₀ with hsame₀ | ⟨e, he, change, hchange, hid⟩
        · exact Or.inl (hsame₁.trans hsame₀)
        · exact Or.inr ⟨e, List.mem_append_left _ he, change, hchange, hid.trans hid₁⟩
      · exact Or.inr ⟨event, by simp, change, hchange, hid⟩

/-- A change that was acknowledged has left the outbox. -/
theorem ne_of_mem_ackPendingChange {changeId : ChangeId} {serverRow : Option EncryptedRecord}
    {db : LocalDb} {entry : OutboxEntry}
    (h : entry ∈ (ackPendingChange changeId serverRow db).outbox) : entry.changeId ≠ changeId := by
  unfold ackPendingChange at h
  cases hfind : db.entry? changeId with
  | none =>
      rw [hfind] at h
      simpa using List.find?_eq_none.1 hfind entry h
  | some found =>
      rw [hfind] at h
      cases serverRow with
      | none => simpa using (List.mem_filter.1 h).2
      | some row => simpa using (List.mem_filter.1 h).2

/-- It stays out: no other note brings an entry back. -/
theorem ne_of_acked (log : List PushEvent) {db : LocalDb} {entry : OutboxEntry}
    (h : entry ∈ (log.foldl (PushEvent.apply now) db).outbox) {change : PendingChange}
    {serverRow : Option EncryptedRecord} (hacked : .acked change serverRow ∈ log) :
    entry.changeId ≠ change.changeId := by
  induction log using List.reverseRecOn generalizing entry with
  | nil => cases hacked
  | append_singleton log event ih =>
      rw [List.foldl_append] at h
      rcases List.mem_append.1 hacked with hbefore | hlast
      · obtain ⟨entry₀, hmem₀, hid, -⟩ := attempts_apply h
        exact hid ▸ ih hmem₀ hbefore
      · obtain rfl := List.mem_singleton.1 hlast
        exact ne_of_mem_ackPendingChange h

/-- **Refused records don't hold up the others.**  A push of the outbox to a server that refuses a
batch as a whole exactly for the records of a set ends.  Its log is one of the server's own answers,
one batch after the other, and of what they say of each change, and the store holds what the log
wrote.  The server processes every change of every other record that no parked change holds, or it
turned down a change of that record itself.  A change it applied is acknowledged and leaves the
outbox.  A failure is counted only on changes of refused records, or on changes the server turned
down.  After a failure of a change, nothing of its record is sent.  Where the server takes every
change of a batch it processes, nothing is turned down. -/
theorem pushOutbox_isolates (pusher : ChangePusher σ) (bad : RecordId → Prop)
    (hserver : RefusesRecords pusher bad) (prepareOutbox : LocalDb → LocalDb) (now : Time)
    (db : LocalDb) (server : σ) :
    ∃ run, pushOutbox (some pusher) prepareOutbox now db server = .ok run ∧
      PushLog pusher server run.log run.server ∧
      run.db = run.log.foldl (PushEvent.apply now) (prepareOutbox db) ∧
      (∀ change ∈ getPendingChanges (prepareOutbox db),
        change.recordId ∉ heldRecords (getPendingChanges (prepareOutbox db)) →
        ¬bad change.recordId →
          Processed run.log change ∨
            ∃ other, TurnedDown run.log other ∧ other.recordId = change.recordId) ∧
      (∀ batch results, .sent batch (.ok results) ∈ run.log → ∀ change ∈ batch,
        ∀ changeId record, resultOf results change.changeId = some (.applied changeId record) →
          .acked change (some record) ∈ run.log ∧
            ∀ entry ∈ run.db.outbox, entry.changeId ≠ change.changeId) ∧
      (∀ entry ∈ run.db.outbox, ∃ entry₀ ∈ (prepareOutbox db).outbox,
        entry₀.changeId = entry.changeId ∧
          (entry.attempts = entry₀.attempts ∨
            ∃ change ∈ getPendingChanges (prepareOutbox db), change.changeId = entry.changeId ∧
              (bad change.recordId ∨ TurnedDown run.log change))) ∧
      (∀ event ∈ run.log, ∀ change, event.countedChange? = some change →
        bad change.recordId ∨ TurnedDown run.log change) ∧
      NothingAfterFailure run.log ∧
      ((∀ server (batch : List PendingChange) results,
          (pusher server (batch.map toPushChange)).2 = .ok results →
          ∀ change ∈ batch, settles results change = true) →
        ∀ change, ¬TurnedDown run.log change) := by
  have hrefl : PushRun.Adds now [] [] (⟨prepareOutbox db, server, [], false, []⟩ : PushRun σ)
      ⟨prepareOutbox db, server, [], false, []⟩ := PushRun.Adds.refl _
  obtain ⟨run, log, failed, hok, hadds, hanswers, h⟩ := pushRest_run hserver rfl
    (pushBatches .default (unheldChanges (getPendingChanges (prepareOutbox db)))) hrefl
    (.done server) (Attempt.nil bad)
  obtain rfl : run.log = log := hadds.log
  have hperm : ∀ change, change ∈ [] ++ (pushBatches .default
      (unheldChanges (getPendingChanges (prepareOutbox db)))).flatten ↔
        change ∈ unheldChanges (getPendingChanges (prepareOutbox db)) :=
    fun change => (pushBatches_perm _ (by decide)).mem_iff
  have hround := h.congr hperm
  refine ⟨run, hok, hanswers, hadds.db, fun change hchange hfree hgood => ?_,
    fun batch results hsent change hchange changeId record happlied => ?_, fun entry hentry => ?_,
    fun event hevent change hchange => (hround.counted event hevent change hchange).2,
    hround.ordered, ?_⟩
  · have hmem : change ∈ unheldChanges (getPendingChanges (prepareOutbox db)) :=
      List.mem_filter.2 ⟨hchange, by simpa using hfree⟩
    exact (hround.processed change hmem).imp_right (·.resolve_left hgood)
  · obtain ⟨event, hevent, hnote⟩ := hanswers.note hsent hchange
    rw [hnote.eq_acked happlied] at hevent
    refine ⟨hevent, fun entry hentry => ?_⟩
    rw [hadds.db] at hentry
    exact ne_of_acked run.log hentry hevent
  · rw [hadds.db] at hentry
    obtain ⟨entry₀, hmem, hid, hattempts⟩ := attempts_applyAll run.log hentry
    refine ⟨entry₀, hmem, hid, hattempts.imp_right ?_⟩
    rintro ⟨event, hevent, change, hchange, hsame⟩
    obtain ⟨hpending, hwhy⟩ := hround.counted event hevent change hchange
    exact ⟨change, (List.mem_filter.1 hpending).1, hsame, hwhy⟩
  · rintro htakes change ⟨batch, results, hsent, hchange, hdown⟩
    obtain ⟨server', hanswer⟩ := hanswers.answer hsent
    rw [htakes server' batch results hanswer change hchange] at hdown
    cases hdown

/-- What a server without the record makes of a change. -/
def appliedRow (change : PushChange) : EncryptedRecord where
  recordId := change.recordId
  vaultId := change.vaultId
  content :=
    match change.op with
    | .put content => content
    | .delete _ => ⟨[], [], 1, 1⟩
  version := change.baseVersion + 1
  clientUpdatedAt := change.clientUpdatedAt
  createdAt := some 0
  updatedAt := some 0
  deletedAt :=
    match change.op with
    | .put _ => none
    | .delete _ => some 0
  tombstoneKind :=
    match change.op with
    | .put _ => none
    | .delete kind => kind

/-- A server that refuses every batch with a change of one record and applies all others. -/
def refusing (recordId : RecordId) : ChangePusher Unit := fun _ batch =>
  if ∃ change ∈ batch, change.recordId = recordId then ((), .error ⟨false, []⟩)
  else ((), .ok (batch.map fun change => .applied change.clientChangeId (appliedRow change)))

theorem refusing_refuses (recordId : RecordId) :
    RefusesRecords (refusing recordId) (· = recordId) where
  refused := fun server batch h => by
    refine ⟨⟨false, []⟩, ?_, rfl⟩
    unfold refusing
    rw [if_pos h]
  processed := fun server batch h => by
    refine ⟨batch.map fun change => .applied change.clientChangeId (appliedRow change), ?_⟩
    unfold refusing
    rw [if_neg fun ⟨change, hchange, hid⟩ => h change hchange hid]

/-- The last answer with an id is the last one's that has it. -/
theorem resultOf_applied {batch : List PendingChange} {change : PendingChange}
    (h : change ∈ batch) :
    ∃ other, resultOf ((batch.map toPushChange).map fun change =>
      PushResult.applied change.clientChangeId (appliedRow change)) change.changeId =
        some (.applied change.changeId (appliedRow other)) := by
  unfold resultOf
  cases hfind : ((batch.map toPushChange).map fun change =>
      PushResult.applied change.clientChangeId (appliedRow change)).reverse.find?
        (·.clientChangeId = change.changeId) with
  | none =>
      have hmem : PushResult.applied change.changeId (appliedRow (toPushChange change)) ∈
          ((batch.map toPushChange).map fun change =>
            PushResult.applied change.clientChangeId (appliedRow change)).reverse :=
        List.mem_reverse.2 (List.mem_map.2 ⟨_, List.mem_map_of_mem h, rfl⟩)
      exact absurd (decide_eq_true rfl) (List.find?_eq_none.1 hfind _ hmem)
  | some result =>
      obtain ⟨other, -, rfl⟩ := List.mem_map.1 (List.mem_reverse.1 (List.mem_of_find?_eq_some hfind))
      have hfound := List.find?_some hfind
      have hid : other.clientChangeId = change.changeId := of_decide_eq_true hfound
      exact ⟨other, by rw [hid]⟩

theorem refusing_applies {recordId : RecordId} {server : Unit} {batch : List PendingChange}
    {results : List PushResult}
    (h : (refusing recordId server (batch.map toPushChange)).2 = .ok results)
    {change : PendingChange} (hchange : change ∈ batch) :
    ∃ record, resultOf results change.changeId = some (.applied change.changeId record) := by
  unfold refusing at h
  split at h
  · cases h
  · obtain rfl := Except.ok.inj h
    obtain ⟨other, hresult⟩ := resultOf_applied hchange
    exact ⟨_, hresult⟩

/-- A device with an unsent edit of each of two records. -/
def twoWaiting : LocalDb :=
  { LocalDb.empty with
    records := [⟨(waitingEdit 10 1 1 []).record, .pending⟩, ⟨(waitingEdit 20 2 1 []).record, .pending⟩]
    outbox := [⟨1, 10, 1, 1, 0, none, none, 0⟩, ⟨2, 20, 2, 1, 0, none, none, 0⟩] }

/-- The first record is refused; the edit of the second one is processed, and leaves the outbox. -/
theorem pushOutbox_isolates_second :
    ∃ run, pushOutbox (some (refusing 1)) id 0 twoWaiting () = .ok run ∧
      PushLog (refusing 1) () run.log run.server ∧
      Processed run.log (waitingEdit 20 2 1 []) ∧
      (∃ record, .acked (waitingEdit 20 2 1 []) (some record) ∈ run.log) ∧
      ∀ entry ∈ run.db.outbox, entry.changeId = 10 := by
  obtain ⟨run, hok, hlog, -, hprocessed, hacked, hentries, -, -, htaken⟩ :=
    pushOutbox_isolates (refusing 1) (· = 1) (refusing_refuses 1) id 0 twoWaiting ()
  have hnone := htaken fun server batch results hanswer change hchange => by
    obtain ⟨record, hresult⟩ := refusing_applies hanswer hchange
    simp [settles, hresult]
  have hpending : waitingEdit 20 2 1 [] ∈ getPendingChanges twoWaiting := by decide
  have hsent : Processed run.log (waitingEdit 20 2 1 []) := by
    refine (hprocessed _ hpending (by decide) (by decide)).resolve_right ?_
    rintro ⟨other, hdown, -⟩
    exact hnone other hdown
  obtain ⟨batch, results, hsent', hchange⟩ := id hsent
  obtain ⟨server, hanswer⟩ := hlog.answer hsent'
  obtain ⟨record, hresult⟩ := refusing_applies hanswer hchange
  obtain ⟨hack, hgone⟩ := hacked batch results hsent' _ hchange _ record hresult
  refine ⟨run, hok, hlog, hsent, ⟨record, hack⟩, fun entry hentry => ?_⟩
  obtain ⟨entry₀, hmem₀, hid, -⟩ := hentries entry hentry
  have hne := hgone entry hentry
  have hids : entry₀.changeId = 10 ∨ entry₀.changeId = 20 := by
    simp only [twoWaiting, List.mem_cons, List.not_mem_nil, or_false, id] at hmem₀
    rcases hmem₀ with rfl | rfl
    · exact Or.inl rfl
    · exact Or.inr rfl
  rw [hid] at hids
  exact hids.resolve_right hne

/-- An unsent edit of a record with some content. -/
def longEdit (data : Text) (version : ℕ) : PendingChange := waitingEdit version 1 version data

/-- A device with five of them. -/
def longChain (data : Text) : LocalDb :=
  { LocalDb.empty with
    records := (List.range' 1 5).map fun version => ⟨(longEdit data version).record, .pending⟩
    outbox := (List.range' 1 5).map fun version => ⟨version, version, 1, version, 0, none, none, 0⟩ }

/-- Where the content is long, five of them don't fit into one batch. -/
theorem batches_longChain {data : Text} (h : data.length = 170000) :
    pushBatches .default (unheldChanges (getPendingChanges (longChain data))) =
      [(List.range' 1 4).map (longEdit data), [longEdit data 5]] := by
  have hbytes : ∀ version, (longEdit data version).bytes = 170256 := fun version => by
    change data.length + recordVersionOverheadBytes = 170256
    rw [h, recordVersionOverheadBytes]
  have hunheld : unheldChanges (getPendingChanges (longChain data)) =
      (List.range' 1 5).map (longEdit data) := rfl
  have hchains : groupChains ((List.range' 1 5).map (longEdit data)) =
      [(1, (List.range' 1 5).map (longEdit data))] := rfl
  rw [hunheld, pushBatches, hchains]
  simp [cutChain, cutChange, hbytes, PushLimits.fits, PushLimits.default, maxPushChanges,
    maxPushBytes, Piece.empty, Cutting.addPiece, List.range'_succ]

/-- A server whose vaults all have another key by now: it refuses no batch. -/
def rotated : ChangePusher Unit := fun _ batch =>
  ((), .ok (batch.map fun change => .rejected change.clientChangeId .keyVersion))

/-- Four of the five are sent and counted as failed. -/
theorem push_longChain {data : Text} (h : data.length = 170000) :
    ∃ run, pushOutbox (some rotated) id 0 (longChain data) () = .ok run ∧
      run.log.flatMap (·.sentChanges) = (List.range' 1 4).map (longEdit data) ∧
      run.log.filterMap (·.countedChange?) = (List.range' 1 4).map (longEdit data) ∧
      run.db.outbox.map (·.attempts) = [1, 1, 1, 1, 0] := by
  unfold pushOutbox
  dsimp only [id]
  rw [batches_longChain h, List.foldlM_cons, pushRest, if_pos, pushBatch]
  · refine ⟨_, rfl, ?_, ?_, ?_⟩
    · rfl
    · rfl
    · rfl
  · exact Nat.zero_lt_succ 3

/-- **What the server's own answer holds up.**  No record is refused.  The first four edits of a record
are under an old key and counted as failed, and the fifth, in the next batch, is not sent. -/
theorem rotated_holds_up :
    RefusesRecords rotated (fun _ => False) ∧
      ∃ run, pushOutbox (some rotated) id 0 (longChain (List.replicate 170000 'A')) () = .ok run ∧
        (∃ change ∈ getPendingChanges (longChain (List.replicate 170000 'A')),
          change.recordId ∉ heldRecords
            (getPendingChanges (longChain (List.replicate 170000 'A'))) ∧
          ¬Processed run.log change) ∧
        (run.log.filterMap (·.countedChange?)).map (·.record.version) = [1, 2, 3, 4] ∧
        run.db.outbox.map (·.attempts) = [1, 1, 1, 1, 0] := by
  generalize hdata : List.replicate 170000 'A' = data
  have hlength : data.length = 170000 := by rw [← hdata, List.length_replicate]
  obtain ⟨run, hok, hsent, hcounted, hattempts⟩ := push_longChain hlength
  refine ⟨⟨fun _ _ ⟨_, _, h⟩ => h.elim, fun _ _ _ => ⟨_, rfl⟩⟩, run, hok,
    ⟨longEdit data 5, ?_, ?_, ?_⟩, ?_, hattempts⟩
  · exact List.mem_map_of_mem (f := longEdit data) (a := 5) (by decide : 5 ∈ List.range' 1 5)
  · exact List.not_mem_nil
  · rintro ⟨batch, results, hmem, hchange⟩
    have hin : longEdit data 5 ∈ run.log.flatMap (·.sentChanges) :=
      List.mem_flatMap.2 ⟨_, hmem, hchange⟩
    rw [hsent] at hin
    obtain ⟨version, hversion, heq⟩ := List.mem_map.1 hin
    obtain rfl : version = 5 := congrArg PendingChange.changeId heq
    revert hversion
    decide
  · rw [hcounted]
    rfl

end Outbox

end Passmgr
