/-
# Pushing the outbox

`pushOutbox` and `pushBatch` of `packages/client/src/sync-manager.ts`: the pending changes go to the
server in batches.  A batch the server refuses as a whole is split by record, down to the record
whose changes it refuses; the answers to a batch it processed are taken one by one.

The server is a parameter: a state, and its answer to a batch in a state.  A run keeps a log of what
was sent and of what was written to the outbox, in order.

Main definitions:

* `PushFailure`, `ChangePusher` — what a push may answer;
* `PushEvent`, `PushRun` — what was done so far;
* `pushBatch`, `pushOutbox` — the recursion over halves, and the loop over batches;
* `ResultNote`, `FailNote` — what is written of a change, after which answer;
* `PushLog` — a log in which the server answered every batch, and every answer was taken.

Main results:

* `takeResults_run`, `failChanges_run` — the loops over a batch write one note per change;
* `PushLog.answer`, `PushLog.note` — where the entries of a log come from.
-/

import Passmgr.PushBatches
import Passmgr.RowByRow

set_option relaxedAutoImplicit false
set_option autoImplicit false

namespace Passmgr

/-! ### The server's side -/

/-- An error of a push: whether it is about the round rather than the batch, and its message. -/
structure PushFailure where
  stopsRound : Bool
  message : Text
  deriving DecidableEq, Repr

/-- Send a batch of changes to the server: it answers one result per change or refuses the batch. -/
abbrev ChangePusher (σ : Type) := σ → List PushChange → σ × Except PushFailure (List PushResult)

/-- The result for a change; of several the last counts. -/
def resultOf (results : List PushResult) (changeId : ChangeId) : Option PushResult :=
  results.reverse.find? (·.clientChangeId = changeId)

def Rejection.text : Rejection → String
  | .notFound => "not_found"
  | .forbidden => "forbidden"
  | .keyVersion => "key_version"
  | .quota => "quota"

/-- `failureMessage`. -/
def failureMessage : Option PushResult → Text
  | none => "no answer from the server".toList
  | some (.stale _ headVersion) => s!"stale: the server is at version {headVersion}".toList
  | some (.rejected _ reason) => s!"rejected: {reason.text}".toList
  | some (.applied _ _) => []

/-! ### A run -/

/-- A change failing this many pushes is parked. -/
def maxPushAttempts : ℕ := 8

/-- What a push does: send a batch, and write what became of a change. -/
inductive PushEvent
  | sent (batch : List PendingChange) (answer : Except PushFailure (List PushResult))
  | acked (change : PendingChange) (serverRow : Option EncryptedRecord)
  | failed (change : PendingChange) (message : Text) (count : Bool)
  | parked (change : PendingChange) (message : Text)

/-- What an event writes to the store. -/
def PushEvent.apply (now : Time) (db : LocalDb) : PushEvent → LocalDb
  | .sent _ _ => db
  | .acked change serverRow => ackPendingChange change.changeId serverRow db
  | .failed change message count => failPendingChange change.changeId message count db
  | .parked change message => parkPendingChange change.changeId message now db

/-- A push under way: the store, the server, the records with a change that wasn't applied, and
what was done. -/
structure PushRun (σ : Type) where
  db : LocalDb
  server : σ
  failed : List RecordId
  storageFull : Bool
  log : List PushEvent

namespace PushRun

variable {σ : Type}

def emit (now : Time) (event : PushEvent) (run : PushRun σ) : PushRun σ :=
  { run with db := event.apply now run.db, log := run.log ++ [event] }

/-- Remember that a change of a record wasn't applied. -/
def addFailed (recordId : RecordId) (run : PushRun σ) : PushRun σ :=
  { run with failed := run.failed ++ [recordId] }

end PushRun

section Push

variable {σ : Type}

/-- `fail`: count a failed push, parking the change once it has failed too often. -/
def failChange (now : Time) (message : Text) (run : PushRun σ) (change : PendingChange) :
    PushRun σ :=
  if maxPushAttempts ≤ change.attempts + 1 then run.emit now (.parked change message)
  else run.emit now (.failed change message true)

/-- What becomes of a change of a batch the server processed. -/
def takeResult (now : Time) (results : List PushResult) (run : PushRun σ)
    (change : PendingChange) : PushRun σ :=
  let result := resultOf results change.changeId
  match result with
  | some (.applied _ record) => run.emit now (.acked change (some record))
  | some (.rejected _ reason) =>
    -- A purge of a record the server never got (its create never arrived): done.
    if reason = .notFound ∧ change.record.tombstoneKind = some .purged then
      run.emit now (.acked change none)
    -- Under a key the vault rotated away from: counted, in case the new one never comes.
    else if reason = .keyVersion then
      failChange now (failureMessage result) (run.addFailed change.recordId) change
    else
      let run := run.addFailed change.recordId
      let run := { run with storageFull := run.storageFull || decide (reason = Rejection.quota) }
      run.emit now (.parked change (failureMessage result))
  -- Another device wrote first: the pull merges it, so it never counts.
  | some (.stale _ _) =>
    (run.addFailed change.recordId).emit now (.failed change (failureMessage result) false)
  | none => failChange now (failureMessage result) (run.addFailed change.recordId) change

/-- The chains of a refused batch, cut in two. -/
def halves (batch : List PendingChange) : List PendingChange × List PendingChange :=
  let chains := (groupChains batch).map (·.2)
  let half := (chains.length + 1) / 2
  ((chains.take half).flatten, (chains.drop half).flatten)

theorem halves_append (batch : List PendingChange) :
    (halves batch).1 ++ (halves batch).2 = (groupChains batch).flatMap (·.2) := by
  unfold halves
  dsimp only
  rw [← List.flatten_append, List.take_append_drop, List.flatMap_def]

theorem halves_perm (batch : List PendingChange) :
    ((halves batch).1 ++ (halves batch).2).Perm batch := by
  rw [halves_append]
  exact GroupBy.groupBy_perm _ batch

theorem flatten_ne_nil_of_mem_chains {batch : List PendingChange}
    {chains : List (List PendingChange)} (hne : chains ≠ [])
    (h : ∀ chain ∈ chains, chain ∈ (groupChains batch).map (·.2)) : chains.flatten ≠ [] := by
  obtain ⟨chain, rest, rfl⟩ := List.exists_cons_of_ne_nil hne
  obtain ⟨⟨recordId, chain'⟩, hmem, rfl⟩ := List.mem_map.1 (h chain List.mem_cons_self)
  have hchain := ((GroupBy.mem_groupBy PendingChange.recordId).1 hmem).2
  rw [List.flatten_cons]
  exact List.append_ne_nil_of_left_ne_nil hchain _

/-- Each half of a batch of several records is shorter than the batch. -/
theorem halves_shorter {batch : List PendingChange} (h : 1 < (groupChains batch).length) :
    (halves batch).1.length < batch.length ∧ (halves batch).2.length < batch.length := by
  have hlength := (halves_perm batch).length_eq
  rw [List.length_append] at hlength
  have hcount : ((groupChains batch).map (·.2)).length = (groupChains batch).length :=
    List.length_map _
  have hfirst : (halves batch).1 ≠ [] := by
    refine @flatten_ne_nil_of_mem_chains batch _ ?_ fun chain => List.mem_of_mem_take
    rw [← List.length_pos_iff, List.length_take]
    omega
  have hsecond : (halves batch).2 ≠ [] := by
    refine @flatten_ne_nil_of_mem_chains batch _ ?_ fun chain => List.mem_of_mem_drop
    rw [← List.length_pos_iff, List.length_drop]
    omega
  have hfirst := List.length_pos_iff.2 hfirst
  have hsecond := List.length_pos_iff.2 hsecond
  exact ⟨by omega, by omega⟩

/-- `pushBatch`: push one batch and take the results.  A batch the server refuses as a whole is
split by record.  An error about the round ends the push where it is. -/
def pushBatch (pusher : ChangePusher σ) (now : Time) (batch : List PendingChange)
    (run : PushRun σ) : Except (PushFailure × PushRun σ) (PushRun σ) :=
  let (server, answer) := pusher run.server (batch.map toPushChange)
  let run := { run with server := server }.emit now (.sent batch answer)
  match answer with
  | .ok results => .ok (batch.foldl (takeResult now results) run)
  | .error error =>
    if error.stopsRound then .error (error, run)
    else if _h : 1 < (groupChains batch).length then
      match pushBatch pusher now (halves batch).1 run with
      | .error stopped => .error stopped
      | .ok run => pushBatch pusher now (halves batch).2 run
    else
      let run := batch.foldl (failChange now error.message) run
      .ok (match batch with
        | [] => run
        | change :: _ => run.addFailed change.recordId)
termination_by batch.length
decreasing_by
  · exact (halves_shorter _h).1
  · exact (halves_shorter _h).2

/-- One turn of the loop of `pushOutbox`. -/
def pushRest (pusher : ChangePusher σ) (now : Time) (run : PushRun σ)
    (batch : List PendingChange) : Except (PushFailure × PushRun σ) (PushRun σ) :=
  -- The rest of a chain too long for one batch builds on what failed.
  let rest := batch.filter (·.recordId ∉ run.failed)
  if 0 < rest.length then pushBatch pusher now rest run else .ok run

/-- The records with a parked change: they and what they wrote after it are not pushed. -/
def heldRecords (changes : List PendingChange) : List RecordId :=
  (changes.filter (·.parkedAt.isSome)).map (·.recordId)

/-- The changes a push of the outbox sends. -/
def unheldChanges (changes : List PendingChange) : List PendingChange :=
  changes.filter (·.recordId ∉ heldRecords changes)

/-- `pushOutbox`: push the pending changes in batches, except parked ones and whatever their records
wrote after them.  Every pushed change was applied when `failed` is empty. -/
def pushOutbox (pusher : Option (ChangePusher σ)) (prepareOutbox : LocalDb → LocalDb) (now : Time)
    (db : LocalDb) (server : σ) : Except (PushFailure × PushRun σ) (PushRun σ) :=
  match pusher with
  | none => .ok ⟨db, server, [], false, []⟩
  | some pusher =>
    let db := prepareOutbox db
    (pushBatches .default (unheldChanges (getPendingChanges db))).foldlM (pushRest pusher now)
      ⟨db, server, [], false, []⟩

end Push

/-- What a part of a push adds to a run: entries of the log, written to the store in their order, and
marked records. -/
structure PushRun.Adds {σ : Type} (now : Time) (events : List PushEvent) (failed : List RecordId)
    (run run' : PushRun σ) : Prop where
  log : run'.log = run.log ++ events
  failed : run'.failed = run.failed ++ failed
  db : run'.db = events.foldl (PushEvent.apply now) run.db

namespace PushRun.Adds

variable {σ : Type} {now : Time} {events events' : List PushEvent}
  {failed failed' : List RecordId} {run run' run'' : PushRun σ}

theorem refl (run : PushRun σ) : Adds now [] [] run run :=
  ⟨(List.append_nil _).symm, (List.append_nil _).symm, rfl⟩

theorem trans (h : Adds now events failed run run') (h' : Adds now events' failed' run' run'') :
    Adds now (events ++ events') (failed ++ failed') run run'' where
  log := by rw [h'.log, h.log, List.append_assoc]
  failed := by rw [h'.failed, h.failed, List.append_assoc]
  db := by rw [h'.db, h.db, List.foldl_append]

theorem emit (event : PushEvent) (run : PushRun σ) : Adds now [event] [] run (run.emit now event) :=
  ⟨rfl, (List.append_nil _).symm, rfl⟩

theorem addFailed (recordId : RecordId) (run : PushRun σ) :
    Adds now [] [recordId] run (run.addFailed recordId) :=
  ⟨(List.append_nil _).symm, rfl, rfl⟩

/-- The status and the server's state are no part of it. -/
theorem sameLog (h : Adds now events failed run run') (hlog : run''.log = run.log)
    (hfailed : run''.failed = run.failed) (hdb : run''.db = run.db) :
    Adds now events failed run'' run' :=
  ⟨hlog ▸ h.log, hfailed ▸ h.failed, hdb ▸ h.db⟩

end PushRun.Adds

/-! ### What a log says -/

/-- The server has taken a change, or never had what it purges. -/
def settles (results : List PushResult) (change : PendingChange) : Bool :=
  match resultOf results change.changeId with
  | some (.applied _ _) => true
  | some (.rejected _ reason) =>
    reason = .notFound && change.record.tombstoneKind = some .purged
  | some (.stale _ _) => false
  | none => false

namespace PushEvent

/-- The change an event says wasn't applied. -/
def failedChange? : PushEvent → Option PendingChange
  | .sent _ _ => none
  | .acked _ _ => none
  | .failed change _ _ => some change
  | .parked change _ => some change

/-- The change a failure is counted on. -/
def countedChange? : PushEvent → Option PendingChange
  | .sent _ _ => none
  | .acked _ _ => none
  | .failed change _ count => if count then some change else none
  | .parked change _ => some change

/-- The changes an event sends. -/
def sentChanges : PushEvent → List PendingChange
  | .sent batch _ => batch
  | _ => []

def isSent : PushEvent → Bool
  | .sent _ _ => true
  | _ => false

theorem sentChanges_of_not_isSent {event : PushEvent} (h : event.isSent = false) :
    event.sentChanges = [] := by
  cases event with
  | sent _ _ => cases h
  | acked _ _ => rfl
  | failed _ _ _ => rfl
  | parked _ _ => rfl

/-- A counted failure is one of a change that wasn't applied. -/
theorem failedChange?_of_counted {event : PushEvent} {change : PendingChange}
    (h : event.countedChange? = some change) : event.failedChange? = some change := by
  cases event with
  | sent _ _ => cases h
  | acked _ _ => cases h
  | parked _ _ => exact h
  | failed change' _ count =>
      cases count with
      | false => cases h
      | true => exact h

end PushEvent

/-- How a failed push of a change is written down: it is counted, or the change is parked once it
has failed too often. -/
inductive FailNote (change : PendingChange) (message : Text) : PushEvent → Prop
  | counted (h : change.attempts + 1 < maxPushAttempts) :
      FailNote change message (.failed change message true)
  | tooOften (h : maxPushAttempts ≤ change.attempts + 1) :
      FailNote change message (.parked change message)

/-- What is written down of a change, after the answers to a batch with it. -/
inductive ResultNote (results : List PushResult) (change : PendingChange) : PushEvent → Prop
  | applied {changeId : ChangeId} {record : EncryptedRecord}
      (h : resultOf results change.changeId = some (.applied changeId record)) :
      ResultNote results change (.acked change (some record))
  | neverThere {changeId : ChangeId}
      (h : resultOf results change.changeId = some (.rejected changeId .notFound))
      (hpurge : change.record.tombstoneKind = some .purged) :
      ResultNote results change (.acked change none)
  | stale {changeId : ChangeId} {headVersion : ℕ}
      (h : resultOf results change.changeId = some (.stale changeId headVersion)) :
      ResultNote results change
        (.failed change (failureMessage (some (.stale changeId headVersion))) false)
  | oldKey {changeId : ChangeId} {event : PushEvent}
      (h : resultOf results change.changeId = some (.rejected changeId .keyVersion))
      (hfail : FailNote change (failureMessage (some (.rejected changeId .keyVersion))) event) :
      ResultNote results change event
  | rejected {changeId : ChangeId} {reason : Rejection}
      (h : resultOf results change.changeId = some (.rejected changeId reason))
      (hpurge : ¬(reason = .notFound ∧ change.record.tombstoneKind = some .purged))
      (hkey : reason ≠ .keyVersion) :
      ResultNote results change
        (.parked change (failureMessage (some (.rejected changeId reason))))
  | unanswered {event : PushEvent} (h : resultOf results change.changeId = none)
      (hfail : FailNote change (failureMessage none) event) : ResultNote results change event

section Notes

variable {results : List PushResult} {change : PendingChange} {message : Text} {event : PushEvent}

theorem FailNote.not_isSent (h : FailNote change message event) : event.isSent = false := by
  cases h <;> rfl

theorem FailNote.failedChange?_eq (h : FailNote change message event) :
    event.failedChange? = some change := by
  cases h <;> rfl

theorem ResultNote.not_isSent (h : ResultNote results change event) : event.isSent = false := by
  cases h with
  | applied _ => rfl
  | neverThere _ _ => rfl
  | stale _ => rfl
  | oldKey _ hfail => exact hfail.not_isSent
  | rejected _ _ _ => rfl
  | unanswered _ hfail => exact hfail.not_isSent

/-- A note is one of a failure unless the answer settles the change. -/
theorem ResultNote.failedChange?_eq (h : ResultNote results change event) :
    event.failedChange? = if settles results change then none else some change := by
  cases h with
  | applied h => simp [settles, h, PushEvent.failedChange?]
  | neverThere h hpurge => simp [settles, h, hpurge, PushEvent.failedChange?]
  | stale h => simp [settles, h, PushEvent.failedChange?]
  | oldKey h hfail => simp [settles, h, hfail.failedChange?_eq]
  | rejected h hpurge hkey =>
      have hno : settles results change = false := by
        simpa [settles, h] using hpurge
      simp [hno, PushEvent.failedChange?]
  | unanswered h hfail => simp [settles, h, hfail.failedChange?_eq]

/-- A change that was applied is acknowledged with the row of its answer. -/
theorem ResultNote.eq_acked (h : ResultNote results change event) {changeId : ChangeId}
    {record : EncryptedRecord}
    (happlied : resultOf results change.changeId = some (.applied changeId record)) :
    event = .acked change (some record) := by
  cases h with
  | applied h => cases h.symm.trans happlied; rfl
  | neverThere h _ => cases h.symm.trans happlied
  | stale h => cases h.symm.trans happlied
  | oldKey h _ => cases h.symm.trans happlied
  | rejected h _ _ => cases h.symm.trans happlied
  | unanswered h _ => cases h.symm.trans happlied

end Notes

/-- A log of pushes that takes the server from one state to another: each batch is answered in the
state the batches before it left, and each change of a batch is written down as the answer says,
unless the batch was refused with several records in it. -/
inductive PushLog {σ : Type} (pusher : ChangePusher σ) : σ → List PushEvent → σ → Prop
  | done (server : σ) : PushLog pusher server [] server
  | processed {server next last : σ} {batch : List PendingChange} {results : List PushResult}
      {notes log : List PushEvent}
      (hanswer : pusher server (batch.map toPushChange) = (next, .ok results))
      (hnotes : List.Forall₂ (ResultNote results) batch notes)
      (hrest : PushLog pusher next log last) :
      PushLog pusher server (.sent batch (.ok results) :: (notes ++ log)) last
  | split {server next last : σ} {batch : List PendingChange} {error : PushFailure}
      {log : List PushEvent}
      (hanswer : pusher server (batch.map toPushChange) = (next, .error error))
      (hmany : 1 < (groupChains batch).length) (hrest : PushLog pusher next log last) :
      PushLog pusher server (.sent batch (.error error) :: log) last
  | refused {server next last : σ} {batch : List PendingChange} {error : PushFailure}
      {notes log : List PushEvent}
      (hanswer : pusher server (batch.map toPushChange) = (next, .error error))
      (hone : (groupChains batch).length ≤ 1)
      (hnotes : List.Forall₂ (fun change => FailNote change error.message) batch notes)
      (hrest : PushLog pusher next log last) :
      PushLog pusher server (.sent batch (.error error) :: (notes ++ log)) last

namespace PushLog

variable {σ : Type} {pusher : ChangePusher σ} {server next last : σ} {log log' : List PushEvent}

theorem trans (h : PushLog pusher server log next) (h' : PushLog pusher next log' last) :
    PushLog pusher server (log ++ log') last := by
  induction h with
  | done server => exact h'
  | processed hanswer hnotes _ ih =>
      rw [List.cons_append, List.append_assoc]
      exact .processed hanswer hnotes (ih h')
  | split hanswer hmany _ ih => exact .split hanswer hmany (ih h')
  | refused hanswer hone hnotes _ ih =>
      rw [List.cons_append, List.append_assoc]
      exact .refused hanswer hone hnotes (ih h')

/-- Nothing that is noted of a batch sends one. -/
theorem sent_of_mem_append {R : PendingChange → PushEvent → Prop}
    (hR : ∀ change event, R change event → event.isSent = false) {batch sent : List PendingChange}
    {answer : Except PushFailure (List PushResult)} {notes : List PushEvent}
    (hnotes : List.Forall₂ R batch notes) (h : .sent sent answer ∈ notes ++ log) :
    .sent sent answer ∈ log := by
  refine (List.mem_append.1 h).resolve_left fun hmem => ?_
  obtain ⟨change, -, hnote⟩ := RowByRow.exists_left hnotes hmem
  cases hR _ _ hnote

/-- Each answer of a log is the server's. -/
theorem answer (h : PushLog pusher server log last) {sent : List PendingChange}
    {answer : Except PushFailure (List PushResult)} (hsent : .sent sent answer ∈ log) :
    ∃ server, (pusher server (sent.map toPushChange)).2 = answer := by
  induction h with
  | done server => cases hsent
  | @processed server _ _ _ _ _ _ hanswer hnotes _ ih =>
      rcases List.mem_cons.1 hsent with heq | hsent
      · obtain ⟨rfl, rfl⟩ := PushEvent.sent.inj heq
        exact ⟨server, congrArg Prod.snd hanswer⟩
      · exact ih (sent_of_mem_append (fun _ _ => ResultNote.not_isSent) hnotes hsent)
  | @split server _ _ _ _ _ hanswer _ _ ih =>
      rcases List.mem_cons.1 hsent with heq | hsent
      · obtain ⟨rfl, rfl⟩ := PushEvent.sent.inj heq
        exact ⟨server, congrArg Prod.snd hanswer⟩
      · exact ih hsent
  | @refused server _ _ _ _ _ _ hanswer _ hnotes _ ih =>
      rcases List.mem_cons.1 hsent with heq | hsent
      · obtain ⟨rfl, rfl⟩ := PushEvent.sent.inj heq
        exact ⟨server, congrArg Prod.snd hanswer⟩
      · exact ih (sent_of_mem_append (fun _ _ => FailNote.not_isSent) hnotes hsent)

/-- Each change of a processed batch is written down as its answer says. -/
theorem note (h : PushLog pusher server log last) {sent : List PendingChange}
    {results : List PushResult} (hsent : .sent sent (.ok results) ∈ log) {change : PendingChange}
    (hchange : change ∈ sent) : ∃ event ∈ log, ResultNote results change event := by
  induction h with
  | done server => cases hsent
  | processed _ hnotes _ ih =>
      rcases List.mem_cons.1 hsent with heq | hsent
      · obtain ⟨rfl, hok⟩ := PushEvent.sent.inj heq
        obtain rfl := Except.ok.inj hok
        obtain ⟨event, hevent, hnote⟩ := RowByRow.exists_right hnotes hchange
        exact ⟨event, List.mem_cons_of_mem _ (List.mem_append_left _ hevent), hnote⟩
      · obtain ⟨event, hevent, hnote⟩ :=
          ih (sent_of_mem_append (fun _ _ => ResultNote.not_isSent) hnotes hsent)
        exact ⟨event, List.mem_cons_of_mem _ (List.mem_append_right _ hevent), hnote⟩
  | split _ _ _ ih =>
      rcases List.mem_cons.1 hsent with heq | hsent
      · cases (PushEvent.sent.inj heq).2
      · obtain ⟨event, hevent, hnote⟩ := ih hsent
        exact ⟨event, List.mem_cons_of_mem _ hevent, hnote⟩
  | refused _ _ hnotes _ ih =>
      rcases List.mem_cons.1 hsent with heq | hsent
      · cases (PushEvent.sent.inj heq).2
      · obtain ⟨event, hevent, hnote⟩ :=
          ih (sent_of_mem_append (fun _ _ => FailNote.not_isSent) hnotes hsent)
        exact ⟨event, List.mem_cons_of_mem _ (List.mem_append_right _ hevent), hnote⟩

end PushLog

/-! ### The loops over a batch -/

section Taking

variable {σ : Type} {now : Time}

theorem failChange_spec (message : Text) (run : PushRun σ) (change : PendingChange) :
    ∃ event, run.Adds now [event] [] (failChange now message run change) ∧
      FailNote change message event := by
  unfold failChange
  split
  · next hmany => exact ⟨_, PushRun.Adds.emit _ run, .tooOften hmany⟩
  · next hfew => exact ⟨_, PushRun.Adds.emit _ run, .counted (Nat.lt_of_not_le hfew)⟩

/-- One result: it is written down, and the record is marked unless the change is settled. -/
theorem takeResult_spec (results : List PushResult) (run : PushRun σ) (change : PendingChange) :
    ∃ event, run.Adds now [event] (if settles results change then [] else [change.recordId])
        (takeResult now results run change) ∧ ResultNote results change event := by
  have hfail : ∀ message, ∃ event, run.Adds now [event] [change.recordId]
      (failChange now message (run.addFailed change.recordId) change) ∧
        FailNote change message event := by
    intro message
    obtain ⟨event, hadds, hnote⟩ := @failChange_spec _ now message
      (run.addFailed change.recordId) change
    exact ⟨event, (PushRun.Adds.addFailed _ run).trans hadds, hnote⟩
  have hmark : ∀ event, run.Adds now [event] [change.recordId]
      ((run.addFailed change.recordId).emit now event) :=
    fun event => (PushRun.Adds.addFailed _ run).trans (PushRun.Adds.emit event _)
  cases hresult : resultOf results change.changeId with
  | none =>
      simp only [takeResult, settles, hresult]
      obtain ⟨event, hadds, hnote⟩ := hfail (failureMessage none)
      exact ⟨event, hadds, .unanswered hresult hnote⟩
  | some result =>
      cases result with
      | applied changeId record =>
          simp only [takeResult, settles, hresult]
          exact ⟨_, PushRun.Adds.emit _ run, .applied hresult⟩
      | stale changeId headVersion =>
          simp only [takeResult, settles, hresult]
          exact ⟨_, hmark _, .stale hresult⟩
      | rejected changeId reason =>
          simp only [takeResult, settles, hresult]
          by_cases hpurge : reason = .notFound ∧ change.record.tombstoneKind = some .purged
          · rw [if_pos hpurge, if_pos (by simp [hpurge.1, hpurge.2])]
            exact ⟨_, PushRun.Adds.emit _ run, .neverThere (hpurge.1 ▸ hresult) hpurge.2⟩
          rw [if_neg hpurge, if_neg (by simpa using hpurge)]
          by_cases hkey : reason = .keyVersion
          · subst hkey
            rw [if_pos rfl]
            obtain ⟨event, hadds, hnote⟩ :=
              hfail (failureMessage (some (.rejected changeId .keyVersion)))
            exact ⟨event, hadds, .oldKey hresult hnote⟩
          · rw [if_neg hkey]
            obtain ⟨hlog, hfailed, hdb⟩ :=
              hmark (.parked change (failureMessage (some (.rejected changeId reason))))
            exact ⟨_, ⟨hlog, hfailed, hdb⟩, .rejected hresult hpurge hkey⟩

/-- The records with a change the answers don't settle. -/
def unsettled (results : List PushResult) (batch : List PendingChange) : List RecordId :=
  (batch.filter (!settles results ·)).map (·.recordId)

/-- The loop over the results of a batch: one note per change. -/
theorem takeResults_run (results : List PushResult) (batch : List PendingChange)
    (run : PushRun σ) :
    ∃ notes, run.Adds now notes (unsettled results batch)
        (batch.foldl (takeResult now results) run) ∧
      List.Forall₂ (ResultNote results) batch notes := by
  induction batch generalizing run with
  | nil => exact ⟨[], PushRun.Adds.refl run, .nil⟩
  | cons change batch ih =>
      obtain ⟨event, hadds, hnote⟩ := @takeResult_spec _ now results run change
      obtain ⟨notes, hadds', hnotes⟩ := ih (takeResult now results run change)
      refine ⟨event :: notes, ?_, .cons hnote hnotes⟩
      have hboth := hadds.trans hadds'
      cases hsettles : settles results change <;>
        simpa [unsettled, hsettles] using hboth

/-- The loop over a refused batch of one record: one failure per change. -/
theorem failChanges_run (message : Text) (batch : List PendingChange) (run : PushRun σ) :
    ∃ notes, run.Adds now notes [] (batch.foldl (failChange now message) run) ∧
      List.Forall₂ (fun change => FailNote change message) batch notes := by
  induction batch generalizing run with
  | nil => exact ⟨[], PushRun.Adds.refl run, .nil⟩
  | cons change batch ih =>
      obtain ⟨event, hadds, hnote⟩ := @failChange_spec _ now message run change
      obtain ⟨notes, hadds', hnotes⟩ := ih (failChange now message run change)
      exact ⟨event :: notes, hadds.trans hadds', .cons hnote hnotes⟩

theorem server_failChange (message : Text) (run : PushRun σ) (change : PendingChange) :
    (failChange now message run change).server = run.server := by
  unfold failChange
  split <;> rfl

theorem server_takeResult (results : List PushResult) (run : PushRun σ) (change : PendingChange) :
    (takeResult now results run change).server = run.server := by
  unfold takeResult
  dsimp only
  split
  · rfl
  · split
    · rfl
    · split
      · exact server_failChange _ _ _
      · rfl
  · rfl
  · exact server_failChange _ _ _

/-- Only sending a batch reaches the server. -/
theorem server_foldl {f : PushRun σ → PendingChange → PushRun σ}
    (hf : ∀ run change, (f run change).server = run.server) (batch : List PendingChange)
    (run : PushRun σ) : (batch.foldl f run).server = run.server := by
  induction batch generalizing run with
  | nil => rfl
  | cons change batch ih => exact (ih (f run change)).trans (hf run change)

end Taking

end Passmgr
