import MiniDB.Recovery.Sessions

/-!
# What a crash leaves of the log

Every call of the log manager takes its mutex to append a record, and `logCommit` and a checkpoint
take it once more to flush. The calls of several threads interleave, also between the two. A crash
leaves the records before the last flush and some of those behind it, in the order of their log
sequence numbers, so that a `logCommit` that has returned is in every log that a crash leaves.

## Main definitions

* `LogCall`, `LogStep`: the calls of the log manager, and their steps under the mutex
* `Interleaves`: the steps of several threads, each in the order of its calls

## Main results

* `log_of_steps`: the log after any steps
* `LogManager.crash_keeps_commits`: what recovery finds after a crash
* `RecoveryManager.recover_checkpoints`: recovery passes over the checkpoints
-/

namespace MiniDB

/-- The calls that write to the log. -/
inductive LogCall
  | begin (txnId : Int32)
  | insert (txnId : Int32) (tableName : Str) (rid : RID) (data : Str)
  | delete (txnId : Int32) (tableName : Str) (rid : RID) (oldData : Str)
  | commit (txnId : Int32)
  | abort (txnId : Int32)
  | checkpoint
deriving DecidableEq

/-- A step under the mutex of the log manager. -/
inductive LogStep
  | append (rec : LogRecord)
  | flush
deriving DecidableEq

/-- The log after a step. -/
def LogStep.exec (log : LogManager) : LogStep → LogManager
  | .append rec => log.appendLog rec
  | .flush => log.flushLog

namespace LogCall

/-- The log after a call. -/
def exec (log : LogManager) : LogCall → LogManager
  | .begin txnId => log.logBegin txnId
  | .insert txnId tableName rid data => log.logInsert txnId tableName rid data
  | .delete txnId tableName rid oldData => log.logDelete txnId tableName rid oldData
  | .commit txnId => log.logCommit txnId
  | .abort txnId => log.logAbort txnId
  | .checkpoint => RecoveryManager.checkpoint log

/-- The record that a call appends. -/
def record : LogCall → LogRecord
  | .begin txnId => { type := .beginTxn, txnId := txnId }
  | .insert txnId tableName rid data =>
    { type := .insert, txnId := txnId, tableName := tableName, rid := rid, newData := data }
  | .delete txnId tableName rid oldData =>
    { type := .delete, txnId := txnId, tableName := tableName, rid := rid, oldData := oldData }
  | .commit txnId => { type := .commitTxn, txnId := txnId }
  | .abort txnId => { type := .abortTxn, txnId := txnId }
  | .checkpoint => { type := .checkpoint, txnId := 0 }

/-- The steps of a call. -/
def steps (call : LogCall) : List LogStep :=
  match call with
  | .commit _ | .checkpoint => [.append call.record, .flush]
  | _ => [.append call.record]

/-- A call that is not interrupted does what its steps do. -/
theorem foldl_steps (call : LogCall) (log : LogManager) :
    call.steps.foldl LogStep.exec log = call.exec log := by
  cases call <;> rfl

end LogCall

/-! ## Interleaved steps -/

variable {ι : Type}

/-- The steps of a thread. -/
def ofThread [DecidableEq ι] (i : ι) (steps : List (ι × LogStep)) : List LogStep :=
  (steps.filter fun s => s.1 = i).map Prod.snd

/-- Every thread takes the steps of its calls, one after the other, and may be anywhere in them. -/
def Interleaves [DecidableEq ι] (calls : ι → List LogCall) (steps : List (ι × LogStep)) : Prop :=
  ∀ i, ofThread i steps <+: (calls i).flatMap LogCall.steps

/-- The record of a step that appends one. -/
def LogStep.record? : LogStep → Option LogRecord
  | .append rec => some rec
  | .flush => none

/-- The records that the steps append, with the threads they come from. -/
def appended (steps : List (ι × LogStep)) : List (ι × LogRecord) :=
  steps.filterMap fun s => s.2.record?.map (s.1, ·)

/-- The log after the steps. -/
def runSteps (log : LogManager) (steps : List (ι × LogStep)) : LogManager :=
  steps.foldl (fun log s => s.2.exec log) log

theorem appended_concat (steps : List (ι × LogStep)) (s : ι × LogStep) :
    appended (steps ++ [s]) = appended steps ++ (s.2.record?.map (s.1, ·)).toList := by
  rw [appended, List.filterMap_append]
  cases h : s.2.record? <;> simp [h, appended]

/-- The log after any steps: the records before the last flush are in the file, and the others in the
stream. -/
theorem log_of_steps (file : Str) (n : ℕ) (steps : List (ι × LogStep)) :
    ∃ done todo, (appended steps).map Prod.snd = done ++ todo ∧
      runSteps ⟨file, [], n⟩ steps = ⟨file ++ LogManager.framed n done,
        LogManager.framed (n + done.length) todo, n + done.length + todo.length⟩ ∧
      ∀ before i after, steps = before ++ (i, .flush) :: after →
        (appended before).map Prod.snd <+: done := by
  induction steps using List.reverseRecOn with
  | nil =>
    refine ⟨[], [], rfl, ?_, fun before i after h => by simp at h⟩
    exact congrArg (LogManager.mk · [] n) (List.append_nil file).symm
  | append_singleton steps s ih =>
    obtain ⟨done, todo, happended, hrun, hflushed⟩ := ih
    obtain ⟨j, step⟩ := s
    have hrun' : runSteps ⟨file, [], n⟩ (steps ++ [(j, step)]) =
        step.exec (runSteps ⟨file, [], n⟩ steps) := by
      rw [runSteps, List.foldl_append]
      rfl
    rw [hrun', hrun, appended_concat, List.map_append, happended]
    have hcases : ∀ before i after, steps ++ [(j, step)] = before ++ (i, .flush) :: after →
        before = steps ∧ step = .flush ∨ (appended before).map Prod.snd <+: done := by
      intro before i after h
      rcases List.eq_nil_or_concat after with rfl | ⟨after, last, rfl⟩
      · obtain ⟨hsteps, hlast⟩ := List.append_inj' h rfl
        exact Or.inl ⟨hsteps.symm, (Prod.mk.inj (List.cons.inj hlast).1).2⟩
      · rw [List.concat_eq_append, ← List.cons_append, ← List.append_assoc] at h
        exact Or.inr (hflushed before i after (List.append_inj' h rfl).1)
    cases step with
    | append rec =>
      refine ⟨done, todo ++ [rec], by simp [LogStep.record?], ?_, fun before i after h => ?_⟩
      · rw [LogManager.framed_concat, List.length_append]
        rfl
      · rcases hcases before i after h with ⟨-, hstep⟩ | hbegins
        · cases hstep
        · exact hbegins
    | flush =>
      refine ⟨done ++ todo, [], by simp [LogStep.record?], ?_, fun before i after h => ?_⟩
      · rw [LogManager.framed_append, List.length_append, ← List.append_assoc, Nat.add_assoc]
        rfl
      · rcases hcases before i after h with ⟨rfl, -⟩ | hbegins
        · exact happended ▸ List.prefix_rfl
        · exact hbegins.trans (List.prefix_append done todo)

theorem appended_isPrefix {before steps : List (ι × LogStep)} (h : before <+: steps) :
    appended before <+: appended steps := h.filterMap _

/-- What is read after a crash: the records before the last flush, and some of those behind it. -/
theorem crash_reads {old : List LogRecord} (hold : ∀ r ∈ old, r.WellFormed)
    {steps : List (ι × LogStep)} (hwf : ∀ r ∈ (appended steps).map Prod.snd, r.WellFormed)
    (hlsn : old.length + (appended steps).length + 1 ≤ 2 ^ 64) {log : LogManager}
    (hlog : runSteps ⟨LogManager.framed 1 old, [], old.length + 1⟩ steps = log) (cut : ℕ) :
    ∃ kept, LogManager.readAllRecords (log.file ++ log.pending.take cut) =
        .ok (LogManager.number 1 (old ++ kept.map Prod.snd)) ∧
      kept <+: appended steps ∧
      ∀ before i after, steps = before ++ (i, .flush) :: after → appended before <+: kept := by
  obtain ⟨done, todo, happended, hrun, hflushed⟩ :=
    log_of_steps (LogManager.framed 1 old) (old.length + 1) steps
  obtain rfl := hlog.symm.trans hrun
  let j : Journal := ⟨.new, done, todo⟩
  have hbegins : j.kept cut <+: (appended steps).map Prod.snd := happended ▸ j.kept_isPrefix cut
  obtain ⟨tail, htail, hread, -⟩ := j.framed_kept
    (fun r hr => hwf r (happended ▸ List.mem_append_right done hr)) (old.length + 1) cut
  have hkept : ((appended steps).take (j.kept cut).length).map Prod.snd = j.kept cut := by
    rw [List.map_take]
    exact (List.prefix_iff_eq_take.mp hbegins).symm
  refine ⟨(appended steps).take (j.kept cut).length, ?_, List.take_prefix _ _,
    fun before i after h => ?_⟩
  · have hwhole : ∀ r ∈ old ++ j.kept cut, r.WellFormed := fun r hr =>
      (List.mem_append.mp hr).elim (hold r) fun hr => hwf r (hbegins.subset hr)
    have hlen := hbegins.length_le
    rw [List.length_map] at hlen
    rw [hkept]
    dsimp only
    rw [List.append_assoc, htail, ← List.append_assoc, Nat.add_comm old.length,
      ← LogManager.framed_append, LogManager.readAllRecords_framed hwhole (by
        rw [List.length_append]
        omega), hread, Machine.ok_map, List.append_nil]
  · have hbefore : appended before <+: appended steps :=
      appended_isPrefix (h ▸ List.prefix_append before _)
    have hle : ((appended before).map Prod.snd).length ≤ (j.kept cut).length :=
      ((hflushed before i after h).trans (List.prefix_append done _)).length_le
    rw [List.length_map] at hle
    refine List.prefix_of_prefix_length_le hbefore (List.take_prefix _ _) ?_
    rw [List.length_take]
    exact Nat.le_min.mpr ⟨hle, hbefore.length_le⟩

/-! ## The records of a thread -/

section Thread

variable [DecidableEq ι] {calls : ι → List LogCall} {steps : List (ι × LogStep)} {i : ι}

/-- The records of a thread. -/
def recordsOf (i : ι) (records : List (ι × LogRecord)) : List LogRecord :=
  (records.filter fun r => r.1 = i).map Prod.snd

theorem recordsOf_isPrefix {records records' : List (ι × LogRecord)} (h : records <+: records')
    (i : ι) : recordsOf i records <+: recordsOf i records' := (h.filter _).map _

theorem recordsOf_subset {records : List (ι × LogRecord)} :
    recordsOf i records ⊆ records.map Prod.snd :=
  List.map_subset _ List.filter_sublist.subset

/-- They are those of its steps. -/
theorem recordsOf_appended (i : ι) (steps : List (ι × LogStep)) :
    recordsOf i (appended steps) = (ofThread i steps).filterMap LogStep.record? := by
  induction steps with
  | nil => rfl
  | cons s steps ih =>
    obtain ⟨j, step⟩ := s
    by_cases hj : j = i
    · have hthread : ofThread i ((j, step) :: steps) = step :: ofThread i steps := by
        simp [ofThread, hj]
      rw [hthread]
      cases step with
      | append rec =>
        have hrecords : recordsOf i ((j, rec) :: appended steps) =
            rec :: recordsOf i (appended steps) := by simp [recordsOf, hj]
        exact hrecords.trans (congrArg (rec :: ·) ih)
      | flush => exact ih
    · have hthread : ofThread i ((j, step) :: steps) = ofThread i steps := by
        simp [ofThread, hj]
      rw [hthread]
      cases step with
      | append rec =>
        have hrecords : recordsOf i ((j, rec) :: appended steps) = recordsOf i (appended steps) := by
          simp [recordsOf, hj]
        exact hrecords.trans ih
      | flush => exact ih

theorem records_of_calls (calls : List LogCall) :
    (calls.flatMap LogCall.steps).filterMap LogStep.record? = calls.map LogCall.record := by
  induction calls with
  | nil => rfl
  | cons call calls ih =>
    rw [List.flatMap_cons, List.filterMap_append, ih]
    cases call <;> rfl

/-- The records of a thread are those of its calls, in the order of the calls. -/
theorem Interleaves.recordsOf (h : Interleaves calls steps) (i : ι) :
    recordsOf i (appended steps) <+: (calls i).map LogCall.record := by
  rw [recordsOf_appended, ← records_of_calls]
  exact (h i).filterMap _

/-- A step of a thread, and the steps before it. -/
theorem exists_step {done todo : List LogStep} {step : LogStep}
    (h : ofThread i steps = done ++ step :: todo) :
    ∃ before after, steps = before ++ (i, step) :: after ∧ ofThread i before = done := by
  obtain ⟨l₁, l₂, hl, hdone, htodo⟩ := List.map_eq_append_iff.mp h
  obtain ⟨s, l₃, rfl, hs, -⟩ := List.map_eq_cons_iff.mp htodo
  obtain ⟨before, rest, rfl, rfl, hrest⟩ := List.filter_eq_append_iff.mp hl
  obtain ⟨skip, after, rfl, hskip, hthread, -⟩ := List.filter_eq_cons_iff.mp hrest
  obtain ⟨j, step'⟩ := s
  obtain rfl : j = i := of_decide_eq_true hthread
  obtain rfl : step' = step := hs
  refine ⟨before ++ skip, after, by rw [List.append_assoc], ?_⟩
  rw [ofThread, List.filter_append, List.filter_eq_nil_iff.mpr hskip, List.append_nil]
  exact hdone

/-- A record that is appended is that of a call. -/
theorem Interleaves.exists_call (h : Interleaves calls steps) {r : LogRecord}
    (hr : (i, r) ∈ appended steps) : ∃ call ∈ calls i, call.record = r := by
  have hmem : r ∈ MiniDB.recordsOf i (appended steps) :=
    List.mem_map.mpr ⟨(i, r), List.mem_filter.mpr ⟨hr, decide_eq_true rfl⟩, rfl⟩
  exact List.mem_map.mp ((h.recordsOf i).subset hmem)

/-- The records of a thread up to a call that has flushed. -/
theorem records_of_returned {done : List LogCall} {txnId : Int32}
    (hreturned : (done ++ [LogCall.commit txnId]).flatMap LogCall.steps <+: ofThread i steps) :
    ∃ before after, steps = before ++ (i, .flush) :: after ∧
      recordsOf i (appended before) = (done ++ [LogCall.commit txnId]).map LogCall.record := by
  obtain ⟨todo, htodo⟩ := hreturned
  have hsplit : ofThread i steps = (done.flatMap LogCall.steps ++
      [.append (LogCall.commit txnId).record]) ++ .flush :: todo := by
    rw [← htodo, List.flatMap_append, List.append_assoc, List.append_assoc]
    rfl
  obtain ⟨before, after, hsteps, hbefore⟩ := exists_step hsplit
  refine ⟨before, after, hsteps, ?_⟩
  rw [recordsOf_appended, hbefore, List.filterMap_append, records_of_calls, List.map_append]
  rfl

theorem begin_of_record {call : LogCall} {rec : LogRecord} {txnId : Int32}
    (h : call.record = rec) (htype : rec.type = .beginTxn) (hid : rec.txnId = txnId) :
    call = .begin txnId := by
  subst h
  cases call with
  | begin id => exact congrArg LogCall.begin hid
  | _ => cases htype

/-- A transaction is not left open when its commit is behind each of its beginnings. -/
theorem not_leftOpen {old : List LogRecord} {kept : List (ι × LogRecord)} {txnId : Int32}
    {done todo : List LogCall} (hkept : kept <+: appended steps) (h : Interleaves calls steps)
    (hcalls : calls i = done ++ LogCall.commit txnId :: todo)
    (hdone : (done ++ [LogCall.commit txnId]).map LogCall.record <+: recordsOf i kept)
    (hother : ∀ j, j ≠ i → .begin txnId ∉ calls j) (htodo : .begin txnId ∉ todo) :
    ¬ RecoveryManager.LeftOpen (old ++ kept.map Prod.snd) txnId := by
  rintro ⟨before, rec, after, hrecords, htype, hid, hafter⟩
  have hcommit : (LogCall.commit txnId).record ∉ after := fun hmem => (hafter _ hmem rfl).1 rfl
  have hne : (LogCall.commit txnId).record ≠ rec := fun he => by
    rw [← he] at htype
    cases htype
  have hin : ∃ l, kept.map Prod.snd = l ++ rec :: after := by
    rcases List.append_eq_append_iff.mp hrecords with ⟨l, -, hl⟩ | ⟨l, -, hl⟩
    · exact ⟨l, hl⟩
    · cases l with
      | nil => exact ⟨[], hl.symm⟩
      | cons r l =>
        refine absurd ?_ hcommit
        rw [(List.cons.inj hl).2]
        exact List.mem_append_right l (recordsOf_subset (hdone.subset (by simp)))
  obtain ⟨l, hl⟩ := hin
  obtain ⟨first, rest, rfl, -, hrest⟩ := List.map_eq_append_iff.mp hl
  obtain ⟨⟨j, r⟩, last, rfl, rfl, rfl⟩ := List.map_eq_cons_iff.mp hrest
  obtain ⟨call, hcall, hrecord⟩ := h.exists_call (hkept.subset (by simp : (j, r) ∈ _))
  obtain rfl := begin_of_record hrecord htype hid
  obtain rfl : j = i := by_contra fun hj => hother j hj hcall
  have hthread : recordsOf j (first ++ (j, r) :: last) =
      recordsOf j first ++ r :: recordsOf j last := by
    simp [recordsOf]
  obtain ⟨more, hmore⟩ := hdone
  have hbehind : more <+: todo.map LogCall.record := by
    have hbegins := (recordsOf_isPrefix hkept j).trans (h.recordsOf j)
    rw [← hmore, hcalls, List.map_append, List.map_append, List.append_assoc] at hbegins
    exact (List.cons_prefix_cons.mp ((List.prefix_append_right_inj _).mp hbegins)).2
  rw [hthread, List.map_append, List.append_assoc] at hmore
  rcases List.append_eq_append_iff.mp hmore with ⟨l, -, hl⟩ | ⟨l, -, hl⟩
  · cases l with
    | nil => exact hne (List.cons.inj hl).1
    | cons c l =>
      have hmem : r ∈ more := by
        rw [show more = l ++ r :: recordsOf j last from (List.cons.inj hl).2]
        simp
      obtain ⟨call, hcall, hrecord⟩ := List.mem_map.mp (hbehind.subset hmem)
      exact htodo (begin_of_record hrecord htype hid ▸ hcall)
  · cases l with
    | nil => exact hne (List.cons.inj hl).1.symm
    | cons c l =>
      refine hcommit (recordsOf_subset (i := j) ?_)
      rw [show recordsOf j last = l ++ (LogCall.commit txnId).record :: more from
        (List.cons.inj hl).2]
      simp

end Thread

/-! ## After a crash -/

/-- Threads interleave their calls on a log that has been opened, and the process crashes with any
bytes of the stream in the file. What is read again are the records in the file and a first part of
those that have been appended, in the order of the log, which has every record before a flush: the
analysis finds committed only what was committed before or what a thread has called `logCommit` for,
and of a thread whose `logCommit` has returned it finds the transaction committed and every record of
its earlier calls, and does not find the transaction active when it was begun by no other call. -/
theorem LogManager.crash_keeps_commits [DecidableEq ι] {calls : ι → List LogCall}
    {steps : List (ι × LogStep)} (hsteps : Interleaves calls steps) {old : List LogRecord}
    (hold : ∀ r ∈ old, r.WellFormed) (hwf : ∀ i, ∀ call ∈ calls i, call.record.WellFormed)
    (hlsn : old.length + (appended steps).length + 1 ≤ 2 ^ 64) (cut : ℕ) :
    ∃ log kept records, openLog (framed 1 old) = .ok log ∧
      readAllRecords ((runSteps log steps).file ++ (runSteps log steps).pending.take cut) =
        .ok records ∧
      records = number 1 (old ++ kept.map Prod.snd) ∧ kept <+: appended steps ∧
      (∀ before i after, steps = before ++ (i, .flush) :: after → appended before <+: kept) ∧
      (∀ txnId ∈ (RecoveryManager.analyze records).committedTxns,
        (∃ r ∈ old, r.type = .commitTxn ∧ r.txnId = txnId) ∨ ∃ i, .commit txnId ∈ calls i) ∧
      ∀ i txnId done todo, calls i = done ++ LogCall.commit txnId :: todo →
        (done ++ [LogCall.commit txnId]).flatMap LogCall.steps <+: ofThread i steps →
        txnId ∈ (RecoveryManager.analyze records).committedTxns ∧
        (done ++ [LogCall.commit txnId]).map LogCall.record <+: recordsOf i kept ∧
        ((∀ j, j ≠ i → .begin txnId ∉ calls j) → .begin txnId ∉ todo →
          txnId ∉ (RecoveryManager.analyze records).activeTxns) := by
  have hopen := openLog_framed hold (by omega) readAllRecords_nil
  rw [List.append_nil] at hopen
  have hcall : ∀ r ∈ (appended steps).map Prod.snd, r.WellFormed := by
    intro r hr
    obtain ⟨⟨i, r⟩, hmem, rfl⟩ := List.mem_map.mp hr
    obtain ⟨call, hcall, rfl⟩ := hsteps.exists_call hmem
    exact hwf i call hcall
  obtain ⟨kept, hread, hkept, hflushed⟩ := crash_reads hold hcall hlsn rfl cut
  refine ⟨_, kept, _, hopen, hread, rfl, hkept, hflushed, ?_, ?_⟩
  · intro txnId htxn
    rw [RecoveryManager.analyze_number, RecoveryManager.mem_committedTxns] at htxn
    obtain ⟨r, hr, htype, hid⟩ := htxn
    rcases List.mem_append.mp hr with hr | hr
    · exact Or.inl ⟨r, hr, htype, hid⟩
    · obtain ⟨⟨i, r⟩, hmem, rfl⟩ := List.mem_map.mp hr
      obtain ⟨call, hcall, hrecord⟩ := hsteps.exists_call (hkept.subset hmem)
      refine Or.inr ⟨i, ?_⟩
      cases call with
      | commit id =>
        obtain rfl : id = txnId := by rw [← hid, ← hrecord]; rfl
        exact hcall
      | _ =>
        rw [← hrecord] at htype
        cases htype
  · intro i txnId done todo hcalls hreturned
    obtain ⟨before, after, hsplit, hrecords⟩ := records_of_returned hreturned
    have hdone : (done ++ [LogCall.commit txnId]).map LogCall.record <+: recordsOf i kept :=
      hrecords ▸ recordsOf_isPrefix (hflushed before i after hsplit) i
    refine ⟨?_, hdone, fun hother htodo => ?_⟩
    · rw [RecoveryManager.analyze_number, RecoveryManager.mem_committedTxns]
      have hmem : (LogCall.commit txnId).record ∈ kept.map Prod.snd :=
        recordsOf_subset (hdone.subset (by simp))
      exact ⟨_, List.mem_append_right old hmem, rfl, rfl⟩
    · rw [RecoveryManager.analyze_number, RecoveryManager.mem_activeTxns]
      exact not_leftOpen hkept hsteps hcalls hdone hother htodo

/-- Two threads with a transaction each. -/
def sampleThreads : Bool → List LogCall
  | true => [.begin 1, .insert 1 (lit "t") ⟨0, 0⟩ [7], .commit 1]
  | false => [.begin 2, .insert 2 (lit "t") ⟨0, 1⟩ [8], .commit 2]

/-- The second thread inserts between the record and the flush of the first one's commit, and its own
commit is not flushed. -/
def sampleSteps : List (Bool × LogStep) := [
  (true, .append (LogCall.begin 1).record),
  (false, .append (LogCall.begin 2).record),
  (true, .append (LogCall.insert 1 (lit "t") ⟨0, 0⟩ [7]).record),
  (true, .append (LogCall.commit 1).record),
  (false, .append (LogCall.insert 2 (lit "t") ⟨0, 1⟩ [8]).record),
  (true, .flush),
  (false, .append (LogCall.commit 2).record)]

/-- A crash in the middle of the second thread's commit: the first one's transaction is committed. -/
theorem LogManager.crash_keeps_commits_between : ∃ log kept records,
    openLog [] = .ok log ∧
    readAllRecords ((runSteps log sampleSteps).file ++
      (runSteps log sampleSteps).pending.take 20) = .ok records ∧
    kept <+: appended sampleSteps ∧ 5 ≤ kept.length ∧
    1 ∈ (RecoveryManager.analyze records).committedTxns ∧
    1 ∉ (RecoveryManager.analyze records).activeTxns := by
  have hsteps : Interleaves sampleThreads sampleSteps := fun i => by cases i <;> decide
  have hold : ∀ r ∈ ([] : List LogRecord), r.WellFormed := by simp
  have hwf : ∀ i, ∀ call ∈ sampleThreads i, call.record.WellFormed := by
    intro i call hcall
    cases i
    all_goals
      simp only [sampleThreads, List.mem_cons, List.not_mem_nil, or_false] at hcall
      rcases hcall with rfl | rfl | rfl
    all_goals exact ⟨rfl, by decide, by decide, by decide, by decide⟩
  obtain ⟨log, kept, records, hopen, hread, -, hkept, hflushed, -, hreturned⟩ :=
    crash_keeps_commits hsteps hold hwf (by decide) 20
  refine ⟨log, kept, records, hopen, hread, hkept, ?_, ?_⟩
  · exact (hflushed (sampleSteps.take 5) true (sampleSteps.drop 6) rfl).length_le
  · obtain ⟨hcommitted, -, hactive⟩ := hreturned true 1 [.begin 1, .insert 1 (lit "t") ⟨0, 0⟩ [7]] []
      rfl (by decide)
    refine ⟨hcommitted, hactive (fun j hj => ?_) (by simp)⟩
    cases j
    · decide
    · exact absurd rfl hj

/-! ## Checkpoints -/

namespace RecoveryManager

/-- Elements that a loop passes over may be left out. -/
theorem foldlM_filter {α β : Type} {f : β → α → Program Storage Fault β} {p : α → Bool}
    {xs : List α} (h : ∀ x ∈ xs, p x = false → ∀ b, f b x = pure b) (b : β) :
    xs.foldlM f b = (xs.filter p).foldlM f b := by
  induction xs generalizing b with
  | nil => rfl
  | cons x xs ih =>
    obtain ⟨hx, hrest⟩ := List.forall_mem_cons.mp h
    cases hp : p x with
    | true =>
      rw [List.filter_cons_of_pos hp, List.foldlM_cons, List.foldlM_cons]
      exact congrArg _ (funext fun b => ih hrest b)
    | false =>
      rw [List.filter_cons_of_neg (by simp [hp]), List.foldlM_cons, hx hp, ← ih hrest]
      rfl

/-- The records that are no checkpoints. -/
def withoutCheckpoints (records : List LogRecord) : List LogRecord :=
  records.filter fun rec => rec.type ≠ .checkpoint

theorem analyze_withoutCheckpoints (records : List LogRecord) :
    analyze (withoutCheckpoints records) = analyze records := by
  induction records using List.reverseRecOn with
  | nil => rfl
  | append_singleton records rec ih =>
    rw [analyze_concat, withoutCheckpoints, List.filter_append]
    by_cases htype : rec.type = .checkpoint
    · rw [List.filter_cons_of_neg (by simpa using htype), List.filter_nil, List.append_nil]
      rw [withoutCheckpoints] at ih
      rw [ih, analyzeRecord, htype]
    · rw [List.filter_cons_of_pos (by simpa using htype), List.filter_nil, analyze_concat]
      rw [withoutCheckpoints] at ih
      rw [ih]

theorem recover_eq {file : Str} {records : List LogRecord}
    (hread : LogManager.readAllRecords file = .ok records) : recover file = (do
      let tableFiles ← records.foldlM openTableOf .empty
      redoPhase records (analyze records).committedTxns tableFiles
      undoPhase records (analyze records).activeTxns tableFiles) := by
  unfold recover
  rw [hread]
  cases records <;> rfl

/-- Recovery from a log is recovery from its records without those of the checkpoints, which name no
table. -/
theorem recover_checkpoints {file file' : Str} {records : List LogRecord}
    (hread : LogManager.readAllRecords file = .ok records)
    (hread' : LogManager.readAllRecords file' = .ok (withoutCheckpoints records))
    (hname : ∀ rec ∈ records, rec.type = .checkpoint → rec.tableName = []) :
    recover file = recover file' := by
  have htype : ∀ {rec : LogRecord}, decide (rec.type ≠ .checkpoint) = false →
      rec.type = .checkpoint := fun h => not_not.mp (of_decide_eq_false h)
  have hopen : records.foldlM openTableOf .empty =
      (withoutCheckpoints records).foldlM openTableOf .empty := by
    refine foldlM_filter (fun rec hrec hcheck tableFiles => ?_) _
    rw [openTableOf, if_neg fun h => h.1 (hname rec hrec (htype hcheck))]
  have hredo : ∀ txns tableFiles, redoPhase records txns tableFiles =
      redoPhase (withoutCheckpoints records) txns tableFiles := by
    intro txns tableFiles
    refine foldlM_filter (fun rec _ hcheck _ => ?_) _
    rw [redoRecord, htype hcheck]
    split
    · cases tableFiles.find? rec.tableName <;> rfl
    · rfl
  have hundo : ∀ txns tableFiles, undoPhase records txns tableFiles =
      undoPhase (withoutCheckpoints records) txns tableFiles := by
    intro txns tableFiles
    rw [undoPhase, undoPhase, withoutCheckpoints, ← List.filter_reverse]
    refine foldlM_filter (fun rec _ hcheck _ => ?_) _
    rw [undoRecord, htype hcheck]
    split
    · cases tableFiles.find? rec.tableName <;> rfl
    · rfl
  rw [recover_eq hread, recover_eq hread', analyze_withoutCheckpoints, hopen]
  simp only [hredo, hundo]

end RecoveryManager

end MiniDB
