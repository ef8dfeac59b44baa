import MiniDB.Recovery.LogFile
import MiniDB.Recovery.Recovery
import MiniDB.Transaction.Transaction

/-!
# Sessions on one log

Every session has a new transaction manager, whose ids start at one, and opens the log that the
sessions before it have left. Recovery takes the transactions of the whole log by their ids alone.
It takes each for what it was in its own session exactly when no id has been used again in a way
that changes what became of it.

## Main definitions

* `TxnCall`: the calls of a transaction that are logged
* `Journal`: the records of a session, in the file and still in the stream
* `TxnSession`: the calls of a session, and where it was cut off
* `Redoes`, `Undoes`: what recovery applies again and what it reverses
* `Identified`: recovery applies again what was committed in its own session, and reverses nothing
  of it
* `KeptApart`: the sessions have not used an id again in a way that matters

## Main results

* `wal_spec`: the records of a log of sessions
* `recover_identifies_iff`: recovery identifies the transactions of sessions that are kept apart,
  and of no others
-/

namespace MiniDB

/-- A call of a transaction that is logged. -/
inductive TxnCall
  | begin
  | insert (txnId : Int32) (tableName : Str) (rid : RID) (data : Str)
  | delete (txnId : Int32) (tableName : Str) (rid : RID) (oldData : Str)
  | commit (txnId : Int32)
  | abort (txnId : Int32)
deriving DecidableEq

namespace TxnCall

/-- The call on the managers of a session. -/
def exec : TransactionManager × LogManager → TxnCall → TransactionManager × LogManager
  | (mgr, log), .begin => (mgr.begin.1, log.logBegin mgr.begin.2)
  | (mgr, log), .insert txnId tableName rid data => (mgr, log.logInsert txnId tableName rid data)
  | (mgr, log), .delete txnId tableName rid oldData =>
    (mgr, log.logDelete txnId tableName rid oldData)
  | (mgr, log), .commit txnId => (mgr.commit txnId, log.logCommit txnId)
  | (mgr, log), .abort txnId => (mgr.abort txnId, log.logAbort txnId)

/-- The record that a call appends. -/
def record (mgr : TransactionManager) : TxnCall → LogRecord
  | .begin => { type := .beginTxn, txnId := mgr.nextTxnId }
  | .insert txnId tableName rid data =>
    { type := .insert, txnId := txnId, tableName := tableName, rid := rid, newData := data }
  | .delete txnId tableName rid oldData =>
    { type := .delete, txnId := txnId, tableName := tableName, rid := rid, oldData := oldData }
  | .commit txnId => { type := .commitTxn, txnId := txnId }
  | .abort txnId => { type := .abortTxn, txnId := txnId }

end TxnCall

/-! ## The records of a session -/

/-- The records of a session that are in the file and those still in the stream, and its transaction
manager. -/
structure Journal where
  mgr : TransactionManager := .new
  flushed : List LogRecord := []
  pending : List LogRecord := []

namespace Journal

/-- The records of a session after one more call: a commit flushes the stream. -/
def exec (j : Journal) (call : TxnCall) : Journal where
  mgr := (call.exec (j.mgr, ⟨[], [], 0⟩)).1
  flushed := match call with
    | .commit _ => j.flushed ++ j.pending ++ [call.record j.mgr]
    | _ => j.flushed
  pending := match call with
    | .commit _ => []
    | _ => j.pending ++ [call.record j.mgr]

/-- All records of the session. -/
def records (j : Journal) : List LogRecord := j.flushed ++ j.pending

/-- The managers of a session that has opened the log at the record `n`. -/
def Tracks (j : Journal) (file : Str) (n : ℕ) (s : TransactionManager × LogManager) : Prop :=
  s = (j.mgr, ⟨file ++ LogManager.framed n j.flushed,
    LogManager.framed (n + j.flushed.length) j.pending, n + j.flushed.length + j.pending.length⟩)

variable {j : Journal} {file : Str} {n : ℕ} {s : TransactionManager × LogManager}

theorem records_exec (j : Journal) (call : TxnCall) :
    (j.exec call).records = j.records ++ [call.record j.mgr] := by
  cases call <;> simp [records, exec]

/-- A call appends its record. -/
theorem Tracks.exec (h : Tracks j file n s) (call : TxnCall) :
    Tracks (j.exec call) file n (call.exec s) := by
  obtain rfl := h
  -- A record goes to the end of the stream, and only a commit writes the stream to the file.
  have happend : ∀ rec : LogRecord, (LogManager.appendLog ⟨file ++ LogManager.framed n j.flushed,
      LogManager.framed (n + j.flushed.length) j.pending,
      n + j.flushed.length + j.pending.length⟩ rec) =
      ⟨file ++ LogManager.framed n j.flushed,
        LogManager.framed (n + j.flushed.length) (j.pending ++ [rec]),
        n + j.flushed.length + (j.pending ++ [rec]).length⟩ := by
    intro rec
    rw [LogManager.framed_concat, List.length_append]
    rfl
  cases call with
  | commit txnId =>
    refine Prod.ext rfl ?_
    show LogManager.flushLog (LogManager.appendLog _ _) = _
    rw [happend]
    simp only [LogManager.flushLog, Journal.exec, List.append_assoc]
    rw [LogManager.framed_append n j.flushed, Nat.add_assoc, ← List.length_append]
    rfl
  | _ =>
    refine Prod.ext rfl ?_
    exact happend _

/-- The records that are whole in the file when it has the first `cut` bytes of the stream. -/
def kept (j : Journal) (cut : ℕ) : List LogRecord :=
  j.flushed ++ j.pending.take (LogManager.wholeRecords cut j.pending)

theorem kept_isPrefix (j : Journal) (cut : ℕ) : j.kept cut <+: j.records :=
  List.prefix_append_right_inj _ |>.mpr (List.take_prefix _ _)

/-- The bytes of a session in the file: its whole records, and bytes behind them that are not
read. -/
theorem framed_kept (hwf : ∀ r ∈ j.pending, r.WellFormed) (n cut : ℕ) :
    ∃ tail, LogManager.framed n j.flushed ++
        (LogManager.framed (n + j.flushed.length) j.pending).take cut =
          LogManager.framed n (j.kept cut) ++ tail ∧
      LogManager.readAllRecords tail = .ok [] ∧
      (LogManager.tornBytes cut j.pending = 0 → tail = []) := by
  rw [kept, LogManager.framed_append]
  rcases LogManager.take_framed (n + j.flushed.length) cut j.pending with
    ⟨-, htake⟩ | ⟨record, hmem, htorn, hlt, htake⟩
  · refine ⟨[], ?_, LogManager.readAllRecords_nil, fun _ => rfl⟩
    rw [htake, List.append_nil]
  · refine ⟨(LogManager.frame { record with
      lsn := n + j.flushed.length + LogManager.wholeRecords cut j.pending }).take
        (LogManager.tornBytes cut j.pending), ?_, ?_, fun h => absurd h htorn⟩
    · rw [htake, List.append_assoc]
    · exact LogManager.readAllRecords_torn (LogManager.wellFormed_stamp (hwf record hmem) _)
        (by rw [LogManager.length_frame_stamp]; exact hlt)

theorem Tracks.foldl (h : Tracks j file n s) (calls : List TxnCall) :
    Tracks (calls.foldl Journal.exec j) file n (calls.foldl TxnCall.exec s) := by
  induction calls generalizing j s with
  | nil => exact h
  | cons call calls ih => exact ih (h.exec call)

end Journal

/-- The calls of a session, and how many bytes of its stream came to the file when it ended: all of
them when it was closed, and any number in a crash. -/
structure TxnSession where
  calls : List TxnCall
  cut : ℕ

namespace TxnSession

/-- The session on a log file. -/
def run (file : Str) (s : TxnSession) : Except Fault Str := do
  let log ← LogManager.openLog file
  let (_, log) := s.calls.foldl TxnCall.exec (TransactionManager.new, log)
  return log.file ++ log.pending.take s.cut

/-- The log file of these sessions. -/
def wal (history : List TxnSession) : Except Fault Str := history.foldlM run []

/-- The records of the session. -/
def journal (s : TxnSession) : Journal := s.calls.foldl Journal.exec {}

/-- The records that are whole in the file. -/
def kept (s : TxnSession) : List LogRecord := s.journal.kept s.cut

/-- The bytes of a record that is not whole. -/
def torn (s : TxnSession) : ℕ := LogManager.tornBytes s.cut s.journal.pending

/-- The fields of the records have the widths of their types. -/
def WellFormed (s : TxnSession) : Prop := ∀ r ∈ s.journal.records, r.WellFormed

variable {s : TxnSession} {history : List TxnSession}

theorem WellFormed.kept (h : s.WellFormed) : ∀ r ∈ s.kept, r.WellFormed :=
  fun r hr => h r ((s.journal.kept_isPrefix s.cut).subset hr)

/-- A session behind other records: its whole records, and bytes behind them that are not read. -/
theorem run_framed {records : List LogRecord} (hold : ∀ r ∈ records, r.WellFormed)
    (hs : s.WellFormed) (hlsn : records.length + 1 ≤ 2 ^ 64) :
    ∃ tail, s.run (LogManager.framed 1 records) =
        .ok (LogManager.framed 1 (records ++ s.kept) ++ tail) ∧
      LogManager.readAllRecords tail = .ok [] ∧ (s.torn = 0 → tail = []) := by
  have hopen := LogManager.openLog_framed hold hlsn LogManager.readAllRecords_nil
  rw [List.append_nil] at hopen
  have htracks : Journal.Tracks {} (LogManager.framed 1 records) (records.length + 1)
      (TransactionManager.new, ⟨LogManager.framed 1 records, [], records.length + 1⟩) := by
    refine Prod.ext rfl ?_
    show _ = LogManager.mk (LogManager.framed 1 records ++ []) [] _
    rw [List.append_nil]
    rfl
  have hrun : s.run (LogManager.framed 1 records) = .ok (LogManager.framed 1 records ++
      LogManager.framed (records.length + 1) s.journal.flushed ++
      (LogManager.framed (records.length + 1 + s.journal.flushed.length)
        s.journal.pending).take s.cut) := by
    rw [run, hopen, Machine.ok_bind, htracks.foldl s.calls]
    rfl
  obtain ⟨tail, htail, hread, hwhole⟩ := Journal.framed_kept
    (fun r hr => hs r (List.mem_append_right _ hr)) (records.length + 1) s.cut
  refine ⟨tail, ?_, hread, hwhole⟩
  rw [hrun, List.append_assoc, htail, LogManager.framed_append, Nat.add_comm 1, List.append_assoc]
  rfl

/-- The records of a log of sessions are those that are whole, when no frame but one of the last
session is torn. -/
theorem wal_spec (hwf : ∀ s ∈ history, s.WellFormed)
    (hlsn : (history.flatMap kept).length + 1 < 2 ^ 64)
    (htorn : ∀ s ∈ history.dropLast, s.torn = 0) :
    ∃ file, wal history = .ok file ∧
      LogManager.readAllRecords file = .ok (LogManager.number 1 (history.flatMap kept)) := by
  -- The induction is over the sessions still to come, behind the records already there.
  suffices key : ∀ records : List LogRecord, (∀ r ∈ records, r.WellFormed) →
      (records ++ history.flatMap kept).length + 1 < 2 ^ 64 →
      ∃ tail, history.foldlM run (LogManager.framed 1 records) =
          .ok (LogManager.framed 1 (records ++ history.flatMap kept) ++ tail) ∧
        LogManager.readAllRecords tail = .ok [] by
    obtain ⟨tail, hrun, htail⟩ := key [] (by simp) (by simpa using hlsn)
    refine ⟨_, hrun, ?_⟩
    have hall : ∀ r ∈ history.flatMap kept, r.WellFormed := by
      intro r hr
      obtain ⟨s, hs, hr⟩ := List.mem_flatMap.mp hr
      exact (hwf s hs).kept r hr
    rw [List.nil_append, LogManager.readAllRecords_framed hall (by omega), htail, Machine.ok_map,
      List.append_nil]
  induction history with
  | nil =>
    intro records _ _
    refine ⟨[], ?_, LogManager.readAllRecords_nil⟩
    rw [List.flatMap_nil, List.append_nil, List.append_nil]
    rfl
  | cons s history ih =>
    intro records hold hlen
    obtain ⟨hs, hrest⟩ := List.forall_mem_cons.mp hwf
    rw [List.flatMap_cons, ← List.append_assoc] at hlen ⊢
    have hbound : records.length + 1 ≤ 2 ^ 64 := by
      simp only [List.length_append] at hlen
      omega
    obtain ⟨tail, hrun, htail, hwhole⟩ := run_framed hold hs hbound
    rw [List.foldlM_cons, hrun, Machine.ok_bind]
    cases history with
    | nil =>
      refine ⟨tail, ?_, htail⟩
      rw [List.flatMap_nil, List.append_nil]
      rfl
    | cons s' history =>
      obtain rfl := hwhole (htorn s List.mem_cons_self)
      rw [List.append_nil]
      refine ih hrest ?_ (fun s hs => htorn s (List.mem_cons_of_mem _ hs)) (records ++ s.kept) ?_ hlen
      · simp only [List.length_append] at hlen ⊢
        omega
      · intro r hr
        rcases List.mem_append.mp hr with hr | hr
        · exact hold r hr
        · exact hs.kept r hr

/-- The session has committed the transaction. -/
def Commits (s : TxnSession) (txnId : Int32) : Prop := .commit txnId ∈ s.calls

instance (s : TxnSession) (txnId : Int32) : Decidable (s.Commits txnId) :=
  inferInstanceAs (Decidable (_ ∈ _))

/-- The flush of a commit: its record is in the file, and none is in the stream. -/
theorem journal_commits (calls : List TxnCall) (txnId : Int32) :
    ((∃ r ∈ (calls.foldl Journal.exec {}).flushed, r.type = .commitTxn ∧ r.txnId = txnId) ↔
      .commit txnId ∈ calls) ∧
    ∀ r ∈ (calls.foldl Journal.exec {}).pending, r.type ≠ .commitTxn := by
  induction calls using List.reverseRecOn with
  | nil => exact ⟨by simp, by simp⟩
  | append_singleton calls call ih =>
    rw [List.foldl_append, List.foldl_cons, List.foldl_nil, List.mem_append, List.mem_singleton,
      ← ih.1]
    generalize calls.foldl Journal.exec {} = j at ih
    cases call with
    | commit id =>
      refine ⟨?_, by simp [Journal.exec]⟩
      have hpending : ¬ ∃ r ∈ j.pending, r.type = .commitTxn ∧ r.txnId = txnId := by
        rintro ⟨r, hr, htype, -⟩
        exact ih.2 r hr htype
      simp only [Journal.exec, List.mem_append, List.mem_singleton, or_and_right, exists_or,
        exists_eq_left, hpending, or_false, TxnCall.record, true_and, TxnCall.commit.injEq]
      exact or_congr Iff.rfl eq_comm
    | _ =>
      refine ⟨by simp [Journal.exec], ?_⟩
      simp only [Journal.exec, List.mem_append, List.mem_singleton]
      rintro r (hr | rfl)
      · exact ih.2 r hr
      · simp [TxnCall.record]

/-- No crash loses a commit. -/
theorem commits_iff {txnId : Int32} :
    s.Commits txnId ↔ ∃ r ∈ s.kept, r.type = .commitTxn ∧ r.txnId = txnId := by
  obtain ⟨hflushed, hpending⟩ := journal_commits s.calls txnId
  unfold Commits
  rw [← hflushed]
  constructor
  · rintro ⟨r, hr, hcommit⟩
    exact ⟨r, List.mem_append_left _ hr, hcommit⟩
  · rintro ⟨r, hr, hcommit⟩
    rcases List.mem_append.mp hr with hr | hr
    · exact ⟨r, hr, hcommit⟩
    · exact absurd hcommit.1 (hpending r (List.mem_of_mem_take hr))

end TxnSession

/-! ## The analysis of a log -/

namespace RecoveryManager

/-- The log has a `BEGIN` of the transaction with neither `COMMIT` nor `ABORT` behind it. -/
def LeftOpen (records : List LogRecord) (txnId : Int32) : Prop :=
  ∃ before rec after, records = before ++ rec :: after ∧ rec.type = .beginTxn ∧ rec.txnId = txnId ∧
    ∀ r ∈ after, r.txnId = txnId → r.type ≠ .commitTxn ∧ r.type ≠ .abortTxn

variable {records : List LogRecord} {txnId : Int32}

theorem leftOpen_concat {rec : LogRecord} : LeftOpen (records ++ [rec]) txnId ↔
    rec.type = .beginTxn ∧ rec.txnId = txnId ∨
      LeftOpen records txnId ∧
        (rec.txnId = txnId → rec.type ≠ .commitTxn ∧ rec.type ≠ .abortTxn) := by
  constructor
  · rintro ⟨before, r, after, hrecords, htype, hid, hafter⟩
    rcases List.eq_nil_or_concat after with rfl | ⟨after, last, rfl⟩
    · obtain ⟨-, hlast⟩ := List.append_inj' hrecords rfl
      obtain rfl := (List.cons.inj hlast).1
      exact Or.inl ⟨htype, hid⟩
    · rw [List.concat_eq_append, ← List.cons_append, ← List.append_assoc] at hrecords
      obtain ⟨hinit, hlast⟩ := List.append_inj' hrecords rfl
      obtain rfl := (List.cons.inj hlast).1
      refine Or.inr ⟨⟨before, r, after, hinit, htype, hid, fun r hr => ?_⟩, ?_⟩
      · exact hafter r (by simp [hr])
      · exact hafter rec (by simp)
  · rintro (⟨htype, hid⟩ | ⟨⟨before, r, after, rfl, htype, hid, hafter⟩, hrec⟩)
    · exact ⟨records, rec, [], rfl, htype, hid, by simp⟩
    · refine ⟨before, r, after ++ [rec], by simp, htype, hid, fun r' hr' => ?_⟩
      rcases List.mem_append.mp hr' with hr' | hr'
      · exact hafter r' hr'
      · rw [List.mem_singleton.mp hr']
        exact hrec

theorem analyze_concat (records : List LogRecord) (rec : LogRecord) :
    analyze (records ++ [rec]) = analyzeRecord (analyze records) rec := by
  rw [analyze, List.foldl_append]
  rfl

/-- The active transactions are those left open. -/
theorem mem_activeTxns : txnId ∈ (analyze records).activeTxns ↔ LeftOpen records txnId := by
  induction records using List.reverseRecOn with
  | nil =>
    refine iff_of_false (by simp [analyze]) ?_
    rintro ⟨before, r, after, h, -⟩
    simp at h
  | append_singleton records rec ih =>
    rw [analyze_concat, leftOpen_concat, ← ih]
    unfold analyzeRecord
    by_cases hid : txnId = rec.txnId
    · subst hid
      cases htype : rec.type <;> simp
    · cases htype : rec.type <;> simp [hid, Ne.symm hid]

/-- The committed transactions are those with a `COMMIT`, wherever it stands. -/
theorem mem_committedTxns : txnId ∈ (analyze records).committedTxns ↔
    ∃ r ∈ records, r.type = .commitTxn ∧ r.txnId = txnId := by
  induction records using List.reverseRecOn with
  | nil => simp [analyze]
  | append_singleton records rec ih =>
    simp only [analyze_concat, List.mem_append, List.mem_singleton, or_and_right, exists_or,
      exists_eq_left, ← ih]
    unfold analyzeRecord
    cases htype : rec.type <;> simp [or_comm, eq_comm]

instance (records : List LogRecord) (txnId : Int32) : Decidable (LeftOpen records txnId) :=
  decidable_of_iff _ mem_activeTxns

/-- Recovery from the log applies the record again. -/
def Redoes (records : List LogRecord) (rec : LogRecord) : Prop :=
  rec.txnId ∈ (analyze records).committedTxns ∧ rec.redone ≠ none

/-- Recovery from the log reverses the record. -/
def Undoes (records : List LogRecord) (rec : LogRecord) : Prop :=
  rec.txnId ∈ (analyze records).activeTxns ∧ rec.undone ≠ none

instance (records : List LogRecord) (rec : LogRecord) : Decidable (Redoes records rec) :=
  inferInstanceAs (Decidable (_ ∧ _))

instance (records : List LogRecord) (rec : LogRecord) : Decidable (Undoes records rec) :=
  inferInstanceAs (Decidable (_ ∧ _))

/-- A phase makes its calls for the records of its transactions that have one, and skips the
others. -/
theorem foldlM_onRecord (call : LogRecord → Option HeapCall) (txns : Finset Int32)
    (tableFiles : Dict Str ℤ) (records : List LogRecord) :
    records.foldlM (fun _ rec => onRecord call txns tableFiles rec) () =
      (records.filter fun rec => rec.txnId ∈ txns ∧ call rec ≠ none).foldlM
        (fun _ rec => onRecord call txns tableFiles rec) () := by
  induction records with
  | nil => rfl
  | cons rec records ih =>
    by_cases hrec : rec.txnId ∈ txns ∧ call rec ≠ none
    · rw [List.filter_cons_of_pos (by simpa using hrec), List.foldlM_cons, List.foldlM_cons]
      exact congrArg _ (funext fun _ => ih)
    · have hskip : onRecord call txns tableFiles rec = pure () := by
        unfold onRecord
        split
        case isFalse => rfl
        case isTrue htxn =>
          have hnone : call rec = none := by_contra fun h => hrec ⟨htxn, h⟩
          rw [hnone]
          cases tableFiles.find? rec.tableName <;> rfl
      rw [List.filter_cons_of_neg (by simpa using hrec), List.foldlM_cons, hskip, ← ih]
      rfl

/-- The redo phase is that of the records that are applied again. -/
theorem redoPhase_filter (tableFiles : Dict Str ℤ) :
    redoPhase records (analyze records).committedTxns tableFiles =
      redoPhase (records.filter (Redoes records)) (analyze records).committedTxns tableFiles := by
  simp only [redoPhase, redoRecord_eq]
  exact foldlM_onRecord _ _ _ _

/-- The undo phase is that of the records that are reversed. -/
theorem undoPhase_filter (tableFiles : Dict Str ℤ) :
    undoPhase records (analyze records).activeTxns tableFiles =
      undoPhase (records.filter (Undoes records)) (analyze records).activeTxns tableFiles := by
  simp only [undoPhase, undoRecord_eq]
  rw [← List.filter_reverse]
  exact foldlM_onRecord _ _ _ _

/-! ## Transactions of several sessions -/

/-- Recovery from the log of the sessions applies no record again whose transaction was not
committed in its own session, and reverses none whose transaction was. -/
def Identified (history : List TxnSession) : Prop :=
  ∃ file records, TxnSession.wal history = .ok file ∧ LogManager.readAllRecords file = .ok records ∧
    ∀ s ∈ history, ∀ rec ∈ s.kept,
      (Redoes records rec → s.Commits rec.txnId) ∧ (Undoes records rec → ¬ s.Commits rec.txnId)

/-- An id whose transaction has changed something and was not committed in its session is committed
in no other; and one that was committed has not been begun again and left open. -/
def KeptApart (history : List TxnSession) : Prop := ∀ s ∈ history, ∀ rec ∈ s.kept,
  (rec.redone ≠ none → ¬ s.Commits rec.txnId → ∀ s' ∈ history, ¬ s'.Commits rec.txnId) ∧
  (rec.undone ≠ none → s.Commits rec.txnId → ¬ LeftOpen (history.flatMap TxnSession.kept) rec.txnId)

instance (history : List TxnSession) : Decidable (KeptApart history) :=
  inferInstanceAs (Decidable (∀ s ∈ history, ∀ rec ∈ s.kept, _ ∧ _))

theorem analyze_number (n : ℕ) (records : List LogRecord) :
    analyze (LogManager.number n records) = analyze records := by
  unfold analyze
  generalize ({} : Analysis) = a
  induction records generalizing n a with
  | nil => rfl
  | cons rec records ih =>
    rw [LogManager.number, List.foldl_cons, List.foldl_cons, ih]
    rfl

/-- Recovery identifies the transactions of the sessions exactly when their ids are kept apart, if
no frame was torn before the last session. -/
theorem recover_identifies_iff (history : List TxnSession) (hwf : ∀ s ∈ history, s.WellFormed)
    (hlsn : (history.flatMap TxnSession.kept).length + 1 < 2 ^ 64)
    (htorn : ∀ s ∈ history.dropLast, s.torn = 0) : Identified history ↔ KeptApart history := by
  obtain ⟨file, hfile, hread⟩ := TxnSession.wal_spec hwf hlsn htorn
  have hcommitted : ∀ txnId, txnId ∈ (analyze (history.flatMap TxnSession.kept)).committedTxns ↔
      ∃ s ∈ history, s.Commits txnId := by
    intro txnId
    rw [mem_committedTxns]
    constructor
    · rintro ⟨r, hr, hcommit⟩
      obtain ⟨s, hs, hr⟩ := List.mem_flatMap.mp hr
      exact ⟨s, hs, TxnSession.commits_iff.mpr ⟨r, hr, hcommit⟩⟩
    · rintro ⟨s, hs, hcommits⟩
      obtain ⟨r, hr, hcommit⟩ := TxnSession.commits_iff.mp hcommits
      exact ⟨r, List.mem_flatMap.mpr ⟨s, hs, hr⟩, hcommit⟩
  have hidentified : Identified history ↔ ∀ s ∈ history, ∀ rec ∈ s.kept,
      (Redoes (history.flatMap TxnSession.kept) rec → s.Commits rec.txnId) ∧
      (Undoes (history.flatMap TxnSession.kept) rec → ¬ s.Commits rec.txnId) := by
    unfold Identified Redoes Undoes
    constructor
    · rintro ⟨file', records, hfile', hread', h⟩
      obtain rfl := Except.ok.inj (hfile.symm.trans hfile')
      obtain rfl := Except.ok.inj (hread.symm.trans hread')
      rwa [analyze_number] at h
    · intro h
      refine ⟨file, _, hfile, hread, ?_⟩
      rwa [analyze_number]
  rw [hidentified]
  refine forall₂_congr fun s _ => forall₂_congr fun rec _ => and_congr ?_ ?_
  · unfold Redoes
    rw [hcommitted]
    constructor
    · intro h hredone hnot s' hs' hcommits
      exact hnot (h ⟨⟨s', hs', hcommits⟩, hredone⟩)
    · rintro h ⟨⟨s', hs', hcommits⟩, hredone⟩
      by_contra hnot
      exact h hredone hnot s' hs' hcommits
  · unfold Undoes
    rw [mem_activeTxns]
    constructor
    · intro h hundone hcommits hopen
      exact h ⟨hopen, hundone⟩ hcommits
    · rintro h ⟨hopen, hundone⟩ hcommits
      exact h hundone hcommits hopen

/-- Two sessions whose first transactions have the same id and are committed. -/
def sampleSessions : List TxnSession :=
  [⟨[.begin, .insert 1 (lit "t") ⟨0, 0⟩ [7], .commit 1], 0⟩,
    ⟨[.begin, .delete 1 (lit "t") ⟨0, 0⟩ [7], .commit 1, .begin], 40⟩]

theorem recover_identifies_iff_reused_id : Identified sampleSessions := by
  refine (recover_identifies_iff sampleSessions ?_ (by decide +kernel) (by decide +kernel)).mpr
    (by decide +kernel)
  have hall : ∀ s ∈ sampleSessions, ∀ r ∈ s.journal.records,
      LogRecordType.ofByte r.type.toByte = r.type ∧ r.tableName.length < 2 ^ 16 ∧
      r.rid.pageId < 2 ^ 32 ∧ r.rid.slotNum < 2 ^ 16 ∧
      (LogManager.serializeRecord r).length < 2 ^ 32 := by decide +kernel
  intro s hs r hr
  obtain ⟨h₁, h₂, h₃, h₄, h₅⟩ := hall s hs r hr
  exact ⟨h₁, h₂, h₃, h₄, h₅⟩

/-- A session that ended with an insertion not committed, and one whose first transaction was. -/
def sampleReuse : List TxnSession :=
  [⟨[.begin, .insert 1 (lit "t") ⟨0, 0⟩ [7]], 100⟩, ⟨[.begin, .commit 1], 0⟩]

/-- The commit of the second session commits the insertion of the first: recovery applies it again
to the table, which was empty. -/
theorem recover_redoes_uncommitted : ¬ Identified sampleReuse ∧
    ((do
      let _ ← PageManager.createTable (lit "t")
      Storage.flushAllPages
      let file ← Program.lift (TxnSession.wal sampleReuse)
      recover file
      Storage.flushAllPages
      Storage.tuplesOn (lit "t")).run ⟨DiskManager.new fun _ => none, BufferPool.new 4⟩).1.toOption =
      some [(⟨0, 0⟩, [7])] := by
  refine ⟨?_, by decide +kernel⟩
  rintro ⟨file, records, hfile, hread, h⟩
  have hlog : (TxnSession.wal sampleReuse >>= LogManager.readAllRecords).toOption =
      some (LogManager.number 1 (sampleReuse.flatMap TxnSession.kept)) := by decide +kernel
  rw [hfile, Machine.ok_bind, hread] at hlog
  obtain rfl := Option.some.inj hlog
  have hcommits := (h ⟨[.begin, .insert 1 (lit "t") ⟨0, 0⟩ [7]], 100⟩ (by simp [sampleReuse])
    { type := .insert, txnId := 1, tableName := lit "t", newData := [7] } (by decide +kernel)).1
    (by decide +kernel)
  exact absurd hcommits (by decide)

end RecoveryManager

end MiniDB
