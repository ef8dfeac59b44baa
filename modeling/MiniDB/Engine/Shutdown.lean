import MiniDB.Engine.Logging
import MiniDB.Recovery.Idempotence

/-!
# Shutting down and starting again

The destructors of `MiniDB` and its members write every page and the rest of the log. The next
process finds on the disk the files of the tables and a log that names no table, so that recovery
changes nothing, and a table that is opened has the rows it had. A process does not see the tables of
the processes before it; one that it creates anew takes the place of the old one.

## Main definitions

* `Engine.shutdown`: the destructors
* `Left`, `Engine.session`: what a process leaves on the disk, and a process from its start to its end
* `Database.session`: a process on the tables that were created last

## Main results

* `Engine.Confined.execute`: a statement writes to the files of the tables only
* `Engine.sessions_persist`: the tables after any number of processes
-/

namespace MiniDB

open Program

namespace Engine

/-! ## The files a statement writes to -/

/-- The open files of the engine are among these paths, and the disk is elsewhere as it was. -/
def Confined (paths : Str → Prop) (disk : Str → Option File) (db : Engine) : Prop :=
  Storage.Confined paths disk db.storage

namespace Confined

variable {paths : Str → Prop} {disk : Str → Option File} {α : Type}

theorem onStorage {x : Program Storage Fault α} (hx : Keeps (Storage.Confined paths disk) x) :
    Keeps (Confined paths disk) (onStorage x) := by
  intro db h
  rw [Engine.onStorage, wp_zoom]
  exact hx db.storage h

theorem onFrames {x : Program Storage Fault α} (hx : Storage.Frames x) :
    Keeps (Confined paths disk) (Engine.onStorage x) := onStorage (Storage.Confined.of_frames hx)

theorem update {f : Engine → Engine} (hf : ∀ db, (f db).storage = db.storage) :
    Keeps (Confined paths disk) (Engine.update f) :=
  Keeps.modify fun db h => by rwa [Confined, hf db]

theorem insertExecutor (tableName : Str) (info : TableInfo) (values : List Value) :
    Keeps (Confined paths disk) (insertExecutor tableName info values) := by
  unfold Engine.insertExecutor
  refine (onFrames (.insertTuple _ _ _)).bind fun rid => Keeps.get.bind fun db => ?_
  split
  · refine (Keeps.lift _).bind fun r => Keeps.bind ?_ fun _ => ?_
    all_goals exact update fun _ => rfl
  · exact update fun _ => rfl

theorem deleteOne (tableName : Str) (fileId : ℤ) (entry : RID × Int32) :
    Keeps (Confined paths disk) (deleteOne tableName fileId entry) := by
  unfold Engine.deleteOne
  refine (onFrames (.deleteTuple _ _)).bind fun _ => Keeps.get.bind fun db => ?_
  split
  · split
    · exact (Keeps.lift _).bind fun r => update fun _ => rfl
    · exact Keeps.pure ()
  · exact Keeps.pure ()

theorem deleteExecutor (tableName : Str) (info : TableInfo) (predicate : Predicate) :
    Keeps (Confined paths disk) (deleteExecutor tableName info predicate) := by
  unfold Engine.deleteExecutor
  refine (onFrames (.scanTable _ _ _)).bind fun toDelete =>
    Keeps.bind ?_ fun _ => Keeps.bind ?_ fun _ => Keeps.pure _
  · exact Keeps.foldlM (fun _ entry => deleteOne tableName info.fileId entry) toDelete ()
  · exact update fun _ => rfl

/-- The beginning and the end of a transaction around a program. -/
theorem transaction {β : Type} {x : Program Engine Fault α} (hx : Keeps (Confined paths disk) x)
    {f : α → Program Engine Fault β} (hf : ∀ a, Keeps (Confined paths disk) (f a)) :
    Keeps (Confined paths disk) (do
      let txnId ← beginTxn
      let a ← x
      commitTxn txnId
      f a) := by
  have hbegin : Keeps (Confined paths disk) beginTxn := fun db h => h
  have hcommit : ∀ txnId, Keeps (Confined paths disk) (commitTxn txnId) :=
    fun txnId => update fun _ => rfl
  exact hbegin.bind fun txnId => hx.bind fun a => (hcommit txnId).bind fun _ => hf a

/-- A statement writes to the files of the tables, and to that of a table that it creates. -/
theorem execute (stmt : Statement) (hpath : stmt.type = .createTable →
    paths (tableFile stmt.tableName)) : Keeps (Confined paths disk) (execute stmt) := by
  rw [execute_eq]
  cases htype : stmt.type with
  | createTable =>
    unfold executeCreateTable
    refine Keeps.get.bind fun db => ?_
    split
    · exact Keeps.pure _
    · refine (onStorage (Storage.Confined.createTable (hpath htype))).bind fun fileId =>
        Keeps.bind ?_ fun _ => Keeps.bind ?_ fun _ => Keeps.pure _
      all_goals exact update fun _ => rfl
  | insert =>
    unfold executeInsert
    refine Keeps.get.bind fun db => ?_
    split
    · exact Keeps.pure _
    · split
      · exact Keeps.pure _
      · split
        · exact Keeps.pure _
        · exact transaction (insertExecutor _ _ _) fun _ =>
            (update fun db => by split <;> rfl).bind fun _ => Keeps.pure _
  | select =>
    unfold executeSelect
    refine Keeps.get.bind fun db => ?_
    split
    · exact Keeps.pure _
    · split
      · exact Keeps.pure _
      · refine (onFrames (.scanTable _ _ _)).bind fun tuples => ?_
        split <;> exact Keeps.pure _
  | delete =>
    unfold executeDelete
    refine Keeps.get.bind fun db => ?_
    split
    · exact Keeps.pure _
    · split
      · exact Keeps.pure _
      · exact transaction (deleteExecutor _ _ _) fun _ => Keeps.pure _

/-- The statements of a run write to the files of the tables they create. -/
theorem run {stmts : List Statement} {db db' : Engine} {replies : List Reply}
    (h : Confined paths disk db) (hrun : executeAll db stmts = .ok (db', replies))
    (hpaths : ∀ stmt ∈ stmts, stmt.type = .createTable → paths (tableFile stmt.tableName)) :
    Confined paths disk db' := by
  induction stmts generalizing db replies with
  | nil =>
    obtain ⟨rfl, -⟩ := Prod.mk.inj (Except.ok.inj hrun)
    exact h
  | cons stmt stmts ih =>
    obtain ⟨db₁, reply, replies', hstep, hrest, -⟩ := Machine.run_cons_inv hrun
    refine ih ?_ hrest fun stmt' hmem => hpaths stmt' (List.mem_cons_of_mem stmt hmem)
    exact wp_of_ok (Q := fun _ db' => Confined paths disk db')
      (execute stmt (hpaths stmt List.mem_cons_self) db h) (run_of_step hstep)

end Confined

end Engine

namespace Database

variable {D : Database} {stmt : Statement} {name : Str}

/-- A table stays. -/
theorem exec_ne_none (h : D name ≠ none) : (D.exec stmt).1 name ≠ none := by
  by_cases hname : name = stmt.tableName
  · subst hname
    unfold exec
    split
    case h_2 hnone => exact absurd hnone h
    case h_3 => split <;> simp_all
    case h_4 => split <;> simp_all
    case h_5 => split <;> simp_all
    all_goals exact h
  · rw [exec_other hname]
    exact h

theorem exec_createTable (htype : stmt.type = .createTable) :
    (D.exec stmt).1 stmt.tableName ≠ none := by
  unfold exec
  rw [htype]
  cases hD : D stmt.tableName with
  | none => simp
  | some t => simp [hD]

theorem specRun_ne_none {stmts : List Statement} (h : D name ≠ none) :
    (Machine.specRun exec D stmts).1 name ≠ none := by
  induction stmts generalizing D with
  | nil => exact h
  | cons stmt stmts ih => exact ih (exec_ne_none h)

/-- The tables that are created are there at the end. -/
theorem specRun_createTable {stmts : List Statement} (hmem : stmt ∈ stmts)
    (htype : stmt.type = .createTable) :
    (Machine.specRun exec D stmts).1 stmt.tableName ≠ none := by
  induction stmts generalizing D with
  | nil => cases hmem
  | cons stmt' stmts ih =>
    rcases List.mem_cons.mp hmem with rfl | hmem
    · exact specRun_ne_none (D := (D.exec stmt).1) (exec_createTable htype)
    · exact ih hmem

theorem specRun_other {stmts : List Statement} (h : ∀ stmt ∈ stmts, name ≠ stmt.tableName) :
    (Machine.specRun exec D stmts).1 name = D name := by
  induction stmts generalizing D with
  | nil => rfl
  | cons stmt stmts ih =>
    obtain ⟨hstmt, hrest⟩ := List.forall_mem_cons.mp h
    exact (ih hrest).trans (exec_other hstmt)

/-- A process on the tables that were created last: it sees none of them, and the tables it creates
take the places of those of the same names. -/
def session (D : Database) (stmts : List Statement) : Database × List Answer :=
  let r := Machine.specRun exec (fun _ => none) stmts
  (fun name => (r.1 name).or (D name), r.2)

/-- Processes leave the tables that they do not name. -/
theorem sessions_other {history : List (List Statement)}
    (h : ∀ stmts ∈ history, ∀ stmt ∈ stmts, name ≠ stmt.tableName) :
    (Machine.specRun session D history).1 name = D name := by
  induction history generalizing D with
  | nil => rfl
  | cons stmts history ih =>
    obtain ⟨hstmts, hrest⟩ := List.forall_mem_cons.mp h
    refine (ih hrest).trans ?_
    show ((Machine.specRun exec (fun _ => none) stmts).1 name).or (D name) = D name
    rw [specRun_other hstmts, Option.none_or]

end Database

namespace Engine

/-! ## Processes -/

/-- The destructors of `MiniDB` and its members: the pages, the log, and the pages again. -/
def shutdown : Program Engine Fault Unit := do
  onStorage Storage.flushAllPages
  update fun db => { db with logMgr := db.logMgr.flushLog }
  onStorage Storage.flushAllPages

end Engine

/-- What a process leaves on the disk: the files of the tables, and the log. -/
structure Left where
  files : Str → Option File
  wal : Str

namespace Engine

/-- A process from its start to its end. -/
def session (d : Left) (stmts : List Statement) : Except Fault (Left × List Reply) := do
  let logMgr ← LogManager.openLog d.wal
  let (db, replies) ← executeAll (Engine.new d.files logMgr) stmts
  let (db, _) ← shutdown.toStep db
  return (⟨db.storage.diskMgr.disk, db.logMgr.file⟩, replies)

/-- A flush of the pages and the log returns, and after it no page is dirty. -/
theorem shutdown_spec {F : Files} {db : Engine} (h : Storage.Holds F none none db.storage) :
    wp (fun _ => False) shutdown (fun _ db' => Storage.Holds F none none db'.storage ∧
      Storage.Holds.Clean db'.storage ∧ db'.logMgr = db.logMgr.flushLog) db := by
  simp only [shutdown, update, onStorage, wp_bind, wp_zoom, wp_modify]
  refine wp_mono h.flushAllPages ?_
  rintro - s₁ ⟨h₁, -⟩
  refine wp_mono h₁.flushAllPages ?_
  rintro - s₂ ⟨h₂, hclean⟩
  exact ⟨h₂, hclean, trivial⟩

/-- It writes to open files only. -/
theorem Confined.shutdown {paths : Str → Prop} {disk : Str → Option File} :
    Keeps (Confined paths disk) shutdown := by
  refine (onFrames .flushAllPages).bind fun _ => Keeps.bind ?_ fun _ => onFrames .flushAllPages
  exact update fun _ => rfl

/-! ## The log of a process -/

/-- The records that statements write: they name no table. -/
def Plain (rec : LogRecord) : Prop :=
  ∃ txnId, rec = LogRecord.begin txnId ∨ rec = LogRecord.commit txnId

theorem Plain.wellFormed {rec : LogRecord} (h : Plain rec) : rec.WellFormed := by
  obtain ⟨txnId, rfl | rfl⟩ := h
  case inl =>
    refine ⟨rfl, ?_, ?_, ?_, ?_⟩
    all_goals simp [LogRecord.begin, LogManager.length_serializeRecord]
  case inr =>
    refine ⟨rfl, ?_, ?_, ?_, ?_⟩
    all_goals simp [LogRecord.commit, LogManager.length_serializeRecord]

/-- The log of a run continues the log it began with by at most two records a statement. -/
theorem log_of_run {stmts : List Statement} {db db' : Engine} {replies : List Reply}
    {records : List LogRecord} (hplain : ∀ rec ∈ records, Plain rec)
    (hlog : db.logMgr = ⟨LogManager.framed 1 records, [], records.length + 1⟩)
    (hrun : executeAll db stmts = .ok (db', replies)) :
    ∃ records', (∀ rec ∈ records', Plain rec) ∧
      db'.logMgr = ⟨LogManager.framed 1 records', [], records'.length + 1⟩ ∧
      records'.length ≤ records.length + 2 * stmts.length := by
  induction stmts generalizing db replies records with
  | nil =>
    obtain ⟨rfl, -⟩ := Prod.mk.inj (Except.ok.inj hrun)
    exact ⟨records, hplain, hlog, Nat.le_refl _⟩
  | cons stmt stmts ih =>
    obtain ⟨db₁, reply, replies', hstep, hrest, -⟩ := Machine.run_cons_inv hrun
    obtain ⟨added, hadded, hlog₁⟩ := step_log (by rw [hlog]) hstep
    have hplain' : ∀ rec ∈ records ++ added, Plain rec := by
      intro rec hrec
      rcases List.mem_append.mp hrec with hrec | hrec
      · exact hplain rec hrec
      · rcases hadded with rfl | ⟨txnId, rfl⟩
        · cases hrec
        · exact ⟨txnId, List.mem_pair.mp hrec⟩
    have hlen : added.length ≤ 2 := by
      rcases hadded with rfl | ⟨txnId, rfl⟩ <;> simp
    obtain ⟨records', hplain₁, hlog', hle⟩ := ih hplain' (by
      rw [hlog₁, LogManager.foldl_appendLog, hlog, LogManager.framed_append, LogManager.flushLog,
        List.length_append]
      simp only [List.nil_append, LogManager.mk.injEq, true_and, Nat.add_comm 1]
      omega) hrest
    refine ⟨records', hplain₁, hlog', ?_⟩
    rw [List.length_append] at hle
    rw [List.length_cons]
    omega

/-! ## What processes leave -/

/-- The file lays out a heap with the rows of the table. -/
def Keeping (file : File) (t : Schema × Multiset Tuple) : Prop :=
  ∃ h : Heap, LaysOut file h ∧
    ((h.live.map fun e => rowOf t.1 e.2 : List Tuple) : Multiset Tuple) = t.2

/-- What processes leave that execute `n` statements: the files of the tables that were created
last, and a log that names no table. -/
structure Kept (n : ℕ) (d : Left) (D : Database) : Prop where
  tables : ∀ name, Option.Rel Keeping (d.files (tableFile name)) (D name)
  log : ∃ records, (∀ rec ∈ records, Plain rec) ∧ d.wal = LogManager.framed 1 records ∧
    records.length ≤ 2 * n

/-- Before the first process. -/
theorem kept_none : Kept 0 ⟨fun _ => none, []⟩ fun _ => none where
  tables _ := .none
  log := ⟨[], by simp, rfl, Nat.le_refl _⟩

/-- The file of a table of the engine, after a flush. -/
theorem HoldsWith.keeping {H : Heaps} {F : Files} {T : Tables} {db : Engine} {s : Storage} {name : Str}
    {t : Table} (h : HoldsWith H T db) (hF : Storage.Holds F none none s)
    (hclean : Storage.Holds.Clean s) (hrel : ∀ f, Option.Rel Lays (F f) (H f))
    (ht : T name = some t) : ∃ file, s.diskMgr.disk (tableFile name) = some file ∧
      Keeping file (t.schema, t.bag) := by
  obtain ⟨info, tree, -, -, hH, -⟩ := h.linked ht
  obtain ⟨u, hu, hl⟩ := Stores.rel_some hrel hH
  obtain ⟨file, hfile, hlays⟩ := hF.laysOut hclean hu hl
  refine ⟨file, hfile, t.heap, hlays, ?_⟩
  rw [Table.bag, Table.rows, List.map_map]
  rfl

/-- A process writes to the files of its tables only. -/
theorem confined_of_run {disk : Str → Option File} {log : LogManager} {stmts : List Statement}
    {T : Tables} {db db' : Engine} {replies : List Reply}
    (hT : T.database = (Machine.specRun Database.exec (fun _ => none) stmts).1)
    (hrun : executeAll (Engine.new disk log) stmts = .ok (db, replies))
    (hdown : shutdown.run db = (.ok (), db')) :
    Confined (fun path => ∃ name, T name ≠ none ∧ path = tableFile name) disk db' := by
  have hnew : Confined (fun path => ∃ name, T name ≠ none ∧ path = tableFile name) disk
      (Engine.new disk log) :=
    { opened := fun {f h} hf => by cases hf
      elsewhere := fun {_} _ => rfl }
  refine wp_of_ok (Q := fun _ db' => Confined _ disk db')
    (Confined.shutdown db (hnew.run hrun fun stmt hmem htype => ?_)) hdown
  refine ⟨stmt.tableName, fun hnone => ?_, rfl⟩
  refine Database.specRun_createTable (D := fun _ => none) hmem htype ?_
  rw [← hT, Tables.database, hnone]
  rfl

/-- A process does what the process on the tables does. -/
theorem session_kept {n : ℕ} {d : Left} {D : Database} {stmts : List Statement} (h : Kept n d D)
    (hfits : Machine.Along Database.StorableRow Database.exec (fun _ => none) stmts)
    (hlsn : 2 * n + 1 ≤ 2 ^ 64) : (∃ e, Excused e ∧ session d stmts = .error e) ∨
      ∃ d' replies, session d stmts = .ok (d', replies) ∧
        Kept (n + stmts.length) d' (D.session stmts).1 ∧
        replies.map Reply.answer = (D.session stmts).2 := by
  obtain ⟨records, hplain, hwal, hle⟩ := h.log
  have hopen := LogManager.openLog_framed (fun r hr => (hplain r hr).wellFormed)
    (by omega : records.length + 1 ≤ 2 ^ 64) LogManager.readAllRecords_nil
  rw [List.append_nil, ← hwal] at hopen
  set log : LogManager := ⟨d.wal, [], records.length + 1⟩ with hlog
  rcases Machine.run_refines represents_refines stmts _ _ (represents_new d.files log) hfits with
    ⟨e, hexcused, herror⟩ | ⟨db, replies, hrun, ⟨T, ⟨H, hholds⟩, hT⟩, hanswers⟩
  · refine Or.inl ⟨e, hexcused, ?_⟩
    rw [session, hopen, Machine.ok_bind, executeAll, herror]
    rfl
  · obtain ⟨F, hF, hrel⟩ := hholds.stores
    obtain ⟨⟨⟩, db', hdown, hF', hclean, hlog'⟩ := wp_total.mp (shutdown_spec hF)
    refine Or.inr ⟨⟨db'.storage.diskMgr.disk, db'.logMgr.file⟩, replies, ?_, ?_, ?_⟩
    · rw [session, hopen, Machine.ok_bind, executeAll, hrun, Machine.ok_bind]
      dsimp only
      rw [toStep_of_run hdown]
      rfl
    · constructor
      case tables =>
        intro name
        rw [Database.session, ← hT]
        cases ht : T name with
        | some t =>
          obtain ⟨file, hfile, hkeeping⟩ := hholds.keeping hF' hclean hrel ht
          simp only [Tables.database, hfile, ht, Option.map_some, Option.some_or]
          exact .some hkeeping
        | none =>
          have hconfined := confined_of_run hT hrun hdown
          have hsame : db'.storage.diskMgr.disk (tableFile name) = d.files (tableFile name) := by
            refine hconfined.elsewhere ?_
            rintro ⟨name', hT', hpath⟩
            exact hT' (tableFile_inj hpath ▸ ht)
          simp only [Tables.database, hsame, ht, Option.map_none, Option.none_or]
          exact h.tables name
      case log =>
        obtain ⟨records', hplain', hdb, hle'⟩ := log_of_run hplain
          (by rw [Engine.new, hlog, hwal]) hrun
        refine ⟨records', hplain', ?_, ?_⟩
        · rw [hlog', hdb, LogManager.flushLog]
          exact List.append_nil _
        · omega
    · rw [Database.session, ← List.forall₂_eq_eq_eq, List.forall₂_map_left_iff]
      exact hanswers

/-- Processes one after another. -/
theorem sessions_kept : ∀ {history : List (List Statement)} {n : ℕ} {d : Left} {D : Database},
    Kept n d D →
    (∀ stmts ∈ history, Machine.Along Database.StorableRow Database.exec (fun _ => none) stmts) →
    2 * (n + history.flatten.length) + 1 ≤ 2 ^ 64 →
    (∃ e, Excused e ∧ Machine.run session d history = .error e) ∨
      ∃ d' replies, Machine.run session d history = .ok (d', replies) ∧
        Kept (n + history.flatten.length) d' (Machine.specRun Database.session D history).1 ∧
        replies.map (List.map Reply.answer) = (Machine.specRun Database.session D history).2
  | [], _, d, _, h, _, _ => Or.inr ⟨d, [], rfl, h, rfl⟩
  | stmts :: history, n, d, D, h, hfits, hlsn => by
    rw [List.flatten_cons, List.length_append] at hlsn ⊢
    rcases session_kept h (hfits stmts List.mem_cons_self) (by omega) with
      ⟨e, hexcused, herror⟩ | ⟨d₁, replies₁, hsession, h₁, hanswers⟩
    · exact Or.inl ⟨e, hexcused, Machine.run_cons_error herror history⟩
    · rcases sessions_kept h₁ (fun stmts' hmem => hfits stmts' (List.mem_cons_of_mem stmts hmem))
        (by omega) with ⟨e, hexcused, herror⟩ | ⟨d', replies, hrun, h', hanswers'⟩
      · refine Or.inl ⟨e, hexcused, ?_⟩
        rw [Machine.run_cons_ok hsession, herror]
        rfl
      · refine Or.inr ⟨d', replies₁ :: replies, ?_, ?_, ?_⟩
        · rw [Machine.run_cons_ok hsession, hrun]
          rfl
        · rw [← Nat.add_assoc]
          exact h'
        · rw [List.map_cons, hanswers, hanswers']
          rfl

/-! ## The next process -/

/-- The tuples are the rows of the table; a table that was never created has none. -/
def RowsOf (D : Database) (name : Str) (tuples : List (RID × Str)) : Prop :=
  match D name with
  | none => tuples = []
  | some (schema, bag) =>
    ((tuples.map fun e => rowOf schema e.2 : List Tuple) : Multiset Tuple) = bag

/-- Recovery makes no call for a record that names no table. -/
theorem not_replayed {records : List LogRecord} {n : ℕ} (hplain : ∀ rec ∈ records, Plain rec)
    {rec : LogRecord} (hrec : rec ∈ LogManager.number n records) (call : HeapCall) :
    ¬ (rec.redone = some call ∨ rec.undone = some call) := by
  intro hcall
  have htype := LogRecord.type_of_call hcall
  obtain ⟨rec, hmem, k, rfl⟩ := LogManager.mem_number hrec
  obtain ⟨txnId, rfl | rfl⟩ := hplain rec hmem
  all_goals simp [LogRecord.begin, LogRecord.commit] at htype

theorem recover_plain (D : HeapTables) {records : List LogRecord} (n : ℕ)
    (hplain : ∀ rec ∈ records, Plain rec) : D.recover (LogManager.number n records) = D := by
  have hnone : recoverCalls (LogManager.number n records) = fun _ => [] := by
    funext name
    refine List.eq_nil_iff_forall_not_mem.mpr fun call hmem => ?_
    obtain ⟨rec, hrec, -, hcall⟩ := mem_recoverCalls hmem
    exact not_replayed hplain hrec call (hcall.imp And.right And.right)
  rw [HeapTables.recover, hnone, HeapTables.apply_nil]

/-- The files lay out heaps with the rows of the tables. -/
theorem Kept.heaps {n : ℕ} {d : Left} {D : Database} (h : Kept n d D)
    (hsmall : ∀ name file, D name ≠ none → d.files (tableFile name) = some file →
      file.size < 2 ^ 32) :
    ∃ heaps : HeapTables, (∀ name, Option.Rel FileLays (d.files (tableFile name)) (heaps name)) ∧
      ∀ name, RowsOf D name (match heaps name with | none => [] | some h => h.live) := by
  have hname : ∀ name, ∃ o : Option Heap, Option.Rel FileLays (d.files (tableFile name)) o ∧
      RowsOf D name (match o with | none => [] | some h => h.live) := by
    intro name
    unfold RowsOf
    have hrel := h.tables name
    cases ht : D name with
    | none =>
      rw [ht] at hrel
      cases hfile : d.files (tableFile name) with
      | none => exact ⟨none, .none, rfl⟩
      | some file => rw [hfile] at hrel; cases hrel
    | some t =>
      rw [ht] at hrel
      cases hfile : d.files (tableFile name) with
      | none => rw [hfile] at hrel; cases hrel
      | some file =>
        rw [hfile] at hrel
        cases hrel with
        | some hkeeping =>
          obtain ⟨heap, hlays, hrows⟩ := hkeeping
          exact ⟨some heap, .some (hlays.fileLays (hsmall name file (by simp [ht]) hfile)), hrows⟩
  choose heaps hheaps using hname
  exact ⟨heaps, fun name => (hheaps name).1, fun name => (hheaps name).2⟩

/-- A new process recovers, and a table that it opens has its rows. -/
theorem Kept.recover {n : ℕ} {d : Left} {D : Database} (h : Kept n d D) (hlsn : 2 * n + 1 ≤ 2 ^ 64)
    (hsmall : ∀ name file, D name ≠ none → d.files (tableFile name) = some file →
      file.size < 2 ^ 32) {poolSize : ℕ} (hpool : 0 < poolSize) :
    ∃ s, (RecoveryManager.recoverAndFlush d.wal).run
        ⟨DiskManager.new d.files, BufferPool.new poolSize⟩ = (.ok (), s) ∧
      ∀ name, ∃ tuples s', (Storage.tuplesOn name).run s = (.ok tuples, s') ∧
        RowsOf D name tuples := by
  obtain ⟨heaps, hfiles, hrows⟩ := h.heaps hsmall
  obtain ⟨records, hplain, hwal, hle⟩ := h.log
  have hread := LogManager.readAllRecords_framed (n := 1) (fun r hr => (hplain r hr).wellFormed)
    (by omega) []
  rw [List.append_nil, LogManager.readAllRecords_nil, Machine.ok_map, List.append_nil, ← hwal]
    at hread
  have hsame := recover_plain heaps 1 hplain
  obtain ⟨⟨⟩, s, hrun, hdisk⟩ := wp_total.mp (RecoveryManager.recover_spec hread
    (Storage.onDisk_new _ hpool hfiles)
    (fun rec hrec _ _ call hcall => absurd hcall (not_replayed hplain hrec call))
    (fun name heap hheap => by
      rw [hsame] at hheap
      exact (Storage.onDisk_new (RecoveryManager.Named []) hpool hfiles).small hheap))
  rw [hsame] at hdisk
  refine ⟨s, hrun, fun name => ?_⟩
  obtain ⟨s', htuples⟩ := hdisk.tuplesOn name
  exact ⟨_, s', htuples, hrows name⟩

/-- The tables after any number of processes, each of which runs statements and is shut down. In
every history in which the inserted rows fit a page, no disk operation fails and every call of a B+
tree returns, a process answers as on a database without a table, and what is on the disk in the end
are the tables that were created last: a process that recovers from the log they have left, with
files below 4 GiB, changes none of them, and reads exactly their rows. -/
theorem sessions_persist (history : List (List Statement))
    (hfits : ∀ stmts ∈ history,
      Machine.Along Database.StorableRow Database.exec (fun _ => none) stmts)
    (hlsn : 2 * history.flatten.length + 1 ≤ 2 ^ 64)
    (hio : Machine.run session ⟨fun _ => none, []⟩ history ≠ .error .io)
    (hindex : Machine.run session ⟨fun _ => none, []⟩ history ≠ .error .index) :
    ∃ d replies, Machine.run session ⟨fun _ => none, []⟩ history = .ok (d, replies) ∧
      replies.map (List.map Reply.answer) =
        (Machine.specRun Database.session (fun _ => none) history).2 ∧
      ((∀ name file, (Machine.specRun Database.session (fun _ => none) history).1 name ≠ none →
          d.files (tableFile name) = some file → file.size < 2 ^ 32) →
        ∀ poolSize, 0 < poolSize →
          ∃ s, (RecoveryManager.recoverAndFlush d.wal).run
              ⟨DiskManager.new d.files, BufferPool.new poolSize⟩ = (.ok (), s) ∧
            ∀ name, ∃ tuples s', (Storage.tuplesOn name).run s = (.ok tuples, s') ∧
              RowsOf (Machine.specRun Database.session (fun _ => none) history).1 name tuples) := by
  rcases sessions_kept kept_none hfits (by omega) with
    ⟨e, rfl | rfl, herror⟩ | ⟨d, replies, hrun, hkept, hanswers⟩
  · exact absurd herror hio
  · exact absurd herror hindex
  · exact ⟨d, replies, hrun, hanswers, fun hsmall poolSize hpool =>
      hkept.recover (by omega) hsmall hpool⟩

/-- A process that creates two tables, and one that creates one of them anew. -/
def twoProcesses : List (List Statement) := [
  [{ type := .createTable, tableName := lit "t", columns := [⟨lit "id", lit "INT"⟩] },
    { type := .insert, tableName := lit "t", values := [lit "1"] },
    { type := .createTable, tableName := lit "u", columns := [⟨lit "id", lit "INT"⟩] },
    { type := .insert, tableName := lit "u", values := [lit "2"] }],
  [{ type := .select, tableName := lit "t", selectAll := true },
    { type := .createTable, tableName := lit "t", columns := [⟨lit "name", lit "TEXT"⟩] },
    { type := .insert, tableName := lit "t", values := [lit "a"] }]]

/-- The second process does not see the table of the first, and its own takes its place; the other
table is as the first process has left it. -/
theorem sessions_persist_two_processes : ∃ d replies,
    Machine.run session ⟨fun _ => none, []⟩ twoProcesses = .ok (d, replies) ∧
    replies.map (List.map Reply.answer) =
      [[.created 1, .inserted, .created 1, .inserted], [.rejected, .created 1, .inserted]] ∧
    ∃ s, (RecoveryManager.recoverAndFlush d.wal).run
        ⟨DiskManager.new d.files, BufferPool.new 2⟩ = (.ok (), s) ∧
      (∃ tuples s', (Storage.tuplesOn (lit "t")).run s = (.ok tuples, s') ∧
        ((tuples.map fun e => rowOf [⟨lit "name", .text⟩] e.2 : List Tuple) : Multiset Tuple) =
          {[.text (lit "a")]}) ∧
      ∃ tuples s', (Storage.tuplesOn (lit "u")).run s = (.ok tuples, s') ∧
        ((tuples.map fun e => rowOf [⟨lit "id", .int⟩] e.2 : List Tuple) : Multiset Tuple) =
          {[.int 2]} := by
  obtain ⟨d, replies, hrun, hanswers, hrows⟩ := sessions_persist twoProcesses
    (by
      intro stmts hmem
      rcases List.mem_pair.mp hmem with rfl | rfl
      · exact .cons (by decide +kernel) (.cons (by decide +kernel) (.cons (by decide +kernel)
          (.cons (by decide +kernel) .nil)))
      · exact .cons (by decide +kernel) (.cons (by decide +kernel) (.cons (by decide +kernel) .nil)))
    (by decide) (Machine.ne_error_of_isOk (by decide +kernel) _)
    (Machine.ne_error_of_isOk (by decide +kernel) _)
  refine ⟨d, replies, hrun, hanswers.trans (by decide +kernel), ?_⟩
  have hsize : (Machine.run session ⟨fun _ => none, []⟩ twoProcesses).toOption.map (fun r =>
      [lit "t", lit "u"].map fun name => (r.1.files (tableFile name)).map File.size) =
        some [some 4096, some 4096] := by decide +kernel
  rw [hrun] at hsize
  obtain ⟨ht, hu⟩ : (d.files (tableFile (lit "t"))).map File.size = some 4096 ∧
      (d.files (tableFile (lit "u"))).map File.size = some 4096 := by
    simpa [Except.toOption] using hsize
  obtain ⟨s, hrecover, htables⟩ := hrows (fun name file hname hfile => by
    by_cases hnt : name = lit "t"
    · rw [← hnt, hfile] at ht
      exact Option.some.inj ht ▸ by decide
    · by_cases hnu : name = lit "u"
      · rw [← hnu, hfile] at hu
        exact Option.some.inj hu ▸ by decide
      · exfalso
        refine hname (Database.sessions_other ?_)
        simp [twoProcesses, hnt, hnu]) 2 (by decide)
  have hrowst : (Machine.specRun Database.session (fun _ => none) twoProcesses).1 (lit "t") =
      some ([⟨lit "name", .text⟩], {[.text (lit "a")]}) := by decide +kernel
  have hrowsu : (Machine.specRun Database.session (fun _ => none) twoProcesses).1 (lit "u") =
      some ([⟨lit "id", .int⟩], {[.int 2]}) := by decide +kernel
  refine ⟨s, hrecover, ?_, ?_⟩
  · obtain ⟨tuples, s', hrun, hrows⟩ := htables (lit "t")
    rw [RowsOf, hrowst] at hrows
    exact ⟨tuples, s', hrun, hrows⟩
  · obtain ⟨tuples, s', hrun, hrows⟩ := htables (lit "u")
    rw [RowsOf, hrowsu] at hrows
    exact ⟨tuples, s', hrun, hrows⟩

end Engine

end MiniDB
