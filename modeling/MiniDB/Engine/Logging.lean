import MiniDB.Engine.Indexes
import MiniDB.Recovery.LogFile
import MiniDB.Storage.HeapRuns

/-!
# What the engine logs

`LogManager.h` says that all modifications are logged before they are applied. The executors write
no record: between the `BEGIN` and the `COMMIT` of a statement the log has nothing. The log covers a
run of statements exactly as long as no `INSERT` of the run is accepted.

## Main definitions

* `Engine.tuplesOf`: the tuples of a table with their record identifiers, by a scan
* `Engine.Covers`: the records that a statement appended are those of the changes it made
* `Engine.LogCovers`: every statement of a run is covered, and the records give the tuples back
* `Database.RejectsInsert`: the statement is no `INSERT` that would be accepted

## Main results

* `Engine.execute_log`: what a statement appends to the log
* `Engine.log_covers_iff`: the runs that the log covers
-/

namespace MiniDB

open Program

namespace LogRecord

/-- The record of `logBegin`. -/
def begin (txnId : Int32) : LogRecord := { type := .beginTxn, txnId := txnId }

/-- The record of `logCommit`. -/
def commit (txnId : Int32) : LogRecord := { type := .commitTxn, txnId := txnId }

/-- The record of `logInsert`. -/
def insertion (txnId : Int32) (tableName : Str) (e : RID × Str) : LogRecord :=
  { type := .insert, txnId := txnId, tableName := tableName, rid := e.1, newData := e.2 }

/-- The record of `logDelete`. -/
def deletion (txnId : Int32) (tableName : Str) (e : RID × Str) : LogRecord :=
  { type := .delete, txnId := txnId, tableName := tableName, rid := e.1, oldData := e.2 }

end LogRecord

namespace Engine

/-! ## What the log should have -/

/-- The tuples of a table with their record identifiers, by a scan; a table that does not exist has
none. -/
def tuplesOf (db : Engine) (tableName : Str) : Except Fault (List (RID × Str)) :=
  match db.catalog.getTable tableName with
  | none => .ok []
  | some info => ((onStorage (PageManager.scanTable HeapCall.keep info.fileId [])).run db).1

/-- One record for each tuple that is there only after a statement, or only before it. -/
def changeRecords (txnId : Int32) (tableName : Str) (before after : List (RID × Str)) :
    List LogRecord :=
  (after.filter (· ∉ before)).map (.insertion txnId tableName) ++
    (before.filter (· ∉ after)).map (.deletion txnId tableName)

/-- The statement has appended the records, and between the `BEGIN` and the `COMMIT` among them
there is exactly one for each tuple it added or removed. A statement that opens no transaction
appends nothing and changes no tuple. -/
structure Covers (db : Engine) (stmt : Statement) (records : List LogRecord) (db' : Engine) :
    Prop where
  step : ∃ reply, Engine.step db stmt = .ok (db', reply)
  log : db'.logMgr = (records.foldl LogManager.appendLog db.logMgr).flushLog
  changes : ∃ before after, tuplesOf db stmt.tableName = .ok before ∧
    tuplesOf db' stmt.tableName = .ok after ∧ (records = [] ∧ after = before ∨
      ∃ txnId middle, records = .begin txnId :: (middle ++ [.commit txnId]) ∧
        middle.Perm (changeRecords txnId stmt.tableName before after))

/-- A record applied to a bag of tuples. -/
def replayRecord (bag : Multiset Str) (r : LogRecord) : Multiset Str :=
  match r.type with
  | .insert => r.newData ::ₘ bag
  | .delete => bag.erase r.oldData
  | _ => bag

/-- The records on a table of the transactions that have a `COMMIT` among the records. -/
def committedOn (records : List LogRecord) (tableName : Str) : List LogRecord :=
  records.filter fun r => r.tableName = tableName ∧
    ∃ c ∈ records, c.type = .commitTxn ∧ c.txnId = r.txnId

/-- The tuples that the records of committed transactions leave in a table that was created
empty. -/
def replay (records : List LogRecord) (tableName : Str) : Multiset Str :=
  (committedOn records tableName).foldl replayRecord 0

/-- Every statement of the run is covered by the records it appended, and these records give back
the tuples of every table. -/
def LogCovers (db : Engine) (stmts : List Statement) (db' : Engine) : Prop :=
  ∃ blocks, Machine.Steps Covers db stmts blocks db' ∧ ∀ name tuples,
    tuplesOf db' name = .ok tuples → replay blocks.flatten name = (tuples.map Prod.snd : List Str)

/-! ## What a statement appends -/

/-- The program leaves the log and the transactions as they are. -/
def Quiet {α : Type} (x : Program Engine Fault α) : Prop := ∀ db, wp (fun _ => True) x
  (fun _ db' => db'.logMgr = db.logMgr ∧ db'.txnMgr = db.txnMgr) db

namespace Quiet

variable {α β : Type}

theorem pure (a : α) : Quiet (pure a) := fun _ => ⟨rfl, rfl⟩

theorem lift (x : Except Fault α) : Quiet (Program.lift x) := by
  intro db
  cases x with
  | error e => trivial
  | ok a => exact ⟨rfl, rfl⟩

theorem get : Quiet Program.get := fun _ => ⟨rfl, rfl⟩

theorem update {f : Engine → Engine} (hlog : ∀ db, (f db).logMgr = db.logMgr)
    (htxn : ∀ db, (f db).txnMgr = db.txnMgr) : Quiet (Engine.update f) :=
  fun db => ⟨hlog db, htxn db⟩

theorem onStorage (x : Program Storage Fault α) : Quiet (onStorage x) := by
  intro db
  rw [Engine.onStorage, wp_zoom]
  unfold wp
  rcases x.run db.storage with ⟨e | a, s⟩
  · trivial
  · exact ⟨rfl, rfl⟩

theorem bind {x : Program Engine Fault α} {f : α → Program Engine Fault β} (hx : Quiet x)
    (hf : ∀ a, Quiet (f a)) : Quiet (x >>= f) := by
  intro db
  rw [wp_bind]
  refine wp_mono (hx db) ?_
  rintro a db₁ ⟨hlog, htxn⟩
  refine wp_mono (hf a db₁) ?_
  rintro b db₂ ⟨hlog', htxn'⟩
  exact ⟨hlog'.trans hlog, htxn'.trans htxn⟩

theorem foldlM {f : β → α → Program Engine Fault β} (hf : ∀ b a, Quiet (f b a)) :
    ∀ (as : List α) (b : β), Quiet (as.foldlM f b)
  | [], b => pure b
  | a :: as, b => by
    rw [List.foldlM_cons]
    exact (hf b a).bind fun b' => foldlM hf as b'

/-- `InsertExecutor::init` writes no record. -/
theorem insertExecutor (tableName : Str) (info : TableInfo) (values : List Value) :
    Quiet (insertExecutor tableName info values) := by
  unfold Engine.insertExecutor
  refine (onStorage _).bind fun rid => get.bind fun db => ?_
  split
  · refine (lift _).bind fun r => bind ?_ fun _ => ?_
    all_goals exact update (fun _ => rfl) fun _ => rfl
  · exact update (fun _ => rfl) fun _ => rfl

theorem deleteOne (tableName : Str) (fileId : ℤ) (entry : RID × Int32) :
    Quiet (deleteOne tableName fileId entry) := by
  unfold Engine.deleteOne
  refine (onStorage _).bind fun _ => get.bind fun db => ?_
  split
  · split
    · exact (lift _).bind fun r => update (fun _ => rfl) fun _ => rfl
    · exact pure ()
  · exact pure ()

/-- `DeleteExecutor::init` writes no record. -/
theorem deleteExecutor (tableName : Str) (info : TableInfo) (predicate : Predicate) :
    Quiet (deleteExecutor tableName info predicate) := by
  unfold Engine.deleteExecutor
  refine (onStorage _).bind fun toDelete => bind ?_ fun _ => bind ?_ fun _ => pure _
  · exact foldlM (fun _ entry => deleteOne tableName info.fileId entry) toDelete ()
  · exact update (fun _ => rfl) fun _ => rfl

theorem countRow (tableName : Str) : Quiet (countRow tableName) := by
  refine update (fun db => ?_) fun db => ?_
  all_goals cases db.catalog.getTable tableName <;> rfl

theorem executeCreateTable (stmt : Statement) : Quiet (executeCreateTable stmt) := by
  unfold Engine.executeCreateTable
  refine get.bind fun db => ?_
  split
  · exact pure _
  · refine (onStorage _).bind fun fileId => bind ?_ fun _ => bind ?_ fun _ => pure _
    all_goals exact update (fun _ => rfl) fun _ => rfl

theorem executeSelect (stmt : Statement) : Quiet (executeSelect stmt) := by
  unfold Engine.executeSelect
  refine get.bind fun db => ?_
  split
  · exact pure _
  · split
    · exact pure _
    · refine (onStorage _).bind fun tuples => ?_
      split <;> exact pure _

end Quiet

/-- The log after a statement: as it was, or with the `BEGIN` and the `COMMIT` of its
transaction. -/
def Appended (db db' : Engine) : Prop := ∃ records,
  (records = [] ∨ ∃ txnId, records = [LogRecord.begin txnId, LogRecord.commit txnId]) ∧
    db'.logMgr = (records.foldl LogManager.appendLog db.logMgr).flushLog

variable {db : Engine}

theorem Quiet.appended {α : Type} {x : Program Engine Fault α} (hx : Quiet x)
    (hlog : db.logMgr.pending = []) : wp (fun _ => True) x (fun _ db' => Appended db db') db := by
  refine wp_mono (hx db) ?_
  rintro a db' ⟨h, -⟩
  refine ⟨[], Or.inl rfl, h.trans ?_⟩
  rw [List.foldl_nil, LogManager.flushLog, hlog, List.append_nil, ← hlog]

/-- A quiet program between the beginning and the end of a transaction. -/
theorem transaction_log {α : Type} {x : Program Engine Fault α} (hx : Quiet x)
    {f : α → Program Engine Fault Reply} (hf : ∀ a, Quiet (f a)) :
    wp (fun _ => True) (do
      let txnId ← beginTxn
      let a ← x
      commitTxn txnId
      f a) (fun _ db' => Appended db db') db := by
  simp only [beginTxn, commitTxn, update, wp_bind, wp_get, wp_modify, wp_pure]
  refine wp_mono (hx _) ?_
  rintro a db₁ ⟨hlog₁, -⟩
  refine wp_mono (hf a _) ?_
  rintro reply db₂ ⟨hlog₂, -⟩
  refine ⟨_, Or.inr ⟨db.txnMgr.begin.2, rfl⟩, hlog₂.trans ?_⟩
  rw [hlog₁]
  rfl

/-- Every statement appends a `BEGIN` and a `COMMIT` with nothing between them, or nothing. -/
theorem execute_log (stmt : Statement) (hlog : db.logMgr.pending = []) :
    wp (fun _ => True) (execute stmt) (fun _ db' => Appended db db') db := by
  rw [execute_eq]
  cases stmt.type with
  | createTable => exact (Quiet.executeCreateTable stmt).appended hlog
  | insert =>
    simp only [executeInsert, wp_bind, wp_get]
    split
    · exact (Quiet.pure _).appended hlog
    · split
      · exact (Quiet.pure _).appended hlog
      · split
        · exact (Quiet.pure _).appended hlog
        · -- Neither the executor nor the second count of the row writes to the log.
          exact transaction_log (Quiet.insertExecutor _ _ _)
            fun _ => (Quiet.countRow _).bind fun _ => Quiet.pure _
  | select => exact (Quiet.executeSelect stmt).appended hlog
  | delete =>
    simp only [executeDelete, wp_bind, wp_get]
    split
    · exact (Quiet.pure _).appended hlog
    · split
      · exact (Quiet.pure _).appended hlog
      · exact transaction_log (Quiet.deleteExecutor _ _ _) fun _ => Quiet.pure _

theorem step_log {stmt : Statement} {db' : Engine} {reply : Reply}
    (hlog : db.logMgr.pending = []) (hstep : step db stmt = .ok (db', reply)) : Appended db db' :=
  wp_of_ok (Q := fun _ db' => Appended db db') (execute_log stmt hlog) (run_of_step hstep)

theorem Appended.pending {db' : Engine} (h : Appended db db') : db'.logMgr.pending = [] := by
  obtain ⟨records, -, hlog⟩ := h
  rw [hlog]
  rfl

theorem Appended.length_le {db' : Engine} {records : List LogRecord} (h : Appended db db')
    (hlog : db'.logMgr = (records.foldl LogManager.appendLog db.logMgr).flushLog) :
    records.length ≤ 2 := by
  obtain ⟨records', hrecords, hlog'⟩ := h
  have hlsn : db.logMgr.nextLSN + records.length = db.logMgr.nextLSN + records'.length := by
    have heq := congrArg LogManager.nextLSN (hlog.symm.trans hlog')
    simpa only [LogManager.foldl_appendLog, LogManager.flushLog] using heq
  rcases hrecords with rfl | ⟨txnId, rfl⟩
  · rw [List.length_nil] at hlsn
    omega
  · rw [List.length_cons, List.length_singleton] at hlsn
    omega

theorem mem_changeRecords (txnId : Int32) {tableName : Str} {before after : List (RID × Str)}
    {e : RID × Str} (hafter : e ∈ after) (hbefore : e ∉ before) :
    LogRecord.insertion txnId tableName e ∈ changeRecords txnId tableName before after := by
  refine List.mem_append.mpr (Or.inl (List.mem_map.mpr ⟨e, ?_, rfl⟩))
  exact List.mem_filter.mpr ⟨hafter, by simpa using hbefore⟩

end Engine

/-! ## What a statement changes -/

/-- The statement is no `INSERT` of a typed row into a table. -/
def Database.RejectsInsert (D : Database) (stmt : Statement) : Prop :=
  stmt.type = .insert → ∀ e ∈ D stmt.tableName, e.1.typedRow stmt.values = none

instance (D : Database) (stmt : Statement) : Decidable (D.RejectsInsert stmt) :=
  inferInstanceAs (Decidable (_ → ∀ e ∈ D stmt.tableName, e.1.typedRow stmt.values = none))

theorem Database.RejectsInsert.storableRow {D : Database} {stmt : Statement}
    (h : D.RejectsInsert stmt) : D.StorableRow stmt := by
  intro htype e he row hrow
  rw [h htype e he] at hrow
  cases hrow

namespace Tables

/-- The tuples of a table; a table that does not exist has none. -/
def tuples (T : Tables) (name : Str) : List (RID × Str) :=
  match T name with
  | none => []
  | some t => t.heap.live

variable {T : Tables} {stmt : Statement} {name : Str} {t : Table}

theorem tuples_some (ht : T name = some t) : T.tuples name = t.heap.live := by
  rw [tuples, ht]

theorem tuples_update (h : ∀ name, T.tuples name = []) (ht : t.heap.live = []) (name' : Str) :
    tuples (Function.update T name (some t)) name' = [] := by
  by_cases hname : name' = name
  · subst hname
    rw [tuples_some (Function.update_self ..)]
    exact ht
  · have hsame : tuples (Function.update T name (some t)) name' = T.tuples name' := by
      rw [tuples, Function.update_of_ne hname, tuples]
    exact hsame.trans (h name')

/-- As long as no `INSERT` is accepted the tables stay empty. -/
theorem exec_tuples_nil (h : ∀ name, T.tuples name = []) (hreject : T.database.RejectsInsert stmt)
    (name : Str) : (T.exec stmt).1.tuples name = [] := by
  unfold exec
  cases htype : stmt.type with
  | createTable =>
    simp only [execCreate]
    split
    · exact h name
    · exact tuples_update h rfl name
  | insert =>
    simp only [execInsert]
    cases ht : T stmt.tableName with
    | none => exact h name
    | some t =>
      have hnone := hreject htype _ (database_some ht)
      rw [← insertedRow_eq t.schema stmt] at hnone
      cases hrow : insertedRow t.schema stmt with
      | error reply => simp only [hrow, h name]
      | ok row => rw [hrow] at hnone; cases hnone
  | select =>
    simp only [execSelect]
    split
    · exact h name
    · split <;> exact h name
  | delete =>
    simp only [execDelete]
    cases ht : T stmt.tableName with
    | none => exact h name
    | some t =>
      cases hp : Engine.predicateFor t.schema stmt with
      | error column => simp only [hp, h name]
      | ok predicate =>
        simp only [hp]
        refine tuples_update h ?_ name
        have hlive := Heap.live_foldl_delete ((t.toDelete stmt).map Prod.fst) t.heap
        rw [← tuples_some ht, h stmt.tableName, List.filter_nil] at hlive
        rw [Table.heap_foldl_deleteRow]
        exact hlive.eq_nil

/-- An accepted `INSERT` of a row that a page has room for adds a tuple. -/
theorem exists_added (htype : stmt.type = .insert) (ht : T stmt.tableName = some t) {row : Tuple}
    (hrow : insertedRow t.schema stmt = .ok row) (hfits : Storable (serializeTuple row)) :
    ∃ e ∈ (T.exec stmt).1.tuples stmt.tableName, e ∉ T.tuples stmt.tableName := by
  have hexec : (T.exec stmt).1 = Function.update T stmt.tableName (some (t.insertRow row)) := by
    simp only [exec, htype, execInsert, ht, hrow]
  refine ⟨((t.heap.insert (serializeTuple row)).2, serializeTuple row), ?_, ?_⟩
  · rw [hexec, tuples_some (Function.update_self ..)]
    exact (Heap.live_insert hfits.ne_nil).mem_iff.mpr List.mem_cons_self
  · rw [tuples_some ht, Heap.mem_live, Heap.tuple?_insert_free]
    simp

end Tables

namespace Engine

/-- A scan gives the tuples of the table. -/
theorem Holds.tuplesOf {T : Tables} {db : Engine} (h : Holds T db) (name : Str) :
    tuplesOf db name = .ok (T.tuples name) := by
  obtain ⟨H, h⟩ := h
  unfold Engine.tuplesOf Tables.tuples
  cases ht : T name with
  | none =>
    have hinfo : db.catalog.getTable name = none := h.absent ht
    rw [hinfo]
  | some t =>
    obtain ⟨info, -, hinfo, -, hfile, -⟩ := h.linked ht
    obtain ⟨s', hscan⟩ := HeapCall.scanTable_keep h.stores hfile
    rw [show db.catalog.getTable name = some info from hinfo]
    show ((PageManager.scanTable HeapCall.keep info.fileId []).run db.storage).1 = _
    rw [hscan]

/-! ## Runs -/

/-- A run without an accepted `INSERT` is covered, and all tables are empty after it. -/
theorem covers_of_rejects : ∀ (stmts : List Statement) {T : Tables} {db db' : Engine}
    {replies : List Reply}, Holds T db → (∀ name, T.tuples name = []) → db.logMgr.pending = [] →
    Machine.Along Database.RejectsInsert Database.exec T.database stmts →
    executeAll db stmts = .ok (db', replies) →
    ∃ blocks, Machine.Steps Covers db stmts blocks db' ∧
      (∀ r ∈ blocks.flatten, r.type ≠ .insert ∧ r.type ≠ .delete) ∧
      ∀ name, tuplesOf db' name = .ok [] := by
  intro stmts
  induction stmts with
  | nil =>
    intro T db db' replies h hempty _ _ hrun
    obtain ⟨rfl, -⟩ := Prod.mk.inj (Except.ok.inj hrun)
    exact ⟨[], .nil db, nofun, fun name => by rw [h.tuplesOf, hempty]⟩
  | cons stmt stmts ih =>
    intro T db db' replies h hempty hlog hreject hrun
    obtain ⟨db₁, reply, replies', hstep, hrest, -⟩ := Machine.run_cons_inv hrun
    have hstorable := hreject.head.storableRow
    obtain ⟨htables, -⟩ := Tables.exec_agrees hstorable
    obtain ⟨h₁, -⟩ := step_refines.of_ok h (Tables.storableRow_of_database hstorable) hstep
    have hempty₁ := Tables.exec_tuples_nil hempty hreject.head
    have hafter : tuplesOf db₁ stmt.tableName = .ok [] := by rw [h₁.tuplesOf, hempty₁]
    have hbefore : tuplesOf db stmt.tableName = .ok [] := by rw [h.tuplesOf, hempty]
    have happ := step_log hlog hstep
    obtain ⟨blocks, hsteps, hquiet, hend⟩ := ih h₁ hempty₁ happ.pending
      (htables ▸ hreject.tail) hrest
    obtain ⟨records, hrecords, hlog₁⟩ := happ
    refine ⟨records :: blocks, .cons ⟨⟨reply, hstep⟩, hlog₁, [], [], hbefore, hafter, ?_⟩ hsteps,
      ?_, hend⟩
    · rcases hrecords with rfl | ⟨txnId, rfl⟩
      · exact Or.inl ⟨rfl, rfl⟩
      · exact Or.inr ⟨txnId, [], rfl, .refl _⟩
    · intro r hr
      rcases List.mem_append.mp hr with hr | hr
      · rcases hrecords with rfl | ⟨txnId, rfl⟩
        · cases hr
        · rcases List.mem_pair.mp hr with rfl | rfl <;> exact ⟨nofun, nofun⟩
      · exact hquiet r hr

/-- A covered run has no accepted `INSERT`. -/
theorem rejects_of_covers : ∀ (stmts : List Statement) {T : Tables} {db db' : Engine}
    {blocks : List (List LogRecord)}, Holds T db → db.logMgr.pending = [] →
    Machine.Along Database.StorableRow Database.exec T.database stmts →
    Machine.Steps Covers db stmts blocks db' →
    Machine.Along Database.RejectsInsert Database.exec T.database stmts := by
  intro stmts
  induction stmts with
  | nil => exact fun _ _ _ _ => .nil
  | cons stmt stmts ih =>
    intro T db db' blocks h hlog hfits hsteps
    cases hsteps with
    | cons hcovers hrest =>
      rename_i db₁ records blocks
      obtain ⟨reply, hstep⟩ := hcovers.step
      obtain ⟨htables, -⟩ := Tables.exec_agrees hfits.head
      obtain ⟨h₁, -⟩ := step_refines.of_ok h (Tables.storableRow_of_database hfits.head) hstep
      have happ := step_log hlog hstep
      refine .cons ?_ (htables ▸ ih h₁ happ.pending (htables ▸ hfits.tail) hrest)
      intro htype e he
      obtain ⟨t, ht, rfl⟩ := Option.map_eq_some_iff.mp he
      by_contra hsome
      obtain ⟨row, hrow⟩ := Option.ne_none_iff_exists'.mp hsome
      have heq := insertedRow_eq t.schema stmt
      rw [hrow] at heq
      cases hins : Tables.insertedRow t.schema stmt with
      | error reply => rw [hins] at heq; cases heq
      | ok row' =>
        rw [hins] at heq
        obtain rfl : row' = row := Option.some.inj heq
        obtain ⟨e, hafter, hbefore⟩ := Tables.exists_added htype ht hins
          (hfits.head htype _ he row' hrow)
        obtain ⟨before, after, hb, ha, hrecords⟩ := hcovers.changes
        obtain rfl := Except.ok.inj ((h.tuplesOf _).symm.trans hb)
        obtain rfl := Except.ok.inj ((h₁.tuplesOf _).symm.trans ha)
        -- The records the statement appended are two at most, and a covering block has three.
        have hle := happ.length_le hcovers.log
        rcases hrecords with ⟨-, hsame⟩ | ⟨txnId, middle, rfl, hperm⟩
        · exact hbefore (hsame ▸ hafter)
        · have hmem := hperm.mem_iff.mpr (mem_changeRecords txnId hafter hbefore)
          have hpos := List.length_pos_of_mem hmem
          simp only [List.length_cons, List.length_append, List.length_nil] at hle
          omega

/-- Records that insert and delete nothing leave a table empty. -/
theorem replay_eq_zero {records : List LogRecord}
    (h : ∀ r ∈ records, r.type ≠ .insert ∧ r.type ≠ .delete) (name : Str) :
    replay records name = 0 := by
  have hsame : ∀ r ∈ committedOn records name, replayRecord 0 r = 0 := by
    intro r hr
    obtain ⟨hins, hdel⟩ := h r (List.mem_of_mem_filter hr)
    unfold replayRecord
    split
    case h_1 heq => exact absurd heq hins
    case h_2 heq => exact absurd heq hdel
    case h_3 => rfl
  refine List.foldlRecOn (motive := fun bag => bag = 0) _ replayRecord rfl ?_
  rintro bag rfl r hr
  exact hsame r hr

/-- Every run without an accepted `INSERT` is covered by the log; and as long as the inserted rows
fit a page, no other run is. -/
theorem log_covers_iff (disk : Str → Option File) {file : Str} {logMgr : LogManager}
    (hopen : LogManager.openLog file = .ok logMgr) (stmts : List Statement) {db : Engine}
    {replies : List Reply}
    (hrun : executeAll (Engine.new disk logMgr) stmts = .ok (db, replies)) :
    (Machine.Along Database.RejectsInsert Database.exec (fun _ => none) stmts →
      LogCovers (Engine.new disk logMgr) stmts db) ∧
    (Machine.Along Database.StorableRow Database.exec (fun _ => none) stmts →
      LogCovers (Engine.new disk logMgr) stmts db →
      Machine.Along Database.RejectsInsert Database.exec (fun _ => none) stmts) := by
  have hpending : (Engine.new disk logMgr).logMgr.pending = [] := by
    obtain ⟨records, -, hlog⟩ := Machine.bind_eq_ok.mp hopen
    rw [← Except.ok.inj hlog]
    rfl
  constructor
  · intro hreject
    obtain ⟨blocks, hsteps, hquiet, hend⟩ := covers_of_rejects stmts (holds_new disk logMgr)
      (fun _ => rfl) hpending hreject hrun
    refine ⟨blocks, hsteps, fun name tuples htuples => ?_⟩
    rw [hend name] at htuples
    rw [← Except.ok.inj htuples]
    exact replay_eq_zero hquiet name
  · rintro hfits ⟨blocks, hsteps, -⟩
    exact rejects_of_covers stmts (holds_new disk logMgr) hpending hfits hsteps

/-- A table created, a rejected row and a deletion that finds nothing. -/
theorem log_covers_iff_empty_table : ∃ db replies,
    executeAll (Engine.new (fun _ => none) ⟨[], [], 1⟩)
      [sampleTable, sampleInsert "x" "a", sampleDelete "id" "1"] = .ok (db, replies) ∧
    LogCovers (Engine.new (fun _ => none) ⟨[], [], 1⟩)
      [sampleTable, sampleInsert "x" "a", sampleDelete "id" "1"] db := by
  have hok : (executeAll (Engine.new (fun _ => none) ⟨[], [], 1⟩)
      [sampleTable, sampleInsert "x" "a", sampleDelete "id" "1"]).isOk = true := by decide +kernel
  cases hrun : executeAll (Engine.new (fun _ => none) ⟨[], [], 1⟩)
      [sampleTable, sampleInsert "x" "a", sampleDelete "id" "1"] with
  | error e => rw [hrun] at hok; cases hok
  | ok r =>
    have hopen : LogManager.openLog [] = .ok ⟨[], [], 1⟩ := rfl
    exact ⟨r.1, r.2, rfl, (log_covers_iff (fun _ => none) hopen _ hrun).1 (by decide +kernel)⟩

/-- One row inserted: the log has its `BEGIN` and its `COMMIT`, and not the row. -/
theorem log_misses_insert : ∃ db replies,
    executeAll (Engine.new (fun _ => none) ⟨[], [], 1⟩) [sampleTable, sampleInsert "1" "a"] =
      .ok (db, replies) ∧
    LogManager.readAllRecords db.logMgr.file =
      .ok (LogManager.number 1 [.begin 1, .commit 1]) ∧
    tuplesOf db (lit "t") = .ok [(⟨0, 0⟩, serializeTuple [.int 1, .text (lit "a")])] ∧
    ¬ LogCovers (Engine.new (fun _ => none) ⟨[], [], 1⟩) [sampleTable, sampleInsert "1" "a"] db := by
  have hview : (executeAll (Engine.new (fun _ => none) ⟨[], [], 1⟩)
      [sampleTable, sampleInsert "1" "a"]).toOption.map (fun r =>
        ((LogManager.readAllRecords r.1.logMgr.file).toOption, (tuplesOf r.1 (lit "t")).toOption)) =
      some (some (LogManager.number 1 [.begin 1, .commit 1]),
        some [(⟨0, 0⟩, serializeTuple [.int 1, .text (lit "a")])]) := by
    decide +kernel
  cases hrun : executeAll (Engine.new (fun _ => none) ⟨[], [], 1⟩)
      [sampleTable, sampleInsert "1" "a"] with
  | error e => rw [hrun] at hview; cases hview
  | ok r =>
    rw [hrun] at hview
    obtain ⟨hread, htuples⟩ := Prod.mk.inj (Option.some.inj hview)
    refine ⟨r.1, r.2, rfl, Machine.toOption_eq_some.mp hread, Machine.toOption_eq_some.mp htuples, ?_⟩
    rintro ⟨blocks, hsteps, -⟩
    have hreject := rejects_of_covers _ (holds_new _ _) rfl (by decide +kernel) hsteps
    exact absurd hreject (by decide +kernel)

end Engine

end MiniDB
