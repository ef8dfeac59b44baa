import MiniDB.Index.BPlusTree
import MiniDB.Query.Codec
import MiniDB.Query.Optimizer
import MiniDB.Recovery.LogManager
import MiniDB.Storage.PageManager
import MiniDB.Transaction.Transaction

/-!
# The engine

The class `MiniDB` of `main.cpp` with the executors of `Executor.cpp` that it uses: a statement is
dispatched on the type of its plan and reads and changes the tables, their indexes, the catalog, the
transactions and the log. What a statement prints is its reply.

## Main definitions

* `stoi`: the integer a literal stands for
* `Engine`: the state of the engine
* `Reply`: what a statement prints
* `executeCreateTable`, `executeInsert`, `executeSelect`, `executeDelete`, `execute`
-/

namespace MiniDB

/-! ## Literals -/

/-- The number with these decimal digits. -/
def digits (ds : Str) : ℕ := ds.foldl (fun n c => 10 * n + (c.toNat - 48)) 0

/-- An optional sign: whether it is a minus, and what follows it. -/
def takeSign : Str → Bool × Str
  | 45 :: rest => (true, rest)
  | 43 :: rest => (false, rest)
  | s => (false, s)

/-- `std::stoi`: leading white space, an optional sign and as many digits as there are; what follows
them is not looked at. `none` is the exception, for no digit or a number outside 32 bits. -/
def stoi (s : Str) : Option Int32 :=
  let (negative, s) := takeSign (s.dropWhile isSpace)
  let ds := s.takeWhile isDigit
  if ds = [] then none
  else
    let v : ℤ := if negative then -digits ds else digits ds
    if -2 ^ 31 ≤ v ∧ v < 2 ^ 31 then some (Int32.ofInt v) else none

/-! ## The state of the engine -/

/-- The engine: the storage, the catalog, the indexes, the transactions and the log. -/
structure Engine where
  storage : Storage
  catalog : Catalog
  indexes : Dict Str BPlusTree
  txnMgr : TransactionManager
  logMgr : LogManager

/-- What a statement prints: an error, or its result. -/
inductive Reply
  | error (message : Str)
  | created (columns : ℕ)
  | inserted
  | deleted (count : ℕ)
  | rows (header : List Str) (rows : List Tuple)
deriving DecidableEq

namespace Engine

/-- `MiniDB::MiniDB` over the files on the disk and an open log. -/
def new (disk : Str → Option File) (logMgr : LogManager) : Engine where
  storage := ⟨DiskManager.new disk, BufferPool.new 256⟩
  catalog := .empty
  indexes := .empty
  txnMgr := .new
  logMgr := logMgr

/-- A program over the storage. -/
def onStorage {α : Type} (x : Program Storage Fault α) : Program Engine Fault α :=
  x.zoom Engine.storage fun s db => { db with storage := s }

/-- A change of the engine outside its storage. -/
def update (f : Engine → Engine) : Program Engine Fault Unit := Program.modify f

/-- A call of a B+ tree. -/
def ofTree {α : Type} : Except BPlusTree.Fault α → Except Fault α
  | .ok a => .ok a
  | .error _ => .error .index

/-! ## Executors -/

/-- A predicate on tuples; there may be none. -/
abbrev Predicate := Option (Tuple → Except Fault Bool)

/-- A tuple passes the predicate, or there is none. -/
def passes (predicate : Predicate) (tuple : Tuple) : Except Fault Bool :=
  match predicate with
  | none => .ok true
  | some test => test tuple

/-- The callback of `SeqScanExecutor::init`. -/
def scanCallback (schema : Schema) (predicate : Predicate) (results : List Tuple) (_ : RID)
    (data : Str) (len : ℕ) : Except Fault (List Tuple × Bool) := do
  let tuple ← deserializeTuple data len schema
  if ← passes predicate tuple then return (results ++ [tuple], true) else return (results, true)

/-- `SeqScanExecutor::init`: the tuples that `next` then hands out. -/
def seqScan (info : TableInfo) (predicate : Predicate) : Program Engine Fault (List Tuple) :=
  onStorage (PageManager.scanTable (scanCallback info.schema predicate) info.fileId [])

/-- `InsertExecutor::init`. -/
def insertExecutor (tableName : Str) (info : TableInfo) (values : List Value) :
    Program Engine Fault Unit := do
  let data := serializeTuple values
  let rid ← onStorage (PageManager.insertTuple info.fileId data (data.length % 2 ^ 16))
  match (← Program.get).indexes.find? tableName, values with
  | some tree, .int key :: _ =>
    let (tree, _) ← Program.lift (ofTree (tree.insert key.toInt rid))
    update fun db => { db with indexes := db.indexes.insert tableName tree }
  | _, _ => pure ()
  update fun db => { db with catalog := db.catalog.setRowCount tableName (info.rowCount + 1) }

/-- The primary key `DeleteExecutor` notes for a tuple: `-1` when it has none. -/
def primaryKey : Tuple → Int32
  | .int v :: _ => v
  | _ => -1

/-- The callback of `DeleteExecutor::init`. -/
def deleteCallback (schema : Schema) (predicate : Predicate) (toDelete : List (RID × Int32))
    (rid : RID) (data : Str) (len : ℕ) : Except Fault (List (RID × Int32) × Bool) := do
  let tuple ← deserializeTuple data len schema
  if ← passes predicate tuple then return (toDelete ++ [(rid, primaryKey tuple)], true)
  else return (toDelete, true)

/-- The body of the second loop of `DeleteExecutor::init`. -/
def deleteOne (tableName : Str) (fileId : ℤ) (entry : RID × Int32) : Program Engine Fault Unit := do
  onStorage (PageManager.deleteTuple fileId entry.1)
  match (← Program.get).indexes.find? tableName with
  | some tree =>
    if 0 ≤ entry.2 then
      let (tree, _) ← Program.lift (ofTree (tree.remove entry.2.toInt))
      update fun db => { db with indexes := db.indexes.insert tableName tree }
  | none => pure ()

/-- `DeleteExecutor::init`: the number of deleted tuples, which `next` hands out. -/
def deleteExecutor (tableName : Str) (info : TableInfo) (predicate : Predicate) :
    Program Engine Fault ℕ := do
  let toDelete ← onStorage
    (PageManager.scanTable (deleteCallback info.schema predicate) info.fileId [])
  toDelete.foldlM (fun _ entry => deleteOne tableName info.fileId entry) ()
  let deletedCount := toDelete.length
  let rowCount := if deletedCount ≤ info.rowCount then info.rowCount - deletedCount else 0
  update fun db => { db with catalog := db.catalog.setRowCount tableName rowCount }
  return deletedCount

/-! ## Statements -/

/-- The schema of `CREATE TABLE`. -/
def schemaOf (columns : List ColumnDef) : Schema :=
  columns.map fun col => ⟨col.name, if col.type = lit "INT" then .int else .text⟩

/-- The error of a statement about a table that does not exist. -/
def noTable (name : Str) : Reply :=
  .error (lit "Error: table '" ++ name ++ lit "' does not exist.")

/-- The error of a statement that names a column the table does not have. -/
def noColumn (name : Str) : Reply := .error (lit "Error: column '" ++ name ++ lit "' not found.")

/-- `MiniDB::executeCreateTable`. -/
def executeCreateTable (stmt : Statement) : Program Engine Fault Reply := do
  if (← Program.get).catalog.tableExists stmt.tableName then
    return .error (lit "Error: table '" ++ stmt.tableName ++ lit "' already exists.")
  else
    let schema := schemaOf stmt.columns
    let fileId ← onStorage (PageManager.createTable stmt.tableName)
    update fun db => { db with catalog := db.catalog.addTable stmt.tableName schema fileId }
    update fun db => { db with indexes := db.indexes.insert stmt.tableName (BPlusTree.new 128) }
    return .created schema.columnCount

/-- The values of `INSERT` converted by the types of the columns; otherwise the column whose value
is no integer. -/
def convertValues : Schema → List Str → Except Str (List Value)
  | col :: schema, s :: values =>
    match col.type with
    | .int =>
      match stoi s with
      | some v => (convertValues schema values).map (.int v :: ·)
      | none => .error col.name
    | .text => (convertValues schema values).map (.text s :: ·)
  | _, _ => .ok []

/-- The beginning of a transaction: its id. -/
def beginTxn : Program Engine Fault Int32 := do
  let (txnMgr, txnId) := (← Program.get).txnMgr.begin
  update fun db => { db with txnMgr := txnMgr, logMgr := db.logMgr.logBegin txnId }
  return txnId

/-- The end of a transaction. -/
def commitTxn (txnId : Int32) : Program Engine Fault Unit :=
  update fun db =>
    { db with logMgr := db.logMgr.logCommit txnId, txnMgr := db.txnMgr.commit txnId }

/-- `info->rowCount++` after an insertion. -/
def countRow (tableName : Str) : Program Engine Fault Unit :=
  update fun db => match db.catalog.getTable tableName with
    | some info => { db with catalog := db.catalog.setRowCount tableName (info.rowCount + 1) }
    | none => db

/-- `MiniDB::executeInsert`. -/
def executeInsert (stmt : Statement) : Program Engine Fault Reply := do
  match (← Program.get).catalog.getTable stmt.tableName with
  | none => return noTable stmt.tableName
  | some info =>
    if stmt.values.length ≠ info.schema.columnCount then
      return .error (lit "Error: expected " ++ lit (toString info.schema.columnCount) ++
        lit " values, got " ++ lit (toString stmt.values.length) ++ lit ".")
    else
      match convertValues info.schema stmt.values with
      | .error column =>
        return .error (lit "Error: expected integer for column '" ++ column ++ lit "'.")
      | .ok values =>
        let txnId ← beginTxn
        insertExecutor stmt.tableName info values
        commitTxn txnId
        countRow stmt.tableName
        return .inserted

/-- The test of a `WHERE` clause on the column `colIdx`. An exception while an integer column is
compared counts as no match. -/
def whereTest (colIdx : ℕ) (colType : DataType) (whereVal : Str) (tuple : Tuple) :
    Except Fault Bool :=
  match tuple[colIdx]? with
  | none => .ok false
  | some v =>
    match colType, v with
    | .int, .int n => .ok (stoi whereVal = some n)
    | .int, .text _ => .ok false
    | .text, .text s => .ok (s = whereVal)
    | .text, .int _ => .error .badVariant

/-- The predicate of a statement; otherwise the column of its `WHERE` clause that does not exist. -/
def predicateFor (schema : Schema) (stmt : Statement) : Except Str Predicate :=
  if stmt.hasWhere then
    match schema.findColumn stmt.where_.column with
    | none => .error stmt.where_.column
    | some colIdx =>
      match schema[colIdx]? with
      | none => .error stmt.where_.column
      | some col => .ok (some (whereTest colIdx col.type stmt.where_.value))
  else .ok none

/-- The output columns of `SELECT` by their names and positions; otherwise a name that is no
column. -/
def outputColumns (schema : Schema) (stmt : Statement) : Except Str (List (Str × ℕ)) :=
  if stmt.selectAll || stmt.selectColumns.isEmpty then
    .ok (schema.zipIdx.map fun e => (e.1.name, e.2))
  else stmt.selectColumns.mapM fun col =>
    match schema.findColumn col with
    | none => .error col
    | some idx => .ok (col, idx)

/-- `MiniDB::executeSelect`. -/
def executeSelect (stmt : Statement) : Program Engine Fault Reply := do
  match (← Program.get).catalog.getTable stmt.tableName with
  | none => return noTable stmt.tableName
  | some info =>
    match predicateFor info.schema stmt with
    | .error column => return noColumn column
    | .ok predicate =>
      let tuples ← seqScan info predicate
      match outputColumns info.schema stmt with
      | .error column => return noColumn column
      | .ok cols =>
        return .rows (cols.map Prod.fst)
          (tuples.map fun tuple => cols.filterMap fun col => tuple[col.2]?)

/-- `MiniDB::executeDelete`. -/
def executeDelete (stmt : Statement) : Program Engine Fault Reply := do
  match (← Program.get).catalog.getTable stmt.tableName with
  | none => return noTable stmt.tableName
  | some info =>
    match predicateFor info.schema stmt with
    | .error column => return noColumn column
    | .ok predicate =>
      let txnId ← beginTxn
      let deleted ← deleteExecutor stmt.tableName info predicate
      commitTxn txnId
      return .deleted deleted

/-- `MiniDB::executePlan`. -/
def executePlan (plan : PlanNode) (stmt : Statement) : Program Engine Fault Reply :=
  match plan.type with
  | .insertOp => executeInsert stmt
  | .deleteOp => executeDelete stmt
  | .seqScan => executeSelect stmt
  | .indexScan => executeSelect stmt
  | .projection => executeSelect stmt
  | _ => return .error (lit "Error: unsupported plan node type.")

/-- `MiniDB::execute` on a parsed statement. -/
def execute (stmt : Statement) : Program Engine Fault Reply := do
  if stmt.type = .createTable then executeCreateTable stmt
  else
    match Optimizer.optimize (← Program.get).catalog stmt with
    | none => return .error (lit "Error: optimizer returned no plan.")
    | some plan => executePlan plan stmt

/-- One statement, as a step of a machine: a fault ends the run. -/
def step (db : Engine) (stmt : Statement) : Except Fault (Engine × Reply) :=
  match (execute stmt).run db with
  | (.ok reply, db') => .ok (db', reply)
  | (.error e, _) => .error e

theorem run_of_step {db db' : Engine} {stmt : Statement} {reply : Reply}
    (h : step db stmt = .ok (db', reply)) : (execute stmt).run db = (.ok reply, db') := by
  unfold step at h
  rcases hrun : (execute stmt).run db with ⟨e | r, db₁⟩
  · rw [hrun] at h
    cases h
  · rw [hrun] at h
    obtain ⟨rfl, rfl⟩ := Prod.mk.inj (Except.ok.inj h)
    rfl

/-- Statements one after another: the engine after them and their replies. -/
def executeAll (db : Engine) (stmts : List Statement) : Except Fault (Engine × List Reply) :=
  Machine.run step db stmts

end Engine

end MiniDB
