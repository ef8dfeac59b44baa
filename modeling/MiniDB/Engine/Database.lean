import MiniDB.Engine.Statements

/-!
# The engine as a database

What the engine is for: a map from the names of the tables to their schemas and the bags of their
rows. A statement either is rejected and changes nothing, or it does to the bag of its table what
SQL says. Every run of the engine refines the run on this map.

## Main definitions

* `Database`, `Answer`: the tables as bags of rows, and the answers of statements
* `Database.exec`: a statement on the database
* `Engine.Represents db D`: the engine holds the tables of the database

## Main results

* `Engine.represents_refines`: every statement refines the statement on the database
* `Engine.executeAll_refines`: every run refines the run on the database
* `Engine.inserted_row_reads_back`: an acknowledged row is what a `SELECT *` then adds
-/

namespace MiniDB

open Program

/-- A database: the schema of every table and the bag of its rows. -/
abbrev Database := Str → Option (Schema × Multiset Tuple)

/-- The answer of a statement. -/
inductive Answer
  | rejected
  | created (columns : ℕ)
  | inserted
  | deleted (count : ℕ)
  | rows (header : List Str) (rows : Multiset Tuple)
deriving DecidableEq

/-- The answer a reply gives: the text of an error and the order of the rows do not count. -/
def Reply.answer : Reply → Answer
  | .error _ => .rejected
  | .created columns => .created columns
  | .inserted => .inserted
  | .deleted count => .deleted count
  | .rows header found => .rows header found

/-! ## Statements -/

/-- The value of a literal in a column: an integer by `stoi`, a text as it stands. -/
def Column.convert (col : Column) (s : Str) : Option Value :=
  match col.type with
  | .int => (stoi s).map .int
  | .text => some (.text s)

namespace Schema

/-- The row of the literals of an `INSERT`, if there is one for each column and every integer is
one. -/
def typedRow (schema : Schema) (values : List Str) : Option Tuple :=
  if values.length = schema.columnCount then (schema.zip values).mapM fun e => e.1.convert e.2
  else none

/-- The column of the `WHERE` clause exists, or there is no clause. -/
def whereOk (schema : Schema) (stmt : Statement) : Bool :=
  !stmt.hasWhere || (schema.findColumn stmt.where_.column).isSome

/-- The columns that a `SELECT` asks for, by their names and positions. -/
def selected (schema : Schema) (stmt : Statement) : Option (List (Str × ℕ)) :=
  if stmt.selectAll || stmt.selectColumns.isEmpty then
    some (schema.zipIdx.map fun e => (e.1.name, e.2))
  else stmt.selectColumns.mapM fun col => (schema.findColumn col).map fun idx => (col, idx)

end Schema

namespace Database

/-- A statement on the database. -/
def exec (D : Database) (stmt : Statement) : Database × Answer :=
  match stmt.type, D stmt.tableName with
  | .createTable, some _ => (D, .rejected)
  | .createTable, none =>
    let schema := Engine.schemaOf stmt.columns
    (Function.update D stmt.tableName (some (schema, 0)), .created schema.columnCount)
  | .insert, some (schema, rows) =>
    match schema.typedRow stmt.values with
    | none => (D, .rejected)
    | some row => (Function.update D stmt.tableName (some (schema, row ::ₘ rows)), .inserted)
  | .select, some (schema, rows) =>
    match schema.whereOk stmt, schema.selected stmt with
    | true, some cols =>
      (D, .rows (cols.map Prod.fst) ((rows.filter (rowMatches schema stmt ·)).map (project cols)))
    | _, _ => (D, .rejected)
  | .delete, some (schema, rows) =>
    if schema.whereOk stmt then
      (Function.update D stmt.tableName (some (schema, rows.filter (¬ rowMatches schema stmt ·))),
        .deleted (rows.filter (rowMatches schema stmt ·)).card)
    else (D, .rejected)
  | _, none => (D, .rejected)

/-- If the statement inserts a row, its bytes fit a page. -/
def StorableRow (D : Database) (stmt : Statement) : Prop :=
  stmt.type = .insert → ∀ e ∈ D stmt.tableName, ∀ row ∈ e.1.typedRow stmt.values,
    Storable (serializeTuple row)

/-- A rejected statement changes no table. -/
theorem exec_rejected {D : Database} {stmt : Statement} (h : (D.exec stmt).2 = .rejected) :
    (D.exec stmt).1 = D := by
  unfold exec at h ⊢
  split at h
  case h_3 => split at h <;> first | rfl | cases h
  case h_4 => split <;> rfl
  case h_5 =>
    split at h
    case isTrue => cases h
    case isFalse hw => rw [if_neg hw]
  all_goals first | rfl | cases h

/-- A statement on one table does not change another. -/
theorem exec_other {D : Database} {stmt : Statement} {name : Str} (h : name ≠ stmt.tableName) :
    (D.exec stmt).1 name = D name := by
  unfold exec
  split
  case h_2 => exact Function.update_of_ne h ..
  case h_3 => split <;> first | rfl | exact Function.update_of_ne h ..
  case h_4 => split <;> rfl
  case h_5 => split <;> first | rfl | exact Function.update_of_ne h ..
  all_goals rfl

instance (D : Database) (stmt : Statement) : Decidable (D.StorableRow stmt) :=
  inferInstanceAs (Decidable (_ → ∀ e ∈ D stmt.tableName, ∀ row ∈ e.1.typedRow stmt.values,
    Storable (serializeTuple row)))

end Database

/-! ## The tables as a database -/

/-- The bag of the rows of a table. -/
def Table.bag (t : Table) : Multiset Tuple := (t.rows.map Prod.snd : List Tuple)

/-- The tables as a database. -/
def Tables.database (T : Tables) : Database := fun name => (T name).map fun t => (t.schema, t.bag)

namespace Table

variable {t : Table} {row : Tuple} {stmt : Statement}

theorem bag_insertRow (hrow : RowOk t.schema row) : (t.insertRow row).bag = row ::ₘ t.bag :=
  Quot.sound ((rows_insertRow hrow).map Prod.snd)

theorem bag_filter (p : Tuple → Bool) :
    t.bag.filter (p ·) = ((t.rows.filter fun e => p e.2).map Prod.snd : List Tuple) := by
  rw [bag, Multiset.filter_coe, List.filter_map]
  simp only [Bool.decide_eq_true]
  rfl

theorem bag_foldl_deleteRow : ((t.toDelete stmt).foldl deleteRow t).bag =
    t.bag.filter (¬ rowMatches t.schema stmt ·) := by
  have hperm := (rows_foldl_deleteRow (t := t) stmt).map Prod.snd
  have hbag := bag_filter (t := t) fun row => !rowMatches t.schema stmt row
  simp only [Bool.not_eq_true'] at hbag
  simp only [Bool.not_eq_true]
  rw [hbag]
  exact Quot.sound hperm

theorem length_toDelete : (t.toDelete stmt).length =
    (t.bag.filter (rowMatches t.schema stmt ·)).card := by
  rw [bag_filter, Multiset.coe_card, toDelete, List.length_map, List.length_map]

end Table

/-- The values of an `INSERT` are converted one by one. -/
theorem convertValues_toOption (schema : Schema) : ∀ values : List Str,
    (Engine.convertValues schema values).toOption =
      (schema.zip values).mapM fun e => e.1.convert e.2 := by
  induction schema with
  | nil => intro values; rfl
  | cons col schema ih =>
    intro values
    cases values with
    | nil => rfl
    | cons s values =>
      rw [List.zip_cons_cons, List.mapM_cons, ← ih values, Engine.convertValues, Column.convert]
      cases col.type with
      | int =>
        cases stoi s with
        | none => rfl
        | some v => cases Engine.convertValues schema values <;> rfl
      | text => cases Engine.convertValues schema values <;> rfl

/-- The row of an accepted `INSERT` is the typed row of its literals. -/
theorem insertedRow_eq (schema : Schema) (stmt : Statement) :
    (Tables.insertedRow schema stmt).toOption = schema.typedRow stmt.values := by
  unfold Tables.insertedRow Schema.typedRow
  by_cases hlen : stmt.values.length = schema.columnCount
  · rw [if_neg (not_not.mpr hlen), if_pos hlen, ← convertValues_toOption]
    cases Engine.convertValues schema stmt.values <;> rfl
  · rw [if_pos hlen, if_neg hlen]
    rfl

theorem insertedRow_error {schema : Schema} {stmt : Statement} {reply : Reply}
    (h : Tables.insertedRow schema stmt = .error reply) : reply.answer = .rejected := by
  unfold Tables.insertedRow at h
  split at h
  case isTrue => exact Except.error.inj h ▸ rfl
  case isFalse =>
    cases hconv : Engine.convertValues schema stmt.values with
    | error column => rw [hconv] at h; exact Except.error.inj h ▸ rfl
    | ok row => rw [hconv] at h; cases h

/-- The column of a `WHERE` clause is looked up once more for its type, which always succeeds. -/
theorem predicateFor_isOk (schema : Schema) (stmt : Statement) :
    (Engine.predicateFor schema stmt).toOption.isSome = schema.whereOk stmt := by
  unfold Engine.predicateFor Schema.whereOk
  cases stmt.hasWhere with
  | false => rfl
  | true =>
    cases hcol : schema.findColumn stmt.where_.column with
    | none => rfl
    | some i =>
      have hlt : i < schema.length := (List.findIdx?_eq_some_iff_findIdx_eq.mp hcol).1
      simp only [if_true, List.getElem?_eq_getElem hlt]
      rfl

theorem outputColumns_eq (schema : Schema) (stmt : Statement) :
    (Engine.outputColumns schema stmt).toOption = schema.selected stmt := by
  unfold Engine.outputColumns Schema.selected
  split
  case isTrue => rfl
  case isFalse =>
    refine Machine.toOption_mapM (fun col => ?_) stmt.selectColumns
    cases schema.findColumn col <;> rfl

namespace Tables

variable {T : Tables} {stmt : Statement}

theorem database_update (name : Str) (t : Table) : database (Function.update T name (some t)) =
    Function.update T.database name (some (t.schema, t.bag)) := by
  funext name'
  simp only [database, Function.update_apply]
  split <;> rfl

theorem database_some {t : Table} (ht : T stmt.tableName = some t) :
    T.database stmt.tableName = some (t.schema, t.bag) := by
  rw [database, ht]
  rfl

theorem database_none (ht : T stmt.tableName = none) : T.database stmt.tableName = none := by
  rw [database, ht]
  rfl

/-- A reply and the tables after it agree with the database. -/
def Agrees (r : Tables × Reply) (d : Database × Answer) : Prop :=
  r.1.database = d.1 ∧ r.2.answer = d.2

theorem execCreate_agrees (htype : stmt.type = .createTable) :
    Agrees (T.execCreate stmt) (T.database.exec stmt) := by
  unfold execCreate Database.exec Agrees
  cases ht : T stmt.tableName with
  | none =>
    simp only [htype, database_none ht, database_update]
    exact ⟨rfl, rfl⟩
  | some t =>
    simp only [htype, database_some ht]
    exact ⟨trivial, rfl⟩

theorem execInsert_agrees (htype : stmt.type = .insert) (hfits : T.database.StorableRow stmt) :
    Agrees (T.execInsert stmt) (T.database.exec stmt) := by
  unfold execInsert Database.exec Agrees
  cases ht : T stmt.tableName with
  | none =>
    simp only [htype, database_none ht]
    exact ⟨trivial, rfl⟩
  | some t =>
    have heq := insertedRow_eq t.schema stmt
    simp only [htype, database_some ht]
    cases hins : insertedRow t.schema stmt with
    | error reply =>
      rw [hins] at heq
      simp only [← heq]
      exact ⟨rfl, insertedRow_error hins⟩
    | ok row =>
      rw [hins] at heq
      have hrow := Engine.Holds.rowOk_insertedRow hins
        (hfits htype _ (database_some ht) row (Option.mem_def.mpr heq.symm))
      simp only [← heq, database_update, Table.bag_insertRow hrow]
      exact ⟨rfl, rfl⟩

theorem execSelect_agrees (htype : stmt.type = .select) :
    Agrees (T.execSelect stmt) (T.database.exec stmt) := by
  unfold execSelect Database.exec Agrees
  cases ht : T stmt.tableName with
  | none =>
    simp only [htype, database_none ht]
    exact ⟨trivial, rfl⟩
  | some t =>
    have hwhere := predicateFor_isOk t.schema stmt
    have hcols := outputColumns_eq t.schema stmt
    simp only [htype, database_some ht]
    -- The engine looks at the `WHERE` clause first and at the columns after that.
    cases hp : Engine.predicateFor t.schema stmt with
    | error column =>
      rw [hp] at hwhere
      simp only [← hwhere]
      exact ⟨rfl, rfl⟩
    | ok predicate =>
      rw [hp] at hwhere
      cases ho : Engine.outputColumns t.schema stmt with
      | error column =>
        rw [ho] at hcols
        simp only [← hwhere, ← hcols]
        exact ⟨rfl, rfl⟩
      | ok cols =>
        rw [ho] at hcols
        simp only [← hwhere, ← hcols, Reply.answer, Table.bag_filter, Multiset.map_coe,
          List.map_map]
        exact ⟨rfl, rfl⟩

theorem execDelete_agrees (htype : stmt.type = .delete) :
    Agrees (T.execDelete stmt) (T.database.exec stmt) := by
  unfold execDelete Database.exec Agrees
  cases ht : T stmt.tableName with
  | none =>
    simp only [htype, database_none ht]
    exact ⟨trivial, rfl⟩
  | some t =>
    have hwhere := predicateFor_isOk t.schema stmt
    simp only [htype, database_some ht]
    cases hp : Engine.predicateFor t.schema stmt with
    | error column =>
      rw [hp] at hwhere
      simp only [← hwhere]
      exact ⟨rfl, rfl⟩
    | ok predicate =>
      rw [hp] at hwhere
      simp only [← hwhere, database_update, Table.bag_foldl_deleteRow,
        Table.schema_foldl_deleteRow, Table.length_toDelete, Reply.answer]
      exact ⟨rfl, rfl⟩

/-- A statement on the tables is the statement on the database. -/
theorem exec_agrees (hfits : T.database.StorableRow stmt) :
    Agrees (T.exec stmt) (T.database.exec stmt) := by
  unfold exec
  cases htype : stmt.type with
  | createTable => exact execCreate_agrees htype
  | insert => exact execInsert_agrees htype hfits
  | select => exact execSelect_agrees htype
  | delete => exact execDelete_agrees htype

/-- What an acknowledged `INSERT` has done. -/
theorem exec_inserted (h : (T.exec stmt).2 = .inserted) : stmt.type = .insert ∧ ∃ t row,
    T stmt.tableName = some t ∧ insertedRow t.schema stmt = .ok row ∧
    (T.exec stmt).1 = Function.update T stmt.tableName (some (t.insertRow row)) := by
  unfold exec at h ⊢
  cases htype : stmt.type with
  | createTable =>
    simp only [htype] at h
    unfold execCreate at h
    split at h <;> cases h
  | select =>
    simp only [htype] at h
    unfold execSelect at h
    split at h
    · cases h
    · split at h <;> cases h
  | delete =>
    simp only [htype] at h
    unfold execDelete at h
    split at h
    · cases h
    · split at h <;> cases h
  | insert =>
    simp only [htype] at h
    refine ⟨rfl, ?_⟩
    unfold execInsert at h ⊢
    cases ht : T stmt.tableName with
    | none => rw [ht] at h; cases h
    | some t =>
      simp only [ht] at h ⊢
      cases hins : insertedRow t.schema stmt with
      | error reply =>
        simp only [hins] at h
        have herror := insertedRow_error hins
        rw [h] at herror
        cases herror
      | ok row => exact ⟨t, row, rfl, hins, rfl⟩

/-- A row that fits on the database fits on the tables. -/
theorem storableRow_of_database (hfits : T.database.StorableRow stmt) : T.StorableRow stmt := by
  intro htype t row ht hins
  have heq := insertedRow_eq t.schema stmt
  rw [hins] at heq
  exact hfits htype _ (database_some ht) row (Option.mem_def.mpr heq.symm)

end Tables

/-! ## Runs of the engine -/

namespace Engine

/-- The engine holds the tables of the database. -/
def Represents (db : Engine) (D : Database) : Prop := ∃ T, Holds T db ∧ T.database = D

/-- Every statement refines the statement on the database. -/
theorem represents_refines : Machine.Refines Database.StorableRow step Database.exec Represents
    (fun reply answer => reply.answer = answer) Excused := by
  rintro db D stmt ⟨T, h, rfl⟩ hfits
  obtain ⟨htables, hanswer⟩ := Tables.exec_agrees hfits
  rcases step_refines db T stmt h (Tables.storableRow_of_database hfits) with
    hfault | ⟨db', reply, hstep, h', rfl⟩
  · exact Or.inl hfault
  · exact Or.inr ⟨db', _, hstep, ⟨_, h', htables⟩, hanswer⟩

theorem represents_new (disk : Str → Option File) (logMgr : LogManager) :
    Represents (Engine.new disk logMgr) fun _ => none :=
  ⟨_, holds_new disk logMgr, rfl⟩

/-- What a run that went through has left. -/
theorem represents_of_run {disk : Str → Option File} {logMgr : LogManager} {stmts : List Statement}
    {db : Engine} {replies : List Reply}
    (hfits : Machine.Along Database.StorableRow Database.exec (fun _ => none) stmts)
    (hrun : executeAll (Engine.new disk logMgr) stmts = .ok (db, replies)) :
    Represents db (Machine.specRun Database.exec (fun _ => none) stmts).1 :=
  Machine.related_of_run represents_refines (represents_new disk logMgr) hfits hrun

/-- Every run of statements whose inserted rows fit a page, in which no disk operation fails and
every call of a B+ tree returns, gives the answers of the database and leaves its tables. On the
database a statement changes its own table only, and a rejected one changes none. -/
theorem executeAll_refines (disk : Str → Option File) (logMgr : LogManager)
    (stmts : List Statement)
    (hfits : Machine.Along Database.StorableRow Database.exec (fun _ => none) stmts)
    (hio : executeAll (Engine.new disk logMgr) stmts ≠ .error .io)
    (hindex : executeAll (Engine.new disk logMgr) stmts ≠ .error .index) :
    (∃ db replies, executeAll (Engine.new disk logMgr) stmts = .ok (db, replies) ∧
      replies.map Reply.answer = (Machine.specRun Database.exec (fun _ => none) stmts).2 ∧
      Represents db (Machine.specRun Database.exec (fun _ => none) stmts).1) ∧
    (∀ (D : Database) stmt name, name ≠ stmt.tableName → (D.exec stmt).1 name = D name) ∧
    ∀ (D : Database) stmt, (D.exec stmt).2 = .rejected → (D.exec stmt).1 = D := by
  refine ⟨?_, fun D stmt name h => Database.exec_other h, fun D stmt h => Database.exec_rejected h⟩
  rcases Machine.run_refines represents_refines stmts _ _ (represents_new disk logMgr) hfits with
    ⟨e, rfl | rfl, he⟩ | ⟨db, replies, hrun, hrep, hanswers⟩
  · exact absurd he hio
  · exact absurd he hindex
  · refine ⟨db, replies, hrun, ?_, hrep⟩
    rw [← List.forall₂_eq_eq_eq, List.forall₂_map_left_iff]
    exact hanswers

/-- A table with an integer and a text column, two rows, a selection, a deletion and a rejected
insertion. -/
theorem executeAll_refines_two_rows : ∃ db replies,
    executeAll (Engine.new (fun _ => none) ⟨[], [], 1⟩) [
      { type := .createTable, tableName := lit "t",
        columns := [⟨lit "id", lit "INT"⟩, ⟨lit "name", lit "TEXT"⟩] },
      { type := .insert, tableName := lit "t", values := [lit "1", lit "a"] },
      { type := .insert, tableName := lit "t", values := [lit "-2", lit "b"] },
      { type := .insert, tableName := lit "t", values := [lit "x", lit "c"] },
      { type := .delete, tableName := lit "t", hasWhere := true,
        where_ := ⟨lit "name", lit "a"⟩ },
      { type := .select, tableName := lit "t", selectAll := true }] = .ok (db, replies) ∧
    replies.map Reply.answer = [.created 2, .inserted, .inserted, .rejected, .deleted 1,
      .rows [lit "id", lit "name"] {[.int (-2), .text (lit "b")]}] := by
  refine (executeAll_refines _ _ _ ?_ ?_ ?_).1.imp fun db h => h.imp fun replies h =>
    ⟨h.1, h.2.1.trans ?_⟩
  · exact .cons (by decide +kernel) (.cons (by decide +kernel) (.cons (by decide +kernel)
      (.cons (by decide +kernel) (.cons (by decide +kernel) (.cons (by decide +kernel) .nil)))))
  · exact Machine.ne_error_of_isOk (by decide +kernel) _
  · exact Machine.ne_error_of_isOk (by decide +kernel) _
  · decide +kernel

/-! ## Reading an inserted row back -/

/-- `SELECT * FROM name`. -/
def selectAll (name : Str) : Statement := { type := .select, tableName := name, selectAll := true }

/-- All the columns of a row are the row. -/
theorem project_all {schema : Schema} {row : Tuple} (h : row.length = schema.columnCount) :
    project (schema.zipIdx.map fun e => (e.1.name, e.2)) row = row := by
  -- The columns from the position `k` on are the values from `k` on.
  have hdrop : ∀ (schema : Schema) (k : ℕ), row.length = k + schema.length →
      project ((schema.zipIdx k).map fun e => (e.1.name, e.2)) row = row.drop k := by
    intro schema
    induction schema with
    | nil =>
      intro k hk
      exact (List.drop_eq_nil_of_le (Nat.le_of_eq hk)).symm
    | cons col schema ih =>
      intro k hk
      have hlt : k < row.length := by rw [hk, List.length_cons]; omega
      have hrest := ih (k + 1) (by rw [hk, List.length_cons]; omega)
      rw [List.zipIdx_cons, List.map_cons, List.drop_eq_getElem_cons hlt, ← hrest]
      simp only [project, List.filterMap_cons, List.getElem?_eq_getElem hlt]
  exact hdrop schema 0 (by rw [h, Nat.zero_add]; rfl)

/-- `SELECT *` on a table of the engine gives its rows, and does not fault. -/
theorem step_selectAll {T : Tables} {db : Engine} {name : Str} {t : Table} (h : Holds T db)
    (ht : T name = some t) : ∃ db', step db (selectAll name) =
      .ok (db', .rows (t.schema.map Column.name) (t.rows.map Prod.snd)) := by
  obtain ⟨reply, db', hrun, hreply, -⟩ := wp_total.mp (h.executeSelect (selectAll name))
  have hexec : (T.execSelect (selectAll name)).2 =
      .rows (t.schema.map Column.name) (t.rows.map Prod.snd) := by
    have hname : (selectAll name).tableName = name := rfl
    have hwhere : predicateFor t.schema (selectAll name) = .ok none := rfl
    have hcols : outputColumns t.schema (selectAll name) =
        .ok (t.schema.zipIdx.map fun e => (e.1.name, e.2)) := rfl
    have hmatch : ∀ row, rowMatches t.schema (selectAll name) row = true := fun _ => rfl
    simp only [Tables.execSelect, hname, ht, hwhere, hcols, hmatch, List.filter_true, List.map_map]
    congr 1
    · rw [← List.zipIdx_map_fst 0 t.schema, List.map_map]
      simp
    · refine List.map_congr_left fun e he => project_all ?_
      obtain ⟨bytes, hrid, hrow⟩ := Table.mem_rows.mp (show (e.1, e.2) ∈ t.rows from he)
      rw [hrow]
      exact Tuple.length_of_matchesSchema ((h.typed ht).rowOk (Heap.mem_live.mpr hrid)).1.types
  refine ⟨db', ?_⟩
  have hstep : (execute (selectAll name)).run db = (executeSelect (selectAll name)).run db := rfl
  unfold step
  rw [hstep, hrun, hreply, hexec]

/-- In every run whose inserted rows all fit a page, an `INSERT` that is acknowledged adds its typed
row, and nothing else, to what a `SELECT *` on its table returns. -/
theorem inserted_row_reads_back (disk : Str → Option File) (logMgr : LogManager)
    (stmts : List Statement) (ins : Statement)
    (hfits : Machine.Along Database.StorableRow Database.exec (fun _ => none) (stmts ++ [ins]))
    {db db₁ : Engine} {replies : List Reply}
    (hrun : executeAll (Engine.new disk logMgr) stmts = .ok (db, replies))
    (hins : step db ins = .ok (db₁, .inserted)) :
    ∃ info row header before after db₂ db₃, db.catalog.getTable ins.tableName = some info ∧
      info.schema.typedRow ins.values = some row ∧
      step db (selectAll ins.tableName) = .ok (db₂, .rows header before) ∧
      step db₁ (selectAll ins.tableName) = .ok (db₃, .rows header after) ∧
      after.Perm (row :: before) := by
  obtain ⟨hfits, hrow⟩ := hfits.of_append
  obtain ⟨T, h, hT⟩ := represents_of_run hfits hrun
  rw [← hT] at hrow
  -- The insertion on the tables tells which row the engine has stored.
  have hstep := step_refines db T ins h (Tables.storableRow_of_database hrow)
  rcases hstep with ⟨e, -, he⟩ | ⟨db', reply, hok, h₁, hreply⟩
  · exact absurd (he.symm.trans hins) (by simp)
  obtain ⟨rfl, rfl⟩ := Prod.mk.inj (Except.ok.inj (hok.symm.trans hins))
  obtain ⟨htype, t, row, ht, hinserted, htables⟩ := Tables.exec_inserted hreply.symm
  obtain ⟨t', info, ht', hinfo, hschema⟩ := (h.getTable ins.tableName).resolve_left
    fun hnone => by rw [ht] at hnone; cases hnone.1
  obtain rfl : t = t' := Option.some.inj (ht.symm.trans ht')
  have htyped := insertedRow_eq t.schema ins
  rw [hinserted] at htyped
  have hrowOk := Holds.rowOk_insertedRow hinserted
    (hrow htype _ (Tables.database_some ht) row (Option.mem_def.mpr htyped.symm))
  rw [htables] at h₁
  obtain ⟨db₂, hbefore⟩ := step_selectAll h ht
  obtain ⟨db₃, hafter⟩ := step_selectAll h₁ (Function.update_self ..)
  exact ⟨info, row, _, _, _, db₂, db₃, hinfo, hschema ▸ htyped.symm, hbefore, hafter,
    Quotient.exact (Table.bag_insertRow hrowOk)⟩

/-- A second row of an integer and a text. -/
theorem inserted_row_reads_back_second :
    let create : Statement :=
      { type := .createTable, tableName := lit "t",
        columns := [⟨lit "id", lit "INT"⟩, ⟨lit "name", lit "TEXT"⟩] }
    let ins₀ : Statement :=
      { type := .insert, tableName := lit "t", values := [lit "1", lit "a"] }
    let ins : Statement :=
      { type := .insert, tableName := lit "t", values := [lit "2", lit "bc"] }
    ∃ db db₁ replies, executeAll (Engine.new (fun _ => none) ⟨[], [], 1⟩) [create, ins₀] =
        .ok (db, replies) ∧ step db ins = .ok (db₁, .inserted) ∧
      ∃ info row header before after db₂ db₃, db.catalog.getTable ins.tableName = some info ∧
        info.schema.typedRow ins.values = some row ∧
        step db (selectAll ins.tableName) = .ok (db₂, .rows header before) ∧
        step db₁ (selectAll ins.tableName) = .ok (db₃, .rows header after) ∧
        after.Perm (row :: before) := by
  intro create ins₀ ins
  obtain ⟨⟨db, replies⟩, hrun, hreply⟩ : ∃ r,
      executeAll (Engine.new (fun _ => none) ⟨[], [], 1⟩) [create, ins₀] = .ok r ∧
      ((step r.1 ins).map Prod.snd).toOption = some .inserted :=
    Machine.map_eq_ok.mp (by decide +kernel)
  obtain ⟨⟨db₁, reply⟩, hstep, rfl⟩ := Machine.map_eq_ok.mp (Machine.toOption_eq_some.mp hreply)
  exact ⟨db, db₁, replies, hrun, hstep, inserted_row_reads_back (fun _ => none) ⟨[], [], 1⟩
    [create, ins₀] ins
    (.cons (by decide +kernel) (.cons (by decide +kernel) (.cons (by decide +kernel) .nil)))
    hrun hstep⟩

/-- A table without columns: its row has no bytes, is acknowledged, and is not there. -/
theorem inserted_row_lost :
    (executeAll (Engine.new (fun _ => none) ⟨[], [], 1⟩) [
      { type := .createTable, tableName := lit "t" },
      { type := .insert, tableName := lit "t" },
      selectAll (lit "t")]).map Prod.snd = .ok [.created 0, .inserted, .rows [] []] := by
  decide +kernel

end Engine

end MiniDB
