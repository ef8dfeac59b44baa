import MiniDB.Engine.Tables

/-!
# The statements on the tables

Every statement of the engine does to its tables what the statement on the map does, and answers
with the same reply, unless a disk operation fails or a call of a B+ tree does not return. A change
of one table leaves the others where they are, because no two tables share a file.

## Main results

* `Engine.holds_new`: the engine as constructed holds no table
* `Engine.Holds.executeCreateTable`, `Engine.Holds.executeInsert`, `Engine.Holds.executeSelect`,
  `Engine.Holds.executeDelete`: the statements one by one
* `Engine.step_refines`: every statement refines the statement on the tables
-/

namespace MiniDB.Engine

open Program

/-- The faults that end a run without a verdict: a failed disk operation, and a call of a B+ tree
that does not return. -/
def Excused (e : Fault) : Prop := e = .io ∨ e = .index

theorem excused_of_io {e : Fault} (h : e = .io) : Excused e := Or.inl h

theorem excused_of_false {e : Fault} (h : False) : Excused e := h.elim

/-- Every plan of a `SELECT` is executed in the same way. -/
theorem executePlan_select (catalog : Catalog) (stmt : Statement) :
    executePlan (Optimizer.optimizeSelect catalog stmt) stmt = executeSelect stmt := by
  unfold Optimizer.optimizeSelect
  split <;> split <;> rfl

/-- A statement goes to the function of its type. -/
theorem execute_eq (stmt : Statement) : execute stmt =
    match stmt.type with
    | .createTable => executeCreateTable stmt
    | .insert => executeInsert stmt
    | .select => executeSelect stmt
    | .delete => executeDelete stmt := by
  funext db
  show (execute stmt).run db = _
  unfold execute
  cases htype : stmt.type with
  | createTable => rfl
  | insert =>
    simp only [reduceCtorEq, if_false, run_get_bind, Optimizer.optimize, htype]
    rfl
  | select =>
    simp only [reduceCtorEq, if_false, run_get_bind, Optimizer.optimize, htype]
    rw [executePlan_select]
    rfl
  | delete =>
    simp only [reduceCtorEq, if_false, run_get_bind, Optimizer.optimize, htype]
    rfl

/-- The engine as constructed holds no table. -/
theorem holds_new (disk : Str → Option File) (logMgr : LogManager) :
    Holds (fun _ => none) (Engine.new disk logMgr) := by
  refine ⟨fun _ => none, ?_⟩
  constructor
  case stores => exact Stores.stores_new disk (by decide)
  case linked => intro name t ht; cases ht
  case files => intro f h hh; cases hh
  case absent => intro name _; rfl
  case typed => intro name t ht; cases ht

/-- One table replaced or added, and the others where they were. -/
theorem HoldsWith.replace {H H' : Heaps} {T : Tables} {db db' : Engine} {name : Str} {t : Table}
    (h : HoldsWith H T db) (hstores : Stores H' db'.storage) (hlinked : Linked H' db' name t)
    (hother : ∀ name' u, name' ≠ name → Linked H db name' u → Linked H' db' name' u)
    (hfiles : ∀ f hf, H' f = some hf → hf.path = tablePath name ∨ H f = some hf)
    (hcatalog : ∀ name', name' ≠ name → db'.catalog.find? name' = db.catalog.find? name')
    (htyped : t.Typed) : HoldsWith H' (Function.update T name (some t)) db' := by
  constructor
  case stores => exact hstores
  case linked =>
    intro name' u hu
    by_cases hname : name' = name
    · subst hname
      rw [Function.update_self] at hu
      exact Option.some.inj hu ▸ hlinked
    · rw [Function.update_of_ne hname] at hu
      exact hother name' u hname (h.linked hu)
  case files =>
    intro f hf hHf
    rcases hfiles f hf hHf with hpath | hHf
    · exact ⟨name, t, Function.update_self .., hpath⟩
    · obtain ⟨name', u, hu, hpath⟩ := h.files hHf
      by_cases hname : name' = name
      · exact ⟨name, t, Function.update_self .., hname ▸ hpath⟩
      · exact ⟨name', u, by rw [Function.update_of_ne hname]; exact hu, hpath⟩
  case absent =>
    intro name' hu
    by_cases hname : name' = name
    · subst hname
      rw [Function.update_self] at hu
      cases hu
    · rw [Function.update_of_ne hname] at hu
      rw [hcatalog name' hname]
      exact h.absent hu
  case typed =>
    intro name' u hu
    by_cases hname : name' = name
    · subst hname
      rw [Function.update_self] at hu
      exact Option.some.inj hu ▸ htyped
    · rw [Function.update_of_ne hname] at hu
      exact h.typed hu

namespace Holds

variable {T : Tables} {db : Engine} {name : Str} {t : Table} {info : TableInfo}

/-! ## Changes of the engine -/

/-- The tables do not depend on the transactions and the log. -/
theorem congr {db' : Engine} (h : Holds T db) (hs : db'.storage = db.storage)
    (hc : ∀ name, (db'.catalog.find? name).map (fun info => (info.schema, info.fileId)) =
      (db.catalog.find? name).map fun info => (info.schema, info.fileId))
    (hi : db'.indexes = db.indexes) : Holds T db' := by
  obtain ⟨H, h⟩ := h
  refine ⟨H, ?_⟩
  constructor
  case stores => exact hs ▸ h.stores
  case files => exact h.files
  case typed => exact h.typed
  case linked =>
    intro name t ht
    obtain ⟨info, tree, hinfo, hschema, hfile, htree, hm⟩ := h.linked ht
    have hname := hc name
    rw [hinfo] at hname
    obtain ⟨info', hinfo', heq⟩ := Option.map_eq_some_iff.mp hname
    obtain ⟨hsch, hfid⟩ := Prod.mk.inj heq
    exact ⟨info', tree, hinfo', hsch.trans hschema, hfid ▸ hfile, hi ▸ htree, hm⟩
  case absent =>
    intro name ht
    have hname := hc name
    rw [h.absent ht] at hname
    exact Option.map_eq_none_iff.mp hname

/-- The number of rows in the catalog does not matter. -/
theorem setRowCount (h : Holds T db) (name : Str) (n : ℕ) :
    Holds T { db with catalog := db.catalog.setRowCount name n } := by
  exact h.congr rfl (fun name' => Catalog.map_setRowCount (fun _ _ => rfl) _ name n name') rfl

/-- A program on the heap file of one table changes the heap of that table. -/
theorem onHeap {α : Type} {F : Fault → Prop} {x : Program Storage Fault α} {Q : α → Heap → Prop}
    (h : Holds T db) (ht : T name = some t) (hinfo : db.catalog.find? name = some info)
    (hx : ∀ H s, Stores H s → H info.fileId = some ⟨tablePath name, t.heap⟩ →
      wp F x (fun a s' => ∃ heap, Q a heap ∧
        Stores (Function.update H info.fileId (some ⟨tablePath name, heap⟩)) s') s)
    (htyped : ∀ a heap, Q a heap → Table.Typed { t with heap := heap }) :
    wp F (onStorage x) (fun a db' => ∃ heap, Q a heap ∧
      Holds (Function.update T name (some { t with heap := heap })) db' ∧
      db' = { db with storage := db'.storage }) db := by
  obtain ⟨H, h⟩ := h
  obtain ⟨info', tree, hinfo', hschema, hfile, htree, hm⟩ := h.linked ht
  obtain rfl := Option.some.inj (hinfo'.symm.trans hinfo)
  rw [onStorage, wp_zoom]
  refine wp_mono (hx H db.storage h.stores hfile) ?_
  rintro a s' ⟨heap, hQ, hs'⟩
  refine ⟨heap, hQ, ⟨Function.update H info'.fileId (some ⟨tablePath name, heap⟩), ?_⟩, rfl⟩
  refine h.replace hs' ?_ ?_ ?_ (fun _ _ => rfl) (htyped a heap hQ)
  · exact ⟨info', tree, hinfo, hschema, Function.update_self .., htree, hm⟩
  · rintro name' u hname ⟨info₂, tree₂, hinfo₂, hschema₂, hfile₂, htree₂, hm₂⟩
    have hne : info₂.fileId ≠ info'.fileId := by
      intro heq
      rw [heq, hfile] at hfile₂
      exact hname (tablePath_inj (congrArg HeapFile.path (Option.some.inj hfile₂)).symm)
    exact ⟨info₂, tree₂, hinfo₂, hschema₂, by rw [Function.update_of_ne hne]; exact hfile₂,
      htree₂, hm₂⟩
  · intro f hf hHf
    by_cases hff : f = info'.fileId
    · subst hff
      rw [Function.update_self] at hHf
      exact Or.inl (Option.some.inj hHf ▸ rfl)
    · rw [Function.update_of_ne hff] at hHf
      exact Or.inr hHf

/-- A tree put in the place of another one. -/
theorem setIndex {tree : BPlusTree} {m : Finmap fun _ : ℤ => RID} (h : Holds T db)
    (ht : T name = some t) (hm : tree.Models m) :
    Holds (Function.update T name (some { t with index := m }))
      { db with indexes := db.indexes.insert name tree } := by
  obtain ⟨H, h⟩ := h
  have htyped : t.Typed := h.typed ht
  refine ⟨H, h.replace h.stores ?_ ?_ (fun f hf hHf => Or.inr hHf) (fun _ _ => rfl) htyped⟩
  · obtain ⟨info, -, hinfo, hschema, hfile, -, -⟩ := h.linked ht
    exact ⟨info, tree, hinfo, hschema, hfile, Dict.find?_insert_self .., hm⟩
  · rintro name' u hname ⟨info₂, tree₂, hinfo₂, hschema₂, hfile₂, htree₂, hm₂⟩
    exact ⟨info₂, tree₂, hinfo₂, hschema₂, hfile₂,
      (Dict.find?_insert_of_ne _ _ hname).trans htree₂, hm₂⟩

/-! ## Statements -/

/-- The catalog knows the tables. -/
theorem getTable (h : Holds T db) : ∀ name, (T name = none ∧ db.catalog.getTable name = none) ∨
    ∃ t info, T name = some t ∧ db.catalog.getTable name = some info ∧ info.schema = t.schema := by
  intro name
  obtain ⟨H, h⟩ := h
  cases ht : T name with
  | none => exact Or.inl ⟨rfl, h.absent ht⟩
  | some t =>
    obtain ⟨info, -, hinfo, hschema, -⟩ := h.linked ht
    exact Or.inr ⟨t, info, rfl, hinfo, hschema⟩

theorem typed (h : Holds T db) (ht : T name = some t) : t.Typed := by
  obtain ⟨H, h⟩ := h
  exact h.typed ht

/-- The tree of a table. -/
theorem tree (h : Holds T db) (ht : T name = some t) :
    ∃ tree, db.indexes.find? name = some tree ∧ tree.Models t.index := by
  obtain ⟨H, h⟩ := h
  obtain ⟨-, tree, -, -, -, htree, hm⟩ := h.linked ht
  exact ⟨tree, htree, hm⟩

/-- `CREATE TABLE` on the tables. -/
theorem executeCreateTable (h : Holds T db) (stmt : Statement) :
    wp Excused (executeCreateTable stmt)
      (fun reply db' => reply = (T.execCreate stmt).2 ∧ Holds (T.execCreate stmt).1 db') db := by
  unfold Engine.executeCreateTable Tables.execCreate
  rw [wp_bind, wp_get]
  rcases h.getTable stmt.tableName with ⟨ht, hinfo⟩ | ⟨t, info, ht, hinfo, -⟩
  · have hexists : db.catalog.tableExists stmt.tableName = false := by
      unfold Catalog.tableExists
      rw [show db.catalog.find? stmt.tableName = none from hinfo]
      rfl
    rw [if_neg (by simp [hexists]), wp_bind, onStorage, wp_zoom, ht]
    obtain ⟨H, h⟩ := h
    -- The file of every table is named after it, so no open file is in the way.
    have hfree : ∀ {g hf}, H g = some hf →
        hf.path ≠ DiskManager.fullPath (stmt.tableName ++ lit ".db") := by
      intro g hf hg hpath
      obtain ⟨name, t, ht', hpath'⟩ := h.files hg
      obtain rfl : name = stmt.tableName := tablePath_inj (hpath'.symm.trans hpath)
      rw [ht] at ht'
      cases ht'
    refine wp_mono (wp_weaken (h.stores.createTable _ hfree) fun _ => excused_of_io) ?_
    rintro f s' ⟨hf, hs'⟩
    simp only [wp_bind, update, wp_modify, wp_pure, true_and]
    refine ⟨_, h.replace hs' ?_ ?_ ?_ ?_ ?_⟩
    · exact ⟨⟨stmt.tableName, schemaOf stmt.columns, f, 0, false, -1⟩, BPlusTree.new 128,
        Dict.find?_insert_self .., rfl, Function.update_self .., Dict.find?_insert_self ..,
        BPlusTree.models_new (by decide)⟩
    · rintro name' u hname ⟨info₂, tree₂, hinfo₂, hschema₂, hfile₂, htree₂, hm₂⟩
      have hne : info₂.fileId ≠ f := by
        intro heq
        rw [heq, hf] at hfile₂
        cases hfile₂
      exact ⟨info₂, tree₂, (Dict.find?_insert_of_ne _ _ hname).trans hinfo₂, hschema₂,
        by rw [Function.update_of_ne hne]; exact hfile₂,
        (Dict.find?_insert_of_ne _ _ hname).trans htree₂, hm₂⟩
    · intro g hf' hg
      by_cases hgf : g = f
      · subst hgf
        rw [Function.update_self] at hg
        exact Or.inl (Option.some.inj hg ▸ rfl)
      · rw [Function.update_of_ne hgf] at hg
        exact Or.inr hg
    · exact fun name' hname => Dict.find?_insert_of_ne _ _ hname
    · intro e he
      cases he
  · have hexists : db.catalog.tableExists stmt.tableName = true := by
      unfold Catalog.tableExists
      rw [show db.catalog.find? stmt.tableName = some info from hinfo]
      rfl
    rw [if_pos hexists, ht]
    exact ⟨rfl, h⟩

/-- `InsertExecutor::init` adds its row to the heap and to the index. -/
theorem insertExecutor {row : Tuple} (h : Holds T db) (ht : T name = some t)
    (hinfo : db.catalog.find? name = some info) (hrow : RowOk t.schema row) :
    wp Excused (insertExecutor name info row)
      (fun _ db' => Holds (Function.update T name (some (t.insertRow row))) db') db := by
  have hheap := h.onHeap (F := Excused)
    (Q := fun rid heap => rid = (t.heap.insert (serializeTuple row)).2 ∧
      heap = (t.heap.insert (serializeTuple row)).1) ht hinfo
    (fun H s hs hH => by
      refine wp_mono (wp_weaken (hs.insertTuple hH hrow.fits.2) fun _ => excused_of_io) ?_
      rintro rid s' ⟨hrid, hs'⟩
      exact ⟨_, ⟨hrid, rfl⟩, hs'⟩)
    (fun rid heap hQ => hQ.2 ▸ Table.typed_insert (h.typed ht) hrow)
  simp only [Engine.insertExecutor, hrow.length_mod, wp_bind]
  refine wp_mono hheap ?_
  rintro rid db₁ ⟨heap, ⟨rfl, rfl⟩, h₁, -⟩
  rw [wp_get]
  have ht₁ := Function.update_self name
    (some { t with heap := (t.heap.insert (serializeTuple row)).1 }) T
  obtain ⟨tree, htree, hm⟩ := h₁.tree ht₁
  rw [htree]
  rcases row with _ | ⟨key | text, row⟩
  · exact h₁.setRowCount name _
  · obtain ⟨tree', hins, hm', -⟩ := hm.insert_spec key.toInt
      (t.heap.insert (serializeTuple (.int key :: row))).2
    simp only [wp_bind, hins, ofTree, wp_lift_ok, update, wp_modify]
    have h₂ := (h₁.setIndex ht₁ hm').setRowCount name (info.rowCount + 1)
    rw [Function.update_idem] at h₂
    exact h₂
  · exact h₁.setRowCount name _

/-- A transaction begun and committed around a program does not touch the tables. -/
theorem beginTxn (h : Holds T db) :
    wp Excused beginTxn (fun _ db' => Holds T db' ∧ db'.catalog = db.catalog) db := by
  simp only [Engine.beginTxn, wp_bind, wp_get, update, wp_modify, wp_pure]
  exact ⟨h.congr rfl (fun _ => rfl) rfl, trivial⟩

theorem commitTxn (h : Holds T db) (txnId : Int32) :
    wp Excused (commitTxn txnId) (fun _ db' => Holds T db') db :=
  h.congr rfl (fun _ => rfl) rfl

theorem countRow (h : Holds T db) (name : Str) :
    wp Excused (countRow name) (fun _ db' => Holds T db') db := by
  simp only [Engine.countRow, update, wp_modify]
  cases db.catalog.getTable name with
  | none => exact h
  | some info => exact h.setRowCount name _

theorem rowOk_insertedRow {stmt : Statement} {row : Tuple} {schema : Schema}
    (hrow : Tables.insertedRow schema stmt = .ok row) (hfits : Storable (serializeTuple row)) :
    RowOk schema row := by
  refine ⟨decide_eq_true ?_, hfits⟩
  unfold Tables.insertedRow at hrow
  split at hrow
  case isTrue => cases hrow
  case isFalse hlen =>
    cases hconv : convertValues schema stmt.values with
    | error e => rw [hconv] at hrow; cases hrow
    | ok row' =>
      rw [hconv] at hrow
      obtain rfl := Except.ok.inj hrow
      exact convertValues_types (not_not.mp hlen) hconv

/-- `INSERT` on the tables. -/
theorem executeInsert (h : Holds T db) {stmt : Statement}
    (hfits : ∀ t row, T stmt.tableName = some t → Tables.insertedRow t.schema stmt = .ok row →
      Storable (serializeTuple row)) :
    wp Excused (executeInsert stmt)
      (fun reply db' => reply = (T.execInsert stmt).2 ∧ Holds (T.execInsert stmt).1 db') db := by
  unfold Engine.executeInsert Tables.execInsert
  rw [wp_bind, wp_get]
  rcases h.getTable stmt.tableName with ⟨ht, hinfo⟩ | ⟨t, info, ht, hinfo, hschema⟩
  · simp only [hinfo, ht]
    exact ⟨rfl, h⟩
  · simp only [hinfo, ht, hschema]
    by_cases hlen : stmt.values.length = t.schema.columnCount
    · rw [if_neg (not_not.mpr hlen)]
      cases hconv : convertValues t.schema stmt.values with
      | error column =>
        simp only [Tables.insertedRow, ne_eq, hlen, not_true, if_false, hconv]
        exact ⟨rfl, h⟩
      | ok row =>
        have hins : Tables.insertedRow t.schema stmt = .ok row := by
          simp [Tables.insertedRow, hlen, hconv]
        have hrow := rowOk_insertedRow hins (hfits t row ht hins)
        simp only [hins, wp_bind]
        refine wp_mono h.beginTxn ?_
        rintro txnId db₁ ⟨h₁, hcat⟩
        refine wp_mono (h₁.insertExecutor ht (hcat ▸ hinfo) hrow) ?_
        intro _ db₂ h₂
        refine wp_mono (h₂.commitTxn txnId) ?_
        intro _ db₃ h₃
        refine wp_mono (h₃.countRow stmt.tableName) ?_
        exact fun _ db₄ h₄ => ⟨rfl, h₄⟩
    · rw [if_pos hlen]
      simp only [Tables.insertedRow, ne_eq, hlen, not_false_iff, if_true]
      exact ⟨rfl, h⟩

/-- A scan of a table that collects an image of every row that matches. -/
theorem collect {β : Type} {stmt : Statement} {predicate : Predicate}
    {callback : List β → RID → Str → ℕ → Except Fault (List β × Bool)} (image : RID × Tuple → β)
    (h : Holds T db) (ht : T name = some t) (hinfo : db.catalog.find? name = some info)
    (hp : predicateFor t.schema stmt = .ok predicate)
    (hcall : ∀ b rid row data len, deserializeTuple data len t.schema = .ok row →
      passes predicate row = .ok (rowMatches t.schema stmt row) →
      callback b rid data len =
        .ok (if rowMatches t.schema stmt row then b ++ [image (rid, row)] else b, true)) :
    wp (fun _ => False) (onStorage (PageManager.scanTable callback info.fileId []))
      (fun found db' =>
        found = (t.rows.filter fun e => rowMatches t.schema stmt e.2).map image ∧
        Holds T db' ∧ db'.catalog = db.catalog) db := by
  have htyped := h.typed ht
  have hheap := h.onHeap (F := fun _ => False) (x := PageManager.scanTable callback info.fileId [])
    (Q := fun found heap => heap = t.heap ∧
      found = (t.rows.filter fun e => rowMatches t.schema stmt e.2).map image) ht hinfo
    (fun H s hs hH => by
      refine wp_mono (hs.scanTable (g := fun b e =>
        if rowMatches t.schema stmt (rowOf t.schema e.2)
          then b ++ [image (e.1, rowOf t.schema e.2)] else b) hH []
        (fun b rid bytes rest hmem => ?_)) ?_
      · obtain ⟨hrow, hbytes⟩ := htyped.rowOk hmem
        refine hcall b rid (rowOf t.schema bytes) _ _ ?_ (passes_eq hp hrow.types)
        have hd := hrow.deserializeTuple rest
        rwa [hbytes] at hd
      · rintro found s' ⟨hfound, hs'⟩
        refine ⟨t.heap, ⟨rfl, ?_⟩, ?_⟩
        · rw [hfound, foldl_collect
            (fun e : RID × Str => rowMatches t.schema stmt (rowOf t.schema e.2))
            (fun e => image (e.1, rowOf t.schema e.2)), List.nil_append, Table.rows,
            List.filter_map, List.map_map]
          rfl
        · rwa [Function.update_eq_self_iff.mpr hH.symm])
    (fun found heap hQ => hQ.1 ▸ htyped)
  refine wp_mono hheap ?_
  rintro found db' ⟨heap, ⟨rfl, hfound⟩, h', hdb'⟩
  have hsame : Function.update T name (some { t with heap := t.heap }) = T :=
    Function.update_eq_self_iff.mpr ht.symm
  rw [hsame] at h'
  exact ⟨hfound, h', by rw [hdb']⟩

theorem seqScan {stmt : Statement} {predicate : Predicate} (h : Holds T db) (ht : T name = some t)
    (hinfo : db.catalog.find? name = some info) (hschema : info.schema = t.schema)
    (hp : predicateFor t.schema stmt = .ok predicate) :
    wp (fun _ => False) (seqScan info predicate) (fun tuples db' =>
      tuples = (t.rows.filter fun e => rowMatches t.schema stmt e.2).map Prod.snd ∧ Holds T db')
      db := by
  unfold Engine.seqScan
  refine wp_mono (h.collect Prod.snd ht hinfo hp fun b rid row data len hd hpass => ?_)
    fun tuples db' h' => ⟨h'.1, h'.2.1⟩
  rw [hschema, scanCallback, hd, Machine.ok_bind, hpass, Machine.ok_bind]
  split <;> rfl

/-- `SELECT` on the tables. -/
theorem executeSelect (h : Holds T db) (stmt : Statement) :
    wp (fun _ => False) (executeSelect stmt)
      (fun reply db' => reply = (T.execSelect stmt).2 ∧ Holds (T.execSelect stmt).1 db') db := by
  unfold Engine.executeSelect Tables.execSelect
  rw [wp_bind, wp_get]
  rcases h.getTable stmt.tableName with ⟨ht, hinfo⟩ | ⟨t, info, ht, hinfo, hschema⟩
  · simp only [hinfo, ht]
    exact ⟨rfl, h⟩
  · simp only [hinfo, ht, hschema]
    cases hp : predicateFor t.schema stmt with
    | error column => exact ⟨rfl, h⟩
    | ok predicate =>
      simp only [wp_bind]
      refine wp_mono (h.seqScan ht hinfo hschema hp) ?_
      rintro tuples db' ⟨rfl, h'⟩
      cases outputColumns t.schema stmt with
      | error column => exact ⟨rfl, h'⟩
      | ok cols =>
        refine ⟨?_, h'⟩
        simp only [List.map_map]
        rfl

/-- The second loop of `DeleteExecutor::init` takes out one row. -/
theorem deleteOne {entry : RID × Int32} (h : Holds T db) (ht : T name = some t)
    (hinfo : db.catalog.find? name = some info) (hpage : entry.1.pageId < t.heap.length) :
    wp Excused (deleteOne name info.fileId entry) (fun _ db' =>
      Holds (Function.update T name (some (t.deleteRow entry))) db' ∧ db'.catalog = db.catalog)
      db := by
  have hheap := h.onHeap (F := Excused) (x := PageManager.deleteTuple info.fileId entry.1)
    (Q := fun _ heap => heap = t.heap.delete entry.1) ht hinfo
    (fun H s hs hH => by
      refine wp_mono (wp_weaken (hs.deleteTuple hH hpage) fun _ => excused_of_false) ?_
      exact fun _ s' hs' => ⟨_, rfl, hs'⟩)
    (fun _ heap hQ => hQ ▸ Table.typed_delete (h.typed ht) entry.1)
  simp only [Engine.deleteOne, wp_bind]
  refine wp_mono hheap ?_
  rintro - db₁ ⟨heap, rfl, h₁, hdb₁⟩
  have ht₁ := Function.update_self name (some { t with heap := t.heap.delete entry.1 }) T
  obtain ⟨tree, htree, hm⟩ := h₁.tree ht₁
  have hcat : db₁.catalog = db.catalog := by rw [hdb₁]
  rw [wp_get, htree]
  -- Only a key that is not negative is taken out of the index.
  by_cases hkey : 0 ≤ entry.2
  · have hrow : t.deleteRow entry = ⟨t.schema, t.heap.delete entry.1,
        (BPlusTree.mapCall t.index (.remove entry.2.toInt)).1⟩ := by
      rw [Table.deleteRow, if_pos hkey]
    rw [hrow]
    simp only [if_pos hkey, wp_bind]
    obtain ⟨hfault, hok⟩ := hm.remove_spec entry.2.toInt
    -- The tree faults when the leaf that falls short is an only child.
    cases hs : tree.soleChildUnderflow entry.2.toInt with
    | true =>
      rw [hfault hs, ofTree, wp_lift_error]
      exact Or.inr rfl
    | false =>
      obtain ⟨tree', hrem, hm', -⟩ := hok hs
      simp only [hrem, ofTree, wp_lift_ok, update, wp_modify]
      have h₂ := h₁.setIndex ht₁ hm'
      rw [Function.update_idem] at h₂
      exact ⟨h₂, hcat⟩
  · have hrow : t.deleteRow entry = ⟨t.schema, t.heap.delete entry.1, t.index⟩ := by
      rw [Table.deleteRow, if_neg hkey]
    rw [hrow]
    simp only [if_neg hkey]
    exact ⟨h₁, hcat⟩

/-- `DeleteExecutor::init` takes out the rows that match. -/
theorem deleteExecutor {stmt : Statement} {predicate : Predicate} (h : Holds T db)
    (ht : T name = some t) (hinfo : db.catalog.find? name = some info)
    (hschema : info.schema = t.schema) (hp : predicateFor t.schema stmt = .ok predicate) :
    wp Excused (deleteExecutor name info predicate) (fun count db' =>
      count = (t.toDelete stmt).length ∧
      Holds (Function.update T name (some ((t.toDelete stmt).foldl Table.deleteRow t))) db') db := by
  simp only [Engine.deleteExecutor, wp_bind]
  refine wp_mono (wp_weaken (h.collect (fun e => (e.1, primaryKey e.2)) ht hinfo hp
    fun b rid row data len hd hpass => ?_) fun _ => excused_of_false) ?_
  · rw [hschema, deleteCallback, hd, Machine.ok_bind, hpass, Machine.ok_bind]
    split <;> rfl
  rintro entries db₁ ⟨hentries, h₁, hcat⟩
  obtain rfl : entries = t.toDelete stmt := hentries
  -- After some of the rows are out, the table is the one with exactly these deletions.
  refine wp_mono (wp_foldlM (fun done _ db' =>
    Holds (Function.update T name (some (done.foldl Table.deleteRow t))) db' ∧
      db'.catalog = db.catalog) (t.toDelete stmt) ?_ ?_) ?_
  · rintro done entry rest ⟨⟩ db₂ hsplit ⟨h₂, hcat₂⟩
    have hmem : entry ∈ t.toDelete stmt := by rw [hsplit]; simp
    have hpage : entry.1.pageId < (done.foldl Table.deleteRow t).heap.length := by
      rw [Table.heap_foldl_deleteRow, Heap.length_foldl_delete]
      exact Table.pageId_lt_of_mem_toDelete hmem
    refine wp_mono (h₂.deleteOne (Function.update_self ..) (hcat₂ ▸ hinfo) hpage) ?_
    rintro - db₃ ⟨h₃, hcat₃⟩
    rw [Function.update_idem] at h₃
    exact ⟨by rw [List.foldl_append]; exact h₃, hcat₃.trans hcat₂⟩
  · refine ⟨?_, hcat⟩
    rw [List.foldl_nil, Function.update_eq_self_iff.mpr ht.symm]
    exact h₁
  · rintro - db₂ ⟨h₂, -⟩
    simp only [update, wp_modify, wp_pure]
    exact ⟨trivial, h₂.setRowCount name _⟩

/-- `DELETE` on the tables. -/
theorem executeDelete (h : Holds T db) (stmt : Statement) :
    wp Excused (executeDelete stmt)
      (fun reply db' => reply = (T.execDelete stmt).2 ∧ Holds (T.execDelete stmt).1 db') db := by
  unfold Engine.executeDelete Tables.execDelete
  rw [wp_bind, wp_get]
  rcases h.getTable stmt.tableName with ⟨ht, hinfo⟩ | ⟨t, info, ht, hinfo, hschema⟩
  · simp only [hinfo, ht]
    exact ⟨rfl, h⟩
  · simp only [hinfo, ht, hschema]
    cases hp : predicateFor t.schema stmt with
    | error column => exact ⟨rfl, h⟩
    | ok predicate =>
      simp only [wp_bind]
      refine wp_mono h.beginTxn ?_
      rintro txnId db₁ ⟨h₁, hcat⟩
      refine wp_mono (h₁.deleteExecutor ht (hcat ▸ hinfo) hschema hp) ?_
      rintro count db₂ ⟨rfl, h₂⟩
      refine wp_mono (h₂.commitTxn txnId) ?_
      exact fun _ db₃ h₃ => ⟨rfl, h₃⟩

/-- Every statement on the tables: the plan the optimizer picks does not matter. -/
theorem execute (h : Holds T db) {stmt : Statement} (hfits : T.StorableRow stmt) :
    wp Excused (execute stmt)
      (fun reply db' => reply = (T.exec stmt).2 ∧ Holds (T.exec stmt).1 db') db := by
  rw [execute_eq, Tables.exec]
  cases htype : stmt.type with
  | createTable => exact h.executeCreateTable stmt
  | insert => exact h.executeInsert (hfits htype)
  | select => exact wp_weaken (h.executeSelect stmt) fun _ => excused_of_false
  | delete => exact h.executeDelete stmt

end Holds

/-- Every statement refines the statement on the tables. -/
theorem step_refines : Machine.Refines Tables.StorableRow step Tables.exec
    (fun db T => Holds T db) (· = ·) Excused := by
  intro db T stmt h hfits
  unfold step
  rcases wp_iff.mp (h.execute hfits) with ⟨e, db', hrun, he⟩ | ⟨reply, db', hrun, hreply, h'⟩
  · exact Or.inl ⟨e, he, by rw [hrun]⟩
  · exact Or.inr ⟨db', reply, by rw [hrun], h', hreply⟩

end MiniDB.Engine
