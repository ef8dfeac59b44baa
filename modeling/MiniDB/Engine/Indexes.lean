import MiniDB.Engine.Database

/-!
# The indexes and the rows

Heap and index are changed one after the other, and the index holds one entry a key. An `INSERT` of
a key that the index has leaves the entry as it is; a `DELETE` takes out the key of every deleted
row that is not negative, whichever row the entry points to, and leaves the entries of negative
keys. So the entries follow the rows only along runs in which these cases do no harm.

## Main definitions

* `Engine.liveRows`: the rows of a table with their record identifiers, by a scan
* `Engine.IndexComplete`, `Engine.IndexSound`: the index finds every row, and only rows
* `Tables.KeepsComplete`, `Tables.KeepsSound`: the statements that keep these

## Main results

* `Engine.index_complete`, `Engine.index_sound`: runs of such statements
-/

namespace MiniDB

open Program

namespace Table

/-- Through the first value of every row that starts with an integer the index finds a row that
starts with it. -/
def Complete (t : Table) : Prop := ∀ rid k rest, (rid, .int k :: rest) ∈ t.rows →
  ∃ rid' rest', t.index.lookup k.toInt = some rid' ∧ (rid', .int k :: rest') ∈ t.rows

/-- Every entry of the index points to a row that starts with its key. -/
def Sound (t : Table) : Prop := ∀ key rid, t.index.lookup key = some rid →
  ∃ k rest, Int32.toInt k = key ∧ (rid, .int k :: rest) ∈ t.rows

variable {t : Table} {row : Tuple} {stmt : Statement} {key : ℤ} {rid : RID}

/-! ## The index after a change -/

theorem mem_rows_insertRow (hrow : RowOk t.schema row) {e : RID × Tuple} :
    e ∈ (t.insertRow row).rows ↔
      e = ((t.heap.insert (serializeTuple row)).2, row) ∨ e ∈ t.rows := by
  rw [(rows_insertRow hrow).mem_iff, List.mem_cons]

/-- An insertion leaves the entries that are there. -/
theorem lookup_insertRow_of_some (h : t.index.lookup key = some rid) :
    (t.insertRow row).index.lookup key = some rid := by
  unfold insertRow
  split
  case h_1 k rest =>
    simp only [BPlusTree.mapCall]
    split
    case isTrue hnone =>
      have hne : key ≠ k.toInt := by
        rintro rfl
        rw [h] at hnone
        cases hnone
      rw [Finmap.lookup_insert_of_ne _ hne]
      exact h
    case isFalse => exact h
  case h_2 => exact h

/-- An insertion adds an entry when the key has none. -/
theorem lookup_insertRow_self {k : Int32} {rest : Tuple} (h : t.index.lookup k.toInt = none) :
    (t.insertRow (.int k :: rest)).index.lookup k.toInt =
      some (t.heap.insert (serializeTuple (.int k :: rest))).2 := by
  simp only [insertRow, BPlusTree.mapCall, if_pos h]
  exact Finmap.lookup_insert _

/-- The entries after an insertion are those before it and the one of the row. -/
theorem lookup_insertRow_inv (h : (t.insertRow row).index.lookup key = some rid) :
    t.index.lookup key = some rid ∨ ∃ k rest, row = .int k :: rest ∧ k.toInt = key ∧
      rid = (t.heap.insert (serializeTuple row)).2 := by
  unfold insertRow at h
  split at h
  case h_1 k rest =>
    simp only [BPlusTree.mapCall] at h
    split at h
    case isTrue =>
      by_cases hkey : key = k.toInt
      · subst hkey
        rw [Finmap.lookup_insert] at h
        exact Or.inr ⟨k, rest, rfl, rfl, (Option.some.inj h).symm⟩
      · rw [Finmap.lookup_insert_of_ne _ hkey] at h
        exact Or.inl h
    case isFalse => exact Or.inl h
  case h_2 => exact Or.inl h

theorem lookup_remove (m : Finmap fun _ : ℤ => RID) (k : ℤ) :
    (BPlusTree.mapCall m (.remove k)).1.lookup key = if k = key then none else m.lookup key := by
  simp only [BPlusTree.mapCall]
  by_cases hnone : m.lookup k = none
  · rw [if_pos hnone]
    split
    case isTrue hkey => exact hkey ▸ hnone
    case isFalse => rfl
  · rw [if_neg hnone]
    by_cases hkey : k = key
    · rw [if_pos hkey, hkey]
      exact Finmap.lookup_erase _ _
    · rw [if_neg hkey]
      exact Finmap.lookup_erase_ne (Ne.symm hkey)

/-- A deletion takes out the key of its row unless it is negative. -/
theorem lookup_deleteRow (e : RID × Int32) : (t.deleteRow e).index.lookup key =
    if 0 ≤ e.2 ∧ e.2.toInt = key then none else t.index.lookup key := by
  unfold deleteRow
  by_cases hneg : 0 ≤ e.2
  · simp only [if_pos hneg, lookup_remove, and_iff_right hneg]
  · simp only [if_neg hneg, if_neg fun h : 0 ≤ e.2 ∧ e.2.toInt = key => hneg h.1]

/-- Deletions take out the keys of their rows that are not negative. -/
theorem lookup_foldl_deleteRow : ∀ (entries : List (RID × Int32)) (t : Table),
    (entries.foldl deleteRow t).index.lookup key =
      if ∃ e ∈ entries, 0 ≤ e.2 ∧ e.2.toInt = key then none else t.index.lookup key
  | [], t => by simp
  | e :: entries, t => by
    have hcons : (∃ e' ∈ e :: entries, 0 ≤ e'.2 ∧ e'.2.toInt = key) ↔
        (0 ≤ e.2 ∧ e.2.toInt = key) ∨ ∃ e' ∈ entries, 0 ≤ e'.2 ∧ e'.2.toInt = key := by simp
    rw [List.foldl_cons, lookup_foldl_deleteRow entries, lookup_deleteRow]
    simp only [hcons]
    by_cases hhead : 0 ≤ e.2 ∧ e.2.toInt = key
    · rw [if_pos hhead, if_pos (Or.inl hhead), ite_self]
    · rw [if_neg hhead]
      simp only [hhead, false_or]

theorem mem_rows_foldl_deleteRow {row : Tuple} :
    (rid, row) ∈ ((t.toDelete stmt).foldl deleteRow t).rows ↔
      (rid, row) ∈ t.rows ∧ rowMatches t.schema stmt row = false := by
  rw [(rows_foldl_deleteRow stmt).mem_iff, List.mem_filter, Bool.not_eq_true']

/-- An entry survives a `DELETE` that takes out no row with its key, or a negative one. -/
theorem lookup_delete_of_kept {k : Int32} (h : 0 ≤ k → ∀ rid' rest', (rid', .int k :: rest') ∈ t.rows →
      rowMatches t.schema stmt (.int k :: rest') = false) :
    ((t.toDelete stmt).foldl deleteRow t).index.lookup k.toInt = t.index.lookup k.toInt := by
  rw [lookup_foldl_deleteRow, if_neg]
  rintro ⟨e, he, hnonneg, hkey⟩
  obtain ⟨row, hrow, hmatch, hpk⟩ := mem_toDelete.mp he
  have hk : e.2 = k := Int32.toInt_inj.mp hkey
  rw [hk] at hnonneg hpk
  -- Without an integer in front the noted key is `-1`, which is not looked up.
  rcases row with _ | ⟨v | text, rest⟩
  · rw [show k = -1 from hpk] at hnonneg
    exact absurd hnonneg (by decide)
  · obtain rfl : k = v := hpk
    rw [h hnonneg e.1 rest hrow] at hmatch
    cases hmatch
  · rw [show k = -1 from hpk] at hnonneg
    exact absurd hnonneg (by decide)

/-! ## Complete and sound indexes -/

theorem complete_create (schema : Schema) : (create schema).Complete :=
  fun _ _ _ h => by cases h

theorem sound_create (schema : Schema) : (create schema).Sound := fun _ _ h => by cases h

theorem Complete.insertRow (h : t.Complete) (hrow : RowOk t.schema row)
    (hstale : ∀ k rest rid, row = .int k :: rest → t.index.lookup k.toInt = some rid →
      rid = (t.heap.insert (serializeTuple row)).2 ∨ ∃ rest', (rid, .int k :: rest') ∈ t.rows) :
    (t.insertRow row).Complete := by
  intro rid k rest hmem
  rcases (mem_rows_insertRow hrow).mp hmem with heq | hold
  · obtain ⟨rfl, rfl⟩ := Prod.mk.inj heq
    cases hlook : t.index.lookup k.toInt with
    | none =>
      exact ⟨_, rest, lookup_insertRow_self hlook, (mem_rows_insertRow hrow).mpr (Or.inl rfl)⟩
    | some rid' =>
      rcases hstale k rest rid' rfl hlook with rfl | ⟨rest', hlive⟩
      · exact ⟨_, rest, lookup_insertRow_of_some hlook, (mem_rows_insertRow hrow).mpr (Or.inl rfl)⟩
      · exact ⟨rid', rest', lookup_insertRow_of_some hlook,
          (mem_rows_insertRow hrow).mpr (Or.inr hlive)⟩
  · obtain ⟨rid', rest', hlook, hlive⟩ := h rid k rest hold
    exact ⟨rid', rest', lookup_insertRow_of_some hlook,
      (mem_rows_insertRow hrow).mpr (Or.inr hlive)⟩

theorem Sound.insertRow (h : t.Sound) (hrow : RowOk t.schema row) : (t.insertRow row).Sound := by
  intro key rid hlook
  rcases lookup_insertRow_inv hlook with hold | ⟨k, rest, rfl, hkey, rfl⟩
  · obtain ⟨k, rest, hkey, hmem⟩ := h key rid hold
    exact ⟨k, rest, hkey, (mem_rows_insertRow hrow).mpr (Or.inr hmem)⟩
  · exact ⟨k, rest, hkey, (mem_rows_insertRow hrow).mpr (Or.inl rfl)⟩

/-- What a `DELETE` must not do for the index to stay complete: take out one of several rows with a
key that is not negative, or the one of several rows with a negative key that the entry points
to. -/
theorem Complete.delete (h : t.Complete)
    (hkept : ∀ rid k rest, (rid, .int k :: rest) ∈ t.rows →
      rowMatches t.schema stmt (.int k :: rest) = false → ∀ rid' rest',
      (rid', .int k :: rest') ∈ t.rows → 0 ≤ k ∨ t.index.lookup k.toInt = some rid' →
      rowMatches t.schema stmt (.int k :: rest') = false) :
    ((t.toDelete stmt).foldl deleteRow t).Complete := by
  intro rid k rest hmem
  obtain ⟨hmem, hmatch⟩ := mem_rows_foldl_deleteRow.mp hmem
  obtain ⟨rid', rest', hlook, hlive⟩ := h rid k rest hmem
  refine ⟨rid', rest', ?_, mem_rows_foldl_deleteRow.mpr ⟨hlive, ?_⟩⟩
  · rw [lookup_delete_of_kept]
    · exact hlook
    · intro hnonneg rid'' rest'' hmem''
      exact hkept rid k rest hmem hmatch rid'' rest'' hmem'' (Or.inl hnonneg)
  · exact hkept rid k rest hmem hmatch rid' rest' hlive (Or.inr hlook)

/-- What a `DELETE` must not do for the index to stay sound: take out a row with a negative key that
the entry points to. -/
theorem Sound.delete (h : t.Sound)
    (hneg : ∀ rid k rest, (rid, .int k :: rest) ∈ t.rows →
      rowMatches t.schema stmt (.int k :: rest) = true → t.index.lookup k.toInt = some rid → 0 ≤ k) :
    ((t.toDelete stmt).foldl deleteRow t).Sound := by
  intro key rid hlook
  rw [lookup_foldl_deleteRow] at hlook
  split at hlook
  case isTrue => cases hlook
  case isFalse hnone =>
    obtain ⟨k, rest, hkey, hmem⟩ := h key rid hlook
    refine ⟨k, rest, hkey, mem_rows_foldl_deleteRow.mpr ⟨hmem, ?_⟩⟩
    by_contra hmatch
    rw [Bool.not_eq_false] at hmatch
    have hnonneg := hneg rid k rest hmem hmatch (by rw [hkey]; exact hlook)
    exact hnone ⟨(rid, k), mem_toDelete.mpr ⟨_, hmem, hmatch, rfl⟩, hnonneg, hkey⟩

end Table

namespace Tables

variable {T : Tables} {stmt : Statement}

/-- A property that every change of a table keeps, every statement keeps for all tables. -/
theorem exec_invariant {P : Table → Prop} (hT : ∀ name t, T name = some t → P t)
    (hcreate : P (.create (Engine.schemaOf stmt.columns)))
    (hinsert : stmt.type = .insert → ∀ t row, T stmt.tableName = some t →
      insertedRow t.schema stmt = .ok row → P (t.insertRow row))
    (hdelete : stmt.type = .delete → ∀ t, T stmt.tableName = some t →
      P ((t.toDelete stmt).foldl Table.deleteRow t)) :
    ∀ name t, (T.exec stmt).1 name = some t → P t := by
  have hupdate : ∀ {u : Table}, P u → ∀ name t,
      Function.update T stmt.tableName (some u) name = some t → P t := by
    intro u hu name t ht
    by_cases hname : name = stmt.tableName
    · subst hname
      rw [Function.update_self] at ht
      exact Option.some.inj ht ▸ hu
    · rw [Function.update_of_ne hname] at ht
      exact hT name t ht
  unfold exec
  cases htype : stmt.type with
  | createTable =>
    simp only [execCreate]
    cases T stmt.tableName with
    | none => exact hupdate hcreate
    | some t => exact hT
  | insert =>
    simp only [execInsert]
    cases ht : T stmt.tableName with
    | none => exact hT
    | some t =>
      cases hins : insertedRow t.schema stmt with
      | error reply => simp only [hins]; exact hT
      | ok row => simp only [hins]; exact hupdate (hinsert htype t row ht hins)
  | select =>
    simp only [execSelect]
    cases T stmt.tableName with
    | none => exact hT
    | some t => dsimp only; split <;> exact hT
  | delete =>
    simp only [execDelete]
    cases ht : T stmt.tableName with
    | none => exact hT
    | some t =>
      dsimp only
      cases Engine.predicateFor t.schema stmt with
      | error column => exact hT
      | ok predicate => exact hupdate (hdelete htype t ht)

/-- The statements that keep the indexes complete: rows that fit, no `INSERT` of a key whose entry
points neither to a row with that key nor to the place of the new row, and no `DELETE` that takes
out some but not all of the rows with a key that is not negative, or the row that the entry points
to while others with its negative key stay. -/
structure KeepsComplete (T : Tables) (stmt : Statement) : Prop where
  storable : T.StorableRow stmt
  insert : stmt.type = .insert → ∀ t k rest rid, T stmt.tableName = some t →
    insertedRow t.schema stmt = .ok (.int k :: rest) → t.index.lookup k.toInt = some rid →
    rid = (t.heap.insert (serializeTuple (.int k :: rest))).2 ∨
      ∃ rest', (rid, .int k :: rest') ∈ t.rows
  delete : stmt.type = .delete → ∀ t rid k rest, T stmt.tableName = some t →
    (rid, .int k :: rest) ∈ t.rows → rowMatches t.schema stmt (.int k :: rest) = false →
    ∀ rid' rest', (rid', .int k :: rest') ∈ t.rows → 0 ≤ k ∨ t.index.lookup k.toInt = some rid' →
    rowMatches t.schema stmt (.int k :: rest') = false

/-- The statements that keep the indexes sound: rows that fit, and no `DELETE` of a row with a
negative key that the entry points to. -/
structure KeepsSound (T : Tables) (stmt : Statement) : Prop where
  storable : T.StorableRow stmt
  delete : stmt.type = .delete → ∀ t rid k rest, T stmt.tableName = some t →
    (rid, .int k :: rest) ∈ t.rows → rowMatches t.schema stmt (.int k :: rest) = true →
    t.index.lookup k.toInt = some rid → 0 ≤ k

theorem exec_complete (hT : ∀ name t, T name = some t → t.Complete) (h : T.KeepsComplete stmt) :
    ∀ name t, (T.exec stmt).1 name = some t → t.Complete := by
  refine exec_invariant (P := fun t => t.Complete) hT (Table.complete_create _) ?_ ?_
  · intro htype t row ht hins
    have hrow := Engine.Holds.rowOk_insertedRow hins (h.storable htype t row ht hins)
    refine (hT _ t ht).insertRow hrow fun k rest rid heq hlook => ?_
    subst heq
    exact h.insert htype t k rest rid ht hins hlook
  · intro htype t ht
    exact (hT _ t ht).delete fun rid k rest hmem hmatch => h.delete htype t rid k rest ht hmem hmatch

theorem exec_sound (hT : ∀ name t, T name = some t → t.Sound) (h : T.KeepsSound stmt) :
    ∀ name t, (T.exec stmt).1 name = some t → t.Sound := by
  refine exec_invariant (P := fun t => t.Sound) hT (Table.sound_create _) ?_ ?_
  · intro htype t row ht hins
    exact (hT _ t ht).insertRow
      (Engine.Holds.rowOk_insertedRow hins (h.storable htype t row ht hins))
  · intro htype t ht
    exact (hT _ t ht).delete fun rid k rest hmem hmatch => h.delete htype t rid k rest ht hmem hmatch

end Tables

namespace Engine

/-- The callback of a scan that keeps every row. -/
def rowCallback (schema : Schema) (found : List (RID × Tuple)) (rid : RID) (data : Str) (len : ℕ) :
    Except Fault (List (RID × Tuple) × Bool) := do
  let tuple ← deserializeTuple data len schema
  return (found ++ [(rid, tuple)], true)

/-- The rows of a table with their record identifiers, by a scan. -/
def liveRows (info : TableInfo) : Program Engine Fault (List (RID × Tuple)) :=
  onStorage (PageManager.scanTable (rowCallback info.schema) info.fileId [])

/-- For every live row with the first value `k`, the search for `k` succeeds with the record
identifier of a live row with the first value `k`. -/
def IndexComplete (db : Engine) : Prop := ∀ name info, db.catalog.getTable name = some info →
  ∃ tree rows db', db.indexes.find? name = some tree ∧ (liveRows info).run db = (.ok rows, db') ∧
    ∀ rid k rest, (rid, .int k :: rest) ∈ rows →
      ∃ rid' rest', tree.search k.toInt = .ok (some rid') ∧ (rid', .int k :: rest') ∈ rows

/-- Whatever a search for a key finds is the record identifier of a live row whose first value is
the key. -/
def IndexSound (db : Engine) : Prop := ∀ name info, db.catalog.getTable name = some info →
  ∃ tree rows db', db.indexes.find? name = some tree ∧ (liveRows info).run db = (.ok rows, db') ∧
    ∀ key rid, tree.search key = .ok (some rid) →
      ∃ k rest, Int32.toInt k = key ∧ (rid, .int k :: rest) ∈ rows

namespace Holds

variable {T : Tables} {db : Engine} {name : Str} {t : Table} {info : TableInfo}

/-- A scan gives the rows of the table. -/
theorem liveRows (h : Holds T db) (ht : T name = some t)
    (hinfo : db.catalog.find? name = some info) (hschema : info.schema = t.schema) :
    ∃ db', (liveRows info).run db = (.ok t.rows, db') := by
  have hmatch : ∀ row, rowMatches t.schema (selectAll name) row = true := fun _ => rfl
  have hcall : ∀ b rid row data len, deserializeTuple data len t.schema = .ok row →
      passes none row = .ok (rowMatches t.schema (selectAll name) row) →
      rowCallback info.schema b rid data len =
        .ok (if rowMatches t.schema (selectAll name) row then b ++ [id (rid, row)] else b, true) := by
    intro b rid row data len hd _
    rw [hschema, rowCallback, hd]
    rfl
  obtain ⟨rows, db', hrun, hrows, -⟩ := wp_total.mp (h.collect id ht hinfo rfl hcall)
  simp only [hmatch, List.filter_true, List.map_id] at hrows
  exact ⟨db', by rw [Engine.liveRows, hrun, hrows]⟩

/-- The tree and the rows of a table of the catalog. -/
theorem observe (h : Holds T db) (hinfo : db.catalog.getTable name = some info) :
    ∃ t tree db', T name = some t ∧ db.indexes.find? name = some tree ∧ tree.Models t.index ∧
      (Engine.liveRows info).run db = (.ok t.rows, db') := by
  obtain ⟨t, info', ht, hinfo', hschema⟩ := (h.getTable name).resolve_left
    fun hnone => by rw [hinfo] at hnone; cases hnone.2
  obtain rfl := Option.some.inj (hinfo'.symm.trans hinfo)
  obtain ⟨tree, htree, hm⟩ := h.tree ht
  obtain ⟨db', hrun⟩ := h.liveRows ht hinfo hschema
  exact ⟨t, tree, db', ht, htree, hm, hrun⟩

theorem indexComplete (h : Holds T db) (hc : ∀ name t, T name = some t → t.Complete) :
    IndexComplete db := by
  intro name info hinfo
  obtain ⟨t, tree, db', ht, htree, hm, hrun⟩ := h.observe hinfo
  refine ⟨tree, t.rows, db', htree, hrun, fun rid k rest hmem => ?_⟩
  obtain ⟨rid', rest', hlook, hlive⟩ := hc name t ht rid k rest hmem
  exact ⟨rid', rest', by rw [hm.search_spec, hlook], hlive⟩

theorem indexSound (h : Holds T db) (hs : ∀ name t, T name = some t → t.Sound) :
    IndexSound db := by
  intro name info hinfo
  obtain ⟨t, tree, db', ht, htree, hm, hrun⟩ := h.observe hinfo
  refine ⟨tree, t.rows, db', htree, hrun, fun key rid hsearch => ?_⟩
  rw [hm.search_spec] at hsearch
  exact hs name t ht key rid (Except.ok.inj hsearch)

end Holds

/-- The table of the runs below: an integer and a text. -/
def sampleTable : Statement where
  type := .createTable
  tableName := lit "t"
  columns := [⟨lit "id", lit "INT"⟩, ⟨lit "name", lit "TEXT"⟩]

/-- An `INSERT` into the table of the runs below. -/
def sampleInsert (id name : String) : Statement :=
  { type := .insert, tableName := lit "t", values := [lit id, lit name] }

/-- A `DELETE` from the table of the runs below. -/
def sampleDelete (column value : String) : Statement :=
  { type := .delete, tableName := lit "t", hasWhere := true, where_ := ⟨lit column, lit value⟩ }

/-- The table of the runs below with one row. -/
def sampleRow : Table :=
  (Table.create (schemaOf sampleTable.columns)).insertRow [.int 1, .text (lit "a")]

theorem sample_created : (Tables.exec (fun _ => none) sampleTable).1 (lit "t") =
    some (.create (schemaOf sampleTable.columns)) := rfl

theorem sample_insertedRow : Tables.insertedRow (schemaOf sampleTable.columns)
    (sampleInsert "1" "a") = .ok [.int 1, .text (lit "a")] := by
  decide +kernel

theorem sample_inserted : (Tables.exec (Tables.exec (fun _ => none) sampleTable).1
    (sampleInsert "1" "a")).1 (lit "t") = some sampleRow := rfl

theorem sample_rows : sampleRow.rows = [(⟨0, 0⟩, [.int 1, .text (lit "a")])] := by
  decide +kernel

theorem storable_sampleInsert {T : Tables} {t : Table} {id name : String} {row : Tuple}
    (ht : T (lit "t") = some t) (hrow : Tables.insertedRow t.schema (sampleInsert id name) = .ok row)
    (hstorable : Storable (serializeTuple row)) : T.StorableRow (sampleInsert id name) := by
  intro _ t' row' ht' hrow'
  obtain rfl := Option.some.inj (ht.symm.trans ht')
  obtain rfl := Except.ok.inj (hrow.symm.trans hrow')
  exact hstorable

theorem sample_storable :
    (Tables.exec (fun _ => none) sampleTable).1.StorableRow (sampleInsert "1" "a") :=
  storable_sampleInsert sample_created sample_insertedRow (by decide)

/-- The table of the runs below with two rows. -/
def sampleRows : Table := sampleRow.insertRow [.int 2, .text (lit "b")]

/-- The tables of the runs below, with one row. -/
def sampleTables : Tables :=
  (Tables.exec (Tables.exec (fun _ => none) sampleTable).1 (sampleInsert "1" "a")).1

theorem sample_inserted_two :
    (Tables.exec sampleTables (sampleInsert "2" "b")).1 (lit "t") = some sampleRows := rfl

theorem sample_rows_two : sampleRows.rows =
    [(⟨0, 0⟩, [.int 1, .text (lit "a")]), (⟨0, 1⟩, [.int 2, .text (lit "b")])] := by
  decide +kernel

theorem sample_insertedRow_two : Tables.insertedRow sampleRow.schema (sampleInsert "2" "b") =
    .ok [.int 2, .text (lit "b")] := by
  decide +kernel

theorem sample_storable_two : sampleTables.StorableRow (sampleInsert "2" "b") :=
  storable_sampleInsert sample_inserted sample_insertedRow_two (by decide)

/-- Two rows inserted, and the first one deleted. -/
def sampleRun : List Statement :=
  [sampleTable, sampleInsert "1" "a", sampleInsert "2" "b", sampleDelete "id" "1"]

/-- In every run of statements that keep the indexes complete, the index of every table finds every
live row's key. -/
theorem index_complete (disk : Str → Option File) (logMgr : LogManager) (stmts : List Statement)
    (hkeeps : Machine.Along Tables.KeepsComplete Tables.exec (fun _ => none) stmts)
    {db : Engine} {replies : List Reply}
    (hrun : executeAll (Engine.new disk logMgr) stmts = .ok (db, replies)) : IndexComplete db := by
  have hrefines := step_refines.inv (I := fun T => ∀ name t, T name = some t → t.Complete)
    (fun T stmt h => h.storable) fun db T stmt _ hT h => Tables.exec_complete hT h
  obtain ⟨h, hc⟩ := Machine.related_of_run hrefines
    ⟨holds_new disk logMgr, fun name t ht => by cases ht⟩ hkeeps hrun
  exact h.indexComplete hc

/-- The rows of the table of the runs below, and what its index finds for a key. -/
def sampleView (key : ℤ) (db : Engine) : Option (List (RID × Tuple)) × Option (Option RID) :=
  ((db.catalog.getTable (lit "t")).bind fun info => ((liveRows info).run db).1.toOption,
    (db.indexes.find? (lit "t")).bind fun tree => (tree.search key).toOption)

theorem info_of_view {key : ℤ} {db : Engine} {rows : List (RID × Tuple)} {o : Option (Option RID)}
    (h : sampleView key db = (some rows, o)) :
    ∃ info, db.catalog.getTable (lit "t") = some info := by
  obtain ⟨info, hinfo, -⟩ := Option.bind_eq_some_iff.mp (Prod.mk.inj h).1
  exact ⟨info, hinfo⟩

theorem sample_run : (executeAll (Engine.new (fun _ => none) ⟨[], [], 1⟩) sampleRun).map
    (fun r => sampleView 2 r.1) =
      .ok (some [(⟨0, 1⟩, [.int 2, .text (lit "b")])], some (some ⟨0, 1⟩)) := by
  decide +kernel

/-- One of two rows is deleted, and the index finds the other one. -/
theorem index_complete_two_rows : ∃ db replies,
    executeAll (Engine.new (fun _ => none) ⟨[], [], 1⟩) sampleRun = .ok (db, replies) ∧
    sampleView 2 db = (some [(⟨0, 1⟩, [.int 2, .text (lit "b")])], some (some ⟨0, 1⟩)) ∧
    IndexComplete db := by
  obtain ⟨⟨db, replies⟩, hrun, hview⟩ := Machine.map_eq_ok.mp sample_run
  refine ⟨db, replies, hrun, hview, index_complete _ _ _ ?_ hrun⟩
  refine .cons ⟨nofun, nofun, nofun⟩ (.cons ?_ (.cons ?_ (.cons ?_ .nil)))
  · refine ⟨sample_storable, ?_, nofun⟩
    intro _ t k rest rid ht _ hlook
    obtain rfl := Option.some.inj (sample_created.symm.trans ht)
    cases hlook
  · refine ⟨sample_storable_two, ?_, nofun⟩
    intro _ t k rest rid ht hrow hlook
    obtain rfl := Option.some.inj (sample_inserted.symm.trans ht)
    obtain ⟨hk, -⟩ := List.cons.inj (Except.ok.inj (sample_insertedRow_two.symm.trans hrow))
    have hnone : sampleRow.index.lookup (Int32.toInt 2) = none := by decide +kernel
    rw [← Value.int.inj hk, hnone] at hlook
    cases hlook
  · refine ⟨nofun, nofun, ?_⟩
    intro _ t rid k rest ht hmem hmatch rid' rest' hmem' _
    obtain rfl := Option.some.inj (sample_inserted_two.symm.trans ht)
    simp only [sample_rows_two, List.mem_pair, Prod.mk.injEq, List.cons.injEq, Value.int.injEq]
      at hmem hmem'
    obtain ⟨-, rfl, rfl⟩ | ⟨-, rfl, rfl⟩ := hmem
    · exact absurd hmatch (by decide +kernel)
    · obtain ⟨-, hk, -⟩ | ⟨-, -, rfl⟩ := hmem'
      · exact absurd hk (by decide)
      · exact hmatch

/-- What a view shows is what any scan and any search give. -/
theorem rows_of_view {key : ℤ} {db db' : Engine} {info : TableInfo} {tree : BPlusTree}
    {rows rows' : List (RID × Tuple)} {o : Option RID}
    (h : sampleView key db = (some rows, some o))
    (hinfo : db.catalog.getTable (lit "t") = some info)
    (htree : db.indexes.find? (lit "t") = some tree)
    (hrun : (liveRows info).run db = (.ok rows', db')) : rows' = rows ∧ tree.search key = .ok o := by
  obtain ⟨hrows, hsearch⟩ := Prod.mk.inj h
  rw [hinfo, Option.bind_some, hrun] at hrows
  rw [htree, Option.bind_some] at hsearch
  refine ⟨Option.some.inj hrows, ?_⟩
  cases hs : tree.search key with
  | error e => rw [hs] at hsearch; cases hsearch
  | ok o' => rw [hs] at hsearch; rw [Option.some.inj hsearch]

/-- Two rows with one key, and the first one deleted: the second is there, but not in the index. -/
theorem index_incomplete : ∃ db replies, executeAll (Engine.new (fun _ => none) ⟨[], [], 1⟩)
    [sampleTable, sampleInsert "1" "a", sampleInsert "1" "b", sampleDelete "name" "a"] =
      .ok (db, replies) ∧ ¬ IndexComplete db := by
  have hview : (executeAll (Engine.new (fun _ => none) ⟨[], [], 1⟩)
      [sampleTable, sampleInsert "1" "a", sampleInsert "1" "b", sampleDelete "name" "a"]).map
        (fun r => sampleView 1 r.1) =
      .ok (some [(⟨0, 1⟩, [.int 1, .text (lit "b")])], some none) := by
    decide +kernel
  obtain ⟨⟨db, replies⟩, hrun, hdb⟩ := Machine.map_eq_ok.mp hview
  refine ⟨db, replies, hrun, fun hcomplete => ?_⟩
  obtain ⟨info, hinfo⟩ := info_of_view hdb
  obtain ⟨tree, rows, db', htree, hrows, hfound⟩ := hcomplete _ info hinfo
  obtain ⟨rfl, hsearch⟩ := rows_of_view hdb hinfo htree hrows
  obtain ⟨rid, rest, hsearch', -⟩ := hfound ⟨0, 1⟩ 1 [.text (lit "b")] (by simp)
  rw [show Int32.toInt 1 = 1 from rfl, hsearch] at hsearch'
  cases hsearch'

/-- In every run of statements that keep the indexes sound, every entry of an index points to a live
row with its key. -/
theorem index_sound (disk : Str → Option File) (logMgr : LogManager) (stmts : List Statement)
    (hkeeps : Machine.Along Tables.KeepsSound Tables.exec (fun _ => none) stmts)
    {db : Engine} {replies : List Reply}
    (hrun : executeAll (Engine.new disk logMgr) stmts = .ok (db, replies)) : IndexSound db := by
  have hrefines := step_refines.inv (I := fun T => ∀ name t, T name = some t → t.Sound)
    (fun T stmt h => h.storable) fun db T stmt _ hT h => Tables.exec_sound hT h
  obtain ⟨h, hs⟩ := Machine.related_of_run hrefines
    ⟨holds_new disk logMgr, fun name t ht => by cases ht⟩ hkeeps hrun
  exact h.indexSound hs

/-- One of two rows is deleted, and the only entry left is that of the other one. -/
theorem index_sound_two_rows : ∃ db replies,
    executeAll (Engine.new (fun _ => none) ⟨[], [], 1⟩) sampleRun = .ok (db, replies) ∧
    sampleView 2 db = (some [(⟨0, 1⟩, [.int 2, .text (lit "b")])], some (some ⟨0, 1⟩)) ∧
    IndexSound db := by
  obtain ⟨⟨db, replies⟩, hrun, hview⟩ := Machine.map_eq_ok.mp sample_run
  refine ⟨db, replies, hrun, hview, index_sound _ _ _ ?_ hrun⟩
  refine .cons ⟨nofun, nofun⟩ (.cons ⟨sample_storable, nofun⟩ (.cons ⟨sample_storable_two, nofun⟩
    (.cons ⟨nofun, ?_⟩ .nil)))
  intro _ t rid k rest ht hmem _ _
  obtain rfl := Option.some.inj (sample_inserted_two.symm.trans ht)
  simp only [sample_rows_two, List.mem_pair, Prod.mk.injEq, List.cons.injEq, Value.int.injEq] at hmem
  obtain ⟨-, rfl, -⟩ | ⟨-, rfl, -⟩ := hmem <;> decide

/-- A row with a negative key deleted: its entry stays. -/
theorem index_unsound : ∃ db replies, executeAll (Engine.new (fun _ => none) ⟨[], [], 1⟩)
    [sampleTable, sampleInsert "-5" "a", sampleDelete "name" "a"] = .ok (db, replies) ∧
      ¬ IndexSound db := by
  have hview : (executeAll (Engine.new (fun _ => none) ⟨[], [], 1⟩)
      [sampleTable, sampleInsert "-5" "a", sampleDelete "name" "a"]).map
        (fun r => sampleView (-5) r.1) = .ok (some [], some (some ⟨0, 0⟩)) := by
    decide +kernel
  obtain ⟨⟨db, replies⟩, hrun, hdb⟩ := Machine.map_eq_ok.mp hview
  refine ⟨db, replies, hrun, fun hsound => ?_⟩
  obtain ⟨info, hinfo⟩ := info_of_view hdb
  obtain ⟨tree, rows, db', htree, hrows, hfound⟩ := hsound _ info hinfo
  obtain ⟨rfl, hsearch⟩ := rows_of_view hdb hinfo htree hrows
  obtain ⟨k, rest, -, hmem⟩ := hfound (-5) ⟨0, 0⟩ hsearch
  cases hmem

end Engine

end MiniDB
