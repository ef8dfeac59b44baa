import MiniDB.Engine.Statements

/-!
# What every statement keeps

The trees that an engine has are maps, whatever the statements were, and a property of the entries
of the catalog stays when it holds of new tables and survives the assignments to the row count.
Nothing is assumed about the rows here, so this is about every engine that statements lead to.

## Main definitions

* `Engine.Sane P`: every tree is a map, and every table of the catalog has `P`
* `Engine.Lasting P`, `Engine.Counting P`: new tables have `P`, and the assignments to the row count
  by `DELETE`, respectively by `INSERT`, keep it

## Main results

* `Engine.Sane.execute`: every statement
* `Engine.sane_of_run`: every run of statements
-/

namespace MiniDB.Engine

open Program

/-- Every tree is a map, and every table of the catalog has `P`. -/
structure Sane (P : TableInfo → Prop) (db : Engine) : Prop where
  trees : ∀ {name tree}, db.indexes.find? name = some tree → ∃ m, tree.Models m
  infos : ∀ {name info}, db.catalog.find? name = some info → P info

/-- New tables have `P`, and it stays when `DELETE` assigns to the row count. -/
structure Lasting (P : TableInfo → Prop) : Prop where
  created : ∀ name schema fileId, P ⟨name, schema, fileId, 0, false, -1⟩
  deleted : ∀ {info old} n, P info → P old → P { old with
    rowCount := (if n ≤ info.rowCount then info.rowCount - n else 0) % 2 ^ 32 }

/-- `P` stays when `INSERT` assigns to the row count. -/
def Counting (P : TableInfo → Prop) : Prop := ∀ {info old}, P info → P old →
  P { old with rowCount := (info.rowCount + 1) % 2 ^ 32 }

namespace Sane

variable {P : TableInfo → Prop} {db : Engine} {α : Type}

theorem new (disk : Str → Option File) (logMgr : LogManager) :
    Sane P (Engine.new disk logMgr) where
  trees h := by cases h
  infos h := by cases h

theorem setIndex (h : Sane P db) {name : Str} {tree : BPlusTree} {m : Finmap fun _ : ℤ => RID}
    (hm : tree.Models m) : Sane P { db with indexes := db.indexes.insert name tree } where
  trees := by
    intro name' tree' htree
    rw [Dict.find?_insert] at htree
    split at htree
    case isTrue => exact ⟨m, Option.some.inj htree ▸ hm⟩
    case isFalse => exact h.trees htree
  infos := h.infos

theorem setRowCount (h : Sane P db) (name : Str) {n : ℕ}
    (hn : ∀ {old}, P old → P { old with rowCount := n % 2 ^ 32 }) :
    Sane P { db with catalog := db.catalog.setRowCount name n } where
  trees := h.trees
  infos := by
    intro name' info hinfo
    have hfind : (db.catalog.setRowCount name n).find? name' = some info := hinfo
    unfold Catalog.setRowCount at hfind
    cases hold : db.catalog.find? name with
    | none =>
      rw [hold] at hfind
      exact h.infos hfind
    | some old =>
      rw [hold] at hfind
      simp only [Dict.find?_insert] at hfind
      split at hfind
      case isTrue =>
        have hP := hn (h.infos hold)
        rw [← Option.some.inj hfind]
        exact hP
      case isFalse => exact h.infos hfind

theorem onStorage (x : Program Storage Fault α) : Preserves (Sane P) (onStorage x) :=
  Preserves.zoom fun _ h => ⟨h.trees, h.infos⟩

/-! ## The executors -/

theorem insertExecutor (hP : Counting P) (tableName : Str) {info : TableInfo} (hinfo : P info)
    (values : List Value) : Preserves (Sane P) (insertExecutor tableName info values) := by
  refine (onStorage _).bind fun rid => ?_
  -- The tree that is put back is the one that was found with the row's key in it.
  refine Preserves.get_bind fun db h => ?_
  have hcount : Preserves (Sane P) (update fun db : Engine =>
      { db with catalog := db.catalog.setRowCount tableName (info.rowCount + 1) }) :=
    Preserves.modify fun _ h => h.setRowCount tableName (hP hinfo)
  split
  case h_1 _ tree key rest htree =>
    obtain ⟨m, hm⟩ := h.trees htree
    obtain ⟨tree', hins, hm', -⟩ := hm.insert_spec key.toInt rid
    rw [hins]
    exact Preserves.bind (Preserves.modify fun _ hdb => hdb.setIndex hm') (fun _ => hcount) db h
  case h_2 => exact hcount db h

theorem deleteOne (tableName : Str) (fileId : ℤ) (entry : RID × Int32) :
    Preserves (Sane P) (deleteOne tableName fileId entry) := by
  refine (onStorage _).bind fun _ => Preserves.get_bind fun db h => ?_
  split
  case h_1 tree htree =>
    obtain ⟨m, hm⟩ := h.trees htree
    split
    case isTrue =>
      obtain ⟨hfault, hok⟩ := hm.remove_spec entry.2.toInt
      cases hs : tree.soleChildUnderflow entry.2.toInt with
      | true =>
        rw [hfault hs]
        exact h
      | false =>
        obtain ⟨tree', hrem, hm', -⟩ := hok hs
        rw [hrem]
        exact h.setIndex hm'
    case isFalse => exact h
  case h_2 => exact h

theorem deleteExecutor (hP : Lasting P) (tableName : Str) {info : TableInfo} (hinfo : P info)
    (predicate : Predicate) : Preserves (Sane P) (deleteExecutor tableName info predicate) := by
  refine (onStorage _).bind fun toDelete => Preserves.bind ?_ fun _ => Preserves.bind ?_ fun _ =>
    Preserves.pure _
  · exact Preserves.foldlM (fun _ entry => deleteOne tableName info.fileId entry) toDelete ()
  · exact Preserves.modify fun _ h => h.setRowCount tableName (hP.deleted _ hinfo)

theorem beginTxn : Preserves (Sane P) beginTxn :=
  Preserves.get.bind fun _ => Preserves.bind (Preserves.modify fun _ h => ⟨h.trees, h.infos⟩)
    fun _ => Preserves.pure _

theorem commitTxn (txnId : Int32) : Preserves (Sane P) (commitTxn txnId) :=
  Preserves.modify fun _ h => ⟨h.trees, h.infos⟩

theorem countRow (hP : Counting P) (tableName : Str) : Preserves (Sane P) (countRow tableName) := by
  refine Preserves.modify fun db h => ?_
  split
  case h_1 info hinfo => exact h.setRowCount tableName (hP (h.infos hinfo))
  case h_2 => exact h

/-! ## The statements -/

theorem executeCreateTable (hP : Lasting P) (stmt : Statement) :
    Preserves (Sane P) (executeCreateTable stmt) := by
  refine Preserves.get.bind fun db => Preserves.ite (Preserves.pure _) ?_
  refine (onStorage _).bind fun fileId => Preserves.bind (Preserves.modify fun db h => ?_) fun _ =>
    Preserves.bind (Preserves.modify fun db h => ?_) fun _ => Preserves.pure _
  · refine ⟨h.trees, fun {name info} hinfo => ?_⟩
    have hfind : (db.catalog.addTable stmt.tableName (schemaOf stmt.columns) fileId).find? name =
        some info := hinfo
    rw [Catalog.addTable, Dict.find?_insert] at hfind
    split at hfind
    case isTrue => exact Option.some.inj hfind ▸ hP.created ..
    case isFalse => exact h.infos hfind
  · exact h.setIndex (BPlusTree.models_new (by decide))

theorem executeInsert (hP : Counting P) (stmt : Statement) :
    Preserves (Sane P) (executeInsert stmt) := by
  refine Preserves.get_bind fun db h => ?_
  split
  case h_1 => exact h
  case h_2 info hinfo =>
    have hinfo : P info := h.infos hinfo
    refine Preserves.ite (Preserves.pure _) ?_ db h
    split
    · exact Preserves.pure _
    · refine beginTxn.bind fun txnId => (insertExecutor hP _ hinfo _).bind fun _ => ?_
      exact (commitTxn txnId).bind fun _ => (countRow hP _).bind fun _ => Preserves.pure _

theorem executeSelect (stmt : Statement) : Preserves (Sane P) (executeSelect stmt) := by
  refine Preserves.get.bind fun db => ?_
  split
  · exact Preserves.pure _
  · split
    · exact Preserves.pure _
    · refine (onStorage _).bind fun tuples => ?_
      split <;> exact Preserves.pure _

theorem executeDelete (hP : Lasting P) (stmt : Statement) :
    Preserves (Sane P) (executeDelete stmt) := by
  refine Preserves.get_bind fun db h => ?_
  split
  case h_1 => exact h
  case h_2 info hinfo =>
    split
    case h_1 => exact h
    case h_2 =>
      refine Preserves.bind beginTxn (fun txnId => ?_) db h
      refine (deleteExecutor hP _ (h.infos hinfo) _).bind fun _ => ?_
      exact (commitTxn txnId).bind fun _ => Preserves.pure _

/-- A statement keeps what new tables have and the assignments to the row count keep. -/
theorem execute (hP : Lasting P) {stmt : Statement} (hins : stmt.type = .insert → Counting P) :
    Preserves (Sane P) (execute stmt) := by
  rw [execute_eq]
  cases htype : stmt.type with
  | createTable => exact executeCreateTable hP stmt
  | insert => exact executeInsert (hins htype) stmt
  | select => exact executeSelect stmt
  | delete => exact executeDelete hP stmt

theorem step (hP : Lasting P) {stmt : Statement} (hins : stmt.type = .insert → Counting P)
    (h : Sane P db) {db' : Engine} {reply : Reply} (hstep : step db stmt = .ok (db', reply)) :
    Sane P db' := by
  have hkept := execute hP hins db h
  rwa [run_of_step hstep] at hkept

end Sane

/-- Every engine that statements lead to. -/
theorem sane_of_run {P : TableInfo → Prop} (hP : Lasting P) (hins : Counting P)
    {disk : Str → Option File} {logMgr : LogManager} {stmts : List Statement} {db : Engine}
    {replies : List Reply}
    (hrun : executeAll (Engine.new disk logMgr) stmts = .ok (db, replies)) : Sane P db :=
  Machine.run_invariant (fun hstep h => h.step hP (fun _ => hins) hstep) hrun
    (Sane.new disk logMgr)

end MiniDB.Engine
