import MiniDB.Foundations.Dict
import MiniDB.Parser.Parser

/-!
# The catalog and the optimizer

`Catalog.h`, `Optimizer.h` and `Optimizer.cpp`: the metadata of the tables, and the plan of a
statement. The costs and row estimates of a plan, which no decision depends on, are left out.

## Main definitions

* `TableInfo`, `Catalog`: the metadata
* `PlanNode`, `optimize`: the plans
-/

namespace MiniDB

/-- Metadata for a table; the row count has 32 bits. -/
structure TableInfo where
  name : Str
  schema : Schema
  fileId : ℤ
  rowCount : ℕ
  hasIndex : Bool
  indexFileId : ℤ

/-- The tables by their names. -/
abbrev Catalog := Dict Str TableInfo

namespace Catalog

/-- `Catalog::getTable`. -/
def getTable (catalog : Catalog) (name : Str) : Option TableInfo := catalog.find? name

/-- `Catalog::tableExists`. -/
def tableExists (catalog : Catalog) (name : Str) : Bool := (catalog.find? name).isSome

/-- `Catalog::addTable`. -/
def addTable (catalog : Catalog) (name : Str) (schema : Schema) (fileId : ℤ) : Catalog :=
  catalog.insert name ⟨name, schema, fileId, 0, false, -1⟩

/-- An assignment to the `rowCount` of a table. -/
def setRowCount (catalog : Catalog) (name : Str) (count : ℕ) : Catalog :=
  match catalog.find? name with
  | none => catalog
  | some info => catalog.insert name { info with rowCount := count % 2 ^ 32 }

/-- The row count is all that the assignment changes. -/
theorem map_setRowCount {α : Type} {g : TableInfo → α}
    (hg : ∀ info n, g { info with rowCount := n } = g info) (catalog : Catalog) (name : Str) (n : ℕ)
    (name' : Str) :
    ((catalog.setRowCount name n).find? name').map g = (catalog.find? name').map g := by
  unfold setRowCount
  cases hinfo : catalog.find? name with
  | none => rfl
  | some info =>
    by_cases hname : name' = name
    · subst hname
      simp [hinfo, hg]
    · simp only [Dict.find?_insert_of_ne _ _ hname]

end Catalog

/-- The operators of a plan. -/
inductive PlanNodeType
  | seqScan
  | indexScan
  | nestedLoopJoin
  | hashJoin
  | filter
  | projection
  | insertOp
  | deleteOp
deriving DecidableEq, Repr

/-- A node of a plan. -/
inductive PlanNode
  | node (type : PlanNodeType) (tableName : Str) (predicate : Option WhereClause)
      (outputColumns : List Str) (selectAll : Bool) (insertValues : List Str)
      (left : Option PlanNode)

/-- The operator of a node. -/
def PlanNode.type : PlanNode → PlanNodeType
  | .node type .. => type

/-- The operator of the scan node of a `SELECT` plan: the node below a projection, or the node. -/
def PlanNode.scanType : PlanNode → PlanNodeType
  | .node .projection _ _ _ _ _ (some scan) => scan.type
  | .node type .. => type

namespace Optimizer

/-- `Optimizer::shouldUseIndex`. -/
def shouldUseIndex (catalog : Catalog) (tableName column : Str) : Bool :=
  match catalog.getTable tableName with
  | none => false
  | some info =>
    info.hasIndex && match info.schema with
      | [] => false
      | col :: _ => col.name = column && 50 < info.rowCount

/-- The `WHERE` clause of a statement, if it has one. -/
def predicateOf (stmt : Statement) : Option WhereClause :=
  if stmt.hasWhere then some stmt.where_ else none

/-- `Optimizer::optimizeSelect`. -/
def optimizeSelect (catalog : Catalog) (stmt : Statement) : PlanNode :=
  let scanType := if stmt.hasWhere && shouldUseIndex catalog stmt.tableName stmt.where_.column
    then PlanNodeType.indexScan else .seqScan
  if !stmt.selectAll && !stmt.selectColumns.isEmpty then
    .node .projection [] none stmt.selectColumns false []
      (some (.node scanType stmt.tableName (predicateOf stmt) [] false [] none))
  else .node scanType stmt.tableName (predicateOf stmt) [] stmt.selectAll [] none

/-- `Optimizer::optimizeInsert`. -/
def optimizeInsert (stmt : Statement) : PlanNode :=
  .node .insertOp stmt.tableName none [] false stmt.values none

/-- `Optimizer::optimizeDelete`. -/
def optimizeDelete (stmt : Statement) : PlanNode :=
  .node .deleteOp stmt.tableName (predicateOf stmt) [] false []
    (some (.node .seqScan stmt.tableName (predicateOf stmt) [] false [] none))

/-- `Optimizer::optimize`. -/
def optimize (catalog : Catalog) (stmt : Statement) : Option PlanNode :=
  match stmt.type with
  | .select => some (optimizeSelect catalog stmt)
  | .insert => some (optimizeInsert stmt)
  | .delete => some (optimizeDelete stmt)
  | .createTable => none

end Optimizer

end MiniDB
