import MiniDB.Engine.Scans
import MiniDB.Foundations.Pull

/-!
# Executor trees

`SeqScanExecutor`, `FilterExecutor`, `ProjectionExecutor` and `NestedLoopJoinExecutor` of
`Executor.cpp`, as trees of distinct executors. An executor is what its constructor is given; its
fields that change are its state, whose type follows the tree. A loop over a child ends after the
rows the child has left.

A tree denotes a list of rows over the relations of the tables: selections, projections to the first
column of each name, and joins on the first columns of two names with the left rows outermost. A
tree that names only tables and columns that exist hands out exactly these rows, and none of its
calls faults.

## Main definitions

* `Executor`, `Executor.State`: the executors of a tree, and their fields
* `Executor.init`, `Executor.next`, `Executor.outputSchema`: their methods
* `Relation`: a table as an ordered list of rows of its schema
* `Executor.denote`, `Executor.schema`: the rows and the columns a tree denotes
* `Executor.Names`: the tables and columns of a tree exist
* `Engine.Serves R db`: the storage of the engine holds the relations

## Main results

* `Executor.computes`: a tree hands out what it denotes
-/

namespace MiniDB

open Program

/-! ## Values and columns -/

/-- `Tuple::getValue`. The `std::out_of_range` it throws is a runtime error here. -/
def Tuple.getValue (tuple : Tuple) (index : ℕ) : Except Fault Value :=
  match tuple[index]? with
  | some v => .ok v
  | none => .error (.runtimeError (lit "Tuple index out of range"))

/-- `Schema::getColumn`. The `std::out_of_range` it throws is a runtime error here. -/
def Schema.getColumn (schema : Schema) (index : ℕ) : Except Fault Column :=
  match schema[index]? with
  | some col => .ok col
  | none => .error (.runtimeError (lit "Column index out of range"))

/-! ## The executors -/

/-- The executors of a tree, each with what its constructor is given. -/
inductive Executor
  | seqScan (tableName : Str) (predicate : Option (Tuple → Bool))
  | filter (child : Executor) (predicate : Tuple → Bool)
  | projection (child : Executor) (columns : List Str)
  | nestedLoopJoin (left right : Executor) (leftCol rightCol : Str)

/-- The fields of a `SeqScanExecutor` that `init` and `next` change. -/
structure SeqScanState where
  schema : Schema
  fileId : ℤ
  results : List Tuple
  currentIdx : ℕ

/-- The fields of a `ProjectionExecutor`, with those of its child. -/
structure ProjectionState (σ : Type) where
  child : σ
  outputSchema : Schema
  columnIndices : List ℕ

/-- The fields of a `NestedLoopJoinExecutor`, with those of its children. The tuples of the two
sides are only used within `init`. -/
structure JoinState (σ τ : Type) where
  left : σ
  right : τ
  outputSchema : Schema
  joinResults : List Tuple
  currentIdx : ℕ

/-- The test of an optional predicate. -/
def satisfies (predicate : Option (Tuple → Bool)) (tuple : Tuple) : Bool :=
  match predicate with
  | none => true
  | some test => test tuple

/-- The body of the two loops of `NestedLoopJoinExecutor::init`: the tuples are concatenated when
their values agree. -/
def joinPair (leftIdx rightIdx : ℕ) (lTuple : Tuple) (results : List Tuple) (rTuple : Tuple) :
    Except Fault (List Tuple) := do
  if (← lTuple.getValue leftIdx) = (← rTuple.getValue rightIdx) then
    return results ++ [lTuple ++ rTuple]
  else return results

/-- The two loops of `NestedLoopJoinExecutor::init`. -/
def joinTuples (leftIdx rightIdx : ℕ) (leftTuples rightTuples : List Tuple) :
    Except Fault (List Tuple) :=
  leftTuples.foldlM (fun results lTuple =>
    rightTuples.foldlM (joinPair leftIdx rightIdx lTuple) results) []

/-- The body of the loop of `ProjectionExecutor::init`. -/
def projectColumn (inputSchema : Schema) (found : List ℕ × Schema) (col : Str) :
    Except Fault (List ℕ × Schema) :=
  match inputSchema.findColumn col with
  | none => .error (.runtimeError (lit "Projection: column not found: " ++ col))
  | some idx => do
    let column ← inputSchema.getColumn idx
    return (found.1 ++ [idx], found.2 ++ [column])

/-- The loop of `ProjectionExecutor::init`: the indices of the columns, and the columns behind those
that the output schema has. -/
def projectColumns (inputSchema : Schema) (columns : List Str) (outputSchema : Schema) :
    Except Fault (List ℕ × Schema) :=
  columns.foldlM (projectColumn inputSchema) ([], outputSchema)

namespace Executor

/-- The fields of the executors of a tree. -/
def State : Executor → Type
  | .seqScan _ _ => SeqScanState
  | .filter child _ => child.State
  | .projection child _ => ProjectionState child.State
  | .nestedLoopJoin left right _ _ => JoinState left.State right.State

/-- The fields as the constructors leave them. -/
def construct : (e : Executor) → e.State
  | .seqScan _ _ => SeqScanState.mk [] (-1) [] 0
  | .filter child _ => child.construct
  | .projection child _ => ProjectionState.mk child.construct [] []
  | .nestedLoopJoin left right _ _ => JoinState.mk left.construct right.construct [] [] 0

/-- `Executor::outputSchema`. -/
def outputSchema : (e : Executor) → e.State → Schema
  | .seqScan _ _, (s : SeqScanState) => s.schema
  | .filter child _, s => child.outputSchema s
  | .projection _ _, (s : ProjectionState _) => s.outputSchema
  | .nestedLoopJoin _ _ _ _, (s : JoinState _ _) => s.outputSchema

/-- The number of rows an executor has left, at most. -/
def remaining : (e : Executor) → e.State → ℕ
  | .seqScan _ _, (s : SeqScanState) => s.results.length - s.currentIdx
  | .filter child _, s => child.remaining s
  | .projection child _, (s : ProjectionState _) => child.remaining s.child
  | .nestedLoopJoin _ _ _ _, (s : JoinState _ _) => s.joinResults.length - s.currentIdx

/-- `Executor::next`. -/
def next : (e : Executor) → Pull.Next e.State Fault Tuple
  | .seqScan _ _, (s : SeqScanState) =>
    let (tuple, currentIdx) := Pull.advance s.results s.currentIdx
    .ok (tuple, { s with currentIdx := currentIdx })
  | .filter child predicate, s =>
    Pull.nextWhere .fuel child.next predicate (child.remaining s + 1) s
  | .projection child _, (s : ProjectionState _) => do
    let (tuple, childState) ← Pull.nextMap child.next
      (fun inputTuple => s.columnIndices.mapM fun idx => Tuple.getValue inputTuple idx) s.child
    return (tuple, { s with child := childState })
  | .nestedLoopJoin _ _ _ _, (s : JoinState _ _) =>
    let (tuple, currentIdx) := Pull.advance s.joinResults s.currentIdx
    .ok (tuple, { s with currentIdx := currentIdx })

/-- `Executor::init`. -/
def init : (e : Executor) → e.State → Program Engine Fault e.State
  | .seqScan tableName predicate, _ => do
    match (← Program.get).catalog.getTable tableName with
    | none => Program.throw (.runtimeError (lit "SeqScan: table not found: " ++ tableName))
    | some info =>
      let results ← Engine.seqScan info (some fun tuple => .ok (satisfies predicate tuple))
      return SeqScanState.mk info.schema info.fileId results 0
  | .filter child _, s => child.init s
  | .projection child columns, (s : ProjectionState _) => do
    let childState ← child.init s.child
    let (columnIndices, outputSchema) ← Program.lift
      (projectColumns (child.outputSchema childState) columns s.outputSchema)
    return ProjectionState.mk childState outputSchema columnIndices
  | .nestedLoopJoin left right leftCol rightCol, (s : JoinState _ _) => do
    let leftState ← left.init s.left
    let rightState ← right.init s.right
    let (leftTuples, leftState) ← Program.lift
      (Pull.drain .fuel left.next (left.remaining leftState + 1) leftState [])
    let (rightTuples, rightState) ← Program.lift
      (Pull.drain .fuel right.next (right.remaining rightState + 1) rightState [])
    let leftSchema := left.outputSchema leftState
    let rightSchema := right.outputSchema rightState
    let outputSchema := s.outputSchema ++ leftSchema ++ rightSchema
    match leftSchema.findColumn leftCol, rightSchema.findColumn rightCol with
    | some leftIdx, some rightIdx =>
      let joinResults ← Program.lift (joinTuples leftIdx rightIdx leftTuples rightTuples)
      return JoinState.mk leftState rightState outputSchema joinResults 0
    | _, _ => Program.throw (.runtimeError (lit "Join: column not found for join predicate"))

end Executor

/-! ## What a tree denotes -/

/-- A table: its rows in the order of their record identifiers, all of its schema. -/
structure Relation where
  schema : Schema
  rows : List (RID × Tuple)
  sorted : rows.Pairwise fun a b => a.1.Lt b.1
  typed : ∀ e ∈ rows, e.2.matchesSchema schema = true

/-- The tables by their names. -/
abbrev Relations := Str → Option Relation

/-- The value of a row in the first column of the name. -/
def Schema.valueOf (schema : Schema) (name : Str) (row : Tuple) : Option Value :=
  ((schema.zip row).find? fun e => e.1.name = name).map Prod.snd

namespace Executor

/-- The columns a tree denotes. -/
def schema (R : Relations) : Executor → Schema
  | .seqScan tableName _ => ((R tableName).map Relation.schema).getD []
  | .filter child _ => child.schema R
  | .projection child columns =>
    columns.filterMap fun name => (child.schema R).find? fun col => col.name = name
  | .nestedLoopJoin left right _ _ => left.schema R ++ right.schema R

/-- The rows a tree denotes. -/
def denote (R : Relations) : Executor → List Tuple
  | .seqScan tableName predicate =>
    (((R tableName).map fun r => r.rows.map Prod.snd).getD []).filter (satisfies predicate)
  | .filter child predicate => (child.denote R).filter predicate
  | .projection child columns =>
    (child.denote R).map fun row => columns.filterMap fun name => (child.schema R).valueOf name row
  | .nestedLoopJoin left right leftCol rightCol =>
    (left.denote R).flatMap fun row => ((right.denote R).filter fun row' =>
      (left.schema R).valueOf leftCol row = (right.schema R).valueOf rightCol row').map (row ++ ·)

/-- The tables and the columns that the tree names are there. -/
def Names (R : Relations) : Executor → Prop
  | .seqScan tableName _ => (R tableName).isSome
  | .filter child _ => child.Names R
  | .projection child columns => child.Names R ∧
    ∀ name ∈ columns, name ∈ (child.schema R).map Column.name
  | .nestedLoopJoin left right leftCol rightCol => left.Names R ∧ right.Names R ∧
    leftCol ∈ (left.schema R).map Column.name ∧ rightCol ∈ (right.schema R).map Column.name

end Executor

/-- The engine's catalog and storage hold the relations. -/
def Engine.Serves (R : Relations) (db : Engine) : Prop :=
  ∃ H, Stores H db.storage ∧ ∀ {name r}, R name = some r →
    ∃ info h, db.catalog.getTable name = some info ∧ info.schema = r.schema ∧
      H info.fileId = some h ∧
      h.pages.live = r.rows.map (fun e => (e.1, serializeTuple e.2)) ∧
      ∀ e ∈ r.rows, Storable (serializeTuple e.2)

/-- A table of the engine as a relation. -/
def Table.relation (t : Table) (ht : t.Typed) : Relation where
  schema := t.schema
  rows := t.rows
  sorted := List.pairwise_map.mpr Heap.live_sorted
  typed := by
    intro e he
    obtain ⟨bytes, hmem, rfl⟩ := List.mem_map.mp he
    exact (ht.rowOk hmem).1.types

/-- An engine that holds tables serves them as relations. -/
theorem Engine.Holds.serves {T : Tables} {db : Engine} (h : Engine.Holds T db) :
    ∃ R : Relations, Engine.Serves R db ∧ ∀ {name t}, T name = some t →
      ∃ r, R name = some r ∧ r.schema = t.schema ∧ r.rows = t.rows := by
  obtain ⟨H, h⟩ := h
  refine ⟨fun name => (T name).pmap Table.relation fun t ht => h.typed ht, ⟨H, h.stores, ?_⟩, ?_⟩
  · intro name r hr
    obtain ⟨t, -, ht, rfl⟩ := Option.pmap_eq_some_iff.mp hr
    obtain ⟨info, tree, hinfo, hschema, hfile, -, -⟩ := h.linked ht
    have htyped := h.typed ht
    refine ⟨info, _, hinfo, hschema, hfile, ?_, ?_⟩
    · show t.heap.live = (t.heap.live.map _).map _
      rw [List.map_map]
      refine (List.map_id _).symm.trans (List.map_congr_left fun e he => ?_)
      exact Prod.ext rfl (htyped.rowOk he).2.symm
    · intro e he
      obtain ⟨bytes, hmem, rfl⟩ := List.mem_map.mp he
      exact (htyped.rowOk hmem).1.fits
  · intro name t ht
    exact ⟨t.relation (h.typed ht), by simp [ht], rfl, rfl⟩

/-! ## Columns by their names -/

/-- The first column of a name: its position, and the value of a row there. -/
theorem Schema.column_of_name {name : Str} : ∀ {schema : Schema},
    name ∈ schema.map Column.name → ∃ i col, schema.findColumn name = some i ∧
      schema[i]? = some col ∧ schema.find? (fun col => col.name = name) = some col ∧
      ∀ row : Tuple, row.matchesSchema schema = true →
        ∃ v, row[i]? = some v ∧ schema.valueOf name row = some v ∧ v.type = col.type
  | [], h => by cases h
  | c :: schema, h => by
    by_cases hc : c.name = name
    · refine ⟨0, c, by simp [findColumn, List.findIdx?_cons, hc], rfl, by simp [hc], ?_⟩
      intro row hrow
      have htypes : row.map Value.type = (c :: schema).map Column.type := of_decide_eq_true hrow
      cases row with
      | nil => cases htypes
      | cons v row => exact ⟨v, rfl, by simp [valueOf, hc], (List.cons.inj htypes).1⟩
    · have hmem : name ∈ schema.map Column.name :=
        (List.mem_cons.mp h).resolve_left fun heq => hc heq.symm
      obtain ⟨i, col, hfind, hcol, hfirst, hrows⟩ := column_of_name hmem
      refine ⟨i + 1, col, ?_, hcol, by simp [hc, hfirst], ?_⟩
      · unfold findColumn at hfind ⊢
        simp [List.findIdx?_cons, hc, hfind]
      · intro row hrow
        have htypes : row.map Value.type = (c :: schema).map Column.type := of_decide_eq_true hrow
        cases row with
        | nil => cases htypes
        | cons v row =>
          have htail : Tuple.matchesSchema row schema = true :=
            decide_eq_true (List.cons.inj htypes).2
          obtain ⟨w, hw, hvalue, htype⟩ := hrows row htail
          refine ⟨w, hw, ?_, htype⟩
          simpa [valueOf, hc] using hvalue

namespace Executor

variable {R : Relations}

/-- The rows a tree denotes have its columns. -/
theorem denote_typed : ∀ (e : Executor), e.Names R → ∀ row ∈ e.denote R,
    row.matchesSchema (e.schema R) = true
  | .seqScan tableName predicate, he, row, hrow => by
    obtain ⟨r, hr⟩ := Option.isSome_iff_exists.mp he
    simp only [denote, schema, hr, Option.map_some, Option.getD_some] at hrow ⊢
    obtain ⟨entry, hentry, rfl⟩ := List.mem_map.mp (List.mem_of_mem_filter hrow)
    exact r.typed entry hentry
  | .filter child predicate, he, row, hrow => child.denote_typed he row (List.mem_of_mem_filter hrow)
  | .projection child columns, ⟨hchild, hcols⟩, row, hrow => by
    obtain ⟨row', hrow', rfl⟩ := List.mem_map.mp hrow
    have htyped := child.denote_typed hchild row' hrow'
    refine decide_eq_true ?_
    simp only [schema]
    clear hrow
    induction columns with
    | nil => rfl
    | cons name columns ih =>
      obtain ⟨i, col, -, -, hfirst, hvalue⟩ :=
        Schema.column_of_name (hcols name List.mem_cons_self)
      obtain ⟨v, -, hv, htype⟩ := hvalue row' htyped
      have htail := ih fun name' hname' => hcols name' (List.mem_cons_of_mem _ hname')
      simp only [List.filterMap_cons, hv, hfirst, List.map_cons, htype, htail]
  | .nestedLoopJoin left right leftCol rightCol, ⟨hl, hr, _, _⟩, row, hrow => by
    obtain ⟨a, ha, hrow⟩ := List.mem_flatMap.mp hrow
    obtain ⟨b, hb, rfl⟩ := List.mem_map.mp hrow
    have hleft : a.map Value.type = (left.schema R).map Column.type :=
      of_decide_eq_true (left.denote_typed hl a ha)
    have hright : b.map Value.type = (right.schema R).map Column.type :=
      of_decide_eq_true (right.denote_typed hr b (List.mem_of_mem_filter hb))
    exact decide_eq_true (by simp only [schema, List.map_append, hleft, hright])

/-! ## The calls -/

/-- Every row takes something off what is left. -/
theorem next_shrinks : ∀ (e : Executor), Pull.Shrinks e.next e.remaining
  | .seqScan _ _, s, row, s', h => by
    obtain ⟨hrow, rfl⟩ := Prod.mk.inj (Except.ok.inj h)
    exact Pull.length_sub_advance_lt hrow
  | .filter child predicate, s, row, s', h => child.next_shrinks.nextWhere_lt .fuel predicate h
  | .projection child _, (s : ProjectionState _), row, s', h => by
    obtain ⟨⟨o, c⟩, hnext, heq⟩ := Machine.bind_eq_ok.mp h
    obtain ⟨rfl, rfl⟩ := Prod.mk.inj (Except.ok.inj heq)
    exact child.next_shrinks.nextMap _ _ _ _ hnext
  | .nestedLoopJoin _ _ _ _, s, row, s', h => by
    obtain ⟨hrow, rfl⟩ := Prod.mk.inj (Except.ok.inj h)
    exact Pull.length_sub_advance_lt hrow

/-- No call changes the output schema. -/
theorem next_outputSchema : ∀ (e : Executor), Pull.Keeps e.next e.outputSchema
  | .seqScan _ _, s, o, s', h => by
    obtain ⟨-, rfl⟩ := Prod.mk.inj (Except.ok.inj h)
    rfl
  | .filter child predicate, s, o, s', h => child.next_outputSchema.nextWhere .fuel predicate h
  | .projection child _, (s : ProjectionState _), o, s', h => by
    obtain ⟨⟨o', c⟩, -, heq⟩ := Machine.bind_eq_ok.mp h
    obtain ⟨-, rfl⟩ := Prod.mk.inj (Except.ok.inj heq)
    rfl
  | .nestedLoopJoin _ _ _ _, s, o, s', h => by
    obtain ⟨-, rfl⟩ := Prod.mk.inj (Except.ok.inj h)
    rfl

/-- `ProjectionExecutor::init` finds every column. -/
theorem foldlM_projectColumn {schema : Schema} : ∀ {columns : List Str},
    (∀ name ∈ columns, name ∈ schema.map Column.name) → ∀ (indices : List ℕ) (out : Schema),
    columns.foldlM (projectColumn schema) (indices, out) =
      .ok (indices ++ columns.filterMap schema.findColumn,
        out ++ columns.filterMap fun name => List.find? (fun col => col.name = name) schema)
  | [], _, indices, out => by simp
  | name :: columns, h, indices, out => by
    obtain ⟨i, col, hfind, hcol, hfirst, -⟩ := Schema.column_of_name (h name List.mem_cons_self)
    have hstep : projectColumn schema (indices, out) name = .ok (indices ++ [i], out ++ [col]) := by
      simp only [projectColumn, hfind, Schema.getColumn, hcol]
      rfl
    rw [List.foldlM_cons, hstep, Machine.ok_bind,
      foldlM_projectColumn fun name' hname' => h name' (List.mem_cons_of_mem _ hname')]
    simp only [List.filterMap_cons, hfind, hfirst, List.append_assoc, List.singleton_append]

/-- `ProjectionExecutor::next` reads the columns that `init` has found. -/
theorem mapM_getValue {schema : Schema} {row : Tuple} (hrow : row.matchesSchema schema = true) :
    ∀ {columns : List Str}, (∀ name ∈ columns, name ∈ schema.map Column.name) →
      (columns.filterMap schema.findColumn).mapM (fun idx => row.getValue idx) =
        .ok (columns.filterMap fun name => schema.valueOf name row)
  | [], _ => rfl
  | name :: columns, h => by
    obtain ⟨i, col, hfind, -, -, hvalue⟩ := Schema.column_of_name (h name List.mem_cons_self)
    obtain ⟨v, hv, hname, -⟩ := hvalue row hrow
    have hget : row.getValue i = .ok v := by rw [Tuple.getValue, hv]
    have htail := mapM_getValue hrow fun name' hname' => h name' (List.mem_cons_of_mem _ hname')
    simp only [List.filterMap_cons, hfind, hname, List.mapM_cons, hget, htail, Machine.ok_bind,
      Machine.pure_eq_ok]

/-- The loops of `NestedLoopJoinExecutor::init` gather the pairs that agree. -/
theorem joinTuples_eq {leftSchema rightSchema : Schema} {leftCol rightCol : Str}
    (hleft : leftCol ∈ leftSchema.map Column.name) (hright : rightCol ∈ rightSchema.map Column.name)
    {lefts rights : List Tuple} (hl : ∀ row ∈ lefts, row.matchesSchema leftSchema = true)
    (hr : ∀ row ∈ rights, row.matchesSchema rightSchema = true) :
    ∃ i j, leftSchema.findColumn leftCol = some i ∧ rightSchema.findColumn rightCol = some j ∧
      joinTuples i j lefts rights = .ok (lefts.flatMap fun row => (rights.filter fun row' =>
        leftSchema.valueOf leftCol row = rightSchema.valueOf rightCol row').map (row ++ ·)) := by
  obtain ⟨i, _, hi, -, -, hivalue⟩ := Schema.column_of_name hleft
  obtain ⟨j, _, hj, -, -, hjvalue⟩ := Schema.column_of_name hright
  refine ⟨i, j, hi, hj, ?_⟩
  unfold joinTuples
  rw [Machine.foldlM_gather, List.nil_append]
  intro row hrow results
  obtain ⟨v, hv, hvalue, -⟩ := hivalue row (hl row hrow)
  refine Machine.foldlM_select (fun row' hrow' results => ?_) results
  obtain ⟨v', hv', hvalue', -⟩ := hjvalue row' (hr row' hrow')
  simp only [joinPair, Tuple.getValue, hv, hv', hvalue, hvalue', Machine.ok_bind, Option.some.injEq,
    decide_eq_true_eq]
  split <;> rfl

/-- `SeqScanExecutor::init` gathers the rows of the relation that satisfy the predicate. -/
theorem seqScan_spec {db : Engine} {info : TableInfo} {H : Heaps} {h : HeapFile} {r : Relation}
    (hs : Stores H db.storage) (hH : H info.fileId = some h) (hschema : info.schema = r.schema)
    (hlive : h.pages.live = r.rows.map fun e => (e.1, serializeTuple e.2))
    (hfits : ∀ e ∈ r.rows, Storable (serializeTuple e.2)) (predicate : Option (Tuple → Bool)) :
    wp (fun _ => False) (Engine.seqScan info (some fun tuple => .ok (satisfies predicate tuple)))
      (fun results db' => results = (r.rows.map Prod.snd).filter (satisfies predicate) ∧
        ∃ s, db' = { db with storage := s } ∧ Stores H s) db := by
  let test : RID × Str → Bool := fun e => satisfies predicate (rowOf r.schema e.2)
  let image : RID × Str → Tuple := fun e => rowOf r.schema e.2
  let gather : List Tuple → RID × Str → List Tuple :=
    fun rows e => if test e then rows ++ [image e] else rows
  have hcall : ∀ results rid bytes rest, (rid, bytes) ∈ h.pages.live →
      Engine.scanCallback info.schema (some fun tuple => .ok (satisfies predicate tuple)) results rid
        (bytes ++ rest) bytes.length = .ok (gather results (rid, bytes), true) := by
    intro results rid bytes rest hmem
    rw [hlive] at hmem
    obtain ⟨e, he, heq⟩ := List.mem_map.mp hmem
    obtain ⟨-, rfl⟩ := Prod.mk.inj heq
    have hrow : RowOk r.schema e.2 := ⟨r.typed e he, hfits e he⟩
    simp only [Engine.scanCallback, hschema, hrow.deserializeTuple, Machine.ok_bind, Engine.passes,
      gather, test, image, hrow.rowOf]
    split <;> rfl
  rw [Engine.seqScan, Engine.onStorage, wp_zoom]
  refine wp_mono (hs.scanTable hH [] hcall) ?_
  rintro results s ⟨rfl, hs'⟩
  refine ⟨?_, s, rfl, hs'⟩
  rw [show gather = fun rows e => if test e then rows ++ [image e] else rows from rfl,
    foldl_collect, List.nil_append, hlive]
  have hrows : r.rows.map (fun e => rowOf r.schema (serializeTuple e.2)) = r.rows.map Prod.snd :=
    List.map_congr_left fun e he => RowOk.rowOf ⟨r.typed e he, hfits e he⟩
  rw [← hrows, List.filter_map, List.filter_map, List.map_map]
  rfl

/-- One `init` of a tree makes it ready to hand out the rows it denotes. -/
theorem init_spec : ∀ (e : Executor) {db : Engine}, Engine.Serves R db → e.Names R →
    wp (fun _ => False) (e.init e.construct) (fun s db' => Engine.Serves R db' ∧
      e.outputSchema s = e.schema R ∧ Pull.Yields e.next s (e.denote R)) db
  | .seqScan tableName predicate, db, ⟨H, hs, hR⟩, he => by
    obtain ⟨r, hr⟩ := Option.isSome_iff_exists.mp he
    obtain ⟨info, h, hinfo, hschema, hH, hlive, hfits⟩ := hR hr
    simp only [init, wp_bind, wp_get, hinfo]
    refine wp_bind.mpr (wp_mono (seqScan_spec hs hH hschema hlive hfits predicate) ?_)
    rintro results _ ⟨rfl, s, rfl, hs'⟩
    refine ⟨⟨H, hs', hR⟩, ?_, ?_⟩
    · simp only [schema, hr, Option.map_some, Option.getD_some]
      exact hschema
    simp only [denote, hr, Option.map_some, Option.getD_some]
    exact Pull.Yields.of_advance (fun i => SeqScanState.mk info.schema info.fileId _ i) _
      (fun i => rfl) _ 0 rfl
  | .filter child predicate, db, hdb, he => by
    refine wp_mono (child.init_spec hdb he) ?_
    rintro s db' ⟨hdb', hschema, hrows⟩
    exact ⟨hdb', hschema, hrows.nextWhere .fuel predicate child.next_shrinks⟩
  | .projection child columns, db, hdb, ⟨hchild, hcols⟩ => by
    refine wp_bind.mpr (wp_mono (child.init_spec hdb hchild) ?_)
    rintro s db' ⟨hdb', hschema, hrows⟩
    have hfound : projectColumns (child.outputSchema s) columns [] =
        .ok (columns.filterMap (child.schema R).findColumn, (projection child columns).schema R) := by
      rw [hschema, projectColumns, foldlM_projectColumn hcols, List.nil_append, List.nil_append]
      rfl
    have hread : ∀ row ∈ child.denote R,
        (columns.filterMap (child.schema R).findColumn).mapM (fun idx => Tuple.getValue row idx) =
          .ok (columns.filterMap fun name => (child.schema R).valueOf name row) :=
      fun row hrow => mapM_getValue (child.denote_typed hchild row hrow) hcols
    refine wp_bind.mpr ?_
    show wp _ (Program.lift (projectColumns (child.outputSchema s) columns [])) _ db'
    rw [hfound, wp_lift_ok]
    refine ⟨hdb', rfl, ?_⟩
    refine (hrows.nextMap hread).embed (fun c => ProjectionState.mk c _ _) ?_
    intro c o c' hnext
    show (Pull.nextMap child.next _ c >>= _) = _
    rw [hnext]
    rfl
  | .nestedLoopJoin left right leftCol rightCol, db, hdb, ⟨hl, hr, hlcol, hrcol⟩ => by
    refine wp_bind.mpr (wp_mono (left.init_spec hdb hl) ?_)
    rintro sl db₁ ⟨hdb₁, hlschema, hlrows⟩
    refine wp_bind.mpr (wp_mono (right.init_spec hdb₁ hr) ?_)
    rintro sr db₂ ⟨hdb₂, hrschema, hrrows⟩
    -- Both sides are read to their ends, which leaves their schemas as they are.
    obtain ⟨sl', hldrain⟩ := hlrows.drain .fuel
      (Nat.lt_succ_of_le (hlrows.length_le left.next_shrinks)) []
    obtain ⟨sr', hrdrain⟩ := hrrows.drain .fuel
      (Nat.lt_succ_of_le (hrrows.length_le right.next_shrinks)) []
    have hlschema' := (left.next_outputSchema.drain .fuel hldrain).trans hlschema
    have hrschema' := (right.next_outputSchema.drain .fuel hrdrain).trans hrschema
    obtain ⟨i, j, hi, hj, hjoin⟩ := joinTuples_eq hlcol hrcol
      (left.denote_typed hl) (right.denote_typed hr)
    refine wp_bind.mpr ?_
    rw [hldrain, wp_lift_ok]
    refine wp_bind.mpr ?_
    rw [hrdrain, wp_lift_ok]
    simp only [List.nil_append, hlschema', hrschema', hi, hj, hjoin]
    refine ⟨hdb₂, rfl, ?_⟩
    exact Pull.Yields.of_advance (fun i => JoinState.mk sl' sr' _ _ i) _ (fun i => rfl) _ 0 rfl

/-- A tree of distinct executors over tables whose rows match their schemas, with every table and
column it names there: one `init` and then `next` until it returns false hand out the rows the tree
denotes, each with as many values as the output schema has columns and of their types, and no call
faults. -/
theorem computes (e : Executor) {db : Engine} (hdb : Engine.Serves R db) (he : e.Names R) :
    ∃ s db', (e.init e.construct).run db = (.ok s, db') ∧ Pull.Yields e.next s (e.denote R) ∧
      ∀ row ∈ e.denote R, row.length = (e.outputSchema s).columnCount ∧
        row.matchesSchema (e.outputSchema s) = true := by
  obtain ⟨s, db', hrun, -, hschema, hrows⟩ := wp_total.mp (e.init_spec hdb he)
  refine ⟨s, db', hrun, hrows, fun row hrow => ?_⟩
  have htyped := e.denote_typed he row hrow
  rw [hschema]
  exact ⟨Tuple.length_of_matchesSchema htyped, htyped⟩

/-- The table of the runs below joined with its own first column, on that column. -/
def sampleJoin : Executor :=
  .nestedLoopJoin (.seqScan (lit "t") none)
    (.projection (.filter (.seqScan (lit "t") none) fun _ => true) [lit "id"]) (lit "id") (lit "id")

/-- One row of a table, with its first column a second time. -/
theorem computes_join : ∃ (R : Relations) (db db' : Engine) (s : sampleJoin.State),
    Engine.Serves R db ∧ sampleJoin.Names R ∧
    (sampleJoin.init sampleJoin.construct).run db = (.ok s, db') ∧
    Pull.Yields sampleJoin.next s [[.int 1, .text (lit "a"), .int 1]] := by
  obtain ⟨db, replies, -, -, hrun, -⟩ := Engine.sample_observed
  have hfits : Machine.Along Tables.StorableRow Tables.exec (fun _ => none)
      [Engine.sampleTable, Engine.sampleInsert "1" "a"] :=
    .cons (fun h => absurd h (by decide)) (.cons Engine.sample_storable .nil)
  have h : Engine.Holds (Tables.exec (Tables.exec (fun _ => none) Engine.sampleTable).1
      (Engine.sampleInsert "1" "a")).1 db :=
    Machine.related_of_run Engine.step_refines (Engine.holds_new _ _) hfits hrun
  obtain ⟨R, hR, hrel⟩ := h.serves
  obtain ⟨r, hr, hschema, hrows⟩ := hrel Engine.sample_inserted
  rw [Engine.sample_rows] at hrows
  replace hschema : r.schema = [⟨lit "id", .int⟩, ⟨lit "name", .text⟩] := hschema
  have hnames : sampleJoin.Names R := by simp [sampleJoin, Names, schema, hr, hschema]
  obtain ⟨s, db', hinit, hyields, -⟩ := computes sampleJoin hR hnames
  have hdenote : sampleJoin.denote R = [[.int 1, .text (lit "a"), .int 1]] := by
    simp only [sampleJoin, denote, schema, hr, Option.map_some, Option.getD_some, hschema, hrows]
    decide
  rw [hdenote] at hyields
  exact ⟨R, db, db', s, hR, hnames, hinit, hyields⟩

end Executor

end MiniDB
