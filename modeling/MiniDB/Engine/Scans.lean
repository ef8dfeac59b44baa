import MiniDB.Engine.Indexes
import MiniDB.Engine.Reachable

/-!
# The two ways to read a table

`IndexScanExecutor` and `SeqScanExecutor` of `Executor.cpp`, and the optimizer's choice between
them. `IndexScanExecutor::init` looks its key up in the tree and keeps the record identifier; the
row is never fetched, and `next` hands out nothing. The catalog never learns of the trees that
`executeCreateTable` registers, so no plan has an index scan.

## Main definitions

* `Engine.IndexScan`, `Engine.SeqScan`: the executors after `init`
* `Engine.Drains`: the rows that a loop over `next` gets
* `Engine.WantsIndex`: the rule of the design document for an index scan

## Main results

* `Engine.indexScan_agrees_iff`: the two executors agree exactly on the keys that no row has
* `Engine.scan_choice_iff`: the plan follows the rule exactly when the rule asks for no index scan
-/

namespace MiniDB

open Program

/-! ## A scan in its callback -/

namespace PageManager

variable {α β : Type} {callback : α → RID → Str → ℕ → Except Fault (α × Bool)}
  {callback' : β → RID → Str → ℕ → Except Fault (β × Bool)} {f : α → β}

theorem scanSlots_map (h : ∀ a rid data len,
      callback' (f a) rid data len = (callback a rid data len).map (Prod.map f id))
    (page : Page) (p : ℕ) : ∀ (n i : ℕ) (a : α), scanSlots callback' page p n i (f a) =
      (scanSlots callback page p n i a).map (Prod.map f id)
  | 0, _, _ => rfl
  | n + 1, i, a => by
    simp only [scanSlots]
    cases page.slotLengths i with
    | error e => rfl
    | ok len =>
      simp only [Machine.ok_bind]
      split
      case isFalse => exact scanSlots_map h page p n (i + 1) a
      case isTrue =>
        cases page.slotDirectory i with
        | error e => rfl
        | ok offset =>
          simp only [Machine.ok_bind, h]
          cases callback a ⟨p, i⟩ (page.bytesFrom offset) len with
          | error e => rfl
          | ok r =>
            obtain ⟨a', go⟩ := r
            cases go with
            | true => exact scanSlots_map h page p n (i + 1) a'
            | false => rfl

/-- A callback that works on an image of what another one gathers, gathers the image. -/
theorem scanPages_map (h : ∀ a rid data len,
      callback' (f a) rid data len = (callback a rid data len).map (Prod.map f id))
    (fileId : ℤ) : ∀ (n p : ℕ) (a : α) (s : Storage),
      (scanPages callback' fileId n p (f a)).run s =
        (((scanPages callback fileId n p a).run s).1.map f,
          ((scanPages callback fileId n p a).run s).2)
  | 0, _, _, _ => rfl
  | n + 1, p, a, s => by
    unfold scanPages
    -- Both scans make the same calls of the pool; they differ in what they gather.
    rcases hfetch : (Storage.fetchPage fileId p false).run s with ⟨e | idx, s₁⟩
    · rw [run_bind_error hfetch, run_bind_error hfetch]
      rfl
    rw [run_bind_ok hfetch, run_bind_ok hfetch]
    have hdata : (Storage.pageData idx).run s₁ = (.ok (s₁.bufferPool.frames idx).data, s₁) := rfl
    rw [run_bind_ok hdata, run_bind_ok hdata, scanSlots_map h]
    cases hslots : scanSlots callback (s₁.bufferPool.frames idx).data p
        (Page.numSlots (s₁.bufferPool.frames idx).data) 0 a with
    | error e => rfl
    | ok r =>
      obtain ⟨a', go⟩ := r
      have hlift : ∀ {γ : Type} (c : γ), (Program.lift (.ok c) : Program Storage Fault γ).run s₁ =
          (.ok c, s₁) := fun _ => rfl
      rw [run_bind_ok (hlift _)]
      show ((Program.lift (.ok (Prod.map f id (a', go)))) >>= _).run s₁ = _
      rw [run_bind_ok (hlift _)]
      rcases hunpin : (Storage.unpinPage fileId p false).run s₁ with ⟨e | u, s₂⟩
      · rw [run_bind_error hunpin, run_bind_error hunpin]
        rfl
      rw [run_bind_ok hunpin, run_bind_ok hunpin]
      cases go with
      | true => exact scanPages_map h fileId n (p + 1) a' s₂
      | false => rfl

theorem scanTable_map (h : ∀ a rid data len,
      callback' (f a) rid data len = (callback a rid data len).map (Prod.map f id))
    (fileId : ℤ) (a : α) (s : Storage) : (scanTable callback' fileId (f a)).run s =
      (((scanTable callback fileId a).run s).1.map f, ((scanTable callback fileId a).run s).2) :=
  scanPages_map h fileId _ 0 a s

end PageManager

namespace Engine

/-- The catalog does not know of an index of the table. -/
def Unmarked (info : TableInfo) : Prop := info.hasIndex = false

/-- No table of a reachable engine is marked as having an index. -/
theorem unmarked_of_run {disk : Str → Option File} {logMgr : LogManager} {stmts : List Statement}
    {db : Engine} {replies : List Reply}
    (hrun : executeAll (Engine.new disk logMgr) stmts = .ok (db, replies)) : Sane Unmarked db :=
  sane_of_run ⟨fun _ _ _ => rfl, fun _ _ h => h⟩ (fun _ h => h) hrun

/-! ## The executors -/

/-- `IndexScanExecutor` after `init`. -/
structure IndexScan where
  schema : Schema
  fileId : ℤ
  resultRid : RID
  done : Bool

/-- `IndexScanExecutor::init`. -/
def indexScan (tableName : Str) (searchKey : Int32) : Program Engine Fault IndexScan := do
  let db ← Program.get
  match db.catalog.getTable tableName with
  | none => Program.throw (.runtimeError (lit "IndexScan: table not found: " ++ tableName))
  | some info =>
    match db.indexes.find? tableName with
    | none => return ⟨info.schema, info.fileId, ⟨0, 0⟩, true⟩
    | some tree =>
      match ← Program.lift (ofTree (tree.search searchKey.toInt)) with
      | none => return ⟨info.schema, info.fileId, ⟨0, 0⟩, true⟩
      | some rid => return ⟨info.schema, info.fileId, rid, false⟩

/-- `IndexScanExecutor::next`: the row of the record identifier is not fetched. -/
def IndexScan.next (scan : IndexScan) : Option Tuple × IndexScan :=
  if scan.done then (none, scan) else (none, { scan with done := true })

/-- `SeqScanExecutor` after `init`. -/
structure SeqScan where
  results : List Tuple
  currentIdx : ℕ

/-- `SeqScanExecutor::init` with the look-up of its table. -/
def seqScanOf (tableName : Str) (predicate : Predicate) : Program Engine Fault SeqScan := do
  let db ← Program.get
  match db.catalog.getTable tableName with
  | none => Program.throw (.runtimeError (lit "SeqScan: table not found: " ++ tableName))
  | some info =>
    let results ← seqScan info predicate
    return ⟨results, 0⟩

/-- `SeqScanExecutor::next`. -/
def SeqScan.next (scan : SeqScan) : Option Tuple × SeqScan :=
  match scan.results[scan.currentIdx]? with
  | none => (none, scan)
  | some tuple => (some tuple, { scan with currentIdx := scan.currentIdx + 1 })

/-- The rows that a loop over `next` gets until it returns false. -/
inductive Drains {σ : Type} (next : σ → Option Tuple × σ) : σ → List Tuple → Prop
  | done {s s' : σ} : next s = (none, s') → Drains next s []
  | row {s s' : σ} {tuple : Tuple} {rows : List Tuple} : next s = (some tuple, s') →
    Drains next s' rows → Drains next s (tuple :: rows)

/-- The predicate that the first column is an integer. -/
def firstIs (k : Int32) : Predicate := some fun tuple => .ok (tuple.head? = some (.int k))

/-- An index scan hands out nothing. -/
theorem IndexScan.drains (scan : IndexScan) : Drains IndexScan.next scan [] := by
  cases hdone : scan.done with
  | true => exact .done (by rw [IndexScan.next, if_pos hdone])
  | false => exact .done (by rw [IndexScan.next, if_neg (by simp [hdone])])

theorem SeqScan.drains_from (results : List Tuple) : ∀ (rest : List Tuple) (i : ℕ),
    results.drop i = rest → Drains SeqScan.next ⟨results, i⟩ rest
  | [], i, h => by
    have hnone : results[i]? = none := by
      rw [List.getElem?_eq_none_iff]
      exact List.drop_eq_nil_iff.mp h
    exact .done (by simp only [SeqScan.next, hnone]; rfl)
  | tuple :: rest, i, h => by
    have hsome : results[i]? = some tuple := by
      rw [← List.head?_drop, h]
      rfl
    refine .row (by simp only [SeqScan.next, hsome]) (SeqScan.drains_from results rest (i + 1) ?_)
    rw [← List.tail_drop, h]
    rfl

/-- A sequential scan hands out its results in their order. -/
theorem SeqScan.drains (results : List Tuple) : Drains SeqScan.next ⟨results, 0⟩ results :=
  SeqScan.drains_from results results 0 rfl

/-- A scan whose callback works on an image of the rows that came by gives the image of all rows. -/
theorem run_scanTable_image {β : Type} {db db₀ : Engine} {info : TableInfo}
    {rows : List (RID × Tuple)} (hrows : (liveRows info).run db = (.ok rows, db₀))
    {callback : β → RID → Str → ℕ → Except Fault (β × Bool)} (image : List (RID × Tuple) → β)
    (hcall : ∀ rows rid data len, callback (image rows) rid data len =
      (rowCallback info.schema rows rid data len).map (Prod.map image id)) :
    (onStorage (PageManager.scanTable callback info.fileId (image []))).run db =
      (.ok (image rows), db₀) := by
  have hscan := PageManager.scanTable_map hcall info.fileId [] db.storage
  have hlive : (liveRows info).run db =
      (((PageManager.scanTable (rowCallback info.schema) info.fileId []).run db.storage).1,
        { db with storage :=
          ((PageManager.scanTable (rowCallback info.schema) info.fileId []).run db.storage).2 }) := rfl
  have himage : (onStorage (PageManager.scanTable callback info.fileId (image []))).run db =
      (((PageManager.scanTable callback info.fileId (image [])).run db.storage).1,
        { db with storage :=
          ((PageManager.scanTable callback info.fileId (image [])).run db.storage).2 }) := rfl
  rw [hlive] at hrows
  obtain ⟨hresult, hstate⟩ := Prod.mk.inj hrows
  rw [himage, hscan, hresult, hstate]
  rfl

section Collecting

variable {db db₀ : Engine} {info : TableInfo} {rows : List (RID × Tuple)} {predicate : Predicate}

/-- A sequential scan finds the live rows that pass its predicate. -/
theorem run_seqScan (hrows : (liveRows info).run db = (.ok rows, db₀)) (test : Tuple → Bool)
    (htest : ∀ tuple, passes predicate tuple = .ok (test tuple)) :
    (seqScan info predicate).run db =
      (.ok ((rows.filter fun e => test e.2).map Prod.snd), db₀) := by
  refine run_scanTable_image hrows
    (fun rows => (rows.filter fun e => test e.2).map Prod.snd) fun rows rid data len => ?_
  unfold scanCallback rowCallback
  cases deserializeTuple data len info.schema with
  | error e => rfl
  | ok tuple =>
    rw [Machine.ok_bind, Machine.ok_bind, htest, Machine.ok_bind]
    cases hpass : test tuple <;> simp [hpass, Except.map]

/-- A sequential scan for a key finds the live rows with the key. -/
theorem run_seqScan_firstIs (hrows : (liveRows info).run db = (.ok rows, db₀)) (k : Int32) :
    (seqScan info (firstIs k)).run db =
      (.ok ((rows.filter fun e => e.2.head? = some (.int k)).map Prod.snd), db₀) :=
  run_seqScan hrows (fun tuple => tuple.head? = some (.int k)) fun _ => rfl

end Collecting

theorem run_seqScanOf {db db₀ : Engine} {name : Str} {info : TableInfo} {rows : List (RID × Tuple)}
    (hinfo : db.catalog.getTable name = some info)
    (hrows : (liveRows info).run db = (.ok rows, db₀)) (k : Int32) :
    (seqScanOf name (firstIs k)).run db =
      (.ok ⟨(rows.filter fun e => e.2.head? = some (.int k)).map Prod.snd, 0⟩, db₀) := by
  unfold seqScanOf
  rw [run_get_bind]
  simp only [hinfo]
  rw [run_bind_ok (run_seqScan_firstIs hrows k)]
  rfl

/-- An index scan is initialised on every table of a reachable engine. -/
theorem Sane.indexScan {P : TableInfo → Prop} {db : Engine} (h : Sane P db) {name : Str} {info : TableInfo}
    (hinfo : db.catalog.getTable name = some info) (k : Int32) :
    ∃ scan, (indexScan name k).run db = (.ok scan, db) := by
  unfold Engine.indexScan
  rw [run_get_bind]
  simp only [hinfo]
  cases htree : db.indexes.find? name with
  | none => exact ⟨_, rfl⟩
  | some tree =>
    obtain ⟨m, hm⟩ := h.trees htree
    simp only [hm.search_spec, ofTree]
    cases m.lookup k.toInt with
    | none => exact ⟨_, rfl⟩
    | some rid => exact ⟨_, rfl⟩

/-- On every table of every reachable engine, an index scan and a sequential scan for a key hand out
the same bag of rows exactly when no live row has the key. As long as the inserted rows fit a page,
a scan of the live rows returns. -/
theorem indexScan_agrees_iff (disk : Str → Option File) (logMgr : LogManager)
    (stmts : List Statement) {db : Engine} {replies : List Reply}
    (hrun : executeAll (Engine.new disk logMgr) stmts = .ok (db, replies))
    {name : Str} {info : TableInfo} (hinfo : db.catalog.getTable name = some info) (k : Int32) :
    (∀ rows db₀, (liveRows info).run db = (.ok rows, db₀) →
      ∃ index db₁ seq db₂ found scanned,
        (indexScan name k).run db = (.ok index, db₁) ∧ Drains IndexScan.next index found ∧
        (seqScanOf name (firstIs k)).run db = (.ok seq, db₂) ∧ Drains SeqScan.next seq scanned ∧
        ((found : Multiset Tuple) = (scanned : Multiset Tuple) ↔
          ∀ rid rest, (rid, .int k :: rest) ∉ rows)) ∧
    (Machine.Along Database.StorableRow Database.exec (fun _ => none) stmts →
      ∃ rows db₀, (liveRows info).run db = (.ok rows, db₀)) := by
  constructor
  · intro rows db₀ hrows
    obtain ⟨scan, hscan⟩ := (unmarked_of_run hrun).indexScan hinfo k
    refine ⟨scan, db, _, db₀, [], _, hscan, scan.drains, run_seqScanOf hinfo hrows k,
      SeqScan.drains _, ?_⟩
    -- The index scan hands out nothing, so both agree when the other one finds nothing.
    rw [Multiset.coe_nil, eq_comm, Multiset.coe_eq_zero, List.map_eq_nil_iff,
      List.filter_eq_nil_iff]
    constructor
    · intro hnone rid rest hmem
      exact hnone (rid, .int k :: rest) hmem (by simp)
    · rintro hnone ⟨rid, row⟩ hmem hfirst
      cases row with
      | nil => simp at hfirst
      | cons v rest =>
        obtain rfl : v = .int k := by simpa using hfirst
        exact hnone rid rest hmem
  · intro hfits
    obtain ⟨T, h, -⟩ := represents_of_run hfits hrun
    obtain ⟨t, tree, db₀, -, -, -, hrows⟩ := h.observe hinfo
    exact ⟨t.rows, db₀, hrows⟩

/-- What the scans of the table of the runs below need: its entry in the catalog, and its rows. -/
theorem sample_observed : ∃ db replies info db₀,
    executeAll (Engine.new (fun _ => none) ⟨[], [], 1⟩) [sampleTable, sampleInsert "1" "a"] =
      .ok (db, replies) ∧
    db.catalog.getTable (lit "t") = some info ∧ (db.indexes.find? (lit "t")).isSome ∧
    info.schema = [⟨lit "id", .int⟩, ⟨lit "name", .text⟩] ∧
    (liveRows info).run db = (.ok [(⟨0, 0⟩, [.int 1, .text (lit "a")])], db₀) := by
  have hview : (executeAll (Engine.new (fun _ => none) ⟨[], [], 1⟩)
      [sampleTable, sampleInsert "1" "a"]).toOption.map (fun r => sampleView 1 r.1) =
      some (some [(⟨0, 0⟩, [.int 1, .text (lit "a")])], some (some ⟨0, 0⟩)) := by decide +kernel
  have hcatalog : (executeAll (Engine.new (fun _ => none) ⟨[], [], 1⟩)
      [sampleTable, sampleInsert "1" "a"]).toOption.map (fun r =>
        (r.1.catalog.getTable (lit "t")).map TableInfo.schema) =
      some (some [⟨lit "id", .int⟩, ⟨lit "name", .text⟩]) := by decide +kernel
  cases hrun : executeAll (Engine.new (fun _ => none) ⟨[], [], 1⟩)
      [sampleTable, sampleInsert "1" "a"] with
  | error e => rw [hrun] at hview; cases hview
  | ok r =>
    rw [hrun] at hview hcatalog
    obtain ⟨hfound, hsearch⟩ := Prod.mk.inj (Option.some.inj hview)
    obtain ⟨info, hinfo, hschema⟩ := Option.map_eq_some_iff.mp (Option.some.inj hcatalog)
    obtain ⟨info', hinfo', hrows⟩ := Option.bind_eq_some_iff.mp hfound
    obtain rfl := Option.some.inj (hinfo'.symm.trans hinfo)
    obtain ⟨tree, htree, -⟩ := Option.bind_eq_some_iff.mp hsearch
    exact ⟨r.1, r.2, info', _, rfl, hinfo, by rw [htree]; rfl, hschema,
      run_of_result (Machine.toOption_eq_some.mp hrows)⟩

/-- The scans agree on a key that the only row does not have. -/
theorem indexScan_agrees_iff_absent : ∃ db index db₁ seq db₂ found scanned,
    (indexScan (lit "t") 2).run db = (.ok index, db₁) ∧ Drains IndexScan.next index found ∧
    (seqScanOf (lit "t") (firstIs 2)).run db = (.ok seq, db₂) ∧ Drains SeqScan.next seq scanned ∧
    (found : Multiset Tuple) = (scanned : Multiset Tuple) := by
  obtain ⟨db, replies, info, db₀, hrun, hinfo, -, -, hrows⟩ := sample_observed
  obtain ⟨hagree, -⟩ := indexScan_agrees_iff _ _ _ hrun hinfo 2
  obtain ⟨index, db₁, seq, db₂, found, scanned, hi, hdi, hs, hds, hiff⟩ := hagree _ db₀ hrows
  refine ⟨db, index, db₁, seq, db₂, found, scanned, hi, hdi, hs, hds, hiff.mpr ?_⟩
  intro rid rest hmem
  rw [List.mem_singleton] at hmem
  cases hmem

/-- One row with the key `1` in a table with an index on its integer column: the sequential scan
hands it out, and the index scan nothing. -/
theorem indexScan_misses_row : ∃ db replies info index db₁ seq db₂ found scanned,
    executeAll (Engine.new (fun _ => none) ⟨[], [], 1⟩) [sampleTable, sampleInsert "1" "a"] =
      .ok (db, replies) ∧
    db.catalog.getTable (lit "t") = some info ∧ (db.indexes.find? (lit "t")).isSome ∧
    info.schema.head?.map Column.type = some .int ∧
    (indexScan (lit "t") 1).run db = (.ok index, db₁) ∧ Drains IndexScan.next index found ∧
    (seqScanOf (lit "t") (firstIs 1)).run db = (.ok seq, db₂) ∧ Drains SeqScan.next seq scanned ∧
    scanned = [[.int 1, .text (lit "a")]] ∧
    (found : Multiset Tuple) ≠ (scanned : Multiset Tuple) := by
  obtain ⟨db, replies, info, db₀, hrun, hinfo, hindex, hschema, hrows⟩ := sample_observed
  obtain ⟨scan, hscan⟩ := (unmarked_of_run hrun).indexScan hinfo 1
  have hint : info.schema.head?.map Column.type = some .int := by rw [hschema]; rfl
  refine ⟨db, replies, info, scan, db, _, db₀, [], _, hrun, hinfo, hindex, hint, hscan, scan.drains,
    run_seqScanOf hinfo hrows 1, SeqScan.drains _, rfl, ?_⟩
  decide

/-! ## The choice of the optimizer -/

/-- The rule of the design document: there is a tree for the table, there is a `WHERE` clause and it
is on the first column, and the table has more than 50 rows. -/
def WantsIndex (db : Engine) (stmt : Statement) : Prop :=
  stmt.hasWhere = true ∧ ∃ info rows db₀, db.catalog.getTable stmt.tableName = some info ∧
    (db.indexes.find? stmt.tableName).isSome ∧
    info.schema.head?.map Column.name = some stmt.where_.column ∧
    (liveRows info).run db = (.ok rows, db₀) ∧ 50 < rows.length

theorem Sane.shouldUseIndex {db : Engine} (h : Sane Unmarked db) (tableName column : Str) :
    Optimizer.shouldUseIndex db.catalog tableName column = false := by
  unfold Optimizer.shouldUseIndex
  cases hinfo : db.catalog.getTable tableName with
  | none => rfl
  | some info =>
    have hflag : info.hasIndex = false := h.infos hinfo
    simp only
    rw [hflag, Bool.false_and]

/-- No plan of a reachable engine scans an index. -/
theorem Sane.scanType {db : Engine} (h : Sane Unmarked db) {stmt : Statement} {plan : PlanNode}
    (htype : stmt.type = .select) (hplan : Optimizer.optimize db.catalog stmt = some plan) :
    plan.scanType = .seqScan := by
  simp only [Optimizer.optimize, htype] at hplan
  obtain rfl := Option.some.inj hplan
  simp only [Optimizer.optimizeSelect, h.shouldUseIndex, Bool.and_false]
  split
  · rfl
  · rfl

/-- In every reachable engine the plan of a `SELECT` follows the rule exactly when the rule asks for
no index scan. -/
theorem scan_choice_iff (disk : Str → Option File) (logMgr : LogManager) (stmts : List Statement)
    {db : Engine} {replies : List Reply}
    (hrun : executeAll (Engine.new disk logMgr) stmts = .ok (db, replies))
    {stmt : Statement} (htype : stmt.type = .select) :
    ∃ plan, Optimizer.optimize db.catalog stmt = some plan ∧
      ((plan.scanType = .indexScan ↔ WantsIndex db stmt) ↔ ¬ WantsIndex db stmt) := by
  have hplan : Optimizer.optimize db.catalog stmt =
      some (Optimizer.optimizeSelect db.catalog stmt) := by
    simp only [Optimizer.optimize, htype]
  refine ⟨_, hplan, ?_⟩
  rw [(unmarked_of_run hrun).scanType htype hplan]
  simp

/-- A `SELECT` from the table of the runs below. -/
def sampleSelect (column value : String) : Statement :=
  { type := .select, tableName := lit "t", selectAll := true, hasWhere := true,
    where_ := ⟨lit column, lit value⟩ }

/-- One row: the rule and the plan agree on a sequential scan. -/
theorem scan_choice_iff_one_row : ∃ db plan,
    Optimizer.optimize db.catalog (sampleSelect "id" "1") = some plan ∧
    (plan.scanType = .indexScan ↔ WantsIndex db (sampleSelect "id" "1")) := by
  obtain ⟨db, replies, info, db₀, hrun, hinfo, -, -, hrows⟩ := sample_observed
  have htype : (sampleSelect "id" "1").type = .select := rfl
  obtain ⟨plan, hplan, hiff⟩ := scan_choice_iff _ _ _ hrun htype
  refine ⟨db, plan, hplan, hiff.mpr ?_⟩
  rintro ⟨-, info', rows, db₀', hinfo', -, -, hrows', hlen⟩
  obtain rfl := Option.some.inj (hinfo.symm.trans hinfo')
  rw [hrows] at hrows'
  obtain ⟨hsame, -⟩ := Prod.mk.inj hrows'
  rw [← Except.ok.inj hsame] at hlen
  exact absurd hlen (by decide)

/-- An `INSERT` of a number below 100 into a table of one column. -/
def keyInsert (i : ℕ) : Statement where
  type := .insert
  tableName := lit "t"
  values := [[48 + UInt8.ofNat (i / 10), 48 + UInt8.ofNat (i % 10)]]

/-- A table of one integer column with the rows `00`, `01`, …, `50`. -/
def manyRows : List Statement :=
  { sampleTable with columns := [⟨lit "id", lit "INT"⟩] } :: (List.range 51).map keyInsert

/-- 51 rows in a table with a tree on its column: the rule asks for an index scan, and the plan is a
sequential scan. -/
theorem scan_choice_ignores_tree : ∃ db replies plan,
    executeAll (Engine.new (fun _ => none) ⟨[], [], 1⟩) manyRows = .ok (db, replies) ∧
    Optimizer.optimize db.catalog (sampleSelect "id" "1") = some plan ∧
    WantsIndex db (sampleSelect "id" "1") ∧ plan.scanType = .seqScan := by
  have hok : (executeAll (Engine.new (fun _ => none) ⟨[], [], 1⟩) manyRows).isOk = true := by
    decide +kernel
  have hfits : Machine.Along Database.StorableRow Database.exec (fun _ => none) manyRows := by
    decide +kernel
  have htable : ((Machine.specRun Database.exec (fun _ => none) manyRows).1 (lit "t")).map
      (fun e => (e.1.head?.map Column.name, e.2.card)) = some (some (lit "id"), 51) := by
    decide +kernel
  cases hrun : executeAll (Engine.new (fun _ => none) ⟨[], [], 1⟩) manyRows with
  | error e => rw [hrun] at hok; cases hok
  | ok r =>
    obtain ⟨T, h, hT⟩ := represents_of_run hfits hrun
    rw [← hT] at htable
    obtain ⟨e, he, heq⟩ := Option.map_eq_some_iff.mp htable
    obtain ⟨t, ht, rfl⟩ := Option.map_eq_some_iff.mp he
    obtain ⟨hname, hcard⟩ := Prod.mk.inj heq
    obtain ⟨t', info, ht', hinfo, hschema⟩ := (h.getTable (lit "t")).resolve_left
      fun hnone => by rw [hnone.1] at ht; cases ht
    obtain rfl := Option.some.inj (ht'.symm.trans ht)
    obtain ⟨tree, htree, -⟩ := h.tree ht
    obtain ⟨db₀, hrows⟩ := h.liveRows ht hinfo hschema
    have hlen : 50 < t'.rows.length := by
      rw [Table.bag, Multiset.coe_card, List.length_map] at hcard
      omega
    have hplan : Optimizer.optimize r.1.catalog (sampleSelect "id" "1") =
        some (Optimizer.optimizeSelect r.1.catalog (sampleSelect "id" "1")) := rfl
    refine ⟨r.1, r.2, _, rfl, hplan, ⟨rfl, info, t'.rows, db₀, hinfo, ?_, ?_, hrows, hlen⟩,
      (unmarked_of_run hrun).scanType rfl hplan⟩
    · show (r.1.indexes.find? (lit "t")).isSome
      rw [htree]
      rfl
    · rw [hschema]
      exact hname

end Engine

end MiniDB
