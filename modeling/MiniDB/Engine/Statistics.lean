import MiniDB.Engine.Logging
import MiniDB.Engine.Reachable

/-!
# The row counts of the catalog

`InsertExecutor::init` counts the row it inserts, and `MiniDB::executeInsert` counts it again after
the commit; `DeleteExecutor::init` takes off what it deletes. The counts are exact as long as
nothing was inserted, and the first accepted `INSERT` of a run makes one of them wrong.

## Main definitions

* `Engine.Exact`: every row count of the catalog is the number of rows that a scan finds
* `Engine.Uncounted`: the row count of a table is zero
* `Engine.ExactAlong`: the counts are exact after every part of a run

## Main results

* `Engine.rowCount_executeInsert`: an accepted `INSERT` counts its row twice
* `Engine.exact_iff`: the runs after whose every statement the counts are exact
-/

namespace MiniDB.Engine

open Program

/-- The row count of every table is the number of its live rows. -/
def Exact (db : Engine) : Prop := ∀ name info, db.catalog.getTable name = some info →
  ∃ rows db₀, (liveRows info).run db = (.ok rows, db₀) ∧ info.rowCount = rows.length

/-- The row count of the table is zero. -/
def Uncounted (info : TableInfo) : Prop := info.rowCount = 0

variable {T : Tables} {db db' : Engine} {stmt : Statement} {reply : Reply} {info : TableInfo}

/-! ## One statement -/

/-- What is taken off zero leaves zero. -/
theorem lasting_uncounted : Lasting Uncounted where
  created _ _ _ := rfl
  deleted := by
    intro info old n hinfo _
    have hzero : info.rowCount = 0 := hinfo
    show (if n ≤ info.rowCount then info.rowCount - n else 0) % 2 ^ 32 = 0
    rw [hzero]
    split <;> omega

/-- A rejected `INSERT` leaves the engine as it is. -/
theorem Holds.executeInsert_rejected (h : Holds T db) (htype : stmt.type = .insert)
    (hreject : T.database.RejectsInsert stmt) :
    ∃ reply, (Engine.executeInsert stmt).run db = (.ok reply, db) := by
  unfold Engine.executeInsert
  rw [run_get_bind]
  rcases h.getTable stmt.tableName with ⟨-, hinfo⟩ | ⟨t, info, ht, hinfo, hschema⟩
  · simp only [hinfo]
    exact ⟨_, rfl⟩
  · have hnone := hreject htype _ (Tables.database_some ht)
    rw [← insertedRow_eq t.schema stmt, ← hschema] at hnone
    unfold Tables.insertedRow at hnone
    simp only [hinfo]
    split
    case isTrue => exact ⟨_, rfl⟩
    case isFalse hlen =>
      rw [if_neg hlen] at hnone
      cases hconv : convertValues info.schema stmt.values with
      | error column => exact ⟨_, rfl⟩
      | ok row => rw [hconv] at hnone; cases hnone

/-- An `INSERT` goes to its executor. -/
theorem executeInsert_of_step (htype : stmt.type = .insert)
    (hstep : step db stmt = .ok (db', reply)) :
    (executeInsert stmt).run db = (.ok reply, db') := by
  have hrun := run_of_step hstep
  rwa [execute_eq, htype] at hrun

/-- As long as no `INSERT` is accepted the row counts stay zero. -/
theorem Sane.step_rejected (hs : Sane Uncounted db) (h : Holds T db)
    (hreject : T.database.RejectsInsert stmt) (hstep : Engine.step db stmt = .ok (db', reply)) :
    Sane Uncounted db' := by
  by_cases htype : stmt.type = .insert
  · obtain ⟨reply', hrun⟩ := h.executeInsert_rejected htype hreject
    obtain ⟨-, rfl⟩ := Prod.mk.inj (hrun.symm.trans (executeInsert_of_step htype hstep))
    exact hs
  · exact hs.step lasting_uncounted (fun hins => absurd hins htype) hstep

theorem find?_setRowCount {catalog : Catalog} {name : Str} (h : catalog.find? name = some info)
    (n : ℕ) : (catalog.setRowCount name n).find? name =
      some { info with rowCount := n % 2 ^ 32 } := by
  unfold Catalog.setRowCount
  simp only [h]
  exact Dict.find?_insert_self ..

/-- `InsertExecutor::init` counts its row. -/
theorem catalog_insertExecutor (name : Str) (info : TableInfo) (values : List Value) :
    wp (fun _ => True) (insertExecutor name info values)
      (fun _ db' => db'.catalog = db.catalog.setRowCount name (info.rowCount + 1)) db := by
  simp only [insertExecutor, wp_bind, onStorage, wp_zoom]
  unfold wp
  rcases (PageManager.insertTuple info.fileId (serializeTuple values)
    ((serializeTuple values).length % 2 ^ 16)).run db.storage with ⟨e | rid, s⟩
  · trivial
  · show wp (fun _ => True) _ _ _
    split
    case h_1 _ tree key rest _ =>
      rw [wp_bind]
      cases htree : ofTree (tree.insert key.toInt rid) with
      | error e => trivial
      | ok r => rfl
    case h_2 => rfl

/-- An accepted `INSERT` counts its row twice. -/
theorem rowCount_executeInsert (hinfo : db.catalog.find? stmt.tableName = some info) :
    wp (fun _ => True) (executeInsert stmt) (fun reply db' => reply = .inserted →
      ∃ info', db'.catalog.find? stmt.tableName = some info' ∧
        info'.rowCount = ((info.rowCount + 1) % 2 ^ 32 + 1) % 2 ^ 32) db := by
  have hget : db.catalog.getTable stmt.tableName = some info := hinfo
  unfold executeInsert
  rw [wp_bind, wp_get]
  simp only [hget]
  split
  case isTrue => exact fun hreply => by cases hreply
  case isFalse =>
    cases convertValues info.schema stmt.values with
    | error column => exact fun hreply => by cases hreply
    | ok values =>
      simp only [wp_bind, beginTxn, wp_get, update, wp_modify, wp_pure]
      refine wp_mono (catalog_insertExecutor stmt.tableName info values) ?_
      intro _ db₁ hcat
      simp only [commitTxn, countRow, update, wp_modify]
      -- The first count is in the catalog when the second one is made.
      have hfirst : db₁.catalog.find? stmt.tableName =
          some { info with rowCount := (info.rowCount + 1) % 2 ^ 32 } := by
        rw [hcat]
        exact find?_setRowCount hinfo _
      have hfirst' : db₁.catalog.getTable stmt.tableName =
          some { info with rowCount := (info.rowCount + 1) % 2 ^ 32 } := hfirst
      simp only [hfirst']
      exact fun _ => ⟨_, find?_setRowCount hfirst _, rfl⟩

/-- After an accepted `INSERT` into empty tables without counts the counts are not exact. -/
theorem not_exact_of_inserted (hs : Sane Uncounted db) (h : Holds T db)
    (hempty : ∀ name, T.tuples name = []) (hfits : T.database.StorableRow stmt)
    (haccept : ¬ T.database.RejectsInsert stmt) (hstep : step db stmt = .ok (db', reply)) :
    ¬ Exact db' := by
  obtain ⟨htype, e, he, hrow⟩ : stmt.type = .insert ∧ ∃ e ∈ T.database stmt.tableName,
      e.1.typedRow stmt.values ≠ none := by
    unfold Database.RejectsInsert at haccept
    push Not at haccept
    exact haccept
  obtain ⟨row, hrow⟩ := Option.ne_none_iff_exists'.mp hrow
  obtain ⟨t, ht, rfl⟩ := Option.map_eq_some_iff.mp he
  have hins : Tables.insertedRow t.schema stmt = .ok row := by
    have heq := insertedRow_eq t.schema stmt
    rw [hrow] at heq
    exact Machine.toOption_eq_some.mp heq
  have hrowOk : RowOk t.schema row :=
    Holds.rowOk_insertedRow hins (hfits htype _ he row hrow)
  have hexec : T.exec stmt =
      (Function.update T stmt.tableName (some (t.insertRow row)), .inserted) := by
    simp only [Tables.exec, htype, Tables.execInsert, ht, hins]
  obtain ⟨h₁, hreply⟩ := step_refines.of_ok h (Tables.storableRow_of_database hfits) hstep
  rw [hexec] at h₁ hreply
  replace h₁ : Holds (Function.update T stmt.tableName (some (t.insertRow row))) db' := h₁
  have hrows : (t.insertRow row).rows.length = 1 := by
    have hlive : t.heap.live = [] := Tables.tuples_some ht ▸ hempty stmt.tableName
    rw [(Table.rows_insertRow hrowOk).length_eq, List.length_cons, Table.rows, hlive]
    rfl
  obtain ⟨info, hinfo⟩ : ∃ info, db.catalog.find? stmt.tableName = some info := by
    rcases h.getTable stmt.tableName with ⟨hnone, -⟩ | ⟨-, info, -, hinfo, -⟩
    · rw [ht] at hnone
      cases hnone
    · exact ⟨info, hinfo⟩
  have hzero : info.rowCount = 0 := hs.infos hinfo
  obtain ⟨info', hinfo', htwo⟩ : ∃ info', db'.catalog.find? stmt.tableName = some info' ∧
      info'.rowCount = 2 := by
    have hcount := wp_of_ok (rowCount_executeInsert hinfo) (executeInsert_of_step htype hstep) hreply
    rw [hzero] at hcount
    exact hcount
  intro hexact
  obtain ⟨rows, db₀, hlive, hcount⟩ := hexact stmt.tableName info' hinfo'
  obtain ⟨t', tree, db₂, ht', -, -, hlive'⟩ := h₁.observe hinfo'
  rw [Function.update_self] at ht'
  obtain rfl := Option.some.inj ht'
  rw [hlive'] at hlive
  obtain ⟨hsame, -⟩ := Prod.mk.inj hlive
  rw [htwo, ← Except.ok.inj hsame, hrows] at hcount
  omega

/-! ## Runs -/

/-- The counts are exact after every part of a run. -/
def ExactAlong (db : Engine) (stmts : List Statement) : Prop :=
  ∀ before after, stmts = before ++ after → ∀ db₁ replies,
    executeAll db before = .ok (db₁, replies) → Exact db₁

/-- As long as no `INSERT` is accepted the tables are empty and the counts zero. -/
theorem uncounted_of_rejects : ∀ (stmts : List Statement) {T : Tables} {db db' : Engine}
    {replies : List Reply}, Holds T db → (∀ name, T.tuples name = []) → Sane Uncounted db →
    Machine.Along Database.RejectsInsert Database.exec T.database stmts →
    executeAll db stmts = .ok (db', replies) → Exact db' := by
  intro stmts
  induction stmts with
  | nil =>
    intro T db db' replies h hempty hs _ hrun
    obtain ⟨rfl, -⟩ := Prod.mk.inj (Except.ok.inj hrun)
    intro name info hinfo
    obtain ⟨t, tree, db₀, ht, -, -, hlive⟩ := h.observe hinfo
    refine ⟨t.rows, db₀, hlive, ?_⟩
    have hzero : info.rowCount = 0 := hs.infos hinfo
    have hnil : t.heap.live = [] := Tables.tuples_some ht ▸ hempty name
    rw [hzero, Table.rows, hnil]
    rfl
  | cons stmt stmts ih =>
    intro T db db' replies h hempty hs hreject hrun
    obtain ⟨db₁, reply, replies', hstep, hrest, -⟩ := Machine.run_cons_inv hrun
    have hstorable := hreject.head.storableRow
    obtain ⟨htables, -⟩ := Tables.exec_agrees hstorable
    obtain ⟨h₁, -⟩ := step_refines.of_ok h (Tables.storableRow_of_database hstorable) hstep
    exact ih h₁ (Tables.exec_tuples_nil hempty hreject.head)
      (hs.step_rejected h hreject.head hstep) (htables ▸ hreject.tail) hrest

/-- No `INSERT` was accepted in a run after whose every part the counts are exact. -/
theorem rejects_of_exact : ∀ (stmts : List Statement) {T : Tables} {db db' : Engine}
    {replies : List Reply}, Holds T db → (∀ name, T.tuples name = []) → Sane Uncounted db →
    Machine.Along Database.StorableRow Database.exec T.database stmts →
    executeAll db stmts = .ok (db', replies) → ExactAlong db stmts →
    Machine.Along Database.RejectsInsert Database.exec T.database stmts := by
  intro stmts
  induction stmts with
  | nil => exact fun _ _ _ _ _ _ => .nil
  | cons stmt stmts ih =>
    intro T db db' replies h hempty hs hfits hrun hexact
    obtain ⟨db₁, reply, replies', hstep, hrest, -⟩ := Machine.run_cons_inv hrun
    obtain ⟨htables, -⟩ := Tables.exec_agrees hfits.head
    have hreject : T.database.RejectsInsert stmt := by
      by_contra haccept
      refine not_exact_of_inserted hs h hempty hfits.head haccept hstep ?_
      refine hexact [stmt] stmts rfl db₁ [reply] ?_
      show Machine.run _ _ _ = _
      rw [Machine.run_cons_ok hstep]
      rfl
    obtain ⟨h₁, -⟩ := step_refines.of_ok h (Tables.storableRow_of_database hfits.head) hstep
    refine .cons hreject (htables ▸ ih h₁ (Tables.exec_tuples_nil hempty hreject)
      (hs.step_rejected h hreject hstep) (htables ▸ hfits.tail) hrest ?_)
    intro before after heq db₃ replies₃ hbefore
    refine hexact (stmt :: before) after (by rw [heq]; rfl) db₃ (reply :: replies₃) ?_
    show Machine.run _ _ _ = _
    rw [Machine.run_cons_ok hstep, show Machine.run _ _ _ = _ from hbefore]
    rfl

/-- The counts are exact after every part of a run exactly when no `INSERT` of it was accepted. -/
theorem exact_iff (disk : Str → Option File) (logMgr : LogManager) (stmts : List Statement)
    (hfits : Machine.Along Database.StorableRow Database.exec (fun _ => none) stmts) {db : Engine}
    {replies : List Reply}
    (hrun : executeAll (Engine.new disk logMgr) stmts = .ok (db, replies)) :
    ExactAlong (Engine.new disk logMgr) stmts ↔
      Machine.Along Database.RejectsInsert Database.exec (fun _ => none) stmts := by
  have hnew := holds_new disk logMgr
  refine ⟨rejects_of_exact stmts hnew (fun _ => rfl) (Sane.new disk logMgr) hfits hrun, ?_⟩
  intro hreject before after heq db₁ replies₁ hbefore
  refine uncounted_of_rejects before hnew (fun _ => rfl) (Sane.new disk logMgr) ?_ hbefore
  intro as₁ stmt as₂ has
  exact hreject as₁ stmt (as₂ ++ after) (by rw [heq, has]; simp)

/-- A table created, a rejected row and a deletion that finds nothing. -/
theorem exact_iff_empty_table : ExactAlong (Engine.new (fun _ => none) ⟨[], [], 1⟩)
    [sampleTable, sampleInsert "x" "a", sampleDelete "id" "1"] := by
  have hok : (executeAll (Engine.new (fun _ => none) ⟨[], [], 1⟩)
      [sampleTable, sampleInsert "x" "a", sampleDelete "id" "1"]).isOk = true := by decide +kernel
  cases hrun : executeAll (Engine.new (fun _ => none) ⟨[], [], 1⟩)
      [sampleTable, sampleInsert "x" "a", sampleDelete "id" "1"] with
  | error e => rw [hrun] at hok; cases hok
  | ok r =>
    exact (exact_iff (fun _ => none) ⟨[], [], 1⟩ _ (by decide +kernel) hrun).mpr (by decide +kernel)

/-- One row inserted: the count of its table is two, and a scan finds one row. -/
theorem exact_fails_one_row : ∃ db replies info rows db₀,
    executeAll (Engine.new (fun _ => none) ⟨[], [], 1⟩) [sampleTable, sampleInsert "1" "a"] =
      .ok (db, replies) ∧
    db.catalog.getTable (lit "t") = some info ∧ info.rowCount = 2 ∧
    (liveRows info).run db = (.ok rows, db₀) ∧ rows.length = 1 ∧ ¬ Exact db := by
  have hview : (executeAll (Engine.new (fun _ => none) ⟨[], [], 1⟩)
      [sampleTable, sampleInsert "1" "a"]).toOption.map (fun r =>
        (r.1.catalog.getTable (lit "t")).map fun info =>
          (info.rowCount, ((liveRows info).run r.1).1.toOption.map List.length)) =
      some (some (2, some 1)) := by
    decide +kernel
  cases hrun : executeAll (Engine.new (fun _ => none) ⟨[], [], 1⟩)
      [sampleTable, sampleInsert "1" "a"] with
  | error e => rw [hrun] at hview; cases hview
  | ok r =>
    rw [hrun] at hview
    obtain ⟨info, hinfo, hpair⟩ := Option.map_eq_some_iff.mp (Option.some.inj hview)
    obtain ⟨htwo, hrows⟩ := Prod.mk.inj hpair
    obtain ⟨rows, hlive, hone⟩ := Option.map_eq_some_iff.mp hrows
    have hlive' : (liveRows info).run r.1 = (.ok rows, ((liveRows info).run r.1).2) :=
      Prod.ext (Machine.toOption_eq_some.mp hlive) rfl
    refine ⟨r.1, r.2, info, rows, _, rfl, hinfo, htwo, hlive', hone, fun hexact => ?_⟩
    obtain ⟨rows', db₀, hlive₀, hcount⟩ := hexact _ info hinfo
    obtain ⟨hsame, -⟩ := Prod.mk.inj (hlive'.symm.trans hlive₀)
    rw [htwo, ← Except.ok.inj hsame, hone] at hcount
    omega

end MiniDB.Engine
