import MiniDB.Engine.Statements

/-!
# The files of the tables

Every table of the catalog has a file of pages of its own, and the storage holds these files,
whatever the statements were. Nothing is assumed about the rows here, nor about the bytes on the
pages.

## Main definitions

* `Engine.Filed F db`: the files `F` are those of the tables, and the storage holds them
* `Engine.HasPages f n db`: so it is, and the file `f` has at least `n` pages
* `Engine.HasFiles db`: so it is for some files

## Main results

* `Engine.HasFiles.execute`: every statement that returns leaves every table its file
* `Engine.hasFiles_of_run`: every run of statements
-/

namespace MiniDB.Engine

open Program

/-- The storage holds the files `F`, which are the files of the tables of the catalog. -/
structure Filed (F : Files) (db : Engine) : Prop where
  holds : Storage.Holds F none none db.storage
  file : ∀ {name info}, db.catalog.find? name = some info → (F info.fileId).isSome
  path : ∀ {f t}, F f = some t →
    ∃ name, (db.catalog.find? name).isSome ∧ t.path = tablePath name

/-- The tables have their files, and the file `f` has at least `n` pages. -/
def HasPages (f : ℤ) (n : ℕ) (db : Engine) : Prop :=
  ∃ F t, Filed F db ∧ F f = some t ∧ n ≤ t.pages.length

variable {F : Files} {db : Engine} {f : ℤ} {t : TableFile} {n : ℕ}

namespace Filed

/-- The files are a matter of the storage and of the file ids in the catalog. -/
theorem congr {db' : Engine} (h : Filed F db) (hs : db'.storage = db.storage)
    (hc : ∀ name, (db'.catalog.find? name).map TableInfo.fileId =
      (db.catalog.find? name).map TableInfo.fileId) : Filed F db' := by
  constructor
  case holds => exact hs ▸ h.holds
  case file =>
    intro name info hinfo
    have hname := hc name
    rw [hinfo] at hname
    obtain ⟨info', hinfo', hfile⟩ := Option.map_eq_some_iff.mp hname.symm
    rw [← hfile]
    exact h.file hinfo'
  case path =>
    intro f t ht
    obtain ⟨name, hsome, hpath⟩ := h.path ht
    refine ⟨name, ?_, hpath⟩
    rwa [← Option.isSome_map (f := TableInfo.fileId), hc name, Option.isSome_map]

/-- Other pages in one of the files. -/
theorem setPages (h : Filed F db) (hF : F f = some t) {pages : List Page} {s : Storage}
    (hs : Storage.Holds (Function.update F f (some ⟨t.path, pages⟩)) none none s) :
    Filed (Function.update F f (some ⟨t.path, pages⟩)) { db with storage := s } := by
  constructor
  case holds => exact hs
  case file =>
    intro name info hinfo
    rw [Function.update_apply]
    split
    · rfl
    · exact h.file hinfo
  case path =>
    intro g u hg
    rw [Function.update_apply] at hg
    split at hg
    · obtain rfl := Option.some.inj hg
      obtain ⟨name, hname, hpath⟩ := h.path hF
      exact ⟨name, hname, hpath⟩
    · exact h.path hg

/-- A new table with a file of its own. -/
theorem addTable (h : Filed F db) {tableName : Str} {schema : Schema} {pages : List Page}
    {s : Storage}
    (hs : Storage.Holds (Function.update F f (some ⟨tablePath tableName, pages⟩)) none none s) :
    Filed (Function.update F f (some ⟨tablePath tableName, pages⟩))
      { db with storage := s, catalog := db.catalog.addTable tableName schema f } := by
  constructor
  case holds => exact hs
  case file =>
    intro name info hinfo
    rw [Catalog.addTable, Dict.find?_insert] at hinfo
    rw [Function.update_apply]
    split at hinfo
    case isTrue =>
      obtain rfl := Option.some.inj hinfo
      rw [if_pos rfl]
      rfl
    case isFalse =>
      split
      · rfl
      · exact h.file hinfo
  case path =>
    intro g t hg
    rw [Function.update_apply] at hg
    split at hg
    case isTrue =>
      obtain rfl := Option.some.inj hg
      refine ⟨tableName, ?_, rfl⟩
      rw [Catalog.addTable, Dict.find?_insert_self]
      rfl
    case isFalse =>
      obtain ⟨name, hname, hpath⟩ := h.path hg
      refine ⟨name, ?_, hpath⟩
      rw [Catalog.addTable, Dict.find?_insert]
      split
      · rfl
      · exact hname

end Filed

/-- The engine as constructed has no table. -/
theorem filed_new (disk : Str → Option File) (logMgr : LogManager) :
    Filed (fun _ => none) (Engine.new disk logMgr) where
  holds := Storage.Holds.holds_new disk (by decide)
  file h := by cases h
  path h := by cases h

namespace HasPages

variable {α : Type}

theorem congr {db' : Engine} (h : HasPages f n db) (hs : db'.storage = db.storage)
    (hc : ∀ name, (db'.catalog.find? name).map TableInfo.fileId =
      (db.catalog.find? name).map TableInfo.fileId) : HasPages f n db' := by
  obtain ⟨F, t, h, hF, hn⟩ := h
  exact ⟨F, t, h.congr hs hc, hF, hn⟩

theorem setRowCount (h : HasPages f n db) (name : Str) (count : ℕ) :
    HasPages f n { db with catalog := db.catalog.setRowCount name count } :=
  h.congr rfl (Catalog.map_setRowCount (fun _ _ => rfl) db.catalog name count)

/-! ## The executors -/

theorem insertTuple (h : HasPages f n db) {data : Str} {dataLen : ℕ} (hlen : dataLen ≤ data.length) :
    wp (fun _ => True) (onStorage (PageManager.insertTuple f data dataLen))
      (fun _ db' => HasPages f n db') db := by
  obtain ⟨F, t, h, hF, hn⟩ := h
  have hbytes : PageManager.bytesOf data dataLen = .ok (data.take dataLen) := if_pos hlen
  rw [onStorage, wp_zoom]
  refine wp_mono (wp_weaken (h.holds.insertTuple_exact hF hbytes ?_) fun _ _ => trivial) ?_
  · rw [List.length_take, Nat.min_eq_left hlen]
  · rintro rid s ⟨pages, hins, hs⟩
    exact ⟨_, _, h.setPages hF hs, Function.update_self ..,
      Nat.le_trans hn (Pages.length_le_of_insert hins)⟩

theorem deleteTuple (h : HasPages f n db) {rid : RID} (hrid : rid.pageId < n) :
    wp (fun _ => True) (onStorage (PageManager.deleteTuple f rid))
      (fun _ db' => HasPages f n db') db := by
  obtain ⟨F, t, h, hF, hn⟩ := h
  have hlt : rid.pageId < t.pages.length := Nat.lt_of_lt_of_le hrid hn
  rw [onStorage, wp_zoom]
  refine wp_mono (wp_weaken (h.holds.deleteTuple hF (List.getElem?_eq_getElem hlt))
    fun _ _ => trivial) ?_
  rintro - s ⟨page, -, hs⟩
  exact ⟨_, _, h.setPages hF hs, Function.update_self .., by simpa using hn⟩

/-- A scan reads pages of the file only. -/
theorem scanTable (h : HasPages f n db)
    {callback : α → RID → Str → ℕ → Except Fault (α × Bool)} {I : ℕ → α → Prop}
    (hcall : ∀ {m b b' rid data len go}, rid.pageId < m → I m b →
      callback b rid data len = .ok (b', go) → I m b') {b : α} (hb : ∀ m, I m b) :
    wp (fun _ => True) (onStorage (PageManager.scanTable callback f b))
      (fun b' db' => ∃ m, HasPages f m db' ∧ I m b') db := by
  obtain ⟨F, t, h, hF, -⟩ := h
  rw [onStorage, wp_zoom]
  refine wp_mono (wp_weaken (h.holds.scanTable_exact hF b) fun _ _ => trivial) ?_
  rintro b' s ⟨hscan, hs⟩
  refine ⟨t.pages.length, ⟨F, t, ⟨hs, h.file, h.path⟩, hF, Nat.le_refl _⟩, ?_⟩
  refine Pages.scan_invariant t.pages (fun hlt => hcall ?_) (hb _) hscan
  rwa [Nat.zero_add] at hlt

theorem insertExecutor (tableName : Str) {info : TableInfo} (h : HasPages info.fileId n db)
    (values : List Value) : wp (fun _ => True) (insertExecutor tableName info values)
      (fun _ db' => HasPages info.fileId n db') db := by
  simp only [Engine.insertExecutor, wp_bind]
  refine wp_mono (h.insertTuple (Nat.mod_le _ _)) fun rid db₁ h₁ => ?_
  rw [wp_get]
  split
  case h_1 _ tree key rest htree =>
    cases hins : ofTree (tree.insert key.toInt rid) with
    | error e => exact trivial
    | ok r => exact (h₁.setRowCount tableName (info.rowCount + 1)).congr rfl fun _ => rfl
  case h_2 => exact h₁.setRowCount ..

theorem deleteOne (h : HasPages f n db) (tableName : Str) {entry : RID × Int32}
    (hentry : entry.1.pageId < n) :
    wp (fun _ => True) (deleteOne tableName f entry) (fun _ db' => HasPages f n db') db := by
  simp only [Engine.deleteOne, wp_bind]
  refine wp_mono (h.deleteTuple hentry) fun _ db₁ h₁ => ?_
  rw [wp_get]
  split
  case h_1 tree htree =>
    split
    case isTrue =>
      cases hrem : ofTree (tree.remove entry.2.toInt) with
      | error e => exact trivial
      | ok r => exact h₁.congr rfl fun _ => rfl
    case isFalse => exact h₁
  case h_2 => exact h₁

/-- The record identifiers that `DeleteExecutor` notes are on pages of the file. -/
theorem deleteExecutor (tableName : Str) {info : TableInfo} (h : HasPages info.fileId n db)
    (predicate : Predicate) : wp (fun _ => True) (deleteExecutor tableName info predicate)
      (fun _ db' => ∃ m, HasPages info.fileId m db') db := by
  simp only [Engine.deleteExecutor, wp_bind]
  refine wp_mono (h.scanTable (I := fun m toDelete => ∀ entry ∈ toDelete, entry.1.pageId < m)
    ?_ fun _ => nofun) ?_
  · intro m toDelete toDelete' rid data len go hlt hdelete hcall
    obtain ⟨tuple, -, hcall⟩ := Machine.bind_eq_ok.mp hcall
    obtain ⟨pass, -, hcall⟩ := Machine.bind_eq_ok.mp hcall
    split at hcall
    · obtain ⟨rfl, -⟩ := Prod.mk.inj (Except.ok.inj hcall)
      intro entry hentry
      rcases List.mem_append.mp hentry with hmem | hmem
      · exact hdelete entry hmem
      · obtain rfl := List.mem_singleton.mp hmem
        exact hlt
    · obtain ⟨rfl, -⟩ := Prod.mk.inj (Except.ok.inj hcall)
      exact hdelete
  · rintro toDelete db₁ ⟨m, h₁, hdelete⟩
    -- The deletions take no page away, so the pages that were scanned are there for each of them.
    refine wp_mono (wp_foldlM (fun _ _ db => HasPages info.fileId m db) toDelete ?_ h₁) ?_
    · intro done entry rest _ db₂ heq h₂
      refine h₂.deleteOne tableName (hdelete entry ?_)
      rw [heq]
      exact List.mem_append_right _ List.mem_cons_self
    · intro _ db₂ h₂
      exact ⟨m, h₂.setRowCount ..⟩

end HasPages

/-! ## The statements -/

/-- Every table of the catalog has a file of pages of its own. -/
def HasFiles (db : Engine) : Prop := ∃ F, Filed F db

namespace HasFiles

theorem of_pages (h : HasPages f n db) : HasFiles db := by
  obtain ⟨F, t, h, -⟩ := h
  exact ⟨F, h⟩

theorem table (h : HasFiles db) {name : Str} {info : TableInfo}
    (hinfo : db.catalog.find? name = some info) : HasPages info.fileId 0 db := by
  obtain ⟨F, h⟩ := h
  obtain ⟨t, hF⟩ := Option.isSome_iff_exists.mp (h.file hinfo)
  exact ⟨F, t, h, hF, Nat.zero_le _⟩

/-- The path of a new table is that of no other. -/
theorem executeCreateTable (h : HasFiles db) (stmt : Statement) :
    wp (fun _ => True) (executeCreateTable stmt) (fun _ db' => HasFiles db') db := by
  obtain ⟨F, h⟩ := h
  simp only [Engine.executeCreateTable, wp_bind, wp_get]
  split
  case isTrue => exact ⟨F, h⟩
  case isFalse hexists =>
    have hpath : ∀ {g t}, F g = some t → t.path ≠ tablePath stmt.tableName := by
      intro g t ht heq
      obtain ⟨name, hname, hpath⟩ := h.path ht
      obtain rfl := tablePath_inj (hpath.symm.trans heq)
      exact hexists hname
    simp only [wp_bind, onStorage, wp_zoom]
    refine wp_mono (wp_weaken (h.holds.createTable hpath) fun _ _ => trivial) ?_
    rintro f s ⟨-, hs⟩
    exact ⟨_, (h.addTable hs).congr rfl fun _ => rfl⟩

theorem executeInsert (h : HasFiles db) (stmt : Statement) :
    wp (fun _ => True) (executeInsert stmt) (fun _ db' => HasFiles db') db := by
  simp only [Engine.executeInsert, wp_bind, wp_get]
  split
  case h_1 => exact h
  case h_2 info hinfo =>
    split
    case isTrue => exact h
    case isFalse =>
      split
      case h_1 => exact h
      case h_2 values hvalues =>
        simp only [wp_bind, beginTxn, commitTxn, countRow, update, wp_get, wp_modify, wp_pure]
        refine wp_mono (HasPages.insertExecutor _ (n := 0) ?_ values) ?_
        · exact (h.table hinfo).congr rfl fun _ => rfl
        · intro _ db₁ h₁
          split
          · exact of_pages ((h₁.setRowCount ..).congr rfl fun _ => rfl)
          · exact of_pages (h₁.congr rfl fun _ => rfl)

theorem executeSelect (h : HasFiles db) (stmt : Statement) :
    wp (fun _ => True) (executeSelect stmt) (fun _ db' => HasFiles db') db := by
  simp only [Engine.executeSelect, wp_bind, wp_get]
  split
  case h_1 => exact h
  case h_2 info hinfo =>
    split
    case h_1 => exact h
    case h_2 predicate hpredicate =>
      rw [wp_bind]
      refine wp_mono ((h.table hinfo).scanTable (I := fun _ _ => True) (fun _ _ _ => trivial)
        fun _ => trivial) ?_
      rintro tuples db₁ ⟨m, h₁, -⟩
      split <;> exact of_pages h₁

theorem executeDelete (h : HasFiles db) (stmt : Statement) :
    wp (fun _ => True) (executeDelete stmt) (fun _ db' => HasFiles db') db := by
  simp only [Engine.executeDelete, wp_bind, wp_get]
  split
  case h_1 => exact h
  case h_2 info hinfo =>
    split
    case h_1 => exact h
    case h_2 predicate hpredicate =>
      simp only [wp_bind, beginTxn, commitTxn, update, wp_get, wp_modify, wp_pure]
      refine wp_mono (HasPages.deleteExecutor _ (n := 0) ?_ _) ?_
      · exact (h.table hinfo).congr rfl fun _ => rfl
      · rintro deleted db₁ ⟨m, h₁⟩
        exact of_pages (h₁.congr rfl fun _ => rfl)

/-- A statement that returns leaves every table its file. -/
theorem execute (h : HasFiles db) (stmt : Statement) :
    wp (fun _ => True) (execute stmt) (fun _ db' => HasFiles db') db := by
  rw [execute_eq]
  cases stmt.type with
  | createTable => exact h.executeCreateTable stmt
  | insert => exact h.executeInsert stmt
  | select => exact h.executeSelect stmt
  | delete => exact h.executeDelete stmt

theorem step (h : HasFiles db) {stmt : Statement} {db' : Engine} {reply : Reply}
    (hstep : step db stmt = .ok (db', reply)) : HasFiles db' :=
  wp_of_ok (h.execute stmt) (run_of_step hstep)

end HasFiles

/-- Every engine that statements lead to. -/
theorem hasFiles_of_run {disk : Str → Option File} {logMgr : LogManager} {stmts : List Statement}
    {replies : List Reply}
    (hrun : executeAll (Engine.new disk logMgr) stmts = .ok (db, replies)) : HasFiles db :=
  Machine.run_invariant (fun hstep h => h.step hstep) hrun ⟨_, filed_new disk logMgr⟩

end MiniDB.Engine
